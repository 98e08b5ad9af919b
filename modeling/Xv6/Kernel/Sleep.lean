/-
# Kernel.Sleep -- proc.c: sleep, wakeup and the scheduler

Every condition sleep in the kernel follows one pattern.  A sleeper holds a
spinlock `lk`, finds its condition false and calls `sleep(chan, lk)`.  A
waker takes `lk`, makes the condition true and calls `wakeup(chan)`.  `sleep`
takes `p->lock` before it gives up `lk`, and `wakeup` looks at each process
under that process's `p->lock`.  That order is what keeps a wakeup from being
lost.

The model is a table of `n` processes, each running the sleeper or the waker
pattern on a channel `c`, with `lockOf c` its condition lock.  One channel
always goes with one lock, as in every pair of the kernel: `&pi->nread` with
`pi->lock`, `&log` with `log.lock`, `&ticks` with `tickslock`, and so on.  Each
`acquire` and `release` of a spinlock is a step of its own.  So is each stretch
of code under `p->lock`: the rest of `sleep` up to `sched()`, the scheduler's
pick of a `RUNNABLE` process and its release of `p->lock` after the switch
back, and the test of one process in `wakeup`'s loop.

`SleepSys.Moves` says once what a step of `p` can do.  `Inv.moves` carries
the invariant across any such step, and each step of `SleepSys.step` is a
`Moves` (`Inv.step`).  The invariant says:

* each condition lock is held by exactly the process in code that holds it
  (`Lock.Held`), and `p->lock` by exactly the points that hold it;
* a `SLEEPING` process is switched out inside `sleep`;
* while a waker holds `lockOf c` inside `wakeup(c)`, no process its loop has
  passed is asleep on `c` or about to be.

When `wakeup(c)` returns, the loop has passed every process, so none is
asleep on `c` (`wakeup_no_lost`).
-/
import Xv6.Theory.Paths
import Xv6.Theory.Lock

namespace Xv6

open Paths

set_option autoImplicit false

/-- `enum procstate`. -/
inductive ProcState
  | UNUSED
  | USED
  | SLEEPING
  | RUNNABLE
  | RUNNING
  | ZOMBIE
  deriving DecidableEq, Repr

/-- Where a process is in the sleeper or the waker pattern on channel `c`. -/
inductive SleepPc (C : Type)
  | idle
  /-- the sleeper, at `acquire(lk)` -/
  | acquire (c : C)
  /-- at `while(!cond)`, holding `lk` -/
  | check (c : C)
  /-- in `sleep`, at `acquire(&p->lock)` -/
  | sleepAcquire (c : C)
  /-- at `release(lk)`, holding `lk` and `p->lock` -/
  | sleepRelease (c : C)
  /-- at `p->chan = chan; p->state = SLEEPING; sched();`, holding `p->lock` -/
  | sleepSched (c : C)
  /-- switched out; the scheduler still holds `p->lock` -/
  | switched (c : C)
  /-- off the CPU, `SLEEPING` or, once woken, `RUNNABLE` -/
  | asleep (c : C)
  /-- back from `sched()`, holding `p->lock`, at `p->chan = 0; release(&p->lock);` -/
  | resumed (c : C)
  /-- at `acquire(lk)` at the end of `sleep` -/
  | reacquire (c : C)
  /-- past the loop, holding `lk`: the caller uses up the condition and releases `lk` -/
  | consume (c : C)
  /-- the waker, at `acquire(lk)` -/
  | wakerAcquire (c : C)
  /-- holding `lk`, about to make the condition true -/
  | wakerSet (c : C)
  /-- in `wakeup(chan)`, at `proc[k]` -/
  | wakeup (c : C) (k : Nat)
  /-- `wakeup(chan)` has returned; `lk` is still held -/
  | woke (c : C)
  deriving DecidableEq, Repr

namespace SleepPc

variable {C : Type}

/-- The channel whose condition lock the process holds here. -/
def lockOn : SleepPc C → Option C
  | .check c | .sleepAcquire c | .sleepRelease c | .consume c | .wakerSet c | .wakeup c _ | .woke c => some c
  | _ => none

/-- The points where `p->lock` is held: by the process, or by the scheduler
that switched it out. -/
def ownLock : SleepPc C → Bool
  | .sleepRelease _ | .sleepSched _ | .switched _ | .resumed _ => true
  | _ => false

/-- The points where a process can be `SLEEPING`. -/
def parked : SleepPc C → Bool
  | .switched _ | .asleep _ => true
  | _ => false

/-- The processes `wakeup(c)`'s loop has passed: those before `proc[k]`, and
all of them once it has returned. -/
def visited : SleepPc C → C → Nat → Prop
  | .wakeup c' k, c, i => c' = c ∧ i < k
  | .woke c', c, _ => c' = c
  | _, _, _ => False

variable {L : Type} [DecidableEq L]

/-- The points where the process holds condition lock `l`. -/
def holds (lockOf : C → L) (l : L) (pc : SleepPc C) : Bool :=
  match pc.lockOn with
  | some c => decide (lockOf c = l)
  | none => false

end SleepPc

/-- A table of `n` processes in the sleep and wakeup patterns, over channels
`C` and condition locks `L`. -/
structure SleepSys (n : Nat) (C L : Type) where
  /-- the holder of each condition lock -/
  holder : L → Option (Fin n)
  /-- `p->lock` is held -/
  plock : Fin n → Bool
  state : Fin n → ProcState
  chan : Fin n → Option C
  /-- each channel's condition -/
  cond : C → Bool
  pc : Fin n → SleepPc C

/-- What a process does next: start the sleeper or the waker pattern on a
channel, or take its next step (the scheduler's, when it is switched out). -/
inductive SleepAct (C : Type)
  | sleeper (c : C)
  | waker (c : C)
  | next

namespace SleepSys

variable {n : Nat} {C L : Type} [DecidableEq C] [DecidableEq L]

set_option linter.unusedSectionVars false

/-- Every process running outside the patterns, every lock free. -/
def start (cond : C → Bool) : SleepSys n C L :=
  { holder := fun _ => none, plock := fun _ => false, state := fun _ => .RUNNING, chan := fun _ => none, cond,
    pc := fun _ => .idle }

/-- `p` is `SLEEPING` on `c`. -/
def SleepingOn (s : SleepSys n C L) (p : Fin n) (c : C) : Prop := s.state p = .SLEEPING ∧ s.chan p = some c

section Segments

variable (s : SleepSys n C L) (p : Fin n)

def goto (x : SleepPc C) : SleepSys n C L := { s with pc := Function.update s.pc p x }

/-- `acquire(l)`: it spins while another process holds `l`. -/
def acquire (l : L) (x : SleepPc C) : Option (SleepSys n C L) :=
  if s.holder l = none then some (({ s with holder := Function.update s.holder l (some p) } : SleepSys n C L).goto p x)
  else none

def release (l : L) : SleepSys n C L := { s with holder := Function.update s.holder l none }

/-- `p->lock` becomes held or free. -/
def setPlock (held : Bool) : SleepSys n C L := { s with plock := Function.update s.plock p held }

@[simp] theorem goto_pc (x : SleepPc C) : (s.goto p x).pc = Function.update s.pc p x := rfl
@[simp] theorem goto_state (x : SleepPc C) : (s.goto p x).state = s.state := rfl
@[simp] theorem goto_chan (x : SleepPc C) : (s.goto p x).chan = s.chan := rfl
@[simp] theorem setPlock_state (held : Bool) : (s.setPlock p held).state = s.state := rfl
@[simp] theorem setPlock_chan (held : Bool) : (s.setPlock p held).chan = s.chan := rfl

/-- One pass of `wakeup(c)`'s loop at `proc[k]`, by `p`: skip `myproc()`,
else under `proc[k]`'s lock make it `RUNNABLE` if it sleeps on `c`. -/
def wakeupAt (c : C) (k : Nat) : Option (SleepSys n C L) :=
  if lt : k < n then
    let q : Fin n := ⟨k, lt⟩
    if q = p then some (s.goto p (.wakeup c (k + 1)))
    else if s.plock q = false then
      some (({ s with state := if s.state q = .SLEEPING ∧ s.chan q = some c then Function.update s.state q .RUNNABLE
                else s.state } : SleepSys n C L).goto p (.wakeup c (k + 1)))
    else none
  else some (s.goto p (.woke c))

end Segments

/-- One step of process `p`, with `lockOf c` the condition lock of channel `c`. -/
def step (lockOf : C → L) : Fin n × SleepAct C → SleepSys n C L → Option (SleepSys n C L)
  | (p, .sleeper c), s => if s.pc p = .idle then some (s.goto p (.acquire c)) else none
  | (p, .waker c), s => if s.pc p = .idle then some (s.goto p (.wakerAcquire c)) else none
  | (p, .next), s =>
      match s.pc p with
      | .idle => none
      | .acquire c => s.acquire p (lockOf c) (.check c)
      | .check c => some (if s.cond c then s.goto p (.consume c) else s.goto p (.sleepAcquire c))
      | .sleepAcquire c => if s.plock p = false then some ((s.setPlock p true).goto p (.sleepRelease c)) else none
      | .sleepRelease c => some ((s.release (lockOf c)).goto p (.sleepSched c))
      | .sleepSched c =>
          some (({ s with chan := Function.update s.chan p (some c), state := Function.update s.state p .SLEEPING } :
            SleepSys n C L).goto p (.switched c))
      -- the scheduler, back from the switch: `c->proc = 0; release(&p->lock);`
      | .switched c => some ((s.setPlock p false).goto p (.asleep c))
      -- the scheduler picks `p`: `acquire(&p->lock)`, `RUNNABLE` to `RUNNING`, switch to it
      | .asleep c =>
          if s.plock p = false ∧ s.state p = .RUNNABLE then
            some (({ s.setPlock p true with state := Function.update s.state p .RUNNING } : SleepSys n C L).goto p
              (.resumed c))
          else none
      | .resumed c =>
          some (({ s.setPlock p false with chan := Function.update s.chan p none } : SleepSys n C L).goto p
            (.reacquire c))
      | .reacquire c => s.acquire p (lockOf c) (.check c)
      | .consume c =>
          some ((({ s with cond := Function.update s.cond c false } : SleepSys n C L).release (lockOf c)).goto p .idle)
      | .wakerAcquire c => s.acquire p (lockOf c) (.wakerSet c)
      | .wakerSet c =>
          some (({ s with cond := Function.update s.cond c true } : SleepSys n C L).goto p (.wakeup c 0))
      | .wakeup c k => s.wakeupAt p c k
      | .woke c => some ((s.release (lockOf c)).goto p .idle)

/-! ## What a step can do -/

section Moves

variable (lockOf : C → L)

/-- What a step of `p` may do: move `p` to `x`; take the condition lock that
`x` holds and give up the one `p` no longer holds; set `p->lock` as `x` says;
change `p`'s own state and channel; and make other processes `RUNNABLE` from
`SLEEPING`. -/
structure Moves (s s' : SleepSys n C L) (p : Fin n) (x : SleepPc C) : Prop where
  pcs : s'.pc = Function.update s.pc p x
  holders : ∀ l, s'.holder l =
    if x.holds lockOf l then some p else if (s.pc p).holds lockOf l then none else s.holder l
  plocks : s'.plock = Function.update s.plock p x.ownLock
  chans : ∀ q, q ≠ p → s'.chan q = s.chan q
  states : ∀ q, q ≠ p → s'.state q = s.state q ∨ s.state q = .SLEEPING ∧ s'.state q = .RUNNABLE

/-- The condition locks are held by exactly the processes in code that holds
them, and `p->lock` by exactly the points that hold it; a `SLEEPING` process
is switched out; and no process that `wakeup(c)`'s loop has passed is asleep
on `c` or about to go to sleep on it. -/
structure Inv (s : SleepSys n C L) : Prop where
  locks : ∀ l, Lock.Held (SleepPc.holds lockOf l) (s.holder l) s.pc
  own : ∀ q, s.plock q = (s.pc q).ownLock
  parked : ∀ q, s.state q = .SLEEPING → (s.pc q).parked = true
  woken : ∀ w c q, (s.pc w).visited c q.val → q ≠ w → ¬ s.SleepingOn q c ∧ s.pc q ≠ .sleepSched c

variable {lockOf} {s s' : SleepSys n C L} {p : Fin n} {x : SleepPc C}

theorem holds_of_lockOn {pc : SleepPc C} {c : C} (on : pc.lockOn = some c) (l : L) :
    pc.holds lockOf l = decide (lockOf c = l) := by
  rw [SleepPc.holds, on]

theorem holds_of_lockOn_none {pc : SleepPc C} (on : pc.lockOn = none) (l : L) : pc.holds lockOf l = false := by
  rw [SleepPc.holds, on]

/-- A process other than `p` asleep on `c` after the step was asleep on it before. -/
theorem Moves.sleepingOn (moves : Moves lockOf s s' p x) {q : Fin n} (other : q ≠ p) {c : C}
    (asleep : s'.SleepingOn q c) : s.SleepingOn q c := by
  obtain ⟨sleeping, onC⟩ := asleep
  rcases moves.states q other with same | ⟨_, woken⟩
  · exact ⟨same ▸ sleeping, moves.chans q other ▸ onC⟩
  · rw [woken] at sleeping
    cases sleeping

/-- The waker in `wakeup(c)` holds `lockOf c`. -/
theorem Inv.waker_holds (inv : s.Inv lockOf) {w : Fin n} {c : C} {i : Nat} (visiting : (s.pc w).visited c i) :
    s.holder (lockOf c) = some w := by
  apply (inv.locks (lockOf c) w).mpr
  have on : (s.pc w).lockOn = some c := by
    revert visiting
    cases s.pc w <;> simp [SleepPc.visited, SleepPc.lockOn]
    all_goals exact fun same _ => same
  rw [holds_of_lockOn on, decide_eq_true_eq]

/-- A process at a point that is not parked is not `SLEEPING`. -/
theorem Inv.awake (inv : s.Inv lockOf) (running : (s.pc p).parked = false) : s.state p ≠ .SLEEPING :=
  fun sleeping => absurd (inv.parked p sleeping) (by rw [running]; decide)

/-- Any step that `Moves` describes keeps the invariant, given what it does to
`p` itself: the lock it takes is free or its own, it sleeps only where it is
parked, its own loop passes only processes that are not about to sleep on the
channel, and it does not go to sleep on a channel whose waker has passed it. -/
theorem Inv.moves (inv : s.Inv lockOf) (moves : Moves lockOf s s' p x)
    (free : ∀ l, x.holds lockOf l = true → s.holder l = none ∨ s.holder l = some p)
    (parked : s'.state p = .SLEEPING → x.parked = true)
    (visits : ∀ c q, x.visited c q.val → q ≠ p → ¬ s'.SleepingOn q c ∧ s'.pc q ≠ .sleepSched c)
    (passed : ∀ w c, w ≠ p → (s.pc w).visited c p.val → ¬ s'.SleepingOn p c ∧ x ≠ .sleepSched c) :
    s'.Inv lockOf := by
  refine ⟨fun l => ?_, ?_, fun q sleeping => ?_, fun w c q visiting other => ?_⟩
  · rw [moves.pcs, moves.holders l]
    exact (inv.locks l).step p x (free l)
  · intro q
    rw [moves.plocks, moves.pcs]
    by_cases same : q = p
    · subst same
      rw [Function.update_self, Function.update_self]
    · rw [Function.update_of_ne same, Function.update_of_ne same]
      exact inv.own q
  · rw [moves.pcs]
    by_cases same : q = p
    · subst same
      rw [Function.update_self]
      exact parked sleeping
    · rw [Function.update_of_ne same]
      rcases moves.states q same with kept | ⟨_, woken⟩
      · exact inv.parked q (kept ▸ sleeping)
      · rw [woken] at sleeping
        cases sleeping
  · by_cases waker : w = p
    · subst waker
      rw [moves.pcs, Function.update_self] at visiting
      exact visits c q visiting other
    rw [moves.pcs, Function.update_of_ne waker] at visiting
    by_cases same : q = p
    · subst same
      obtain ⟨awake, notSched⟩ := passed w c waker visiting
      exact ⟨awake, by rw [moves.pcs, Function.update_self]; exact notSched⟩
    · obtain ⟨awake, notSched⟩ := inv.woken w c q visiting other
      exact ⟨fun asleep => awake (moves.sleepingOn same asleep),
        by rw [moves.pcs, Function.update_of_ne same]; exact notSched⟩

/-- The holder of a condition lock is the process in code that holds it. -/
theorem Inv.holder_of (inv : s.Inv lockOf) {c : C} (on : (s.pc p).lockOn = some c) : s.holder (lockOf c) = some p :=
  (inv.locks (lockOf c) p).mpr (by rw [holds_of_lockOn on, decide_eq_true_eq])

/-- A step of `p` that keeps `p`'s state and channel, does not reach `sleep`'s
last stretch and passes nobody new in a loop of its own. -/
theorem Inv.moves_frame (inv : s.Inv lockOf) (moves : Moves lockOf s s' p x)
    (free : ∀ l, x.holds lockOf l = true → s.holder l = none ∨ s.holder l = some p)
    (states : s'.state p = s.state p) (chans : s'.chan p = s.chan p)
    (parked : s.state p = .SLEEPING → x.parked = true) (notSched : ∀ c, x ≠ .sleepSched c)
    (visits : ∀ c q, x.visited c q.val → q ≠ p → ¬ s'.SleepingOn q c ∧ s'.pc q ≠ .sleepSched c) : s'.Inv lockOf :=
  inv.moves moves free (fun sleeping => parked (states ▸ sleeping)) visits fun w c other visiting =>
    ⟨fun asleep => (inv.woken w c p visiting (Ne.symm other)).1 ⟨states ▸ asleep.1, chans ▸ asleep.2⟩, notSched c⟩

/-! ### The lock a step takes or gives up -/

theorem holders_same (inv : s.Inv lockOf) (same : x.lockOn = (s.pc p).lockOn) (kept : s'.holder = s.holder) (l : L) :
    s'.holder l = if x.holds lockOf l then some p else if (s.pc p).holds lockOf l then none else s.holder l := by
  rw [kept]
  cases on : (s.pc p).lockOn with
  | none => rw [holds_of_lockOn_none (same.trans on), holds_of_lockOn_none on, if_neg Bool.false_ne_true,
      if_neg Bool.false_ne_true]
  | some c =>
      rw [holds_of_lockOn (same.trans on), holds_of_lockOn on]
      by_cases mine : lockOf c = l
      · rw [if_pos (decide_eq_true mine), ← mine]
        exact inv.holder_of on
      · rw [if_neg (by simpa using mine), if_neg (by simpa using mine)]

theorem free_same (inv : s.Inv lockOf) (same : x.lockOn = (s.pc p).lockOn) (l : L) (held : x.holds lockOf l = true) :
    s.holder l = none ∨ s.holder l = some p :=
  .inr ((inv.locks l p).mpr (by rwa [SleepPc.holds, ← same]))

theorem holders_acquire {c : C} (before : (s.pc p).lockOn = none) (after : x.lockOn = some c) (l : L) :
    Function.update s.holder (lockOf c) (some p) l =
      if x.holds lockOf l then some p else if (s.pc p).holds lockOf l then none else s.holder l := by
  rw [holds_of_lockOn after, holds_of_lockOn_none before, if_neg Bool.false_ne_true]
  by_cases mine : lockOf c = l
  · subst mine
    rw [Function.update_self, if_pos (decide_eq_true rfl)]
  · rw [Function.update_of_ne (Ne.symm mine), if_neg (by simpa using mine)]

theorem free_acquire {c : C} (after : x.lockOn = some c) (free : s.holder (lockOf c) = none) (l : L)
    (held : x.holds lockOf l = true) : s.holder l = none ∨ s.holder l = some p := by
  rw [holds_of_lockOn after, decide_eq_true_eq] at held
  exact .inl (held ▸ free)

theorem holders_release {c : C} (before : (s.pc p).lockOn = some c) (after : x.lockOn = none) (l : L) :
    Function.update s.holder (lockOf c) none l =
      if x.holds lockOf l then some p else if (s.pc p).holds lockOf l then none else s.holder l := by
  rw [holds_of_lockOn_none after, holds_of_lockOn before, if_neg Bool.false_ne_true]
  by_cases mine : lockOf c = l
  · subst mine
    rw [Function.update_self, if_pos (decide_eq_true rfl)]
  · rw [Function.update_of_ne (Ne.symm mine), if_neg (by simpa using mine)]

theorem free_none (after : x.lockOn = none) (l : L) (held : x.holds lockOf l = true) :
    s.holder l = none ∨ s.holder l = some p := by
  rw [holds_of_lockOn_none after] at held
  cases held

theorem plocks_same (inv : s.Inv lockOf) (own : x.ownLock = (s.pc p).ownLock) (kept : s'.plock = s.plock) :
    s'.plock = Function.update s.plock p x.ownLock := by
  rw [kept, own, ← inv.own p, Function.update_eq_self]

end Moves

/-! ## Every step keeps the invariant -/

section Steps

variable {lockOf : C → L} {s : SleepSys n C L} (p : Fin n)

/-- `p` goes on holding the same locks, awake. -/
theorem Inv.goto (inv : s.Inv lockOf) {x : SleepPc C} (same : x.lockOn = (s.pc p).lockOn)
    (own : x.ownLock = (s.pc p).ownLock) (running : (s.pc p).parked = false) (notSched : ∀ c, x ≠ .sleepSched c)
    (visits : ∀ c i, ¬ x.visited c i) : (s.goto p x).Inv lockOf :=
  inv.moves_frame ⟨rfl, holders_same inv same rfl, plocks_same inv own rfl, fun _ _ => rfl, fun _ _ => .inl rfl⟩
    (free_same inv same) rfl rfl (fun sleeping => absurd sleeping (inv.awake running)) notSched
    fun c q v _ => absurd v (visits c q.val)

/-- `acquire(lockOf c)`, once it is free. -/
theorem Inv.acquire (inv : s.Inv lockOf) {c : C} {x : SleepPc C} {s' : SleepSys n C L}
    (acquired : s.acquire p (lockOf c) x = some s') (before : (s.pc p).lockOn = none) (after : x.lockOn = some c)
    (own : x.ownLock = (s.pc p).ownLock) (running : (s.pc p).parked = false) (notSched : ∀ c, x ≠ .sleepSched c)
    (visits : ∀ c i, ¬ x.visited c i) : s'.Inv lockOf := by
  unfold SleepSys.acquire at acquired
  split at acquired
  · rename_i free
    cases acquired
    exact inv.moves_frame ⟨rfl, holders_acquire before after, plocks_same inv own rfl, fun _ _ => rfl, fun _ _ => .inl rfl⟩
      (free_acquire after free) rfl rfl (fun sleeping => absurd sleeping (inv.awake running)) notSched
      fun c q v _ => absurd v (visits c q.val)
  · cases acquired

/-- `acquire(&p->lock)` in `sleep`. -/
theorem Inv.sleepAcquire (inv : s.Inv lockOf) {c : C} (at_ : s.pc p = .sleepAcquire c) :
    ((s.setPlock p true).goto p (.sleepRelease c)).Inv lockOf :=
  inv.moves_frame ⟨rfl, holders_same inv (by rw [at_]; rfl) rfl, rfl, fun _ _ => rfl, fun _ _ => .inl rfl⟩
    (free_same inv (by rw [at_]; rfl)) rfl rfl (fun sleeping => absurd sleeping (inv.awake (by rw [at_]; rfl)))
    nofun nofun

/-- `release(lk)` in `sleep`, holding `p->lock`: a waker that holds `lk` now
has not passed `p`, since `p` held `lk` until this step. -/
theorem Inv.sleepRelease (inv : s.Inv lockOf) {c : C} (at_ : s.pc p = .sleepRelease c) :
    ((s.release (lockOf c)).goto p (.sleepSched c)).Inv lockOf := by
  have mine := inv.holder_of (p := p) (by rw [at_]; rfl)
  refine inv.moves ⟨rfl, holders_release (by rw [at_]; rfl) rfl, plocks_same inv (by rw [at_]; rfl) rfl, fun _ _ => rfl,
    fun _ _ => .inl rfl⟩ (free_none rfl) (fun sleeping => absurd sleeping (inv.awake (by rw [at_]; rfl))) nofun ?_
  intro w c' other visiting
  have awake : ¬ s.SleepingOn p c' := fun asleep => inv.awake (by rw [at_]; rfl) asleep.1
  refine ⟨awake, fun same => ?_⟩
  -- a waker on `c` would hold `lockOf c`, which `p` holds
  cases same
  exact other (Option.some_inj.mp ((inv.waker_holds visiting).symm.trans mine))

/-- `p->chan = chan; p->state = SLEEPING; sched();`: no waker on `c` has
passed `p`, so `p` may go to sleep on `c`. -/
theorem Inv.sleepSched (inv : s.Inv lockOf) {c : C} (at_ : s.pc p = .sleepSched c) :
    (({ s with chan := Function.update s.chan p (some c), state := Function.update s.state p .SLEEPING } :
      SleepSys n C L).goto p (.switched c)).Inv lockOf := by
  refine inv.moves ⟨rfl, holders_same inv (by rw [at_]; rfl) rfl, plocks_same inv (by rw [at_]; rfl) rfl,
    fun q other => Function.update_of_ne other .., fun q other => .inl (Function.update_of_ne other ..)⟩
    (free_none rfl) (fun _ => rfl) nofun ?_
  intro w c' other visiting
  refine ⟨fun asleep => ?_, nofun⟩
  have onC : c = c' := by simpa using asleep.2
  subst onC
  exact (inv.woken w c p visiting (Ne.symm other)).2 at_

/-- The scheduler's `release(&p->lock)` after the switch back. -/
theorem Inv.switched (inv : s.Inv lockOf) {c : C} (at_ : s.pc p = .switched c) :
    ((s.setPlock p false).goto p (.asleep c)).Inv lockOf :=
  inv.moves_frame ⟨rfl, holders_same inv (by rw [at_]; rfl) rfl, rfl, fun _ _ => rfl, fun _ _ => .inl rfl⟩
    (free_none rfl) rfl rfl (fun _ => rfl) nofun nofun

/-- The scheduler picks a `RUNNABLE` `p` and switches to it. -/
theorem Inv.pick (inv : s.Inv lockOf) {c : C} (at_ : s.pc p = .asleep c) :
    (({ s.setPlock p true with state := Function.update s.state p .RUNNING } : SleepSys n C L).goto p
      (.resumed c)).Inv lockOf :=
  inv.moves ⟨rfl, holders_same inv (by rw [at_]; rfl) rfl, rfl, fun _ _ => rfl,
    fun q other => .inl (Function.update_of_ne other ..)⟩ (free_none rfl) (by simp) nofun
    fun _ _ _ _ => ⟨fun asleep => by simp [SleepingOn] at asleep, nofun⟩

/-- `p->chan = 0; release(&p->lock);` at the end of `sleep`. -/
theorem Inv.resumed (inv : s.Inv lockOf) {c : C} (at_ : s.pc p = .resumed c) :
    (({ s.setPlock p false with chan := Function.update s.chan p none } : SleepSys n C L).goto p
      (.reacquire c)).Inv lockOf :=
  inv.moves ⟨rfl, holders_same inv (by rw [at_]; rfl) rfl, rfl, fun q other => Function.update_of_ne other ..,
    fun _ _ => .inl rfl⟩ (free_none rfl) (fun sleeping => absurd sleeping (inv.awake (by rw [at_]; rfl))) nofun
    fun _ _ _ _ => ⟨fun asleep => by simp [SleepingOn] at asleep, nofun⟩

/-- The caller's use of the condition, then `release(lk)`. -/
theorem Inv.consume (inv : s.Inv lockOf) {c : C} (at_ : s.pc p = .consume c) (b : Bool) :
    ((({ s with cond := Function.update s.cond c b } : SleepSys n C L).release (lockOf c)).goto p .idle).Inv lockOf :=
  inv.moves_frame ⟨rfl, holders_release (by rw [at_]; rfl) rfl, plocks_same inv (by rw [at_]; rfl) rfl, fun _ _ => rfl,
    fun _ _ => .inl rfl⟩ (free_none rfl) rfl rfl (fun sleeping => absurd sleeping (inv.awake (by rw [at_]; rfl)))
    nofun nofun

/-- The waker makes the condition true and calls `wakeup(c)`. -/
theorem Inv.wakerSet (inv : s.Inv lockOf) {c : C} (at_ : s.pc p = .wakerSet c) :
    (({ s with cond := Function.update s.cond c true } : SleepSys n C L).goto p (.wakeup c 0)).Inv lockOf :=
  inv.moves_frame ⟨rfl, holders_same inv (by rw [at_]; rfl) rfl, plocks_same inv (by rw [at_]; rfl) rfl, fun _ _ => rfl,
    fun _ _ => .inl rfl⟩ (free_same inv (by rw [at_]; rfl)) rfl rfl
    (fun sleeping => absurd sleeping (inv.awake (by rw [at_]; rfl))) nofun
    fun _ _ visiting => absurd visiting.2 (Nat.not_lt_zero _)

/-- `release(lk)` after `wakeup` has returned. -/
theorem Inv.woke (inv : s.Inv lockOf) {c : C} (at_ : s.pc p = .woke c) :
    ((s.release (lockOf c)).goto p .idle).Inv lockOf :=
  inv.moves_frame ⟨rfl, holders_release (by rw [at_]; rfl) rfl, plocks_same inv (by rw [at_]; rfl) rfl, fun _ _ => rfl,
    fun _ _ => .inl rfl⟩ (free_none rfl) rfl rfl (fun sleeping => absurd sleeping (inv.awake (by rw [at_]; rfl)))
    nofun nofun

/-- A process whose `p->lock` is free is not in `sleep`'s last stretch. -/
theorem Inv.not_sched (inv : s.Inv lockOf) {q : Fin n} (free : s.plock q = false) (c : C) :
    s.pc q ≠ .sleepSched c := fun sched => by
  have own := inv.own q
  rw [free, sched] at own
  cases own

/-- One pass of `wakeup(c)`'s loop: the process at `proc[k]` is not about to
sleep, since its `p->lock` is free, and after the pass it is not asleep on
`c`.  Past the table, `wakeup` returns having passed every process. -/
theorem Inv.wakeupAt (inv : s.Inv lockOf) {c : C} {k : Nat} (at_ : s.pc p = .wakeup c k) {s' : SleepSys n C L}
    (stepped : s.wakeupAt p c k = some s') : s'.Inv lockOf := by
  have passed : ∀ q : Fin n, q.val < k → q ≠ p → ¬ s.SleepingOn q c ∧ s.pc q ≠ .sleepSched c :=
    fun q lt other => inv.woken p c q (by rw [at_]; exact ⟨rfl, lt⟩) other
  have awake := inv.awake (p := p) (by rw [at_]; rfl)
  have same : ∀ {x : SleepPc C}, x.lockOn = some c → x.lockOn = (s.pc p).lockOn := fun on => by rw [on, at_]; rfl
  unfold SleepSys.wakeupAt at stepped
  split at stepped
  · rename_i lt
    dsimp only at stepped
    split at stepped
    · -- `proc[k]` is `p` itself: skipped
      rename_i self
      cases stepped
      refine inv.moves_frame ⟨rfl, holders_same inv (same rfl) rfl, plocks_same inv (by rw [at_]; rfl) rfl,
        fun _ _ => rfl, fun _ _ => .inl rfl⟩ (free_same inv (same rfl)) rfl rfl (fun sleeping => absurd sleeping awake)
        nofun ?_
      rintro c' q ⟨rfl, below⟩ other
      have before : q.val < k := by
        rcases Nat.lt_succ_iff_lt_or_eq.mp below with lt' | atK
        · exact lt'
        · exact absurd ((Fin.ext atK : q = ⟨k, lt⟩).trans self) other
      obtain ⟨asleep, notSched⟩ := passed q before other
      exact ⟨asleep, by rw [goto_pc, Function.update_of_ne other]; exact notSched⟩
    · split at stepped
      · -- under `proc[k]`'s lock: `SLEEPING` on `c` becomes `RUNNABLE`
        rename_i self free
        have pcs : s'.pc = Function.update s.pc p (.wakeup c (k + 1)) := by cases stepped; rfl
        have kept : s'.holder = s.holder ∧ s'.plock = s.plock ∧ s'.chan = s.chan := by
          cases stepped
          exact ⟨rfl, rfl, rfl⟩
        have states : s'.state = if s.state ⟨k, lt⟩ = .SLEEPING ∧ s.chan ⟨k, lt⟩ = some c then
            Function.update s.state ⟨k, lt⟩ .RUNNABLE else s.state := by
          cases stepped
          rfl
        have moves : Moves lockOf s s' p (.wakeup c (k + 1)) := by
          refine ⟨pcs, holders_same inv (same rfl) kept.1, plocks_same inv (by rw [at_]; rfl) kept.2.1,
            fun q _ => by rw [kept.2.2], fun q _ => ?_⟩
          rw [states]
          split
          · rename_i sleeping
            by_cases looked : q = ⟨k, lt⟩
            · subst looked
              exact .inr ⟨sleeping.1, by simp⟩
            · exact .inl (by simp [Function.update_of_ne looked])
          · exact .inl rfl
        have mine : s'.state p = s.state p := by
          rw [states]
          split
          · exact Function.update_of_ne (Ne.symm self) ..
          · rfl
        refine inv.moves_frame moves (free_same inv (same rfl)) mine (by rw [kept.2.2])
          (fun sleeping => absurd sleeping awake) nofun ?_
        rintro c' q ⟨rfl, below⟩ other
        rw [pcs, Function.update_of_ne other]
        rcases Nat.lt_succ_iff_lt_or_eq.mp below with before | atK
        · obtain ⟨asleep, notSched⟩ := passed q before other
          exact ⟨fun now => asleep (moves.sleepingOn other now), notSched⟩
        · -- the process just looked at
          have atQ : q = ⟨k, lt⟩ := Fin.ext atK
          subst atQ
          refine ⟨fun now => ?_, inv.not_sched free c⟩
          obtain ⟨sleeping, onC⟩ := now
          rw [states] at sleeping
          rw [kept.2.2] at onC
          split at sleeping
          · simp at sleeping
          · rename_i notAsleep
            exact notAsleep ⟨sleeping, onC⟩
      · cases stepped
  · -- past the table: `wakeup(c)` returns
    rename_i past
    cases stepped
    refine inv.moves_frame ⟨rfl, holders_same inv (same rfl) rfl, plocks_same inv (by rw [at_]; rfl) rfl,
      fun _ _ => rfl, fun _ _ => .inl rfl⟩ (free_same inv (same rfl)) rfl rfl (fun sleeping => absurd sleeping awake)
      nofun ?_
    rintro c' q rfl other
    obtain ⟨asleep, notSched⟩ := passed q (by omega) other
    exact ⟨asleep, by rw [goto_pc, Function.update_of_ne other]; exact notSched⟩

/-- Every step keeps the invariant. -/
theorem Inv.step (inv : s.Inv lockOf) {e : Fin n × SleepAct C} {s' : SleepSys n C L}
    (stepped : SleepSys.step lockOf e s = some s') : s'.Inv lockOf := by
  obtain ⟨p, act⟩ := e
  cases act with
  | sleeper c | waker c =>
      simp only [SleepSys.step] at stepped
      split at stepped
      · rename_i idle
        cases stepped
        exact inv.goto p (by rw [idle]; rfl) (by rw [idle]; rfl) (by rw [idle]; rfl) nofun nofun
      · cases stepped
  | next =>
      -- one case per point of the code
      cases at_ : s.pc p with
      | idle => simp [SleepSys.step, at_] at stepped
      | acquire c | reacquire c | wakerAcquire c =>
          simp only [SleepSys.step, at_] at stepped
          exact inv.acquire p stepped (by rw [at_]; rfl) rfl (by rw [at_]; rfl) (by rw [at_]; rfl) nofun nofun
      | check c =>
          simp only [SleepSys.step, at_, Option.some.injEq] at stepped
          subst stepped
          split
          · exact inv.goto p (by rw [at_]; rfl) (by rw [at_]; rfl) (by rw [at_]; rfl) nofun nofun
          · exact inv.goto p (by rw [at_]; rfl) (by rw [at_]; rfl) (by rw [at_]; rfl) nofun nofun
      | sleepAcquire c =>
          simp only [SleepSys.step, at_] at stepped
          split at stepped
          · cases stepped
            exact inv.sleepAcquire p at_
          · cases stepped
      | sleepRelease c =>
          simp only [SleepSys.step, at_, Option.some.injEq] at stepped
          exact stepped ▸ inv.sleepRelease p at_
      | sleepSched c =>
          simp only [SleepSys.step, at_, Option.some.injEq] at stepped
          exact stepped ▸ inv.sleepSched p at_
      | switched c =>
          simp only [SleepSys.step, at_, Option.some.injEq] at stepped
          exact stepped ▸ inv.switched p at_
      | asleep c =>
          simp only [SleepSys.step, at_] at stepped
          split at stepped
          · cases stepped
            exact inv.pick p at_
          · cases stepped
      | resumed c =>
          simp only [SleepSys.step, at_, Option.some.injEq] at stepped
          exact stepped ▸ inv.resumed p at_
      | consume c =>
          simp only [SleepSys.step, at_, Option.some.injEq] at stepped
          exact stepped ▸ inv.consume p at_ false
      | wakerSet c =>
          simp only [SleepSys.step, at_, Option.some.injEq] at stepped
          exact stepped ▸ inv.wakerSet p at_
      | wakeup c k =>
          simp only [SleepSys.step, at_] at stepped
          exact inv.wakeupAt p at_ stepped
      | woke c =>
          simp only [SleepSys.step, at_, Option.some.injEq] at stepped
          exact stepped ▸ inv.woke p at_

end Steps

/-! ## Every run -/

/-- No process in the patterns, no lock held. -/
theorem start_inv (lockOf : C → L) (cond : C → Bool) : (start cond : SleepSys n C L).Inv lockOf := by
  refine ⟨fun _ _ => ?_, fun _ => rfl, fun _ running => ?_, fun _ _ _ visiting => ?_⟩
  · simp [start, SleepPc.holds, SleepPc.lockOn]
  · cases running
  · cases visiting

/-- No lost wakeup: over every interleaving of sleepers and wakers on any
channels, once a waker's `wakeup(c)` has returned, and while it still holds
`lockOf c`, no process is `SLEEPING` on `c`.  A sleeper that checked its
condition before the waker took `lockOf c` had given `lockOf c` up inside
`sleep`, holding `p->lock`, so `wakeup`'s loop found it `SLEEPING` and made it
`RUNNABLE`; any other sleeper on `c` must take `lockOf c` again first. -/
theorem wakeup_no_lost (lockOf : C → L) (cond : C → Bool) {s : SleepSys n C L} {t : List (Fin n × SleepAct C)}
    (ran : run (step lockOf) (start cond) t = some s) {w : Fin n} {c : C} (returned : s.pc w = .woke c)
    (q : Fin n) : ¬ (s.state q = .SLEEPING ∧ s.chan q = some c) := by
  have inv := run_invariant (step lockOf) (Inv lockOf) (fun _ _ _ kept stepped => kept.step stepped)
    (start_inv lockOf cond) ran
  by_cases waker : q = w
  · subst waker
    exact fun asleep => inv.awake (by rw [returned]; rfl) asleep.1
  · exact (inv.woken w c q (by rw [returned]; exact rfl) waker).1

end SleepSys

/-- Process 0 sleeps on the one channel; process 1 makes the condition true
and calls `wakeup`, to its return; process 2 stays out of both. -/
def wakeRun : List (Fin 3 × SleepAct Unit) :=
  [(0, .sleeper ()), (0, .next), (0, .next), (0, .next), (0, .next), (0, .next), (0, .next),
    (1, .waker ()), (1, .next), (1, .next), (1, .next), (1, .next), (1, .next), (1, .next)]

/-- After `wakeRun`, `wakeup` has returned in process 1 and process 0 is not
asleep on the channel. -/
theorem sleeper_woken :
    ∃ s, run (SleepSys.step fun _ : Unit => ()) (SleepSys.start fun _ => false : SleepSys 3 Unit Unit) wakeRun = some s ∧
      s.pc 1 = .woke () ∧ ¬ (s.state 0 = .SLEEPING ∧ s.chan 0 = some ()) := by
  refine ⟨_, rfl, by decide, ?_⟩
  exact SleepSys.wakeup_no_lost (fun _ : Unit => ()) (fun _ => false) (t := wakeRun) rfl (w := 1) (by decide) 0

end Xv6
