/-
# Kernel.Sleeplock -- sleeplock.c: a lock held across sleeps

A sleeplock is the sleep and wakeup pattern of `Kernel.Sleep` on one channel,
the sleeplock `lk` itself, with `lk->lk` its condition lock.  `acquiresleep`
is the sleeper: it waits in `while (lk->locked) sleep(lk, &lk->lk);` for the
condition `!lk->locked`, and uses it up with `lk->locked = 1; lk->pid =
myproc()->pid;`.  `releasesleep` is the waker: `lk->locked = 0; lk->pid = 0;`
makes the condition true, then `wakeup(lk)`.  So a `SleeplockSys` is a
`SleepSys` over sleeplocks `K`, each its own condition lock (`lockOf = id`),
whose condition is `!lk->locked`, with `lk->pid` beside it as the `int` it is
and each process's own pid.  Those pids are whatever `allocpid` handed out:
once `nextpid` has wrapped two processes can share one.  Beside `lk->pid` the
system records the holder, the process whose `acquiresleep` set
`lk->locked`; a step is the table's step with the writes of the holder and of
`lk->pid` that go with the condition's (`holderAfter`, `lkPidAfter`).
`holdingsleep` reads `lk->locked` and `lk->pid` under `lk->lk`, so between
steps, and compares `lk->pid` with the caller's pid.  Its callers `brelse`,
`iunlock` and `iput` release a sleeplock only when they hold it, and panic
otherwise, so `releasesleep` is a step of the holder only.

`SleepSys.NextMoves` says once what a step of the table does to the points of
the code and to the conditions: only `consume` and `wakerSet` write a
condition, a process reaches `consume c` only from `check c` with the
condition true, and `wakerSet c` only from `wakerAcquire c`
(`SleepSys.step_next`).  The invariant `SleeplockSys.Inv` adds to the table's:

* `owned`: `lk->locked` is clear exactly when there is no holder;
* `pidOf`: `lk->pid` is the holder's pid, and 0 when there is none;
* `taking`: past `acquiresleep`'s loop the lock is still free;
* `releasing`: inside `releasesleep`, up to `lk->locked = 0`, the releaser
  holds the lock.

Over every run: `holdingsleep(lk)` is true exactly in the processes with the
holder's pid, so in the holder alone while pids are distinct
(`holdingsleep_holder`), and in a second process with the same pid too
(`takeRun_shared_pid`); no process is past `acquiresleep`'s loop on a
held sleeplock; and a step changes the holder of a sleeplock only when the
stepping process takes it free or gives it up (`sleeplock_handoff`).
-/
import Xv6.Kernel.Sleep

namespace Xv6

open Paths

set_option autoImplicit false

namespace SleepSys

variable {n : Nat} {C L : Type} [DecidableEq C] [DecidableEq L]

set_option linter.unusedSectionVars false

/-- The conditions after a next step from `pc`: the caller of `sleep` uses
its condition up, and the waker makes it true. -/
def condAfter (cond : C → Bool) : SleepPc C → C → Bool
  | .consume c => Function.update cond c false
  | .wakerSet c => Function.update cond c true
  | _ => cond

/-- What the next step of `p` does to the points of the code and to the
conditions. -/
structure NextMoves (s s' : SleepSys n C L) (p : Fin n) : Prop where
  others : ∀ q, q ≠ p → s'.pc q = s.pc q
  conds : s'.cond = condAfter s.cond (s.pc p)
  toConsume : ∀ c, s'.pc p = .consume c → s.pc p = .check c ∧ s.cond c = true
  toWakerSet : ∀ c, s'.pc p = .wakerSet c → s.pc p = .wakerAcquire c
  notWaker : ∀ c, s'.pc p ≠ .wakerAcquire c

variable {s s' : SleepSys n C L} {p : Fin n}

theorem acquire_eq_some {l : L} {x : SleepPc C} :
    s.acquire p l x = some s' ↔
      s.holder l = none ∧ s' = ({ s with holder := Function.update s.holder l (some p) } : SleepSys n C L).goto p x := by
  rw [SleepSys.acquire, Option.ite_none_right_eq_some]
  exact and_congr_right fun _ => Option.some_inj.trans eq_comm

/-- A pass of `wakeup`'s loop moves only the waker, to the next process or
out of the loop, and writes no condition. -/
theorem wakeupAt_moves {c : C} {k : Nat} (stepped : s.wakeupAt p c k = some s') :
    ∃ (t : SleepSys n C L) (x : SleepPc C), s' = t.goto p x ∧ t.pc = s.pc ∧ t.cond = s.cond ∧
      (x = .wakeup c (k + 1) ∨ x = .woke c) := by
  unfold SleepSys.wakeupAt at stepped
  split at stepped
  · dsimp only at stepped
    split at stepped
    · cases stepped
      exact ⟨s, _, rfl, rfl, rfl, .inl rfl⟩
    · split at stepped
      · cases stepped
        exact ⟨_, _, rfl, rfl, rfl, .inl rfl⟩
      · cases stepped
  · cases stepped
    exact ⟨s, _, rfl, rfl, rfl, .inr rfl⟩

/-- What a next step to `x` asks of the point it leaves: `consume c` is
reached only from `check c` with the condition true, `wakerSet c` only from
`wakerAcquire c`, and `wakerAcquire c` not at all. -/
def Reaches (s : SleepSys n C L) (p : Fin n) : SleepPc C → Prop
  | .consume c => s.pc p = .check c ∧ s.cond c = true
  | .wakerSet c => s.pc p = .wakerAcquire c
  | .wakerAcquire _ => False
  | _ => True

/-- A step that moves `p` alone to a point it may reach, with the conditions
a next step from `p`'s point leaves. -/
theorem NextMoves.goto {t : SleepSys n C L} {x : SleepPc C} (pcs : t.pc = s.pc)
    (conds : t.cond = condAfter s.cond (s.pc p)) (reaches : Reaches s p x) : NextMoves s (t.goto p x) p where
  others q other := by rw [goto_pc, Function.update_of_ne other, pcs]
  conds := conds
  toConsume c into := by
    rw [goto_pc, Function.update_self] at into
    subst into
    exact reaches
  toWakerSet c into := by
    rw [goto_pc, Function.update_self] at into
    subst into
    exact reaches
  notWaker c into := by
    rw [goto_pc, Function.update_self] at into
    subst into
    exact reaches

/-- Every next step is a `NextMoves`: one case per point of the code. -/
theorem step_next {lockOf : C → L} (stepped : step lockOf (p, .next) s = some s') : NextMoves s s' p := by
  cases at_ : s.pc p with
  | idle => simp [step, at_] at stepped
  | acquire c | reacquire c =>
      simp only [step, at_] at stepped
      obtain ⟨-, rfl⟩ := acquire_eq_some.mp stepped
      exact .goto rfl (by rw [at_]; rfl) trivial
  | wakerAcquire c =>
      simp only [step, at_] at stepped
      obtain ⟨-, rfl⟩ := acquire_eq_some.mp stepped
      exact .goto rfl (by rw [at_]; rfl) at_
  | check c =>
      simp only [step, at_, Option.some.injEq] at stepped
      subst stepped
      split
      · -- the condition holds: out of the loop
        rename_i holds
        exact .goto rfl (by rw [at_]; rfl) ⟨at_, holds⟩
      · exact .goto rfl (by rw [at_]; rfl) trivial
  | sleepAcquire c | asleep c =>
      simp only [step, at_] at stepped
      split at stepped
      · cases stepped
        exact .goto rfl (by rw [at_]; rfl) trivial
      · cases stepped
  | sleepRelease c | sleepSched c | switched c | resumed c | woke c | consume c | wakerSet c =>
      simp only [step, at_, Option.some.injEq] at stepped
      subst stepped
      exact .goto rfl (by rw [at_]; rfl) trivial
  | wakeup c k =>
      simp only [step, at_] at stepped
      obtain ⟨t, x, rfl, pcs, conds, next⟩ := wakeupAt_moves stepped
      rcases next with rfl | rfl
      · exact .goto pcs (by rw [conds, at_]; rfl) trivial
      · exact .goto pcs (by rw [conds, at_]; rfl) trivial

/-- A next step from anywhere but `consume c` leaves a true condition `c` true. -/
theorem condAfter_true {cond : C → Bool} {pc : SleepPc C} {c : C} (notConsume : pc ≠ .consume c)
    (was : cond c = true) : condAfter cond pc c = true := by
  cases pc with
  | consume c' =>
      have other : c ≠ c' := fun same => notConsume (by rw [same])
      rw [condAfter, Function.update_of_ne other, was]
  | wakerSet c' =>
      by_cases same : c = c'
      · subst same
        rw [condAfter, Function.update_self]
      · rw [condAfter, Function.update_of_ne same, was]
  | _ => exact was

/-- Starting the sleeper or the waker pattern from outside both keeps the
table's invariant. -/
theorem Inv.enter {lockOf : C → L} (inv : s.Inv lockOf) (idle : s.pc p = .idle) {c : C} {x : SleepPc C}
    (starts : x = .acquire c ∨ x = .wakerAcquire c) : (s.goto p x).Inv lockOf := by
  rcases starts with rfl | rfl
  · exact inv.goto p (by rw [idle]; rfl) (by rw [idle]; rfl) (by rw [idle]; rfl) (fun _ into => by cases into)
      fun _ _ visiting => visiting
  · exact inv.goto p (by rw [idle]; rfl) (by rw [idle]; rfl) (by rw [idle]; rfl) (fun _ into => by cases into)
      fun _ _ visiting => visiting

/-- Two processes holding the condition lock of one channel are the same. -/
theorem Inv.same_holder {lockOf : C → L} (inv : s.Inv lockOf) {q : Fin n} {c : C} (onP : (s.pc p).lockOn = some c)
    (onQ : (s.pc q).lockOn = some c) : p = q :=
  Option.some_inj.mp ((inv.holder_of onP).symm.trans (inv.holder_of onQ))

end SleepSys

/-- The sleeplocks `K` of the kernel over the sleep and wakeup table of `n`
processes: the condition of sleeplock `lk` is `!lk->locked`. -/
structure SleeplockSys (n : Nat) (K : Type) where
  sys : SleepSys n K K
  /-- the process that holds `lk`: the one whose `acquiresleep` set
  `lk->locked`, until its `releasesleep` clears it -/
  holder : K → Option (Fin n)
  /-- `lk->pid`, an `int` -/
  lkPid : K → Int
  /-- `myproc()->pid` in each process: what `allocpid` handed out, which
  need not differ between processes once `nextpid` has wrapped -/
  procPid : Fin n → Int

/-- What a process does next: call `acquiresleep` or `releasesleep`, or take
its next step in one of them. -/
inductive SleeplockAct (K : Type)
  | acquiresleep (lk : K)
  | releasesleep (lk : K)
  | next

namespace SleeplockSys

variable {n : Nat} {K : Type} [DecidableEq K]

/-- `lk->locked`. -/
def locked (s : SleeplockSys n K) (lk : K) : Bool := !s.sys.cond lk

/-- `initsleeplock` of every sleeplock, `lk->locked = 0; lk->pid = 0;`, in
processes with the pids `pids`. -/
def start (pids : Fin n → Int) : SleeplockSys n K :=
  { sys := SleepSys.start fun _ => true, holder := fun _ => none, lkPid := fun _ => 0, procPid := pids }

/-- The holder after a next step of `p` from `pc`: `p` takes `lk` with
`lk->locked = 1` and gives it up with `lk->locked = 0`. -/
def holderAfter (holder : K → Option (Fin n)) (p : Fin n) : SleepPc K → K → Option (Fin n)
  | .consume lk => Function.update holder lk (some p)
  | .wakerSet lk => Function.update holder lk none
  | _ => holder

/-- `lk->pid` after a next step from `pc` of a process with pid `me`:
`lk->pid = myproc()->pid;` goes with `lk->locked = 1`, and `lk->pid = 0;`
with `lk->locked = 0`. -/
def lkPidAfter (lkPid : K → Int) (me : Int) : SleepPc K → K → Int
  | .consume lk => Function.update lkPid lk me
  | .wakerSet lk => Function.update lkPid lk 0
  | _ => lkPid

/-- One step of process `p`; only the holder calls `releasesleep`. -/
def step : Fin n × SleeplockAct K → SleeplockSys n K → Option (SleeplockSys n K)
  | (p, .acquiresleep lk), s => (SleepSys.step id (p, .sleeper lk) s.sys).map fun sys => { s with sys := sys }
  | (p, .releasesleep lk), s =>
      if s.holder lk = some p then (SleepSys.step id (p, .waker lk) s.sys).map fun sys => { s with sys := sys }
      else none
  | (p, .next), s => (SleepSys.step id (p, .next) s.sys).map fun sys =>
      ⟨sys, holderAfter s.holder p (s.sys.pc p), lkPidAfter s.lkPid (s.procPid p) (s.sys.pc p), s.procPid⟩

/-- `holdingsleep(lk)` in process `p`: `lk->locked && (lk->pid == myproc()->pid)`. -/
def holdingsleep (s : SleeplockSys n K) (p : Fin n) (lk : K) : Bool := s.locked lk && s.lkPid lk == s.procPid p

variable {s s' : SleeplockSys n K} {p : Fin n}

/-- What a step can do: start `acquiresleep` or, in the holder,
`releasesleep`, from outside both; or take a next step of the table, writing
the holder and `lk->pid` beside the condition. -/
theorem step_cases {a : SleeplockAct K} (stepped : step (p, a) s = some s') :
    (∃ lk, s.sys.pc p = .idle ∧ s' = { s with sys := s.sys.goto p (.acquire lk) }) ∨
      (∃ lk, s.holder lk = some p ∧ s.sys.pc p = .idle ∧ s' = { s with sys := s.sys.goto p (.wakerAcquire lk) }) ∨
      (SleepSys.step id (p, .next) s.sys = some s'.sys ∧ s'.holder = holderAfter s.holder p (s.sys.pc p) ∧
        s'.lkPid = lkPidAfter s.lkPid (s.procPid p) (s.sys.pc p) ∧ s'.procPid = s.procPid) := by
  cases a with
  | acquiresleep lk =>
      simp only [step, SleepSys.step, Option.map_eq_some_iff, Option.ite_none_right_eq_some, Option.some.injEq] at stepped
      obtain ⟨_, ⟨idle, rfl⟩, rfl⟩ := stepped
      exact .inl ⟨lk, idle, rfl⟩
  | releasesleep lk =>
      simp only [step, SleepSys.step, Option.ite_none_right_eq_some, Option.map_eq_some_iff, Option.some.injEq] at stepped
      obtain ⟨mine, _, ⟨idle, rfl⟩, rfl⟩ := stepped
      exact .inr (.inl ⟨lk, mine, idle, rfl⟩)
  | next =>
      simp only [step, Option.map_eq_some_iff] at stepped
      obtain ⟨_, moved, rfl⟩ := stepped
      exact .inr (.inr ⟨moved, rfl, rfl, rfl⟩)

/-- The invariant of the sleeplocks. -/
structure Inv (s : SleeplockSys n K) : Prop where
  sys : s.sys.Inv id
  /-- `lk->locked` is clear exactly when no process holds `lk` -/
  owned : ∀ lk, s.sys.cond lk = true ↔ s.holder lk = none
  /-- `lk->pid` is the holder's pid, and 0 when there is none -/
  pidOf : ∀ lk, s.lkPid lk = (s.holder lk).elim 0 s.procPid
  /-- past `acquiresleep`'s loop, the lock is still free -/
  taking : ∀ p lk, s.sys.pc p = .consume lk → s.sys.cond lk = true
  /-- in `releasesleep`, up to `lk->locked = 0`, the releaser holds the lock -/
  releasing : ∀ p lk, s.sys.pc p = .wakerAcquire lk ∨ s.sys.pc p = .wakerSet lk → s.holder lk = some p

theorem start_inv (pids : Fin n → Int) : (start pids : SleeplockSys n K).Inv where
  sys := SleepSys.start_inv id _
  owned _ := iff_of_true rfl rfl
  pidOf _ := rfl
  taking _ _ at_ := by cases at_
  releasing _ _ at_ := by rcases at_ with at_ | at_ <;> cases at_

/-- A next step of `p` from anywhere but `consume lk` and `wakerSet lk` leaves
the holder of `lk` alone. -/
theorem holderAfter_eq (holder : K → Option (Fin n)) (p : Fin n) {pc : SleepPc K} {lk : K}
    (notConsume : pc ≠ .consume lk) (notSet : pc ≠ .wakerSet lk) : holderAfter holder p pc lk = holder lk := by
  cases pc with
  | consume lk' =>
      have other : lk ≠ lk' := fun same => notConsume (by rw [same])
      rw [holderAfter, Function.update_of_ne other]
  | wakerSet lk' =>
      have other : lk ≠ lk' := fun same => notSet (by rw [same])
      rw [holderAfter, Function.update_of_ne other]
  | _ => rfl

/-- `lk->locked` and the holder are written together. -/
theorem owned_after {cond : K → Bool} {holder : K → Option (Fin n)} (owned : ∀ lk, cond lk = true ↔ holder lk = none)
    (p : Fin n) (pc : SleepPc K) (lk : K) :
    SleepSys.condAfter cond pc lk = true ↔ holderAfter holder p pc lk = none := by
  cases pc with
  | consume c | wakerSet c =>
      by_cases same : lk = c
      · subst same
        simp [SleepSys.condAfter, holderAfter]
      · rw [SleepSys.condAfter, holderAfter, Function.update_of_ne same, Function.update_of_ne same]
        exact owned lk
  | _ => exact owned lk

/-- `lk->pid` and the holder are written together: the taker's pid with the
taker, 0 with none. -/
theorem pidOf_after {holder : K → Option (Fin n)} {lkPid : K → Int} {procPid : Fin n → Int}
    (pidOf : ∀ lk, lkPid lk = (holder lk).elim 0 procPid) (p : Fin n) (pc : SleepPc K) (lk : K) :
    lkPidAfter lkPid (procPid p) pc lk = (holderAfter holder p pc lk).elim 0 procPid := by
  cases pc with
  | consume c | wakerSet c =>
      by_cases same : lk = c
      · subst same
        simp [lkPidAfter, holderAfter]
      · rw [lkPidAfter, holderAfter, Function.update_of_ne same, Function.update_of_ne same]
        exact pidOf lk
  | _ => exact pidOf lk

/-- Starting `acquiresleep`, or `releasesleep` in the holder, from outside
both keeps the invariant. -/
theorem Inv.enter (inv : s.Inv) (idle : s.sys.pc p = .idle) {lk : K} {x : SleepPc K}
    (starts : x = .acquire lk ∨ x = .wakerAcquire lk ∧ s.holder lk = some p) :
    ({ s with sys := s.sys.goto p x } : SleeplockSys n K).Inv := by
  have sys : (s.sys.goto p x).Inv id := inv.sys.enter idle (starts.imp id And.left)
  refine ⟨sys, inv.owned, inv.pidOf, fun q lk' at_ => ?_, fun q lk' at_ => ?_⟩
  · by_cases same : q = p
    · subst same
      rw [SleepSys.goto_pc, Function.update_self] at at_
      subst at_
      rcases starts with into | ⟨into, _⟩ <;> cases into
    · rw [SleepSys.goto_pc, Function.update_of_ne same] at at_
      exact inv.taking q lk' at_
  · by_cases same : q = p
    · subst same
      rw [SleepSys.goto_pc, Function.update_self] at at_
      rcases starts with rfl | ⟨rfl, mine⟩
      · rcases at_ with into | into <;> cases into
      · rcases at_ with into | into
        · cases into
          exact mine
        · cases into
    · rw [SleepSys.goto_pc, Function.update_of_ne same] at at_
      exact inv.releasing q lk' at_

/-- While `q` holds `lk`, no process is at `lk->locked = 1` in
`acquiresleep`, and the holder is not about to be cleared by another process. -/
theorem Inv.not_consume (inv : s.Inv) {q : Fin n} {lk : K} (held : s.holder lk = some q) (p : Fin n) :
    s.sys.pc p ≠ .consume lk := fun at_ => by
  have free := (inv.owned lk).mp (inv.taking p lk at_)
  rw [held] at free
  cases free

/-- A next step keeps the invariant. -/
theorem Inv.next (inv : s.Inv) {sys' : SleepSys n K K} (moved : SleepSys.step id (p, .next) s.sys = some sys') :
    (⟨sys', holderAfter s.holder p (s.sys.pc p), lkPidAfter s.lkPid (s.procPid p) (s.sys.pc p), s.procPid⟩ :
      SleeplockSys n K).Inv := by
  have moves := SleepSys.step_next moved
  refine ⟨inv.sys.step moved, fun lk => ?_, pidOf_after inv.pidOf p _, fun q lk at_ => ?_, fun q lk at_ => ?_⟩
  · rw [moves.conds]
    exact owned_after inv.owned p _ lk
  · dsimp only at at_ ⊢
    rw [moves.conds]
    by_cases same : q = p
    · subst same
      obtain ⟨checked, free⟩ := moves.toConsume lk at_
      rw [checked]
      exact free
    · rw [moves.others q same] at at_
      -- `p` and `q` cannot both be past the loop of `lk`: each holds `lk->lk`
      refine SleepSys.condAfter_true (fun consuming => same ?_) (inv.taking q lk at_)
      exact inv.sys.same_holder (by rw [at_]; rfl) (by rw [consuming]; rfl)
  · dsimp only at at_ ⊢
    by_cases same : q = p
    · subst same
      rcases at_ with start | set
      · exact absurd start (moves.notWaker lk)
      · have acquired := moves.toWakerSet lk set
        rw [acquired]
        exact inv.releasing q lk (.inl acquired)
    · rw [moves.others q same] at at_
      have held := inv.releasing q lk at_
      refine (holderAfter_eq s.holder p (inv.not_consume held p) fun set => same ?_).trans held
      exact Option.some_inj.mp (held.symm.trans (inv.releasing p lk (.inr set)))

/-- Every step keeps the invariant. -/
theorem Inv.step (inv : s.Inv) {e : Fin n × SleeplockAct K} (stepped : step e s = some s') : s'.Inv := by
  obtain ⟨p, a⟩ := e
  rcases step_cases stepped with ⟨lk, idle, rfl⟩ | ⟨lk, mine, idle, rfl⟩ | ⟨moved, holders, pids, procs⟩
  · exact inv.enter idle (.inl rfl)
  · exact inv.enter idle (.inr ⟨rfl, mine⟩)
  · obtain ⟨sys', holder', lkPid', procPid'⟩ := s'
    dsimp only at moved holders pids procs
    subst holders pids procs
    exact inv.next moved

/-- The invariant holds in every state a run from `start` reaches. -/
theorem run_inv {pids : Fin n → Int} {t : List (Fin n × SleeplockAct K)} (ran : run step (start pids) t = some s) :
    s.Inv :=
  run_invariant step Inv (fun _ _ _ kept stepped => kept.step stepped) (start_inv pids) ran

/-- No step changes a process's pid. -/
theorem run_procPid {pids : Fin n → Int} {t : List (Fin n × SleeplockAct K)} (ran : run step (start pids) t = some s) :
    s.procPid = pids :=
  run_invariant step (fun s : SleeplockSys n K => s.procPid = pids) (fun _ _ _ same stepped => by
    rcases step_cases stepped with ⟨_, _, rfl⟩ | ⟨_, _, _, rfl⟩ | ⟨_, _, _, procs⟩
    · exact same
    · exact same
    · exact procs.trans same) rfl ran

/-- How `p`'s next step changes the holder of `lk`: it takes a free lock in
`acquiresleep`, or gives up its own in `releasesleep`. -/
theorem Inv.holderAfter_cases (inv : s.Inv) (p : Fin n) (lk : K) :
    holderAfter s.holder p (s.sys.pc p) lk = s.holder lk ∨
      (s.holder lk = none ∧ holderAfter s.holder p (s.sys.pc p) lk = some p) ∨
      (s.holder lk = some p ∧ holderAfter s.holder p (s.sys.pc p) lk = none) := by
  by_cases consume : s.sys.pc p = .consume lk
  · refine .inr (.inl ⟨(inv.owned lk).mp (inv.taking p lk consume), ?_⟩)
    rw [consume, holderAfter, Function.update_self]
  by_cases set : s.sys.pc p = .wakerSet lk
  · refine .inr (.inr ⟨inv.releasing p lk (.inr set), ?_⟩)
    rw [set, holderAfter, Function.update_self]
  exact .inl (holderAfter_eq s.holder p consume set)

/-- `holdingsleep(lk)` in `p` over the state's fields: the lock is held by a
process with `p`'s pid. -/
theorem Inv.holdingsleep_iff (inv : s.Inv) (p : Fin n) (lk : K) :
    s.holdingsleep p lk = true ↔ ∃ q, s.holder lk = some q ∧ s.procPid q = s.procPid p := by
  rw [holdingsleep, Bool.and_eq_true, beq_iff_eq, inv.pidOf lk, locked, Bool.not_eq_true', ← Bool.not_eq_true,
    inv.owned lk]
  cases s.holder lk with
  | none => simp
  | some q => simp

/-- Over every run from processes with the pids `pids`, `holdingsleep(lk)` is
true in a process exactly when some process holds `lk` and has the same pid,
so, while no two processes share a pid, in the holder and in no other;
`lk->locked` is set exactly when there is a holder; and while there is one no
process is past `acquiresleep`'s loop on `lk`. -/
theorem holdingsleep_holder {pids : Fin n → Int} {t : List (Fin n × SleeplockAct K)}
    (ran : run step (start pids) t = some s) (p : Fin n) (lk : K) :
    (s.holdingsleep p lk = true ↔ ∃ q, s.holder lk = some q ∧ pids q = pids p) ∧
      (Function.Injective pids → (s.holdingsleep p lk = true ↔ s.holder lk = some p)) ∧
      (s.locked lk = true ↔ s.holder lk ≠ none) ∧ (s.holder lk ≠ none → ∀ q, s.sys.pc q ≠ .consume lk) := by
  have inv := run_inv ran
  have holding : s.holdingsleep p lk = true ↔ ∃ q, s.holder lk = some q ∧ pids q = pids p := by
    rw [inv.holdingsleep_iff, run_procPid ran]
  refine ⟨holding, fun distinct => ?_, ?_, fun held q => ?_⟩
  · rw [holding]
    constructor
    · rintro ⟨q, mine, same⟩
      rw [mine, distinct same]
    · intro mine
      exact ⟨p, mine, rfl⟩
  · rw [locked, Bool.not_eq_true', ← Bool.not_eq_true]
    exact not_congr (inv.owned lk)
  · obtain ⟨r, mine⟩ := Option.ne_none_iff_exists'.mp held
    exact inv.not_consume mine q

/-- Process `p` calls `acquiresleep` on a free sleeplock and returns from it. -/
def takeRun (p : Fin n) : List (Fin n × SleeplockAct Unit) := [(p, .acquiresleep ()), (p, .next), (p, .next), (p, .next)]

/-- Two processes with the pid 5, as after `nextpid` has wrapped: once the
first has taken the lock, `holdingsleep` is true in the second too. -/
theorem takeRun_shared_pid :
    ∃ s : SleeplockSys 2 Unit, run step (start fun _ => 5) (takeRun (0 : Fin 2)) = some s ∧ s.holder () = some 0 ∧
      s.holdingsleep 1 () = true ∧
      ((s.holdingsleep 1 () = true ↔ ∃ q, s.holder () = some q ∧ (fun _ => (5 : Int)) q = (fun _ => (5 : Int)) 1) ∧
        (Function.Injective (fun _ : Fin 2 => (5 : Int)) → (s.holdingsleep 1 () = true ↔ s.holder () = some 1)) ∧
        (s.locked () = true ↔ s.holder () ≠ none) ∧ (s.holder () ≠ none → ∀ q, s.sys.pc q ≠ .consume ())) :=
  ⟨_, rfl, rfl, rfl, holdingsleep_holder (t := takeRun 0) rfl 1 ()⟩

/-- Mutual exclusion over every run: a step changes the holder of `lk` only
when the stepping process takes the lock free, in `acquiresleep`, or gives up
the lock it holds, in `releasesleep`.  No process takes a sleeplock that
another holds, or takes it from them. -/
theorem sleeplock_handoff {pids : Fin n → Int} {t : List (Fin n × SleeplockAct K)} (ran : run step (start pids) t = some s)
    {a : SleeplockAct K} (stepped : step (p, a) s = some s') (lk : K) :
    s'.holder lk = s.holder lk ∨ (s.holder lk = none ∧ s'.holder lk = some p) ∨
      (s.holder lk = some p ∧ s'.holder lk = none) := by
  rcases step_cases stepped with ⟨_, _, rfl⟩ | ⟨_, _, _, rfl⟩ | ⟨_, holders, _, _⟩
  · exact .inl rfl
  · exact .inl rfl
  · rw [holders]
    exact (run_inv ran).holderAfter_cases p lk

/-- The last step of `takeRun`, `lk->locked = 1; lk->pid = myproc()->pid;`,
takes the free lock. -/
theorem takeRun_handoff :
    ∃ s s' : SleeplockSys 2 Unit, run step (start fun q => q.val + 1) ((takeRun (0 : Fin 2)).take 3) = some s ∧
      step (0, .next) s = some s' ∧ s.holder () = none ∧ s'.holder () = some 0 ∧
      (s'.holder () = s.holder () ∨ (s.holder () = none ∧ s'.holder () = some 0) ∨
        (s.holder () = some 0 ∧ s'.holder () = none)) :=
  ⟨_, _, rfl, rfl, rfl, rfl,
    @sleeplock_handoff 2 Unit _ _ _ 0 (fun q => q.val + 1) ((takeRun 0).take 3) rfl .next rfl ()⟩

end SleeplockSys

end Xv6
