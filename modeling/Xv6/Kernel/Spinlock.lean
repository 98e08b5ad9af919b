import Mathlib.Logic.Function.Basic
import Mathlib.Tactic.SplitIfs

/-!
# kernel/spinlock.c: `push_off`, `pop_off`, and the `intena` that `sched` carries

`push_off()` turns interrupts off and counts in `mycpu()->noff`; the outermost
one (from `noff == 0`) records in `intena` whether they were on.  `pop_off()`
counts down and turns them back on at zero if `intena` says so.  `acquire` and
`release` bracket a critical section with the two.  `noff` and `intena` belong
to the CPU, but `sched()` saves `intena` across its `swtch` and writes it back
when the process is switched in again, because "intena is a property of this
kernel thread, not this CPU".  The scheduler's own `swtch` to a process saves
nothing.

The model is one CPU (`Cpu`: `noff`, `intena` and the `SIE` bit that
`intr_get()` reads) with the threads that take turns on it: the scheduler and
the processes (`Thread`).  `Sys` adds the locks the CPU holds, the running
thread, each switched-out process's saved `intena`, and three ghost fields: how
many `push_off` and `pop_off` calls have returned, and for each thread the
interrupt state just before its last `push_off` from `noff == 0`
(`entry`).  `Sys.step` takes one call of the kernel on this CPU (`Event`):
`push_off`, `pop_off`, `acquire`, `release`, an `intr_on()` or `intr_off()`
or a trap's entry or return (all made with no lock held), `sched()` from the
running process, and the scheduler's `swtch` to a process.

`Inv` holds in every reachable state (`reachable_inv`):

* `noff` is the pushes less the pops, and interrupts are off while it is
  positive;
* while a process runs inside a critical section, `intena` is its `entry`;
* a switched-out process has its `entry` saved, which `sched` did.

So a `pop_off` with more pushes than pops behind it never panics, and a step
of a process that brings `noff` back to zero leaves interrupts as they were
before that process's outermost `push_off` (`per_thread_intena`).  The
scheduler thread does not have that property: it `acquire`s `p->lock` with
interrupts on and its `release` after the switch back can leave them off, when
`p` took the lock with them off (`scheduler_keeps_process_intena`); that is
why the scheduler calls `intr_on()` at the top of its loop.
-/

namespace Xv6

namespace Spinlock

set_option autoImplicit false

/-- The fields of `struct cpu` that `push_off` and `pop_off` use, and the
`SIE` bit of `sstatus`. -/
structure Cpu where
  /-- depth of `push_off()` nesting -/
  noff : Nat
  /-- were interrupts enabled before `push_off()`? -/
  intena : Bool
  /-- `intr_get()` -/
  intr : Bool
  deriving DecidableEq, Repr

namespace Cpu

/-- `push_off()`. -/
def pushOff (c : Cpu) : Cpu :=
  let old := c.intr
  -- `intr_off()`, then `intena = old` only from `noff == 0`, then `noff += 1`
  { noff := c.noff + 1, intena := if c.noff = 0 then old else c.intena, intr := false }

/-- `pop_off()`. -/
def popOff (c : Cpu) : Except String Cpu :=
  if c.intr then .error "pop_off - interruptible"
  else if c.noff < 1 then .error "pop_off"
  else
    let c := { c with noff := c.noff - 1 }
    .ok (if c.noff = 0 ∧ c.intena then { c with intr := true } else c)

@[simp] theorem noff_pushOff (c : Cpu) : c.pushOff.noff = c.noff + 1 := rfl

@[simp] theorem intr_pushOff (c : Cpu) : c.pushOff.intr = false := rfl

theorem intena_pushOff (c : Cpu) : c.pushOff.intena = if c.noff = 0 then c.intr else c.intena := rfl

/-- What a `pop_off()` that returns found and left: interrupts off, a push to
undo, one fewer after it, and interrupts on again when that was the last and
`intena` is set. -/
theorem popOff_spec {c c' : Cpu} (popped : c.popOff = .ok c') :
    c.intr = false ∧ 0 < c.noff ∧ c'.noff = c.noff - 1 ∧ c'.intena = c.intena ∧
      c'.intr = (decide (c.noff = 1) && c.intena) := by
  unfold popOff at popped
  split at popped
  · cases popped
  rename_i on
  split at popped
  · cases popped
  rename_i low
  cases popped
  have off : c.intr = false := by simpa using on
  -- the last pop is the one that leaves `noff` at 0
  have last : c.noff - 1 = 0 ↔ c.noff = 1 := by omega
  refine ⟨off, by omega, ?_, ?_, ?_⟩ <;> split <;> simp_all

/-- `pop_off()` returns whenever interrupts are off and there is a push to undo. -/
theorem popOff_ok {c : Cpu} (off : c.intr = false) (pos : 0 < c.noff) : ∃ c', c.popOff = .ok c' := by
  unfold popOff
  rw [if_neg (by simp [off]), if_neg (by omega)]
  exact ⟨_, rfl⟩

end Cpu

/-- A kernel thread of this CPU: its scheduler, or a process's. -/
inductive Thread (P : Type) where
  | scheduler
  | proc (p : P)
  deriving DecidableEq

/-- One CPU, the threads that run on it, and the locks it holds. -/
structure Sys (P L : Type) where
  cpu : Cpu
  /-- `holding(lk)` -/
  held : L → Bool
  cur : Thread P
  /-- the local `intena` of a process switched out in `sched()`; `none` before
  it first runs, when it starts at `forkret` -/
  saved : P → Option Bool
  /-- ghost: the `push_off` calls made -/
  pushes : Nat
  /-- ghost: the `pop_off` calls that returned -/
  pops : Nat
  /-- ghost: `intr_get()` just before the thread's last `push_off` from `noff == 0` -/
  entry : Thread P → Option Bool

/-- One call made on the CPU. -/
inductive Event (P L : Type) where
  | pushOff
  | popOff
  | acquire (lk : L)
  | release (lk : L)
  /-- `intr_on()` or `intr_off()`, or a trap's entry or `sret`: the kernel does
  these only with `noff == 0` -/
  | setIntr (on : Bool)
  /-- `sched()` from the running process; `running` is whether its caller left
  `p->state` at `RUNNING` -/
  | sched (running : Bool)
  /-- the scheduler's `swtch(&c->context, &p->context)` -/
  | swtch (p : P)

/-- What a call does: the next state, a call the kernel does not make in this
state, or a panic. -/
inductive Outcome (S : Type) where
  | next (s : S)
  | blocked
  | panic (msg : String)

namespace Sys

variable {P L : Type} [DecidableEq P] [DecidableEq L]

set_option linter.unusedSectionVars false

/-- `push_off()` by the running thread. -/
def push (s : Sys P L) : Sys P L :=
  { s with
    cpu := s.cpu.pushOff
    pushes := s.pushes + 1
    entry := if s.cpu.noff = 0 then Function.update s.entry s.cur (some s.cpu.intr) else s.entry }

/-- `pop_off()` by the running thread. -/
def pop (s : Sys P L) : Outcome (Sys P L) :=
  match s.cpu.popOff with
  | .ok c => .next { s with cpu := c, pops := s.pops + 1 }
  | .error msg => .panic msg

/-- The CPU as process `p` finds it when switched in: back in `sched()`, which
does `mycpu()->intena = intena`; or, on its first run, as the scheduler left it. -/
def resume (s : Sys P L) (p : P) : Cpu :=
  match s.saved p with
  | some intena => { s.cpu with intena := intena }
  | none => s.cpu

theorem pop_eq_next {s s' : Sys P L} :
    s.pop = .next s' ↔ ∃ c, s.cpu.popOff = .ok c ∧ s' = { s with cpu := c, pops := s.pops + 1 } := by
  unfold pop
  split
  · rename_i c went
    simp only [Outcome.next.injEq, went, Except.ok.injEq]
    exact ⟨fun same => ⟨c, rfl, same.symm⟩, fun ⟨_, same, eq⟩ => same ▸ eq.symm⟩
  · rename_i msg went
    simp only [reduceCtorEq, went, false_and, exists_false]

@[simp] theorem noff_resume (s : Sys P L) (p : P) : (s.resume p).noff = s.cpu.noff := by
  unfold resume
  split <;> rfl

@[simp] theorem intr_resume (s : Sys P L) (p : P) : (s.resume p).intr = s.cpu.intr := by
  unfold resume
  split <;> rfl

/-- One call on the CPU, with `lockOf p` the lock `p->lock`. -/
def step (lockOf : P → L) (s : Sys P L) : Event P L → Outcome (Sys P L)
  | .pushOff => .next s.push
  | .popOff => s.pop
  | .acquire lk =>
      let s := s.push
      if s.held lk then .panic "acquire" else .next { s with held := Function.update s.held lk true }
  | .release lk =>
      if !s.held lk then .panic "release" else { s with held := Function.update s.held lk false }.pop
  | .setIntr on => if s.cpu.noff = 0 then .next { s with cpu := { s.cpu with intr := on } } else .blocked
  | .sched running =>
      match s.cur with
      | .scheduler => .blocked
      | .proc p =>
          if !s.held (lockOf p) then .panic "sched p->lock"
          else if s.cpu.noff ≠ 1 then .panic "sched locks"
          else if running then .panic "sched running"
          else if s.cpu.intr then .panic "sched interruptible"
          else .next { s with cur := .scheduler, saved := Function.update s.saved p (some s.cpu.intena) }
  | .swtch p =>
      match s.cur with
      | .proc _ => .blocked
      | .scheduler => .next { s with cur := .proc p, cpu := s.resume p }

/-- Calls in order, up to the first that is blocked or panics. -/
def run (lockOf : P → L) (s : Sys P L) : List (Event P L) → Outcome (Sys P L)
  | [] => .next s
  | e :: es =>
      match s.step lockOf e with
      | .next s' => s'.run lockOf es
      | outcome => outcome

/-- What a call that returns does: a `push_off` (in `acquire`, with the lock
taken), a `pop_off` (in `release`, with the lock given back), a change of
interrupts outside any critical section, `sched` from a process with one lock
held, or the scheduler's switch to a process. -/
theorem step_cases {lockOf : P → L} {s s' : Sys P L} {e : Event P L} (stepped : s.step lockOf e = .next s') :
    (∃ held, s' = { s.push with held := held }) ∨
      (∃ held, { s with held := held }.pop = .next s') ∨
      (s.cpu.noff = 0 ∧ ∃ on, s' = { s with cpu := { s.cpu with intr := on } }) ∨
      (∃ p, s.cur = .proc p ∧ s.cpu.noff = 1 ∧
        s' = { s with cur := .scheduler, saved := Function.update s.saved p (some s.cpu.intena) }) ∨
      (s.cur = .scheduler ∧ ∃ p, s' = { s with cur := .proc p, cpu := s.resume p }) := by
  cases e with
  | pushOff =>
    simp only [step, Outcome.next.injEq] at stepped
    exact .inl ⟨s.held, stepped.symm⟩
  | popOff => exact .inr (.inl ⟨s.held, stepped⟩)
  | acquire lk =>
    simp only [step] at stepped
    split at stepped
    · cases stepped
    · cases stepped
      exact .inl ⟨_, rfl⟩
  | release lk =>
    simp only [step] at stepped
    split at stepped
    · cases stepped
    · exact .inr (.inl ⟨_, stepped⟩)
  | setIntr on =>
    simp only [step] at stepped
    split at stepped
    · cases stepped
      exact .inr (.inr (.inl ⟨‹_›, on, rfl⟩))
    · cases stepped
  | sched running =>
    simp only [step] at stepped
    split at stepped
    · cases stepped
    · rename_i p cur
      split_ifs at stepped with unheld one
      cases stepped
      exact .inr (.inr (.inr (.inl ⟨p, cur, by simpa using one, rfl⟩)))
  | swtch p =>
    simp only [step] at stepped
    split at stepped
    · cases stepped
    · cases stepped
      exact .inr (.inr (.inr (.inr ⟨‹_›, p, rfl⟩)))

/-- The CPU as `main` hands it to `scheduler()`: interrupts off, no lock held. -/
def boot : Sys P L where
  cpu := ⟨0, false, false⟩
  held := fun _ => false
  cur := .scheduler
  saved := fun _ => none
  pushes := 0
  pops := 0
  entry := fun _ => none

/-- The states a run of calls from `boot` reaches. -/
inductive Reachable (lockOf : P → L) : Sys P L → Prop
  | boot : Reachable lockOf boot
  | step {s s' : Sys P L} (e : Event P L) : Reachable lockOf s → s.step lockOf e = .next s' →
      Reachable lockOf s'

theorem Reachable.run {lockOf : P → L} {s s' : Sys P L} (reach : s.Reachable lockOf) :
    ∀ es : List (Event P L), s.run lockOf es = .next s' → s'.Reachable lockOf
  | [], ran => by
    cases ran
    exact reach
  | e :: es, ran => by
    unfold Sys.run at ran
    cases stepped : s.step lockOf e with
    | next s₁ =>
      simp only [stepped] at ran
      exact (Reachable.step e reach stepped).run es ran
    | blocked => simp only [stepped, reduceCtorEq] at ran
    | panic msg => simp only [stepped, reduceCtorEq] at ran

/-! ## The invariant -/

/-- The nesting count, the interrupts it keeps off, and the `intena` of every
process thread. -/
structure Inv (s : Sys P L) : Prop where
  /-- `noff` is the pushes less the pops -/
  counted : s.cpu.noff + s.pops = s.pushes
  /-- interrupts are off inside a critical section -/
  off : 0 < s.cpu.noff → s.cpu.intr = false
  /-- a running process inside a critical section has its own `intena` -/
  running : ∀ p b, s.cur = .proc p → 0 < s.cpu.noff → s.entry (.proc p) = some b → s.cpu.intena = b
  /-- a switched-out process has its `intena` saved -/
  suspended : ∀ p b, s.cur ≠ .proc p → s.entry (.proc p) = some b → s.saved p = some b

theorem inv_boot : (boot : Sys P L).Inv where
  counted := rfl
  off := fun pos => absurd pos (Nat.lt_irrefl 0)
  running := fun _ _ _ pos => absurd pos (Nat.lt_irrefl 0)
  suspended := fun _ _ _ entered => by cases entered

section Steps

variable {s : Sys P L}

/-- The locks the CPU holds play no part in the invariant. -/
theorem Inv.held (inv : s.Inv) (held : L → Bool) : { s with held := held }.Inv :=
  ⟨inv.counted, inv.off, inv.running, inv.suspended⟩

theorem Inv.push (inv : s.Inv) : s.push.Inv where
  counted := by
    simp only [Sys.push, Cpu.noff_pushOff]
    have := inv.counted
    omega
  off _ := Cpu.intr_pushOff s.cpu
  running p b cur _ entered := by
    simp only [Sys.push] at cur entered ⊢
    rw [Cpu.intena_pushOff]
    by_cases outer : s.cpu.noff = 0
    · -- the outermost push records the interrupt state in `intena` and in `entry`
      rw [if_pos outer, cur, Function.update_self] at entered
      rw [if_pos outer]
      exact Option.some.inj entered
    · rw [if_neg outer] at entered ⊢
      exact inv.running p b cur (Nat.pos_of_ne_zero outer) entered
  suspended p b other entered := by
    simp only [Sys.push] at other entered ⊢
    refine inv.suspended p b other ?_
    split at entered
    · rwa [Function.update_of_ne (Ne.symm other)] at entered
    · exact entered

theorem Inv.pop {s' : Sys P L} (inv : s.Inv) (popped : s.pop = .next s') : s'.Inv := by
  obtain ⟨c, went, rfl⟩ := pop_eq_next.mp popped
  obtain ⟨-, pos, noff, intena, intr⟩ := Cpu.popOff_spec went
  refine ⟨?_, ?_, ?_, inv.suspended⟩ <;> dsimp only
  · have := inv.counted
    simp only [noff]
    omega
  · intro inside
    rw [intr, decide_eq_false (by omega : ¬ s.cpu.noff = 1), Bool.false_and]
  · intro p b cur inside entered
    rw [intena]
    exact inv.running p b cur pos entered

theorem Inv.setIntr (inv : s.Inv) (outside : s.cpu.noff = 0) (on : Bool) :
    { s with cpu := { s.cpu with intr := on } }.Inv where
  counted := inv.counted
  off pos := absurd outside (Nat.pos_iff_ne_zero.mp pos)
  running _ _ _ pos := absurd outside (Nat.pos_iff_ne_zero.mp pos)
  suspended := inv.suspended

/-- `sched()` from `p` with one lock held saves the `intena` that `p` entered with. -/
theorem Inv.sched (inv : s.Inv) {p : P} (cur : s.cur = .proc p) (one : s.cpu.noff = 1) :
    { s with cur := .scheduler, saved := Function.update s.saved p (some s.cpu.intena) }.Inv where
  counted := inv.counted
  off := inv.off
  running _ _ onCpu := by cases onCpu
  suspended q b _ entered := by
    dsimp only at entered ⊢
    by_cases same : q = p
    · subst same
      rw [Function.update_self, inv.running q b cur (by omega) entered]
    · rw [Function.update_of_ne same]
      exact inv.suspended q b (by rw [cur]; exact fun h => same (Thread.proc.inj h).symm) entered

/-- The scheduler's `swtch` to `p` hands `p` back the `intena` it saved. -/
theorem Inv.swtch (inv : s.Inv) (cur : s.cur = .scheduler) (p : P) :
    { s with cur := .proc p, cpu := s.resume p }.Inv where
  counted := by
    dsimp only
    rw [noff_resume]
    exact inv.counted
  off := by
    dsimp only
    rw [noff_resume, intr_resume]
    exact inv.off
  running q b onCpu _ entered := by
    cases onCpu
    have saved := inv.suspended p b (by rw [cur]; nofun) entered
    simp only [resume, saved]
  suspended q b _ entered := inv.suspended q b (by rw [cur]; nofun) entered

theorem inv_step {lockOf : P → L} {s' : Sys P L} {e : Event P L} (inv : s.Inv)
    (stepped : s.step lockOf e = .next s') : s'.Inv := by
  obtain ⟨held, rfl⟩ | ⟨held, popped⟩ | ⟨outside, on, rfl⟩ | ⟨p, cur, one, rfl⟩ | ⟨cur, p, rfl⟩ :=
    step_cases stepped
  · exact inv.push.held held
  · exact (inv.held held).pop popped
  · exact inv.setIntr outside on
  · exact inv.sched cur one
  · exact inv.swtch cur p

end Steps

theorem reachable_inv {lockOf : P → L} {s : Sys P L} (reach : s.Reachable lockOf) : s.Inv := by
  induction reach with
  | boot => exact inv_boot
  | step e _ stepped ih => exact inv_step ih stepped

/-! ## Nesting, per thread -/

section Nesting

variable {lockOf : P → L} {s s' : Sys P L}

/-- A `pop_off()` that brings `noff` to zero sets interrupts to `intena`. -/
theorem intr_pop (popped : s.pop = .next s') (out : s'.cpu.noff = 0) : s'.cpu.intr = s.cpu.intena := by
  obtain ⟨c, went, rfl⟩ := pop_eq_next.mp popped
  obtain ⟨-, pos, noff, -, intr⟩ := Cpu.popOff_spec went
  have last : s.cpu.noff = 1 := by
    dsimp only at out
    omega
  dsimp only
  rw [intr, last]
  rfl

/-- Only a `pop_off()`, alone or in `release`, brings `noff` from positive to
zero, and it sets interrupts to `intena`. -/
theorem intr_of_lowered {e : Event P L} (stepped : s.step lockOf e = .next s') (inside : 0 < s.cpu.noff)
    (out : s'.cpu.noff = 0) : s'.cpu.intr = s.cpu.intena := by
  obtain ⟨held, rfl⟩ | ⟨held, popped⟩ | ⟨outside, on, rfl⟩ | ⟨p, cur, one, rfl⟩ | ⟨cur, p, rfl⟩ :=
    step_cases stepped
  · -- a push only raises `noff`
    simp [Sys.push] at out
  · exact intr_pop (s := { s with held := held }) popped out
  · omega
  · -- `sched` and the switch leave `noff` alone
    dsimp only at out
    omega
  · dsimp only at out
    rw [noff_resume] at out
    omega

/-- With more pushes than pops behind it, `pop_off()` does not panic. -/
theorem pop_ok (inv : s.Inv) (more : s.pops < s.pushes) : ∃ s', s.step lockOf .popOff = .next s' := by
  have pos : 0 < s.cpu.noff := by
    have := inv.counted
    omega
  obtain ⟨c, went⟩ := Cpu.popOff_ok (inv.off pos) pos
  exact ⟨_, pop_eq_next.mpr ⟨c, went, rfl⟩⟩

/-- On one CPU, over every run of `push_off`, `pop_off`, `acquire`, `release`,
interrupt changes outside critical sections, `sched` and the scheduler's
switches: `noff` is the pushes less the pops, interrupts are off while it is
positive, a `pop_off` with more pushes than pops behind it returns, a
switched-out process has its `intena` saved, and a step of a running process
that brings `noff` back to zero leaves interrupts as they were before that
process's outermost `push_off`. -/
theorem per_thread_intena (reach : s.Reachable lockOf) :
    s.cpu.noff + s.pops = s.pushes ∧
      (0 < s.cpu.noff → s.cpu.intr = false) ∧
      (s.pops < s.pushes → ∃ s', s.step lockOf .popOff = .next s') ∧
      (∀ p b, s.cur ≠ .proc p → s.entry (.proc p) = some b → s.saved p = some b) ∧
      ∀ p b e s', s.cur = .proc p → s.entry (.proc p) = some b → 0 < s.cpu.noff →
        s.step lockOf e = .next s' → s'.cpu.noff = 0 → s'.cpu.intr = b := by
  have inv := reachable_inv reach
  refine ⟨inv.counted, inv.off, pop_ok inv, inv.suspended, ?_⟩
  intro p b e s' cur entered inside stepped out
  rw [intr_of_lowered stepped inside out]
  exact inv.running p b cur inside entered

/-- A new process, switched to with interrupts off, takes a lock with them on
and gives it back. -/
theorem per_thread_intena_forkret :
    ∃ s : Sys Unit Unit, boot.run (fun _ => ()) [.setIntr true, .swtch (), .acquire ()] = .next s ∧
      (s.cpu.noff + s.pops = s.pushes ∧
        (0 < s.cpu.noff → s.cpu.intr = false) ∧
        (s.pops < s.pushes → ∃ s', s.step (fun _ => ()) .popOff = .next s') ∧
        (∀ p b, s.cur ≠ .proc p → s.entry (.proc p) = some b → s.saved p = some b) ∧
        ∀ p b e s', s.cur = .proc p → s.entry (.proc p) = some b → 0 < s.cpu.noff →
          s.step (fun _ => ()) e = .next s' → s'.cpu.noff = 0 → s'.cpu.intr = b) :=
  ⟨_, rfl, per_thread_intena (Reachable.boot.run [.setIntr true, .swtch (), .acquire ()] rfl)⟩

/-- The scheduler takes `p->lock` with interrupts on and switches to a new
process, which gives the lock up in `forkret`.  A timer interrupt from user
space makes the process `yield`: it takes `p->lock` with interrupts off and
`sched` switches back.  The scheduler's `release(&p->lock)` then brings `noff`
to zero and leaves interrupts off, though they were on before its `acquire`. -/
theorem scheduler_keeps_process_intena :
    ∃ s s' : Sys Unit Unit,
      boot.run (fun _ => ())
          [.setIntr true, .acquire (), .swtch (), .release (), .setIntr false, .acquire (), .sched false] =
        .next s ∧
      s.step (fun _ => ()) (.release ()) = .next s' ∧
      s.cur = .scheduler ∧ s.entry .scheduler = some true ∧ 0 < s.cpu.noff ∧ s'.cpu.noff = 0 ∧
      s'.cpu.intr = false :=
  ⟨_, _, rfl, rfl, rfl, rfl, by decide, rfl, rfl⟩

end Nesting

end Sys

end Spinlock

end Xv6
