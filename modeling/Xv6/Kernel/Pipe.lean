/-
# Kernel.Pipe -- pipe.c: a byte channel between processes

A pipe is a ring of `PIPESIZE` bytes behind two free-running `uint` counters,
`nread` and `nwrite` (`Theory.Ring`), and two flags for its open ends.
`pipewrite` and `piperead` run holding `pi->lock`, except while they sleep:
`pipewrite` on a full pipe, `piperead` on an empty one.  Inside, they call
`killed()` and `sleep()`, which take the process's own lock.  So a `kill`,
which takes only that lock, can come between the `killed()` check and the
`sleep`.

The model is the system of any number of processes making pipe calls on one
pipe.  `PipeSys.step` is one atomic step of one process:

* a stretch of pipe code between two points where another CPU can act on the
  pipe or on the process (`acquire(&pi->lock)`, `killed()`, `sleep()`);
* a whole `pipeclose`, which runs under `pi->lock`;
* a whole `kill`.

`wakeup` is taken as one step.  Runs are `Paths.run` over a list of (process,
action) pairs, and every invariant goes through `Paths.run_invariant`.  Ghost
lists record the bytes accepted from writers, removed from the ring and
delivered to readers.  A ghost count per process records the bytes its current
call has moved.

`PipeSys.Inv` holds in every reachable state (`run_inv`).  It says:

* at most `PIPESIZE` bytes are in the ring, across any wrap of the counters;
* the ring holds exactly the accepted bytes not yet removed, so removal is in
  FIFO order;
* the process holding the lock is exactly the one in locked code;
* a `pipewrite` that returns `r ≥ 0` pushed exactly `r` bytes;
* a `piperead` that returns `r ≥ 0` removed `r` or `r + 1` bytes.

The extra one is a byte whose `copyout` failed.  `piperead` takes it from the
ring before the copy and does not count it, so it is neither delivered nor
counted.  `piperead_drops_byte` runs this case.

A `kill` that comes between a reader's `killed()` check and its `sleep` finds
the reader not yet `SLEEPING` and does not wake it.  The reader then sleeps
with its flag set (`piperead_sleeps_killed`).
-/
import Xv6.Theory.Ring
import Xv6.Theory.Paths
import Xv6.Theory.Lock
import Xv6.Kernel.Vm

namespace Xv6

open Ring Paths

set_option autoImplicit false

/-! ## pipe.c -/

def PIPESIZE : Nat := 512

instance : NeZero PIPESIZE := ⟨by decide⟩

theorem PIPESIZE_dvd : PIPESIZE ∣ 2 ^ 32 := ⟨2 ^ 23, by decide⟩

/-- `struct pipe`, without its lock. -/
structure Pipe where
  data : Fin PIPESIZE → UInt8
  nread : UInt32
  nwrite : UInt32
  readopen : Bool
  writeopen : Bool

/-- A pipe as `pipealloc` leaves it.  The page holds whatever `kalloc` left. -/
def Pipe.alloc (data : Fin PIPESIZE → UInt8) : Pipe :=
  { data, nread := 0, nwrite := 0, readopen := true, writeopen := true }

/-- The channels of pipe calls: `&pi->nread` and `&pi->nwrite`. -/
inductive PipeChan
  | nread
  | nwrite
  deriving DecidableEq, Repr

/-- Where a process is in pipe.c.  `n` is the `int` argument and `i` the bytes
moved so far. -/
inductive PipePc
  | idle
  /-- `pipewrite`, at `while(i < n)` -/
  | write (addr : Nat) (n : Int) (i : Nat)
  /-- `pipewrite`, at `killed(pr)`, the read end open -/
  | writeKilled (addr : Nat) (n : Int) (i : Nat)
  /-- `pipewrite`, at `sleep(&pi->nwrite, ...)` on a full pipe -/
  | writeSleep (addr : Nat) (n : Int) (i : Nat)
  /-- `pipewrite`, inside `sleep`, without `pi->lock` -/
  | writeAsleep (addr : Nat) (n : Int) (i : Nat)
  | wrote (r : Int)
  /-- `piperead`, at `while(pi->nread == pi->nwrite && pi->writeopen)` -/
  | readWait (addr : Nat) (n : Int)
  /-- `piperead`, at `killed(pr)` on an empty pipe -/
  | readKilled (addr : Nat) (n : Int)
  /-- `piperead`, at `sleep(&pi->nread, ...)` -/
  | readSleep (addr : Nat) (n : Int)
  /-- `piperead`, inside `sleep`, without `pi->lock` -/
  | readAsleep (addr : Nat) (n : Int)
  /-- `piperead`, at `for(; i < n; i++)` -/
  | readCopy (addr : Nat) (n : Int) (i : Nat)
  | readDone (r : Int)
  deriving DecidableEq, Repr

namespace PipePc

/-- The points where the process holds `pi->lock`. -/
def locked : PipePc → Bool
  | .write .. | .writeKilled .. | .writeSleep .. | .readWait .. | .readKilled .. | .readSleep ..
  | .readCopy .. => true
  | _ => false

/-- The points outside pipe code, where a process can start a call. -/
def outside : PipePc → Bool
  | .idle | .wrote _ | .readDone _ => true
  | _ => false

/-- What the bytes moved by a process's current call are at its point in the
code: the call's own count `i` while it runs; `r` for a `pipewrite` that
returned `r ≥ 0`; `r` or one more for a `piperead` that returned `r ≥ 0`. -/
def Counts : PipePc → Nat → Prop
  | .idle, _ => True
  | .write _ _ i, m | .writeKilled _ _ i, m | .writeSleep _ _ i, m | .writeAsleep _ _ i, m
  | .readCopy _ _ i, m => m = i
  | .readWait .., m | .readKilled .., m | .readSleep .., m | .readAsleep .., m => m = 0
  | .wrote r, m => 0 ≤ r → m = r.toNat
  | .readDone r, m => 0 ≤ r → m = r.toNat ∨ m = r.toNat + 1

end PipePc

/-- Processes making pipe calls on one pipe. -/
structure PipeSys (P : Type) where
  pipe : Pipe
  /-- the holder of `pi->lock` -/
  lock : Option P
  pc : P → PipePc
  /-- `SLEEPING` on this channel -/
  chan : P → Option PipeChan
  killed : P → Bool
  vm : P → Vm
  accepted : List UInt8
  removed : List UInt8
  delivered : List UInt8
  /-- bytes moved by the process's current call -/
  moved : P → Nat

/-- What a process does next. -/
inductive PipeAct (P : Type)
  | write (addr : Nat) (n : Int)
  | read (addr : Nat) (n : Int)
  | close (writable : Bool)
  | kill (target : P)
  | next

namespace PipeSys

variable {P : Type} [DecidableEq P]

/-- No process in pipe code and none asleep. -/
def start (pipe : Pipe) (killed : P → Bool) (vm : P → Vm) : PipeSys P :=
  { pipe, lock := none, pc := fun _ => .idle, chan := fun _ => none, killed, vm,
    accepted := [], removed := [], delivered := [], moved := fun _ => 0 }

section Segments

variable (s : PipeSys P) (p : P)

/-- `p` goes on at `pc`. -/
def goto (pc : PipePc) : PipeSys P := { s with pc := Function.update s.pc p pc }

/-- `wakeup(chan)`: every process asleep on `chan` becomes runnable. -/
def wakeup (c : PipeChan) : PipeSys P :=
  { s with chan := fun q => if s.chan q = some c then none else s.chan q }

/-- `release(&pi->lock)`. -/
def release : PipeSys P := { s with lock := none }

/-- `pi->data[pi->nwrite++ % PIPESIZE] = ch`, by `p`. -/
def push (ch : UInt8) : PipeSys P :=
  { s with
    pipe := { s.pipe with data := Function.update s.pipe.data (slot s.pipe.nwrite) ch, nwrite := s.pipe.nwrite + 1 }
    accepted := s.accepted ++ [ch]
    moved := Function.update s.moved p (s.moved p + 1) }

/-- `ch = pi->data[pi->nread++ % PIPESIZE]`, by `p`. -/
def pop : PipeSys P :=
  { s with
    pipe := { s.pipe with nread := s.pipe.nread + 1 }
    removed := s.removed ++ [s.pipe.data (slot s.pipe.nread)]
    moved := Function.update s.moved p (s.moved p + 1) }

/-- `sleep(chan, &pi->lock)`: give up the lock and sleep on `chan`. -/
def sleep (c : PipeChan) (pc : PipePc) : PipeSys P :=
  ({ s with lock := none, chan := Function.update s.chan p (some c) } : PipeSys P).goto p pc

/-- A process woken from `sleep` runs again once it has `pi->lock` back. -/
def wake (pc : PipePc) : Option (PipeSys P) :=
  if s.chan p = none ∧ s.lock = none then some (({ s with lock := some p } : PipeSys P).goto p pc) else none

/-- `pipewrite` at `while(i < n)`. -/
def writeLoop (addr : Nat) (n : Int) (i : Nat) : PipeSys P :=
  if (i : Int) < n then
    if !s.pipe.readopen then (s.release).goto p (.wrote (-1))
    else s.goto p (.writeKilled addr n i)
  else ((s.wakeup .nread).release).goto p (.wrote i)

/-- `pipewrite` from `killed(pr)` to the end of the loop body. -/
def writeBody (addr : Nat) (n : Int) (i : Nat) : PipeSys P :=
  if s.killed p then (s.release).goto p (.wrote (-1))
  else if s.pipe.nwrite = s.pipe.nread + UInt32.ofNat PIPESIZE then
    (s.wakeup .nread).goto p (.writeSleep addr n i)
  else
    let (bytes, ok) := copyin (s.vm p) (addr + i) 1
    if ok then (s.push p (bytes.headD 0)).goto p (.write addr n (i + 1))
    -- `break`: the code after the loop
    else ((s.wakeup .nread).release).goto p (.wrote i)

/-- `piperead` at its wait loop. -/
def readWait (addr : Nat) (n : Int) : PipeSys P :=
  if s.pipe.nread = s.pipe.nwrite ∧ s.pipe.writeopen = true then s.goto p (.readKilled addr n)
  else s.goto p (.readCopy addr n 0)

/-- `piperead` at `killed(pr)`. -/
def readKilled (addr : Nat) (n : Int) : PipeSys P :=
  if s.killed p then (s.release).goto p (.readDone (-1)) else s.goto p (.readSleep addr n)

/-- `copyout` of the byte `ch` to `addr` of `p`: handed to the reader when
the copy succeeds. -/
def deliver (addr : Nat) (ch : UInt8) : PipeSys P × Bool :=
  let (vm, ok) := copyout (s.vm p) addr [ch]
  ({ s with vm := Function.update s.vm p vm, delivered := if ok then s.delivered ++ [ch] else s.delivered }, ok)

/-- One pass of `piperead`'s copy loop.  The byte leaves the ring before the
`copyout` that may fail. -/
def readCopy (addr : Nat) (n : Int) (i : Nat) : PipeSys P :=
  if (i : Int) < n ∧ s.pipe.nread ≠ s.pipe.nwrite then
    let (s', ok) := (s.pop p).deliver p (addr + i) (s.pipe.data (slot s.pipe.nread))
    if ok then s'.goto p (.readCopy addr n (i + 1))
    else ((s'.wakeup .nwrite).release).goto p (.readDone i)
  else ((s.wakeup .nwrite).release).goto p (.readDone i)

/-- `pipeclose(pi, writable)`, all of it under `pi->lock`. -/
def pipeclose (writable : Bool) : PipeSys P :=
  if writable then ({ s with pipe := { s.pipe with writeopen := false } } : PipeSys P).wakeup .nread
  else ({ s with pipe := { s.pipe with readopen := false } } : PipeSys P).wakeup .nwrite

/-- `kill`: set the target's flag and wake it if it sleeps. -/
def kill (q : P) : PipeSys P :=
  { s with killed := Function.update s.killed q true, chan := Function.update s.chan q none }

/-- The start of a call, once the caller has `pi->lock`. -/
def enter (pc : PipePc) : PipeSys P :=
  ({ s with lock := some p, moved := Function.update s.moved p 0 } : PipeSys P).goto p pc

end Segments

/-- One step of process `p`.  A call starts only outside pipe code and once
`pi->lock` is free; `pipeclose` and `kill` are made from outside pipe code. -/
def step : P × PipeAct P → PipeSys P → Option (PipeSys P)
  | (p, .write addr n), s =>
      if (s.pc p).outside ∧ s.lock = none then some (s.enter p (.write addr n 0)) else none
  | (p, .read addr n), s =>
      if (s.pc p).outside ∧ s.lock = none then some (s.enter p (.readWait addr n)) else none
  | (p, .close writable), s =>
      if (s.pc p).outside ∧ s.lock = none then some (s.pipeclose writable) else none
  | (p, .kill q), s => if (s.pc p).outside then some (s.kill q) else none
  | (p, .next), s =>
      match s.pc p with
      | .write addr n i => some (s.writeLoop p addr n i)
      | .writeKilled addr n i => some (s.writeBody p addr n i)
      | .writeSleep addr n i => some (s.sleep p .nwrite (.writeAsleep addr n i))
      | .writeAsleep addr n i => s.wake p (.write addr n i)
      | .readWait addr n => some (s.readWait p addr n)
      | .readKilled addr n => some (s.readKilled p addr n)
      | .readSleep addr n => some (s.sleep p .nread (.readAsleep addr n))
      | .readAsleep addr n => s.wake p (.readWait addr n)
      | .readCopy addr n i => some (s.readCopy p addr n i)
      | .idle | .wrote _ | .readDone _ => none

/-! ## The ring is a lossless FIFO -/

section Ring

set_option linter.unusedSectionVars false

/-- What the ring invariant reads. -/
def ringView (s : PipeSys P) :
    (Fin PIPESIZE → UInt8) × UInt32 × UInt32 × List UInt8 × List UInt8 × List UInt8 :=
  (s.pipe.data, s.pipe.nread, s.pipe.nwrite, s.accepted, s.removed, s.delivered)

/-- At most `PIPESIZE` bytes are in the ring; they are the accepted bytes not
yet removed; readers were handed some of the removed ones, in order. -/
structure RingInv (s : PipeSys P) : Prop where
  bound : (s.pipe.nwrite - s.pipe.nread).toNat ≤ PIPESIZE
  fifo : s.removed ++ window s.pipe.data s.pipe.nread s.pipe.nwrite = s.accepted
  delivered : s.delivered.Sublist s.removed

variable {s s' : PipeSys P} (p : P)

theorem RingInv.of_view (inv : s.RingInv) (same : s'.ringView = s.ringView) : s'.RingInv := by
  simp only [ringView, Prod.mk.injEq] at same
  obtain ⟨data, nread, nwrite, accepted, removed, delivered⟩ := same
  exact ⟨by rw [nwrite, nread]; exact inv.bound, by rw [removed, data, nread, nwrite, accepted]; exact inv.fifo,
    by rw [delivered, removed]; exact inv.delivered⟩

@[simp] theorem ringView_goto (pc : PipePc) : (s.goto p pc).ringView = s.ringView := rfl
@[simp] theorem ringView_wakeup (c : PipeChan) : (s.wakeup c).ringView = s.ringView := rfl
@[simp] theorem ringView_release : s.release.ringView = s.ringView := rfl
@[simp] theorem ringView_sleep (c : PipeChan) (pc : PipePc) : (s.sleep p c pc).ringView = s.ringView := rfl
@[simp] theorem ringView_enter (pc : PipePc) : (s.enter p pc).ringView = s.ringView := rfl
@[simp] theorem ringView_kill (q : P) : (s.kill q).ringView = s.ringView := rfl
@[simp] theorem ringView_pipeclose (writable : Bool) : (s.pipeclose writable).ringView = s.ringView := by
  unfold pipeclose
  split <;> rfl

/-- A write into a ring that is not full appends the byte. -/
theorem RingInv.push (inv : s.RingInv) (notFull : s.pipe.nwrite ≠ s.pipe.nread + UInt32.ofNat PIPESIZE)
    (ch : UInt8) : (s.push p ch).RingInv := by
  have room : (s.pipe.nwrite - s.pipe.nread).toNat < PIPESIZE :=
    lt_of_le_of_ne inv.bound fun full => notFull ((toNat_sub_eq_iff (by decide)).mp full)
  have grows := toNat_succ_sub (r := s.pipe.nread) (e := s.pipe.nwrite) (by simp only [PIPESIZE] at room; omega)
  refine ⟨?_, ?_, inv.delivered⟩
  · show (s.pipe.nwrite + 1 - s.pipe.nread).toNat ≤ PIPESIZE
    omega
  · show s.removed ++ window (Function.update s.pipe.data (slot s.pipe.nwrite) ch) s.pipe.nread (s.pipe.nwrite + 1) =
      s.accepted ++ [ch]
    rw [window_push PIPESIZE_dvd (by decide) _ room, ← List.append_assoc, inv.fifo]

/-- A read from a ring that is not empty takes its first byte. -/
theorem RingInv.pop (inv : s.RingInv) (nonempty : s.pipe.nread ≠ s.pipe.nwrite) : (s.pop p).RingInv := by
  have shrinks := toNat_sub_succ (r := s.pipe.nread) (e := s.pipe.nwrite) (Ne.symm nonempty)
  refine ⟨?_, ?_, inv.delivered.trans (List.sublist_append_left _ _)⟩
  · show (s.pipe.nwrite - (s.pipe.nread + 1)).toNat ≤ PIPESIZE
    have := inv.bound
    omega
  · show s.removed ++ [s.pipe.data (slot s.pipe.nread)] ++ window s.pipe.data (s.pipe.nread + 1) s.pipe.nwrite =
      s.accepted
    rw [List.append_assoc, List.singleton_append, ← window_pop PIPESIZE_dvd _ (Ne.symm nonempty), inv.fifo]

/-- The byte just taken, copied out or not: delivered readers get a part of
the removed bytes. -/
theorem RingInv.popDeliver (inv : s.RingInv) (nonempty : s.pipe.nread ≠ s.pipe.nwrite) (addr : Nat) :
    ((s.pop p).deliver p addr (s.pipe.data (slot s.pipe.nread))).1.RingInv := by
  have popped := inv.pop p nonempty
  refine ⟨popped.bound, popped.fifo, ?_⟩
  show (if _ then s.delivered ++ [_] else s.delivered).Sublist (s.removed ++ [_])
  split
  · exact inv.delivered.append_right _
  · exact inv.delivered.trans (List.sublist_append_left _ _)

end Ring

/-! ## The lock and the counts of each call -/

section Calls

set_option linter.unusedSectionVars false

/-- The holder of `pi->lock` is the one process in locked code, and every
process's count of moved bytes is what its point in the code says. -/
structure CallInv (s : PipeSys P) : Prop where
  locked : Lock.Held PipePc.locked s.lock s.pc
  counts : ∀ q, (s.pc q).Counts (s.moved q)

variable {s s' : PipeSys P} (p : P)

/-- `p` alone moves: to `pc`, with `m` bytes moved, holding the lock exactly in locked code. -/
theorem CallInv.move (inv : s.CallInv) {pc : PipePc} {m : Nat} (alone : ∀ q, q ≠ p → (s.pc q).locked = false)
    (pcs : s'.pc = Function.update s.pc p pc) (moves : s'.moved = Function.update s.moved p m)
    (lock : s'.lock = if pc.locked then some p else none) (counts : pc.Counts m) : s'.CallInv := by
  refine ⟨by rw [pcs, lock]; exact Lock.Held.move p pc alone, fun q => ?_⟩
  rw [pcs, moves]
  by_cases same : q = p
  · subst same
    simpa using counts
  · rw [Function.update_of_ne same, Function.update_of_ne same]
    exact inv.counts q

/-- `p` moves on without moving a byte. -/
theorem CallInv.moveOn (inv : s.CallInv) {pc : PipePc} (alone : ∀ q, q ≠ p → (s.pc q).locked = false)
    (pcs : s'.pc = Function.update s.pc p pc) (moves : s'.moved = s.moved)
    (lock : s'.lock = if pc.locked then some p else none) (counts : pc.Counts (s.moved p)) : s'.CallInv :=
  inv.move p alone pcs (by rw [moves, Function.update_eq_self]) lock counts

/-- A step that changes no process's point, count or the lock. -/
theorem CallInv.frame (inv : s.CallInv) (pcs : s'.pc = s.pc) (moves : s'.moved = s.moved)
    (lock : s'.lock = s.lock) : s'.CallInv :=
  ⟨fun q => by rw [pcs, lock]; exact inv.locked q, fun q => by rw [pcs, moves]; exact inv.counts q⟩

end Calls

/-! ## Every step keeps both -/

section Steps

set_option linter.unusedSectionVars false

/-- The invariant of the pipe system. -/
structure Inv (s : PipeSys P) : Prop where
  ring : s.RingInv
  calls : s.CallInv

variable {s : PipeSys P} (p : P) {addr : Nat} {n : Int} {i : Nat}

/-- The process in locked code holds the lock, and is alone there. -/
theorem Inv.holder (inv : s.Inv) (locked : (s.pc p).locked = true) :
    s.lock = some p ∧ ∀ q, q ≠ p → (s.pc q).locked = false :=
  have mine := (inv.calls.locked p).mpr locked
  ⟨mine, inv.calls.locked.alone (.inl mine)⟩

theorem Inv.counted (inv : s.Inv) : (s.pc p).Counts (s.moved p) := inv.calls.counts p

theorem Inv.enter (inv : s.Inv) (free : s.lock = none) {pc : PipePc} (locked : pc.locked = true)
    (counts : pc.Counts 0) : (s.enter p pc).Inv :=
  ⟨inv.ring.of_view (by simp), inv.calls.move p (inv.calls.locked.alone (.inr free)) rfl rfl
    (by rw [locked]; rfl) counts⟩

theorem Inv.writeLoop (inv : s.Inv) (at_ : s.pc p = .write addr n i) : (s.writeLoop p addr n i).Inv := by
  obtain ⟨mine, alone⟩ := inv.holder p (by rw [at_]; rfl)
  have counted : s.moved p = i := by simpa [at_, PipePc.Counts] using inv.counted p
  unfold PipeSys.writeLoop
  split
  · split
    · -- the read end is closed: -1
      exact ⟨inv.ring.of_view (by simp), inv.calls.moveOn p alone rfl rfl rfl fun neg => absurd neg (by decide)⟩
    · exact ⟨inv.ring.of_view (by simp), inv.calls.moveOn p alone rfl rfl (by simp [goto, mine, PipePc.locked])
        counted⟩
  · -- all `n` bytes written
    exact ⟨inv.ring.of_view (by simp), inv.calls.moveOn p alone rfl rfl rfl fun _ => by simp [counted]⟩

theorem Inv.writeBody (inv : s.Inv) (at_ : s.pc p = .writeKilled addr n i) : (s.writeBody p addr n i).Inv := by
  obtain ⟨mine, alone⟩ := inv.holder p (by rw [at_]; rfl)
  have counted : s.moved p = i := by simpa [at_, PipePc.Counts] using inv.counted p
  unfold PipeSys.writeBody
  split
  · exact ⟨inv.ring.of_view (by simp), inv.calls.moveOn p alone rfl rfl rfl fun neg => absurd neg (by decide)⟩
  · split
    · -- full: wake the readers and go to sleep
      exact ⟨inv.ring.of_view (by simp), inv.calls.moveOn p alone rfl rfl
        (by simp [goto, wakeup, mine, PipePc.locked]) counted⟩
    · rename_i notFull
      split
      rename_i bytes ok _
      split
      · -- the byte is in the ring
        exact ⟨(inv.ring.push p notFull (bytes.headD 0)).of_view rfl, inv.calls.move p alone rfl rfl
          (by simp [goto, push, mine, PipePc.locked]) (by simp [PipePc.Counts, counted])⟩
      · -- `copyin` failed: `break`
        exact ⟨inv.ring.of_view (by simp), inv.calls.moveOn p alone rfl rfl rfl fun _ => by simp [counted]⟩

theorem Inv.sleep (inv : s.Inv) (locked : (s.pc p).locked = true) (c : PipeChan) {pc : PipePc}
    (unlocked : pc.locked = false) (counts : pc.Counts (s.moved p)) : (s.sleep p c pc).Inv := by
  obtain ⟨_, alone⟩ := inv.holder p locked
  exact ⟨inv.ring.of_view (by simp), inv.calls.moveOn p alone rfl rfl (by rw [unlocked]; rfl) counts⟩

theorem Inv.wake (inv : s.Inv) {pc : PipePc} {s' : PipeSys P} (woke : s.wake p pc = some s')
    (locked : pc.locked = true) (counts : pc.Counts (s.moved p)) : s'.Inv := by
  unfold PipeSys.wake at woke
  split at woke
  · rename_i free
    cases woke
    exact ⟨inv.ring.of_view rfl, inv.calls.moveOn p (inv.calls.locked.alone (.inr free.2)) rfl rfl
      (by rw [locked]; rfl) counts⟩
  · cases woke

theorem Inv.readWait (inv : s.Inv) (at_ : s.pc p = .readWait addr n) : (s.readWait p addr n).Inv := by
  obtain ⟨mine, alone⟩ := inv.holder p (by rw [at_]; rfl)
  have counted : s.moved p = 0 := by simpa [at_, PipePc.Counts] using inv.counted p
  unfold PipeSys.readWait
  split
  · exact ⟨inv.ring.of_view (by simp), inv.calls.moveOn p alone rfl rfl (by simp [goto, mine, PipePc.locked])
      counted⟩
  · exact ⟨inv.ring.of_view (by simp), inv.calls.moveOn p alone rfl rfl (by simp [goto, mine, PipePc.locked])
      counted⟩

theorem Inv.readKilled (inv : s.Inv) (at_ : s.pc p = .readKilled addr n) : (s.readKilled p addr n).Inv := by
  obtain ⟨mine, alone⟩ := inv.holder p (by rw [at_]; rfl)
  have counted : s.moved p = 0 := by simpa [at_, PipePc.Counts] using inv.counted p
  unfold PipeSys.readKilled
  split
  · exact ⟨inv.ring.of_view (by simp), inv.calls.moveOn p alone rfl rfl rfl fun neg => absurd neg (by decide)⟩
  · exact ⟨inv.ring.of_view (by simp), inv.calls.moveOn p alone rfl rfl (by simp [goto, mine, PipePc.locked])
      counted⟩

/-- A pass of the copy loop: the byte taken counts even when its `copyout`
fails, so the call's result is then one short of it. -/
theorem Inv.readCopy (inv : s.Inv) (at_ : s.pc p = .readCopy addr n i) : (s.readCopy p addr n i).Inv := by
  obtain ⟨mine, alone⟩ := inv.holder p (by rw [at_]; rfl)
  have counted : s.moved p = i := by simpa [at_, PipePc.Counts] using inv.counted p
  unfold PipeSys.readCopy
  split
  · rename_i more
    -- the byte leaves the ring and counts before its `copyout`
    have ring := inv.ring.popDeliver p more.2 (addr + i)
    have pcs : ((s.pop p).deliver p (addr + i) (s.pipe.data (slot s.pipe.nread))).1.pc = s.pc := rfl
    have moves : ((s.pop p).deliver p (addr + i) (s.pipe.data (slot s.pipe.nread))).1.moved =
        Function.update s.moved p (i + 1) := by
      simp [deliver, pop, counted]
    have lock : ((s.pop p).deliver p (addr + i) (s.pipe.data (slot s.pipe.nread))).1.lock = some p := mine
    generalize (s.pop p).deliver p (addr + i) (s.pipe.data (slot s.pipe.nread)) = d at ring pcs moves lock
    obtain ⟨s', ok⟩ := d
    dsimp only at ring pcs moves lock
    cases ok
    · -- the `copyout` failed: the call returns `i` with `i + 1` bytes taken
      exact ⟨ring.of_view (by simp), inv.calls.move p alone (by rw [← pcs]; rfl) moves rfl
        (by simp [PipePc.Counts])⟩
    · exact ⟨ring.of_view (by simp), inv.calls.move p alone (by rw [← pcs]; rfl) moves
        (by simpa [goto, PipePc.locked] using lock) (show PipePc.Counts (.readCopy addr n (i + 1)) (i + 1) from rfl)⟩
  · exact ⟨inv.ring.of_view (by simp), inv.calls.moveOn p alone rfl rfl rfl fun _ => .inl (by simp [counted])⟩

theorem Inv.pipeclose (inv : s.Inv) (writable : Bool) : (s.pipeclose writable).Inv := by
  refine ⟨inv.ring.of_view (by simp), inv.calls.frame ?_ ?_ ?_⟩ <;> unfold PipeSys.pipeclose <;> split <;> rfl

/-- Every step keeps the invariant. -/
theorem Inv.step (inv : s.Inv) {e : P × PipeAct P} {s' : PipeSys P} (stepped : step e s = some s') : s'.Inv := by
  obtain ⟨p, act⟩ := e
  cases act with
  | write addr n =>
      simp only [PipeSys.step] at stepped
      split at stepped
      · rename_i free
        cases stepped
        exact inv.enter p free.2 rfl rfl
      · cases stepped
  | read addr n =>
      simp only [PipeSys.step] at stepped
      split at stepped
      · rename_i free
        cases stepped
        exact inv.enter p free.2 rfl rfl
      · cases stepped
  | close writable =>
      simp only [PipeSys.step] at stepped
      split at stepped
      · cases stepped
        exact inv.pipeclose writable
      · cases stepped
  | kill q =>
      simp only [PipeSys.step] at stepped
      split at stepped
      · cases stepped
        exact ⟨inv.ring.of_view (by simp), inv.calls.frame rfl rfl rfl⟩
      · cases stepped
  | next =>
      -- one case per point of the code
      have counts := inv.counted p
      cases at_ : s.pc p with
      | idle | wrote _ | readDone _ => simp [PipeSys.step, at_] at stepped
      | write addr n i =>
          simp only [PipeSys.step, at_, Option.some.injEq] at stepped
          exact stepped ▸ inv.writeLoop p at_
      | writeKilled addr n i =>
          simp only [PipeSys.step, at_, Option.some.injEq] at stepped
          exact stepped ▸ inv.writeBody p at_
      | writeSleep addr n i =>
          simp only [PipeSys.step, at_, Option.some.injEq] at stepped
          rw [at_] at counts
          exact stepped ▸ inv.sleep p (by rw [at_]; rfl) .nwrite rfl counts
      | writeAsleep addr n i =>
          simp only [PipeSys.step, at_] at stepped
          rw [at_] at counts
          exact inv.wake p stepped rfl counts
      | readWait addr n =>
          simp only [PipeSys.step, at_, Option.some.injEq] at stepped
          exact stepped ▸ inv.readWait p at_
      | readKilled addr n =>
          simp only [PipeSys.step, at_, Option.some.injEq] at stepped
          exact stepped ▸ inv.readKilled p at_
      | readSleep addr n =>
          simp only [PipeSys.step, at_, Option.some.injEq] at stepped
          rw [at_] at counts
          exact stepped ▸ inv.sleep p (by rw [at_]; rfl) .nread rfl counts
      | readAsleep addr n =>
          simp only [PipeSys.step, at_] at stepped
          rw [at_] at counts
          exact inv.wake p stepped rfl counts
      | readCopy addr n i =>
          simp only [PipeSys.step, at_, Option.some.injEq] at stepped
          exact stepped ▸ inv.readCopy p at_

end Steps

/-! ## Every run -/

omit [DecidableEq P] in
/-- A pipe just allocated, with no process in pipe code. -/
theorem start_inv (data : Fin PIPESIZE → UInt8) (killed : P → Bool) (vm : P → Vm) :
    (start (Pipe.alloc data) killed vm).Inv :=
  ⟨⟨by simp [start, Pipe.alloc], by simp [start, Pipe.alloc], List.Sublist.slnil⟩, ⟨fun _ => by simp [start, PipePc.locked],
    fun _ => trivial⟩⟩

theorem run_inv {s s' : PipeSys P} {t : List (P × PipeAct P)} (inv : s.Inv) (ran : run step s t = some s') :
    s'.Inv :=
  run_invariant step Inv (fun _ _ _ kept stepped => kept.step stepped) inv ran

/-- Over every interleaving of pipe calls, closes and kills on a pipe, with any
user addresses: the ring holds at most `PIPESIZE` bytes across any wrap of the
counters, the bytes leave it in the order they were accepted, readers get a
part of them in that order, a `pipewrite` that returns `r ≥ 0` moved `r`
bytes, and a `piperead` that returns `r ≥ 0` took `r` or `r + 1`. -/
theorem pipe_runs (data : Fin PIPESIZE → UInt8) (killed : P → Bool) (vm : P → Vm) {s : PipeSys P}
    {t : List (P × PipeAct P)} (ran : run step (start (Pipe.alloc data) killed vm) t = some s) :
    (s.pipe.nwrite - s.pipe.nread).toNat ≤ PIPESIZE ∧ s.removed <+: s.accepted ∧ s.delivered.Sublist s.removed ∧
      (∀ q r, s.pc q = .wrote r → 0 ≤ r → s.moved q = r.toNat) ∧
      (∀ q r, s.pc q = .readDone r → 0 ≤ r → s.moved q = r.toNat ∨ s.moved q = r.toNat + 1) := by
  have inv := run_inv (start_inv data killed vm) ran
  refine ⟨inv.ring.bound, ⟨_, inv.ring.fifo⟩, inv.ring.delivered, fun q r done => ?_, fun q r done => ?_⟩
  · simpa [done, PipePc.Counts] using inv.counted q
  · simpa [done, PipePc.Counts] using inv.counted q

end PipeSys

/-! ## A failed `copyout` loses a byte -/

/-- A writer's memory: `"ab"` from address 0 on. -/
def abMemory : Vm := { user := fun _ => true, writable := fun _ => true, byte := fun a => if a = 0 then 97 else 98 }

/-- A reader's memory: page 0 unmapped, page 1 mapped and writable. -/
def holeMemory : Vm := { user := fun pg => pg ≠ 0, writable := fun _ => true, byte := fun _ => 0 }

/-- Process 0 holds `"ab"`, process 1 has a hole at page 0. -/
def dropStart : PipeSys (Fin 2) :=
  PipeSys.start (Pipe.alloc fun _ => 0) (fun _ => false) fun p => if p = 0 then abMemory else holeMemory

/-- `pipewrite(pi, 0, 2)` by process 0, to its end. -/
def writeAB : List (Fin 2 × PipeAct (Fin 2)) :=
  [(0, .write 0 2), (0, .next), (0, .next), (0, .next), (0, .next), (0, .next)]

/-- `piperead(pi, addr, 1)` by process 1, in `steps` steps after its start. -/
def readOne (addr steps : Nat) : List (Fin 2 × PipeAct (Fin 2)) := (1, .read addr 1) :: List.replicate steps (1, .next)

/-- Process 0 writes `"ab"`.  Process 1 reads one byte into its unmapped page:
`piperead` returns 0 and `nread` has moved by one.  Its next read, into a
mapped page, gets `"b"`: the bytes delivered are not a prefix of the bytes
written. -/
theorem piperead_drops_byte :
    ∃ s₁ s₂, run PipeSys.step dropStart (writeAB ++ readOne 0 2) = some s₁ ∧
      s₁.pc 1 = .readDone 0 ∧ s₁.pipe.nread = 1 ∧ s₁.delivered = [] ∧
      run PipeSys.step s₁ (readOne PGSIZE 3) = some s₂ ∧
      s₂.accepted = [97, 98] ∧ s₂.delivered = [98] ∧ ¬ s₂.delivered <+: s₂.accepted := by
  simp +decide [dropStart, writeAB, readOne, PipeSys.step, PipeSys.start, PipeSys.enter, PipeSys.goto,
    PipeSys.writeLoop, PipeSys.writeBody, PipeSys.readWait, PipeSys.readCopy, PipeSys.deliver, PipeSys.push,
    PipeSys.pop, PipeSys.release, PipeSys.wakeup, PipePc.outside, Pipe.alloc, copyin_one, copyout_one, abMemory,
    holeMemory, PGROUNDDOWN, PGSIZE, PIPESIZE, Function.update]

/-! ## A kill between `killed()` and `sleep()` -/

/-- Process 1 reads the empty pipe and passes its `killed()` check.  Process 0
kills it before it reaches `sleep`.  It then sleeps on `&pi->nread` with its
`killed` flag set, and it cannot run until a writer or a close wakes it. -/
theorem piperead_sleeps_killed :
    ∃ s, run PipeSys.step dropStart [(1, .read 0 1), (1, .next), (1, .next), (0, .kill 1), (1, .next)] = some s ∧
      s.pc 1 = .readAsleep 0 1 ∧ s.chan 1 = some .nread ∧ s.killed 1 = true ∧ PipeSys.step (1, .next) s = none :=
  -- no copy runs, so the whole run evaluates
  ⟨_, rfl, rfl, rfl, rfl, rfl⟩

end Xv6
