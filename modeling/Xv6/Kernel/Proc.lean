/-
# Kernel.Proc -- proc.c: the process table under fork, exit, wait and kill

`proc[NPROC]` is a table of slots.  `allocproc` hands out an `UNUSED` slot with
the next pid, `fork` fills it in and links it to its parent, `exit` gives the
children to `initproc` and leaves a `ZOMBIE`, and the parent's `wait` finds the
zombie, returns its pid and frees the slot with `freeproc`.  `kill(pid)` marks
the first slot with that pid.  The scheduler of each CPU runs one `RUNNABLE`
process at a time.

The model is a table of `n` slots and `m` CPUs.  Each process is at a point of
its code (`ProcPc`) between two lock-protected sections, and each step runs one
section whole.  `p->lock` is never held from one step to the next: every
stretch under it is one step, the scheduler's pick of `p` together with `p`'s
release after the switch, and `sched()` from `p` together with the scheduler's
`c->proc = 0` after it.  `wait_lock` is held across steps, through the loop of
`reparent` and the `wakeup`s of `exit`, and through `wait`'s scan; each pass of
those loops is one step.

`Inv` is what holds in every reachable state (`run_inv`):

* a process is `RUNNING` exactly when some CPU runs it, and no two CPUs run
  the same one;
* `wait_lock` is held by exactly the process at a point that holds it;
* every parent is `SLEEPING`, `RUNNABLE` or `RUNNING`, so `initproc`, which
  never exits, is too; and every started process but `initproc` has one;
* in `exit` after `reparent` has passed `proc[k]`, and in `wait` after a scan
  up to `proc[k]` that met no child, no slot before `k` is a child.

Each step is one `Section` of the code (`section_of_step`), and every lemma
about steps goes by cases on it.  Over whole runs, `exit_reparents` says that
`exit` hands all its children to `initproc` whatever the others do meanwhile,
and `proc_tree` gathers the tree, `wait` and CPU facts.

`pid` and `nextpid` are 32-bit `int`s; `nextpid + 1` wraps.  The last sections
run concrete interleavings: `kill(0)` marking a free slot that `fork` then
hands out, and `nextpid` wrapping until a child's pid is -1 or 1.
-/
import Xv6.Kernel.Sleep
import Xv6.Kernel.Param

namespace Xv6

open Paths

set_option autoImplicit false

namespace ProcState

/-- Started and not exited: `SLEEPING`, `RUNNABLE` or `RUNNING`. -/
def live : ProcState → Bool
  | .SLEEPING | .RUNNABLE | .RUNNING => true
  | _ => false

/-- Started by `fork` or `userinit`: live, or a `ZOMBIE`. -/
def started : ProcState → Bool
  | .SLEEPING | .RUNNABLE | .RUNNING | .ZOMBIE => true
  | _ => false

end ProcState

/-- Where a process is: in user space, or in a system call of proc.c between
two of its sections. -/
inductive ProcPc (n : Nat)
  /-- in user space; `r` is what the last system call returned -/
  | user (r : Int32)
  /-- in `fork`, in allocproc's loop at `proc[k]` -/
  | forkScan (k : Nat)
  /-- in `fork`, `np` allocated and filled in: at `acquire(&wait_lock); np->parent = p;` -/
  | forkParent (np : Fin n) (pid : Int32)
  /-- at `acquire(&np->lock); np->state = RUNNABLE;` -/
  | forkRun (np : Fin n) (pid : Int32)
  /-- in `exit(status)`, at `acquire(&wait_lock)` -/
  | exitAcquire (status : Int32)
  /-- in `reparent(p)`, at `proc[k]` -/
  | reparent (status : Int32) (k : Nat)
  /-- in the `wakeup(initproc)` that `reparent` makes after giving away `proc[k]`, at `proc[j]` -/
  | reparentWake (status : Int32) (k j : Nat)
  /-- in `wakeup(p->parent)`, at `proc[j]` -/
  | wakeParent (status : Int32) (chan : Option (Fin n)) (j : Nat)
  /-- at `acquire(&p->lock); p->xstate = status; p->state = ZOMBIE; release(&wait_lock); sched();` -/
  | exitZombie (status : Int32)
  /-- a `ZOMBIE`, or a slot freed after it: it never runs again -/
  | exited
  /-- in `wait(addr)`, at `acquire(&wait_lock)` -/
  | waitAcquire (addr : UInt64)
  /-- in `wait`'s scan at `proc[k]`; `havekids` says whether it has met a child -/
  | waitScan (addr : UInt64) (k : Nat) (havekids : Bool)
  /-- at `sleep(p, &wait_lock)` -/
  | waitSleep (addr : UInt64)
  /-- asleep in `wait`, or woken; back on a CPU it takes `wait_lock` again,
  the `acquire(lk)` at the end of `sleep` -/
  | waitAsleep (addr : UInt64)
  /-- in `kill(pid)`'s loop at `proc[k]` -/
  | killScan (pid : Int32) (k : Nat)
  deriving DecidableEq, Repr

namespace ProcPc

variable {n : Nat}

/-- The points that hold `wait_lock`. -/
def holdsWait : ProcPc n → Bool
  | .reparent .. | .reparentWake .. | .wakeParent .. | .exitZombie _ | .waitScan .. | .waitSleep _ => true
  | _ => false

/-- The points inside `exit`. -/
def exiting : ProcPc n → Bool
  | .exitAcquire _ | .reparent .. | .reparentWake .. | .wakeParent .. | .exitZombie _ => true
  | _ => false

/-- The slot that `fork` has allocated here and not yet made `RUNNABLE`. -/
def forks : ProcPc n → Option (Fin n)
  | .forkParent np _ | .forkRun np _ => some np
  | _ => none

/-- How many slots from `proc[0]` on are known to be no child of the process
here: those `reparent` has passed, all of them once it is done, and those
`wait`'s scan has passed without meeting a child. -/
def childless : ProcPc n → Nat
  | .reparent _ k => k
  | .reparentWake _ k _ => k + 1
  | .wakeParent .. | .exitZombie _ => n
  | .waitScan _ k false => k
  | _ => 0

theorem holdsWait_of_childless {x : ProcPc n} (some : 0 < x.childless) : x.holdsWait = true := by
  cases x with
  | waitScan addr k havekids => cases havekids <;> simp_all [childless, holdsWait]
  | _ => simp_all [childless, holdsWait]

end ProcPc

/-- `proc[]` with the fields these calls use, `nextpid`, the holder of
`wait_lock`, `c->proc` of each CPU, and where each process is. -/
structure ProcSys (n m : Nat) where
  state : Fin n → ProcState
  /-- `p->chan`: a sleeper in `wait` sleeps on its own slot -/
  chan : Fin n → Option (Fin n)
  killed : Fin n → Bool
  xstate : Fin n → Int32
  pid : Fin n → Int32
  /-- `p->parent`, under `wait_lock` -/
  parent : Fin n → Option (Fin n)
  nextpid : Int32
  waitLock : Option (Fin n)
  cpu : Fin m → Option (Fin n)
  pc : Fin n → ProcPc n

/-- What happens next: process `p` makes a system call from user space, runs
the next section of the call it is in (`fail` where that section allocates or
copies and that fails), or takes a timer interrupt and yields; or the
scheduler of CPU `c` switches to `p`. -/
inductive ProcAct (m : Nat)
  | fork
  | exit (status : Int32)
  | wait (addr : UInt64)
  | kill (pid : Int32)
  | next
  | fail
  | yield
  | sched (c : Fin m)

/-- `initproc`: `userinit` allocates the first slot of the table. -/
def initproc {n : Nat} [NeZero n] : Fin n := 0

instance : NeZero NPROC := ⟨by decide⟩
instance : NeZero NCPU := ⟨by decide⟩

namespace ProcSys

variable {n m : Nat} [NeZero n]

set_option linter.unusedSectionVars false

/-- The table as the kernel image has it: every slot zero, so `UNUSED` with
pid 0, and `nextpid = 1`. -/
def boot : ProcSys n m :=
  { state := fun _ => .UNUSED, chan := fun _ => none, killed := fun _ => false, xstate := fun _ => 0,
    pid := fun _ => 0, parent := fun _ => none, nextpid := 1, waitLock := none, cpu := fun _ => none,
    pc := fun _ => .exited }

section Sections

variable (s : ProcSys n m) (p : Fin n)

def goto (x : ProcPc n) : ProcSys n m := { s with pc := Function.update s.pc p x }

/-- `found:` in allocproc, for slot `np`: `p->pid = allocpid(); p->state = USED;`.
Nothing here clears `p->killed`. -/
def found (np : Fin n) : ProcSys n m :=
  { s with pid := Function.update s.pid np s.nextpid, nextpid := s.nextpid + 1,
           state := Function.update s.state np .USED }

/-- `freeproc(p)`; it also frees the trapframe and the page table. -/
def freeproc : ProcSys n m :=
  { s with pid := Function.update s.pid p 0, parent := Function.update s.parent p none,
           chan := Function.update s.chan p none, killed := Function.update s.killed p false,
           xstate := Function.update s.xstate p 0, state := Function.update s.state p .UNUSED }

/-- `sched()` from `p`, and the scheduler's `c->proc = 0` once it is back. -/
def deschedule : ProcSys n m := { s with cpu := fun c => if s.cpu c = some p then none else s.cpu c }

/-- `p->state = RUNNABLE`, for a sleeper that `wakeup` or `kill` wakes. -/
def wake : ProcSys n m := { s with state := Function.update s.state p .RUNNABLE }

/-- `acquire(&wait_lock)`: it spins while another process holds it. -/
def acquireWait (x : ProcPc n) : Option (ProcSys n m) :=
  if s.waitLock = none then some ({ s with waitLock := some p }.goto p x) else none

/-- One pass of allocproc's loop for `fork` by `p`, at `proc[k]` under its
lock.  At an `UNUSED` slot allocproc goes to `found:`.  Its trapframe and page
table and fork's `uvmcopy` then all succeed (`ok`), fork fills in the rest (the
child will return 0) and releases `np->lock`; or one fails, `freeproc` clears
the slot and fork returns -1.  Past the table allocproc returns 0 and fork -1. -/
def allocproc (k : Nat) (ok : Bool) : ProcSys n m :=
  if lt : k < n then
    if s.state ⟨k, lt⟩ = .UNUSED then
      if ok then (((s.found ⟨k, lt⟩).goto ⟨k, lt⟩ (.user 0)).goto p (.forkParent ⟨k, lt⟩ s.nextpid))
      else ((s.found ⟨k, lt⟩).freeproc ⟨k, lt⟩).goto p (.user (-1))
    else s.goto p (.forkScan (k + 1))
  else s.goto p (.user (-1))

/-- `acquire(&wait_lock); np->parent = p; release(&wait_lock);` -/
def forkParent (np : Fin n) (pid : Int32) : Option (ProcSys n m) :=
  if s.waitLock = none then some ({ s with parent := Function.update s.parent np (some p) }.goto p (.forkRun np pid))
  else none

/-- `acquire(&np->lock); np->state = RUNNABLE; release(&np->lock); return pid;` -/
def forkRun (np : Fin n) (pid : Int32) : ProcSys n m := (s.wake np).goto p (.user pid)

/-- One pass of reparent's loop at `proc[k]`: a child of `p` goes to
`initproc`, which is then woken. -/
def reparent (status : Int32) (k : Nat) : ProcSys n m :=
  if lt : k < n then
    if s.parent ⟨k, lt⟩ = some p then
      { s with parent := Function.update s.parent ⟨k, lt⟩ (some initproc) }.goto p (.reparentWake status k 0)
    else s.goto p (.reparent status (k + 1))
  else s.goto p (.wakeParent status (s.parent p) 0)

/-- One pass of `wakeup(chan)`'s loop at `q`, by `p`: every process but
`myproc()` is looked at under its lock and woken if it sleeps on `chan`. -/
def wakeupAt (chan : Option (Fin n)) (q : Fin n) : ProcSys n m :=
  if q ≠ p ∧ s.state q = .SLEEPING ∧ s.chan q = chan then s.wake q else s

def reparentWake (status : Int32) (k j : Nat) : ProcSys n m :=
  if lt : j < n then (s.wakeupAt p (some initproc) ⟨j, lt⟩).goto p (.reparentWake status k (j + 1))
  else s.goto p (.reparent status (k + 1))

def wakeParent (status : Int32) (chan : Option (Fin n)) (j : Nat) : ProcSys n m :=
  if lt : j < n then (s.wakeupAt p chan ⟨j, lt⟩).goto p (.wakeParent status chan (j + 1))
  else s.goto p (.exitZombie status)

/-- The end of `exit`: `p->xstate = status; p->state = ZOMBIE;`, `wait_lock`
released, and `sched()` for good. -/
def exitZombie (status : Int32) : ProcSys n m :=
  ({ s with xstate := Function.update s.xstate p status, state := Function.update s.state p .ZOMBIE,
            waitLock := none }.deschedule p).goto p .exited

/-- One pass of wait's loop at `proc[k]`.  A child is looked at under its
lock.  A `ZOMBIE` child's `xstate` is copied out to `addr` unless `addr` is 0;
if that fails (`ok` false) wait returns -1 and the zombie stays, else it
returns the child's pid after `freeproc`.  Past the table wait returns -1 when
it met no child or `killed(p)`, and otherwise goes to sleep. -/
def waitScan (addr : UInt64) (k : Nat) (havekids ok : Bool) : ProcSys n m :=
  if lt : k < n then
    if s.parent ⟨k, lt⟩ = some p then
      if s.state ⟨k, lt⟩ = .ZOMBIE then
        if addr ≠ 0 ∧ ok = false then { s with waitLock := none }.goto p (.user (-1))
        else ({ s with waitLock := none }.freeproc ⟨k, lt⟩).goto p (.user (s.pid ⟨k, lt⟩))
      else s.goto p (.waitScan addr (k + 1) true)
    else s.goto p (.waitScan addr (k + 1) havekids)
  else if !havekids || s.killed p then { s with waitLock := none }.goto p (.user (-1))
  else s.goto p (.waitSleep addr)

/-- `sleep(p, &wait_lock)`: `acquire(&p->lock); release(&wait_lock); p->chan = p;
p->state = SLEEPING; sched();`. -/
def waitSleep (addr : UInt64) : ProcSys n m :=
  ({ s with waitLock := none, chan := Function.update s.chan p (some p),
            state := Function.update s.state p .SLEEPING }.deschedule p).goto p (.waitAsleep addr)

/-- One pass of kill's loop at `proc[k]`, under its lock: the first slot with
this pid, whatever its state, is marked killed and woken if `SLEEPING`, and
kill returns 0; past the table it returns -1. -/
def killScan (pid : Int32) (k : Nat) : ProcSys n m :=
  if lt : k < n then
    if s.pid ⟨k, lt⟩ = pid then
      let marked : ProcSys n m := { s with killed := Function.update s.killed ⟨k, lt⟩ true }
      (if s.state ⟨k, lt⟩ = .SLEEPING then marked.wake ⟨k, lt⟩ else marked).goto p (.user 0)
    else s.goto p (.killScan pid (k + 1))
  else s.goto p (.user (-1))

/-- `yield()`: `p->state = RUNNABLE; sched();` under `p->lock`. -/
def yield : ProcSys n m := (s.wake p).deschedule p

/-- The scheduler of CPU `c`, at `p` under its lock: a `RUNNABLE` process
becomes `RUNNING` and `c->proc = p`; back on the CPU, `p` clears `p->chan`
(the end of `sleep`) and releases `p->lock`. -/
def schedule (c : Fin m) : Option (ProcSys n m) :=
  if s.cpu c = none ∧ s.state p = .RUNNABLE then
    some { s with state := Function.update s.state p .RUNNING, cpu := Function.update s.cpu c (some p),
                  chan := Function.update s.chan p none }
  else none

/-- What `p`, on a CPU, does at point `x` on event `a`.  `exit` panics in
`initproc`; that stops the machine. -/
def exec : ProcPc n → ProcAct m → Option (ProcSys n m)
  | .user _, .fork => some (s.goto p (.forkScan 0))
  | .user _, .exit status => if p = initproc then none else some (s.goto p (.exitAcquire status))
  | .user _, .wait addr => some (s.goto p (.waitAcquire addr))
  | .user _, .kill pid => some (s.goto p (.killScan pid 0))
  | .forkScan k, .next => some (s.allocproc p k true)
  | .forkScan k, .fail => some (s.allocproc p k false)
  | .forkParent np pid, .next => s.forkParent p np pid
  | .forkRun np pid, .next => some (s.forkRun p np pid)
  | .exitAcquire status, .next => s.acquireWait p (.reparent status 0)
  | .reparent status k, .next => some (s.reparent p status k)
  | .reparentWake status k j, .next => some (s.reparentWake p status k j)
  | .wakeParent status chan j, .next => some (s.wakeParent p status chan j)
  | .exitZombie status, .next => some (s.exitZombie p status)
  | .waitAcquire addr, .next => s.acquireWait p (.waitScan addr 0 false)
  | .waitScan addr k havekids, .next => some (s.waitScan p addr k havekids true)
  | .waitScan addr k havekids, .fail => some (s.waitScan p addr k havekids false)
  | .waitSleep addr, .next => some (s.waitSleep p addr)
  | .waitAsleep addr, .next => s.acquireWait p (.waitScan addr 0 false)
  | .killScan pid k, .next => some (s.killScan p pid k)
  | _, _ => none

end Sections

/-- One step: the scheduler of a CPU picks `p`; or `p`, `RUNNING`, yields
where it holds no spinlock, or runs its next section. -/
def step : Fin n × ProcAct m → ProcSys n m → Option (ProcSys n m)
  | (p, .sched c), s => s.schedule p c
  | (p, .yield), s => if s.state p = .RUNNING ∧ (s.pc p).holdsWait = false then some (s.yield p) else none
  | (p, a), s => if s.state p = .RUNNING then s.exec p (s.pc p) a else none

/-- `userinit`: allocproc's `found:` at `proc[0]`, the first `UNUSED` slot of
the boot table, which becomes `initproc`, `RUNNABLE` at the start of
initcode. -/
def start : ProcSys n m := ((boot.found initproc).wake initproc).goto initproc (.user 0)

/-! ## What a step can be -/

/-- The steps of `p` from `s`: the scheduler's pick of `p`, a yield, or the
section of the code at `p`'s point while it runs.  `ok` says whether the
allocations or the copy that a section makes succeed. -/
inductive Section (s : ProcSys n m) (p : Fin n) : ProcSys n m → Prop
  | schedule {c : Fin m} {s' : ProcSys n m} : s.schedule p c = some s' → Section s p s'
  | yield : s.state p = .RUNNING → (s.pc p).holdsWait = false → Section s p (s.yield p)
  | fork {r : Int32} : s.state p = .RUNNING → s.pc p = .user r → Section s p (s.goto p (.forkScan 0))
  | exit {r status : Int32} : s.state p = .RUNNING → s.pc p = .user r → p ≠ initproc →
      Section s p (s.goto p (.exitAcquire status))
  | wait {r : Int32} {addr : UInt64} : s.state p = .RUNNING → s.pc p = .user r →
      Section s p (s.goto p (.waitAcquire addr))
  | kill {r pid : Int32} : s.state p = .RUNNING → s.pc p = .user r → Section s p (s.goto p (.killScan pid 0))
  | allocproc {k : Nat} (ok : Bool) : s.state p = .RUNNING → s.pc p = .forkScan k → Section s p (s.allocproc p k ok)
  | forkParent {np : Fin n} {pid : Int32} {s' : ProcSys n m} : s.state p = .RUNNING → s.pc p = .forkParent np pid →
      s.forkParent p np pid = some s' → Section s p s'
  | forkRun {np : Fin n} {pid : Int32} : s.state p = .RUNNING → s.pc p = .forkRun np pid →
      Section s p (s.forkRun p np pid)
  | exitAcquire {status : Int32} {s' : ProcSys n m} : s.state p = .RUNNING → s.pc p = .exitAcquire status →
      s.acquireWait p (.reparent status 0) = some s' → Section s p s'
  | reparent {status : Int32} {k : Nat} : s.state p = .RUNNING → s.pc p = .reparent status k →
      Section s p (s.reparent p status k)
  | reparentWake {status : Int32} {k j : Nat} : s.state p = .RUNNING → s.pc p = .reparentWake status k j →
      Section s p (s.reparentWake p status k j)
  | wakeParent {status : Int32} {chan : Option (Fin n)} {j : Nat} : s.state p = .RUNNING →
      s.pc p = .wakeParent status chan j → Section s p (s.wakeParent p status chan j)
  | exitZombie {status : Int32} : s.state p = .RUNNING → s.pc p = .exitZombie status →
      Section s p (s.exitZombie p status)
  | waitAcquire {addr : UInt64} {s' : ProcSys n m} : s.state p = .RUNNING → s.pc p = .waitAcquire addr →
      s.acquireWait p (.waitScan addr 0 false) = some s' → Section s p s'
  | waitScan {addr : UInt64} {k : Nat} {havekids : Bool} (ok : Bool) : s.state p = .RUNNING →
      s.pc p = .waitScan addr k havekids → Section s p (s.waitScan p addr k havekids ok)
  | waitSleep {addr : UInt64} : s.state p = .RUNNING → s.pc p = .waitSleep addr → Section s p (s.waitSleep p addr)
  | waitAsleep {addr : UInt64} {s' : ProcSys n m} : s.state p = .RUNNING → s.pc p = .waitAsleep addr →
      s.acquireWait p (.waitScan addr 0 false) = some s' → Section s p s'
  | killScan {pid : Int32} {k : Nat} : s.state p = .RUNNING → s.pc p = .killScan pid k →
      Section s p (s.killScan p pid k)

variable {s s' : ProcSys n m} {p : Fin n}

/-- The scheduler runs `p` exactly when the CPU is free and `p` is `RUNNABLE`. -/
theorem schedule_eq_some {c : Fin m} :
    s.schedule p c = some s' ↔ (s.cpu c = none ∧ s.state p = .RUNNABLE) ∧
      s' = { s with state := Function.update s.state p .RUNNING, cpu := Function.update s.cpu c (some p),
                    chan := Function.update s.chan p none } := by
  unfold ProcSys.schedule
  rw [Option.ite_none_right_eq_some]
  exact and_congr_right fun _ => Option.some_inj.trans eq_comm

/-- `acquire(&wait_lock)` goes through exactly when nobody holds the lock. -/
theorem acquireWait_eq_some {x : ProcPc n} :
    s.acquireWait p x = some s' ↔ s.waitLock = none ∧ s' = { s with waitLock := some p }.goto p x := by
  unfold ProcSys.acquireWait
  rw [Option.ite_none_right_eq_some]
  exact and_congr_right fun _ => Option.some_inj.trans eq_comm

/-- `np->parent = p` goes through exactly when nobody holds `wait_lock`. -/
theorem forkParent_eq_some {np : Fin n} {pid : Int32} :
    s.forkParent p np pid = some s' ↔
      s.waitLock = none ∧ s' = { s with parent := Function.update s.parent np (some p) }.goto p (.forkRun np pid) := by
  unfold ProcSys.forkParent
  rw [Option.ite_none_right_eq_some]
  exact and_congr_right fun _ => Option.some_inj.trans eq_comm

/-- What `p` runs at its point is one of its sections. -/
theorem section_of_exec {a : ProcAct m} (running : s.state p = .RUNNING) (ran : s.exec p (s.pc p) a = some s') :
    Section s p s' := by
  generalize at_ : s.pc p = x at ran
  cases x with
  | user r =>
      cases a <;> simp only [ProcSys.exec, reduceCtorEq] at ran
      · cases ran
        exact .fork running at_
      · split at ran
        · cases ran
        · rename_i notInit
          cases ran
          exact .exit running at_ notInit
      · cases ran
        exact .wait running at_
      · cases ran
        exact .kill running at_
  | forkScan k =>
      cases a <;> simp only [ProcSys.exec, reduceCtorEq] at ran <;> cases ran
      · exact .allocproc true running at_
      · exact .allocproc false running at_
  | forkParent np pid =>
      cases a <;> simp only [ProcSys.exec, reduceCtorEq] at ran
      exact .forkParent running at_ ran
  | forkRun np pid =>
      cases a <;> simp only [ProcSys.exec, reduceCtorEq] at ran
      cases ran
      exact .forkRun running at_
  | exitAcquire status =>
      cases a <;> simp only [ProcSys.exec, reduceCtorEq] at ran
      exact .exitAcquire running at_ ran
  | reparent status k =>
      cases a <;> simp only [ProcSys.exec, reduceCtorEq] at ran
      cases ran
      exact .reparent running at_
  | reparentWake status k j =>
      cases a <;> simp only [ProcSys.exec, reduceCtorEq] at ran
      cases ran
      exact .reparentWake running at_
  | wakeParent status chan j =>
      cases a <;> simp only [ProcSys.exec, reduceCtorEq] at ran
      cases ran
      exact .wakeParent running at_
  | exitZombie status =>
      cases a <;> simp only [ProcSys.exec, reduceCtorEq] at ran
      cases ran
      exact .exitZombie running at_
  | exited => cases a <;> simp only [ProcSys.exec, reduceCtorEq] at ran
  | waitAcquire addr =>
      cases a <;> simp only [ProcSys.exec, reduceCtorEq] at ran
      exact .waitAcquire running at_ ran
  | waitScan addr k havekids =>
      cases a <;> simp only [ProcSys.exec, reduceCtorEq] at ran <;> cases ran
      · exact .waitScan true running at_
      · exact .waitScan false running at_
  | waitSleep addr =>
      cases a <;> simp only [ProcSys.exec, reduceCtorEq] at ran
      cases ran
      exact .waitSleep running at_
  | waitAsleep addr =>
      cases a <;> simp only [ProcSys.exec, reduceCtorEq] at ran
      exact .waitAsleep running at_ ran
  | killScan pid k =>
      cases a <;> simp only [ProcSys.exec, reduceCtorEq] at ran
      cases ran
      exact .killScan running at_

/-- Every step of `p` is one of its sections. -/
theorem section_of_step {a : ProcAct m} (stepped : step (p, a) s = some s') : Section s p s' := by
  cases a with
  | sched c => exact .schedule stepped
  | yield =>
      simp only [step] at stepped
      split at stepped
      · rename_i ready
        cases stepped
        exact .yield ready.1 ready.2
      · cases stepped
  | _ =>
      simp only [step] at stepped
      split at stepped
      · rename_i running
        exact section_of_exec running stepped
      · cases stepped

end ProcSys

/-! ## CPUs and the process tree

Two groups of facts that a step changes in a few ways only: which process
each CPU runs, and who is whose parent.  Each lemma below is one of those
ways. -/

section Facts

variable {n m : Nat}

/-- `RUNNING` exactly where a CPU runs the process, and one CPU at most for
each process. -/
structure Runs (state : Fin n → ProcState) (cpu : Fin m → Option (Fin n)) : Prop where
  running : ∀ p, state p = .RUNNING ↔ ∃ c, cpu c = some p
  cpus : ∀ c c' p, cpu c = some p → cpu c' = some p → c = c'

variable {state : Fin n → ProcState} {cpu : Fin m → Option (Fin n)}

theorem Runs.off (runs : Runs state cpu) {p : Fin n} (was : state p ≠ .RUNNING) (c : Fin m) : cpu c ≠ some p :=
  fun onC => was ((runs.running p).mpr ⟨c, onC⟩)

/-- A process that is not `RUNNING` goes to another state that is not. -/
theorem Runs.update (runs : Runs state cpu) (q : Fin n) {st : ProcState} (was : state q ≠ .RUNNING)
    (now : st ≠ .RUNNING) : Runs (Function.update state q st) cpu := by
  refine ⟨fun p => ?_, runs.cpus⟩
  by_cases same : p = q
  · subst same
    rw [Function.update_self]
    exact ⟨fun running => absurd running now, fun ⟨c, onC⟩ => absurd onC (runs.off was c)⟩
  · rw [Function.update_of_ne same]
    exact runs.running p

theorem clear_eq_some {o : Option (Fin n)} {p q : Fin n} :
    (if o = some p then none else o) = some q ↔ o = some q ∧ q ≠ p := by
  by_cases mine : o = some p
  · rw [if_pos mine, mine]
    exact ⟨fun h => (by cases h), fun ⟨same, other⟩ => absurd (Option.some_inj.mp same).symm other⟩
  · rw [if_neg mine]
    exact ⟨fun onQ => ⟨onQ, fun same => mine (same ▸ onQ)⟩, And.left⟩

/-- A `RUNNING` process gives up its CPU for another state. -/
theorem Runs.stop (runs : Runs state cpu) (p : Fin n) {st : ProcState} (now : st ≠ .RUNNING) :
    Runs (Function.update state p st) (fun c => if cpu c = some p then none else cpu c) := by
  refine ⟨fun q => ?_, fun c c' q onC onC' => ?_⟩
  · simp only [clear_eq_some]
    by_cases same : q = p
    · subst same
      rw [Function.update_self]
      exact ⟨fun running => absurd running now, fun ⟨_, _, other⟩ => absurd rfl other⟩
    · rw [Function.update_of_ne same, runs.running q]
      exact ⟨fun ⟨c, onC⟩ => ⟨c, onC, same⟩, fun ⟨c, onC, _⟩ => ⟨c, onC⟩⟩
  · rw [clear_eq_some] at onC onC'
    exact runs.cpus c c' q onC.1 onC'.1

/-- The scheduler of a free CPU `c` runs `p`. -/
theorem Runs.start (runs : Runs state cpu) (p : Fin n) (c : Fin m) (free : cpu c = none)
    (was : state p ≠ .RUNNING) : Runs (Function.update state p .RUNNING) (Function.update cpu c (some p)) := by
  have onlyC : ∀ d q, Function.update cpu c (some p) d = some q → (d = c ∧ q = p) ∨ (d ≠ c ∧ cpu d = some q) := by
    intro d q onD
    by_cases here : d = c
    · subst here
      rw [Function.update_self, Option.some_inj] at onD
      exact .inl ⟨rfl, onD.symm⟩
    · rw [Function.update_of_ne here] at onD
      exact .inr ⟨here, onD⟩
  refine ⟨fun q => ?_, fun d d' q onD onD' => ?_⟩
  · by_cases same : q = p
    · subst same
      rw [Function.update_self]
      exact ⟨fun _ => ⟨c, Function.update_self ..⟩, fun _ => rfl⟩
    · rw [Function.update_of_ne same, runs.running q]
      constructor
      · rintro ⟨d, onD⟩
        have other : d ≠ c := fun here => by rw [here, free] at onD; cases onD
        exact ⟨d, by rw [Function.update_of_ne other]; exact onD⟩
      · rintro ⟨d, onD⟩
        rcases onlyC d q onD with ⟨_, mine⟩ | ⟨_, onD⟩
        · exact absurd mine same
        · exact ⟨d, onD⟩
  · rcases onlyC d q onD with ⟨onC, mine⟩ | ⟨_, onD⟩ <;> rcases onlyC d' q onD' with ⟨onC', mine'⟩ | ⟨_, onD'⟩
    · exact onC.trans onC'.symm
    · exact absurd (mine ▸ onD') (runs.off was d')
    · exact absurd (mine' ▸ onD) (runs.off was d)
    · exact runs.cpus d d' q onD onD'

variable [NeZero n]

/-- The process tree: `initproc` is live, every parent is live, every started
process but `initproc` has a parent, and a free slot has none. -/
structure Tree (state : Fin n → ProcState) (parent : Fin n → Option (Fin n)) : Prop where
  init : (state initproc).live = true
  parents : ∀ k q, parent k = some q → (state q).live = true
  orphans : ∀ k, k ≠ initproc → (state k).started = true → parent k ≠ none
  unused : ∀ k, state k = .UNUSED → parent k = none

variable {parent : Fin n → Option (Fin n)}

/-- A process changes state without starting, stopping or leaving `UNUSED`. -/
theorem Tree.update (tree : Tree state parent) (q : Fin n) {st : ProcState} (live : st.live = (state q).live)
    (started : st.started = (state q).started) (unused : st = .UNUSED → state q = .UNUSED) :
    Tree (Function.update state q st) parent := by
  have same : ∀ k, (Function.update state q st k).live = (state k).live := by
    intro k
    by_cases here : k = q
    · subst here; rw [Function.update_self, live]
    · rw [Function.update_of_ne here]
  refine ⟨(same _).trans tree.init, fun k r ofK => (same r).trans (tree.parents k r ofK), fun k notInit => ?_,
    fun k free => ?_⟩
  · by_cases here : k = q
    · subst here
      rw [Function.update_self, started]
      exact tree.orphans k notInit
    · rw [Function.update_of_ne here]
      exact tree.orphans k notInit
  · by_cases here : k = q
    · subst here
      rw [Function.update_self] at free
      exact tree.unused k (unused free)
    · rw [Function.update_of_ne here] at free
      exact tree.unused k free

/-- A process with no children, not `initproc`, exits. -/
theorem Tree.exit (tree : Tree state parent) (p : Fin n) (notInit : p ≠ initproc) (started : (state p).started = true)
    (childless : ∀ k, parent k ≠ some p) : Tree (Function.update state p .ZOMBIE) parent := by
  refine ⟨by rw [Function.update_of_ne notInit.symm]; exact tree.init, fun k q ofK => ?_, fun k notInit' => ?_,
    fun k free => ?_⟩
  · have other : q ≠ p := fun same => childless k (same ▸ ofK)
    rw [Function.update_of_ne other]
    exact tree.parents k q ofK
  · by_cases here : k = p
    · subst here
      exact fun _ => tree.orphans k notInit' started
    · rw [Function.update_of_ne here]
      exact tree.orphans k notInit'
  · by_cases here : k = p
    · subst here
      rw [Function.update_self] at free
      cases free
    · rw [Function.update_of_ne here] at free
      exact tree.unused k free

/-- A slot that is not live is freed: `UNUSED`, with no parent. -/
theorem Tree.free (tree : Tree state parent) (k : Fin n) (dead : (state k).live = false) :
    Tree (Function.update state k .UNUSED) (Function.update parent k none) := by
  have notInit : initproc ≠ k := fun same => by rw [← same, tree.init] at dead; cases dead
  refine ⟨by rw [Function.update_of_ne notInit]; exact tree.init, fun j q ofJ => ?_, fun j notInit' => ?_,
    fun j free => ?_⟩
  · by_cases here : j = k
    · subst here
      rw [Function.update_self] at ofJ
      cases ofJ
    · rw [Function.update_of_ne here] at ofJ
      have other : q ≠ k := fun same => by
        rw [same] at ofJ
        rw [tree.parents j k ofJ] at dead
        cases dead
      rw [Function.update_of_ne other]
      exact tree.parents j q ofJ
  · by_cases here : j = k
    · subst here
      rw [Function.update_self]
      exact fun unstarted => absurd unstarted (by decide)
    · rw [Function.update_of_ne here, Function.update_of_ne here]
      exact tree.orphans j notInit'
  · by_cases here : j = k
    · subst here
      exact Function.update_self ..
    · rw [Function.update_of_ne here] at free ⊢
      exact tree.unused j free

/-- A slot in use gets a live parent. -/
theorem Tree.adopt (tree : Tree state parent) (k q : Fin n) (live : (state q).live = true) (used : state k ≠ .UNUSED) :
    Tree state (Function.update parent k (some q)) := by
  refine ⟨tree.init, fun j r ofJ => ?_, fun j notInit => ?_, fun j free => ?_⟩
  · by_cases here : j = k
    · subst here
      rw [Function.update_self, Option.some_inj] at ofJ
      exact ofJ ▸ live
    · rw [Function.update_of_ne here] at ofJ
      exact tree.parents j r ofJ
  · by_cases here : j = k
    · subst here
      rw [Function.update_self]
      exact fun _ => Option.some_ne_none q
    · rw [Function.update_of_ne here]
      exact tree.orphans j notInit
  · by_cases here : j = k
    · subst here
      exact absurd free used
    · rw [Function.update_of_ne here]
      exact tree.unused j free

/-- A new process that has its parent becomes `RUNNABLE`. -/
theorem Tree.run (tree : Tree state parent) (np : Fin n) (used : state np = .USED) (hasParent : parent np ≠ none) :
    Tree (Function.update state np .RUNNABLE) parent := by
  have grows : ∀ k, (state k).live = true → (Function.update state np .RUNNABLE k).live = true := by
    intro k live
    by_cases here : k = np
    · subst here
      rw [Function.update_self]
      rfl
    · rw [Function.update_of_ne here]
      exact live
  refine ⟨grows _ tree.init, fun k q ofK => grows q (tree.parents k q ofK), fun k notInit => ?_, fun k free => ?_⟩
  · by_cases here : k = np
    · subst here
      exact fun _ => hasParent
    · rw [Function.update_of_ne here]
      exact tree.orphans k notInit
  · by_cases here : k = np
    · subst here
      rw [Function.update_self] at free
      cases free
    · rw [Function.update_of_ne here] at free
      exact tree.unused k free

end Facts

namespace ProcSys

variable {n m : Nat} [NeZero n]

set_option linter.unusedSectionVars false

section Fields

variable (s : ProcSys n m) (p : Fin n) (x : ProcPc n)

@[simp] theorem goto_state : (s.goto p x).state = s.state := rfl
@[simp] theorem goto_parent : (s.goto p x).parent = s.parent := rfl
@[simp] theorem goto_cpu : (s.goto p x).cpu = s.cpu := rfl
@[simp] theorem goto_waitLock : (s.goto p x).waitLock = s.waitLock := rfl
@[simp] theorem goto_pc : (s.goto p x).pc = Function.update s.pc p x := rfl
@[simp] theorem goto_chan : (s.goto p x).chan = s.chan := rfl
@[simp] theorem found_state : (s.found p).state = Function.update s.state p .USED := rfl
@[simp] theorem found_parent : (s.found p).parent = s.parent := rfl
@[simp] theorem found_pc : (s.found p).pc = s.pc := rfl
@[simp] theorem freeproc_state : (s.freeproc p).state = Function.update s.state p .UNUSED := rfl
@[simp] theorem freeproc_parent : (s.freeproc p).parent = Function.update s.parent p none := rfl
@[simp] theorem freeproc_pc : (s.freeproc p).pc = s.pc := rfl
@[simp] theorem wake_state : (s.wake p).state = Function.update s.state p .RUNNABLE := rfl
@[simp] theorem wake_parent : (s.wake p).parent = s.parent := rfl
@[simp] theorem wake_pc : (s.wake p).pc = s.pc := rfl

end Fields

/-- What the point of `p` says of the slot its `fork` has allocated: `USED`
and parentless until `np->parent = p`, a child of `p` after. -/
def ForkFits (s : ProcSys n m) (p : Fin n) : ProcPc n → Prop
  | .forkParent np _ => s.state np = .USED ∧ s.parent np = none
  | .forkRun np _ => s.state np = .USED ∧ s.parent np = some p
  | _ => True

theorem forkFits_of_forks_none {s : ProcSys n m} {p : Fin n} {x : ProcPc n} (none_ : x.forks = none) :
    s.ForkFits p x := by
  cases x <;> simp_all [ForkFits, ProcPc.forks]

theorem ForkFits.used {s : ProcSys n m} {p np : Fin n} {x : ProcPc n} (fits : s.ForkFits p x)
    (mine : x.forks = some np) : s.state np = .USED := by
  cases x <;> simp_all [ForkFits, ProcPc.forks]

/-- A forker's slot keeps fitting while its state and parent stay. -/
theorem ForkFits.congr {s t : ProcSys n m} {p : Fin n} {x : ProcPc n} (fits : s.ForkFits p x)
    (states : ∀ np, x.forks = some np → t.state np = s.state np)
    (parents : ∀ np, x.forks = some np → t.parent np = s.parent np) : t.ForkFits p x := by
  cases x <;> simp_all [ForkFits, ProcPc.forks]

/-- Each process's point fits the table. -/
structure Inv (s : ProcSys n m) : Prop where
  runs : Runs s.state s.cpu
  tree : Tree s.state s.parent
  waitLock : Lock.Held ProcPc.holdsWait s.waitLock s.pc
  holder : ∀ p, (s.pc p).holdsWait = true → s.state p = .RUNNING
  initStays : (s.pc initproc).exiting = false
  childless : ∀ p (k : Fin n), k.val < (s.pc p).childless → s.parent k ≠ some p
  forking : ∀ p, s.ForkFits p (s.pc p)
  forker : ∀ p p' np, (s.pc p).forks = some np → (s.pc p').forks = some np → p = p'

/-- A claim on a new slot that no other process has keeps claims unique. -/
theorem forker_update {pc : Fin n → ProcPc n}
    (unique : ∀ q q' np, (pc q).forks = some np → (pc q').forks = some np → q = q') (p : Fin n) {x : ProcPc n}
    (fresh : ∀ np q, x.forks = some np → q ≠ p → (pc q).forks ≠ some np) :
    ∀ q q' np, (Function.update pc p x q).forks = some np → (Function.update pc p x q').forks = some np → q = q' := by
  intro q q' np mine theirs
  by_cases here : q = p <;> by_cases here' : q' = p
  · exact here.trans here'.symm
  · rw [here, Function.update_self] at mine
    rw [Function.update_of_ne here'] at theirs
    exact absurd theirs (fresh np q' mine here')
  · rw [here', Function.update_self] at theirs
    rw [Function.update_of_ne here] at mine
    exact absurd mine (fresh np q theirs here)
  · rw [Function.update_of_ne here] at mine
    rw [Function.update_of_ne here'] at theirs
    exact unique q q' np mine theirs

variable {s : ProcSys n m}

theorem Inv.not_holder (inv : s.Inv) {q : Fin n} (stopped : s.state q ≠ .RUNNING) : (s.pc q).holdsWait = false := by
  cases holds : (s.pc q).holdsWait with
  | false => rfl
  | true => exact absurd (inv.holder q holds) stopped

/-- The same process table and points, whatever the other fields hold. -/
theorem Inv.congr (inv : s.Inv) {t : ProcSys n m} (states : t.state = s.state) (parents : t.parent = s.parent)
    (cpus : t.cpu = s.cpu) (locks : t.waitLock = s.waitLock) (pcs : t.pc = s.pc) : t.Inv := by
  refine ⟨?_, ?_, ?_, ?_, ?_, ?_, fun p => ?_, ?_⟩
  · rw [states, cpus]
    exact inv.runs
  · rw [states, parents]
    exact inv.tree
  · rw [locks, pcs]
    exact inv.waitLock
  · rw [pcs, states]
    exact inv.holder
  · rw [pcs]
    exact inv.initStays
  · rw [pcs, parents]
    exact inv.childless
  · rw [pcs]
    exact (inv.forking p).congr (fun np _ => by rw [states]) (fun np _ => by rw [parents])
  · rw [pcs]
    exact inv.forker

/-- A claim that `p` already had is still its own. -/
theorem Inv.fresh (inv : s.Inv) {p : Fin n} {x : ProcPc n} (claims : ∀ np, x.forks = some np → (s.pc p).forks = some np) :
    ∀ np q, x.forks = some np → q ≠ p → (s.pc q).forks ≠ some np :=
  fun np q mine other theirs => other (inv.forker q p np theirs (claims np mine))

/-- `p` gives up `wait_lock`. -/
theorem Inv.released (inv : s.Inv) {p : Fin n} (holds : (s.pc p).holdsWait = true) {x : ProcPc n}
    (out : x.holdsWait = false) : Lock.Held ProcPc.holdsWait none (Function.update s.pc p x) := by
  have stepped := inv.waitLock.step p x fun into => absurd (out ▸ into) Bool.false_ne_true
  rwa [if_neg (by rw [out]; exact Bool.false_ne_true), if_pos holds] at stepped

/-- `p` takes `wait_lock`, which was free. -/
theorem Inv.acquired (inv : s.Inv) {p : Fin n} (free : s.waitLock = none) {x : ProcPc n} (holds : x.holdsWait = true) :
    Lock.Held ProcPc.holdsWait (some p) (Function.update s.pc p x) := by
  have moved := Lock.Held.move p x (inv.waitLock.alone (p := p) (.inr free))
  rwa [if_pos holds] at moved

/-- A step that moves `p` to `x` keeps the invariant, given the CPUs, the
tree and the lock after it and what `x` needs; and given that it leaves the
other processes' points fitting: it stops none of them that runs, links no
slot to another holder of `wait_lock`, and leaves the slots other forks have
claimed as they are. -/
theorem Inv.move (inv : s.Inv) {s' : ProcSys n m} (p : Fin n) (x : ProcPc n)
    (pcs : s'.pc = Function.update s.pc p x) (runs : Runs s'.state s'.cpu) (tree : Tree s'.state s'.parent)
    (lock : Lock.Held ProcPc.holdsWait s'.waitLock (Function.update s.pc p x))
    (holder : x.holdsWait = true → s'.state p = .RUNNING) (stays : p = initproc → x.exiting = false)
    (childless : ∀ k : Fin n, k.val < x.childless → s'.parent k ≠ some p) (fits : s'.ForkFits p x)
    (fresh : ∀ np q, x.forks = some np → q ≠ p → (s.pc q).forks ≠ some np)
    (others : ∀ q, q ≠ p → s.state q = .RUNNING → s'.state q = .RUNNING)
    (links : ∀ k q, q ≠ p → s'.parent k = some q → s.parent k = some q ∨ s.waitLock ≠ some q)
    (claimed : ∀ q np, q ≠ p → (s.pc q).forks = some np → s'.state np = s.state np ∧ s'.parent np = s.parent np) :
    s'.Inv := by
  refine ⟨runs, tree, pcs ▸ lock, fun q holds => ?_, ?_, fun q k lt => ?_, fun q => ?_, ?_⟩
  · by_cases here : q = p
    · subst here
      rw [pcs, Function.update_self] at holds
      exact holder holds
    · rw [pcs, Function.update_of_ne here] at holds
      exact others q here (inv.holder q holds)
  · rw [pcs]
    by_cases here : initproc = p
    · rw [here, Function.update_self]
      exact stays here.symm
    · rw [Function.update_of_ne here]
      exact inv.initStays
  · by_cases here : q = p
    · subst here
      rw [pcs, Function.update_self] at lt
      exact childless k lt
    · rw [pcs, Function.update_of_ne here] at lt
      -- only the holder of `wait_lock` knows of slots that are no child of it
      have holds : s.waitLock = some q := (inv.waitLock q).mpr (ProcPc.holdsWait_of_childless (by omega))
      intro linked
      rcases links k q here linked with old | notHolder
      · exact inv.childless q k lt old
      · exact notHolder holds
  · rw [pcs]
    by_cases here : q = p
    · subst here
      rw [Function.update_self]
      exact fits
    · rw [Function.update_of_ne here]
      exact (inv.forking q).congr (fun np mine => (claimed q np here mine).1) fun np mine => (claimed q np here mine).2
  · rw [pcs]
    exact forker_update inv.forker p fresh

/-- `p` moves on to `x`, on the same side of `wait_lock`, and nothing else
changes. -/
theorem Inv.goto (inv : s.Inv) (p : Fin n) {x : ProcPc n} (same : x.holdsWait = (s.pc p).holdsWait)
    (stays : p = initproc → x.exiting = false) (childless : ∀ k : Fin n, k.val < x.childless → s.parent k ≠ some p)
    (fits : s.ForkFits p x) (claims : ∀ np, x.forks = some np → (s.pc p).forks = some np) : (s.goto p x).Inv :=
  inv.move p x rfl inv.runs inv.tree (inv.waitLock.stay p x same)
    (fun holds => inv.holder p (same ▸ holds)) stays childless fits (inv.fresh claims) (fun _ _ running => running)
    (fun _ _ _ linked => .inl linked) fun _ _ _ _ => ⟨rfl, rfl⟩

theorem ForkFits.parent {s : ProcSys n m} {p np : Fin n} {x : ProcPc n} (fits : s.ForkFits p x)
    (mine : x.forks = some np) : s.parent np = none ∨ s.parent np = some p := by
  cases x <;> simp_all [ForkFits, ProcPc.forks]

/-- Two slots in different states are different slots. -/
theorem update_state_of_ne {state : Fin n → ProcState} {a b : Fin n} (st : ProcState) (differ : state a ≠ state b) :
    Function.update state b st a = state a :=
  Function.update_of_ne (fun same => differ (by rw [same])) ..

theorem lt_succ_cases {k : Nat} (lt : k < n) {P : Fin n → Prop} (below : ∀ j : Fin n, j.val < k → P j)
    (here : P ⟨k, lt⟩) : ∀ j : Fin n, j.val < k + 1 → P j := by
  intro j lt'
  rcases Nat.lt_succ_iff_lt_or_eq.mp lt' with lt'' | same
  · exact below j lt''
  · have this : j = ⟨k, lt⟩ := Fin.ext same
    exact this ▸ here

/-! ## Every section keeps the invariant -/

section Steps

variable (p : Fin n)

/-- `p` moves between points outside `wait_lock`, `exit` and `fork`. -/
theorem Inv.plain (inv : s.Inv) {x : ProcPc n} (out : (s.pc p).holdsWait = false) (outX : x.holdsWait = false)
    (notExit : x.exiting = false) (zero : x.childless = 0) (noFork : x.forks = none) : (s.goto p x).Inv :=
  inv.goto p (outX.trans out.symm) (fun _ => notExit) (fun k lt => absurd (zero ▸ lt) (Nat.not_lt_zero _))
    (forkFits_of_forks_none noFork) fun np mine => by rw [noFork] at mine; cases mine

/-- `acquire(&wait_lock)`, on to a point that holds it. -/
theorem Inv.acquireWait (inv : s.Inv) {x : ProcPc n} {s' : ProcSys n m} (acquired : s.acquireWait p x = some s')
    (running : s.state p = .RUNNING) (holds : x.holdsWait = true) (stays : p = initproc → x.exiting = false)
    (zero : x.childless = 0) (noFork : x.forks = none) : s'.Inv := by
  obtain ⟨free, rfl⟩ := acquireWait_eq_some.mp acquired
  exact inv.move p x rfl inv.runs inv.tree (inv.acquired free holds) (fun _ => running) stays
    (fun k lt => absurd (zero ▸ lt) (Nat.not_lt_zero _)) (forkFits_of_forks_none noFork)
    (fun np q mine => by rw [noFork] at mine; cases mine) (fun _ _ running => running)
    (fun _ _ _ linked => .inl linked) fun _ _ _ _ => ⟨rfl, rfl⟩

/-- allocproc's `found:` on a free slot: `USED`, with nobody's claim yet. -/
theorem Inv.found (inv : s.Inv) {np : Fin n} (free : s.state np = .UNUSED) : ((s.found np).goto np (.user 0)).Inv := by
  have stopped : s.state np ≠ .RUNNING := by rw [free]; decide
  refine inv.move np (.user 0) rfl (inv.runs.update np stopped (by decide))
    (inv.tree.update np (by rw [free]; rfl) (by rw [free]; rfl) fun used => by cases used)
    (inv.waitLock.stay np _ (inv.not_holder stopped).symm) (fun holds => by cases holds) (fun _ => rfl)
    (fun k lt => by cases lt) trivial (fun np q mine => by cases mine) (fun q other running => ?_)
    (fun _ _ _ linked => .inl linked) fun q np' _ mine => ?_
  · rw [goto_state, found_state, Function.update_of_ne other]
    exact running
  · have used := (inv.forking q).used mine
    have other : np' ≠ np := fun same => by rw [same, free] at used; cases used
    exact ⟨by rw [goto_state, found_state, Function.update_of_ne other], rfl⟩

/-- One pass of allocproc's loop for `fork`. -/
theorem Inv.allocproc (inv : s.Inv) {k : Nat} (ok : Bool) (at_ : s.pc p = .forkScan k)
    (running : s.state p = .RUNNING) : (s.allocproc p k ok).Inv := by
  have out : (s.pc p).holdsWait = false := by rw [at_]; rfl
  unfold ProcSys.allocproc
  split
  · rename_i lt
    split
    · rename_i free
      have other : p ≠ ⟨k, lt⟩ := fun same => by rw [← same, running] at free; cases free
      split
      · -- the slot is filled in and claimed by `p`
        have filled := inv.found free
        refine filled.move p _ rfl filled.runs filled.tree (filled.waitLock.stay p _ ?_) (fun holds => by cases holds)
          (fun _ => rfl) (fun k lt => by cases lt) ⟨by simp, by simpa using inv.tree.unused _ free⟩ ?_
          (fun _ _ running => running) (fun _ _ _ linked => .inl linked) fun _ _ _ _ => ⟨rfl, rfl⟩
        · rw [goto_pc, Function.update_of_ne other, found_pc, out]
          rfl
        · intro np q mine apart theirs
          cases mine
          by_cases same : q = ⟨k, lt⟩
          · rw [same, goto_pc, Function.update_self] at theirs
            cases theirs
          · rw [goto_pc, Function.update_of_ne same, found_pc] at theirs
            have used := (inv.forking q).used theirs
            rw [free] at used
            cases used
      · -- a failed allocation: `freeproc` undoes `found:`, except for the pid
        have undone : ((s.found ⟨k, lt⟩).freeproc ⟨k, lt⟩).Inv := by
          refine inv.congr ?_ ?_ rfl rfl rfl
          · rw [freeproc_state, found_state, Function.update_idem, ← free, Function.update_eq_self]
          · rw [freeproc_parent, found_parent, ← inv.tree.unused _ free, Function.update_eq_self]
        exact undone.plain p (by simpa using out) rfl rfl rfl rfl
    · exact inv.plain p out rfl rfl rfl rfl
  · exact inv.plain p out rfl rfl rfl rfl

/-- `np->parent = p` under `wait_lock`. -/
theorem Inv.forkParent (inv : s.Inv) {np : Fin n} {pid : Int32} {s' : ProcSys n m}
    (linked : s.forkParent p np pid = some s') (at_ : s.pc p = .forkParent np pid)
    (running : s.state p = .RUNNING) : s'.Inv := by
  obtain ⟨-, rfl⟩ := forkParent_eq_some.mp linked
  have fits := inv.forking p
  rw [at_] at fits
  obtain ⟨used, _⟩ := fits
  have mine : (s.pc p).forks = some np := by rw [at_]; rfl
  refine inv.move p _ rfl inv.runs (inv.tree.adopt np p (by rw [running]; rfl) (by rw [used]; decide))
    (inv.waitLock.stay p _ (by rw [at_]; rfl)) (fun holds => by cases holds) (fun _ => rfl) (fun k lt => by cases lt)
    ⟨used, Function.update_self ..⟩ (inv.fresh fun np' theirs => by cases theirs; exact mine)
    (fun _ _ running => running) (fun k q other linkedK => ?_) fun q np' other theirs => ?_
  · change Function.update s.parent np (some p) k = some q at linkedK
    by_cases here : k = np
    · rw [here, Function.update_self, Option.some_inj] at linkedK
      exact absurd linkedK.symm other
    · rw [Function.update_of_ne here] at linkedK
      exact .inl linkedK
  · have apart : np' ≠ np := fun same => other (inv.forker q p np' theirs (same ▸ mine))
    exact ⟨rfl, Function.update_of_ne apart ..⟩

/-- `np->state = RUNNABLE`: the child is ready to run. -/
theorem Inv.forkRun (inv : s.Inv) {np : Fin n} {pid : Int32} (at_ : s.pc p = .forkRun np pid) :
    (s.forkRun p np pid).Inv := by
  unfold ProcSys.forkRun
  have fits := inv.forking p
  rw [at_] at fits
  obtain ⟨used, child⟩ := fits
  have mine : (s.pc p).forks = some np := by rw [at_]; rfl
  have stopped : s.state np ≠ .RUNNING := by rw [used]; decide
  refine inv.move p _ rfl (inv.runs.update np stopped (by decide))
    (inv.tree.run np used (by rw [child]; exact Option.some_ne_none p)) (inv.waitLock.stay p _ (by rw [at_]; rfl))
    (fun holds => by cases holds) (fun _ => rfl) (fun k lt => by cases lt) trivial (fun _ _ mine' => by cases mine')
    (fun q _ runningQ => ?_) (fun _ _ _ linked => .inl linked) fun q np' other theirs => ?_
  · rw [goto_state, wake_state, update_state_of_ne _ (by rw [runningQ, used]; decide)]
    exact runningQ
  · have apart : np' ≠ np := fun same => other (inv.forker q p np' theirs (same ▸ mine))
    exact ⟨Function.update_of_ne apart .., rfl⟩

/-- One pass of reparent's loop. -/
theorem Inv.reparent (inv : s.Inv) {status : Int32} {k : Nat} (at_ : s.pc p = .reparent status k)
    (running : s.state p = .RUNNING) : (s.reparent p status k).Inv := by
  have holds : (s.pc p).holdsWait = true := by rw [at_]; rfl
  have notInit : p ≠ initproc := fun same => by
    have stays := inv.initStays
    rw [← same, at_] at stays
    cases stays
  have passed : ∀ j : Fin n, j.val < k → s.parent j ≠ some p := fun j lt => inv.childless p j (by rw [at_]; exact lt)
  unfold ProcSys.reparent
  split
  · rename_i lt
    split
    · rename_i child
      -- the child goes to `initproc`; `p` holds `wait_lock`, so `initproc` does not
      have used : s.state ⟨k, lt⟩ ≠ .UNUSED := fun free => by rw [inv.tree.unused _ free] at child; cases child
      refine inv.move p _ rfl inv.runs (inv.tree.adopt _ initproc inv.tree.init used)
        (inv.waitLock.stay p _ (by rw [at_]; rfl)) (fun _ => running) (fun same => absurd same notInit)
        (lt_succ_cases lt (fun j below => ?_) ?_) trivial (fun _ _ mine => by cases mine)
        (fun _ _ running => running) (fun j q other linkedJ => ?_) fun q np other theirs => ?_
      · change Function.update s.parent ⟨k, lt⟩ (some initproc) j ≠ some p
        rw [Function.update_of_ne (Fin.ne_of_val_ne (Nat.ne_of_lt below))]
        exact passed j below
      · change Function.update s.parent ⟨k, lt⟩ (some initproc) ⟨k, lt⟩ ≠ some p
        rw [Function.update_self]
        exact fun same => notInit (Option.some_inj.mp same).symm
      · change Function.update s.parent ⟨k, lt⟩ (some initproc) j = some q at linkedJ
        by_cases here : j = ⟨k, lt⟩
        · rw [(inv.waitLock p).mpr holds]
          exact .inr fun same => other (Option.some_inj.mp same).symm
        · rw [Function.update_of_ne here] at linkedJ
          exact .inl linkedJ
      · -- a claimed slot is parentless or its claimer's child, not `p`'s
        have apart : np ≠ ⟨k, lt⟩ := by
          intro same
          rcases (inv.forking q).parent theirs with orphan | mine
          · rw [same, child] at orphan
            cases orphan
          · rw [same, child, Option.some_inj] at mine
            exact other mine.symm
        exact ⟨rfl, Function.update_of_ne apart ..⟩
    · rename_i notChild
      exact inv.goto p (by rw [at_]; rfl) (fun same => absurd same notInit) (lt_succ_cases lt passed notChild) trivial
        fun _ mine => by cases mine
  · rename_i past
    exact inv.goto p (by rw [at_]; rfl) (fun same => absurd same notInit) (fun j _ => passed j (by omega)) trivial
      fun _ mine => by cases mine

/-- `p`, running, makes the sleeper `q` `RUNNABLE` and moves to `x`. -/
theorem Inv.wakeGoto (inv : s.Inv) {q : Fin n} (sleeping : s.state q = .SLEEPING) (running : s.state p = .RUNNING)
    {x : ProcPc n} (same : x.holdsWait = (s.pc p).holdsWait) (stays : p = initproc → x.exiting = false)
    (childless : ∀ k : Fin n, k.val < x.childless → s.parent k ≠ some p) (fits : s.ForkFits p x)
    (claims : ∀ np, x.forks = some np → (s.pc p).forks = some np) : ((s.wake q).goto p x).Inv := by
  have stopped : s.state q ≠ .RUNNING := by rw [sleeping]; decide
  refine inv.move p x rfl (inv.runs.update q stopped (by decide))
    (inv.tree.update q (by rw [sleeping]; rfl) (by rw [sleeping]; rfl) fun free => by cases free)
    (inv.waitLock.stay p x same) (fun _ => ?_) stays childless
    (fits.congr (fun np mine => update_state_of_ne _ ?_) fun _ _ => rfl) (inv.fresh claims)
    (fun r _ runningR => ?_) (fun _ _ _ linked => .inl linked)
    fun r np _ theirs => ⟨update_state_of_ne _ (by rw [(inv.forking r).used theirs, sleeping]; decide), rfl⟩
  · rw [goto_state, wake_state, update_state_of_ne _ (by rw [running, sleeping]; decide)]
    exact running
  · rw [fits.used mine, sleeping]
    decide
  · rw [goto_state, wake_state, update_state_of_ne _ (by rw [runningR, sleeping]; decide)]
    exact runningR

/-- One pass of `wakeup`'s loop, and `p` moves to `x`. -/
theorem Inv.wakeupAt (inv : s.Inv) (chan : Option (Fin n)) (q : Fin n) (running : s.state p = .RUNNING)
    {x : ProcPc n} (same : x.holdsWait = (s.pc p).holdsWait) (stays : p = initproc → x.exiting = false)
    (childless : ∀ k : Fin n, k.val < x.childless → s.parent k ≠ some p) (fits : s.ForkFits p x)
    (claims : ∀ np, x.forks = some np → (s.pc p).forks = some np) : ((s.wakeupAt p chan q).goto p x).Inv := by
  unfold ProcSys.wakeupAt
  split
  · rename_i asleep
    exact inv.wakeGoto p asleep.2.1 running same stays childless fits claims
  · exact inv.goto p same stays childless fits claims

theorem Inv.notInit (inv : s.Inv) {p : Fin n} (exiting : (s.pc p).exiting = true) : p ≠ initproc := fun same => by
  have stays := inv.initStays
  rw [← same, exiting] at stays
  cases stays

/-- One pass of the `wakeup(initproc)` in `reparent`. -/
theorem Inv.reparentWake (inv : s.Inv) {status : Int32} {k j : Nat} (at_ : s.pc p = .reparentWake status k j)
    (running : s.state p = .RUNNING) : (s.reparentWake p status k j).Inv := by
  have notInit := inv.notInit (p := p) (by rw [at_]; rfl)
  have passed : ∀ i : Fin n, i.val < k + 1 → s.parent i ≠ some p := fun i lt => inv.childless p i (by rw [at_]; exact lt)
  unfold ProcSys.reparentWake
  split
  · exact inv.wakeupAt p _ _ running (by rw [at_]; rfl) (fun same => absurd same notInit) passed trivial
      fun _ mine => by cases mine
  · exact inv.goto p (by rw [at_]; rfl) (fun same => absurd same notInit) passed trivial fun _ mine => by cases mine

/-- One pass of `wakeup(p->parent)`. -/
theorem Inv.wakeParent (inv : s.Inv) {status : Int32} {chan : Option (Fin n)} {j : Nat}
    (at_ : s.pc p = .wakeParent status chan j) (running : s.state p = .RUNNING) :
    (s.wakeParent p status chan j).Inv := by
  have notInit := inv.notInit (p := p) (by rw [at_]; rfl)
  have orphaned : ∀ i : Fin n, i.val < n → s.parent i ≠ some p := fun i lt => inv.childless p i (by rw [at_]; exact lt)
  unfold ProcSys.wakeParent
  split
  · exact inv.wakeupAt p _ _ running (by rw [at_]; rfl) (fun same => absurd same notInit) orphaned trivial
      fun _ mine => by cases mine
  · exact inv.goto p (by rw [at_]; rfl) (fun same => absurd same notInit) orphaned trivial fun _ mine => by cases mine

/-- The end of `exit`: a `ZOMBIE` with no children, off its CPU, and
`wait_lock` free. -/
theorem Inv.exitZombie (inv : s.Inv) {status : Int32} (at_ : s.pc p = .exitZombie status)
    (running : s.state p = .RUNNING) : (s.exitZombie p status).Inv := by
  have holds : (s.pc p).holdsWait = true := by rw [at_]; rfl
  have orphaned : ∀ k, s.parent k ≠ some p := fun k => inv.childless p k (by rw [at_]; exact k.isLt)
  refine inv.move p .exited rfl (inv.runs.stop p (by decide))
    (inv.tree.exit p (inv.notInit (by rw [at_]; rfl)) (by rw [running]; rfl) orphaned) (inv.released holds rfl)
    (fun holds => by cases holds) (fun _ => rfl) (fun k lt => by cases lt) trivial (fun _ _ mine => by cases mine)
    (fun q other runningQ => ?_) (fun _ _ _ linked => .inl linked)
    fun q np _ theirs => ⟨update_state_of_ne _ (by rw [(inv.forking q).used theirs, running]; decide), rfl⟩
  change Function.update s.state p .ZOMBIE q = .RUNNING
  rw [Function.update_of_ne other]
  exact runningQ

/-- `p` releases `wait_lock` and returns `r` to user space. -/
theorem Inv.release (inv : s.Inv) (holds : (s.pc p).holdsWait = true) (r : Int32) :
    ({ s with waitLock := none }.goto p (.user r)).Inv :=
  inv.move p _ rfl inv.runs inv.tree (inv.released holds rfl) (fun holds => by cases holds) (fun _ => rfl)
    (fun k lt => by cases lt) trivial (fun _ _ mine => by cases mine) (fun _ _ running => running)
    (fun _ _ _ linked => .inl linked) fun _ _ _ _ => ⟨rfl, rfl⟩

/-- One pass of wait's loop. -/
theorem Inv.waitScan (inv : s.Inv) {addr : UInt64} {k : Nat} {havekids : Bool} (ok : Bool)
    (at_ : s.pc p = .waitScan addr k havekids) : (s.waitScan p addr k havekids ok).Inv := by
  have holds : (s.pc p).holdsWait = true := by rw [at_]; rfl
  unfold ProcSys.waitScan
  split
  · rename_i lt
    split
    · split
      · rename_i zombie
        split
        · exact inv.release p holds (-1)
        · -- the zombie is freed: it has no children, and no fork claims it
          have dead : s.state ⟨k, lt⟩ ≠ .RUNNING := by rw [zombie]; decide
          refine inv.move p _ rfl (inv.runs.update _ dead (by decide)) (inv.tree.free _ (by rw [zombie]; rfl))
            (inv.released holds rfl) (fun holds => by cases holds) (fun _ => rfl) (fun k lt => by cases lt) trivial
            (fun _ _ mine => by cases mine) (fun q _ runningQ => ?_) (fun j q _ linkedJ => ?_)
            fun q np _ theirs => ?_
          · change Function.update s.state ⟨k, lt⟩ .UNUSED q = .RUNNING
            rw [update_state_of_ne _ (by rw [runningQ, zombie]; decide)]
            exact runningQ
          · change Function.update s.parent ⟨k, lt⟩ none j = some q at linkedJ
            by_cases here : j = ⟨k, lt⟩
            · rw [here, Function.update_self] at linkedJ
              cases linkedJ
            · rw [Function.update_of_ne here] at linkedJ
              exact .inl linkedJ
          · have differ : s.state np ≠ s.state ⟨k, lt⟩ := by rw [(inv.forking q).used theirs, zombie]; decide
            exact ⟨update_state_of_ne _ differ, Function.update_of_ne (fun same => differ (by rw [same])) ..⟩
      · exact inv.goto p (by rw [at_]; rfl) (fun _ => rfl) (fun _ lt => by cases lt) trivial fun _ mine => by cases mine
    · rename_i notChild
      cases havekids with
      | false =>
          have passed : ∀ j : Fin n, j.val < k → s.parent j ≠ some p := fun j lt => inv.childless p j (by rw [at_]; exact lt)
          exact inv.goto p (by rw [at_]; rfl) (fun _ => rfl) (lt_succ_cases lt passed notChild) trivial
            fun _ mine => by cases mine
      | true =>
          exact inv.goto p (by rw [at_]; rfl) (fun _ => rfl) (fun _ lt => by cases lt) trivial fun _ mine => by cases mine
  · split
    · exact inv.release p holds (-1)
    · exact inv.goto p (by rw [at_]; rfl) (fun _ => rfl) (fun _ lt => by cases lt) trivial fun _ mine => by cases mine

/-- `sleep(p, &wait_lock)`. -/
theorem Inv.waitSleep (inv : s.Inv) {addr : UInt64} (at_ : s.pc p = .waitSleep addr) (running : s.state p = .RUNNING) :
    (s.waitSleep p addr).Inv := by
  have holds : (s.pc p).holdsWait = true := by rw [at_]; rfl
  refine inv.move p _ rfl (inv.runs.stop p (by decide))
    (inv.tree.update p (by rw [running]; rfl) (by rw [running]; rfl) fun free => by cases free)
    (inv.released holds rfl) (fun holds => by cases holds) (fun _ => rfl) (fun k lt => by cases lt) trivial
    (fun _ _ mine => by cases mine) (fun q other runningQ => ?_) (fun _ _ _ linked => .inl linked)
    fun q np _ theirs => ⟨update_state_of_ne _ (by rw [(inv.forking q).used theirs, running]; decide), rfl⟩
  change Function.update s.state p .SLEEPING q = .RUNNING
  rw [Function.update_of_ne other]
  exact runningQ

/-- One pass of kill's loop. -/
theorem Inv.killScan (inv : s.Inv) {pid : Int32} {k : Nat} (at_ : s.pc p = .killScan pid k)
    (running : s.state p = .RUNNING) : (s.killScan p pid k).Inv := by
  have out : (s.pc p).holdsWait = false := by rw [at_]; rfl
  unfold ProcSys.killScan
  split
  · rename_i lt
    split
    · have marked : ({ s with killed := Function.update s.killed ⟨k, lt⟩ true } : ProcSys n m).Inv :=
        inv.congr rfl rfl rfl rfl rfl
      split
      · rename_i sleeping
        exact marked.wakeGoto p sleeping running (x := .user 0) out.symm (fun _ => rfl) (fun _ lt => by cases lt)
          trivial fun _ mine => by cases mine
      · exact marked.plain p out rfl rfl rfl rfl
    · exact inv.plain p out rfl rfl rfl rfl
  · exact inv.plain p out rfl rfl rfl rfl

/-- `yield()`, where `p` holds no spinlock. -/
theorem Inv.yield (inv : s.Inv) (running : s.state p = .RUNNING) (out : (s.pc p).holdsWait = false) :
    (s.yield p).Inv := by
  refine inv.move p (s.pc p) (Function.update_eq_self p s.pc).symm (inv.runs.stop p (by decide))
    (inv.tree.update p (by rw [running]; rfl) (by rw [running]; rfl) fun free => by cases free)
    (by rw [Function.update_eq_self]; exact inv.waitLock) (fun holds => absurd (out ▸ holds) Bool.false_ne_true)
    (fun same => by rw [same]; exact inv.initStays) (inv.childless p) ?_ (inv.fresh fun _ mine => mine)
    (fun q other runningQ => ?_) (fun _ _ _ linked => .inl linked)
    fun q np _ theirs => ⟨update_state_of_ne _ (by rw [(inv.forking q).used theirs, running]; decide), rfl⟩
  · exact (inv.forking p).congr
      (fun np mine => update_state_of_ne _ (by rw [(inv.forking p).used mine, running]; decide)) fun _ _ => rfl
  · change Function.update s.state p .RUNNABLE q = .RUNNING
    rw [Function.update_of_ne other]
    exact runningQ

/-- The scheduler of a free CPU runs `p`. -/
theorem Inv.schedule (inv : s.Inv) (c : Fin m) {s' : ProcSys n m} (picked : s.schedule p c = some s') : s'.Inv := by
  obtain ⟨⟨free, runnable⟩, rfl⟩ := schedule_eq_some.mp picked
  refine inv.move p (s.pc p) (Function.update_eq_self p s.pc).symm
    (inv.runs.start p c free (by rw [runnable]; decide))
    (inv.tree.update p (by rw [runnable]; rfl) (by rw [runnable]; rfl) fun free => by cases free)
    (by rw [Function.update_eq_self]; exact inv.waitLock) (fun _ => Function.update_self ..)
    (fun same => by rw [same]; exact inv.initStays) (inv.childless p) ?_ (inv.fresh fun _ mine => mine)
    (fun q other runningQ => ?_) (fun _ _ _ linked => .inl linked)
    fun q np _ theirs => ⟨update_state_of_ne _ (by rw [(inv.forking q).used theirs, runnable]; decide), rfl⟩
  · exact (inv.forking p).congr
      (fun np mine => update_state_of_ne _ (by rw [(inv.forking p).used mine, runnable]; decide)) fun _ _ => rfl
  · change Function.update s.state p .RUNNING q = .RUNNING
    rw [Function.update_of_ne other]
    exact runningQ

/-- Every section keeps the invariant. -/
theorem Inv.section (inv : s.Inv) {s' : ProcSys n m} (stepped : Section s p s') : s'.Inv := by
  cases stepped with
  | schedule picked => exact inv.schedule p _ picked
  | yield running out => exact inv.yield p running out
  | fork running at_ => exact inv.plain p (by rw [at_]; rfl) rfl rfl rfl rfl
  | exit running at_ notInit =>
      exact inv.goto p (by rw [at_]; rfl) (fun same => absurd same notInit) (fun _ lt => by cases lt) trivial
        fun _ mine => by cases mine
  | wait running at_ => exact inv.plain p (by rw [at_]; rfl) rfl rfl rfl rfl
  | kill running at_ => exact inv.plain p (by rw [at_]; rfl) rfl rfl rfl rfl
  | allocproc ok running at_ => exact inv.allocproc p ok at_ running
  | forkParent running at_ linked => exact inv.forkParent p linked at_ running
  | forkRun running at_ => exact inv.forkRun p at_
  | exitAcquire running at_ acquired =>
      exact inv.acquireWait p acquired running rfl (fun same => absurd same (inv.notInit (by rw [at_]; rfl))) rfl rfl
  | reparent running at_ => exact inv.reparent p at_ running
  | reparentWake running at_ => exact inv.reparentWake p at_ running
  | wakeParent running at_ => exact inv.wakeParent p at_ running
  | exitZombie running at_ => exact inv.exitZombie p at_ running
  | waitAcquire running at_ acquired => exact inv.acquireWait p acquired running rfl (fun _ => rfl) rfl rfl
  | waitScan ok running at_ => exact inv.waitScan p ok at_
  | waitSleep running at_ => exact inv.waitSleep p at_ running
  | waitAsleep running at_ acquired => exact inv.acquireWait p acquired running rfl (fun _ => rfl) rfl rfl
  | killScan running at_ => exact inv.killScan p at_ running

end Steps

/-- Every step keeps the invariant. -/
theorem Inv.step (inv : s.Inv) {a : Fin n × ProcAct m} {s' : ProcSys n m} (stepped : step a s = some s') : s'.Inv :=
  inv.section a.1 (section_of_step stepped)

theorem start_state (q : Fin n) :
    (start : ProcSys n m).state q = if q = (initproc : Fin n) then .RUNNABLE else .UNUSED := by
  change Function.update (Function.update (fun _ => ProcState.UNUSED) initproc .USED) initproc .RUNNABLE q = _
  by_cases here : q = initproc
  · rw [if_pos here, here, Function.update_self]
  · rw [if_neg here, Function.update_of_ne here, Function.update_of_ne here]

theorem start_pc (q : Fin n) : (start : ProcSys n m).pc q = if q = (initproc : Fin n) then .user 0 else .exited := by
  change Function.update (fun _ => ProcPc.exited) initproc (.user 0) q = _
  by_cases here : q = initproc
  · rw [if_pos here, here, Function.update_self]
  · rw [if_neg here, Function.update_of_ne here]

/-- `userinit`'s table: `initproc` alone, `RUNNABLE`, and no CPU running. -/
theorem start_inv : (start : ProcSys n m).Inv := by
  refine ⟨⟨fun p => ?_, fun _ _ _ onC => by cases onC⟩, ⟨?_, fun _ _ ofK => (by cases ofK), fun k other => ?_, fun _ _ => rfl⟩,
    fun q => ?_, fun q holds => ?_, ?_, fun q k lt => ?_, fun q => ?_, fun q _ np mine => ?_⟩
  · rw [start_state]
    constructor
    · intro running
      split at running <;> cases running
    · rintro ⟨c, onC⟩
      cases onC
  · rw [start_state, if_pos rfl]
    rfl
  · rw [start_state, if_neg other]
    exact fun started => absurd started (by decide)
  · rw [start_pc]
    constructor
    · intro held
      cases held
    · intro holds
      split at holds <;> cases holds
  · rw [start_pc] at holds
    split at holds <;> cases holds
  · rw [start_pc, if_pos rfl]
    rfl
  · rw [start_pc] at lt
    split at lt <;> cases lt
  · rw [start_pc]
    split <;> trivial
  · rw [start_pc] at mine
    split at mine <;> cases mine

/-- The invariant holds in every state a run from `userinit` reaches. -/
theorem run_inv {t : List (Fin n × ProcAct m)} {s : ProcSys n m} (ran : run step start t = some s) : s.Inv :=
  run_invariant step Inv (fun _ _ _ inv stepped => inv.step stepped) start_inv ran

/-! ## The tree, the CPUs and `wait` -/

/-- Every started process but `initproc` has a parent, and that parent is
live. -/
theorem Inv.parent_live (inv : s.Inv) {p : Fin n} (notInit : p ≠ initproc) (started : (s.state p).started = true) :
    ∃ q, s.parent p = some q ∧ (s.state q).live = true := by
  cases ofP : s.parent p with
  | none => exact absurd ofP (inv.tree.orphans p notInit started)
  | some q => exact ⟨q, rfl, inv.tree.parents p q ofP⟩

/-- A process is `RUNNING` exactly when one CPU runs it. -/
theorem Inv.running_iff (inv : s.Inv) (p : Fin n) : s.state p = .RUNNING ↔ ∃! c, s.cpu c = some p := by
  rw [inv.runs.running p]
  exact ⟨fun ⟨c, onC⟩ => ⟨c, onC, fun c' onC' => inv.runs.cpus c' c p onC' onC⟩, fun ⟨c, onC, _⟩ => ⟨c, onC⟩⟩

section Zombies

variable {p : Fin n} {s' : ProcSys n m} {k : Fin n}

theorem wakeupAt_state (awake : s.state k ≠ .SLEEPING) (chan : Option (Fin n)) (q : Fin n) :
    (s.wakeupAt p chan q).state k = s.state k := by
  unfold ProcSys.wakeupAt
  split
  · rename_i asleep
    exact update_state_of_ne _ (by rw [asleep.2.1]; exact awake)
  · rfl

theorem killScan_state (awake : s.state k ≠ .SLEEPING) (pid : Int32) (j : Nat) :
    (s.killScan p pid j).state k = s.state k := by
  unfold ProcSys.killScan
  split
  · split
    · split
      · rename_i sleeping
        exact update_state_of_ne _ (by rw [sleeping]; exact awake)
      · rfl
    · rfl
  · rfl

theorem acquireWait_state {x : ProcPc n} (acquired : s.acquireWait p x = some s') : s'.state = s.state := by
  obtain ⟨-, rfl⟩ := acquireWait_eq_some.mp acquired
  rfl

/-- A step leaves a `ZOMBIE` alone, or it is its parent's `wait` that
reaps it and returns its pid. -/
theorem Inv.zombie_section (inv : s.Inv) (stepped : Section s p s') (zombie : s.state k = .ZOMBIE) :
    s'.state k = .ZOMBIE ∨ ∃ addr havekids, s.pc p = .waitScan addr k.val havekids ∧ s.parent k = some p ∧
      s'.state k = .UNUSED ∧ s'.pc p = .user (s.pid k) := by
  -- a slot in another state than `k`'s is another slot
  have keep : ∀ {q : Fin n} (st : ProcState), s.state q ≠ .ZOMBIE → Function.update s.state q st k = .ZOMBIE :=
    fun st other => by rw [update_state_of_ne st (by rw [zombie]; exact Ne.symm other)]; exact zombie
  have awake : s.state k ≠ .SLEEPING := by rw [zombie]; decide
  cases stepped with
  | schedule picked =>
      obtain ⟨⟨-, runnable⟩, rfl⟩ := schedule_eq_some.mp picked
      exact .inl (keep _ (by rw [runnable]; decide))
  | yield running _ => exact .inl (keep _ (by rw [running]; decide))
  | fork | exit | wait | kill => exact .inl zombie
  | exitZombie running _ | waitSleep running _ => exact .inl (keep _ (by rw [running]; decide))
  | allocproc ok _ _ =>
      left
      unfold ProcSys.allocproc
      split
      · split
        · rename_i free
          have apart : k ≠ _ := fun same => by rw [same, free] at zombie; cases zombie
          split
          · exact (Function.update_of_ne apart ..).trans zombie
          · exact (Function.update_of_ne apart ..).trans ((Function.update_of_ne apart ..).trans zombie)
        · exact zombie
      · exact zombie
  | forkParent _ _ linked =>
      obtain ⟨-, rfl⟩ := forkParent_eq_some.mp linked
      exact .inl zombie
  | forkRun _ at_ =>
      have fits := inv.forking p
      rw [at_] at fits
      exact .inl (keep _ (by rw [fits.1]; decide))
  | exitAcquire _ _ acquired | waitAcquire _ _ acquired | waitAsleep _ _ acquired =>
      exact .inl ((congrFun (acquireWait_state acquired) k).trans zombie)
  | reparent =>
      left
      unfold ProcSys.reparent
      split
      · split <;> exact zombie
      · exact zombie
  | reparentWake =>
      left
      unfold ProcSys.reparentWake
      split
      · exact (wakeupAt_state awake _ _).trans zombie
      · exact zombie
  | wakeParent =>
      left
      unfold ProcSys.wakeParent
      split
      · exact (wakeupAt_state awake _ _).trans zombie
      · exact zombie
  | killScan => exact .inl ((killScan_state awake _ _).trans zombie)
  | waitScan ok _ at_ =>
      unfold ProcSys.waitScan
      split
      · rename_i lt
        split
        · rename_i child
          split
          · split
            · exact .inl zombie
            · by_cases here : k = ⟨_, lt⟩
              · subst here
                exact .inr ⟨_, _, at_, child, Function.update_self .., Function.update_self ..⟩
              · exact .inl ((Function.update_of_ne here ..).trans zombie)
          · exact .inl zombie
        · exact .inl zombie
      · split <;> exact .inl zombie

/-- `wait`'s scan returns -1 when it met no child, when `p` is killed, when
the copy of a zombie's status failed and the zombie stays, or when the zombie
it frees has pid -1. -/
theorem Inv.wait_fails (inv : s.Inv) (stepped : Section s p s') {addr : UInt64} {k : Nat} {havekids : Bool}
    (at_ : s.pc p = .waitScan addr k havekids) (failed : s'.pc p = .user (-1)) :
    (∀ q, s.parent q ≠ some p) ∨ s.killed p = true ∨
      (addr ≠ 0 ∧ ∃ q, s.parent q = some p ∧ s.state q = .ZOMBIE ∧ s'.state q = .ZOMBIE) ∨
      ∃ q, s.parent q = some p ∧ s.state q = .ZOMBIE ∧ s.pid q = -1 ∧ s'.state q = .UNUSED := by
  cases stepped with
  | schedule picked =>
      obtain ⟨-, rfl⟩ := schedule_eq_some.mp picked
      rw [at_] at failed
      cases failed
  | yield =>
      change s.pc p = _ at failed
      rw [at_] at failed
      cases failed
  | waitScan ok _ at' =>
      rw [at_] at at'
      cases at'
      unfold ProcSys.waitScan at failed ⊢
      split at failed
      · rename_i lt
        split at failed
        · rename_i child
          split at failed
          · rename_i zombie
            split at failed
            · rename_i copyFailed
              refine .inr (.inr (.inl ⟨copyFailed.1, _, child, zombie, ?_⟩))
              rw [dif_pos lt, if_pos child, if_pos zombie, if_pos copyFailed]
              exact zombie
            · rename_i copied
              rw [goto_pc, Function.update_self, ProcPc.user.injEq] at failed
              refine .inr (.inr (.inr ⟨_, child, zombie, failed, ?_⟩))
              rw [dif_pos lt, if_pos child, if_pos zombie, if_neg copied]
              exact Function.update_self ..
          · rw [goto_pc, Function.update_self] at failed
            cases failed
        · rw [goto_pc, Function.update_self] at failed
          cases failed
      · rename_i past
        split at failed
        · rename_i gaveUp
          cases kids : havekids
          · -- the scan passed every slot without meeting a child
            exact .inl fun q => inv.childless p q (by rw [at_, kids]; simp only [ProcPc.childless]; omega)
          · rw [kids, Bool.not_true, Bool.false_or] at gaveUp
            exact .inr (.inl gaveUp)
        · rw [goto_pc, Function.update_self] at failed
          cases failed
  | _ => simp only [at_, reduceCtorEq] at *

end Zombies

/-! ## `exit` gives the children to `initproc` -/

section Exit

variable {p q : Fin n} {s' : ProcSys n m}

theorem wakeupAt_parent (chan : Option (Fin n)) (r : Fin n) : (s.wakeupAt q chan r).parent = s.parent := by
  unfold ProcSys.wakeupAt
  split <;> rfl

theorem wakeupAt_pc (chan : Option (Fin n)) (r : Fin n) : (s.wakeupAt q chan r).pc = s.pc := by
  unfold ProcSys.wakeupAt
  split <;> rfl

theorem acquireWait_parent {x : ProcPc n} (acquired : s.acquireWait q x = some s') : s'.parent = s.parent := by
  obtain ⟨-, rfl⟩ := acquireWait_eq_some.mp acquired
  rfl

theorem killScan_parent (pid : Int32) (j : Nat) : (s.killScan q pid j).parent = s.parent := by
  unfold ProcSys.killScan
  repeat' split
  all_goals rfl

/-- How a step changes a parent link: `reparent` gives a child of the
stepping process to `initproc`, `wait` frees one, and `fork` links its new
slot to it. -/
theorem Inv.parent_section (inv : s.Inv) (stepped : Section s q s') {k : Fin n} (changed : s'.parent k ≠ s.parent k) :
    (∃ status, s.pc q = .reparent status k.val ∧ s.parent k = some q ∧ s'.parent k = some initproc) ∨
      (∃ addr havekids, s.pc q = .waitScan addr k.val havekids ∧ s.parent k = some q ∧ s'.parent k = none) ∨
      ∃ pid, s.pc q = .forkParent k pid ∧ s.parent k = none ∧ s'.parent k = some q := by
  cases stepped with
  | schedule picked =>
      obtain ⟨-, rfl⟩ := schedule_eq_some.mp picked
      exact absurd rfl changed
  | allocproc ok _ _ =>
      refine absurd ?_ changed
      unfold ProcSys.allocproc
      split
      · split
        · rename_i free
          split
          · rfl
          · -- `freeproc` clears a link that a free slot does not have
            show Function.update s.parent _ none k = s.parent k
            rw [← inv.tree.unused _ free, Function.update_eq_self]
        · rfl
      · rfl
  | @forkParent np _ _ _ at_ linked =>
      obtain ⟨-, rfl⟩ := forkParent_eq_some.mp linked
      by_cases here : k = np
      · subst here
        have fits := inv.forking q
        rw [at_] at fits
        exact .inr (.inr ⟨_, at_, fits.2, Function.update_self ..⟩)
      · exact absurd (Function.update_of_ne here ..) changed
  | exitAcquire _ _ acquired | waitAcquire _ _ acquired | waitAsleep _ _ acquired =>
      exact absurd (congrFun (acquireWait_parent acquired) k) changed
  | reparent _ at_ =>
      unfold ProcSys.reparent at changed ⊢
      split at changed
      · rename_i lt
        split at changed
        · rename_i child
          by_cases here : k = ⟨_, lt⟩
          · subst here
            rw [dif_pos lt, if_pos child]
            exact .inl ⟨_, at_, child, Function.update_self ..⟩
          · exact absurd (Function.update_of_ne here ..) changed
        · exact absurd rfl changed
      · exact absurd rfl changed
  | reparentWake =>
      unfold ProcSys.reparentWake at changed
      split at changed
      · exact absurd (congrFun (wakeupAt_parent _ _) k) changed
      · exact absurd rfl changed
  | wakeParent =>
      unfold ProcSys.wakeParent at changed
      split at changed
      · exact absurd (congrFun (wakeupAt_parent _ _) k) changed
      · exact absurd rfl changed
  | waitScan ok _ at_ =>
      unfold ProcSys.waitScan at changed ⊢
      split at changed
      · rename_i lt
        split at changed
        · rename_i child
          split at changed
          · rename_i zombie
            split at changed
            · exact absurd rfl changed
            · rename_i copied
              by_cases here : k = ⟨_, lt⟩
              · subst here
                rw [dif_pos lt, if_pos child, if_pos zombie, if_neg copied]
                exact .inr (.inl ⟨_, _, at_, child, Function.update_self ..⟩)
              · exact absurd (Function.update_of_ne here ..) changed
          · exact absurd rfl changed
        · exact absurd rfl changed
      · split at changed <;> exact absurd rfl changed
  | killScan => exact absurd (congrFun (killScan_parent _ _) k) changed
  | yield | fork | exit | wait | kill | forkRun | exitZombie | waitSleep => exact absurd rfl changed

/-- Another process's step leaves `p`'s point alone, unless it allocates
`p`'s slot for a new child. -/
theorem Section.pc_other (stepped : Section s q s') (other : p ≠ q) : s'.pc p = s.pc p ∨ s'.pc p = .user 0 := by
  have moved : ∀ (t : ProcSys n m) (x : ProcPc n), t.pc p = s.pc p → (t.goto q x).pc p = s.pc p :=
    fun _ _ same => (Function.update_of_ne other ..).trans same
  cases stepped with
  | schedule picked =>
      obtain ⟨-, rfl⟩ := schedule_eq_some.mp picked
      exact .inl rfl
  | yield => exact .inl rfl
  | allocproc ok =>
      unfold ProcSys.allocproc
      split
      · split
        · split
          · rename_i lt _ _
            by_cases here : p = ⟨_, lt⟩
            · rw [here]
              exact .inr ((Function.update_of_ne (here ▸ other) ..).trans (Function.update_self ..))
            · exact .inl (moved _ _ (Function.update_of_ne here ..))
          · exact .inl (moved _ _ rfl)
        · exact .inl (moved _ _ rfl)
      · exact .inl (moved _ _ rfl)
  | forkParent _ _ linked =>
      obtain ⟨-, rfl⟩ := forkParent_eq_some.mp linked
      exact .inl (moved _ _ rfl)
  | exitAcquire _ _ acquired | waitAcquire _ _ acquired | waitAsleep _ _ acquired =>
      obtain ⟨-, rfl⟩ := acquireWait_eq_some.mp acquired
      exact .inl (moved _ _ rfl)
  | reparent =>
      unfold ProcSys.reparent
      repeat' split
      all_goals exact .inl (moved _ _ rfl)
  | reparentWake =>
      unfold ProcSys.reparentWake
      split
      · exact .inl (moved _ _ (congrFun (wakeupAt_pc _ _) p))
      · exact .inl (moved _ _ rfl)
  | wakeParent =>
      unfold ProcSys.wakeParent
      split
      · exact .inl (moved _ _ (congrFun (wakeupAt_pc _ _) p))
      · exact .inl (moved _ _ rfl)
  | waitScan =>
      unfold ProcSys.waitScan
      repeat' split
      all_goals exact .inl (moved _ _ rfl)
  | killScan =>
      unfold ProcSys.killScan
      repeat' split
      all_goals exact .inl (moved _ _ rfl)
  | fork | exit | wait | kill | forkRun | exitZombie | waitSleep => exact .inl (moved _ _ rfl)

/-- In `exit`, once `p` holds `wait_lock` it keeps it until it leaves
`exit`. -/
theorem Section.exit_holds (stepped : Section s p s') (holds : (s.pc p).holdsWait = true)
    (exiting : (s.pc p).exiting = true) (still : (s'.pc p).exiting = true) : (s'.pc p).holdsWait = true := by
  cases stepped with
  | schedule picked =>
      obtain ⟨-, rfl⟩ := schedule_eq_some.mp picked
      exact holds
  | yield _ out =>
      rw [out] at holds
      cases holds
  | reparent =>
      unfold ProcSys.reparent
      repeat' split
      all_goals simp only [goto_pc, Function.update_self, ProcPc.holdsWait]
  | reparentWake =>
      unfold ProcSys.reparentWake
      split <;> simp only [goto_pc, Function.update_self, ProcPc.holdsWait]
  | wakeParent =>
      unfold ProcSys.wakeParent
      split <;> simp only [goto_pc, Function.update_self, ProcPc.holdsWait]
  | exitZombie =>
      unfold ProcSys.exitZombie at still
      simp only [goto_pc, Function.update_self, ProcPc.exiting, Bool.false_eq_true] at still
  | fork _ at_ | exit _ at_ _ | wait _ at_ | kill _ at_ | allocproc _ _ at_ | forkRun _ at_ | killScan _ at_ =>
      rw [at_] at holds
      cases holds
  | forkParent _ at_ _ | exitAcquire _ at_ _ | waitAcquire _ at_ _ | waitAsleep _ at_ _ =>
      rw [at_] at holds
      cases holds
  | waitScan _ _ at_ | waitSleep _ at_ =>
      rw [at_] at exiting
      cases exiting

/-- `s'` follows `s` by steps after each of which `p` is still in `exit`. -/
def InExit (p : Fin n) : ProcSys n m → ProcSys n m → Prop :=
  Relation.ReflTransGen fun t t' => ∃ a, step a t = some t' ∧ (t'.pc p).exiting = true

/-- While `p` is in `exit`, a child of `p` stays one until `reparent` gives
it to `initproc`, and stays `initproc`'s while `p` holds `wait_lock`. -/
theorem Inv.exit_keeps (inv : s.Inv) (during : InExit p s s') (calls : (s.pc p).exiting = true) :
    s'.Inv ∧ (s'.pc p).exiting = true ∧
      ∀ k, s.parent k = some p → s'.parent k = some p ∨ (s'.parent k = some initproc ∧ (s'.pc p).holdsWait = true) := by
  induction during with
  | refl => exact ⟨inv, calls, fun k child => .inl child⟩
  | @tail t t' _ stepped ih =>
      obtain ⟨inv', exiting, kept⟩ := ih
      obtain ⟨⟨q, a⟩, stepped, still⟩ := stepped
      have sec := section_of_step stepped
      refine ⟨inv'.step stepped, still, fun k child => ?_⟩
      -- `p` keeps `wait_lock` across the step, whoever takes it
      have holdsNext : (t.pc p).holdsWait = true → (t'.pc p).holdsWait = true := by
        intro holds
        by_cases mine : q = p
        · subst mine
          exact sec.exit_holds holds exiting still
        · rcases sec.pc_other (Ne.symm mine) with same | fresh
          · rw [same]
            exact holds
          · rw [fresh] at still
            cases still
      rcases kept k child with stays | ⟨adopted, holds⟩
      · by_cases changed : t'.parent k = t.parent k
        · exact .inl (changed.trans stays)
        · rcases inv'.parent_section sec changed with ⟨_, at_, ofK, toInit⟩ | ⟨_, _, at_, ofK, _⟩ | ⟨_, _, orphan, _⟩
          · -- `p`'s own `reparent`
            obtain rfl : q = p := Option.some_inj.mp (ofK.symm.trans stays)
            exact .inr ⟨toInit, holdsNext (by rw [at_]; rfl)⟩
          · obtain rfl : q = p := Option.some_inj.mp (ofK.symm.trans stays)
            rw [at_] at exiting
            cases exiting
          · rw [stays] at orphan
            cases orphan
      · by_cases changed : t'.parent k = t.parent k
        · exact .inr ⟨changed.trans adopted, holdsNext holds⟩
        · rcases inv'.parent_section sec changed with ⟨_, at_, ofK, _⟩ | ⟨_, _, at_, ofK, _⟩ | ⟨_, _, orphan, _⟩
          · -- `initproc` never exits
            obtain rfl : q = initproc := Option.some_inj.mp (ofK.symm.trans adopted)
            have stays := inv'.initStays
            rw [at_] at stays
            cases stays
          · -- a `wait` of `initproc` would hold `wait_lock`, which `p` holds
            obtain rfl : q = initproc := Option.some_inj.mp (ofK.symm.trans adopted)
            have theirs := (inv'.waitLock initproc).mpr (by rw [at_]; rfl)
            rw [(inv'.waitLock p).mpr holds, Option.some_inj] at theirs
            rw [theirs, at_] at exiting
            cases exiting
          · rw [adopted] at orphan
            cases orphan

end Exit

/-- After `exit(p)`, every process that was a child of `p` when it called
`exit` is a child of `initproc`, and no process is a child of `p`: whatever
the other processes do meanwhile. -/
theorem exit_reparents {t : List (Fin n × ProcAct m)} {s s' s'' : ProcSys n m} (ran : run step start t = some s)
    {p : Fin n} {status status' : Int32} (calls : s.pc p = .exitAcquire status) (during : InExit p s s')
    (last : s'.pc p = .exitZombie status') (ends : step (p, .next) s' = some s'') :
    s''.state p = .ZOMBIE ∧ ∀ k, (s.parent k = some p → s''.parent k = some initproc) ∧ s''.parent k ≠ some p := by
  obtain ⟨inv', _, kept⟩ := (run_inv ran).exit_keeps during (by rw [calls]; rfl)
  have running : s'.state p = .RUNNING := inv'.holder p (by rw [last]; rfl)
  have orphaned : ∀ k, s'.parent k ≠ some p := fun k => inv'.childless p k (by rw [last]; exact k.isLt)
  simp only [step, running, last, exec, if_true, Option.some.injEq] at ends
  subst ends
  refine ⟨Function.update_self .., fun k => ⟨fun child => ?_, orphaned k⟩⟩
  rcases kept k child with still | ⟨adopted, _⟩
  · exact absurd still (orphaned k)
  · exact adopted

/-- The process tree in every reachable state: started processes have live
parents, `exit` hands its children to `initproc`, a zombie is freed only by
its parent's `wait`, which returns its pid, `wait` fails only for the reasons
below, and CPUs and `RUNNING` processes match one to one.  A zombie whose pid
is -1 (`nextpid` wraps) makes a successful `wait` return -1 too. -/
theorem proc_tree {t : List (Fin n × ProcAct m)} {s : ProcSys n m} (ran : run step start t = some s) :
    (∀ p, p ≠ initproc → (s.state p = .SLEEPING ∨ s.state p = .RUNNABLE ∨ s.state p = .RUNNING ∨ s.state p = .ZOMBIE) →
      ∃ q, s.parent p = some q ∧ s.state q ≠ .UNUSED) ∧
    (∀ p status status' s' s'', s.pc p = .exitAcquire status → InExit p s s' → s'.pc p = .exitZombie status' →
      step (p, .next) s' = some s'' → ∀ k, (s.parent k = some p → s''.parent k = some initproc) ∧ s''.parent k ≠ some p) ∧
    (∀ p a s' k, step (p, a) s = some s' → s.state k = .ZOMBIE → s'.state k ≠ .ZOMBIE →
      ∃ addr havekids, s.pc p = .waitScan addr k.val havekids ∧ s.parent k = some p ∧ s'.state k = .UNUSED ∧
        s'.pc p = .user (s.pid k)) ∧
    (∀ p a s' addr k havekids, step (p, a) s = some s' → s.pc p = .waitScan addr k havekids → s'.pc p = .user (-1) →
      (∀ q, s.parent q ≠ some p) ∨ s.killed p = true ∨
        (addr ≠ 0 ∧ ∃ q, s.parent q = some p ∧ s.state q = .ZOMBIE ∧ s'.state q = .ZOMBIE) ∨
        ∃ q, s.parent q = some p ∧ s.state q = .ZOMBIE ∧ s.pid q = -1 ∧ s'.state q = .UNUSED) ∧
    (∀ c c' p, s.cpu c = some p → s.cpu c' = some p → c = c') ∧
    (∀ p, s.state p = .RUNNING ↔ ∃! c, s.cpu c = some p) := by
  have inv := run_inv ran
  refine ⟨fun p notInit started => ?_, fun p _ _ _ _ calls during last ends =>
    (exit_reparents ran calls during last ends).2, fun p a s' k stepped zombie freed => ?_,
    fun p a s' addr k havekids stepped at_ failed => inv.wait_fails (section_of_step stepped) at_ failed,
    inv.runs.cpus, inv.running_iff⟩
  · have isStarted : (s.state p).started = true := by
      rcases started with st | st | st | st <;> rw [st] <;> rfl
    obtain ⟨q, ofP, live⟩ := inv.parent_live notInit isStarted
    exact ⟨q, ofP, fun free => by rw [free] at live; cases live⟩
  · rcases inv.zombie_section (section_of_step stepped) zombie with stays | reaped
    · exact absurd stays freed
    · exact reaped

/-! ## The loops of `exit` run to their end -/

section Loops

variable {s : ProcSys n m} {p : Fin n}

theorem goto_goto (x y : ProcPc n) : (s.goto p x).goto p y = s.goto p y := by
  unfold ProcSys.goto
  rw [Function.update_idem]

theorem step_next (running : s.state p = .RUNNING) : step (p, .next) s = s.exec p (s.pc p) .next := by
  simp only [step, if_pos running]

/-- `reparent` passes every slot when none is a child of `p`, and goes on to
`wakeup(p->parent)`. -/
theorem reparent_loop (running : s.state p = .RUNNING) (status : Int32) (childless : ∀ k : Fin n, s.parent k ≠ some p) :
    run step (s.goto p (.reparent status 0)) (List.replicate (n + 1) (p, .next)) =
      some (s.goto p (.wakeParent status (s.parent p) 0)) := by
  have passes : ∀ k, k < n → step (p, .next) (s.goto p (.reparent status k)) = some (s.goto p (.reparent status (k + 1))) := by
    intro k lt
    rw [step_next (s := s.goto p _) running, goto_pc, Function.update_self]
    show some ((s.goto p _).reparent p status k) = _
    unfold ProcSys.reparent
    rw [dif_pos lt, goto_parent, if_neg (childless ⟨k, lt⟩), goto_goto]
  rw [List.replicate_succ', run_append, run_replicate step (p, .next) (fun k => s.goto p (.reparent status k)) passes,
    Option.bind_some, run_cons, step_next (s := s.goto p _) running, goto_pc, Function.update_self]
  show (some ((s.goto p _).reparent p status n)).bind _ = _
  unfold ProcSys.reparent
  rw [dif_neg (Nat.lt_irrefl n), goto_goto]
  rfl

/-- `wakeup(chan)` in `exit` passes every slot when nobody else sleeps on
`chan`, and goes on to the end of `exit`. -/
theorem wakeParent_loop (running : s.state p = .RUNNING) (status : Int32) (chan : Option (Fin n))
    (awake : ∀ q : Fin n, q ≠ p → ¬ (s.state q = .SLEEPING ∧ s.chan q = chan)) :
    run step (s.goto p (.wakeParent status chan 0)) (List.replicate (n + 1) (p, .next)) =
      some (s.goto p (.exitZombie status)) := by
  have passes : ∀ j, j < n →
      step (p, .next) (s.goto p (.wakeParent status chan j)) = some (s.goto p (.wakeParent status chan (j + 1))) := by
    intro j lt
    rw [step_next (s := s.goto p _) running, goto_pc, Function.update_self]
    show some ((s.goto p _).wakeParent p status chan j) = _
    unfold ProcSys.wakeParent ProcSys.wakeupAt
    rw [dif_pos lt, goto_state, goto_chan, if_neg fun asleep => awake _ asleep.1 asleep.2, goto_goto]
  rw [List.replicate_succ', run_append, run_replicate step (p, .next) (fun j => s.goto p (.wakeParent status chan j)) passes,
    Option.bind_some, run_cons, step_next (s := s.goto p _) running, goto_pc, Function.update_self]
  show (some ((s.goto p _).wakeParent p status chan n)).bind _ = _
  unfold ProcSys.wakeParent
  rw [dif_neg (Nat.lt_irrefl n), goto_goto]
  rfl

end Loops

end ProcSys

/-! ## `kill 0` dooms the next process -/

/-- initproc runs `kill(0)`, as `kill abc` does, and then forks. -/
def killZero : List (Fin NPROC × ProcAct NCPU) := [(0, .kill 0), (0, .next), (0, .next)]

def forkOnce : List (Fin NPROC × ProcAct NCPU) := [(0, .fork), (0, .next), (0, .next), (0, .next), (0, .next)]

theorem kill_zero_dooms_child :
    ∃ s₀ s₁ s₂, ProcSys.step (0, .sched 0) (ProcSys.start : ProcSys NPROC NCPU) = some s₀ ∧
      (∀ q, s₀.state q ≠ .UNUSED → s₀.pid q ≠ 0) ∧
      run ProcSys.step s₀ killZero = some s₁ ∧ s₁.pc 0 = .user 0 ∧ s₁.state 1 = .UNUSED ∧ s₁.killed 1 = true ∧
      run ProcSys.step s₁ forkOnce = some s₂ ∧ s₂.pc 0 = .user 2 ∧ s₂.state 1 = .RUNNABLE ∧
      s₂.parent 1 = some 0 ∧ s₂.killed 1 = true :=
  ⟨_, _, _, rfl, by decide, rfl, rfl, rfl, rfl, rfl, rfl, rfl, rfl, rfl⟩

/-! ## `nextpid` wraps -/

/-- `initproc` alone on CPU 0 in user space, where its last call returned
`r`, with `nextpid = x`; every other slot is free and clear. -/
def initAlone (x r : Int32) : ProcSys NPROC NCPU :=
  { state := Function.update (fun _ => .UNUSED) 0 .RUNNING, chan := fun _ => none, killed := fun _ => false,
    xstate := fun _ => 0, pid := Function.update (fun _ => 0) 0 1, parent := fun _ => none, nextpid := x,
    waitLock := none, cpu := Function.update (fun _ => none) 0 (some 0),
    pc := Function.update (fun _ => .exited) 0 (.user r) }

/-- A `fork` by `initproc` whose allocation fails at the first free slot. -/
def failedFork : List (Fin NPROC × ProcAct NCPU) := [(0, .fork), (0, .next), (0, .fail)]

/-- A failed `fork` uses up a pid and changes nothing else. -/
theorem failedFork_run (x r : Int32) : run ProcSys.step (initAlone x r) failedFork = some (initAlone (x + 1) (-1)) := by
  have ran : run ProcSys.step (initAlone x r) failedFork =
      some (((((initAlone x r).goto 0 (.forkScan 0)).goto 0 (.forkScan 1)).found 1).freeproc 1 |>.goto 0 (.user (-1))) :=
    rfl
  rw [ran]
  congr 1
  unfold initAlone ProcSys.goto ProcSys.found ProcSys.freeproc
  have apart : (1 : Fin NPROC) ≠ 0 := by decide
  congr 1 <;> simp only [Function.update_idem, Function.update_eq_self_iff, Function.update_of_ne apart]

/-- `j` failed `fork`s use up `j` pids. -/
theorem failedForks_run (x : Int32) (j : Nat) :
    run ProcSys.step (initAlone x (-1)) (List.replicate j failedFork).flatten =
      some (initAlone (x + Int32.ofNat j) (-1)) := by
  induction j with
  | zero => simp
  | succ j ih =>
      rw [List.replicate_succ', List.flatten_append, run_append, ih, Option.bind_some, List.flatten_singleton,
        failedFork_run, Int32.ofNat_add, Int32.add_assoc]
      rfl

/-- The first scheduler pass after `userinit` runs `initproc`. -/
theorem start_sched : ProcSys.step (0, .sched 0) (ProcSys.start : ProcSys NPROC NCPU) = some (initAlone 2 0) := by
  simp only [ProcSys.step, ProcSys.schedule]
  rw [if_pos (by decide)]
  congr 1
  unfold initAlone ProcSys.start ProcSys.boot ProcSys.goto ProcSys.found ProcSys.wake initproc
  congr 1 <;> simp only [Function.update_idem, Function.update_eq_self_iff]

/-- Every `nextpid` from 3 on is reached, with `initproc` alone. -/
theorem initAlone_reachable (j : Nat) :
    run ProcSys.step ProcSys.start ((0, .sched 0) :: failedFork ++ (List.replicate j failedFork).flatten) =
      some (initAlone (3 + Int32.ofNat j) (-1)) := by
  rw [List.cons_append, run_cons, start_sched, Option.bind_some, run_append, failedFork_run, Option.bind_some,
    failedForks_run]
  rfl

/-- `initproc` forks a child, which runs on CPU 1 and calls `exit`. -/
def forkExit : List (Fin NPROC × ProcAct NCPU) :=
  [(0, .fork), (0, .next), (0, .next), (0, .next), (0, .next), (1, .sched 1), (1, .exit 0), (1, .next)]

/-- The child finishes `exit` and `initproc` waits for it. -/
def exitWait : List (Fin NPROC × ProcAct NCPU) := [(1, .next), (0, .wait 0), (0, .next), (0, .next)]

/-- With `nextpid = -1` the child gets pid -1, and when it has exited,
`initproc`'s `wait` frees it and returns its pid. -/
theorem forkExitWait_run : ∃ s s', run ProcSys.step (initAlone (-1) (-1))
      (forkExit ++ List.replicate (NPROC + 1) (1, .next) ++ List.replicate (NPROC + 1) (1, .next) ++ exitWait) = some s ∧
    ProcSys.step (0, .next) s = some s' ∧ s.pc 0 = .waitScan 0 1 false ∧ s.parent 1 = some 0 ∧ s.state 1 = .ZOMBIE ∧
    s.pid 1 = -1 ∧ s.killed 0 = false ∧ s'.pc 0 = .user (-1) ∧ s'.state 1 = .UNUSED := by
  -- the loops of `exit` go by their lemmas; the sections around them are evaluated
  obtain ⟨T, forked, running, childless, awake, s, s', finished, reaped⟩ : ∃ T : ProcSys NPROC NCPU,
      run ProcSys.step (initAlone (-1) (-1)) forkExit = some (T.goto 1 (.reparent 0 0)) ∧ T.state 1 = .RUNNING ∧
        (∀ k, T.parent k ≠ some 1) ∧ (∀ q, q ≠ 1 → ¬ (T.state q = .SLEEPING ∧ T.chan q = T.parent 1)) ∧
        ∃ s s', run ProcSys.step (T.goto 1 (.exitZombie 0)) exitWait = some s ∧
          (ProcSys.step (0, .next) s = some s' ∧ s.pc 0 = .waitScan 0 1 false ∧ s.parent 1 = some 0 ∧
            s.state 1 = .ZOMBIE ∧ s.pid 1 = -1 ∧ s.killed 0 = false ∧ s'.pc 0 = .user (-1) ∧ s'.state 1 = .UNUSED) :=
    ⟨_, rfl, rfl, by decide, by decide, _, _, rfl, rfl, rfl, rfl, rfl, rfl, rfl, rfl, rfl⟩
  rw [run_append, run_append, run_append, forked, Option.bind_some, ProcSys.reparent_loop running 0 childless,
    Option.bind_some, ProcSys.wakeParent_loop running 0 _ awake, Option.bind_some]
  exact ⟨s, s', finished, reaped⟩

/-- Once `nextpid` has wrapped to -1, a `wait` that frees a zombie child
returns -1, although the caller has that child, is not killed, and copies
nothing out (`addr` is 0). -/
theorem wait_reaps_minus_one :
    ∃ (t : List (Fin NPROC × ProcAct NCPU)) (s s' : ProcSys NPROC NCPU), run ProcSys.step ProcSys.start t = some s ∧ ProcSys.step (0, .next) s = some s' ∧
      s.pc 0 = .waitScan 0 1 false ∧ s.parent 1 = some 0 ∧ s.state 1 = .ZOMBIE ∧ s.killed 0 = false ∧
      s'.pc 0 = .user (-1) ∧ s'.state 1 = .UNUSED := by
  obtain ⟨s, s', ran, reaps, at_, child, zombie, _, notKilled, returned, freed⟩ := forkExitWait_run
  have reached := initAlone_reachable (2 ^ 32 - 4)
  rw [show (3 : Int32) + Int32.ofNat (2 ^ 32 - 4) = -1 by decide] at reached
  refine ⟨(0, .sched 0) :: failedFork ++ (List.replicate (2 ^ 32 - 4) failedFork).flatten ++
      (forkExit ++ List.replicate (NPROC + 1) (1, .next) ++ List.replicate (NPROC + 1) (1, .next) ++ exitWait),
    s, s', ?_, reaps, at_, child, zombie, notKilled, returned, freed⟩
  rw [run_append, reached, Option.bind_some]
  exact ran

/-- A `fork` by `initproc` alone gives the child the pid `nextpid` held,
whatever it is, and returns it. -/
theorem forkOnce_run (x : Int32) : ∃ s, run ProcSys.step (initAlone x (-1)) forkOnce = some s ∧
    s.state 1 = .RUNNABLE ∧ s.pid 1 = x ∧ s.state 0 = .RUNNING ∧ s.pid 0 = 1 ∧ s.pc 0 = .user x :=
  ⟨_, rfl, rfl, rfl, rfl, rfl, rfl⟩

/-- After `j` failed forks, the next child's pid is `3 + j` as a 32-bit
`int`: `allocpid` hands out every value, 0, the negative ones and
`initproc`'s pid 1 among them. -/
theorem fork_pid_wraps (j : Nat) : ∃ (t : List (Fin NPROC × ProcAct NCPU)) (s : ProcSys NPROC NCPU),
    run ProcSys.step ProcSys.start t = some s ∧ s.state 1 = .RUNNABLE ∧ s.pid 1 = 3 + Int32.ofNat j ∧
      s.state 0 = .RUNNING ∧ s.pid 0 = 1 := by
  obtain ⟨s, ran, runnable, pid, running, pidInit, _⟩ := forkOnce_run (3 + Int32.ofNat j)
  refine ⟨(0, .sched 0) :: failedFork ++ (List.replicate j failedFork).flatten ++ forkOnce, s, ?_, runnable, pid,
    running, pidInit⟩
  rw [run_append, initAlone_reachable, Option.bind_some]
  exact ran

/-- After 2^32 - 2 failed forks, the child of a fork has pid 1, the pid of
`initproc`, which is still running. -/
theorem fork_reuses_init_pid : ∃ (t : List (Fin NPROC × ProcAct NCPU)) (s : ProcSys NPROC NCPU),
    run ProcSys.step ProcSys.start t = some s ∧ s.state 1 = .RUNNABLE ∧ s.state 0 = .RUNNING ∧ s.pid 1 = s.pid 0 := by
  obtain ⟨t, s, ran, runnable, pid, running, pidInit⟩ := fork_pid_wraps (2 ^ 32 - 2)
  rw [show (3 : Int32) + Int32.ofNat (2 ^ 32 - 2) = 1 by decide] at pid
  exact ⟨t, s, ran, runnable, running, pid.trans pidInit.symm⟩

end Xv6
