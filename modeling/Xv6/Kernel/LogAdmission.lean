/-
# Kernel.LogAdmission -- begin_op, end_op and log_write over interleaved operations

Each file-system call brackets its writes with `begin_op`/`end_op`.  `begin_op`
admits an operation only when the log could take `MAXOPBLOCKS` more blocks from
every operation in progress, counting against `LOGSIZE`; `log_write` panics when
the transaction has reached `LOGSIZE` blocks or `log.size - 1`, the number of
log slots after the header.  `mkfs` writes `nlog = LOGSIZE`, so the slots number
one fewer than the blocks `begin_op` reserves.

The system is the log together with what each process is doing with it
(`OpPhase`), and a run is a list of events (`LogEvent`), each an atomic section
of log.c: the admission in `begin_op`, one `log_write`, the locked part of
`end_op`, and the commit that the last `end_op` performs.  `run` stops at the
first event that cannot happen (a sleeping `begin_op`, a process not at that
point, an operation past its `MAXOPBLOCKS` distinct blocks) or that panics.

`logWrite_distinct` shows that absorption keeps the logged block numbers
distinct.  `three_ops_overflow` is a run in which three admitted operations,
each within its budget, drive the thirtieth `log_write` into the panic.
-/
import Xv6.Kernel.Log

namespace Xv6

set_option autoImplicit false

/-! ## log.c's admission and logging -/

/-- The loop of `log_write`: the first `i < n` with `block[i] == blockno`, or `n`. -/
def absorbIndex (lh : LogHeader) (blockno : Nat) : Nat :=
  ((List.range lh.n).find? fun i => lh.block i == blockno).getD lh.n

/-- `begin_op`: admit the operation, or `none` while the caller sleeps (a commit
in progress, or too little log space for one more operation). -/
def beginOp (lg : Log) : Option Log :=
  if lg.committing then none
  else if (lg.lh.n : Int) + (lg.outstanding + 1) * MAXOPBLOCKS > LOGSIZE then none
  else some { lg with outstanding := lg.outstanding + 1 }

/-- `log_write`: record `blockno` in the transaction, absorbing a block number
already there.  The error is the text of the kernel's panic.  Pinning the
buffer is the cache's side of the call (`Kernel.Bio`). -/
def logWrite (lg : Log) (blockno : Nat) : Except String Log :=
  if (lg.lh.n : Int) ≥ LOGSIZE ∨ (lg.lh.n : Int) ≥ (lg.size : Int) - 1 then
    .error "too big a transaction"
  else if lg.outstanding < 1 then .error "log_write outside of trans"
  else
    let i := absorbIndex lg.lh blockno
    let block := Function.update lg.lh.block i blockno
    .ok { lg with lh := { n := if i = lg.lh.n then lg.lh.n + 1 else lg.lh.n, block } }

/-- The locked section of `end_op`: the log after it, and whether this call
commits.  The error is the kernel's panic on a commit in progress. -/
def endOp (lg : Log) : Except String (Log × Bool) :=
  let lg := { lg with outstanding := lg.outstanding - 1 }
  if lg.committing then .error "log.committing"
  else if lg.outstanding = 0 then .ok ({ lg with committing := true }, true)
  else .ok (lg, false)

/-- The end of `end_op` for the caller that commits: `commit()` empties the
in-memory transaction, then `log.committing = 0`. -/
def commitDone (lg : Log) : Log := { lg.clear with committing := false }

/-! ## Interleaved operations -/

/-- Where a process stands with the log. -/
inductive OpPhase where
  | idle
  /-- Between `begin_op` and `end_op`, having logged these distinct block numbers. -/
  | inOp (logged : List Nat)
  /-- Its `end_op` decided to commit. -/
  | committing

/-- The log and every process. -/
structure LogSys where
  log : Log
  proc : Nat → OpPhase

/-- One atomic section of log.c, performed by process `p`. -/
inductive LogEvent where
  | beginOp (p : Nat)
  | logWrite (p blockno : Nat)
  | endOp (p : Nat)
  | commit (p : Nat)

/-- What an event leads to. -/
inductive Outcome where
  | next (s : LogSys)
  /-- The event cannot happen in this state. -/
  | blocked
  | panic (msg : String)

/-- One event.  A `log_write` of a block the operation has not logged yet is
allowed only while the operation has logged fewer than `MAXOPBLOCKS` blocks. -/
def LogSys.step (s : LogSys) : LogEvent → Outcome
  | .beginOp p =>
      match s.proc p, beginOp s.log with
      | .idle, some lg => .next ⟨lg, Function.update s.proc p (.inOp [])⟩
      | _, _ => .blocked
  | .logWrite p b =>
      match s.proc p with
      | .inOp logged =>
          if b ∉ logged ∧ MAXOPBLOCKS ≤ logged.length then .blocked
          else
            match logWrite s.log b with
            | .ok lg =>
                .next ⟨lg, Function.update s.proc p (.inOp (if b ∈ logged then logged else b :: logged))⟩
            | .error msg => .panic msg
      | _ => .blocked
  | .endOp p =>
      match s.proc p with
      | .inOp _ =>
          match endOp s.log with
          | .ok (lg, true) => .next ⟨lg, Function.update s.proc p .committing⟩
          | .ok (lg, false) => .next ⟨lg, Function.update s.proc p .idle⟩
          | .error msg => .panic msg
      | _ => .blocked
  | .commit p =>
      match s.proc p with
      | .committing => .next ⟨commitDone s.log, Function.update s.proc p .idle⟩
      | _ => .blocked

/-- A run of events, up to the first that is blocked or panics. -/
def LogSys.run (s : LogSys) : List LogEvent → Outcome
  | [] => .next s
  | e :: es =>
      match s.step e with
      | .next s' => s'.run es
      | outcome => outcome

/-- The system after boot: the log at `start` with `size` blocks, no operation. -/
def LogSys.boot (start size : Nat) : LogSys := ⟨Log.init start size, fun _ => .idle⟩

/-! ## Absorption keeps the transaction free of duplicates -/

/-- The first `n` logged block numbers are distinct. -/
def LogHeader.Distinct (lh : LogHeader) : Prop :=
  ∀ i j, i < lh.n → j < lh.n → lh.block i = lh.block j → i = j

/-- The absorption loop stops at a slot holding `blockno`, or runs off the end
when no slot below `n` holds it. -/
theorem absorbIndex_spec (lh : LogHeader) (blockno : Nat) :
    (absorbIndex lh blockno < lh.n ∧ lh.block (absorbIndex lh blockno) = blockno) ∨
      (absorbIndex lh blockno = lh.n ∧ ∀ i, i < lh.n → lh.block i ≠ blockno) := by
  unfold absorbIndex
  cases found : (List.range lh.n).find? (fun i => lh.block i == blockno) with
  | none =>
      right
      refine ⟨rfl, fun i bound same => ?_⟩
      have := List.find?_eq_none.mp found i (List.mem_range.mpr bound)
      simp [same] at this
  | some i =>
      left
      have bound := List.mem_range.mp (List.mem_of_find?_eq_some found)
      have hit := List.find?_some found
      simp only [beq_iff_eq] at hit
      exact ⟨bound, hit⟩

/-- `log_write` keeps the transaction's block numbers distinct. -/
theorem logWrite_distinct {lg lg' : Log} {blockno : Nat} (distinct : lg.lh.Distinct)
    (wrote : logWrite lg blockno = .ok lg') : lg'.lh.Distinct := by
  unfold logWrite at wrote
  split at wrote
  · cases wrote
  split at wrote
  · cases wrote
  cases wrote
  intro i j hi hj same
  rcases absorbIndex_spec lg.lh blockno with ⟨below, hit⟩ | ⟨atEnd, fresh⟩
  · -- absorbed: the slot already held `blockno`, so nothing changed
    have unchanged : Function.update lg.lh.block (absorbIndex lg.lh blockno) blockno = lg.lh.block :=
      Function.update_eq_self_iff.mpr hit.symm
    simp only [below.ne, if_false] at hi hj same ⊢
    rw [unchanged] at same
    exact distinct i j hi hj same
  · -- appended at slot `n`, which no earlier slot matches
    simp only [atEnd, if_true] at hi hj same
    rcases Nat.lt_succ_iff_lt_or_eq.mp hi with hi | rfl <;>
      rcases Nat.lt_succ_iff_lt_or_eq.mp hj with hj | rfl
    · rw [Function.update_of_ne hi.ne, Function.update_of_ne hj.ne] at same
      exact distinct i j hi hj same
    · rw [Function.update_of_ne hi.ne, Function.update_self] at same
      exact absurd same (fresh i hi)
    · rw [Function.update_self, Function.update_of_ne hj.ne] at same
      exact absurd same.symm (fresh j hj)
    · rfl

/-! ## Three admitted operations overflow the log -/

/-- Process `p` logs the blocks `first, first + 1, ..., first + count - 1`. -/
def writes (p first count : Nat) : List LogEvent :=
  (List.range count).map fun i => .logWrite p (first + i)

/-- Three processes enter `begin_op` on an empty log, then each logs ten distinct
blocks, its full `MAXOPBLOCKS` budget. -/
def threeFullOps : List LogEvent :=
  [.beginOp 1, .beginOp 2, .beginOp 3] ++ writes 1 100 10 ++ writes 2 200 10 ++ writes 3 300 10

/-- On the log `mkfs` lays out (start 2, `nlog = LOGSIZE` blocks) all three
operations are admitted, every write stays within its operation's budget, and
the thirtieth `log_write` panics: the transaction holds 29 blocks, fewer than
`LOGSIZE`, but as many as the log has slots. -/
theorem three_ops_overflow :
    (LogSys.boot 2 LOGSIZE).run threeFullOps = .panic "too big a transaction" := by
  rfl

end Xv6
