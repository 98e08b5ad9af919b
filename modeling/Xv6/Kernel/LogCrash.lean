/-
# Kernel.LogCrash -- a crash inside commit or recovery keeps all of a transaction or none

The disk commits one block write at a time (`Theory.Writes`), so a crash inside
`commit` leaves the disk after some prefix of its writes, and a crash inside
`recover_from_log` after some prefix of recovery's writes.  After any such crash,
any number of further crashes during recovery, and one complete recovery, every
block outside the log holds what it held before the commit, or what the
transaction gives it: `commit_crash_atomic`.

The proof follows the three places a commit can stand (`Phase`).  `Before`: the
on-disk header is clear and nothing outside the log changed.  `Committed`: the
header records the transaction and every log slot holds its block's new copy;
the home blocks may be installed or not.  `After`: the header is clear and every
home block holds its new copy.  Every prefix of `commit`'s writes leaves one of
the three (`commit_prefix_phase`), every prefix of recovery's writes keeps one
(`recoveryCrash_phase`), and a complete recovery ends in `Before` or `After`,
which recovery leaves as they are (`recover_of_headClear`).
-/
import Xv6.Kernel.Log

namespace Xv6

open Bytes Writes

set_option autoImplicit false

/-! ## Reboot, recovery and crashes -/

/-- The cache after a reboot holds nothing, so every `bread` reads the disk. -/
def boot (d : Disk) : Io Nat Block := ⟨d, []⟩

/-- The log that recovery installs from: the header `read_head` finds on disk `d`. -/
def recoveryLog (lg : Log) (d : Disk) : Log :=
  let init := Log.init lg.start lg.size
  { init with lh := readHead init.lh (d lg.start) }

/-- The writes of `recover_from_log` after a reboot on disk `d`. -/
def recoveryWrites (lg : Log) (d : Disk) : List (Nat × Block) :=
  (recoverFromLog (Log.init lg.start lg.size) (boot d)).2.out

/-- The disk after a complete recovery. -/
def recover (lg : Log) (d : Disk) : Disk := apply d (recoveryWrites lg d)

/-- A crash during recovery leaves the disk after some prefix of its writes. -/
def RecoveryCrash (lg : Log) (d d' : Disk) : Prop :=
  ∃ k, d' = apply d ((recoveryWrites lg d).take k)

/-- The writes of `commit`, with `mem` the cache's contents when it starts. -/
def commitWrites (lg : Log) (mem : Nat → Block) : List (Nat × Block) :=
  (commit lg ⟨mem, []⟩).2.out

/-- The disk with the transaction installed: each logged block holds its new copy. -/
def installed (lg : Log) (mem : Nat → Block) (d : Disk) : Disk := apply d (homeWrites lg mem)

/-- What the claim asks of the disk `f` left by recovery: outside the log, all of
the transaction or none of it; a clear header; and recovery changes it no more. -/
def Settled (lg : Log) (mem : Nat → Block) (d f : Disk) : Prop :=
  ((∀ x, lg.Outside x → f x = d x) ∨ (∀ x, lg.Outside x → f x = installed lg mem d x)) ∧
    HeadClear (f lg.start) ∧ recover lg f = f

theorem recoveryWrites_eq (lg : Log) (d : Disk) :
    recoveryWrites lg d = (installTrans (recoveryLog lg d) (boot d)).out ++
      [(lg.start, setField ((installTrans (recoveryLog lg d) (boot d)).mem lg.start) 0 4 0)] := by
  simp only [recoveryWrites, recoverFromLog, writeHead_clear, Io.write_out, Io.store_out,
    Io.store_mem, Function.update_self]
  rfl

/-! ## The header block -/

/-- The header block records the transaction: its count and its home block numbers. -/
def HeadRecords (lg : Log) (hb : Block) : Prop :=
  field hb 0 4 = lg.lh.n ∧ ∀ i, i < lg.lh.n → field hb (4 + 4 * i) 4 = lg.lh.block i

/-- `write_head`'s loop, after `m` entries: the count and `block[0..m)` are stored. -/
theorem headBlock_loop (lh : LogHeader) (hb : Block) :
    ∀ m, 4 + 4 * m ≤ BSIZE →
      field ((List.range m).foldl (fun hb i => setField hb (4 + 4 * i) 4 (lh.block i))
          (setField hb 0 4 lh.n)) 0 4 = lh.n % 256 ^ 4 ∧
      ∀ i, i < m → field ((List.range m).foldl (fun hb i => setField hb (4 + 4 * i) 4 (lh.block i))
          (setField hb 0 4 lh.n)) (4 + 4 * i) 4 = lh.block i % 256 ^ 4
  | 0, fits => ⟨field_setField_self _ _ (by omega), fun _ bound => absurd bound (Nat.not_lt_zero _)⟩
  | m + 1, fits => by
      obtain ⟨count, entries⟩ := headBlock_loop lh hb m (by omega)
      rw [List.range_succ, List.foldl_append, List.foldl_cons, List.foldl_nil]
      refine ⟨by rw [field_setField_of_disjoint _ _ (by omega), count], fun i bound => ?_⟩
      by_cases last : i = m
      · subst last
        exact field_setField_self _ _ (by omega)
      · rw [field_setField_of_disjoint _ _ (by omega), entries i (by omega)]

theorem headBlock_records {lg : Log} (c : lg.Committable) (hb : Block) :
    HeadRecords lg (headBlock lg.lh hb) := by
  have fits : lg.lh.n ≤ 30 := c.fits
  obtain ⟨count, entries⟩ := headBlock_loop lg.lh hb lg.lh.n (by rw [BSIZE_eq]; omega)
  refine ⟨by rw [headBlock, count, Nat.mod_eq_of_lt (by norm_num; omega)], fun i bound => ?_⟩
  rw [headBlock, entries i bound]
  have small := c.blockno_lt i bound
  norm_num at small ⊢
  omega

/-- What `read_head` takes from a header block that records the transaction. -/
theorem readHead_of_records {lg : Log} (c : lg.Committable) {hb : Block} (records : HeadRecords lg hb)
    (lh : LogHeader) :
    (readHead lh hb).n = lg.lh.n ∧ ∀ i, i < lg.lh.n → (readHead lh hb).block i = lg.lh.block i := by
  have fits : lg.lh.n ≤ 30 := c.fits
  have count : (readHead lh hb).n = lg.lh.n := by
    simp only [readHead, records.1]
    rw [signed_of_small (by norm_num; omega)]
    simp
  refine ⟨count, fun i bound => ?_⟩
  have entry : (readHead lh hb).block i =
      if i < (readHead lh hb).n then field hb (4 + 4 * i) 4 else lh.block i := rfl
  rw [entry, count, if_pos bound, records.2 i bound]

theorem readHead_of_clear {hb : Block} (clear : HeadClear hb) (lh : LogHeader) :
    (readHead lh hb).n = 0 := by
  unfold HeadClear at clear
  simp [readHead, clear, signed]

/-! ## Recovery on a clear header and on a committed one -/

/-- With a clear header, recovery rewrites the header as it is. -/
theorem recoveryWrites_of_headClear (lg : Log) {d : Disk} (clear : HeadClear (d lg.start)) :
    recoveryWrites lg d = [(lg.start, d lg.start)] := by
  have empty : (recoveryLog lg d).lh.n = 0 := readHead_of_clear clear _
  have none : installTrans (recoveryLog lg d) (boot d) = boot d := by
    simp [installTrans, empty, Io.copyEach]
  rw [recoveryWrites_eq, none]
  simp only [boot, List.nil_append]
  rw [setField_of_field_eq (by rw [Nat.zero_mod]; exact clear)]

theorem recover_of_headClear (lg : Log) {d : Disk} (clear : HeadClear (d lg.start)) :
    recover lg d = d := by
  simp [recover, recoveryWrites_of_headClear lg clear]

theorem recoveryCrash_of_headClear (lg : Log) {d d' : Disk} (clear : HeadClear (d lg.start))
    (crash : RecoveryCrash lg d d') : d' = d := by
  obtain ⟨k, rfl⟩ := crash
  rw [recoveryWrites_of_headClear lg clear]
  cases k <;> simp

/-- The log recovery reads back from a header that records the transaction is
committable in turn, with the same blocks. -/
theorem recoveryLog_committable {lg : Log} (c : lg.Committable) {d : Disk}
    (records : HeadRecords lg (d lg.start)) :
    (recoveryLog lg d).Committable ∧ (recoveryLog lg d).lh.n = lg.lh.n ∧
      ∀ i, i < lg.lh.n → (recoveryLog lg d).lh.block i = lg.lh.block i := by
  obtain ⟨count, blocks⟩ := readHead_of_records c records (Log.init lg.start lg.size).lh
  have count' : (recoveryLog lg d).lh.n = lg.lh.n := count
  have blocks' : ∀ i, i < lg.lh.n → (recoveryLog lg d).lh.block i = lg.lh.block i := blocks
  refine ⟨⟨?_, ?_, ?_, ?_, ?_⟩, count', blocks'⟩
  · rw [count']; exact c.room
  · rw [count']; exact c.fits
  · intro i j hi hj same
    rw [count'] at hi hj
    rw [blocks' i hi, blocks' j hj] at same
    exact c.distinct i j hi hj same
  · intro i hi
    rw [count'] at hi
    rw [blocks' i hi]
    exact c.outside i hi
  · intro i hi
    rw [count'] at hi
    rw [blocks' i hi]
    exact c.blockno_lt i hi

/-- On a disk whose header records the transaction, recovery writes every home
block from its slot and then clears the header. -/
theorem recoveryWrites_of_records {lg : Log} (c : lg.Committable) {d : Disk}
    (records : HeadRecords lg (d lg.start)) :
    recoveryWrites lg d = (List.range lg.lh.n).map (fun i => (lg.lh.block i, d (lg.start + i + 1))) ++
      [(lg.start, setField (d lg.start) 0 4 0)] := by
  obtain ⟨rc, count, blocks⟩ := recoveryLog_committable c records
  obtain ⟨out, mem⟩ := rc.installTrans_spec (boot d)
  have homes : (List.range (recoveryLog lg d).lh.n).map (fun i => ((recoveryLog lg d).lh.block i,
      (boot d).mem ((recoveryLog lg d).start + i + 1))) =
      (List.range lg.lh.n).map (fun i => (lg.lh.block i, d (lg.start + i + 1))) := by
    rw [count]
    exact List.map_congr_left fun i hi => by rw [blocks i (List.mem_range.mp hi)]; rfl
  have head : (installTrans (recoveryLog lg d) (boot d)).mem lg.start = d lg.start := by
    rw [mem, homes, apply_of_not_written]
    · rfl
    · intro w hw
      obtain ⟨i, hi, rfl⟩ := List.mem_map.mp hw
      exact c.home_ne_start (List.mem_range.mp hi)
  rw [recoveryWrites_eq, out, homes, head]
  rfl

/-! ## The three phases of a commit -/

section Phases

variable (lg : Log) (mem : Nat → Block) (d : Disk)

/-- Nothing of the transaction has reached a home block, and the header is clear. -/
def Before (e : Disk) : Prop := HeadClear (e lg.start) ∧ ∀ x, lg.Outside x → e x = d x

/-- The header records the transaction and its slots hold the new copies; blocks
outside the log and outside the transaction are as they were. -/
def Committed (e : Disk) : Prop :=
  HeadRecords lg (e lg.start) ∧ (∀ i, i < lg.lh.n → e (lg.start + i + 1) = mem (lg.lh.block i)) ∧
    ∀ x, lg.Outside x → (∀ i, i < lg.lh.n → lg.lh.block i ≠ x) → e x = d x

/-- All of the transaction is installed, and the header is clear. -/
def After (e : Disk) : Prop := HeadClear (e lg.start) ∧ ∀ x, lg.Outside x → e x = installed lg mem d x

/-- Where a crash can leave a commit. -/
def Phase (e : Disk) : Prop := Before lg d e ∨ Committed lg mem d e ∨ After lg mem d e

end Phases

section Transaction

variable {lg : Log} (c : lg.Committable) (mem : Nat → Block) {d : Disk}
include c

theorem start_not_outside : ¬ lg.Outside lg.start := by
  have room := c.room
  unfold Log.Outside
  omega

theorem slot_not_outside (i : Nat) (bound : i < lg.lh.n) : ¬ lg.Outside (lg.start + i + 1) := by
  have room := c.room
  unfold Log.Outside
  omega

omit c in
/-- A block outside the log and outside the transaction is never written home. -/
theorem installed_of_not_logged {x : Nat} (untouched : ∀ i, i < lg.lh.n → lg.lh.block i ≠ x) :
    installed lg mem d x = d x := by
  apply apply_of_not_written
  intro w hw
  obtain ⟨i, hi, rfl⟩ := List.mem_map.mp hw
  exact untouched i (List.mem_range.mp hi)

theorem installed_of_logged {i : Nat} (bound : i < lg.lh.n) (e : Disk) :
    apply e (homeWrites lg mem) (lg.lh.block i) = mem (lg.lh.block i) :=
  apply_of_mem (c.homes_nodup mem) (List.mem_map.mpr ⟨i, List.mem_range.mpr bound, rfl⟩)

/-- Any prefix of the home writes keeps a committed disk committed. -/
theorem committed_homePrefix {e : Disk} (committed : Committed lg mem d e) (k : Nat) :
    Committed lg mem d (apply e ((homeWrites lg mem).take k)) := by
  obtain ⟨records, slots, others⟩ := committed
  have homes : ∀ w ∈ (homeWrites lg mem).take k, ∃ i, i < lg.lh.n ∧ w.1 = lg.lh.block i := by
    intro w hw
    obtain ⟨i, hi, rfl⟩ := List.mem_map.mp (List.mem_of_mem_take hw)
    exact ⟨i, List.mem_range.mp hi, rfl⟩
  refine ⟨?_, fun i bound => ?_, fun x out untouched => ?_⟩
  · rw [apply_of_not_written]
    · exact records
    · intro w hw
      obtain ⟨i, bound, same⟩ := homes w hw
      rw [same]
      exact c.home_ne_start bound
  · rw [apply_of_not_written, slots i bound]
    intro w hw
    obtain ⟨j, bound', same⟩ := homes w hw
    rw [same]
    exact c.home_ne_slot bound' bound
  · rw [apply_of_not_written, others x out untouched]
    intro w hw
    obtain ⟨j, bound', same⟩ := homes w hw
    rw [same]
    exact untouched j bound'

/-- The home writes followed by clearing the header take a committed disk to `After`. -/
theorem after_of_committed {e : Disk} (committed : Committed lg mem d e) :
    After lg mem d (apply e (homeWrites lg mem ++ [(lg.start, setField (e lg.start) 0 4 0)])) := by
  obtain ⟨_, _, others⟩ := committed
  rw [apply_concat]
  refine ⟨?_, fun x out => ?_⟩
  · simp only [Function.update_self, HeadClear]
    rw [field_setField_self _ _ (by rw [BSIZE_eq]; omega)]
    rfl
  · have notStart : x ≠ lg.start := fun same => start_not_outside c (same ▸ out)
    rw [Function.update_of_ne notStart]
    by_cases logged : ∃ i, i < lg.lh.n ∧ lg.lh.block i = x
    · obtain ⟨i, bound, rfl⟩ := logged
      rw [installed_of_logged c mem bound, installed, installed_of_logged c mem bound]
    · simp only [not_exists, not_and] at logged
      rw [installed_of_not_logged mem logged, apply_of_not_written, others x out logged]
      intro w hw
      obtain ⟨i, hi, rfl⟩ := List.mem_map.mp hw
      exact logged i (List.mem_range.mp hi)

/-- Recovery on a committed disk writes the transaction home and clears the header. -/
theorem recoveryWrites_of_committed {e : Disk} (committed : Committed lg mem d e) :
    recoveryWrites lg e = homeWrites lg mem ++ [(lg.start, setField (e lg.start) 0 4 0)] := by
  rw [recoveryWrites_of_records c committed.1]
  congr 1
  exact List.map_congr_left fun i hi => by rw [committed.2.1 i (List.mem_range.mp hi)]

/-- Every prefix of recovery's writes keeps a commit in one of its phases. -/
theorem recoveryCrash_phase {e e' : Disk} (phase : Phase lg mem d e) (crash : RecoveryCrash lg e e') :
    Phase lg mem d e' := by
  rcases phase with before | committed | after
  · rw [recoveryCrash_of_headClear lg before.1 crash]
    exact .inl before
  · obtain ⟨k, rfl⟩ := crash
    rw [recoveryWrites_of_committed c mem committed, List.take_append]
    by_cases within : k ≤ (homeWrites lg mem).length
    · rw [Nat.sub_eq_zero_of_le within, List.take_zero, List.append_nil]
      exact .inr (.inl (committed_homePrefix c mem committed k))
    · rw [List.take_of_length_le (by omega), List.take_of_length_le (by rw [List.length_singleton]; omega)]
      exact .inr (.inr (after_of_committed c mem committed))
  · rw [recoveryCrash_of_headClear lg after.1 crash]
    exact .inr (.inr after)

/-- A complete recovery ends every phase in `Before` or `After`. -/
theorem recover_phase {e : Disk} (phase : Phase lg mem d e) :
    Before lg d (recover lg e) ∨ After lg mem d (recover lg e) := by
  rcases phase with before | committed | after
  · rw [recover_of_headClear lg before.1]
    exact .inl before
  · rw [recover, recoveryWrites_of_committed c mem committed]
    exact .inr (after_of_committed c mem committed)
  · rw [recover_of_headClear lg after.1]
    exact .inr after

/-- The disk at the commit point: the slots written, then the header. -/
theorem committed_at_commitPoint :
    Committed lg mem d (Function.update (apply d (logWrites lg mem)) lg.start
      (headBlock lg.lh (mem lg.start))) := by
  have slotsOutside : ∀ w ∈ logWrites lg mem, ¬ lg.Outside w.1 := by
    intro w hw
    obtain ⟨i, hi, rfl⟩ := List.mem_map.mp hw
    exact slot_not_outside c i (List.mem_range.mp hi)
  refine ⟨?_, fun i bound => ?_, fun x out _ => ?_⟩
  · rw [Function.update_self]
    exact headBlock_records c _
  · rw [Function.update_of_ne (slot_ne_start lg i)]
    exact apply_of_mem (slots_nodup lg mem) (List.mem_map.mpr ⟨i, List.mem_range.mpr bound, rfl⟩)
  · have notStart : x ≠ lg.start := fun same => start_not_outside c (same ▸ out)
    rw [Function.update_of_ne notStart, apply_of_not_written]
    intro w hw same
    exact slotsOutside w hw (same ▸ out)

/-- Every prefix of commit's writes leaves the disk in one of the three phases. -/
theorem commit_prefix_phase (clear : HeadClear (d lg.start)) (k : Nat) :
    Phase lg mem d (apply d ((commitWrites lg mem).take k)) := by
  by_cases empty : lg.lh.n = 0
  · left
    rw [commitWrites, commit_out_of_empty lg empty]
    simpa [Before] using clear
  rw [commitWrites, c.commit_out (by omega)]
  by_cases inLog : k ≤ (logWrites lg mem).length
  · -- the crash came while the slots were written: the header is still clear
    left
    rw [List.take_append_of_le_length inLog]
    have slots : ∀ w ∈ (logWrites lg mem).take k, ∃ i, i < lg.lh.n ∧ w.1 = lg.start + i + 1 := by
      intro w hw
      obtain ⟨i, hi, rfl⟩ := List.mem_map.mp (List.mem_of_mem_take hw)
      exact ⟨i, List.mem_range.mp hi, rfl⟩
    refine ⟨?_, fun x out => ?_⟩
    · rw [apply_of_not_written]
      · exact clear
      · intro w hw
        obtain ⟨i, -, same⟩ := slots w hw
        rw [same]
        exact slot_ne_start lg i
    · rw [apply_of_not_written]
      intro w hw same
      obtain ⟨i, bound, slot⟩ := slots w hw
      exact slot_not_outside c i bound (slot ▸ same ▸ out)
  -- the slots and the header are written: the commit point has passed
  right
  obtain ⟨m, rfl⟩ : ∃ m, k = (logWrites lg mem).length + 1 + m :=
    ⟨k - (logWrites lg mem).length - 1, by omega⟩
  rw [List.take_append, List.take_of_length_le (by omega),
    show (logWrites lg mem).length + 1 + m - (logWrites lg mem).length = m + 1 by omega,
    List.take_succ_cons, apply_append, apply_cons]
  have committed := committed_at_commitPoint c mem (d := d)
  by_cases installing : m ≤ (homeWrites lg mem).length
  · rw [List.take_append_of_le_length installing]
    exact .inl (committed_homePrefix c mem committed m)
  · rw [List.take_of_length_le (by rw [List.length_append, List.length_singleton]; omega)]
    have after := after_of_committed c mem committed
    rw [Function.update_self] at after
    exact .inr after

end Transaction

/-! ## Crash atomicity -/

/-- **Crash atomicity of the log.**  Take a transaction that the `log_write` calls
built, over a disk whose header is clear.  Crash `commit` after any number `k` of
its writes, let recovery crash any number of times, and recover completely.
Every block outside the log then holds its contents from before the commit, or
the contents the whole transaction gives it; the header is clear; and running
recovery again changes nothing. -/
theorem commit_crash_atomic {lg : Log} (c : lg.Committable) (mem : Nat → Block) {d : Disk}
    (clear : HeadClear (d lg.start)) (k : Nat) {e : Disk}
    (crashes : Relation.ReflTransGen (RecoveryCrash lg) (apply d ((commitWrites lg mem).take k)) e) :
    Settled lg mem d (recover lg e) := by
  -- every crash during recovery keeps the disk in one of the three phases
  have phase : Phase lg mem d e := by
    induction crashes with
    | refl => exact commit_prefix_phase c mem clear k
    | tail _ crash reached => exact recoveryCrash_phase c mem reached crash
  rcases recover_phase c mem phase with before | after
  · exact ⟨.inl before.2, before.1, recover_of_headClear lg before.1⟩
  · exact ⟨.inr after.2, after.1, recover_of_headClear lg after.1⟩

/-- A log of thirty blocks at block 2 whose transaction holds block 100. -/
def oneBlockLog : Log :=
  { start := 2, size := 30, outstanding := 0, committing := false, lh := ⟨1, fun _ => 100⟩ }

theorem oneBlockLog_committable : oneBlockLog.Committable where
  room := by decide
  fits := by decide
  distinct := fun i j hi hj _ => by simp only [oneBlockLog] at hi hj; omega
  outside := fun _ _ => .inr (by simp [oneBlockLog])
  blockno_lt := fun _ _ => by simp [oneBlockLog]

/-- The one-block transaction, crashed right after its header write over a zeroed disk. -/
theorem commit_crash_atomic_oneBlock :
    oneBlockLog.Committable ∧ HeadClear Block.zero ∧
      Settled oneBlockLog (Function.update (fun _ => Block.zero) 100 fun _ => 1) (fun _ => Block.zero)
        (recover oneBlockLog (apply (fun _ => Block.zero)
          ((commitWrites oneBlockLog (Function.update (fun _ => Block.zero) 100 fun _ => 1)).take 2))) :=
  ⟨oneBlockLog_committable, by decide,
    commit_crash_atomic oneBlockLog_committable _ (d := fun _ => Block.zero) (by decide) 2 .refl⟩

end Xv6
