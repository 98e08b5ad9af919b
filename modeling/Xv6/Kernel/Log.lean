/-
# Kernel.Log -- log.c: the log header and the disk writes of commit and recovery

The log is a physical redo log: a header block at `log.start` holding the count
`n` and the home block numbers of a transaction, followed by `log.size - 1` log
blocks holding their copies.  `commit` copies the cached blocks into the log
(`writeLog`), writes the header (`writeHead`, the commit point), copies the log
into the home locations (`installTrans`) and clears the header; recovery reads
the header from disk and redoes the installation.

The code runs against the buffer cache: `bread` returns the cached copy of a
block and `bwrite` writes a cached copy through to the disk.  Its model is
`Writes.Io`: `mem` is what `bread` returns, and `out` lists the `bwrite`s in
order, which is all the disk ever sees.  The pins that `log_write` takes and
`install_trans(0)` drops belong to the cache (`Kernel.Bio`); the disk writes of
`install_trans` are the same with or without them.

The spec lemmas at the end give each function's writes in closed form, under
the bounds that `log_write` keeps (`Log.Committable`).
-/
import Xv6.Kernel.Param
import Xv6.Theory.Writes

namespace Xv6

open Bytes Writes

set_option autoImplicit false

/-! ## The log state -/

/-- `struct logheader`: the number of logged blocks and their home block numbers.
The count is the C `int` as a loop bound: a negative count read from disk runs
every `for (i = 0; i < n; i++)` zero times, exactly as `0` does. -/
structure LogHeader where
  n : Nat
  block : Nat → Nat

/-- `struct log`, without its spinlock and its `dev` (there is one disk). -/
structure Log where
  start : Nat
  size : Nat
  outstanding : Int
  committing : Bool
  lh : LogHeader

/-- The log as `initlog` leaves it before recovery: the zeroed global `log`
with `start` and `size` from the superblock. -/
def Log.init (start size : Nat) : Log :=
  { start, size, outstanding := 0, committing := false, lh := ⟨0, fun _ => 0⟩ }

/-- A block number lies outside the log region `[start, start + size)`. -/
def Log.Outside (lg : Log) (b : Nat) : Prop := b < lg.start ∨ lg.start + lg.size ≤ b

/-! ## The header block -/

/-- The header block after `write_head` copies `lh` into the cached block `hb`:
`hb->n = log.lh.n`, then `hb->block[i] = log.lh.block[i]` for `i < n`.  The
`int` fields hold the 32-bit patterns of the values stored. -/
def headBlock (lh : LogHeader) (hb : Block) : Block :=
  (List.range lh.n).foldl (fun hb i => setField hb (4 + 4 * i) 4 (lh.block i)) (setField hb 0 4 lh.n)

/-- `read_head`: the in-memory header after copying `n` and `block[0..n)` out of
the header block; the entries past `n` keep their old values. -/
def readHead (lh : LogHeader) (hb : Block) : LogHeader :=
  let n := (signed 4 (field hb 0 4)).toNat
  { n, block := fun i => if i < n then field hb (4 + 4 * i) 4 else lh.block i }

/-- The on-disk header records no transaction. -/
def HeadClear (hb : Block) : Prop := field hb 0 4 = 0

instance (hb : Block) : Decidable (HeadClear hb) := inferInstanceAs (Decidable (_ = _))

/-! ## log.c -/

/-- `write_head`: copy the in-memory header into the cached header block and write it. -/
def writeHead (lg : Log) (io : Io Nat Block) : Io Nat Block :=
  (io.store lg.start (headBlock lg.lh (io.mem lg.start))).write lg.start

/-- `write_log`: copy each logged block from the cache to its log slot
`log.start + tail + 1` and write the slot. -/
def writeLog (lg : Log) (io : Io Nat Block) : Io Nat Block :=
  io.copyEach (List.range lg.lh.n) lg.lh.block (fun tail => lg.start + tail + 1)

/-- `install_trans`: copy each log slot to its home block and write the home block. -/
def installTrans (lg : Log) (io : Io Nat Block) : Io Nat Block :=
  io.copyEach (List.range lg.lh.n) (fun tail => lg.start + tail + 1) lg.lh.block

/-- The log with its in-memory count reset: `log.lh.n = 0`. -/
def Log.clear (lg : Log) : Log := { lg with lh := { lg.lh with n := 0 } }

/-- `commit`: nothing when the transaction is empty; otherwise write the log, the
header (the commit point), install, and erase the transaction from the header. -/
def commit (lg : Log) (io : Io Nat Block) : Log × Io Nat Block :=
  if 0 < lg.lh.n then
    (lg.clear, writeHead lg.clear (installTrans lg (writeHead lg (writeLog lg io))))
  else (lg, io)

/-- `recover_from_log`: read the header, install what it records, clear it. -/
def recoverFromLog (lg : Log) (io : Io Nat Block) : Log × Io Nat Block :=
  let lg := { lg with lh := readHead lg.lh (io.mem lg.start) }
  (lg.clear, writeHead lg.clear (installTrans lg io))

/-! ## What commit and recovery write -/

/-- A transaction as `commit` receives it: the header that the `log_write` calls
built.  `log_write` admits a new block only while `n < LOGSIZE` and
`n < log.size - 1`, absorbs repeated block numbers, and its callers log blocks
of the file system proper, never of the log. -/
structure Log.Committable (lg : Log) : Prop where
  room : lg.lh.n < lg.size
  fits : lg.lh.n ≤ LOGSIZE
  distinct : ∀ i j, i < lg.lh.n → j < lg.lh.n → lg.lh.block i = lg.lh.block j → i = j
  outside : ∀ i, i < lg.lh.n → lg.Outside (lg.lh.block i)
  blockno_lt : ∀ i, i < lg.lh.n → lg.lh.block i < 2 ^ 32

/-- The log slot writes of a transaction, with the cached copies `mem` of its blocks. -/
def logWrites (lg : Log) (mem : Nat → Block) : List (Nat × Block) :=
  (List.range lg.lh.n).map fun i => (lg.start + i + 1, mem (lg.lh.block i))

/-- The home writes of a transaction: each logged block gets its cached copy. -/
def homeWrites (lg : Log) (mem : Nat → Block) : List (Nat × Block) :=
  (List.range lg.lh.n).map fun i => (lg.lh.block i, mem (lg.lh.block i))

@[simp] theorem Log.clear_start (lg : Log) : lg.clear.start = lg.start := rfl
@[simp] theorem Log.clear_size (lg : Log) : lg.clear.size = lg.size := rfl
@[simp] theorem Log.clear_n (lg : Log) : lg.clear.lh.n = 0 := rfl

theorem headBlock_zero (lh : LogHeader) (zero : lh.n = 0) (hb : Block) :
    headBlock lh hb = setField hb 0 4 0 := by
  rw [headBlock, zero]
  rfl

theorem writeHead_clear (lg : Log) (io : Io Nat Block) :
    writeHead lg.clear io = (io.store lg.start (setField (io.mem lg.start) 0 4 0)).write lg.start := by
  rw [writeHead, headBlock_zero _ (Log.clear_n lg), Log.clear_start]

theorem slot_ne_start (lg : Log) (i : Nat) : lg.start + i + 1 ≠ lg.start := by
  omega

section Committable

variable {lg : Log}

/-- Homes are outside the log, so no home is a header or a slot. -/
theorem Log.Committable.home_ne_slot (c : lg.Committable) {i j : Nat} (hi : i < lg.lh.n)
    (hj : j < lg.lh.n) : lg.lh.block i ≠ lg.start + j + 1 := by
  have out := c.outside i hi
  have room := c.room
  unfold Log.Outside at out
  omega

theorem Log.Committable.home_ne_start (c : lg.Committable) {i : Nat} (hi : i < lg.lh.n) :
    lg.lh.block i ≠ lg.start := by
  have out := c.outside i hi
  have := c.room
  unfold Log.Outside at out
  omega

theorem Log.Committable.homes_nodup (c : lg.Committable) (mem : Nat → Block) :
    ((homeWrites lg mem).map Prod.fst).Nodup := by
  simp only [homeWrites, List.map_map]
  apply List.Nodup.map_on _ List.nodup_range
  intro i hi j hj same
  exact c.distinct i j (List.mem_range.mp hi) (List.mem_range.mp hj) same

theorem slots_nodup (lg : Log) (mem : Nat → Block) : ((logWrites lg mem).map Prod.fst).Nodup := by
  simp only [logWrites, List.map_map]
  apply List.Nodup.map_on _ List.nodup_range
  intro i _ j _ same
  simpa using same

/-- `write_log` writes every slot with its block's cached copy. -/
theorem Log.Committable.writeLog_spec (c : lg.Committable) (io : Io Nat Block) :
    (writeLog lg io).out = io.out ++ logWrites lg io.mem ∧
      (writeLog lg io).mem = apply io.mem (logWrites lg io.mem) :=
  Io.copyEach_spec _ io fun _ hi _ hj =>
    (c.home_ne_slot (List.mem_range.mp hi) (List.mem_range.mp hj)).symm

/-- `install_trans` writes every home block with its slot's contents. -/
theorem Log.Committable.installTrans_spec (c : lg.Committable) (io : Io Nat Block) :
    (installTrans lg io).out =
        io.out ++ (List.range lg.lh.n).map (fun i => (lg.lh.block i, io.mem (lg.start + i + 1))) ∧
      (installTrans lg io).mem =
        apply io.mem ((List.range lg.lh.n).map fun i => (lg.lh.block i, io.mem (lg.start + i + 1))) :=
  Io.copyEach_spec _ io fun _ hi _ hj =>
    c.home_ne_slot (List.mem_range.mp hj) (List.mem_range.mp hi)

/-- What a non-empty commit writes, in order: the slots, the header, the homes,
the cleared header. -/
theorem Log.Committable.commit_out (c : lg.Committable) (nonempty : 0 < lg.lh.n) (mem : Nat → Block) :
    (commit lg ⟨mem, []⟩).2.out =
      logWrites lg mem ++ (lg.start, headBlock lg.lh (mem lg.start)) ::
        (homeWrites lg mem ++ [(lg.start, setField (headBlock lg.lh (mem lg.start)) 0 4 0)]) := by
  obtain ⟨logOut, logMem⟩ := c.writeLog_spec ⟨mem, []⟩
  -- after `write_log`, the header block still holds what the cache held
  have headKept : (writeLog lg ⟨mem, []⟩).mem lg.start = mem lg.start := by
    rw [logMem]
    apply apply_of_not_written
    intro w hw
    obtain ⟨i, -, rfl⟩ := List.mem_map.mp hw
    exact slot_ne_start lg i
  -- after `write_head`, each slot holds its block's cached copy
  have slots : ∀ i, i < lg.lh.n →
      (writeHead lg (writeLog lg ⟨mem, []⟩)).mem (lg.start + i + 1) = mem (lg.lh.block i) := by
    intro i hi
    simp only [writeHead, Io.write_mem, Io.store_mem]
    rw [Function.update_of_ne (slot_ne_start lg i), logMem]
    exact apply_of_mem (slots_nodup lg mem) (List.mem_map.mpr ⟨i, List.mem_range.mpr hi, rfl⟩)
  obtain ⟨installOut, installMem⟩ := c.installTrans_spec (writeHead lg (writeLog lg ⟨mem, []⟩))
  -- after `install_trans`, the header block still holds the committed header
  have headCommitted : (installTrans lg (writeHead lg (writeLog lg ⟨mem, []⟩))).mem lg.start =
      headBlock lg.lh (mem lg.start) := by
    rw [installMem, apply_of_not_written]
    · simp [writeHead, headKept]
    · intro w hw
      obtain ⟨i, hi, rfl⟩ := List.mem_map.mp hw
      exact c.home_ne_start (List.mem_range.mp hi)
  have homes : (List.range lg.lh.n).map (fun i => (lg.lh.block i,
      (writeHead lg (writeLog lg ⟨mem, []⟩)).mem (lg.start + i + 1))) = homeWrites lg mem :=
    List.map_congr_left fun i hi => by rw [slots i (List.mem_range.mp hi)]
  rw [commit, if_pos nonempty, writeHead_clear, Io.write_out, Io.store_out, Io.store_mem,
    Function.update_self, headCommitted, installOut, homes]
  simp only [writeHead, Io.write_out, Io.store_out, Io.store_mem, Function.update_self, headKept,
    logOut]
  simp only [List.nil_append, List.append_assoc, List.cons_append]

theorem commit_out_of_empty (lg : Log) (empty : lg.lh.n = 0) (io : Io Nat Block) :
    (commit lg io).2 = io := by
  simp [commit, empty]

end Committable

end Xv6
