/-
# Kernel.Blocks -- the block allocator of fs.c

fs.c reads and changes blocks through the buffer cache: every `bread` returns
the block as the cache and the log have it, a change to a buffer is a change
to that block, and `log_write` adds the buffer to the running transaction.
`Fs` is that view: the contents of every block, and the calls that leave a
trace (entering `balloc`, and `log_write` of a block) in order.  The buffer
cache's own bookkeeping is `Kernel.Bio`'s.

`balloc` scans the free bitmap for the first clear bit below `sb.size`, sets
it, zeroes the block and returns its number; it returns 0 when every bit is set.
`bfree` clears a block's bit and panics when it was already clear.
`balloc_cases` says everything a call of `balloc` can do and `bfree_of_used`
what `bfree` of a used block does, and `used_allocate`/`used_free` what they
do to the bitmap, so the layers above never unfold them.
-/
import Xv6.Kernel.Layout

namespace Xv6

open Bytes

set_option autoImplicit false

/-- A call below the inode layer that leaves a trace. -/
inductive FsCall where
  | balloc
  | logWrite (blockno : Nat)
  deriving DecidableEq, Repr

/-- The blocks as `bread` returns them, and the calls made so far. -/
structure Fs where
  disk : Disk
  calls : List FsCall

namespace Fs

/-- Change the buffer of block `b`, between its `bread` and its `brelse`. -/
def write (fs : Fs) (b : Nat) (blk : Block) : Fs := { fs with disk := Function.update fs.disk b blk }

/-- `log_write` of the buffer of block `b`. -/
def logWrite (fs : Fs) (b : Nat) : Fs := { fs with calls := fs.calls ++ [.logWrite b] }

@[simp] theorem write_disk (fs : Fs) (b : Nat) (blk : Block) :
    (fs.write b blk).disk = Function.update fs.disk b blk := rfl

@[simp] theorem write_calls (fs : Fs) (b : Nat) (blk : Block) : (fs.write b blk).calls = fs.calls := rfl

@[simp] theorem logWrite_disk (fs : Fs) (b : Nat) : (fs.logWrite b).disk = fs.disk := rfl

@[simp] theorem logWrite_calls (fs : Fs) (b : Nat) :
    (fs.logWrite b).calls = fs.calls ++ [.logWrite b] := rfl

end Fs

/-! ## fs.c: `bzero`, `balloc`, `bfree` -/

/-- The free-map bit of block `b`: bit `b % BPB` of block `BBLOCK(b)`. -/
def used (sb : Superblock) (disk : Disk) (b : Nat) : Bool := bit (disk (BBLOCK b sb)) (b % BPB)

/-- `bzero`: zero a block and log it. -/
def bzero (fs : Fs) (bno : Nat) : Fs := (fs.write bno Block.zero).logWrite bno

/-- `balloc`: allocate a zeroed block, or return 0 when the disk is full. -/
def balloc (sb : Superblock) (fs : Fs) : Nat × Fs :=
  let fs := { fs with calls := fs.calls ++ [.balloc] }
  -- the two loops visit `b + bi = 0, 1, ..., sb.size - 1` in order, testing bit
  -- `bi = (b + bi) % BPB` of block `BBLOCK(b, sb) = BBLOCK(b + bi, sb)`
  match (List.range sb.size).find? (fun b => !used sb fs.disk b) with
  | some b =>
      let bp := BBLOCK b sb
      (b, bzero ((fs.write bp (setBit (fs.disk bp) (b % BPB))).logWrite bp) b)
  | none => (0, fs)

/-- The blocks `balloc` reads: the bitmap block of each group of `BPB` bits
its outer loop reaches, then the block it hands out, which `bzero` reads. -/
def ballocReads (sb : Superblock) (disk : Disk) : List Nat :=
  match (List.range sb.size).find? (fun b => !used sb disk b) with
  | some b => (List.range (b / BPB + 1)).map (fun k => BBLOCK (k * BPB) sb) ++ [b]
  | none => (List.range ((sb.size + BPB - 1) / BPB)).map (fun k => BBLOCK (k * BPB) sb)

/-- `bfree`: clear a block's bit; the error is the kernel's panic. -/
def bfree (sb : Superblock) (fs : Fs) (b : Nat) : Except String Fs :=
  let bp := BBLOCK b sb
  if !bit (fs.disk bp) (b % BPB) then .error "freeing free block"
  else .ok ((fs.write bp (clearBit (fs.disk bp) (b % BPB))).logWrite bp)

/-! ## What the allocator does -/

variable {sb : Superblock}

/-- The disk after `balloc` takes block `b`: its bit set and the block zeroed. -/
def allocate (sb : Superblock) (disk : Disk) (b : Nat) : Disk :=
  Function.update (Function.update disk (BBLOCK b sb) (setBit (disk (BBLOCK b sb)) (b % BPB))) b
    Block.zero

/-- The disk after `bfree` of block `b`: its bit cleared. -/
def free (sb : Superblock) (disk : Disk) (b : Nat) : Disk :=
  Function.update disk (BBLOCK b sb) (clearBit (disk (BBLOCK b sb)) (b % BPB))

/-- Everything `balloc` can do: take the first free block below `sb.size`, or
find none free and return 0. -/
theorem balloc_cases (sb : Superblock) (fs : Fs) :
    (∃ b, b < sb.size ∧ used sb fs.disk b = false ∧ (∀ x, x < b → used sb fs.disk x = true) ∧
      balloc sb fs = (b, ⟨allocate sb fs.disk b,
        fs.calls ++ [.balloc, .logWrite (BBLOCK b sb), .logWrite b]⟩)) ∨
    ((∀ x, x < sb.size → used sb fs.disk x = true) ∧
      balloc sb fs = (0, ⟨fs.disk, fs.calls ++ [.balloc]⟩)) := by
  cases found : (List.range sb.size).find? (fun b => !used sb fs.disk b) with
  | none =>
      right
      refine ⟨fun x bound => ?_, by simp [balloc, found]⟩
      have := List.find?_eq_none.mp found x (List.mem_range.mpr bound)
      simpa using this
  | some b =>
      left
      obtain ⟨free, mem, earlier⟩ := List.find?_range_eq_some.mp found
      refine ⟨b, List.mem_range.mp mem, by simpa using free,
        fun x below => by simpa using earlier x below, ?_⟩
      simp [balloc, found, bzero, allocate, Fs.write, Fs.logWrite]

theorem bfree_of_used {fs : Fs} {b : Nat} (set : used sb fs.disk b = true) :
    bfree sb fs b = .ok ⟨free sb fs.disk b, fs.calls ++ [.logWrite (BBLOCK b sb)]⟩ := by
  unfold used at set
  simp [bfree, set, free, Fs.write, Fs.logWrite]

/-! ## The bitmap after a change -/

/-- Bits whose bitmap block is not written are unchanged. -/
theorem used_update_of_ne {disk : Disk} {c x : Nat} {blk : Block} (other : c ≠ BBLOCK x sb) :
    used sb (Function.update disk c blk) x = used sb disk x := by
  simp [used, Function.update_of_ne other.symm]

/-- Two blocks share a bit only when they are the same block. -/
private theorem same_bit {x b : Nat} (block : BBLOCK x sb = BBLOCK b sb) :
    x % BPB = b % BPB ↔ x = b := by
  unfold BBLOCK at block
  constructor
  · intro bit
    have quotient : x / BPB = b / BPB := by omega
    rw [← Nat.div_add_mod x BPB, ← Nat.div_add_mod b BPB, quotient, bit]
  · rintro rfl
    rfl

/-- Taking block `b` sets its bit and no other, unless the zeroed block is itself
the bitmap block of `x`. -/
theorem used_allocate {disk : Disk} {b : Nat} (x : Nat) (notMap : b ≠ BBLOCK x sb) :
    used sb (allocate sb disk b) x = (decide (x = b) || used sb disk x) := by
  unfold allocate
  rw [used_update_of_ne notMap]
  by_cases block : BBLOCK x sb = BBLOCK b sb
  · have fits : b % BPB / 8 < BSIZE := by
      rw [BPB_eq, BSIZE_eq]
      omega
    simp only [used, block, Function.update_self]
    rw [bit_setBit _ fits]
    -- the bit of `x` in the block of `b` is the bit of `b` exactly when `x = b`
    simp [same_bit block]
  · have differ : x ≠ b := fun same => block (by rw [same])
    rw [used_update_of_ne (Ne.symm block)]
    simp [differ]

/-- Freeing block `b` clears its bit and no other. -/
theorem used_free {disk : Disk} (b x : Nat) :
    used sb (free sb disk b) x = (decide (x ≠ b) && used sb disk x) := by
  unfold free
  by_cases block : BBLOCK x sb = BBLOCK b sb
  · simp only [used, block, Function.update_self]
    rw [bit_clearBit]
    simp [same_bit block]
  · have differ : x ≠ b := fun same => block (by rw [same])
    rw [used_update_of_ne (Ne.symm block)]
    simp [differ]

end Xv6
