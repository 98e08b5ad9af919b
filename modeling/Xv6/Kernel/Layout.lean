/-
# Kernel.Layout -- the on-disk format of fs.h

The disk is laid out as `[ boot | super | log | inode blocks | free bitmap | data ]`,
and the superblock records where each region starts.  Everything before the
data blocks is metadata; `Superblock.Valid` says that the inode blocks of every
inode number and the bitmap block of every block number lie there, and that
block 0 does too (so a data block number is never 0, the value `bmap` and
`balloc` return for failure).

An inode on disk is a `struct dinode`, 64 bytes at slot `inum % IPB` of block
`IBLOCK(inum)`.  `Dinode.read` is what `ilock` copies out of the slot and
`Dinode.write` what `iupdate` copies in: every value that fits its C field reads
back (`read_write_self`), and the other slots of the block are left alone
(`read_write_of_ne`).  `table` is the inode table as the disk holds it.
-/
import Xv6.Kernel.Param

namespace Xv6

open Bytes

set_option autoImplicit false

/-! ## The superblock -/

/-- The superblock, block 1 of the disk. -/
structure Superblock where
  magic : Nat
  /-- Size of the file system image in blocks. -/
  size : Nat
  /-- Number of data blocks. -/
  nblocks : Nat
  ninodes : Nat
  nlog : Nat
  logstart : Nat
  inodestart : Nat
  bmapstart : Nat
  deriving DecidableEq, Repr

/-- The first data block: every block below it is metadata. -/
def Superblock.dataStart (sb : Superblock) : Nat := sb.size - sb.nblocks

/-- The root directory's inode number. -/
def ROOTINO : Nat := 1

def NDIRECT : Nat := 12

/-- Block numbers held by the indirect block. -/
def NINDIRECT : Nat := BSIZE / 4

/-- Maximum file size in blocks. -/
def MAXFILE : Nat := NDIRECT + NINDIRECT

/-- `sizeof(struct dinode)`: four `short`s, the `uint` size and `NDIRECT + 1` addresses. -/
def DINODESIZE : Nat := 4 * 2 + 4 + 4 * (NDIRECT + 1)

/-- Inodes per block. -/
def IPB : Nat := BSIZE / DINODESIZE

/-- Block containing inode `i`. -/
def IBLOCK (i : Nat) (sb : Superblock) : Nat := i / IPB + sb.inodestart

/-- Bitmap bits per block. -/
def BPB : Nat := BSIZE * 8

/-- Block of the free map containing the bit for block `b`. -/
def BBLOCK (b : Nat) (sb : Superblock) : Nat := b / BPB + sb.bmapstart

theorem NDIRECT_eq : NDIRECT = 12 := rfl
theorem NINDIRECT_eq : NINDIRECT = 256 := rfl
theorem MAXFILE_eq : MAXFILE = 268 := rfl
theorem DINODESIZE_eq : DINODESIZE = 64 := rfl
theorem IPB_eq : IPB = 16 := rfl
theorem BPB_eq : BPB = 8192 := rfl

/-- A superblock whose regions are where the allocator and the inode code need
them: the inode blocks of every inode number lie before the bitmap, the bitmap
block of every block number and block 0 are metadata, and block numbers fit a
`uint`. -/
structure Superblock.Valid (sb : Superblock) : Prop where
  zero_meta : 0 < sb.dataStart
  dataStart_le : sb.dataStart ≤ sb.size
  size_lt : sb.size < 2 ^ 32
  inode_below : ∀ inum, inum < sb.ninodes → IBLOCK inum sb < sb.bmapstart
  bitmap_meta : ∀ b, b < sb.size → BBLOCK b sb < sb.dataStart

/-- The bitmap starts at `bmapstart`, after every inode block. -/
theorem bmapstart_le_BBLOCK (sb : Superblock) (b : Nat) : sb.bmapstart ≤ BBLOCK b sb :=
  Nat.le_add_left _ _

/-- Inode blocks are metadata. -/
theorem Superblock.Valid.inode_meta {sb : Superblock} (valid : sb.Valid) {inum : Nat}
    (bound : inum < sb.ninodes) : IBLOCK inum sb < sb.dataStart :=
  calc IBLOCK inum sb < sb.bmapstart := valid.inode_below inum bound
    _ ≤ BBLOCK 0 sb := bmapstart_le_BBLOCK sb 0
    _ < sb.dataStart := valid.bitmap_meta 0 (by have := valid.zero_meta; have := valid.dataStart_le; omega)

/-! ## On-disk inodes -/

/-- `struct dinode`: the fields `ilock` reads and `iupdate` writes. -/
structure Dinode where
  type : Int
  major : Int
  minor : Int
  nlink : Int
  size : Nat
  addrs : Fin (NDIRECT + 1) → Nat

/-- The addresses as the C array `addrs[NDIRECT+1]`, indexed by any number. -/
def Dinode.addrAt (d : Dinode) (k : Nat) : Nat := if h : k < NDIRECT + 1 then d.addrs ⟨k, h⟩ else 0

/-- The inode in slot `s` of a block. -/
def Dinode.read (blk : Block) (s : Nat) : Dinode :=
  let o := s * DINODESIZE
  { type := signed 2 (field blk o 2)
    major := signed 2 (field blk (o + 2) 2)
    minor := signed 2 (field blk (o + 4) 2)
    nlink := signed 2 (field blk (o + 6) 2)
    size := field blk (o + 8) 4
    addrs := fun k => field blk (o + 12 + 4 * k.val) 4 }

/-- Store the inode in slot `s` of a block, field by field as `iupdate` does. -/
def Dinode.write (d : Dinode) (blk : Block) (s : Nat) : Block :=
  let o := s * DINODESIZE
  let blk := setField blk o 2 (unsigned 2 d.type)
  let blk := setField blk (o + 2) 2 (unsigned 2 d.major)
  let blk := setField blk (o + 4) 2 (unsigned 2 d.minor)
  let blk := setField blk (o + 6) 2 (unsigned 2 d.nlink)
  let blk := setField blk (o + 8) 4 d.size
  setWords blk (o + 12) 4 (NDIRECT + 1) d.addrAt

/-- Every field holds a value of its C type: `short`s and `uint`s. -/
structure Dinode.Fits (d : Dinode) : Prop where
  type : -(2 ^ 16 : Int) ≤ 2 * d.type ∧ 2 * d.type < 2 ^ 16
  major : -(2 ^ 16 : Int) ≤ 2 * d.major ∧ 2 * d.major < 2 ^ 16
  minor : -(2 ^ 16 : Int) ≤ 2 * d.minor ∧ 2 * d.minor < 2 ^ 16
  nlink : -(2 ^ 16 : Int) ≤ 2 * d.nlink ∧ 2 * d.nlink < 2 ^ 16
  size : d.size < 2 ^ 32
  addrs : ∀ k, d.addrs k < 2 ^ 32

section Dinode

variable (d : Dinode) (blk : Block)

/-- The bytes of slot `s` lie inside the block. -/
private theorem slot_fits {s : Nat} (slot : s < IPB) : s * DINODESIZE + DINODESIZE ≤ BSIZE := by
  rw [IPB_eq] at slot
  rw [DINODESIZE_eq, BSIZE_eq]
  omega

/-- A short field of slot `s` reads back the short stored in it. -/
private theorem short_read_back {a : Block} {o : Nat} {v : Int} (fits : o + 2 ≤ BSIZE)
    (range : -(2 ^ 16 : Int) ≤ 2 * v ∧ 2 * v < 2 ^ 16) :
    signed 2 (field (setField a o 2 (unsigned 2 v)) o 2) = v := by
  have pattern : unsigned 2 v < 256 ^ 2 := by
    unfold unsigned
    omega
  rw [field_setField_self _ _ fits, Nat.mod_eq_of_lt pattern, signed_unsigned (by norm_num; omega)]

/-- `ilock` after `iupdate` of the same slot sees the inode that was stored. -/
theorem Dinode.read_write_self {s : Nat} (slot : s < IPB) (fits : d.Fits) : Dinode.read (d.write blk s) s = d := by
  have inside := slot_fits slot
  rw [DINODESIZE_eq, BSIZE_eq] at inside
  -- the address array lies past the other fields, which lie apart from each other
  have words : ∀ o' k', o' + k' ≤ s * DINODESIZE + 12 →
      field (d.write blk s) o' k' = field (setField (setField (setField (setField (setField blk
        (s * DINODESIZE) 2 (unsigned 2 d.type)) (s * DINODESIZE + 2) 2 (unsigned 2 d.major))
        (s * DINODESIZE + 4) 2 (unsigned 2 d.minor)) (s * DINODESIZE + 6) 2 (unsigned 2 d.nlink))
        (s * DINODESIZE + 8) 4 d.size) o' k' := fun o' k' below =>
    field_setWords_of_disjoint _ _ (.inl below)
  cases d with
  | mk type major minor nlink size addrs =>
    simp only [Dinode.read, Dinode.mk.injEq]
    rw [DINODESIZE_eq] at words ⊢
    refine ⟨?_, ?_, ?_, ?_, ?_, ?_⟩
    · rw [words _ _ (by omega), field_setField_of_disjoint _ _ (by omega),
        field_setField_of_disjoint _ _ (by omega), field_setField_of_disjoint _ _ (by omega),
        field_setField_of_disjoint _ _ (by omega)]
      exact short_read_back (by rw [BSIZE_eq]; omega) fits.type
    · rw [words _ _ (by omega), field_setField_of_disjoint _ _ (by omega),
        field_setField_of_disjoint _ _ (by omega), field_setField_of_disjoint _ _ (by omega)]
      exact short_read_back (by rw [BSIZE_eq]; omega) fits.major
    · rw [words _ _ (by omega), field_setField_of_disjoint _ _ (by omega),
        field_setField_of_disjoint _ _ (by omega)]
      exact short_read_back (by rw [BSIZE_eq]; omega) fits.minor
    · rw [words _ _ (by omega), field_setField_of_disjoint _ _ (by omega)]
      exact short_read_back (by rw [BSIZE_eq]; omega) fits.nlink
    · rw [words _ _ (by omega), field_setField_self _ _ (by rw [BSIZE_eq]; omega)]
      exact Nat.mod_eq_of_lt fits.size
    · funext k
      have word := field_setWords (setField (setField (setField (setField (setField blk
        (s * 64) 2 (unsigned 2 type)) (s * 64 + 2) 2 (unsigned 2 major)) (s * 64 + 4) 2
        (unsigned 2 minor)) (s * 64 + 6) 2 (unsigned 2 nlink)) (s * 64 + 8) 4 size)
        (Dinode.addrAt ⟨type, major, minor, nlink, size, addrs⟩) (o := s * 64 + 12) (w := 4)
        k.isLt (by rw [NDIRECT_eq, BSIZE_eq]; omega)
      have at_k : Dinode.addrAt ⟨type, major, minor, nlink, size, addrs⟩ k.val = addrs k := by
        simp [Dinode.addrAt, k.isLt]
      simp only [Dinode.write, DINODESIZE_eq] at word ⊢
      rw [word, at_k]
      exact Nat.mod_eq_of_lt (fits.addrs k)

/-- `iupdate` of one slot leaves every other slot's inode as it was. -/
theorem Dinode.read_write_of_ne {s s' : Nat} (differ : s ≠ s') : Dinode.read (d.write blk s) s' = Dinode.read blk s' := by
  -- the two slots' byte ranges are disjoint
  have apart : ∀ o k, s' * DINODESIZE ≤ o → o + k ≤ s' * DINODESIZE + DINODESIZE →
      field (d.write blk s) o k = field blk o k := by
    intro o k lo hi
    rw [DINODESIZE_eq] at lo hi
    have sep : s' * 64 + 64 ≤ s * 64 ∨ s * 64 + 64 ≤ s' * 64 := by
      rcases Nat.lt_or_gt_of_ne differ with h | h
      · right; nlinarith
      · left; nlinarith
    simp only [Dinode.write, DINODESIZE_eq]
    rw [field_setWords_of_disjoint _ _ (by rw [NDIRECT_eq]; omega),
      field_setField_of_disjoint _ _ (by omega), field_setField_of_disjoint _ _ (by omega),
      field_setField_of_disjoint _ _ (by omega), field_setField_of_disjoint _ _ (by omega),
      field_setField_of_disjoint _ _ (by omega)]
  simp only [Dinode.read]
  rw [apart _ _ (by omega) (by rw [DINODESIZE_eq]; omega), apart _ _ (by omega) (by rw [DINODESIZE_eq]; omega),
    apart _ _ (by omega) (by rw [DINODESIZE_eq]; omega), apart _ _ (by omega) (by rw [DINODESIZE_eq]; omega),
    apart _ _ (by omega) (by rw [DINODESIZE_eq]; omega)]
  congr
  funext k
  have bound : k.val < 13 := k.isLt
  exact apart _ _ (by omega) (by rw [DINODESIZE_eq]; omega)

/-- Every value `ilock` reads fits its C field. -/
theorem Dinode.read_fits (s : Nat) : (Dinode.read blk s).Fits := by
  have short : ∀ o, -(2 ^ 16 : Int) ≤ 2 * signed 2 (field blk o 2) ∧ 2 * signed 2 (field blk o 2) < 2 ^ 16 := by
    intro o
    have bound := field_lt blk o 2
    unfold signed
    split <;> omega
  refine ⟨short _, short _, short _, short _, ?_, fun k => ?_⟩
  · show field blk _ 4 < 2 ^ 32
    exact (field_lt blk _ 4).trans_eq (by norm_num)
  · show field blk _ 4 < 2 ^ 32
    exact (field_lt blk _ 4).trans_eq (by norm_num)

end Dinode

/-- The inode table as the disk holds it: inode `inum` from its slot of `IBLOCK(inum)`. -/
def table (sb : Superblock) (disk : Disk) (inum : Nat) : Dinode :=
  Dinode.read (disk (IBLOCK inum sb)) (inum % IPB)

end Xv6
