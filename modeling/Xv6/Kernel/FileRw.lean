/-
# Kernel.FileRw -- `fileread` and `filewrite` of an inode file

`sys_read(fd, p, n)` passes the `int n` from `argint` on to `fileread`, and
for an `FD_INODE` file `fileread` locks the inode and calls
`readi(f->ip, 1, p, f->off, n)`, whose `n` is a `uint`: the `int` is taken
modulo `2 ^ 32`.  `readi` refuses a range only when it starts past the end or
when `off + n` runs past `2 ^ 32`, and otherwise clamps it to the size.  A
negative `n` at a small offset is therefore a huge `uint` that neither wraps
nor fits, and is clamped to the rest of the file: `fileread_minus_one` says
that `read(fd, p, -1)` at offset 0 reads the whole file, stores every byte of
it at `p` and moves the offset past it.

`filewrite` cuts a write into chunks of at most `maxChunk` bytes, one
transaction each, and advances `f->off` by what each `writei` returns.  A
chunk whose source copy fails part-way returns fewer bytes than the copy
moved into the file (`writei_of_failed_copy`), so the offset stops short of
the bytes the file now holds: `filewrite_failed_chunk`.
-/
import Xv6.Kernel.FileSystem

namespace Xv6

open Bytes

set_option autoImplicit false

/-! ## file.c: `fileread` of an `FD_INODE` file -/

/-- `fileread(f, addr, n)` for an `FD_INODE` file with offset `off`: the count
`readi` returns, the offset advanced by it when positive, and the state
after.  `readi`'s `uint n` is the bit pattern of the `int n`. -/
def fileread (sb : Superblock) (fs : Fs) (ip : Inode) (m : Mem) (readable : Bool) (off : UInt32)
    (addr : Nat) (n : Int) : Except String (Int × UInt32 × Fs × Inode × Mem) :=
  if readable = false then .ok (-1, off, fs, ip, m)
  else
    match ilock sb fs.disk ip with
    | .error e => .error e
    | .ok ip =>
        match readi sb fs ip m true addr off (UInt32.ofNat (unsigned 4 n)) with
        | .error e => .error e
        | .ok (r, fs, ip, m) => .ok (r, if r > 0 then off + UInt32.ofNat r.toNat else off, fs, ip, m)

/-! ## file.c: `filewrite` of an `FD_INODE` file -/

/-- The most bytes one transaction of `filewrite` writes. -/
def maxChunk : Nat := ((MAXOPBLOCKS - 1 - 1 - 2) / 2) * BSIZE

/-- `filewrite`'s loop: `i` bytes written so far and the file's offset `off`.
Each pass is one transaction that writes `n1 = min(n - i, max)` bytes from
`addr + i` at `off`, and the loop stops at the first pass that writes fewer. -/
def filewriteLoop (sb : Superblock) (m : Mem) (addr n : Nat) :
    (fuel i : Nat) → UInt32 → Fs → Inode → Except String (Nat × UInt32 × Fs × Inode)
  | 0, i, off, fs, ip => .ok (i, off, fs, ip)
  | fuel + 1, i, off, fs, ip =>
      if i < n then
        let n1 := min (n - i) maxChunk
        match ilock sb fs.disk ip with
        | .error e => .error e
        | .ok ip =>
            match writei sb fs ip m true (addr + i) off (UInt32.ofNat n1) with
            | .error e => .error e
            | .ok (r, fs, ip) =>
                let off := if r > 0 then off + UInt32.ofNat r.toNat else off
                if r ≠ n1 then .ok (i, off, fs, ip)
                else filewriteLoop sb m addr n fuel (i + r.toNat) off fs ip
      else .ok (i, off, fs, ip)

/-- `filewrite(f, addr, n)` for an `FD_INODE` file with offset `off`: `n` when
every chunk was written, else -1, and the offset and state after.  Each chunk
writes at least one byte, so `n` passes are enough. -/
def filewrite (sb : Superblock) (fs : Fs) (ip : Inode) (m : Mem) (writable : Bool) (off : UInt32)
    (addr : Nat) (n : Int) : Except String (Int × UInt32 × Fs × Inode) :=
  if writable = false then .ok (-1, off, fs, ip)
  else
    match filewriteLoop sb m addr n.toNat n.toNat 0 off fs ip with
    | .error e => .error e
    | .ok (i, off, fs, ip) => .ok (if (i : Int) = n then n else -1, off, fs, ip)

/-! ## A negative count reads the whole file -/

/-- The `uint` that `readi` gets for the `int` -1. -/
theorem unsigned_minus_one : (UInt32.ofNat (unsigned 4 (-1))).toNat = 2 ^ 32 - 1 := by
  decide

variable {sb : Superblock}

/-- `read(fd, p, -1)` on an inode file at offset 0 that `ilock` finds loaded,
without holes and not empty: `readi` gets `2 ^ 32 - 1`, clamps it to the
size, and the call stores the whole file at `p`, returns its size and moves
the offset past it. -/
theorem fileread_minus_one {fs : Fs} {ip : Inode} {m : Mem} {addr : Nat} (loaded : ip.valid = true)
    (noHoles : NoHoles fs.disk ip.toDinode) (small : ip.size ≤ MAXFILE * BSIZE) (nonempty : 0 < ip.size)
    (writable : m.vm.Writable addr ip.size) :
    fileread sb fs ip m true 0 addr (-1) =
      .ok (ip.size, UInt32.ofNat ip.size, fs, ip, m.store true addr (fileBytes fs.disk ip.toDinode 0 ip.size)) := by
  have fits : ip.size < 2 ^ 32 - 1 := by
    rw [MAXFILE_eq, BSIZE_eq] at small
    omega
  -- from offset 0 the range `[0, 2 ^ 32 - 1)` does not wrap, and ends past the size
  have clamped : min ((0 : UInt32).toNat + (UInt32.ofNat (unsigned 4 (-1))).toNat) ip.size - (0 : UInt32).toNat =
      ip.size := by
    rw [unsigned_minus_one, UInt32.toNat_zero]
    omega
  obtain ⟨r, m', read, result, full⟩ := @readi_of_noHoles sb fs ip m true addr 0 (UInt32.ofNat (unsigned 4 (-1)))
    noHoles small (Nat.zero_le _) (by rw [unsigned_minus_one, UInt32.toNat_zero]; omega)
  rw [clamped] at result full
  rw [UInt32.toNat_zero] at result
  have counted : r = ip.size := full fun _ => writable
  rcases result with ⟨-, stored⟩ | failed
  · subst counted stored
    have advanced : (0 : UInt32) + UInt32.ofNat (ip.size : Int).toNat = UInt32.ofNat ip.size := by
      rw [Int.toNat_natCast, UInt32.zero_add]
    simp only [fileread, Bool.true_eq_false, if_false, ilock, loaded, if_true, read, gt_iff_lt,
      Int.natCast_pos.mpr nonempty, advanced]
  · rw [failed] at counted
    omega

/-- The one-block file has its block. -/
theorem oneBlockDisk_noHoles : NoHoles oneBlockDisk (table bootSb oneBlockDisk 1) := by
  have size : (table bootSb oneBlockDisk 1).size = BSIZE := by decide
  intro bn below
  rw [size, BSIZE_eq] at below
  obtain rfl : bn = 0 := by omega
  decide

/-- The first page of `edgeMem` takes a 1024-byte copy to address 0. -/
theorem edgeMem_writable : edgeMem.vm.Writable 0 1024 := fun x _ below => by
  have first : PGROUNDDOWN x = 0 := by
    unfold PGROUNDDOWN PGSIZE
    omega
  simp [edgeMem, first]

/-- `read(fd, 0, -1)` at offset 0 of the one-block file stores all 1024
bytes at address 0, returns 1024 and moves the offset to 1024. -/
theorem fileread_minus_one_oneBlock :
    fileread bootSb ⟨oneBlockDisk, []⟩ (loaded bootSb oneBlockDisk 1 1) edgeMem true 0 0 (-1) =
      .ok (1024, 1024, ⟨oneBlockDisk, []⟩, loaded bootSb oneBlockDisk 1 1,
        edgeMem.store true 0 (fileBytes oneBlockDisk (table bootSb oneBlockDisk 1) 0 1024)) := by
  have size : (loaded bootSb oneBlockDisk 1 1).size = 1024 := by decide
  have read := @fileread_minus_one bootSb ⟨oneBlockDisk, []⟩ (loaded bootSb oneBlockDisk 1 1) edgeMem 0
    (by decide) oneBlockDisk_noHoles
    (by rw [size, MAXFILE_eq, BSIZE_eq]; decide) (by rw [size]; decide) (by rw [size]; exact edgeMem_writable)
  rw [size] at read
  exact read

/-! ## A failed chunk leaves more in the file than the offset says -/

/-- `write(fd, 4095, 2)` at offset 0 of the one-block file, with only the
page below 4096 mapped: the one chunk's copy moves the byte at 4095 into the
file and fails at 4096, so `writei` returns 0.  `filewrite` returns -1 and
leaves the offset at 0, yet the file's first byte, 0 before, is now the 9
from address 4095. -/
theorem filewrite_failed_chunk :
    ∃ fs', filewrite bootSb ⟨oneBlockDisk, []⟩ (loaded bootSb oneBlockDisk 1 1) edgeMem true 0 4095 2 =
        .ok (-1, 0, fs', loaded bootSb oneBlockDisk 1 1) ∧
      fileBytes fs'.disk (table bootSb oneBlockDisk 1) 0 1 = [9] ∧
      fileBytes oneBlockDisk (table bootSb oneBlockDisk 1) 0 1 = [0] := by
  obtain ⟨fs', wrote, landed⟩ := edgeWrite_lands
  -- one chunk of 2 bytes: `writei` returns 0, and the loop stops there
  have loop : filewriteLoop bootSb edgeMem 4095 2 2 0 0 ⟨oneBlockDisk, []⟩ (loaded bootSb oneBlockDisk 1 1) =
      .ok (0, 0, fs', loaded bootSb oneBlockDisk 1 1) := by
    have chunk : UInt32.ofNat (min (2 - 0) maxChunk) = 2 := by decide
    rw [filewriteLoop, if_pos (by decide)]
    simp only [ilock, show (loaded bootSb oneBlockDisk 1 1).valid = true from rfl, if_true, Nat.add_zero, chunk,
      wrote]
    rw [if_pos (by decide), if_neg (by decide)]
  refine ⟨fs', ?_, landed, by decide⟩
  simp only [filewrite, Bool.true_eq_false, if_false, show (2 : Int).toNat = 2 from rfl, loop]
  rw [if_neg (by decide)]

/-! ## A write of one chunk -/

/-- A write of at most one chunk that `writei` completes: `filewrite` returns
the count and moves the offset past it. -/
theorem filewrite_of_writei {fs fs' : Fs} {ip ip' : Inode} {m : Mem} {off : UInt32} {addr n : Nat}
    (loaded : ip.valid = true) (pos : 0 < n) (oneChunk : n ≤ maxChunk)
    (wrote : writei sb fs ip m true addr off (UInt32.ofNat n) = .ok (n, fs', ip')) :
    filewrite sb fs ip m true off addr n = .ok (n, off + UInt32.ofNat n, fs', ip') := by
  obtain ⟨k, rfl⟩ : ∃ k, n = k + 1 := ⟨n - 1, by omega⟩
  -- one pass writes the whole count, and the next finds nothing left
  have pass : filewriteLoop sb m addr (k + 1) (k + 1) 0 off fs ip = .ok (k + 1, off + UInt32.ofNat (k + 1), fs', ip') := by
    rw [filewriteLoop, if_pos (by omega), Nat.sub_zero, Nat.min_eq_left oneChunk]
    simp only [ilock, loaded, if_true, Nat.add_zero, wrote]
    rw [if_neg (not_not.mpr rfl), if_pos (by omega), Int.toNat_natCast, Nat.zero_add]
    cases k with
    | zero => rfl
    | succ k => rw [filewriteLoop, if_neg (by simp)]
  simp only [filewrite, Bool.true_eq_false, if_false, Int.toNat_natCast, pass, if_true]

end Xv6
