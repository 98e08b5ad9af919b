/-
# Mkfs.Image -- mkfs.c, the program that writes the disk image

mkfs builds the image the kernel boots from.  It writes the superblock, then the
root directory with `.` and `..`.  For each input file it writes an inode, one
entry in the root and the file's bytes.  Last it writes the bitmap of the blocks
it used.  It hands out inodes and blocks by bumping two counters: `freeinode`
from 1, and `freeblock` from the first data block.  It writes and reads whole
blocks of the image file with `wsect` and `rsect`.

The image file has a length in blocks.  `wsect` past the end makes it longer.
`rsect` past the end gets a short `read`, and mkfs dies.  `xint` and `xshort`
put values in the RISC-V byte order, which is the order `Bytes.setField`
stores them in, so they do not appear here.  A failed `assert` and `die` end
mkfs: `Except.error`.  The input files are given by their paths, as C strings
without their NUL, and the bytes `read` returns from them; `open` on them
succeeds.
-/
import Xv6.Kernel.ReadWrite
import Xv6.Kernel.Transactions

namespace Xv6.Mkfs

open Bytes

set_option autoImplicit false

/-! ## The layout mkfs chooses -/

def NINODES : Nat := 200

/-- fs.h: the superblock's magic number. -/
def FSMAGIC : Nat := 0x10203040

def nbitmap : Nat := FSSIZE / BPB + 1

def ninodeblocks : Nat := NINODES / IPB + 1

def nlog : Nat := LOGSIZE

/-- Number of meta blocks: boot block, superblock, log, inode blocks, bitmap. -/
def nmeta : Nat := 2 + nlog + ninodeblocks + nbitmap

/-- Number of data blocks. -/
def nblocks : Nat := FSSIZE - nmeta

theorem nmeta_eq : nmeta = 46 := rfl

/-- The superblock mkfs writes to block 1. -/
def sb : Superblock :=
  { magic := FSMAGIC, size := FSSIZE, nblocks := nblocks, ninodes := NINODES, nlog := nlog,
    logstart := 2, inodestart := 2 + nlog, bmapstart := 2 + nlog + ninodeblocks }

/-- Block 1: a zeroed buffer with the superblock's eight `uint`s at its start. -/
def superBlock : Block :=
  setWords Block.zero 0 4 8 fun i =>
    [sb.magic, sb.size, sb.nblocks, sb.ninodes, sb.nlog, sb.logstart, sb.inodestart, sb.bmapstart].getD i 0

/-! ## Blocks and inodes of the image file -/

/-- What mkfs keeps: the image file as blocks, its length in blocks, and the
next inode and block to hand out. -/
structure State where
  disk : Disk
  len : Nat
  freeinode : Nat
  freeblock : Nat

/-- `wsect`: write a whole block; a write past the end makes the file longer. -/
def wsect (s : State) (sec : Nat) (buf : Block) : State :=
  { s with disk := Function.update s.disk sec buf, len := max s.len (sec + 1) }

/-- `rsect`: read a whole block; past the end of the file `read` comes back
short and mkfs dies. -/
def rsect (s : State) (sec : Nat) : Except String Block :=
  if sec < s.len then .ok (s.disk sec) else .error "read"

/-- `winode`: store an inode in its slot of its block. -/
def winode (s : State) (inum : Nat) (din : Dinode) : Except String State := do
  let bn := IBLOCK inum sb
  let buf ← rsect s bn
  pure (wsect s bn (din.write buf (inum % IPB)))

/-- `rinode`: the inode in its slot of its block. -/
def rinode (s : State) (inum : Nat) : Except String Dinode := do
  let buf ← rsect s (IBLOCK inum sb)
  pure (Dinode.read buf (inum % IPB))

/-- The inode `ialloc` writes: zeroed, then its type and one link. -/
def freshDinode (type : Int) : Dinode :=
  { type, major := 0, minor := 0, nlink := 1, size := 0, addrs := fun _ => 0 }

/-- `ialloc`: the next inode number, written as a fresh inode of type `type`.
The number is never compared with `NINODES`. -/
def ialloc (s : State) (type : Int) : Except String (Nat × State) := do
  let inum := s.freeinode
  let s ← winode { s with freeinode := inum + 1 } inum (freshDinode type)
  pure (inum, s)

/-- `balloc`: the bitmap block with the first `used` bits set. -/
def balloc (s : State) (used : Nat) : Except String State :=
  if used < BPB then .ok (wsect s sb.bmapstart ((List.range used).foldl setBit Block.zero))
  else .error "assert used < BPB"

/-- The block that holds file block `fbn`: a new one from `freeblock` for an
empty direct address; for the indirect block and for an empty entry of it, a
new one too, the entry written back to the indirect block. -/
def fileBlock (s : State) (din : Dinode) (fbn : Nat) : Except String (Nat × Dinode × State) :=
  if h : fbn < NDIRECT then
    let k : Fin (NDIRECT + 1) := Fin.castSucc ⟨fbn, h⟩
    if din.addrs k = 0 then
      .ok (s.freeblock, { din with addrs := Function.update din.addrs k s.freeblock },
        { s with freeblock := s.freeblock + 1 })
    else .ok (din.addrs k, din, s)
  else do
    let (din, s) :=
      if din.addrs indirect = 0 then
        ({ din with addrs := Function.update din.addrs indirect s.freeblock },
          { s with freeblock := s.freeblock + 1 })
      else (din, s)
    let ind := din.addrs indirect
    let buf ← rsect s ind
    let j := fbn - NDIRECT
    if field buf (4 * j) 4 = 0 then
      let s' := wsect { s with freeblock := s.freeblock + 1 } ind (setField buf (4 * j) 4 s.freeblock)
      pure (s.freeblock, din, s')
    else pure (field buf (4 * j) 4, din, s)

/-- The loop of `iappend`: the inode as updated so far, the offset reached and
the bytes still to append.  Each pass copies at least one byte, so the number
of bytes is fuel enough. -/
def appendLoop : (fuel : Nat) → Dinode → (off : Nat) → List UInt8 → State →
    Except String (Dinode × Nat × State)
  | 0, din, off, _, s => .ok (din, off, s)
  | fuel + 1, din, off, p, s =>
      if p.length = 0 then .ok (din, off, s)
      else if off / BSIZE < MAXFILE then do
        let fbn := off / BSIZE
        let (x, din, s) ← fileBlock s din fbn
        let n1 := min p.length ((fbn + 1) * BSIZE - off)
        let buf ← rsect s x
        let s := wsect s x (copyInto buf (off - fbn * BSIZE) (p.take n1))
        appendLoop fuel din (off + n1) (p.drop n1) s
      else .error "assert fbn < MAXFILE"

/-- `iappend`: write the bytes `p` at the end of inode `inum`. -/
def iappend (s : State) (inum : Nat) (p : List UInt8) : Except String State := do
  let din ← rinode s inum
  let (din, off, s) ← appendLoop p.length din din.size p s
  winode s inum { din with size := off }

/-! ## main -/

def DIRSIZ : Nat := 14

/-- A `struct dirent` as mkfs fills it: the inode number as a `ushort`, then
the name cut or padded with zeros to `DIRSIZ` bytes, as `strncpy` leaves it. -/
def dirent (inum : Nat) (name : List UInt8) : List UInt8 :=
  [(inum % 256).toUInt8, (inum / 256 % 256).toUInt8] ++
    (name.take DIRSIZ ++ List.replicate (DIRSIZ - name.length) 0)

/-- An input file: its path and the bytes `read` returns from it. -/
structure InFile where
  path : List UInt8
  contents : List UInt8

/-- The path without a leading `user/`. -/
def shortName (path : List UInt8) : List UInt8 :=
  -- "user/"
  if path.take 5 = [117, 115, 101, 114, 47] then path.drop 5 else path

/-- The name mkfs records: the short name without a leading `_`. -/
def skipUnderscore (shortname : List UInt8) : List UInt8 :=
  -- "_"
  if shortname.head? = some 95 then shortname.drop 1 else shortname

/-- `while((cc = read(fd, buf, sizeof(buf))) > 0) iappend(inum, buf, cc);`. -/
def appendFile (inum : Nat) (s : State) (contents : List UInt8) : Except String State :=
  match contents with
  | [] => .ok s
  | b :: bs => do
      let s ← iappend s inum ((b :: bs).take BSIZE)
      appendFile inum s ((b :: bs).drop BSIZE)
termination_by contents.length
decreasing_by simp only [List.length_drop, List.length_cons, BSIZE_eq]; omega

/-- One input file: its inode, its entry in the root, its bytes. -/
def addFile (rootino : Nat) (s : State) (f : InFile) : Except String State := do
  let shortname := shortName f.path
  -- "/"
  if 47 ∈ shortname then throw "assert index(shortname, '/') == 0"
  let shortname := skipUnderscore shortname
  if DIRSIZ < shortname.length then throw "assert strlen(shortname) <= DIRSIZ"
  let (inum, s) ← ialloc s T_FILE
  let s ← iappend s rootino (dirent inum shortname)
  appendFile inum s f.contents

/-- `main`, from the image file's creation to the bitmap. -/
def mkfs (files : List InFile) : Except String State := do
  -- `open(argv[1], O_RDWR|O_CREAT|O_TRUNC, 0666)`: an empty image file
  let s : State := { disk := fun _ => Block.zero, len := 0, freeinode := 1, freeblock := nmeta }
  let s := (List.range FSSIZE).foldl (fun s i => wsect s i Block.zero) s
  let s := wsect s 1 superBlock
  let (rootino, s) ← ialloc s T_DIR
  if rootino ≠ ROOTINO then throw "assert rootino == ROOTINO"
  -- "." and ".."
  let s ← iappend s rootino (dirent rootino [46])
  let s ← iappend s rootino (dirent rootino [46, 46])
  let s ← files.foldlM (addFile rootino) s
  -- fix size of root inode dir
  let din ← rinode s rootino
  let off := (din.size / BSIZE + 1) * BSIZE
  let s ← winode s rootino { din with size := off }
  balloc s s.freeblock

end Xv6.Mkfs
