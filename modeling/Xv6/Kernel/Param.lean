/-
# Kernel.Param -- the constants of param.h and fs.h, and the shape of a disk

A block is `BSIZE` bytes, and the disk maps block numbers to blocks.  Block
numbers are C `uint`s; they are `Nat` here, and the few places where a block
number passes through a narrower field (the log header's `int` array) carry the
`< 2 ^ 32` bound of the `uint` they came from.
-/
import Xv6.Theory.Bytes

namespace Xv6

set_option autoImplicit false

/-! ## param.h -/

/-- Maximum number of processes. -/
def NPROC : Nat := 64

/-- Maximum number of CPUs. -/
def NCPU : Nat := 8

/-- Open files per process. -/
def NOFILE : Nat := 16

/-- Open files per system. -/
def NFILE : Nat := 100

/-- Maximum number of active i-nodes. -/
def NINODE : Nat := 50

/-- Maximum major device number. -/
def NDEV : Nat := 10

/-- Maximum number of blocks any file-system operation writes. -/
def MAXOPBLOCKS : Nat := 10

/-- Maximum number of data blocks in the on-disk log. -/
def LOGSIZE : Nat := MAXOPBLOCKS * 3

/-- Number of buffers in the disk block cache. -/
def NBUF : Nat := MAXOPBLOCKS * 3

/-- Device number of the file system's root disk. -/
def ROOTDEV : Nat := 1

/-- Maximum number of `exec` arguments. -/
def MAXARG : Nat := 32

/-- Size of the file system in blocks. -/
def FSSIZE : Nat := 2000

/-- Maximum length of a file path name. -/
def MAXPATH : Nat := 128

/-- Pages of user stack. -/
def USERSTACK : Nat := 1

theorem LOGSIZE_eq : LOGSIZE = 30 := rfl

/-! ## fs.h -/

/-- Block size in bytes. -/
def BSIZE : Nat := 1024

theorem BSIZE_eq : BSIZE = 1024 := rfl

/-- The contents of one disk block. -/
abbrev Block := Fin BSIZE → UInt8

/-- The disk: a block for every block number. -/
abbrev Disk := Nat → Block

/-- The all-zero block. -/
def Block.zero : Block := fun _ => 0

theorem field_zero_block (o k : Nat) : Bytes.field Block.zero o k = 0 := Bytes.field_zero o k

end Xv6
