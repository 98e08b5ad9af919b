/-
# Kernel.Inode -- inodes and their block maps

The in-memory `struct inode` keeps a copy of its on-disk inode; every change
to that copy is followed by `iupdate`, which writes it back to its slot.  The
content of an inode is the sequence of blocks `bmap` finds for its block
indices: the first `NDIRECT` in `addrs`, the next `NINDIRECT` in the indirect
block `addrs[NDIRECT]`.  `bmap` allocates a block (and the indirect block)
on the first use of an index; `itrunc` frees them all.

`allocAddr` is the step both branches of `bmap` start with: take `addrs[k]`,
allocating a block for it when it is 0.  `blockAddr` is `bmap` without
allocation, the block an index is stored in, 0 for none; `bmap_of_mapped`
says `bmap` returns it and changes nothing once it is not 0.
-/
import Xv6.Kernel.Blocks

namespace Xv6

open Bytes

set_option autoImplicit false

/-- `struct inode`, without its sleep lock. -/
structure Inode extends Dinode where
  dev : Nat
  inum : Nat
  ref : Nat
  valid : Bool

/-- `ip->addrs[k] = addr`. -/
def Inode.setAddr (ip : Inode) (k : Fin (NDIRECT + 1)) (addr : Nat) : Inode :=
  { ip with addrs := Function.update ip.addrs k addr }

/-- The index of the indirect block in `addrs`. -/
def indirect : Fin (NDIRECT + 1) := Fin.last NDIRECT

/-! ## fs.c: `iupdate`, `bmap`, `itrunc`, `iput`, `ialloc` -/

/-- `iupdate`: copy the in-memory inode to its slot on disk. -/
def iupdate (sb : Superblock) (fs : Fs) (ip : Inode) : Fs :=
  let bp := IBLOCK ip.inum sb
  (fs.write bp (ip.toDinode.write (fs.disk bp) (ip.inum % IPB))).logWrite bp

/-- The address in `addrs[k]`, allocating a block for it when it is 0; the
address is 0 when the disk is full. -/
def allocAddr (sb : Superblock) (fs : Fs) (ip : Inode) (k : Fin (NDIRECT + 1)) : Nat × Fs × Inode :=
  let addr := ip.addrs k
  if addr = 0 then
    let (addr, fs) := balloc sb fs
    (addr, fs, if addr = 0 then ip else ip.setAddr k addr)
  else (addr, fs, ip)

/-- `bmap`: the disk block of block `bn` of the inode, allocating it if there is
none; 0 when the disk is full.  The error is the kernel's panic, or the wait
for ever of a `bread` inside `balloc` on the indirect block that `bp` holds. -/
def bmap (sb : Superblock) (fs : Fs) (ip : Inode) (bn : Nat) : Except String (Nat × Fs × Inode) :=
  if h : bn < NDIRECT then .ok (allocAddr sb fs ip ⟨bn, by omega⟩)
  else if bn - NDIRECT < NINDIRECT then
    let i := bn - NDIRECT
    -- load the indirect block, allocating if necessary
    let (ind, fs, ip) := allocAddr sb fs ip indirect
    if ind = 0 then .ok (0, fs, ip)
    else
      let addr := field (fs.disk ind) (4 * i) 4
      if addr = 0 then
        -- `bp = bread(ip->dev, addr)` still holds the indirect block across `balloc`,
        -- and a `bread` of it there sleeps on the sleep-lock `bp` holds
        if (ballocReads sb fs.disk).contains ind then .error "bmap: deadlock on the indirect block"
        else
          let (addr, fs) := balloc sb fs
          if addr = 0 then .ok (0, fs, ip)
          else .ok (addr, (fs.write ind (setField (fs.disk ind) (4 * i) 4 addr)).logWrite ind, ip)
      else .ok (addr, fs, ip)
  else .error "bmap: out of range"

/-- The direct loop of `itrunc`: free each direct block and clear its address. -/
def freeDirect (sb : Superblock) (fs : Fs) (ip : Inode) : List (Fin (NDIRECT + 1)) → Except String (Fs × Inode)
  | [] => .ok (fs, ip)
  | k :: ks =>
      if ip.addrs k = 0 then freeDirect sb fs ip ks
      else
        match bfree sb fs (ip.addrs k) with
        | .ok fs => freeDirect sb fs (ip.setAddr k 0) ks
        | .error e => .error e

/-- The loop over the indirect block in `itrunc`: free every block it lists. -/
def freeIndirect (sb : Superblock) (ind : Nat) (fs : Fs) : List Nat → Except String Fs
  | [] => .ok fs
  | j :: js =>
      let addr := field (fs.disk ind) (4 * j) 4
      if addr = 0 then freeIndirect sb ind fs js
      else
        match bfree sb fs addr with
        | .ok fs => freeIndirect sb ind fs js
        | .error e => .error e

/-- The direct addresses, as the loop `for(i = 0; i < NDIRECT; i++)` visits them. -/
def directs : List (Fin (NDIRECT + 1)) := (List.finRange NDIRECT).map Fin.castSucc

/-- `itrunc`: free the inode's blocks and write it back empty. -/
def itrunc (sb : Superblock) (fs : Fs) (ip : Inode) : Except String (Fs × Inode) :=
  match freeDirect sb fs ip directs with
  | .error e => .error e
  | .ok (fs, ip) =>
      let ind := ip.addrs indirect
      let freed : Except String (Fs × Inode) :=
        if ind = 0 then .ok (fs, ip)
        else
          match freeIndirect sb ind fs (List.range NINDIRECT) with
          | .error e => .error e
          | .ok fs =>
              match bfree sb fs ind with
              | .error e => .error e
              | .ok fs => .ok (fs, ip.setAddr indirect 0)
      match freed with
      | .error e => .error e
      | .ok (fs, ip) =>
          let ip := { ip with size := 0 }
          .ok (iupdate sb fs ip, ip)

/-- `iput`: drop a reference; the last reference to an inode with no links
truncates and frees it. -/
def iput (sb : Superblock) (fs : Fs) (ip : Inode) : Except String (Fs × Inode) :=
  if ip.ref = 1 ∧ ip.valid ∧ ip.nlink = 0 then
    match itrunc sb fs ip with
    | .error e => .error e
    | .ok (fs, ip) =>
        let ip := { ip with type := 0 }
        .ok (iupdate sb fs ip, { ip with valid := false, ref := ip.ref - 1 })
  else .ok (fs, { ip with ref := ip.ref - 1 })

/-- The on-disk inode `ialloc` writes: all zero but its type. -/
def Dinode.fresh (type : Int) : Dinode :=
  { type, major := 0, minor := 0, nlink := 0, size := 0, addrs := fun _ => 0 }

/-- `ialloc`: mark the first free inode from 1 on allocated with type `type`,
and return its number; `none` when there is no free inode. -/
def ialloc (sb : Superblock) (fs : Fs) (type : Int) : Fs × Option Nat :=
  match (List.range' 1 (sb.ninodes - 1)).find? (fun inum => (table sb fs.disk inum).type = 0) with
  | some inum =>
      let bp := IBLOCK inum sb
      ((fs.write bp ((Dinode.fresh type).write (fs.disk bp) (inum % IPB))).logWrite bp, some inum)
  | none => (fs, none)

/-- `ilock` on an inode that is not yet valid: read its on-disk copy.  The
error is the kernel's panic on a free inode. -/
def ilock (sb : Superblock) (disk : Disk) (ip : Inode) : Except String Inode :=
  if ip.valid then .ok ip
  else
    let d := table sb disk ip.inum
    if d.type = 0 then .error "ilock: no type"
    else .ok { ip with toDinode := d, valid := true }

/-! ## Where a block index is stored -/

/-- The disk block that holds block `bn` of an inode, without allocating: 0 when
there is none. -/
def blockAddr (disk : Disk) (d : Dinode) (bn : Nat) : Nat :=
  if h : bn < NDIRECT then d.addrs ⟨bn, by omega⟩
  else if bn - NDIRECT < NINDIRECT then
    let ind := d.addrs indirect
    if ind = 0 then 0 else field (disk ind) (4 * (bn - NDIRECT)) 4
  else 0

/-- `iupdate` changes the table at the inode's own number only. -/
theorem table_iupdate (sb : Superblock) (fs : Fs) (ip : Inode) (fits : ip.toDinode.Fits) (i : Nat) :
    table sb (iupdate sb fs ip).disk i = if i = ip.inum then ip.toDinode else table sb fs.disk i := by
  simp only [table, iupdate, Fs.logWrite_disk, Fs.write_disk]
  by_cases same : i = ip.inum
  · subst same
    rw [if_pos rfl, Function.update_self, Dinode.read_write_self _ _ (Nat.mod_lt _ (by decide)) fits]
  · rw [if_neg same]
    by_cases block : IBLOCK i sb = IBLOCK ip.inum sb
    · -- another slot of the same block
      have slot : ip.inum % IPB ≠ i % IPB := by
        unfold IBLOCK at block
        rw [IPB_eq] at block ⊢
        omega
      rw [block, Function.update_self, Dinode.read_write_of_ne _ _ slot]
    · rw [Function.update_of_ne block]

theorem allocAddr_of_ne_zero (sb : Superblock) (fs : Fs) (ip : Inode) {k : Fin (NDIRECT + 1)}
    (mapped : ip.addrs k ≠ 0) : allocAddr sb fs ip k = (ip.addrs k, fs, ip) := by
  simp [allocAddr, mapped]

/-- Once an index has a block, `bmap` returns it and changes nothing. -/
theorem bmap_of_mapped (sb : Superblock) (fs : Fs) (ip : Inode) {bn : Nat} (inRange : bn < MAXFILE)
    (mapped : blockAddr fs.disk ip.toDinode bn ≠ 0) :
    bmap sb fs ip bn = .ok (blockAddr fs.disk ip.toDinode bn, fs, ip) := by
  unfold blockAddr at mapped ⊢
  unfold bmap
  by_cases direct : bn < NDIRECT
  · simp only [dif_pos direct] at mapped ⊢
    rw [allocAddr_of_ne_zero sb fs ip mapped]
  · have inIndirect : bn - NDIRECT < NINDIRECT := by
      rw [MAXFILE] at inRange
      omega
    simp only [dif_neg direct, if_pos inIndirect] at mapped ⊢
    by_cases noInd : ip.addrs indirect = 0
    · simp [noInd] at mapped
    · rw [if_neg noInd] at mapped ⊢
      rw [allocAddr_of_ne_zero sb fs ip noInd]
      simp [noInd, mapped]

end Xv6
