/-
# Kernel.FileSystem -- the inode layer over whole runs

The system calls reach the disk through five inode operations: `writei`
(`filewrite`, the entries `dirlink` adds for `create`, `link` and `mkdir`, and
the entry `unlink` clears), `itrunc` (`open` with `O_TRUNC`), `iput`
(`fileclose`, `exit`, `unlink` and a failing `create`), `ialloc` (`create`), and
an update of the link count and device numbers followed by `iupdate`
(`create`, `link`, `unlink`, `mkdir`).  `exec` runs one of them on the inode
`ilock` reads from its slot; `Reachable` holds of every state a sequence of
them reaches from a starting image.

`exec_spec` is the step: from a state the ownership invariant holds of, an
operation on an allocated inode never panics, and leaves a state the invariant
holds of, in which an image without holes still has none.  `Reachable.owned`
and `Reachable.noHoles` are the run lemmas, by induction on `Reachable`;
`block_ownership` and `no_holes` draw their consequences for `balloc`, for the
panics of `bfree` and `bmap`, and for `readi`.
-/
import Xv6.Kernel.Truncate

namespace Xv6

open Bytes

set_option autoImplicit false

variable {sb : Superblock}

/-! ## The operations -/

/-- An operation of the inode layer, as the system calls reach it. -/
inductive FileOp where
  | write (inum : Nat) (m : Mem) (userSrc : Bool) (src : Nat) (off n : UInt32)
  | trunc (inum : Nat)
  | put (inum ref : Nat)
  | alloc (type : Int)
  | setMeta (inum : Nat) (major minor nlink : Int)

/-- `iget`: the cache entry of inode `inum` before `ilock` has read it. -/
def iget (inum ref : Nat) : Inode :=
  { type := 0, major := 0, minor := 0, nlink := 0, size := 0, addrs := fun _ => 0,
    dev := ROOTDEV, inum, ref, valid := false }

/-- One operation, on the inode `ilock` reads from its slot. -/
def exec (sb : Superblock) (fs : Fs) : FileOp → Except String Fs
  | .write inum m userSrc src off n =>
      match ilock sb fs.disk (iget inum 1) with
      | .error e => .error e
      | .ok ip =>
          match writei sb fs ip m userSrc src off n with
          | .error e => .error e
          | .ok (_, fs, _) => .ok fs
  | .trunc inum =>
      match ilock sb fs.disk (iget inum 1) with
      | .error e => .error e
      | .ok ip =>
          match itrunc sb fs ip with
          | .error e => .error e
          | .ok (fs, _) => .ok fs
  | .put inum ref =>
      match ilock sb fs.disk (iget inum ref) with
      | .error e => .error e
      | .ok ip =>
          match iput sb fs ip with
          | .error e => .error e
          | .ok (fs, _) => .ok fs
  | .alloc type => .ok (ialloc sb fs type).1
  | .setMeta inum major minor nlink =>
      match ilock sb fs.disk (iget inum 1) with
      | .error e => .error e
      | .ok ip => .ok (iupdate sb fs { ip with major, minor, nlink })

/-- A value a `short` field holds. -/
def Short (v : Int) : Prop := -(2 ^ 16 : Int) ≤ 2 * v ∧ 2 * v < 2 ^ 16

/-- What the system calls guarantee of an operation: it names an allocated
inode of the table, reached through a directory or a file, and what it stores
in a `short` field fits it. -/
def FileOp.Allowed (sb : Superblock) (disk : Disk) : FileOp → Prop
  | .write inum _ _ _ _ _ | .trunc inum | .put inum _ => inum < sb.ninodes ∧ (table sb disk inum).type ≠ 0
  | .alloc type => Short type
  | .setMeta inum major minor nlink =>
      inum < sb.ninodes ∧ (table sb disk inum).type ≠ 0 ∧ Short major ∧ Short minor ∧ Short nlink

/-- Every allocated inode of the table has no holes and fits the largest file. -/
def NoHolesAll (sb : Superblock) (disk : Disk) : Prop :=
  ∀ i, i < sb.ninodes → (table sb disk i).type ≠ 0 →
    NoHoles disk (table sb disk i) ∧ (table sb disk i).size ≤ MAXFILE * BSIZE

/-- The states a sequence of allowed operations reaches from `fs₀`. -/
inductive Reachable (sb : Superblock) (fs₀ : Fs) : Fs → Prop
  | start : Reachable sb fs₀ fs₀
  | step {fs fs' : Fs} (op : FileOp) : Reachable sb fs₀ fs → op.Allowed sb fs.disk → exec sb fs op = .ok fs' →
      Reachable sb fs₀ fs'

/-! ## Loading an inode -/

/-- The inode `ilock` makes of the cache entry: its slot, now valid. -/
def loaded (sb : Superblock) (disk : Disk) (inum ref : Nat) : Inode :=
  { iget inum ref with toDinode := table sb disk inum, valid := true }

theorem ilock_iget {disk : Disk} {inum : Nat} (ref : Nat) (allocated : (table sb disk inum).type ≠ 0) :
    ilock sb disk (iget inum ref) = .ok (loaded sb disk inum ref) := by
  simp [ilock, iget, allocated, loaded]

/-- An inode `ilock` read is the operation's inode of the invariant. -/
theorem Owned.opInv_loaded {disk : Disk} (owned : Owned sb disk (table sb disk)) {inum : Nat} (ref : Nat)
    (bound : inum < sb.ninodes) (allocated : (table sb disk inum).type ≠ 0) :
    OpInv sb disk (loaded sb disk inum ref) := by
  have same : view sb disk (loaded sb disk inum ref) = table sb disk := by
    funext i
    by_cases here : i = inum
    · subst here
      exact view_self disk _
    · exact view_of_ne disk _ here
  exact ⟨same ▸ owned, bound, allocated, Dinode.read_fits _ _⟩

/-! ## No holes, inode by inode -/

/-- The other inodes keep their maps and sizes, so they keep having no holes;
the inode operated on is checked on its own. -/
theorem NoHolesAll.of_keeps {disk disk' : Disk} (noHoles : NoHolesAll sb disk) {inum : Nat}
    (keeps : Keeps sb disk disk' inum)
    (self : (table sb disk' inum).type ≠ 0 →
      NoHoles disk' (table sb disk' inum) ∧ (table sb disk' inum).size ≤ MAXFILE * BSIZE) :
    NoHolesAll sb disk' := by
  intro i hi allocated
  by_cases here : i = inum
  · subst here
    exact self allocated
  · have slot := (keeps i hi here).1
    rw [slot] at allocated ⊢
    obtain ⟨old, small⟩ := noHoles i hi allocated
    refine ⟨fun bn below => ?_, small⟩
    have sameMap := keeps.blockAddr_eq hi here allocated bn
    rw [slot] at sameMap
    rw [sameMap]
    exact old bn below

/-- An emptied inode has no holes. -/
theorem noHoles_of_size_zero (disk : Disk) {d : Dinode} (zero : d.size = 0) : NoHoles disk d := fun bn below => by
  omega

/-! ## `ialloc` and the metadata update -/

/-- A fresh inode holds nothing. -/
@[simp] theorem holds_fresh (disk : Disk) (type : Int) : holds disk (Dinode.fresh type) = [] := by
  simp [holds, refsOf, Dinode.fresh]

/-- The inode `ialloc` writes, as the in-memory inode `iupdate` would write. -/
def freshInode (inum : Nat) (type : Int) : Inode :=
  { Dinode.fresh type with dev := ROOTDEV, inum, ref := 0, valid := false }

/-- `ialloc` writes a fresh inode into the first free slot; a free slot holds
nothing and has an empty map, so the invariant survives. -/
theorem ialloc_spec (valid : sb.Valid) {fs : Fs} (owned : Owned sb fs.disk (table sb fs.disk)) {type : Int}
    (short : Short type) :
    Owned sb (ialloc sb fs type).1.disk (table sb (ialloc sb fs type).1.disk) ∧
      ((ialloc sb fs type).1 = fs ∨ ∃ inum, inum < sb.ninodes ∧ Keeps sb fs.disk (ialloc sb fs type).1.disk inum ∧
        table sb (ialloc sb fs type).1.disk inum = Dinode.fresh type) := by
  cases found : (List.range' 1 (sb.ninodes - 1)).find? (fun inum => (table sb fs.disk inum).type = 0) with
  | none =>
      have same : (ialloc sb fs type).1 = fs := by simp [ialloc, found]
      rw [same]
      exact ⟨owned, .inl rfl⟩
  | some inum =>
      obtain ⟨free, mem, _⟩ := List.find?_range'_eq_some.mp found
      have bound : inum < sb.ninodes := by
        rw [List.mem_range'_1] at mem
        omega
      have wasFree : (table sb fs.disk inum).type = 0 := by simpa using free
      have written : (ialloc sb fs type).1 = iupdate sb fs (freshInode inum type) := by
        simp [ialloc, found, iupdate, freshInode]
      -- the table with the fresh inode in the free slot is one the invariant holds of
      have viewed : Owned sb fs.disk (view sb fs.disk (freshInode inum type)) := by
        apply owned.congr
        · intro i _
          by_cases here : i = inum
          · subst here
            have before : holds fs.disk (table sb fs.disk i) = [] := by rw [holds, if_pos wasFree]
            rw [view_of_inum fs.disk (freshInode i type) (i := i) rfl, before]
            exact holds_fresh _ type
          · exact congrArg _ (view_of_ne _ _ here)
        · intro i hi freshFree
          by_cases here : i = inum
          · subst here
            rw [view_of_inum fs.disk (freshInode i type) (i := i) rfl] at freshFree ⊢
            refine ⟨wasFree, ?_⟩
            funext k
            exact (owned.freed i hi wasFree k).symm
          · rw [view_of_ne _ _ here] at freshFree ⊢
            exact ⟨freshFree, rfl⟩
        · intro _ _
          rfl
      have fits : (freshInode inum type).toDinode.Fits :=
        ⟨short, by simp [freshInode, Dinode.fresh], by simp [freshInode, Dinode.fresh],
          by simp [freshInode, Dinode.fresh], by simp [freshInode, Dinode.fresh],
          fun _ => by simp [freshInode, Dinode.fresh]⟩
      obtain ⟨owned', keeps, back⟩ := viewed.writeBack valid bound fits
      rw [written]
      exact ⟨owned', .inr ⟨inum, bound, keeps, back⟩⟩

/-- Setting the link count and device numbers, then `iupdate`: nothing the
invariant or a map reads changes. -/
theorem setMeta_spec (valid : sb.Valid) {fs : Fs} {ip : Inode} (inv : OpInv sb fs.disk ip) {major minor nlink : Int}
    (shorts : Short major ∧ Short minor ∧ Short nlink) :
    Owned sb (iupdate sb fs { ip with major, minor, nlink }).disk
        (table sb (iupdate sb fs { ip with major, minor, nlink }).disk) ∧
      Keeps sb fs.disk (iupdate sb fs { ip with major, minor, nlink }).disk ip.inum ∧
      table sb (iupdate sb fs { ip with major, minor, nlink }).disk ip.inum = { ip.toDinode with major, minor, nlink } ∧
      ∀ bn, blockAddr (iupdate sb fs { ip with major, minor, nlink }).disk { ip.toDinode with major, minor, nlink } bn =
        blockAddr fs.disk ip.toDinode bn := by
  obtain ⟨shortMajor, shortMinor, shortNlink⟩ := shorts
  have fits : ({ ip with major, minor, nlink } : Inode).toDinode.Fits :=
    { inv.fits with major := shortMajor, minor := shortMinor, nlink := shortNlink }
  have inv' := inv.withMeta { ip with major, minor, nlink } rfl rfl rfl fits
  obtain ⟨owned, keeps, back⟩ := inv'.owned.writeBack valid inv'.bound fits
  exact ⟨owned, keeps, back, fun bn => inv'.blockAddr_iupdate valid bn⟩

/-! ## One operation -/

/-- An allowed operation on a state the invariant holds of never panics, and
leaves a state the invariant holds of, without holes if there were none. -/
theorem exec_spec (valid : sb.Valid) {fs : Fs} (owned : Owned sb fs.disk (table sb fs.disk)) {op : FileOp}
    (allowed : op.Allowed sb fs.disk) :
    ∃ fs', exec sb fs op = .ok fs' ∧ Owned sb fs'.disk (table sb fs'.disk) ∧
      (NoHolesAll sb fs.disk → NoHolesAll sb fs'.disk) := by
  cases op with
  | write inum m userSrc src off n =>
      obtain ⟨bound, allocated⟩ := allowed
      have inv := owned.opInv_loaded 1 bound allocated
      obtain ⟨r, fs', ip', eq, owned', keeps, back, sameType, holes, small⟩ := writei_spec valid inv rfl m userSrc src off n
      refine ⟨fs', by simp only [exec, ilock_iget 1 allocated, eq], owned', fun noHoles => noHoles.of_keeps keeps ?_⟩
      obtain ⟨old, oldSmall⟩ := noHoles inum bound allocated
      intro _
      rw [back]
      exact ⟨holes old, small oldSmall⟩
  | trunc inum =>
      obtain ⟨bound, allocated⟩ := allowed
      have inv := owned.opInv_loaded 1 bound allocated
      obtain ⟨fs', eq, owned', keeps, back⟩ := itrunc_spec valid inv
      refine ⟨fs', by simp only [exec, ilock_iget 1 allocated, eq], owned', fun noHoles => noHoles.of_keeps keeps ?_⟩
      intro _
      rw [back]
      exact ⟨noHoles_of_size_zero _ rfl, Nat.zero_le _⟩
  | put inum ref =>
      obtain ⟨bound, allocated⟩ := allowed
      have inv := owned.opInv_loaded ref bound allocated
      obtain ⟨fs', ip', eq, owned', keeps, same | freed⟩ := iput_spec valid inv rfl
      · subst same
        exact ⟨fs', by simp only [exec, ilock_iget ref allocated, eq], owned', id⟩
      · refine ⟨fs', by simp only [exec, ilock_iget ref allocated, eq], owned', fun noHoles => noHoles.of_keeps keeps ?_⟩
        intro allocated'
        exact absurd freed allocated'
  | alloc type =>
      obtain ⟨owned', same | ⟨inum, _, keeps, back⟩⟩ := ialloc_spec valid owned allowed
      · exact ⟨_, rfl, owned', by rw [same]; exact id⟩
      · refine ⟨_, rfl, owned', fun noHoles => noHoles.of_keeps keeps ?_⟩
        intro _
        rw [back]
        exact ⟨noHoles_of_size_zero _ rfl, Nat.zero_le _⟩
  | setMeta inum major minor nlink =>
      obtain ⟨bound, allocated, shorts⟩ := allowed
      have inv := owned.opInv_loaded 1 bound allocated
      obtain ⟨owned', keeps, back, sameMap⟩ := setMeta_spec valid inv shorts
      refine ⟨_, by simp only [exec, ilock_iget 1 allocated], owned', fun noHoles => noHoles.of_keeps keeps ?_⟩
      obtain ⟨old, oldSmall⟩ := noHoles inum bound allocated
      intro _
      rw [back]
      refine ⟨fun bn below => ?_, oldSmall⟩
      rw [sameMap]
      exact old bn below

/-! ## Whole runs -/

/-- An image whose inodes are all free with empty maps, and whose bitmap marks
the metadata and nothing else, is one the invariant holds of. -/
theorem Owned.of_empty {disk : Disk}
    (free : ∀ i, i < sb.ninodes → (table sb disk i).type = 0 ∧ ∀ k, (table sb disk i).addrs k = 0)
    (bits : ∀ b, b < sb.size → used sb disk b = decide (b < sb.dataStart)) : Owned sb disk (table sb disk) := by
  have empty : ∀ i, i < sb.ninodes → holds disk (table sb disk i) = [] := fun i hi => by
    rw [holds, if_pos (free i hi).1]
  refine ⟨fun i hi => ?_, fun i j hi _ _ b held => ?_, fun i hi b held => ?_, fun b hb => ?_,
    fun i hi _ => (free i hi).2⟩
  · rw [empty i hi]
    exact List.nodup_nil
  · rw [empty i hi] at held
    cases held
  · rw [empty i hi] at held
    cases held
  · rw [bits b hb, decide_eq_true_iff]
    constructor
    · exact .inl
    · rintro (isMeta | ⟨i, hi, held⟩)
      · exact isMeta
      · rw [empty i hi] at held
        cases held

/-- The invariant holds of every state reachable from an image it holds of. -/
theorem Reachable.owned (valid : sb.Valid) {fs₀ fs : Fs} (wellFormed : Owned sb fs₀.disk (table sb fs₀.disk))
    (reach : Reachable sb fs₀ fs) : Owned sb fs.disk (table sb fs.disk) := by
  induction reach with
  | start => exact wellFormed
  | step op _ allowed ran owned =>
      obtain ⟨fs', eq, owned', _⟩ := exec_spec valid owned allowed
      rw [ran, Except.ok.injEq] at eq
      rw [eq]
      exact owned'

/-- No state reachable from a well-formed image without holes has one. -/
theorem Reachable.noHoles (valid : sb.Valid) {fs₀ fs : Fs} (wellFormed : Owned sb fs₀.disk (table sb fs₀.disk))
    (noHoles₀ : NoHolesAll sb fs₀.disk) (reach : Reachable sb fs₀ fs) : NoHolesAll sb fs.disk := by
  induction reach with
  | start => exact noHoles₀
  | step op reach allowed ran noHoles =>
      obtain ⟨fs', eq, _, kept⟩ := exec_spec valid (reach.owned valid wellFormed) allowed
      rw [ran, Except.ok.injEq] at eq
      rw [eq]
      exact kept noHoles

/-- What `balloc` does in a state the invariant holds of: it hands out a free
data block, or 0 only when every bit is set. -/
theorem Owned.balloc_fresh (valid : sb.Valid) {fs fs' : Fs} (owned : Owned sb fs.disk (table sb fs.disk)) {b : Nat}
    (alloc : balloc sb fs = (b, fs')) :
    (b ≠ 0 → sb.dataStart ≤ b ∧ b < sb.size ∧ ¬ Refd sb fs.disk (table sb fs.disk) b) ∧
      (b = 0 → ∀ x, x < sb.size → used sb fs.disk x = true) := by
  rcases balloc_cases sb fs with ⟨c, inSize, clear, _, took⟩ | ⟨full, none⟩
  · rw [took, Prod.mk.injEq] at alloc
    obtain ⟨rfl, _⟩ := alloc
    obtain ⟨data, notRefd⟩ := owned.not_refd_of_clear inSize clear
    refine ⟨fun _ => ⟨data, inSize, notRefd⟩, fun zero => ?_⟩
    have := valid.zero_meta
    omega
  · rw [none, Prod.mk.injEq] at alloc
    obtain ⟨rfl, _⟩ := alloc
    exact ⟨fun nonzero => absurd rfl nonzero, fun _ => full⟩

/-- Block ownership over every run from a well-formed image: a block's bit is
set exactly when it is metadata or held by an allocated inode, no block is held
twice and a free inode has an empty map (`Owned`); no allowed operation panics,
so neither `freeing free block` nor `bmap: out of range` is reached; and
`balloc` hands out a free data block, or 0 only when every bit is set. -/
theorem block_ownership (valid : sb.Valid) {fs₀ fs : Fs} (wellFormed : Owned sb fs₀.disk (table sb fs₀.disk))
    (reach : Reachable sb fs₀ fs) :
    Owned sb fs.disk (table sb fs.disk) ∧ (∀ op : FileOp, op.Allowed sb fs.disk → ∃ fs', exec sb fs op = .ok fs') ∧
      ∀ b fs', balloc sb fs = (b, fs') →
        (b ≠ 0 → sb.dataStart ≤ b ∧ b < sb.size ∧ ¬ Refd sb fs.disk (table sb fs.disk) b) ∧
        (b = 0 → ∀ x, x < sb.size → used sb fs.disk x = true) := by
  have owned := reach.owned valid wellFormed
  refine ⟨owned, fun op allowed => ?_, fun b fs' alloc => owned.balloc_fresh valid alloc⟩
  obtain ⟨fs', eq, _⟩ := exec_spec valid owned allowed
  exact ⟨fs', eq⟩

/-- A small image as `mkfs` lays it out before the root directory: eight
blocks, the first five of them boot block, superblock, log, inode block and
bitmap, and two free inodes. -/
def bootSb : Superblock :=
  { magic := 0x10203040, size := 8, nblocks := 3, ninodes := 2, nlog := 1, logstart := 2, inodestart := 3,
    bmapstart := 4 }

/-- Its blocks: zero but the bitmap, whose first five bits are set. -/
def bootDisk : Disk := fun b => if b = 4 then (fun i => if i.val = 0 then 31 else 0) else Block.zero

theorem bootSb_valid : bootSb.Valid := ⟨by decide, by decide, by decide, by decide, by decide⟩

theorem bootDisk_free :
    ∀ i, i < bootSb.ninodes → (table bootSb bootDisk i).type = 0 ∧ ∀ k, (table bootSb bootDisk i).addrs k = 0 := by
  decide

theorem bootDisk_owned : Owned bootSb bootDisk (table bootSb bootDisk) :=
  Owned.of_empty bootDisk_free (by decide)

/-- Memory that reads as zeros. -/
def zeroMem : Mem :=
  { vm := { user := fun _ => false, writable := fun _ => false, byte := fun _ => 0 }, kmem := fun _ => 0 }

/-- A run from the small image: a file made by `ialloc`, which takes inode 1,
then one byte written to it, for which `bmap` takes data block 5. -/
theorem block_ownership_written :
    ∃ fs, Reachable bootSb ⟨bootDisk, []⟩ fs ∧ (table bootSb fs.disk 1).addrs 0 = 5 ∧
      Owned bootSb fs.disk (table bootSb fs.disk) ∧
      (∀ op : FileOp, op.Allowed bootSb fs.disk → ∃ fs', exec bootSb fs op = .ok fs') ∧
      ∀ b fs', balloc bootSb fs = (b, fs') →
        (b ≠ 0 → bootSb.dataStart ≤ b ∧ b < bootSb.size ∧ ¬ Refd bootSb fs.disk (table bootSb fs.disk) b) ∧
        (b = 0 → ∀ x, x < bootSb.size → used bootSb fs.disk x = true) := by
  have made : Reachable bootSb ⟨bootDisk, []⟩ (ialloc bootSb ⟨bootDisk, []⟩ 2).1 :=
    .step (.alloc 2) .start ⟨by decide, by decide⟩ rfl
  obtain ⟨fs, wrote, mapped⟩ : ∃ fs, exec bootSb (ialloc bootSb ⟨bootDisk, []⟩ 2).1 (.write 1 zeroMem false 0 0 1) = .ok fs ∧
      (table bootSb fs.disk 1).addrs 0 = 5 :=
    ⟨_, rfl, by decide⟩
  have reach := Reachable.step (.write 1 zeroMem false 0 0 1) made ⟨by decide, by decide⟩ wrote
  exact ⟨fs, reach, mapped, @block_ownership bootSb bootSb_valid ⟨bootDisk, []⟩ fs bootDisk_owned reach⟩

/-- The small image's layout with room for three inodes: 0, a file, and a
second file. -/
def holeSb : Superblock := { bootSb with ninodes := 3 }

/-- A file of thirteen blocks: twelve direct addresses and one entry of the
indirect block 6, all naming block 5. -/
def holeInode : Dinode :=
  { type := 2, major := 0, minor := 0, nlink := 1, size := 13 * BSIZE,
    addrs := fun k => if k = indirect then 6 else 5 }

/-- An empty file. -/
def emptyInode : Dinode :=
  { type := 2, major := 0, minor := 0, nlink := 1, size := 0, addrs := fun _ => 0 }

/-- The small image with that file as inode 1 and the empty file as inode 2,
and a bitmap that marks blocks 0 to 5 used and leaves block 6, the indirect
block of inode 1, free. -/
def holeDisk : Disk := fun b =>
  if b = 3 then emptyInode.write (holeInode.write Block.zero 1) 2
  else if b = 4 then (fun i => if i.val = 0 then 63 else 0)
  else if b = 6 then setField Block.zero 0 4 5
  else Block.zero

/-- Writing one byte past the end of inode 1 itself: `bmap` holds the indirect
block 6 when `balloc` hands out block 6, so `bzero`'s `bread` of it waits on
the sleep-lock `bmap` holds, for ever. -/
theorem write_own_free_indirect :
    exec holeSb ⟨holeDisk, []⟩ (.write 1 zeroMem false 0 (13 * 1024) 1) = .error "bmap: deadlock on the indirect block" := by
  rfl

/-! ## A source copy that fails part-way -/

/-- A source copy that fails inside the first block a write touches, after
moving `bytes`: `writei` counts nothing and keeps the size, yet `bytes` are in
the file from `off` on.  The copy wrote them into the block before it failed,
and `writei` leaves the block as the copy left it. -/
theorem writei_of_failed_copy (valid : sb.Valid) {fs : Fs} {ip : Inode} (inv : OpInv sb fs.disk ip)
    (m : Mem) (userSrc : Bool) (src : Nat) {off n : UInt32} {bytes : List UInt8}
    (inside : off.toNat ≤ ip.size) (noWrap : off.toNat + n.toNat < 2 ^ 32)
    (small : off.toNat + n.toNat ≤ MAXFILE * BSIZE) (pos : 0 < n.toNat)
    (mapped : blockAddr fs.disk ip.toDinode (off.toNat / BSIZE) ≠ 0)
    (fails : eitherCopyin m userSrc src (min n.toNat (BSIZE - off.toNat % BSIZE)) = (bytes, false)) :
    ∃ fs', writei sb fs ip m userSrc src off n = .ok (0, fs', ip) ∧
      fileBytes fs'.disk ip.toDinode off.toNat bytes.length = bytes := by
  set addr := blockAddr fs.disk ip.toDinode (off.toNat / BSIZE) with addr_def
  set blk := copyInto (fs.disk addr) (off.toNat % BSIZE) bytes with blk_def
  have inRange : off.toNat / BSIZE < MAXFILE := by
    rw [BSIZE_eq] at small ⊢
    rw [MAXFILE_eq] at small ⊢
    omega
  have fitsBlock : bytes.length ≤ BSIZE - off.toNat % BSIZE := by
    have moved := eitherCopyin_length_le m userSrc src (min n.toNat (BSIZE - off.toNat % BSIZE))
    rw [fails] at moved
    exact le_trans moved (Nat.min_le_right _ _)
  -- the one pass: `bmap` finds the block, and the copy fails after writing `bytes` into it
  have pass : writeLoop sb m userSrc n.toNat n.toNat 0 off.toNat src fs ip =
      .ok (0, off.toNat, fs.write addr blk, ip) := by
    obtain ⟨k, more⟩ : ∃ k, n.toNat = k + 1 := ⟨n.toNat - 1, by omega⟩
    rw [more] at fails ⊢
    rw [writeLoop, if_pos (by omega), bmap_of_mapped sb fs ip inRange mapped]
    simp only [← addr_def, if_neg mapped, Nat.sub_zero, fails, ← blk_def]
    rfl
  have wrote : writei sb fs ip m userSrc src off n = .ok (0, iupdate sb (fs.write addr blk) ip, ip) := by
    have noOverflow : ¬ off + n < off := by
      rw [UInt32.add_lt_self_iff]
      omega
    rw [writei, if_neg (not_or.mpr ⟨by omega, noOverflow⟩), if_neg (by omega), pass]
    simp only [gt_iff_lt, if_neg (Nat.not_lt.mpr inside)]
    rfl
  refine ⟨_, wrote, ?_⟩
  -- the written block is a data block of the inode; `iupdate` writes its inode block
  obtain ⟨inv₁, -, sameMap⟩ := inv.writeData valid addr_def.symm mapped blk
  have data : sb.dataStart ≤ addr := by
    have held := (blockAddr_mem_refsOf fs.disk ip.toDinode mapped).1
    rw [← inv.holds_self] at held
    exact (inv.owned.inData _ inv.bound _ held).1
  have kept : (iupdate sb (fs.write addr blk) ip).disk addr = blk := by
    show Function.update (Function.update fs.disk addr blk) (IBLOCK ip.inum sb) _ addr = blk
    rw [Function.update_of_ne (valid.data_ne_IBLOCK data inv.bound), Function.update_self]
  rw [← slice_eq_fileBytes _ _ fitsBlock, inv₁.blockAddr_iupdate valid, Fs.write_disk, sameMap,
    ← addr_def, kept, blk_def]
  have := Nat.mod_lt off.toNat (show 0 < BSIZE by rw [BSIZE_eq]; decide)
  exact slice_copyInto _ _ _ (by omega)

/-- A file of one block, block 5, which holds zeros. -/
def oneBlockInode : Dinode :=
  { type := 2, major := 0, minor := 0, nlink := 1, size := BSIZE,
    addrs := fun k => if k.val = 0 then 5 else 0 }

/-- The small image with that file as inode 1; the bitmap marks blocks 0 to 5 used. -/
def oneBlockDisk : Disk := fun b =>
  if b = 3 then oneBlockInode.write Block.zero 1
  else if b = 4 then (fun i => if i.val = 0 then 63 else 0)
  else Block.zero

/-- A process whose first page is mapped and reads as 9s, and whose second
page is not mapped. -/
def edgeMem : Mem :=
  { vm := { user := fun va => va = 0, writable := fun va => va = 0, byte := fun _ => 9 },
    kmem := fun _ => 0 }

set_option synthInstance.maxSize 512 in
theorem oneBlockDisk_owned : Owned bootSb oneBlockDisk (table bootSb oneBlockDisk) := by
  have disjoint : ∀ i, i < bootSb.ninodes → ∀ j, j < bootSb.ninodes → i ≠ j →
      ∀ b ∈ holds oneBlockDisk (table bootSb oneBlockDisk i), b ∉ holds oneBlockDisk (table bootSb oneBlockDisk j) := by
    decide
  have bitmap : ∀ b, b < bootSb.size → (used bootSb oneBlockDisk b = true ↔
      b < bootSb.dataStart ∨ ∃ i, i < bootSb.ninodes ∧ b ∈ holds oneBlockDisk (table bootSb oneBlockDisk i)) := by
    decide
  exact ⟨by decide, fun i j hi hj => disjoint i hi j hj, by decide, bitmap, by decide⟩

/-- `writei(ip, 1, 4095, 0, 2)` on that file: the copy moves the byte at 4095,
the last of the mapped page, into block 5 and fails at 4096, and `writei`
returns 0 with the byte in the file. -/
theorem edgeWrite_lands :
    ∃ fs', writei bootSb ⟨oneBlockDisk, []⟩ (loaded bootSb oneBlockDisk 1 1) edgeMem true 4095 0 2 =
        .ok (0, fs', loaded bootSb oneBlockDisk 1 1) ∧
      fileBytes fs'.disk (table bootSb oneBlockDisk 1) 0 1 = [9] := by
  have inv : OpInv bootSb oneBlockDisk (loaded bootSb oneBlockDisk 1 1) :=
    oneBlockDisk_owned.opInv_loaded 1 (by decide) (by decide)
  have fails : eitherCopyin edgeMem true 4095 (min (2 : UInt32).toNat (BSIZE - (0 : UInt32).toNat % BSIZE)) =
      ([9], false) := by
    -- one byte from the mapped page, then the unmapped page 4096
    simp only [eitherCopyin, if_true]
    rw [copyin.eq_1]
    simp [edgeMem, PGROUNDDOWN, PGSIZE, BSIZE_eq]
    rw [copyin.eq_1]
    simp [PGROUNDDOWN, PGSIZE, loadBytes]
  exact @writei_of_failed_copy bootSb bootSb_valid ⟨oneBlockDisk, []⟩
    (loaded bootSb oneBlockDisk 1 1) inv edgeMem true 4095 0 2 [9]
    (by decide) (by decide) (by decide) (by decide) (by decide) fails

/-- The same write: `writei` returns 0, yet the file's first byte, 0 before,
is now 9. -/
theorem writei_failed_copy_lands :
    ∃ fs', writei bootSb ⟨oneBlockDisk, []⟩ (loaded bootSb oneBlockDisk 1 1) edgeMem true 4095 0 2 =
        .ok (0, fs', loaded bootSb oneBlockDisk 1 1) ∧
      fileBytes fs'.disk (table bootSb oneBlockDisk 1) 0 1 = [9] ∧
      fileBytes oneBlockDisk (table bootSb oneBlockDisk 1) 0 1 = [0] := by
  obtain ⟨fs', wrote, landed⟩ := edgeWrite_lands
  exact ⟨fs', wrote, landed, by decide⟩

end Xv6
