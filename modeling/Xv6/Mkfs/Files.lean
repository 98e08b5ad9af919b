/-
# Mkfs.Files -- every file mkfs writes reads back through the kernel's inode layer

mkfs copies each input file into the image with `iappend`, one `read` of its
bytes at a time: `iappend` reads the inode, walks the bytes block by block
(`appendLoop`), taking a new block from `freeblock` for an empty direct
address, for an empty indirect address and for an empty entry of the indirect
block (`fileBlock`), copies the bytes of the block into it, and writes the
inode back with its new size.  The kernel reads the same image through
`table`, `blockAddr` and `fileByte`.  This module shows that the two agree:
`mkfs_files_read_back` says that when mkfs succeeds, the `k`-th input file is
inode `k + 2`, a regular file with one link and no holes whose bytes, read as
the kernel reads them, are the file's bytes, indirect block and all.

The proof follows the program.  `Sound` is what holds of the image between two
steps of mkfs: every inode holds distinct data blocks handed out already, no
two inodes share one, and every block from `freeblock` on is still zero.
`Appending` is the invariant of `appendLoop`: the inode's map has grown only
by blocks handed out since, every byte it had and every byte appended so far
reads as it should (`Overwrites`, the kernel's own statement for `writei`),
and the loop has written no block of another inode.  One lemma per kind of
step carries it: `Appending.alloc` for the three allocations of `fileBlock`,
`Appending.write` for the copy into the block.  `Appending.writeBack` closes
the loop with the inode's write-back (`Appended`, by `Sound.replace`), and
`Holds.append` and `Spares.holds` say what that does to the file appended to
and to every other one.  `addFiles_written` carries `Written` over the loop
of `main`, and `mkfs_written` ends `main` with its two last writes, neither to
a data block: from it `mkfs_files_read_back`, and `mkfs_blocks_owned`, that
the bitmap marks exactly the blocks handed out and no two inodes share one.
-/
import Xv6.Mkfs.RootDir
import Xv6.Kernel.WriteContent
import Xv6.Kernel.Truncate
import Xv6.Theory.Faults

namespace Xv6.Mkfs

open Bytes

set_option autoImplicit false

/-! ## Inodes read back -/

theorem refsOf_of_zero {disk : Disk} {d : Dinode} (zero : ∀ k, d.addrs k = 0) : refsOf disk d = [] := by
  have empty : d = { d with addrs := fun _ => 0 } := by
    cases d
    simp only [Dinode.mk.injEq, true_and]
    exact funext zero
  rw [empty, refsOf_empty]

/-- An inode slot in a zero block is empty. -/
theorem table_addrs_of_zero {disk : Disk} {i : Nat} (zero : disk (IBLOCK i sb) = Block.zero) (k : Fin (NDIRECT + 1)) :
    (table sb disk i).addrs k = 0 := by
  simp only [table, Dinode.read, zero, field_zero_block]

/-- Inode `inum` of the image holds the bytes `bytes`, as the kernel reads them:
its size is their length, every block below the size is mapped, and the bytes
`fileByte` reads are theirs. -/
structure Holds (disk : Disk) (inum : Nat) (bytes : List UInt8) : Prop where
  size : (table sb disk inum).size = bytes.length
  noHoles : NoHoles disk (table sb disk inum)
  content : fileBytes disk (table sb disk inum) 0 bytes.length = bytes

theorem holds_fresh {disk : Disk} {inum : Nat} (fresh : table sb disk inum = freshDinode T_FILE) :
    Holds disk inum [] where
  size := by rw [fresh]; rfl
  noHoles := fun bn below => by rw [fresh] at below; exact absurd below (Nat.not_lt_zero _)
  content := rfl

/-- Each byte of an inode that holds `bytes` reads as that byte. -/
theorem Holds.byte {disk : Disk} {inum : Nat} {bytes : List UInt8} (holds : Holds disk inum bytes) {i : Nat}
    (inside : i < bytes.length) : fileByte disk (table sb disk inum) i = bytes[i] := by
  have inList : i < (fileBytes disk (table sb disk inum) 0 bytes.length).length := by
    simpa [fileBytes] using inside
  simpa [fileBytes] using List.getElem_of_eq holds.content inList

/-- An inode whose slot and blocks another step leaves alone still holds its
bytes: the map reads its indirect block, a block it holds, and every byte
below the size is in a block it holds. -/
theorem Holds.keep {disk disk' : Disk} {inum : Nat} {bytes : List UInt8} (holds : Holds disk inum bytes)
    (slot : table sb disk' inum = table sb disk inum)
    (blocks : ∀ b ∈ refsOf disk (table sb disk inum), disk' b = disk b) : Holds disk' inum bytes := by
  set d := table sb disk inum with d_def
  have sameMap : ∀ bn, blockAddr disk' d bn = blockAddr disk d bn :=
    blockAddr_congr disk d fun present => blocks _ (indirect_mem_refsOf disk present)
  have kept : DataKept disk disk' d d := fun bn mapped =>
    ⟨sameMap bn, blocks _ (blockAddr_mem_refsOf disk d mapped).1⟩
  refine ⟨by rw [slot]; exact holds.size, fun bn below => ?_, ?_⟩
  · rw [slot, sameMap]
    rw [slot] at below
    exact holds.noHoles bn below
  · conv_rhs => rw [← holds.content]
    rw [slot]
    apply List.map_congr_left
    intro p inRange
    have lt : p < d.size := by
      rw [holds.size]
      simpa using inRange
    exact kept.fileByte (holds.noHoles _ (by have := Nat.div_mul_le_self (0 + p) BSIZE; rw [← d_def]; omega))

/-- The kernel's map at a direct index reads the direct address. -/
theorem blockAddr_direct (disk : Disk) (d : Dinode) (j : Fin NDIRECT) : blockAddr disk d j.val = d.addrs j.castSucc := by
  simp only [blockAddr, dif_pos j.isLt]
  rfl

/-- The kernel's map past the direct indices reads the entry of the indirect block. -/
theorem blockAddr_entry (disk : Disk) {d : Dinode} (present : d.addrs indirect ≠ 0) {j : Nat} (hj : j < NINDIRECT) :
    blockAddr disk d (NDIRECT + j) = field (disk (d.addrs indirect)) (4 * j) 4 := by
  rw [blockAddr, dif_neg (by omega), if_pos (by omega), if_neg present, Nat.add_sub_cancel_left]

/-- A block `rsect` reads is inside the image file. -/
theorem rsect_eq_ok {s : State} {sec : Nat} {buf : Block} (read : rsect s sec = .ok buf) :
    sec < s.len ∧ buf = s.disk sec := by
  unfold rsect at read
  split at read
  · rename_i inside
    cases read
    exact ⟨inside, rfl⟩
  · cases read

/-- Writing a block that is no data block (an inode block, the bitmap) keeps
an inode whose blocks are data blocks: its list of blocks, and every index it
maps with its block and what the block holds. -/
theorem meta_write_keeps {disk : Disk} {d : Dinode} (data : ∀ b ∈ refsOf disk d, nmeta ≤ b) {c : Nat} (notData : c < nmeta)
    (blk : Block) : refsOf (Function.update disk c blk) d = refsOf disk d ∧ DataKept disk (Function.update disk c blk) d d := by
  have ne : ∀ b ∈ refsOf disk d, b ≠ c := fun b mem => by have := data b mem; omega
  have indirectKept : d.addrs indirect ≠ 0 → Function.update disk c blk (d.addrs indirect) = disk (d.addrs indirect) :=
    fun present => Function.update_of_ne (ne _ (indirect_mem_refsOf disk present)) _ _
  refine ⟨refsOf_congr indirectKept, fun bn mapped => ⟨blockAddr_congr disk d indirectKept bn, ?_⟩⟩
  exact Function.update_of_ne (ne _ (blockAddr_mem_refsOf disk d mapped).1) _ _

/-- Every address an inode has is one of its blocks. -/
theorem addrs_mem_refsOf (disk : Disk) {d : Dinode} {k : Fin (NDIRECT + 1)} (present : d.addrs k ≠ 0) :
    d.addrs k ∈ refsOf disk d := by
  by_cases direct : k.val < NDIRECT
  · have same : (⟨k.val, direct⟩ : Fin NDIRECT).castSucc = k := Fin.ext rfl
    have hit := blockAddr_direct disk d ⟨k.val, direct⟩
    rw [same] at hit
    rw [← hit]
    exact (blockAddr_mem_refsOf disk d (by rw [hit]; exact present)).1
  · have last : k = indirect := Fin.ext (by simp only [indirect, Fin.val_last]; omega)
    rw [last] at present ⊢
    exact indirect_mem_refsOf disk present

/-! ## The image between two steps of mkfs -/

/-- What holds of the image between two steps of mkfs: every inode mkfs has
room for holds distinct data blocks handed out already, no two share one,
and no block from `freeblock` on has been written. -/
structure Sound (s : State) : Prop where
  len : s.len = FSSIZE
  metaLe : nmeta ≤ s.freeblock
  below : s.freeblock ≤ FSSIZE
  zero : ∀ b, s.freeblock ≤ b → s.disk b = Block.zero
  inData : ∀ i, i < NINODES → ∀ b ∈ refsOf s.disk (table sb s.disk i), nmeta ≤ b ∧ b < s.freeblock
  nodup : ∀ i, i < NINODES → (refsOf s.disk (table sb s.disk i)).Nodup
  disjoint : ∀ i j, i < NINODES → j < NINODES → i ≠ j →
    ∀ b ∈ refsOf s.disk (table sb s.disk i), b ∉ refsOf s.disk (table sb s.disk j)

theorem Sound.inode_lt_len {s : State} (sound : Sound s) {i : Nat} (bound : i < NINODES) : IBLOCK i sb < s.len := by
  rw [sound.len]
  exact lt_of_lt_of_le (IBLOCK_lt_nmeta bound) (by decide)

/-- A write of a block that is no data block keeps the image file's length. -/
theorem wsect_len_of_meta {s : State} (len : s.len = FSSIZE) {c : Nat} (notData : c < nmeta) (blk : Block) :
    (wsect s c blk).len = FSSIZE := by
  have := Nat.lt_of_lt_of_le notData (show nmeta ≤ FSSIZE by decide)
  rw [wsect_len, len]
  omega

/-- A step that changes the blocks of one inode only, to `L`, keeps the image
sound when `L` holds distinct data blocks handed out already that no other
inode holds. -/
theorem Sound.replace {s s' : State} (sound : Sound s) {inum : Nat} {L : List Nat}
    (len : s'.len = FSSIZE) (grows : s.freeblock ≤ s'.freeblock) (below : s'.freeblock ≤ FSSIZE)
    (zero : ∀ b, s'.freeblock ≤ b → s'.disk b = Block.zero)
    (refs : ∀ i, i < NINODES →
      refsOf s'.disk (table sb s'.disk i) = if i = inum then L else refsOf s.disk (table sb s.disk i))
    (inData : ∀ b ∈ L, nmeta ≤ b ∧ b < s'.freeblock) (nodup : L.Nodup)
    (apart : ∀ j, j < NINODES → j ≠ inum → ∀ b ∈ L, b ∉ refsOf s.disk (table sb s.disk j)) : Sound s' := by
  refine ⟨len, le_trans sound.metaLe grows, below, zero, fun i bound b mem => ?_, fun i bound => ?_,
    fun i j hi hj ne b mem => ?_⟩
  · rw [refs i bound] at mem
    split at mem
    · exact inData b mem
    · have := sound.inData i bound b mem
      omega
  · rw [refs i bound]
    split
    · exact nodup
    · exact sound.nodup i bound
  · rw [refs i hi] at mem
    rw [refs j hj]
    by_cases self : i = inum
    · -- a block of the new list: no other inode's
      have other : j ≠ inum := fun same => ne (self.trans same.symm)
      rw [if_pos self] at mem
      rw [if_neg other]
      exact apart j hj other b mem
    · rw [if_neg self] at mem
      split
      · exact fun own => apart i hi self b own mem
      · exact sound.disjoint i j hi hj ne b mem

/-! ## `iappend`'s loop -/

/-- The bytes `appendLoop` copies in a pass are the next ones of the whole append. -/
theorem take_drop_eq_loadBytes (q : List UInt8) {tot k : Nat} (inside : tot + k ≤ q.length) :
    (q.drop tot).take k = loadBytes (fun i => q.getD i 0) (0 + tot) k := by
  apply List.ext_getElem
  · simp only [List.length_take, List.length_drop, length_loadBytes]
    omega
  · intro i lhs rhs
    simp only [List.length_take, List.length_drop] at lhs
    simp only [List.getElem_take, List.getElem_drop, loadBytes, List.getElem_map, List.getElem_range,
      Nat.zero_add, List.getD_eq_getElem?_getD, List.getElem?_eq_getElem (show tot + i < q.length by omega),
      Option.getD_some]

section Append

variable (s₀ : State) (d₀ : Dinode) (q : List UInt8)

/-- `iappend`'s loop after `tot` bytes of `q`, from the image `s₀` and the
inode `d₀` read from it.  The inode's map has grown only by blocks handed out
since, each a data block it holds once; every byte it had and every byte
appended has its block and reads as it should; the loop has written only
blocks of this inode, no inode slot and no block past `freeblock`; and every
block it took was read, so lies inside the image. -/
structure Appending (tot : Nat) (din : Dinode) (s : State) : Prop where
  len : s.len = FSSIZE
  freeinode : s.freeinode = s₀.freeinode
  grows : s₀.freeblock ≤ s.freeblock
  metaLe : nmeta ≤ s₀.freeblock
  inImage : s.freeblock ≤ s.len
  rest : din = { d₀ with addrs := din.addrs }
  zero : ∀ b, s.freeblock ≤ b → s.disk b = Block.zero
  tables : ∀ i, i < NINODES → table sb s.disk i = table sb s₀.disk i
  held : ∀ b ∈ refsOf s.disk din, nmeta ≤ b ∧ b < s.freeblock ∧ (b ∈ refsOf s₀.disk d₀ ∨ s₀.freeblock ≤ b)
  nodup : (refsOf s.disk din).Nodup
  frame : ∀ b, b < s₀.freeblock → b ∉ refsOf s₀.disk d₀ → s.disk b = s₀.disk b
  mapped : ∀ p, (blockAddr s₀.disk d₀ (p / BSIZE) ≠ 0 ∨ d₀.size ≤ p ∧ p < d₀.size + tot) →
    blockAddr s.disk din (p / BSIZE) ≠ 0
  written : Overwrites s₀.disk s.disk d₀ din d₀.size tot (fun i => q.getD i 0) 0
  fits : tot = 0 ∨ d₀.size + tot ≤ MAXFILE * BSIZE

variable {s₀ d₀ q}

/-- The loop starts from the inode as the image holds it. -/
theorem Appending.start (sound : Sound s₀) {inum : Nat} (bound : inum < NINODES) (read : d₀ = table sb s₀.disk inum) :
    Appending s₀ d₀ q 0 d₀ s₀ where
  len := sound.len
  freeinode := rfl
  grows := le_refl _
  metaLe := sound.metaLe
  inImage := by rw [sound.len]; exact sound.below
  rest := rfl
  zero := sound.zero
  tables := fun _ _ => rfl
  held := fun b mem => by
    rw [read] at mem
    exact ⟨(sound.inData inum bound b mem).1, (sound.inData inum bound b mem).2, .inl (read ▸ mem)⟩
  nodup := read ▸ sound.nodup inum bound
  frame := fun _ _ _ => rfl
  mapped := fun p covered => by
    rcases covered with had | ⟨lo, hi⟩
    · exact had
    · omega
  written := Overwrites.refl _ _ _ _ _
  fits := .inl rfl

/-- One block taken from `freeblock` into the map (a direct address, the
indirect block, or an entry of the indirect block): the map holds it besides
what it held, every index it mapped keeps its block and what the block holds,
and the only block written, if any, is one the inode holds. -/
theorem Appending.alloc {tot : Nat} {din din' : Dinode} {s s' : State} (app : Appending s₀ d₀ q tot din s)
    (len : s'.len = s.len) (freeinode : s'.freeinode = s.freeinode) (next : s'.freeblock = s.freeblock + 1)
    (inImage : s.freeblock < s.len) (rest : din' = { din with addrs := din'.addrs })
    (perm : (refsOf s'.disk din').Perm (s.freeblock :: refsOf s.disk din))
    (kept : DataKept s.disk s'.disk din din')
    (written : ∀ b, s'.disk b ≠ s.disk b → b ∈ refsOf s.disk din) :
    Appending s₀ d₀ q tot din' s' := by
  have unchanged : ∀ b, (b < nmeta ∨ s.freeblock ≤ b ∨ b < s₀.freeblock ∧ b ∉ refsOf s₀.disk d₀) →
      s'.disk b = s.disk b := fun b outside => by
    by_contra changed
    obtain ⟨data, below, origin⟩ := app.held b (written b changed)
    rcases outside with notData | above | ⟨lo, notHeld⟩
    · omega
    · omega
    · rcases origin with old | new
      · exact notHeld old
      · omega
  have fresh : s.freeblock ∉ refsOf s.disk din := fun mem => by
    have := (app.held _ mem).2.1
    omega
  refine ⟨by rw [len, app.len], by rw [freeinode, app.freeinode], by rw [next]; have := app.grows; omega,
    app.metaLe, by rw [next, len]; omega, ?_, fun b above => ?_, fun i bound => ?_, fun b mem => ?_,
    perm.nodup_iff.mpr (List.nodup_cons.mpr ⟨fresh, app.nodup⟩), fun b lo notHeld => ?_,
    fun p covered => ?_, fun p covered => ?_, app.fits⟩
  · calc din' = { din with addrs := din'.addrs } := rest
      _ = { d₀ with addrs := din'.addrs } := by rw [app.rest]
  · rw [next] at above
    rw [unchanged b (.inr (.inl (by omega)))]
    exact app.zero b (by omega)
  · have slot := IBLOCK_lt_nmeta bound
    rw [← app.tables i bound]
    simp only [table]
    rw [unchanged _ (.inl slot)]
  · rcases List.mem_cons.mp (perm.mem_iff.mp mem) with rfl | old
    · have := app.grows
      have := app.metaLe
      exact ⟨by omega, by omega, .inr app.grows⟩
    · obtain ⟨data, below, origin⟩ := app.held b old
      exact ⟨data, by omega, origin⟩
  · rw [unchanged b (.inr (.inr ⟨lo, notHeld⟩))]
    exact app.frame b lo notHeld
  · rw [(kept _ (app.mapped p covered)).1]
    exact app.mapped p covered
  · rw [kept.fileByte (app.mapped p covered)]
    exact app.written p covered

section Allocations

variable {tot : Nat} {din : Dinode} {s : State}

theorem Appending.freeblock_pos (app : Appending s₀ d₀ q tot din s) : s.freeblock ≠ 0 := by
  have := app.grows
  have := app.metaLe
  rw [nmeta_eq] at *
  omega

/-- `din.addrs[fbn] = xint(freeblock++)` at an empty direct address. -/
theorem Appending.setDirect (app : Appending s₀ d₀ q tot din s) (j : Fin NDIRECT) (empty : din.addrs j.castSucc = 0)
    (inImage : s.freeblock < s.len) :
    Appending s₀ d₀ q tot { din with addrs := Function.update din.addrs j.castSucc s.freeblock }
      { s with freeblock := s.freeblock + 1 } := by
  refine app.alloc rfl rfl rfl inImage rfl (refsOf_setDirect s.disk din empty app.freeblock_pos)
    (fun bn mapped => ?_) (fun b changed => absurd rfl changed)
  -- the index it maps had no block
  have other : bn ≠ j.val := fun same => mapped (by rw [same, blockAddr_direct]; exact empty)
  exact ⟨by rw [blockAddr_setDirect, if_neg other], rfl⟩

/-- `din.addrs[NDIRECT] = xint(freeblock++)` when there is no indirect block:
the new one is zero, so it maps nothing yet. -/
theorem Appending.setIndirect (app : Appending s₀ d₀ q tot din s) (empty : din.addrs indirect = 0)
    (inImage : s.freeblock < s.len) :
    Appending s₀ d₀ q tot { din with addrs := Function.update din.addrs indirect s.freeblock }
      { s with freeblock := s.freeblock + 1 } :=
  app.alloc rfl rfl rfl inImage rfl
    (refsOf_setIndirect s.disk din empty app.freeblock_pos (app.zero _ (le_refl _)))
    (fun bn _ => ⟨blockAddr_setIndirect s.disk din empty (app.zero _ (le_refl _)) bn, rfl⟩)
    (fun _ changed => absurd rfl changed)

/-- `indirect[fbn - NDIRECT] = xint(freeblock++)` at an empty entry, and the
indirect block written back. -/
theorem Appending.setEntry (app : Appending s₀ d₀ q tot din s) (present : din.addrs indirect ≠ 0) {j : Nat}
    (hj : j < NINDIRECT) (empty : field (s.disk (din.addrs indirect)) (4 * j) 4 = 0) (inImage : s.freeblock < s.len) :
    Appending s₀ d₀ q tot din (wsect { s with freeblock := s.freeblock + 1 } (din.addrs indirect)
      (setField (s.disk (din.addrs indirect)) (4 * j) 4 s.freeblock)) := by
  have small : s.freeblock < 2 ^ 32 := by
    rw [app.len] at inImage
    exact lt_of_lt_of_le inImage (by decide)
  have indirectHeld := app.held _ (indirect_mem_refsOf s.disk present)
  have within : max s.len (din.addrs indirect + 1) = s.len := by have := app.inImage; omega
  refine app.alloc (by rw [wsect_len]; exact within) rfl rfl inImage rfl
    (refsOf_setEntry s.disk din present hj empty app.freeblock_pos small) (fun bn mapped => ?_) (fun b changed => ?_)
  · -- the entry it sets had no block, and the indirect block is no data block
    have other : bn ≠ NDIRECT + j := fun same => mapped (by rw [same, blockAddr_entry s.disk present hj]; exact empty)
    have notIndirect := (blockAddr_mem_refsOf s.disk din mapped).2 app.nodup
    refine ⟨by rw [wsect_disk, blockAddr_setEntry s.disk din present hj small, if_neg other], ?_⟩
    rw [wsect_disk, Function.update_of_ne notIndirect]
  · have same : b = din.addrs indirect := by
      by_contra other
      rw [wsect_disk, Function.update_of_ne other] at changed
      exact changed rfl
    rw [same]
    exact indirect_mem_refsOf s.disk present

end Allocations

/-- A pass copies `n1` bytes into the block `x` that the index of offset
`d₀.size + tot` maps, inside that block: they read back there, every other
byte and every block but `x` is as it was. -/
theorem Appending.write {tot n1 x : Nat} {din : Dinode} {s : State} (app : Appending s₀ d₀ q tot din s)
    (hit : blockAddr s.disk din ((d₀.size + tot) / BSIZE) = x) (data : nmeta ≤ x)
    (inBlock : n1 ≤ BSIZE - (d₀.size + tot) % BSIZE) (inRange : (d₀.size + tot) / BSIZE < MAXFILE) :
    Appending s₀ d₀ q (tot + n1) din
      (wsect s x (copyInto (s.disk x) ((d₀.size + tot) % BSIZE) (loadBytes (fun i => q.getD i 0) (0 + tot) n1))) := by
  set blk := copyInto (s.disk x) ((d₀.size + tot) % BSIZE) (loadBytes (fun i => q.getD i 0) (0 + tot) n1) with blk_def
  have nonzero : x ≠ 0 := by rw [nmeta_eq] at data; omega
  have mappedX : blockAddr s.disk din ((d₀.size + tot) / BSIZE) ≠ 0 := hit ▸ nonzero
  obtain ⟨mem, notIndirect⟩ := blockAddr_mem_refsOf s.disk din mappedX
  have notInd : din.addrs indirect ≠ x := fun same => notIndirect app.nodup (hit.trans same.symm)
  obtain ⟨-, below, origin⟩ := app.held x (hit ▸ mem)
  have sameMap : ∀ bn, blockAddr (Function.update s.disk x blk) din bn = blockAddr s.disk din bn :=
    blockAddr_congr s.disk din fun _ => Function.update_of_ne notInd _ _
  have sameRefs : refsOf (Function.update s.disk x blk) din = refsOf s.disk din :=
    refsOf_congr fun _ => Function.update_of_ne notInd _ _
  have within : max s.len (x + 1) = s.len := by have := app.inImage; omega
  refine ⟨by rw [wsect_len, within, app.len], app.freeinode, app.grows, app.metaLe,
    by rw [wsect_len, within]; exact app.inImage, app.rest, fun b above => ?_, fun i bound => ?_,
    fun b held => ?_, by rw [wsect_disk, sameRefs]; exact app.nodup, fun b lo notHeld => ?_,
    fun p covered => ?_, ?_, .inr ?_⟩
  · rw [wsect_freeblock] at above
    rw [wsect_disk, Function.update_of_ne (by omega)]
    exact app.zero b above
  · have slot := IBLOCK_lt_nmeta bound
    rw [table_wsect_of_ne _ (by omega)]
    exact app.tables i bound
  · rw [wsect_disk, sameRefs] at held
    exact app.held b held
  · have other : b ≠ x := fun same => by
      rcases origin with old | new
      · exact notHeld (same ▸ old)
      · omega
    rw [wsect_disk, Function.update_of_ne other]
    exact app.frame b lo notHeld
  · rw [wsect_disk, sameMap]
    by_cases old : blockAddr s₀.disk d₀ (p / BSIZE) ≠ 0 ∨ d₀.size ≤ p ∧ p < d₀.size + tot
    · exact app.mapped p old
    · -- a byte of this pass: in the block of the pass's offset
      have here : p / BSIZE = (d₀.size + tot) / BSIZE := by
        rw [BSIZE_eq] at inBlock ⊢
        omega
      rw [here]
      exact mappedX
  · exact app.written.pass app.nodup app.mapped hit inBlock sameMap
  · rw [BSIZE_eq] at inBlock inRange ⊢
    rw [MAXFILE_eq] at inRange ⊢
    omega

/-- A block the inode maps is a data block. -/
theorem Appending.mapped_data {tot bn : Nat} {din : Dinode} {s : State} (app : Appending s₀ d₀ q tot din s)
    (mapped : blockAddr s.disk din bn ≠ 0) : nmeta ≤ blockAddr s.disk din bn :=
  (app.held _ (blockAddr_mem_refsOf s.disk din mapped).1).1

/-- The part of `fileBlock` past the direct addresses, once the inode has its
indirect block: the entry for index `NDIRECT + j`, taken from `freeblock` and
written back when it is empty. -/
theorem Appending.entry {tot j x : Nat} {din din₁ : Dinode} {s s₁ : State} (app : Appending s₀ d₀ q tot din s)
    (present : din.addrs indirect ≠ 0) (hj : j < NINDIRECT)
    (found : (do
      let buf ← rsect s (din.addrs indirect)
      if field buf (4 * j) 4 = 0 then
        pure (s.freeblock, din,
          wsect { s with freeblock := s.freeblock + 1 } (din.addrs indirect) (setField buf (4 * j) 4 s.freeblock))
      else pure (field buf (4 * j) 4, din, s) : Except String (Nat × Dinode × State)) = .ok (x, din₁, s₁))
    (readable : x < s₁.len) :
    Appending s₀ d₀ q tot din₁ s₁ ∧ blockAddr s₁.disk din₁ (NDIRECT + j) = x ∧ nmeta ≤ x := by
  obtain ⟨buf, read, rest⟩ := Faults.bind_eq_ok found
  obtain ⟨inside, rfl⟩ := rsect_eq_ok read
  by_cases empty : field (s.disk (din.addrs indirect)) (4 * j) 4 = 0
  · -- a new block for the entry
    rw [if_pos empty] at rest
    cases rest
    have inImage : s.freeblock < s.len := by
      simp only [wsect_len] at readable
      omega
    have small : s.freeblock < 2 ^ 32 := by
      rw [app.len] at inImage
      exact lt_of_lt_of_le inImage (by decide)
    refine ⟨app.setEntry present hj empty inImage, ?_, by have := app.grows; have := app.metaLe; omega⟩
    rw [wsect_disk, blockAddr_setEntry s.disk din present hj small, if_pos rfl]
  · -- the entry's block
    rw [if_neg empty] at rest
    cases rest
    have hit := blockAddr_entry s.disk present hj
    refine ⟨app, hit, ?_⟩
    rw [← hit]
    exact app.mapped_data (by rw [hit]; exact empty)

/-- `fileBlock` leaves the loop's invariant with a block for index `fbn`, a
data block the inode holds, given that the block it returns could be read. -/
theorem Appending.block {tot fbn x : Nat} {din din₁ : Dinode} {s s₁ : State} (app : Appending s₀ d₀ q tot din s)
    (found : fileBlock s din fbn = .ok (x, din₁, s₁)) (inRange : fbn < MAXFILE) (readable : x < s₁.len) :
    Appending s₀ d₀ q tot din₁ s₁ ∧ blockAddr s₁.disk din₁ fbn = x ∧ nmeta ≤ x := by
  unfold fileBlock at found
  by_cases direct : fbn < NDIRECT
  · rw [dif_pos direct] at found
    set j : Fin NDIRECT := ⟨fbn, direct⟩
    have index : fbn = j.val := rfl
    by_cases empty : din.addrs j.castSucc = 0
    · -- a new direct block
      rw [if_pos empty] at found
      cases found
      refine ⟨app.setDirect j empty readable, ?_, by have := app.grows; have := app.metaLe; omega⟩
      rw [index, blockAddr_direct]
      exact Function.update_self _ _ _
    · rw [if_neg empty] at found
      cases found
      have hit := blockAddr_direct s.disk din j
      refine ⟨app, hit, ?_⟩
      rw [← hit]
      exact app.mapped_data (by rw [hit]; exact empty)
  · rw [dif_neg direct] at found
    have index : fbn = NDIRECT + (fbn - NDIRECT) := by omega
    have hj : fbn - NDIRECT < NINDIRECT := by
      rw [MAXFILE_eq] at inRange
      rw [NDIRECT_eq] at direct ⊢
      rw [NINDIRECT_eq]
      omega
    rw [index]
    by_cases emptyInd : din.addrs indirect = 0
    · -- a new indirect block first: it is read, so it is inside the image
      simp only [emptyInd, if_true] at found
      obtain ⟨buf, read, -⟩ := Faults.bind_eq_ok found
      have inImage : s.freeblock < s.len := by
        have := (rsect_eq_ok read).1
        rwa [Function.update_self] at this
      have present : (Function.update din.addrs indirect s.freeblock) indirect ≠ 0 := by
        rw [Function.update_self]
        exact app.freeblock_pos
      exact (app.setIndirect emptyInd inImage).entry present hj found readable
    · simp only [emptyInd, if_false] at found
      exact app.entry emptyInd hj found readable

/-- `iappend`'s loop from `tot` bytes of `q` on, by induction on its fuel:
when it returns, it has appended all of `q` after the inode's old size.  Each
pass copies at least one byte, so the fuel never runs out first. -/
theorem appendLoop_spec : ∀ (fuel tot : Nat) {din din' : Dinode} {s s' : State} {off' : Nat},
    q.length - tot ≤ fuel → tot ≤ q.length → Appending s₀ d₀ q tot din s →
    appendLoop fuel din (d₀.size + tot) (q.drop tot) s = .ok (din', off', s') →
    off' = d₀.size + q.length ∧ Appending s₀ d₀ q q.length din' s'
  | 0, tot, din, din', s, s', off', enough, atMost, app, loop => by
      obtain rfl : tot = q.length := by omega
      cases loop
      exact ⟨rfl, app⟩
  | fuel + 1, tot, din, din', s, s', off', enough, atMost, app, loop => by
      rw [appendLoop] at loop
      by_cases done : (q.drop tot).length = 0
      · -- nothing left to append
        rw [if_pos done] at loop
        obtain rfl : tot = q.length := by
          rw [List.length_drop] at done
          omega
        cases loop
        exact ⟨rfl, app⟩
      · rw [if_neg done] at loop
        by_cases inRange : (d₀.size + tot) / BSIZE < MAXFILE
        · rw [if_pos inRange] at loop
          -- the pass: `fileBlock`, `rsect` of its block, the copy, and the rest of the loop
          obtain ⟨⟨x, din₁, s₁⟩, found, rest⟩ := Faults.bind_eq_ok loop
          obtain ⟨buf, read, next⟩ := Faults.bind_eq_ok rest
          obtain ⟨readable, rfl⟩ := rsect_eq_ok read
          obtain ⟨app₁, hit, data⟩ := app.block found inRange readable
          have left : ((d₀.size + tot) / BSIZE + 1) * BSIZE - (d₀.size + tot) = BSIZE - (d₀.size + tot) % BSIZE := by
            rw [BSIZE_eq]
            omega
          have start : d₀.size + tot - (d₀.size + tot) / BSIZE * BSIZE = (d₀.size + tot) % BSIZE := by
            rw [BSIZE_eq]
            omega
          set n1 := min (q.drop tot).length (BSIZE - (d₀.size + tot) % BSIZE) with n1_def
          have moved : 0 < n1 := by
            rw [n1_def, BSIZE_eq]
            omega
          have inside : tot + n1 ≤ q.length := by
            rw [n1_def, List.length_drop]
            omega
          dsimp only at next
          rw [left, ← n1_def, start, take_drop_eq_loadBytes q inside, List.drop_drop, Nat.add_assoc] at next
          exact appendLoop_spec fuel (tot + n1) (by omega) inside
            (app₁.write hit data (Nat.min_le_right _ _) inRange) next
        · rw [if_neg inRange] at loop
          cases loop

/-- The inode the loop leaves, with the size it reached, fits the widths of
the on-disk inode: its addresses are blocks of the image, and the size stays
within `MAXFILE` blocks. -/
theorem Appending.fits_sized {tot : Nat} {din : Dinode} {s : State} (app : Appending s₀ d₀ q tot din s)
    (fits : d₀.Fits) : ({ d₀ with addrs := din.addrs, size := d₀.size + tot } : Dinode).Fits := by
  refine fits_with fits (fun k => ?_) ?_
  · by_cases present : din.addrs k = 0
    · rw [present]
      decide
    · have below := (app.held _ (addrs_mem_refsOf s.disk present)).2.1
      have := app.inImage
      rw [app.len] at this
      exact lt_of_lt_of_le below (le_trans this (by decide))
  · rcases app.fits with empty | small
    · rw [empty, Nat.add_zero]
      exact fits.size
    · exact lt_of_le_of_lt small (by decide)

end Append

/-! ## `iappend` -/

/-- What `iappend` of `p` to inode `inum` leaves, from a sound image: a sound
image; the inode with its old fields but for its map and its size, which grows
by `p`; every other inode's slot as it was; every data block the inode did not
hold, up to the old `freeblock`, as it was; and, over the map, every byte the
inode had and every byte of `p` after them reading as they should. -/
structure Appended (s s' : State) (inum : Nat) (p : List UInt8) : Prop where
  sound : Sound s'
  freeinode : s'.freeinode = s.freeinode
  grows : s.freeblock ≤ s'.freeblock
  inode : table sb s'.disk inum =
    { table sb s.disk inum with addrs := (table sb s'.disk inum).addrs, size := (table sb s.disk inum).size + p.length }
  others : ∀ i, i < NINODES → i ≠ inum → table sb s'.disk i = table sb s.disk i
  frame : ∀ b, nmeta ≤ b → b < s.freeblock → b ∉ refsOf s.disk (table sb s.disk inum) → s'.disk b = s.disk b
  mapped : ∀ pos, (blockAddr s.disk (table sb s.disk inum) (pos / BSIZE) ≠ 0 ∨
      (table sb s.disk inum).size ≤ pos ∧ pos < (table sb s.disk inum).size + p.length) →
    blockAddr s'.disk (table sb s'.disk inum) (pos / BSIZE) ≠ 0
  written : Overwrites s.disk s'.disk (table sb s.disk inum) (table sb s'.disk inum) (table sb s.disk inum).size
    p.length (fun i => p.getD i 0) 0
  bounded : p.length = 0 ∨ (table sb s'.disk inum).size ≤ MAXFILE * BSIZE

/-- The bytes appended to an inode that held `old` follow them. -/
theorem Holds.append {s s' : State} {inum : Nat} {old p : List UInt8} (holds : Holds s.disk inum old)
    (app : Appended s s' inum p) : Holds s'.disk inum (old ++ p) := by
  have size : (table sb s.disk inum).size = old.length := holds.size
  have size' : (table sb s'.disk inum).size = (old ++ p).length := by
    rw [app.inode, List.length_append, size]
  -- every byte below the new size: an old byte in a mapped block, or an appended one
  have covered : ∀ pos, pos < (old ++ p).length →
      blockAddr s.disk (table sb s.disk inum) (pos / BSIZE) ≠ 0 ∨
        (table sb s.disk inum).size ≤ pos ∧ pos < (table sb s.disk inum).size + p.length := fun pos lt => by
    rw [List.length_append, ← size] at lt
    by_cases before : pos < (table sb s.disk inum).size
    · exact .inl (holds.noHoles _ (by have := Nat.div_mul_le_self pos BSIZE; omega))
    · exact .inr ⟨by omega, lt⟩
  refine ⟨size', fun bn below => ?_, ?_⟩
  · have mapped := app.mapped (bn * BSIZE) (covered _ (by rw [← size']; exact below))
    rwa [Nat.mul_div_cancel _ (by rw [BSIZE_eq]; decide)] at mapped
  · apply List.ext_getElem (by simp [fileBytes])
    intro i lhs rhs
    simp only [fileBytes, List.getElem_map, List.getElem_range, Nat.zero_add]
    have inside : i < old.length + p.length := by simpa using rhs
    rw [app.written i (covered i rhs)]
    split
    · rename_i appended
      rw [List.getElem_append_right (by omega), size, Nat.zero_add]
      exact List.getD_eq_getElem p 0 (by omega)
    · rename_i outside
      rw [List.getElem_append_left (by omega)]
      exact holds.byte (by omega)

/-- The write-back that ends `iappend`: the inode the loop leaves, with the
size it reached, stored in its slot.  The slot's block is no data block, so
the inode's blocks and every other inode's are as the loop left them. -/
theorem Appending.writeBack {s s₁ : State} (sound : Sound s) {inum : Nat} (bound : inum < NINODES)
    {p : List UInt8} {din : Dinode} (app : Appending s (table sb s.disk inum) p p.length din s₁) :
    Appended s (wsect s₁ (IBLOCK inum sb) (({ din with size := (table sb s.disk inum).size + p.length } : Dinode).write
      (s₁.disk (IBLOCK inum sb)) (inum % IPB))) inum p := by
  set d := table sb s.disk inum with d_def
  set din' : Dinode := { d with addrs := din.addrs, size := d.size + p.length } with din'_def
  have shape : ({ din with size := d.size + p.length } : Dinode) = din' := by
    conv_lhs => rw [app.rest]
  rw [shape]
  set blk := din'.write (s₁.disk (IBLOCK inum sb)) (inum % IPB) with blk_def
  have notData : IBLOCK inum sb < nmeta := IBLOCK_lt_nmeta bound
  have tab : ∀ i, i < NINODES → table sb (wsect s₁ (IBLOCK inum sb) blk).disk i =
      if i = inum then din' else table sb s.disk i := fun i below => by
    rw [table_winode s₁ (app.fits_sized (table_fits s.disk inum)), app.tables i below]
  -- the inode's own blocks are data blocks, which the write of its slot leaves alone
  obtain ⟨selfRefs, selfKept⟩ := meta_write_keeps (fun b mem => (app.held b mem).1) notData blk
  -- another inode's blocks: below the old `freeblock`, not the inode's, so kept by the loop
  have otherBlocks : ∀ i, i < NINODES → i ≠ inum → ∀ b ∈ refsOf s.disk (table sb s.disk i),
      (wsect s₁ (IBLOCK inum sb) blk).disk b = s.disk b := fun i below other b mem => by
    obtain ⟨data, lo⟩ := sound.inData i below b mem
    rw [wsect_disk, Function.update_of_ne (by omega)]
    exact app.frame b lo (sound.disjoint i inum below bound other b mem)
  have refs : ∀ i, i < NINODES → refsOf (wsect s₁ (IBLOCK inum sb) blk).disk (table sb (wsect s₁ (IBLOCK inum sb) blk).disk i) =
      if i = inum then refsOf s₁.disk din else refsOf s.disk (table sb s.disk i) := fun i below => by
    rw [tab i below]
    by_cases self : i = inum
    · rw [if_pos self, if_pos self]
      exact selfRefs
    · rw [if_neg self, if_neg self]
      exact refsOf_congr fun present => otherBlocks i below self _ (indirect_mem_refsOf _ present)
  have grows := app.grows
  have freeblock : (wsect s₁ (IBLOCK inum sb) blk).freeblock = s₁.freeblock := rfl
  have sound' : Sound (wsect s₁ (IBLOCK inum sb) blk) := by
    refine sound.replace (wsect_len_of_meta app.len notData blk) grows
      (by have := app.inImage; rw [app.len] at this; exact this) (fun b above => ?_)
      refs (fun b mem => ⟨(app.held b mem).1, (app.held b mem).2.1⟩) app.nodup (fun j hj other b mem own => ?_)
    · have := sound.metaLe
      rw [wsect_disk, Function.update_of_ne (by omega)]
      exact app.zero b above
    · -- a block of the inode: its own or handed out since, so no other inode's
      rcases (app.held b mem).2.2 with old | new
      · exact sound.disjoint inum j bound hj (Ne.symm other) b old own
      · have := (sound.inData j hj b own).2
        omega
  refine ⟨sound', app.freeinode, grows, by rw [tab inum bound, if_pos rfl], fun i below other => by rw [tab i below, if_neg other],
    fun b data lo notHeld => ?_, fun pos covered => ?_, fun pos covered => ?_, by rw [tab inum bound, if_pos rfl]; exact app.fits⟩
  · rw [wsect_disk, Function.update_of_ne (by omega)]
    exact app.frame b lo notHeld
  · rw [tab inum bound, if_pos rfl]
    have mapped := app.mapped pos covered
    show blockAddr (Function.update s₁.disk (IBLOCK inum sb) blk) din (pos / BSIZE) ≠ 0
    rw [(selfKept _ mapped).1]
    exact mapped
  · rw [tab inum bound, if_pos rfl]
    show fileByte (Function.update s₁.disk (IBLOCK inum sb) blk) din pos = _
    rw [selfKept.fileByte (app.mapped pos covered)]
    exact app.written pos covered

/-- `iappend`: the loop from the inode as read, then the write-back. -/
theorem iappend_spec {s s' : State} (sound : Sound s) {inum : Nat} (bound : inum < NINODES) {p : List UInt8}
    (appended : iappend s inum p = .ok s') : Appended s s' inum p := by
  obtain ⟨din, read, rest⟩ := Faults.bind_eq_ok appended
  rw [rinode_spec (sound.inode_lt_len bound)] at read
  cases read
  obtain ⟨⟨din', off, s₁⟩, loop, written⟩ := Faults.bind_eq_ok rest
  obtain ⟨rfl, app⟩ := appendLoop_spec (q := p) p.length 0 (by omega) (Nat.zero_le _) (Appending.start sound bound rfl)
    (by rw [Nat.add_zero, List.drop_zero]; exact loop)
  have slot : IBLOCK inum sb < s₁.len := by rw [app.len, ← sound.len]; exact sound.inode_lt_len bound
  dsimp only at written
  rw [winode_spec slot] at written
  cases written
  exact app.writeBack sound bound

/-! ## Every other inode -/

/-- A write of one inode's slot keeps every other slot, whatever it writes. -/
theorem table_winode_of_ne (s : State) {inum i : Nat} (d : Dinode) (other : i ≠ inum) :
    table sb (wsect s (IBLOCK inum sb) (d.write (s.disk (IBLOCK inum sb)) (inum % IPB))).disk i =
      table sb s.disk i := by
  by_cases block : IBLOCK i sb = IBLOCK inum sb
  · -- another slot of the same block
    have slot : inum % IPB ≠ i % IPB := by
      unfold IBLOCK at block
      rw [IPB_eq] at block ⊢
      omega
    simp only [table, wsect_disk, block, Function.update_self, Dinode.read_write_of_ne _ _ slot]
  · exact table_wsect_of_ne s (Ne.symm block) _

/-- A step of mkfs that leaves every inode but `inum` alone: its slot, and
every block it holds. -/
structure Spares (s s' : State) (inum : Nat) : Prop where
  others : ∀ i, i < NINODES → i ≠ inum → table sb s'.disk i = table sb s.disk i
  blocks : ∀ i, i < NINODES → i ≠ inum → ∀ b ∈ refsOf s.disk (table sb s.disk i), s'.disk b = s.disk b

section Spares

variable {s s₁ s₂ : State} {inum i : Nat}

theorem Spares.refs (spares : Spares s s₁ inum) (bound : i < NINODES) (other : i ≠ inum) :
    refsOf s₁.disk (table sb s₁.disk i) = refsOf s.disk (table sb s.disk i) := by
  rw [spares.others i bound other]
  exact refsOf_congr fun present => spares.blocks i bound other _ (indirect_mem_refsOf _ present)

theorem Spares.trans (first : Spares s s₁ inum) (second : Spares s₁ s₂ inum) : Spares s s₂ inum where
  others i bound other := (second.others i bound other).trans (first.others i bound other)
  blocks i bound other b mem := by
    rw [second.blocks i bound other b (by rw [first.refs bound other]; exact mem)]
    exact first.blocks i bound other b mem

theorem Spares.holds (spares : Spares s s₁ inum) (bound : i < NINODES) (other : i ≠ inum) {bytes : List UInt8}
    (holds : Holds s.disk i bytes) : Holds s₁.disk i bytes :=
  holds.keep (spares.others i bound other) (spares.blocks i bound other)

/-- `iappend` spares every other inode: their blocks are not its own, and it
writes only its own and new ones. -/
theorem Appended.spares {p : List UInt8} (app : Appended s s₁ inum p) (sound : Sound s) (bound : inum < NINODES) :
    Spares s s₁ inum where
  others := app.others
  blocks i below other b mem := by
    obtain ⟨data, lo⟩ := sound.inData i below b mem
    exact app.frame b data lo (sound.disjoint i inum below bound other b mem)

end Spares

/-! ## `ialloc` -/

/-- What `ialloc` leaves: the next inode, fresh, and everything else as it was. -/
structure Allocated (s s' : State) (inum : Nat) (type : Int) : Prop where
  number : inum = s.freeinode
  freeinode : s'.freeinode = s.freeinode + 1
  sound : Sound s'
  fresh : table sb s'.disk inum = freshDinode type
  spares : Spares s s' inum

theorem ialloc_allocated {s s' : State} {inum : Nat} {type : Int} (sound : Sound s) (room : s.freeinode < NINODES)
    (small : -(2 ^ 16 : Int) ≤ 2 * type ∧ 2 * type < 2 ^ 16) (alloc : ialloc s type = .ok (inum, s')) :
    Allocated s s' inum type := by
  rw [ialloc_spec (sound.inode_lt_len room)] at alloc
  cases alloc
  set blk := (freshDinode type).write (s.disk (IBLOCK s.freeinode sb)) (s.freeinode % IPB)
  have notData : IBLOCK s.freeinode sb < nmeta := IBLOCK_lt_nmeta room
  have tab : ∀ i, table sb (wsect { s with freeinode := s.freeinode + 1 } (IBLOCK s.freeinode sb) blk).disk i =
      if i = s.freeinode then freshDinode type else table sb s.disk i := fun i =>
    table_winode { s with freeinode := s.freeinode + 1 } (freshDinode_fits small) i
  -- the inode block is no data block: every other inode keeps its blocks
  have kept : ∀ b, nmeta ≤ b →
      (wsect { s with freeinode := s.freeinode + 1 } (IBLOCK s.freeinode sb) blk).disk b = s.disk b :=
    fun b data => Function.update_of_ne (by omega) _ _
  have refs : ∀ i, i < NINODES →
      refsOf (wsect { s with freeinode := s.freeinode + 1 } (IBLOCK s.freeinode sb) blk).disk
        (table sb (wsect { s with freeinode := s.freeinode + 1 } (IBLOCK s.freeinode sb) blk).disk i) =
      if i = s.freeinode then [] else refsOf s.disk (table sb s.disk i) := fun i below => by
    rw [tab i]
    split
    · exact refsOf_of_zero fun _ => rfl
    · exact (meta_write_keeps (fun b mem => (sound.inData i below b mem).1) notData blk).1
  have sound' : Sound (wsect { s with freeinode := s.freeinode + 1 } (IBLOCK s.freeinode sb) blk) :=
    sound.replace (wsect_len_of_meta sound.len notData blk) le_rfl sound.below
      (fun b above => by rw [kept b (le_trans sound.metaLe above)]; exact sound.zero b above)
      refs (fun _ mem => by cases mem) List.nodup_nil (fun _ _ _ _ mem => by cases mem)
  exact ⟨rfl, rfl, sound', by rw [tab, if_pos rfl],
    ⟨fun i _ other => by rw [tab, if_neg other], fun i below _ b mem => kept b (sound.inData i below b mem).1⟩⟩

/-! ## The bytes of one file -/

/-- What appending the bytes `p` to inode `inum`, which held `old`, leaves:
the image sound, the inode holding `old ++ p` with its type and links, and
every other inode spared. -/
structure Extended (s s' : State) (inum : Nat) (old p : List UInt8) : Prop where
  sound : Sound s'
  freeinode : s'.freeinode = s.freeinode
  holds : Holds s'.disk inum (old ++ p)
  type : (table sb s'.disk inum).type = (table sb s.disk inum).type
  nlink : (table sb s'.disk inum).nlink = (table sb s.disk inum).nlink
  spares : Spares s s' inum

section Extended

variable {s s₁ s₂ : State} {inum : Nat} {old p p' : List UInt8}

theorem Extended.refl (sound : Sound s) (holds : Holds s.disk inum old) : Extended s s inum old [] where
  sound := sound
  freeinode := rfl
  holds := by rw [List.append_nil]; exact holds
  type := rfl
  nlink := rfl
  spares := ⟨fun _ _ _ => rfl, fun _ _ _ _ _ => rfl⟩

theorem Extended.trans (first : Extended s s₁ inum old p) (second : Extended s₁ s₂ inum (old ++ p) p') :
    Extended s s₂ inum old (p ++ p') where
  sound := second.sound
  freeinode := second.freeinode.trans first.freeinode
  holds := by rw [← List.append_assoc]; exact second.holds
  type := second.type.trans first.type
  nlink := second.nlink.trans first.nlink
  spares := first.spares.trans second.spares

theorem Appended.extended (app : Appended s s₁ inum p) (sound : Sound s) (bound : inum < NINODES)
    (holds : Holds s.disk inum old) : Extended s s₁ inum old p where
  sound := app.sound
  freeinode := app.freeinode
  holds := holds.append app
  type := by rw [app.inode]
  nlink := by rw [app.inode]
  spares := app.spares sound bound

end Extended

/-- `appendFile`: the bytes of the input file, one `read` at a time, follow
what the inode held. -/
theorem appendFile_spec {inum : Nat} (bound : inum < NINODES) (s : State) (contents : List UInt8) :
    ∀ {s' : State} {old : List UInt8}, Sound s → Holds s.disk inum old →
      appendFile inum s contents = .ok s' → Extended s s' inum old contents := by
  fun_induction appendFile inum s contents with
  | case1 s =>
    intro s' old sound holds copied
    cases copied
    exact Extended.refl sound holds
  | case2 s b bs ih =>
    intro s' old sound holds copied
    obtain ⟨s₁, appended, rest⟩ := Faults.bind_eq_ok copied
    have first := (iappend_spec sound bound appended).extended sound bound holds
    have whole := first.trans (ih s₁ first.sound first.holds rest)
    rwa [List.take_append_drop] at whole

/-! ## The loop of `main` -/

/-- The image file as `main` starts on it, zeroed with the superblock in
block 1: no inode holds a block yet. -/
theorem start_sound : Sound ⟨Function.update (fun _ => Block.zero) 1 superBlock, FSSIZE, 1, nmeta⟩ := by
  have empty : ∀ i, refsOf (Function.update (fun _ => Block.zero) 1 superBlock)
      (table sb (Function.update (fun _ => Block.zero) 1 superBlock) i) = [] := fun i => by
    have notSuper : IBLOCK i sb ≠ 1 := by
      have start : 32 ≤ IBLOCK i sb := Nat.le_add_left 32 (i / IPB)
      omega
    exact refsOf_of_zero (table_addrs_of_zero (Function.update_of_ne notSuper _ _))
  refine ⟨rfl, le_refl _, by decide, fun b above => ?_, fun i _ b mem => ?_, fun i _ => ?_,
    fun i _ _ _ _ b mem => ?_⟩
  · dsimp only at above ⊢
    rw [nmeta_eq] at above
    exact Function.update_of_ne (show b ≠ 1 by omega) _ _
  · dsimp only at mem
    rw [empty i] at mem
    cases mem
  · dsimp only
    rw [empty i]
    exact List.nodup_nil
  · dsimp only at mem
    rw [empty i] at mem
    cases mem

/-- The inodes of the input files start after the root's. -/
theorem file_ne_ROOTINO (k : Nat) : k + 2 ≠ ROOTINO := by
  unfold ROOTINO
  omega

/-- The image after the loop of `main` has added the input files `done`:
the `k`-th is inode `k + 2`, a regular file with one link holding its bytes. -/
structure Written (done : List InFile) (s : State) : Prop where
  sound : Sound s
  freeinode : s.freeinode = done.length + 2
  rootSize : (table sb s.disk ROOTINO).size ≤ MAXFILE * BSIZE
  files : ∀ k (hk : k < done.length), (table sb s.disk (k + 2)).type = T_FILE ∧
    (table sb s.disk (k + 2)).nlink = 1 ∧ Holds s.disk (k + 2) done[k].contents

/-- One pass of the loop: the file gets the next inode, its entry goes into
the root, and its bytes into the inode; the files before keep theirs. -/
theorem addFile_written {done : List InFile} {s s' : State} {f : InFile} (written : Written done s)
    (room : done.length + 3 ≤ NINODES) (added : addFile ROOTINO s f = .ok s') : Written (done ++ [f]) s' := by
  unfold addFile at added
  dsimp only at added
  -- the two checks of the name: a failed one stops mkfs
  split at added
  · obtain ⟨_, stopped, _⟩ := Faults.bind_eq_ok added
    cases stopped
  split at added
  · obtain ⟨_, stopped, _⟩ := Faults.bind_eq_ok added
    cases stopped
  obtain ⟨⟨inum, s₁⟩, alloc, rest⟩ := Faults.bind_eq_ok added
  dsimp only at rest
  obtain ⟨s₂, entered, copied⟩ := Faults.bind_eq_ok rest
  have fresh := ialloc_allocated written.sound (by rw [written.freeinode]; omega) (by decide) alloc
  have self : inum = done.length + 2 := fresh.number.trans written.freeinode
  have notRoot : inum ≠ ROOTINO := self ▸ file_ne_ROOTINO done.length
  have entry := iappend_spec fresh.sound (by decide) entered
  have root := entry.spares fresh.sound (by decide)
  have slot₂ : table sb s₂.disk inum = freshDinode T_FILE := by
    rw [root.others inum (by omega) notRoot, fresh.fresh]
  have copy := appendFile_spec (by omega) s₂ f.contents entry.sound (holds_fresh slot₂) copied
  refine ⟨copy.sound, ?_, ?_, fun k hk => ?_⟩
  · rw [copy.freeinode, entry.freeinode, fresh.freeinode, written.freeinode, List.length_append,
      List.length_singleton]
  · -- the root's size after its new entry
    rw [copy.spares.others ROOTINO (by decide) (Ne.symm notRoot)]
    exact entry.bounded.resolve_left (by rw [length_dirent]; decide)
  rw [List.length_append, List.length_singleton] at hk
  by_cases new : k = done.length
  · -- the file just added
    subst new
    simp only [List.getElem_concat_length]
    rw [← self]
    exact ⟨by rw [copy.type, slot₂]; rfl, by rw [copy.nlink, slot₂]; rfl, by simpa using copy.holds⟩
  · -- a file added before: its inode is none of the three written
    have old : k < done.length := by omega
    have bound : k + 2 < NINODES := by omega
    have other : k + 2 ≠ inum := by omega
    have notRoot' := file_ne_ROOTINO k
    obtain ⟨type, nlink, holds⟩ := written.files k old
    have slot : table sb s'.disk (k + 2) = table sb s.disk (k + 2) := by
      rw [copy.spares.others _ bound other, root.others _ bound notRoot', fresh.spares.others _ bound other]
    rw [List.getElem_append_left old, slot]
    exact ⟨type, nlink, copy.spares.holds bound other (root.holds bound notRoot' (fresh.spares.holds bound other holds))⟩

/-- The loop of `main` over the input files. -/
theorem addFiles_written : ∀ (rest : List InFile) {done : List InFile} {s s' : State}, Written done s →
    done.length + rest.length + 2 ≤ NINODES → rest.foldlM (addFile ROOTINO) s = .ok s' → Written (done ++ rest) s'
  | [], done, s, s', written, _, added => by
    rw [List.foldlM_nil] at added
    cases added
    rw [List.append_nil]
    exact written
  | f :: rest, done, s, s', written, room, added => by
    rw [List.foldlM_cons] at added
    obtain ⟨s₁, first, others⟩ := Faults.bind_eq_ok added
    rw [List.length_cons] at room
    have all := addFiles_written rest (addFile_written written (by omega) first)
      (by rw [List.length_append, List.length_singleton]; omega) others
    rwa [List.append_assoc, List.singleton_append] at all

/-- The bitmap block and the root's inode block are no data blocks and hold
no other inode's slot. -/
theorem bmapstart_ne_IBLOCK {i : Nat} (bound : i < NINODES) : sb.bmapstart ≠ IBLOCK i sb := by
  have := IBLOCK_lt_nmeta bound
  have start : sb.inodestart = 32 := rfl
  have bmap : sb.bmapstart = 45 := rfl
  unfold IBLOCK at this ⊢
  rw [IPB_eq, nmeta_eq] at *
  show ¬ sb.bmapstart = i / 16 + sb.inodestart
  have : i / 16 ≤ 12 := by
    have : NINODES = 200 := rfl
    omega
  omega

/-- The last two writes of `main`, the root's inode block and the bitmap,
leave every data block alone. -/
theorem finish_keeps_data (s₄ : State) (blk₁ blk₂ : Block) {b : Nat} (data : nmeta ≤ b) :
    (wsect (wsect s₄ (IBLOCK ROOTINO sb) blk₁) sb.bmapstart blk₂).disk b = s₄.disk b := by
  have rootBlock := IBLOCK_lt_nmeta (show ROOTINO < NINODES by decide)
  have bmap : sb.bmapstart = 45 := rfl
  rw [nmeta_eq] at data rootBlock
  rw [wsect_disk, Function.update_of_ne (by omega), wsect_disk, Function.update_of_ne (by omega)]

/-- `main` after its loop over the input files: the image holds them as
`Written` says, and the root's size fix-up and the bitmap are its last two
writes. -/
theorem mkfs_written {files : List InFile} (room : files.length + 2 ≤ NINODES) {s : State}
    (made : mkfs files = .ok s) :
    ∃ s₄, Written files s₄ ∧ s₄.freeblock < BPB ∧
      s = wsect (wsect s₄ (IBLOCK ROOTINO sb) (({ table sb s₄.disk ROOTINO with
          size := ((table sb s₄.disk ROOTINO).size / BSIZE + 1) * BSIZE } : Dinode).write
          (s₄.disk (IBLOCK ROOTINO sb)) (ROOTINO % IPB)))
        sb.bmapstart ((List.range s₄.freeblock).foldl setBit Block.zero) := by
  -- the image file, zeroed, with the superblock
  simp only [mkfs, zeroed_image] at made
  -- the root: inode 1, then `.` and `..`
  obtain ⟨⟨rootino, s₁⟩, alloc, made⟩ := Faults.bind_eq_ok made
  have root := ialloc_allocated start_sound (by decide) (by decide) alloc
  have isRoot : rootino = ROOTINO := root.number
  subst isRoot
  simp only [ne_eq, not_true_eq_false, if_false] at made
  obtain ⟨s₂, dot, made⟩ := Faults.bind_eq_ok made
  obtain ⟨s₃, dotdot, made⟩ := Faults.bind_eq_ok made
  have app₂ := iappend_spec root.sound (by decide) dot
  have app₃ := iappend_spec app₂.sound (by decide) dotdot
  -- the input files
  obtain ⟨s₄, added, made⟩ := Faults.bind_eq_ok made
  have written₃ : Written [] s₃ :=
    ⟨app₃.sound, by rw [app₃.freeinode, app₂.freeinode, root.freeinode]; rfl,
      app₃.bounded.resolve_left (by rw [length_dirent]; decide), fun _ hk => absurd hk (Nat.not_lt_zero _)⟩
  have written₄ := addFiles_written files written₃ (by rw [List.length_nil]; omega) added
  rw [List.nil_append] at written₄
  -- the root's size, then the bitmap
  have rootSlot := written₄.sound.inode_lt_len (show ROOTINO < NINODES by decide)
  obtain ⟨din, read, made⟩ := Faults.bind_eq_ok made
  rw [rinode_spec rootSlot] at read
  cases read
  obtain ⟨s₅, fixed, bitmap⟩ := Faults.bind_eq_ok made
  rw [winode_spec rootSlot] at fixed
  cases fixed
  unfold balloc at bitmap
  split at bitmap
  · rename_i fewBlocks
    injection bitmap with final
    exact ⟨s₄, written₄, fewBlocks, final.symm⟩
  · cases bitmap

/-- Every file mkfs copies reads back through the kernel's inode layer: when
mkfs succeeds on input files for which it has inodes, the `k`-th is inode
`k + 2`, a regular file with one link whose size is the file's length, with
a block under every byte, and whose bytes, read as `readi` reads them, are
the file's. -/
theorem mkfs_files_read_back {files : List InFile} (room : files.length + 2 ≤ NINODES) {s : State}
    (made : mkfs files = .ok s) (k : Nat) (hk : k < files.length) :
    (table sb s.disk (k + 2)).type = T_FILE ∧ (table sb s.disk (k + 2)).nlink = 1 ∧
      (table sb s.disk (k + 2)).size = files[k].contents.length ∧ NoHoles s.disk (table sb s.disk (k + 2)) ∧
      fileBytes s.disk (table sb s.disk (k + 2)) 0 files[k].contents.length = files[k].contents := by
  obtain ⟨s₄, written₄, -, final⟩ := mkfs_written room made
  obtain ⟨type, nlink, holds⟩ := written₄.files k hk
  -- the root's size fix-up and the bitmap: two blocks that are no data blocks
  have bound : k + 2 < NINODES := by omega
  have notRoot := file_ne_ROOTINO k
  have slot : table sb s.disk (k + 2) = table sb s₄.disk (k + 2) := by
    rw [final, table_wsect_of_ne _ (bmapstart_ne_IBLOCK bound), table_winode_of_ne _ _ notRoot]
  have blocks : ∀ b ∈ refsOf s₄.disk (table sb s₄.disk (k + 2)), s.disk b = s₄.disk b := fun b mem => by
    rw [final]
    exact finish_keeps_data _ _ _ (written₄.sound.inData _ bound b mem).1
  have kept := holds.keep slot blocks
  exact ⟨by rw [slot]; exact type, by rw [slot]; exact nlink, kept.size, kept.noHoles, kept.content⟩

/-- Mkfs on one file `a` of the single byte 7: inode 2 reads back the byte. -/
theorem mkfs_one_file_read_back :
    ∃ s, mkfs [⟨[97], [7]⟩] = .ok s ∧ (table sb s.disk 2).type = T_FILE ∧ (table sb s.disk 2).nlink = 1 ∧
      (table sb s.disk 2).size = 1 ∧ NoHoles s.disk (table sb s.disk 2) ∧ fileBytes s.disk (table sb s.disk 2) 0 1 = [7] := by
  obtain ⟨s, made, -⟩ := mkfs_root [⟨[97], [7]⟩] (by decide) (by decide)
  exact ⟨s, made, mkfs_files_read_back (by decide) made 0 (by decide)⟩

/-! ## The blocks of the image -/

/-- `balloc`'s bitmap: the first `n` bits set on a zero block, and no other. -/
theorem bit_setBits {n : Nat} (few : n ≤ BPB) (b : Nat) :
    bit ((List.range n).foldl setBit Block.zero) b = decide (b < n) := by
  induction n with
  | zero => simp [bit, Block.zero]
  | succ n ih =>
    have fits : n / 8 < BSIZE := by
      rw [BPB_eq] at few
      rw [BSIZE_eq]
      omega
    rw [List.range_succ, List.foldl_append, List.foldl_cons, List.foldl_nil, bit_setBit _ fits b, ih (by omega)]
    by_cases last : b = n
    · simp [last]
    · have iff : b < n + 1 ↔ b < n := by omega
      simp [last, iff]

/-- The blocks of the image mkfs builds: the bitmap marks exactly the blocks
below `freeblock`, every block an inode holds is a data block below it, no
inode holds a block twice, and no two inodes share one. -/
theorem mkfs_blocks_owned {files : List InFile} (room : files.length + 2 ≤ NINODES) {s : State}
    (made : mkfs files = .ok s) :
    (∀ b, bit (s.disk sb.bmapstart) b = decide (b < s.freeblock)) ∧
      (∀ i, i < NINODES → ∀ b ∈ refsOf s.disk (table sb s.disk i), nmeta ≤ b ∧ b < s.freeblock) ∧
      (∀ i, i < NINODES → (refsOf s.disk (table sb s.disk i)).Nodup) ∧
      (∀ i j, i < NINODES → j < NINODES → i ≠ j →
        ∀ b ∈ refsOf s.disk (table sb s.disk i), b ∉ refsOf s.disk (table sb s.disk j)) := by
  obtain ⟨s₄, written, few, final⟩ := mkfs_written room made
  have sound := written.sound
  have freeblock : s.freeblock = s₄.freeblock := by rw [final]; rfl
  -- the root's size fix-up: its size rounded up, which the on-disk field holds
  have fits : ({ table sb s₄.disk ROOTINO with
      size := ((table sb s₄.disk ROOTINO).size / BSIZE + 1) * BSIZE } : Dinode).Fits := by
    refine fits_with (table_fits _ _) (table_fits _ _).addrs ?_
    have := written.rootSize
    rw [MAXFILE_eq, BSIZE_eq] at this
    rw [BSIZE_eq]
    omega
  -- both writes are of blocks that are no data blocks
  have dataKept : ∀ b, nmeta ≤ b → s.disk b = s₄.disk b := fun b data => by
    rw [final]
    exact finish_keeps_data _ _ _ data
  -- every inode keeps its addresses, so its blocks
  have refs : ∀ i, i < NINODES → refsOf s.disk (table sb s.disk i) = refsOf s₄.disk (table sb s₄.disk i) :=
    fun i bound => by
      have addrs : (table sb s.disk i).addrs = (table sb s₄.disk i).addrs := by
        rw [final, table_wsect_of_ne _ (bmapstart_ne_IBLOCK bound), table_winode _ fits]
        split
        · rename_i root
          rw [root]
        · rfl
      have same : refsOf s.disk (table sb s.disk i) = refsOf s.disk (table sb s₄.disk i) := by
        simp only [refsOf, addrs]
      rw [same]
      exact refsOf_congr fun present => dataKept _ (sound.inData i bound _ (indirect_mem_refsOf _ present)).1
  refine ⟨fun b => ?_, fun i bound b mem => ?_, fun i bound => ?_, fun i j hi hj ne b mem => ?_⟩
  · have bitmap : s.disk sb.bmapstart = (List.range s₄.freeblock).foldl setBit Block.zero := by
      rw [final, wsect_disk, Function.update_self]
    rw [bitmap, freeblock]
    exact bit_setBits (le_of_lt few) b
  · rw [refs i bound] at mem
    rw [freeblock]
    exact sound.inData i bound b mem
  · rw [refs i bound]
    exact sound.nodup i bound
  · rw [refs i hi] at mem
    rw [refs j hj]
    exact sound.disjoint i j hi hj ne b mem

/-- Mkfs on one file `a` of the single byte 7: the blocks of its image. -/
theorem mkfs_one_file_blocks_owned :
    ∃ s, mkfs [⟨[97], [7]⟩] = .ok s ∧
      (∀ b, bit (s.disk sb.bmapstart) b = decide (b < s.freeblock)) ∧
      (∀ i, i < NINODES → ∀ b ∈ refsOf s.disk (table sb s.disk i), nmeta ≤ b ∧ b < s.freeblock) ∧
      (∀ i, i < NINODES → (refsOf s.disk (table sb s.disk i)).Nodup) ∧
      (∀ i j, i < NINODES → j < NINODES → i ≠ j →
        ∀ b ∈ refsOf s.disk (table sb s.disk i), b ∉ refsOf s.disk (table sb s.disk j)) := by
  obtain ⟨s, made, -⟩ := mkfs_root [⟨[97], [7]⟩] (by decide) (by decide)
  exact ⟨s, made, mkfs_blocks_owned (by decide) made⟩

end Xv6.Mkfs
