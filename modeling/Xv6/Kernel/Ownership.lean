/-
# Kernel.Ownership -- every block has one owner

An allocated inode holds the blocks its map names: its direct blocks, its
indirect block and the nonzero entries of that block (`holds`).  The free
bitmap is right (`Owned`) when no block is held twice, every held block is a
data block below `sb.size`, a block's bit is set exactly when it is metadata or
held, and a free inode's addresses are all zero.

The inode an operation works on is in memory, ahead of its slot on disk until
the operation's `iupdate`; `view` is the table the operation sees, the disk's
table with that inode in place of its slot.  Every change an operation makes is
one of three kinds, each with its lemma:

* `Owned.acquire`: a free block is allocated and taken into the inode's map;
* `Owned.release`: the inode lets go of all its blocks and their bits are cleared;
* `Owned.congr`: a block no inode uses as its indirect block, nor as a bitmap
  or inode block, is written, which no holding and no bit notices.

All three are cases of `Owned.change`, where one inode's holdings change and
every other inode keeps its own.
-/
import Xv6.Kernel.ReadWrite

namespace Xv6

open Bytes

set_option autoImplicit false

/-! ## The blocks an inode holds -/

/-- The block numbers listed in the indirect block `ind`. -/
def entries (disk : Disk) (ind : Nat) : List Nat :=
  (List.range NINDIRECT).map fun j => field (disk ind) (4 * j) 4

/-- The blocks an inode's map names: its direct blocks, then its indirect block
and the blocks that one lists. -/
def refsOf (disk : Disk) (d : Dinode) : List Nat :=
  (directs.map d.addrs).filter (· != 0) ++
    if d.addrs indirect = 0 then [] else d.addrs indirect :: (entries disk (d.addrs indirect)).filter (· != 0)

/-- The blocks an inode holds: those its map names, if it is allocated. -/
def holds (disk : Disk) (d : Dinode) : List Nat := if d.type = 0 then [] else refsOf disk d

/-- Block `b` is held by an inode of the table. -/
def Refd (sb : Superblock) (disk : Disk) (tab : Nat → Dinode) (b : Nat) : Prop :=
  ∃ i, i < sb.ninodes ∧ b ∈ holds disk (tab i)

/-- The table an operation on the in-memory inode `ip` sees. -/
def view (sb : Superblock) (disk : Disk) (ip : Inode) : Nat → Dinode :=
  Function.update (table sb disk) ip.inum ip.toDinode

/-- The free bitmap agrees with the inodes' maps. -/
structure Owned (sb : Superblock) (disk : Disk) (tab : Nat → Dinode) : Prop where
  nodup : ∀ i, i < sb.ninodes → (holds disk (tab i)).Nodup
  disjoint : ∀ i j, i < sb.ninodes → j < sb.ninodes → i ≠ j →
    ∀ b, b ∈ holds disk (tab i) → b ∉ holds disk (tab j)
  inData : ∀ i, i < sb.ninodes → ∀ b, b ∈ holds disk (tab i) → sb.dataStart ≤ b ∧ b < sb.size
  bitmap : ∀ b, b < sb.size → (used sb disk b = true ↔ b < sb.dataStart ∨ Refd sb disk tab b)
  freed : ∀ i, i < sb.ninodes → (tab i).type = 0 → ∀ k, (tab i).addrs k = 0

variable {sb : Superblock}

/-! ## Frames -/

theorem refsOf_congr {disk disk' : Disk} {d : Dinode}
    (same : d.addrs indirect ≠ 0 → disk' (d.addrs indirect) = disk (d.addrs indirect)) :
    refsOf disk' d = refsOf disk d := by
  unfold refsOf entries
  by_cases none : d.addrs indirect = 0
  · simp [none]
  · simp [none, same none]

theorem indirect_mem_refsOf (disk : Disk) {d : Dinode} (present : d.addrs indirect ≠ 0) :
    d.addrs indirect ∈ refsOf disk d := by
  simp [refsOf, present]

/-- Writing a block an inode does not hold leaves its holdings alone: the only
block its holdings read is its indirect block, which it holds. -/
theorem holds_update_of_not_mem {disk : Disk} {d : Dinode} {c : Nat} (blk : Block) (notHeld : c ∉ holds disk d) :
    holds (Function.update disk c blk) d = holds disk d := by
  unfold holds at notHeld ⊢
  split
  · rfl
  · rename_i allocated
    rw [if_neg allocated] at notHeld
    apply refsOf_congr
    intro present
    have differ : d.addrs indirect ≠ c := fun same => notHeld (same ▸ indirect_mem_refsOf disk present)
    exact Function.update_of_ne differ _ _

theorem table_update_of_ne {disk : Disk} {c i : Nat} (blk : Block) (other : c ≠ IBLOCK i sb) :
    table sb (Function.update disk c blk) i = table sb disk i := by
  simp [table, Function.update_of_ne other.symm]

/-! ## One inode's holdings change -/

section Change

variable {disk disk' : Disk} {tab tab' : Nat → Dinode}

theorem Owned.not_refd_of_clear (owned : Owned sb disk tab) {b : Nat} (bound : b < sb.size)
    (clear : used sb disk b = false) : sb.dataStart ≤ b ∧ ¬ Refd sb disk tab b := by
  have bit := owned.bitmap b bound
  rw [clear] at bit
  constructor
  · by_contra isMeta
    exact absurd (bit.mpr (.inl (by omega))) (by simp)
  · intro refd
    exact absurd (bit.mpr (.inr refd)) (by simp)

/-- The invariant survives a change to the holdings of inode `inum` alone,
provided its new holdings have no duplicates, what it gains was free data, the
bits follow its gains and losses, and it is left with no addresses if it is freed. -/
theorem Owned.change (owned : Owned sb disk tab) {inum : Nat} (bound : inum < sb.ninodes)
    (others : ∀ i, i < sb.ninodes → i ≠ inum → tab' i = tab i ∧ holds disk' (tab i) = holds disk (tab i))
    (nodup : (holds disk' (tab' inum)).Nodup)
    (fresh : ∀ b, b ∈ holds disk' (tab' inum) → b ∉ holds disk (tab inum) →
      sb.dataStart ≤ b ∧ b < sb.size ∧ ¬ Refd sb disk tab b)
    (bits : ∀ x, x < sb.size → (used sb disk' x = true ↔
      (used sb disk x = true ∧ ¬ (x ∈ holds disk (tab inum) ∧ x ∉ holds disk' (tab' inum))) ∨
        (x ∈ holds disk' (tab' inum) ∧ x ∉ holds disk (tab inum))))
    (freed : (tab' inum).type = 0 → ∀ k, (tab' inum).addrs k = 0) :
    Owned sb disk' tab' := by
  -- every other inode holds what it held
  have kept : ∀ i, i < sb.ninodes → i ≠ inum → holds disk' (tab' i) = holds disk (tab i) := by
    intro i hi ne
    rw [(others i hi ne).1, (others i hi ne).2]
  -- a block held by another inode is not held by `inum`, before or after
  have apart : ∀ j, j < sb.ninodes → j ≠ inum → ∀ b, b ∈ holds disk (tab j) →
      b ∉ holds disk' (tab' inum) := by
    intro j hj ne b held gained
    by_cases before : b ∈ holds disk (tab inum)
    · exact owned.disjoint j inum hj bound ne b held before
    · exact (fresh b gained before).2.2 ⟨j, hj, held⟩
  constructor
  · intro i hi
    by_cases same : i = inum
    · subst same
      exact nodup
    · rw [kept i hi same]
      exact owned.nodup i hi
  · intro i j hi hj ne b held
    by_cases iSame : i = inum
    · subst iSame
      have jNe : j ≠ i := Ne.symm ne
      rw [kept j hj jNe]
      intro heldJ
      exact apart j hj jNe b heldJ held
    · rw [kept i hi iSame] at held
      by_cases jSame : j = inum
      · subst jSame
        exact apart i hi iSame b held
      · rw [kept j hj jSame]
        exact owned.disjoint i j hi hj ne b held
  · intro i hi b held
    by_cases same : i = inum
    · subst same
      by_cases before : b ∈ holds disk (tab i)
      · exact owned.inData i hi b before
      · exact ⟨(fresh b held before).1, (fresh b held before).2.1⟩
    · rw [kept i hi same] at held
      exact owned.inData i hi b held
  · intro x hx
    rw [bits x hx]
    constructor
    · rintro (⟨set, notLost⟩ | ⟨gained, _⟩)
      · rcases (owned.bitmap x hx).mp set with isMeta | ⟨j, hj, held⟩
        · exact .inl isMeta
        · right
          by_cases same : j = inum
          · subst same
            exact ⟨j, hj, by_contra fun lost => notLost ⟨held, lost⟩⟩
          · exact ⟨j, hj, by rw [kept j hj same]; exact held⟩
      · exact .inr ⟨inum, bound, gained⟩
    · rintro (isMeta | ⟨j, hj, held⟩)
      · -- metadata is held by no inode, so its bit neither changed nor was taken
        left
        refine ⟨(owned.bitmap x hx).mpr (.inl isMeta), fun ⟨lost, _⟩ => ?_⟩
        have := owned.inData inum bound x lost
        omega
      · by_cases same : j = inum
        · subst same
          by_cases before : x ∈ holds disk (tab j)
          · exact .inl ⟨(owned.bitmap x hx).mpr (.inr ⟨j, hj, before⟩), fun ⟨_, lost⟩ => lost held⟩
          · exact .inr ⟨held, before⟩
        · rw [kept j hj same] at held
          left
          refine ⟨(owned.bitmap x hx).mpr (.inr ⟨j, hj, held⟩), fun ⟨lost, _⟩ => ?_⟩
          exact owned.disjoint j inum hj bound same x held lost
  · intro i hi free
    by_cases same : i = inum
    · subst same
      exact freed free
    · rw [(others i hi same).1] at free ⊢
      exact owned.freed i hi free

/-- Inode `inum` takes a free block `b` into its map. -/
theorem Owned.acquire (owned : Owned sb disk tab) {inum b : Nat} (bound : inum < sb.ninodes)
    (inSize : b < sb.size) (clear : used sb disk b = false)
    (others : ∀ i, i < sb.ninodes → i ≠ inum → tab' i = tab i ∧ holds disk' (tab i) = holds disk (tab i))
    (grows : (holds disk' (tab' inum)).Perm (b :: holds disk (tab inum)))
    (allocated : (tab' inum).type ≠ 0)
    (bits : ∀ x, x < sb.size → used sb disk' x = (decide (x = b) || used sb disk x)) :
    Owned sb disk' tab' := by
  obtain ⟨data, notRefd⟩ := owned.not_refd_of_clear inSize clear
  have notHeld : b ∉ holds disk (tab inum) := fun held => notRefd ⟨inum, bound, held⟩
  apply owned.change bound others
  · exact grows.nodup_iff.mpr (List.nodup_cons.mpr ⟨notHeld, owned.nodup inum bound⟩)
  · intro x gained before
    rcases List.mem_cons.mp (grows.mem_iff.mp gained) with rfl | old
    · exact ⟨data, inSize, notRefd⟩
    · exact absurd old before
  · intro x hx
    have gainedIff : x ∈ holds disk' (tab' inum) ↔ x = b ∨ x ∈ holds disk (tab inum) := by
      rw [grows.mem_iff, List.mem_cons]
    rw [bits x hx, gainedIff]
    by_cases isB : x = b
    · subst isB
      simp [notHeld]
    · simp [isB]
  · intro free
    exact absurd free allocated

/-- Inode `inum` lets go of every block it held, and their bits are cleared. -/
theorem Owned.release (owned : Owned sb disk tab) {inum : Nat} (bound : inum < sb.ninodes)
    (others : ∀ i, i < sb.ninodes → i ≠ inum → tab' i = tab i ∧ holds disk' (tab i) = holds disk (tab i))
    (empty : holds disk' (tab' inum) = [])
    (bits : ∀ x, x < sb.size → used sb disk' x = (decide (x ∉ holds disk (tab inum)) && used sb disk x))
    (freed : (tab' inum).type = 0 → ∀ k, (tab' inum).addrs k = 0) :
    Owned sb disk' tab' := by
  apply owned.change bound others
  · rw [empty]
    exact List.nodup_nil
  · intro b gained
    rw [empty] at gained
    cases gained
  · intro x hx
    rw [bits x hx, empty]
    simp [and_comm]
  · exact freed

/-- Nothing a change touches is seen by a holding or a bit, and a free inode
keeps its empty map. -/
theorem Owned.congr (owned : Owned sb disk tab)
    (sameHolds : ∀ i, i < sb.ninodes → holds disk' (tab' i) = holds disk (tab i))
    (sameFree : ∀ i, i < sb.ninodes → (tab' i).type = 0 → (tab i).type = 0 ∧ (tab' i).addrs = (tab i).addrs)
    (sameBits : ∀ x, x < sb.size → used sb disk' x = used sb disk x) :
    Owned sb disk' tab' := by
  have refd : ∀ b, Refd sb disk' tab' b ↔ Refd sb disk tab b := fun b =>
    ⟨fun ⟨i, hi, held⟩ => ⟨i, hi, by rw [← sameHolds i hi]; exact held⟩,
      fun ⟨i, hi, held⟩ => ⟨i, hi, by rw [sameHolds i hi]; exact held⟩⟩
  refine ⟨fun i hi => ?_, fun i j hi hj ne b held => ?_, fun i hi b held => ?_, fun b hb => ?_,
    fun i hi free => ?_⟩
  · rw [sameHolds i hi]
    exact owned.nodup i hi
  · rw [sameHolds i hi] at held
    rw [sameHolds j hj]
    exact owned.disjoint i j hi hj ne b held
  · rw [sameHolds i hi] at held
    exact owned.inData i hi b held
  · rw [sameBits b hb, refd]
    exact owned.bitmap b hb
  · obtain ⟨wasFree, sameAddrs⟩ := sameFree i hi free
    rw [sameAddrs]
    exact owned.freed i hi wasFree

end Change

/-! ## How `bmap` changes a map -/

/-- Setting a zero entry of a list to a nonzero value adds that value to its
nonzero entries. -/
private theorem filter_set_perm : ∀ {l : List Nat} {j v : Nat} (hj : j < l.length), l[j] = 0 → v ≠ 0 →
    ((l.set j v).filter (· != 0)).Perm (v :: l.filter (· != 0))
  | [], _, _, hj, _, _ => absurd hj (Nat.not_lt_zero _)
  | a :: l, 0, v, _, zero, pos => by
      simp only [List.getElem_cons_zero] at zero
      simp [zero, pos]
  | a :: l, j + 1, v, hj, zero, pos => by
      have rest := filter_set_perm (l := l) (j := j) (v := v) (by simpa using hj) (by simpa using zero) pos
      simp only [List.set_cons_succ, List.filter_cons]
      split
      · exact (rest.cons a).trans (List.Perm.swap v a _)
      · exact rest

@[simp] theorem length_directs : directs.length = NDIRECT := by simp [directs]

theorem directs_map_update (f : Fin (NDIRECT + 1) → Nat) (j : Fin NDIRECT) (v : Nat) :
    directs.map (Function.update f j.castSucc v) = (directs.map f).set j v := by
  apply List.ext_getElem (by simp)
  intro i h _
  simp [directs, List.getElem_set, Function.update_apply, Fin.ext_iff, eq_comm]

/-- The direct addresses do not include the indirect one. -/
theorem directs_map_update_indirect (f : Fin (NDIRECT + 1) → Nat) (v : Nat) :
    directs.map (Function.update f indirect v) = directs.map f := by
  apply List.map_congr_left
  intro k mem
  have differ : k ≠ indirect := by
    simp only [directs, List.mem_map] at mem
    obtain ⟨j, _, rfl⟩ := mem
    exact Fin.castSucc_ne_last j
  exact Function.update_of_ne differ _ _

@[simp] theorem length_entries (disk : Disk) (ind : Nat) : (entries disk ind).length = NINDIRECT := by
  simp [entries]

theorem entries_setField (disk : Disk) {ind j v : Nat} (hj : j < NINDIRECT) (small : v < 2 ^ 32) :
    entries (Function.update disk ind (setField (disk ind) (4 * j) 4 v)) ind = (entries disk ind).set j v := by
  apply List.ext_getElem (by simp)
  intro i h _
  simp only [length_entries] at h
  simp only [entries, Function.update_self, List.getElem_map, List.getElem_range, List.getElem_set]
  split
  · rename_i same
    subst same
    rw [field_setField_self _ _ (by rw [NINDIRECT_eq] at hj; rw [BSIZE_eq]; omega)]
    exact Nat.mod_eq_of_lt small
  · exact field_setField_of_disjoint _ _ (by omega)

/-- A zeroed indirect block lists no block. -/
theorem entries_of_zero {disk : Disk} {b : Nat} (zero : disk b = Block.zero) :
    (entries disk b).filter (· != 0) = [] := by
  simp [entries, zero, field_zero_block]

section MapChanges

variable (disk : Disk) (d : Dinode)

/-- A direct slot set to a new block. -/
theorem refsOf_setDirect {j : Fin NDIRECT} (empty : d.addrs j.castSucc = 0) {v : Nat} (pos : v ≠ 0) :
    (refsOf disk { d with addrs := Function.update d.addrs j.castSucc v }).Perm (v :: refsOf disk d) := by
  have notIndirect : Function.update d.addrs j.castSucc v indirect = d.addrs indirect :=
    Function.update_of_ne (Fin.castSucc_ne_last j).symm _ _
  unfold refsOf
  simp only [notIndirect, directs_map_update]
  exact (filter_set_perm (by simp) (by simpa [directs] using empty) pos).append_right _

/-- The indirect slot set to a new, zeroed block. -/
theorem refsOf_setIndirect (empty : d.addrs indirect = 0) {v : Nat} (pos : v ≠ 0) (zero : disk v = Block.zero) :
    (refsOf disk { d with addrs := Function.update d.addrs indirect v }).Perm (v :: refsOf disk d) := by
  unfold refsOf
  simp only [directs_map_update_indirect, Function.update_self, empty, if_true, if_neg pos,
    entries_of_zero zero, List.append_nil]
  exact List.perm_append_singleton v _

/-- An empty entry of the indirect block set to a new block. -/
theorem refsOf_setEntry (present : d.addrs indirect ≠ 0) {j v : Nat} (hj : j < NINDIRECT)
    (empty : field (disk (d.addrs indirect)) (4 * j) 4 = 0) (pos : v ≠ 0) (small : v < 2 ^ 32) :
    (refsOf (Function.update disk (d.addrs indirect) (setField (disk (d.addrs indirect)) (4 * j) 4 v)) d).Perm
      (v :: refsOf disk d) := by
  unfold refsOf
  simp only [if_neg present, entries_setField disk hj small]
  refine List.Perm.trans (List.Perm.append_left _ (List.Perm.cons _
    (filter_set_perm (by simp [hj]) (by simpa [entries] using empty) pos))) ?_
  exact (List.Perm.append_left _ (List.Perm.swap v _ _)).trans List.perm_middle

theorem blockAddr_congr {disk' : Disk}
    (same : d.addrs indirect ≠ 0 → disk' (d.addrs indirect) = disk (d.addrs indirect)) (bn : Nat) :
    blockAddr disk' d bn = blockAddr disk d bn := by
  unfold blockAddr
  by_cases present : d.addrs indirect = 0
  · simp [present]
  · simp [present, same present]

theorem blockAddr_setDirect (j : Fin NDIRECT) (v bn : Nat) :
    blockAddr disk { d with addrs := Function.update d.addrs j.castSucc v } bn =
      if bn = j.val then v else blockAddr disk d bn := by
  have notIndirect : Function.update d.addrs j.castSucc v indirect = d.addrs indirect :=
    Function.update_of_ne (Fin.castSucc_ne_last j).symm _ _
  unfold blockAddr
  by_cases direct : bn < NDIRECT
  · simp only [dif_pos direct]
    by_cases same : bn = j.val
    · subst same
      simp [Function.update_apply, Fin.ext_iff]
    · have differ : (⟨bn, by omega⟩ : Fin (NDIRECT + 1)) ≠ j.castSucc := fun eq => same (by
        simpa using congrArg Fin.val eq)
      simp [same, Function.update_of_ne differ]
  · have differ : bn ≠ j.val := by have := j.isLt; omega
    simp [direct, differ, notIndirect]

/-- Taking a zeroed indirect block maps no new index. -/
theorem blockAddr_setIndirect (empty : d.addrs indirect = 0) {v : Nat} (zero : disk v = Block.zero) (bn : Nat) :
    blockAddr disk { d with addrs := Function.update d.addrs indirect v } bn = blockAddr disk d bn := by
  unfold blockAddr
  by_cases direct : bn < NDIRECT
  · have differ : (⟨bn, by omega⟩ : Fin (NDIRECT + 1)) ≠ indirect := fun eq => by
      have := congrArg Fin.val eq
      simp [indirect] at this
      omega
    simp [direct, Function.update_of_ne differ]
  · simp [direct, empty, zero, field_zero_block]

theorem blockAddr_setEntry (present : d.addrs indirect ≠ 0) {j v : Nat} (hj : j < NINDIRECT)
    (small : v < 2 ^ 32) (bn : Nat) :
    blockAddr (Function.update disk (d.addrs indirect) (setField (disk (d.addrs indirect)) (4 * j) 4 v)) d bn =
      if bn = NDIRECT + j then v else blockAddr disk d bn := by
  unfold blockAddr
  by_cases direct : bn < NDIRECT
  · have differ : bn ≠ NDIRECT + j := by omega
    simp [direct, differ]
  · simp only [dif_neg direct, if_neg present, Function.update_self]
    by_cases same : bn = NDIRECT + j
    · subst same
      have inRange : NDIRECT + j - NDIRECT < NINDIRECT := by omega
      rw [if_pos inRange, if_pos rfl, Nat.add_sub_cancel_left,
        field_setField_self _ _ (by rw [NINDIRECT_eq] at hj; rw [BSIZE_eq]; omega)]
      exact Nat.mod_eq_of_lt small
    · rw [if_neg same]
      split
      · exact field_setField_of_disjoint _ _ (by omega)
      · rfl

end MapChanges

/-! ## What an operation leaves to the other inodes -/

/-- Every inode but `inum` keeps its slot and the contents of the blocks it
holds: what an operation on inode `inum` leaves to the others. -/
def Keeps (sb : Superblock) (disk disk' : Disk) (inum : Nat) : Prop :=
  ∀ i, i < sb.ninodes → i ≠ inum →
    table sb disk' i = table sb disk i ∧ ∀ c, c ∈ holds disk (table sb disk i) → disk' c = disk c

section Keeps

variable {disk disk' disk'' : Disk} {inum : Nat}

theorem Keeps.refl (disk : Disk) (inum : Nat) : Keeps sb disk disk inum := fun _ _ _ => ⟨rfl, fun _ _ => rfl⟩

/-- The other inodes hold what they held: their indirect blocks are unchanged. -/
theorem Keeps.holds_eq (keeps : Keeps sb disk disk' inum) {i : Nat} (hi : i < sb.ninodes) (ne : i ≠ inum) :
    holds disk' (table sb disk' i) = holds disk (table sb disk i) := by
  obtain ⟨slot, blocks⟩ := keeps i hi ne
  rw [slot]
  unfold holds at blocks ⊢
  split
  · rfl
  · rename_i allocated
    rw [if_neg allocated] at blocks
    exact refsOf_congr fun present => blocks _ (indirect_mem_refsOf disk present)

/-- The other allocated inodes map every index to the block they mapped it to. -/
theorem Keeps.blockAddr_eq (keeps : Keeps sb disk disk' inum) {i : Nat} (hi : i < sb.ninodes) (ne : i ≠ inum)
    (allocated : (table sb disk i).type ≠ 0) (bn : Nat) :
    blockAddr disk' (table sb disk' i) bn = blockAddr disk (table sb disk i) bn := by
  obtain ⟨slot, blocks⟩ := keeps i hi ne
  rw [slot]
  refine blockAddr_congr _ _ (fun present => blocks _ ?_) bn
  rw [holds, if_neg allocated]
  exact indirect_mem_refsOf disk present

theorem Keeps.trans (first : Keeps sb disk disk' inum) (second : Keeps sb disk' disk'' inum) :
    Keeps sb disk disk'' inum := by
  intro i hi ne
  refine ⟨((second i hi ne).1.trans (first i hi ne).1), fun c held => ?_⟩
  have held' : c ∈ holds disk' (table sb disk' i) := by
    rw [first.holds_eq hi ne]
    exact held
  rw [(second i hi ne).2 c held', (first i hi ne).2 c held]

/-- Writing a block no other inode holds, outside their slots. -/
theorem keeps_update (c : Nat) (blk : Block)
    (notHeld : ∀ i, i < sb.ninodes → i ≠ inum → c ∉ holds disk (table sb disk i))
    (notSlot : ∀ i, i < sb.ninodes → i ≠ inum → c ≠ IBLOCK i sb) :
    Keeps sb disk (Function.update disk c blk) inum := by
  intro i hi ne
  refine ⟨table_update_of_ne _ (notSlot i hi ne), fun c' held => ?_⟩
  have differ : c' ≠ c := fun same => notHeld i hi ne (same ▸ held)
  exact Function.update_of_ne differ _ _

end Keeps

/-! ## An operation on one inode -/

@[simp] theorem Inode.setAddr_toDinode (ip : Inode) (k : Fin (NDIRECT + 1)) (v : Nat) :
    (ip.setAddr k v).toDinode = { ip.toDinode with addrs := Function.update ip.addrs k v } := rfl

@[simp] theorem Inode.setAddr_inum (ip : Inode) (k : Fin (NDIRECT + 1)) (v : Nat) :
    (ip.setAddr k v).inum = ip.inum := rfl

@[simp] theorem Inode.setAddr_type (ip : Inode) (k : Fin (NDIRECT + 1)) (v : Nat) :
    (ip.setAddr k v).type = ip.type := rfl

theorem Dinode.Fits.setAddr {d : Dinode} (fits : d.Fits) (k : Fin (NDIRECT + 1)) {v : Nat} (small : v < 2 ^ 32) :
    ({ d with addrs := Function.update d.addrs k v } : Dinode).Fits :=
  { fits with
    addrs := fun k' => by
      by_cases same : k' = k
      · subst same
        simpa using small
      · simpa [Function.update_of_ne same] using fits.addrs k' }

theorem view_self (disk : Disk) (ip : Inode) : view sb disk ip ip.inum = ip.toDinode :=
  Function.update_self _ _ _

theorem view_of_ne (disk : Disk) (ip : Inode) {i : Nat} (other : i ≠ ip.inum) :
    view sb disk ip i = table sb disk i :=
  Function.update_of_ne other _ _

/-- What an operation on the in-memory inode `ip` keeps between its steps: the
invariant over the table it sees, with `ip` allocated, below `ninodes`, and
holding values its on-disk fields can store. -/
structure OpInv (sb : Superblock) (disk : Disk) (ip : Inode) : Prop where
  owned : Owned sb disk (view sb disk ip)
  bound : ip.inum < sb.ninodes
  allocated : ip.type ≠ 0
  fits : ip.toDinode.Fits

theorem view_of_inum (disk : Disk) (ip : Inode) {i : Nat} (same : ip.inum = i) :
    view sb disk ip i = ip.toDinode := by
  subst same
  exact view_self disk ip

theorem holds_view_of_inum {disk disk' : Disk} (ip : Inode) {i : Nat} (same : ip.inum = i)
    (allocated : ip.type ≠ 0) : holds disk' (view sb disk ip i) = refsOf disk' ip.toDinode := by
  rw [view_of_inum disk ip same, holds, if_neg allocated]

theorem OpInv.holds_self {disk : Disk} {ip : Inode} (inv : OpInv sb disk ip) :
    holds disk (view sb disk ip ip.inum) = refsOf disk ip.toDinode :=
  holds_view_of_inum ip rfl inv.allocated

/-- A data block is neither an inode block nor a bitmap block. -/
theorem Superblock.Valid.data_ne_IBLOCK {sb : Superblock} (valid : sb.Valid) {c i : Nat} (data : sb.dataStart ≤ c)
    (bound : i < sb.ninodes) : c ≠ IBLOCK i sb := by
  have := valid.inode_meta bound
  omega

theorem Superblock.Valid.data_ne_BBLOCK {sb : Superblock} (valid : sb.Valid) {c x : Nat} (data : sb.dataStart ≤ c)
    (bound : x < sb.size) : c ≠ BBLOCK x sb := by
  have := valid.bitmap_meta x bound
  omega

theorem Superblock.Valid.BBLOCK_ne_IBLOCK {sb : Superblock} (valid : sb.Valid) (x : Nat) {i : Nat}
    (bound : i < sb.ninodes) : BBLOCK x sb ≠ IBLOCK i sb := by
  have := valid.inode_below i bound
  have := bmapstart_le_BBLOCK sb x
  omega

section Acquire

variable {disk : Disk} {ip : Inode}

/-- Taking a free block touches no inode slot and no other inode's holdings. -/
theorem Owned.allocate_keeps (valid : sb.Valid) {tab : Nat → Dinode} (owned : Owned sb disk tab) {b : Nat}
    (inSize : b < sb.size) (clear : used sb disk b = false) {i : Nat} (hi : i < sb.ninodes) :
    table sb (allocate sb disk b) i = table sb disk i ∧
      holds (allocate sb disk b) (tab i) = holds disk (tab i) := by
  obtain ⟨data, notRefd⟩ := owned.not_refd_of_clear inSize clear
  unfold allocate
  constructor
  · rw [table_update_of_ne _ (valid.data_ne_IBLOCK data hi),
      table_update_of_ne _ (valid.BBLOCK_ne_IBLOCK b hi)]
  · have inner : holds (Function.update disk (BBLOCK b sb) (setBit (disk (BBLOCK b sb)) (b % BPB))) (tab i) =
        holds disk (tab i) :=
      holds_update_of_not_mem _ fun held => by
        have := owned.inData i hi _ held
        have := valid.bitmap_meta b inSize
        omega
    rw [holds_update_of_not_mem _ (by rw [inner]; exact fun held => notRefd ⟨i, hi, held⟩), inner]

/-- The block of a nonzero indirect slot survives taking a free block. -/
theorem OpInv.allocate_indirect (valid : sb.Valid) (inv : OpInv sb disk ip) {b : Nat} (inSize : b < sb.size)
    (clear : used sb disk b = false) (present : ip.addrs indirect ≠ 0) :
    allocate sb disk b (ip.addrs indirect) = disk (ip.addrs indirect) := by
  obtain ⟨data, notRefd⟩ := inv.owned.not_refd_of_clear inSize clear
  have held : ip.addrs indirect ∈ holds disk (view sb disk ip ip.inum) := by
    rw [inv.holds_self]
    exact indirect_mem_refsOf disk present
  have notB : ip.addrs indirect ≠ b := fun same => notRefd ⟨ip.inum, inv.bound, same ▸ held⟩
  have notMap : ip.addrs indirect ≠ BBLOCK b sb :=
    valid.data_ne_BBLOCK (inv.owned.inData _ inv.bound _ held).1 inSize
  simp [allocate, Function.update_of_ne notB, Function.update_of_ne notMap]

theorem allocate_used (valid : sb.Valid) {b : Nat} (data : sb.dataStart ≤ b) {x : Nat} (bound : x < sb.size) :
    used sb (allocate sb disk b) x = (decide (x = b) || used sb disk x) :=
  used_allocate x (valid.data_ne_BBLOCK data bound)

/-- Taking a free block leaves the other inodes alone. -/
theorem OpInv.keeps_allocate (valid : sb.Valid) (inv : OpInv sb disk ip) {b : Nat} (inSize : b < sb.size)
    (clear : used sb disk b = false) : Keeps sb disk (allocate sb disk b) ip.inum := by
  obtain ⟨data, notRefd⟩ := inv.owned.not_refd_of_clear inSize clear
  intro i hi ne
  refine ⟨(inv.owned.allocate_keeps valid inSize clear hi).1, fun c held => ?_⟩
  rw [← view_of_ne disk ip ne] at held
  have notB : c ≠ b := fun same => notRefd ⟨i, hi, same ▸ held⟩
  have notMap : c ≠ BBLOCK b sb := valid.data_ne_BBLOCK (inv.owned.inData i hi c held).1 inSize
  simp [allocate, Function.update_of_ne notB, Function.update_of_ne notMap]

/-- Writing a block the inode holds leaves the other inodes alone. -/
theorem OpInv.keeps_write (valid : sb.Valid) (inv : OpInv sb disk ip) {c : Nat}
    (held : c ∈ refsOf disk ip.toDinode) (blk : Block) :
    Keeps sb disk (Function.update disk c blk) ip.inum := by
  rw [← inv.holds_self] at held
  apply keeps_update c blk
  · intro i hi ne heldI
    rw [← view_of_ne disk ip ne] at heldI
    exact inv.owned.disjoint _ _ inv.bound hi (Ne.symm ne) c held heldI
  · intro i hi _
    exact valid.data_ne_IBLOCK (inv.owned.inData _ inv.bound c held).1 hi

/-- `bmap` fills an empty direct slot with a free block. -/
theorem OpInv.acquireDirect (valid : sb.Valid) (inv : OpInv sb disk ip) {j : Fin NDIRECT}
    (empty : ip.addrs j.castSucc = 0) {b : Nat} (inSize : b < sb.size) (clear : used sb disk b = false) :
    OpInv sb (allocate sb disk b) (ip.setAddr j.castSucc b) ∧
      ∀ bn, blockAddr (allocate sb disk b) (ip.setAddr j.castSucc b).toDinode bn =
        if bn = j.val then b else blockAddr disk ip.toDinode bn := by
  obtain ⟨data, _⟩ := inv.owned.not_refd_of_clear inSize clear
  have pos : b ≠ 0 := by have := valid.zero_meta; omega
  have indSame : (ip.setAddr j.castSucc b).addrs indirect ≠ 0 →
      allocate sb disk b ((ip.setAddr j.castSucc b).addrs indirect) =
        disk ((ip.setAddr j.castSucc b).addrs indirect) := by
    have same : (ip.setAddr j.castSucc b).addrs indirect = ip.addrs indirect :=
      Function.update_of_ne (Fin.castSucc_ne_last j).symm _ _
    rw [same]
    exact inv.allocate_indirect valid inSize clear
  refine ⟨⟨?_, inv.bound, inv.allocated, inv.fits.setAddr _ (by have := valid.size_lt; omega)⟩, fun bn => ?_⟩
  · apply inv.owned.acquire inv.bound inSize clear
    · intro i hi ne
      have keeps := inv.owned.allocate_keeps valid inSize clear hi
      refine ⟨?_, keeps.2⟩
      rw [view_of_ne (allocate sb disk b) (ip.setAddr j.castSucc b) ne, view_of_ne disk ip ne, keeps.1]
    · rw [holds_view_of_inum (ip.setAddr j.castSucc b) (i := ip.inum) rfl inv.allocated, refsOf_congr indSame,
        inv.holds_self]
      exact refsOf_setDirect disk ip.toDinode empty pos
    · rw [view_of_inum _ (ip.setAddr j.castSucc b) (i := ip.inum) rfl]
      exact inv.allocated
    · intro x hx
      exact allocate_used valid data hx
  · rw [blockAddr_congr _ _ indSame]
    exact blockAddr_setDirect disk ip.toDinode j b bn

/-- `bmap` takes a free block as the indirect block. -/
theorem OpInv.acquireIndirect (valid : sb.Valid) (inv : OpInv sb disk ip) (empty : ip.addrs indirect = 0)
    {b : Nat} (inSize : b < sb.size) (clear : used sb disk b = false) :
    OpInv sb (allocate sb disk b) (ip.setAddr indirect b) ∧
      ∀ bn, blockAddr (allocate sb disk b) (ip.setAddr indirect b).toDinode bn = blockAddr disk ip.toDinode bn := by
  obtain ⟨data, _⟩ := inv.owned.not_refd_of_clear inSize clear
  have pos : b ≠ 0 := by have := valid.zero_meta; omega
  have zero : allocate sb disk b b = Block.zero := by simp [allocate]
  refine ⟨⟨?_, inv.bound, inv.allocated, inv.fits.setAddr _ (by have := valid.size_lt; omega)⟩, fun bn => ?_⟩
  · apply inv.owned.acquire inv.bound inSize clear
    · intro i hi ne
      have keeps := inv.owned.allocate_keeps valid inSize clear hi
      refine ⟨?_, keeps.2⟩
      rw [view_of_ne (allocate sb disk b) (ip.setAddr indirect b) ne, view_of_ne disk ip ne, keeps.1]
    · have before : refsOf (allocate sb disk b) ip.toDinode = refsOf disk ip.toDinode :=
        refsOf_congr fun present => absurd empty present
      rw [holds_view_of_inum (ip.setAddr indirect b) (i := ip.inum) rfl inv.allocated, inv.holds_self, ← before]
      exact refsOf_setIndirect _ ip.toDinode empty pos zero
    · rw [view_of_inum _ (ip.setAddr indirect b) (i := ip.inum) rfl]
      exact inv.allocated
    · intro x hx
      exact allocate_used valid data hx
  · rw [Inode.setAddr_toDinode, blockAddr_setIndirect _ _ empty zero]
    exact blockAddr_congr _ _ (fun present => absurd empty present) bn

/-- `bmap` fills an empty entry of the indirect block with a free block. -/
theorem OpInv.acquireEntry (valid : sb.Valid) (inv : OpInv sb disk ip) (present : ip.addrs indirect ≠ 0)
    {j : Nat} (hj : j < NINDIRECT) (empty : field (disk (ip.addrs indirect)) (4 * j) 4 = 0)
    {b : Nat} (inSize : b < sb.size) (clear : used sb disk b = false) :
    OpInv sb (Function.update (allocate sb disk b) (ip.addrs indirect)
        (setField (allocate sb disk b (ip.addrs indirect)) (4 * j) 4 b)) ip ∧
      ∀ bn, blockAddr (Function.update (allocate sb disk b) (ip.addrs indirect)
          (setField (allocate sb disk b (ip.addrs indirect)) (4 * j) 4 b)) ip.toDinode bn =
        if bn = NDIRECT + j then b else blockAddr disk ip.toDinode bn := by
  obtain ⟨data, _⟩ := inv.owned.not_refd_of_clear inSize clear
  have pos : b ≠ 0 := by have := valid.zero_meta; omega
  have small : b < 2 ^ 32 := by have := valid.size_lt; omega
  have indSame := inv.allocate_indirect valid inSize clear present
  set ind := ip.addrs indirect with ind_def
  have held : ind ∈ holds disk (view sb disk ip ip.inum) := by
    rw [inv.holds_self]
    exact indirect_mem_refsOf disk present
  have indData := (inv.owned.inData _ inv.bound _ held).1
  have before : refsOf (allocate sb disk b) ip.toDinode = refsOf disk ip.toDinode :=
    refsOf_congr fun _ => indSame
  refine ⟨⟨?_, inv.bound, inv.allocated, inv.fits⟩, fun bn => ?_⟩
  · apply inv.owned.acquire inv.bound inSize clear
    · intro i hi ne
      have keeps := inv.owned.allocate_keeps valid inSize clear hi
      have notHeld : ind ∉ holds (allocate sb disk b) (view sb disk ip i) := by
        rw [keeps.2]
        exact fun heldI => inv.owned.disjoint _ _ inv.bound hi (Ne.symm ne) ind held heldI
      refine ⟨?_, by rw [holds_update_of_not_mem _ notHeld, keeps.2]⟩
      rw [view_of_ne _ ip ne, view_of_ne disk ip ne, table_update_of_ne _ (valid.data_ne_IBLOCK indData hi),
        keeps.1]
    · rw [holds_view_of_inum ip rfl inv.allocated, inv.holds_self, ← before]
      exact refsOf_setEntry _ ip.toDinode present hj (by rw [indSame]; exact empty) pos small
    · rw [view_self]
      exact inv.allocated
    · intro x hx
      rw [used_update_of_ne (valid.data_ne_BBLOCK indData hx)]
      exact allocate_used valid data hx
  · rw [blockAddr_setEntry _ _ present hj small, blockAddr_congr _ _ (fun _ => indSame)]

end Acquire

/-! ## `bmap` keeps the invariant -/

/-- What `bmap` guarantees: the invariant kept, nothing but addresses changed in
the inode, the address returned mapped at `bn` unless it is 0, and every index
that was mapped still mapped to the same block. -/
def BmapPost (sb : Superblock) (disk : Disk) (ip : Inode) (bn addr : Nat) (disk' : Disk) (ip' : Inode) : Prop :=
  OpInv sb disk' ip' ∧ Keeps sb disk disk' ip.inum ∧ (∃ addrs, ip' = { ip with addrs }) ∧
    (addr ≠ 0 → blockAddr disk' ip'.toDinode bn = addr) ∧
    ∀ bn', blockAddr disk ip.toDinode bn' ≠ 0 →
      blockAddr disk' ip'.toDinode bn' = blockAddr disk ip.toDinode bn'

theorem BmapPost.refl {disk : Disk} {ip : Inode} (inv : OpInv sb disk ip) (bn : Nat) :
    BmapPost sb disk ip bn 0 disk ip :=
  ⟨inv, Keeps.refl disk ip.inum, ⟨_, rfl⟩, fun zero => absurd rfl zero, fun _ _ => rfl⟩

theorem allocAddr_of_balloc {fs fs' : Fs} {ip : Inode} {k : Fin (NDIRECT + 1)} (empty : ip.addrs k = 0)
    {b : Nat} (alloc : balloc sb fs = (b, fs')) :
    allocAddr sb fs ip k = (b, fs', if b = 0 then ip else ip.setAddr k b) := by
  simp [allocAddr, empty, alloc]

/-- In the indirect range `bmap` first makes sure of the indirect block, then
goes on as it would for the inode that has it. -/
theorem bmap_of_allocAddr_indirect {fs fs₁ : Fs} {ip ip₁ : Inode} {bn ind : Nat} (direct : ¬bn < NDIRECT)
    (inIndirect : bn - NDIRECT < NINDIRECT) (alloc : allocAddr sb fs ip indirect = (ind, fs₁, ip₁))
    (present : ip₁.addrs indirect ≠ 0) (same : ind = ip₁.addrs indirect) :
    bmap sb fs ip bn = bmap sb fs₁ ip₁ bn := by
  simp only [bmap, dif_neg direct, if_pos inIndirect, alloc, allocAddr_of_ne_zero _ _ _ present, same]

/-- A block an inode holds is none that `balloc` reads: no bitmap block, as a
data block, and not the block it hands out, as a block in use. -/
theorem Owned.not_mem_ballocReads {disk : Disk} {tab : Nat → Dinode} (valid : sb.Valid) (owned : Owned sb disk tab)
    {i c : Nat} (bound : i < sb.ninodes) (held : c ∈ holds disk (tab i)) : (ballocReads sb disk).contains c = false := by
  obtain ⟨data, inside⟩ := owned.inData i bound c held
  have notBitmap : ∀ x, x < sb.size → c ≠ BBLOCK x sb := fun x below => valid.data_ne_BBLOCK data below
  have inUse : used sb disk c = true := (owned.bitmap c inside).mpr (.inr ⟨i, bound, held⟩)
  rw [Bool.eq_false_iff, ne_eq, List.contains_iff_mem]
  unfold ballocReads
  cases found : (List.range sb.size).find? (fun b => !used sb disk b) with
  | none =>
    simp only [List.mem_map, List.mem_range, not_exists, not_and]
    intro k below same
    exact notBitmap (k * BPB) (by rw [BPB_eq] at below ⊢; omega) same.symm
  | some b =>
    obtain ⟨free, mem, -⟩ := List.find?_range_eq_some.mp found
    have found_lt := List.mem_range.mp mem
    simp only [List.mem_append, List.mem_map, List.mem_range, List.mem_singleton, not_or, not_exists, not_and]
    refine ⟨fun k below same => notBitmap (k * BPB) (by rw [BPB_eq] at below ⊢; omega) same.symm,
      fun same => ?_⟩
    -- the block handed out is free, and the inode's block is in use
    rw [← same, inUse] at free
    cases free

/-- The indirect block an operation's inode holds is none that `balloc` reads,
so `bmap` does not wait on it. -/
theorem OpInv.indirect_not_read {disk : Disk} {ip : Inode} (valid : sb.Valid) (inv : OpInv sb disk ip)
    (present : ip.addrs indirect ≠ 0) : (ballocReads sb disk).contains (ip.addrs indirect) = false := by
  have held : ip.addrs indirect ∈ holds disk (view sb disk ip ip.inum) := by
    rw [inv.holds_self]
    exact indirect_mem_refsOf disk present
  exact inv.owned.not_mem_ballocReads valid inv.bound held

/-- `bmap` in the indirect range with the indirect block there and the entry
empty: a block from `balloc`, written into the entry unless it is 0. -/
theorem bmap_entry_eq {fs : Fs} {ip : Inode} {bn : Nat} (direct : ¬bn < NDIRECT)
    (inIndirect : bn - NDIRECT < NINDIRECT) (present : ip.addrs indirect ≠ 0)
    (empty : field (fs.disk (ip.addrs indirect)) (4 * (bn - NDIRECT)) 4 = 0)
    (notRead : (ballocReads sb fs.disk).contains (ip.addrs indirect) = false) :
    ∀ b fs₁, balloc sb fs = (b, fs₁) → bmap sb fs ip bn =
      if b = 0 then .ok (0, fs₁, ip)
      else .ok (b, (fs₁.write (ip.addrs indirect) (setField (fs₁.disk (ip.addrs indirect))
        (4 * (bn - NDIRECT)) 4 b)).logWrite (ip.addrs indirect), ip) := by
  intro b fs₁ alloc
  simp only [bmap, dif_neg direct, if_pos inIndirect, allocAddr_of_ne_zero _ _ _ present, if_neg present,
    empty, notRead, alloc, if_true, Bool.false_eq_true, if_false]

/-- The last step of `bmap` in the indirect range: the entry for `bn` is empty,
so a free block is taken for it. -/
theorem bmap_entry_spec (valid : sb.Valid) {fs : Fs} {ip : Inode} (inv : OpInv sb fs.disk ip) {bn : Nat}
    (direct : ¬bn < NDIRECT) (inIndirect : bn - NDIRECT < NINDIRECT) (present : ip.addrs indirect ≠ 0)
    (empty : field (fs.disk (ip.addrs indirect)) (4 * (bn - NDIRECT)) 4 = 0) :
    ∃ addr fs', bmap sb fs ip bn = .ok (addr, fs', ip) ∧ BmapPost sb fs.disk ip bn addr fs'.disk ip := by
  have unmapped : blockAddr fs.disk ip.toDinode bn = 0 := by
    simp [blockAddr, direct, inIndirect, present, empty]
  have bmapEq := @bmap_entry_eq sb fs ip bn direct inIndirect present empty (inv.indirect_not_read valid present)
  rcases balloc_cases sb fs with ⟨b, inSize, clear, _, alloc⟩ | ⟨_, full⟩
  · obtain ⟨inv', map⟩ := inv.acquireEntry valid present inIndirect empty inSize clear
    have pos : b ≠ 0 := by
      have := valid.zero_meta
      have := (inv.owned.not_refd_of_clear inSize clear).1
      omega
    -- the entry is written into the inode's own indirect block, which no other inode holds
    have keeps : Keeps sb fs.disk (Function.update (allocate sb fs.disk b) (ip.addrs indirect)
        (setField (allocate sb fs.disk b (ip.addrs indirect)) (4 * (bn - NDIRECT)) 4 b)) ip.inum := by
      have first := inv.keeps_allocate valid inSize clear
      have indHeld : ip.addrs indirect ∈ holds fs.disk (view sb fs.disk ip ip.inum) := by
        rw [inv.holds_self]
        exact indirect_mem_refsOf _ present
      refine first.trans (keeps_update _ _ (fun i hi ne heldI => ?_) (fun i hi _ => ?_))
      · rw [first.holds_eq hi ne, ← view_of_ne fs.disk ip ne] at heldI
        exact inv.owned.disjoint _ _ inv.bound hi (Ne.symm ne) _ indHeld heldI
      · exact valid.data_ne_IBLOCK (inv.owned.inData _ inv.bound _ indHeld).1 hi
    refine ⟨b, _, by rw [bmapEq _ _ alloc, if_neg pos], ?_⟩
    refine ⟨inv', keeps, ⟨_, rfl⟩, fun _ => ?_, fun bn' had => ?_⟩
    · simp only [Fs.logWrite_disk, Fs.write_disk]
      rw [map, if_pos (by omega)]
    · simp only [Fs.logWrite_disk, Fs.write_disk]
      rw [map, if_neg]
      intro same
      exact had (by rw [same, Nat.add_sub_cancel' (by omega)]; exact unmapped)
  · refine ⟨0, _, by rw [bmapEq _ _ full, if_pos rfl], ?_⟩
    exact BmapPost.refl inv bn

/-- `bmap` keeps the invariant, whichever of its branches it takes. -/
theorem bmap_spec (valid : sb.Valid) {fs : Fs} {ip : Inode} (inv : OpInv sb fs.disk ip) {bn : Nat}
    (inRange : bn < MAXFILE) :
    ∃ addr fs' ip', bmap sb fs ip bn = .ok (addr, fs', ip') ∧ BmapPost sb fs.disk ip bn addr fs'.disk ip' := by
  by_cases mapped : blockAddr fs.disk ip.toDinode bn ≠ 0
  · exact ⟨_, fs, ip, bmap_of_mapped sb fs ip inRange mapped, inv, Keeps.refl _ _, ⟨_, rfl⟩, fun _ => rfl,
      fun _ _ => rfl⟩
  have unmapped : blockAddr fs.disk ip.toDinode bn = 0 := not_not.mp mapped
  have dataPos : ∀ b, sb.dataStart ≤ b → b ≠ 0 := fun b data => by have := valid.zero_meta; omega
  by_cases direct : bn < NDIRECT
  · -- a direct block: its slot is empty
    set j : Fin NDIRECT := ⟨bn, direct⟩
    have empty : ip.addrs j.castSucc = 0 := by
      simp only [blockAddr, dif_pos direct] at unmapped
      exact unmapped
    have bmapEq : bmap sb fs ip bn = .ok (allocAddr sb fs ip j.castSucc) := by simp [bmap, direct, j]
    rcases balloc_cases sb fs with ⟨b, inSize, clear, _, alloc⟩ | ⟨_, full⟩
    · obtain ⟨inv', map⟩ := inv.acquireDirect valid empty inSize clear
      have pos := dataPos b (inv.owned.not_refd_of_clear inSize clear).1
      refine ⟨b, _, ip.setAddr j.castSucc b, by rw [bmapEq, allocAddr_of_balloc empty alloc, if_neg pos], ?_⟩
      refine ⟨inv', inv.keeps_allocate valid inSize clear, ⟨_, rfl⟩, fun _ => by rw [map, if_pos rfl],
        fun bn' had => ?_⟩
      rw [map, if_neg]
      rintro rfl
      exact had unmapped
    · refine ⟨0, _, ip, by rw [bmapEq, allocAddr_of_balloc empty full, if_pos rfl], ?_⟩
      exact BmapPost.refl inv bn
  have inIndirect : bn - NDIRECT < NINDIRECT := by
    rw [MAXFILE] at inRange
    omega
  by_cases present : ip.addrs indirect = 0
  · -- no indirect block yet: take one, then a block for the entry
    rcases balloc_cases sb fs with ⟨b, inSize, clear, _, alloc⟩ | ⟨_, full⟩
    · obtain ⟨inv₁, map₁⟩ := inv.acquireIndirect valid present inSize clear
      have pos := dataPos b (inv.owned.not_refd_of_clear inSize clear).1
      have present₁ : (ip.setAddr indirect b).addrs indirect ≠ 0 := by simpa using pos
      have empty₁ : field (allocate sb fs.disk b ((ip.setAddr indirect b).addrs indirect))
          (4 * (bn - NDIRECT)) 4 = 0 := by
        simp [allocate, field_zero_block]
      have alloc₁ := allocAddr_of_balloc present alloc
      rw [if_neg pos] at alloc₁
      obtain ⟨addr, fs', entry, inv', keeps, _, hit, keep⟩ :=
        @bmap_entry_spec sb valid ⟨allocate sb fs.disk b, _⟩ _ inv₁ bn direct inIndirect present₁ empty₁
      refine ⟨addr, fs', ip.setAddr indirect b, ?_, inv', (inv.keeps_allocate valid inSize clear).trans keeps,
        ⟨_, rfl⟩, hit, fun bn' had => ?_⟩
      · rw [bmap_of_allocAddr_indirect direct inIndirect alloc₁ present₁ (by simp)]
        exact entry
      · rw [keep bn' (by rw [map₁]; exact had), map₁]
    · have alloc₁ := allocAddr_of_balloc present full
      rw [if_pos rfl] at alloc₁
      refine ⟨0, ⟨fs.disk, fs.calls ++ [.balloc]⟩, ip, ?_, BmapPost.refl inv bn⟩
      simp only [bmap, dif_neg direct, if_pos inIndirect, alloc₁, if_true]
  · -- the indirect block exists and its entry is empty
    have empty : field (fs.disk (ip.addrs indirect)) (4 * (bn - NDIRECT)) 4 = 0 := by
      simpa [blockAddr, direct, inIndirect, present] using unmapped
    obtain ⟨addr, fs', entry, post⟩ := bmap_entry_spec valid inv direct inIndirect present empty
    exact ⟨addr, fs', ip, entry, post⟩

end Xv6
