/-
# Kernel.Truncate -- `itrunc` and `iput` free every block once

`itrunc` frees the direct blocks, the blocks the indirect block lists and the
indirect block itself, each with `bfree`, and writes the inode back with an
empty map.  The invariant says each of these blocks is held, so its bit is set,
and held once, so it is freed once: `bfree` never finds a clear bit and never
panics.  `freeDirect_spec` and `freeIndirect_spec` compute the two loops as
`freeAll` of the blocks they visit; `itrunc_eq` puts them together, the blocks
freed being exactly those the inode held, and `itrunc_spec` concludes with
`Owned.release`.  `iput_spec` adds the last reference's free of the inode.
-/
import Xv6.Kernel.Write

namespace Xv6

open Bytes

set_option autoImplicit false

variable {sb : Superblock}

/-! ## Freeing a list of blocks -/

/-- The disk after `bfree` of each block of `bs` in turn. -/
def freeAll (sb : Superblock) (disk : Disk) (bs : List Nat) : Disk := bs.foldl (free sb) disk

@[simp] theorem freeAll_nil (disk : Disk) : freeAll sb disk [] = disk := rfl

@[simp] theorem freeAll_cons (disk : Disk) (b : Nat) (bs : List Nat) :
    freeAll sb disk (b :: bs) = freeAll sb (free sb disk b) bs := rfl

theorem freeAll_append (disk : Disk) (bs cs : List Nat) :
    freeAll sb disk (bs ++ cs) = freeAll sb (freeAll sb disk bs) cs :=
  List.foldl_append

theorem used_freeAll (disk : Disk) (bs : List Nat) (x : Nat) :
    used sb (freeAll sb disk bs) x = (decide (x ∉ bs) && used sb disk x) := by
  induction bs generalizing disk with
  | nil => simp
  | cons b bs ih =>
      rw [freeAll_cons, ih, used_free]
      by_cases same : x = b <;> simp [same]

/-- Freeing writes bitmap blocks only. -/
theorem freeAll_of_ne (disk : Disk) (bs : List Nat) {c : Nat} (notMap : ∀ b ∈ bs, c ≠ BBLOCK b sb) :
    freeAll sb disk bs c = disk c := by
  induction bs generalizing disk with
  | nil => rfl
  | cons b bs ih =>
      rw [freeAll_cons, ih _ (fun b' mem => notMap b' (List.mem_cons_of_mem _ mem))]
      exact Function.update_of_ne (notMap b List.mem_cons_self) _ _

section Valid

variable (valid : sb.Valid) {bs : List Nat} (small : ∀ b ∈ bs, b < sb.size)
include valid small

theorem freeAll_of_data (disk : Disk) {c : Nat} (data : sb.dataStart ≤ c) : freeAll sb disk bs c = disk c :=
  freeAll_of_ne disk bs fun b mem => valid.data_ne_BBLOCK data (small b mem)

omit small in
theorem table_freeAll (disk : Disk) {i : Nat} (hi : i < sb.ninodes) :
    table sb (freeAll sb disk bs) i = table sb disk i := by
  unfold table
  rw [freeAll_of_ne disk bs fun b _ => (valid.BBLOCK_ne_IBLOCK b hi).symm]

/-- Freeing does not change what an inode whose blocks are data holds. -/
theorem holds_freeAll (disk : Disk) {d : Dinode} (data : ∀ c ∈ holds disk d, sb.dataStart ≤ c) :
    holds (freeAll sb disk bs) d = holds disk d := by
  unfold holds at data ⊢
  split
  · rfl
  · rename_i allocated
    rw [if_neg allocated] at data
    exact refsOf_congr fun present =>
      freeAll_of_data valid small disk (data _ (indirect_mem_refsOf disk present))

end Valid

/-! ## The two loops of `itrunc` -/

/-- The direct loop over the slots `ks`: it frees their nonzero addresses in
order and clears the slots, provided each address is set and listed once. -/
theorem freeDirect_spec : ∀ (ks : List (Fin (NDIRECT + 1))) (fs : Fs) (ip : Inode), ks.Nodup →
    ((ks.map ip.addrs).filter (· != 0)).Nodup →
    (∀ b ∈ (ks.map ip.addrs).filter (· != 0), used sb fs.disk b = true) →
    ∃ calls, freeDirect sb fs ip ks = .ok (⟨freeAll sb fs.disk ((ks.map ip.addrs).filter (· != 0)), calls⟩,
      { ip with addrs := fun k => if k ∈ ks then 0 else ip.addrs k })
  | [], fs, ip, _, _, _ => ⟨fs.calls, by simp [freeDirect]⟩
  | k :: ks, fs, ip, distinct, nodup, set => by
      obtain ⟨notLater, distinct⟩ := List.nodup_cons.mp distinct
      by_cases zero : ip.addrs k = 0
      · -- an empty slot is skipped, and clearing it changes nothing
        have sameList : ((k :: ks).map ip.addrs).filter (· != 0) = (ks.map ip.addrs).filter (· != 0) := by
          simp [zero]
        rw [sameList] at nodup set ⊢
        obtain ⟨calls, loop⟩ := freeDirect_spec ks fs ip distinct nodup set
        refine ⟨calls, ?_⟩
        rw [freeDirect, if_pos zero, loop]
        have sameAddrs : (fun k' => if k' ∈ ks then 0 else ip.addrs k') =
            fun k' => if k' ∈ k :: ks then 0 else ip.addrs k' := by
          funext k'
          by_cases here : k' = k
          · subst here
            simp [zero]
          · simp [here]
        rw [sameAddrs]
      · have list : ((k :: ks).map ip.addrs).filter (· != 0) = ip.addrs k :: (ks.map ip.addrs).filter (· != 0) := by
          simp [zero]
        rw [list] at nodup set ⊢
        obtain ⟨fresh, nodup⟩ := List.nodup_cons.mp nodup
        -- the later slots read the same addresses once slot `k` is cleared
        have sameMap : ks.map (ip.setAddr k 0).addrs = ks.map ip.addrs :=
          List.map_congr_left fun k' mem => Function.update_of_ne (fun same => notLater (by rw [← same]; exact mem)) _ _
        have stillSet : ∀ b ∈ (ks.map ip.addrs).filter (· != 0), used sb (free sb fs.disk (ip.addrs k)) b = true := by
          intro b mem
          have differ : b ≠ ip.addrs k := fun same => fresh (same ▸ mem)
          rw [used_free, set b (List.mem_cons_of_mem _ mem)]
          simp [differ]
        obtain ⟨calls, loop⟩ := freeDirect_spec ks ⟨free sb fs.disk (ip.addrs k),
          fs.calls ++ [.logWrite (BBLOCK (ip.addrs k) sb)]⟩ (ip.setAddr k 0) distinct
          (by rw [sameMap]; exact nodup) (by rw [sameMap]; exact stillSet)
        refine ⟨calls, ?_⟩
        rw [freeDirect, if_neg zero, bfree_of_used (set _ List.mem_cons_self)]
        simp only [loop, sameMap, freeAll_cons]
        have sameAddrs : (fun k' => if k' ∈ ks then 0 else Function.update ip.addrs k 0 k') =
            fun k' => if k' ∈ k :: ks then 0 else ip.addrs k' := by
          funext k'
          by_cases here : k' = k
          · subst here
            simp
          · simp [here]
        simp only [Inode.setAddr, sameAddrs]

/-- The loop over the indirect block `ind`: it frees the nonzero entries in
order, provided each is a set block of the disk listed once.  The loop rereads
`ind` on every pass, which freeing does not change. -/
theorem freeIndirect_spec (valid : sb.Valid) (ind : Nat) (data : sb.dataStart ≤ ind) :
    ∀ (js : List Nat) (fs : Fs), ((js.map fun j => field (fs.disk ind) (4 * j) 4).filter (· != 0)).Nodup →
      (∀ b ∈ (js.map fun j => field (fs.disk ind) (4 * j) 4).filter (· != 0),
        b < sb.size ∧ used sb fs.disk b = true) →
      ∃ calls, freeIndirect sb ind fs js =
        .ok ⟨freeAll sb fs.disk ((js.map fun j => field (fs.disk ind) (4 * j) 4).filter (· != 0)), calls⟩
  | [], fs, _, _ => ⟨fs.calls, rfl⟩
  | j :: js, fs, nodup, set => by
      by_cases zero : field (fs.disk ind) (4 * j) 4 = 0
      · have sameList : ((j :: js).map fun j => field (fs.disk ind) (4 * j) 4).filter (· != 0) =
            (js.map fun j => field (fs.disk ind) (4 * j) 4).filter (· != 0) := by
          simp [zero]
        rw [sameList] at nodup set ⊢
        obtain ⟨calls, loop⟩ := freeIndirect_spec valid ind data js fs nodup set
        exact ⟨calls, by rw [freeIndirect, if_pos zero, loop]⟩
      · have list : ((j :: js).map fun j => field (fs.disk ind) (4 * j) 4).filter (· != 0) =
            field (fs.disk ind) (4 * j) 4 :: (js.map fun j => field (fs.disk ind) (4 * j) 4).filter (· != 0) := by
          simp [zero]
        set a := field (fs.disk ind) (4 * j) 4 with a_def
        rw [list] at nodup set ⊢
        obtain ⟨fresh, nodup⟩ := List.nodup_cons.mp nodup
        obtain ⟨aSmall, aSet⟩ := set a List.mem_cons_self
        -- freeing `a` writes its bitmap block, not the indirect block
        have sameInd : free sb fs.disk a ind = fs.disk ind :=
          Function.update_of_ne (valid.data_ne_BBLOCK data aSmall) _ _
        have stillSet : ∀ b ∈ (js.map fun j => field (fs.disk ind) (4 * j) 4).filter (· != 0),
            b < sb.size ∧ used sb (free sb fs.disk a) b = true := by
          intro b mem
          have differ : b ≠ a := fun same => fresh (same ▸ mem)
          obtain ⟨bSmall, bSet⟩ := set b (List.mem_cons_of_mem _ mem)
          refine ⟨bSmall, ?_⟩
          rw [used_free, bSet]
          simp [differ]
        obtain ⟨calls, loop⟩ := freeIndirect_spec valid ind data js
          ⟨free sb fs.disk a, fs.calls ++ [.logWrite (BBLOCK a sb)]⟩ (by simp only [sameInd]; exact nodup)
          (by simp only [sameInd]; exact stillSet)
        refine ⟨calls, ?_⟩
        rw [freeIndirect, if_neg zero, bfree_of_used aSet]
        simp only [loop, sameInd, freeAll_cons]

/-! ## `itrunc` -/

/-- Every slot is a direct slot or the indirect one. -/
theorem mem_directs_or_indirect (k : Fin (NDIRECT + 1)) : k ∈ directs ∨ k = indirect := by
  by_cases direct : k.val < NDIRECT
  · left
    exact List.mem_map.mpr ⟨⟨k.val, direct⟩, List.mem_finRange _, rfl⟩
  · right
    exact Fin.ext (by simp [indirect]; omega)

theorem indirect_not_mem_directs : indirect ∉ directs := by
  simp only [directs, List.mem_map]
  rintro ⟨j, _, same⟩
  exact Fin.castSucc_ne_last j same

/-- An empty map names no block. -/
@[simp] theorem refsOf_empty (disk : Disk) (d : Dinode) : refsOf disk { d with addrs := fun _ => 0 } = [] := by
  simp [refsOf]

/-- The inode `itrunc` leaves: no blocks and size 0. -/
def Inode.emptied (ip : Inode) : Inode := { ip with addrs := fun _ => 0, size := 0 }

@[simp] theorem Inode.emptied_inum (ip : Inode) : ip.emptied.inum = ip.inum := rfl

@[simp] theorem Inode.emptied_toDinode (ip : Inode) :
    ip.emptied.toDinode = { ip.toDinode with addrs := fun _ => 0, size := 0 } := rfl

/-- `itrunc` frees exactly the blocks the inode holds, each once, and writes the
emptied inode back. -/
theorem itrunc_eq (valid : sb.Valid) {fs : Fs} {ip : Inode} (inv : OpInv sb fs.disk ip) :
    ∃ freed calls, (∀ x, x ∈ freed ↔ x ∈ refsOf fs.disk ip.toDinode) ∧ (∀ b ∈ freed, b < sb.size) ∧
      itrunc sb fs ip = .ok (iupdate sb ⟨freeAll sb fs.disk freed, calls⟩ ip.emptied, ip.emptied) := by
  have nodup : (refsOf fs.disk ip.toDinode).Nodup := by
    rw [← inv.holds_self]
    exact inv.owned.nodup _ inv.bound
  -- every block the inode holds is a set data block below the size
  have heldFacts : ∀ b ∈ refsOf fs.disk ip.toDinode, sb.dataStart ≤ b ∧ b < sb.size ∧ used sb fs.disk b = true := by
    intro b held
    rw [← inv.holds_self] at held
    obtain ⟨data, small⟩ := inv.owned.inData _ inv.bound b held
    exact ⟨data, small, (inv.owned.bitmap b small).mpr (.inr ⟨ip.inum, inv.bound, held⟩)⟩
  set D := (directs.map ip.addrs).filter (· != 0) with D_def
  have inD : ∀ b ∈ D, b ∈ refsOf fs.disk ip.toDinode := fun b mem => by
    unfold refsOf
    exact List.mem_append_left _ mem
  have nodupD : D.Nodup := (List.nodup_append.mp nodup).1
  obtain ⟨calls₁, direct⟩ := freeDirect_spec directs fs ip ((List.nodup_finRange _).map (Fin.castSucc_injective _))
    nodupD
    (fun b mem => (heldFacts b (inD b mem)).2.2)
  set ip₁ : Inode := { ip with addrs := fun k => if k ∈ directs then 0 else ip.addrs k }
  have ind₁ : ip₁.addrs indirect = ip.addrs indirect := by simp [ip₁, indirect_not_mem_directs]
  by_cases none : ip.addrs indirect = 0
  · -- no indirect block: the direct blocks are all
    refine ⟨D, calls₁, fun x => ?_, fun b mem => (heldFacts b (inD b mem)).2.1, ?_⟩
    · simp [refsOf, none, D_def]
    · have emptied : ({ ip₁ with size := 0 } : Inode) = ip.emptied := by
        simp only [Inode.emptied, ip₁]
        congr
        funext k
        rcases mem_directs_or_indirect k with mem | rfl
        · simp [mem]
        · simp [indirect_not_mem_directs, none]
      rw [itrunc]
      simp only [direct]
      rw [ind₁, if_pos none]
      dsimp only
      rw [emptied]
  · set ind := ip.addrs indirect with ind_def
    obtain ⟨indData, indSmall, indSet⟩ := heldFacts ind (indirect_mem_refsOf _ none)
    set E := (entries fs.disk ind).filter (· != 0) with E_def
    have split : refsOf fs.disk ip.toDinode = D ++ ind :: E := refsOf_of_present _ none
    have inE : ∀ b ∈ E, b ∈ refsOf fs.disk ip.toDinode := fun b mem => by
      rw [split]
      exact List.mem_append_right _ (List.mem_cons_of_mem _ mem)
    have smallD : ∀ b ∈ D, b < sb.size := fun b mem => (heldFacts b (inD b mem)).2.1
    rw [split] at nodup
    obtain ⟨-, nodupIndE, apart⟩ := List.nodup_append.mp nodup
    obtain ⟨indNotE, nodupE⟩ := List.nodup_cons.mp nodupIndE
    -- after the direct loop the indirect block reads as before, and its entries are still set
    have sameInd : freeAll sb fs.disk D ind = fs.disk ind := freeAll_of_data valid smallD _ indData
    have entriesEq : ((List.range NINDIRECT).map fun j => field (freeAll sb fs.disk D ind) (4 * j) 4).filter
        (· != 0) = E := by
      rw [sameInd]
      rfl
    have setE : ∀ b ∈ E, b < sb.size ∧ used sb (freeAll sb fs.disk D) b = true := by
      intro b mem
      obtain ⟨_, small, set⟩ := heldFacts b (inE b mem)
      refine ⟨small, ?_⟩
      rw [used_freeAll, set]
      simp only [Bool.and_true, decide_eq_true_eq]
      exact fun inDirect => apart b inDirect b (List.mem_cons_of_mem _ mem) rfl
    obtain ⟨calls₂, indirectLoop⟩ := freeIndirect_spec valid ind indData (List.range NINDIRECT)
      ⟨freeAll sb fs.disk D, calls₁⟩ (by rw [entriesEq]; exact nodupE) (by rw [entriesEq]; exact setE)
    rw [entriesEq] at indirectLoop
    have indStillSet : used sb (freeAll sb (freeAll sb fs.disk D) E) ind = true := by
      rw [used_freeAll, used_freeAll, indSet]
      simp only [Bool.and_true, Bool.and_eq_true, decide_eq_true_eq]
      exact ⟨indNotE, fun inDirect => apart ind inDirect ind List.mem_cons_self rfl⟩
    refine ⟨D ++ E ++ [ind], calls₂ ++ [.logWrite (BBLOCK ind sb)], fun x => ?_, fun b mem => ?_, ?_⟩
    · rw [split]
      simp only [List.mem_append, List.mem_cons, List.not_mem_nil, or_false]
      constructor
      · rintro ((inD | inE) | rfl)
        · exact .inl inD
        · exact .inr (.inr inE)
        · exact .inr (.inl rfl)
      · rintro (inD | rfl | inE)
        · exact .inl (.inl inD)
        · exact .inr rfl
        · exact .inl (.inr inE)
    · simp only [List.mem_append, List.mem_singleton] at mem
      rcases mem with (mem | mem) | rfl
      · exact smallD b mem
      · exact (setE b mem).1
      · exact indSmall
    · have emptied : ({ ip₁.setAddr indirect 0 with size := 0 } : Inode) = ip.emptied := by
        simp only [Inode.emptied, Inode.setAddr, ip₁]
        congr
        funext k
        rcases mem_directs_or_indirect k with mem | rfl
        · have differ : k ≠ indirect := fun same => indirect_not_mem_directs (same ▸ mem)
          simp [mem, differ]
        · simp
      rw [itrunc]
      simp only [direct]
      rw [ind₁, if_neg none, indirectLoop]
      dsimp only
      rw [@bfree_of_used sb ⟨freeAll sb (freeAll sb fs.disk D) E, calls₂⟩ ind indStillSet]
      dsimp only
      rw [emptied, freeAll_append, freeAll_append]
      rfl

/-- `itrunc` never panics: it leaves a table the invariant holds of, with the
inode emptied and every other inode alone. -/
theorem itrunc_spec (valid : sb.Valid) {fs : Fs} {ip : Inode} (inv : OpInv sb fs.disk ip) :
    ∃ fs', itrunc sb fs ip = .ok (fs', ip.emptied) ∧ Owned sb fs'.disk (table sb fs'.disk) ∧
      Keeps sb fs.disk fs'.disk ip.inum ∧ table sb fs'.disk ip.inum = ip.emptied.toDinode := by
  obtain ⟨freed, calls, sameMembers, small, eq⟩ := itrunc_eq valid inv
  -- freeing touches bitmap blocks only, so the other inodes keep their slots and blocks
  have keeps₁ : Keeps sb fs.disk (freeAll sb fs.disk freed) ip.inum := by
    intro i hi ne
    refine ⟨table_freeAll valid fs.disk hi, fun c held => freeAll_of_data valid small _ ?_⟩
    rw [← view_of_ne fs.disk ip ne] at held
    exact (inv.owned.inData i hi c held).1
  -- the inode lets go of all it held, and their bits are now clear
  have released : Owned sb (freeAll sb fs.disk freed) (view sb (freeAll sb fs.disk freed) ip.emptied) := by
    apply inv.owned.release inv.bound
    · intro i hi ne
      refine ⟨?_, ?_⟩
      · rw [view_of_ne _ ip.emptied ne, view_of_ne _ ip ne]
        exact (keeps₁ i hi ne).1
      · exact holds_freeAll valid small _ fun c held => (inv.owned.inData i hi c held).1
    · rw [holds_view_of_inum ip.emptied (i := ip.inum) rfl inv.allocated, Inode.emptied_toDinode]
      exact refsOf_empty _ ip.toDinode
    · intro x _
      rw [used_freeAll, inv.holds_self]
      simp [sameMembers]
    · intro free
      rw [view_of_inum _ ip.emptied (i := ip.inum) rfl] at free
      exact absurd free inv.allocated
  have fits : ip.emptied.toDinode.Fits :=
    { inv.fits with
      size := by simp
      addrs := fun _ => by simp }
  obtain ⟨owned, keeps₂, back⟩ :=
    @Owned.writeBack sb valid ⟨freeAll sb fs.disk freed, calls⟩ ip.emptied released inv.bound fits
  exact ⟨_, eq, owned, keeps₁.trans keeps₂, back⟩

/-- `iput` never panics.  Short of the last reference to an unlinked inode it
changes no block; the last one truncates the inode and frees its slot. -/
theorem iput_spec (valid : sb.Valid) {fs : Fs} {ip : Inode} (inv : OpInv sb fs.disk ip)
    (loaded : table sb fs.disk ip.inum = ip.toDinode) :
    ∃ fs' ip', iput sb fs ip = .ok (fs', ip') ∧ Owned sb fs'.disk (table sb fs'.disk) ∧
      Keeps sb fs.disk fs'.disk ip.inum ∧ (fs' = fs ∨ (table sb fs'.disk ip.inum).type = 0) := by
  by_cases last : ip.ref = 1 ∧ ip.valid ∧ ip.nlink = 0
  · obtain ⟨fs₁, trunc, owned₁, keeps₁, back₁⟩ := itrunc_spec valid inv
    set ip₂ : Inode := { ip.emptied with type := 0 } with ip₂_def
    have emptyBefore : holds fs₁.disk (table sb fs₁.disk ip.inum) = [] := by
      simp [back₁, holds, inv.allocated, refsOf]
    -- the emptied inode holds nothing, so freeing its slot releases nothing
    have released : Owned sb fs₁.disk (view sb fs₁.disk ip₂) := by
      apply owned₁.release inv.bound
      · intro i _ ne
        exact ⟨view_of_ne fs₁.disk ip₂ ne, rfl⟩
      · rw [view_of_inum fs₁.disk ip₂ (i := ip.inum) rfl, holds, if_pos rfl]
      · intro x _
        simp [emptyBefore]
      · intro _ k
        rw [view_of_inum fs₁.disk ip₂ (i := ip.inum) rfl]
        rfl
    have fits : ip₂.toDinode.Fits :=
      { inv.fits with
        type := by simp [ip₂_def]
        size := by simp [ip₂_def, Inode.emptied]
        addrs := fun _ => by simp [ip₂_def, Inode.emptied] }
    obtain ⟨owned₂, keeps₂, back₂⟩ := released.writeBack valid inv.bound fits
    have freedSlot : (table sb (iupdate sb fs₁ ip₂).disk ip₂.inum).type = 0 := by rw [back₂]
    refine ⟨_, { ip₂ with valid := false, ref := ip₂.ref - 1 }, ?_, owned₂, keeps₁.trans keeps₂, .inr freedSlot⟩
    rw [iput, if_pos last, trunc]
  · exact ⟨fs, _, by rw [iput, if_neg last], inv.owned_table loaded, Keeps.refl _ _, .inl rfl⟩

end Xv6
