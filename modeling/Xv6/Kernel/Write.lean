/-
# Kernel.Write -- `writei` keeps every block with one owner

A pass of `writei` maps the block of the next index with `bmap` and writes
into it.  That block is one the inode maps, so it is neither the inode's
indirect block nor anything another inode holds (`blockAddr_mem_refsOf`):
writing it changes no holding and no bit (`OpInv.writeData`).  With
`bmap_spec` for the mapping, `writeLoop_spec` carries the invariant over the
whole loop, including the pass whose copy fails part-way, and adds that the
blocks of every index below the offset reached exist.  `writei_spec` closes
with the size update and the `iupdate`: the table the operation leaves is
again one the invariant holds of (`Owned.writeBack`), and the inode has no holes.
-/
import Xv6.Kernel.Ownership

namespace Xv6

open Bytes

set_option autoImplicit false

variable {sb : Superblock}

/-! ## The block a pass writes -/

theorem refsOf_of_present (disk : Disk) {d : Dinode} (present : d.addrs indirect ≠ 0) :
    refsOf disk d = (directs.map d.addrs).filter (· != 0) ++
      d.addrs indirect :: (entries disk (d.addrs indirect)).filter (· != 0) := by
  simp [refsOf, present]

/-- A mapped index is a block the inode holds, and not its indirect block when
the inode holds no block twice. -/
theorem blockAddr_mem_refsOf (disk : Disk) (d : Dinode) {bn : Nat} (mapped : blockAddr disk d bn ≠ 0) :
    blockAddr disk d bn ∈ refsOf disk d ∧
      ((refsOf disk d).Nodup → blockAddr disk d bn ≠ d.addrs indirect) := by
  unfold blockAddr at mapped ⊢
  by_cases direct : bn < NDIRECT
  · simp only [dif_pos direct] at mapped ⊢
    have inDirects : d.addrs ⟨bn, by omega⟩ ∈ (directs.map d.addrs).filter (· != 0) := by
      refine List.mem_filter.mpr ⟨List.mem_map.mpr ⟨(⟨bn, direct⟩ : Fin NDIRECT).castSucc, ?_, rfl⟩, ?_⟩
      · exact List.mem_map_of_mem (List.mem_finRange _)
      · simpa using mapped
    refine ⟨by unfold refsOf; exact List.mem_append_left _ inDirects, fun nodup same => ?_⟩
    have present : d.addrs indirect ≠ 0 := same ▸ mapped
    rw [refsOf_of_present disk present] at nodup
    exact List.disjoint_of_nodup_append nodup inDirects (same ▸ List.mem_cons_self)
  · simp only [dif_neg direct] at mapped ⊢
    by_cases inIndirect : bn - NDIRECT < NINDIRECT
    · simp only [if_pos inIndirect] at mapped ⊢
      have present : d.addrs indirect ≠ 0 := fun none => mapped (by simp [none])
      simp only [if_neg present] at mapped ⊢
      -- the entry is listed in the indirect block, after the indirect block itself
      have inEntries : field (disk (d.addrs indirect)) (4 * (bn - NDIRECT)) 4 ∈
          (entries disk (d.addrs indirect)).filter (· != 0) := by
        refine List.mem_filter.mpr ⟨List.mem_map.mpr ⟨bn - NDIRECT, List.mem_range.mpr inIndirect, rfl⟩, ?_⟩
        simpa using mapped
      rw [refsOf_of_present disk present]
      refine ⟨List.mem_append_right _ (List.mem_cons_of_mem _ inEntries), fun nodup same => ?_⟩
      have tail := (List.nodup_append.mp nodup).2.1
      rw [same] at inEntries
      exact (List.nodup_cons.mp tail).1 inEntries
    · simp [inIndirect] at mapped

/-- A pass writes a block the inode maps: no holding, no bit and no mapped
index notices, and the other inodes are left alone. -/
theorem OpInv.writeData (valid : sb.Valid) {disk : Disk} {ip : Inode} (inv : OpInv sb disk ip) {bn addr : Nat}
    (hit : blockAddr disk ip.toDinode bn = addr) (pos : addr ≠ 0) (blk : Block) :
    OpInv sb (Function.update disk addr blk) ip ∧ Keeps sb disk (Function.update disk addr blk) ip.inum ∧
      ∀ bn', blockAddr (Function.update disk addr blk) ip.toDinode bn' = blockAddr disk ip.toDinode bn' := by
  subst hit
  have nodup : (refsOf disk ip.toDinode).Nodup := by
    rw [← inv.holds_self]
    exact inv.owned.nodup _ inv.bound
  obtain ⟨held, notIndirect⟩ := blockAddr_mem_refsOf disk ip.toDinode pos
  have sameIndirect : ip.addrs indirect ≠ 0 →
      Function.update disk (blockAddr disk ip.toDinode bn) blk (ip.addrs indirect) = disk (ip.addrs indirect) :=
    fun _ => Function.update_of_ne (Ne.symm (notIndirect nodup)) _ _
  have keeps := inv.keeps_write valid held blk
  have data : sb.dataStart ≤ blockAddr disk ip.toDinode bn := by
    rw [← inv.holds_self] at held
    exact (inv.owned.inData _ inv.bound _ held).1
  refine ⟨⟨?_, inv.bound, inv.allocated, inv.fits⟩, keeps, blockAddr_congr _ _ sameIndirect⟩
  apply inv.owned.congr
  · intro i hi
    by_cases same : i = ip.inum
    · subst same
      rw [holds_view_of_inum ip rfl inv.allocated, inv.holds_self]
      exact refsOf_congr sameIndirect
    · rw [view_of_ne _ ip same, view_of_ne _ ip same]
      exact keeps.holds_eq hi same
  · intro i hi free
    by_cases same : i = ip.inum
    · subst same
      rw [view_self] at free
      exact absurd free inv.allocated
    · rw [view_of_ne _ ip same, (keeps i hi same).1] at free
      rw [view_of_ne _ ip same, view_of_ne _ ip same, (keeps i hi same).1]
      exact ⟨free, rfl⟩
  · intro x hx
    exact used_update_of_ne (valid.data_ne_BBLOCK data hx)

/-! ## Writing the inode back -/

/-- `iupdate` makes the table the one the operation saw; being an inode block,
the block it writes is seen by no holding and no bit. -/
theorem Owned.writeBack (valid : sb.Valid) {fs : Fs} {ip : Inode} (owned : Owned sb fs.disk (view sb fs.disk ip))
    (bound : ip.inum < sb.ninodes) (fits : ip.toDinode.Fits) :
    Owned sb (iupdate sb fs ip).disk (table sb (iupdate sb fs ip).disk) ∧
      Keeps sb fs.disk (iupdate sb fs ip).disk ip.inum ∧ table sb (iupdate sb fs ip).disk ip.inum = ip.toDinode := by
  have written : table sb (iupdate sb fs ip).disk = view sb fs.disk ip := by
    funext i
    rw [table_iupdate sb fs ip fits]
    by_cases same : i = ip.inum
    · rw [if_pos same, same, view_self]
    · rw [if_neg same, view_of_ne _ ip same]
  have diskEq : (iupdate sb fs ip).disk = Function.update fs.disk (IBLOCK ip.inum sb)
      (ip.toDinode.write (fs.disk (IBLOCK ip.inum sb)) (ip.inum % IPB)) := rfl
  have notHeld : ∀ i, i < sb.ninodes → IBLOCK ip.inum sb ∉ holds fs.disk (view sb fs.disk ip i) :=
    fun i hi held => by
      have := (owned.inData i hi _ held).1
      have := valid.inode_meta bound
      omega
  refine ⟨?_, ?_, by rw [written, view_self]⟩
  · rw [written, diskEq]
    apply owned.congr
    · intro i hi
      exact holds_update_of_not_mem _ (notHeld i hi)
    · intro i _ free
      exact ⟨free, rfl⟩
    · intro x _
      exact used_update_of_ne (valid.BBLOCK_ne_IBLOCK x bound).symm
  · intro i hi ne
    refine ⟨by rw [written, view_of_ne _ ip ne], fun c held => ?_⟩
    rw [← view_of_ne fs.disk ip ne] at held
    rw [diskEq, Function.update_of_ne]
    rintro rfl
    exact notHeld i hi held

/-- The invariant does not look at an inode's size, numbers or link count. -/
theorem OpInv.withMeta {disk : Disk} {ip : Inode} (inv : OpInv sb disk ip) (ip' : Inode)
    (sameInum : ip'.inum = ip.inum) (sameType : ip'.type = ip.type) (sameAddrs : ip'.addrs = ip.addrs)
    (fits : ip'.toDinode.Fits) : OpInv sb disk ip' := by
  have sameView : ∀ i, i ≠ ip.inum → view sb disk ip' i = view sb disk ip i := fun i ne => by
    rw [view_of_ne disk ip' (sameInum ▸ ne), view_of_ne disk ip ne]
  have allocated : ip'.type ≠ 0 := sameType ▸ inv.allocated
  refine ⟨?_, sameInum ▸ inv.bound, allocated, fits⟩
  apply inv.owned.congr
  · intro i _
    by_cases same : i = ip.inum
    · subst same
      rw [holds_view_of_inum ip' sameInum allocated, inv.holds_self]
      simp only [refsOf, sameAddrs]
    · rw [sameView i same]
  · intro i _ free
    by_cases same : i = ip.inum
    · subst same
      rw [view_of_inum disk ip' sameInum] at free
      exact absurd free allocated
    · rw [sameView i same] at free ⊢
      exact ⟨free, rfl⟩
  · intro x _
    rfl

/-- Once written back, the table is the one the operation saw. -/
theorem OpInv.owned_table {disk : Disk} {ip : Inode} (inv : OpInv sb disk ip)
    (loaded : table sb disk ip.inum = ip.toDinode) : Owned sb disk (table sb disk) := by
  have same : view sb disk ip = table sb disk := by
    funext i
    by_cases here : i = ip.inum
    · rw [here, view_self, loaded]
    · exact view_of_ne disk ip here
  rw [← same]
  exact inv.owned

/-- `iupdate` writes an inode block, which no mapped index reads. -/
theorem OpInv.blockAddr_iupdate (valid : sb.Valid) {fs : Fs} {ip : Inode} (inv : OpInv sb fs.disk ip) (bn : Nat) :
    blockAddr (iupdate sb fs ip).disk ip.toDinode bn = blockAddr fs.disk ip.toDinode bn := by
  refine blockAddr_congr _ _ (fun present => ?_) bn
  have held : ip.addrs indirect ∈ holds fs.disk (view sb fs.disk ip ip.inum) := by
    rw [inv.holds_self]
    exact indirect_mem_refsOf _ present
  have data := (inv.owned.inData _ inv.bound _ held).1
  exact Function.update_of_ne (valid.data_ne_IBLOCK data inv.bound) _ _

/-! ## The loop of `writei` -/

/-- Every byte of the range `[lo, hi)` has its block. -/
def MappedFrom (disk : Disk) (d : Dinode) (lo hi : Nat) : Prop :=
  ∀ p, lo ≤ p → p < hi → blockAddr disk d (p / BSIZE) ≠ 0

/-- The loop of `writei` from offset `base + tot`, inside the largest file: it
never panics, keeps the invariant and leaves the other inodes alone, changes
nothing but addresses in the inode and no address already there, and maps
every index it has written, whether it stops at the end, at a full disk or at
a failing copy. -/
theorem writeLoop_spec (valid : sb.Valid) (m : Mem) (userSrc : Bool) (n base : Nat)
    (inRange : base + n ≤ MAXFILE * BSIZE) :
    ∀ fuel tot src (fs : Fs) (ip : Inode), n - tot ≤ fuel → tot ≤ n → OpInv sb fs.disk ip →
      MappedFrom fs.disk ip.toDinode base (base + tot) →
      ∃ tot' fs' ip', writeLoop sb m userSrc n fuel tot (base + tot) src fs ip = .ok (tot', base + tot', fs', ip') ∧
        OpInv sb fs'.disk ip' ∧ Keeps sb fs.disk fs'.disk ip.inum ∧ (∃ addrs, ip' = { ip with addrs }) ∧
        tot' ≤ n ∧ MappedFrom fs'.disk ip'.toDinode base (base + tot') ∧
        ∀ bn, blockAddr fs.disk ip.toDinode bn ≠ 0 →
          blockAddr fs'.disk ip'.toDinode bn = blockAddr fs.disk ip.toDinode bn
  | fuel, tot, src, fs, ip, enough, atMost, inv, written => by
      by_cases more : tot < n
      · obtain ⟨fuel, rfl⟩ : ∃ f, fuel = f + 1 := ⟨fuel - 1, by omega⟩
        have bnRange : (base + tot) / BSIZE < MAXFILE := by
          rw [BSIZE_eq] at inRange ⊢
          omega
        obtain ⟨addr, fs₁, ip₁, bmapEq, inv₁, keeps₁, ⟨addrs₁, rfl⟩, hit, keep₁⟩ := bmap_spec valid inv bnRange
        -- every index mapped before keeps its block
        have written₁ : MappedFrom fs₁.disk { ip with addrs := addrs₁ }.toDinode base (base + tot) :=
          fun p lo hi => by
            rw [keep₁ _ (written p lo hi)]
            exact written p lo hi
        by_cases full : addr = 0
        · -- the disk is full: the loop stops where it is
          refine ⟨tot, fs₁, _, ?_, inv₁, keeps₁, ⟨_, rfl⟩, atMost, written₁, keep₁⟩
          simp only [writeLoop, if_pos more, bmapEq, if_pos full]
        · set mm := min (n - tot) (BSIZE - (base + tot) % BSIZE) with mm_def
          have moved : 0 < mm := by
            rw [mm_def, BSIZE_eq]
            omega
          cases copied : eitherCopyin m userSrc src mm with
          | mk bytes ok =>
            -- the bytes copied, all of them or those before the failure, land in the block
            set blk := copyInto (fs₁.disk addr) ((base + tot) % BSIZE) bytes with blk_def
            obtain ⟨inv₂, keeps₂, sameMap⟩ := inv₁.writeData valid (hit full) full blk
            have written₂ : MappedFrom (Function.update fs₁.disk addr blk) { ip with addrs := addrs₁ }.toDinode
                base (base + tot) := fun p lo hi => by
              rw [sameMap]
              exact written₁ p lo hi
            have keep₂ : ∀ bn, blockAddr fs.disk ip.toDinode bn ≠ 0 →
                blockAddr (Function.update fs₁.disk addr blk) { ip with addrs := addrs₁ }.toDinode bn =
                  blockAddr fs.disk ip.toDinode bn := fun bn mapped => by
              rw [sameMap, keep₁ bn mapped]
            cases ok with
            | false =>
                refine ⟨tot, fs₁.write addr blk, _, ?_, inv₂, keeps₁.trans keeps₂, ⟨_, rfl⟩, atMost, written₂, keep₂⟩
                simp only [writeLoop, if_pos more, bmapEq, if_neg full, ← mm_def, copied, Bool.false_eq_true,
                  if_false]
                rfl
            | true =>
                have writtenNext : MappedFrom (Function.update fs₁.disk addr blk) { ip with addrs := addrs₁ }.toDinode
                    base (base + (tot + mm)) := fun p lo hi => by
                  by_cases old : p < base + tot
                  · exact written₂ p lo old
                  · -- the new bytes are all in the block this pass wrote
                    have here : p / BSIZE = (base + tot) / BSIZE := by
                      rw [mm_def, BSIZE_eq] at hi
                      rw [BSIZE_eq]
                      omega
                    rw [here, sameMap, hit full]
                    exact full
                obtain ⟨tot', fs', ip', loop, inv', keeps', ⟨addrs', rfl⟩, atMost', written', keep'⟩ :=
                  writeLoop_spec valid m userSrc n base inRange fuel (tot + mm) (src + mm)
                    ((fs₁.write addr blk).logWrite addr) _ (by omega) (by omega) inv₂ writtenNext
                refine ⟨tot', fs', _, ?_, inv', keeps₁.trans (keeps₂.trans keeps'), ⟨_, rfl⟩, atMost', written',
                  fun bn mapped => ?_⟩
                · simp only [writeLoop, if_pos more, bmapEq, if_neg full, ← mm_def, copied, if_true]
                  rw [Nat.add_assoc]
                  exact loop
                · have mapped₂ := keep₂ bn mapped
                  have still : blockAddr ((fs₁.write addr blk).logWrite addr).disk
                      { ip with addrs := addrs₁ }.toDinode bn ≠ 0 := by
                    simp only [Fs.logWrite_disk, Fs.write_disk]
                    rw [mapped₂]
                    exact mapped
                  rw [keep' bn still]
                  exact mapped₂
      · refine ⟨tot, fs, ip, ?_, inv, Keeps.refl _ _, ⟨_, rfl⟩, atMost, written, fun _ _ => rfl⟩
        cases fuel <;> simp [writeLoop, more]

/-- `writei` on an inode loaded from its slot: it never panics, and leaves a
table the invariant holds of, the other inodes alone and the inode written
back, whether it refuses the range, writes all of it or stops early.  An inode
without holes and inside the largest file stays so. -/
theorem writei_spec (valid : sb.Valid) {fs : Fs} {ip : Inode} (inv : OpInv sb fs.disk ip)
    (loaded : table sb fs.disk ip.inum = ip.toDinode) (m : Mem) (userSrc : Bool) (src : Nat) (off n : UInt32) :
    ∃ r fs' ip', writei sb fs ip m userSrc src off n = .ok (r, fs', ip') ∧
      Owned sb fs'.disk (table sb fs'.disk) ∧ Keeps sb fs.disk fs'.disk ip.inum ∧
      table sb fs'.disk ip.inum = ip'.toDinode ∧ ip'.type = ip.type ∧
      (NoHoles fs.disk ip.toDinode → NoHoles fs'.disk ip'.toDinode) ∧
      (ip.size ≤ MAXFILE * BSIZE → ip'.size ≤ MAXFILE * BSIZE) := by
  have unchanged : Owned sb fs.disk (table sb fs.disk) ∧ Keeps sb fs.disk fs.disk ip.inum ∧
      table sb fs.disk ip.inum = ip.toDinode ∧ ip.type = ip.type ∧
      (NoHoles fs.disk ip.toDinode → NoHoles fs.disk ip.toDinode) ∧
      (ip.size ≤ MAXFILE * BSIZE → ip.size ≤ MAXFILE * BSIZE) :=
    ⟨inv.owned_table loaded, Keeps.refl _ _, loaded, rfl, id, id⟩
  by_cases refused : off.toNat > ip.size ∨ off + n < off
  · exact ⟨-1, fs, ip, by rw [writei, if_pos refused], unchanged⟩
  by_cases tooBig : off.toNat + n.toNat > MAXFILE * BSIZE
  · exact ⟨-1, fs, ip, by rw [writei, if_neg refused, if_pos tooBig], unchanged⟩
  have inside : off.toNat ≤ ip.size := by omega
  obtain ⟨tot, fs', ip', loop, inv', keeps', ⟨addrs', rfl⟩, atMost, written, keep⟩ :=
    writeLoop_spec valid m userSrc n.toNat off.toNat (by omega) n.toNat 0 src fs ip (by omega) (by omega) inv
      (fun p lo hi => absurd hi (by omega))
  rw [Nat.add_zero] at loop
  -- the size grows to the offset reached; nothing else changes before `iupdate`
  set ipSized : Inode := { ip with addrs := addrs', size := max ip.size (off.toNat + tot) } with ipSized_def
  have fits : ipSized.toDinode.Fits :=
    { inv'.fits with
      size := by
        have := valid.size_lt
        have := inv.fits.size
        rw [MAXFILE_eq, BSIZE_eq] at tooBig
        simp only [ipSized_def]
        omega }
  have invSized : OpInv sb fs'.disk ipSized := inv'.withMeta ipSized rfl rfl rfl fits
  obtain ⟨owned, keepsBack, back⟩ := invSized.owned.writeBack valid invSized.bound fits
  refine ⟨signed 4 tot, iupdate sb fs' ipSized, ipSized, ?_, owned, keeps'.trans keepsBack, back, rfl,
    fun noHoles bn below => ?_, fun small => ?_⟩
  · rw [writei, if_neg refused, if_neg tooBig]
    simp only [loop]
    -- the size left is the larger of the old size and the offset reached
    split
    · rename_i grows
      rw [ipSized_def, Nat.max_eq_right (by omega)]
    · rename_i stays
      rw [ipSized_def, Nat.max_eq_left (by omega)]
  · rw [invSized.blockAddr_iupdate valid]
    simp only [ipSized_def] at below
    -- below the old size the blocks were there and stay; past it, the loop wrote them
    by_cases old : bn * BSIZE < ip.size
    · have mapped := noHoles bn old
      have same := keep bn mapped
      -- the map does not read the size
      have sameMap : blockAddr fs'.disk ipSized.toDinode bn =
          blockAddr fs'.disk ({ ip with addrs := addrs' } : Inode).toDinode bn := rfl
      rw [sameMap, same]
      exact mapped
    · have mapped := written (bn * BSIZE) (by omega) (by omega)
      rwa [Nat.mul_div_cancel _ (by rw [BSIZE_eq]; decide)] at mapped
  · simp only [ipSized_def]
    omega

end Xv6
