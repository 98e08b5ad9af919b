/-
# Kernel.WriteContent -- what `writei` does to the bytes of a file

`Write` shows that `writei` keeps every block with one owner; this module
says what it does to the file's content.  A pass of the loop changes three
kinds of blocks: `bmap` sets a bit in the bitmap, zeroes a free block and may
set an entry of the inode's indirect block; then the pass copies its bytes
into the block of its index.  None of these is a block another index of the
inode maps: the bitmap is metadata, a free block is held by no one, and the
inode holds no block twice (`blockAddr_inj`), so the indirect block and the
block of another index are different blocks.  Every mapped index therefore
keeps its block and what the block holds (`DataKept`), except the bytes the
pass copied.

`writeLoop_content` carries this over the loop: when every copy succeeds,
the bytes `[base, base + tot)` are the source's and every other byte the
inode had is unchanged; `writei_content` adds the size update and the
`iupdate`, which writes an inode block.
-/
import Xv6.Kernel.Write

namespace Xv6

open Bytes

set_option autoImplicit false

variable {sb : Superblock}

/-! ## An inode holds no block twice -/

/-- Two indices an inode maps to the same block are the same index, when it
holds no block twice. -/
theorem blockAddr_inj {disk : Disk} {d : Dinode} (nodup : (refsOf disk d).Nodup) {bn bn' : Nat}
    (mapped : blockAddr disk d bn ≠ 0) (same : blockAddr disk d bn = blockAddr disk d bn') : bn = bn' := by
  -- the direct part and the indirect part of the held list, each a map of its indices
  have directPart : ∀ {b : Nat} (direct : b < NDIRECT), d.addrs ⟨b, by omega⟩ ≠ 0 →
      d.addrs ⟨b, by omega⟩ ∈ (directs.map d.addrs).filter (· != 0) := fun {b} direct nonzero =>
    List.mem_filter.mpr ⟨List.mem_map.mpr ⟨(⟨b, direct⟩ : Fin NDIRECT).castSucc,
      List.mem_map_of_mem (List.mem_finRange _), rfl⟩, by simpa using nonzero⟩
  have entryPart : ∀ {b : Nat} (inIndirect : b - NDIRECT < NINDIRECT),
      field (disk (d.addrs indirect)) (4 * (b - NDIRECT)) 4 ≠ 0 →
      field (disk (d.addrs indirect)) (4 * (b - NDIRECT)) 4 ∈ (entries disk (d.addrs indirect)).filter (· != 0) :=
    fun {b} inIndirect nonzero =>
      List.mem_filter.mpr ⟨List.mem_map.mpr ⟨b - NDIRECT, List.mem_range.mpr inIndirect, rfl⟩, by simpa using nonzero⟩
  unfold blockAddr at mapped same
  by_cases direct : bn < NDIRECT <;> by_cases direct' : bn' < NDIRECT
  · -- two direct slots: the direct part lists each nonzero slot once
    simp only [dif_pos direct, dif_pos direct'] at mapped same
    have nodupDirect : ((directs.filter fun k => d.addrs k != 0).map d.addrs).Nodup := by
      have part := (List.nodup_append.mp nodup).1
      rw [List.filter_map] at part
      exact part
    have memOf : ∀ {b : Nat} (direct : b < NDIRECT), d.addrs ⟨b, by omega⟩ ≠ 0 →
        (⟨b, direct⟩ : Fin NDIRECT).castSucc ∈ directs.filter fun k => d.addrs k != 0 := fun {b} direct nonzero =>
      List.mem_filter.mpr ⟨List.mem_map_of_mem (List.mem_finRange _), by simpa using nonzero⟩
    have slots := List.inj_on_of_nodup_map nodupDirect (memOf direct mapped) (memOf direct' (same ▸ mapped)) same
    simpa using slots
  · -- a direct slot and an indirect entry: the two parts share no block
    simp only [dif_pos direct, dif_neg direct'] at mapped same
    by_cases inIndirect : bn' - NDIRECT < NINDIRECT
    · have present : d.addrs indirect ≠ 0 := fun none => mapped (by simpa [inIndirect, none] using same)
      simp only [if_pos inIndirect, if_neg present] at same
      rw [refsOf_of_present disk present] at nodup
      exact absurd (List.mem_cons_of_mem _ (entryPart inIndirect (same ▸ mapped)))
        (List.disjoint_of_nodup_append nodup (same ▸ directPart direct mapped))
    · simp [inIndirect] at same
      exact absurd same mapped
  · simp only [dif_neg direct, dif_pos direct'] at mapped same
    by_cases inIndirect : bn - NDIRECT < NINDIRECT
    · have present : d.addrs indirect ≠ 0 := fun none => mapped (by simp [inIndirect, none])
      simp only [if_pos inIndirect, if_neg present] at mapped same
      rw [refsOf_of_present disk present] at nodup
      exact absurd (List.mem_cons_of_mem _ (entryPart inIndirect mapped))
        (List.disjoint_of_nodup_append nodup (same ▸ directPart direct' (same ▸ mapped)))
    · simp [inIndirect] at mapped
  · -- two entries of the indirect block: it lists each nonzero entry once
    simp only [dif_neg direct, dif_neg direct'] at mapped same
    by_cases inIndirect : bn - NDIRECT < NINDIRECT
    · have present : d.addrs indirect ≠ 0 := fun none => mapped (by simp [inIndirect, none])
      simp only [if_pos inIndirect, if_neg present] at mapped same
      by_cases inIndirect' : bn' - NDIRECT < NINDIRECT
      · simp only [if_pos inIndirect'] at same
        rw [refsOf_of_present disk present] at nodup
        have nodupEntries : (((List.range NINDIRECT).filter fun j =>
            field (disk (d.addrs indirect)) (4 * j) 4 != 0).map fun j => field (disk (d.addrs indirect)) (4 * j) 4).Nodup := by
          have part := (List.nodup_cons.mp (List.nodup_append.mp nodup).2.1).2
          rw [entries, List.filter_map] at part
          exact part
        have memOf : ∀ {j : Nat}, j < NINDIRECT → field (disk (d.addrs indirect)) (4 * j) 4 ≠ 0 →
            j ∈ (List.range NINDIRECT).filter fun j => field (disk (d.addrs indirect)) (4 * j) 4 != 0 :=
          fun {j} below nonzero => List.mem_filter.mpr ⟨List.mem_range.mpr below, by simpa using nonzero⟩
        have entries := List.inj_on_of_nodup_map nodupEntries (memOf inIndirect mapped)
          (memOf inIndirect' (same ▸ mapped)) same
        omega
      · simp [inIndirect'] at same
        exact absurd same mapped
    · simp [inIndirect] at mapped

/-! ## Blocks a pass leaves alone -/

/-- Every index the inode maps in `disk` keeps its block in `disk'`, and the
block keeps what it holds. -/
def DataKept (disk disk' : Disk) (d d' : Dinode) : Prop :=
  ∀ bn, blockAddr disk d bn ≠ 0 →
    blockAddr disk' d' bn = blockAddr disk d bn ∧ disk' (blockAddr disk d bn) = disk (blockAddr disk d bn)

theorem DataKept.refl (disk : Disk) (d : Dinode) : DataKept disk disk d d := fun _ _ => ⟨rfl, rfl⟩

theorem DataKept.trans {disk disk' disk'' : Disk} {d d' d'' : Dinode} (first : DataKept disk disk' d d')
    (second : DataKept disk' disk'' d' d'') : DataKept disk disk'' d d'' := fun bn mapped => by
  obtain ⟨sameAddr, sameBlock⟩ := first bn mapped
  obtain ⟨sameAddr', sameBlock'⟩ := second bn (by rw [sameAddr]; exact mapped)
  rw [sameAddr] at sameAddr' sameBlock'
  exact ⟨sameAddr', sameBlock'.trans sameBlock⟩

/-- A byte whose block was mapped reads the same. -/
theorem DataKept.fileByte {disk disk' : Disk} {d d' : Dinode} (kept : DataKept disk disk' d d') {p : Nat}
    (mapped : blockAddr disk d (p / BSIZE) ≠ 0) : fileByte disk' d' p = fileByte disk d p := by
  obtain ⟨sameAddr, sameBlock⟩ := kept _ mapped
  simp only [Xv6.fileByte, sameAddr, sameBlock]

section Frame

variable {disk : Disk} {ip : Inode}

/-- A block the inode maps is a data block it holds, and not its indirect block. -/
theorem OpInv.mapped_held (inv : OpInv sb disk ip) {bn : Nat} (mapped : blockAddr disk ip.toDinode bn ≠ 0) :
    blockAddr disk ip.toDinode bn ∈ holds disk (view sb disk ip ip.inum) ∧
      blockAddr disk ip.toDinode bn ≠ ip.addrs indirect := by
  have nodup : (refsOf disk ip.toDinode).Nodup := by
    rw [← inv.holds_self]
    exact inv.owned.nodup _ inv.bound
  obtain ⟨held, notIndirect⟩ := blockAddr_mem_refsOf disk ip.toDinode mapped
  exact ⟨by rw [inv.holds_self]; exact held, notIndirect nodup⟩

/-- Taking a free block leaves every block the inode holds as it was. -/
theorem OpInv.allocate_held (valid : sb.Valid) (inv : OpInv sb disk ip) {b : Nat} (inSize : b < sb.size)
    (clear : used sb disk b = false) {c : Nat} (held : c ∈ holds disk (view sb disk ip ip.inum)) :
    allocate sb disk b c = disk c := by
  obtain ⟨_, notRefd⟩ := inv.owned.not_refd_of_clear inSize clear
  have notB : c ≠ b := fun same => notRefd ⟨ip.inum, inv.bound, same ▸ held⟩
  have notMap : c ≠ BBLOCK b sb := valid.data_ne_BBLOCK (inv.owned.inData _ inv.bound _ held).1 inSize
  simp [allocate, Function.update_of_ne notB, Function.update_of_ne notMap]

/-- The entry step of `bmap` leaves the blocks of mapped indices as they were:
it takes a free block and writes the indirect block. -/
theorem bmap_entry_data (valid : sb.Valid) {fs : Fs} (inv : OpInv sb fs.disk ip) {bn : Nat}
    (direct : ¬bn < NDIRECT) (inIndirect : bn - NDIRECT < NINDIRECT) (present : ip.addrs indirect ≠ 0)
    (empty : field (fs.disk (ip.addrs indirect)) (4 * (bn - NDIRECT)) 4 = 0) {addr : Nat} {fs' : Fs} {ip' : Inode}
    (result : bmap sb fs ip bn = .ok (addr, fs', ip')) {bn' : Nat} (mapped : blockAddr fs.disk ip.toDinode bn' ≠ 0) :
    fs'.disk (blockAddr fs.disk ip.toDinode bn') = fs.disk (blockAddr fs.disk ip.toDinode bn') := by
  obtain ⟨held, notIndirect⟩ := inv.mapped_held mapped
  have notRead := inv.indirect_not_read valid present
  rcases balloc_cases sb fs with ⟨b, inSize, clear, _, alloc⟩ | ⟨_, full⟩
  · rw [@bmap_entry_eq sb fs ip bn direct inIndirect present empty notRead _ _ alloc] at result
    split at result
    · cases result
      exact inv.allocate_held valid inSize clear held
    · cases result
      simp only [Fs.logWrite_disk, Fs.write_disk]
      rw [Function.update_of_ne notIndirect]
      exact inv.allocate_held valid inSize clear held
  · rw [@bmap_entry_eq sb fs ip bn direct inIndirect present empty notRead _ _ full, if_pos rfl] at result
    cases result
    rfl

/-- `bmap` leaves every mapped index with its block, and the block with what
it holds. -/
theorem bmap_keeps_data (valid : sb.Valid) {fs : Fs} (inv : OpInv sb fs.disk ip) {bn : Nat} (inRange : bn < MAXFILE)
    {addr : Nat} {fs' : Fs} {ip' : Inode} (result : bmap sb fs ip bn = .ok (addr, fs', ip')) :
    DataKept fs.disk fs'.disk ip.toDinode ip'.toDinode := by
  obtain ⟨addr₀, fs₀, ip₀, spec, -, -, -, -, keep⟩ := bmap_spec valid inv inRange
  rw [spec] at result
  cases result
  refine fun bn' mapped => ⟨keep bn' mapped, ?_⟩
  by_cases there : blockAddr fs.disk ip.toDinode bn ≠ 0
  · rw [bmap_of_mapped sb fs ip inRange there] at spec
    cases spec
    rfl
  obtain ⟨held, notIndirect⟩ := inv.mapped_held mapped
  by_cases direct : bn < NDIRECT
  · -- a direct slot: a free block is taken, or nothing changes
    have bmapEq : bmap sb fs ip bn = .ok (allocAddr sb fs ip ⟨bn, by omega⟩) := by simp [bmap, direct]
    have empty : ip.addrs ⟨bn, by omega⟩ = 0 := by simpa [blockAddr, direct] using there
    rcases balloc_cases sb fs with ⟨b, inSize, clear, _, alloc⟩ | ⟨_, full⟩
    · rw [bmapEq, allocAddr_of_balloc empty alloc] at spec
      cases spec
      exact inv.allocate_held valid inSize clear held
    · rw [bmapEq, allocAddr_of_balloc empty full] at spec
      cases spec
      rfl
  have inIndirect : bn - NDIRECT < NINDIRECT := by
    rw [MAXFILE] at inRange
    omega
  by_cases present : ip.addrs indirect = 0
  · -- a new indirect block first, then the entry step on the inode that has it
    rcases balloc_cases sb fs with ⟨b, inSize, clear, _, alloc⟩ | ⟨_, full⟩
    · obtain ⟨inv₁, map₁⟩ := inv.acquireIndirect valid present inSize clear
      have pos : b ≠ 0 := by
        have := valid.zero_meta
        have := (inv.owned.not_refd_of_clear inSize clear).1
        omega
      have present₁ : (ip.setAddr indirect b).addrs indirect ≠ 0 := by simpa using pos
      have empty₁ : field (allocate sb fs.disk b ((ip.setAddr indirect b).addrs indirect)) (4 * (bn - NDIRECT)) 4 = 0 := by
        simp [allocate, field_zero_block]
      have alloc₁ := allocAddr_of_balloc present alloc
      rw [if_neg pos] at alloc₁
      rw [bmap_of_allocAddr_indirect direct inIndirect alloc₁ present₁ (by simp)] at spec
      have mapped₁ : blockAddr (allocate sb fs.disk b) (ip.setAddr indirect b).toDinode bn' ≠ 0 := by
        rw [map₁]
        exact mapped
      have entry := @bmap_entry_data sb (ip.setAddr indirect b) valid ⟨allocate sb fs.disk b, _⟩ inv₁ bn direct
        inIndirect present₁ empty₁
        _ _ _ spec bn' mapped₁
      rw [map₁] at entry
      rw [entry]
      exact inv.allocate_held valid inSize clear held
    · have alloc₁ := allocAddr_of_balloc present full
      rw [if_pos rfl] at alloc₁
      simp only [bmap, dif_neg direct, if_pos inIndirect, alloc₁, if_true] at spec
      cases spec
      rfl
  · have empty : field (fs.disk (ip.addrs indirect)) (4 * (bn - NDIRECT)) 4 = 0 := by
      simpa [blockAddr, direct, inIndirect, present] using there
    exact bmap_entry_data valid inv direct inIndirect present empty spec mapped

end Frame

/-! ## The bytes a pass leaves -/

/-- The bytes a copy from `src` reads: the process's memory or the kernel's. -/
def Mem.source (m : Mem) (userSrc : Bool) : Nat → UInt8 := if userSrc then m.vm.byte else m.kmem

/-- A copy of `k` bytes from `src` cannot fail. -/
def Mem.CanRead (m : Mem) (userSrc : Bool) (src k : Nat) : Prop := userSrc = true → m.vm.Mapped src k

theorem eitherCopyin_of_canRead {m : Mem} {userSrc : Bool} {src k : Nat} (canRead : m.CanRead userSrc src k) :
    eitherCopyin m userSrc src k = (loadBytes (m.source userSrc) src k, true) := by
  cases userSrc with
  | false => rfl
  | true => simp [eitherCopyin, Mem.source, copyin_of_mapped _ _ _ (canRead rfl)]

/-- The bytes `[base, base + len)` of the inode hold `f (src + i)` for `i`
from 0, and every other byte it had is unchanged. -/
def Overwrites (disk disk' : Disk) (d d' : Dinode) (base len : Nat) (f : Nat → UInt8) (src : Nat) : Prop :=
  ∀ p, (blockAddr disk d (p / BSIZE) ≠ 0 ∨ (base ≤ p ∧ p < base + len)) →
    fileByte disk' d' p = if base ≤ p ∧ p < base + len then f (src + (p - base)) else fileByte disk d p

theorem Overwrites.refl (disk : Disk) (d : Dinode) (base : Nat) (f : Nat → UInt8) (src : Nat) :
    Overwrites disk disk d d base 0 f src := fun p _ => by
  rw [if_neg (by omega)]

/-- Writing the block `addr` that index `bn` maps: the bytes of that index
read the new block, the others are unchanged. -/
theorem fileByte_write {disk : Disk} {d : Dinode} {addr : Nat} {blk : Block}
    (sameMap : ∀ bn, blockAddr (Function.update disk addr blk) d bn = blockAddr disk d bn) (p : Nat) :
    fileByte (Function.update disk addr blk) d p =
      if blockAddr disk d (p / BSIZE) = addr then get blk (p % BSIZE) else fileByte disk d p := by
  unfold Xv6.fileByte
  rw [sameMap]
  split
  · rename_i same
    rw [same, Function.update_self]
  · rename_i other
    rw [Function.update_of_ne other]

/-- A pass copies `mm` bytes of the source into the block of offset `base + tot`,
inside that block: the overwritten range grows by `mm`.  Every byte the range
covered, and every byte the inode had, has its block (`mappedNow`). -/
theorem Overwrites.pass {disk₀ disk : Disk} {d₀ d : Dinode} {base tot src : Nat} {f : Nat → UInt8}
    (prior : Overwrites disk₀ disk d₀ d base tot f src) (nodup : (refsOf disk d).Nodup)
    (mappedNow : ∀ p, (blockAddr disk₀ d₀ (p / BSIZE) ≠ 0 ∨ base ≤ p ∧ p < base + tot) →
      blockAddr disk d (p / BSIZE) ≠ 0)
    {addr : Nat} (hit : blockAddr disk d ((base + tot) / BSIZE) = addr)
    {mm : Nat} (inBlock : mm ≤ BSIZE - (base + tot) % BSIZE)
    (sameMap : ∀ bn, blockAddr (Function.update disk addr
      (copyInto (disk addr) ((base + tot) % BSIZE) (loadBytes f (src + tot) mm))) d bn = blockAddr disk d bn) :
    Overwrites disk₀ (Function.update disk addr (copyInto (disk addr) ((base + tot) % BSIZE) (loadBytes f (src + tot) mm)))
      d₀ d base (tot + mm) f src := by
  intro p covered
  have blockPos : 0 < BSIZE := by rw [BSIZE_eq]; decide
  rw [fileByte_write sameMap]
  by_cases new : base + tot ≤ p ∧ p < base + tot + mm
  · -- a byte of this pass: in the block of `base + tot`, at its place in the copy
    have here : p / BSIZE = (base + tot) / BSIZE := by
      rw [BSIZE_eq] at inBlock ⊢
      omega
    have offset : p % BSIZE = (base + tot) % BSIZE + (p - (base + tot)) := by
      rw [BSIZE_eq] at inBlock ⊢
      omega
    have fits : (base + tot) % BSIZE + mm ≤ BSIZE := by omega
    rw [if_pos (here ▸ hit), if_pos ⟨by omega, by omega⟩, get_copyInto, if_pos]
    · simp only [loadBytes, offset, Nat.add_sub_cancel_left]
      rw [List.getElem?_map, List.getElem?_range (by omega)]
      simp only [Option.map_some, Option.getD_some]
      congr 1
      omega
    · simp only [length_loadBytes]
      have := Nat.mod_lt p blockPos
      omega
  · -- any other byte had its block; the pass's block changed only inside the copy
    have covered' : blockAddr disk₀ d₀ (p / BSIZE) ≠ 0 ∨ base ≤ p ∧ p < base + tot := by omega
    have mapped := mappedNow p covered'
    have before := prior p covered'
    have sameCond : (base ≤ p ∧ p < base + (tot + mm)) ↔ (base ≤ p ∧ p < base + tot) := by omega
    rw [if_congr sameCond rfl rfl, ← before]
    split
    · rename_i same
      -- the same block: the copy does not reach this byte
      have here : p / BSIZE = (base + tot) / BSIZE := blockAddr_inj nodup mapped (same.trans hit.symm)
      rw [get_copyInto, if_neg]
      · unfold Xv6.fileByte
        rw [same]
      · simp only [length_loadBytes]
        rw [BSIZE_eq] at here inBlock ⊢
        omega
    · rfl

/-! ## The loop and `writei` -/

/-- The loop of `writei` from offset `base + tot` when every copy succeeds:
the bytes `[base, base + tot')` hold the source and every other byte the inode
had at the start is unchanged.  It stops short of `n` only where it started
or at a block boundary, where `bmap` found the disk full. -/
theorem writeLoop_content (valid : sb.Valid) (m : Mem) (userSrc : Bool) (n base src : Nat)
    (inRange : base + n ≤ MAXFILE * BSIZE) (canRead : m.CanRead userSrc src n) (disk₀ : Disk) (d₀ : Dinode) :
    ∀ fuel tot (fs : Fs) (ip : Inode), n - tot ≤ fuel → tot ≤ n → OpInv sb fs.disk ip →
      MappedFrom fs.disk ip.toDinode base (base + tot) →
      (∀ bn, blockAddr disk₀ d₀ bn ≠ 0 → blockAddr fs.disk ip.toDinode bn ≠ 0) →
      Overwrites disk₀ fs.disk d₀ ip.toDinode base tot (m.source userSrc) src →
      ∃ tot' fs' ip', writeLoop sb m userSrc n fuel tot (base + tot) (src + tot) fs ip =
          .ok (tot', base + tot', fs', ip') ∧
        tot ≤ tot' ∧ tot' ≤ n ∧ (tot' = n ∨ tot' = tot ∨ (base + tot') % BSIZE = 0) ∧
        (tot' < n → blockAddr disk₀ d₀ ((base + tot') / BSIZE) = 0) ∧
        Overwrites disk₀ fs'.disk d₀ ip'.toDinode base tot' (m.source userSrc) src
  | fuel, tot, fs, ip, enough, atMost, inv, written, stillMapped, prior => by
      by_cases more : tot < n
      · obtain ⟨fuel, rfl⟩ : ∃ f, fuel = f + 1 := ⟨fuel - 1, by omega⟩
        have bnRange : (base + tot) / BSIZE < MAXFILE := by
          rw [BSIZE_eq] at inRange ⊢
          omega
        obtain ⟨addr, fs₁, ip₁, bmapEq, inv₁, -, ⟨addrs₁, rfl⟩, hit, keep₁⟩ := bmap_spec valid inv bnRange
        have kept₁ := bmap_keeps_data valid inv bnRange bmapEq
        -- every byte the range covered, and every byte the inode had, has its block
        have mappedBefore : ∀ p, (blockAddr disk₀ d₀ (p / BSIZE) ≠ 0 ∨ base ≤ p ∧ p < base + tot) →
            blockAddr fs.disk ip.toDinode (p / BSIZE) ≠ 0 := fun p covered => by
          rcases covered with old | new
          · exact stillMapped _ old
          · exact written p new.1 new.2
        have prior₁ : Overwrites disk₀ fs₁.disk d₀ { ip with addrs := addrs₁ }.toDinode base tot
            (m.source userSrc) src := fun p covered => by
          rw [kept₁.fileByte (mappedBefore p covered)]
          exact prior p covered
        by_cases full : addr = 0
        · -- the disk is full: the loop stops where it is, at an index that had no block
          have unmapped : blockAddr disk₀ d₀ ((base + tot) / BSIZE) = 0 := by
            by_contra had
            rw [bmap_of_mapped sb fs ip bnRange (stillMapped _ had)] at bmapEq
            obtain ⟨rfl, -⟩ : blockAddr fs.disk ip.toDinode ((base + tot) / BSIZE) = addr ∧ _ := by
              simpa using bmapEq
            exact stillMapped _ had full
          refine ⟨tot, fs₁, _, ?_, le_refl _, atMost, .inr (.inl rfl), fun _ => unmapped, prior₁⟩
          simp only [writeLoop, if_pos more, bmapEq, if_pos full]
        · set mm := min (n - tot) (BSIZE - (base + tot) % BSIZE) with mm_def
          have moved : 0 < mm := by
            rw [mm_def, BSIZE_eq]
            omega
          have copied : eitherCopyin m userSrc (src + tot) mm = (loadBytes (m.source userSrc) (src + tot) mm, true) :=
            eitherCopyin_of_canRead fun user x lo hi => canRead user x (by omega) (by omega)
          set blk := copyInto (fs₁.disk addr) ((base + tot) % BSIZE) (loadBytes (m.source userSrc) (src + tot) mm)
            with blk_def
          obtain ⟨inv₂, -, sameMap⟩ := inv₁.writeData valid (hit full) full blk
          have nodup₁ : (refsOf fs₁.disk { ip with addrs := addrs₁ }.toDinode).Nodup := by
            rw [← inv₁.holds_self]
            exact inv₁.owned.nodup _ inv₁.bound
          have mapped₁ : ∀ p, (blockAddr disk₀ d₀ (p / BSIZE) ≠ 0 ∨ base ≤ p ∧ p < base + tot) →
              blockAddr fs₁.disk { ip with addrs := addrs₁ }.toDinode (p / BSIZE) ≠ 0 := fun p covered => by
            rw [keep₁ _ (mappedBefore p covered)]
            exact mappedBefore p covered
          have prior₂ := prior₁.pass nodup₁ mapped₁ (hit full) (Nat.min_le_right _ _) sameMap
          -- the bytes of this pass are in its block
          have written₂ : MappedFrom (Function.update fs₁.disk addr blk) { ip with addrs := addrs₁ }.toDinode
              base (base + (tot + mm)) := fun p lo hi => by
            rw [sameMap]
            by_cases old : p < base + tot
            · exact mapped₁ p (.inr ⟨lo, old⟩)
            · have here : p / BSIZE = (base + tot) / BSIZE := by
                rw [mm_def, BSIZE_eq] at hi
                rw [BSIZE_eq]
                omega
              rw [here, hit full]
              exact full
          have stillMapped₂ : ∀ bn, blockAddr disk₀ d₀ bn ≠ 0 →
              blockAddr (Function.update fs₁.disk addr blk) { ip with addrs := addrs₁ }.toDinode bn ≠ 0 :=
            fun bn had => by
              rw [sameMap, keep₁ bn (stillMapped bn had)]
              exact stillMapped bn had
          obtain ⟨tot', fs', ip', loop, grew, atMost', stop, short, final⟩ :=
            writeLoop_content valid m userSrc n base src inRange canRead disk₀ d₀ fuel (tot + mm)
              ((fs₁.write addr blk).logWrite addr) _ (by omega) (by omega) inv₂ written₂ stillMapped₂ prior₂
          refine ⟨tot', fs', ip', ?_, by omega, atMost', ?_, short, final⟩
          · simp only [writeLoop, if_pos more, bmapEq, if_neg full, ← mm_def, copied, if_true]
            rw [Nat.add_assoc, Nat.add_assoc]
            exact loop
          · -- a stop right after this pass is at `n` or at the end of its block
            rcases stop with atN | atPass | boundary
            · exact .inl atN
            · by_cases whole : mm = n - tot
              · exact .inl (by omega)
              · right; right
                rw [atPass]
                rw [mm_def, BSIZE_eq] at whole ⊢
                omega
            · exact .inr (.inr boundary)
      · refine ⟨tot, fs, ip, ?_, le_refl _, atMost, .inr (.inl rfl), fun short => absurd short more, prior⟩
        cases fuel <;> simp [writeLoop, more]

/-- `iupdate` writes an inode block: the inode's data stays as it was. -/
theorem OpInv.iupdate_keeps_data (valid : sb.Valid) {fs : Fs} {ip : Inode} (inv : OpInv sb fs.disk ip) :
    DataKept fs.disk (iupdate sb fs ip).disk ip.toDinode ip.toDinode := fun bn mapped => by
  refine ⟨inv.blockAddr_iupdate valid bn, ?_⟩
  have data := (inv.owned.inData _ inv.bound _ (inv.mapped_held mapped).1).1
  show Function.update fs.disk (IBLOCK ip.inum sb) _ _ = _
  rw [Function.update_of_ne (valid.data_ne_IBLOCK data inv.bound)]

/-- `writei` from an offset inside the file, inside the largest file, when
every copy succeeds: it returns the count `tot` it wrote, the bytes
`[off, off + tot)` hold the source and every other byte the inode had is
unchanged, and the size grows to `off + tot` if that is past it.  The count
falls short of `n` only when it is 0 or ends at a block boundary, where the
disk was full: at an index the inode had no block for. -/
theorem writei_content (valid : sb.Valid) {fs : Fs} {ip : Inode} (inv : OpInv sb fs.disk ip)
    (m : Mem) (userSrc : Bool) (src : Nat) {off n : UInt32} (inside : off.toNat ≤ ip.size)
    (noWrap : off.toNat + n.toNat < 2 ^ 32) (small : off.toNat + n.toNat ≤ MAXFILE * BSIZE)
    (canRead : m.CanRead userSrc src n.toNat) :
    ∃ (tot : Nat) (fs' : Fs) (ip' : Inode), writei sb fs ip m userSrc src off n = .ok (tot, fs', ip') ∧
      tot ≤ n.toNat ∧
      (tot = n.toNat ∨ tot = 0 ∨ (off.toNat + tot) % BSIZE = 0) ∧
      (tot < n.toNat → blockAddr fs.disk ip.toDinode ((off.toNat + tot) / BSIZE) = 0) ∧
      ip' = { ip with addrs := ip'.addrs, size := max ip.size (off.toNat + tot) } ∧
      Overwrites fs.disk fs'.disk ip.toDinode ip'.toDinode off.toNat tot (m.source userSrc) src := by
  obtain ⟨tot, fs', ip', loop, inv', -, ⟨addrs', rfl⟩, atMost, written, keep⟩ :=
    writeLoop_spec valid m userSrc n.toNat off.toNat small n.toNat 0 src fs ip (by omega) (by omega) inv
      (fun p lo hi => absurd hi (by omega))
  obtain ⟨tot₂, fs₂, ip₂, loop₂, -, -, stop, short, final⟩ :=
    writeLoop_content valid m userSrc n.toNat off.toNat src small canRead fs.disk ip.toDinode n.toNat 0 fs ip
      (by omega) (by omega) inv (fun p lo hi => absurd hi (by omega)) (fun _ had => had) (Overwrites.refl _ _ _ _ _)
  rw [Nat.add_zero] at loop
  rw [Nat.add_zero, Nat.add_zero, loop] at loop₂
  obtain ⟨rfl, -, rfl, rfl⟩ : tot = tot₂ ∧ off.toNat + tot = off.toNat + tot₂ ∧ fs' = fs₂ ∧ _ := by
    simpa using loop₂
  -- the size grows to the offset reached; `iupdate` then writes the inode block
  set ipSized : Inode := { ip with addrs := addrs', size := max ip.size (off.toNat + tot) } with ipSized_def
  have fits : ipSized.toDinode.Fits :=
    { inv'.fits with
      size := by
        have := valid.size_lt
        have := inv.fits.size
        rw [MAXFILE_eq, BSIZE_eq] at small
        simp only [ipSized_def]
        omega }
  have invSized : OpInv sb fs'.disk ipSized := inv'.withMeta ipSized rfl rfl rfl fits
  have fitsCount : 2 * tot < 256 ^ 4 := by
    rw [MAXFILE_eq, BSIZE_eq] at small
    omega
  refine ⟨tot, iupdate sb fs' ipSized, ipSized, ?_, atMost, ?_, short, rfl, fun p covered => ?_⟩
  · rw [writei, if_neg (by rw [UInt32.add_lt_self_iff]; omega), if_neg (by omega), loop]
    simp only [signed_of_small fitsCount]
    split
    · rename_i grows
      rw [ipSized_def, Nat.max_eq_right (by omega)]
    · rename_i stays
      rw [ipSized_def, Nat.max_eq_left (by omega)]
  · rcases stop with whole | none_ | boundary
    · exact .inl whole
    · exact .inr (.inl none_)
    · exact .inr (.inr boundary)
  · -- every byte the write covers had its block when the loop ended
    have mapped : blockAddr fs'.disk ipSized.toDinode (p / BSIZE) ≠ 0 := by
      rcases covered with old | new
      · have same := keep _ old
        show blockAddr fs'.disk ({ ip with addrs := addrs' } : Inode).toDinode (p / BSIZE) ≠ 0
        rw [same]
        exact old
      · exact written p new.1 new.2
    rw [(invSized.iupdate_keeps_data valid).fileByte mapped]
    exact final p covered

end Xv6
