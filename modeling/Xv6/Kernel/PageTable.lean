/-
# Kernel.PageTable -- vm.c's three-level page tables over physical memory

Physical memory is a map from page numbers to 4096-byte pages, and the pages
`kalloc` can hand out are `kmem.freelist`.  A page table is a page of 512
little-endian 64-bit PTEs (`Phys.pte`, through `Bytes.field`); `walk`
descends from the root through the entries indexed by `PX(2, va)` and
`PX(1, va)`, allocating and zeroing a missing table when asked, and returns the
address of the level-0 entry.  `mappages` writes leaf entries one page at a
time and `uvmunmap` clears them, freeing the pages they mapped when asked.
Every panic of vm.c and kalloc.c is an error, and `uint64` arithmetic wraps
where the code's operands can reach `2^64`.

What a page table means is the partial map `lookup` from a virtual address to
the valid level-0 entry `walk` reaches for it.  Page tables the kernel builds
are trees: the root, the level-1 tables and the level-0 tables are distinct
pages (`Tree`), and no page `kalloc` can hand out is one of them (`Fresh`).
Over such a tree, `walk` with `alloc` changes no entry of the map, `mappages`
extends the map by its pages and nothing else, and `uvmunmap` removes its
pages and nothing else (`page_table_updates_local`).
-/
import Xv6.Kernel.Kalloc

namespace Xv6

namespace Paging

open Bytes

set_option autoImplicit false

/-! ## riscv.h and memlayout.h -/

def PGSHIFT : Nat := 12

def PTE_V : Nat := 1 <<< 0
def PTE_R : Nat := 1 <<< 1
def PTE_W : Nat := 1 <<< 2
def PTE_X : Nat := 1 <<< 3
def PTE_U : Nat := 1 <<< 4

/-- `PA2PTE(pa)`: a physical address shifted to the right place for a PTE. -/
def PA2PTE (pa : Nat) : Nat := pa >>> 12 <<< 10

/-- `PTE2PA(pte)`: the physical address a PTE holds. -/
def PTE2PA (pte : Nat) : Nat := pte >>> 10 <<< 12

def PTE_FLAGS (pte : Nat) : Nat := pte &&& 0x3FF

def PXMASK : Nat := 0x1FF

def PXSHIFT (level : Nat) : Nat := PGSHIFT + 9 * level

/-- `PX(level, va)`: the 9-bit index of `va` in a table of that level. -/
def PX (level va : Nat) : Nat := va >>> PXSHIFT level &&& PXMASK

/-- One beyond the highest virtual address, one bit less than Sv39 allows. -/
def MAXVA : Nat := 1 <<< (9 + 9 + 9 + 12 - 1)

def TRAMPOLINE : Nat := MAXVA - PGSIZE

def TRAPFRAME : Nat := TRAMPOLINE - PGSIZE

/-! ## vm.c -/

/-- One level of `walk`: the table the entry `PX(level, va)` of `pagetable`
points to.  A missing one is allocated, zeroed and entered when `alloc`; it
is `none` otherwise, or when `kalloc` fails. -/
def walkLevel (m : Phys) (pagetable va : Nat) (alloc : Bool) (level : Nat) : Option Nat × Phys :=
  let pte := pagetable + 8 * PX level va
  if m.pte pte &&& PTE_V ≠ 0 then (some (PTE2PA (m.pte pte)), m)
  else if !alloc then (none, m)
  else
    match kalloc m with
    | none => (none, m)
    | some (p, m) => (some p, (m.memset p 0).setPte pte (PA2PTE p ||| PTE_V))

/-- `walk(pagetable, va, alloc)`: the address of the level-0 PTE for `va`, or
`none`.  The loop over levels 2 and 1 is unrolled. -/
def walk (m : Phys) (pagetable va : Nat) (alloc : Bool) : Except String (Option Nat × Phys) :=
  if MAXVA ≤ va then .error "walk"
  else
    match walkLevel m pagetable va alloc 2 with
    | (none, m) => .ok (none, m)
    | (some t1, m) =>
        match walkLevel m t1 va alloc 1 with
        | (none, m) => .ok (none, m)
        | (some t0, m) => .ok (some (t0 + 8 * PX 0 va), m)

/-- `walkaddr(pagetable, va)`: the physical address of a user page, or 0. -/
def walkaddr (m : Phys) (pagetable va : Nat) : Nat :=
  if MAXVA ≤ va then 0
  else
    match walk m pagetable va false with
    | .ok (some pte, m) =>
        if m.pte pte &&& PTE_V = 0 then 0
        else if m.pte pte &&& PTE_U = 0 then 0
        else PTE2PA (m.pte pte)
    | _ => 0

/-- The loop of `mappages` from page address `a` and physical address `pa`;
it stops after the page at `last`.  `fuel` is the number of pages, which the
loop never outruns. -/
def mapLoop (pagetable last perm : Nat) : (fuel a pa : Nat) → Phys → Except String (Int × Phys)
  | 0, _, _, m => .ok (0, m)
  | fuel + 1, a, pa, m =>
      match walk m pagetable a true with
      | .error e => .error e
      | .ok (none, m) => .ok (-1, m)
      | .ok (some pte, m) =>
          if m.pte pte &&& PTE_V ≠ 0 then .error "mappages: remap"
          else
            let m := m.setPte pte (PA2PTE pa ||| perm ||| PTE_V)
            if a = last then .ok (0, m)
            else mapLoop pagetable last perm fuel ((a + PGSIZE) % 2 ^ 64) ((pa + PGSIZE) % 2 ^ 64) m

/-- `mappages(pagetable, va, size, pa, perm)`: 0, or -1 when `walk` could
not allocate a table. -/
def mappages (m : Phys) (pagetable va size pa perm : Nat) : Except String (Int × Phys) :=
  if va % PGSIZE ≠ 0 then .error "mappages: va not aligned"
  else if size % PGSIZE ≠ 0 then .error "mappages: size not aligned"
  else if size = 0 then .error "mappages: size"
  else mapLoop pagetable ((va + size - PGSIZE) % 2 ^ 64) perm (size / PGSIZE) va pa m

/-- The loop of `uvmunmap` from page address `a` up to `bound`; `fuel` is the
number of pages, which the loop never outruns. -/
def unmapLoop (pagetable bound : Nat) (doFree : Bool) : (fuel a : Nat) → Phys → Except String Phys
  | 0, _, m => .ok m
  | fuel + 1, a, m =>
      if a < bound then
        match walk m pagetable a false with
        | .error e => .error e
        | .ok (none, _) => .error "uvmunmap: walk"
        | .ok (some pte, m) =>
            if m.pte pte &&& PTE_V = 0 then .error "uvmunmap: not mapped"
            else if PTE_FLAGS (m.pte pte) = PTE_V then .error "uvmunmap: not a leaf"
            else
              let freed := if doFree then kfree m (PTE2PA (m.pte pte)) else .ok m
              match freed with
              | .error e => .error e
              | .ok m => unmapLoop pagetable bound doFree fuel ((a + PGSIZE) % 2 ^ 64) (m.setPte pte 0)
      else .ok m

/-- `uvmunmap(pagetable, va, npages, do_free)`. -/
def uvmunmap (m : Phys) (pagetable va npages : Nat) (doFree : Bool) : Except String Phys :=
  if va % PGSIZE ≠ 0 then .error "uvmunmap: not aligned"
  else unmapLoop pagetable ((va + npages * PGSIZE) % 2 ^ 64) doFree npages va m

/-! ## The bits as arithmetic -/

theorem PTE2PA_eq (pte : Nat) : PTE2PA pte = pte / 1024 * 4096 := by
  simp [PTE2PA, Nat.shiftRight_eq_div_pow, Nat.shiftLeft_eq]

theorem PTE_FLAGS_eq (pte : Nat) : PTE_FLAGS pte = pte % 1024 :=
  Nat.and_two_pow_sub_one_eq_mod pte 10

theorem valid_iff (pte : Nat) : pte &&& PTE_V ≠ 0 ↔ pte % 2 = 1 := by
  rw [show PTE_V = 1 from rfl, Nat.and_one_is_mod]
  omega

theorem PX_eq (level va : Nat) : PX level va = va / 2 ^ (12 + 9 * level) % 512 := by
  simp only [PX, PXSHIFT, PGSHIFT, PXMASK, Nat.shiftRight_eq_div_pow]
  exact Nat.and_two_pow_sub_one_eq_mod _ 9

theorem MAXVA_eq : MAXVA = 2 ^ 38 := rfl

/-- A PTE that holds an aligned physical address and flags below bit 10, as
`mappages` and `walk` write them. -/
theorem pte_encode {pa flags : Nat} (small : flags < 1024) :
    PA2PTE pa ||| flags = pa / 4096 * 1024 + flags := by
  rw [PA2PTE, ← Nat.shiftLeft_add_eq_or_of_lt (by simpa using small), Nat.shiftLeft_eq,
    Nat.shiftRight_eq_div_pow]

theorem PTE2PA_encode {pa flags : Nat} (aligned : pa % PGSIZE = 0) (small : flags < 1024) :
    PTE2PA (pa / 4096 * 1024 + flags) = pa := by
  rw [PTE2PA_eq]
  unfold PGSIZE at aligned
  omega

/-- A virtual address below `MAXVA` is its page's three indices and offset. -/
theorem page_of_PX {va va' : Nat} (below : va < MAXVA) (below' : va' < MAXVA)
    (same : PX 2 va = PX 2 va' ∧ PX 1 va = PX 1 va' ∧ PX 0 va = PX 0 va') : va / PGSIZE = va' / PGSIZE := by
  simp only [PX_eq, MAXVA_eq] at *
  unfold PGSIZE
  omega

/-! ## Reading and writing physical memory -/

namespace Phys

variable (m : Phys)

@[simp] theorem setPte_freelist (a v : Nat) : (m.setPte a v).freelist = m.freelist := rfl
@[simp] theorem setPte_kernEnd (a v : Nat) : (m.setPte a v).kernEnd = m.kernEnd := rfl
@[simp] theorem memset_freelist (p : Nat) (c : UInt8) : (m.memset p c).freelist = m.freelist := rfl
@[simp] theorem memset_kernEnd (p : Nat) (c : UInt8) : (m.memset p c).kernEnd = m.kernEnd := rfl

theorem setPte_page_of_ne {a : Nat} (v : Nat) {q : Nat} (ne : q ≠ a / PGSIZE) : (m.setPte a v).page q = m.page q := by
  simp [setPte, ne]

theorem memset_page_of_ne {p : Nat} (c : UInt8) {q : Nat} (ne : q ≠ p / PGSIZE) : (m.memset p c).page q = m.page q := by
  simp [memset, ne]

/-- A PTE reads back what was stored in it, modulo 2^64. -/
theorem pte_setPte_self {a : Nat} (v : Nat) (aligned : a % 8 = 0) : (m.setPte a v).pte a = v % 2 ^ 64 := by
  simp only [pte, setPte, Function.update_self]
  rw [field_setField_self _ _ (by unfold PGSIZE; omega)]
  norm_num

/-- A store to one PTE leaves every other PTE alone. -/
theorem pte_setPte_of_ne {a b : Nat} (v : Nat) (ha : a % 8 = 0) (hb : b % 8 = 0) (ne : b ≠ a) :
    (m.setPte a v).pte b = m.pte b := by
  by_cases same : b / PGSIZE = a / PGSIZE
  · simp only [pte, setPte, same, Function.update_self]
    exact field_setField_of_disjoint _ _ (by unfold PGSIZE at same ⊢; omega)
  · simp only [pte]
    rw [setPte_page_of_ne m v same]

/-- A zeroed page holds only zero PTEs. -/
theorem pte_memset_zero {p b : Nat} (same : b / PGSIZE = p / PGSIZE) : (m.memset p 0).pte b = 0 := by
  simp only [pte, memset, same, Function.update_self]
  exact field_zero _ 8

end Phys

theorem PTE2PA_aligned (pte : Nat) : PTE2PA pte % PGSIZE = 0 := by
  rw [PTE2PA_eq]
  unfold PGSIZE
  omega

/-- The entry `i` of an aligned table lies in the table's page. -/
theorem slot_page {t i : Nat} (aligned : t % PGSIZE = 0) (index : i < 512) : (t + 8 * i) / PGSIZE = t / PGSIZE := by
  unfold PGSIZE at *
  omega

theorem slot_aligned {t i : Nat} (aligned : t % PGSIZE = 0) : (t + 8 * i) % 8 = 0 := by
  unfold PGSIZE at aligned
  omega

/-! ## What a page table maps -/

/-- The valid entry at index `i` of the table at `t`. -/
def entry (m : Phys) (t i : Nat) : Option Nat :=
  if m.pte (t + 8 * i) &&& PTE_V ≠ 0 then some (m.pte (t + 8 * i)) else none

/-- The level-1 table that entry `i` of the root points to. -/
def table1 (m : Phys) (root i : Nat) : Option Nat := (entry m root i).map PTE2PA

/-- The level-0 table that entry `j` of that table points to. -/
def table0 (m : Phys) (root i j : Nat) : Option Nat :=
  (table1 m root i).bind fun t => (entry m t j).map PTE2PA

/-- The page table as a map: the valid level-0 entry `walk` reaches for `va`. -/
def lookup (m : Phys) (root va : Nat) : Option Nat :=
  (table0 m root (PX 2 va) (PX 1 va)).bind fun t => entry m t (PX 0 va)

/-- The pages of the tree: the root and the tables its valid entries reach. -/
def IsTable (m : Phys) (root p : Nat) : Prop :=
  p = root ∨ (∃ i < 512, table1 m root i = some p) ∨ ∃ i < 512, ∃ j < 512, table0 m root i j = some p

theorem PX_lt (level va : Nat) : PX level va < 512 := by
  rw [PX_eq]
  omega

section Entries

variable {m m' : Phys}

theorem entry_congr {t i : Nat} (same : m'.pte (t + 8 * i) = m.pte (t + 8 * i)) : entry m' t i = entry m t i := by
  simp only [entry, same]

/-- An entry of an aligned table depends only on the table's page. -/
theorem entry_of_page {t i : Nat} (aligned : t % PGSIZE = 0) (index : i < 512)
    (same : m'.page (t / PGSIZE) = m.page (t / PGSIZE)) : entry m' t i = entry m t i := by
  apply entry_congr
  simp only [Phys.pte, slot_page aligned index, same]

theorem entry_setPte_of_ne {a t i : Nat} (v : Nat) (ha : a % 8 = 0) (aligned : t % PGSIZE = 0)
    (ne : t + 8 * i ≠ a) : entry (m.setPte a v) t i = entry m t i :=
  entry_congr (m.pte_setPte_of_ne v ha (slot_aligned aligned) ne)

/-- A zeroed page is a table with no valid entry. -/
theorem entry_memset_zero {p t i : Nat} (aligned : t % PGSIZE = 0) (index : i < 512)
    (same : t / PGSIZE = p / PGSIZE) : entry (m.memset p 0) t i = none := by
  have zero : (m.memset p 0).pte (t + 8 * i) = 0 := m.pte_memset_zero (by rw [slot_page aligned index, same])
  simp [entry, zero]

/-- The entry a store makes. -/
theorem entry_setPte_self {t i : Nat} (v : Nat) (aligned : t % PGSIZE = 0) :
    entry (m.setPte (t + 8 * i) v) t i = if v % 2 ^ 64 % 2 = 1 then some (v % 2 ^ 64) else none := by
  simp only [entry, m.pte_setPte_self v (slot_aligned aligned), valid_iff]

end Entries

/-- The tables reachable from the root are distinct pages: no level-1 table is
the root, no two root entries share one, and a level-0 table is neither the
root, nor a level-1 table, nor shared by two level-1 entries. -/
structure Tree (m : Phys) (root : Nat) : Prop where
  aligned : root % PGSIZE = 0
  one_ne_root : ∀ {i t}, i < 512 → table1 m root i = some t → t ≠ root
  one_inj : ∀ {i i' t}, i < 512 → i' < 512 → table1 m root i = some t → table1 m root i' = some t → i = i'
  zero_ne_root : ∀ {i j t}, i < 512 → j < 512 → table0 m root i j = some t → t ≠ root
  zero_ne_one : ∀ {i j i' t}, i < 512 → j < 512 → i' < 512 → table0 m root i j = some t → table1 m root i' ≠ some t
  zero_inj : ∀ {i j i' j' t}, i < 512 → j < 512 → i' < 512 → j' < 512 →
    table0 m root i j = some t → table0 m root i' j' = some t → i = i' ∧ j = j'

/-- The pages `kalloc` can hand out are distinct whole pages, none of them a
table of the tree. -/
structure Fresh (m : Phys) (root : Nat) : Prop where
  nodup : m.freelist.Nodup
  page : ∀ p ∈ m.freelist, p % PGSIZE = 0 ∧ p < 2 ^ 64
  notTable : ∀ p ∈ m.freelist, ¬IsTable m root p

theorem table1_aligned {m : Phys} {root i t : Nat} (found : table1 m root i = some t) : t % PGSIZE = 0 := by
  simp only [table1, Option.map_eq_some_iff] at found
  obtain ⟨e, -, rfl⟩ := found
  exact PTE2PA_aligned e

theorem table0_aligned {m : Phys} {root i j t : Nat} (found : table0 m root i j = some t) : t % PGSIZE = 0 := by
  simp only [table0, Option.bind_eq_some_iff, Option.map_eq_some_iff] at found
  obtain ⟨_, -, e, -, rfl⟩ := found
  exact PTE2PA_aligned e

theorem IsTable.aligned {m : Phys} {root p : Nat} (tree : Tree m root) (table : IsTable m root p) : p % PGSIZE = 0 := by
  rcases table with rfl | ⟨i, -, found⟩ | ⟨i, -, j, -, found⟩
  · exact tree.aligned
  · exact table1_aligned found
  · exact table0_aligned found

/-- Aligned pages are equal when their page numbers are. -/
theorem eq_of_page {p q : Nat} (hp : p % PGSIZE = 0) (hq : q % PGSIZE = 0) (same : p / PGSIZE = q / PGSIZE) : p = q := by
  unfold PGSIZE at *
  omega

/-! ## Changing memory outside the tree -/

section Outside

variable {m m' : Phys} {root : Nat}

/-- Memory that agrees with `m` on every table page of the tree has the same
tables and maps the same. -/
theorem view_of_tables (tree : Tree m root) (same : ∀ t, IsTable m root t → m'.page (t / PGSIZE) = m.page (t / PGSIZE)) :
    (∀ i, i < 512 → table1 m' root i = table1 m root i) ∧
      (∀ i j, i < 512 → j < 512 → table0 m' root i j = table0 m root i j) ∧ ∀ va, lookup m' root va = lookup m root va := by
  have one : ∀ i, i < 512 → table1 m' root i = table1 m root i := fun i index => by
    simp only [table1, entry_of_page tree.aligned index (same root (.inl rfl))]
  have zero : ∀ i j, i < 512 → j < 512 → table0 m' root i j = table0 m root i j := fun i j hi hj => by
    simp only [table0, one i hi]
    rcases found : table1 m root i with _ | t
    · simp only [Option.bind_none]
    · simp only [Option.bind_some, entry_of_page (table1_aligned found) hj (same t (.inr (.inl ⟨i, hi, found⟩)))]
  refine ⟨one, zero, fun va => ?_⟩
  simp only [lookup, zero _ _ (PX_lt 2 va) (PX_lt 1 va)]
  rcases found : table0 m root (PX 2 va) (PX 1 va) with _ | t
  · simp only [Option.bind_none]
  · simp only [Option.bind_some]
    exact entry_of_page (table0_aligned found) (PX_lt 0 va)
      (same t (.inr (.inr ⟨_, PX_lt 2 va, _, PX_lt 1 va, found⟩)))

theorem Tree.congr (tree : Tree m root) (one : ∀ i, i < 512 → table1 m' root i = table1 m root i)
    (zero : ∀ i j, i < 512 → j < 512 → table0 m' root i j = table0 m root i j) : Tree m' root where
  aligned := tree.aligned
  one_ne_root := fun {i _} hi found => tree.one_ne_root hi ((one i hi).symm.trans found)
  one_inj := fun {i i' _} hi hi' found found' =>
    tree.one_inj hi hi' ((one i hi).symm.trans found) ((one i' hi').symm.trans found')
  zero_ne_root := fun {i j _} hi hj found => tree.zero_ne_root hi hj ((zero i j hi hj).symm.trans found)
  zero_ne_one := fun {i j i' _} hi hj hi' found => by
    rw [one i' hi']
    exact tree.zero_ne_one hi hj hi' ((zero i j hi hj).symm.trans found)
  zero_inj := fun {i j i' j' _} hi hj hi' hj' found found' =>
    tree.zero_inj hi hj hi' hj' ((zero i j hi hj).symm.trans found) ((zero i' j' hi' hj').symm.trans found')

theorem isTable_congr (one : ∀ i, i < 512 → table1 m' root i = table1 m root i)
    (zero : ∀ i j, i < 512 → j < 512 → table0 m' root i j = table0 m root i j) (p : Nat) :
    IsTable m' root p ↔ IsTable m root p := by
  unfold IsTable
  constructor
  · rintro (rfl | ⟨i, hi, found⟩ | ⟨i, hi, j, hj, found⟩)
    · exact .inl rfl
    · exact .inr (.inl ⟨i, hi, by rwa [one i hi] at found⟩)
    · exact .inr (.inr ⟨i, hi, j, hj, by rwa [zero i j hi hj] at found⟩)
  · rintro (rfl | ⟨i, hi, found⟩ | ⟨i, hi, j, hj, found⟩)
    · exact .inl rfl
    · exact .inr (.inl ⟨i, hi, by rwa [one i hi]⟩)
    · exact .inr (.inr ⟨i, hi, j, hj, by rwa [zero i j hi hj]⟩)

end Outside

/-! ## `walk` enters missing tables -/

/-- What a step of the page-table code may do to memory around the tree: take
pages from the front of the free list and make them tables, keep every link
of the tree it found, and leave every page that is not a table of `m'` as it
was. -/
structure Frames (m m' : Phys) (root : Nat) : Prop where
  taken : ∃ k, m'.freelist = m.freelist.drop k
  one : ∀ {i t}, i < 512 → table1 m root i = some t → table1 m' root i = some t
  zero : ∀ {i j t}, i < 512 → j < 512 → table0 m root i j = some t → table0 m' root i j = some t
  takenTables : ∀ p ∈ m.freelist, p ∉ m'.freelist → IsTable m' root p
  pages : ∀ q, (∀ t, IsTable m' root t → t / PGSIZE ≠ q) → m'.page q = m.page q

theorem Frames.refl (m : Phys) (root : Nat) : Frames m m root :=
  ⟨⟨0, rfl⟩, fun _ found => found, fun _ _ found => found, fun _ kept gone => absurd kept gone, fun _ _ => rfl⟩

theorem Frames.tables {m m' : Phys} {root : Nat} (frames : Frames m m' root) {t : Nat} (table : IsTable m root t) :
    IsTable m' root t := by
  rcases table with rfl | ⟨i, hi, found⟩ | ⟨i, hi, j, hj, found⟩
  · exact .inl rfl
  · exact .inr (.inl ⟨i, hi, frames.one hi found⟩)
  · exact .inr (.inr ⟨i, hi, j, hj, frames.zero hi hj found⟩)

theorem Frames.trans {m₁ m₂ m₃ : Phys} {root : Nat} (first : Frames m₁ m₂ root) (second : Frames m₂ m₃ root) :
    Frames m₁ m₃ root where
  taken := by
    obtain ⟨k, hk⟩ := first.taken
    obtain ⟨l, hl⟩ := second.taken
    exact ⟨k + l, by rw [hl, hk, List.drop_drop, Nat.add_comm]⟩
  one hi found := second.one hi (first.one hi found)
  zero hi hj found := second.zero hi hj (first.zero hi hj found)
  takenTables p was gone := by
    by_cases middle : p ∈ m₂.freelist
    · exact second.takenTables p middle gone
    · exact second.tables (first.takenTables p was middle)
  pages q outside := by
    rw [second.pages q outside]
    exact first.pages q fun t table => outside t (second.tables table)

/-- `m'` is `m` with zeroed tables from the front of the free list entered in
the tree, and the same map. -/
structure Grows (m m' : Phys) (root : Nat) : Prop extends Frames m m' root where
  lookup : ∀ va, lookup m' root va = lookup m root va

theorem Grows.refl (m : Phys) (root : Nat) : Grows m m root :=
  ⟨Frames.refl m root, fun _ => rfl⟩

theorem Grows.trans {m₁ m₂ m₃ : Phys} {root : Nat} (first : Grows m₁ m₂ root) (second : Grows m₂ m₃ root) :
    Grows m₁ m₃ root :=
  ⟨first.toFrames.trans second.toFrames, fun va => (second.lookup va).trans (first.lookup va)⟩

@[simp] theorem PTE_V_eq : PTE_V = 1 := rfl

/-- The entry `walk` writes for a new table `p`: valid, and pointing at `p`. -/
theorem table_pte {p : Nat} (aligned : p % PGSIZE = 0) (fits : p < 2 ^ 64) :
    (PA2PTE p ||| PTE_V) % 2 ^ 64 = PA2PTE p ||| PTE_V ∧ (PA2PTE p ||| PTE_V) % 2 = 1 ∧
      PTE2PA (PA2PTE p ||| PTE_V) = p := by
  rw [pte_encode (show PTE_V < 1024 by decide), PTE2PA_encode aligned (by decide)]
  have two64 : (2 : Nat) ^ 64 = 18446744073709551616 := by norm_num
  unfold PGSIZE at aligned
  simp only [PTE_V_eq, two64] at fits ⊢
  exact ⟨by omega, by omega, trivial⟩

section Alloc

variable {m : Phys} {root : Nat} (tree : Tree m root) (fresh : Fresh m root) {p : Nat} {rest : List Nat}
  (free : m.freelist = p :: rest)

include fresh free in
/-- The page `kalloc` takes: a whole page, not a table of the tree. -/
theorem Fresh.head : p % PGSIZE = 0 ∧ p < 2 ^ 64 ∧ ¬IsTable m root p := by
  have mem : p ∈ m.freelist := by rw [free]; exact List.mem_cons_self
  exact ⟨(fresh.page p mem).1, (fresh.page p mem).2, fresh.notTable p mem⟩

include tree fresh free in
/-- A page taken from the free list is none of the tree's pages. -/
theorem Fresh.head_ne {t : Nat} (table : IsTable m root t) : t / PGSIZE ≠ p / PGSIZE := fun same => by
  obtain ⟨aligned, -, notTable⟩ := fresh.head free
  exact notTable (eq_of_page (table.aligned tree) aligned same ▸ table)

include fresh free in
/-- The free list once its head is taken keeps its invariant, for a tree
whose tables are those of `m` and the head. -/
theorem Fresh.tail {m' : Phys} (list : m'.freelist = rest)
    (tables : ∀ t, IsTable m' root t → IsTable m root t ∨ t = p) : Fresh m' root := by
  have nodup := fresh.nodup
  rw [free, List.nodup_cons] at nodup
  refine ⟨list ▸ nodup.2, fun q mem => fresh.page q (by rw [free]; exact List.mem_cons_of_mem _ (list ▸ mem)),
    fun q mem table => ?_⟩
  rcases tables q table with old | rfl
  · exact fresh.notTable q (by rw [free]; exact List.mem_cons_of_mem _ (list ▸ mem)) old
  · exact nodup.1 (list ▸ mem)

include tree fresh free in
/-- `walk` entering a new table at entry `i` of the root: the entry points at
`p`, and nothing the tree maps changes. -/
theorem allocRoot {i : Nat} (index : i < 512) (missing : table1 m root i = none) :
    let m' := ({ m.memset p 0 with freelist := rest } : Phys).setPte (root + 8 * i) (PA2PTE p ||| PTE_V)
    table1 m' root i = some p ∧ Grows m m' root ∧ Tree m' root ∧ Fresh m' root := by
  intro m'
  obtain ⟨pAligned, pFits, pNotTable⟩ := fresh.head free
  obtain ⟨vFits, vValid, vPoints⟩ := table_pte pAligned pFits
  have rootP : root / PGSIZE ≠ p / PGSIZE := fresh.head_ne tree free (.inl rfl)
  -- only the root's page and the new page change
  have pages : ∀ q, q ≠ root / PGSIZE → q ≠ p / PGSIZE → m'.page q = m.page q := fun q hr hp => by
    rw [Phys.setPte_page_of_ne _ _ (by rwa [slot_page tree.aligned index])]
    exact m.memset_page_of_ne 0 hp
  have other : ∀ t j, t % PGSIZE = 0 → t / PGSIZE ≠ root / PGSIZE → t / PGSIZE ≠ p / PGSIZE → j < 512 →
      entry m' t j = entry m t j := fun t j ht hr hp hj => entry_of_page ht hj (pages _ hr hp)
  have newEntry : table1 m' root i = some p := by
    simp only [table1, m', entry_setPte_self _ tree.aligned, vFits, vValid, if_true, Option.map_some, vPoints]
  have oldEntry : ∀ i', i' < 512 → i' ≠ i → table1 m' root i' = table1 m root i' := fun i' hi' ne => by
    have moved : entry m' root i' = entry ({ m.memset p 0 with freelist := rest } : Phys) root i' :=
      entry_setPte_of_ne _ (slot_aligned tree.aligned) tree.aligned (by omega)
    have kept : entry ({ m.memset p 0 with freelist := rest } : Phys) root i' = entry m root i' :=
      entry_of_page tree.aligned hi' (m.memset_page_of_ne 0 rootP)
    simp only [table1, moved, kept]
  have zeroed : ∀ j, j < 512 → entry m' p j = none := fun j hj => by
    have moved : entry m' p j = entry (m.memset p 0) p j := entry_of_page pAligned hj (by
      rw [Phys.setPte_page_of_ne _ _ (by rw [slot_page tree.aligned index]; exact rootP.symm)])
    rw [moved, entry_memset_zero pAligned hj rfl]
  have newZero : ∀ j, j < 512 → table0 m' root i j = none := fun j hj => by
    simp [table0, newEntry, zeroed j hj]
  have oldZero : ∀ i' j, i' < 512 → j < 512 → i' ≠ i → table0 m' root i' j = table0 m root i' j :=
    fun i' j hi' hj ne => by
      simp only [table0, oldEntry i' hi' ne]
      rcases found : table1 m root i' with _ | t
      · simp only [Option.bind_none]
      · have table : IsTable m root t := .inr (.inl ⟨i', hi', found⟩)
        have notRoot : t / PGSIZE ≠ root / PGSIZE := fun same =>
          tree.one_ne_root hi' found (eq_of_page (table1_aligned found) tree.aligned same)
        simp only [Option.bind_some, other t j (table1_aligned found) notRoot (fresh.head_ne tree free table) hj]
  have missingZero : ∀ j, table0 m root i j = none := fun j => by simp [table0, missing]
  have isTable : ∀ t, IsTable m' root t ↔ IsTable m root t ∨ t = p := fun t => by
    constructor
    · rintro (rfl | ⟨i', hi', found⟩ | ⟨i', hi', j, hj, found⟩)
      · exact .inl (.inl rfl)
      · by_cases here : i' = i
        · subst here
          rw [newEntry] at found
          exact .inr (Option.some.inj found).symm
        · exact .inl (.inr (.inl ⟨i', hi', (oldEntry i' hi' here).symm.trans found⟩))
      · by_cases here : i' = i
        · subst here
          rw [newZero j hj] at found
          cases found
        · exact .inl (.inr (.inr ⟨i', hi', j, hj, (oldZero i' j hi' hj here).symm.trans found⟩))
    · rintro ((rfl | ⟨i', hi', found⟩ | ⟨i', hi', j, hj, found⟩) | rfl)
      · exact .inl rfl
      · have ne : i' ≠ i := fun same => by rw [same, missing] at found; cases found
        exact .inr (.inl ⟨i', hi', (oldEntry i' hi' ne).trans found⟩)
      · have ne : i' ≠ i := fun same => by rw [same, missingZero] at found; cases found
        exact .inr (.inr ⟨i', hi', j, hj, (oldZero i' j hi' hj ne).trans found⟩)
      · exact .inr (.inl ⟨i, index, newEntry⟩)
  -- a table of `m` found at a new entry would be `p`, which is no table of `m`
  have notP : ∀ i', i' < 512 → table1 m root i' ≠ some p := fun i' hi' found =>
    pNotTable (.inr (.inl ⟨i', hi', found⟩))
  have tree' : Tree m' root :=
    { aligned := tree.aligned
      one_ne_root := fun {i' t} hi' found => by
        by_cases here : i' = i
        · subst here
          rw [newEntry] at found
          rw [← Option.some.inj found]
          exact fun same => pNotTable (same ▸ .inl rfl)
        · exact tree.one_ne_root hi' ((oldEntry i' hi' here).symm.trans found)
      one_inj := fun {i₁ i₂ t} h₁ h₂ found₁ found₂ => by
        by_cases here₁ : i₁ = i <;> by_cases here₂ : i₂ = i
        · rw [here₁, here₂]
        · subst here₁
          rw [newEntry] at found₁
          cases found₁
          exact absurd ((oldEntry i₂ h₂ here₂).symm.trans found₂) (notP i₂ h₂)
        · subst here₂
          rw [newEntry] at found₂
          cases found₂
          exact absurd ((oldEntry i₁ h₁ here₁).symm.trans found₁) (notP i₁ h₁)
        · exact tree.one_inj h₁ h₂ ((oldEntry i₁ h₁ here₁).symm.trans found₁)
            ((oldEntry i₂ h₂ here₂).symm.trans found₂)
      zero_ne_root := fun {i' j t} hi' hj found => by
        by_cases here : i' = i
        · subst here
          rw [newZero j hj] at found
          cases found
        · exact tree.zero_ne_root hi' hj ((oldZero i' j hi' hj here).symm.trans found)
      zero_ne_one := fun {i₁ j i₂ t} h₁ hj h₂ found found' => by
        by_cases here₁ : i₁ = i
        · subst here₁
          rw [newZero j hj] at found
          cases found
        · have old := (oldZero i₁ j h₁ hj here₁).symm.trans found
          by_cases here₂ : i₂ = i
          · subst here₂
            rw [newEntry] at found'
            cases found'
            exact pNotTable (.inr (.inr ⟨i₁, h₁, j, hj, old⟩))
          · exact tree.zero_ne_one h₁ hj h₂ old ((oldEntry i₂ h₂ here₂).symm.trans found')
      zero_inj := fun {i₁ j₁ i₂ j₂ t} h₁ hj₁ h₂ hj₂ found₁ found₂ => by
        have ne₁ : i₁ ≠ i := fun same => by rw [same, newZero j₁ hj₁] at found₁; cases found₁
        have ne₂ : i₂ ≠ i := fun same => by rw [same, newZero j₂ hj₂] at found₂; cases found₂
        exact tree.zero_inj h₁ hj₁ h₂ hj₂ ((oldZero i₁ j₁ h₁ hj₁ ne₁).symm.trans found₁)
          ((oldZero i₂ j₂ h₂ hj₂ ne₂).symm.trans found₂) }
  have sameMap : ∀ va, lookup m' root va = lookup m root va := fun va => by
    by_cases here : PX 2 va = i
    · simp only [lookup, here, newZero _ (PX_lt 1 va), missingZero, Option.bind_none]
    · simp only [lookup, oldZero _ _ (PX_lt 2 va) (PX_lt 1 va) here]
      rcases found : table0 m root (PX 2 va) (PX 1 va) with _ | t
      · simp only [Option.bind_none]
      · have table : IsTable m root t := .inr (.inr ⟨_, PX_lt 2 va, _, PX_lt 1 va, found⟩)
        have notRoot : t / PGSIZE ≠ root / PGSIZE := fun same =>
          tree.zero_ne_root (PX_lt 2 va) (PX_lt 1 va) found (eq_of_page (table0_aligned found) tree.aligned same)
        simp only [Option.bind_some, other t _ (table0_aligned found) notRoot (fresh.head_ne tree free table) (PX_lt 0 va)]
  have keptOne : ∀ {i' t}, i' < 512 → table1 m root i' = some t → table1 m' root i' = some t := fun {i' _} hi' found => by
    have ne : i' ≠ i := fun same => by rw [same, missing] at found; cases found
    exact (oldEntry i' hi' ne).trans found
  have keptZero : ∀ {i' j t}, i' < 512 → j < 512 → table0 m root i' j = some t → table0 m' root i' j = some t :=
    fun {i' j _} hi' hj found => by
      have ne : i' ≠ i := fun same => by rw [same, missingZero] at found; cases found
      exact (oldZero i' j hi' hj ne).trans found
  refine ⟨newEntry, ⟨⟨⟨1, by simp [m', free]⟩, keptOne, keptZero, ?_, ?_⟩, sameMap⟩,
    tree', fresh.tail free (by simp [m']) fun t table => (isTable t).mp table⟩
  · intro q mem gone
    have : q = p := by
      rw [free] at mem
      rcases List.mem_cons.mp mem with same | later
      · exact same
      · exact absurd (by simpa [m'] using later) gone
    exact (isTable q).mpr (.inr this)
  · intro q outside
    exact pages q (outside root (.inl rfl)).symm (outside p ((isTable p).mpr (.inr rfl))).symm

include tree fresh free in
/-- `walk` entering a new table at entry `j` of the level-1 table `t1` that
entry `i` of the root points to: the entry points at `p`, and nothing the tree
maps changes. -/
theorem allocOne {i j t1 : Nat} (hi : i < 512) (hj : j < 512) (parent : table1 m root i = some t1)
    (missing : table0 m root i j = none) :
    let m' := ({ m.memset p 0 with freelist := rest } : Phys).setPte (t1 + 8 * j) (PA2PTE p ||| PTE_V)
    table0 m' root i j = some p ∧ (∀ i', i' < 512 → table1 m' root i' = table1 m root i') ∧
      Grows m m' root ∧ Tree m' root ∧ Fresh m' root := by
  intro m'
  obtain ⟨pAligned, pFits, pNotTable⟩ := fresh.head free
  obtain ⟨vFits, vValid, vPoints⟩ := table_pte pAligned pFits
  have t1Aligned := table1_aligned parent
  have t1Table : IsTable m root t1 := .inr (.inl ⟨i, hi, parent⟩)
  have t1P : t1 / PGSIZE ≠ p / PGSIZE := fresh.head_ne tree free t1Table
  have rootT1 : root / PGSIZE ≠ t1 / PGSIZE := fun same =>
    tree.one_ne_root hi parent (eq_of_page t1Aligned tree.aligned same.symm)
  have rootP : root / PGSIZE ≠ p / PGSIZE := fresh.head_ne tree free (.inl rfl)
  -- only the level-1 table's page and the new page change
  have pages : ∀ q, q ≠ t1 / PGSIZE → q ≠ p / PGSIZE → m'.page q = m.page q := fun q h1 hp => by
    rw [Phys.setPte_page_of_ne _ _ (by rwa [slot_page t1Aligned hj])]
    exact m.memset_page_of_ne 0 hp
  have other : ∀ t k, t % PGSIZE = 0 → t / PGSIZE ≠ t1 / PGSIZE → t / PGSIZE ≠ p / PGSIZE → k < 512 →
      entry m' t k = entry m t k := fun t k ht h1 hp hk => entry_of_page ht hk (pages _ h1 hp)
  have one : ∀ i', i' < 512 → table1 m' root i' = table1 m root i' := fun i' hi' => by
    simp only [table1, other root i' tree.aligned rootT1 rootP hi']
  have newEntry : entry m' t1 j = some (PA2PTE p ||| PTE_V) := by
    simp only [m', entry_setPte_self _ t1Aligned, vFits, vValid, if_true]
  have oldEntry : ∀ j', j' < 512 → j' ≠ j → entry m' t1 j' = entry m t1 j' := fun j' hj' ne => by
    have moved : entry m' t1 j' = entry ({ m.memset p 0 with freelist := rest } : Phys) t1 j' :=
      entry_setPte_of_ne _ (slot_aligned t1Aligned) t1Aligned (by omega)
    have kept : entry ({ m.memset p 0 with freelist := rest } : Phys) t1 j' = entry m t1 j' :=
      entry_of_page t1Aligned hj' (m.memset_page_of_ne 0 t1P)
    rw [moved, kept]
  have zeroed : ∀ k, k < 512 → entry m' p k = none := fun k hk => by
    have moved : entry m' p k = entry (m.memset p 0) p k := entry_of_page pAligned hk (by
      rw [Phys.setPte_page_of_ne _ _ (by rw [slot_page t1Aligned hj]; exact t1P.symm)])
    rw [moved, entry_memset_zero pAligned hk rfl]
  have newZero : table0 m' root i j = some p := by
    simp only [table0, one i hi, parent, Option.bind_some, newEntry, Option.map_some, vPoints]
  have oldZero : ∀ i' j', i' < 512 → j' < 512 → ¬(i' = i ∧ j' = j) → table0 m' root i' j' = table0 m root i' j' :=
    fun i' j' hi' hj' ne => by
      simp only [table0, one i' hi']
      rcases found : table1 m root i' with _ | t
      · simp only [Option.bind_none]
      · simp only [Option.bind_some]
        by_cases same : t = t1
        · subst same
          have here : i' = i := tree.one_inj hi' hi found parent
          rw [oldEntry j' hj' fun there => ne ⟨here, there⟩]
        · have notT1 : t / PGSIZE ≠ t1 / PGSIZE := fun eq => same (eq_of_page (table1_aligned found) t1Aligned eq)
          rw [other t j' (table1_aligned found) notT1 (fresh.head_ne tree free (.inr (.inl ⟨i', hi', found⟩))) hj']
  have isTable : ∀ t, IsTable m' root t ↔ IsTable m root t ∨ t = p := fun t => by
    constructor
    · rintro (rfl | ⟨i', hi', found⟩ | ⟨i', hi', j', hj', found⟩)
      · exact .inl (.inl rfl)
      · exact .inl (.inr (.inl ⟨i', hi', (one i' hi').symm.trans found⟩))
      · by_cases here : i' = i ∧ j' = j
        · obtain ⟨rfl, rfl⟩ := here
          rw [newZero] at found
          exact .inr (Option.some.inj found).symm
        · exact .inl (.inr (.inr ⟨i', hi', j', hj', (oldZero i' j' hi' hj' here).symm.trans found⟩))
    · rintro ((rfl | ⟨i', hi', found⟩ | ⟨i', hi', j', hj', found⟩) | rfl)
      · exact .inl rfl
      · exact .inr (.inl ⟨i', hi', (one i' hi').trans found⟩)
      · have ne : ¬(i' = i ∧ j' = j) := fun ⟨h₁, h₂⟩ => by rw [h₁, h₂, missing] at found; cases found
        exact .inr (.inr ⟨i', hi', j', hj', (oldZero i' j' hi' hj' ne).trans found⟩)
      · exact .inr (.inr ⟨i, hi, j, hj, newZero⟩)
  have tree' : Tree m' root :=
    { aligned := tree.aligned
      one_ne_root := fun {i' _} hi' found => tree.one_ne_root hi' ((one i' hi').symm.trans found)
      one_inj := fun {i₁ i₂ _} h₁ h₂ found₁ found₂ =>
        tree.one_inj h₁ h₂ ((one i₁ h₁).symm.trans found₁) ((one i₂ h₂).symm.trans found₂)
      zero_ne_root := fun {i' j' t} hi' hj' found => by
        by_cases here : i' = i ∧ j' = j
        · obtain ⟨rfl, rfl⟩ := here
          rw [newZero] at found
          rw [← Option.some.inj found]
          exact fun same => pNotTable (same ▸ .inl rfl)
        · exact tree.zero_ne_root hi' hj' ((oldZero i' j' hi' hj' here).symm.trans found)
      zero_ne_one := fun {i₁ j₁ i₂ t} h₁ hj₁ h₂ found found' => by
        rw [one i₂ h₂] at found'
        by_cases here : i₁ = i ∧ j₁ = j
        · obtain ⟨rfl, rfl⟩ := here
          rw [newZero] at found
          cases found
          exact pNotTable (.inr (.inl ⟨i₂, h₂, found'⟩))
        · exact tree.zero_ne_one h₁ hj₁ h₂ ((oldZero i₁ j₁ h₁ hj₁ here).symm.trans found) found'
      zero_inj := fun {i₁ j₁ i₂ j₂ t} h₁ hj₁ h₂ hj₂ found₁ found₂ => by
        by_cases here₁ : i₁ = i ∧ j₁ = j <;> by_cases here₂ : i₂ = i ∧ j₂ = j
        · exact ⟨here₁.1.trans here₂.1.symm, here₁.2.trans here₂.2.symm⟩
        · obtain ⟨rfl, rfl⟩ := here₁
          rw [newZero] at found₁
          cases found₁
          exact absurd (.inr (.inr ⟨i₂, h₂, j₂, hj₂, (oldZero i₂ j₂ h₂ hj₂ here₂).symm.trans found₂⟩)) pNotTable
        · obtain ⟨rfl, rfl⟩ := here₂
          rw [newZero] at found₂
          cases found₂
          exact absurd (.inr (.inr ⟨i₁, h₁, j₁, hj₁, (oldZero i₁ j₁ h₁ hj₁ here₁).symm.trans found₁⟩)) pNotTable
        · exact tree.zero_inj h₁ hj₁ h₂ hj₂ ((oldZero i₁ j₁ h₁ hj₁ here₁).symm.trans found₁)
            ((oldZero i₂ j₂ h₂ hj₂ here₂).symm.trans found₂) }
  have sameMap : ∀ va, lookup m' root va = lookup m root va := fun va => by
    by_cases here : PX 2 va = i ∧ PX 1 va = j
    · simp only [lookup, here.1, here.2, newZero, missing, Option.bind_some, Option.bind_none,
        zeroed _ (PX_lt 0 va)]
    · simp only [lookup, oldZero _ _ (PX_lt 2 va) (PX_lt 1 va) here]
      rcases found : table0 m root (PX 2 va) (PX 1 va) with _ | t
      · simp only [Option.bind_none]
      · have table : IsTable m root t := .inr (.inr ⟨_, PX_lt 2 va, _, PX_lt 1 va, found⟩)
        have notT1 : t / PGSIZE ≠ t1 / PGSIZE := fun same =>
          tree.zero_ne_one (PX_lt 2 va) (PX_lt 1 va) hi found
            (by rw [parent, eq_of_page (table0_aligned found) t1Aligned same])
        simp only [Option.bind_some, other t _ (table0_aligned found) notT1 (fresh.head_ne tree free table) (PX_lt 0 va)]
  have keptZero : ∀ {i' j' t}, i' < 512 → j' < 512 → table0 m root i' j' = some t → table0 m' root i' j' = some t :=
    fun {i' j' _} hi' hj' found => by
      have ne : ¬(i' = i ∧ j' = j) := fun ⟨h₁, h₂⟩ => by rw [h₁, h₂, missing] at found; cases found
      exact (oldZero i' j' hi' hj' ne).trans found
  refine ⟨newZero, one, ⟨⟨⟨1, by simp [m', free]⟩, fun hi' found => (one _ hi').trans found, keptZero, ?_, ?_⟩,
    sameMap⟩, tree', fresh.tail free (by simp [m']) fun t table => (isTable t).mp table⟩
  · intro q mem gone
    have : q = p := by
      rw [free] at mem
      rcases List.mem_cons.mp mem with same | later
      · exact same
      · exact absurd (by simpa [m'] using later) gone
    exact (isTable q).mpr (.inr this)
  · intro q outside
    exact pages q (outside t1 ((isTable t1).mpr (.inl t1Table))).symm (outside p ((isTable p).mpr (.inr rfl))).symm

end Alloc

/-! ## `walk` -/

section Walk

variable {m : Phys}

theorem walkLevel_present {t va level e : Nat} (alloc : Bool) (found : entry m t (PX level va) = some e) :
    walkLevel m t va alloc level = (some (PTE2PA e), m) := by
  unfold entry at found
  by_cases valid : m.pte (t + 8 * PX level va) &&& PTE_V ≠ 0
  · rw [if_pos valid] at found
    rw [← Option.some.inj found]
    simp only [walkLevel, if_pos valid]
  · rw [if_neg valid] at found
    exact absurd found (Option.some_ne_none _).symm

theorem walkLevel_missing {t va level : Nat} (missing : entry m t (PX level va) = none) :
    walkLevel m t va false level = (none, m) ∧ (m.freelist = [] → walkLevel m t va true level = (none, m)) ∧
      ∀ {p rest}, m.freelist = p :: rest → walkLevel m t va true level =
        (some p, ({ m.memset p 0 with freelist := rest } : Phys).setPte (t + 8 * PX level va) (PA2PTE p ||| PTE_V)) := by
  unfold entry at missing
  have invalid : ¬(m.pte (t + 8 * PX level va) &&& PTE_V ≠ 0) := fun valid => by
    rw [if_pos valid] at missing
    cases missing
  refine ⟨by simp only [walkLevel, if_neg invalid, Bool.not_false, if_true], fun empty => ?_, fun free => ?_⟩
  · simp only [walkLevel, if_neg invalid, Bool.not_true, kalloc_of_nil empty]
    rfl
  · simp only [walkLevel, if_neg invalid, Bool.not_true, kalloc_of_cons free, memset_taken]
    rfl

/-- Without `alloc`, `walk` reads the tree and changes nothing. -/
theorem walk_false (root : Nat) {va : Nat} (below : va < MAXVA) :
    walk m root va false = .ok ((table0 m root (PX 2 va) (PX 1 va)).map (· + 8 * PX 0 va), m) := by
  rcases found : entry m root (PX 2 va) with _ | e
  · have none1 : table1 m root (PX 2 va) = none := by simp only [table1, found, Option.map_none]
    simp only [walk, if_neg (Nat.not_le.mpr below), (walkLevel_missing found).1, table0, none1, Option.bind_none,
      Option.map_none]
  · have some1 : table1 m root (PX 2 va) = some (PTE2PA e) := by simp only [table1, found, Option.map_some]
    rcases found' : entry m (PTE2PA e) (PX 1 va) with _ | e'
    · simp only [walk, if_neg (Nat.not_le.mpr below), walkLevel_present false found, (walkLevel_missing found').1,
        table0, some1, Option.bind_some, found', Option.map_none]
    · simp only [walk, if_neg (Nat.not_le.mpr below), walkLevel_present false found, walkLevel_present false found',
        table0, some1, Option.bind_some, found', Option.map_some]

/-- Over tables that are all there, `walk` allocates nothing, whatever `alloc`. -/
theorem walk_present (root : Nat) {va t : Nat} (alloc : Bool) (below : va < MAXVA)
    (found : table0 m root (PX 2 va) (PX 1 va) = some t) :
    walk m root va alloc = .ok (some (t + 8 * PX 0 va), m) := by
  simp only [table0, table1, Option.bind_eq_some_iff, Option.map_eq_some_iff] at found
  obtain ⟨_, ⟨e, found1, rfl⟩, e', found0, rfl⟩ := found
  simp only [walk, if_neg (Nat.not_le.mpr below), walkLevel_present alloc found1, walkLevel_present alloc found0]

end Walk

section WalkAlloc

variable {m : Phys} {root : Nat} (tree : Tree m root) (fresh : Fresh m root)

include tree fresh in
/-- `walk`'s first level with `alloc`: the root entry for `va` afterwards, a
table unless the free list ran out, and only a taken page entered. -/
theorem walkLevel_root (va : Nat) :
    ∃ r m', walkLevel m root va true 2 = (r, m') ∧ table1 m' root (PX 2 va) = r ∧ (r = none → m'.freelist = []) ∧
      Grows m m' root ∧ Tree m' root ∧ Fresh m' root := by
  rcases found : entry m root (PX 2 va) with _ | e
  · have missing : table1 m root (PX 2 va) = none := by simp only [table1, found, Option.map_none]
    rcases free : m.freelist with _ | ⟨p, rest⟩
    · exact ⟨none, m, (walkLevel_missing found).2.1 free, missing, fun _ => free, Grows.refl m root, tree, fresh⟩
    · obtain ⟨newEntry, grows, tree', fresh'⟩ := allocRoot tree fresh free (PX_lt 2 va) missing
      exact ⟨some p, _, (walkLevel_missing found).2.2 free, newEntry, fun h => absurd h (Option.some_ne_none _), grows, tree', fresh'⟩
  · have present : table1 m root (PX 2 va) = some (PTE2PA e) := by simp only [table1, found, Option.map_some]
    exact ⟨_, m, walkLevel_present true found, present, fun h => absurd h (Option.some_ne_none _), Grows.refl m root, tree, fresh⟩

include tree fresh in
/-- `walk`'s second level with `alloc`, below the level-1 table `t1`. -/
theorem walkLevel_one {va t1 : Nat} (parent : table1 m root (PX 2 va) = some t1) :
    ∃ r m', walkLevel m t1 va true 1 = (r, m') ∧ table0 m' root (PX 2 va) (PX 1 va) = r ∧
      (r = none → m'.freelist = []) ∧ Grows m m' root ∧ Tree m' root ∧ Fresh m' root := by
  rcases found : entry m t1 (PX 1 va) with _ | e
  · have missing : table0 m root (PX 2 va) (PX 1 va) = none := by
      simp only [table0, parent, Option.bind_some, found, Option.map_none]
    rcases free : m.freelist with _ | ⟨p, rest⟩
    · exact ⟨none, m, (walkLevel_missing found).2.1 free, missing, fun _ => free, Grows.refl m root, tree, fresh⟩
    · obtain ⟨newZero, -, grows, tree', fresh'⟩ := allocOne tree fresh free (PX_lt 2 va) (PX_lt 1 va) parent missing
      exact ⟨some p, _, (walkLevel_missing found).2.2 free, newZero, fun h => absurd h (Option.some_ne_none _), grows, tree', fresh'⟩
  · have present : table0 m root (PX 2 va) (PX 1 va) = some (PTE2PA e) := by
      simp only [table0, parent, Option.bind_some, found, Option.map_some]
    exact ⟨_, m, walkLevel_present true found, present, fun h => absurd h (Option.some_ne_none _), Grows.refl m root, tree, fresh⟩

include tree fresh in
/-- `walk` with `alloc` on a tree: it returns the slot of `va` in its level-0
table, or `none` only when the free list ran out, and it only enters tables
taken from the free list, keeping the map. -/
theorem walk_true {va : Nat} (below : va < MAXVA) :
    ∃ r m', walk m root va true = .ok (r, m') ∧ Grows m m' root ∧ Tree m' root ∧ Fresh m' root ∧
      (r = none → m'.freelist = []) ∧ ∀ s, r = some s → ∃ t, table0 m' root (PX 2 va) (PX 1 va) = some t ∧ s = t + 8 * PX 0 va := by
  obtain ⟨r₁, m₁, level₁, found₁, empty₁, grows₁, tree₁, fresh₁⟩ := walkLevel_root tree fresh va
  rcases r₁ with _ | t1
  · refine ⟨none, m₁, ?_, grows₁, tree₁, fresh₁, empty₁, fun _ h => absurd h (Option.some_ne_none _).symm⟩
    simp only [walk, if_neg (Nat.not_le.mpr below), level₁]
  · obtain ⟨r₂, m₂, level₂, found₂, empty₂, grows₂, tree₂, fresh₂⟩ := walkLevel_one tree₁ fresh₁ found₁
    rcases r₂ with _ | t0
    · refine ⟨none, m₂, ?_, grows₁.trans grows₂, tree₂, fresh₂, empty₂, fun _ h => absurd h (Option.some_ne_none _).symm⟩
      simp only [walk, if_neg (Nat.not_le.mpr below), level₁, level₂]
    · refine ⟨some (t0 + 8 * PX 0 va), m₂, ?_, grows₁.trans grows₂, tree₂, fresh₂, fun h => absurd h (Option.some_ne_none _),
        fun s h => ⟨t0, found₂, (Option.some.inj h).symm⟩⟩
      simp only [walk, if_neg (Nat.not_le.mpr below), level₁, level₂]

end WalkAlloc

/-! ## Leaf entries -/

/-- The leaf `mappages` writes for the page `pa`: valid, pointing at `pa`, and
with exactly the flags `perm | PTE_V` when `perm` fits in the flag bits. -/
theorem leaf_pte {pa perm : Nat} (aligned : pa % PGSIZE = 0) (fits : pa < 2 ^ 64) (flags : perm < 1024) :
    (PA2PTE pa ||| perm ||| PTE_V) % 2 ^ 64 = PA2PTE pa ||| perm ||| PTE_V ∧ (PA2PTE pa ||| perm ||| PTE_V) % 2 = 1 ∧
      PTE2PA (PA2PTE pa ||| perm ||| PTE_V) = pa ∧ PTE_FLAGS (PA2PTE pa ||| perm ||| PTE_V) = perm ||| PTE_V := by
  have small : perm ||| PTE_V < 1024 := Nat.or_lt_two_pow (n := 10) flags (by decide)
  have odd : (perm ||| PTE_V) % 2 = 1 := by
    rw [Nat.mod_two_eq_one_iff_testBit_zero, Nat.testBit_or]
    simp
  rw [Nat.or_assoc, pte_encode small, PTE2PA_encode aligned small, PTE_FLAGS_eq]
  have two64 : (2 : Nat) ^ 64 = 18446744073709551616 := by norm_num
  unfold PGSIZE at aligned
  rw [two64] at fits ⊢
  exact ⟨by omega, by omega, rfl, by omega⟩

/-- Below `MAXVA`, two page-aligned addresses with the same three indices are
the same address. -/
theorem eq_of_PX {a b : Nat} (ha : a % PGSIZE = 0) (hb : b % PGSIZE = 0) (below : a < MAXVA) (below' : b < MAXVA)
    (same : PX 2 b = PX 2 a ∧ PX 1 b = PX 1 a ∧ PX 0 b = PX 0 a) : b = a :=
  eq_of_page hb ha (page_of_PX below' below same)

section Leaf

variable {m : Phys} {root : Nat} (tree : Tree m root)

include tree in
/-- A store to the slot of `va` in its level-0 table `t` changes the entry of
`va`'s page and no other entry of the map, and no table. -/
theorem setLeaf {va t : Nat} (v : Nat) (found : table0 m root (PX 2 va) (PX 1 va) = some t) :
    let m' := m.setPte (t + 8 * PX 0 va) v
    (∀ i, i < 512 → table1 m' root i = table1 m root i) ∧
      (∀ i j, i < 512 → j < 512 → table0 m' root i j = table0 m root i j) ∧
      (∀ q, q ≠ t / PGSIZE → m'.page q = m.page q) ∧
      ∀ a, lookup m' root a =
        if PX 2 a = PX 2 va ∧ PX 1 a = PX 1 va ∧ PX 0 a = PX 0 va then
          (if v % 2 ^ 64 % 2 = 1 then some (v % 2 ^ 64) else none)
        else lookup m root a := by
  intro m'
  have tAligned := table0_aligned found
  have pages : ∀ q, q ≠ t / PGSIZE → m'.page q = m.page q := fun q ne =>
    m.setPte_page_of_ne v (by rwa [slot_page tAligned (PX_lt 0 va)])
  -- the root and every level-1 table lie outside `t`'s page
  have rootPage : root / PGSIZE ≠ t / PGSIZE := fun same =>
    tree.zero_ne_root (PX_lt 2 va) (PX_lt 1 va) found (eq_of_page tAligned tree.aligned same.symm)
  have one : ∀ i, i < 512 → table1 m' root i = table1 m root i := fun i hi => by
    simp only [table1, entry_of_page tree.aligned hi (pages _ rootPage)]
  have zero : ∀ i j, i < 512 → j < 512 → table0 m' root i j = table0 m root i j := fun i j hi hj => by
    simp only [table0, one i hi]
    rcases parent : table1 m root i with _ | t1
    · simp only [Option.bind_none]
    · have t1Page : t1 / PGSIZE ≠ t / PGSIZE := fun same =>
        tree.zero_ne_one (PX_lt 2 va) (PX_lt 1 va) hi found
          (by rw [parent, eq_of_page (table1_aligned parent) tAligned same])
      simp only [Option.bind_some, entry_of_page (table1_aligned parent) hj (pages _ t1Page)]
  refine ⟨one, zero, pages, fun a => ?_⟩
  simp only [lookup, zero _ _ (PX_lt 2 a) (PX_lt 1 a)]
  rcases foundA : table0 m root (PX 2 a) (PX 1 a) with _ | t'
  · have differ : ¬(PX 2 a = PX 2 va ∧ PX 1 a = PX 1 va ∧ PX 0 a = PX 0 va) := fun ⟨h2, h1, _⟩ => by
      rw [h2, h1, found] at foundA
      exact Option.some_ne_none _ foundA
    simp only [Option.bind_none, if_neg differ]
  · simp only [Option.bind_some]
    by_cases same : t' = t
    · -- `a` is in `va`'s level-0 table: the store hits it exactly when the last index agrees
      subst same
      obtain ⟨h2, h1⟩ := tree.zero_inj (PX_lt 2 a) (PX_lt 1 a) (PX_lt 2 va) (PX_lt 1 va) foundA found
      by_cases h0 : PX 0 a = PX 0 va
      · rw [if_pos ⟨h2, h1, h0⟩, h0]
        exact entry_setPte_self v tAligned
      · rw [if_neg fun h => h0 h.2.2]
        exact entry_setPte_of_ne v (slot_aligned tAligned) tAligned (by omega)
    · have differ : ¬(PX 2 a = PX 2 va ∧ PX 1 a = PX 1 va ∧ PX 0 a = PX 0 va) := fun ⟨h2, h1, _⟩ => by
        rw [h2, h1, found] at foundA
        exact same (Option.some.inj foundA).symm
      have tPage : t' / PGSIZE ≠ t / PGSIZE := fun eq => same (eq_of_page (table0_aligned foundA) tAligned eq)
      rw [if_neg differ]
      exact entry_of_page (table0_aligned foundA) (PX_lt 0 a) (pages _ tPage)

include tree in
/-- The leaf store as a step of the page-table code: the tree, its tables and
the free list are kept, and only a table page is written. -/
theorem setLeaf_frames {va t : Nat} (v : Nat) (found : table0 m root (PX 2 va) (PX 1 va) = some t) :
    Frames m (m.setPte (t + 8 * PX 0 va) v) root ∧ Tree (m.setPte (t + 8 * PX 0 va) v) root ∧
      (Fresh m root → Fresh (m.setPte (t + 8 * PX 0 va) v) root) := by
  obtain ⟨one, zero, pages, -⟩ := setLeaf tree v found
  have table : IsTable (m.setPte (t + 8 * PX 0 va) v) root t :=
    .inr (.inr ⟨_, PX_lt 2 va, _, PX_lt 1 va, (zero _ _ (PX_lt 2 va) (PX_lt 1 va)).trans found⟩)
  refine ⟨⟨⟨0, rfl⟩, fun hi found => (one _ hi).trans found, fun hi hj found => (zero _ _ hi hj).trans found,
    fun _ kept gone => absurd kept gone, fun q outside => pages q (outside t table).symm⟩, tree.congr one zero,
    fun fresh => ⟨fresh.nodup, fresh.page, fun p mem table => fresh.notTable p mem ((isTable_congr one zero p).mp table)⟩⟩

end Leaf

/-! ## `mappages` -/

/-- `m'` maps the `n` pages from `a` to the `n` pages from `pa` with `perm`,
and every other page below `MAXVA` as `m` does. -/
def MapsRange (m m' : Phys) (root a pa n perm : Nat) : Prop :=
  ∀ b, b % PGSIZE = 0 → b < MAXVA →
    lookup m' root b = if a ≤ b ∧ b < a + n * PGSIZE then some (PA2PTE ((pa + (b - a)) % 2 ^ 64) ||| perm ||| PTE_V)
      else lookup m root b

theorem MapsRange.none {m m' : Phys} {root a pa perm : Nat} (same : ∀ b, lookup m' root b = lookup m root b) :
    MapsRange m m' root a pa 0 perm := fun b _ _ => by
  rw [if_neg (by omega), same]

/-- One page mapped at `a`, then `n` more from the next page. -/
theorem MapsRange.cons {m m₁ m' : Phys} {root a pa n perm : Nat} (aligned : a % PGSIZE = 0) (fits : pa < 2 ^ 64)
    (first : ∀ b, b % PGSIZE = 0 → b < MAXVA →
      lookup m₁ root b = if b = a then some (PA2PTE pa ||| perm ||| PTE_V) else lookup m root b)
    (rest : MapsRange m₁ m' root (a + PGSIZE) ((pa + PGSIZE) % 2 ^ 64) n perm) :
    MapsRange m m' root a pa (n + 1) perm := fun b hb below => by
  rw [rest b hb below, first b hb below]
  by_cases later : a + PGSIZE ≤ b ∧ b < a + PGSIZE + n * PGSIZE
  · have inRange : a ≤ b ∧ b < a + (n + 1) * PGSIZE := by
      rw [Nat.add_mul, Nat.one_mul]
      omega
    have shifted : ((pa + PGSIZE) % 2 ^ 64 + (b - (a + PGSIZE))) % 2 ^ 64 = (pa + (b - a)) % 2 ^ 64 := by
      rw [Nat.mod_add_mod, show pa + PGSIZE + (b - (a + PGSIZE)) = pa + (b - a) by omega]
    rw [if_pos later, if_pos inRange, shifted]
  · rw [if_neg later]
    by_cases here : b = a
    · subst here
      have inRange : b ≤ b ∧ b < b + (n + 1) * PGSIZE := ⟨Nat.le_refl b, by unfold PGSIZE; omega⟩
      rw [if_pos rfl, if_pos inRange, Nat.sub_self, Nat.add_zero, Nat.mod_eq_of_lt fits]
    · have outside : ¬(a ≤ b ∧ b < a + (n + 1) * PGSIZE) := by
        rw [Nat.add_mul, Nat.one_mul]
        unfold PGSIZE at *
        omega
      rw [if_neg here, if_neg outside]

/-- Where the loop of `mappages` stands after a page: it stops exactly when
its pages are used up, and otherwise moves one page on without wrapping. -/
theorem last_step {a fuel last : Nat} (aligned : a % PGSIZE = 0) (below : a < MAXVA)
    (total : (fuel + 1) * PGSIZE ≤ 2 ^ 64) (isLast : last = (a + fuel * PGSIZE) % 2 ^ 64) :
    (a = last ↔ fuel = 0) ∧ a + PGSIZE ≤ MAXVA ∧ (a + PGSIZE) % 2 ^ 64 = a + PGSIZE ∧
      (0 < fuel → last = (a + PGSIZE + (fuel - 1) * PGSIZE) % 2 ^ 64) := by
  have two64 : (2 : Nat) ^ 64 = 18446744073709551616 := by norm_num
  rw [MAXVA_eq, show (2 : Nat) ^ 38 = 274877906944 by norm_num] at below ⊢
  rw [two64] at total isLast ⊢
  unfold PGSIZE at *
  rw [Nat.add_mul, Nat.one_mul] at total
  refine ⟨⟨fun same => by omega, fun zero => by subst zero; omega⟩, by omega, by omega, fun positive => ?_⟩
  rw [isLast, show a + 4096 + (fuel - 1) * 4096 = a + fuel * 4096 by
    rcases fuel with _ | fuel
    · exact absurd positive (Nat.lt_irrefl 0)
    · rw [Nat.add_sub_cancel, Nat.add_mul, Nat.one_mul]
      omega]

section Map

variable {root last perm : Nat} (flags : perm < 1024)

include flags in
/-- The loop of `mappages` on a tree whose free pages are no tables: it keeps
the tree, and when it returns it has mapped `n` pages from `a`, all of them
when it returns 0, and it returns -1 only with the free list empty. -/
theorem mapLoop_spec (fuel : Nat) : ∀ (a pa : Nat) {m m' : Phys} {code : Int}, Tree m root → Fresh m root →
    a % PGSIZE = 0 → pa % PGSIZE = 0 → pa < 2 ^ 64 → 0 < fuel → fuel * PGSIZE ≤ 2 ^ 64 →
    last = (a + (fuel - 1) * PGSIZE) % 2 ^ 64 → mapLoop root last perm fuel a pa m = .ok (code, m') →
    Frames m m' root ∧ Tree m' root ∧ Fresh m' root ∧ ∃ n, n ≤ fuel ∧ a + n * PGSIZE ≤ MAXVA ∧
      (code = 0 ∧ n = fuel ∨ code = -1 ∧ n < fuel ∧ m'.freelist = []) ∧ MapsRange m m' root a pa n perm := by
  induction fuel with
  | zero => exact fun _ _ _ _ _ _ _ _ _ _ positive => absurd positive (Nat.lt_irrefl 0)
  | succ fuel ih =>
    intro a pa m m' code tree fresh aligned paAligned paFits _ total isLast run
    -- a page at or beyond `MAXVA` makes `walk` panic
    have below : a < MAXVA := by
      by_contra above
      simp only [mapLoop, walk, if_pos (Nat.le_of_not_lt above)] at run
      cases run
    rw [Nat.add_sub_cancel] at isLast
    obtain ⟨stops, fitsNext, next, isLast'⟩ := last_step aligned below total isLast
    obtain ⟨r, m₁, walked, grows, tree₁, fresh₁, empty, slot⟩ := walk_true tree fresh below
    rcases r with _ | s
    · -- `walk` found the free list empty: -1, with nothing mapped
      simp only [mapLoop, walked, Except.ok.injEq, Prod.mk.injEq] at run
      obtain ⟨rfl, rfl⟩ := run
      exact ⟨grows.toFrames, tree₁, fresh₁, 0, Nat.zero_le _, by omega, .inr ⟨rfl, Nat.succ_pos fuel, empty rfl⟩,
        MapsRange.none grows.lookup⟩
    obtain ⟨t, found, rfl⟩ := slot _ rfl
    by_cases remap : m₁.pte (t + 8 * PX 0 a) &&& PTE_V ≠ 0
    · simp only [mapLoop, walked, if_pos remap] at run
      cases run
    simp only [mapLoop, walked, if_neg remap] at run
    obtain ⟨vFits, vValid, -, -⟩ := leaf_pte paAligned paFits flags
    obtain ⟨frames₂, tree₂, fresh₂⟩ := setLeaf_frames tree₁ (PA2PTE pa ||| perm ||| PTE_V) found
    obtain ⟨-, -, -, look⟩ := setLeaf tree₁ (PA2PTE pa ||| perm ||| PTE_V) found
    -- the store maps `a` and, below `MAXVA`, no other page
    have first : ∀ b, b % PGSIZE = 0 → b < MAXVA →
        lookup (m₁.setPte (t + 8 * PX 0 a) (PA2PTE pa ||| perm ||| PTE_V)) root b =
          if b = a then some (PA2PTE pa ||| perm ||| PTE_V) else lookup m root b := fun b hb belowB => by
      rw [look b, ← grows.lookup b]
      by_cases here : b = a
      · subst here
        rw [if_pos ⟨rfl, rfl, rfl⟩, if_pos rfl, vFits, if_pos vValid]
      · rw [if_neg fun same => here (eq_of_PX aligned hb below belowB same), if_neg here]
    by_cases done : a = last
    · -- the last page: 0, with every page mapped
      simp only [if_pos done, Except.ok.injEq, Prod.mk.injEq] at run
      obtain ⟨rfl, rfl⟩ := run
      have zero : fuel = 0 := stops.mp done
      subst zero
      exact ⟨grows.toFrames.trans frames₂, tree₂, fresh₂ fresh₁, 1, Nat.le_refl 1, by omega, .inl ⟨rfl, rfl⟩,
        MapsRange.cons aligned paFits first (MapsRange.none fun _ => rfl)⟩
    simp only [if_neg done, next] at run
    have positive : 0 < fuel := Nat.pos_of_ne_zero fun zero => done (stops.mpr zero)
    have nextAligned : (a + PGSIZE) % PGSIZE = 0 := by unfold PGSIZE at *; omega
    have nextPa : ((pa + PGSIZE) % 2 ^ 64) % PGSIZE = 0 := by
      have two64 : (2 : Nat) ^ 64 = 18446744073709551616 := by norm_num
      unfold PGSIZE at *
      rw [two64]
      omega
    obtain ⟨frames', tree', fresh', n, le, range, result, maps⟩ :=
      ih (a + PGSIZE) ((pa + PGSIZE) % 2 ^ 64) tree₂ (fresh₂ fresh₁) nextAligned nextPa (Nat.mod_lt _ (by norm_num))
        positive (by rw [Nat.add_mul, Nat.one_mul] at total; omega) (isLast' positive) run
    refine ⟨grows.toFrames.trans (frames₂.trans frames'), tree', fresh', n + 1, by omega, by rw [Nat.add_mul]; omega,
      ?_, MapsRange.cons aligned paFits first maps⟩
    rcases result with ⟨rfl, rfl⟩ | ⟨rfl, early, empty'⟩
    · exact .inl ⟨rfl, rfl⟩
    · exact .inr ⟨rfl, by omega, empty'⟩

include flags in
/-- `mappages` on a tree: it panics unless `va` and `size` are whole pages and
`size` is not zero, and it returns 0 having mapped every page of the range,
or -1 having mapped a prefix of it with the free list empty. -/
theorem mappages_spec {va size pa : Nat} {m m' : Phys} {code : Int} (tree : Tree m root) (fresh : Fresh m root)
    (paAligned : pa % PGSIZE = 0) (fits : size < 2 ^ 64 ∧ pa < 2 ^ 64)
    (run : mappages m root va size pa perm = .ok (code, m')) :
    va % PGSIZE = 0 ∧ size % PGSIZE = 0 ∧ 0 < size ∧ Frames m m' root ∧ Tree m' root ∧ Fresh m' root ∧
      ∃ n, n ≤ size / PGSIZE ∧ va + n * PGSIZE ≤ MAXVA ∧
        (code = 0 ∧ n = size / PGSIZE ∨ code = -1 ∧ n < size / PGSIZE ∧ m'.freelist = []) ∧
          MapsRange m m' root va pa n perm := by
  have vaAligned : va % PGSIZE = 0 := by
    by_contra bad
    rw [mappages, if_pos bad] at run
    cases run
  have sizeAligned : size % PGSIZE = 0 := by
    by_contra bad
    rw [mappages, if_neg (not_not.mpr vaAligned), if_pos bad] at run
    cases run
  have zero : size ≠ 0 := by
    intro zero
    rw [mappages, if_neg (not_not.mpr vaAligned), if_neg (not_not.mpr sizeAligned), if_pos zero] at run
    cases run
  rw [mappages, if_neg (not_not.mpr vaAligned), if_neg (not_not.mpr sizeAligned), if_neg zero] at run
  have pages : size = size / PGSIZE * PGSIZE := (Nat.div_mul_cancel (Nat.dvd_of_mod_eq_zero sizeAligned)).symm
  have isLast : (va + size - PGSIZE) % 2 ^ 64 = (va + (size / PGSIZE - 1) * PGSIZE) % 2 ^ 64 := by
    unfold PGSIZE at *
    rw [show va + size - 4096 = va + (size / 4096 - 1) * 4096 by omega]
  obtain ⟨frames, tree', fresh', rest⟩ := mapLoop_spec flags (size / PGSIZE) va pa tree fresh vaAligned paAligned
    fits.2 (Nat.div_pos (by unfold PGSIZE at *; omega) (by decide)) (by rw [← pages]; exact fits.1.le) isLast run
  exact ⟨vaAligned, sizeAligned, Nat.pos_of_ne_zero zero, frames, tree', fresh', rest⟩

end Map

/-- The page table as a map from the virtual addresses below `MAXVA` to the
physical page and the flags of their leaf. -/
def pageMap (m : Phys) (root va : Nat) : Option (Nat × Nat) :=
  if MAXVA ≤ va then none else (lookup m root va).map fun pte => (PTE2PA pte, PTE_FLAGS pte)

/-- `MapsRange` read through `pageMap`: the pages of the range map to the
pages from `pa` with the flags `perm | PTE_V`. -/
theorem MapsRange.pageMap {m m' : Phys} {root a pa n perm : Nat} (maps : MapsRange m m' root a pa n perm)
    (aAligned : a % PGSIZE = 0) (paAligned : pa % PGSIZE = 0) (flags : perm < 1024) (inside : a + n * PGSIZE ≤ MAXVA) :
    ∀ b, b % PGSIZE = 0 → pageMap m' root b =
      if a ≤ b ∧ b < a + n * PGSIZE then some ((pa + (b - a)) % 2 ^ 64, perm ||| PTE_V) else pageMap m root b := by
  intro b hb
  by_cases above : MAXVA ≤ b
  · rw [if_neg (by omega)]
    simp only [Xv6.Paging.pageMap, if_pos above]
  simp only [Xv6.Paging.pageMap, if_neg above, maps b hb (Nat.lt_of_not_le above)]
  split_ifs with inRange
  · have two64 : (2 : Nat) ^ 64 = 18446744073709551616 := by norm_num
    have target : (pa + (b - a)) % 2 ^ 64 % PGSIZE = 0 := by
      unfold PGSIZE at *
      rw [two64]
      omega
    obtain ⟨-, -, toPa, toFlags⟩ := leaf_pte target (Nat.mod_lt _ (by norm_num)) flags
    simp only [Option.map_some, toPa, toFlags]
  · rfl

/-! ## `uvmunmap` -/

section Free

variable {m : Phys} {root : Nat} (tree : Tree m root)

include tree in
/-- `kfree` of a page that is no table of the tree keeps the tree and its map,
and puts the page on the free list. -/
theorem kfree_keeps {pa : Nat} {m' : Phys} (notTable : ¬IsTable m root pa) (run : kfree m pa = .ok m') :
    m'.freelist = pa :: m.freelist ∧ (∀ i, i < 512 → table1 m' root i = table1 m root i) ∧
      (∀ i j, i < 512 → j < 512 → table0 m' root i j = table0 m root i j) ∧ ∀ va, lookup m' root va = lookup m root va := by
  have ok : ¬(pa % PGSIZE ≠ 0 ∨ pa < m.kernEnd ∨ PHYSTOP ≤ pa) := by
    intro bad
    rw [kfree, if_pos bad] at run
    cases run
  rw [kfree, if_neg ok] at run
  cases run
  have aligned : pa % PGSIZE = 0 := by
    by_contra misaligned
    exact ok (.inl misaligned)
  obtain ⟨one, zero, look⟩ := view_of_tables tree fun t table =>
    m.memset_page_of_ne 1 fun same => notTable (eq_of_page (table.aligned tree) aligned same ▸ table)
  exact ⟨rfl, one, zero, look⟩

end Free

/-- The physical pages of the `n` leaves from `a`, the last first: what
`uvmunmap` with `do_free` pushes on the free list. -/
def freedPages (m : Phys) (root : Nat) : (a n : Nat) → List Nat
  | _, 0 => []
  | a, n + 1 => freedPages m root (a + PGSIZE) n ++ ((lookup m root a).map PTE2PA).toList

/-- `freedPages` reads only the leaves of its pages. -/
theorem freedPages_congr {m m' : Phys} {root : Nat} : ∀ {a n : Nat},
    (∀ k, k < n → lookup m' root (a + k * PGSIZE) = lookup m root (a + k * PGSIZE)) →
      freedPages m' root a n = freedPages m root a n
  | _, 0, _ => rfl
  | a, n + 1, same => by
    have head := same 0 (Nat.succ_pos n)
    rw [Nat.zero_mul, Nat.add_zero] at head
    have rest : freedPages m' root (a + PGSIZE) n = freedPages m root (a + PGSIZE) n :=
      freedPages_congr fun k hk => by
        have shifted := same (k + 1) (by omega)
        rw [show a + (k + 1) * PGSIZE = a + PGSIZE + k * PGSIZE by ring] at shifted
        exact shifted
    simp only [freedPages, head, rest]

section Unmap

variable {m : Phys} {root : Nat} (tree : Tree m root)

include tree in
/-- One page of `uvmunmap`: with the leaf `e` of `a` valid and its page no
table, the optional `kfree` and the cleared entry keep the tree and its
tables, unmap `a`'s page and no other, and put `e`'s page on the free list
when asked. -/
theorem unmap_page {a t e : Nat} {doFree : Bool} {mf : Phys} (found : table0 m root (PX 2 a) (PX 1 a) = some t)
    (notTable : doFree = true → ¬IsTable m root (PTE2PA e)) (freed : (if doFree then kfree m (PTE2PA e) else .ok m) = .ok mf) :
    let m' := mf.setPte (t + 8 * PX 0 a) 0
    Tree m' root ∧ (∀ p, IsTable m' root p ↔ IsTable m root p) ∧
      (∀ b, lookup m' root b = if PX 2 b = PX 2 a ∧ PX 1 b = PX 1 a ∧ PX 0 b = PX 0 a then none else lookup m root b) ∧
      m'.freelist = (if doFree then [PTE2PA e] else []) ++ m.freelist := by
  intro m'
  -- the optional `kfree` keeps everything the tree reads
  have kept : mf.freelist = (if doFree then [PTE2PA e] else []) ++ m.freelist ∧
      (∀ i, i < 512 → table1 mf root i = table1 m root i) ∧
      (∀ i j, i < 512 → j < 512 → table0 mf root i j = table0 m root i j) ∧ ∀ va, lookup mf root va = lookup m root va := by
    cases doFree
    · simp only [Bool.false_eq_true, if_false, Except.ok.injEq] at freed
      subst freed
      exact ⟨rfl, fun _ _ => rfl, fun _ _ _ _ => rfl, fun _ => rfl⟩
    · simp only [if_true] at freed
      exact kfree_keeps tree (notTable rfl) freed
  obtain ⟨list, one, zero, look⟩ := kept
  have treeF : Tree mf root := tree.congr one zero
  obtain ⟨one', zero', -, store⟩ := setLeaf treeF 0 ((zero _ _ (PX_lt 2 a) (PX_lt 1 a)).trans found)
  refine ⟨treeF.congr one' zero', fun p => (isTable_congr one' zero' p).trans (isTable_congr one zero p), fun b => ?_, list⟩
  rw [store b, look b, Nat.zero_mod, Nat.zero_mod, if_neg Nat.zero_ne_one]

end Unmap

section UnmapLoop

variable {root bound : Nat} (doFree : Bool) (fits : bound < 2 ^ 64)

include fits in
/-- The loop of `uvmunmap` over pages whose leaves are no tables: when it
returns, every page it was given lay below `MAXVA` and is unmapped, no other
page is, the tables are those it found, and the pages it freed are on the
free list. -/
theorem unmapLoop_spec (fuel : Nat) : ∀ (a : Nat) {m m' : Phys}, Tree m root → a % PGSIZE = 0 →
    bound = a + fuel * PGSIZE →
    (doFree = true → ∀ k, k < fuel → ∀ e, lookup m root (a + k * PGSIZE) = some e → ¬IsTable m root (PTE2PA e)) →
    unmapLoop root bound doFree fuel a m = .ok m' →
    Tree m' root ∧ (fuel = 0 ∨ a + fuel * PGSIZE ≤ MAXVA) ∧ (∀ t, IsTable m' root t ↔ IsTable m root t) ∧
      (∀ b, b % PGSIZE = 0 → b < MAXVA →
        lookup m' root b = if a ≤ b ∧ b < a + fuel * PGSIZE then none else lookup m root b) ∧
      m'.freelist = (if doFree then freedPages m root a fuel else []) ++ m.freelist := by
  induction fuel with
  | zero =>
    intro a m m' tree _ _ _ run
    simp only [unmapLoop, Except.ok.injEq] at run
    subst run
    refine ⟨tree, .inl rfl, fun _ => Iff.rfl, fun b _ _ => by rw [if_neg (by omega)], ?_⟩
    cases doFree <;> rfl
  | succ fuel ih =>
    intro a m m' tree aligned isBound notTables run
    have inside : a < bound := by
      rw [isBound, Nat.add_mul, Nat.one_mul]
      unfold PGSIZE
      omega
    -- a page at or beyond `MAXVA` makes `walk` panic
    have below : a < MAXVA := by
      by_contra above
      simp only [unmapLoop, if_pos inside, walk, if_pos (Nat.le_of_not_lt above)] at run
      cases run
    simp only [unmapLoop, if_pos inside, walk_false root below] at run
    rcases found : table0 m root (PX 2 a) (PX 1 a) with _ | t
    · simp only [found, Option.map_none] at run
      cases run
    simp only [found, Option.map_some] at run
    by_cases invalid : m.pte (t + 8 * PX 0 a) &&& PTE_V = 0
    · simp only [if_pos invalid] at run
      cases run
    by_cases notLeaf : PTE_FLAGS (m.pte (t + 8 * PX 0 a)) = PTE_V
    · simp only [if_neg invalid, if_pos notLeaf] at run
      cases run
    simp only [if_neg invalid, if_neg notLeaf] at run
    have mapped : lookup m root a = some (m.pte (t + 8 * PX 0 a)) := by
      simp only [lookup, found, Option.bind_some, entry, if_pos invalid]
    have notTable := fun free => notTables free 0 (Nat.succ_pos fuel) _ (by rw [Nat.zero_mul, Nat.add_zero]; exact mapped)
    rcases freed : (if doFree then kfree m (PTE2PA (m.pte (t + 8 * PX 0 a))) else Except.ok m) with err | mf
    · simp only [freed] at run
      cases run
    simp only [freed] at run
    obtain ⟨tree₁, tables₁, look₁, list₁⟩ := unmap_page tree found notTable freed
    have next : (a + PGSIZE) % 2 ^ 64 = a + PGSIZE := Nat.mod_eq_of_lt (by
      rw [isBound, Nat.add_mul, Nat.one_mul] at fits
      omega)
    rw [next] at run
    -- past `a`, the pages' leaves are as they were
    have notTables' : doFree = true → ∀ k, k < fuel → ∀ e,
        lookup (mf.setPte (t + 8 * PX 0 a) 0) root (a + PGSIZE + k * PGSIZE) = some e →
        ¬IsTable (mf.setPte (t + 8 * PX 0 a) 0) root (PTE2PA e) := fun free k hk e found' => by
      rw [look₁] at found'
      by_cases same : PX 2 (a + PGSIZE + k * PGSIZE) = PX 2 a ∧ PX 1 (a + PGSIZE + k * PGSIZE) = PX 1 a ∧
          PX 0 (a + PGSIZE + k * PGSIZE) = PX 0 a
      · rw [if_pos same] at found'
        cases found'
      rw [if_neg same] at found'
      rw [tables₁]
      refine notTables free (k + 1) (by omega) e ?_
      rw [show a + (k + 1) * PGSIZE = a + PGSIZE + k * PGSIZE by ring]
      exact found'
    obtain ⟨tree', bounded, tables', look', list'⟩ :=
      ih (a + PGSIZE) tree₁ (by unfold PGSIZE at *; omega) (by rw [isBound]; ring) notTables' run
    have inside' : a + (fuel + 1) * PGSIZE ≤ MAXVA := by
      rw [Nat.add_mul, Nat.one_mul]
      rcases bounded with rfl | bounded
      · unfold PGSIZE at *
        rw [MAXVA_eq] at below ⊢
        omega
      · omega
    refine ⟨tree', .inr inside', fun t => (tables' t).trans (tables₁ t), fun b hb belowB => ?_, ?_⟩
    · rw [look' b hb belowB, look₁ b]
      by_cases later : a + PGSIZE ≤ b ∧ b < a + PGSIZE + fuel * PGSIZE
      · rw [if_pos later, if_pos (by rw [Nat.add_mul, Nat.one_mul]; omega)]
      rw [if_neg later]
      by_cases here : b = a
      · subst here
        rw [if_pos ⟨rfl, rfl, rfl⟩, if_pos (by rw [Nat.add_mul, Nat.one_mul]; unfold PGSIZE; omega)]
      · rw [if_neg fun same => here (eq_of_PX aligned hb below belowB same), if_neg (by
          rw [Nat.add_mul, Nat.one_mul]
          unfold PGSIZE at *
          omega)]
    · -- the pages freed after `a` are read from leaves the store did not touch
      have laterLeaves : ∀ k, k < fuel → lookup (mf.setPte (t + 8 * PX 0 a) 0) root (a + PGSIZE + k * PGSIZE) =
          lookup m root (a + PGSIZE + k * PGSIZE) := fun k hk => by
        have belowK : a + PGSIZE + k * PGSIZE < MAXVA := by
          rcases bounded with rfl | bounded
          · exact absurd hk (Nat.not_lt_zero k)
          · unfold PGSIZE at *
            omega
        have alignedK : (a + PGSIZE + k * PGSIZE) % PGSIZE = 0 := by unfold PGSIZE at *; omega
        rw [look₁, if_neg fun same => by
          have := eq_of_PX aligned alignedK below belowK same
          unfold PGSIZE at this
          omega]
      rw [list', list₁, freedPages_congr laterLeaves, freedPages, mapped]
      cases doFree <;> simp

end UnmapLoop

/-- `uvmunmap` on a tree, over `npages` pages that do not run past `2^64` and
whose leaves are no tables when they are freed: it panics unless `va` is a
whole page, and when it returns the pages are unmapped, no other page is, and
the freed pages are on the free list. -/
theorem uvmunmap_spec {root va npages : Nat} {doFree : Bool} {m m' : Phys} (tree : Tree m root)
    (fits : va + npages * PGSIZE < 2 ^ 64)
    (notTables : doFree = true → ∀ k, k < npages → ∀ e, lookup m root (va + k * PGSIZE) = some e →
      ¬IsTable m root (PTE2PA e))
    (run : uvmunmap m root va npages doFree = .ok m') :
    va % PGSIZE = 0 ∧ Tree m' root ∧ (∀ t, IsTable m' root t ↔ IsTable m root t) ∧
      (∀ b, b % PGSIZE = 0 →
        pageMap m' root b = if va ≤ b ∧ b < va + npages * PGSIZE then none else pageMap m root b) ∧
      m'.freelist = (if doFree then freedPages m root va npages else []) ++ m.freelist := by
  have aligned : va % PGSIZE = 0 := by
    by_contra bad
    rw [uvmunmap, if_pos bad] at run
    cases run
  rw [uvmunmap, if_neg (not_not.mpr aligned), Nat.mod_eq_of_lt fits] at run
  obtain ⟨tree', -, tables, look, list⟩ := unmapLoop_spec doFree fits npages va tree aligned rfl notTables run
  refine ⟨aligned, tree', tables, fun b hb => ?_, list⟩
  by_cases above : MAXVA ≤ b
  · simp only [pageMap, if_pos above, ite_self]
  · simp only [pageMap, if_neg above, look b hb (Nat.lt_of_not_le above)]
    split_ifs <;> rfl

/-! ## Page-table updates are local -/

theorem page_table_updates_local {m : Phys} {root : Nat} (tree : Tree m root) (fresh : Fresh m root) :
    (∀ va r m', walk m root va false = .ok (r, m') → m' = m) ∧
    (∀ va r m', walk m root va true = .ok (r, m') →
      Grows m m' root ∧ ∀ t, table0 m root (PX 2 va) (PX 1 va) = some t → r = some (t + 8 * PX 0 va) ∧ m' = m) ∧
    (∀ va size pa perm m' code, pa % PGSIZE = 0 → perm < 1024 → size < 2 ^ 64 → pa < 2 ^ 64 →
      mappages m root va size pa perm = .ok (code, m') →
      Tree m' root ∧
        ((code = 0 ∧ ∀ b, b % PGSIZE = 0 → pageMap m' root b =
            if va ≤ b ∧ b < va + size then some ((pa + (b - va)) % 2 ^ 64, perm ||| PTE_V) else pageMap m root b) ∨
          (code = -1 ∧ m'.freelist = [] ∧ ∃ n, n < size / PGSIZE ∧ ∀ b, b % PGSIZE = 0 → pageMap m' root b =
            if va ≤ b ∧ b < va + n * PGSIZE then some ((pa + (b - va)) % 2 ^ 64, perm ||| PTE_V)
            else pageMap m root b))) ∧
    (∀ va npages doFree m', va + npages * PGSIZE < 2 ^ 64 →
      (doFree = true → ∀ k, k < npages → ∀ e, lookup m root (va + k * PGSIZE) = some e →
        ¬IsTable m root (PTE2PA e)) →
      uvmunmap m root va npages doFree = .ok m' →
      Tree m' root ∧
        (∀ b, b % PGSIZE = 0 →
          pageMap m' root b = if va ≤ b ∧ b < va + npages * PGSIZE then none else pageMap m root b) ∧
        m'.freelist = (if doFree then freedPages m root va npages else []) ++ m.freelist) := by
  refine ⟨fun va r m' run => ?_, fun va r m' run => ?_,
    fun va size pa perm m' code paAligned flags sizeFits paFits run => ?_, fun va npages doFree m' fits notTables run => ?_⟩
  · -- `walk` without `alloc`
    by_cases below : va < MAXVA
    · rw [walk_false root below, Except.ok.injEq, Prod.mk.injEq] at run
      exact run.2.symm
    · rw [walk, if_pos (Nat.le_of_not_lt below)] at run
      cases run
  · -- `walk` with `alloc`
    by_cases below : va < MAXVA
    · obtain ⟨r₀, m₀, walked, grows, -, -, -, -⟩ := walk_true tree fresh below
      rw [walked, Except.ok.injEq, Prod.mk.injEq] at run
      obtain ⟨rfl, rfl⟩ := run
      refine ⟨grows, fun t found => ?_⟩
      rw [walk_present root true below found, Except.ok.injEq, Prod.mk.injEq] at walked
      exact ⟨walked.1.symm, walked.2.symm⟩
    · rw [walk, if_pos (Nat.le_of_not_lt below)] at run
      cases run
  · obtain ⟨vaAligned, sizeAligned, -, -, tree', -, n, -, inside, result, maps⟩ :=
      mappages_spec flags tree fresh paAligned ⟨sizeFits, paFits⟩ run
    have view := maps.pageMap vaAligned paAligned flags inside
    refine ⟨tree', ?_⟩
    rcases result with ⟨rfl, rfl⟩ | ⟨rfl, early, empty⟩
    · refine .inl ⟨rfl, fun b hb => ?_⟩
      rw [view b hb, Nat.div_mul_cancel (Nat.dvd_of_mod_eq_zero sizeAligned)]
    · exact .inr ⟨rfl, empty, n, early, view⟩
  · obtain ⟨-, tree', -, view, list⟩ := uvmunmap_spec tree fits notTables run
    exact ⟨tree', view, list⟩

/-- Memory with every byte zero and the pages `free` on the free list: a root
page there is an empty tree. -/
def zeroPhys (free : List Nat) : Phys := ⟨fun _ _ => 0, free, 0⟩

theorem entry_zeroPhys (free : List Nat) (t i : Nat) : entry (zeroPhys free) t i = none := by
  have zero : (zeroPhys free).pte (t + 8 * i) = 0 := field_zero _ 8
  simp only [entry, zero, Nat.zero_and, ne_eq, not_true_eq_false, if_false]

theorem isTable_zeroPhys (free : List Nat) (root p : Nat) : IsTable (zeroPhys free) root p ↔ p = root := by
  simp only [IsTable, table0, table1, entry_zeroPhys, Option.map_none, Option.bind_none, reduceCtorEq, and_false,
    exists_const, or_false]

theorem zeroPhys_tree (free : List Nat) {root : Nat} (aligned : root % PGSIZE = 0) : Tree (zeroPhys free) root := by
  have none1 : ∀ i, table1 (zeroPhys free) root i = none := fun i => by
    simp only [table1, entry_zeroPhys, Option.map_none]
  have none0 : ∀ i j, table0 (zeroPhys free) root i j = none := fun i j => by
    simp only [table0, none1, Option.bind_none]
  refine ⟨aligned, fun _ found => ?_, fun _ _ found => ?_, fun _ _ found => ?_, fun _ _ _ found => ?_,
    fun _ _ _ _ found => ?_⟩ <;> simp only [none1, none0, reduceCtorEq] at found

theorem page_table_updates_one_page :
    Tree (zeroPhys [8192, 12288]) 4096 ∧ Fresh (zeroPhys [8192, 12288]) 4096 ∧
      ∃ m', mappages (zeroPhys [8192, 12288]) 4096 0 4096 20480 (PTE_R ||| PTE_W) = .ok (0, m') ∧
        pageMap m' 4096 0 = some (20480, PTE_R ||| PTE_W ||| PTE_V) := by
  have tree : Tree (zeroPhys [8192, 12288]) 4096 := zeroPhys_tree _ (by decide)
  have fresh : Fresh (zeroPhys [8192, 12288]) 4096 :=
    ⟨by decide, by decide, fun p mem => by rw [isTable_zeroPhys]; revert p; decide⟩
  obtain ⟨m', run⟩ : ∃ m', mappages (zeroPhys [8192, 12288]) 4096 0 4096 20480 (PTE_R ||| PTE_W) = .ok (0, m') :=
    ⟨_, rfl⟩
  obtain ⟨-, ⟨-, mapped⟩ | ⟨bad, -⟩⟩ :=
    (page_table_updates_local tree fresh).2.2.1 0 4096 20480 (PTE_R ||| PTE_W) m' 0 (by decide) (by decide) (by decide)
      (by decide) run
  · refine ⟨tree, fresh, m', run, ?_⟩
    rw [mapped 0 (by decide), if_pos (by decide)]
    rfl
  · cases bad

end Paging

end Xv6
