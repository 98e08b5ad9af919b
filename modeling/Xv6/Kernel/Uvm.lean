import Xv6.Kernel.PageTable

/-!
# Kernel.Uvm -- growing and shrinking a process's memory

`uvmalloc` maps a fresh zeroed page for each page from `PGROUNDUP(oldsz)` up
to `newsz`, and undoes what it mapped with `uvmdealloc` when `kalloc` or
`mappages` fails; `uvmdealloc` unmaps and frees the whole pages above the new
size; `growproc(n)` calls the one or the other at `sz + n`.

Nothing on this path compares the new size with `TRAPFRAME`.  A process that
has grown to the page below it maps that page and then, at `TRAPFRAME`,
finds the trapframe's leaf, and `mappages` panics
(`growproc_remaps_trapframe`).  The one step that proof needs from the page
table is `mappages_page`: one page over a level-0 table that is there.
-/

namespace Xv6
namespace Paging

open Bytes

set_option autoImplicit false

/-! ## vm.c and proc.c -/

/-- `uvmdealloc(pagetable, oldsz, newsz)`: the new size.  The page count is
an `int`, which `uvmunmap` gets as a `uint64`. -/
def uvmdealloc (m : Phys) (pagetable oldsz newsz : Nat) : Except String (Nat × Phys) :=
  if newsz ≥ oldsz then .ok (oldsz, m)
  else if PGROUNDUP newsz < PGROUNDUP oldsz then do
    let npages := signed 4 ((PGROUNDUP oldsz - PGROUNDUP newsz) / PGSIZE % 2 ^ 32)
    let m ← uvmunmap m pagetable (PGROUNDUP newsz) (unsigned 8 npages) true
    pure (newsz, m)
  else .ok (newsz, m)

/-- The loop of `uvmalloc` at page `a`, with `rounded` for `PGROUNDUP(oldsz)`.
`fuel` counts its passes: one for each page from `rounded` below `newsz`, of
which there are at most `newsz / PGSIZE + 1`, and one that stops. -/
def uvmallocLoop (pagetable rounded newsz xperm : Nat) : (fuel a : Nat) → Phys → Except String (Nat × Phys)
  | 0, _, _ => .error "out of fuel"
  | fuel + 1, a, m =>
      if a < newsz then
        match kalloc m with
        | none => do
            let (_, m) ← uvmdealloc m pagetable a rounded
            pure (0, m)
        | some (mem, m) => do
            let m := m.memset mem 0
            let (r, m) ← mappages m pagetable a PGSIZE mem (PTE_R ||| PTE_U ||| xperm)
            if r ≠ 0 then
              let m ← kfree m mem
              let (_, m) ← uvmdealloc m pagetable a rounded
              pure (0, m)
            else uvmallocLoop pagetable rounded newsz xperm fuel ((a + PGSIZE) % 2 ^ 64) m
      else .ok (newsz, m)

/-- `uvmalloc(pagetable, oldsz, newsz, xperm)`: the new size, or 0. -/
def uvmalloc (m : Phys) (pagetable oldsz newsz xperm : Nat) : Except String (Nat × Phys) :=
  if newsz < oldsz then .ok (oldsz, m)
  else uvmallocLoop pagetable (PGROUNDUP oldsz) newsz xperm (newsz / PGSIZE + 2) (PGROUNDUP oldsz) m

/-- `growproc(n)` for a process of size `sz`: 0 and the new size, or -1 and
the old one. -/
def growproc (m : Phys) (pagetable sz : Nat) (n : Int) : Except String (Int × Nat × Phys) :=
  if 0 < n then do
    let (sz', m) ← uvmalloc m pagetable sz ((sz + n.toNat) % 2 ^ 64) PTE_W
    if sz' = 0 then pure (-1, sz, m) else pure (0, sz', m)
  else if n < 0 then do
    let (sz', m) ← uvmdealloc m pagetable sz ((sz + unsigned 8 n) % 2 ^ 64)
    pure (0, sz', m)
  else pure (0, sz, m)

/-! ## One page -/

section Steps

variable {m : Phys} {root : Nat}

theorem setPte_freelist (a v : Nat) : (m.setPte a v).freelist = m.freelist := rfl

/-- A page `kalloc` took and its caller zeroed: the tree, its tables and its
map are as they were, and the free list is the rest. -/
theorem zeroTaken (tree : Tree m root) (fresh : Fresh m root) {p : Nat} {rest : List Nat}
    (free : m.freelist = p :: rest) :
    let m' := ({ m.memset p 0 with freelist := rest } : Phys)
    (∀ i j, i < 512 → j < 512 → table0 m' root i j = table0 m root i j) ∧ (∀ va, lookup m' root va = lookup m root va) ∧
      Tree m' root ∧ Fresh m' root := by
  intro m'
  have same : ∀ t, IsTable m root t → m'.page (t / PGSIZE) = m.page (t / PGSIZE) := fun t table =>
    m.memset_page_of_ne 0 (fresh.head_ne tree free table)
  obtain ⟨one, zero, looked⟩ := view_of_tables tree same
  refine ⟨zero, looked, tree.congr one zero, fresh.tail free rfl fun t table => .inl ?_⟩
  exact (isTable_congr one zero t).mp table

/-- `mappages` of one page whose level-0 table is there: the leaf store when
the page is not mapped, and the remap panic when it is. -/
theorem mappages_page {va t pa perm : Nat} (aligned : va % PGSIZE = 0) (below : va < MAXVA)
    (found : table0 m root (PX 2 va) (PX 1 va) = some t) :
    mappages m root va PGSIZE pa perm =
      if lookup m root va = none then .ok (0, m.setPte (t + 8 * PX 0 va) (PA2PTE pa ||| perm ||| PTE_V))
      else .error "mappages: remap" := by
  have last : (va + PGSIZE - PGSIZE) % 2 ^ 64 = va := by
    rw [MAXVA_eq] at below
    rw [Nat.add_sub_cancel, Nat.mod_eq_of_lt (by omega)]
  have leaf : lookup m root va = entry m t (PX 0 va) := by
    simp only [lookup, found, Option.bind_some]
  have one : PGSIZE / PGSIZE = 0 + 1 := rfl
  rw [mappages, if_neg (by omega), if_neg (by decide), if_neg (by decide), last, one]
  rw [mapLoop, walk_present root true below found, leaf]
  simp only [entry]
  by_cases valid : m.pte (t + 8 * PX 0 va) &&& PTE_V ≠ 0
  · simp only [if_pos valid, reduceCtorEq, if_false]
  · simp only [if_neg valid, if_true]

/-- A pass of `uvmalloc`'s loop that `kalloc` serves and `mappages` maps: the
loop goes on at the next page. -/
theorem uvmallocLoop_mapped {pagetable rounded newsz xperm fuel a p : Nat} {rest : List Nat} {m' : Phys}
    (below : a < newsz) (free : m.freelist = p :: rest)
    (mapped : mappages { m.memset p 0 with freelist := rest } pagetable a PGSIZE p (PTE_R ||| PTE_U ||| xperm) =
      .ok (0, m')) :
    uvmallocLoop pagetable rounded newsz xperm (fuel + 1) a m =
      uvmallocLoop pagetable rounded newsz xperm fuel ((a + PGSIZE) % 2 ^ 64) m' := by
  rw [uvmallocLoop, if_pos below, kalloc_of_cons free]
  simp only [memset_taken, mapped]
  rfl

/-- A pass where `mappages` panics: the loop panics. -/
theorem uvmallocLoop_panics {pagetable rounded newsz xperm fuel a p : Nat} {rest : List Nat} {e : String}
    (below : a < newsz) (free : m.freelist = p :: rest)
    (failed : mappages { m.memset p 0 with freelist := rest } pagetable a PGSIZE p (PTE_R ||| PTE_U ||| xperm) =
      .error e) :
    uvmallocLoop pagetable rounded newsz xperm (fuel + 1) a m = .error e := by
  rw [uvmallocLoop, if_pos below, kalloc_of_cons free]
  simp only [memset_taken, failed]
  rfl

end Steps

/-! ## No bound below the trapframe -/

/-- The page below the trapframe shares its level-0 table. -/
theorem PX_below_trapframe :
    PX 2 (TRAPFRAME - PGSIZE) = PX 2 TRAPFRAME ∧ PX 1 (TRAPFRAME - PGSIZE) = PX 1 TRAPFRAME ∧
      PX 0 (TRAPFRAME - PGSIZE) ≠ PX 0 TRAPFRAME := by
  decide

/-- A process whose size has reached the page below `TRAPFRAME`, with its
trapframe mapped, that page not mapped, and two free pages: `sbrk(8192)`
maps the page below and then reaches the trapframe's leaf, and `mappages`
panics. -/
theorem growproc_remaps_trapframe {m : Phys} {root p₁ p₂ : Nat} {rest : List Nat} (tree : Tree m root)
    (fresh : Fresh m root) (free : m.freelist = p₁ :: p₂ :: rest) (trapframe : lookup m root TRAPFRAME ≠ none)
    (unmapped : lookup m root (TRAPFRAME - PGSIZE) = none) :
    growproc m root (TRAPFRAME - PGSIZE) 8192 = .error "mappages: remap" := by
  obtain ⟨same2, same1, differ0⟩ := PX_below_trapframe
  -- the trapframe's level-0 table, which the page below shares
  obtain ⟨t, found⟩ : ∃ t, table0 m root (PX 2 TRAPFRAME) (PX 1 TRAPFRAME) = some t := by
    rcases h : table0 m root (PX 2 TRAPFRAME) (PX 1 TRAPFRAME) with _ | t
    · exact absurd (by simp only [lookup, h, Option.bind_none]) trapframe
    · exact ⟨t, rfl⟩
  -- the first page: `kalloc` takes `p₁`, and the store maps the page below
  obtain ⟨zero₁, looked₁, tree₁, fresh₁⟩ := zeroTaken tree fresh free
  set m₁ : Phys := { m.memset p₁ 0 with freelist := p₂ :: rest } with m₁_def
  have found₁ : table0 m₁ root (PX 2 (TRAPFRAME - PGSIZE)) (PX 1 (TRAPFRAME - PGSIZE)) = some t := by
    rw [same2, same1, zero₁ _ _ (PX_lt 2 _) (PX_lt 1 _), found]
  set m₂ := m₁.setPte (t + 8 * PX 0 (TRAPFRAME - PGSIZE)) (PA2PTE p₁ ||| (PTE_R ||| PTE_U ||| PTE_W) ||| PTE_V)
    with m₂_def
  have first : mappages m₁ root (TRAPFRAME - PGSIZE) PGSIZE p₁ (PTE_R ||| PTE_U ||| PTE_W) = .ok (0, m₂) := by
    rw [mappages_page (by decide) (by decide) found₁, if_pos (by rw [looked₁]; exact unmapped)]
  obtain ⟨-, zero₂, -, looked₂⟩ := setLeaf tree₁ _ found₁
  obtain ⟨-, tree₂, fresh₂⟩ := setLeaf_frames tree₁ _ found₁
  -- the second page: `kalloc` takes `p₂`, and the trapframe is still mapped
  obtain ⟨zero₃, looked₃, -, -⟩ := zeroTaken tree₂ (fresh₂ fresh₁) (show m₂.freelist = p₂ :: rest from rfl)
  have found₃ : table0 { m₂.memset p₂ 0 with freelist := rest } root (PX 2 TRAPFRAME) (PX 1 TRAPFRAME) = some t := by
    rw [zero₃ _ _ (PX_lt 2 _) (PX_lt 1 _), zero₂ _ _ (PX_lt 2 _) (PX_lt 1 _), zero₁ _ _ (PX_lt 2 _) (PX_lt 1 _), found]
  have stillMapped : lookup { m₂.memset p₂ 0 with freelist := rest } root TRAPFRAME ≠ none := by
    rw [looked₃, looked₂, if_neg (fun h => differ0 h.2.2.symm), looked₁]
    exact trapframe
  have second : mappages { m₂.memset p₂ 0 with freelist := rest } root TRAPFRAME PGSIZE p₂ (PTE_R ||| PTE_U ||| PTE_W) =
      .error "mappages: remap" := by
    rw [mappages_page (by decide) (by decide) found₃, if_neg stillMapped]
  -- the loop runs the two pages and stops at the panic
  have size : ((TRAPFRAME - PGSIZE + (8192 : Int).toNat) % 2 ^ 64) = TRAPFRAME + PGSIZE := by decide
  have rounded : PGROUNDUP (TRAPFRAME - PGSIZE) = TRAPFRAME - PGSIZE := by decide
  have next : (TRAPFRAME - PGSIZE + PGSIZE) % 2 ^ 64 = TRAPFRAME := by decide
  have hfuel : (TRAPFRAME + PGSIZE) / PGSIZE + 2 = 2 ^ 26 - 1 + 1 + 1 := by decide
  rw [growproc, if_pos (by decide), size]
  simp only [uvmalloc, if_neg (show ¬TRAPFRAME + PGSIZE < TRAPFRAME - PGSIZE by decide), rounded, hfuel]
  rw [uvmallocLoop_mapped (by decide) free first, next,
    uvmallocLoop_panics (by decide) (show m₂.freelist = p₂ :: rest from rfl) second]
  rfl

/-- A page table as `proc_pagetable` leaves it, the trapframe at 24576: the
root at 4096, the two tables `mappages` took from the free list, and two free
pages left. -/
def trapframePhys : Phys :=
  match mappages (zeroPhys [8192, 12288, 16384, 20480]) 4096 TRAPFRAME PGSIZE 24576 (PTE_R ||| PTE_W) with
  | .ok (_, m) => m
  | .error _ => zeroPhys []

theorem trapframePhys_tree : Tree trapframePhys 4096 ∧ Fresh trapframePhys 4096 := by
  have tree : Tree (zeroPhys [8192, 12288, 16384, 20480]) 4096 := zeroPhys_tree _ (by decide)
  have fresh : Fresh (zeroPhys [8192, 12288, 16384, 20480]) 4096 :=
    ⟨by decide, by decide, fun p mem => by rw [isTable_zeroPhys]; revert p; decide⟩
  have run : mappages (zeroPhys [8192, 12288, 16384, 20480]) 4096 TRAPFRAME PGSIZE 24576 (PTE_R ||| PTE_W) =
      .ok (0, trapframePhys) := rfl
  obtain ⟨-, -, -, -, tree', fresh', -⟩ := mappages_spec (by decide) tree fresh (by decide) (by decide) run
  exact ⟨tree', fresh'⟩

/-- That page table with the process grown to the page below the trapframe. -/
theorem growproc_remaps_trapframe_run :
    trapframePhys.freelist = [16384, 20480] ∧ lookup trapframePhys 4096 TRAPFRAME ≠ none ∧
      lookup trapframePhys 4096 (TRAPFRAME - PGSIZE) = none ∧
      growproc trapframePhys 4096 (TRAPFRAME - PGSIZE) 8192 = .error "mappages: remap" := by
  have free : trapframePhys.freelist = [16384, 20480] := rfl
  have mapped : lookup trapframePhys 4096 TRAPFRAME ≠ none := by decide
  have unmapped : lookup trapframePhys 4096 (TRAPFRAME - PGSIZE) = none := by decide
  exact ⟨free, mapped, unmapped,
    growproc_remaps_trapframe trapframePhys_tree.1 trapframePhys_tree.2 free mapped unmapped⟩

end Paging
end Xv6
