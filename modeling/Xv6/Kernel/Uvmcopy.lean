/-
# Kernel.Uvmcopy -- uvmcopy: fork's copy of a process's memory

`uvmcopy(old, new, sz)` walks the parent's page table `old` page by page below
`sz`; for each leaf it takes a page from `kalloc`, copies the parent's page
into it, and maps it in the child's table `new` at the same address with the
same flags.  When `kalloc` or `mappages` runs out of pages it unmaps and frees
the pages it mapped so far and returns -1.

Both tables live in one physical memory, so the proof has to keep the
parent's pages apart from everything the copy writes.  `walk` with `alloc`
enters only pages from the free list as new tables (`walk_only_taken`), so
the child's tables are its own and the free list's (`OnlyTaken`).  Together
with what `Kernel.PageTable` says of `walk` and the leaf store, that carries
`Copied` from page to page: the parent's tables and pages are as they were,
every page copied so far is mapped in the child to a page taken from the free
list that holds the parent's bytes, and every page taken from the free list is
a table of the child or such a copy.

`uvmcopy_copies`: when the parent maps every page below `sz`, the child maps
none of them, and the two trees and the free list are apart, `uvmcopy`
returns.  It returns 0 with the child mapping each page to a copy with the
parent's flags and bytes, or -1 with the child mapping what it mapped before
and every page it took from the free list back there or a table of the child.
The parent's map and bytes are unchanged either way.
-/
import Xv6.Kernel.PageTable

namespace Xv6

namespace Paging

open Bytes

set_option autoImplicit false

/-! ## The tables `walk` enters -/

/-- Every table of the tree in `m'` is one of `m`, or a page of `m`'s free list. -/
def OnlyTaken (m m' : Phys) (root : Nat) : Prop := ∀ t, IsTable m' root t → IsTable m root t ∨ t ∈ m.freelist

section Taken

variable {m m₁ m₂ : Phys} {root : Nat}

theorem OnlyTaken.refl (m : Phys) (root : Nat) : OnlyTaken m m root := fun _ table => .inl table

/-- Two steps that take pages from the free list take pages from the first
free list. -/
theorem OnlyTaken.trans (first : OnlyTaken m m₁ root) (second : OnlyTaken m₁ m₂ root)
    (shrinks : ∀ p ∈ m₁.freelist, p ∈ m.freelist) : OnlyTaken m m₂ root := fun t table => by
  rcases second t table with old | taken
  · exact first t old
  · exact .inr (shrinks t taken)

theorem Frames.shrinks {m m' : Phys} {root : Nat} (frames : Frames m m' root) : ∀ p ∈ m'.freelist, p ∈ m.freelist := by
  obtain ⟨k, list⟩ := frames.taken
  intro p mem
  rw [list] at mem
  exact List.mem_of_mem_drop mem

/-- Memory with the same tables of the tree. -/
theorem OnlyTaken.of_tables (one : ∀ i, i < 512 → table1 m₁ root i = table1 m root i)
    (zero : ∀ i j, i < 512 → j < 512 → table0 m₁ root i j = table0 m root i j) : OnlyTaken m m₁ root :=
  fun t table => .inl ((isTable_congr one zero t).mp table)

end Taken

/-- Two slots of aligned tables are the same slot exactly when the tables and
the indices are. -/
theorem slot_eq_iff {t T k j : Nat} (ht : t % PGSIZE = 0) (hT : T % PGSIZE = 0) (hk : k < 512) (hj : j < 512) :
    t + 8 * k = T + 8 * j ↔ t = T ∧ k = j := by
  unfold PGSIZE at ht hT
  omega

/-- An entry after a store to slot `j` of the table `T`. -/
theorem entry_store (m : Phys) {T j t k : Nat} (v : Nat) (hT : T % PGSIZE = 0) (ht : t % PGSIZE = 0) (hj : j < 512)
    (hk : k < 512) :
    entry (m.setPte (T + 8 * j) v) t k =
      if t = T ∧ k = j then (if v % 2 ^ 64 % 2 = 1 then some (v % 2 ^ 64) else none) else entry m t k := by
  by_cases here : t = T ∧ k = j
  · obtain ⟨rfl, rfl⟩ := here
    rw [if_pos ⟨rfl, rfl⟩]
    exact entry_setPte_self v ht
  · rw [if_neg here]
    exact entry_setPte_of_ne v (slot_aligned hT) ht fun same => here ((slot_eq_iff ht hT hk hj).mp same)

section Enter

variable {m : Phys} {root : Nat} (tree : Tree m root)

include tree in
/-- Entering the page `p`, with no valid entry, at slot `j` of a table `T` of
the tree adds `p` to the tables and no other page. -/
theorem tables_enter {T j p : Nat} (table : IsTable m root T) (hj : j < 512) (pAligned : p % PGSIZE = 0)
    (pFits : p < 2 ^ 64) (apart : T ≠ p) (empty : ∀ k, k < 512 → entry m p k = none) (t : Nat)
    (entered : IsTable (m.setPte (T + 8 * j) (PA2PTE p ||| PTE_V)) root t) : IsTable m root t ∨ t = p := by
  obtain ⟨vFits, vValid, vPoints⟩ := table_pte pAligned pFits
  have TAligned := table.aligned tree
  -- every entry but slot `j` of `T` reads as before; that one points at `p`
  have entries : ∀ t' k, t' % PGSIZE = 0 → k < 512 →
      entry (m.setPte (T + 8 * j) (PA2PTE p ||| PTE_V)) t' k =
        if t' = T ∧ k = j then some (PA2PTE p ||| PTE_V) else entry m t' k := fun t' k ht' hk => by
    rw [entry_store m _ TAligned ht' hj hk, vFits, if_pos vValid]
  rcases entered with rfl | ⟨i, hi, found⟩ | ⟨i, hi, k, hk, found⟩
  · exact .inl (.inl rfl)
  · simp only [table1, entries root i tree.aligned hi] at found
    split at found
    · simp only [Option.map_some, vPoints, Option.some.injEq] at found
      exact .inr found.symm
    · exact .inl (.inr (.inl ⟨i, hi, found⟩))
  · simp only [table0, table1, entries root i tree.aligned hi, Option.bind_eq_some_iff] at found
    obtain ⟨t1, parent, leaf⟩ := found
    split at parent
    · -- through `p` itself, whose entries are all invalid
      simp only [Option.map_some, vPoints, Option.some.injEq] at parent
      subst parent
      rw [entries p k pAligned hk, if_neg fun same => apart same.1.symm, empty k hk] at leaf
      cases leaf
    · have t1Table : table1 m root i = some t1 := parent
      rw [entries t1 k (table1_aligned t1Table) hk] at leaf
      split at leaf
      · simp only [Option.map_some, vPoints, Option.some.injEq] at leaf
        exact .inr leaf.symm
      · exact .inl (.inr (.inr ⟨i, hi, k, hk, by simp only [table0, t1Table, Option.bind_some, leaf]⟩))

end Enter

section WalkTaken

variable {m : Phys} {root : Nat} (tree : Tree m root) (fresh : Fresh m root)

include tree fresh in
/-- One level of `walk` with `alloc` from a table `T` of the tree: the page it
enters, if any, comes from the free list. -/
theorem walkLevel_only_taken {T : Nat} (table : IsTable m root T) (va level : Nat) {r : Option Nat} {m' : Phys}
    (run : walkLevel m T va true level = (r, m')) :
    OnlyTaken m m' root ∧ ∀ p ∈ m'.freelist, p ∈ m.freelist := by
  rcases found : entry m T (PX level va) with _ | e
  · rcases free : m.freelist with _ | ⟨p, rest⟩
    · rw [(walkLevel_missing found).2.1 free, Prod.mk.injEq] at run
      obtain ⟨-, rfl⟩ := run
      exact ⟨OnlyTaken.refl m root, fun _ mem => by rwa [free] at mem⟩
    · rw [(walkLevel_missing found).2.2 free, Prod.mk.injEq] at run
      obtain ⟨-, rfl⟩ := run
      obtain ⟨pAligned, pFits, pNotTable⟩ := fresh.head free
      -- zeroing `p`, which is no table, keeps the tables
      have same : ∀ t, IsTable m root t →
          ({ m.memset p 0 with freelist := rest } : Phys).page (t / PGSIZE) = m.page (t / PGSIZE) :=
        fun t table' => m.memset_page_of_ne 0 (fresh.head_ne tree free table')
      obtain ⟨one, zero, -⟩ := view_of_tables tree same
      have zeroed : ∀ k, k < 512 → entry ({ m.memset p 0 with freelist := rest } : Phys) p k = none :=
        fun k hk => entry_memset_zero pAligned hk rfl
      have tableT := (isTable_congr one zero T).mpr table
      have apart : T ≠ p := fun same => pNotTable (same ▸ table)
      refine ⟨fun t entered => ?_, fun q mem => List.mem_cons_of_mem p mem⟩
      rcases tables_enter (tree.congr one zero) tableT (PX_lt level va) pAligned pFits apart zeroed t entered with
        old | rfl
      · exact .inl ((isTable_congr one zero t).mp old)
      · exact .inr (by rw [free]; exact List.mem_cons_self)
  · rw [walkLevel_present true found, Prod.mk.injEq] at run
    obtain ⟨-, rfl⟩ := run
    exact ⟨OnlyTaken.refl m root, fun _ mem => mem⟩

include tree fresh in
/-- `walk` with `alloc` enters only pages from the free list as tables. -/
theorem walk_only_taken {va : Nat} {r : Option Nat} {m' : Phys} (run : walk m root va true = .ok (r, m')) :
    OnlyTaken m m' root := by
  have below : va < MAXVA := by
    by_contra above
    rw [walk, if_pos (Nat.le_of_not_lt above)] at run
    cases run
  obtain ⟨r₁, m₁, level₁, found₁, -, grows₁, tree₁, fresh₁⟩ := walkLevel_root tree fresh va
  obtain ⟨taken₁, shrinks₁⟩ := walkLevel_only_taken tree fresh (.inl rfl) va 2 level₁
  rcases r₁ with _ | t1
  · simp only [walk, if_neg (Nat.not_le.mpr below), level₁, Except.ok.injEq, Prod.mk.injEq] at run
    obtain ⟨-, rfl⟩ := run
    exact taken₁
  · rcases level₂ : walkLevel m₁ t1 va true 1 with ⟨r₂, m₂⟩
    obtain ⟨taken₂, -⟩ :=
      walkLevel_only_taken tree₁ fresh₁ (.inr (.inl ⟨_, PX_lt 2 va, found₁⟩)) va 1 level₂
    have done : m' = m₂ := by
      rcases r₂ with _ | t0 <;>
        simp only [walk, if_neg (Nat.not_le.mpr below), level₁, level₂, Except.ok.injEq, Prod.mk.injEq] at run <;>
        exact run.2.symm
    subst done
    exact taken₁.trans taken₂ shrinks₁

end WalkTaken

/-! ## vm.c -/

/-- `memmove(mem, (char*)pa, PGSIZE)` in `uvmcopy`: `pa` is a leaf's page and
`mem` a page from `kalloc`, both whole pages, so the move copies the one page
onto the other. -/
def Phys.copyPage (m : Phys) (mem pa : Nat) : Phys :=
  { m with page := Function.update m.page (mem / PGSIZE) (m.page (pa / PGSIZE)) }

/-- The loop of `uvmcopy` at page `i`: `none` once every page below `sz` is
copied, `some i` at the `goto err` of page `i`.  `fuel` is the number of pages,
which the loop never outruns. -/
def copyLoop (old new sz : Nat) : (fuel i : Nat) → Phys → Except String (Option Nat × Phys)
  | 0, _, m => .ok (none, m)
  | fuel + 1, i, m =>
      if i < sz then
        match walk m old i false with
        | .error e => .error e
        | .ok (none, _) => .error "uvmcopy: pte should exist"
        | .ok (some pte, m) =>
            if m.pte pte &&& PTE_V = 0 then .error "uvmcopy: page not present"
            else
              let pa := PTE2PA (m.pte pte)
              let flags := PTE_FLAGS (m.pte pte)
              match kalloc m with
              | none => .ok (some i, m)
              | some (mem, m) =>
                  let m := m.copyPage mem pa
                  match mappages m new i PGSIZE mem flags with
                  | .error e => .error e
                  | .ok (r, m) =>
                      if r ≠ 0 then
                        match kfree m mem with
                        | .error e => .error e
                        | .ok m => .ok (some i, m)
                      else copyLoop old new sz fuel ((i + PGSIZE) % 2 ^ 64) m
      else .ok (none, m)

/-- `uvmcopy(old, new, sz)`: 0, or -1 once the pages mapped so far are
unmapped and freed. -/
def uvmcopy (m : Phys) (old new sz : Nat) : Except String (Int × Phys) :=
  match copyLoop old new sz ((sz + PGSIZE - 1) / PGSIZE) 0 m with
  | .error e => .error e
  | .ok (none, m) => .ok (0, m)
  | .ok (some i, m) =>
      match uvmunmap m new 0 (i / PGSIZE) true with
      | .error e => .error e
      | .ok m => .ok (-1, m)

namespace Phys

variable (m : Phys)

@[simp] theorem copyPage_freelist (mem pa : Nat) : (m.copyPage mem pa).freelist = m.freelist := rfl
@[simp] theorem copyPage_kernEnd (mem pa : Nat) : (m.copyPage mem pa).kernEnd = m.kernEnd := rfl

theorem copyPage_page_of_ne {mem q : Nat} (pa : Nat) (ne : q ≠ mem / PGSIZE) : (m.copyPage mem pa).page q = m.page q := by
  simp [copyPage, ne]

theorem copyPage_page_self (mem pa : Nat) : (m.copyPage mem pa).page (mem / PGSIZE) = m.page (pa / PGSIZE) := by
  simp [copyPage]

end Phys

/-! ## One page of `mappages` -/

theorem kalloc_kernEnd {m m' : Phys} {p : Nat} (taken : kalloc m = some (p, m')) : m'.kernEnd = m.kernEnd := by
  unfold kalloc at taken
  split at taken
  · cases taken
  · cases taken
    rfl

theorem walkLevel_kernEnd (m : Phys) (t va : Nat) (alloc : Bool) (level : Nat) :
    (walkLevel m t va alloc level).2.kernEnd = m.kernEnd := by
  unfold walkLevel
  dsimp only
  split_ifs
  · rfl
  · rfl
  · rcases taken : kalloc m with _ | ⟨p, m₁⟩
    · rfl
    · dsimp only
      rw [Phys.setPte_kernEnd, Phys.memset_kernEnd]
      exact kalloc_kernEnd taken

theorem walk_kernEnd {m m' : Phys} {root va : Nat} {alloc : Bool} {r : Option Nat}
    (run : walk m root va alloc = .ok (r, m')) : m'.kernEnd = m.kernEnd := by
  have levels := walkLevel_kernEnd m root va alloc 2
  unfold walk at run
  split at run
  · cases run
  · split at run
    · rename_i level
      simp only [Except.ok.injEq, Prod.mk.injEq] at run
      rw [← run.2, ← levels, level]
    · rename_i t1 m₁ level
      have levels₁ := walkLevel_kernEnd m₁ t1 va alloc 1
      rw [level] at levels
      split at run
      · rename_i level₁
        simp only [Except.ok.injEq, Prod.mk.injEq] at run
        rw [← run.2, ← levels, ← levels₁, level₁]
      · rename_i level₁
        simp only [Except.ok.injEq, Prod.mk.injEq] at run
        rw [← run.2, ← levels, ← levels₁, level₁]

/-- `mappages` of one page at an aligned address below `MAXVA`: `walk` with
`alloc`, then the leaf store unless the page is mapped. -/
theorem mappages_one (m : Phys) {root va : Nat} (pa perm : Nat) (aligned : va % PGSIZE = 0) (below : va < MAXVA) :
    mappages m root va PGSIZE pa perm =
      match walk m root va true with
      | .error e => .error e
      | .ok (none, m) => .ok (-1, m)
      | .ok (some pte, m) =>
          if m.pte pte &&& PTE_V ≠ 0 then .error "mappages: remap"
          else .ok (0, m.setPte pte (PA2PTE pa ||| perm ||| PTE_V)) := by
  have last : (va + PGSIZE - PGSIZE) % 2 ^ 64 = va := by
    rw [MAXVA_eq] at below
    rw [Nat.add_sub_cancel, Nat.mod_eq_of_lt (by omega)]
  have one : PGSIZE / PGSIZE = 0 + 1 := rfl
  rw [mappages, if_neg (by omega), if_neg (by decide), if_neg (by decide), last, one, mapLoop]
  rcases walk m root va true with e | ⟨_ | pte, m'⟩
  · rfl
  · rfl
  · simp only [if_true]

section MapOne

variable {m m' : Phys} {root va pa perm : Nat} {code : Int} (tree : Tree m root) (fresh : Fresh m root)

include tree fresh in
/-- One page of `mappages` enters only pages from the free list as tables and
keeps the end of the kernel. -/
theorem mappages_one_taken (aligned : va % PGSIZE = 0) (below : va < MAXVA)
    (run : mappages m root va PGSIZE pa perm = .ok (code, m')) : OnlyTaken m m' root ∧ m'.kernEnd = m.kernEnd := by
  obtain ⟨r, m₁, walked, grows, tree₁, -, -, slot⟩ := walk_true tree fresh below
  have taken := walk_only_taken tree fresh walked
  have kernEnd := walk_kernEnd walked
  rw [mappages_one m pa perm aligned below, walked] at run
  rcases r with _ | s
  · simp only [Except.ok.injEq, Prod.mk.injEq] at run
    obtain ⟨-, rfl⟩ := run
    exact ⟨taken, kernEnd⟩
  · obtain ⟨t, found, rfl⟩ := slot _ rfl
    simp only at run
    split at run
    · cases run
    · simp only [Except.ok.injEq, Prod.mk.injEq] at run
      obtain ⟨-, rfl⟩ := run
      obtain ⟨one, zero, -, -⟩ := setLeaf tree₁ (PA2PTE pa ||| perm ||| PTE_V) found
      exact ⟨taken.trans (OnlyTaken.of_tables one zero) grows.shrinks, kernEnd⟩

include tree fresh in
/-- One page of `mappages` at a page the tree does not map returns. -/
theorem mappages_one_ok (aligned : va % PGSIZE = 0) (below : va < MAXVA) (unmapped : lookup m root va = none) :
    ∃ code m', mappages m root va PGSIZE pa perm = .ok (code, m') := by
  obtain ⟨r, m₁, walked, grows, -, -, -, slot⟩ := walk_true tree fresh below
  rw [mappages_one m pa perm aligned below, walked]
  rcases r with _ | s
  · exact ⟨-1, m₁, rfl⟩
  · obtain ⟨t, found, rfl⟩ := slot _ rfl
    -- the leaf is still invalid: `walk` kept the map
    have invalid : ¬(m₁.pte (t + 8 * PX 0 va) &&& PTE_V ≠ 0) := fun valid => by
      have leaf : lookup m₁ root va = some (m₁.pte (t + 8 * PX 0 va)) := by
        simp only [lookup, found, Option.bind_some, entry, if_pos valid]
      rw [grows.lookup, unmapped] at leaf
      cases leaf
    exact ⟨0, m₁.setPte (t + 8 * PX 0 va) (PA2PTE pa ||| perm ||| PTE_V), by simp only [if_neg invalid]⟩

end MapOne

/-- What `pageMap` reads: a valid leaf below `MAXVA`. -/
theorem pageMap_eq_some {m : Phys} {root va pa flags : Nat} :
    pageMap m root va = some (pa, flags) ↔
      va < MAXVA ∧ ∃ pte, lookup m root va = some pte ∧ PTE2PA pte = pa ∧ PTE_FLAGS pte = flags := by
  unfold pageMap
  by_cases above : MAXVA ≤ va
  · simp only [if_pos above, reduceCtorEq, false_iff, not_and]
    exact fun below => absurd above (Nat.not_le.mpr below)
  · simp only [if_neg above, Option.map_eq_some_iff, Prod.mk.injEq]
    exact ⟨fun found => ⟨Nat.lt_of_not_le above, found⟩, fun found => found.2⟩

/-- A valid leaf's flags have the valid bit. -/
theorem flags_or_valid {pte : Nat} (valid : pte % 2 = 1) : PTE_FLAGS pte ||| PTE_V = PTE_FLAGS pte := by
  have odd : pte % 1024 % 2 = 1 := by omega
  rw [PTE_FLAGS_eq, PTE_V_eq]
  apply Nat.eq_of_testBit_eq
  intro k
  rw [Nat.testBit_or]
  rcases k with _ | k
  · simp [Nat.testBit_zero, odd]
  · rw [Nat.testBit_succ 1, show 1 / 2 = 0 from rfl, Nat.zero_testBit, Bool.or_false]

/-! ## `uvmunmap` of mapped leaves returns -/

/-- A valid leaf: the valid bit is set. -/
theorem lookup_valid {m : Phys} {root va e : Nat} (found : lookup m root va = some e) : e % 2 = 1 := by
  simp only [lookup, Option.bind_eq_some_iff] at found
  obtain ⟨t, -, slot⟩ := found
  unfold entry at slot
  split at slot
  · rename_i valid
    rw [← Option.some.inj slot]
    exact (valid_iff _).mp valid
  · cases slot

theorem pageMap_congr {m m' : Phys} {root va : Nat} (same : lookup m' root va = lookup m root va) :
    pageMap m' root va = pageMap m root va := by
  simp only [pageMap, same]

/-- `lookup` reads only the page of an address. -/
theorem lookup_of_page {m : Phys} {root va va' : Nat} (same : va / PGSIZE = va' / PGSIZE) :
    lookup m root va = lookup m root va' := by
  have px : ∀ level, PX level va = PX level va' := fun level => by
    rw [PX_eq, PX_eq, pow_add, ← Nat.div_div_eq_div_mul, ← Nat.div_div_eq_div_mul]
    exact congrArg (· / 2 ^ (9 * level) % 512) same
  simp only [lookup, px]

/-- The pages `freedPages` reads: the pages of the leaves among its `n`. -/
theorem mem_freedPages {m : Phys} {root p : Nat} : ∀ {a n : Nat},
    p ∈ freedPages m root a n ↔ ∃ k, k < n ∧ ∃ e, lookup m root (a + k * PGSIZE) = some e ∧ PTE2PA e = p
  | _, 0 => by simp [freedPages]
  | a, n + 1 => by
    have shifted : ∀ k, a + (k + 1) * PGSIZE = a + PGSIZE + k * PGSIZE := fun k => by ring
    simp only [freedPages, List.mem_append, mem_freedPages, Option.mem_toList, Option.map_eq_some_iff]
    constructor
    · rintro (⟨k, hk, e, found, rfl⟩ | ⟨e, found, rfl⟩)
      · exact ⟨k + 1, by omega, e, by rw [shifted]; exact found, rfl⟩
      · exact ⟨0, Nat.succ_pos n, e, by rw [Nat.zero_mul, Nat.add_zero]; exact found, rfl⟩
    · rintro ⟨_ | k, hk, e, found, rfl⟩
      · rw [Nat.zero_mul, Nat.add_zero] at found
        exact .inr ⟨e, found, rfl⟩
      · rw [shifted] at found
        exact .inl ⟨k, by omega, e, found, rfl⟩

section UnmapOk

variable {root bound : Nat}

/-- The loop of `uvmunmap` with `do_free` over pages each mapped by a leaf
that is no pointer to a table, to a page `kfree` takes and that is no table:
it returns, keeps the end of the kernel, maps no page that was not mapped,
and writes only the level-0 tables of the tree and the pages it frees. -/
theorem unmapLoop_ok (fuel : Nat) : ∀ (a : Nat) {m : Phys}, Tree m root → a % PGSIZE = 0 →
    bound = a + fuel * PGSIZE → a + fuel * PGSIZE ≤ MAXVA →
    (∀ k, k < fuel → ∃ e, lookup m root (a + k * PGSIZE) = some e ∧ PTE_FLAGS e ≠ PTE_V ∧
      m.kernEnd ≤ PTE2PA e ∧ PTE2PA e < PHYSTOP ∧ ¬IsTable m root (PTE2PA e)) →
    ∃ m', unmapLoop root bound true fuel a m = .ok m' ∧ m'.kernEnd = m.kernEnd ∧
      (∀ b, lookup m root b = none → lookup m' root b = none) ∧ ∀ q, (∀ i j t, i < 512 → j < 512 → table0 m root i j = some t → t / PGSIZE ≠ q) →
        (∀ k e, k < fuel → lookup m root (a + k * PGSIZE) = some e → PTE2PA e / PGSIZE ≠ q) → m'.page q = m.page q := by
  induction fuel with
  | zero =>
    intro a m _ _ _ _ _
    exact ⟨m, rfl, rfl, fun _ missing => missing, fun _ _ _ => rfl⟩
  | succ fuel ih =>
    intro a m tree aligned isBound inside leaves
    rw [Nat.add_mul, Nat.one_mul] at inside
    have lt : a < bound := by
      rw [isBound, Nat.add_mul, Nat.one_mul]
      unfold PGSIZE
      omega
    have below : a < MAXVA := by
      unfold PGSIZE at inside
      omega
    obtain ⟨e, found, leafFlags, above, belowTop, notTable⟩ := leaves 0 (Nat.succ_pos fuel)
    rw [Nat.zero_mul, Nat.add_zero] at found
    have first := found
    simp only [lookup, Option.bind_eq_some_iff] at found
    obtain ⟨t, table, slot⟩ := found
    have valid : m.pte (t + 8 * PX 0 a) &&& PTE_V ≠ 0 := by
      unfold entry at slot
      split at slot
      · assumption
      · cases slot
    have read : m.pte (t + 8 * PX 0 a) = e := by
      simp only [entry, if_pos valid, Option.some.injEq] at slot
      exact slot
    have freed := kfree_eq_ok (PTE2PA_aligned e) above belowTop
    set mf : Phys := { m.memset (PTE2PA e) 1 with freelist := PTE2PA e :: m.freelist } with hmf
    obtain ⟨tree₁, tables₁, look₁, -⟩ := @unmap_page m root tree a t e true mf table (fun _ => notTable)
      (by rw [if_pos rfl]; exact freed)
    -- the free and the store keep the level-0 tables
    have zero₁ : ∀ i j, i < 512 → j < 512 → table0 (mf.setPte (t + 8 * PX 0 a) 0) root i j = table0 m root i j := by
      obtain ⟨-, one, zero, -⟩ := kfree_keeps tree notTable freed
      obtain ⟨-, zero', -, -⟩ := setLeaf (tree.congr one zero) 0 ((zero _ _ (PX_lt 2 a) (PX_lt 1 a)).trans table)
      exact fun i j hi hj => (zero' i j hi hj).trans (zero i j hi hj)
    -- past `a`, the leaves are as they were
    have later : ∀ k, k < fuel → lookup (mf.setPte (t + 8 * PX 0 a) 0) root (a + PGSIZE + k * PGSIZE) =
        lookup m root (a + (k + 1) * PGSIZE) := fun k hk => by
      have belowK : a + PGSIZE + k * PGSIZE < MAXVA := by
        unfold PGSIZE at *
        nlinarith
      have alignedK : (a + PGSIZE + k * PGSIZE) % PGSIZE = 0 := by unfold PGSIZE at *; omega
      rw [look₁, if_neg fun same => by
        have := eq_of_PX aligned alignedK below belowK same
        unfold PGSIZE at this
        omega]
      rw [show a + (k + 1) * PGSIZE = a + PGSIZE + k * PGSIZE by ring]
    have next : (a + PGSIZE) % 2 ^ 64 = a + PGSIZE := by
      rw [MAXVA_eq] at inside
      unfold PGSIZE at *
      omega
    obtain ⟨m', run, kernEnd, noNew, frame⟩ := ih (a + PGSIZE) tree₁ (by unfold PGSIZE at *; omega) (by rw [isBound]; ring)
      (by unfold PGSIZE at *; nlinarith) fun k hk => by
        obtain ⟨e', found', flags', above', belowTop', notTable'⟩ := leaves (k + 1) (by omega)
        exact ⟨e', (later k hk).trans found', flags', above', belowTop', fun table' => notTable' ((tables₁ _).mp table')⟩
    refine ⟨m', ?_, kernEnd, fun b missing => noNew b ?_, fun q outside notFreed => ?_⟩
    · rw [unmapLoop, if_pos lt, walk_false root below, table]
      simp only [Option.map_some, if_neg valid]
      rw [read, if_neg leafFlags, if_pos trivial, freed, next]
      exact run
    · rw [look₁ b, missing, ite_self]
    · -- the rest of the loop writes neither level-0 tables nor pages it frees
      have rest := frame q (fun i j t' hi hj found' => outside i j t' hi hj ((zero₁ i j hi hj).symm.trans found'))
        fun k e' hk found' => notFreed (k + 1) e' (by omega) ((later k hk).symm.trans found')
      rw [rest, Phys.setPte_page_of_ne _ _ fun same => outside _ _ t (PX_lt 2 a) (PX_lt 1 a) table
          (by rw [same, slot_page (table0_aligned table) (PX_lt 0 a)]),
        hmf]
      exact Phys.memset_page_of_ne _ _ fun same => notFreed 0 e (Nat.succ_pos fuel) (by rw [Nat.zero_mul, Nat.add_zero]; exact first)
        same.symm

/-- `uvmunmap` with `do_free` of `npages` pages from an aligned `va`, each
mapped by such a leaf: it returns, keeps the end of the kernel, maps no page
that was not mapped, and writes only the level-0 tables of the tree and the
pages it frees. -/
theorem uvmunmap_ok {va npages : Nat} {m : Phys} (tree : Tree m root) (aligned : va % PGSIZE = 0)
    (inside : va + npages * PGSIZE ≤ MAXVA)
    (leaves : ∀ k, k < npages → ∃ e, lookup m root (va + k * PGSIZE) = some e ∧ PTE_FLAGS e ≠ PTE_V ∧
      m.kernEnd ≤ PTE2PA e ∧ PTE2PA e < PHYSTOP ∧ ¬IsTable m root (PTE2PA e)) :
    ∃ m', uvmunmap m root va npages true = .ok m' ∧ m'.kernEnd = m.kernEnd ∧
      (∀ b, lookup m root b = none → lookup m' root b = none) ∧ ∀ q, (∀ i j t, i < 512 → j < 512 → table0 m root i j = some t → t / PGSIZE ≠ q) →
        (∀ k e, k < npages → lookup m root (va + k * PGSIZE) = some e → PTE2PA e / PGSIZE ≠ q) → m'.page q = m.page q := by
  have fits : (va + npages * PGSIZE) % 2 ^ 64 = va + npages * PGSIZE := Nat.mod_eq_of_lt (by
    rw [MAXVA_eq] at inside
    omega)
  rw [uvmunmap, if_neg (not_not.mpr aligned), fits]
  exact unmapLoop_ok npages va tree aligned rfl inside leaves

end UnmapOk

/-! ## The copy, page by page -/

section Copy

variable (m₀ : Phys) (old new sz : Nat)

/-- The pages whose bytes the copy keeps: the parent's tables, and the pages
its leaves below `sz` map. -/
def Kept (q : Nat) : Prop := IsTable m₀ old q ∨ ∃ va, va < sz ∧ ∃ flags, pageMap m₀ old va = some (q, flags)

/-- What `uvmcopy` asks of memory: both tables are trees, the child's free
pages lie in `kalloc`'s range, no kept page is free or a table of the child,
every page below `sz` is mapped in the parent by a leaf and in the child by
nothing, and `sz` is at most `MAXVA`. -/
structure CopyReady : Prop where
  oldTree : Tree m₀ old
  newTree : Tree m₀ new
  fresh : Fresh m₀ new
  range : ∀ p ∈ m₀.freelist, m₀.kernEnd ≤ p ∧ p < PHYSTOP
  kept : ∀ q, Kept m₀ old sz q → q ∉ m₀.freelist ∧ ¬IsTable m₀ new q
  mapped : ∀ va, va % PGSIZE = 0 → va < sz → ∃ pa flags, pageMap m₀ old va = some (pa, flags) ∧ flags ≠ PTE_V
  unmapped : ∀ va, va % PGSIZE = 0 → va < sz → pageMap m₀ new va = none
  small : sz ≤ MAXVA

/-- `uvmcopy`'s loop before page `i`, from memory `m₀`: the child is a tree
with a free list, whose tables are its first ones or pages of the first free
list; the kept pages hold their bytes; each page below `i` is mapped in the
child to a copy: a page of the first free list, no longer free and no table,
with the parent's bytes and flags; the child maps every other page as at the
start; and each page of the first free list is free, a table of the child, or
a copy. -/
structure Copied (m : Phys) (i : Nat) : Prop where
  tree : Tree m new
  fresh : Fresh m new
  kernEnd : m.kernEnd = m₀.kernEnd
  free : ∀ p ∈ m.freelist, p ∈ m₀.freelist
  tables : OnlyTaken m₀ m new
  kept : ∀ q, Kept m₀ old sz q → m.page (q / PGSIZE) = m₀.page (q / PGSIZE)
  done : ∀ va, va % PGSIZE = 0 → va < i → ∃ pa flags mem, pageMap m₀ old va = some (pa, flags) ∧
    lookup m new va = some (PA2PTE mem ||| flags ||| PTE_V) ∧ mem ∈ m₀.freelist ∧ mem ∉ m.freelist ∧
    ¬IsTable m new mem ∧ m.page (mem / PGSIZE) = m₀.page (pa / PGSIZE)
  rest : ∀ va, va % PGSIZE = 0 → i ≤ va → va < MAXVA → lookup m new va = lookup m₀ new va
  accounted : ∀ p ∈ m₀.freelist, p ∈ m.freelist ∨ IsTable m new p ∨
    ∃ va e, va % PGSIZE = 0 ∧ va < i ∧ lookup m new va = some e ∧ PTE2PA e = p

/-- What a pass leaves once `mappages` of the copy `mem` returns, with `n`
pages mapped. -/
structure Pass (m m₃ : Phys) (i mem pa flags n : Nat) (rest : List Nat) : Prop where
  tree : Tree m₃ new
  fresh : Fresh m₃ new
  kernEnd : m₃.kernEnd = m.kernEnd
  free : ∀ p ∈ m₃.freelist, p ∈ rest
  taken : OnlyTaken m m₃ new
  pages : ∀ q, q ∉ m.freelist → ¬IsTable m new q → q % PGSIZE = 0 → m₃.page (q / PGSIZE) = m.page (q / PGSIZE)
  copy : m₃.page (mem / PGSIZE) = m₀.page (pa / PGSIZE)
  copyNotTable : ¬IsTable m₃ new mem
  map : ∀ b, b % PGSIZE = 0 → b < MAXVA →
    lookup m₃ new b = if i ≤ b ∧ b < i + n * PGSIZE then some (PA2PTE mem ||| flags ||| PTE_V) else lookup m new b
  tables : ∀ p ∈ rest, p ∈ m₃.freelist ∨ IsTable m₃ new p
  keepsTables : ∀ t, IsTable m new t → IsTable m₃ new t

variable {m₀ old new sz}

theorem Copied.start (ready : CopyReady m₀ old new sz) : Copied m₀ old new sz m₀ 0 where
  tree := ready.newTree
  fresh := ready.fresh
  kernEnd := rfl
  free _ mem := mem
  tables := OnlyTaken.refl m₀ new
  kept _ _ := rfl
  done _ _ below := absurd below (Nat.not_lt_zero _)
  rest _ _ _ _ := rfl
  accounted _ mem := .inl mem

theorem Kept.aligned (ready : CopyReady m₀ old new sz) {q : Nat} (kept : Kept m₀ old sz q) : q % PGSIZE = 0 := by
  rcases kept with table | ⟨va, -, flags, leaf⟩
  · exact table.aligned ready.oldTree
  · obtain ⟨-, pte, -, rfl, -⟩ := pageMap_eq_some.mp leaf
    exact PTE2PA_aligned pte

variable {m : Phys} {i : Nat}

/-- The parent's tree reads as at the start. -/
theorem Copied.oldView (ready : CopyReady m₀ old new sz) (c : Copied m₀ old new sz m i) :
    (∀ i j, i < 512 → j < 512 → table0 m old i j = table0 m₀ old i j) ∧ ∀ va, lookup m old va = lookup m₀ old va := by
  obtain ⟨-, zero, look⟩ := view_of_tables ready.oldTree fun t table => c.kept t (.inl table)
  exact ⟨zero, look⟩

/-- A pass of the loop at a page below `sz`: the parent's leaf gives `pa`
and `flags`, and what is left is `kalloc`, the copy and `mappages`. -/
theorem copyLoop_at (ready : CopyReady m₀ old new sz) (c : Copied m₀ old new sz m i) (fuel : Nat) (below : i < sz)
    {pa flags : Nat} (leaf : pageMap m₀ old i = some (pa, flags)) :
    copyLoop old new sz (fuel + 1) i m =
      match kalloc m with
      | none => .ok (some i, m)
      | some (mem, m) =>
          match mappages (m.copyPage mem pa) new i PGSIZE mem flags with
          | .error e => .error e
          | .ok (r, m) =>
              if r ≠ 0 then
                match kfree m mem with
                | .error e => .error e
                | .ok m => .ok (some i, m)
              else copyLoop old new sz fuel ((i + PGSIZE) % 2 ^ 64) m := by
  obtain ⟨belowMax, pte, found, rfl, rfl⟩ := pageMap_eq_some.mp leaf
  obtain ⟨zero, look⟩ := c.oldView ready
  rw [← look] at found
  simp only [lookup, Option.bind_eq_some_iff] at found
  obtain ⟨t, table, slot⟩ := found
  have valid : m.pte (t + 8 * PX 0 i) &&& PTE_V ≠ 0 := by
    unfold entry at slot
    split at slot
    · assumption
    · cases slot
  have read : m.pte (t + 8 * PX 0 i) = pte := by
    simp only [entry, if_pos valid, Option.some.injEq] at slot
    exact slot
  rw [copyLoop, if_pos below, walk_false old belowMax, table]
  simp only [Option.map_some, read]
  rw [read] at valid
  exact if_neg valid

/-- The page `kalloc` hands the copy: a page of the first free list, not
kept, not free again, no table of the child, whole, and in `kalloc`'s range. -/
theorem Copied.head (ready : CopyReady m₀ old new sz) (c : Copied m₀ old new sz m i) {mem : Nat} {rest : List Nat}
    (free : m.freelist = mem :: rest) :
    mem ∈ m₀.freelist ∧ ¬Kept m₀ old sz mem ∧ mem ∉ rest ∧ ¬IsTable m new mem ∧ mem % PGSIZE = 0 ∧ mem < 2 ^ 64 ∧
      m₀.kernEnd ≤ mem ∧ mem < PHYSTOP := by
  have start := c.free mem (by rw [free]; exact List.mem_cons_self)
  obtain ⟨aligned, fits, notTable⟩ := c.fresh.head free
  have nodup := c.fresh.nodup
  rw [free, List.nodup_cons] at nodup
  exact ⟨start, fun kept => (ready.kept mem kept).1 start, nodup.1, notTable, aligned, fits, ready.range mem start⟩

/-- `kalloc` and the copy of the kept page `pa` into the page it took: the
child's tables and map are as they were, the taken page holds the parent's
bytes, and no other page changes. -/
theorem Copied.take (ready : CopyReady m₀ old new sz) (c : Copied m₀ old new sz m i) {mem : Nat} {rest : List Nat}
    (free : m.freelist = mem :: rest) {pa : Nat} (kept : Kept m₀ old sz pa) :
    let m₂ := ({ m.memset mem 5 with freelist := rest } : Phys).copyPage mem pa
    (∀ i', i' < 512 → table1 m₂ new i' = table1 m new i') ∧
      (∀ i' j, i' < 512 → j < 512 → table0 m₂ new i' j = table0 m new i' j) ∧ (∀ va, lookup m₂ new va = lookup m new va) ∧
      Fresh m₂ new ∧ (∀ q, q ≠ mem / PGSIZE → m₂.page q = m.page q) ∧ m₂.page (mem / PGSIZE) = m₀.page (pa / PGSIZE) := by
  intro m₂
  obtain ⟨-, notKept, -, notTable, aligned, -⟩ := c.head ready free
  have apart : pa / PGSIZE ≠ mem / PGSIZE := fun same => notKept (eq_of_page (kept.aligned ready) aligned same ▸ kept)
  have pages : ∀ q, q ≠ mem / PGSIZE → m₂.page q = m.page q := fun q ne => by
    rw [Phys.copyPage_page_of_ne _ _ ne]
    exact m.memset_page_of_ne 5 ne
  have copied : m₂.page (mem / PGSIZE) = m₀.page (pa / PGSIZE) := by
    rw [Phys.copyPage_page_self, ← c.kept pa kept]
    exact m.memset_page_of_ne 5 apart
  -- the taken page is no table, so the tables read as before
  have same : ∀ t, IsTable m new t → m₂.page (t / PGSIZE) = m.page (t / PGSIZE) := fun t table =>
    pages _ fun eq => notTable (eq_of_page (table.aligned c.tree) aligned eq ▸ table)
  obtain ⟨one, zero, look⟩ := view_of_tables c.tree same
  exact ⟨one, zero, look, c.fresh.tail free rfl fun t table => .inl ((isTable_congr one zero t).mp table), pages,
    copied⟩

/-- `kalloc`, the copy and `mappages` of the page `i`: a whole page mapped
with code 0, or none with code -1. -/
theorem Copied.pass (ready : CopyReady m₀ old new sz) (c : Copied m₀ old new sz m i) (aligned : i % PGSIZE = 0)
    (below : i < sz) {pa flags : Nat} (leaf : pageMap m₀ old i = some (pa, flags)) {mem : Nat} {rest : List Nat}
    (free : m.freelist = mem :: rest) {code : Int} {m₃ : Phys}
    (run : mappages (({ m.memset mem 5 with freelist := rest } : Phys).copyPage mem pa) new i PGSIZE mem flags =
      .ok (code, m₃)) :
    ∃ n, (code = 0 ∧ n = 1 ∨ code ≠ 0 ∧ n = 0) ∧ Pass m₀ new m m₃ i mem pa flags n rest := by
  set m₂ : Phys := ({ m.memset mem 5 with freelist := rest } : Phys).copyPage mem pa with hm₂
  have kept : Kept m₀ old sz pa := .inr ⟨i, below, flags, leaf⟩
  obtain ⟨-, -, -, notTable, memAligned, memFits, -⟩ := c.head ready free
  obtain ⟨one, zero, look, fresh₂, pages₂, copied⟩ := c.take ready free kept
  have tree₂ := c.tree.congr one zero
  have belowMax : i < MAXVA := Nat.lt_of_lt_of_le below ready.small
  have flagsSmall : flags < 1024 := by
    obtain ⟨-, pte, -, -, rfl⟩ := pageMap_eq_some.mp leaf
    rw [PTE_FLAGS_eq]
    exact Nat.mod_lt _ (by decide)
  obtain ⟨-, -, -, frames, tree₃, fresh₃, n, le, -, result, maps⟩ :=
    mappages_spec flagsSmall tree₂ fresh₂ memAligned ⟨by decide, memFits⟩ run
  obtain ⟨taken₃, kernEnd₃⟩ := mappages_one_taken tree₂ fresh₂ aligned belowMax run
  have taken : OnlyTaken m m₃ new := (OnlyTaken.of_tables one zero).trans taken₃ fun p mem' => by
    rw [free]
    exact List.mem_cons_of_mem _ mem'
  -- a page that is no table of `m₃` keeps what the copy left in it
  have kept₃ : ∀ q, (∀ t, IsTable m₃ new t → t ≠ q) → q % PGSIZE = 0 →
      m₃.page (q / PGSIZE) = m₂.page (q / PGSIZE) :=
    fun q notTable₃ qAligned => frames.pages _ fun t table same =>
      notTable₃ t table (eq_of_page (table.aligned tree₃) qAligned same)
  have memNotTable : ¬IsTable m₃ new mem := fun table => by
    rcases taken₃ mem table with old | gone
    · exact notTable ((isTable_congr one zero mem).mp old)
    · exact (c.head ready free).2.2.1 gone
  refine ⟨n, ?_, ⟨tree₃, fresh₃, kernEnd₃, frames.shrinks, taken, fun q free' notTable' qAligned => ?_,
    ?_, memNotTable, fun b hb belowB => ?_, fun p mem' => ?_,
    fun t table => frames.tables ((isTable_congr one zero t).mpr table)⟩⟩
  · rcases result with ⟨rfl, rfl⟩ | ⟨rfl, early, -⟩
    · exact .inl ⟨rfl, rfl⟩
    · rw [show PGSIZE / PGSIZE = 1 from rfl] at early
      exact .inr ⟨by decide, by omega⟩
  · have other : q / PGSIZE ≠ mem / PGSIZE := fun same =>
      free' (by rw [eq_of_page qAligned memAligned same, free]; exact List.mem_cons_self)
    rw [kept₃ q (fun t table same => ?_) qAligned, pages₂ _ other]
    subst same
    rcases taken t table with old | gone
    · exact notTable' old
    · exact free' gone
  · rw [kept₃ mem (fun t table same => memNotTable (same ▸ table)) memAligned]
    exact copied
  · rw [maps b hb belowB, look b]
    by_cases inside : i ≤ b ∧ b < i + n * PGSIZE
    · -- the one page mapped is `i` itself
      have same : b = i := by
        rw [show PGSIZE / PGSIZE = 1 from rfl] at le
        unfold PGSIZE at *
        omega
      rw [if_pos inside, if_pos inside, same, Nat.sub_self, Nat.add_zero, Nat.mod_eq_of_lt memFits]
    · rw [if_neg inside, if_neg inside]
  · by_cases still : p ∈ m₃.freelist
    · exact .inl still
    · exact .inr (frames.takenTables p mem' still)

theorem pageMap_flags_lt {m : Phys} {root va pa flags : Nat} (leaf : pageMap m root va = some (pa, flags)) :
    flags < 1024 := by
  obtain ⟨-, pte, -, -, rfl⟩ := pageMap_eq_some.mp leaf
  rw [PTE_FLAGS_eq]
  exact Nat.mod_lt _ (by decide)

/-- A pass keeps the kept pages and the copies made before it. -/
theorem Pass.keeps (ready : CopyReady m₀ old new sz) (c : Copied m₀ old new sz m i) {m₃ : Phys}
    {mem pa flags n : Nat} {rest : List Nat} (pass : Pass m₀ new m m₃ i mem pa flags n rest) :
    (∀ q, Kept m₀ old sz q → m₃.page (q / PGSIZE) = m₀.page (q / PGSIZE)) ∧
      ∀ va, va % PGSIZE = 0 → va < i → ∃ pa' flags' mem', pageMap m₀ old va = some (pa', flags') ∧
        lookup m₃ new va = some (PA2PTE mem' ||| flags' ||| PTE_V) ∧ mem' ∈ m₀.freelist ∧ mem' ∉ m.freelist ∧
        ¬IsTable m₃ new mem' ∧ m₃.page (mem' / PGSIZE) = m₀.page (pa' / PGSIZE) := by
  -- a page that is neither free nor a table of `m` is no table of `m₃`
  have notTable₃ : ∀ q, q ∉ m.freelist → ¬IsTable m new q → ¬IsTable m₃ new q := fun q gone notTable table =>
    (pass.taken q table).elim notTable gone
  refine ⟨fun q kept => ?_, fun va hva below => ?_⟩
  · have gone : q ∉ m.freelist := fun free => (ready.kept q kept).1 (c.free q free)
    have notTable : ¬IsTable m new q := fun table => (c.tables q table).elim (ready.kept q kept).2 (ready.kept q kept).1
    rw [pass.pages q gone notTable (kept.aligned ready)]
    exact c.kept q kept
  · obtain ⟨pa', flags', mem', leaf', look', start', gone', notTable', page'⟩ := c.done va hva below
    have belowMax : va < MAXVA := (pageMap_eq_some.mp leaf').1
    have mapped : lookup m₃ new va = lookup m new va := by
      rw [pass.map va hva belowMax, if_neg fun inside => Nat.lt_irrefl va (Nat.lt_of_lt_of_le below inside.1)]
    refine ⟨pa', flags', mem', leaf', mapped.trans look', start', gone', notTable₃ mem' gone' notTable', ?_⟩
    rw [pass.pages mem' gone' notTable' (ready.fresh.page mem' start').1]
    exact page'

/-- A pass whose `mappages` mapped the copy: the loop goes on at the next
page. -/
theorem Copied.mapped (ready : CopyReady m₀ old new sz) (c : Copied m₀ old new sz m i) (aligned : i % PGSIZE = 0)
    {pa flags : Nat} (leaf : pageMap m₀ old i = some (pa, flags)) {mem : Nat} {rest : List Nat}
    (free : m.freelist = mem :: rest) {m₃ : Phys} (pass : Pass m₀ new m m₃ i mem pa flags 1 rest) :
    Copied m₀ old new sz m₃ (i + PGSIZE) := by
  obtain ⟨start, -, notRest, -, memAligned, memFits, -⟩ := c.head ready free
  obtain ⟨keptPages, earlier⟩ := pass.keeps ready c
  have belowMax : i < MAXVA := (pageMap_eq_some.mp leaf).1
  have inRest : ∀ p ∈ m₃.freelist, p ∈ m.freelist := fun p mem' => by
    rw [free]
    exact List.mem_cons_of_mem _ (pass.free p mem')
  have mapped : lookup m₃ new i = some (PA2PTE mem ||| flags ||| PTE_V) := by
    rw [pass.map i aligned belowMax, if_pos ⟨Nat.le_refl i, by rw [Nat.one_mul]; unfold PGSIZE; omega⟩]
  have points : PTE2PA (PA2PTE mem ||| flags ||| PTE_V) = mem :=
    (leaf_pte memAligned memFits (pageMap_flags_lt leaf)).2.2.1
  refine ⟨pass.tree, pass.fresh, pass.kernEnd.trans c.kernEnd, fun p mem' => c.free p (inRest p mem'),
    c.tables.trans pass.taken c.free, keptPages, fun va hva below => ?_, fun va hva above belowVa => ?_,
    fun p start' => ?_⟩
  · by_cases before : va < i
    · obtain ⟨pa', flags', mem', leaf', look', start', gone', rest'⟩ := earlier va hva before
      exact ⟨pa', flags', mem', leaf', look', start', fun free' => gone' (inRest mem' free'), rest'⟩
    · -- the page just copied
      have same : va = i := by
        unfold PGSIZE at *
        omega
      subst same
      exact ⟨pa, flags, mem, leaf, mapped, start, fun free' => notRest (pass.free mem free'), pass.copyNotTable,
        pass.copy⟩
  · rw [pass.map va hva belowVa, if_neg fun inside => by rw [Nat.one_mul] at inside; omega]
    exact c.rest va hva (by omega) belowVa
  · rcases c.accounted p start' with free' | table | ⟨va, e, hva, before, look, rfl⟩
    · rw [free] at free'
      rcases List.mem_cons.mp free' with rfl | later
      · exact .inr (.inr ⟨i, _, aligned, by unfold PGSIZE; omega, mapped, points⟩)
      · exact (pass.tables p later).imp id .inl
    · exact .inr (.inl (pass.keepsTables p table))
    · have mapped' : lookup m₃ new va = lookup m new va := by
        rw [pass.map va hva (Nat.lt_trans before belowMax), if_neg fun inside => by omega]
      exact .inr (.inr ⟨va, e, hva, by omega, mapped'.trans look, rfl⟩)

/-- A pass whose `mappages` ran out of pages: `kfree` of the copy returns, and
the loop stops at page `i` with the invariant. -/
theorem Copied.unwound (ready : CopyReady m₀ old new sz) (c : Copied m₀ old new sz m i) {pa flags : Nat}
    {mem : Nat} {rest : List Nat} (free : m.freelist = mem :: rest) {m₃ : Phys}
    (pass : Pass m₀ new m m₃ i mem pa flags 0 rest) :
    ∃ m₄, kfree m₃ mem = .ok m₄ ∧ Copied m₀ old new sz m₄ i := by
  obtain ⟨start, notKept, notRest, -, memAligned, memFits, above, below⟩ := c.head ready free
  obtain ⟨keptPages, earlier⟩ := pass.keeps ready c
  have notFree₃ : mem ∉ m₃.freelist := fun free' => notRest (pass.free mem free')
  have run := kfree_eq_ok memAligned (by rw [pass.kernEnd, c.kernEnd]; exact above) below
  obtain ⟨list, one, zero, look⟩ := kfree_keeps pass.tree pass.copyNotTable run
  have tables : ∀ t, IsTable { m₃.memset mem 1 with freelist := mem :: m₃.freelist } new t ↔ IsTable m₃ new t :=
    isTable_congr one zero
  have unmapped : ∀ va, va % PGSIZE = 0 → va < MAXVA → lookup m₃ new va = lookup m new va := fun va hva belowVa => by
    rw [pass.map va hva belowVa, Nat.zero_mul, Nat.add_zero, if_neg fun inside => by omega]
  -- the page freed is none of the pages the invariant keeps
  have pages : ∀ q, q % PGSIZE = 0 → q ≠ mem →
      ({ m₃.memset mem 1 with freelist := mem :: m₃.freelist } : Phys).page (q / PGSIZE) = m₃.page (q / PGSIZE) :=
    fun q qAligned ne => m₃.memset_page_of_ne 1 fun same => ne (eq_of_page qAligned memAligned same)
  refine ⟨_, run, pass.tree.congr one zero, ⟨?_, fun p free' => ?_, fun p free' table => ?_⟩, pass.kernEnd.trans c.kernEnd,
    fun p free' => ?_, fun t table => (c.tables.trans pass.taken c.free) t ((tables t).mp table),
    fun q kept => ?_, fun va hva before => ?_, fun va hva after belowVa => ?_, fun p start' => ?_⟩
  · exact List.nodup_cons.mpr ⟨notFree₃, pass.fresh.nodup⟩
  · rcases List.mem_cons.mp free' with rfl | later
    · exact ⟨memAligned, memFits⟩
    · exact pass.fresh.page p later
  · rcases List.mem_cons.mp free' with rfl | later
    · exact pass.copyNotTable ((tables p).mp table)
    · exact pass.fresh.notTable p later ((tables p).mp table)
  · rcases List.mem_cons.mp free' with rfl | later
    · exact start
    · exact c.free p (by rw [free]; exact List.mem_cons_of_mem _ (pass.free p later))
  · rw [pages q (kept.aligned ready) fun same => notKept (same ▸ kept)]
    exact keptPages q kept
  · obtain ⟨pa', flags', mem', leaf', look', start', gone', notTable', page'⟩ := earlier va hva before
    have other : mem' ≠ mem := fun same => gone' (by rw [same, free]; exact List.mem_cons_self)
    refine ⟨pa', flags', mem', leaf', by rw [look]; exact look', start', fun free' => ?_,
      fun table => notTable' ((tables mem').mp table), by rw [pages mem' (ready.fresh.page mem' start').1 other]; exact page'⟩
    rcases List.mem_cons.mp free' with same | later
    · exact other same
    · exact gone' (by rw [free]; exact List.mem_cons_of_mem _ (pass.free mem' later))
  · rw [look, unmapped va hva belowVa]
    exact c.rest va hva after belowVa
  · rcases c.accounted p start' with free' | table | ⟨va, e, hva, before, look', rfl⟩
    · rw [free] at free'
      rcases List.mem_cons.mp free' with rfl | later
      · exact .inl List.mem_cons_self
      · rcases pass.tables p later with still | table
        · exact .inl (List.mem_cons_of_mem _ still)
        · exact .inr (.inl ((tables p).mpr table))
    · exact .inr (.inl ((tables p).mpr (pass.keepsTables p table)))
    · have belowVa : va < MAXVA := by
        obtain ⟨pa', flags', -, leaf', -⟩ := c.done va hva before
        exact (pageMap_eq_some.mp leaf').1
      exact .inr (.inr ⟨va, e, hva, before, by rw [look, unmapped va hva belowVa]; exact look', rfl⟩)

theorem lookup_of_pageMap_none {m : Phys} {root va : Nat} (below : va < MAXVA) (missing : pageMap m root va = none) :
    lookup m root va = none := by
  simp only [pageMap, if_neg (Nat.not_le.mpr below), Option.map_eq_none_iff] at missing
  exact missing

/-- The loop from an aligned page `i`, with enough fuel to pass `sz`, returns:
with every page below `sz` copied, or at the `goto err` of a page `j` below
`sz`, with the invariant at `j`.  By induction on the fuel, one pass of the
loop at a time. -/
theorem copyLoop_spec (ready : CopyReady m₀ old new sz) (fuel : Nat) :
    ∀ i m, Copied m₀ old new sz m i → i % PGSIZE = 0 → i < sz + PGSIZE → sz ≤ i + fuel * PGSIZE →
      ∃ res m', copyLoop old new sz fuel i m = .ok (res, m') ∧
        ((res = none ∧ ∃ j, j % PGSIZE = 0 ∧ sz ≤ j ∧ j < sz + PGSIZE ∧ Copied m₀ old new sz m' j) ∨
          ∃ j, res = some j ∧ j % PGSIZE = 0 ∧ j < sz ∧ Copied m₀ old new sz m' j) := by
  induction fuel with
  | zero =>
    intro i m c aligned near enough
    exact ⟨none, m, rfl, .inl ⟨rfl, i, aligned, by omega, near, c⟩⟩
  | succ fuel ih =>
    intro i m c aligned near enough
    by_cases below : i < sz
    swap
    · exact ⟨none, m, by rw [copyLoop, if_neg below], .inl ⟨rfl, i, aligned, Nat.le_of_not_lt below, near, c⟩⟩
    obtain ⟨pa, flags, leaf, -⟩ := ready.mapped i aligned below
    have belowMax : i < MAXVA := Nat.lt_of_lt_of_le below ready.small
    rw [copyLoop_at ready c fuel below leaf]
    rcases free : m.freelist with _ | ⟨mem, rest⟩
    · -- `kalloc` fails: `goto err` at `i`
      exact ⟨some i, m, by rw [kalloc_of_nil free], .inr ⟨i, rfl, aligned, below, c⟩⟩
    rw [kalloc_of_cons free]
    -- `mappages` returns: the child does not map `i` yet
    obtain ⟨one, zero, look, fresh₂, -, -⟩ := c.take ready free (.inr ⟨i, below, flags, leaf⟩)
    have unmapped : lookup (({ m.memset mem 5 with freelist := rest } : Phys).copyPage mem pa) new i = none := by
      rw [look, c.rest i aligned (Nat.le_refl i) belowMax]
      exact lookup_of_pageMap_none belowMax (ready.unmapped i aligned below)
    obtain ⟨code, m₃, run⟩ : ∃ code m₃, mappages (({ m.memset mem 5 with freelist := rest } : Phys).copyPage mem pa)
        new i PGSIZE mem flags = .ok (code, m₃) :=
      mappages_one_ok (c.tree.congr one zero) fresh₂ aligned belowMax unmapped
    simp only [run]
    obtain ⟨n, result, pass⟩ := c.pass ready aligned below leaf free run
    rcases result with ⟨rfl, rfl⟩ | ⟨failed, rfl⟩
    · -- mapped: on to the next page
      have next : (i + PGSIZE) % 2 ^ 64 = i + PGSIZE := by
        rw [MAXVA_eq] at belowMax
        unfold PGSIZE
        omega
      rw [if_neg (not_not.mpr rfl), next]
      exact ih (i + PGSIZE) m₃ (c.mapped ready aligned leaf free pass) (by unfold PGSIZE at *; omega)
        (by omega) (by rw [Nat.add_mul, Nat.one_mul] at enough; omega)
    · -- `mappages` failed: the copy is freed, then `goto err` at `i`
      obtain ⟨m₄, freed, c'⟩ := c.unwound ready free pass
      rw [if_pos failed, freed]
      exact ⟨some i, m₄, rfl, .inr ⟨i, rfl, aligned, below, c'⟩⟩

/-! ## What `uvmcopy` leaves -/

/-- A page copied before `i`, read as a leaf of the child: a page taken from
the first free list, no table, with the parent's flags and bytes. -/
theorem Copied.copyLeaf (ready : CopyReady m₀ old new sz) (c : Copied m₀ old new sz m i) {va : Nat}
    (aligned : va % PGSIZE = 0) (before : va < i) :
    ∃ pa flags e, pageMap m₀ old va = some (pa, flags) ∧ lookup m new va = some e ∧ PTE_FLAGS e = flags ∧
      PTE2PA e ∈ m₀.freelist ∧ PTE2PA e ∉ m.freelist ∧ ¬IsTable m new (PTE2PA e) ∧
      m.page (PTE2PA e / PGSIZE) = m₀.page (pa / PGSIZE) := by
  obtain ⟨pa, flags, mem, leaf, look, start, gone, notTable, page⟩ := c.done va aligned before
  obtain ⟨memAligned, memFits⟩ := ready.fresh.page mem start
  obtain ⟨-, -, points, flagBits⟩ := leaf_pte memAligned memFits (pageMap_flags_lt leaf)
  obtain ⟨-, pte, found, -, rfl⟩ := pageMap_eq_some.mp leaf
  refine ⟨pa, PTE_FLAGS pte, _, leaf, look, ?_, ?_⟩
  · rw [flagBits, flags_or_valid (lookup_valid found)]
  · rw [points]
    exact ⟨start, gone, notTable, page⟩

/-- The child maps every page from `i` on as at the start. -/
theorem Copied.restMap (c : Copied m₀ old new sz m i) {va : Nat} (aligned : va % PGSIZE = 0) (after : i ≤ va) :
    pageMap m new va = pageMap m₀ new va := by
  by_cases above : MAXVA ≤ va
  · simp only [pageMap, if_pos above]
  · exact pageMap_congr (c.rest va aligned after (Nat.lt_of_not_le above))

/-- With the kept pages as they were, the parent's map is as it was. -/
theorem oldMap_of_kept (ready : CopyReady m₀ old new sz)
    (kept : ∀ q, Kept m₀ old sz q → m.page (q / PGSIZE) = m₀.page (q / PGSIZE)) (va : Nat) :
    pageMap m old va = pageMap m₀ old va := by
  obtain ⟨-, -, look⟩ := view_of_tables ready.oldTree fun t table => kept t (.inl table)
  exact pageMap_congr (look va)

/-- The loop past `sz`: every page below `sz` is mapped in the child to a
copy with the parent's flags and bytes, taken from the free list. -/
theorem Copied.copies (ready : CopyReady m₀ old new sz) (c : Copied m₀ old new sz m i) (past : sz ≤ i)
    {va pa flags : Nat} (aligned : va % PGSIZE = 0) (below : va < sz) (leaf : pageMap m₀ old va = some (pa, flags)) :
    ∃ mem, pageMap m new va = some (mem, flags) ∧ m.page (mem / PGSIZE) = m₀.page (pa / PGSIZE) ∧
      mem ∈ m₀.freelist ∧ mem ∉ m.freelist := by
  obtain ⟨pa', flags', e, leaf', look, flagsEq, start, gone, -, page⟩ :=
    c.copyLeaf ready aligned (Nat.lt_of_lt_of_le below past)
  obtain ⟨rfl, rfl⟩ := Prod.mk.inj (Option.some.inj (leaf'.symm.trans leaf))
  exact ⟨PTE2PA e, pageMap_eq_some.mpr ⟨(pageMap_eq_some.mp leaf).1, e, look, rfl, flagsEq⟩, page, start, gone⟩

/-- The `err` path at page `i`: `uvmunmap` of the `i / PGSIZE` copies
returns.  It keeps the kept pages, leaves the child mapping what it mapped at
the start, and puts back on the free list every page the copy took that is no
table of the child, and nothing else. -/
theorem Copied.unmapped (ready : CopyReady m₀ old new sz) (c : Copied m₀ old new sz m i) (aligned : i % PGSIZE = 0)
    (below : i < sz) :
    ∃ m', uvmunmap m new 0 (i / PGSIZE) true = .ok m' ∧
      (∀ q, Kept m₀ old sz q → m'.page (q / PGSIZE) = m₀.page (q / PGSIZE)) ∧
      (∀ p ∈ m'.freelist, p ∈ m₀.freelist) ∧
      (∀ va, va % PGSIZE = 0 → pageMap m' new va = pageMap m₀ new va) ∧
      ∀ p ∈ m₀.freelist, p ∈ m'.freelist ∨ IsTable m' new p := by
  have whole : 0 + i / PGSIZE * PGSIZE = i := by
    rw [Nat.zero_add, Nat.div_mul_cancel (Nat.dvd_of_mod_eq_zero aligned)]
  -- the `k`-th page is a copy, by a leaf `uvmunmap` frees
  have leaves : ∀ k, k < i / PGSIZE → ∃ e, lookup m new (0 + k * PGSIZE) = some e ∧ PTE_FLAGS e ≠ PTE_V ∧
      m.kernEnd ≤ PTE2PA e ∧ PTE2PA e < PHYSTOP ∧ ¬IsTable m new (PTE2PA e) ∧ PTE2PA e ∈ m₀.freelist := fun k hk => by
    have alignedK : (0 + k * PGSIZE) % PGSIZE = 0 := by rw [Nat.zero_add, Nat.mul_mod_left]
    have beforeK : 0 + k * PGSIZE < i := by
      unfold PGSIZE at *
      omega
    obtain ⟨pa, flags, e, leaf, look, flagsEq, start, -, notTable, -⟩ := c.copyLeaf ready alignedK beforeK
    obtain ⟨pa', flags', leaf', notPtr⟩ := ready.mapped _ alignedK (Nat.lt_trans beforeK below)
    obtain ⟨-, rfl⟩ := Prod.mk.inj (Option.some.inj (leaf.symm.trans leaf'))
    have range := ready.range _ start
    exact ⟨e, look, flagsEq ▸ notPtr, c.kernEnd ▸ range.1, range.2, notTable, start⟩
  have taken : ∀ k e, k < i / PGSIZE → lookup m new (0 + k * PGSIZE) = some e →
      ¬IsTable m new (PTE2PA e) ∧ PTE2PA e ∈ m₀.freelist := fun k e hk found => by
    obtain ⟨e', found', -, -, -, notTable, start⟩ := leaves k hk
    cases found.symm.trans found'
    exact ⟨notTable, start⟩
  obtain ⟨m', run, -, -, frame⟩ := uvmunmap_ok c.tree (Nat.zero_mod PGSIZE) (by rw [whole]; exact (Nat.le_of_lt below).trans ready.small)
    fun k hk => (leaves k hk).imp fun _ facts => ⟨facts.1, facts.2.1, facts.2.2.1, facts.2.2.2.1, facts.2.2.2.2.1⟩
  have fits : 0 + i / PGSIZE * PGSIZE < 2 ^ 64 := by
    have small := ready.small
    rw [whole]
    rw [MAXVA_eq] at small
    omega
  obtain ⟨-, -, tables', look', list'⟩ := uvmunmap_spec c.tree fits (fun _ k hk e found => (taken k e hk found).1) run
  rw [if_pos rfl] at list'
  refine ⟨m', run, fun q kept => ?_, fun p free => ?_, fun va hva => ?_, fun p start => ?_⟩
  · -- a kept page is neither a table of the child nor a copy, so `uvmunmap` does not write it
    have qAligned := kept.aligned ready
    rw [frame (q / PGSIZE) (fun i j t hi hj found same => ?_) fun k e hk found same => ?_]
    · exact c.kept q kept
    · have table : IsTable m new t := .inr (.inr ⟨i, hi, j, hj, found⟩)
      have tq : t = q := eq_of_page (table.aligned c.tree) qAligned same
      subst tq
      exact (c.tables t table).elim (ready.kept t kept).2 (ready.kept t kept).1
    · have eq : PTE2PA e = q := eq_of_page (PTE2PA_aligned e) qAligned same
      exact (ready.kept q kept).1 (eq ▸ (taken k e hk found).2)
  · rw [list', List.mem_append, mem_freedPages] at free
    rcases free with ⟨k, hk, e, found, rfl⟩ | still
    · exact (taken k e hk found).2
    · exact c.free p still
  · rw [look' va hva]
    split_ifs with inside
    · rw [whole] at inside
      exact (ready.unmapped va hva (Nat.lt_trans inside.2 below)).symm
    · rw [whole] at inside
      exact c.restMap hva (by omega)
  · rcases c.accounted p start with free | table | ⟨va, e, hva, before, found, rfl⟩
    · exact .inl (by rw [list']; exact List.mem_append_right _ free)
    · exact .inr ((tables' p).mpr table)
    · -- a copy: `uvmunmap` frees it
      have index : va / PGSIZE < i / PGSIZE := by
        unfold PGSIZE at *
        omega
      have leaf : lookup m new (0 + va / PGSIZE * PGSIZE) = some e := by
        rw [Nat.zero_add, Nat.div_mul_cancel (Nat.dvd_of_mod_eq_zero hva)]
        exact found
      left
      rw [list', List.mem_append, mem_freedPages]
      exact .inl ⟨va / PGSIZE, index, e, leaf, rfl⟩

/-- **`uvmcopy` copies.**  When the parent maps every page below `sz` by a
leaf, the child maps none of them, and the two trees and the free list are
apart, `uvmcopy` returns; it leaves the parent's map and the bytes of its
tables and pages as they were, and frees no page that was not free.  It
returns 0 with every page below `sz` mapped in the child to a page taken from
the free list that holds the parent's bytes, with the parent's flags, and the
child's map above `sz` as it was; or it returns -1 with the child's map as it
was and every page taken from the free list back there or a table of the
child. -/
theorem uvmcopy_copies (ready : CopyReady m₀ old new sz) :
    ∃ r m', uvmcopy m₀ old new sz = .ok (r, m') ∧
      (∀ va, pageMap m' old va = pageMap m₀ old va) ∧
      (∀ q, Kept m₀ old sz q → m'.page (q / PGSIZE) = m₀.page (q / PGSIZE)) ∧
      (∀ p ∈ m'.freelist, p ∈ m₀.freelist) ∧
      ((r = 0 ∧
          (∀ va pa flags, va % PGSIZE = 0 → va < sz → pageMap m₀ old va = some (pa, flags) →
            ∃ mem, pageMap m' new va = some (mem, flags) ∧ m'.page (mem / PGSIZE) = m₀.page (pa / PGSIZE) ∧
              mem ∈ m₀.freelist ∧ mem ∉ m'.freelist) ∧
          ∀ va, va % PGSIZE = 0 → sz ≤ va → pageMap m' new va = pageMap m₀ new va) ∨
        (r = -1 ∧ (∀ va, va % PGSIZE = 0 → pageMap m' new va = pageMap m₀ new va) ∧
          ∀ p ∈ m₀.freelist, p ∈ m'.freelist ∨ IsTable m' new p)) := by
  have enough : sz ≤ 0 + (sz + PGSIZE - 1) / PGSIZE * PGSIZE := by
    unfold PGSIZE
    omega
  obtain ⟨res, m, loop, finished | failed⟩ :=
    copyLoop_spec ready _ 0 m₀ (Copied.start ready) (Nat.zero_mod PGSIZE) (by unfold PGSIZE; omega) enough
  · -- every page copied: `uvmcopy` returns 0
    obtain ⟨rfl, j, aligned, past, near, c⟩ := finished
    refine ⟨0, m, by rw [uvmcopy, loop], oldMap_of_kept ready c.kept, c.kept, c.free,
      .inl ⟨rfl, fun va pa flags hva below leaf => c.copies ready past hva below leaf, fun va hva after => ?_⟩⟩
    exact c.restMap hva (by unfold PGSIZE at *; omega)
  · -- `goto err` at page `j`: the copies are unmapped and freed, and `uvmcopy` returns -1
    obtain ⟨j, rfl, aligned, below, c⟩ := failed
    obtain ⟨m', run, kept, free, map, accounted⟩ := c.unmapped ready aligned below
    exact ⟨-1, m', by simp only [uvmcopy, loop, run], oldMap_of_kept ready kept, kept, free, .inr ⟨rfl, map, accounted⟩⟩

/-- A parent with one page: the root at 4096 and the page at 32768 that
`mappages` maps at 0, with two tables from the free list and three free pages
left; the child's root at 28672 is an empty table. -/
def onePagePhys : Phys :=
  match mappages (zeroPhys [8192, 12288, 16384, 20480, 24576]) 4096 0 PGSIZE 32768 (PTE_R ||| PTE_W) with
  | .ok (_, m) => m
  | .error _ => zeroPhys []

/-- `onePagePhys` as `mappages` leaves it: a tree with a free list, whose
tables are its root and pages of the first free list. -/
theorem onePagePhys_tree : Frames (zeroPhys [8192, 12288, 16384, 20480, 24576]) onePagePhys 4096 ∧
    Tree onePagePhys 4096 ∧ Fresh onePagePhys 4096 ∧
    ∀ t, IsTable onePagePhys 4096 t → t = 4096 ∨ t ∈ [8192, 12288, 16384, 20480, 24576] := by
  have tree₀ : Tree (zeroPhys [8192, 12288, 16384, 20480, 24576]) 4096 := zeroPhys_tree _ (by decide)
  have fresh₀ : Fresh (zeroPhys [8192, 12288, 16384, 20480, 24576]) 4096 :=
    ⟨by decide, by decide, fun p mem => by rw [isTable_zeroPhys]; revert p; decide⟩
  have run : mappages (zeroPhys [8192, 12288, 16384, 20480, 24576]) 4096 0 PGSIZE 32768 (PTE_R ||| PTE_W) =
      .ok (0, onePagePhys) := rfl
  obtain ⟨-, -, -, frames, tree, fresh, -⟩ := mappages_spec (by decide) tree₀ fresh₀ (by decide) (by decide) run
  obtain ⟨taken, -⟩ := mappages_one_taken tree₀ fresh₀ (by decide) (by decide) run
  exact ⟨frames, tree, fresh, fun t table => (taken t table).imp (isTable_zeroPhys _ _ _).mp id⟩

theorem onePagePhys_ready : CopyReady onePagePhys 4096 28672 PGSIZE := by
  obtain ⟨frames, tree, fresh, oldTables⟩ := onePagePhys_tree
  have free : onePagePhys.freelist = [16384, 20480, 24576] := rfl
  -- the child's root is no table of the parent, so `mappages` left it zero
  have newPage : ∀ t, IsTable (zeroPhys [8192, 12288, 16384, 20480, 24576]) 28672 t →
      onePagePhys.page (t / PGSIZE) = (zeroPhys [8192, 12288, 16384, 20480, 24576]).page (t / PGSIZE) := fun t table => by
    rw [(isTable_zeroPhys _ _ _).mp table]
    refine frames.pages _ fun t' table' => ?_
    rcases oldTables t' table' with rfl | start
    · decide
    · exact (by decide : ∀ t ∈ [8192, 12288, 16384, 20480, 24576], t / PGSIZE ≠ 28672 / PGSIZE) t' start
  obtain ⟨one, zero, look⟩ := view_of_tables (zeroPhys_tree _ (by decide)) newPage
  have newTables : ∀ p, IsTable onePagePhys 28672 p ↔ p = 28672 := fun p =>
    (isTable_congr one zero p).trans (isTable_zeroPhys _ _ _)
  have leaf : pageMap onePagePhys 4096 0 = some (32768, PTE_R ||| PTE_W ||| PTE_V) := by decide
  refine ⟨tree, (zeroPhys_tree _ (by decide)).congr one zero,
    ⟨by rw [free]; decide, by rw [free]; decide, fun p mem => by rw [newTables]; rw [free] at mem; revert p; decide⟩,
    fun p mem => by rw [free] at mem; revert p; decide, fun q kept => ?_, fun va aligned below => ?_,
    fun va aligned below => ?_, by decide⟩
  · rw [free, newTables]
    rcases kept with table | ⟨va, below, flags, found⟩
    · refine ⟨fun mem => fresh.notTable q (by rw [free]; exact mem) table, ?_⟩
      rcases oldTables q table with rfl | start
      · decide
      · exact (by decide : ∀ t ∈ [8192, 12288, 16384, 20480, 24576], t ≠ 28672) q start
    · -- every address of the first page reads the leaf of 0
      have same : pageMap onePagePhys 4096 va = pageMap onePagePhys 4096 0 := by
        rw [pageMap, pageMap, if_neg (by rw [MAXVA_eq]; unfold PGSIZE at below; omega), if_neg (by decide),
          lookup_of_page (show va / PGSIZE = 0 / PGSIZE by unfold PGSIZE at *; omega)]
      rw [same, leaf] at found
      cases found
      decide
  · obtain rfl : va = 0 := by
      unfold PGSIZE at *
      omega
    exact ⟨_, _, leaf, by decide⟩
  · obtain rfl : va = 0 := by
      unfold PGSIZE at *
      omega
    decide

theorem uvmcopy_copies_onePage :
    CopyReady onePagePhys 4096 28672 PGSIZE ∧ ∃ r m', uvmcopy onePagePhys 4096 28672 PGSIZE = .ok (r, m') ∧
      ∀ va, pageMap m' 4096 va = pageMap onePagePhys 4096 va := by
  obtain ⟨r, m', run, oldMap, -⟩ := uvmcopy_copies onePagePhys_ready
  exact ⟨onePagePhys_ready, r, m', run, oldMap⟩

end Copy

end Paging

end Xv6
