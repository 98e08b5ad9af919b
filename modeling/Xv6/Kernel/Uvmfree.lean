/-
# Kernel.Uvmfree -- uvmfree: a process's pages and page table, freed

`uvmfree(pagetable, sz)` unmaps and frees the user pages below
`PGROUNDUP(sz)` with `uvmunmap`, then `freewalk` frees the tables.  For each
valid entry with no `R`, `W` or `X` bit, `freewalk` frees the table below and
clears the entry.  It panics at any other valid entry, a leaf left behind.
Last it frees the table itself.

`Bare m level t` says that the table at `t` holds no leaf `level` levels
down, and `tablesBelow` lists its tables in the order `freewalk` frees them.
`freewalk_bare`: on a bare table whose tables are distinct, `freewalk`
returns, pushes exactly those tables on the free list and writes no other
page.  The proof is by induction on the level, and inside on the entries of
the table (`Swept`).

`Tree.bare` reads a tree with no leaf as bare at level 2, and
`mem_tablesBelow_two` and `Tree.nodup_tablesBelow` read its tables as
`tablesBelow`, each once.  `uvmfree_frees` puts the two steps together: on a
tree that maps the pages below `PGROUNDUP(sz)` and nothing else, `uvmfree`
returns, every table and every user page goes on the free list, each table
once, and no other page is written.
-/
import Xv6.Kernel.Uvmcopy

namespace Xv6

namespace Paging

set_option autoImplicit false

/-! ## vm.c -/

/-- The loop of `freewalk` over the entries of the table at `pagetable` from
`i`, with `child` for the recursive call on a lower table. -/
def freewalkLoop (child : Nat → Phys → Except String Phys) (pagetable : Nat) :
    (fuel i : Nat) → Phys → Except String Phys
  | 0, _, m => .ok m
  | fuel + 1, i, m =>
      if i < 512 then
        let pte := m.pte (pagetable + 8 * i)
        if pte &&& PTE_V ≠ 0 ∧ pte &&& (PTE_R ||| PTE_W ||| PTE_X) = 0 then
          match child (PTE2PA pte) m with
          | .error e => .error e
          | .ok m => freewalkLoop child pagetable fuel (i + 1) (m.setPte (pagetable + 8 * i) 0)
        else if pte &&& PTE_V ≠ 0 then .error "freewalk: leaf"
        else freewalkLoop child pagetable fuel (i + 1) m
      else .ok m

/-- `freewalk(pagetable)`.  The C recursion follows the pointers it finds;
`depth` bounds it.  `uvmfree` passes the number of pages below `PHYSTOP`: a
longer chain of tables revisits a page, where the C recursion never
returns. -/
def freewalk : (depth pagetable : Nat) → Phys → Except String Phys
  | 0, _, _ => .error "freewalk: too deep"
  | depth + 1, pagetable, m =>
      match freewalkLoop (freewalk depth) pagetable 512 0 m with
      | .error e => .error e
      | .ok m => kfree m pagetable

/-- `uvmfree(pagetable, sz)`. -/
def uvmfree (m : Phys) (pagetable sz : Nat) : Except String Phys :=
  match (if sz > 0 then uvmunmap m pagetable 0 (PGROUNDUP sz / PGSIZE) true else .ok m) with
  | .error e => .error e
  | .ok m => freewalk (PHYSTOP / PGSIZE) pagetable m

/-! ## The loop, entry by entry -/

theorem entry_eq_some_iff {m : Phys} {t i e : Nat} :
    entry m t i = some e ↔ m.pte (t + 8 * i) &&& PTE_V ≠ 0 ∧ m.pte (t + 8 * i) = e := by
  unfold entry
  split <;> simp_all

theorem entry_eq_none_iff {m : Phys} {t i : Nat} : entry m t i = none ↔ m.pte (t + 8 * i) &&& PTE_V = 0 := by
  unfold entry
  split <;> simp_all

theorem Phys.pte_of_page {m m' : Phys} {a : Nat} (same : m'.page (a / PGSIZE) = m.page (a / PGSIZE)) :
    m'.pte a = m.pte a := by
  simp only [Phys.pte, same]

section Loop

variable {child : Nat → Phys → Except String Phys} {t fuel i : Nat} {m : Phys}

theorem freewalkLoop_done (child : Nat → Phys → Except String Phys) (t fuel : Nat) (m : Phys) :
    freewalkLoop child t fuel 512 m = .ok m := by
  cases fuel <;> rfl

/-- An invalid entry: the loop goes on. -/
theorem freewalkLoop_invalid (index : i < 512) (invalid : entry m t i = none) :
    freewalkLoop child t (fuel + 1) i m = freewalkLoop child t fuel (i + 1) m := by
  have bit := entry_eq_none_iff.mp invalid
  rw [freewalkLoop, if_pos index]
  simp only [bit, ne_eq, not_true_eq_false, false_and, if_false]

/-- A pointer: the loop frees the table below, clears the entry and goes on. -/
theorem freewalkLoop_pointer {e : Nat} {m' : Phys} (index : i < 512) (found : entry m t i = some e)
    (pointer : e &&& (PTE_R ||| PTE_W ||| PTE_X) = 0) (freed : child (PTE2PA e) m = .ok m') :
    freewalkLoop child t (fuel + 1) i m = freewalkLoop child t fuel (i + 1) (m'.setPte (t + 8 * i) 0) := by
  obtain ⟨valid, rfl⟩ := entry_eq_some_iff.mp found
  rw [freewalkLoop, if_pos index]
  simp only [if_pos (And.intro valid pointer), freed]

/-- A table with no valid entry: the loop changes nothing. -/
theorem freewalkLoop_empty (empty : ∀ j, j < 512 → entry m t j = none) :
    ∀ fuel i, freewalkLoop child t fuel i m = .ok m
  | 0, _ => rfl
  | fuel + 1, i => by
    by_cases index : i < 512
    · rw [freewalkLoop_invalid index (empty i index)]
      exact freewalkLoop_empty empty fuel (i + 1)
    · rw [freewalkLoop, if_neg index]

end Loop

/-! ## Bare tables -/

/-- A page `kfree` takes. -/
def Freeable (m : Phys) (p : Nat) : Prop := p % PGSIZE = 0 ∧ m.kernEnd ≤ p ∧ p < PHYSTOP

/-- The table at `t` holds no leaf `level` levels down: at level 0 it has no
valid entry, and above, each valid entry has no `R`, `W` or `X` bit and points
to such a table one level down.  Every table is a page `kfree` takes. -/
def Bare (m : Phys) : (level t : Nat) → Prop
  | 0, t => Freeable m t ∧ ∀ i, i < 512 → entry m t i = none
  | level + 1, t => Freeable m t ∧ ∀ i, i < 512 → ∀ e, entry m t i = some e →
      e &&& (PTE_R ||| PTE_W ||| PTE_X) = 0 ∧ Bare m level (PTE2PA e)

/-- The tables under the table at `t`, `level` levels down, in the order
`freewalk` frees them: those under each valid entry, then `t`. -/
def tablesBelow (m : Phys) : (level t : Nat) → List Nat
  | 0, t => [t]
  | level + 1, t =>
      (List.range 512).flatMap (fun i => (entry m t i).elim [] fun e => tablesBelow m level (PTE2PA e)) ++ [t]

/-- The tables under entry `i` of the table at `t`. -/
def childTables (m : Phys) (level t i : Nat) : List Nat :=
  (entry m t i).elim [] fun e => tablesBelow m level (PTE2PA e)

/-- The tables under the entries before `i`: what `freewalk` has freed when
its loop reaches `i`. -/
def sweptTables (m : Phys) (level t i : Nat) : List Nat := (List.range i).flatMap (childTables m level t)

section Tables

variable {m : Phys} {level t i p : Nat}

theorem tablesBelow_zero : tablesBelow m 0 t = [t] := rfl

theorem tablesBelow_succ : tablesBelow m (level + 1) t = sweptTables m level t 512 ++ [t] := rfl

theorem mem_childTables :
    p ∈ childTables m level t i ↔ ∃ e, entry m t i = some e ∧ p ∈ tablesBelow m level (PTE2PA e) := by
  unfold childTables
  cases entry m t i <;> simp

theorem sweptTables_succ : sweptTables m level t (i + 1) = sweptTables m level t i ++ childTables m level t i := by
  simp only [sweptTables, List.range_succ, List.flatMap_append, List.flatMap_singleton]

theorem sweptTables_mono {n : Nat} (le : i ≤ n) : sweptTables m level t i <+: sweptTables m level t n := by
  obtain ⟨k, rfl⟩ := Nat.exists_eq_add_of_le le
  rw [sweptTables, sweptTables, List.range_add, List.flatMap_append]
  exact List.prefix_append _ _

theorem mem_sweptTables : p ∈ sweptTables m level t i ↔ ∃ j, j < i ∧ p ∈ childTables m level t j := by
  simp [sweptTables]

/-- Distinct tables under a table at `level + 1`: each child's are distinct,
apart from the children's before it, and none is the table itself. -/
theorem nodup_child (nodup : (tablesBelow m (level + 1) t).Nodup) (index : i < 512) :
    (childTables m level t i).Nodup ∧ (∀ p ∈ childTables m level t i, p ∉ sweptTables m level t i) ∧
      ∀ p ∈ childTables m level t i, p ≠ t := by
  rw [tablesBelow_succ, List.nodup_append] at nodup
  obtain ⟨swept, -, notLast⟩ := nodup
  have upTo : (sweptTables m level t i ++ childTables m level t i).Nodup := by
    rw [← sweptTables_succ]
    exact swept.sublist (sweptTables_mono index).sublist
  rw [List.nodup_append] at upTo
  refine ⟨upTo.2.1, fun p mem before => upTo.2.2 p before p mem rfl, fun p mem same => ?_⟩
  have inSwept : p ∈ sweptTables m level t 512 := mem_sweptTables.mpr ⟨i, index, mem⟩
  exact notLast p inSwept t (List.mem_singleton_self t) same

end Tables

theorem Freeable.aligned {m : Phys} {p : Nat} (freeable : Freeable m p) : p % PGSIZE = 0 := freeable.1

theorem Bare.freeable {m : Phys} : ∀ {level t : Nat}, Bare m level t → Freeable m t
  | 0, _, bare => bare.1
  | _ + 1, _, bare => bare.1

/-- Every table under a bare table is a page `kfree` takes. -/
theorem Bare.freeable_of_mem {m : Phys} {p : Nat} (level : Nat) : ∀ {t : Nat}, Bare m level t →
    p ∈ tablesBelow m level t → Freeable m p := by
  induction level with
  | zero =>
    intro t bare mem
    rw [tablesBelow_zero, List.mem_singleton] at mem
    rw [mem]
    exact bare.1
  | succ level ih =>
    intro t bare mem
    rw [tablesBelow_succ, List.mem_append, List.mem_singleton, mem_sweptTables] at mem
    rcases mem with ⟨i, index, below⟩ | same
    · obtain ⟨e, found, below⟩ := mem_childTables.mp below
      exact ih (bare.2 i index e found).2 below
    · rw [same]
      exact bare.1

/-- Two tables under a bare table lie in one page only if they are one. -/
theorem Bare.page_ne {m : Phys} {level t p q : Nat} (bare : Bare m level t) (hp : p ∈ tablesBelow m level t)
    (hq : q ∈ tablesBelow m level t) (ne : p ≠ q) : p / PGSIZE ≠ q / PGSIZE := fun same =>
  ne (eq_of_page (bare.freeable_of_mem level hp).aligned (bare.freeable_of_mem level hq).aligned same)

/-- Whether a table is bare, and its tables, read only the pages of those
tables and the end of the kernel. -/
theorem Bare.congr {m m' : Phys} (kernEnd : m'.kernEnd = m.kernEnd) : ∀ (level : Nat) {t : Nat},
    Bare m level t → (∀ p ∈ tablesBelow m level t, m'.page (p / PGSIZE) = m.page (p / PGSIZE)) →
    Bare m' level t ∧ tablesBelow m' level t = tablesBelow m level t := by
  have freeable : ∀ {p}, Freeable m p → Freeable m' p := fun {p} ⟨aligned, above, below⟩ =>
    ⟨aligned, kernEnd ▸ above, below⟩
  -- the entries of `t` itself are read from its page
  have entries : ∀ {t i}, Freeable m t → i < 512 → m'.page (t / PGSIZE) = m.page (t / PGSIZE) →
      entry m' t i = entry m t i := fun free index same => entry_of_page free.aligned index same
  intro level
  induction level with
  | zero =>
    intro t bare same
    have top := same t (List.mem_singleton_self t)
    exact ⟨⟨freeable bare.1, fun i index => (entries bare.1 index top).trans (bare.2 i index)⟩, rfl⟩
  | succ level ih =>
    intro t bare same
    have top := same t (by rw [tablesBelow_succ]; exact List.mem_append_right _ (List.mem_singleton_self t))
    -- each child's tables are among `t`'s
    have under : ∀ i e, i < 512 → entry m t i = some e →
        ∀ p ∈ tablesBelow m level (PTE2PA e), m'.page (p / PGSIZE) = m.page (p / PGSIZE) :=
      fun i e index found p mem => same p (by
        rw [tablesBelow_succ]
        exact List.mem_append_left _ (mem_sweptTables.mpr ⟨i, index, mem_childTables.mpr ⟨e, found, mem⟩⟩))
    refine ⟨⟨freeable bare.1, fun i index e found => ?_⟩, ?_⟩
    · rw [entries bare.1 index top] at found
      obtain ⟨pointer, child⟩ := bare.2 i index e found
      exact ⟨pointer, (ih child (under i e index found)).1⟩
    · have children : ∀ i ∈ List.range 512, childTables m' level t i = childTables m level t i := fun i mem => by
        have index := List.mem_range.mp mem
        simp only [childTables, entries bare.1 index top]
        rcases found : entry m t i with _ | e
        · simp only [Option.elim_none]
        · simp only [Option.elim_some]
          exact (ih (bare.2 i index e found).2 (under i e index found)).2
      simp only [tablesBelow_succ, sweptTables, List.flatMap_congr children]

/-! ## `freewalk` over a bare table -/

/-- What `freewalk` leaves, from `m`, having freed `tables`: they are pushed
on the free list in order, and no other page is written. -/
structure Freed (m m' : Phys) (tables : List Nat) : Prop where
  freelist : m'.freelist = tables.reverse ++ m.freelist
  kernEnd : m'.kernEnd = m.kernEnd
  pages : ∀ q, (∀ p ∈ tables, p / PGSIZE ≠ q) → m'.page q = m.page q

/-- `freewalk`'s loop at entry `i` of the table at `t`, from `m`: the tables
under the entries before `i` are freed in order, no page but theirs and `t`'s
is written, and the entries from `i` on are as they were. -/
structure Swept (m m' : Phys) (level t i : Nat) : Prop where
  freelist : m'.freelist = (sweptTables m level t i).reverse ++ m.freelist
  kernEnd : m'.kernEnd = m.kernEnd
  pages : ∀ q, (∀ p ∈ sweptTables m level t i, p / PGSIZE ≠ q) → q ≠ t / PGSIZE → m'.page q = m.page q
  rest : ∀ j, i ≤ j → j < 512 → m'.pte (t + 8 * j) = m.pte (t + 8 * j)

theorem Swept.start (m : Phys) (level t : Nat) : Swept m m level t 0 where
  freelist := rfl
  kernEnd := rfl
  pages _ _ _ := rfl
  rest _ _ _ := rfl

section Sweep

variable {m : Phys} {level t depth : Nat} (bare : Bare m (level + 1) t)
  (nodup : (tablesBelow m (level + 1) t).Nodup)
  (child : ∀ {c : Nat} {m₁ : Phys}, Bare m₁ level c → (tablesBelow m₁ level c).Nodup →
    ∃ m₂, freewalk depth c m₁ = .ok m₂ ∧ Freed m₁ m₂ (tablesBelow m₁ level c))

include bare nodup child in
/-- One entry of `freewalk`'s loop over a bare table, given what `freewalk`
does one level down. -/
theorem Swept.step {i : Nat} {m₁ : Phys} (swept : Swept m m₁ level t i) (index : i < 512) (fuel : Nat) :
    ∃ m₂, freewalkLoop (freewalk depth) t (fuel + 1) i m₁ = freewalkLoop (freewalk depth) t fuel (i + 1) m₂ ∧
      Swept m m₂ level t (i + 1) := by
  have tPage : ∀ {m₂ : Phys}, m₂.page (t / PGSIZE) = m₁.page (t / PGSIZE) →
      ∀ j, j < 512 → m₂.pte (t + 8 * j) = m₁.pte (t + 8 * j) := fun same j hj =>
    Phys.pte_of_page (by rw [slot_page bare.1.aligned hj]; exact same)
  have entry₁ : entry m₁ t i = entry m t i := entry_congr (swept.rest i (Nat.le_refl i) index)
  rcases found : entry m t i with _ | e
  · -- an invalid entry: nothing under it
    have none₁ : childTables m level t i = [] := by simp only [childTables, found, Option.elim_none]
    refine ⟨m₁, freewalkLoop_invalid index (entry₁.trans found), ?_, swept.kernEnd, ?_, ?_⟩
    · rw [swept.freelist, sweptTables_succ, none₁, List.append_nil]
    · intro q outside notT
      exact swept.pages q (fun p mem => outside p (by rw [sweptTables_succ]; exact List.mem_append_left _ mem)) notT
    · exact fun j after hj => swept.rest j (Nat.le_of_succ_le after) hj
  · -- a pointer: free the tables under it, then clear the entry
    obtain ⟨pointer, bareChild⟩ := bare.2 i index e found
    have children : childTables m level t i = tablesBelow m level (PTE2PA e) := by
      simp only [childTables, found, Option.elim_some]
    obtain ⟨nodupChild, fresh, notT⟩ := nodup_child nodup index
    rw [children] at nodupChild fresh notT
    have inT : ∀ p ∈ tablesBelow m level (PTE2PA e), p ∈ tablesBelow m (level + 1) t := fun p mem => by
      rw [tablesBelow_succ]
      exact List.mem_append_left _ (mem_sweptTables.mpr ⟨i, index, by rw [children]; exact mem⟩)
    have tInT : t ∈ tablesBelow m (level + 1) t := by
      rw [tablesBelow_succ]
      exact List.mem_append_right _ (List.mem_singleton_self t)
    -- the child's tables are untouched so far
    have same : ∀ p ∈ tablesBelow m level (PTE2PA e), m₁.page (p / PGSIZE) = m.page (p / PGSIZE) := by
      intro p mem
      refine swept.pages _ (fun p' before => ?_) (bare.page_ne (inT p mem) tInT (notT p mem))
      have inT' : p' ∈ tablesBelow m (level + 1) t := by
        rw [tablesBelow_succ]
        exact List.mem_append_left _ ((sweptTables_mono (Nat.le_of_lt index)).subset before)
      exact bare.page_ne inT' (inT p mem) fun eq => fresh p mem (eq ▸ before)
    obtain ⟨bare₁, tables₁⟩ := Bare.congr swept.kernEnd level bareChild same
    obtain ⟨m₂, run, freed⟩ := child bare₁ (tables₁ ▸ nodupChild)
    rw [tables₁] at freed
    refine ⟨m₂.setPte (t + 8 * i) 0, freewalkLoop_pointer index (entry₁.trans found) pointer run, ?_, ?_, ?_, ?_⟩
    · rw [Phys.setPte_freelist, freed.freelist, swept.freelist, sweptTables_succ, children, List.reverse_append,
        List.append_assoc]
    · rw [Phys.setPte_kernEnd, freed.kernEnd, swept.kernEnd]
    · intro q outside notT'
      rw [sweptTables_succ, children] at outside
      rw [Phys.setPte_page_of_ne _ _ (by rw [slot_page bare.1.aligned index]; exact notT'),
        freed.pages q fun p mem => outside p (List.mem_append_right _ mem)]
      exact swept.pages q (fun p mem => outside p (List.mem_append_left _ mem)) notT'
    · intro j after hj
      have slot : t + 8 * j ≠ t + 8 * i := by omega
      have aligned := slot_aligned (i := i) bare.1.aligned
      rw [Phys.pte_setPte_of_ne _ _ aligned (slot_aligned bare.1.aligned) slot,
        tPage (freed.pages _ fun p mem => bare.page_ne (inT p mem) tInT (notT p mem)) j hj]
      exact swept.rest j (Nat.le_of_succ_le after) hj

include bare nodup child in
/-- `freewalk`'s loop over a bare table, from entry `i` to the end. -/
theorem freewalkLoop_swept : ∀ (fuel i : Nat) {m₁ : Phys}, i + fuel = 512 → Swept m m₁ level t i →
    ∃ m₂, freewalkLoop (freewalk depth) t fuel i m₁ = .ok m₂ ∧ Swept m m₂ level t 512
  | 0, i, m₁, last, swept => ⟨m₁, by rw [Nat.add_zero] at last; rw [last, freewalkLoop_done], by
      rw [Nat.add_zero] at last
      exact last ▸ swept⟩
  | fuel + 1, i, m₁, last, swept => by
    obtain ⟨m₂, step, swept₂⟩ := swept.step bare nodup child (by omega) fuel
    rw [step]
    exact freewalkLoop_swept fuel (i + 1) (by omega) swept₂

end Sweep

/-- **`freewalk` frees a bare table.**  On a table with no leaf `level`
levels down, whose tables are distinct pages, `freewalk` with more than
`level` levels of recursion returns, pushes the tables on the free list in
the order of `tablesBelow`, and writes no other page.  By induction on the
level; `freewalkLoop_swept` carries each level's loop. -/
theorem freewalk_bare : ∀ (level : Nat) {depth t : Nat} {m : Phys}, level < depth → Bare m level t →
    (tablesBelow m level t).Nodup → ∃ m', freewalk depth t m = .ok m' ∧ Freed m m' (tablesBelow m level t) := by
  intro level
  induction level with
  | zero =>
    intro depth t m deep bare _
    obtain ⟨depth, rfl⟩ := Nat.exists_eq_add_of_lt deep
    obtain ⟨⟨aligned, above, below⟩, empty⟩ := bare
    refine ⟨{ m.memset t 1 with freelist := t :: m.freelist }, ?_, ⟨rfl, rfl, fun q outside => ?_⟩⟩
    · rw [Nat.zero_add, freewalk, freewalkLoop_empty empty]
      exact kfree_eq_ok aligned above below
    · exact Phys.memset_page_of_ne _ _ fun same => outside t (List.mem_singleton_self t) same.symm
  | succ level ih =>
    intro depth t m deep bare nodup
    obtain ⟨depth, rfl⟩ : ∃ d, depth = d + 1 := ⟨depth - 1, by omega⟩
    have child : ∀ {c : Nat} {m₁ : Phys}, Bare m₁ level c → (tablesBelow m₁ level c).Nodup →
        ∃ m₂, freewalk depth c m₁ = .ok m₂ ∧ Freed m₁ m₂ (tablesBelow m₁ level c) :=
      fun bare' nodup' => ih (by omega) bare' nodup'
    obtain ⟨m₂, loop, swept⟩ := freewalkLoop_swept bare nodup child 512 0 rfl (Swept.start m level t)
    obtain ⟨aligned, above, below⟩ := bare.1
    have freed := kfree_eq_ok aligned (swept.kernEnd ▸ above) below
    refine ⟨{ m₂.memset t 1 with freelist := t :: m₂.freelist }, by rw [freewalk, loop]; exact freed,
      ⟨?_, swept.kernEnd, fun q outside => ?_⟩⟩
    · rw [swept.freelist, tablesBelow_succ, List.reverse_append, List.reverse_singleton, List.singleton_append,
        List.cons_append]
    · rw [tablesBelow_succ] at outside
      have notT : q ≠ t / PGSIZE := fun same => outside t (List.mem_append_right _ (List.mem_singleton_self t))
        same.symm
      rw [Phys.memset_page_of_ne _ _ notT]
      exact swept.pages q (fun p mem => outside p (List.mem_append_left _ mem)) notT

/-! ## A tree with no leaf -/

/-- No `R`, `W` or `X` bit on a valid entry of the root or of a level-1
table: each points to a table, as `walk` makes them. -/
structure Pointers (m : Phys) (root : Nat) : Prop where
  atRoot : ∀ i, i < 512 → ∀ e, entry m root i = some e → e &&& (PTE_R ||| PTE_W ||| PTE_X) = 0
  atOne : ∀ i t, i < 512 → table1 m root i = some t → ∀ j, j < 512 → ∀ e, entry m t j = some e →
    e &&& (PTE_R ||| PTE_W ||| PTE_X) = 0

section TreeTables

variable {m : Phys} {root : Nat}

theorem table1_of_entry {i e : Nat} (found : entry m root i = some e) : table1 m root i = some (PTE2PA e) := by
  simp only [table1, found, Option.map_some]

theorem table0_of_entry {i j t e : Nat} (one : table1 m root i = some t) (found : entry m t j = some e) :
    table0 m root i j = some (PTE2PA e) := by
  simp only [table0, one, Option.bind_some, found, Option.map_some]

/-- The address whose indices are `i`, `j` and `k` reads entry `k` of the
level-0 table at `i` and `j`. -/
theorem lookup_index {i j k t : Nat} (hi : i < 512) (hj : j < 512) (hk : k < 512)
    (found : table0 m root i j = some t) : lookup m root (i * 2 ^ 30 + j * 2 ^ 21 + k * 2 ^ 12) = entry m t k := by
  have px : PX 2 (i * 2 ^ 30 + j * 2 ^ 21 + k * 2 ^ 12) = i ∧ PX 1 (i * 2 ^ 30 + j * 2 ^ 21 + k * 2 ^ 12) = j ∧
      PX 0 (i * 2 ^ 30 + j * 2 ^ 21 + k * 2 ^ 12) = k := by
    simp only [PX_eq]
    norm_num
    omega
  rw [lookup, px.1, px.2.1, px.2.2, found, Option.bind_some]

/-- A tree whose pointers are as `walk` makes them, whose tables `kfree`
takes and whose level-0 tables have no valid entry is bare at level 2. -/
theorem Pointers.bare (pointers : Pointers m root) (tables : ∀ t, IsTable m root t → Freeable m t)
    (noLeaf : ∀ i j t, i < 512 → j < 512 → table0 m root i j = some t → ∀ k, k < 512 → entry m t k = none) :
    Bare m 2 root := by
  refine ⟨tables root (.inl rfl), fun i index e found => ⟨pointers.atRoot i index e found, ?_⟩⟩
  have one := table1_of_entry found
  refine ⟨tables _ (.inr (.inl ⟨i, index, one⟩)), fun j jndex e' found' => ⟨pointers.atOne i _ index one j jndex e' found', ?_⟩⟩
  have zero := table0_of_entry one found'
  exact ⟨tables _ (.inr (.inr ⟨i, index, j, jndex, zero⟩)), noLeaf i j _ index jndex zero⟩

theorem mem_tablesBelow_one {c p : Nat} :
    p ∈ tablesBelow m 1 c ↔ (∃ j, j < 512 ∧ ∃ e, entry m c j = some e ∧ PTE2PA e = p) ∨ p = c := by
  simp only [tablesBelow_succ, List.mem_append, List.mem_singleton, mem_sweptTables, mem_childTables,
    tablesBelow_zero]
  constructor
  · rintro (⟨j, jndex, e, found, rfl⟩ | rfl)
    · exact .inl ⟨j, jndex, e, found, rfl⟩
    · exact .inr rfl
  · rintro (⟨j, jndex, e, found, rfl⟩ | rfl)
    · exact .inl ⟨j, jndex, e, found, rfl⟩
    · exact .inr rfl

/-- The tables under entry `i` of the root: its level-1 table and that
table's level-0 tables. -/
theorem mem_childTables_one {i p : Nat} :
    p ∈ childTables m 1 root i ↔ table1 m root i = some p ∨ ∃ j, j < 512 ∧ table0 m root i j = some p := by
  rw [mem_childTables]
  rcases found : entry m root i with _ | e
  · simp [table1, table0, found]
  · have one := table1_of_entry found
    simp only [Option.some.injEq, exists_eq_left', mem_tablesBelow_one, one]
    constructor
    · rintro (⟨j, jndex, e', found', rfl⟩ | rfl)
      · exact .inr ⟨j, jndex, table0_of_entry one found'⟩
      · exact .inl rfl
    · rintro (rfl | ⟨j, jndex, zero⟩)
      · exact .inr rfl
      · simp only [table0, one, Option.bind_some, Option.map_eq_some_iff] at zero
        obtain ⟨e', found', rfl⟩ := zero
        exact .inl ⟨j, jndex, e', found', rfl⟩

/-- The tables `freewalk` frees from the root are the tables of the tree. -/
theorem mem_tablesBelow_two {p : Nat} : p ∈ tablesBelow m 2 root ↔ IsTable m root p := by
  rw [tablesBelow_succ, List.mem_append, List.mem_singleton, mem_sweptTables]
  simp only [mem_childTables_one, IsTable]
  constructor
  · rintro (⟨i, index, one | ⟨j, jndex, zero⟩⟩ | rfl)
    · exact .inr (.inl ⟨i, index, one⟩)
    · exact .inr (.inr ⟨i, index, j, jndex, zero⟩)
    · exact .inl rfl
  · rintro (rfl | ⟨i, index, one⟩ | ⟨i, index, j, jndex, zero⟩)
    · exact .inr rfl
    · exact .inl ⟨i, index, .inl one⟩
    · exact .inl ⟨i, index, .inr ⟨j, jndex, zero⟩⟩

/-- A tree's tables, as `freewalk` frees them from the root, are distinct:
the conditions of `Tree` say that no table is entered twice. -/
theorem Tree.nodup_tablesBelow (tree : Tree m root) : (tablesBelow m 2 root).Nodup := by
  rw [tablesBelow_succ, List.nodup_append]
  refine ⟨?_, List.nodup_singleton root, fun a mem b same => ?_⟩
  · rw [sweptTables, List.nodup_flatMap]
    refine ⟨fun i mem => ?_, List.nodup_range.pairwise_of_forall_ne fun i hi i' hi' ne => ?_⟩
    · -- one root entry: its level-1 table, then that table's level-0 tables, each once
      have index := List.mem_range.mp mem
      rcases found : entry m root i with _ | e
      · simp only [childTables, found, Option.elim_none, List.nodup_nil]
      have one := table1_of_entry found
      simp only [childTables, found, Option.elim_some]
      rw [tablesBelow_succ, List.nodup_append, sweptTables, List.nodup_flatMap]
      refine ⟨⟨fun j _ => ?_, List.nodup_range.pairwise_of_forall_ne fun j hj j' hj' ne' => ?_⟩,
        List.nodup_singleton _, fun a mem' b same' => ?_⟩
      · unfold childTables
        cases entry m (PTE2PA e) j <;> simp [tablesBelow_zero]
      · refine List.disjoint_left.mpr fun a mem₁ mem₂ => ne' ?_
        obtain ⟨e₁, found₁, rfl⟩ : ∃ e₁, entry m (PTE2PA e) j = some e₁ ∧ PTE2PA e₁ = a := by
          simpa [mem_childTables, tablesBelow_zero, eq_comm] using mem₁
        obtain ⟨e₂, found₂, same₂⟩ : ∃ e₂, entry m (PTE2PA e) j' = some e₂ ∧ PTE2PA e₂ = PTE2PA e₁ := by
          simpa [mem_childTables, tablesBelow_zero, eq_comm] using mem₂
        exact (tree.zero_inj index (List.mem_range.mp hj) index (List.mem_range.mp hj')
          (table0_of_entry one found₁) (same₂ ▸ table0_of_entry one found₂)).2
      · rw [List.mem_singleton] at same'
        subst same'
        obtain ⟨j, jndex, below⟩ := mem_sweptTables.mp mem'
        obtain ⟨e', found', rfl⟩ : ∃ e', entry m (PTE2PA e) j = some e' ∧ PTE2PA e' = a := by
          simpa [mem_childTables, tablesBelow_zero, eq_comm] using below
        exact fun same => tree.zero_ne_one index jndex index (table0_of_entry one found') (by rw [one, same])
    · -- two root entries: their tables are apart
      refine List.disjoint_left.mpr fun a mem₁ mem₂ => ne ?_
      have index := List.mem_range.mp hi
      have index' := List.mem_range.mp hi'
      rcases mem_childTables_one.mp mem₁ with one | ⟨j, jndex, zero⟩ <;>
        rcases mem_childTables_one.mp mem₂ with one' | ⟨j', jndex', zero'⟩
      · exact tree.one_inj index index' one one'
      · exact absurd one (tree.zero_ne_one index' jndex' index zero')
      · exact absurd one' (tree.zero_ne_one index jndex index' zero)
      · exact (tree.zero_inj index jndex index' jndex' zero zero').1
  · -- the root is no table below itself
    rw [List.mem_singleton] at same
    subst same
    obtain ⟨i, index, below⟩ := mem_sweptTables.mp mem
    rcases mem_childTables_one.mp below with one | ⟨j, jndex, zero⟩
    · exact tree.one_ne_root index one
    · exact tree.zero_ne_root index jndex zero

/-- The pointers of a tree read only the pages of the root and of the
level-1 tables. -/
theorem Pointers.of_pages {m' : Phys} (tree : Tree m root) (pointers : Pointers m root)
    (same : ∀ t, (t = root ∨ ∃ i, i < 512 ∧ table1 m root i = some t) → m'.page (t / PGSIZE) = m.page (t / PGSIZE)) :
    Pointers m' root := by
  have rootEntries : ∀ i, i < 512 → entry m' root i = entry m root i := fun i index =>
    entry_of_page tree.aligned index (same root (.inl rfl))
  refine ⟨fun i index e found => pointers.atRoot i index e ((rootEntries i index).symm.trans found),
    fun i t index one j jndex e found => ?_⟩
  have sameOne : table1 m' root i = table1 m root i := by simp only [table1, rootEntries i index]
  have one' : table1 m root i = some t := sameOne.symm.trans one
  rw [entry_of_page (table1_aligned one') jndex (same t (.inr ⟨i, index, one'⟩))] at found
  exact pointers.atOne i t index one' j jndex e found

end TreeTables

/-! ## `uvmfree` -/

/-- What `uvmfree(pagetable, sz)` asks of memory: a tree whose pointers are
as `walk` makes them and whose tables `kfree` takes; each page below
`PGROUNDUP(sz)` mapped by a leaf to a page `kfree` takes that is no table;
and no other page of the 39-bit space the three levels index mapped. -/
structure FreeReady (m : Phys) (root sz : Nat) : Prop where
  tree : Tree m root
  pointers : Pointers m root
  tables : ∀ t, IsTable m root t → m.kernEnd ≤ t ∧ t < PHYSTOP
  leaves : ∀ va, va % PGSIZE = 0 → va < PGROUNDUP sz → ∃ e, lookup m root va = some e ∧ PTE_FLAGS e ≠ PTE_V ∧
    m.kernEnd ≤ PTE2PA e ∧ PTE2PA e < PHYSTOP ∧ ¬IsTable m root (PTE2PA e)
  only : ∀ va, va < 2 ^ 39 → lookup m root va ≠ none → va < PGROUNDUP sz
  small : PGROUNDUP sz ≤ MAXVA

/-- What the `uvmunmap` of `uvmfree` leaves, from `m`, having freed `n` user
pages: the tree with its tables and pointers, mapping nothing; the user pages
on the free list; every page but the level-0 tables and the freed ones as it
was. -/
structure Emptied (m m₁ : Phys) (root n : Nat) : Prop where
  tree : Tree m₁ root
  tables : ∀ t, IsTable m₁ root t ↔ IsTable m root t
  pointers : Pointers m₁ root
  kernEnd : m₁.kernEnd = m.kernEnd
  empty : ∀ va, va < 2 ^ 39 → lookup m₁ root va = none
  freelist : m₁.freelist = freedPages m root 0 n ++ m.freelist
  pages : ∀ q, (∀ i j t, i < 512 → j < 512 → table0 m root i j = some t → t / PGSIZE ≠ q) →
    (∀ k e, k < n → lookup m root (k * PGSIZE) = some e → PTE2PA e / PGSIZE ≠ q) → m₁.page q = m.page q

section Free

variable {m : Phys} {root sz : Nat}

/-- `uvmfree`'s `uvmunmap` of the user pages returns and empties the tree. -/
theorem FreeReady.unmap (ready : FreeReady m root sz) :
    ∃ m₁, (if sz > 0 then uvmunmap m root 0 (PGROUNDUP sz / PGSIZE) true else .ok m) = .ok m₁ ∧
      Emptied m m₁ root (PGROUNDUP sz / PGSIZE) := by
  have whole : PGROUNDUP sz / PGSIZE * PGSIZE = PGROUNDUP sz :=
    Nat.div_mul_cancel (Nat.dvd_of_mod_eq_zero (PGROUNDUP_aligned sz))
  -- an address of no user page is not mapped
  have outside : ∀ va, PGROUNDUP sz ≤ va → va < 2 ^ 39 → lookup m root va = none := fun va above below => by
    by_contra mapped
    exact absurd (ready.only va below mapped) (Nat.not_lt.mpr above)
  by_cases pos : sz > 0
  swap
  · have zero : PGROUNDUP sz = 0 := by rw [Nat.eq_zero_of_not_pos pos]; rfl
    refine ⟨m, if_neg pos, ⟨ready.tree, fun _ => Iff.rfl, ready.pointers, rfl, fun va below => outside va
      (by rw [zero]; exact Nat.zero_le va) below, ?_, fun _ _ _ => rfl⟩⟩
    rw [zero, Nat.zero_div]
    rfl
  rw [if_pos pos]
  have leaves : ∀ k, k < PGROUNDUP sz / PGSIZE → ∃ e, lookup m root (0 + k * PGSIZE) = some e ∧
      PTE_FLAGS e ≠ PTE_V ∧ m.kernEnd ≤ PTE2PA e ∧ PTE2PA e < PHYSTOP ∧ ¬IsTable m root (PTE2PA e) := fun k hk => by
    rw [Nat.zero_add]
    refine ready.leaves (k * PGSIZE) (Nat.mul_mod_left k PGSIZE) ?_
    rw [← whole]
    exact Nat.mul_lt_mul_of_pos_right hk (by decide)
  obtain ⟨m₁, run, kernEnd, noNew, frame⟩ :=
    uvmunmap_ok ready.tree (Nat.zero_mod PGSIZE) (by rw [Nat.zero_add, whole]; exact ready.small) leaves
  have fits : 0 + PGROUNDUP sz / PGSIZE * PGSIZE < 2 ^ 64 := by
    have small := ready.small
    rw [Nat.zero_add, whole]
    rw [MAXVA_eq] at small
    omega
  have notTables : true = true → ∀ k, k < PGROUNDUP sz / PGSIZE → ∀ e, lookup m root (0 + k * PGSIZE) = some e →
      ¬IsTable m root (PTE2PA e) := fun _ k hk e found => by
    obtain ⟨e', found', -, -, -, notTable⟩ := leaves k hk
    cases found.symm.trans found'
    exact notTable
  obtain ⟨-, tree₁, tables₁, look₁, list₁⟩ := uvmunmap_spec ready.tree fits notTables run
  rw [if_pos rfl] at list₁
  -- the pages `uvmunmap` writes: level-0 tables, and user pages, which are no tables
  have pages : ∀ q, (∀ i j t, i < 512 → j < 512 → table0 m root i j = some t → t / PGSIZE ≠ q) →
      (∀ k e, k < PGROUNDUP sz / PGSIZE → lookup m root (k * PGSIZE) = some e → PTE2PA e / PGSIZE ≠ q) →
      m₁.page q = m.page q := fun q notLeafTable notFreed =>
    frame q notLeafTable fun k e hk found => notFreed k e hk (by rw [← Nat.zero_add (k * PGSIZE)]; exact found)
  have upper : ∀ t, IsTable m root t → (∀ i j t', i < 512 → j < 512 → table0 m root i j = some t' → t' ≠ t) →
      m₁.page (t / PGSIZE) = m.page (t / PGSIZE) := fun t table notZero =>
    pages _ (fun i j t' hi hj found same => notZero i j t' hi hj found
        (eq_of_page (table0_aligned found) (table.aligned ready.tree) same))
      fun k e hk found same => (notTables rfl k hk e (by rw [Nat.zero_add]; exact found))
        (eq_of_page (PTE2PA_aligned e) (table.aligned ready.tree) same ▸ table)
  have pointers₁ : Pointers m₁ root := ready.pointers.of_pages ready.tree fun t upperTable => by
    rcases upperTable with rfl | ⟨i, index, one⟩
    · exact upper t (.inl rfl) fun i j t' hi hj found same => ready.tree.zero_ne_root hi hj found same
    · exact upper t (.inr (.inl ⟨i, index, one⟩)) fun i' j t' hi hj found same =>
        ready.tree.zero_ne_one hi hj index found (by rw [one, same])
  refine ⟨m₁, run, ⟨tree₁, tables₁, pointers₁, kernEnd, fun va below => ?_, list₁, pages⟩⟩
  by_cases user : va < PGROUNDUP sz
  · -- the start of `va`'s page was unmapped
    have start : (va / PGSIZE * PGSIZE) % PGSIZE = 0 := Nat.mul_mod_left _ _
    have startBelow : va / PGSIZE * PGSIZE < PGROUNDUP sz := by
      unfold PGSIZE at *
      omega
    have gone := look₁ _ start
    rw [if_pos ⟨Nat.zero_le _, by rw [Nat.zero_add, whole]; exact startBelow⟩] at gone
    rw [lookup_of_page (show va / PGSIZE = va / PGSIZE * PGSIZE / PGSIZE by unfold PGSIZE; omega)]
    exact lookup_of_pageMap_none (Nat.lt_of_lt_of_le startBelow ready.small) gone
  · exact noNew va (outside va (Nat.le_of_not_lt user) below)

/-- **`uvmfree` frees every page.**  On a tree that maps the pages below
`PGROUNDUP(sz)`, each by a leaf to a page `kfree` takes that is no table, and
maps nothing else, whose pointers are as `walk` makes them and whose tables
`kfree` takes, `uvmfree` returns.  The free list gains every table of the
tree, each once, then the user pages as `freedPages` reads them, and no page
that is neither a table nor a user page is written. -/
theorem uvmfree_frees (ready : FreeReady m root sz) :
    ∃ m', uvmfree m root sz = .ok m' ∧ ∃ tables, tables.Nodup ∧ (∀ p, p ∈ tables ↔ IsTable m root p) ∧
      m'.freelist = tables ++ freedPages m root 0 (PGROUNDUP sz / PGSIZE) ++ m.freelist ∧
      ∀ q, (∀ t, IsTable m root t → t / PGSIZE ≠ q) →
        (∀ k e, k < PGROUNDUP sz / PGSIZE → lookup m root (k * PGSIZE) = some e → PTE2PA e / PGSIZE ≠ q) →
        m'.page q = m.page q := by
  obtain ⟨m₁, unmapped, emptied⟩ := ready.unmap
  -- the emptied tree is bare: no level-0 table has a valid entry
  have noLeaf : ∀ i j t, i < 512 → j < 512 → table0 m₁ root i j = some t → ∀ k, k < 512 → entry m₁ t k = none :=
    fun i j t hi hj found k hk => by
      rw [← lookup_index hi hj hk found]
      exact emptied.empty _ (by omega)
  have tables : ∀ t, IsTable m₁ root t → Freeable m₁ t := fun t table =>
    have bounds := ready.tables t ((emptied.tables t).mp table)
    ⟨table.aligned emptied.tree, emptied.kernEnd ▸ bounds.1, bounds.2⟩
  have nodup := emptied.tree.nodup_tablesBelow
  obtain ⟨m', run, freed⟩ := freewalk_bare 2 (show 2 < PHYSTOP / PGSIZE by decide)
    (emptied.pointers.bare tables noLeaf) nodup
  refine ⟨m', by rw [uvmfree, unmapped]; exact run, (tablesBelow m₁ 2 root).reverse, List.nodup_reverse.mpr nodup,
    fun p => by rw [List.mem_reverse, mem_tablesBelow_two, emptied.tables], ?_, fun q outside notFreed => ?_⟩
  · rw [freed.freelist, emptied.freelist, List.append_assoc]
  · rw [freed.pages q fun p mem => outside p ((emptied.tables p).mp (mem_tablesBelow_two.mp mem))]
    exact emptied.pages q (fun i j t hi hj found => outside t (.inr (.inr ⟨i, hi, j, hj, found⟩))) notFreed

theorem onePagePhys_freeReady : FreeReady onePagePhys 4096 PGSIZE := by
  obtain ⟨-, tree, -, oldTables⟩ := onePagePhys_tree
  have round : PGROUNDUP PGSIZE = PGSIZE := by decide
  -- the only valid entry of each table is its first
  have rootOnly : ∀ i, i < 512 → table1 onePagePhys 4096 i ≠ none → i = 0 := by decide +kernel
  have oneOnly : ∀ j, j < 512 → table0 onePagePhys 4096 0 j ≠ none → j = 0 := by decide +kernel
  have leafOnly : ∀ k, k < 512 → (table0 onePagePhys 4096 0 0).bind (fun t => entry onePagePhys t k) ≠ none →
      k = 0 := by decide +kernel
  have leaf : lookup onePagePhys 4096 0 = some (PA2PTE 32768 ||| (PTE_R ||| PTE_W) ||| PTE_V) := by decide
  refine ⟨tree, ⟨fun i hi e found => ?_, fun i t hi one j hj e found => ?_⟩, fun t table => ?_,
    fun va aligned below => ?_, fun va below mapped => ?_, by decide⟩
  · exact (by decide +kernel : ∀ i, i < 512 → ∀ e ∈ entry onePagePhys 4096 i,
      e &&& (PTE_R ||| PTE_W ||| PTE_X) = 0) i hi e found
  · exact (by decide +kernel : ∀ i, i < 512 → ∀ t ∈ table1 onePagePhys 4096 i, ∀ j, j < 512 →
      ∀ e ∈ entry onePagePhys t j, e &&& (PTE_R ||| PTE_W ||| PTE_X) = 0) i hi t one j hj e found
  · rcases oldTables t table with rfl | start
    · decide
    · exact (by decide : ∀ t ∈ [8192, 12288, 16384, 20480, 24576], onePagePhys.kernEnd ≤ t ∧ t < PHYSTOP) t start
  · rw [round] at below
    obtain rfl : va = 0 := by
      unfold PGSIZE at *
      omega
    refine ⟨_, leaf, by decide, by decide, by decide, fun table => ?_⟩
    rcases oldTables _ table with same | start
    · exact absurd same (by decide)
    · exact absurd start (by decide)
  · -- a mapped address has the indices of the first page
    rw [round]
    have px2 : PX 2 va = 0 := rootOnly _ (PX_lt 2 va) fun none1 => mapped (by simp [lookup, table0, none1])
    have px1 : PX 1 va = 0 := oneOnly _ (PX_lt 1 va) fun none0 => mapped (by simp [lookup, px2, none0])
    have px0 : PX 0 va = 0 := leafOnly _ (PX_lt 0 va) fun noneL => mapped (by rw [lookup, px2, px1]; exact noneL)
    simp only [PX_eq] at px2 px1 px0
    norm_num at px2 px1 px0
    unfold PGSIZE
    omega

theorem uvmfree_frees_onePage :
    FreeReady onePagePhys 4096 PGSIZE ∧ ∃ m', uvmfree onePagePhys 4096 PGSIZE = .ok m' ∧
      ∃ tables : List Nat, tables.Nodup ∧ ∀ p, p ∈ tables ↔ IsTable onePagePhys 4096 p := by
  obtain ⟨m', run, tables, nodup, mem, -⟩ := uvmfree_frees onePagePhys_freeReady
  exact ⟨onePagePhys_freeReady, m', run, tables, nodup, mem⟩

end Free

end Paging

end Xv6
