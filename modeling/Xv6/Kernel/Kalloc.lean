/-
# Kernel.Kalloc -- kalloc.c's free list of physical pages

Physical memory is a map from page numbers to 4096-byte pages, with
`kmem.freelist` kept as a list of page addresses and `end`, the first address
after the kernel.  `kfree` checks its page, fills it with junk and pushes it;
`kalloc` pops the head and fills it with junk.  `kinit` hands `kfree` every
whole page from `PGROUNDUP(end)` to `PHYSTOP` (`freerange`).

A run is `kinit` followed by any `kalloc` and `kfree` calls in which `kfree`
is only given a page that `kalloc` handed out and that is not freed yet
(`Reachable`).  Along every run the free list and the pages handed out are,
together, a permutation of the pages `kinit` freed (`Pool`), which gives the
allocator's invariant: the free list is duplicate-free (as a chain of `next`
words through distinct pages, it is acyclic), holds whole pages in
`[PGROUNDUP(end), PHYSTOP)` and none that is handed out, `kfree` never
panics on a page handed out, and the two counts add up to the pages of the
pool (`kalloc_free_list`).
-/
import Xv6.Kernel.Vm
import Xv6.Theory.Bytes

namespace Xv6

namespace Paging

open Bytes

set_option autoImplicit false

/-! ## memlayout.h and riscv.h -/

/-- `PGROUNDUP(sz)`, `((sz)+PGSIZE-1) & ~(PGSIZE-1)` on a `uint64`. -/
def PGROUNDUP (sz : Nat) : Nat := (sz + PGSIZE - 1) % 2 ^ 64 / PGSIZE * PGSIZE

def KERNBASE : Nat := 0x80000000

def PHYSTOP : Nat := KERNBASE + 128 * 1024 * 1024

/-! ## Physical memory -/

/-- Physical memory: each page by its number, the free pages on
`kmem.freelist`, and `end`, the first address after the kernel.  The list
is kept here rather than in the `next` words of the free pages. -/
structure Phys where
  page : Nat → Fin PGSIZE → UInt8
  freelist : List Nat
  kernEnd : Nat

namespace Phys

/-- The 64-bit word at physical address `a`, read as a PTE. -/
def pte (m : Phys) (a : Nat) : Nat := field (m.page (a / PGSIZE)) (a % PGSIZE) 8

/-- `*pte = v`. -/
def setPte (m : Phys) (a v : Nat) : Phys :=
  { m with page := Function.update m.page (a / PGSIZE) (setField (m.page (a / PGSIZE)) (a % PGSIZE) 8 v) }

/-- `memset(pa, c, PGSIZE)`. -/
def memset (m : Phys) (pa : Nat) (c : UInt8) : Phys :=
  { m with page := Function.update m.page (pa / PGSIZE) fun _ => c }

end Phys

/-! ## kalloc.c -/

/-- `kalloc`: the first free page, filled with junk, or `none`. -/
def kalloc (m : Phys) : Option (Nat × Phys) :=
  match m.freelist with
  | [] => none
  | r :: rest => some (r, { m.memset r 5 with freelist := rest })

/-- `kfree`: the page, filled with junk, goes back to the front of the list. -/
def kfree (m : Phys) (pa : Nat) : Except String Phys :=
  if pa % PGSIZE ≠ 0 ∨ pa < m.kernEnd ∨ PHYSTOP ≤ pa then .error "kfree"
  else .ok { m.memset pa 1 with freelist := pa :: m.freelist }

/-- The loop of `freerange` from the page `p`: `kfree` of every whole page
below `paEnd`.  `fuel` bounds the number of pages, which the loop never
outruns. -/
def freeLoop (paEnd : Nat) : (fuel p : Nat) → Phys → Except String Phys
  | 0, _, m => .ok m
  | fuel + 1, p, m =>
      if p + PGSIZE ≤ paEnd then
        match kfree m p with
        | .error e => .error e
        | .ok m => freeLoop paEnd fuel (p + PGSIZE) m
      else .ok m

/-- `freerange(pa_start, pa_end)`. -/
def freerange (m : Phys) (paStart paEnd : Nat) : Except String Phys :=
  freeLoop paEnd (paEnd / PGSIZE) (PGROUNDUP paStart) m

/-- `kinit`: the pages from the end of the kernel to `PHYSTOP` go on the list. -/
def kinit (m : Phys) : Except String Phys := freerange m m.kernEnd PHYSTOP

theorem kalloc_of_cons {m : Phys} {p : Nat} {rest : List Nat} (free : m.freelist = p :: rest) :
    kalloc m = some (p, { m.memset p 5 with freelist := rest }) := by
  simp [kalloc, free]

theorem kalloc_of_nil {m : Phys} (empty : m.freelist = []) : kalloc m = none := by
  simp [kalloc, empty]

/-- `kalloc`'s junk, then `walk`'s zeroes. -/
theorem memset_taken {m : Phys} {p : Nat} {rest : List Nat} :
    ({ m.memset p 5 with freelist := rest } : Phys).memset p 0 = { m.memset p 0 with freelist := rest } := by
  simp [Phys.memset]

/-- `kfree` returns exactly when its page is whole and lies between the end of
the kernel and `PHYSTOP`, and then pushes it. -/
theorem kfree_eq_ok {m : Phys} {pa : Nat} (aligned : pa % PGSIZE = 0) (above : m.kernEnd ≤ pa) (below : pa < PHYSTOP) :
    kfree m pa = .ok { m.memset pa 1 with freelist := pa :: m.freelist } := by
  rw [kfree, if_neg (by omega)]

theorem kfree_freelist {m m' : Phys} {pa : Nat} (run : kfree m pa = .ok m') :
    m'.freelist = pa :: m.freelist ∧ m'.kernEnd = m.kernEnd ∧ m.kernEnd ≤ pa := by
  unfold kfree at run
  split at run
  · cases run
  · rename_i ok
    cases run
    exact ⟨rfl, rfl, by omega⟩

/-! ## `freerange` -/

/-- The `n` pages from `p`. -/
def pagesFrom (p n : Nat) : List Nat := (List.range n).map fun k => p + k * PGSIZE

theorem pagesFrom_succ (p n : Nat) : pagesFrom p (n + 1) = p :: pagesFrom (p + PGSIZE) n := by
  simp only [pagesFrom, List.range_succ_eq_map, List.map_cons, List.map_map, Nat.zero_mul, Nat.add_zero]
  congr 1
  refine List.map_congr_left fun k _ => ?_
  simp only [Function.comp, Nat.succ_mul]
  omega

theorem mem_pagesFrom {p n a : Nat} : a ∈ pagesFrom p n ↔ ∃ k, k < n ∧ a = p + k * PGSIZE := by
  simp only [pagesFrom, List.mem_map, List.mem_range]
  constructor
  · rintro ⟨k, hk, rfl⟩
    exact ⟨k, hk, rfl⟩
  · rintro ⟨k, hk, rfl⟩
    exact ⟨k, hk, rfl⟩

theorem pagesFrom_nodup (p n : Nat) : (pagesFrom p n).Nodup := by
  refine (List.nodup_range).map fun k l same => ?_
  unfold PGSIZE at same
  omega

/-- The loop of `freerange` pushes the pages from `p` that end below `paEnd`,
the first pushed first, when its fuel covers them. -/
theorem freeLoop_freelist (paEnd : Nat) (fuel : Nat) : ∀ (p : Nat) {m m' : Phys}, (paEnd - p) / PGSIZE ≤ fuel →
    freeLoop paEnd fuel p m = .ok m' →
    m'.freelist = (pagesFrom p ((paEnd - p) / PGSIZE)).reverse ++ m.freelist ∧ m'.kernEnd = m.kernEnd ∧
      ∀ q ∈ pagesFrom p ((paEnd - p) / PGSIZE), m.kernEnd ≤ q := by
  induction fuel with
  | zero =>
    intro p m m' none run
    simp only [freeLoop, Except.ok.injEq] at run
    subst run
    rw [Nat.le_zero.mp none]
    exact ⟨rfl, rfl, fun _ mem => absurd mem List.not_mem_nil⟩
  | succ fuel ih =>
    intro p m m' covered run
    by_cases fits : p + PGSIZE ≤ paEnd
    · rw [freeLoop, if_pos fits] at run
      rcases freed : kfree m p with e | m₁
      · rw [freed] at run
        cases run
      rw [freed] at run
      obtain ⟨list₁, end₁, first⟩ := kfree_freelist freed
      -- one page fewer from the next page on
      have count : (paEnd - p) / PGSIZE = (paEnd - (p + PGSIZE)) / PGSIZE + 1 := by
        unfold PGSIZE at *
        omega
      obtain ⟨list, kept, later⟩ := ih (p + PGSIZE) (by rw [count] at covered; omega) run
      refine ⟨?_, kept.trans end₁, fun q mem => ?_⟩
      · rw [list, list₁, count, pagesFrom_succ, List.reverse_cons, List.append_assoc, List.singleton_append]
      · rw [count, pagesFrom_succ] at mem
        rcases List.mem_cons.mp mem with rfl | mem
        · exact first
        · exact end₁ ▸ later q mem
    · rw [freeLoop, if_neg fits, Except.ok.injEq] at run
      subst run
      have none : (paEnd - p) / PGSIZE = 0 := by
        unfold PGSIZE at *
        omega
      rw [none]
      exact ⟨rfl, rfl, fun _ mem => absurd mem List.not_mem_nil⟩

/-- The loop of `freerange` returns when every page it frees lies between the
end of the kernel and `PHYSTOP`. -/
theorem freeLoop_ok (paEnd : Nat) (below : paEnd ≤ PHYSTOP) (fuel : Nat) : ∀ (p : Nat) (m : Phys),
    p % PGSIZE = 0 → m.kernEnd ≤ p → ∃ m', freeLoop paEnd fuel p m = .ok m' := by
  induction fuel with
  | zero => exact fun p m _ _ => ⟨m, rfl⟩
  | succ fuel ih =>
    intro p m aligned above
    by_cases fits : p + PGSIZE ≤ paEnd
    · have freed := kfree_eq_ok aligned above (by unfold PGSIZE at fits; omega)
      rw [freeLoop, if_pos fits, freed]
      exact ih (p + PGSIZE) _ (by unfold PGSIZE at *; omega) (by simp only [Phys.memset]; omega)
    · rw [freeLoop, if_neg fits]
      exact ⟨m, rfl⟩

/-- The pages `kinit` frees: every whole page from `PGROUNDUP(end)` that ends
below `PHYSTOP`. -/
def pool (m : Phys) : List Nat :=
  pagesFrom (PGROUNDUP m.kernEnd) ((PHYSTOP - PGROUNDUP m.kernEnd) / PGSIZE)

theorem PGROUNDUP_aligned (sz : Nat) : PGROUNDUP sz % PGSIZE = 0 := by
  unfold PGROUNDUP
  exact Nat.mul_mod_left _ _

/-- A page of the pool is whole and lies in `[PGROUNDUP(end), PHYSTOP)`. -/
theorem mem_pool {m : Phys} {p : Nat} (mem : p ∈ pool m) :
    p % PGSIZE = 0 ∧ PGROUNDUP m.kernEnd ≤ p ∧ p < PHYSTOP := by
  obtain ⟨k, hk, rfl⟩ := mem_pagesFrom.mp mem
  have aligned := PGROUNDUP_aligned m.kernEnd
  unfold PGSIZE at *
  exact ⟨by omega, by omega, by omega⟩

/-- `kinit` returns the pool on the list, last page first, when `end` rounds
up without wrapping past `2^64`. -/
theorem kinit_ok {m₀ : Phys} (empty : m₀.freelist = []) (fits : m₀.kernEnd + PGSIZE ≤ 2 ^ 64) :
    ∃ m, kinit m₀ = .ok m ∧ m.freelist = (pool m₀).reverse ∧ m.kernEnd = m₀.kernEnd := by
  have rounded : m₀.kernEnd ≤ PGROUNDUP m₀.kernEnd := by
    unfold PGROUNDUP
    unfold PGSIZE at *
    rw [Nat.mod_eq_of_lt (by omega)]
    omega
  obtain ⟨m, run⟩ := freeLoop_ok PHYSTOP (Nat.le_refl _) (PHYSTOP / PGSIZE) _ m₀ (PGROUNDUP_aligned _) rounded
  obtain ⟨list, kept, -⟩ := freeLoop_freelist PHYSTOP (PHYSTOP / PGSIZE) _ (Nat.div_le_div_right (Nat.sub_le _ _)) run
  exact ⟨m, run, by rw [list, empty, List.append_nil]; rfl, kept⟩

/-! ## Runs of the allocator -/

/-- The memory a run of `kalloc` and `kfree` calls reaches from `kinit`, with
the pages handed out and not yet freed; `kfree` is only given such a page. -/
inductive Reachable (m₀ : Phys) : Phys → List Nat → Prop
  | boot {m : Phys} : kinit m₀ = .ok m → Reachable m₀ m []
  | alloc {m m' : Phys} {held : List Nat} {p : Nat} :
      Reachable m₀ m held → kalloc m = some (p, m') → Reachable m₀ m' (p :: held)
  | free {m m' : Phys} {held : List Nat} {pa : Nat} :
      Reachable m₀ m held → pa ∈ held → kfree m pa = .ok m' → Reachable m₀ m' (held.erase pa)

/-- The allocator's invariant: the free pages and the pages handed out are,
together, the pool. -/
structure Pool (m₀ m : Phys) (held : List Nat) : Prop where
  perm : (m.freelist ++ held).Perm (pool m₀)
  kernEnd : m.kernEnd = m₀.kernEnd
  above : ∀ p ∈ pool m₀, m₀.kernEnd ≤ p

theorem Pool.alloc {m₀ m m' : Phys} {held : List Nat} {p : Nat} (inv : Pool m₀ m held)
    (taken : kalloc m = some (p, m')) : Pool m₀ m' (p :: held) := by
  unfold kalloc at taken
  split at taken
  · cases taken
  · rename_i r rest list
    simp only [Option.some.injEq, Prod.mk.injEq] at taken
    obtain ⟨rfl, rfl⟩ := taken
    refine ⟨?_, inv.kernEnd, inv.above⟩
    have perm := inv.perm
    rw [list] at perm
    exact List.perm_middle.trans perm

theorem Pool.free {m₀ m m' : Phys} {held : List Nat} {pa : Nat} (inv : Pool m₀ m held) (mem : pa ∈ held)
    (freed : kfree m pa = .ok m') : Pool m₀ m' (held.erase pa) := by
  obtain ⟨list, kept, -⟩ := kfree_freelist freed
  refine ⟨?_, kept.trans inv.kernEnd, inv.above⟩
  rw [list, List.cons_append]
  exact (List.perm_middle.symm.trans (List.Perm.append_left _ (List.perm_cons_erase mem).symm)).trans inv.perm

/-- The invariant does not see the order of the pages handed out. -/
theorem Pool.of_perm {m₀ m : Phys} {held held' : List Nat} (inv : Pool m₀ m held) (same : held.Perm held') :
    Pool m₀ m held' :=
  ⟨(List.Perm.append_left m.freelist same).symm.trans inv.perm, inv.kernEnd, inv.above⟩

/-- Two states of the invariant that hand out the same other pages: the free
pages and the pages in which they differ are the same pages. -/
theorem Pool.exchange {m₀ m m' : Phys} {held a b : List Nat} (inv : Pool m₀ m (a ++ held))
    (inv' : Pool m₀ m' (b ++ held)) : (m'.freelist ++ b).Perm (m.freelist ++ a) := by
  have both := inv'.perm.trans inv.perm.symm
  rw [← List.append_assoc, ← List.append_assoc] at both
  exact (List.perm_append_right_iff held).mp both

/-- Every state of a run keeps the invariant. -/
theorem Reachable.pool {m₀ m : Phys} {held : List Nat} (empty : m₀.freelist = []) (reach : Reachable m₀ m held) :
    Pool m₀ m held := by
  induction reach with
  | boot boot =>
    unfold kinit freerange at boot
    obtain ⟨list, kept, above⟩ := freeLoop_freelist PHYSTOP (PHYSTOP / PGSIZE) _ (Nat.div_le_div_right (Nat.sub_le _ _)) boot
    refine ⟨?_, kept, above⟩
    rw [list, empty, List.append_nil, List.append_nil]
    exact List.reverse_perm _
  | alloc _ taken inv => exact inv.alloc taken
  | free _ mem freed inv => exact inv.free mem freed

theorem kalloc_free_list {m₀ m : Phys} {held : List Nat} (empty : m₀.freelist = []) (reach : Reachable m₀ m held) :
    m.freelist.Nodup ∧ (∀ p ∈ m.freelist, p % PGSIZE = 0 ∧ PGROUNDUP m₀.kernEnd ≤ p ∧ p < PHYSTOP) ∧
      (∀ p ∈ m.freelist, p ∉ held) ∧ (kalloc m = none ↔ m.freelist = []) ∧
      (∀ p m', kalloc m = some (p, m') → p ∉ held ∧ m.freelist = p :: m'.freelist) ∧
      (∀ pa ∈ held, ∃ m', kfree m pa = .ok m') ∧
      m.freelist.length + held.length = (PHYSTOP - PGROUNDUP m₀.kernEnd) / PGSIZE := by
  have inv := reach.pool empty
  have nodup : (m.freelist ++ held).Nodup := inv.perm.nodup_iff.mpr (pagesFrom_nodup _ _)
  have inPool : ∀ p, p ∈ m.freelist ∨ p ∈ held → p ∈ pool m₀ := fun p mem =>
    inv.perm.subset (List.mem_append.mpr mem)
  have apart : ∀ p ∈ m.freelist, p ∉ held := fun p mem other =>
    List.disjoint_of_nodup_append nodup mem other
  refine ⟨(List.nodup_append.mp nodup).1, fun p mem => mem_pool (inPool p (.inl mem)), apart, ?_, ?_, ?_, ?_⟩
  · unfold kalloc
    split <;> simp_all
  · intro p m' taken
    unfold kalloc at taken
    split at taken
    · cases taken
    · rename_i r rest list
      simp only [Option.some.injEq, Prod.mk.injEq] at taken
      obtain ⟨rfl, rfl⟩ := taken
      exact ⟨apart _ (by rw [list]; exact List.mem_cons_self), list⟩
  · intro pa mem
    obtain ⟨aligned, -, below⟩ := mem_pool (inPool pa (.inr mem))
    have above : m.kernEnd ≤ pa := inv.kernEnd ▸ inv.above pa (inPool pa (.inr mem))
    exact ⟨_, kfree_eq_ok aligned above below⟩
  · rw [← List.length_append, inv.perm.length_eq, pool, pagesFrom, List.length_map, List.length_range]

/-- Memory whose kernel ends two pages below `PHYSTOP`, with an empty list. -/
def twoPagePhys : Phys := ⟨fun _ _ => 0, [], PHYSTOP - 2 * PGSIZE⟩

theorem kalloc_free_list_two_pages :
    twoPagePhys.freelist = [] ∧ ∃ m, Reachable twoPagePhys m [] ∧ m.freelist.length = 2 := by
  obtain ⟨m, boot, -, -⟩ := kinit_ok (show twoPagePhys.freelist = [] from rfl) (by decide)
  obtain ⟨-, -, -, -, -, -, count⟩ := kalloc_free_list rfl (Reachable.boot boot)
  rw [List.length_nil, Nat.add_zero] at count
  exact ⟨rfl, m, .boot boot, count.trans (by decide)⟩

end Paging

end Xv6
