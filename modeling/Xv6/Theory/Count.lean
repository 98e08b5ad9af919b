/-
# Theory.Count -- a reference count as the number of slots that point at a thing

A table of slots `g : ι → Option α` over a finite index type points each slot
at nothing or at one thing.  `count g a` is the number of slots that point at
`a`: what a reference count must equal when every reference is a slot.

`count_update` says what changing one slot does to every count at once: the
slot's old share goes and its new share comes.  `count_install` and
`count_remove` are its two uses, filling an empty slot and emptying a full
one, and `count_eq_zero` says a count is zero exactly when no slot points
there.  A table read through a function of its entries, or indexed by pairs
(`uncurry`), is handled by rewriting it back to one `Function.update`.
-/
import Mathlib

namespace Count

set_option autoImplicit false

variable {ι α : Type} [Fintype ι] [DecidableEq α]

/-- The number of slots of `g` that point at `a`. -/
def count (g : ι → Option α) (a : α) : Nat :=
  (Finset.univ.filter fun i => g i = some a).card

/-- One slot's share of the count of `a`. -/
def hit (x : Option α) (a : α) : Nat := if x = some a then 1 else 0

@[simp] theorem hit_none (a : α) : hit none a = 0 := rfl

@[simp] theorem hit_some_self (a : α) : hit (some a) a = 1 := if_pos rfl

theorem hit_some_of_ne {a b : α} (other : b ≠ a) : hit (some b) a = 0 :=
  if_neg fun same => other (Option.some_inj.mp same)

/-- A list of things counts each of them like a table of slots would. -/
theorem count_cons_hit (a b : α) (l : List α) : (a :: l).count b = hit (some a) b + l.count b := by
  by_cases same : a = b
  · subst same
    rw [List.count_cons_self, hit_some_self, Nat.add_comm]
  · rw [List.count_cons_of_ne same, hit_some_of_ne same, Nat.zero_add]

theorem count_eq_sum (g : ι → Option α) (a : α) : count g a = ∑ i, hit (g i) a := by
  rw [count, Finset.card_filter]
  rfl

theorem count_eq_zero {g : ι → Option α} {a : α} : count g a = 0 ↔ ∀ i, g i ≠ some a := by
  simp [count, Finset.filter_eq_empty_iff]

/-- The empty table counts nothing. -/
@[simp] theorem count_none (a : α) : count (fun _ : ι => (none : Option α)) a = 0 :=
  count_eq_zero.mpr fun _ => (Option.some_ne_none a).symm

section Update

variable [DecidableEq ι]

/-- Changing slot `i` from `g i` to `x` takes the old share away and adds the
new one. -/
theorem count_update (g : ι → Option α) (i : ι) (x : Option α) (a : α) :
    count (Function.update g i x) a + hit (g i) a = count g a + hit x a := by
  have rest : ∑ j ∈ Finset.univ.erase i, hit (Function.update g i x j) a =
      ∑ j ∈ Finset.univ.erase i, hit (g j) a :=
    Finset.sum_congr rfl fun j mem => by rw [Function.update_of_ne (Finset.ne_of_mem_erase mem)]
  rw [count_eq_sum, count_eq_sum, ← Finset.add_sum_erase _ _ (Finset.mem_univ i),
    ← Finset.add_sum_erase _ _ (Finset.mem_univ i), Function.update_self, rest]
  omega

/-- Filling an empty slot with `b`. -/
theorem count_install {g : ι → Option α} {i : ι} (empty : g i = none) (b a : α) :
    count (Function.update g i (some b)) a = count g a + hit (some b) a := by
  have moved := count_update g i (some b) a
  rw [empty, hit_none, Nat.add_zero] at moved
  exact moved

/-- Emptying a slot that held `b`. -/
theorem count_remove {g : ι → Option α} {i : ι} {b : α} (full : g i = some b) (a : α) :
    count (Function.update g i none) a + hit (some b) a = count g a := by
  have moved := count_update g i none a
  rw [full, hit_none, Nat.add_zero] at moved
  exact moved

/-- A table read through `h`: updating an entry updates the slot it gives. -/
theorem count_comp_update {β : Type} (h : β → Option α) (F : ι → β) (i : ι) (v : β) (a : α) :
    count (fun j => h (Function.update F i v j)) a + hit (h (F i)) a = count (fun j => h (F j)) a + hit (h v) a := by
  have comp : (fun j => h (Function.update F i v j)) = Function.update (fun j => h (F j)) i (h v) :=
    Function.comp_update h F i v
  rw [comp]
  exact count_update _ i (h v) a

end Update

end Count
