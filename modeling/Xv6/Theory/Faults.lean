/-
# Theory.Faults -- which errors a fallible computation can end in

A model written in `Except` reports each way the modelled code can go wrong
as its own error.  A theorem that says which of them a computation can reach
is `Faults.Within allowed r`: every error `r` ends in is one of `allowed`.  It
holds of every `ok` and of a listed error, and goes through `>>=` when the
continuation keeps it for every value the first part can return (`bind`).
`bind_eq_ok` and `map_eq_ok` take a successful `>>=` and `map` apart.
-/
import Mathlib.Logic.Basic

namespace Faults

set_option autoImplicit false

variable {ε α β : Type}

/-- Every error of `r` is one of `allowed`. -/
def Within (allowed : List ε) (r : Except ε α) : Prop := ∀ e, r = .error e → e ∈ allowed

theorem Within.ok {allowed : List ε} (a : α) : Within allowed (.ok a : Except ε α) :=
  fun _ h => by cases h

theorem Within.error {allowed : List ε} {e : ε} (listed : e ∈ allowed) :
    Within allowed (.error e : Except ε α) :=
  fun _ h => by cases h; exact listed

theorem Within.bind {allowed : List ε} {x : Except ε α} {g : α → Except ε β}
    (first : Within allowed x) (rest : ∀ a, x = .ok a → Within allowed (g a)) :
    Within allowed (x >>= g) := by
  intro e failed
  cases hx : x with
  | error e' =>
    rw [hx] at failed
    cases failed
    exact first _ hx
  | ok a =>
    rw [hx] at failed
    exact rest a hx e failed

/-- A `>>=` that succeeds ran its first part to a value and its continuation on it. -/
theorem bind_eq_ok {x : Except ε α} {g : α → Except ε β} {b : β} (h : x >>= g = .ok b) :
    ∃ a, x = .ok a ∧ g a = .ok b := by
  cases hx : x with
  | error e =>
    rw [hx] at h
    cases h
  | ok a =>
    rw [hx] at h
    exact ⟨a, rfl, h⟩

/-- A `map` that succeeds ran its computation to a value it maps. -/
theorem map_eq_ok {x : Except ε α} {f : α → β} {b : β} (h : x.map f = .ok b) : ∃ a, x = .ok a ∧ f a = b := by
  cases hx : x with
  | error e =>
    rw [hx] at h
    cases h
  | ok a =>
    rw [hx] at h
    exact ⟨a, rfl, Except.ok.inj h⟩

end Faults
