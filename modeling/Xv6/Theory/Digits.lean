/-
# Theory.Digits -- the digit loops of a number printer

A printer writes a number in base `b` with one of two loops.  The do-while loop
`do { buf[i++] = x % b; } while ((x /= b) != 0)` fills a buffer with the digits
least significant first and always writes at least one (`fill`); printed back
to front, the buffer is the numeral of `x` (`fill_eq`), `numeral b x` being the
digits of Mathlib's `Nat.digits` most significant first, and `[0]` for zero.
It has at most `k` digits exactly when `x < b ^ k` (`length_numeral_le`).

A fixed-width printer instead writes `k` digits from the top, zeros included
(`fixed`); those are the digits of `x % b ^ k` (`ofDigits_fixed`), so they
depend on `x` only modulo `b ^ k` (`fixed_mod`).
-/
import Mathlib.Data.Nat.Digits.Lemmas

namespace Digits

set_option autoImplicit false

/-- The numeral of `n` in base `b`, most significant digit first; `0` is `[0]`. -/
def numeral (b n : Nat) : List Nat := if n = 0 then [0] else (Nat.digits b n).reverse

/-- The do-while loop that writes the digits of `x` into a buffer, least
significant first, in at most `fuel` rounds. -/
def fill (b : Nat) : Nat → Nat → List Nat
  | 0, _ => []
  | fuel + 1, x => x % b :: if x / b = 0 then [] else fill b fuel (x / b)

/-- `k` digits of `x`, most significant first: the digit of `b ^ (k - 1)` down
to the digit of `1`. -/
def fixed (b : Nat) : Nat → Nat → List Nat
  | 0, _ => []
  | k + 1, x => x / b ^ k % b :: fixed b k x

section Numeral

variable {b : Nat}

theorem numeral_of_lt {x : Nat} (lt : x < b) : numeral b x = [x] := by
  unfold numeral
  split
  · simp_all
  · rw [Nat.digits_of_lt b x ‹_› lt]
    rfl

theorem numeral_of_le {x : Nat} (two : 2 ≤ b) (le : b ≤ x) :
    numeral b x = numeral b (x / b) ++ [x % b] := by
  have pos : 0 < x / b := Nat.div_pos le (by omega)
  unfold numeral
  rw [if_neg (by omega), if_neg (by omega), Nat.digits_def' (by omega) (by omega), List.reverse_cons]

/-- The do-while loop, given enough rounds, writes the numeral back to front. -/
theorem fill_eq (two : 2 ≤ b) :
    ∀ {fuel x : Nat}, x < b ^ (fuel + 1) → fill b (fuel + 1) x = (numeral b x).reverse
  | fuel, x, fits => by
    rw [fill]
    by_cases last : x / b = 0
    · -- one digit: `x < b`, and the loop stops after writing it
      have lt : x < b := by
        rcases Nat.lt_or_ge x b with lt | ge
        · exact lt
        · exact absurd last (Nat.div_pos ge (by omega)).ne'
      rw [if_pos last, numeral_of_lt lt, Nat.mod_eq_of_lt lt]
      rfl
    · -- more digits: the rest is the numeral of `x / b`, in one round fewer
      have ge : b ≤ x := by
        by_contra lt
        exact last (Nat.div_eq_of_lt (by omega))
      obtain ⟨fuel, rfl⟩ : ∃ f, fuel = f + 1 := by
        cases fuel with
        | zero =>
          simp only [zero_add, pow_one] at fits
          omega
        | succ f => exact ⟨f, rfl⟩
      have smaller : x / b < b ^ (fuel + 1) := by
        rw [Nat.div_lt_iff_lt_mul (by omega), ← pow_succ]
        exact fits
      rw [if_neg last, fill_eq two smaller, numeral_of_le two ge, List.reverse_append]
      rfl

/-- A numeral has at most `k ≥ 1` digits exactly when the number is below `b ^ k`. -/
theorem length_numeral_le (two : 2 ≤ b) (n : Nat) {k : Nat} (pos : 0 < k) :
    (numeral b n).length ≤ k ↔ n < b ^ k := by
  unfold numeral
  split
  · subst_vars
    simp only [List.length_singleton]
    exact ⟨fun _ => Nat.pow_pos (by omega), fun _ => pos⟩
  · rw [List.length_reverse]
    exact Nat.digits_length_le_iff (by omega) n

end Numeral

section Fixed

variable {b : Nat}

@[simp] theorem length_fixed (k x : Nat) : (fixed b k x).length = k := by
  induction k with
  | zero => rfl
  | succ k ih => simp [fixed, ih]

/-- The `k` digits depend on the number only modulo `b ^ k`. -/
theorem fixed_mod (k x : Nat) : fixed b k (x % b ^ k) = fixed b k x := by
  induction k generalizing x with
  | zero => rfl
  | succ k ih =>
    -- the top digit is the same, and the rest is taken modulo `b ^ k`, which divides `b ^ (k + 1)`
    have top : x % b ^ (k + 1) / b ^ k % b = x / b ^ k % b := by
      rw [pow_succ, Nat.mod_mul_right_div_self]
      simp
    have rest : fixed b k (x % b ^ (k + 1)) = fixed b k x := by
      rw [← ih (x % b ^ (k + 1)), Nat.mod_mod_of_dvd x (pow_dvd_pow b (Nat.le_succ k)), ih]
    simp only [fixed, top, rest]

/-- Read back in base `b`, the `k` digits are the number modulo `b ^ k`. -/
theorem ofDigits_fixed (k x : Nat) : Nat.ofDigits b (fixed b k x).reverse = x % b ^ k := by
  induction k with
  | zero => simp [fixed, Nat.mod_one]
  | succ k ih =>
    rw [fixed, List.reverse_cons, Nat.ofDigits_append, ih, Nat.ofDigits_singleton, List.length_reverse,
      length_fixed, Nat.mod_pow_succ]

end Fixed

end Digits
