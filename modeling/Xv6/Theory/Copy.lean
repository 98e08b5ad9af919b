/-
# Theory.Copy -- copying a run of cells forward or backward within one memory

A byte-by-byte copy of `n` cells from `s` to `d` inside one memory is one of two
loops.  The forward loop writes `d, d + 1, ...` from `s, s + 1, ...`
(`forward`); the backward loop writes `d + n - 1, ..., d` from
`s + n - 1, ..., s` (`backward`).  Both write only the cells of `[d, d + n)`,
whatever the overlap (`forward_of_not_mem`, `backward_of_not_mem`).  Each
copies exactly when it never writes a source cell before reading it: the
forward loop when the destination does not start strictly inside the source
(`forward_of_lt`), the backward loop when the source does not start strictly
inside the destination (`backward_of_lt`).  `Copied` states the outcome of a
copy, the copied cells and the frame together.  Every overlap is safe for at least
one of the two, which is why a `memmove` picks the direction by comparing the
pointers.
-/
import Mathlib.Logic.Function.Basic

namespace Copy

set_option autoImplicit false

variable {α : Type*}

/-- The forward loop: `*d++ = *s++` for `n` cells. -/
def forward (m : Nat → α) (d s : Nat) : Nat → Nat → α
  | 0 => m
  | n + 1 => forward (Function.update m d (m s)) (d + 1) (s + 1) n

/-- The backward loop: the pointers start at `d + n` and `s + n`, and each step
is `*--d = *--s`, so with `n + 1` cells left the write is at `d + n`. -/
def backward (m : Nat → α) (d s : Nat) : Nat → Nat → α
  | 0 => m
  | n + 1 => backward (Function.update m (d + n) (m (s + n))) d s n

@[simp] theorem forward_zero (m : Nat → α) (d s : Nat) : forward m d s 0 = m := rfl

@[simp] theorem backward_zero (m : Nat → α) (d s : Nat) : backward m d s 0 = m := rfl

/-- The forward loop writes nothing outside `[d, d + n)`. -/
theorem forward_of_not_mem {a : Nat} :
    ∀ {n : Nat} {m : Nat → α} {d s : Nat}, a < d ∨ d + n ≤ a → forward m d s n a = m a
  | 0, _, _, _, _ => rfl
  | n + 1, m, d, s, outside => by
    rw [forward, forward_of_not_mem (by omega)]
    exact Function.update_of_ne (by omega) _ _

/-- The backward loop writes nothing outside `[d, d + n)`. -/
theorem backward_of_not_mem {a : Nat} :
    ∀ {n : Nat} {m : Nat → α} {d s : Nat}, a < d ∨ d + n ≤ a → backward m d s n a = m a
  | 0, _, _, _, _ => rfl
  | n + 1, m, d, s, outside => by
    rw [backward, backward_of_not_mem (by omega)]
    exact Function.update_of_ne (by omega) _ _

/-- Unless the destination starts strictly inside the source, the forward loop
leaves `[d, d + n)` holding the old `[s, s + n)`. -/
theorem forward_of_lt :
    ∀ {n : Nat} {m : Nat → α} {d s : Nat}, d ≤ s ∨ s + n ≤ d →
      ∀ {i : Nat}, i < n → forward m d s n (d + i) = m (s + i)
  | 0, _, _, _, _, _, lt => absurd lt (Nat.not_lt_zero _)
  | n + 1, m, d, s, safe, i, lt => by
    rw [forward]
    cases i with
    | zero =>
      -- the first write is never overwritten: the rest goes to `[d + 1, d + 1 + n)`
      rw [forward_of_not_mem (by omega)]
      simp
    | succ i =>
      -- the rest of the loop reads `s + 1 + i`, which the first write did not touch
      have rest := forward_of_lt (n := n) (m := Function.update m d (m s))
        (d := d + 1) (s := s + 1) (by omega) (i := i) (by omega)
      rw [show d + (i + 1) = d + 1 + i by omega, rest, Function.update_of_ne (by omega)]
      congr 1
      omega

/-- Unless the source starts strictly inside the destination, the backward loop
leaves `[d, d + n)` holding the old `[s, s + n)`. -/
theorem backward_of_lt :
    ∀ {n : Nat} {m : Nat → α} {d s : Nat}, s ≤ d ∨ d + n ≤ s →
      ∀ {i : Nat}, i < n → backward m d s n (d + i) = m (s + i)
  | 0, _, _, _, _, _, lt => absurd lt (Nat.not_lt_zero _)
  | n + 1, m, d, s, safe, i, lt => by
    rw [backward]
    rcases Nat.lt_or_ge i n with below | last
    · -- the rest of the loop reads `s + i`, below the cell `d + n` just written
      rw [backward_of_lt (by omega) below, Function.update_of_ne (by omega)]
    · -- the first write, at `d + n`, lies outside what the rest writes
      obtain rfl : i = n := by omega
      rw [backward_of_not_mem (by omega)]
      simp

/-- `m'` is `m` with `[d, d + n)` holding the old `[s, s + n)` and every other
cell as it was. -/
structure Copied (m m' : Nat → α) (d s n : Nat) : Prop where
  copied : ∀ i < n, m' (d + i) = m (s + i)
  frame : ∀ a, a < d ∨ d + n ≤ a → m' a = m a

theorem forward_copied {m : Nat → α} {d s n : Nat} (safe : d ≤ s ∨ s + n ≤ d) :
    Copied m (forward m d s n) d s n :=
  ⟨fun _ lt => forward_of_lt safe lt, fun _ outside => forward_of_not_mem outside⟩

theorem backward_copied {m : Nat → α} {d s n : Nat} (safe : s ≤ d ∨ d + n ≤ s) :
    Copied m (backward m d s n) d s n :=
  ⟨fun _ lt => backward_of_lt safe lt, fun _ outside => backward_of_not_mem outside⟩

/-- Copying nothing leaves the memory as it was. -/
theorem copied_zero (m : Nat → α) (d s : Nat) : Copied m m d s 0 :=
  ⟨fun _ lt => absurd lt (Nat.not_lt_zero _), fun _ _ => rfl⟩

end Copy
