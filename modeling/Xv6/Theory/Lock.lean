/-
# Theory.Lock -- a spinlock held by the one process in its critical section

A spinlock is `none` when free and `some q` when `q` holds it.  Each process
is at some point of its code, and some of those points are inside the critical
section.  `Held inside lock pc` says the holder is exactly the process inside:
`lock = some q ↔ inside (pc q)`.  Two processes are then never inside
together.

`Held.alone` says who else may be inside when `p` holds the lock or it is
free.  `Held.move` says that `p` moving to a new point keeps `Held`, when it
takes or gives up the lock as that point requires.  A step of the system that
moves one process is a `Held.move`; a step that moves none keeps `Held` as it
is.  `Held.step` covers a move while another process may hold the lock, and
`Held.stay` a move that stays on the same side of the critical section.
`fits_update` does the same for a record kept per process, such as the
bytes its current call has moved.
-/
import Mathlib

namespace Lock

set_option autoImplicit false

variable {P σ : Type}

/-- The holder of `lock` is exactly the process at a point `inside` the
critical section. -/
def Held (inside : σ → Bool) (lock : Option P) (pc : P → σ) : Prop :=
  ∀ q, lock = some q ↔ inside (pc q) = true

variable {inside : σ → Bool} {lock : Option P} {pc : P → σ}

/-- No two processes are inside together. -/
theorem Held.unique (held : Held inside lock pc) {q q' : P} (inQ : inside (pc q) = true)
    (inQ' : inside (pc q') = true) : q = q' := by
  have first := (held q).mpr inQ
  have second := (held q').mpr inQ'
  rw [first] at second
  exact Option.some_inj.mp second

/-- When `p` holds the lock, or nobody does, no other process is inside. -/
theorem Held.alone (held : Held inside lock pc) {p : P} (free : lock = some p ∨ lock = none) :
    ∀ q, q ≠ p → inside (pc q) = false := by
  intro q other
  cases holds : inside (pc q) with
  | false => rfl
  | true =>
      have theirs := (held q).mpr holds
      rcases free with mine | none_
      · rw [mine, Option.some_inj] at theirs
        exact absurd theirs.symm other
      · rw [none_] at theirs
        cases theirs

/-- `p` moves to `x`, holding the lock exactly when `x` is inside. -/
theorem Held.move [DecidableEq P] (p : P) (x : σ) (alone : ∀ q, q ≠ p → inside (pc q) = false) :
    Held inside (if inside x then some p else none) (Function.update pc p x) := by
  intro q
  by_cases same : q = p
  · subst same
    rw [Function.update_self]
    cases inside x <;> simp
  · rw [Function.update_of_ne same, alone q same]
    cases inside x <;> simp [Ne.symm same]

/-- `p` moves to `x` while another process may hold the lock: `p` takes it
when `x` is inside (it is then free or `p`'s), gives it up when it leaves, and
leaves it as it is otherwise. -/
theorem Held.step [DecidableEq P] (held : Held inside lock pc) (p : P) (x : σ)
    (free : inside x = true → lock = none ∨ lock = some p) :
    Held inside (if inside x then some p else if inside (pc p) then none else lock) (Function.update pc p x) := by
  by_cases into : inside x = true
  · have moved := Held.move p x (held.alone (free into).symm)
    rwa [if_pos into] at moved ⊢
  rw [if_neg into]
  by_cases was : inside (pc p) = true
  · -- `p` leaves: nobody else was inside
    have moved := Held.move p x (held.alone (.inl ((held p).mpr was)))
    rw [if_neg into] at moved
    rwa [if_pos was]
  -- `p` is outside before and after
  rw [if_neg was]
  intro q
  by_cases same : q = p
  · subst same
    rw [Function.update_self]
    exact ⟨fun holds => absurd ((held q).mp holds) was, fun inX => absurd inX into⟩
  · rw [Function.update_of_ne same]
    exact held q

/-- `p` moves to `x` on the same side of the critical section: the lock stays
as it is. -/
theorem Held.stay [DecidableEq P] (held : Held inside lock pc) (p : P) (x : σ) (same : inside x = inside (pc p)) :
    Held inside lock (Function.update pc p x) := by
  have stepped := held.step p x fun into => .inr ((held p).mpr (same ▸ into))
  by_cases was : inside (pc p) = true
  · rw [if_pos (same.trans was)] at stepped
    rwa [(held p).mpr was]
  · rwa [if_neg (by rw [same]; exact was), if_neg was] at stepped

/-- Records kept per process, each fitting the process's point: `p` moving to
`x` with a record that fits `x` keeps them all fitting. -/
theorem fits_update [DecidableEq P] {γ : Type} {fits : σ → γ → Prop} {rec : P → γ} (all : ∀ q, fits (pc q) (rec q))
    (p : P) {x : σ} {y : γ} (fit : fits x y) : ∀ q, fits (Function.update pc p x q) (Function.update rec p y q) := by
  intro q
  by_cases same : q = p
  · subst same
    rw [Function.update_self, Function.update_self]
    exact fit
  · rw [Function.update_of_ne same, Function.update_of_ne same]
    exact all q

end Lock
