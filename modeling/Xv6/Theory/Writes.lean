/-
# Theory.Writes -- a store updated one write at a time, and what a crash leaves

A disk commits each single-block write atomically, in the order the writes are
issued.  The effect of a program on it is therefore a list of writes, and a
crash leaves exactly the store after some prefix of that list: `apply d ws` is
the store after the writes `ws`, and a crash after `k` of them leaves
`apply d (ws.take k)`.

Every law here is pointwise.  A location holds the last value written to it
(`apply_of_mem` when it is written once), or its old value when nothing wrote
it (`apply_of_not_written`).  A program that reads the store it writes keeps a
private copy `mem` beside the writes it has issued (`Io`); a block-copy loop
writes each destination the value its source held before the loop
(`copyEach_spec`).
-/
import Mathlib

namespace Writes

set_option autoImplicit false

variable {α β : Type*} [DecidableEq α]

/-- The store after the writes `ws`, applied in order. -/
def apply (d : α → β) : List (α × β) → α → β
  | [] => d
  | w :: ws => apply (Function.update d w.1 w.2) ws

@[simp] theorem apply_nil (d : α → β) : apply d [] = d := rfl

@[simp] theorem apply_cons (d : α → β) (w : α × β) (ws : List (α × β)) :
    apply d (w :: ws) = apply (Function.update d w.1 w.2) ws := rfl

theorem apply_append (d : α → β) (ws vs : List (α × β)) :
    apply d (ws ++ vs) = apply (apply d ws) vs := by
  induction ws generalizing d with
  | nil => rfl
  | cons w ws ih => exact ih _

theorem apply_concat (d : α → β) (ws : List (α × β)) (a : α) (v : β) :
    apply d (ws ++ [(a, v)]) = Function.update (apply d ws) a v := by
  rw [apply_append]
  rfl

/-- A location no write touches keeps its value. -/
theorem apply_of_not_written {d : α → β} {x : α} :
    ∀ {ws : List (α × β)}, (∀ w ∈ ws, w.1 ≠ x) → apply d ws x = d x
  | [], _ => rfl
  | w :: ws, untouched => by
      rw [apply_cons, apply_of_not_written fun v hv => untouched v (List.mem_cons_of_mem _ hv)]
      exact Function.update_of_ne (untouched w List.mem_cons_self).symm _ _

/-- A location written exactly once holds the value written. -/
theorem apply_of_mem {d : α → β} {x : α} {v : β} :
    ∀ {ws : List (α × β)}, (ws.map Prod.fst).Nodup → (x, v) ∈ ws → apply d ws x = v
  | [], _, mem => by simp at mem
  | w :: ws, nodup, mem => by
      rw [List.map_cons, List.nodup_cons] at nodup
      rcases List.mem_cons.mp mem with rfl | later
      · rw [apply_cons, apply_of_not_written]
        · simp
        · intro u hu same
          exact nodup.1 (List.mem_map.mpr ⟨u, hu, same⟩)
      · rw [apply_cons]
        exact apply_of_mem nodup.2 later

/-! ## Programs that read what they write -/

/-- A program's private copy `mem` of the store, and the writes `out` it has
issued to the store so far, in order. -/
structure Io (α β : Type*) where
  mem : α → β
  out : List (α × β)

namespace Io

/-- Change the private copy at `a`. -/
def store (io : Io α β) (a : α) (v : β) : Io α β :=
  { io with mem := Function.update io.mem a v }

/-- Write the private copy at `a` through to the store. -/
def write (io : Io α β) (a : α) : Io α β :=
  { io with out := io.out ++ [(a, io.mem a)] }

@[simp] theorem store_mem (io : Io α β) (a : α) (v : β) :
    (io.store a v).mem = Function.update io.mem a v := rfl

@[simp] theorem store_out (io : Io α β) (a : α) (v : β) : (io.store a v).out = io.out := rfl

omit [DecidableEq α] in
@[simp] theorem write_mem (io : Io α β) (a : α) : (io.write a).mem = io.mem := rfl

omit [DecidableEq α] in
@[simp] theorem write_out (io : Io α β) (a : α) : (io.write a).out = io.out ++ [(a, io.mem a)] :=
  rfl

/-- For each `i` of `is` in order, copy location `src i` of the private copy to
`dst i` and write it through: the shape of every block-copy loop. -/
def copyEach {ι : Type*} (io : Io α β) (is : List ι) (src dst : ι → α) : Io α β :=
  is.foldl (fun io i => (io.store (dst i) (io.mem (src i))).write (dst i)) io

section CopyEach

variable {ι : Type*} {src dst : ι → α}

/-- When no copy lands on a location another copy reads, each copy writes the
value its source held before the loop. -/
theorem copyEach_spec : ∀ (is : List ι) (io : Io α β), (∀ i ∈ is, ∀ j ∈ is, dst j ≠ src i) →
      (copyEach io is src dst).out = io.out ++ is.map (fun i => (dst i, io.mem (src i))) ∧
      (copyEach io is src dst).mem = apply io.mem (is.map fun i => (dst i, io.mem (src i)))
  | [], io, _ => by simp [copyEach]
  | i :: is, io, untouched => by
      have rest := copyEach_spec is ((io.store (dst i) (io.mem (src i))).write (dst i))
        (fun a ha b hb => untouched a (List.mem_cons_of_mem _ ha) b (List.mem_cons_of_mem _ hb))
      -- the first copy does not change the sources the remaining copies read
      have sources : ∀ j ∈ is, ((io.store (dst i) (io.mem (src i))).write (dst i)).mem (src j) =
          io.mem (src j) := by
        intro j hj
        simp only [write_mem, store_mem]
        exact Function.update_of_ne
          (untouched j (List.mem_cons_of_mem _ hj) i List.mem_cons_self).symm _ _
      have same : is.map (fun j => (dst j, ((io.store (dst i) (io.mem (src i))).write (dst i)).mem
          (src j))) = is.map (fun j => (dst j, io.mem (src j))) :=
        List.map_congr_left fun j hj => by rw [sources j hj]
      unfold copyEach at rest ⊢
      rw [List.foldl_cons, rest.1, rest.2, same]
      simp

end CopyEach

end Io

end Writes
