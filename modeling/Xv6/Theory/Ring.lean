/-
# Theory.Ring -- a ring buffer behind free-running 32-bit counters

A buffer of `N` slots is written at one counter and read at another.  The
counters are 32-bit and only move by one, and counter value `c` stands for
slot `c % N`.  When `N` divides `2 ^ 32` the slots follow the counters across
the wrap from `2 ^ 32 - 1` to `0`.  The entries from counter `r` to counter `e`
are then a list, `window buf r e`, of length `(e - r).toNat` (the 32-bit
difference), read from slot `r % N` on.

`window_pop`, `window_push` and `window_popBack` say what reading at `r`,
writing at `e` and taking back the entry before `e` do to that list.  The one
condition is that it stays shorter than `N` before a write, which is what the
code's fullness tests keep.  `window_split` cuts it at a counter in between.
-/
import Mathlib

namespace Ring

set_option autoImplicit false

/-! ## Counters -/

theorem toNat_sub_eq_zero {r e : UInt32} : (e - r).toNat = 0 ↔ e = r := by
  rw [← UInt32.toNat_inj, UInt32.toNat_sub]
  have := e.toNat_lt
  have := r.toNat_lt
  constructor <;> intro h <;> omega

theorem toNat_succ_sub {r e : UInt32} (short : (e - r).toNat + 1 < 2 ^ 32) :
    (e + 1 - r).toNat = (e - r).toNat + 1 := by
  simp only [UInt32.toNat_sub, UInt32.toNat_add] at *
  have := e.toNat_lt
  have := r.toNat_lt
  simp only [UInt32.reduceToNat] at *
  omega

theorem toNat_sub_succ {r e : UInt32} (nonempty : e ≠ r) : (e - (r + 1)).toNat = (e - r).toNat - 1 := by
  have ne : e.toNat ≠ r.toNat := fun same => nonempty (UInt32.toNat_inj.mp same)
  simp only [UInt32.toNat_sub, UInt32.toNat_add]
  have := e.toNat_lt
  have := r.toNat_lt
  simp only [UInt32.reduceToNat]
  omega

theorem toNat_pred_sub {r e : UInt32} (nonempty : e ≠ r) : (e - 1 - r).toNat = (e - r).toNat - 1 := by
  have ne : e.toNat ≠ r.toNat := fun same => nonempty (UInt32.toNat_inj.mp same)
  simp only [UInt32.toNat_sub]
  have := e.toNat_lt
  have := r.toNat_lt
  simp only [UInt32.reduceToNat]
  omega

/-- A counter is its distance from `r` past `r`. -/
theorem add_toNat_sub (r e : UInt32) : r + UInt32.ofNat (e - r).toNat = e := by
  rw [← UInt32.toNat_inj, UInt32.toNat_add, UInt32.toNat_ofNat', UInt32.toNat_sub]
  have := e.toNat_lt
  have := r.toNat_lt
  omega

/-- `e` is `k` past `r` exactly when their difference is `k`. -/
theorem toNat_sub_eq_iff {r e : UInt32} {k : Nat} (small : k < 2 ^ 32) :
    (e - r).toNat = k ↔ e = r + UInt32.ofNat k := by
  rw [UInt32.ext_iff, UInt32.toNat_sub, UInt32.toNat_add, UInt32.toNat_ofNat']
  have := e.toNat_lt
  have := r.toNat_lt
  constructor <;> intro h <;> omega

/-- Counter offsets add up across the wrap. -/
theorem add_ofNat_add (r : UInt32) (a b : Nat) :
    r + UInt32.ofNat a + UInt32.ofNat b = r + UInt32.ofNat (a + b) := by
  rw [← UInt32.toNat_inj]
  simp only [UInt32.toNat_add, UInt32.toNat_ofNat', Nat.add_mod_mod, Nat.mod_add_mod, Nat.add_assoc]

/-- `w` lies between `r` and `e` when it is no further from `r` than `e`;
the distances then add up. -/
theorem toNat_sub_add_toNat_sub {r w e : UInt32} (between : (w - r).toNat ≤ (e - r).toNat) :
    (e - w).toNat = (e - r).toNat - (w - r).toNat := by
  simp only [UInt32.toNat_sub] at *
  have := e.toNat_lt
  have := r.toNat_lt
  have := w.toNat_lt
  omega

/-! ## Slots and windows -/

section Window

variable {α : Type} {N : Nat} [NeZero N]

set_option linter.unusedSectionVars false

/-- The slot of counter value `c`: `c % N`. -/
def slot (c : UInt32) : Fin N := ⟨c.toNat % N, Nat.mod_lt _ (Nat.pos_of_neZero N)⟩

/-- The entries from counter `r` up to counter `e`, in order. -/
def window (buf : Fin N → α) (r e : UInt32) : List α :=
  (List.range (e - r).toNat).map fun i => buf (slot (r + UInt32.ofNat i))

@[simp] theorem length_window (buf : Fin N → α) (r e : UInt32) : (window buf r e).length = (e - r).toNat := by
  simp [window]

@[simp] theorem window_self (buf : Fin N → α) (r : UInt32) : window buf r r = [] := by
  simp [window]

/-- Windows read only their own slots. -/
theorem window_congr {buf buf' : Fin N → α} {r e : UInt32}
    (same : ∀ i, i < (e - r).toNat → buf' (slot (r + UInt32.ofNat i)) = buf (slot (r + UInt32.ofNat i))) :
    window buf' r e = window buf r e := by
  simp only [window]
  exact List.map_congr_left fun i mem => same i (List.mem_range.mp mem)

variable (dvd : N ∣ 2 ^ 32)
include dvd

/-- Slots follow the counters across the 32-bit wrap. -/
theorem val_slot_add (r : UInt32) (i : Nat) : (slot (r + UInt32.ofNat i) : Fin N).val = (r.toNat + i) % N := by
  simp only [slot, UInt32.toNat_add, UInt32.toNat_ofNat']
  rw [Nat.mod_mod_of_dvd _ dvd, Nat.add_mod, Nat.mod_mod_of_dvd _ dvd, ← Nat.add_mod]

/-- Two counters less than `N` apart from `r` name different slots. -/
theorem slot_add_ne {r : UInt32} {i j : Nat} (lt : i < j) (small : j < N) :
    (slot (r + UInt32.ofNat i) : Fin N) ≠ slot (r + UInt32.ofNat j) := by
  intro same
  have vals := congrArg Fin.val same
  rw [val_slot_add dvd, val_slot_add dvd] at vals
  have apart := Nat.sub_mod_eq_zero_of_mod_eq vals.symm
  rw [show r.toNat + j - (r.toNat + i) = j - i by omega] at apart
  exact absurd (Nat.le_of_dvd (by omega) (Nat.dvd_of_mod_eq_zero apart)) (by omega)

/-- Reading at `r` takes the first entry. -/
theorem window_pop (buf : Fin N → α) {r e : UInt32} (nonempty : e ≠ r) :
    window buf r e = buf (slot r) :: window buf (r + 1) e := by
  have pos : 0 < (e - r).toNat := Nat.pos_of_ne_zero fun zero => nonempty (toNat_sub_eq_zero.mp zero)
  obtain ⟨k, hk⟩ : ∃ k, (e - r).toNat = k + 1 := ⟨_, (Nat.succ_pred_eq_of_pos pos).symm⟩
  have rest : (e - (r + 1)).toNat = k := by rw [toNat_sub_succ nonempty, hk, Nat.add_sub_cancel]
  have first : r + UInt32.ofNat 0 = r := by simp
  simp only [window, hk, rest, List.range_succ_eq_map, List.map_cons, List.map_map, first]
  congr 1
  apply List.map_congr_left
  intro i _
  -- entry `i + 1` from `r` is entry `i` from `r + 1`
  have shift : r + 1 + UInt32.ofNat i = r + UInt32.ofNat (i + 1) := by
    rw [show (1 : UInt32) = UInt32.ofNat 1 from rfl, add_ofNat_add, Nat.add_comm]
  exact congrArg (fun c => buf (slot c)) shift.symm

/-- Writing at `e` appends, as long as the window is shorter than `N`. -/
theorem window_push (small : N < 2 ^ 32) (buf : Fin N → α) {r e : UInt32} (room : (e - r).toNat < N) (x : α) :
    window (Function.update buf (slot e) x) r (e + 1) = window buf r e ++ [x] := by
  have grows := toNat_succ_sub (r := r) (e := e) (by omega)
  have atEnd : r + UInt32.ofNat (e - r).toNat = e := add_toNat_sub r e
  simp only [window, grows, List.range_succ, List.map_append, List.map_cons, List.map_nil, atEnd,
    Function.update_self]
  congr 1
  apply List.map_congr_left
  intro i mem
  -- the new slot is past every entry of the window
  have before : (slot (r + UInt32.ofNat i) : Fin N) ≠ slot e := by
    rw [← atEnd]
    exact slot_add_ne dvd (List.mem_range.mp mem) room
  exact Function.update_of_ne before ..

/-- Writing at `e` leaves every window from `r` that ends by `e` alone, as long
as `e` is less than `N` past `r`. -/
theorem window_update_of_le (buf : Fin N → α) {r w e : UInt32} (between : (w - r).toNat ≤ (e - r).toNat)
    (room : (e - r).toNat < N) (x : α) : window (Function.update buf (slot e) x) r w = window buf r w := by
  apply window_congr
  intro i lt
  have apart : (slot (r + UInt32.ofNat i) : Fin N) ≠ slot e := by
    rw [← add_toNat_sub r e]
    exact slot_add_ne dvd (by omega) room
  exact Function.update_of_ne apart ..

/-- The entry before `e` is the last one. -/
theorem window_popBack (buf : Fin N → α) {r e : UInt32} (nonempty : e ≠ r) :
    window buf r e = window buf r (e - 1) ++ [buf (slot (e - 1))] := by
  have pos : 0 < (e - r).toNat := Nat.pos_of_ne_zero fun zero => nonempty (toNat_sub_eq_zero.mp zero)
  obtain ⟨k, hk⟩ : ∃ k, (e - r).toNat = k + 1 := ⟨_, (Nat.succ_pred_eq_of_pos pos).symm⟩
  have shorter : (e - 1 - r).toNat = k := by rw [toNat_pred_sub nonempty, hk, Nat.add_sub_cancel]
  have last : r + UInt32.ofNat k = e - 1 := by
    rw [← shorter]
    exact add_toNat_sub r (e - 1)
  simp only [window, hk, shorter, List.range_succ, List.map_append, List.map_cons, List.map_nil, last]

/-- A counter between `r` and `e` cuts the window in two. -/
theorem window_split (buf : Fin N → α) {r w e : UInt32} (between : (w - r).toNat ≤ (e - r).toNat) :
    window buf r e = window buf r w ++ window buf w e := by
  have rest := toNat_sub_add_toNat_sub between
  have total : (e - r).toNat = (w - r).toNat + (e - w).toNat := by omega
  have start : r + UInt32.ofNat (w - r).toNat = w := add_toNat_sub r w
  simp only [window, total, List.range_add, List.map_append, List.map_map]
  congr 1
  apply List.map_congr_left
  intro i _
  simp only [Function.comp_apply, ← add_ofNat_add r (w - r).toNat i, start]

end Window

end Ring
