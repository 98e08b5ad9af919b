import Xv6.Theory.Copy

/-!
# string.c and ulib.c: memmove

The kernel's `memmove(dst, src, n)` takes a `uint` count and copies backward
exactly when the source starts below the destination and reaches into it
(`s < d && s + n > d`); `memcpy` is the same function.  The user library's
`memmove(vdst, vsrc, n)` takes an `int` count and copies forward exactly when
the source lies above the destination (`src > dst`), backward otherwise; with
`n <= 0` neither loop runs.  Both loops are `Copy.forward` and
`Copy.backward`, with pointers as addresses into one byte array.

The two tests differ, but each sends every overlap to a direction that reads
each source byte before it is overwritten, so both functions copy
(`memmove_spec`, `Ulib.memmove_spec`): `dst[0..n)` ends holding the old
`src[0..n)`, nothing else changes, and the result is `dst`.
-/

namespace Xv6

open Copy

set_option autoImplicit false

/-- `memmove(dst, src, n)` in kernel/string.c: the pointer it returns and the
memory afterwards. -/
def memmove (mem : Nat → UInt8) (dst src : Nat) (n : UInt32) : Nat × (Nat → UInt8) :=
  if n = 0 then (dst, mem)
  else if src < dst ∧ src + n.toNat > dst then (dst, backward mem dst src n.toNat)
  else (dst, forward mem dst src n.toNat)

/-- `memcpy` exists to placate GCC: it is `memmove`. -/
def memcpy (mem : Nat → UInt8) (dst src : Nat) (n : UInt32) : Nat × (Nat → UInt8) :=
  memmove mem dst src n

theorem memmove_spec (mem : Nat → UInt8) (dst src : Nat) (n : UInt32) :
    (memmove mem dst src n).1 = dst ∧ Copied mem (memmove mem dst src n).2 dst src n.toNat := by
  unfold memmove
  by_cases zero : n = 0
  · subst zero
    exact ⟨rfl, copied_zero mem dst src⟩
  by_cases inside : src < dst ∧ src + n.toNat > dst
  · -- the source starts below the destination: backward is safe
    rw [if_neg zero, if_pos inside]
    exact ⟨rfl, backward_copied (.inl (Nat.le_of_lt inside.1))⟩
  · -- the destination does not start strictly inside the source: forward is safe
    rw [if_neg zero, if_neg inside]
    exact ⟨rfl, forward_copied (by omega)⟩

namespace Ulib

/-- `memmove(vdst, vsrc, n)` in user/ulib.c.  `while(n-- > 0)` runs `n` times
when `n > 0` and never otherwise; the backward branch first moves both
pointers by `n`, which `Copy.backward` does by writing at `vdst + k`. -/
def memmove (mem : Nat → UInt8) (vdst vsrc : Nat) (n : Int32) : Nat × (Nat → UInt8) :=
  if vsrc > vdst then (vdst, forward mem vdst vsrc n.toInt.toNat)
  else (vdst, backward mem vdst vsrc n.toInt.toNat)

theorem memmove_spec (mem : Nat → UInt8) (vdst vsrc : Nat) (n : Int32) :
    (memmove mem vdst vsrc n).1 = vdst ∧
      Copied mem (memmove mem vdst vsrc n).2 vdst vsrc n.toInt.toNat := by
  unfold memmove
  by_cases above : vsrc > vdst
  · rw [if_pos above]
    exact ⟨rfl, forward_copied (.inl (Nat.le_of_lt above))⟩
  · rw [if_neg above]
    exact ⟨rfl, backward_copied (.inl (by omega))⟩

/-- With a count of zero or less the user `memmove` changes nothing. -/
theorem memmove_of_nonpos (mem : Nat → UInt8) (vdst vsrc : Nat) {n : Int32}
    (nonpos : n.toInt ≤ 0) :
    memmove mem vdst vsrc n = (vdst, mem) := by
  have none : n.toInt.toNat = 0 := by omega
  unfold memmove
  split <;> simp [none]

end Ulib

/-- Both `memmove`s copy `src[0..n)` to `dst[0..n)` for every overlap in either
direction, change nothing else and return `dst`; the user one does nothing for
`n <= 0`. -/
theorem memmove_copies_every_overlap (mem : Nat → UInt8) (dst src : Nat) :
    (∀ n : UInt32, (memmove mem dst src n).1 = dst ∧
        Copied mem (memmove mem dst src n).2 dst src n.toNat) ∧
      ∀ n : Int32, (Ulib.memmove mem dst src n).1 = dst ∧
        Copied mem (Ulib.memmove mem dst src n).2 dst src n.toInt.toNat ∧
        (n.toInt ≤ 0 → (Ulib.memmove mem dst src n).2 = mem) := by
  refine ⟨memmove_spec mem dst src, fun n => ⟨(Ulib.memmove_spec mem dst src n).1,
    (Ulib.memmove_spec mem dst src n).2, fun nonpos => ?_⟩⟩
  rw [Ulib.memmove_of_nonpos mem dst src nonpos]

/-! ## strlen and safestrcpy

A buffer is the list of its bytes, and reads past its end see NUL: the
buffers these functions are given (a `copyinstr` target, a page from
`kalloc` holding one) always hold a NUL before their end. -/

/-- `strlen(s)`: the bytes before the first NUL. -/
def strlen : List UInt8 → Nat
  | [] => 0
  | c :: s => if c = 0 then 0 else strlen s + 1

/-- The loop of `safestrcpy` once `--n` is taken: `n` bytes may still be
copied, and the loop stops after it copies a NUL; then `*s = 0`.  The bytes
written from `s` on. -/
def safestrcpyLoop : Nat → List UInt8 → List UInt8
  | 0, _ => [0]
  | _ + 1, [] => [0, 0]
  | n + 1, c :: t => if c = 0 then [0, 0] else c :: safestrcpyLoop n t

/-- `safestrcpy(s, t, n)`, like `strncpy` but guaranteed to NUL-terminate:
the bytes written from `s` on. -/
def safestrcpy (t : List UInt8) (n : Int) : List UInt8 :=
  if n ≤ 0 then [] else safestrcpyLoop (n.toNat - 1) t

/-- The length of a C string followed by its NUL. -/
theorem strlen_append {s : List UInt8} (none : 0 ∉ s) (t : List UInt8) : strlen (s ++ 0 :: t) = s.length := by
  induction s with
  | nil => simp [strlen]
  | cons c s ih =>
    rw [List.mem_cons, not_or] at none
    simp [strlen, Ne.symm none.1, ih none.2]

end Xv6
