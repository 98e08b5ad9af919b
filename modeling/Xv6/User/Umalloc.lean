import Xv6.Kernel.Kalloc

/-!
# umalloc.c: the user-space allocator

Kernighan and Ritchie's allocator.  The free list is a ring of headers in
address order through the static `base`, whose size is 0; a block is a header
and `size - 1` more header-sized units after it.  `malloc` rounds a request
up to units and takes the first block of the ring that is large enough: the
whole block when it fits exactly, else its tail.  When it has gone round once
it asks `morecore` for more, which asks `sbrk` for at least 4096 units and
puts them on the list with `free`.  `free` inserts a block at its place in
address order and joins it with a neighbour it touches.

The model keeps the two fields of each header by its address in bytes
(`Heap.ptr`, `Heap.size`), so `bp + bp->s.size` is `bp + 16 * size`.  `sbrk`
is the kernel's `growproc`: it grows the process with `uvmalloc`, which takes
a free page for each new page (the pages of the page table aside), or shrinks
it with `uvmdealloc` at `sz + n` taken modulo `2 ^ 64`.  The loops of `free`
and `malloc` take fuel, and running out of it is a loop of the source that
does not end.

`sbrk` takes an `int`, and `morecore` passes it the 64-bit product
`nu * sizeof(Header)`: from `2 ^ 27` units on, that `int` is not the product
(`increment_eq_iff`).  A request of `2 ^ 32 - 1` bytes needs `2 ^ 28 + 1`
units, and their `2 ^ 32 + 16` bytes reach `sbrk` as 16.
-/

namespace Xv6
namespace Umalloc

open Bytes
open Paging (PGROUNDUP)

set_option autoImplicit false

/-- `sizeof(Header)`: a pointer and a `uint`, aligned as a `long`. -/
def headerSize : Nat := 16

/-- The headers in memory by address, the free-list pointer `freep` (0 is the
null pointer), and the process's size `sz`, which is its break. -/
structure Heap where
  ptr : Nat → Nat
  size : Nat → UInt32
  freep : Nat
  sz : Nat

/-! ## sbrk -/

/-- The size `uvmdealloc(pagetable, oldsz, newsz)` returns. -/
def uvmdeallocSize (oldsz newsz : Nat) : Nat := if newsz ≥ oldsz then oldsz else newsz

/-- The pages `uvmalloc(pagetable, oldsz, newsz, xperm)` allocates. -/
def newPages (oldsz newsz : Nat) : Nat := (PGROUNDUP newsz - PGROUNDUP oldsz) / PGSIZE

/-- `sbrk(n)`, which is `sys_sbrk` and `growproc(n)`, for a process of size
`sz` when `avail` pages are free: the old size, which the call returns, and
the new one; `none` is -1. -/
def sbrk (avail sz : Nat) (n : Int) : Option (Nat × Nat) :=
  if 0 < n then
    if newPages sz (sz + n.toNat) ≤ avail then some (sz, sz + n.toNat) else none
  else if n < 0 then some (sz, uvmdeallocSize sz ((sz + unsigned 8 n) % 2 ^ 64))
  else some (sz, sz)

/-! ## free -/

/-- A ring of distinct headers has fewer than `2 ^ 60` of them: the loops of
`free` and `malloc` get that many passes. -/
def FUEL : Nat := 2 ^ 60

/-- `free`'s loop from `p`: the block after which `bp` goes, between two
blocks of the ring, or at its wrap before the first block or after the last. -/
def freeSearch (h : Heap) (bp : Nat) : (fuel : Nat) → Nat → Except String Nat
  | 0, _ => .error "out of fuel"
  | fuel + 1, p =>
      if bp > p ∧ bp < h.ptr p then .ok p
      else if p ≥ h.ptr p ∧ (bp > p ∨ bp < h.ptr p) then .ok p
      else freeSearch h bp fuel (h.ptr p)

/-- `bp` joined with the block after `p` when it ends where that block starts,
else linked to it. -/
def joinNext (h : Heap) (bp p : Nat) : Heap :=
  if bp + headerSize * (h.size bp).toNat = h.ptr p then
    let h := { h with size := Function.update h.size bp (h.size bp + h.size (h.ptr p)) }
    { h with ptr := Function.update h.ptr bp (h.ptr (h.ptr p)) }
  else { h with ptr := Function.update h.ptr bp (h.ptr p) }

/-- `p` joined with `bp` when it ends where `bp` starts, else linked to it. -/
def joinPrev (h : Heap) (bp p : Nat) : Heap :=
  if p + headerSize * (h.size p).toNat = bp then
    let h := { h with size := Function.update h.size p (h.size p + h.size bp) }
    { h with ptr := Function.update h.ptr p (h.ptr bp) }
  else { h with ptr := Function.update h.ptr p bp }

/-- `free(ap)`. -/
def free (h : Heap) (ap : Nat) : Except String Heap := do
  let bp := ap - headerSize
  let p ← freeSearch h bp FUEL h.freep
  pure { joinPrev (joinNext h bp p) bp p with freep := p }

/-! ## malloc -/

/-- `nu * sizeof(Header)` as the `int` that `sbrk` takes: the low 32 bits of
the 64-bit product, read as signed. -/
def increment (nu : UInt32) : Int := signed 4 (nu.toNat * headerSize % 2 ^ 32)

/-- `morecore(nu)`: the new `freep`, or 0 when `sbrk` fails. -/
def morecore (avail : Nat) (h : Heap) (nu : UInt32) : Except String (Nat × Heap) :=
  let nu := if nu < 4096 then 4096 else nu
  match sbrk avail h.sz (increment nu) with
  | none => .ok (0, h)
  | some (hp, sz) => do
      let h ← free { h with sz := sz, size := Function.update h.size hp nu } (hp + headerSize)
      pure (h.freep, h)

/-- `malloc`'s loop at `p`, with `prevp` the block before it. -/
def mallocLoop (avail : Nat) (nunits : UInt32) : (fuel : Nat) → Heap → Nat → Nat → Except String (Nat × Heap)
  | 0, _, _, _ => .error "out of fuel"
  | fuel + 1, h, prevp, p =>
      if nunits ≤ h.size p then
        if h.size p = nunits then
          .ok (p + headerSize, { h with ptr := Function.update h.ptr prevp (h.ptr p), freep := prevp })
        else
          -- the tail of the block
          let rest := h.size p - nunits
          let q := p + headerSize * rest.toNat
          .ok (q + headerSize, { h with size := Function.update (Function.update h.size p rest) q nunits, freep := prevp })
      else if p = h.freep then do
        let (p, h) ← morecore avail h nunits
        if p = 0 then .ok (0, h) else mallocLoop avail nunits fuel h p (h.ptr p)
      else mallocLoop avail nunits fuel h p (h.ptr p)

/-- The units `malloc` takes for `nbytes`: a header and enough units for the
bytes, computed in 64 bits and stored in a `uint`. -/
def units (nbytes : UInt32) : UInt32 := UInt32.ofNat ((nbytes.toNat + headerSize - 1) / headerSize + 1)

/-- `malloc(nbytes)`, with `base` the address of the static `base`: the
pointer, 0 when there is no memory, and the heap after. -/
def malloc (base avail : Nat) (h : Heap) (nbytes : UInt32) : Except String (Nat × Heap) :=
  let h :=
    if h.freep = 0 then
      { h with ptr := Function.update h.ptr base base, size := Function.update h.size base 0, freep := base }
    else h
  mallocLoop avail (units nbytes) FUEL h h.freep (h.ptr h.freep)

/-- A call a program makes on the allocator. -/
inductive Call where
  | malloc (nbytes : UInt32)
  | free (ap : Nat)

/-- A program's calls in order, each `malloc` made when `avail` pages are
free: the pointers `malloc` returned, and the heap after. -/
def run (base avail : Nat) : Heap → List Call → Except String (List Nat × Heap)
  | h, [] => .ok ([], h)
  | h, .malloc n :: calls => do
      let (p, h) ← malloc base avail h n
      let (ps, h) ← run base avail h calls
      pure (p :: ps, h)
  | h, .free ap :: calls => do
      let h ← free h ap
      run base avail h calls

/-! ## The units and the bytes `sbrk` gets -/

/-- The units never wrap in their `uint`: a request is at most `2 ^ 28 + 1`
units. -/
theorem units_toNat (nbytes : UInt32) : (units nbytes).toNat = (nbytes.toNat + 15) / 16 + 1 := by
  have bound := nbytes.toNat_lt
  unfold units headerSize
  rw [UInt32.toNat_ofNat_of_lt' (by rw [UInt32.size]; omega)]
  omega

/-- `sbrk` gets `nu * sizeof(Header)` exactly when the product is below
`2 ^ 31`: from `2 ^ 27` units on, the `int` is negative or wraps. -/
theorem increment_eq_iff (nu : UInt32) : increment nu = nu.toNat * headerSize ↔ nu.toNat < 2 ^ 27 := by
  have bound := nu.toNat_lt
  have word : (256 : Nat) ^ 4 = 2 ^ 32 := by norm_num
  unfold increment signed headerSize
  rw [word]
  constructor
  · intro same
    by_contra big
    split at same <;> omega
  · intro small
    rw [Nat.mod_eq_of_lt (by omega), if_pos (by omega)]
    omega

/-- `morecore` asks for at least 4096 units, so `malloc(nbytes)` hands `sbrk`
the bytes it records exactly when `nbytes` is below `2 ^ 31 - 31`. -/
theorem malloc_increment_eq_iff (nbytes : UInt32) :
    (increment (if units nbytes < 4096 then 4096 else units nbytes) =
        (if units nbytes < 4096 then 4096 else units nbytes).toNat * headerSize) ↔
      nbytes.toNat < 2 ^ 31 - 31 := by
  rw [increment_eq_iff]
  have counted := units_toNat nbytes
  have least : (4096 : UInt32).toNat = 4096 := rfl
  by_cases few : units nbytes < 4096
  · rw [if_pos few, least]
    rw [UInt32.lt_iff_toNat_lt, counted, least] at few
    omega
  · rw [if_neg few, counted]
    rw [UInt32.lt_iff_toNat_lt, counted, least] at few
    omega

/-! ## Requests of `2 ^ 31` bytes and more -/

/-- `malloc(2 ^ 32 - 1)` as the first call of a process whose break is 16384,
with `base` at 8192: its `2 ^ 28 + 1` units reach `sbrk` as 16 bytes, and
`malloc` returns 16400 with the break at 16400, so none of the bytes it hands
out is below the break.  For `2 ^ 31` bytes the `int` is negative, and `sbrk`
returns the old break without growing the process. -/
theorem malloc_past_break :
    units 4294967295 = 268435457 ∧ increment 268435457 = 16 ∧
      (malloc 8192 1 ⟨fun _ => 0, fun _ => 0, 0, 16384⟩ 4294967295).map (fun r => (r.1, r.2.sz)) =
        .ok (16400, 16400) ∧
      units 2147483648 = 134217729 ∧ increment 134217729 = -2147483632 ∧
      sbrk 1 16384 (-2147483632) = some (16384, 16384) := by
  exact ⟨by decide, by decide, by decide, by decide, by decide, by decide⟩

/-- The same first call, then `malloc(1)`: its `morecore` gets the memory at
the break 16400, inside the live block at 16384 of `2 ^ 28 + 1` units, which
spans `[16384, 4294983696)`.  Afterwards the free list runs from `base` to
a block at 16400 of 4094 units and back, and that block and the second
pointer 81920 both lie inside the live block. -/
theorem free_block_inside_live_block :
    (run 8192 100 ⟨fun _ => 0, fun _ => 0, 0, 16384⟩ [.malloc 4294967295, .malloc 1]).map
        (fun r => (r.1, r.2.size 16384, r.2.ptr 8192, r.2.size 16400, r.2.ptr 16400)) =
      .ok ([16400, 81920], 268435457, 16400, 4094, 8192) := by
  decide

end Umalloc
end Xv6
