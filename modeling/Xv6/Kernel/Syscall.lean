import Xv6.Kernel.Kalloc
import Xv6.Kernel.String

/-!
# Kernel.Syscall -- system call arguments, and the argument vector of `sys_exec`

A system call finds its arguments in the trapframe registers `a0` to `a5`
(`argraw`, which panics on any other index) and reaches the caller's memory
through `copyin` and `copyinstr`.  `fetchaddr` reads a word only when its
eight bytes lie below the process size `p->sz`.  Its two tests are the
`uint64` ones of the source, and they keep the read inside `[0, sz)` for every
size at least eight below `2 ^ 64` (`fetchaddr_tests`, `fetchaddr_eq_some`);
closer to `2 ^ 64` an `addr + 8` that wraps passes both.  `fetchstr` returns
the length of the string `copyinstr` copied (`fetchstr_of_cstring`,
`fetchstr_ok`).

`sys_exec` walks the caller's argument vector: the words `uargv[0]`,
`uargv[1]`, ... up to a zero word, each a pointer to a C string that it
copies into a page from `kalloc` (`fetchArgv`).  `Argv byte uargv args` is
that format: the words from `uargv` on point at the strings `args`, in order,
then comes a zero word; memory fixes the strings (`Argv.unique`).  The loop
reaches `exec` exactly when the caller's memory holds such a vector of fewer
than `MAXARG` strings, each shorter than a page, whose words lie below `sz`
and whose bytes are all on mapped pages (`Fetchable`), and `kalloc` has a page
for each string (`fetchArgv_ready`, `fetchArgv_of_argv`); the buffers it
hands `exec` hold those strings.  Each page it takes is one more page handed
out in the allocator's `Pool` (`fetchArgv_pool`), and `bad` frees them.
-/

namespace Xv6

namespace Sys

open Bytes Paging

set_option autoImplicit false

/-! ## The process a system call runs for -/

/-- The registers of the trapframe that system calls read and `exec` writes. -/
structure Trapframe where
  epc : UInt64
  sp : UInt64
  a0 : UInt64
  a1 : UInt64
  a2 : UInt64
  a3 : UInt64
  a4 : UInt64
  a5 : UInt64

/-- What syscall.c and exec.c use of `myproc()`: the size of its memory, the
memory its page table maps, its trapframe and its name.  `frames` is ghost
state: the physical pages of the page table, its page-table pages and the
pages of the memory below `sz`, which `proc_freepagetable` gives back. -/
structure Proc where
  sz : UInt64
  pagetable : Vm
  frames : List Nat
  trapframe : Trapframe
  name : List UInt8

section Fetch

variable (p : Proc)

/-- `argraw(n)`: the `n`th argument register; any other `n` panics. -/
def argraw (n : Int) : Except String UInt64 :=
  match n with
  | 0 => .ok p.trapframe.a0
  | 1 => .ok p.trapframe.a1
  | 2 => .ok p.trapframe.a2
  | 3 => .ok p.trapframe.a3
  | 4 => .ok p.trapframe.a4
  | 5 => .ok p.trapframe.a5
  | _ => .error "argraw"

/-- `argint(n, ip)`: the low 32 bits of the register, as an `int`. -/
def argint (n : Int) : Except String Int32 := (argraw p n).map fun x => x.toUInt32.toInt32

/-- `argaddr(n, ip)`: the register as a pointer, unchecked. -/
def argaddr (n : Int) : Except String UInt64 := argraw p n

/-- `fetchaddr(addr, ip)`: the `uint64` at `addr`, or `none` where it returns -1. -/
def fetchaddr (addr : UInt64) : Option UInt64 :=
  if addr ≥ p.sz ∨ addr + 8 > p.sz then none
  else
    let got := copyin p.pagetable addr.toNat 8
    if got.2 then some (UInt64.ofNat (ofLE got.1)) else none

/-- `fetchstr(addr, buf, max)`: the length of the string copied, or -1, and
the bytes `copyinstr` wrote to `buf`. -/
def fetchstr (addr : UInt64) (max : Nat) : Int × List UInt8 :=
  let got := copyinstr p.pagetable addr.toNat max
  if !got.2 then (-1, got.1) else (strlen got.1, got.1)

/-- `argstr(n, buf, max)`. -/
def argstr (n : Int) (max : Nat) : Except String (Int × List UInt8) :=
  (argaddr p n).map fun addr => fetchstr p addr max

/-- The loop of `sys_exec` from argument `i` on.  It ends at `exec` (`true`)
at a null `uargv[i]`, and at `bad` (`false`) when `i` reaches `MAXARG`, a
word cannot be fetched, `kalloc` has no page or the string cannot be copied.
It returns the memory and the pages it took from `i` on, each with the bytes
`fetchstr` wrote into it. -/
def fetchArgv (uargv : UInt64) (i : Nat) (m : Phys) : Bool × Phys × List (Nat × List UInt8) :=
  if i ≥ MAXARG then (false, m, [])
  else
    match fetchaddr p (uargv + UInt64.ofNat (8 * i)) with
    | none => (false, m, [])
    | some uarg =>
      if uarg = 0 then (true, m, [])
      else
        match kalloc m with
        | none => (false, m, [])
        | some (pa, m) =>
          let got := fetchstr p uarg PGSIZE
          if got.1 < 0 then (false, m, [(pa, got.2)])
          else
            let rest := fetchArgv uargv (i + 1) m
            (rest.1, rest.2.1, (pa, got.2) :: rest.2.2)
termination_by MAXARG - i

end Fetch

/-! ## The argument vector -/

/-- The word at `a`, its eight bytes read as `fetchaddr` reads them. -/
def word (byte : Nat → UInt8) (a : Nat) : Nat := ofLE (loadBytes byte a 8)

theorem word_lt (byte : Nat → UInt8) (a : Nat) : word byte a < 2 ^ 64 := by
  have bound := ofLE_lt (loadBytes byte a 8)
  rw [length_loadBytes] at bound
  unfold word
  omega

/-- `Argv byte uargv args`: from `uargv` on, the words point at the C strings
`args`, in order, and the word after them is zero. -/
def Argv (byte : Nat → UInt8) (uargv : Nat) : List (List UInt8) → Prop
  | [] => word byte uargv = 0
  | s :: args => word byte uargv ≠ 0 ∧ CString byte (word byte uargv) s ∧ Argv byte (uargv + 8) args

/-- Memory fixes the strings of an argument vector. -/
theorem Argv.unique {byte : Nat → UInt8} : ∀ {uargv : Nat} {args args' : List (List UInt8)},
    Argv byte uargv args → Argv byte uargv args' → args = args' := by
  intro uargv args
  induction args generalizing uargv with
  | nil =>
    intro args' here there
    cases args' with
    | nil => rfl
    | cons s args' => exact absurd here there.1
  | cons s args ih =>
    intro args' here there
    cases args' with
    | nil => exact absurd there here.1
    | cons s' args' => rw [CString.unique here.2.1 there.2.1, ih here.2.2 there.2.2]

/-- The words of the vector at `uargv`, its zero word included, lie below
`sz` on mapped pages, and so do the bytes of its strings, their NULs
included; each string is shorter than a page. -/
def Fetchable (p : Proc) (uargv : Nat) : List (List UInt8) → Prop
  | [] => uargv + 8 ≤ p.sz.toNat ∧ p.pagetable.Mapped uargv 8
  | s :: args =>
    uargv + 8 ≤ p.sz.toNat ∧ p.pagetable.Mapped uargv 8 ∧ s.length < PGSIZE ∧
      p.pagetable.Mapped (word p.pagetable.byte uargv) (s.length + 1) ∧ Fetchable p (uargv + 8) args

/-- The strings of a vector `sys_exec` can fetch hold no NUL and are shorter
than a page. -/
theorem Argv.strings {p : Proc} : ∀ {uargv : Nat} {args : List (List UInt8)},
    Argv p.pagetable.byte uargv args → Fetchable p uargv args → ∀ s ∈ args, 0 ∉ s ∧ s.length < PGSIZE := by
  intro uargv args
  induction args generalizing uargv with
  | nil => intro _ _ s mem; cases mem
  | cons t args ih =>
    intro argv fetchable s mem
    rcases List.mem_cons.mp mem with rfl | later
    · exact ⟨argv.2.1.2, fetchable.2.2.1⟩
    · exact ih argv.2.2 fetchable.2.2.2.2 s later

/-! ## fetchaddr and fetchstr -/

section Spec

variable {p : Proc}

/-- The bytes of a caller whose vector at 64 points at the one string `hi`
at 128, with the path `hi` at 256. -/
def hiBytes (a : Nat) : UInt8 :=
  if a = 64 then 128 else if a = 128 ∨ a = 256 then 104 else if a = 129 ∨ a = 257 then 105 else 0

/-- That caller: one mapped page, `a0` at the path and `a1` at the vector. -/
def hiProc : Proc where
  sz := 4096
  pagetable := ⟨fun _ => true, fun _ => true, hiBytes⟩
  frames := []
  trapframe := ⟨0, 0, 256, 64, 0, 0, 0, 0⟩
  name := []

/-- Physical memory with one free page, the one above the kernel's end. -/
def hiPhys : Phys := ⟨fun _ _ => 0, [PHYSTOP - PGSIZE], PHYSTOP - PGSIZE⟩

/-- `fetchaddr`'s two tests pass exactly when the eight bytes lie below `sz`,
for a size at least eight below `2 ^ 64`: the second test catches an
`addr + 8` past `sz`, the first one an `addr + 8` that wraps. -/
theorem fetchaddr_tests {addr sz : UInt64} (small : sz.toNat + 8 ≤ 2 ^ 64) :
    ¬ (addr ≥ sz ∨ addr + 8 > sz) ↔ addr.toNat + 8 ≤ sz.toNat := by
  simp only [ge_iff_le, gt_iff_lt, not_or, UInt64.le_iff_toNat_le, UInt64.lt_iff_toNat_lt,
    UInt64.toNat_add, not_le, not_lt]
  have := addr.toNat_lt
  simp only [UInt64.toNat_ofNat]
  omega

theorem ofNat_eq_iff {x : Nat} {v : UInt64} (small : x < 2 ^ 64) : UInt64.ofNat x = v ↔ v.toNat = x := by
  rw [← UInt64.toNat_inj, UInt64.toNat_ofNat', Nat.mod_eq_of_lt small, eq_comm]

/-- `fetchaddr` returns exactly when the word lies below `sz` on mapped
pages, and returns the word. -/
theorem fetchaddr_eq_some (small : p.sz.toNat + 8 ≤ 2 ^ 64) {addr v : UInt64} :
    fetchaddr p addr = some v ↔
      addr.toNat + 8 ≤ p.sz.toNat ∧ p.pagetable.Mapped addr.toNat 8 ∧ v.toNat = word p.pagetable.byte addr.toNat := by
  unfold fetchaddr
  by_cases inside : addr.toNat + 8 ≤ p.sz.toNat
  · rw [if_neg ((fetchaddr_tests small).mpr inside)]
    by_cases mapped : p.pagetable.Mapped addr.toNat 8
    · rw [copyin_of_mapped _ _ _ mapped]
      simp only [if_true, Option.some.injEq]
      rw [← word, ofNat_eq_iff (word_lt _ _)]
      exact ⟨fun same => ⟨inside, mapped, same⟩, fun ⟨_, _, same⟩ => same⟩
    · have failed : (copyin p.pagetable addr.toNat 8).2 = false := by
        cases ok : (copyin p.pagetable addr.toNat 8).2
        · rfl
        · exact absurd (copyin_mapped_of_ok _ _ _ ok) mapped
      simp only [failed, Bool.false_eq_true, if_false, reduceCtorEq, false_iff, not_and]
      exact fun _ found => absurd found mapped
  · have outside : addr ≥ p.sz ∨ addr + 8 > p.sz := by
      by_contra tests
      exact inside ((fetchaddr_tests small).mp tests)
    rw [if_pos outside]
    simp only [reduceCtorEq, false_iff, not_and]
    exact fun within => absurd within inside

/-- `fetchstr` copies a C string shorter than `max` whose bytes are on
mapped pages, and returns its length. -/
theorem fetchstr_of_cstring {addr : UInt64} {max : Nat} {s : List UInt8}
    (cstr : CString p.pagetable.byte addr.toNat s) (short : s.length < max)
    (mapped : p.pagetable.Mapped addr.toNat (s.length + 1)) :
    fetchstr p addr max = ((s.length : Int), s ++ [0]) := by
  have copied : copyinstr p.pagetable addr.toNat max = (s ++ [0], true) := by
    rw [copyinstr_eq_readStr]
    exact (readStr_eq_ok _ s).mpr ⟨cstr, short, mapped⟩
  simp [fetchstr, copied, strlen_append cstr.2]

/-- A `fetchstr` that does not return -1 copied such a string. -/
theorem fetchstr_ok {addr : UInt64} {max : Nat} (ok : ¬ (fetchstr p addr max).1 < 0) :
    ∃ s, CString p.pagetable.byte addr.toNat s ∧ s.length < max ∧
      p.pagetable.Mapped addr.toNat (s.length + 1) ∧ fetchstr p addr max = ((s.length : Int), s ++ [0]) := by
  have found : (readStr p.pagetable addr.toNat max).2 = true := by
    by_contra missing
    rw [Bool.not_eq_true] at missing
    simp [fetchstr, copyinstr_eq_readStr, missing] at ok
  obtain ⟨s, read⟩ := readStr_found p.pagetable found
  obtain ⟨cstr, short, mapped⟩ := (readStr_eq_ok _ s).mp read
  exact ⟨s, cstr, short, mapped, fetchstr_of_cstring cstr short mapped⟩

end Spec

/-! ## The argument loop of `sys_exec` -/

section Loop

variable (p : Proc) (uargv : UInt64) {i : Nat} {m : Phys}

theorem fetchArgv_full (full : i ≥ MAXARG) : fetchArgv p uargv i m = (false, m, []) := by
  rw [fetchArgv, if_pos full]

theorem fetchArgv_unreadable (room : ¬ i ≥ MAXARG) (unreadable : fetchaddr p (uargv + UInt64.ofNat (8 * i)) = none) :
    fetchArgv p uargv i m = (false, m, []) := by
  rw [fetchArgv, if_neg room, unreadable]

theorem fetchArgv_null (room : ¬ i ≥ MAXARG) (null : fetchaddr p (uargv + UInt64.ofNat (8 * i)) = some 0) :
    fetchArgv p uargv i m = (true, m, []) := by
  rw [fetchArgv, if_neg room, null]
  simp

theorem fetchArgv_nopage (room : ¬ i ≥ MAXARG) {uarg : UInt64}
    (fetched : fetchaddr p (uargv + UInt64.ofNat (8 * i)) = some uarg) (nonnull : uarg ≠ 0) (nopage : kalloc m = none) :
    fetchArgv p uargv i m = (false, m, []) := by
  rw [fetchArgv, if_neg room, fetched]
  simp only [nonnull, if_false, nopage]

theorem fetchArgv_badstr (room : ¬ i ≥ MAXARG) {uarg : UInt64}
    (fetched : fetchaddr p (uargv + UInt64.ofNat (8 * i)) = some uarg) (nonnull : uarg ≠ 0)
    {pa : Nat} {m' : Phys} (taken : kalloc m = some (pa, m')) (bad : (fetchstr p uarg PGSIZE).1 < 0) :
    fetchArgv p uargv i m = (false, m', [(pa, (fetchstr p uarg PGSIZE).2)]) := by
  rw [fetchArgv, if_neg room, fetched]
  simp only [nonnull, if_false, taken, bad, if_true]

theorem fetchArgv_next (room : ¬ i ≥ MAXARG) {uarg : UInt64}
    (fetched : fetchaddr p (uargv + UInt64.ofNat (8 * i)) = some uarg) (nonnull : uarg ≠ 0)
    {pa : Nat} {m' : Phys} (taken : kalloc m = some (pa, m')) (good : ¬ (fetchstr p uarg PGSIZE).1 < 0) :
    fetchArgv p uargv i m = ((fetchArgv p uargv (i + 1) m').1, (fetchArgv p uargv (i + 1) m').2.1,
      (pa, (fetchstr p uarg PGSIZE).2) :: (fetchArgv p uargv (i + 1) m').2.2) := by
  rw [fetchArgv, if_neg room, fetched]
  simp only [nonnull, if_false, taken, good]

/-- The loop reaches `exec` only at a null word inside the array
`argv[MAXARG]`: fewer than `MAXARG - i` strings from `i` on. -/
theorem fetchArgv_count : ∀ (i : Nat) (m : Phys), (fetchArgv p uargv i m).1 = true →
    i + (fetchArgv p uargv i m).2.2.length < MAXARG := by
  intro i m
  induction i, m using fetchArgv.induct p uargv with
  | case1 i m full =>
    intro ready
    rw [fetchArgv_full p uargv full] at ready
    cases ready
  | case2 i m room unreadable =>
    intro ready
    rw [fetchArgv_unreadable p uargv room unreadable] at ready
    cases ready
  | case3 i m room null =>
    intro _
    rw [fetchArgv_null p uargv room null, List.length_nil]
    omega
  | case4 i m room uarg fetched nonnull nopage =>
    intro ready
    rw [fetchArgv_nopage p uargv room fetched nonnull nopage] at ready
    cases ready
  | case5 i m room uarg fetched nonnull pa m' taken _ bad =>
    intro ready
    rw [fetchArgv_badstr p uargv room fetched nonnull taken bad] at ready
    cases ready
  | case6 i m room uarg fetched nonnull pa m' taken _ good ih =>
    intro ready
    rw [fetchArgv_next p uargv room fetched nonnull taken good] at ready ⊢
    have rest := ih ready
    rw [List.length_cons]
    omega

/-- The buffers the loop hands `exec` are fewer than `MAXARG`, so the array
keeps a slot for its null pointer. -/
theorem fetchArgv_buffers (ready : (fetchArgv p uargv 0 m).1 = true) :
    ((fetchArgv p uargv 0 m).2.2.map Prod.snd).length < MAXARG := by
  rw [List.length_map]
  have count := fetchArgv_count p uargv 0 m ready
  omega

end Loop

/-- A page from `kalloc` was the head of the free list. -/
theorem kalloc_length {m m' : Phys} {pa : Nat} (taken : kalloc m = some (pa, m')) :
    m.freelist.length = m'.freelist.length + 1 := by
  unfold kalloc at taken
  split at taken
  · cases taken
  · rename_i r rest list
    simp only [Option.some.injEq, Prod.mk.injEq] at taken
    obtain ⟨-, rfl⟩ := taken
    simp [list]

theorem toNat_add_ofNat {a : UInt64} {n : Nat} (fits : a.toNat + n < 2 ^ 64) :
    (a + UInt64.ofNat n).toNat = a.toNat + n := by
  rw [UInt64.toNat_add, UInt64.toNat_ofNat', Nat.mod_eq_of_lt (show n < 2 ^ 64 by omega)]
  exact Nat.mod_eq_of_lt fits

section Vector

variable {p : Proc} (small : p.sz.toNat + 8 ≤ 2 ^ 64) (uargv : UInt64)

include small

/-- When the loop reaches `exec`, the caller's memory from `uargv[i]` on held
an argument vector it could fetch, of fewer than `MAXARG - i` strings, and
`kalloc` had a page for each; the buffers it filled hold those strings. -/
theorem fetchArgv_ready : ∀ (i : Nat) (m : Phys), uargv.toNat + 8 * i < 2 ^ 64 → (fetchArgv p uargv i m).1 = true →
    ∃ args, Argv p.pagetable.byte (uargv.toNat + 8 * i) args ∧ Fetchable p (uargv.toNat + 8 * i) args ∧
      i + args.length < MAXARG ∧ args.length ≤ m.freelist.length ∧
      (fetchArgv p uargv i m).2.2.map Prod.snd = args.map (· ++ [0]) := by
  intro i m
  induction i, m using fetchArgv.induct p uargv with
  | case1 i m full =>
    intro _ ready
    rw [fetchArgv_full p uargv full] at ready
    cases ready
  | case2 i m room unreadable =>
    intro _ ready
    rw [fetchArgv_unreadable p uargv room unreadable] at ready
    cases ready
  | case3 i m room null =>
    intro fits _
    obtain ⟨inside, mapped, zero⟩ := (fetchaddr_eq_some small).mp null
    rw [toNat_add_ofNat (by omega)] at inside mapped zero
    refine ⟨[], zero.symm, ⟨inside, mapped⟩, by simp only [List.length_nil]; omega, Nat.zero_le _, ?_⟩
    rw [fetchArgv_null p uargv room null]
    rfl
  | case4 i m room uarg fetched nonnull nopage =>
    intro _ ready
    rw [fetchArgv_nopage p uargv room fetched nonnull nopage] at ready
    cases ready
  | case5 i m room uarg fetched nonnull pa m' taken _ bad =>
    intro _ ready
    rw [fetchArgv_badstr p uargv room fetched nonnull taken bad] at ready
    cases ready
  | case6 i m room uarg fetched nonnull pa m' taken _ good ih =>
    intro fits ready
    rw [fetchArgv_next p uargv room fetched nonnull taken good] at ready ⊢
    obtain ⟨inside, mapped, pointer⟩ := (fetchaddr_eq_some small).mp fetched
    rw [toNat_add_ofNat (by omega)] at inside mapped pointer
    obtain ⟨s, cstr, short, strMapped, copied⟩ := fetchstr_ok good
    rw [pointer] at cstr strMapped
    have next : uargv.toNat + 8 * i + 8 = uargv.toNat + 8 * (i + 1) := by ring
    obtain ⟨args, argv, fetchable, count, pages, buffers⟩ := ih (by omega) ready
    have nonzero : word p.pagetable.byte (uargv.toNat + 8 * i) ≠ 0 := by
      rw [← pointer]
      exact fun zero => nonnull (UInt64.toNat_inj.mp (by rw [zero]; rfl))
    refine ⟨s :: args, ⟨nonzero, cstr, next ▸ argv⟩,
      ⟨inside, mapped, short, strMapped, next ▸ fetchable⟩, by simp only [List.length_cons]; omega, ?_, ?_⟩
    · rw [kalloc_length taken, List.length_cons]
      omega
    · rw [List.map_cons, buffers, copied, List.map_cons]

/-- The loop reaches `exec` for every argument vector it can fetch, of fewer
than `MAXARG - i` strings, when `kalloc` has a page for each. -/
theorem fetchArgv_of_argv : ∀ (args : List (List UInt8)) (i : Nat) (m : Phys), uargv.toNat + 8 * i < 2 ^ 64 →
    Argv p.pagetable.byte (uargv.toNat + 8 * i) args → Fetchable p (uargv.toNat + 8 * i) args →
    i + args.length < MAXARG → args.length ≤ m.freelist.length → (fetchArgv p uargv i m).1 = true := by
  intro args
  induction args with
  | nil =>
    intro i m fits zero fetchable count _
    have room : ¬ i ≥ MAXARG := by simp only [List.length_nil] at count; omega
    have null : fetchaddr p (uargv + UInt64.ofNat (8 * i)) = some 0 := by
      rw [fetchaddr_eq_some small, toNat_add_ofNat (by omega)]
      exact ⟨fetchable.1, fetchable.2, zero.symm⟩
    rw [fetchArgv_null p uargv room null]
  | cons s args ih =>
    intro i m fits argv fetchable count pages
    obtain ⟨nonzero, cstr, rest⟩ := argv
    obtain ⟨inside, mapped, short, strMapped, later⟩ := fetchable
    have room : ¬ i ≥ MAXARG := by simp only [List.length_cons] at count; omega
    set w := word p.pagetable.byte (uargv.toNat + 8 * i) with hw
    have pointer : (UInt64.ofNat w).toNat = w := by
      rw [UInt64.toNat_ofNat', Nat.mod_eq_of_lt (word_lt _ _)]
    have fetched : fetchaddr p (uargv + UInt64.ofNat (8 * i)) = some (UInt64.ofNat w) := by
      rw [fetchaddr_eq_some small, toNat_add_ofNat (by omega), pointer]
      exact ⟨inside, mapped, rfl⟩
    have nonnull : UInt64.ofNat w ≠ 0 := fun zero => nonzero (by rw [← pointer, zero]; rfl)
    obtain ⟨pa, rest', list⟩ : ∃ pa rest', m.freelist = pa :: rest' := by
      cases list : m.freelist with
      | nil => simp [list] at pages
      | cons pa rest' => exact ⟨pa, rest', rfl⟩
    have taken := kalloc_of_cons list
    have copied : fetchstr p (UInt64.ofNat w) PGSIZE = ((s.length : Int), s ++ [0]) :=
      fetchstr_of_cstring (by rw [pointer]; exact cstr) short (by rw [pointer]; exact strMapped)
    have good : ¬ (fetchstr p (UInt64.ofNat w) PGSIZE).1 < 0 := by rw [copied]; omega
    rw [fetchArgv_next p uargv room fetched nonnull taken good]
    have next : uargv.toNat + 8 * i + 8 = uargv.toNat + 8 * (i + 1) := by ring
    exact ih (i + 1) _ (by omega) (next ▸ rest) (next ▸ later) (by simp only [List.length_cons] at count; omega)
      (by have := kalloc_length taken; simp only [List.length_cons] at pages; omega)

end Vector

/-- `sys_exec`'s loop reaches `exec` exactly when the caller's memory holds
at `uargv` an argument vector of fewer than `MAXARG` strings that it can
fetch, and `kalloc` has a page for each string; the buffers it hands `exec`
then hold exactly those strings, each with its NUL. -/
theorem sys_exec_fetch {p : Proc} (small : p.sz.toNat + 8 ≤ 2 ^ 64) (uargv : UInt64) (m : Phys) :
    (fetchArgv p uargv 0 m).1 = true ↔
      ∃ args, Argv p.pagetable.byte uargv.toNat args ∧ Fetchable p uargv.toNat args ∧ args.length < MAXARG ∧
        args.length ≤ m.freelist.length := by
  have first : uargv.toNat + 8 * 0 = uargv.toNat := by rw [Nat.mul_zero, Nat.add_zero]
  constructor
  · intro ready
    obtain ⟨args, argv, fetchable, count, pages, -⟩ :=
      fetchArgv_ready small uargv 0 m (by rw [first]; exact uargv.toNat_lt) ready
    rw [first] at argv fetchable
    exact ⟨args, argv, fetchable, by omega, pages⟩
  · rintro ⟨args, argv, fetchable, count, pages⟩
    exact fetchArgv_of_argv small uargv args 0 m (by rw [first]; exact uargv.toNat_lt) (first ▸ argv)
      (first ▸ fetchable) (by omega) pages

theorem sys_exec_fetch_hi : (fetchArgv hiProc 64 0 hiPhys).1 = true :=
  (sys_exec_fetch (by decide) 64 hiPhys).mpr
    ⟨[[104, 105]], ⟨by decide, ⟨by decide, by decide⟩, by unfold Argv; decide⟩,
      ⟨by decide, fun _ _ _ => rfl, by decide, fun _ _ _ => rfl, by decide, fun _ _ _ => rfl⟩, by decide, by decide⟩

/-- Each page the loop takes is one more page handed out. -/
theorem fetchArgv_pool (p : Proc) (uargv : UInt64) {m₀ : Phys} : ∀ (i : Nat) (m : Phys) {held : List Nat},
    Pool m₀ m held →
      Pool m₀ (fetchArgv p uargv i m).2.1 (((fetchArgv p uargv i m).2.2.map Prod.fst).reverse ++ held) := by
  intro i m
  induction i, m using fetchArgv.induct p uargv with
  | case1 i m full =>
    intro held inv
    rw [fetchArgv_full p uargv full]
    exact inv
  | case2 i m room unreadable =>
    intro held inv
    rw [fetchArgv_unreadable p uargv room unreadable]
    exact inv
  | case3 i m room null =>
    intro held inv
    rw [fetchArgv_null p uargv room null]
    exact inv
  | case4 i m room uarg fetched nonnull nopage =>
    intro held inv
    rw [fetchArgv_nopage p uargv room fetched nonnull nopage]
    exact inv
  | case5 i m room uarg fetched nonnull pa m' taken _ =>
    rename_i bad
    intro held inv
    rw [fetchArgv_badstr p uargv room fetched nonnull taken bad]
    exact inv.alloc taken
  | case6 i m room uarg fetched nonnull pa m' taken _ =>
    rename_i good ih
    intro held inv
    rw [fetchArgv_next p uargv room fetched nonnull taken good]
    have later := ih (inv.alloc taken)
    simpa using later

end Sys

end Xv6
