/-
# Kernel.Vm -- copying between the kernel and a process's memory

`copyin` and `copyout` (vm.c) move bytes between a kernel buffer and user
virtual addresses one page at a time: each page is looked up in the page
table first, and the copy stops with -1 at the first page that is not mapped
for the user (or, for `copyout`, not writable).  The pages before it have
already been copied: a copy that fails has still moved a prefix of its bytes.
`either_copyin` and `either_copyout` (proc.c) choose between a user address
and a kernel address, where the copy is a plain `memmove`.

Memory is byte-addressed (`loadBytes`, `storeBytes`).  `copyin_prefix` says
that `copyin` returns a prefix of the source bytes, all of them when it
succeeds, and `copyin_of_mapped` that it succeeds when every page is mapped;
`copyout_of_mapped` is the same for `copyout`.
-/
import Xv6.Kernel.Param

namespace Xv6

set_option autoImplicit false

/-! ## Byte-addressed memory -/

/-- The `k` bytes of `f` from address `a` on. -/
def loadBytes (f : Nat → UInt8) (a k : Nat) : List UInt8 := (List.range k).map fun i => f (a + i)

/-- `f` with the bytes `bs` written from address `a` on. -/
def storeBytes (f : Nat → UInt8) (a : Nat) (bs : List UInt8) : Nat → UInt8 :=
  fun x => if a ≤ x ∧ x < a + bs.length then bs.getD (x - a) 0 else f x

@[simp] theorem storeBytes_nil (f : Nat → UInt8) (a : Nat) : storeBytes f a [] = f := by
  funext x
  simp only [storeBytes, List.length_nil, Nat.add_zero]
  rw [if_neg (by omega)]

@[simp] theorem length_loadBytes (f : Nat → UInt8) (a k : Nat) : (loadBytes f a k).length = k := by
  simp [loadBytes]

theorem loadBytes_add (f : Nat → UInt8) (a k l : Nat) :
    loadBytes f a (k + l) = loadBytes f a k ++ loadBytes f (a + k) l := by
  simp only [loadBytes, List.range_add, List.map_append, List.map_map]
  congr 1
  apply List.map_congr_left
  intro i _
  simp [Nat.add_assoc]

/-- Two stores of consecutive runs are one store of both. -/
theorem storeBytes_append (f : Nat → UInt8) (a : Nat) (bs cs : List UInt8) :
    storeBytes (storeBytes f a bs) (a + bs.length) cs = storeBytes f a (bs ++ cs) := by
  funext x
  unfold storeBytes
  simp only [List.length_append]
  by_cases second : a + bs.length ≤ x ∧ x < a + bs.length + cs.length
  · rw [if_pos second, if_pos (by omega)]
    rw [List.getD_eq_getElem?_getD, List.getD_eq_getElem?_getD, List.getElem?_append_right (by omega)]
    congr 2
    omega
  · rw [if_neg second]
    by_cases first : a ≤ x ∧ x < a + bs.length
    · rw [if_pos first, if_pos (by omega), List.getD_eq_getElem?_getD, List.getD_eq_getElem?_getD,
        List.getElem?_append_left (by omega)]
    · rw [if_neg first, if_neg (by omega)]

/-- A store changes no byte outside the run it writes. -/
theorem storeBytes_of_outside (f : Nat → UInt8) (a : Nat) (bs : List UInt8) {x : Nat}
    (outside : x < a ∨ a + bs.length ≤ x) : storeBytes f a bs x = f x := by
  unfold storeBytes
  rw [if_neg (by omega)]

/-- A load sees only the bytes it reads. -/
theorem loadBytes_congr {f g : Nat → UInt8} {a k : Nat} (same : ∀ x, a ≤ x → x < a + k → g x = f x) :
    loadBytes g a k = loadBytes f a k := by
  apply List.map_congr_left
  intro i mem
  rw [List.mem_range] at mem
  exact same (a + i) (by omega) (by omega)

/-- A load that misses a store reads what was there. -/
theorem loadBytes_storeBytes_of_disjoint (f : Nat → UInt8) (a : Nat) (bs : List UInt8) {b k : Nat}
    (apart : b + k ≤ a ∨ a + bs.length ≤ b) : loadBytes (storeBytes f a bs) b k = loadBytes f b k :=
  loadBytes_congr fun _ lo hi => storeBytes_of_outside f a bs (by omega)

/-- A load inside a store reads the stored bytes. -/
theorem loadBytes_storeBytes_inside (f : Nat → UInt8) (a : Nat) (bs : List UInt8) {j k : Nat}
    (inside : j + k ≤ bs.length) : loadBytes (storeBytes f a bs) (a + j) k = (bs.drop j).take k := by
  apply List.ext_getElem (by simp only [length_loadBytes, List.length_take, List.length_drop]; omega)
  intro i below _
  rw [length_loadBytes] at below
  simp only [loadBytes, List.getElem_map, List.getElem_range, storeBytes, List.getElem_take, List.getElem_drop]
  rw [if_pos (by omega), List.getD_eq_getElem?_getD, List.getElem?_eq_getElem (by omega)]
  simp only [Option.getD_some]
  congr 1
  omega

/-! ## vm.c and proc.c -/

/-- Bytes per page. -/
def PGSIZE : Nat := 4096

/-- `PGROUNDDOWN(a)`, `a & ~(PGSIZE-1)`: the start of the page holding `a`. -/
def PGROUNDDOWN (a : Nat) : Nat := a / PGSIZE * PGSIZE

/-- A process's user memory as the copies reach it: for each page, whether
`walk` finds it mapped for the user below `MAXVA` (`PTE_V` and `PTE_U`) and
whether it is writable (`PTE_W`); and the byte behind each virtual address. -/
structure Vm where
  user : Nat → Bool
  writable : Nat → Bool
  byte : Nat → UInt8

private theorem chunk_pos {a len : Nat} (nonempty : len ≠ 0) :
    0 < min (PGSIZE - (a - PGROUNDDOWN a)) len := by
  unfold PGROUNDDOWN PGSIZE
  omega

/-- `copyin`: the bytes moved into the kernel buffer, and whether the copy succeeded. -/
def copyin (vm : Vm) (srcva len : Nat) : List UInt8 × Bool :=
  if _nonempty : len = 0 then ([], true)
  else
    let va0 := PGROUNDDOWN srcva
    if !vm.user va0 then ([], false)
    else
      let n := min (PGSIZE - (srcva - va0)) len
      let rest := copyin vm (va0 + PGSIZE) (len - n)
      (loadBytes vm.byte srcva n ++ rest.1, rest.2)
termination_by len
decreasing_by have := chunk_pos (a := srcva) _nonempty; omega

/-- `copyout`: user memory after the copy, and whether the copy succeeded. -/
def copyout (vm : Vm) (dstva : Nat) (src : List UInt8) : Vm × Bool :=
  if _nonempty : src.length = 0 then (vm, true)
  else
    let va0 := PGROUNDDOWN dstva
    if !(vm.user va0 && vm.writable va0) then (vm, false)
    else
      let n := min (PGSIZE - (dstva - va0)) src.length
      copyout { vm with byte := storeBytes vm.byte dstva (src.take n) } (va0 + PGSIZE) (src.drop n)
termination_by src.length
decreasing_by have := chunk_pos (a := dstva) _nonempty; simp only [List.length_drop]; omega

/-- Kernel memory, and the memory of the process the call is made for. -/
structure Mem where
  vm : Vm
  kmem : Nat → UInt8

/-- `either_copyout`: copy to a user address or to a kernel address. -/
def eitherCopyout (m : Mem) (userDst : Bool) (dst : Nat) (src : List UInt8) : Mem × Bool :=
  if userDst then
    let (vm, ok) := copyout m.vm dst src
    ({ m with vm }, ok)
  else ({ m with kmem := storeBytes m.kmem dst src }, true)

/-- `either_copyin`: the bytes copied from a user address or from a kernel
address, and whether the copy succeeded. -/
def eitherCopyin (m : Mem) (userSrc : Bool) (src len : Nat) : List UInt8 × Bool :=
  if userSrc then copyin m.vm src len else (loadBytes m.kmem src len, true)

/-! ## What the copies do -/

/-- Every page that `[a, a + len)` touches is mapped for the user. -/
def Vm.Mapped (vm : Vm) (a len : Nat) : Prop := ∀ x, a ≤ x → x < a + len → vm.user (PGROUNDDOWN x) = true

/-- Every page that `[a, a + len)` touches is mapped for the user and writable. -/
def Vm.Writable (vm : Vm) (a len : Nat) : Prop :=
  ∀ x, a ≤ x → x < a + len → vm.user (PGROUNDDOWN x) = true ∧ vm.writable (PGROUNDDOWN x) = true

/-- `copyin` moves a prefix of the source bytes, all of them when it succeeds. -/
theorem copyin_prefix (vm : Vm) (srcva len : Nat) :
    (copyin vm srcva len).1 = loadBytes vm.byte srcva (copyin vm srcva len).1.length ∧
      (copyin vm srcva len).1.length ≤ len ∧
      ((copyin vm srcva len).2 = true → (copyin vm srcva len).1.length = len) := by
  fun_induction copyin vm srcva len with
  | case1 srcva => simp [loadBytes]
  | case2 srcva len nonempty va0 unmapped => simp [loadBytes]
  | case3 srcva len nonempty va0 mapped n rest ih =>
      have chunk : n ≤ len := Nat.min_le_right _ _
      -- the rest of the copy starts on the next page, where the first chunk ends
      -- unless the first chunk was the whole copy
      have next : va0 + PGSIZE = srcva + n ∨ n = len := by
        simp only [n, va0, PGROUNDDOWN, PGSIZE]
        omega
      dsimp only [rest]
      generalize copyin vm (va0 + PGSIZE) (len - n) = later at ih ⊢
      obtain ⟨moved, bound, full⟩ := ih
      simp only [List.length_append, length_loadBytes]
      refine ⟨?_, by omega, fun ok => by have := full ok; omega⟩
      rw [loadBytes_add]
      rcases next with next | whole
      · rw [← next, ← moved]
      · have empty : later.1 = [] := List.eq_nil_of_length_eq_zero (by omega)
        simp [empty, loadBytes]

/-- Whichever side it copies from, `either_copyin` moves at most the bytes asked for. -/
theorem eitherCopyin_length_le (m : Mem) (userSrc : Bool) (src len : Nat) :
    (eitherCopyin m userSrc src len).1.length ≤ len := by
  unfold eitherCopyin
  split
  · have moved := copyin_prefix m.vm src len
    exact moved.2.1
  · simp

/-- `copyin` from mapped pages copies every byte. -/
theorem copyin_of_mapped (vm : Vm) (srcva len : Nat) (mapped : vm.Mapped srcva len) :
    copyin vm srcva len = (loadBytes vm.byte srcva len, true) := by
  fun_induction copyin vm srcva len with
  | case1 srcva => simp [loadBytes]
  | case2 srcva len nonempty va0 unmapped =>
      have first := mapped srcva (le_refl _) (by omega)
      simp [va0, first] at unmapped
  | case3 srcva len nonempty va0 ok n rest ih =>
      have chunk : n ≤ len := Nat.min_le_right _ _
      dsimp only [rest]
      by_cases whole : n = len
      · rw [whole, Nat.sub_self, copyin]
        simp
      · have next : va0 + PGSIZE = srcva + n := by
          simp only [n, va0, PGROUNDDOWN, PGSIZE] at whole ⊢
          omega
        have laterMapped : vm.Mapped (va0 + PGSIZE) (len - n) := fun x lo hi =>
          mapped x (by omega) (by omega)
        rw [ih laterMapped, next, ← loadBytes_add, Nat.add_sub_cancel' chunk]

/-- A `copyin` that succeeds read only mapped pages. -/
theorem copyin_mapped_of_ok (vm : Vm) (srcva len : Nat) (ok : (copyin vm srcva len).2 = true) :
    vm.Mapped srcva len := by
  fun_induction copyin vm srcva len with
  | case1 srcva => intro x lo hi; omega
  | case2 srcva len nonempty va0 unmapped => simp at ok
  | case3 srcva len nonempty va0 mapped n rest ih =>
      have first : vm.user va0 = true := by simpa using mapped
      intro x lo hi
      -- a byte of the first chunk is on `va0`'s page, any other is in the rest
      by_cases chunk : x < srcva + n
      · have same : PGROUNDDOWN x = va0 := by
          simp only [n, va0, PGROUNDDOWN, PGSIZE] at chunk ⊢
          omega
        rw [same]
        exact first
      · have next : va0 + PGSIZE = srcva + n := by
          simp only [n, va0, PGROUNDDOWN, PGSIZE] at chunk hi ⊢
          omega
        exact ih ok x (by omega) (by simp only [n, va0, PGROUNDDOWN, PGSIZE] at chunk hi next ⊢; omega)

/-- `copyout` to mapped, writable pages stores every byte. -/
theorem copyout_of_mapped (vm : Vm) (dstva : Nat) (src : List UInt8)
    (writable : vm.Writable dstva src.length) :
    copyout vm dstva src = ({ vm with byte := storeBytes vm.byte dstva src }, true) := by
  fun_induction copyout vm dstva src with
  | case1 vm dstva src nonempty =>
      have empty : src = [] := List.eq_nil_of_length_eq_zero nonempty
      subst empty
      rw [storeBytes_nil]
  | case2 vm dstva src nonempty va0 unmapped =>
      have first := writable dstva (le_refl _) (by omega)
      simp [va0, first] at unmapped
  | case3 vm dstva src nonempty va0 ok n ih =>
      have chunk : n ≤ src.length := Nat.min_le_right _ _
      have taken : (src.take n).length = n := List.length_take_of_le chunk
      have stores := storeBytes_append vm.byte dstva (src.take n) (src.drop n)
      rw [taken, List.take_append_drop] at stores
      by_cases whole : n = src.length
      · have all : src.take n = src := List.take_of_length_le (by omega)
        have rest : src.drop n = [] := List.drop_eq_nil_of_le (by omega)
        rw [rest, all, copyout]
        simp
      · have next : va0 + PGSIZE = dstva + n := by
          simp only [n, va0, PGROUNDDOWN, PGSIZE] at whole ⊢
          omega
        have laterWritable : Vm.Writable { vm with byte := storeBytes vm.byte dstva (src.take n) }
            (va0 + PGSIZE) (src.drop n).length := fun x lo hi =>
          writable x (by omega) (by simp only [List.length_drop] at hi; omega)
        rw [ih laterWritable, next, stores]

/-- A one-byte `copyin`: the byte, when its page is mapped for the user. -/
theorem copyin_one (vm : Vm) (a : Nat) :
    copyin vm a 1 = if vm.user (PGROUNDDOWN a) then ([vm.byte a], true) else ([], false) := by
  by_cases mapped : vm.user (PGROUNDDOWN a) = true
  · have only : vm.Mapped a 1 := fun x lo hi => by rw [show x = a by omega]; exact mapped
    rw [if_pos mapped, copyin_of_mapped vm a 1 only]
    simp [loadBytes]
  · rw [if_neg mapped, copyin.eq_1]
    simp [mapped]

/-- A one-byte `copyout`: the byte stored, when its page is mapped and writable. -/
theorem copyout_one (vm : Vm) (a : Nat) (b : UInt8) :
    copyout vm a [b] = if vm.user (PGROUNDDOWN a) && vm.writable (PGROUNDDOWN a)
      then ({ vm with byte := storeBytes vm.byte a [b] }, true) else (vm, false) := by
  by_cases ok : (vm.user (PGROUNDDOWN a) && vm.writable (PGROUNDDOWN a)) = true
  · have only : vm.Writable a [b].length := fun x lo hi => by
      rw [show x = a by simp at hi; omega]
      simpa using ok
    rw [if_pos ok, copyout_of_mapped vm a [b] only]
  · rw [if_neg ok, copyout.eq_1]
    simp only [Bool.not_eq_true] at ok
    simp [ok]

/-- A `copyout` that succeeds has stored every byte. -/
theorem copyout_of_ok (vm : Vm) (dstva : Nat) (src : List UInt8) (ok : (copyout vm dstva src).2 = true) :
    (copyout vm dstva src).1 = { vm with byte := storeBytes vm.byte dstva src } := by
  fun_induction copyout vm dstva src with
  | case1 vm dstva src nonempty =>
      have empty : src = [] := List.eq_nil_of_length_eq_zero nonempty
      subst empty
      rw [storeBytes_nil]
  | case2 vm dstva src nonempty va0 unmapped => simp at ok
  | case3 vm dstva src nonempty va0 mapped n ih =>
      have chunk : n ≤ src.length := Nat.min_le_right _ _
      have taken : (src.take n).length = n := List.length_take_of_le chunk
      have stores := storeBytes_append vm.byte dstva (src.take n) (src.drop n)
      rw [taken, List.take_append_drop] at stores
      -- the rest of the copy starts on the next page, where the first chunk ends,
      -- or there is no rest
      by_cases whole : n = src.length
      · have all : src.take n = src := List.take_of_length_le (by omega)
        have rest : src.drop n = [] := List.drop_eq_nil_of_le (by omega)
        rw [rest, all, copyout]
        simp
      · have next : va0 + PGSIZE = dstva + n := by
          simp only [n, va0, PGROUNDDOWN, PGSIZE] at whole ⊢
          omega
        rw [ih ok, next, stores]

/-! ## copyinstr -/

/-- The inner loop of `copyinstr` over the `n` bytes left on a page: copy
until a NUL, which is copied too.  The bytes written to `dst`, and whether a
NUL was found. -/
def copyinstrPage (byte : Nat → UInt8) (src : Nat) : Nat → List UInt8 × Bool
  | 0 => ([], false)
  | n + 1 =>
    if byte src = 0 then ([0], true)
    else
      let rest := copyinstrPage byte (src + 1) n
      (byte src :: rest.1, rest.2)

/-- `copyinstr`: copy the NUL-terminated string at `srcva`, at most `max`
bytes, a page at a time.  The bytes written to `dst`, and whether it returned 0. -/
def copyinstr (vm : Vm) (srcva max : Nat) : List UInt8 × Bool :=
  if _nonempty : max = 0 then ([], false)
  else
    let va0 := PGROUNDDOWN srcva
    if !vm.user va0 then ([], false)
    else
      let n := min (PGSIZE - (srcva - va0)) max
      let page := copyinstrPage vm.byte srcva n
      if page.2 then page
      else
        let rest := copyinstr vm (va0 + PGSIZE) (max - n)
        (page.1 ++ rest.1, rest.2)
termination_by max
decreasing_by have := chunk_pos (a := srcva) _nonempty; omega

/-- The string at `srcva` read a byte at a time, each byte's page checked:
what `copyinstr` computes, without its page loop. -/
def readStr (vm : Vm) (srcva : Nat) : Nat → List UInt8 × Bool
  | 0 => ([], false)
  | max + 1 =>
    if !vm.user (PGROUNDDOWN srcva) then ([], false)
    else if vm.byte srcva = 0 then ([0], true)
    else
      let rest := readStr vm (srcva + 1) max
      (vm.byte srcva :: rest.1, rest.2)

/-- `s` is the C string at `a`: its bytes, none of them NUL, then a NUL. -/
def CString (byte : Nat → UInt8) (a : Nat) (s : List UInt8) : Prop :=
  loadBytes byte a (s.length + 1) = s ++ [0] ∧ 0 ∉ s

/-- Within one mapped page, `readStr` is the page loop followed by the rest. -/
theorem readStr_add (vm : Vm) {srcva n : Nat} (m : Nat)
    (mapped : ∀ j < n, vm.user (PGROUNDDOWN (srcva + j)) = true) :
    readStr vm srcva (n + m) =
      if (copyinstrPage vm.byte srcva n).2 then copyinstrPage vm.byte srcva n
      else ((copyinstrPage vm.byte srcva n).1 ++ (readStr vm (srcva + n) m).1, (readStr vm (srcva + n) m).2) := by
  induction n generalizing srcva with
  | zero => simp [copyinstrPage]
  | succ n ih =>
    have here : vm.user (PGROUNDDOWN srcva) = true := by simpa using mapped 0 (by omega)
    have later : ∀ j < n, vm.user (PGROUNDDOWN (srcva + 1 + j)) = true := fun j lt => by
      rw [Nat.add_assoc, Nat.add_comm 1 j]
      exact mapped (j + 1) (by omega)
    rw [show n + 1 + m = (n + m) + 1 by omega, readStr, copyinstrPage]
    simp only [here, Bool.not_true, Bool.false_eq_true, if_false]
    by_cases nul : vm.byte srcva = 0
    · simp [nul]
    · simp only [nul, if_false, ih later, Nat.add_assoc, Nat.add_comm 1 n]
      split <;> simp

/-- `copyinstr`'s page loop computes the byte-at-a-time read. -/
theorem copyinstr_eq_readStr (vm : Vm) (srcva max : Nat) : copyinstr vm srcva max = readStr vm srcva max := by
  fun_induction copyinstr vm srcva max with
  | case1 srcva => rfl
  | case2 srcva max nonempty va0 unmapped =>
    obtain ⟨m, rfl⟩ : ∃ m, max = m + 1 := ⟨max - 1, by omega⟩
    have unmapped : vm.user (PGROUNDDOWN srcva) = false := by simpa using unmapped
    simp [readStr, unmapped]
  | case3 srcva max nonempty va0 mapped n page found =>
    -- the bytes of the first chunk are all on `va0`'s page
    have onPage : ∀ j < n, vm.user (PGROUNDDOWN (srcva + j)) = true := fun j lt => by
      have same : PGROUNDDOWN (srcva + j) = va0 := by
        simp only [n, va0, PGROUNDDOWN, PGSIZE] at lt ⊢
        omega
      simpa [same] using mapped
    have chunk : n ≤ max := Nat.min_le_right _ _
    rw [← Nat.add_sub_cancel' chunk, readStr_add vm (max - n) onPage, if_pos found]
  | case4 srcva max nonempty va0 mapped n page missing rest ih =>
    have onPage : ∀ j < n, vm.user (PGROUNDDOWN (srcva + j)) = true := fun j lt => by
      have same : PGROUNDDOWN (srcva + j) = va0 := by
        simp only [n, va0, PGROUNDDOWN, PGSIZE] at lt ⊢
        omega
      simpa [same] using mapped
    have chunk : n ≤ max := Nat.min_le_right _ _
    rw [← Nat.add_sub_cancel' chunk, readStr_add vm (max - n) onPage, if_neg missing]
    simp only [rest, page, ih]
    -- the rest starts on the next page, where the chunk ends, or there is no rest
    by_cases whole : n = max
    · simp [whole, readStr]
    · have next : va0 + PGSIZE = srcva + n := by
        simp only [n, va0, PGROUNDDOWN, PGSIZE] at whole ⊢
        omega
      rw [next]

theorem CString.cons {byte : Nat → UInt8} {a : Nat} {c : UInt8} {s : List UInt8} :
    CString byte a (c :: s) ↔ byte a = c ∧ c ≠ 0 ∧ CString byte (a + 1) s := by
  unfold CString
  rw [show (c :: s).length + 1 = (s.length + 1) + 1 by simp, Nat.add_comm (s.length + 1) 1, loadBytes_add]
  simp only [loadBytes, List.range_one, List.map_cons, List.map_nil, Nat.add_zero,
    List.cons_append, List.cons.injEq, List.mem_cons, not_or]
  constructor
  · rintro ⟨⟨first, rest⟩, nonzero, none⟩
    exact ⟨first, Ne.symm nonzero, rest, none⟩
  · rintro ⟨first, nonzero, rest, none⟩
    exact ⟨⟨first, rest⟩, Ne.symm nonzero, none⟩

theorem CString.nil {byte : Nat → UInt8} {a : Nat} : CString byte a [] ↔ byte a = 0 := by
  simp [CString, loadBytes]

/-- The bytes of memory fix the C string at an address. -/
theorem CString.unique {byte : Nat → UInt8} : ∀ {a : Nat} {s t : List UInt8},
    CString byte a s → CString byte a t → s = t := by
  intro a s
  induction s generalizing a with
  | nil =>
    intro t here there
    cases t with
    | nil => rfl
    | cons c t =>
      rw [CString.nil] at here
      obtain ⟨first, nonzero, -⟩ := CString.cons.mp there
      exact absurd (first.symm.trans here) nonzero
  | cons c s ih =>
    intro t here there
    obtain ⟨first, nonzero, rest⟩ := CString.cons.mp here
    cases t with
    | nil => exact absurd (first.symm.trans (CString.nil.mp there)) nonzero
    | cons d t =>
      obtain ⟨first', -, rest'⟩ := CString.cons.mp there
      rw [← first, ← first', ih rest rest']

/-- A C string and its NUL, stored at `a`, are the C string at `a`. -/
theorem CString.storeBytes_self (f : Nat → UInt8) (a : Nat) {s : List UInt8} (none : 0 ∉ s) :
    CString (storeBytes f a (s ++ [0])) a s := by
  refine ⟨?_, none⟩
  have whole := loadBytes_storeBytes_inside f a (s ++ [0]) (j := 0) (k := s.length + 1) (by simp)
  rw [Nat.add_zero, List.drop_zero] at whole
  rw [whole, List.take_of_length_le (by simp)]

/-- A C string stays where memory keeps its bytes and its NUL. -/
theorem CString.congr {f g : Nat → UInt8} {a : Nat} {s : List UInt8} (cstr : CString f a s)
    (same : ∀ x, a ≤ x → x < a + (s.length + 1) → g x = f x) : CString g a s :=
  ⟨(loadBytes_congr same).trans cstr.1, cstr.2⟩

/-- A store that misses a C string and its NUL leaves it in place. -/
theorem CString.storeBytes_of_disjoint {f : Nat → UInt8} {b : Nat} {s : List UInt8} (cstr : CString f b s)
    (a : Nat) (bs : List UInt8) (apart : b + (s.length + 1) ≤ a ∨ a + bs.length ≤ b) :
    CString (storeBytes f a bs) b s :=
  ⟨(loadBytes_storeBytes_of_disjoint f a bs apart).trans cstr.1, cstr.2⟩

theorem Vm.mapped_succ (vm : Vm) (a n : Nat) :
    vm.Mapped a (n + 1) ↔ vm.user (PGROUNDDOWN a) = true ∧ vm.Mapped (a + 1) n := by
  constructor
  · intro mapped
    exact ⟨mapped a (le_refl a) (by omega), fun x lo hi => mapped x (by omega) (by omega)⟩
  · rintro ⟨first, rest⟩ x lo hi
    rcases Nat.eq_or_lt_of_le lo with same | later
    · rw [← same]
      exact first
    · exact rest x (by omega) (by omega)

/-- `copyinstr` succeeds exactly on a C string shorter than `max` whose bytes,
its NUL's included, are all on mapped pages; it copies the string and its NUL. -/
theorem readStr_eq_ok (vm : Vm) (s : List UInt8) : ∀ {a max : Nat},
    readStr vm a max = (s ++ [0], true) ↔ CString vm.byte a s ∧ s.length < max ∧ vm.Mapped a (s.length + 1) := by
  induction s with
  | nil =>
    intro a max
    cases max with
    | zero => simp [readStr]
    | succ m =>
      by_cases mapped : vm.user (PGROUNDDOWN a) = true
      · by_cases nul : vm.byte a = 0
        · have only : vm.Mapped a 1 := fun x lo hi => by rw [show x = a by omega]; exact mapped
          simp [readStr, mapped, nul, CString, loadBytes, only]
        · simp [readStr, mapped, nul, CString, loadBytes]
      · have unmapped : ¬ vm.Mapped a 1 := fun all => mapped (all a (le_refl a) (by omega))
        simp [readStr, mapped, unmapped]
  | cons c s ih =>
    intro a max
    rw [CString.cons, Vm.mapped_succ]
    cases max with
    | zero => simp [readStr]
    | succ m =>
      by_cases mapped : vm.user (PGROUNDDOWN a) = true
      · by_cases nul : vm.byte a = 0
        · simp only [readStr, mapped, nul, Bool.not_true, Bool.false_eq_true, if_false, if_true]
          constructor
          · intro same
            simp at same
          · rintro ⟨⟨first, nonzero, -⟩, -⟩
            exact absurd first.symm nonzero
        · have step : readStr vm a (m + 1) = (vm.byte a :: (readStr vm (a + 1) m).1, (readStr vm (a + 1) m).2) := by
            simp [readStr, mapped, nul]
          have pair : ∀ r : List UInt8 × Bool,
              (vm.byte a :: r.1, r.2) = (c :: s ++ [0], true) ↔ vm.byte a = c ∧ r = (s ++ [0], true) := by
            intro r
            obtain ⟨bytes, found⟩ := r
            simp [and_assoc]
          rw [step, pair, ih]
          constructor
          · rintro ⟨rfl, cstr, short, rest⟩
            exact ⟨⟨rfl, nul, cstr⟩, by simp only [List.length_cons]; omega, mapped, rest⟩
          · rintro ⟨⟨rfl, -, cstr⟩, short, -, rest⟩
            exact ⟨rfl, cstr, by simp only [List.length_cons] at short; omega, rest⟩
      · simp [readStr, mapped]

/-- A `copyinstr` that returns 0 has copied a string and its NUL. -/
theorem readStr_found (vm : Vm) : ∀ {a max : Nat}, (readStr vm a max).2 = true →
    ∃ s, readStr vm a max = (s ++ [0], true) := by
  intro a max
  induction max generalizing a with
  | zero => simp [readStr]
  | succ m ih =>
    intro found
    by_cases mapped : vm.user (PGROUNDDOWN a) = true
    · by_cases nul : vm.byte a = 0
      · exact ⟨[], by simp [readStr, mapped, nul]⟩
      · have step : readStr vm a (m + 1) = (vm.byte a :: (readStr vm (a + 1) m).1, (readStr vm (a + 1) m).2) := by
          simp [readStr, mapped, nul]
        rw [step] at found ⊢
        obtain ⟨s, rest⟩ := ih found
        exact ⟨vm.byte a :: s, by rw [rest]; rfl⟩
    · simp [readStr, mapped] at found

/-- `copyinstr` returns 0 exactly when the C string at `srcva` is shorter
than `max` and its bytes, its NUL's too, are all on mapped pages; it has then
copied the string and its NUL. -/
theorem copyinstr_spec (vm : Vm) (srcva max : Nat) :
    ((copyinstr vm srcva max).2 = true ↔
        ∃ s, CString vm.byte srcva s ∧ s.length < max ∧ vm.Mapped srcva (s.length + 1)) ∧
      ∀ s, CString vm.byte srcva s → s.length < max → vm.Mapped srcva (s.length + 1) →
        copyinstr vm srcva max = (s ++ [0], true) := by
  rw [copyinstr_eq_readStr]
  refine ⟨⟨fun found => ?_, fun ⟨s, cstr, short, mapped⟩ => ?_⟩, fun s cstr short mapped => ?_⟩
  · obtain ⟨s, read⟩ := readStr_found vm found
    exact ⟨s, (readStr_eq_ok vm s).mp read⟩
  · rw [(readStr_eq_ok vm s).mpr ⟨cstr, short, mapped⟩]
  · exact (readStr_eq_ok vm s).mpr ⟨cstr, short, mapped⟩

end Xv6
