import Xv6.Kernel.Syscall
import Xv6.Theory.Faults

/-!
# Kernel.Exec -- `exec`: the new image's pages, its argument vector, and `sys_exec` around it

After `exec` has loaded the program and allocated the two stack pages at `sz`
(a guard page, then the stack), it builds on the stack page the argument
vector that `main(argc, argv)` reads: each string with its NUL goes below
`sp`, which is rounded down to 16 bytes after every push (`pushArgv`); then
the array of the strings' addresses, with a zero word after them, goes below
the strings, and `sp` is rounded down again (`pushStack`).  Every push below
`stackbase` is `bad`.  `exec` then saves the last element of `path` as the
process name (`safestrcpy`), commits to the new image (memory, `sz`, `epc` at
the entry point, `sp` both in the stack pointer and in `a1`) and gives the old
image's pages back (`proc_freepagetable(oldpagetable, oldsz)`).  At `bad` it
gives back the pages `proc_pagetable` and `uvmalloc` took for the new image.

`sys_exec` hands `exec` its array `argv[MAXARG]`, whose null pointer lies
inside the array: `exec` sees fewer than `MAXARG` strings (`ExecArgv`), so
its loop ends with `argc < MAXARG` and `ustack[argc] = 0` stays inside
`ustack`.  The vector `exec` builds is the `Argv` format `sys_exec` read from
the caller:

* `pushArgv_spec`: each pushed string sits between the new `sp` and the old
  one, as a C string, below the strings pushed before it; no byte outside
  those is written;
* `pushStack_argv`: a successful push leaves at `sp` an `Argv` of exactly the
  strings, with `sp` 16-byte aligned inside the stack page;
* `exec_argv`: `exec` returns `argc` with that vector at `a1`, or -1 with the
  process as it was;
* `exec_fits`: with the pages for the new image free, `exec` returns `argc`
  exactly when the strings and their addresses fit in the stack page;
* `sys_exec_argv`: through `sys_exec`, the new program's vector at `a1` holds
  the strings of the caller's vector at its `a1`, and `exec` returns their count.

The allocator's `Pool` is kept on every path, and `kfree` never panics, when
the process's pages are among those handed out (`exec_pool`): `sys_exec`
frees each page it took for a string, `exec` each page it took for an image it
gave up, and a committed `exec` exchanges the old image's pages for the new
one's (`sys_exec_pool`).

The part of `exec` before the stack (`namei`, the ELF header and program
headers, `loadseg`, the mappings `proc_pagetable` and `uvmalloc` make, and
`uvmclear` of the guard page) is not modelled: `Load` is what it leaves, a
memory whose stack page below `sz` is writable with the number of pages it
took from `kalloc`, or a `goto bad` after some number of pages.
-/

namespace Xv6

namespace Sys

open Bytes Paging

set_option autoImplicit false

/-! ## The program `exec` loaded -/

/-- What `exec` has built by line 88: the new page table's memory, with the
two stack pages `uvmalloc` mapped user-writable below `sz`, the ELF entry
point, and how many pages `proc_pagetable` and the `uvmalloc`s took from
`kalloc` for the page table and the memory. -/
structure Loaded where
  pagetable : Vm
  sz : UInt64
  entry : UInt64
  pages : Nat
  room : 2 * PGSIZE ≤ sz.toNat
  stack : pagetable.Writable (sz.toNat - PGSIZE) PGSIZE

/-- How the part of `exec` before line 88 ended: at `bad` once `pages` calls
of `kalloc` were made for the new page table (a path `namei` cannot find, an
ELF header or a program header that fails its checks or cannot be read, a
segment `loadseg` cannot read), or with the image built. -/
inductive Load
  | bad (pages : Nat)
  | loaded (image : Loaded)

/-- The vector `sys_exec` hands `exec`: the buffers of its array
`argv[MAXARG]` before the null pointer, which lies inside the array. -/
structure ExecArgv where
  buffers : List (List UInt8)
  count : buffers.length < MAXARG

/-! ## Pushing the arguments -/

/-- `sp -= n; sp -= sp % 16;`: make room for `n` bytes, then round down, as
the RISC-V stack pointer must be 16-byte aligned. -/
def alignPush (sp : UInt64) (n : Nat) : UInt64 :=
  let sp := sp - UInt64.ofNat n
  sp - sp % 16

/-- The bytes of the `uint64` array `ustack`. -/
def ustackBytes (ustack : List UInt64) : List UInt8 := ustack.flatMap fun w => toLE 8 w.toNat

/-- The loop of `exec` that pushes the argument strings, from `argc` on:
the memory, `sp` and the entries of `ustack` from `argc` on, or `none` for
`bad`. -/
def pushArgv (stackbase : UInt64) (vm : Vm) (argc : Nat) (sp : UInt64) :
    List (List UInt8) → Option (Vm × UInt64 × List UInt64)
  | [] => some (vm, sp, [])
  | a :: argv =>
    if argc ≥ MAXARG then none
    else
      let sp := alignPush sp (strlen a + 1)
      if sp < stackbase then none
      else
        let out := copyout vm sp.toNat (a.take (strlen a + 1))
        if !out.2 then none
        else
          match pushArgv stackbase out.1 (argc + 1) sp argv with
          | none => none
          | some (vm, sp', ustack) => some (vm, sp', sp :: ustack)

/-- Lines 87 to 110 of `exec`: the strings, then the array of their addresses
and a zero word, pushed onto the stack page below `sz`.  The memory, `sp` and
`argc`, or `none` for `bad`. -/
def pushStack (vm : Vm) (sz : UInt64) (argv : List (List UInt8)) : Option (Vm × UInt64 × Nat) :=
  let sp := sz
  let stackbase := sp - UInt64.ofNat (USERSTACK * PGSIZE)
  match pushArgv stackbase vm 0 sp argv with
  | none => none
  | some (vm, sp, ustack) =>
    let argc := ustack.length
    let sp := alignPush sp ((argc + 1) * 8)
    if sp < stackbase then none
    else
      let out := copyout vm sp.toNat (ustackBytes (ustack ++ [0]))
      if !out.2 then none else some (out.1, sp, argc)

/-- `for(last=s=path; *s; s++) if(*s == '/') last = s+1;` from `last` and
`s` on: the bytes of the path from `last` on. -/
def lastLoop (last : List UInt8) : List UInt8 → List UInt8
  | [] => last
  | c :: s => if c = 0 then last else if c = 47 then lastLoop s s else lastLoop last s

/-- The `kalloc` calls `proc_pagetable` and `uvmalloc` make for the new
image, `n` of them: whether each found a page, the pages taken, last first,
and the memory.  They stop at the first that finds none, where `exec` goes to
`bad`. -/
def kallocPages : Nat → List Nat → Phys → Bool × List Nat × Phys
  | 0, taken, m => (true, taken, m)
  | n + 1, taken, m =>
    match kalloc m with
    | none => (false, taken, m)
    | some (pa, m) => kallocPages n (pa :: taken) m

/-- `proc_freepagetable(pagetable, sz)`: every page of the page table and of
its memory goes back through `kfree`, which panics on a page it cannot take. -/
def procFreepagetable : List Nat → Phys → Except String Phys
  | [], m => .ok m
  | pa :: frames, m => (kfree m pa).bind (procFreepagetable frames)

/-- `bad:` with the new page table's pages `frames`: they go back, and `exec`
returns -1 with the process as it was. -/
def execBad (p : Proc) (frames : List Nat) (m : Phys) : Except String (Int × Proc × Phys) :=
  (procFreepagetable frames m).map fun m => (-1, p, m)

/-- `exec(path, argv)` once the part before line 88 ended as `load`: take the
new image's pages, push the arguments, save the name, commit to the new image
and free the old one.  `argc`, or -1 with the process unchanged; the
allocator's memory after it. -/
def exec (p : Proc) (m : Phys) (load : Load) (path : List UInt8) (argv : ExecArgv) :
    Except String (Int × Proc × Phys) :=
  match load with
  | .bad pages => execBad p (kallocPages pages [] m).2.1 (kallocPages pages [] m).2.2
  | .loaded image =>
    match kallocPages image.pages [] m with
    | (false, frames, m) => execBad p frames m
    | (true, frames, m) =>
      match pushStack image.pagetable image.sz argv.buffers with
      | none => execBad p frames m
      | some (vm, sp, argc) =>
        let name := safestrcpy (lastLoop path path) 16
        (procFreepagetable p.frames m).map fun m =>
          (argc, { p with
            pagetable := vm
            frames
            sz := image.sz
            trapframe := { p.trapframe with a1 := sp, epc := image.entry, sp := sp }
            name := name ++ p.name.drop name.length }, m)

/-! ## sys_exec -/

/-- `for(i = 0; i < NELEM(argv) && argv[i] != 0; i++) kfree(argv[i]);`. -/
def freeArgv : List Nat → Phys → Except String Phys
  | [], m => .ok m
  | pa :: argv, m => if pa = 0 then .ok m else (kfree m pa).bind (freeArgv argv)

/-- `sys_exec`, with the part of `exec` before line 88 ending as `load`: the
value it returns, the process and physical memory. -/
def sysExec (p : Proc) (m : Phys) (load : Load) : Except String (Int × Proc × Phys) := do
  let uargv ← argaddr p 1
  let path ← argstr p 0 MAXPATH
  if path.1 < 0 then return (-1, p, m)
  let fetched := fetchArgv p uargv 0 m
  let pages := fetched.2.2.map Prod.fst
  if ready : fetched.1 = true then
    let ran ← exec p fetched.2.1 load path.2 ⟨fetched.2.2.map Prod.snd, fetchArgv_buffers p uargv ready⟩
    let m ← freeArgv pages ran.2.2
    return (ran.1, ran.2.1, m)
  else
    let m ← freeArgv pages fetched.2.1
    return (-1, p, m)

/-! ## One push -/

@[simp] theorem length_ustackBytes (ustack : List UInt64) : (ustackBytes ustack).length = 8 * ustack.length := by
  induction ustack with
  | nil => rfl
  | cons w ustack ih =>
    simp only [ustackBytes, List.flatMap_cons, List.length_append, length_toLE, List.length_cons] at ih ⊢
    rw [ih]
    ring

/-- Below a `sp` with room for `n` bytes, a push does not wrap: it lands on
the multiple of 16 at or below `sp - n`. -/
theorem alignPush_toNat {sp : UInt64} {n : Nat} (fits : n ≤ sp.toNat) :
    (alignPush sp n).toNat = (sp.toNat - n) - (sp.toNat - n) % 16 := by
  have small : (UInt64.ofNat n).toNat = n := by
    rw [UInt64.toNat_ofNat', Nat.mod_eq_of_lt (lt_of_le_of_lt fits sp.toNat_lt)]
  have lower : (sp - UInt64.ofNat n).toNat = sp.toNat - n := by
    rw [UInt64.toNat_sub_of_le _ _ (by rw [UInt64.le_iff_toNat_le, small]; exact fits), small]
  have round : (sp - UInt64.ofNat n) % 16 ≤ sp - UInt64.ofNat n := by
    rw [UInt64.le_iff_toNat_le, UInt64.toNat_mod]
    exact Nat.mod_le _ _
  unfold alignPush
  rw [UInt64.toNat_sub_of_le _ _ round, UInt64.toNat_mod, lower]
  rfl

/-- `stackbase`, one page below `sz`, does not wrap. -/
theorem stackbase_toNat {sz : UInt64} (room : PGSIZE ≤ sz.toNat) :
    (sz - UInt64.ofNat (USERSTACK * PGSIZE)).toNat = sz.toNat - PGSIZE := by
  have page : (UInt64.ofNat (USERSTACK * PGSIZE)).toNat = PGSIZE := rfl
  rw [UInt64.toNat_sub_of_le _ _ (by rw [UInt64.le_iff_toNat_le, page]; exact room), page]

/-- `MAXARG` addresses and a zero word fit below any `sp` a page up. -/
theorem ustack_fits {n : Nat} {sp : UInt64} (count : n ≤ MAXARG) (high : PGSIZE ≤ sp.toNat) :
    (n + 1) * 8 ≤ sp.toNat := by
  unfold MAXARG at count
  unfold PGSIZE at high
  omega

/-- What one step of the push loop checked and did, when the loop went on. -/
theorem pushArgv_cons {stackbase sp : UInt64} {vm : Vm} {argc : Nat} {a : List UInt8} {argv : List (List UInt8)}
    {r : Vm × UInt64 × List UInt64} (run : pushArgv stackbase vm argc sp (a :: argv) = some r) :
    argc < MAXARG ∧ stackbase ≤ alignPush sp (strlen a + 1) ∧
      (copyout vm (alignPush sp (strlen a + 1)).toNat (a.take (strlen a + 1))).2 = true ∧
      ∃ vm' sp' ustack, pushArgv stackbase (copyout vm (alignPush sp (strlen a + 1)).toNat (a.take (strlen a + 1))).1
          (argc + 1) (alignPush sp (strlen a + 1)) argv = some (vm', sp', ustack) ∧
        r = (vm', sp', alignPush sp (strlen a + 1) :: ustack) := by
  unfold pushArgv at run
  dsimp only at run
  split_ifs at run with full below failed
  refine ⟨by omega, UInt64.not_lt.mp below, by simpa using failed, ?_⟩
  split at run
  · cases run
  · rename_i vm' sp' ustack rest
    exact ⟨vm', sp', ustack, rest, (Option.some.inj run).symm⟩

/-- What one step of `pushStack` after the loop checked and did. -/
theorem pushStack_eq_some {vm vm' : Vm} {sz sp : UInt64} {argv : List (List UInt8)} {argc : Nat}
    (run : pushStack vm sz argv = some (vm', sp, argc)) :
    ∃ vm₁ sp₁ ustack, pushArgv (sz - UInt64.ofNat (USERSTACK * PGSIZE)) vm 0 sz argv = some (vm₁, sp₁, ustack) ∧
      sp = alignPush sp₁ ((ustack.length + 1) * 8) ∧ argc = ustack.length ∧
      sz - UInt64.ofNat (USERSTACK * PGSIZE) ≤ sp ∧
      (copyout vm₁ sp.toNat (ustackBytes (ustack ++ [0]))).2 = true ∧
      vm' = (copyout vm₁ sp.toNat (ustackBytes (ustack ++ [0]))).1 := by
  unfold pushStack at run
  dsimp only at run
  split at run
  · cases run
  · rename_i vm₁ sp₁ ustack pushed
    split_ifs at run with below failed
    simp only [Option.some.injEq, Prod.mk.injEq] at run
    obtain ⟨rfl, rfl, rfl⟩ := run
    exact ⟨vm₁, sp₁, ustack, pushed, rfl, rfl, UInt64.not_lt.mp below, by simpa using failed, rfl⟩

/-! ## The strings -/

/-- Where the push loop leaves `sp` when it pushes `strs` from `sp` on,
counted in natural numbers. -/
def stackTop (sp : Nat) : List (List UInt8) → Nat
  | [] => sp
  | s :: strs => stackTop ((sp - (s.length + 1)) - (sp - (s.length + 1)) % 16) strs

theorem stackTop_le : ∀ (sp : Nat) (strs : List (List UInt8)), stackTop sp strs ≤ sp
  | _, [] => le_refl _
  | sp, s :: strs => (stackTop_le _ strs).trans (by omega)

/-- A successful run of the push loop from `sp`, above a `stackbase` at least
a page up, for strings without a NUL and shorter than a page: it pushed no
more than `MAXARG` strings in all, and each sits as a C string between the
final `sp'` and `sp`, below the strings pushed before it.  It wrote no byte
outside `[sp', sp)` and changed no mapping. -/
theorem pushArgv_spec {stackbase : UInt64} (low : PGSIZE ≤ stackbase.toNat) :
    ∀ (strs : List (List UInt8)) (vm : Vm) (argc : Nat) (sp : UInt64) {vm' : Vm} {sp' : UInt64} {ustack : List UInt64},
    (∀ s ∈ strs, 0 ∉ s ∧ s.length < PGSIZE) → argc ≤ MAXARG → stackbase.toNat ≤ sp.toNat →
    pushArgv stackbase vm argc sp (strs.map (· ++ [0])) = some (vm', sp', ustack) →
    argc + strs.length ≤ MAXARG ∧ stackbase.toNat ≤ sp'.toNat ∧ sp'.toNat = stackTop sp.toNat strs ∧
      List.Forall₂ (fun w s => CString vm'.byte w.toNat s ∧ sp'.toNat ≤ w.toNat ∧ w.toNat + (s.length + 1) ≤ sp.toNat)
        ustack strs ∧
      (∀ x, x < sp'.toNat ∨ sp.toNat ≤ x → vm'.byte x = vm.byte x) ∧ vm'.user = vm.user ∧ vm'.writable = vm.writable := by
  intro strs
  induction strs with
  | nil =>
    intro vm argc sp vm' sp' ustack _ start above run
    simp only [List.map_nil, pushArgv, Option.some.injEq, Prod.mk.injEq] at run
    obtain ⟨rfl, rfl, rfl⟩ := run
    exact ⟨start, above, rfl, .nil, fun _ _ => rfl, rfl, rfl⟩
  | cons s strs ih =>
    intro vm argc sp vm' sp' ustack strings _ above run
    obtain ⟨none, short⟩ := strings s List.mem_cons_self
    rw [List.map_cons] at run
    obtain ⟨room, below, copied, vm₁, sp₁, rest, pushed, same⟩ := pushArgv_cons run
    -- the bytes `exec` copies are the string and its NUL
    have len : strlen (s ++ [0]) = s.length := strlen_append none []
    have bytes : (s ++ [0]).take (s.length + 1) = s ++ [0] := List.take_of_length_le (by simp)
    simp only [len, bytes] at copied pushed below same
    rw [copyout_of_ok _ _ _ copied] at pushed
    set top := alignPush sp (s.length + 1) with htop
    have fits : s.length + 1 ≤ sp.toNat := by unfold PGSIZE at *; omega
    have topNat := alignPush_toNat fits
    rw [← htop] at topNat
    rw [UInt64.le_iff_toNat_le] at below
    obtain ⟨count, low', layout, placed, frame, user, writable⟩ :=
      ih _ (argc + 1) top (fun t mem => strings t (List.mem_cons_of_mem s mem)) room below pushed
    simp only [Prod.mk.injEq] at same
    obtain ⟨rfl, rfl, rfl⟩ := same
    have under : top.toNat + (s.length + 1) ≤ sp.toNat := by omega
    have high' : sp'.toNat ≤ top.toNat := layout ▸ stackTop_le _ _
    refine ⟨by simp only [List.length_cons]; omega, low', by rw [layout, topNat]; rfl,
      .cons ⟨?_, high', under⟩ (placed.imp fun w t ⟨cstr, lo, hi⟩ => ⟨cstr, lo, by omega⟩), ?_, user, writable⟩
    · -- the string stays: the later pushes write only below it
      apply (CString.storeBytes_self vm.byte top.toNat none).congr
      intro x lo _
      exact frame x (.inr lo)
    · intro x outside
      rw [frame x (by omega)]
      exact storeBytes_of_outside _ _ _ (by simp only [List.length_append, List.length_singleton]; omega)

/-- The push loop goes through when there are no more than `MAXARG` strings
in all and they fit above `stackbase` on writable pages. -/
theorem pushArgv_of_fits {stackbase : UInt64} (low : PGSIZE ≤ stackbase.toNat) :
    ∀ (strs : List (List UInt8)) (vm : Vm) (argc : Nat) (sp : UInt64),
    (∀ s ∈ strs, 0 ∉ s ∧ s.length < PGSIZE) → argc + strs.length ≤ MAXARG →
    stackbase.toNat ≤ stackTop sp.toNat strs → vm.Writable stackbase.toNat (sp.toNat - stackbase.toNat) →
    ∃ r, pushArgv stackbase vm argc sp (strs.map (· ++ [0])) = some r := by
  intro strs
  induction strs with
  | nil => exact fun _ _ _ _ _ _ _ => ⟨_, rfl⟩
  | cons s strs ih =>
    intro vm argc sp strings count fits writable
    obtain ⟨none, short⟩ := strings s List.mem_cons_self
    have len : strlen (s ++ [0]) = s.length := strlen_append none []
    have bytes : (s ++ [0]).take (s.length + 1) = s ++ [0] := List.take_of_length_le (by simp)
    have above : stackbase.toNat ≤ sp.toNat := fits.trans (stackTop_le _ _)
    have topNat : (alignPush sp (s.length + 1)).toNat = (sp.toNat - (s.length + 1)) - (sp.toNat - (s.length + 1)) % 16 :=
      alignPush_toNat (by unfold PGSIZE at *; omega)
    set top := alignPush sp (s.length + 1) with htop
    have later : stackbase.toNat ≤ stackTop top.toNat strs := by
      rw [topNat]
      exact fits
    have below : stackbase.toNat ≤ top.toNat := later.trans (stackTop_le _ _)
    -- the string and its NUL go onto writable pages
    have stored := copyout_of_mapped vm top.toNat (s ++ [0]) fun x lo hi =>
      writable x (by omega) (by simp only [List.length_append, List.length_singleton] at hi; omega)
    obtain ⟨r, pushed⟩ := ih { vm with byte := storeBytes vm.byte top.toNat (s ++ [0]) } (argc + 1) top
      (fun t mem => strings t (List.mem_cons_of_mem s mem)) (by simp only [List.length_cons] at count; omega)
      later (fun x lo hi => writable x lo (by omega))
    refine ⟨(r.1, r.2.1, top :: r.2.2), ?_⟩
    have room : ¬ argc ≥ MAXARG := by simp only [List.length_cons] at count; omega
    have inside : ¬ top < stackbase := by rw [UInt64.lt_iff_toNat_lt]; omega
    simp only [List.map_cons, pushArgv, len, bytes, if_neg room]
    rw [← htop, if_neg inside, stored]
    simp only [Bool.not_true, Bool.false_eq_true, if_false, pushed]

/-- On a writable stack page, `exec`'s pushes go through exactly when there
are no more than `MAXARG` strings and they, and below them the array of
their addresses, fit in the page: `bad` is only for a vector that does not. -/
theorem pushStack_fits {vm : Vm} {sz : UInt64} (room : 2 * PGSIZE ≤ sz.toNat)
    (stack : vm.Writable (sz.toNat - PGSIZE) PGSIZE) {strs : List (List UInt8)}
    (strings : ∀ s ∈ strs, 0 ∉ s ∧ s.length < PGSIZE) :
    (∃ r, pushStack vm sz (strs.map (· ++ [0])) = some r) ↔
      strs.length ≤ MAXARG ∧
        sz.toNat - PGSIZE ≤ (stackTop sz.toNat strs - 8 * (strs.length + 1)) -
          (stackTop sz.toNat strs - 8 * (strs.length + 1)) % 16 := by
  have base : (sz - UInt64.ofNat (USERSTACK * PGSIZE)).toNat = sz.toNat - PGSIZE := stackbase_toNat (by omega)
  constructor
  · rintro ⟨⟨vm', sp, argc⟩, run⟩
    obtain ⟨vm₁, sp₁, ustack, pushed, rfl, rfl, below, -, -⟩ := pushStack_eq_some run
    obtain ⟨count, low, layout, placed, -⟩ :=
      @pushArgv_spec (sz - UInt64.ofNat (USERSTACK * PGSIZE)) (by omega) strs vm 0 sz _ _ _ strings
        (Nat.zero_le _) (by omega) pushed
    have entries : ustack.length = strs.length := placed.length_eq
    have words : (ustack.length + 1) * 8 ≤ sp₁.toNat := ustack_fits (by omega) (by omega)
    rw [UInt64.le_iff_toNat_le, base, alignPush_toNat words, layout, entries] at below
    refine ⟨by omega, ?_⟩
    rw [Nat.mul_comm 8]
    exact below
  · rintro ⟨count, fits⟩
    have top : sz.toNat - PGSIZE ≤ stackTop sz.toNat strs := by omega
    obtain ⟨⟨vm₁, sp₁, ustack⟩, pushed⟩ := @pushArgv_of_fits (sz - UInt64.ofNat (USERSTACK * PGSIZE)) (by omega)
      strs vm 0 sz strings (by omega) (by rw [base]; exact top) (by rw [base]; exact fun x lo hi => stack x lo (by omega))
    obtain ⟨-, -, layout, placed, -, user, writable⟩ :=
      @pushArgv_spec (sz - UInt64.ofNat (USERSTACK * PGSIZE)) (by omega) strs vm 0 sz _ _ _ strings
        (Nat.zero_le _) (by omega) pushed
    have entries : ustack.length = strs.length := placed.length_eq
    have words : (ustack.length + 1) * 8 ≤ sp₁.toNat := ustack_fits (by omega) (by omega)
    set sp := alignPush sp₁ ((ustack.length + 1) * 8) with hsp
    have spNat : sp.toNat = (stackTop sz.toNat strs - 8 * (strs.length + 1)) -
        (stackTop sz.toNat strs - 8 * (strs.length + 1)) % 16 := by
      rw [hsp, alignPush_toNat words, layout, entries, Nat.mul_comm]
    have inside : ¬ sp < sz - UInt64.ofNat (USERSTACK * PGSIZE) := by
      rw [UInt64.lt_iff_toNat_lt, base, spNat]
      omega
    -- the array of addresses goes onto the same writable page
    have stored := copyout_of_mapped vm₁ sp.toNat (ustackBytes (ustack ++ [0])) fun x lo hi => by
      simp only [length_ustackBytes, List.length_append, List.length_singleton] at hi
      rw [user, writable]
      exact stack x (by omega) (by have := stackTop_le sz.toNat strs; omega)
    refine ⟨({ vm₁ with byte := storeBytes vm₁.byte sp.toNat (ustackBytes (ustack ++ [0])) }, sp, ustack.length), ?_⟩
    simp only [pushStack, pushed]
    rw [← hsp, if_neg inside, stored]
    rfl

/-! ## The vector -/

/-- Memory holding the bytes of `ustack` and a zero word at `a`, each entry
the address of one of `strs`, holds the vector of `strs` there. -/
theorem argv_of_ustack {f : Nat → UInt8} {strs : List (List UInt8)} {ustack : List UInt64}
    (entries : List.Forall₂ (fun w s => 0 < w.toNat ∧ CString f w.toNat s) ustack strs) :
    ∀ {a : Nat}, loadBytes f a (8 * (ustack.length + 1)) = ustackBytes (ustack ++ [0]) → Argv f a strs := by
  induction entries with
  | nil =>
    intro a stored
    have zero : word f a = ofLE (toLE 8 0) := by
      rw [word, show loadBytes f a 8 = ustackBytes [0] from stored]
      simp [ustackBytes]
    show word f a = 0
    rw [zero, ofLE_toLE, Nat.zero_mod]
  | @cons w s ws strs entry _ ih =>
    obtain ⟨nonzero, cstr⟩ := entry
    intro a stored
    -- the first eight bytes are the first entry, the rest is the rest of the array
    rw [show 8 * ((w :: ws).length + 1) = 8 + 8 * (ws.length + 1) by simp only [List.length_cons]; ring,
      loadBytes_add, List.cons_append, ustackBytes, List.flatMap_cons] at stored
    obtain ⟨first, rest⟩ := List.append_inj stored (by simp)
    have here : word f a = w.toNat := by
      rw [word, first, ofLE_toLE, Nat.mod_eq_of_lt (lt_of_lt_of_eq w.toNat_lt (by norm_num))]
    refine ⟨by omega, here ▸ cstr, ih rest⟩

/-- A successful push of strings without a NUL and shorter than a page onto
the stack page below `sz` leaves at `sp` the vector of exactly those strings,
with `argc` their count and `sp` 16-byte aligned inside the page.  No byte
outside `[sp, sz)` and no mapping changed. -/
theorem pushStack_argv {vm vm' : Vm} {sz sp : UInt64} {argc : Nat} (room : 2 * PGSIZE ≤ sz.toNat)
    {strs : List (List UInt8)} (strings : ∀ s ∈ strs, 0 ∉ s ∧ s.length < PGSIZE)
    (run : pushStack vm sz (strs.map (· ++ [0])) = some (vm', sp, argc)) :
    Argv vm'.byte sp.toNat strs ∧ argc = strs.length ∧ sp.toNat % 16 = 0 ∧
      sz.toNat - PGSIZE ≤ sp.toNat ∧ sp.toNat < sz.toNat ∧
      (∀ x, x < sp.toNat ∨ sz.toNat ≤ x → vm'.byte x = vm.byte x) ∧ vm'.user = vm.user ∧ vm'.writable = vm.writable := by
  obtain ⟨vm₁, sp₁, ustack, pushed, rfl, rfl, below, copied, rfl⟩ := pushStack_eq_some run
  have base : (sz - UInt64.ofNat (USERSTACK * PGSIZE)).toNat = sz.toNat - PGSIZE := stackbase_toNat (by omega)
  obtain ⟨count, low, layout, placed, frame, user, writable⟩ :=
    pushArgv_spec (by omega) strs vm 0 sz strings (Nat.zero_le _) (by omega) pushed
  have high : sp₁.toNat ≤ sz.toNat := layout ▸ stackTop_le _ _
  have entries : ustack.length = strs.length := placed.length_eq
  -- the array of `argc + 1` words fits below the strings, above `stackbase`
  have words : (ustack.length + 1) * 8 ≤ sp₁.toNat := ustack_fits (by omega) (by omega)
  have spNat := alignPush_toNat words
  rw [UInt64.le_iff_toNat_le, base] at below
  rw [copyout_of_ok _ _ _ copied]
  set sp := alignPush sp₁ ((ustack.length + 1) * 8)
  have array : sp.toNat + (ustackBytes (ustack ++ [0])).length ≤ sp₁.toNat := by
    simp only [length_ustackBytes, List.length_append, List.length_singleton]
    omega
  refine ⟨?_, entries, by omega, below, by omega, ?_, user, writable⟩
  · apply argv_of_ustack (placed.imp fun w s ⟨cstr, lo, _⟩ => ⟨by omega, ?_⟩)
    · have whole := loadBytes_storeBytes_inside vm₁.byte sp.toNat (ustackBytes (ustack ++ [0]))
        (j := 0) (k := 8 * (ustack.length + 1)) (by simp)
      rw [Nat.add_zero, List.drop_zero, List.take_of_length_le (by simp)] at whole
      exact whole
    · exact cstr.storeBytes_of_disjoint _ _ (.inr (by omega))
  · intro x outside
    show storeBytes vm₁.byte sp.toNat _ x = vm.byte x
    rw [storeBytes_of_outside _ _ _ (by omega)]
    exact frame x (by omega)

/-! ## The pages of the new image -/

/-- The pages `kalloc` hands out one after another go in front of those
handed out before. -/
theorem kallocPages_pool {m₀ : Phys} : ∀ (n : Nat) (taken : List Nat) (m : Phys) (held : List Nat),
    Pool m₀ m (taken ++ held) → Pool m₀ (kallocPages n taken m).2.2 ((kallocPages n taken m).2.1 ++ held) := by
  intro n
  induction n with
  | zero => exact fun _ _ _ inv => inv
  | succ n ih =>
    intro taken m held inv
    cases took : kalloc m with
    | none =>
      simp only [kallocPages, took]
      exact inv
    | some out =>
      obtain ⟨pa, m'⟩ := out
      simp only [kallocPages, took]
      exact ih (pa :: taken) m' held (inv.alloc took)

/-- Every call finds a page when the free list holds enough. -/
theorem kallocPages_ok : ∀ (n : Nat) (taken : List Nat) (m : Phys), n ≤ m.freelist.length →
    ∃ frames m', kallocPages n taken m = (true, frames, m') := by
  intro n
  induction n with
  | zero => exact fun taken m _ => ⟨taken, m, rfl⟩
  | succ n ih =>
    intro taken m enough
    obtain ⟨pa, rest, list⟩ : ∃ pa rest, m.freelist = pa :: rest := by
      cases list : m.freelist with
      | nil => simp [list] at enough
      | cons pa rest => exact ⟨pa, rest, rfl⟩
    have took := kalloc_of_cons list
    simp only [kallocPages, took]
    refine ih _ _ ?_
    show n ≤ rest.length
    simp only [list, List.length_cons] at enough
    omega

/-- `proc_freepagetable` of pages handed out gives each back to the pool,
without a panic. -/
theorem procFreepagetable_pool {m₀ : Phys} : ∀ (frames : List Nat) {m : Phys} {held : List Nat},
    Pool m₀ m (frames ++ held) → ∃ m', procFreepagetable frames m = .ok m' ∧ Pool m₀ m' held := by
  intro frames
  induction frames with
  | nil => exact fun inv => ⟨_, rfl, inv⟩
  | cons pa frames ih =>
    intro m held inv
    have pooled : pa ∈ pool m₀ := inv.perm.subset (List.mem_append_right _ List.mem_cons_self)
    obtain ⟨aligned, -, below⟩ := mem_pool pooled
    have above : m.kernEnd ≤ pa := inv.kernEnd ▸ inv.above pa pooled
    have freed := kfree_eq_ok aligned above below
    have after := inv.free List.mem_cons_self freed
    rw [List.cons_append, List.erase_cons_head] at after
    obtain ⟨m', run, kept⟩ := ih after
    refine ⟨m', ?_, kept⟩
    rw [procFreepagetable, freed]
    exact run

/-- `bad:` gives the new image's pages back and returns -1. -/
theorem execBad_pool {m₀ : Phys} {p : Proc} {frames : List Nat} {m : Phys} {held : List Nat}
    (inv : Pool m₀ m (frames ++ (p.frames ++ held))) :
    ∃ m', execBad p frames m = .ok (-1, p, m') ∧ Pool m₀ m' (p.frames ++ held) := by
  obtain ⟨m', freed, kept⟩ := procFreepagetable_pool frames inv
  refine ⟨m', ?_, kept⟩
  rw [execBad, freed]
  rfl

theorem execBad_returns {p p' : Proc} {frames : List Nat} {m m' : Phys} {r : Int}
    (ran : execBad p frames m = .ok (r, p', m')) : r = -1 ∧ p' = p := by
  obtain ⟨m'', -, returned⟩ := Faults.map_eq_ok ran
  simp only [Prod.mk.injEq] at returned
  exact ⟨returned.1.symm, returned.2.1.symm⟩

/-! ## exec -/

/-- `exec` never panics when the process's pages are among those handed out,
and keeps the allocator's invariant: on a `bad` path every page it took for
the new image goes back, and on a commit the old image's pages go back and
the new image's are the process's. -/
theorem exec_pool {m₀ : Phys} (p : Proc) (load : Load) (path : List UInt8) (argv : ExecArgv) {m : Phys}
    {held : List Nat} (inv : Pool m₀ m (p.frames ++ held)) :
    ∃ r p' m', exec p m load path argv = .ok (r, p', m') ∧ Pool m₀ m' (p'.frames ++ held) ∧ (r = -1 → p' = p) := by
  cases load with
  | bad pages =>
    obtain ⟨m', ran, kept⟩ := execBad_pool (kallocPages_pool pages [] m (p.frames ++ held) inv)
    exact ⟨-1, p, m', ran, kept, fun _ => rfl⟩
  | loaded image =>
    have taken := kallocPages_pool image.pages [] m (p.frames ++ held) inv
    simp only [exec]
    split
    · rename_i frames m₁ allocated
      simp only [allocated] at taken
      obtain ⟨m', ran, kept⟩ := execBad_pool taken
      exact ⟨-1, p, m', ran, kept, fun _ => rfl⟩
    · rename_i frames m₁ allocated
      simp only [allocated] at taken
      split
      · obtain ⟨m', ran, kept⟩ := execBad_pool taken
        exact ⟨-1, p, m', ran, kept, fun _ => rfl⟩
      · rename_i vm sp argc _
        -- the old image's pages go back; the new one's stay handed out, now as the process's
        obtain ⟨m', freed, kept⟩ := procFreepagetable_pool p.frames (taken.of_perm (List.perm_append_comm_assoc _ _ _))
        refine ⟨argc, _, m', by rw [freed]; rfl, kept, fun returned => ?_⟩
        omega

/-- What `exec` did: it failed with -1 and left the process as it was, or the
program was loaded, its pushes went through and it committed to them. -/
theorem exec_cases {p : Proc} {m : Phys} {load : Load} {path : List UInt8} {argv : ExecArgv}
    {r : Int} {p' : Proc} {m' : Phys} (ran : exec p m load path argv = .ok (r, p', m')) :
    (r = -1 ∧ p' = p) ∨
      ∃ image vm sp argc, load = .loaded image ∧ pushStack image.pagetable image.sz argv.buffers = some (vm, sp, argc) ∧
        r = argc ∧ p'.pagetable = vm ∧ p'.sz = image.sz ∧ p'.trapframe.a1 = sp ∧ p'.trapframe.sp = sp ∧
        p'.trapframe.epc = image.entry := by
  unfold exec at ran
  split at ran
  · exact .inl (execBad_returns ran)
  · rename_i image
    split at ran
    · exact .inl (execBad_returns ran)
    · split at ran
      · exact .inl (execBad_returns ran)
      · rename_i vm sp argc pushed
        obtain ⟨m₂, -, committed⟩ := Faults.map_eq_ok ran
        simp only [Prod.mk.injEq] at committed
        obtain ⟨rfl, rfl, -⟩ := committed
        exact .inr ⟨image, vm, sp, argc, rfl, pushed, rfl, rfl, rfl, rfl, rfl, rfl⟩

/-- With the pages for the new image found and the pushes through, `exec`
returns `argc`. -/
theorem exec_committed {p p' : Proc} {m m₁ m' : Phys} {image : Loaded} {path : List UInt8} {argv : ExecArgv}
    {frames : List Nat} {vm : Vm} {sp : UInt64} {argc : Nat} {r : Int}
    (allocated : kallocPages image.pages [] m = (true, frames, m₁))
    (pushed : pushStack image.pagetable image.sz argv.buffers = some (vm, sp, argc))
    (ran : exec p m (.loaded image) path argv = .ok (r, p', m')) : r = argc := by
  simp only [exec, allocated, pushed] at ran
  obtain ⟨m₂, -, committed⟩ := Faults.map_eq_ok ran
  exact (Prod.mk.inj committed).1.symm

/-- `exec` commits when `kalloc` has the pages for the new image and the
pushes go through. -/
theorem exec_commits {m₀ : Phys} {p : Proc} {m : Phys} {image : Loaded} (path : List UInt8) (argv : ExecArgv)
    {held : List Nat} (inv : Pool m₀ m (p.frames ++ held)) (enough : image.pages ≤ m.freelist.length)
    {vm : Vm} {sp : UInt64} {argc : Nat} (pushed : pushStack image.pagetable image.sz argv.buffers = some (vm, sp, argc)) :
    ∃ p' m', exec p m (.loaded image) path argv = .ok (argc, p', m') ∧ Pool m₀ m' (p'.frames ++ held) := by
  obtain ⟨r, p', m', ran, kept, -⟩ := exec_pool p (.loaded image) path argv inv
  obtain ⟨frames, m₁, allocated⟩ := kallocPages_ok image.pages [] m enough
  obtain rfl := exec_committed allocated pushed ran
  exact ⟨p', m', ran, kept⟩

/-- A loaded program of three pages, all mapped user-writable, whose page
table and memory took three pages from `kalloc`. -/
def hiImage : Loaded where
  pagetable := ⟨fun _ => true, fun _ => true, fun _ => 0⟩
  sz := 12288
  entry := 0
  pages := 3
  room := by decide
  stack := fun _ _ _ => ⟨rfl, rfl⟩

/-- The vector `sys_exec` hands `exec` for the one string `hi`. -/
def hiArgv : ExecArgv := ⟨[[104, 105]].map (· ++ [0]), by decide⟩

/-- An allocator whose kernel ends four pages below `PHYSTOP`, before `kinit`. -/
def hiBoot : Phys := ⟨fun _ _ => 0, [], PHYSTOP - 4 * PGSIZE⟩

/-- The same after `kinit`: its four pages free. -/
def hiExecPhys : Phys := { hiBoot with freelist := pool hiBoot }

theorem hiPool : Pool hiBoot hiExecPhys (hiProc.frames ++ []) := ⟨by decide, rfl, by decide⟩

/-- `exec` on strings without a NUL and shorter than a page fails with -1
and leaves the process as it was, or returns their count with their vector
at `a1`, which is the new stack pointer too, 16-byte aligned in the stack
page below the loaded size.  The process then has that size and starts at
the entry point, and its memory is the loaded one except on the stack page
between `sp` and `sz`. -/
theorem exec_argv (p : Proc) (m : Phys) (load : Load) (path : List UInt8) {argv : ExecArgv}
    {strs : List (List UInt8)} (buffers : argv.buffers = strs.map (· ++ [0]))
    (strings : ∀ s ∈ strs, 0 ∉ s ∧ s.length < PGSIZE) {r : Int} {p' : Proc} {m' : Phys}
    (ran : exec p m load path argv = .ok (r, p', m')) :
    (r = -1 ∧ p' = p) ∨
      (r = strs.length ∧ Argv p'.pagetable.byte p'.trapframe.a1.toNat strs ∧ p'.trapframe.sp = p'.trapframe.a1 ∧
        p'.trapframe.a1.toNat % 16 = 0 ∧
        ∃ image, load = .loaded image ∧ p'.sz = image.sz ∧ p'.trapframe.epc = image.entry ∧
          image.sz.toNat - PGSIZE ≤ p'.trapframe.a1.toNat ∧ p'.trapframe.a1.toNat < image.sz.toNat ∧
          (∀ x, x < p'.trapframe.a1.toNat ∨ image.sz.toNat ≤ x → p'.pagetable.byte x = image.pagetable.byte x) ∧
          p'.pagetable.user = image.pagetable.user ∧ p'.pagetable.writable = image.pagetable.writable) := by
  rcases exec_cases ran with failed | ⟨image, vm, sp, argc, rfl, pushed, rfl, hvm, hsz, ha1, hsp, hepc⟩
  · exact .inl failed
  · subst hvm ha1
    rw [buffers] at pushed
    obtain ⟨argv, count, aligned, low, high, frame, user, writable⟩ := pushStack_argv image.room strings pushed
    exact .inr ⟨by rw [count], argv, hsp, aligned, image, rfl, hsz, hepc, low, high, frame, user, writable⟩

theorem exec_argv_hi : ∃ r p' m', exec hiProc hiExecPhys (.loaded hiImage) [] hiArgv = .ok (r, p', m') ∧
    ((r = -1 ∧ p' = hiProc) ∨ (r = 1 ∧ Argv p'.pagetable.byte p'.trapframe.a1.toNat [[104, 105]])) := by
  obtain ⟨r, p', m', ran, -⟩ := exec_pool hiProc (.loaded hiImage) [] hiArgv hiPool
  exact ⟨r, p', m', ran,
    (exec_argv hiProc hiExecPhys (.loaded hiImage) [] rfl (by decide) ran).imp id fun pushed => ⟨pushed.1, pushed.2.1⟩⟩

/-- On a loaded program, with the pages for the new image free, `exec`
returns (rather than -1) exactly when its strings, and below them the array
of their addresses, fit in the stack page. -/
theorem exec_fits {p : Proc} {m : Phys} {image : Loaded} {path : List UInt8} {argv : ExecArgv}
    {strs : List (List UInt8)} (buffers : argv.buffers = strs.map (· ++ [0]))
    (strings : ∀ s ∈ strs, 0 ∉ s ∧ s.length < PGSIZE) (enough : image.pages ≤ m.freelist.length)
    {r : Int} {p' : Proc} {m' : Phys} (ran : exec p m (.loaded image) path argv = .ok (r, p', m')) :
    0 ≤ r ↔ image.sz.toNat - PGSIZE ≤ (stackTop image.sz.toNat strs - 8 * (strs.length + 1)) -
      (stackTop image.sz.toNat strs - 8 * (strs.length + 1)) % 16 := by
  -- `sys_exec`'s array bounds the count, so only the stack page decides
  have count : strs.length < MAXARG := by
    have bound := argv.count
    rwa [buffers, List.length_map] at bound
  have fits := pushStack_fits image.room image.stack strings
  rw [and_iff_right (by omega : strs.length ≤ MAXARG), ← buffers] at fits
  rw [← fits]
  constructor
  · intro returned
    rcases exec_cases ran with ⟨failed, -⟩ | ⟨image', vm, sp, argc, same, pushed, -⟩
    · omega
    · cases same
      exact ⟨_, pushed⟩
  · rintro ⟨⟨vm, sp, argc⟩, pushed⟩
    obtain ⟨frames, m₁, allocated⟩ := kallocPages_ok image.pages [] m enough
    rw [exec_committed allocated pushed ran]
    omega

theorem exec_fits_hi : ∃ r p' m', exec hiProc hiExecPhys (.loaded hiImage) [] hiArgv = .ok (r, p', m') ∧ 0 ≤ r := by
  obtain ⟨r, p', m', ran, -⟩ := exec_pool hiProc (.loaded hiImage) [] hiArgv hiPool
  exact ⟨r, p', m', ran, (exec_fits rfl (by decide) (by decide) ran).mpr (by decide)⟩

/-! ## The pages of sys_exec -/

/-- The loop that frees `sys_exec`'s pages is `proc_freepagetable`'s on
pages none of which is 0. -/
theorem freeArgv_eq : ∀ (pages : List Nat) (m : Phys), (∀ pa ∈ pages, pa ≠ 0) →
    freeArgv pages m = procFreepagetable pages m
  | [], _, _ => rfl
  | pa :: pages, m, nonnull => by
    rw [freeArgv, procFreepagetable, if_neg (nonnull pa List.mem_cons_self)]
    congr 1
    funext m'
    exact freeArgv_eq pages m' fun q mem => nonnull q (List.mem_cons_of_mem pa mem)

/-- Freeing pages handed out returns each to the pool, without a panic:
none of them is page 0, so the loop stops at none of them. -/
theorem freeArgv_pool {m₀ : Phys} (nonzero : 0 < m₀.kernEnd) (pages : List Nat) {m : Phys} {rest : List Nat}
    (inv : Pool m₀ m (pages ++ rest)) : ∃ m', freeArgv pages m = .ok m' ∧ Pool m₀ m' rest := by
  have nonnull : ∀ pa ∈ pages, pa ≠ 0 := fun pa mem => by
    have above := inv.above pa (inv.perm.subset (List.mem_append_right _ (List.mem_append_left rest mem)))
    omega
  rw [freeArgv_eq pages m nonnull]
  exact procFreepagetable_pool pages inv

/-! ## sys_exec -/

/-- `sys_exec` with its two register reads done: -1 if the path cannot be
fetched; otherwise the argument loop, then `exec` if the loop reached it,
then the pages the loop took are freed. -/
theorem sysExec_eq (p : Proc) (m : Phys) (load : Load) :
    sysExec p m load =
      if (fetchstr p p.trapframe.a0 MAXPATH).1 < 0 then .ok (-1, p, m)
      else if ready : (fetchArgv p p.trapframe.a1 0 m).1 = true then
        (exec p (fetchArgv p p.trapframe.a1 0 m).2.1 load (fetchstr p p.trapframe.a0 MAXPATH).2
          ⟨(fetchArgv p p.trapframe.a1 0 m).2.2.map Prod.snd, fetchArgv_buffers p p.trapframe.a1 ready⟩) >>=
          fun ran => (freeArgv ((fetchArgv p p.trapframe.a1 0 m).2.2.map Prod.fst) ran.2.2).map
            fun m' => (ran.1, ran.2.1, m')
      else
        (freeArgv ((fetchArgv p p.trapframe.a1 0 m).2.2.map Prod.fst) (fetchArgv p p.trapframe.a1 0 m).2.1).map
          fun m' => (-1, p, m') := by
  simp only [sysExec, argaddr, argraw, argstr, Except.map, bind, Except.bind, pure, Except.pure]

/-- Through `sys_exec`, a program that `exec` starts finds at `a1` the
argument vector that the caller passed at its `a1`: the same strings, in the
same order, and `exec`'s return value, the `argc` of `main`, is their count. -/
theorem sys_exec_argv {p : Proc} (small : p.sz.toNat + 8 ≤ 2 ^ 64) {m : Phys} {load : Load}
    {r : Int} {p' : Proc} {m' : Phys} (ran : sysExec p m load = .ok (r, p', m')) (started : 0 ≤ r) :
    ∃ args, Argv p.pagetable.byte p.trapframe.a1.toNat args ∧
      Argv p'.pagetable.byte p'.trapframe.a1.toNat args ∧ r = args.length := by
  rw [sysExec_eq] at ran
  by_cases bad : (fetchstr p p.trapframe.a0 MAXPATH).1 < 0
  · rw [if_pos bad] at ran
    cases ran
    omega
  · rw [if_neg bad] at ran
    by_cases ready : (fetchArgv p p.trapframe.a1 0 m).1 = true
    · rw [dif_pos ready] at ran
      obtain ⟨args, argv, fetchable, -, -, buffers⟩ :=
        fetchArgv_ready small p.trapframe.a1 0 m (by simpa using p.trapframe.a1.toNat_lt) ready
      rw [Nat.mul_zero, Nat.add_zero] at argv fetchable
      -- what `exec` returned is what `sys_exec` returns, once the loop's pages are freed
      obtain ⟨⟨r₀, p₀, m₀⟩, execd, freed⟩ := Faults.bind_eq_ok ran
      obtain ⟨m₁, -, returned⟩ := Faults.map_eq_ok freed
      simp only [Prod.mk.injEq] at returned
      obtain ⟨rfl, rfl, -⟩ := returned
      rcases exec_argv p _ load _ buffers (argv.strings fetchable) execd with ⟨failed, -⟩ | ⟨count, argv', -⟩
      · omega
      · exact ⟨args, argv, argv', count⟩
    · rw [dif_neg ready] at ran
      obtain ⟨m₁, -, returned⟩ := Faults.map_eq_ok ran
      simp only [Prod.mk.injEq] at returned
      omega

/-- `sys_exec` runs the program and returns the number of strings for every
caller whose path is a C string shorter than `MAXPATH` on mapped pages and
whose argument vector it can fetch, of fewer than `MAXARG` strings, when
`kalloc` has a page for each string and the pages for the new image, and the
strings and their addresses fit in the stack page. -/
theorem sysExec_of_argv {p : Proc} (small : p.sz.toNat + 8 ≤ 2 ^ 64) {path : List UInt8}
    (named : CString p.pagetable.byte p.trapframe.a0.toNat path) (short : path.length < MAXPATH)
    (pathMapped : p.pagetable.Mapped p.trapframe.a0.toNat (path.length + 1))
    {args : List (List UInt8)} (argv : Argv p.pagetable.byte p.trapframe.a1.toNat args)
    (fetchable : Fetchable p p.trapframe.a1.toNat args) (count : args.length < MAXARG)
    {m₀ m : Phys} {held : List Nat} (nonzero : 0 < m₀.kernEnd) (inv : Pool m₀ m (p.frames ++ held)) (image : Loaded)
    (pages : args.length + image.pages ≤ m.freelist.length)
    (fits : image.sz.toNat - PGSIZE ≤ (stackTop image.sz.toNat args - 8 * (args.length + 1)) -
      (stackTop image.sz.toNat args - 8 * (args.length + 1)) % 16) :
    ∃ p' m', sysExec p m (.loaded image) = .ok (args.length, p', m') := by
  have fetched := fetchstr_of_cstring named short pathMapped
  have ready := fetchArgv_of_argv small p.trapframe.a1 args 0 m (by simpa using p.trapframe.a1.toNat_lt)
    (by simpa using argv) (by simpa using fetchable) (by omega) (by omega)
  -- the buffers the loop fills hold the caller's strings, which memory fixes
  obtain ⟨args', argv', -, -, -, buffers⟩ :=
    fetchArgv_ready small p.trapframe.a1 0 m (by simpa using p.trapframe.a1.toNat_lt) ready
  rw [Nat.mul_zero, Nat.add_zero] at argv'
  obtain rfl := Argv.unique argv argv'
  have strings := argv.strings fetchable
  -- the loop took one page for each string, and left the rest for the image
  have taken := fetchArgv_pool p p.trapframe.a1 0 m inv
  have left := (@Pool.exchange _ _ _ (p.frames ++ held) [] _ inv taken).length_eq
  have took : ((fetchArgv p p.trapframe.a1 0 m).2.2.map Prod.fst).length = args.length := by
    rw [List.length_map, ← List.length_map Prod.snd, buffers, List.length_map]
  simp only [List.length_append, List.length_reverse, took, List.length_nil] at left
  obtain ⟨⟨vm, sp, argc⟩, pushed⟩ := (pushStack_fits image.room image.stack strings).mpr ⟨by omega, fits⟩
  obtain ⟨-, rfl, -⟩ := pushStack_argv image.room strings pushed
  rw [← buffers] at pushed
  obtain ⟨p', m₁, ran, kept⟩ := exec_commits (fetchstr p p.trapframe.a0 MAXPATH).2
    ⟨_, fetchArgv_buffers p p.trapframe.a1 ready⟩ (taken.of_perm (List.perm_append_comm_assoc _ _ _)) (by omega) pushed
  have back := kept.of_perm ((List.perm_append_comm_assoc _ _ _).trans ((List.reverse_perm _).append_right _))
  obtain ⟨m', freed, -⟩ := freeArgv_pool nonzero _ back
  refine ⟨p', m', ?_⟩
  rw [sysExec_eq, if_neg (by rw [fetched]; omega), dif_pos ready, ran]
  simp only [bind, Except.bind, Except.map, freed]

theorem sysExec_hi : ∃ p' m', sysExec hiProc hiExecPhys (.loaded hiImage) = .ok (1, p', m') :=
  @sysExec_of_argv hiProc (by decide) [104, 105] ⟨by decide, by decide⟩ (by decide) (fun _ _ _ => rfl)
    [[104, 105]] ⟨by decide, ⟨by decide, by decide⟩, by unfold Argv; decide⟩
    ⟨by decide, fun _ _ _ => rfl, by decide, fun _ _ _ => rfl, by decide, fun _ _ _ => rfl⟩ (by decide)
    hiBoot hiExecPhys [] (by decide) hiPool hiImage (by decide) (by decide)

theorem sys_exec_argv_hi : ∃ p' m', sysExec hiProc hiExecPhys (.loaded hiImage) = .ok (1, p', m') ∧
    ∃ args, Argv hiBytes 64 args ∧ Argv p'.pagetable.byte p'.trapframe.a1.toNat args ∧ (1 : Int) = args.length := by
  obtain ⟨p', m', ran⟩ := sysExec_hi
  exact ⟨p', m', ran, sys_exec_argv (by decide) ran (by decide)⟩

end Sys

end Xv6
