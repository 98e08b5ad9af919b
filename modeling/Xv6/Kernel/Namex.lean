/-
# Kernel.Namex -- path names: the inode table, `skipelem`, `namex`

`itable` holds `NINODE` in-memory inodes.  `iget` returns the slot already
holding an inode with one more reference, or recycles the first slot without
one, and panics when every slot has a reference; `iput` drops a reference.
`namex` walks a path from the root or the working directory: it takes the
elements one by one with `skipelem`, locks the inode reached, checks that it
is a directory, looks the element up with `dirlookup` and `iget`s what it
finds, then unlocks and puts the inode it came from.  `nameiparent` stops one
element early and hands the last element back in its name buffer.

`components` is what a path names: its non-empty parts between '/'s, and
`walk` follows them over the directory tree the disk holds.  Over a table that
agrees with the disk (`ITable.Coherent`) and a linked tree (`Linked`),
`namex_spec` says `namex` returns the slot of the inode `walk` reaches with one
more reference, every other reference count as it was, no lock held and the
disk untouched; it needs two free slots, and with the root cached and only
one free `iget` can panic (`namei_one_free_slot`).
-/
import Xv6.Kernel.Dir

namespace Xv6

open Bytes Mkfs

set_option autoImplicit false

/-! ## fs.c: the inode table -/

/-- `itable`: the `NINODE` in-memory inodes, and the slots whose sleep-lock the
running call holds. -/
structure ITable where
  inode : Fin NINODE → Inode
  held : List (Fin NINODE)

instance : NeZero NINODE := ⟨by decide⟩

namespace ITable

/-- Replace slot `i`. -/
def set (t : ITable) (i : Fin NINODE) (ip : Inode) : ITable := { t with inode := Function.update t.inode i ip }

/-- The first slot holding inode `inum` of `dev` with a reference. -/
def lookup (t : ITable) (dev inum : Nat) : Option (Fin NINODE) :=
  (List.finRange NINODE).find? fun i => 0 < (t.inode i).ref && (t.inode i).dev == dev && (t.inode i).inum == inum

/-- The first slot without a reference. -/
def empty (t : ITable) : Option (Fin NINODE) :=
  (List.finRange NINODE).find? fun i => (t.inode i).ref == 0

/-- `iget(dev, inum)`: the slot holding the inode, with one more reference;
else the first slot without a reference, recycled for it with one reference
and not valid; the panic when every slot has a reference. -/
def iget (t : ITable) (dev inum : Nat) : Except String (Fin NINODE × ITable) :=
  match t.lookup dev inum with
  | some i => .ok (i, t.set i { t.inode i with ref := (t.inode i).ref + 1 })
  | none =>
      match t.empty with
      | some i => .ok (i, t.set i { t.inode i with dev, inum, ref := 1, valid := false })
      | none => .error "iget: no inodes"

/-- `idup`. -/
def idup (t : ITable) (i : Fin NINODE) : ITable := t.set i { t.inode i with ref := (t.inode i).ref + 1 }

/-- `ilock`: the panic on a slot without a reference; the sleep-lock, and the
inode read from its slot on the disk if not valid (`Xv6.ilock`, which panics
on a free inode). -/
def ilock (t : ITable) (sb : Superblock) (disk : Disk) (i : Fin NINODE) : Except String ITable :=
  if (t.inode i).ref < 1 then .error "ilock"
  else
    match Xv6.ilock sb disk (t.inode i) with
    | .error e => .error e
    | .ok ip => .ok { inode := Function.update t.inode i ip, held := i :: t.held }

/-- `iunlock`: the panic unless the call holds the lock and the slot has a reference. -/
def iunlock (t : ITable) (i : Fin NINODE) : Except String ITable :=
  if i ∉ t.held ∨ (t.inode i).ref < 1 then .error "iunlock"
  else .ok { t with held := t.held.erase i }

/-- `iput` of slot `i` (`Xv6.iput`, which frees the inode on its last
reference when it has no links). -/
def iput (t : ITable) (sb : Superblock) (fs : Fs) (i : Fin NINODE) : Except String (Fs × ITable) :=
  match Xv6.iput sb fs (t.inode i) with
  | .error e => .error e
  | .ok (fs, ip) => .ok (fs, t.set i ip)

/-- `iunlockput`. -/
def iunlockput (t : ITable) (sb : Superblock) (fs : Fs) (i : Fin NINODE) : Except String (Fs × ITable) :=
  match t.iunlock i with
  | .error e => .error e
  | .ok t => t.iput sb fs i

end ITable

/-! ## fs.c: paths -/

/-- The name buffer `skipelem` fills from an element: its first `DIRSIZ`
bytes, or all of it and a NUL. -/
def nameBuf (elem : List UInt8) : List UInt8 := if DIRSIZ ≤ elem.length then elem.take DIRSIZ else elem ++ [0]

/-- `skipelem(path, name)`: skip the '/'s, copy the element up to the next '/'
or NUL into the name buffer, skip the '/'s after it and return the rest;
`none` (the C 0) when no element is left.  A byte past the end of the list
reads as the NUL. -/
def skipelem (path : List UInt8) : Option (List UInt8 × List UInt8) :=
  let path := path.dropWhile (· = 47)
  if path.headD 0 = 0 then none
  else
    let elem := path.takeWhile fun c => c ≠ 47 ∧ c ≠ 0
    let rest := path.dropWhile fun c => c ≠ 47 ∧ c ≠ 0
    some (nameBuf elem, rest.dropWhile (· = 47))

/-- The loop of `namex` from slot `ip`, which the call holds a reference to:
the slot it returns, holding that reference, or `none`; the name buffer; and
the state after. -/
def namexLoop (sb : Superblock) (nameiparent : Bool) :
    (fuel : Nat) → (path name : List UInt8) → Fs → ITable → Fin NINODE →
      Except String (Option (Fin NINODE) × List UInt8 × Fs × ITable)
  | 0, _, name, fs, t, ip => .ok (some ip, name, fs, t)
  | fuel + 1, path, name, fs, t, ip =>
      match skipelem path with
      | none =>
          if nameiparent then
            match t.iput sb fs ip with
            | .error e => .error e
            | .ok (fs, t) => .ok (none, name, fs, t)
          else .ok (some ip, name, fs, t)
      | some (name, path) =>
          match t.ilock sb fs.disk ip with
          | .error e => .error e
          | .ok t =>
              if (t.inode ip).type ≠ T_DIR then
                match t.iunlockput sb fs ip with
                | .error e => .error e
                | .ok (fs, t) => .ok (none, name, fs, t)
              else if nameiparent && path.headD 0 == 0 then
                -- stop one level early
                match t.iunlock ip with
                | .error e => .error e
                | .ok t => .ok (some ip, name, fs, t)
              else
                match dirlookup sb fs (t.inode ip) name with
                | .error e => .error e
                | .ok (none, fs, dp) =>
                    match (t.set ip dp).iunlockput sb fs ip with
                    | .error e => .error e
                    | .ok (fs, t) => .ok (none, name, fs, t)
                | .ok (some (inum, _), fs, dp) =>
                    -- `dirlookup`'s `iget`, then the inode looked into is put
                    match (t.set ip dp).iget dp.dev inum with
                    | .error e => .error e
                    | .ok (next, t) =>
                        match t.iunlockput sb fs ip with
                        | .error e => .error e
                        | .ok (fs, t) => namexLoop sb nameiparent fuel path name fs t next

/-- `namex(path, nameiparent, name)` for a process whose working directory is
slot `cwd`: from the root for a path that starts with '/', else from `cwd`.
Every pass takes at least one byte of the path. -/
def namex (sb : Superblock) (fs : Fs) (t : ITable) (cwd : Fin NINODE) (path : List UInt8) (nameiparent : Bool)
    (name : List UInt8) : Except String (Option (Fin NINODE) × List UInt8 × Fs × ITable) :=
  let start := if path.headD 0 = 47 then t.iget ROOTDEV ROOTINO else .ok (cwd, t.idup cwd)
  match start with
  | .error e => .error e
  | .ok (ip, t) => namexLoop sb nameiparent (path.length + 1) path name fs t ip

/-- `namei(path)`, with its own name buffer. -/
def namei (sb : Superblock) (fs : Fs) (t : ITable) (cwd : Fin NINODE) (path : List UInt8) :
    Except String (Option (Fin NINODE) × Fs × ITable) :=
  (namex sb fs t cwd path false (List.replicate DIRSIZ 0)).map fun (ip, _, fs, t) => (ip, fs, t)

/-- `nameiparent(path, name)`. -/
def nameiparent (sb : Superblock) (fs : Fs) (t : ITable) (cwd : Fin NINODE) (path name : List UInt8) :
    Except String (Option (Fin NINODE) × List UInt8 × Fs × ITable) :=
  namex sb fs t cwd path true name

/-! ## What a path names -/

/-- The components of a path: its non-empty parts between '/'s, up to its NUL. -/
def components (path : List UInt8) : List (List UInt8) :=
  ((path.takeWhile (· ≠ 0)).splitOn 47).filter (· ≠ [])

/-- Follow the components from inode `start` over the directory tree the disk
holds: each is looked up, as `namecmp` compares names, among the live entries
of the inode reached so far, which must be a directory. -/
def walk (sb : Superblock) (disk : Disk) (start : Nat) : List (List UInt8) → Option Nat
  | [] => some start
  | c :: cs =>
      if (table sb disk start).type = T_DIR then
        match findEntry c (dirents disk (table sb disk start)) with
        | some (inum, _) => walk sb disk inum cs
        | none => none
      else none

/-- The directory all but the last component reach, and the last component;
`none` when there is no component. -/
def walkParent (sb : Superblock) (disk : Disk) (start : Nat) (cs : List (List UInt8)) : Option (Nat × List UInt8) :=
  match cs.getLast? with
  | none => none
  | some last =>
      match walk sb disk start cs.dropLast with
      | some p => if (table sb disk p).type = T_DIR then some (p, last) else none
      | none => none

/-! ## What each call does to the table -/

namespace ITable

@[simp] theorem set_inode_self (t : ITable) (i : Fin NINODE) (ip : Inode) : (t.set i ip).inode i = ip := by
  simp [set]

theorem set_inode_of_ne (t : ITable) {i j : Fin NINODE} (ip : Inode) (ne : j ≠ i) : (t.set i ip).inode j = t.inode j := by
  simp [set, ne]

@[simp] theorem set_held (t : ITable) (i : Fin NINODE) (ip : Inode) : (t.set i ip).held = t.held := rfl

@[simp] theorem set_self (t : ITable) (i : Fin NINODE) : t.set i (t.inode i) = t := by
  simp [set]

/-- What `iget` leaves: slot `i` holds inode `inum` with one more reference,
and no other slot and no lock changed; the slot was the inode's, with a
reference, or is recycled and not valid. -/
structure Got (t t' : ITable) (inum : Nat) (i : Fin NINODE) : Prop where
  held : t'.held = t.held
  ref : (t'.inode i).ref = (t.inode i).ref + 1
  inum : (t'.inode i).inum = inum
  others : ∀ j, j ≠ i → t'.inode j = t.inode j
  fresh : (0 < (t.inode i).ref ∧ t'.inode i = { t.inode i with ref := (t.inode i).ref + 1 }) ∨
    (t'.inode i).valid = false

theorem Got.ref_eq {t t' : ITable} {inum : Nat} {i : Fin NINODE} (got : t.Got t' inum i) (j : Fin NINODE) :
    (t'.inode j).ref = (t.inode j).ref + if j = i then 1 else 0 := by
  by_cases here : j = i
  · subst here
    rw [if_pos rfl, got.ref]
  · rw [if_neg here, got.others j here, Nat.add_zero]

/-- `iget` panics only when every slot has a reference. -/
theorem iget_spec (t : ITable) (dev inum : Nat) :
    (∃ i t', t.iget dev inum = .ok (i, t') ∧ Got t t' inum i) ∨
      (t.iget dev inum = .error "iget: no inodes" ∧ ∀ i, 0 < (t.inode i).ref) := by
  unfold iget
  rcases found : t.lookup dev inum with _ | i
  · rcases free : t.empty with _ | i
    · -- every slot has a reference
      right
      refine ⟨rfl, fun i => Nat.pos_of_ne_zero fun zero => ?_⟩
      have := List.find?_eq_none.mp free i (List.mem_finRange i)
      simp [zero] at this
    · have zero : (t.inode i).ref = 0 := by simpa using List.find?_some free
      left
      exact ⟨i, _, rfl, ⟨rfl, by simp [zero], by simp, fun j ne => set_inode_of_ne _ _ ne, .inr (by simp)⟩⟩
  · have hit : (0 < (t.inode i).ref ∧ (t.inode i).dev = dev) ∧ (t.inode i).inum = inum := by
      simpa using List.find?_some found
    left
    exact ⟨i, _, rfl, ⟨rfl, by simp, by simp [hit.2], fun j ne => set_inode_of_ne _ _ ne, .inl ⟨hit.1.1, by simp⟩⟩⟩

/-- With a slot without a reference, `iget` does not panic. -/
theorem iget_ok_of_free (t : ITable) (dev inum : Nat) {a : Fin NINODE} (free : (t.inode a).ref = 0) :
    ∃ i t', t.iget dev inum = .ok (i, t') ∧ Got t t' inum i := by
  rcases iget_spec t dev inum with got | ⟨-, used⟩
  · exact got
  · exact absurd free (Nat.pos_iff_ne_zero.mp (used a))

/-- A slot `ilock` has read: its on-disk inode, marked valid. -/
def readSlot (sb : Superblock) (disk : Disk) (ip : Inode) : Inode :=
  { ip with toDinode := table sb disk ip.inum, valid := true }

@[simp] theorem readSlot_ref (sb : Superblock) (disk : Disk) (ip : Inode) : (readSlot sb disk ip).ref = ip.ref := rfl

@[simp] theorem readSlot_inum (sb : Superblock) (disk : Disk) (ip : Inode) : (readSlot sb disk ip).inum = ip.inum := rfl

@[simp] theorem readSlot_valid (sb : Superblock) (disk : Disk) (ip : Inode) : (readSlot sb disk ip).valid = true := rfl

@[simp] theorem readSlot_toDinode (sb : Superblock) (disk : Disk) (ip : Inode) :
    (readSlot sb disk ip).toDinode = table sb disk ip.inum := rfl

@[simp] theorem readSlot_type (sb : Superblock) (disk : Disk) (ip : Inode) :
    (readSlot sb disk ip).type = (table sb disk ip.inum).type := rfl

/-- `ilock` of a slot with a reference, whose inode is allocated and, if the
slot is valid, already its on-disk copy: the slot becomes that copy, and the
call holds its lock. -/
theorem ilock_eq (t : ITable) (sb : Superblock) (disk : Disk) {i : Fin NINODE} (used : 0 < (t.inode i).ref)
    (allocated : (table sb disk (t.inode i).inum).type ≠ 0)
    (loaded : (t.inode i).valid = true → (t.inode i).toDinode = table sb disk (t.inode i).inum) :
    t.ilock sb disk i = .ok ⟨Function.update t.inode i (readSlot sb disk (t.inode i)), i :: t.held⟩ := by
  unfold ilock
  rw [if_neg (by omega)]
  by_cases valid : (t.inode i).valid = true
  · -- already read: the slot is its own on-disk copy
    have same : readSlot sb disk (t.inode i) = t.inode i := by
      rw [readSlot, ← loaded valid, ← valid]
    simp only [Xv6.ilock, valid, if_true, same]
  · simp only [Xv6.ilock, valid, Bool.false_eq_true, if_false, if_neg allocated, readSlot]

/-- `iunlock` of a slot the call holds, with a reference. -/
theorem iunlock_eq (t : ITable) {i : Fin NINODE} (mem : i ∈ t.held) (used : 0 < (t.inode i).ref) :
    t.iunlock i = .ok { t with held := t.held.erase i } := by
  rw [iunlock, if_neg fun bad => bad.elim (fun notMem => notMem mem) fun low => by omega]

/-- `iput` short of the last reference to an unlinked inode drops the
reference and nothing else. -/
theorem iput_eq (t : ITable) (sb : Superblock) (fs : Fs) {i : Fin NINODE}
    (kept : ¬((t.inode i).ref = 1 ∧ (t.inode i).valid = true ∧ (t.inode i).nlink = 0)) :
    t.iput sb fs i = .ok (fs, t.set i { t.inode i with ref := (t.inode i).ref - 1 }) := by
  simp only [iput, Xv6.iput, if_neg kept]

/-- `iunlockput` of a slot the call holds that is not the last reference to an
unlinked inode: the lock and one reference are dropped. -/
theorem iunlockput_eq (t : ITable) (sb : Superblock) (fs : Fs) {i : Fin NINODE} (mem : i ∈ t.held)
    (used : 0 < (t.inode i).ref) (kept : ¬((t.inode i).ref = 1 ∧ (t.inode i).valid = true ∧ (t.inode i).nlink = 0)) :
    t.iunlockput sb fs i =
      .ok (fs, ⟨Function.update t.inode i { t.inode i with ref := (t.inode i).ref - 1 }, t.held.erase i⟩) := by
  rw [iunlockput, iunlock_eq t mem used]
  exact iput_eq _ sb fs kept

end ITable

/-! ## The table agrees with the disk -/

/-- Every slot with a reference holds an allocated inode below `ninodes`, and,
once valid, its on-disk copy. -/
structure ITable.Coherent (sb : Superblock) (disk : Disk) (t : ITable) : Prop where
  bound : ∀ i, 0 < (t.inode i).ref → (t.inode i).inum < sb.ninodes
  allocated : ∀ i, 0 < (t.inode i).ref → (table sb disk (t.inode i).inum).type ≠ 0
  loaded : ∀ i, 0 < (t.inode i).ref → (t.inode i).valid = true → (t.inode i).toDinode = table sb disk (t.inode i).inum

/-- The directory tree the disk holds is linked: the root is an allocated
inode with a link, and every live entry of a directory names an allocated
inode below `ninodes` with a link. -/
structure Linked (sb : Superblock) (disk : Disk) : Prop where
  root : ROOTINO < sb.ninodes ∧ (table sb disk ROOTINO).type ≠ 0 ∧ (table sb disk ROOTINO).nlink ≠ 0
  entries : ∀ dir, IsDir sb disk dir → ∀ de ∈ dirents disk (table sb disk dir), de.inum ≠ 0 →
    de.inum < sb.ninodes ∧ (table sb disk de.inum).type ≠ 0 ∧ (table sb disk de.inum).nlink ≠ 0

/-! ## `skipelem` takes the components one by one -/

theorem components_slash (p : List UInt8) : components (47 :: p) = components p := by
  have split := @List.splitOnP_append_cons_of_forall_mem UInt8 (· == 47) [] (by simp) 47 (by decide)
    (p.takeWhile (· ≠ 0))
  rw [List.nil_append] at split
  unfold components
  rw [List.takeWhile_cons_of_pos (by decide), List.splitOn, split, List.filter_cons_of_neg (by simp)]
  rfl

theorem components_of_nul {p : List UInt8} (nul : p.headD 0 = 0) : components p = [] := by
  have none : p.takeWhile (· ≠ 0) = [] := by
    cases p with
    | nil => rfl
    | cons a p =>
        simp only [List.headD_cons] at nul
        simp [nul]
  unfold components
  rw [none]
  decide

theorem components_dropSlashes : ∀ p : List UInt8, components (p.dropWhile (· = 47)) = components p
  | [] => rfl
  | a :: p => by
      by_cases slash : a = 47
      · subst slash
        rw [List.dropWhile_cons_of_pos (by decide), components_dropSlashes p, components_slash]
      · rw [List.dropWhile_cons_of_neg (by simpa using slash)]

theorem dropWhile_dropWhile {α : Type} (p : α → Bool) : ∀ l : List α, (l.dropWhile p).dropWhile p = l.dropWhile p
  | [] => rfl
  | a :: l => by
      by_cases skip : p a = true
      · rw [List.dropWhile_cons_of_pos skip]
        exact dropWhile_dropWhile p l
      · rw [List.dropWhile_cons_of_neg skip, List.dropWhile_cons_of_neg skip]

/-- A path that starts with an element, then a '/' or the end: the element is
its first component. -/
theorem components_elem {elem tail : List UInt8} (nonempty : elem ≠ [])
    (plain : ∀ c ∈ elem, c ≠ 47 ∧ c ≠ 0) (stop : tail.headD 0 = 47 ∨ tail.headD 0 = 0) :
    components (elem ++ tail) = elem :: components tail := by
  have noNul : ∀ c ∈ elem, decide (c ≠ 0) = true := fun c mem => by simpa using (plain c mem).2
  have noSlash : ∀ c ∈ elem, (c == 47) = false := fun c mem => by simpa using (plain c mem).1
  have kept : decide (elem ≠ []) = true := by simpa using nonempty
  rcases stop with slash | nul
  · obtain ⟨t, rfl⟩ : ∃ t, tail = 47 :: t := by
      cases tail with
      | nil => simp at slash
      | cons a t =>
          simp only [List.headD_cons] at slash
          exact ⟨t, by rw [slash]⟩
    have split := @List.splitOnP_append_cons_of_forall_mem UInt8 (· == 47) elem noSlash 47 (by decide)
      (t.takeWhile (· ≠ 0))
    have lhs : components (elem ++ 47 :: t) = elem :: components t := by
      unfold components
      rw [List.takeWhile_append_of_pos noNul, List.takeWhile_cons_of_pos (by decide), List.splitOn, split,
        List.filter_cons, if_pos kept]
      rfl
    rw [lhs, components_slash]
  · have none : tail.takeWhile (· ≠ 0) = [] := by
      cases tail with
      | nil => rfl
      | cons a t =>
          simp only [List.headD_cons] at nul
          simp [nul]
    have lhs : components (elem ++ tail) = [elem] := by
      unfold components
      rw [List.takeWhile_append_of_pos noNul, none, List.append_nil, List.splitOn,
        List.splitOnP_eq_singleton noSlash, List.filter_cons, if_pos kept, List.filter_nil]
    rw [lhs, components_of_nul nul]

/-- The byte a `dropWhile` stops at fails the test; past the end it reads as
the default, which fails it too. -/
theorem headD_dropWhile {p : UInt8 → Bool} (l : List UInt8) (stop : p 0 = false) : p ((l.dropWhile p).headD 0) = false := by
  by_cases empty : l.dropWhile p = []
  · rw [empty]
    exact stop
  · rw [List.headD_eq_head?, List.head?_eq_some_head empty, Option.getD_some]
    exact List.head_dropWhile_not p empty

/-- A path whose slashes are skipped and that is not at its NUL: the element
up to the next '/' or NUL is its first component. -/
theorem components_of_first {q : List UInt8} (notNul : q.headD 0 ≠ 0) (notSlash : q.headD 0 ≠ 47) :
    (q.takeWhile fun c => c ≠ 47 ∧ c ≠ 0) ≠ [] ∧
      components q = (q.takeWhile fun c => c ≠ 47 ∧ c ≠ 0) :: components (q.dropWhile fun c => c ≠ 47 ∧ c ≠ 0) := by
  have nonempty : (q.takeWhile fun c => c ≠ 47 ∧ c ≠ 0) ≠ [] := by
    cases q with
    | nil => exact absurd rfl notNul
    | cons a q =>
        simp only [List.headD_cons] at notNul notSlash
        simp [notNul, notSlash]
  have plain : ∀ c ∈ q.takeWhile (fun c => c ≠ 47 ∧ c ≠ 0), c ≠ 47 ∧ c ≠ 0 := fun c mem => by
    simpa using List.mem_takeWhile_imp mem
  have stop : (q.dropWhile fun c => c ≠ 47 ∧ c ≠ 0).headD 0 = 47 ∨ (q.dropWhile fun c => c ≠ 47 ∧ c ≠ 0).headD 0 = 0 := by
    have fails := headD_dropWhile (p := fun c => c ≠ 47 ∧ c ≠ 0) q (by decide)
    simp only [decide_eq_false_iff_not, not_and, not_not] at fails
    by_cases slash : (q.dropWhile fun c => c ≠ 47 ∧ c ≠ 0).headD 0 = 47
    · exact .inl slash
    · exact .inr (fails slash)
  refine ⟨nonempty, ?_⟩
  conv => lhs; rw [← List.takeWhile_append_dropWhile (p := fun c => c ≠ 47 ∧ c ≠ 0) (l := q)]
  exact components_elem nonempty plain stop

/-- A path has no component exactly when it is at its NUL once its leading
slashes are skipped. -/
theorem components_eq_nil_iff (p : List UInt8) : components p = [] ↔ (p.dropWhile (· = 47)).headD 0 = 0 := by
  constructor
  · intro none
    by_contra notNul
    have notSlash := headD_dropWhile (p := fun c => c = 47) p (by decide)
    simp only [decide_eq_false_iff_not] at notSlash
    rw [← components_dropSlashes, (components_of_first notNul notSlash).2] at none
    exact List.cons_ne_nil _ _ none
  · intro nul
    rw [← components_dropSlashes]
    exact components_of_nul nul

/-- `skipelem` finds no element exactly where the path has no component. -/
theorem skipelem_eq_none_iff (path : List UInt8) : skipelem path = none ↔ components path = [] := by
  rw [components_eq_nil_iff]
  dsimp only [skipelem]
  by_cases nul : (path.dropWhile (· = 47)).headD 0 = 0
  · rw [if_pos nul]
    exact ⟨fun _ => nul, fun _ => rfl⟩
  · rw [if_neg nul]
    exact ⟨fun none => absurd none (Option.some_ne_none _), fun nul' => absurd nul' nul⟩

/-- What `skipelem` takes is the path's first component, in a name buffer,
and what it leaves has the other components: it is shorter, and at its NUL
exactly when no component is left. -/
theorem skipelem_eq_some {path name rest : List UInt8} (taken : skipelem path = some (name, rest)) :
    ∃ elem, name = nameBuf elem ∧ (∀ c ∈ elem, c ≠ 47 ∧ c ≠ 0) ∧ components path = elem :: components rest ∧
      rest.length < path.length ∧ (rest.headD 0 = 0 ↔ components rest = []) := by
  dsimp only [skipelem] at taken
  by_cases notNul : (path.dropWhile (· = 47)).headD 0 = 0
  · rw [if_pos notNul] at taken
    cases taken
  rw [if_neg notNul] at taken
  simp only [Option.some.injEq, Prod.mk.injEq] at taken
  obtain ⟨rfl, rfl⟩ := taken
  set q := path.dropWhile (· = 47) with q_def
  have notSlash : q.headD 0 ≠ 47 := by
    have fails := headD_dropWhile (p := fun c => c = 47) path (by decide)
    simpa using fails
  obtain ⟨nonempty, first⟩ := components_of_first notNul notSlash
  refine ⟨_, rfl, fun c mem => by simpa using List.mem_takeWhile_imp mem, ?_, ?_, ?_⟩
  · rw [← components_dropSlashes path, ← q_def, first, components_dropSlashes]
  · -- the element is not empty, so the rest is shorter than the path
    have whole := congrArg List.length (List.takeWhile_append_dropWhile (p := fun c => c ≠ 47 ∧ c ≠ 0) (l := q))
    rw [List.length_append] at whole
    have positive := List.length_pos_of_ne_nil nonempty
    have dropped : q.length ≤ path.length := List.length_dropWhile_le _ _
    have restShort := List.length_dropWhile_le (fun c => decide (c = 47)) (q.dropWhile fun c => c ≠ 47 ∧ c ≠ 0)
    omega
  · -- the rest starts with no '/', so skipping slashes leaves it as it is
    rw [components_eq_nil_iff, dropWhile_dropWhile]

/-- The pointer `skipelem` returns has no leading '/'. -/
theorem skipelem_rest_not_slash {path name rest : List UInt8} (taken : skipelem path = some (name, rest)) :
    rest.headD 0 ≠ 47 := by
  dsimp only [skipelem] at taken
  split at taken
  · cases taken
  · simp only [Option.some.injEq, Prod.mk.injEq] at taken
    rw [← taken.2]
    simpa using headD_dropWhile (p := fun c => c = 47) _ (by decide)

/-- The name buffer holds the element's first `DIRSIZ` bytes, and a NUL after
them exactly when the element is shorter than `DIRSIZ`. -/
theorem nameBuf_eq (elem : List UInt8) :
    nameBuf elem = elem.take DIRSIZ ++ (if elem.length < DIRSIZ then [0] else []) := by
  unfold nameBuf
  by_cases long : DIRSIZ ≤ elem.length
  · rw [if_pos long, if_neg (by omega), List.append_nil]
  · rw [if_neg long, if_pos (by omega), List.take_of_length_le (by omega)]

/-- `skipelem` applied again and again from `path` until it returns 0: what
each call writes into `name`, and the pointer it returns. -/
def skipelemRun (path : List UInt8) : List (List UInt8 × List UInt8) :=
  match _taken : skipelem path with
  | none => []
  | some (name, rest) => (name, rest) :: skipelemRun rest
termination_by path.length
decreasing_by
  obtain ⟨_, _, _, _, shorter, _⟩ := skipelem_eq_some _taken
  exact shorter

theorem skipelemRun_of_none {path : List UInt8} (none : skipelem path = none) : skipelemRun path = [] := by
  rw [skipelemRun]
  split
  · rfl
  · simp_all

theorem skipelemRun_of_some {path name rest : List UInt8} (taken : skipelem path = some (name, rest)) :
    skipelemRun path = (name, rest) :: skipelemRun rest := by
  rw [skipelemRun]
  split
  · simp_all
  · simp_all

/-- The names the calls write are the path's components, in order, each in a
name buffer. -/
theorem skipelemRun_names (path : List UInt8) :
    (skipelemRun path).map Prod.fst = (components path).map nameBuf := by
  induction path using skipelemRun.induct with
  | case1 path none =>
    rw [skipelemRun_of_none none, (skipelem_eq_none_iff path).mp none]
    rfl
  | case2 path name rest taken ih =>
    obtain ⟨elem, rfl, -, comps, -, -⟩ := skipelem_eq_some taken
    rw [skipelemRun_of_some taken, comps, List.map_cons, List.map_cons, ih]

theorem length_skipelemRun (path : List UInt8) : (skipelemRun path).length = (components path).length := by
  simpa using congrArg List.length (skipelemRun_names path)

/-- Every pointer a call returns has no leading '/', and is at the NUL exactly
when that call took the last component. -/
theorem skipelemRun_rest (path : List UInt8) :
    ∀ k (lt : k < (skipelemRun path).length),
      (skipelemRun path)[k].2.headD 0 ≠ 47 ∧
        ((skipelemRun path)[k].2.headD 0 = 0 ↔ k + 1 = (skipelemRun path).length) := by
  induction path using skipelemRun.induct with
  | case1 path none =>
    intro k lt
    simp [skipelemRun_of_none none] at lt
  | case2 path name rest taken ih =>
    obtain ⟨_, -, -, -, -, atNul⟩ := skipelem_eq_some taken
    have run := skipelemRun_of_some taken
    intro k lt
    -- the first call is this `skipelem`; the later ones are the run from `rest`
    cases k with
    | zero =>
      simp only [run, List.getElem_cons_zero, List.length_cons]
      refine ⟨skipelem_rest_not_slash taken, ?_⟩
      rw [atNul, ← List.length_eq_zero_iff, length_skipelemRun]
      omega
    | succ k =>
      simp only [run, List.getElem_cons_succ, List.length_cons] at lt ⊢
      have later := ih k (by omega)
      exact ⟨later.1, by rw [later.2]; omega⟩

/-- A component is a non-empty run of bytes that are neither '/' nor NUL. -/
theorem mem_components {path elem : List UInt8} (mem : elem ∈ components path) :
    elem ≠ [] ∧ ∀ c ∈ elem, c ≠ 47 ∧ c ≠ 0 := by
  refine ⟨by simpa using (List.mem_filter.mp mem).2, ?_⟩
  induction path using skipelemRun.induct with
  | case1 path none =>
    rw [(skipelem_eq_none_iff path).mp none] at mem
    cases mem
  | case2 path name rest taken ih =>
    obtain ⟨first, -, plain, comps, -, -⟩ := skipelem_eq_some taken
    rw [comps] at mem
    rcases List.mem_cons.mp mem with rfl | later
    · exact plain
    · exact ih later

/-- `skipelem`, applied until it returns 0, takes the path's components in
order; each name buffer holds its component cut to `DIRSIZ` bytes, with a NUL
after it exactly when it is shorter; each pointer returned has no leading '/'
and is at the NUL exactly after the last component.  The examples of fs.c's
comment are instances. -/
theorem skipelem_splits_path :
    (∀ path : List UInt8,
      (skipelemRun path).map Prod.fst = (components path).map nameBuf ∧
        (∀ elem ∈ components path, elem ≠ [] ∧ (∀ c ∈ elem, c ≠ 47 ∧ c ≠ 0) ∧
          nameBuf elem = elem.take DIRSIZ ++ (if elem.length < DIRSIZ then [0] else [])) ∧
        ∀ k (lt : k < (skipelemRun path).length),
          (skipelemRun path)[k].2.headD 0 ≠ 47 ∧
            ((skipelemRun path)[k].2.headD 0 = 0 ↔ k + 1 = (skipelemRun path).length)) ∧
      skipelem [97, 47, 98, 98, 47, 99] = some (nameBuf [97], [98, 98, 47, 99]) ∧
      skipelem [47, 47, 47, 97, 47, 47, 98, 98] = some (nameBuf [97], [98, 98]) ∧
      skipelem [97] = some (nameBuf [97], []) ∧
      skipelem [] = none ∧ skipelem [47, 47, 47, 47] = none := by
  refine ⟨fun path => ⟨skipelemRun_names path, fun elem mem => ?_, skipelemRun_rest path⟩,
    by decide, by decide, by decide, by decide, by decide⟩
  obtain ⟨nonempty, plain⟩ := mem_components mem
  exact ⟨nonempty, plain, nameBuf_eq elem⟩

/-- "a/bb/c" gives the names "a", "bb" and "c". -/
theorem skipelem_splits_path_abc :
    (skipelemRun [97, 47, 98, 98, 47, 99]).map Prod.fst = [nameBuf [97], nameBuf [98, 98], nameBuf [99]] := by
  rw [(skipelem_splits_path.1 _).1]
  decide

/-! ## The table stays in agreement with the disk -/

namespace ITable.Coherent

variable {sb : Superblock} {disk : Disk} {t : ITable}

/-- Changing one slot to an inode that, once it has a reference, is allocated,
below `ninodes` and, if valid, its on-disk copy. -/
theorem update (coherent : t.Coherent sb disk) {t' : ITable} {i : Fin NINODE} {ip : Inode}
    (eq : t'.inode = Function.update t.inode i ip)
    (fits : 0 < ip.ref → ip.inum < sb.ninodes ∧ (table sb disk ip.inum).type ≠ 0 ∧
      (ip.valid = true → ip.toDinode = table sb disk ip.inum)) : t'.Coherent sb disk := by
  constructor
  · intro j used
    rw [eq] at used ⊢
    by_cases here : j = i
    · subst here
      rw [Function.update_self] at used ⊢
      exact (fits used).1
    · rw [Function.update_of_ne here] at used ⊢
      exact coherent.bound j used
  · intro j used
    rw [eq] at used ⊢
    by_cases here : j = i
    · subst here
      rw [Function.update_self] at used ⊢
      exact (fits used).2.1
    · rw [Function.update_of_ne here] at used ⊢
      exact coherent.allocated j used
  · intro j used valid
    rw [eq] at used valid ⊢
    by_cases here : j = i
    · subst here
      rw [Function.update_self] at used valid ⊢
      exact (fits used).2.2 valid
    · rw [Function.update_of_ne here] at used valid ⊢
      exact coherent.loaded j used valid

/-- `ilock`'s read of a slot. -/
theorem read (coherent : t.Coherent sb disk) (i : Fin NINODE) (held : List (Fin NINODE)) :
    (⟨Function.update t.inode i (ITable.readSlot sb disk (t.inode i)), held⟩ : ITable).Coherent sb disk :=
  coherent.update rfl fun used =>
    have had : 0 < (t.inode i).ref := by rwa [ITable.readSlot_ref] at used
    ⟨by rw [ITable.readSlot_inum]; exact coherent.bound i had,
      by rw [ITable.readSlot_inum]; exact coherent.allocated i had,
      fun _ => by rw [ITable.readSlot_toDinode, ITable.readSlot_inum]⟩

/-- Dropping a reference. -/
theorem drop (coherent : t.Coherent sb disk) (i : Fin NINODE) (held : List (Fin NINODE)) :
    (⟨Function.update t.inode i { t.inode i with ref := (t.inode i).ref - 1 }, held⟩ : ITable).Coherent sb disk :=
  coherent.update rfl fun used =>
    have had : 0 < (t.inode i).ref := by simp only at used; omega
    ⟨coherent.bound i had, coherent.allocated i had, coherent.loaded i had⟩

/-- `iget` of an allocated inode below `ninodes`. -/
theorem got (coherent : t.Coherent sb disk) {t' : ITable} {inum : Nat} {i : Fin NINODE} (got : t.Got t' inum i)
    (bound : inum < sb.ninodes) (allocated : (table sb disk inum).type ≠ 0) : t'.Coherent sb disk := by
  have eq : t'.inode = Function.update t.inode i (t'.inode i) := by
    funext j
    by_cases here : j = i
    · rw [here, Function.update_self]
    · rw [Function.update_of_ne here, got.others j here]
  refine coherent.update eq fun _ => ⟨got.inum ▸ bound, got.inum ▸ allocated, fun valid => ?_⟩
  rcases got.fresh with ⟨had, same⟩ | recycled
  · rw [same] at valid ⊢
    exact coherent.loaded i had valid
  · rw [recycled] at valid
    cases valid

end ITable.Coherent

/-! ## Looking up a component -/

variable {sb : Superblock}

/-- The name buffer of an element names what the element names. -/
theorem dirName_nameBuf {elem : List UInt8} (plain : ∀ c ∈ elem, c ≠ 47 ∧ c ≠ 0) :
    dirName (nameBuf elem) = dirName elem := by
  have noNul : ∀ c ∈ elem, decide (c ≠ 0) = true := fun c mem => by simpa using (plain c mem).2
  have whole : elem.takeWhile (· ≠ 0) = elem := List.takeWhile_eq_self_iff.mpr noNul
  unfold dirName nameBuf
  split
  · have taken : (elem.take DIRSIZ).takeWhile (· ≠ 0) = elem.take DIRSIZ :=
      List.takeWhile_eq_self_iff.mpr fun c mem => noNul c (List.mem_of_mem_take mem)
    rw [taken, whole, List.take_take, Nat.min_self]
  · rw [List.takeWhile_append_of_pos noNul, whole]
    simp

/-- Names `namecmp` finds equal find the same entry. -/
theorem findEntry_congr {a b : List UInt8} (same : dirName a = dirName b) :
    ∀ es : List Dirent, findEntry a es = findEntry b es
  | [] => rfl
  | de :: es => by
      have named : namecmp a de.name = 0 ↔ namecmp b de.name = 0 := by
        rw [namecmp_eq_zero, namecmp_eq_zero, same]
      simp only [findEntry, named, findEntry_congr same es]

/-- A slot that is its inode's on-disk copy, of a directory of the table, is a
directory the calls work on. -/
theorem DirsOk.dirOk_of_slot {fs : Fs} (dirs : DirsOk sb fs.disk) {ip : Inode}
    (loaded : ip.toDinode = table sb fs.disk ip.inum) (isDir : IsDir sb fs.disk ip.inum) : DirOk sb fs ip :=
  { owned := dirs.owned
    loaded := loaded.symm
    bound := isDir.1
    dir := by rw [show ip.type = ip.toDinode.type from rfl, loaded]; exact isDir.2
    noHoles := loaded ▸ dirs.noHoles _ isDir
    small := by rw [show ip.size = ip.toDinode.size from rfl, loaded]; exact dirs.small _ isDir
    whole := by rw [show ip.size = ip.toDinode.size from rfl, loaded]; exact dirs.whole _ isDir }

/-! ## `walk` one component at a time -/

theorem walk_of_not_dir {disk : Disk} {start : Nat} (notDir : (table sb disk start).type ≠ T_DIR) (c : List UInt8)
    (cs : List (List UInt8)) : walk sb disk start (c :: cs) = none := by
  rw [walk, if_neg notDir]

theorem walkParent_nil (disk : Disk) (start : Nat) : walkParent sb disk start [] = none := rfl

theorem walkParent_single (disk : Disk) (start : Nat) (c : List UInt8) :
    walkParent sb disk start [c] = if (table sb disk start).type = T_DIR then some (start, c) else none := by
  simp [walkParent, walk]

theorem walkParent_cons_cons (disk : Disk) (start : Nat) (c c' : List UInt8) (cs : List (List UInt8)) :
    walkParent sb disk start (c :: c' :: cs) =
      if (table sb disk start).type = T_DIR then
        match findEntry c (dirents disk (table sb disk start)) with
        | some (inum, _) => walkParent sb disk inum (c' :: cs)
        | none => none
      else none := by
  obtain ⟨l, last⟩ : ∃ l, (c' :: cs).getLast? = some l := ⟨_, List.getLast?_eq_some_getLast (List.cons_ne_nil c' cs)⟩
  have unfolded : ∀ p, walkParent sb disk p (c' :: cs) =
      match walk sb disk p (c' :: cs).dropLast with
      | some q => if (table sb disk q).type = T_DIR then some (q, l) else none
      | none => none := fun p => by
    rw [walkParent, last]
  rw [walkParent, List.getLast?_cons_cons, last, List.dropLast_cons_cons, walk]
  by_cases dir : (table sb disk start).type = T_DIR
  · rw [if_pos dir, if_pos dir]
    cases findEntry c (dirents disk (table sb disk start)) with
    | none => rfl
    | some hit =>
        obtain ⟨inum, k⟩ := hit
        dsimp only
        rw [unfolded]
  · rw [if_neg dir, if_neg dir]

/-! ## The walk holds one reference and no lock -/

/-- What the loop of `namex` keeps against the table `t₀` it started from: the
call holds one reference, to slot `ip`, and no lock; the table agrees with the
disk; and if `ip`'s slot had no reference at the start, its inode has a link,
so putting it back frees nothing. -/
structure WalkInv (sb : Superblock) (disk : Disk) (t₀ t : ITable) (ip : Fin NINODE) : Prop where
  refs : ∀ j, (t.inode j).ref = (t₀.inode j).ref + if j = ip then 1 else 0
  held : t.held = []
  coherent : t.Coherent sb disk
  linked : (t₀.inode ip).ref = 0 → (table sb disk (t.inode ip).inum).nlink ≠ 0

/-- What `namex` returns resolves the components from `start`: for `namei`,
the slot of the inode `walk` reaches; for `nameiparent`, the slot of the
directory `walkParent` reaches, and the last component in the name buffer. -/
def Resolves (sb : Superblock) (disk : Disk) (nameiparent : Bool) (start : Nat) (cs : List (List UInt8))
    (res : Option (Fin NINODE)) (name : List UInt8) (t : ITable) : Prop :=
  if nameiparent then
    res.map (fun j => ((t.inode j).inum, name)) = (walkParent sb disk start cs).map fun found => (found.1, nameBuf found.2)
  else res.map (fun j => (t.inode j).inum) = walk sb disk start cs

section Resolves

variable {disk : Disk} {res : Option (Fin NINODE)} {name : List UInt8} {t : ITable}

/-- Nothing is resolved through an inode that is not a directory. -/
theorem resolves_not_dir {start : Nat} (notDir : (table sb disk start).type ≠ T_DIR) (np : Bool)
    (c : List UInt8) (cs : List (List UInt8)) (name : List UInt8) (t : ITable) :
    Resolves sb disk np start (c :: cs) none name t := by
  cases np with
  | false => simp [Resolves, walk_of_not_dir notDir]
  | true =>
      cases cs with
      | nil => simp [Resolves, walkParent_single, notDir]
      | cons c' cs => simp [Resolves, walkParent_cons_cons, notDir]

/-- Nothing is resolved through a component the directory lacks. -/
theorem resolves_missing {np : Bool} {start : Nat} (dir : (table sb disk start).type = T_DIR) {c : List UInt8}
    {cs : List (List UInt8)} (notLast : np = true → cs ≠ [])
    (missing : findEntry c (dirents disk (table sb disk start)) = none) (name : List UInt8) (t : ITable) :
    Resolves sb disk np start (c :: cs) none name t := by
  cases np with
  | false => simp [Resolves, walk, dir, missing]
  | true =>
      obtain ⟨c', cs, rfl⟩ := List.exists_cons_of_ne_nil (notLast rfl)
      simp [Resolves, walkParent_cons_cons, dir, missing]

/-- Past a component the directory has, what resolves the rest from its inode
resolves the whole. -/
theorem resolves_found {np : Bool} {start : Nat} (dir : (table sb disk start).type = T_DIR) {c : List UInt8}
    {cs : List (List UInt8)} (notLast : np = true → cs ≠ []) {inum k : Nat}
    (found : findEntry c (dirents disk (table sb disk start)) = some (inum, k))
    (rest : Resolves sb disk np inum cs res name t) : Resolves sb disk np start (c :: cs) res name t := by
  cases np with
  | false =>
      simp only [Resolves, Bool.false_eq_true, if_false] at rest ⊢
      rw [rest, walk, if_pos dir, found]
  | true =>
      obtain ⟨c', cs, rfl⟩ := List.exists_cons_of_ne_nil (notLast rfl)
      simp only [Resolves, if_true] at rest ⊢
      rw [rest, walkParent_cons_cons, if_pos dir, found]

end Resolves

/-- The table once `ilock` has read slot `ip`, with its lock held. -/
def ITable.lockedAt (sb : Superblock) (disk : Disk) (t : ITable) (ip : Fin NINODE) : ITable :=
  ⟨Function.update t.inode ip (ITable.readSlot sb disk (t.inode ip)), [ip]⟩

/-- The table once the lock of slot `ip` is released and its reference put. -/
def ITable.putAt (sb : Superblock) (disk : Disk) (t : ITable) (ip : Fin NINODE) : ITable :=
  ⟨Function.update t.inode ip { ITable.readSlot sb disk (t.inode ip) with ref := (t.inode ip).ref - 1 }, []⟩

@[simp] theorem ITable.lockedAt_self (sb : Superblock) (disk : Disk) (t : ITable) (ip : Fin NINODE) :
    (t.lockedAt sb disk ip).inode ip = ITable.readSlot sb disk (t.inode ip) := by
  simp [ITable.lockedAt]

theorem ITable.lockedAt_of_ne (sb : Superblock) (disk : Disk) (t : ITable) {ip j : Fin NINODE} (ne : j ≠ ip) :
    (t.lockedAt sb disk ip).inode j = t.inode j := by
  simp [ITable.lockedAt, ne]

@[simp] theorem ITable.lockedAt_ref (sb : Superblock) (disk : Disk) (t : ITable) (ip j : Fin NINODE) :
    ((t.lockedAt sb disk ip).inode j).ref = (t.inode j).ref := by
  by_cases here : j = ip
  · subst here
    simp
  · rw [ITable.lockedAt_of_ne sb disk t here]

@[simp] theorem ITable.lockedAt_held (sb : Superblock) (disk : Disk) (t : ITable) (ip : Fin NINODE) :
    (t.lockedAt sb disk ip).held = [ip] := rfl

@[simp] theorem ITable.lockedAt_set_self (sb : Superblock) (disk : Disk) (t : ITable) (ip : Fin NINODE) :
    (t.lockedAt sb disk ip).set ip (ITable.readSlot sb disk (t.inode ip)) = t.lockedAt sb disk ip := by
  simp [ITable.lockedAt, ITable.set]

namespace WalkInv

variable {disk : Disk} {t₀ t : ITable} {ip : Fin NINODE}

theorem used (inv : WalkInv sb disk t₀ t ip) : 0 < (t.inode ip).ref := by
  have := inv.refs ip
  rw [if_pos rfl] at this
  omega

/-- `ilock` of the slot the walk holds. -/
theorem ilock_eq (inv : WalkInv sb disk t₀ t ip) : t.ilock sb disk ip = .ok (t.lockedAt sb disk ip) := by
  rw [ITable.ilock_eq t sb disk inv.used (inv.coherent.allocated ip inv.used) (inv.coherent.loaded ip inv.used),
    inv.held]
  rfl

/-- Releasing the slot the walk locked puts back its reference and frees
nothing. -/
theorem release (inv : WalkInv sb disk t₀ t ip) (fs : Fs) :
    (t.lockedAt sb disk ip).iunlockput sb fs ip = .ok (fs, t.putAt sb disk ip) := by
  have used := inv.used
  have kept : ¬((ITable.readSlot sb disk (t.inode ip)).ref = 1 ∧ (ITable.readSlot sb disk (t.inode ip)).valid = true ∧
      (ITable.readSlot sb disk (t.inode ip)).nlink = 0) := fun ⟨last, _, unlinked⟩ => by
    have fresh : (t₀.inode ip).ref = 0 := by
      have := inv.refs ip
      simp only [ITable.readSlot] at last
      rw [if_pos rfl] at this
      omega
    exact inv.linked fresh unlinked
  rw [ITable.iunlockput_eq _ sb fs (by simp [ITable.lockedAt]) (by simpa [ITable.lockedAt] using used)
    (by simpa [ITable.lockedAt] using kept)]
  simp [ITable.lockedAt, ITable.putAt, ITable.readSlot]

/-- Once the reference is put back, every count is the starting one. -/
theorem putAt_refs (inv : WalkInv sb disk t₀ t ip) (j : Fin NINODE) :
    ((t.putAt sb disk ip).inode j).ref = (t₀.inode j).ref := by
  have := inv.refs j
  by_cases here : j = ip
  · subst here
    simp only [ITable.putAt, Function.update_self]
    rw [if_pos rfl] at this
    omega
  · simp only [ITable.putAt, Function.update_of_ne here]
    rw [if_neg here] at this
    omega

theorem putAt_coherent (inv : WalkInv sb disk t₀ t ip) : (t.putAt sb disk ip).Coherent sb disk :=
  inv.coherent.update rfl fun _ =>
    ⟨by rw [ITable.readSlot_inum]; exact inv.coherent.bound ip inv.used,
      by rw [ITable.readSlot_inum]; exact inv.coherent.allocated ip inv.used,
      fun _ => by rw [ITable.readSlot_toDinode, ITable.readSlot_inum]⟩

/-- `iput` of the slot the walk holds, unlocked: every count is the starting
one. -/
theorem iput_eq (inv : WalkInv sb disk t₀ t ip) (fs : Fs) :
    t.iput sb fs ip = .ok (fs, t.set ip { t.inode ip with ref := (t.inode ip).ref - 1 }) ∧
      (∀ j, ((t.set ip { t.inode ip with ref := (t.inode ip).ref - 1 }).inode j).ref = (t₀.inode j).ref) ∧
      (t.set ip { t.inode ip with ref := (t.inode ip).ref - 1 }).Coherent sb disk := by
  have kept : ¬((t.inode ip).ref = 1 ∧ (t.inode ip).valid = true ∧ (t.inode ip).nlink = 0) :=
    fun ⟨last, valid, unlinked⟩ => by
      have fresh : (t₀.inode ip).ref = 0 := by
        have := inv.refs ip
        rw [if_pos rfl] at this
        omega
      have same := congrArg Dinode.nlink (inv.coherent.loaded ip inv.used valid)
      exact inv.linked fresh (same ▸ unlinked)
  refine ⟨ITable.iput_eq t sb fs kept, fun j => ?_, inv.coherent.drop ip t.held⟩
  have := inv.refs j
  by_cases here : j = ip
  · subst here
    rw [if_pos rfl] at this
    simp only [ITable.set_inode_self]
    omega
  · rw [if_neg here] at this
    rw [ITable.set_inode_of_ne _ _ here]
    omega

/-- A slot free at the start and not the walk's is free while the walk holds
its slot locked. -/
theorem free_slot (inv : WalkInv sb disk t₀ t ip)
    (twoFree : ∃ a b, a ≠ b ∧ (t₀.inode a).ref = 0 ∧ (t₀.inode b).ref = 0) :
    ∃ a, ((t.lockedAt sb disk ip).inode a).ref = 0 := by
  obtain ⟨a, b, differ, freeA, freeB⟩ := twoFree
  have stillFree : ∀ c, c ≠ ip → (t₀.inode c).ref = 0 → ((t.lockedAt sb disk ip).inode c).ref = 0 := fun c ne free => by
    have := inv.refs c
    rw [if_neg ne] at this
    rw [ITable.lockedAt_ref]
    omega
  by_cases here : a = ip
  · exact ⟨b, stillFree b (fun same => differ (here.trans same.symm)) freeB⟩
  · exact ⟨a, stillFree a here freeA⟩

/-- `dirlookup`'s `iget` of an entry's inode, then the put of the slot the walk
locked: the walk now holds one reference, to the entry's inode, and no lock. -/
theorem advance (inv : WalkInv sb disk t₀ t ip) (fs : Fs) {inum : Nat} (bound : inum < sb.ninodes)
    (allocated : (table sb disk inum).type ≠ 0) (linked : (table sb disk inum).nlink ≠ 0)
    (twoFree : ∃ a b, a ≠ b ∧ (t₀.inode a).ref = 0 ∧ (t₀.inode b).ref = 0) (dev : Nat) :
    ∃ next t₂ t₃, (t.lockedAt sb disk ip).iget dev inum = .ok (next, t₂) ∧
      t₂.iunlockput sb fs ip = .ok (fs, t₃) ∧ WalkInv sb disk t₀ t₃ next ∧ (t₃.inode next).inum = inum := by
  obtain ⟨a, free⟩ := inv.free_slot twoFree
  obtain ⟨next, t₂, got, gotten⟩ := ITable.iget_ok_of_free _ dev inum free
  -- the slot the walk locked has one reference more when it is the entry's too
  have refIp : (t₂.inode ip).ref = (t₀.inode ip).ref + 1 + if ip = next then 1 else 0 := by
    have := inv.refs ip
    rw [if_pos rfl] at this
    rw [gotten.ref_eq, ITable.lockedAt_ref, this]
  have kept : ¬((t₂.inode ip).ref = 1 ∧ (t₂.inode ip).valid = true ∧ (t₂.inode ip).nlink = 0) :=
    fun ⟨last, _, unlinked⟩ => by
      by_cases same : ip = next
      · rw [if_pos same] at refIp
        omega
      · rw [if_neg same] at refIp
        have untouched : t₂.inode ip = ITable.readSlot sb disk (t.inode ip) := by
          rw [gotten.others ip same, ITable.lockedAt_self]
        rw [untouched] at unlinked
        exact inv.linked (by omega) unlinked
  have mem : ip ∈ t₂.held := by
    rw [gotten.held]
    simp
  have unlocked := ITable.iunlockput_eq t₂ sb fs mem (by omega) kept
  set t₃ : ITable := ⟨Function.update t₂.inode ip { t₂.inode ip with ref := (t₂.inode ip).ref - 1 }, t₂.held.erase ip⟩
    with t₃_def
  have inumNext : (t₃.inode next).inum = inum := by
    by_cases same : next = ip
    · subst same
      simp only [t₃_def, Function.update_self]
      exact gotten.inum
    · simp only [t₃_def, Function.update_of_ne same]
      exact gotten.inum
  refine ⟨next, t₂, t₃, got, unlocked, ⟨fun j => ?_, ?_, ?_, fun _ => inumNext ▸ linked⟩, inumNext⟩
  · -- one reference moved from `ip` to `next`
    have before := inv.refs j
    have middle := gotten.ref_eq j
    rw [ITable.lockedAt_ref] at middle
    by_cases here : j = ip
    · subst here
      simp only [t₃_def, Function.update_self]
      rw [refIp]
      split <;> omega
    · simp only [t₃_def, Function.update_of_ne here]
      rw [middle, before, if_neg here]
      omega
  · simp [t₃_def, gotten.held]
  · exact ((inv.coherent.read ip [ip]).got gotten bound allocated).drop ip _

end WalkInv

/-! ## `namex` resolves the path -/

/-- The loop of `namex` from a slot the walk holds: it returns the slot it
resolves the path's components to, holding one reference, with every other
count as at the start, no lock held, the table in agreement with the disk and
the disk untouched. -/
theorem namexLoop_spec {fs : Fs} (dirs : DirsOk sb fs.disk) (linked : Linked sb fs.disk) {t₀ : ITable}
    (twoFree : ∃ a b, a ≠ b ∧ (t₀.inode a).ref = 0 ∧ (t₀.inode b).ref = 0) (np : Bool) :
    ∀ fuel path name t ip, path.length < fuel → WalkInv sb fs.disk t₀ t ip →
      ∃ res name' t', namexLoop sb np fuel path name fs t ip = .ok (res, name', fs, t') ∧
        t'.held = [] ∧ t'.Coherent sb fs.disk ∧
        (∀ j, (t'.inode j).ref = (t₀.inode j).ref + if res = some j then 1 else 0) ∧
        Resolves sb fs.disk np (t.inode ip).inum (components path) res name' t'
  | 0, _, _, _, _, short, _ => absurd short (Nat.not_lt_zero _)
  | fuel + 1, path, name, t, ip, short, inv => by
      rcases taken : skipelem path with _ | ⟨elem', rest⟩
      · -- no component left: `namei` returns the slot, `nameiparent` puts it
        have none_ := (skipelem_eq_none_iff path).mp taken
        cases np with
        | false =>
            refine ⟨some ip, name, t, by simp [namexLoop, taken], inv.held, inv.coherent, fun j => ?_, ?_⟩
            · rw [inv.refs j]
              simp [eq_comm]
            · simp [Resolves, none_, walk]
        | true =>
            obtain ⟨put, refs, coherent⟩ := inv.iput_eq fs
            refine ⟨none, name, _, by simp [namexLoop, taken, put], by simp [inv.held], coherent, fun j => ?_, ?_⟩
            · simp [refs j]
            · simp [Resolves, none_, walkParent_nil]
      · obtain ⟨elem, rfl, plain, comps, shorter, atNul⟩ := skipelem_eq_some taken
        rw [comps]
        by_cases dir : (table sb fs.disk (t.inode ip).inum).type = T_DIR
        · by_cases early : np = true ∧ components rest = []
          · -- `nameiparent` stops one level early: this directory is the parent
            obtain ⟨rfl, last⟩ := early
            have unlocked := ITable.iunlock_eq (t.lockedAt sb fs.disk ip) (i := ip) (by simp) (by simpa using inv.used)
            refine ⟨some ip, nameBuf elem, { t.lockedAt sb fs.disk ip with held := [] }, ?_, rfl,
              inv.coherent.read ip _, fun j => ?_, ?_⟩
            · have nul : rest.head?.getD 0 = 0 := by simpa using atNul.mpr last
              simp [namexLoop, taken, inv.ilock_eq, dir, nul, unlocked]
            · simp only [ITable.lockedAt_ref]
              rw [inv.refs j]
              simp [eq_comm]
            · simp [Resolves, last, walkParent_single, dir]
          · have notLast : np = true → components rest ≠ [] := fun isParent last => early ⟨isParent, last⟩
            have notEarly : ¬(np = true ∧ rest.head?.getD 0 = 0) := fun ⟨isParent, nul⟩ =>
              notLast isParent (atNul.mp (by simpa using nul))
            -- look the component up in the directory
            have isDir : IsDir sb fs.disk (t.inode ip).inum := ⟨inv.coherent.bound ip inv.used, dir⟩
            have dirOk : DirOk sb fs (ITable.readSlot sb fs.disk (t.inode ip)) := dirs.dirOk_of_slot
              (by rw [ITable.readSlot_toDinode, ITable.readSlot_inum]) (by rwa [ITable.readSlot_inum])
            have looked := @dirlookup_spec sb fs (ITable.readSlot sb fs.disk (t.inode ip)) (nameBuf elem) dirOk.dir
              dirOk.noHoles dirOk.small dirOk.whole
            rw [findEntry_congr (dirName_nameBuf plain)] at looked
            rcases found : findEntry elem (dirents fs.disk (table sb fs.disk (t.inode ip).inum)) with _ | ⟨inum, k⟩
            · refine ⟨none, nameBuf elem, t.putAt sb fs.disk ip, ?_, rfl, inv.putAt_coherent, fun j => ?_,
                resolves_missing dir notLast found _ _⟩
              · simp [namexLoop, taken, inv.ilock_eq, dir, looked, found, inv.release fs]
                exact fun isParent nul => (notEarly ⟨isParent, nul⟩).elim
              · simp [inv.putAt_refs j]
            · -- found: the walk moves to the entry's inode
              obtain ⟨de, at_, same, live, -, -⟩ := findEntry_eq_some found
              have entry := linked.entries _ isDir de (List.mem_of_getElem? at_) live
              rw [same] at entry
              obtain ⟨next, t₂, t₃, got, put, inv', inumNext⟩ :=
                inv.advance fs entry.1 entry.2.1 entry.2.2 twoFree (ITable.readSlot sb fs.disk (t.inode ip)).dev
              obtain ⟨res, name', t', loop, held', coherent', refs', resolves⟩ :=
                namexLoop_spec dirs linked twoFree np fuel rest (nameBuf elem) t₃ next (by omega) inv'
              rw [inumNext] at resolves
              refine ⟨res, name', t', ?_, held', coherent', refs', resolves_found dir notLast found resolves⟩
              simp [namexLoop, taken, inv.ilock_eq, dir, looked, found, got, put, loop]
              exact fun isParent nul => (notEarly ⟨isParent, nul⟩).elim
        · -- not a directory: the walk stops with nothing
          refine ⟨none, nameBuf elem, t.putAt sb fs.disk ip, ?_, rfl, inv.putAt_coherent, fun j => ?_,
            resolves_not_dir dir np elem _ _ _⟩
          · simp [namexLoop, taken, inv.ilock_eq, dir, inv.release fs]
          · simp [inv.putAt_refs j]


/-- The start of `namex`: from the root, which `iget` puts in a slot, or from
the working directory, which `idup` shares; either way the walk holds one
reference, to the inode the path is resolved from. -/
theorem WalkInv.start {disk : Disk} (linked : Linked sb disk) {t : ITable} (coherent : t.Coherent sb disk)
    (unheld : t.held = []) {cwd : Fin NINODE} (hasCwd : 0 < (t.inode cwd).ref) (free : ∃ a, (t.inode a).ref = 0)
    (path : List UInt8) :
    ∃ ip t₁, (if path.headD 0 = 47 then t.iget ROOTDEV ROOTINO else .ok (cwd, t.idup cwd)) = .ok (ip, t₁) ∧
      WalkInv sb disk t t₁ ip ∧ (t₁.inode ip).inum = if path.headD 0 = 47 then ROOTINO else (t.inode cwd).inum := by
  by_cases root : path.headD 0 = 47
  · obtain ⟨a, freeA⟩ := free
    obtain ⟨ip, t₁, got, gotten⟩ := ITable.iget_ok_of_free t ROOTDEV ROOTINO freeA
    refine ⟨ip, t₁, by rw [if_pos root, got], ⟨gotten.ref_eq, by rw [gotten.held, unheld], ?_, ?_⟩, ?_⟩
    · exact coherent.got gotten linked.root.1 linked.root.2.1
    · exact fun _ => gotten.inum ▸ linked.root.2.2
    · rw [if_pos root, gotten.inum]
  · -- the working directory's slot already has a reference, so putting it back frees nothing
    refine ⟨cwd, t.idup cwd, by rw [if_neg root], ⟨fun j => ?_, by simp [ITable.idup, unheld], ?_, ?_⟩, ?_⟩
    · by_cases here : j = cwd
      · subst here
        simp [ITable.idup]
      · simp [ITable.idup, ITable.set_inode_of_ne _ _ here, here]
    · exact coherent.update rfl fun _ =>
        ⟨coherent.bound cwd hasCwd, coherent.allocated cwd hasCwd, coherent.loaded cwd hasCwd⟩
    · exact fun fresh => absurd fresh (Nat.pos_iff_ne_zero.mp hasCwd)
    · rw [if_neg root]
      simp [ITable.idup]

/-- `namex` from a table that agrees with the disk, holds no lock, has a
reference to the working directory and two free slots: it returns the slot of
the inode the components resolve to from the root or the working directory,
with one more reference, every other count as it was, no lock held and the
disk untouched. -/
theorem namex_spec {fs : Fs} (dirs : DirsOk sb fs.disk) (linked : Linked sb fs.disk) {t : ITable}
    (coherent : t.Coherent sb fs.disk) (unheld : t.held = []) {cwd : Fin NINODE} (hasCwd : 0 < (t.inode cwd).ref)
    (twoFree : ∃ a b, a ≠ b ∧ (t.inode a).ref = 0 ∧ (t.inode b).ref = 0) (path name : List UInt8) (np : Bool) :
    ∃ res name' t', namex sb fs t cwd path np name = .ok (res, name', fs, t') ∧
      t'.held = [] ∧ t'.Coherent sb fs.disk ∧
      (∀ j, (t'.inode j).ref = (t.inode j).ref + if res = some j then 1 else 0) ∧
      Resolves sb fs.disk np (if path.headD 0 = 47 then ROOTINO else (t.inode cwd).inum) (components path) res name' t' := by
  have free : ∃ a, (t.inode a).ref = 0 := by
    obtain ⟨a, -, -, freeA, -⟩ := twoFree
    exact ⟨a, freeA⟩
  obtain ⟨ip, t₁, started, inv, startInum⟩ := WalkInv.start linked coherent unheld hasCwd free path
  obtain ⟨res, name', t', loop, rest⟩ :=
    namexLoop_spec dirs linked twoFree np (path.length + 1) path name t₁ ip (Nat.lt_succ_self _) inv
  rw [startInum] at rest
  refine ⟨res, name', t', ?_, rest⟩
  simp only [namex, started, loop]


/-- `namei` returns the slot of the inode `walk` reaches from the root or the
working directory, and `nameiparent` the slot of the directory `walkParent`
reaches, with the last component in its name buffer; either way that slot has
one more reference, every other count is as it was, no lock is held and the
disk is untouched. -/
theorem path_resolution {fs : Fs} (dirs : DirsOk sb fs.disk) (linked : Linked sb fs.disk) {t : ITable}
    (coherent : t.Coherent sb fs.disk) (unheld : t.held = []) {cwd : Fin NINODE} (hasCwd : 0 < (t.inode cwd).ref)
    (twoFree : ∃ a b, a ≠ b ∧ (t.inode a).ref = 0 ∧ (t.inode b).ref = 0) (path name : List UInt8) :
    (∃ res t', namei sb fs t cwd path = .ok (res, fs, t') ∧ t'.held = [] ∧
      (∀ j, (t'.inode j).ref = (t.inode j).ref + if res = some j then 1 else 0) ∧
      res.map (fun j => (t'.inode j).inum) =
        walk sb fs.disk (if path.headD 0 = 47 then ROOTINO else (t.inode cwd).inum) (components path)) ∧
    (∃ res name' t', nameiparent sb fs t cwd path name = .ok (res, name', fs, t') ∧ t'.held = [] ∧
      (∀ j, (t'.inode j).ref = (t.inode j).ref + if res = some j then 1 else 0) ∧
      res.map (fun j => ((t'.inode j).inum, name')) =
        (walkParent sb fs.disk (if path.headD 0 = 47 then ROOTINO else (t.inode cwd).inum) (components path)).map
          fun found => (found.1, nameBuf found.2)) := by
  obtain ⟨res, name', t', ran, held, -, refs, resolves⟩ :=
    namex_spec dirs linked coherent unheld hasCwd twoFree path (List.replicate DIRSIZ 0) false
  obtain ⟨res₂, name₂, t₂, ran₂, held₂, -, refs₂, resolves₂⟩ :=
    namex_spec dirs linked coherent unheld hasCwd twoFree path name true
  simp only [Resolves, Bool.false_eq_true, if_false, if_true] at resolves resolves₂
  exact ⟨⟨res, t', by rw [namei, ran]; rfl, held, refs, resolves⟩, ⟨res₂, name₂, t₂, ran₂, held₂, refs₂, resolves₂⟩⟩

/-- On the image whose only directory is the empty root, inode 1, every
directory is the root. -/
theorem emptyDir_isDir {dir : Nat} (isDir : IsDir bootSb emptyDirDisk dir) : dir = 1 := by
  obtain ⟨below, dirType⟩ := isDir
  have small : dir < 2 := below
  interval_cases dir
  · exact absurd dirType (by decide)
  · rfl

theorem emptyDir_dirents : dirents emptyDirDisk (table bootSb emptyDirDisk 1) = [] := by
  decide

theorem emptyDir_dirsOk : DirsOk bootSb emptyDirDisk := by
  refine ⟨emptyDir_ok.owned, fun dir isDir => ?_, fun dir isDir => ?_, fun dir isDir => ?_, fun dir isDir => ?_⟩ <;>
    rw [emptyDir_isDir isDir]
  · exact emptyDir_ok.noHoles
  · exact emptyDir_ok.small
  · exact emptyDir_ok.whole
  · rw [emptyDir_dirents]
    exact unique_nil

theorem emptyDir_linked : Linked bootSb emptyDirDisk := by
  refine ⟨by decide, fun dir isDir de mem _ => ?_⟩
  rw [emptyDir_isDir isDir, emptyDir_dirents] at mem
  cases mem

/-- The table of a process whose working directory is the root: slot 0 holds
the root with one reference, not yet read, and no other slot is used. -/
def rootTable : ITable := ⟨fun i => if i.val = 0 then iget ROOTINO 1 else iget 0 0, []⟩

theorem rootTable_coherent : rootTable.Coherent bootSb emptyDirDisk := by
  have unread : ∀ i, (rootTable.inode i).valid = false := fun i => by
    simp only [rootTable]
    split <;> rfl
  exact ⟨by decide, by decide, fun i _ valid => absurd valid (by rw [unread i]; decide)⟩

/-- From the root of the empty image, "/a" names nothing, and its parent is the
root with "a" in the name buffer. -/
theorem path_resolution_root :
    DirsOk bootSb emptyDirDisk ∧ Linked bootSb emptyDirDisk ∧ rootTable.Coherent bootSb emptyDirDisk ∧
      (∃ res t', namei bootSb ⟨emptyDirDisk, []⟩ rootTable 0 [47, 97] = .ok (res, ⟨emptyDirDisk, []⟩, t') ∧
        res = none ∧ t'.held = []) ∧
      (∃ res name' t', nameiparent bootSb ⟨emptyDirDisk, []⟩ rootTable 0 [47, 97] (List.replicate DIRSIZ 0) =
        .ok (res, name', ⟨emptyDirDisk, []⟩, t') ∧ res.map (fun j => (t'.inode j).inum) = some ROOTINO ∧
        name' = [97, 0] ∧ t'.held = []) := by
  obtain ⟨⟨res, t', ran, held, -, walked⟩, ⟨res₂, name₂, t₂, ran₂, held₂, -, parent⟩⟩ :=
    @path_resolution bootSb ⟨emptyDirDisk, []⟩ emptyDir_dirsOk emptyDir_linked rootTable rootTable_coherent rfl 0
      (by decide) ⟨1, 2, by decide, by decide, by decide⟩ [47, 97] (List.replicate DIRSIZ 0)
  have missing : walk bootSb emptyDirDisk ROOTINO (components [47, 97]) = none := by decide
  have found : walkParent bootSb emptyDirDisk ROOTINO (components [47, 97]) = some (ROOTINO, [97]) := by decide
  simp only [show ([47, 97] : List UInt8).headD 0 = 47 from rfl, if_true, missing, found] at walked parent
  obtain ⟨j, rfl, inumJ⟩ := Option.map_eq_some_iff.mp parent
  simp only [Prod.mk.injEq] at inumJ
  refine ⟨emptyDir_dirsOk, emptyDir_linked, rootTable_coherent, ⟨res, t', ran, Option.map_eq_none_iff.mp walked, held⟩,
    ⟨some j, name₂, t₂, ran₂, by simp [inumJ.1], inumJ.2.trans (by decide), held₂⟩⟩

/-! ## One free slot is not enough

`namex` holds two inodes at once when it `iget`s a component: the directory
it looks in and what it finds there.  With the root cached for the working
directory and one slot free, the free slot goes to `a` and `b` finds none. -/

/-- An image with the directory `a` in the root and the file `b` in `a`:
four inode blocks from block 3, the bitmap at 7, and the two directories'
entries at 8 and 9. -/
def treeSb : Superblock :=
  { magic := 0x10203040, size := 10, nblocks := 2, ninodes := 64, nlog := 1, logstart := 2, inodestart := 3,
    bmapstart := 7 }

/-- Its inodes: the root 1 and `a` 2 are directories of one entry each, in
blocks 8 and 9; `b` 3 and every inode above it is an empty file. -/
def treeInode (inum : Nat) : Dinode :=
  if inum = 0 then { type := 0, major := 0, minor := 0, nlink := 0, size := 0, addrs := fun _ => 0 }
  else if inum ≤ 2 then
    { type := T_DIR, major := 0, minor := 0, nlink := 1, size := 16, addrs := fun k => if k.val = 0 then inum + 7 else 0 }
  else { type := T_FILE, major := 0, minor := 0, nlink := 1, size := 0, addrs := fun _ => 0 }

/-- The image: every block from 0 to 9 is in use. -/
def treeDisk : Disk := fun b =>
  if 3 ≤ b ∧ b < 7 then fun k => (treeInode ((b - 3) * IPB + k.val / DINODESIZE)).write Block.zero 0 (k.modn DINODESIZE)
  else if b = 7 then fun i => if i.val = 0 then 255 else if i.val = 1 then 3 else 0
  else if b = 8 then fun k => (direntBytes 2 [97]).getD k.val 0
  else if b = 9 then fun k => (direntBytes 3 [98]).getD k.val 0
  else Block.zero

theorem treeSb_valid : treeSb.Valid := ⟨by decide, by decide, by decide, by decide, by decide⟩

/-- The root holds block 8, `a` block 9, and no other inode a block. -/
theorem tree_holds : ∀ i, i < treeSb.ninodes →
    holds treeDisk (table treeSb treeDisk i) = if i = 1 then [8] else if i = 2 then [9] else [] := by
  decide

theorem tree_refd (b : Nat) : Refd treeSb treeDisk (table treeSb treeDisk) b ↔ b = 8 ∨ b = 9 := by
  constructor
  · rintro ⟨i, bound, mem⟩
    rw [tree_holds i bound] at mem
    split_ifs at mem <;> simp_all
  · rintro (rfl | rfl)
    · exact ⟨1, by decide, by rw [tree_holds 1 (by decide)]; decide⟩
    · exact ⟨2, by decide, by rw [tree_holds 2 (by decide)]; decide⟩

theorem tree_owned : Owned treeSb treeDisk (table treeSb treeDisk) where
  nodup i bound := by
    rw [tree_holds i bound]
    split_ifs <;> decide
  disjoint i j hi hj apart b mem mem' := by
    rw [tree_holds i hi] at mem
    rw [tree_holds j hj] at mem'
    split_ifs at mem mem' <;> simp_all
  inData i bound b mem := by
    rw [tree_holds i bound] at mem
    split_ifs at mem <;> simp_all <;> decide
  bitmap b bound := by
    change b < 10 at bound
    rw [tree_refd]
    have set : used treeSb treeDisk b = true := by
      interval_cases b <;> decide
    simp only [set, true_iff]
    change b < 8 ∨ b = 8 ∨ b = 9
    omega
  freed := by decide

/-- The directories are the root and `a`. -/
theorem tree_isDir {dir : Nat} (isDir : IsDir treeSb treeDisk dir) : dir = 1 ∨ dir = 2 := by
  obtain ⟨bound, dirType⟩ := isDir
  have dirs : ∀ i, i < treeSb.ninodes → (table treeSb treeDisk i).type = T_DIR → i = 1 ∨ i = 2 := by decide
  exact dirs dir bound dirType

theorem tree_dirents : dirents treeDisk (table treeSb treeDisk 1) = [⟨2, strncpy [97] DIRSIZ⟩] ∧
    dirents treeDisk (table treeSb treeDisk 2) = [⟨3, strncpy [98] DIRSIZ⟩] := by
  decide

theorem unique_singleton (de : Dirent) : Unique [de] := by
  intro i j a b apart at_i at_j _ _
  have first : i = 0 := by
    by_contra nonzero
    rw [List.getElem?_eq_none (by simp only [List.length_singleton]; omega)] at at_i
    cases at_i
  have second : j = 0 := by
    by_contra nonzero
    rw [List.getElem?_eq_none (by simp only [List.length_singleton]; omega)] at at_j
    cases at_j
  exact absurd (first.trans second.symm) apart

theorem tree_dirsOk : DirsOk treeSb treeDisk where
  owned := tree_owned
  noHoles dir isDir bn below := by
    -- both directories are one block long, held at index 0
    have size : (table treeSb treeDisk dir).size = 16 := by rcases tree_isDir isDir with rfl | rfl <;> decide
    rw [size] at below
    obtain rfl : bn = 0 := by unfold BSIZE at below; omega
    rcases tree_isDir isDir with rfl | rfl <;> decide
  small dir isDir := by rcases tree_isDir isDir with rfl | rfl <;> decide
  whole dir isDir := by rcases tree_isDir isDir with rfl | rfl <;> decide
  unique dir isDir := by
    rcases tree_isDir isDir with rfl | rfl
    · rw [tree_dirents.1]
      exact unique_singleton _
    · rw [tree_dirents.2]
      exact unique_singleton _

theorem tree_linked : Linked treeSb treeDisk := by
  refine ⟨by decide, fun dir isDir de mem _ => ?_⟩
  rcases tree_isDir isDir with rfl | rfl
  · rw [tree_dirents.1, List.mem_singleton] at mem
    subst mem
    decide
  · rw [tree_dirents.2, List.mem_singleton] at mem
    subst mem
    decide

/-- The table of a process whose working directory is the root, cached in
slot 0; slot 1 is free, and each other slot holds a reference to one of the
files 4 to 51, as open files keep them. -/
def oneFreeTable : ITable :=
  ⟨fun i => if i.val = 0 then iget ROOTINO 1 else if i.val = 1 then iget 0 0 else iget (i.val + 2) 1, []⟩

theorem oneFreeTable_coherent : oneFreeTable.Coherent treeSb treeDisk := by
  have unread : ∀ i, (oneFreeTable.inode i).valid = false := fun i => by
    simp only [oneFreeTable]
    split_ifs <;> rfl
  exact ⟨by decide, by decide, fun i _ valid => absurd valid (by rw [unread i]; decide)⟩

/-- With the root cached and only one free slot, `namei("/a/b")` panics in
`iget`: the root is found in its slot, `a` takes the free one, and `b`,
looked up while `a` is still held, finds none. -/
theorem namei_one_free_slot :
    treeSb.Valid ∧ DirsOk treeSb treeDisk ∧ Linked treeSb treeDisk ∧ oneFreeTable.Coherent treeSb treeDisk ∧
      oneFreeTable.held = [] ∧ 0 < (oneFreeTable.inode 0).ref ∧ (∀ i, (oneFreeTable.inode i).ref = 0 ↔ i = 1) ∧
      namei treeSb ⟨treeDisk, []⟩ oneFreeTable 0 [47, 97, 47, 98] = .error "iget: no inodes" := by
  refine ⟨treeSb_valid, tree_dirsOk, tree_linked, oneFreeTable_coherent, rfl, by decide, by decide, ?_⟩
  -- the walk reads three inodes and two directories: evaluate it in the kernel, through its message
  have panicked : (match namei treeSb ⟨treeDisk, []⟩ oneFreeTable 0 [47, 97, 47, 98] with
      | .error e => e | .ok _ => "") = "iget: no inodes" := by
    decide +kernel
  split at panicked
  · rename_i e ran
    rw [ran, panicked]
  · exact absurd panicked (by decide)

end Xv6
