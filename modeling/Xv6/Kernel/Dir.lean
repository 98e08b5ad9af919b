/-
# Kernel.Dir -- directories: `namecmp`, `dirlookup`, `dirlink`

A directory's content is a sequence of 16-byte `struct dirent`s: a `ushort`
inode number, 0 for a free entry, and a name of `DIRSIZ` bytes that need not
end in a NUL.  `dirlookup` reads the entries one by one with `readi` into a
local and returns the first live one whose name `namecmp` finds equal;
`dirlink` refuses a name `dirlookup` finds, and otherwise writes the entry
with `writei` into the first free one or past the end.  `sys_unlink` removes
an entry by writing zeros over it.

`dirents` reads a directory's content as its list of entries, and
`findEntry` is what `dirlookup` is for: the first live entry with the name.
Names compare as `dirName`, the bytes before the first NUL cut to `DIRSIZ`
(`namecmp_eq_zero`).  `DirOk` is a directory as the calls find it: without
holes, inside the largest file and a whole number of entries long, in a table
the block invariant holds of.  Over it `dirlookup` returns `findEntry` of the
entries (`dirlookup_spec`); `writeEntry_spec` is the one fact about a 16-byte
`writei` at an entry that `dirlink` and `sys_unlink` share, stated with
`placeEntry`, the entries with one put at an index.

`Unique` says no two live entries have one name.  `DirsOk` asks it, with
`DirOk`, of every directory of the table, and `DirsOk.step` shows that each
call keeps it: a run of calls (`dirStep`) never panics and never leaves a
directory with a repeated name.  A hole breaks the first of these:
`dirlookup_hole_panics`.
-/
import Xv6.Kernel.FileSystem
import Xv6.Kernel.WriteContent
import Xv6.Mkfs.Image

namespace Xv6

open Bytes Mkfs

set_option autoImplicit false

/-! ## string.c -/

/-- `strncmp(p, q, n)` over C strings held as their bytes: a byte past the
end of the list reads as the NUL. -/
def strncmp : List UInt8 → List UInt8 → Nat → Int
  | _, _, 0 => 0
  | p, q, n + 1 =>
      if p.headD 0 ≠ 0 ∧ p.headD 0 = q.headD 0 then strncmp p.tail q.tail n
      else ((p.headD 0).toNat : Int) - (q.headD 0).toNat

/-- `strncpy(s, t, n)` into an `n`-byte buffer: the bytes of `t` before its
NUL, at most `n`, then zeros up to `n`. -/
def strncpy (t : List UInt8) (n : Nat) : List UInt8 :=
  let copied := (t.takeWhile (· ≠ 0)).take n
  copied ++ List.replicate (n - copied.length) 0

/-! ## fs.c: directories -/

/-- `namecmp`: `strncmp` on `DIRSIZ` bytes. -/
def namecmp (s t : List UInt8) : Int := strncmp s t DIRSIZ

/-- A `struct dirent`: the inode number and the `DIRSIZ` bytes of the name. -/
structure Dirent where
  inum : Nat
  name : List UInt8
  deriving DecidableEq, Repr

/-- The entry the 16 bytes `bs` hold. -/
def Dirent.ofBytes (bs : List UInt8) : Dirent :=
  { inum := (bs.getD 0 0).toNat + 256 * (bs.getD 1 0).toNat, name := (bs.drop 2).take DIRSIZ }

/-- The 16 bytes of the entry `dirlink` fills in: `strncpy(de.name, name,
DIRSIZ); de.inum = inum`. -/
def direntBytes (inum : Nat) (name : List UInt8) : List UInt8 :=
  [(inum % 256).toUInt8, (inum / 256 % 256).toUInt8] ++ strncpy name DIRSIZ

/-- Kernel memory with `bs` in the local `de` at address 0. -/
def localMem (bs : List UInt8) : Mem := { zeroMem with kmem := storeBytes zeroMem.kmem 0 bs }

/-- `readi(dp, 0, (uint64)&de, off, sizeof(de))`: the count read, and the 16
bytes of the local `de` after it. -/
def readEntry (sb : Superblock) (fs : Fs) (dp : Inode) (off : Nat) : Except String (Int × List UInt8 × Fs × Inode) :=
  match readi sb fs dp zeroMem false 0 (UInt32.ofNat off) 16 with
  | .error e => .error e
  | .ok (r, fs, dp, m) => .ok (r, loadBytes m.kmem 0 16, fs, dp)

/-- The loop of `dirlookup` from offset `off`: the inode number and offset of
the first live entry named `name`. -/
def lookupLoop (sb : Superblock) (name : List UInt8) :
    (fuel off : Nat) → Fs → Inode → Except String (Option (Nat × Nat) × Fs × Inode)
  | 0, _, fs, dp => .ok (none, fs, dp)
  | fuel + 1, off, fs, dp =>
      if off < dp.size then
        match readEntry sb fs dp off with
        | .error e => .error e
        | .ok (r, bytes, fs, dp) =>
            if r ≠ 16 then .error "dirlookup read"
            else
              let de := Dirent.ofBytes bytes
              if de.inum = 0 then lookupLoop sb name fuel (off + 16) fs dp
              else if namecmp name de.name = 0 then .ok (some (de.inum, off), fs, dp)
              else lookupLoop sb name fuel (off + 16) fs dp
      else .ok (none, fs, dp)

/-- `dirlookup(dp, name, &off)`: the inode number and offset of the first live
entry named `name`, or `none` for 0; the `iget` of the number is the
caller's.  The loop reads at most `size / 16 + 1` entries. -/
def dirlookup (sb : Superblock) (fs : Fs) (dp : Inode) (name : List UInt8) :
    Except String (Option (Nat × Nat) × Fs × Inode) :=
  if dp.type ≠ T_DIR then .error "dirlookup not DIR"
  else lookupLoop sb name (dp.size / 16 + 1) 0 fs dp

/-- `dirlink`'s scan for a free entry from offset `off`: the offset of the
first entry with inode 0, or where the loop leaves off past the end. -/
def emptyLoop (sb : Superblock) : (fuel off : Nat) → Fs → Inode → Except String (Nat × Fs × Inode)
  | 0, off, fs, dp => .ok (off, fs, dp)
  | fuel + 1, off, fs, dp =>
      if off < dp.size then
        match readEntry sb fs dp off with
        | .error e => .error e
        | .ok (r, bytes, fs, dp) =>
            if r ≠ 16 then .error "dirlink read"
            else if (Dirent.ofBytes bytes).inum = 0 then .ok (off, fs, dp)
            else emptyLoop sb fuel (off + 16) fs dp
      else .ok (off, fs, dp)

/-- `dirlink(dp, name, inum)`: -1 when `dirlookup` finds the name (its
`iget` is put back at once), else the entry written at the first free slot or
past the end; -1 when `writei` falls short. -/
def dirlink (sb : Superblock) (fs : Fs) (dp : Inode) (name : List UInt8) (inum : Nat) :
    Except String (Int × Fs × Inode) :=
  match dirlookup sb fs dp name with
  | .error e => .error e
  | .ok (some _, fs, dp) => .ok (-1, fs, dp)
  | .ok (none, fs, dp) =>
      match emptyLoop sb (dp.size / 16 + 1) 0 fs dp with
      | .error e => .error e
      | .ok (off, fs, dp) =>
          match writei sb fs dp (localMem (direntBytes inum name)) false 0 (UInt32.ofNat off) 16 with
          | .error e => .error e
          | .ok (r, fs, dp) => .ok (if r ≠ 16 then -1 else 0, fs, dp)

/-- `sys_unlink`'s removal of the entry at `off`: `memset(&de, 0,
sizeof(de))` and a `writei` of it, which must write all 16 bytes. -/
def unlinkEntry (sb : Superblock) (fs : Fs) (dp : Inode) (off : Nat) : Except String (Fs × Inode) :=
  match writei sb fs dp (localMem (List.replicate 16 0)) false 0 (UInt32.ofNat off) 16 with
  | .error e => .error e
  | .ok (r, fs, dp) => if r ≠ 16 then .error "unlink: writei" else .ok (fs, dp)

/-! ## What a directory holds -/

/-- The name a C string stands for under `namecmp`: its bytes before the
first NUL, at most `DIRSIZ` of them. -/
def dirName (s : List UInt8) : List UInt8 := (s.takeWhile (· ≠ 0)).take DIRSIZ

/-- A directory's entries: its content read 16 bytes at a time. -/
def dirents (disk : Disk) (d : Dinode) : List Dirent :=
  (List.range (d.size / 16)).map fun k => Dirent.ofBytes (fileBytes disk d (16 * k) 16)

/-- The first live entry named `name`: its inode number and its index. -/
def findEntry (name : List UInt8) : List Dirent → Option (Nat × Nat)
  | [] => none
  | de :: es =>
      if de.inum ≠ 0 ∧ namecmp name de.name = 0 then some (de.inum, 0)
      else (findEntry name es).map fun found => (found.1, found.2 + 1)

/-! ## Names -/

/-- The first `n + 1` bytes before the NUL: none when the first byte is the NUL. -/
theorem take_succ_takeWhile (p : List UInt8) (n : Nat) :
    (p.takeWhile (· ≠ 0)).take (n + 1) =
      if p.headD 0 = 0 then [] else p.headD 0 :: (p.tail.takeWhile (· ≠ 0)).take n := by
  cases p with
  | nil => simp
  | cons a p =>
      by_cases zero : a = 0
      · simp [zero]
      · simp [zero]

/-- `strncmp` is 0 exactly when the two strings agree, up to their NULs, on
their first `n` bytes. -/
theorem strncmp_eq_zero : ∀ (p q : List UInt8) (n : Nat),
    strncmp p q n = 0 ↔ (p.takeWhile (· ≠ 0)).take n = (q.takeWhile (· ≠ 0)).take n
  | _, _, 0 => by simp [strncmp]
  | p, q, n + 1 => by
      rw [strncmp, take_succ_takeWhile, take_succ_takeWhile]
      by_cases same : p.headD 0 ≠ 0 ∧ p.headD 0 = q.headD 0
      · obtain ⟨nonzero, eq⟩ := same
        rw [if_pos ⟨nonzero, eq⟩, if_neg nonzero, if_neg (eq ▸ nonzero), strncmp_eq_zero p.tail q.tail n, eq,
          List.cons.injEq]
        simp
      · rw [if_neg same]
        -- the first bytes differ, or both are the NUL
        have apart : ((p.headD 0).toNat : Int) - (q.headD 0).toNat = 0 ↔ p.headD 0 = q.headD 0 := by
          rw [← UInt8.toNat_inj]
          omega
        rw [apart]
        rcases Decidable.em (p.headD 0 = 0) with zeroP | zeroP <;>
          rcases Decidable.em (q.headD 0 = 0) with zeroQ | zeroQ
        · rw [if_pos zeroP, if_pos zeroQ, zeroP, zeroQ]
          exact ⟨fun _ => rfl, fun _ => rfl⟩
        · rw [if_pos zeroP, if_neg zeroQ, zeroP]
          exact ⟨fun eq => absurd eq.symm zeroQ, nofun⟩
        · rw [if_neg zeroP, if_pos zeroQ, zeroQ]
          exact ⟨fun eq => absurd eq zeroP, nofun⟩
        · rw [if_neg zeroP, if_neg zeroQ]
          exact ⟨fun eq => absurd ⟨zeroP, eq⟩ same, fun eq => absurd ⟨zeroP, (List.cons.inj eq).1⟩ same⟩

/-- `namecmp` finds two names equal exactly when they name the same entry. -/
theorem namecmp_eq_zero (s t : List UInt8) : namecmp s t = 0 ↔ dirName s = dirName t :=
  strncmp_eq_zero s t DIRSIZ

/-! ## `dirlookup` finds the first live entry with the name -/

/-- Bytes stored at `a` read back from `a`. -/
theorem loadBytes_storeBytes_self (f : Nat → UInt8) (a : Nat) (bs : List UInt8) :
    loadBytes (storeBytes f a bs) a bs.length = bs := by
  apply List.ext_getElem (by simp)
  intro i below _
  simp only [length_loadBytes] at below
  simp [loadBytes, storeBytes, below]

theorem dirents_length (disk : Disk) (d : Dinode) : (dirents disk d).length = d.size / 16 := by
  simp [dirents]

/-- Entry `j` is the 16 bytes at `16 * j`, when the size has room for it. -/
theorem getElem?_dirents (disk : Disk) (d : Dinode) (j : Nat) :
    (dirents disk d)[j]? = if j < d.size / 16 then some (Dirent.ofBytes (fileBytes disk d (16 * j) 16)) else none := by
  split
  · rename_i inside
    simp [dirents, inside]
  · rename_i past
    exact List.getElem?_eq_none (by rw [dirents_length]; omega)

/-- The entries from index `k` on, when there is one at `k`: that entry, then the rest. -/
theorem dirents_drop (disk : Disk) (d : Dinode) {k : Nat} (below : k < d.size / 16) :
    (dirents disk d).drop k = Dirent.ofBytes (fileBytes disk d (16 * k) 16) :: (dirents disk d).drop (k + 1) := by
  rw [List.drop_eq_getElem_cons (by rw [dirents_length]; exact below)]
  simp [dirents]

variable {sb : Superblock}

/-- Reading a whole entry of a directory without holes gives the 16 bytes of
its content and changes nothing. -/
theorem readEntry_of_noHoles {fs : Fs} {dp : Inode} (noHoles : NoHoles fs.disk dp.toDinode)
    (small : dp.size ≤ MAXFILE * BSIZE) {off : Nat} (inside : off + 16 ≤ dp.size) :
    readEntry sb fs dp off = .ok (16, fileBytes fs.disk dp.toDinode off 16, fs, dp) := by
  have bound : dp.size < 2 ^ 32 := by
    rw [MAXFILE_eq, BSIZE_eq] at small
    omega
  have offNat : (UInt32.ofNat off).toNat = off := UInt32.toNat_ofNat_of_lt (by unfold UInt32.size; omega)
  have sixteen : (16 : UInt32).toNat = 16 := rfl
  obtain ⟨r, m', read, result, full⟩ := @readi_of_noHoles sb fs dp zeroMem false 0 (UInt32.ofNat off) 16
    noHoles small (by omega) (by omega)
  -- the whole entry is inside the file, so all 16 bytes are read
  have whole : min ((UInt32.ofNat off).toNat + (16 : UInt32).toNat) dp.size - (UInt32.ofNat off).toNat = 16 := by
    rw [offNat, sixteen]
    omega
  rw [whole, offNat] at result
  rw [whole] at full
  have counted : r = 16 := full nofun
  rcases result with ⟨-, stored⟩ | failed
  · subst stored counted
    have loaded : loadBytes (zeroMem.store false 0 (fileBytes fs.disk dp.toDinode off 16)).kmem 0 16 =
        fileBytes fs.disk dp.toDinode off 16 := by
      have length : (fileBytes fs.disk dp.toDinode off 16).length = 16 := by simp [fileBytes]
      conv => lhs; rw [← length]
      exact loadBytes_storeBytes_self _ 0 _
    simp only [readEntry, read, loaded]
  · rw [failed] at counted
    omega

/-- The loop of `dirlookup` from entry `k` of a directory without holes whose
size is a whole number of entries: the first live entry from `k` on with the
name, and nothing changed. -/
theorem lookupLoop_spec {fs : Fs} {dp : Inode} (name : List UInt8) (noHoles : NoHoles fs.disk dp.toDinode)
    (small : dp.size ≤ MAXFILE * BSIZE) (whole : dp.size % 16 = 0) :
    ∀ fuel k, dp.size / 16 - k < fuel →
      lookupLoop sb name fuel (16 * k) fs dp =
        .ok ((findEntry name ((dirents fs.disk dp.toDinode).drop k)).map fun found => (found.1, 16 * (k + found.2)),
          fs, dp)
  | 0, _, enough => absurd enough (Nat.not_lt_zero _)
  | fuel + 1, k, enough => by
      by_cases more : k < dp.size / 16
      · have read := @readEntry_of_noHoles sb fs dp noHoles small (16 * k) (by omega)
        rw [lookupLoop, if_pos (by omega), read, dirents_drop _ _ more]
        simp only [ne_eq, not_true_eq_false, if_false]
        -- the entry at `k`: skipped when free or named otherwise, else found
        have next := lookupLoop_spec name noHoles small whole fuel (k + 1) (by omega)
        rw [show 16 * (k + 1) = 16 * k + 16 by omega] at next
        have shifted : ((findEntry name ((dirents fs.disk dp.toDinode).drop (k + 1))).map
            fun found => (found.1, found.2 + 1)).map (fun found => (found.1, 16 * (k + found.2))) =
            (findEntry name ((dirents fs.disk dp.toDinode).drop (k + 1))).map
              fun found => (found.1, 16 * (k + 1 + found.2)) := by
          rw [Option.map_map]
          congr 1
          funext found
          simp only [Function.comp, Prod.mk.injEq, true_and]
          omega
        by_cases free : (Dirent.ofBytes (fileBytes fs.disk dp.toDinode (16 * k) 16)).inum = 0
        · rw [if_pos free, next, findEntry, if_neg (fun live => live.1 free), shifted]
        · rw [if_neg free]
          by_cases named : namecmp name (Dirent.ofBytes (fileBytes fs.disk dp.toDinode (16 * k) 16)).name = 0
          · rw [if_pos named, findEntry, if_pos ⟨free, named⟩]
            simp
          · rw [if_neg named, next, findEntry, if_neg (fun live => named live.2), shifted]
      · have past : (dirents fs.disk dp.toDinode).drop k = [] := List.drop_eq_nil_of_le (by rw [dirents_length]; omega)
        rw [lookupLoop, if_neg (by omega), past]
        rfl

/-- `dirlookup` on a directory without holes whose size is a whole number of
entries: the inode number and offset of the first live entry with the name,
and nothing changed. -/
theorem dirlookup_spec {fs : Fs} {dp : Inode} (name : List UInt8) (dir : dp.type = T_DIR)
    (noHoles : NoHoles fs.disk dp.toDinode) (small : dp.size ≤ MAXFILE * BSIZE) (whole : dp.size % 16 = 0) :
    dirlookup sb fs dp name =
      .ok ((findEntry name (dirents fs.disk dp.toDinode)).map fun found => (found.1, 16 * found.2), fs, dp) := by
  have loop := @lookupLoop_spec sb fs dp name noHoles small whole (dp.size / 16 + 1) 0 (by omega)
  simp only [Nat.mul_zero, List.drop_zero, Nat.zero_add] at loop
  rw [dirlookup, if_neg (by rw [dir]; exact not_not.mpr rfl), loop]

/-- `dirlink`'s scan from entry `k` of a directory without holes whose size is
a whole number of entries: the offset of the first free entry from `k` on, or
the size, and nothing changed. -/
theorem emptyLoop_spec {fs : Fs} {dp : Inode} (noHoles : NoHoles fs.disk dp.toDinode)
    (small : dp.size ≤ MAXFILE * BSIZE) (whole : dp.size % 16 = 0) :
    ∀ fuel k, dp.size / 16 - k < fuel → k ≤ dp.size / 16 →
      emptyLoop sb fuel (16 * k) fs dp =
        .ok (16 * (k + ((dirents fs.disk dp.toDinode).drop k).findIdx fun de => de.inum = 0), fs, dp)
  | 0, _, enough, _ => absurd enough (Nat.not_lt_zero _)
  | fuel + 1, k, enough, atMost => by
      by_cases more : k < dp.size / 16
      · have read := @readEntry_of_noHoles sb fs dp noHoles small (16 * k) (by omega)
        rw [emptyLoop, if_pos (by omega), read, dirents_drop _ _ more, List.findIdx_cons]
        simp only [ne_eq, not_true_eq_false, if_false]
        by_cases free : (Dirent.ofBytes (fileBytes fs.disk dp.toDinode (16 * k) 16)).inum = 0
        · simp [free]
        · have next := emptyLoop_spec noHoles small whole fuel (k + 1) (by omega) (by omega)
          rw [show 16 * (k + 1) = 16 * k + 16 by omega] at next
          simp only [free, if_false, decide_false, cond_false, next]
          congr 3
          omega
      · have past : (dirents fs.disk dp.toDinode).drop k = [] := List.drop_eq_nil_of_le (by rw [dirents_length]; omega)
        rw [emptyLoop, if_neg (by omega), past]
        simp

/-! ## The entry `dirlink` writes -/

/-- `strncpy` keeps the name `namecmp` sees. -/
theorem dirName_strncpy (name : List UInt8) : dirName (strncpy name DIRSIZ) = dirName name := by
  unfold dirName strncpy
  have noNul : ∀ a ∈ ((name.takeWhile (· ≠ 0)).take DIRSIZ), decide (a ≠ 0) = true := fun a mem => by
    have := List.mem_takeWhile_imp (List.mem_of_mem_take mem)
    simpa using this
  have pad : ((List.replicate (DIRSIZ - ((name.takeWhile (· ≠ 0)).take DIRSIZ).length) (0 : UInt8)).takeWhile
      (· ≠ 0)) = [] := by
    cases DIRSIZ - ((name.takeWhile (· ≠ 0)).take DIRSIZ).length with
    | zero => rfl
    | succ k => simp [List.replicate_succ]
  rw [List.takeWhile_append_of_pos noNul, pad, List.append_nil, List.take_take, Nat.min_self]

theorem length_strncpy (name : List UInt8) (n : Nat) : (strncpy name n).length = n := by
  simp only [strncpy, List.length_append, List.length_replicate, List.length_take]
  omega

/-- The entry `dirlink` writes reads back as its inode number, cut to a
`ushort`, and the name as `strncpy` left it. -/
theorem ofBytes_direntBytes (inum : Nat) (name : List UInt8) :
    Dirent.ofBytes (direntBytes inum name) = ⟨inum % 65536, strncpy name DIRSIZ⟩ := by
  have length := length_strncpy name DIRSIZ
  simp only [Dirent.ofBytes, direntBytes, Dirent.mk.injEq]
  refine ⟨?_, ?_⟩
  · simp only [List.getD_eq_getElem?_getD, List.cons_append, List.getElem?_cons_zero, Option.getD_some,
      List.getElem?_cons_succ]
    simp [Nat.toUInt8]
    omega
  · simp [List.take_of_length_le (le_of_eq length)]

/-- The zeros `sys_unlink` writes read back as a free entry. -/
theorem ofBytes_zeros : Dirent.ofBytes (List.replicate 16 0) = ⟨0, List.replicate DIRSIZ 0⟩ := by
  decide

theorem length_direntBytes (inum : Nat) (name : List UInt8) : (direntBytes inum name).length = 16 := by
  simp [direntBytes, length_strncpy, DIRSIZ]

/-! ## The map the entries stand for -/

/-- `findEntry` finds nothing exactly when no live entry has the name. -/
theorem findEntry_eq_none {name : List UInt8} :
    ∀ {es : List Dirent}, findEntry name es = none ↔ ∀ de ∈ es, de.inum ≠ 0 → dirName de.name ≠ dirName name
  | [] => by simp [findEntry]
  | de :: es => by
      rw [findEntry, List.forall_mem_cons]
      by_cases hit : de.inum ≠ 0 ∧ namecmp name de.name = 0
      · have named := (namecmp_eq_zero _ _).mp hit.2
        rw [if_pos hit]
        exact iff_of_false (by simp) fun both => both.1 hit.1 named.symm
      · have first : de.inum ≠ 0 → dirName de.name ≠ dirName name := fun live same =>
          hit ⟨live, (namecmp_eq_zero _ _).mpr same.symm⟩
        rw [if_neg hit, Option.map_eq_none_iff, findEntry_eq_none]
        exact ⟨fun rest => ⟨first, rest⟩, fun both => both.2⟩

/-- What `findEntry` finds is the first live entry with the name: its inode
number and index. -/
theorem findEntry_eq_some {name : List UInt8} :
    ∀ {es : List Dirent} {i k : Nat}, findEntry name es = some (i, k) →
      ∃ de, es[k]? = some de ∧ de.inum = i ∧ de.inum ≠ 0 ∧ dirName de.name = dirName name ∧
        ∀ j de', j < k → es[j]? = some de' → de'.inum ≠ 0 → dirName de'.name ≠ dirName name
  | [], _, _, found => by simp [findEntry] at found
  | de :: es, i, k, found => by
      rw [findEntry] at found
      by_cases hit : de.inum ≠ 0 ∧ namecmp name de.name = 0
      · rw [if_pos hit, Option.some_inj, Prod.mk.injEq] at found
        obtain ⟨rfl, rfl⟩ := found
        rw [namecmp_eq_zero] at hit
        exact ⟨de, rfl, rfl, hit.1, hit.2.symm, fun j _ below => absurd below (Nat.not_lt_zero j)⟩
      · rw [if_neg hit] at found
        obtain ⟨⟨i', k'⟩, rest, shifted⟩ := Option.map_eq_some_iff.mp found
        simp only [Prod.mk.injEq] at shifted
        obtain ⟨rfl, rfl⟩ := shifted
        obtain ⟨de', at_, same, live, named, first⟩ := findEntry_eq_some rest
        refine ⟨de', at_, same, live, named, fun j de'' below at_j => ?_⟩
        cases j with
        | zero =>
            simp only [List.getElem?_cons_zero, Option.some_inj] at at_j
            subst at_j
            rw [namecmp_eq_zero] at hit
            exact fun live' same' => hit ⟨live', same'.symm⟩
        | succ j => exact first j de'' (by omega) at_j

/-- No two live entries have names `namecmp` finds equal: the entries are a
finite map from names to inode numbers. -/
def Unique (es : List Dirent) : Prop :=
  ∀ (i j : Nat) (a b : Dirent), i ≠ j → es[i]? = some a → es[j]? = some b → a.inum ≠ 0 → b.inum ≠ 0 →
    dirName a.name ≠ dirName b.name

theorem unique_nil : Unique [] := by
  intro i j a b _ at_i
  simp at at_i

/-- The entries with `e` put at index `k`: over entry `k`, or after the last
when `k` is the count. -/
def placeEntry (es : List Dirent) (k : Nat) (e : Dirent) : List Dirent :=
  if k < es.length then es.set k e else es ++ [e]

theorem placeEntry_of_lt {es : List Dirent} {k : Nat} (inside : k < es.length) (e : Dirent) :
    placeEntry es k e = es.set k e :=
  if_pos inside

theorem getElem?_placeEntry {es : List Dirent} {k : Nat} (atMost : k ≤ es.length) (e : Dirent) (i : Nat) :
    (placeEntry es k e)[i]? = if i = k then some e else es[i]? := by
  unfold placeEntry
  split
  · rename_i inside
    by_cases same : i = k
    · subst same
      simp [inside]
    · simp [Ne.symm same, same]
  · have last : k = es.length := by omega
    subst last
    by_cases same : i = es.length
    · simp [same]
    · rw [if_neg same, List.getElem?_append]
      split
      · rfl
      · rw [List.getElem?_eq_none (by simp; omega), List.getElem?_eq_none (by omega)]

/-- Putting an entry whose name no live entry has, or a free one, keeps the
names of the live entries apart. -/
theorem Unique.placeEntry {es : List Dirent} (unique : Unique es) {k : Nat} (atMost : k ≤ es.length)
    {e : Dirent} (fresh : e.inum ≠ 0 → ∀ de ∈ es, de.inum ≠ 0 → dirName de.name ≠ dirName e.name) :
    Unique (Xv6.placeEntry es k e) := by
  intro i j a b differ at_i at_j live_a live_b
  rw [getElem?_placeEntry atMost] at at_i at_j
  by_cases first : i = k
  · rw [if_pos first, Option.some_inj] at at_i
    subst at_i
    rw [if_neg (fun second => differ (first.trans second.symm))] at at_j
    exact Ne.symm (fresh live_a b (List.mem_of_getElem? at_j) live_b)
  · rw [if_neg first] at at_i
    by_cases second : j = k
    · rw [if_pos second, Option.some_inj] at at_j
      subst at_j
      exact fresh live_b a (List.mem_of_getElem? at_i) live_a
    · rw [if_neg second] at at_j
      exact unique i j a b differ at_i at_j live_a live_b

/-! ## A directory the operations work on -/

/-- A directory as `dirlookup`, `dirlink` and `sys_unlink` find it: its own
slot of a table the invariant holds of, below `ninodes`, without holes,
inside the largest file and a whole number of entries long. -/
structure DirOk (sb : Superblock) (fs : Fs) (dp : Inode) : Prop where
  owned : Owned sb fs.disk (table sb fs.disk)
  loaded : table sb fs.disk dp.inum = dp.toDinode
  bound : dp.inum < sb.ninodes
  dir : dp.type = T_DIR
  noHoles : NoHoles fs.disk dp.toDinode
  small : dp.size ≤ MAXFILE * BSIZE
  whole : dp.size % 16 = 0

/-- An inode that is its own slot of a table the invariant holds of is an
operation's inode. -/
theorem Owned.opInv_of_table {disk : Disk} (owned : Owned sb disk (table sb disk)) {ip : Inode}
    (loaded : table sb disk ip.inum = ip.toDinode) (bound : ip.inum < sb.ninodes) (allocated : ip.type ≠ 0) :
    OpInv sb disk ip := by
  have same : view sb disk ip = table sb disk := by
    funext i
    by_cases here : i = ip.inum
    · rw [here, view_self, loaded]
    · exact view_of_ne disk ip here
  have fits : ip.toDinode.Fits := by
    rw [← loaded]
    exact Dinode.read_fits _ _
  exact ⟨same ▸ owned, bound, allocated, fits⟩

theorem DirOk.opInv {fs : Fs} {dp : Inode} (ok : DirOk sb fs dp) : OpInv sb fs.disk dp :=
  ok.owned.opInv_of_table ok.loaded ok.bound (by rw [ok.dir]; decide)

/-! ## A write over one entry -/

section Entries

variable {disk disk' : Disk} {d d' : Dinode} {base len src : Nat} {f : Nat → UInt8}

/-- An entry none of whose bytes a write covered reads as before. -/
theorem entry_kept (wrote : Overwrites disk disk' d d' base len f src) (noHoles : NoHoles disk d) {j : Nat}
    (below : 16 * j + 16 ≤ d.size) (apart : 16 * j + 16 ≤ base ∨ base + len ≤ 16 * j) :
    fileBytes disk' d' (16 * j) 16 = fileBytes disk d (16 * j) 16 := by
  unfold fileBytes
  apply List.map_congr_left
  intro i mem
  have lt : i < 16 := List.mem_range.mp mem
  have mapped : blockAddr disk d ((16 * j + i) / BSIZE) ≠ 0 :=
    noHoles _ (lt_of_le_of_lt (Nat.div_mul_le_self _ _) (by omega))
  rw [wrote _ (.inl mapped), if_neg (by omega)]

/-- The bytes a write put at `[base, base + len)` are the source's. -/
theorem fileBytes_written (wrote : Overwrites disk disk' d d' base len f src) :
    fileBytes disk' d' base len = loadBytes f src len := by
  unfold fileBytes loadBytes
  apply List.map_congr_left
  intro i mem
  have lt : i < len := List.mem_range.mp mem
  rw [wrote _ (.inr ⟨by omega, by omega⟩), if_pos ⟨by omega, by omega⟩, Nat.add_sub_cancel_left]

/-- A write of 16 bytes at entry `k`, `k` at most the count: the entries are
the old ones with the written one put at `k`. -/
theorem dirents_of_written {k : Nat} (wrote : Overwrites disk disk' d d' (16 * k) 16 f src)
    (noHoles : NoHoles disk d) (atMost : k ≤ d.size / 16) (size : d'.size = max d.size (16 * k + 16)) :
    dirents disk' d' = placeEntry (dirents disk d) k (Dirent.ofBytes (loadBytes f src 16)) := by
  apply List.ext_getElem?
  intro j
  rw [getElem?_placeEntry (by rw [dirents_length]; exact atMost), getElem?_dirents, getElem?_dirents, size]
  by_cases same : j = k
  · subst same
    rw [if_pos (by omega), if_pos rfl, fileBytes_written wrote]
  · rw [if_neg same]
    by_cases old : j < d.size / 16
    · rw [if_pos (by omega), if_pos old, entry_kept wrote noHoles (by omega) (by omega)]
    · rw [if_neg (by omega), if_neg old]

/-- A write that put no byte at entry `k` and left the size: the entries are
as they were. -/
theorem dirents_of_unwritten {k : Nat} (wrote : Overwrites disk disk' d d' (16 * k) 0 f src)
    (noHoles : NoHoles disk d) (size : d'.size = d.size) : dirents disk' d' = dirents disk d := by
  unfold dirents
  rw [size]
  apply List.map_congr_left
  intro j mem
  have lt := List.mem_range.mp mem
  rw [entry_kept wrote noHoles (by omega) (by omega)]

end Entries

/-! ## `dirlink` and `sys_unlink` -/

/-- `writei` of an entry's 16 bytes from a kernel local at entry `k` of a
directory, `k` at most the count: it writes all 16 bytes and puts the entry
at `k`, or, only past the last entry, writes none and leaves the entries as
they were.  Either way the directory stays fit for the next operation and the
other inodes are left alone. -/
theorem writeEntry_spec (valid : sb.Valid) {fs : Fs} {dp : Inode} (ok : DirOk sb fs dp) {bs : List UInt8}
    (length : bs.length = 16) {k : Nat} (atMost : k ≤ dp.size / 16) :
    ∃ r fs' dp', writei sb fs dp (localMem bs) false 0 (UInt32.ofNat (16 * k)) 16 = .ok (r, fs', dp') ∧
      DirOk sb fs' dp' ∧ dp'.inum = dp.inum ∧ Keeps sb fs.disk fs'.disk dp.inum ∧
      ((r = 16 ∧ dirents fs'.disk dp'.toDinode = placeEntry (dirents fs.disk dp.toDinode) k (Dirent.ofBytes bs)) ∨
        (r ≠ 16 ∧ k = dp.size / 16 ∧ dirents fs'.disk dp'.toDinode = dirents fs.disk dp.toDinode)) := by
  have inv := ok.opInv
  have largest : MAXFILE * BSIZE = 274432 := by rw [MAXFILE_eq, BSIZE_eq]
  have small := ok.small
  rw [largest] at small
  have offNat : (UInt32.ofNat (16 * k)).toNat = 16 * k :=
    UInt32.toNat_ofNat_of_lt (by unfold UInt32.size; omega)
  have sixteen : (16 : UInt32).toNat = 16 := rfl
  have inside : (UInt32.ofNat (16 * k)).toNat ≤ dp.size := by omega
  by_cases tooBig : 16 * k + 16 > MAXFILE * BSIZE
  · -- the largest file is full: `writei` refuses the range, and `k` is the count
    have refused : writei sb fs dp (localMem bs) false 0 (UInt32.ofNat (16 * k)) 16 = .ok (-1, fs, dp) := by
      rw [writei, if_neg (by rw [UInt32.add_lt_self_iff]; omega), if_pos (by omega)]
    have last : k = dp.size / 16 := by omega
    exact ⟨-1, fs, dp, refused, ok, rfl, Keeps.refl _ _, .inr ⟨by decide, last, rfl⟩⟩
  obtain ⟨r, fs', dp', wrote, owned, keeps, back, type, keptHoles, keptSmall⟩ :=
    writei_spec valid inv ok.loaded (localMem bs) false 0 (UInt32.ofNat (16 * k)) 16
  obtain ⟨tot, fs₂, dp₂, wrote₂, atMost₂, stop, short, shape, content⟩ :=
    writei_content valid inv (localMem bs) false 0 inside
      (show (UInt32.ofNat (16 * k)).toNat + (16 : UInt32).toNat < 2 ^ 32 by omega) (by omega)
      fun user => absurd user Bool.false_ne_true
  rw [wrote] at wrote₂
  obtain ⟨rfl, rfl, rfl⟩ : r = tot ∧ fs' = fs₂ ∧ dp' = dp₂ := by simpa using wrote₂
  rw [offNat, sixteen] at stop short
  rw [offNat] at content
  rw [sixteen] at atMost₂
  -- an entry-aligned write of 16 bytes stops only at 0 or 16
  have counted : tot = 16 ∨ tot = 0 := by
    rw [BSIZE_eq] at stop
    omega
  have size : dp'.size = max dp.size (16 * k + tot) := by
    rw [shape, offNat]
  have inum : dp'.inum = dp.inum := by rw [shape]
  have ok' : DirOk sb fs' dp' :=
    { owned
      loaded := inum ▸ back
      bound := inum ▸ ok.bound
      dir := type.trans ok.dir
      noHoles := keptHoles ok.noHoles
      small := keptSmall ok.small
      whole := by
        have := ok.whole
        rcases counted with rfl | rfl <;> omega }
  refine ⟨tot, fs', dp', wrote, ok', inum, keeps, ?_⟩
  rcases counted with rfl | rfl
  · have source : loadBytes ((localMem bs).source false) 0 16 = bs := by
      conv => lhs; rw [← length]
      exact loadBytes_storeBytes_self _ 0 bs
    left
    rw [← source]
    exact ⟨rfl, dirents_of_written content ok.noHoles atMost size⟩
  · -- nothing written: the entry's block was missing, so `k` is past the last entry
    have last : k = dp.size / 16 := by
      by_contra before
      have unmapped := short (by decide)
      exact ok.noHoles _ (lt_of_le_of_lt (Nat.div_mul_le_self _ _) (by omega)) unmapped
    right
    refine ⟨by decide, last, dirents_of_unwritten content ok.noHoles ?_⟩
    rw [size]
    omega

/-- `dirlink` of a name the directory has: -1, and nothing changed. -/
theorem dirlink_of_found {fs : Fs} {dp : Inode} (ok : DirOk sb fs dp) {name : List UInt8} (inum : Nat)
    (found : findEntry name (dirents fs.disk dp.toDinode) ≠ none) :
    dirlink sb fs dp name inum = .ok (-1, fs, dp) := by
  obtain ⟨hit, is⟩ := Option.ne_none_iff_exists'.mp found
  rw [dirlink, dirlookup_spec name ok.dir ok.noHoles ok.small ok.whole, is, Option.map_some]

/-- `dirlink` of a name the directory does not have: the entry, with the name
as `strncpy` leaves it and the inode number cut to a `ushort`, goes over the
first free entry, or after the last when none is free, and the directory
stays fit for the next operation.  It returns -1 only when no entry was free
and the write past the end found no block, and the entries are then as they
were. -/
theorem dirlink_of_new (valid : sb.Valid) {fs : Fs} {dp : Inode} (ok : DirOk sb fs dp) (name : List UInt8)
    (inum : Nat) (new : findEntry name (dirents fs.disk dp.toDinode) = none) :
    ∃ r fs' dp', dirlink sb fs dp name inum = .ok (r, fs', dp') ∧ DirOk sb fs' dp' ∧ dp'.inum = dp.inum ∧
      Keeps sb fs.disk fs'.disk dp.inum ∧
      ((r = 0 ∧ dirents fs'.disk dp'.toDinode = placeEntry (dirents fs.disk dp.toDinode)
          ((dirents fs.disk dp.toDinode).findIdx fun de => de.inum = 0) ⟨inum % 65536, strncpy name DIRSIZ⟩) ∨
        (r = -1 ∧ (∀ de ∈ dirents fs.disk dp.toDinode, de.inum ≠ 0) ∧
          dirents fs'.disk dp'.toDinode = dirents fs.disk dp.toDinode)) := by
  have scan := @emptyLoop_spec sb fs dp ok.noHoles ok.small ok.whole (dp.size / 16 + 1) 0 (by omega)
    (Nat.zero_le _)
  simp only [Nat.mul_zero, List.drop_zero, Nat.zero_add] at scan
  have atMost : (dirents fs.disk dp.toDinode).findIdx (fun de => de.inum = 0) ≤ dp.size / 16 := by
    rw [← dirents_length]
    exact List.findIdx_le_length
  obtain ⟨r, fs', dp', wrote, ok', inum', keeps, placed⟩ := writeEntry_spec valid ok (length_direntBytes inum name) atMost
  refine ⟨if r ≠ 16 then -1 else 0, fs', dp', ?_, ok', inum', keeps, ?_⟩
  · rw [dirlink, dirlookup_spec name ok.dir ok.noHoles ok.small ok.whole, new, Option.map_none]
    simp only [scan, wrote]
  · rcases placed with ⟨rfl, placed⟩ | ⟨short, last, same⟩
    · left
      rw [placed, ofBytes_direntBytes]
      exact ⟨rfl, rfl⟩
    · -- the scan ran to the end: no entry was free
      have none_ := List.findIdx_eq_length.mp (by rw [dirents_length]; exact last)
      right
      refine ⟨if_pos short, fun de mem => ?_, same⟩
      simpa using none_ de mem

/-- `sys_unlink`'s zeroing write over entry `k` of a directory: it writes all
16 bytes, so `unlink: writei` is never reached, and entry `k` becomes free
while every other entry stays. -/
theorem unlinkEntry_spec (valid : sb.Valid) {fs : Fs} {dp : Inode} (ok : DirOk sb fs dp) {k : Nat}
    (inside : k < dp.size / 16) :
    ∃ fs' dp', unlinkEntry sb fs dp (16 * k) = .ok (fs', dp') ∧ DirOk sb fs' dp' ∧ dp'.inum = dp.inum ∧
      Keeps sb fs.disk fs'.disk dp.inum ∧
      dirents fs'.disk dp'.toDinode = (dirents fs.disk dp.toDinode).set k ⟨0, List.replicate DIRSIZ 0⟩ := by
  obtain ⟨r, fs', dp', wrote, ok', inum', keeps, placed⟩ :=
    writeEntry_spec valid ok (List.length_replicate (n := 16) (a := (0 : UInt8))) (le_of_lt inside)
  rcases placed with ⟨rfl, placed⟩ | ⟨-, last, -⟩
  · refine ⟨fs', dp', ?_, ok', inum', keeps, ?_⟩
    · simp only [unlinkEntry, wrote]
      rfl
    · rw [placed, placeEntry_of_lt (by rw [dirents_length]; exact inside), ofBytes_zeros]
  · omega

/-! ## Every directory, over whole runs -/

/-- A directory an operation on another inode left alone reads the same
entries. -/
theorem Keeps.dirents_eq {disk disk' : Disk} {inum : Nat} (keeps : Keeps sb disk disk' inum) {dir : Nat}
    (bound : dir < sb.ninodes) (other : dir ≠ inum) (allocated : (table sb disk dir).type ≠ 0)
    (noHoles : NoHoles disk (table sb disk dir)) :
    dirents disk' (table sb disk' dir) = dirents disk (table sb disk dir) := by
  obtain ⟨slot, blocks⟩ := keeps dir bound other
  have sameMap : ∀ bn, blockAddr disk' (table sb disk dir) bn = blockAddr disk (table sb disk dir) bn := by
    intro bn
    have kept := keeps.blockAddr_eq bound other allocated bn
    rwa [slot] at kept
  -- every byte of an entry is in a block the directory holds, which the operation did not write
  have bytes : ∀ p, p < (table sb disk dir).size →
      fileByte disk' (table sb disk dir) p = fileByte disk (table sb disk dir) p := fun p below => by
    have mapped := noHoles (p / BSIZE) (lt_of_le_of_lt (Nat.div_mul_le_self _ _) below)
    have held : blockAddr disk (table sb disk dir) (p / BSIZE) ∈ holds disk (table sb disk dir) := by
      rw [holds, if_neg allocated]
      exact (blockAddr_mem_refsOf _ _ mapped).1
    unfold fileByte
    rw [sameMap, blocks _ held]
  have entries : ∀ j, j < (table sb disk dir).size / 16 →
      fileBytes disk' (table sb disk dir) (16 * j) 16 = fileBytes disk (table sb disk dir) (16 * j) 16 :=
    fun j below => List.map_congr_left fun i mem => bytes _ (by have := List.mem_range.mp mem; omega)
  simp only [slot]
  exact List.map_congr_left fun j mem => congrArg Dirent.ofBytes (entries j (List.mem_range.mp mem))

/-- Inode `dir` of the table is a directory. -/
def IsDir (sb : Superblock) (disk : Disk) (dir : Nat) : Prop :=
  dir < sb.ninodes ∧ (table sb disk dir).type = T_DIR

instance (sb : Superblock) (disk : Disk) (dir : Nat) : Decidable (IsDir sb disk dir) :=
  inferInstanceAs (Decidable (_ ∧ _))

/-- Every directory of the table is fit for the operations, and none has two
live entries with one name. -/
structure DirsOk (sb : Superblock) (disk : Disk) : Prop where
  owned : Owned sb disk (table sb disk)
  noHoles : ∀ dir, IsDir sb disk dir → NoHoles disk (table sb disk dir)
  small : ∀ dir, IsDir sb disk dir → (table sb disk dir).size ≤ MAXFILE * BSIZE
  whole : ∀ dir, IsDir sb disk dir → (table sb disk dir).size % 16 = 0
  unique : ∀ dir, IsDir sb disk dir → Unique (dirents disk (table sb disk dir))

/-- A directory `ilock` reads from its slot. -/
theorem DirsOk.dirOk {fs : Fs} (ok : DirsOk sb fs.disk) {dir : Nat} (isDir : IsDir sb fs.disk dir) (ref : Nat) :
    DirOk sb fs (loaded sb fs.disk dir ref) :=
  { owned := ok.owned
    loaded := rfl
    bound := isDir.1
    dir := isDir.2
    noHoles := ok.noHoles dir isDir
    small := ok.small dir isDir
    whole := ok.whole dir isDir }

/-- An operation on directory `dir` that leaves it fit and without a repeated
live name, and the other inodes alone, keeps every directory so. -/
theorem DirsOk.after {fs fs' : Fs} (ok : DirsOk sb fs.disk) {dp' : Inode} {dir : Nat} (ok' : DirOk sb fs' dp')
    (same : dp'.inum = dir) (keeps : Keeps sb fs.disk fs'.disk dir) (unique : Unique (dirents fs'.disk dp'.toDinode)) :
    DirsOk sb fs'.disk := by
  have each : ∀ i, IsDir sb fs'.disk i →
      NoHoles fs'.disk (table sb fs'.disk i) ∧ (table sb fs'.disk i).size ≤ MAXFILE * BSIZE ∧
        (table sb fs'.disk i).size % 16 = 0 ∧ Unique (dirents fs'.disk (table sb fs'.disk i)) := by
    intro i isDir
    by_cases here : i = dir
    · -- the directory operated on is the operation's inode
      subst here
      rw [← same, ok'.loaded]
      exact ⟨ok'.noHoles, ok'.small, ok'.whole, unique⟩
    · -- any other keeps its slot, its map and its entries
      obtain ⟨slot, -⟩ := keeps i isDir.1 here
      have wasDir : IsDir sb fs.disk i := ⟨isDir.1, by rw [← slot]; exact isDir.2⟩
      have allocated : (table sb fs.disk i).type ≠ 0 := by
        rw [wasDir.2]
        decide
      have sameMap := keeps.blockAddr_eq isDir.1 here allocated
      refine ⟨fun bn below => ?_, by rw [slot]; exact ok.small i wasDir, by rw [slot]; exact ok.whole i wasDir, ?_⟩
      · rw [sameMap]
        rw [slot] at below
        exact ok.noHoles i wasDir bn below
      · rw [keeps.dirents_eq isDir.1 here allocated (ok.noHoles i wasDir)]
        exact ok.unique i wasDir
  exact ⟨ok'.owned, fun i isDir => (each i isDir).1, fun i isDir => (each i isDir).2.1,
    fun i isDir => (each i isDir).2.2.1, fun i isDir => (each i isDir).2.2.2⟩

/-- The names `.` and `..`. -/
def dot : List UInt8 := [46]

def dotdot : List UInt8 := [46, 46]

/-- A call that changes a directory's entries, on the directory `dir` that
`nameiparent` returned: `dirlink` of a name to an inode (`sys_link` and
`create`), or `sys_unlink` of a name. -/
inductive DirOp
  | link (dir : Nat) (name : List UInt8) (inum : Nat)
  | unlink (dir : Nat) (name : List UInt8)
  deriving DecidableEq, Repr

/-- One call's effect on the disk, on the directory `ilock` reads from its
slot: `dirlink`, or `sys_unlink`'s zeroing write over the entry `dirlookup`
finds.  `nameiparent` returns only directories, so a call naming another
inode stops before and changes nothing; `sys_unlink` refuses `.`, `..` and a
name it does not find.  The event `unlink` stands for a call whose inode
passed `sys_unlink`'s own checks (`nlink`, an empty directory): one that
fails them changes nothing.  `none` where the kernel panics. -/
def dirStep (sb : Superblock) : DirOp → Fs → Option Fs
  | .link dir name inum, fs =>
      if IsDir sb fs.disk dir then
        match dirlink sb fs (loaded sb fs.disk dir 1) name inum with
        | .ok (_, fs, _) => some fs
        | .error _ => none
      else some fs
  | .unlink dir name, fs =>
      if IsDir sb fs.disk dir ∧ namecmp name dot ≠ 0 ∧ namecmp name dotdot ≠ 0 then
        match dirlookup sb fs (loaded sb fs.disk dir 1) name with
        | .ok (some (_, off), fs, dp) =>
            match unlinkEntry sb fs dp off with
            | .ok (fs, _) => some fs
            | .error _ => none
        | .ok (none, fs, _) => some fs
        | .error _ => none
      else some fs

/-- A `dirlink` keeps every directory fit and without a repeated live name. -/
theorem DirsOk.link (valid : sb.Valid) {fs : Fs} (ok : DirsOk sb fs.disk) (dir : Nat) (name : List UInt8)
    (inum : Nat) : ∃ fs', dirStep sb (.link dir name inum) fs = some fs' ∧ DirsOk sb fs'.disk := by
  by_cases isDir : IsDir sb fs.disk dir
  · have dirOk := ok.dirOk isDir 1
    have unique := ok.unique dir isDir
    by_cases found : findEntry name (dirents fs.disk (table sb fs.disk dir)) ≠ none
    · refine ⟨fs, ?_, ok⟩
      simp only [dirStep, if_pos isDir, dirlink_of_found dirOk inum found]
    · obtain ⟨r, fs', dp', linked, ok', inum', keeps, placed⟩ := dirlink_of_new valid dirOk name inum (not_not.mp found)
      refine ⟨fs', by simp only [dirStep, if_pos isDir, linked], ok.after ok' inum' keeps ?_⟩
      rcases placed with ⟨-, placed⟩ | ⟨-, -, same⟩
      · -- the new name is none of the live ones
        rw [placed]
        refine unique.placeEntry List.findIdx_le_length fun _ de mem live => ?_
        rw [dirName_strncpy]
        exact findEntry_eq_none.mp (not_not.mp found) de mem live
      · rw [same]
        exact unique
  · exact ⟨fs, by simp only [dirStep, if_neg isDir], ok⟩

/-- A `sys_unlink` keeps every directory fit and without a repeated live name. -/
theorem DirsOk.unlink (valid : sb.Valid) {fs : Fs} (ok : DirsOk sb fs.disk) (dir : Nat) (name : List UInt8) :
    ∃ fs', dirStep sb (.unlink dir name) fs = some fs' ∧ DirsOk sb fs'.disk := by
  by_cases allowed : IsDir sb fs.disk dir ∧ namecmp name dot ≠ 0 ∧ namecmp name dotdot ≠ 0
  · have dirOk := ok.dirOk allowed.1 1
    have looked := @dirlookup_spec sb fs (loaded sb fs.disk dir 1) name dirOk.dir dirOk.noHoles dirOk.small
      dirOk.whole
    cases found : findEntry name (dirents fs.disk (table sb fs.disk dir)) with
    | none =>
        refine ⟨fs, ?_, ok⟩
        simp only [dirStep, if_pos allowed, looked]
        rw [show (loaded sb fs.disk dir 1).toDinode = table sb fs.disk dir from rfl, found, Option.map_none]
    | some hit =>
        obtain ⟨i, k⟩ := hit
        obtain ⟨de, at_, -, -, -, -⟩ := findEntry_eq_some found
        have inside : k < (loaded sb fs.disk dir 1).size / 16 := by
          rw [← dirents_length]
          exact (List.getElem?_eq_some_iff.mp at_).1
        obtain ⟨fs', dp', removed, ok', inum', keeps, cleared⟩ := unlinkEntry_spec valid dirOk inside
        refine ⟨fs', ?_, ok.after ok' inum' keeps ?_⟩
        · simp only [dirStep, if_pos allowed, looked]
          rw [show (loaded sb fs.disk dir 1).toDinode = table sb fs.disk dir from rfl, found, Option.map_some]
          simp only [removed]
        · -- a free entry over entry `k`
          rw [cleared, ← placeEntry_of_lt (by rw [dirents_length]; exact inside)]
          exact (ok.unique dir allowed.1).placeEntry (le_of_lt (by rw [dirents_length]; exact inside))
            fun dead => absurd rfl dead
  · exact ⟨fs, by simp only [dirStep, if_neg allowed], ok⟩

/-- Every call keeps every directory fit and without a repeated live name,
and none panics. -/
theorem DirsOk.step (valid : sb.Valid) {fs : Fs} (ok : DirsOk sb fs.disk) :
    ∀ op, ∃ fs', dirStep sb op fs = some fs' ∧ DirsOk sb fs'.disk
  | .link dir name inum => ok.link valid dir name inum
  | .unlink dir name => ok.unlink valid dir name

/-! ## Directories are finite maps -/

/-- Directories are finite maps from names to inode numbers.  Over a
directory as the calls find it, `dirlookup` returns the inode number and
offset of the first live entry whose name `namecmp` finds equal, and changes
nothing.  `dirlink` of a name the directory has returns -1 and changes
nothing; of a new name, it puts the entry (the name as `strncpy` leaves it,
the number cut to a `ushort`) over the first free entry or after the last,
changing no other entry, or returns -1 with the entries as they were when
none was free and no block could be had.  `sys_unlink`'s write over entry `k`
frees exactly that entry.  Over every run of these calls from a disk whose
directories have no repeated live name, no call panics and no directory ever
has two live entries with names `namecmp` finds equal. -/
theorem directory_map (valid : sb.Valid) {fs : Fs} {dp : Inode} (ok : DirOk sb fs dp) (name : List UInt8)
    (inum : Nat) :
    dirlookup sb fs dp name =
        .ok ((findEntry name (dirents fs.disk dp.toDinode)).map fun found => (found.1, 16 * found.2), fs, dp) ∧
      (findEntry name (dirents fs.disk dp.toDinode) ≠ none → dirlink sb fs dp name inum = .ok (-1, fs, dp)) ∧
      (findEntry name (dirents fs.disk dp.toDinode) = none →
        ∃ r fs' dp', dirlink sb fs dp name inum = .ok (r, fs', dp') ∧
          ((r = 0 ∧ dirents fs'.disk dp'.toDinode = placeEntry (dirents fs.disk dp.toDinode)
              ((dirents fs.disk dp.toDinode).findIdx fun de => de.inum = 0) ⟨inum % 65536, strncpy name DIRSIZ⟩) ∨
            (r = -1 ∧ (∀ de ∈ dirents fs.disk dp.toDinode, de.inum ≠ 0) ∧
              dirents fs'.disk dp'.toDinode = dirents fs.disk dp.toDinode))) ∧
      (∀ k, k < dp.size / 16 → ∃ fs' dp', unlinkEntry sb fs dp (16 * k) = .ok (fs', dp') ∧
        dirents fs'.disk dp'.toDinode = (dirents fs.disk dp.toDinode).set k ⟨0, List.replicate DIRSIZ 0⟩) ∧
      (DirsOk sb fs.disk → ∀ ops, ∃ fs', Paths.run (dirStep sb) fs ops = some fs' ∧ DirsOk sb fs'.disk) := by
  refine ⟨dirlookup_spec name ok.dir ok.noHoles ok.small ok.whole, dirlink_of_found ok inum, fun new => ?_,
    fun k inside => ?_, fun dirsOk ops => ?_⟩
  · obtain ⟨r, fs', dp', linked, -, -, -, placed⟩ := dirlink_of_new valid ok name inum new
    exact ⟨r, fs', dp', linked, placed⟩
  · obtain ⟨fs', dp', removed, -, -, -, cleared⟩ := unlinkEntry_spec valid ok inside
    exact ⟨fs', dp', removed, cleared⟩
  · exact Paths.run_total (dirStep sb) (fun fs => DirsOk sb fs.disk) (fun op fs ok => ok.step valid op) ops fs
      dirsOk

/-- An empty directory: inode 1 of the small image, of type `T_DIR`, with
size 0 and no blocks. -/
def emptyDirInode : Dinode :=
  { type := T_DIR, major := 0, minor := 0, nlink := 1, size := 0, addrs := fun _ => 0 }

/-- The small image with that directory; the bitmap marks blocks 0 to 4 used. -/
def emptyDirDisk : Disk := fun b =>
  if b = 3 then emptyDirInode.write Block.zero 1
  else if b = 4 then (fun i => if i.val = 0 then 31 else 0)
  else Block.zero

set_option synthInstance.maxSize 512 in
theorem emptyDir_ok : DirOk bootSb ⟨emptyDirDisk, []⟩ (loaded bootSb emptyDirDisk 1 1) := by
  have disjoint : ∀ i, i < bootSb.ninodes → ∀ j, j < bootSb.ninodes → i ≠ j →
      ∀ b ∈ holds emptyDirDisk (table bootSb emptyDirDisk i), b ∉ holds emptyDirDisk (table bootSb emptyDirDisk j) := by
    decide
  have bitmap : ∀ b, b < bootSb.size → (used bootSb emptyDirDisk b = true ↔
      b < bootSb.dataStart ∨ ∃ i, i < bootSb.ninodes ∧ b ∈ holds emptyDirDisk (table bootSb emptyDirDisk i)) := by
    decide
  have size : (loaded bootSb emptyDirDisk 1 1).size = 0 := by decide
  exact { owned := ⟨by decide, fun i j hi hj => disjoint i hi j hj, by decide, bitmap, by decide⟩
          loaded := rfl
          bound := by decide
          dir := by decide
          noHoles := fun bn below => by rw [size] at below; omega
          small := by rw [size]; exact Nat.zero_le _
          whole := by rw [size] }

/-- `dirlink` of the name `a` to inode 1 in the empty directory: the entry is
the directory's only one, or the call failed and the directory is still
empty. -/
theorem directory_map_emptyDir :
    bootSb.Valid ∧ DirOk bootSb ⟨emptyDirDisk, []⟩ (loaded bootSb emptyDirDisk 1 1) ∧
      ∃ r fs' dp', dirlink bootSb ⟨emptyDirDisk, []⟩ (loaded bootSb emptyDirDisk 1 1) [97] 1 = .ok (r, fs', dp') ∧
        ((r = 0 ∧ dirents fs'.disk dp'.toDinode = [⟨1, strncpy [97] DIRSIZ⟩]) ∨
          (r = -1 ∧ dirents fs'.disk dp'.toDinode = [])) := by
  have empty : dirents (⟨emptyDirDisk, []⟩ : Fs).disk (loaded bootSb emptyDirDisk 1 1).toDinode = [] := by
    decide
  obtain ⟨r, fs', dp', linked, placed⟩ :=
    (directory_map bootSb_valid emptyDir_ok [97] 1).2.2.1 (by rw [empty]; rfl)
  refine ⟨bootSb_valid, emptyDir_ok, r, fs', dp', linked, ?_⟩
  rw [empty] at placed
  rcases placed with ⟨done, placed⟩ | ⟨failed, -, same⟩
  · exact .inl ⟨done, placed⟩
  · exact .inr ⟨failed, same⟩

/-- A directory of four blocks whose second is a hole, as `mkfs`'s size
fix-up leaves the root, on a full disk: blocks 5, 6 and 7 are the directory's
and every bit of the bitmap is set. -/
def holeDirInode : Dinode :=
  { type := T_DIR, major := 0, minor := 0, nlink := 1, size := 4 * BSIZE,
    addrs := fun k => if k.val = 0 then 5 else if k.val = 2 then 6 else if k.val = 3 then 7 else 0 }

def holeDirDisk : Disk := fun b =>
  if b = 3 then holeDirInode.write Block.zero 1
  else if b = 4 then (fun i => if i.val = 0 then 255 else 0)
  else Block.zero

set_option synthInstance.maxSize 512 in
set_option maxRecDepth 100000 in
/-- Without the no-holes condition `dirlookup` need not return.  In that
directory, whose bitmap agrees with the maps, `dirlookup` of a name it lacks
reads the 64 free entries of block 5; at offset 1024 `bmap` finds no block for
index 1 and `balloc` none to give, so `readi` reads nothing and `dirlookup`
panics. -/
theorem dirlookup_hole_panics :
    Owned bootSb holeDirDisk (table bootSb holeDirDisk) ∧
      dirlookup bootSb ⟨holeDirDisk, []⟩ (loaded bootSb holeDirDisk 1 1) [97] = .error "dirlookup read" := by
  have disjoint : ∀ i, i < bootSb.ninodes → ∀ j, j < bootSb.ninodes → i ≠ j →
      ∀ b ∈ holds holeDirDisk (table bootSb holeDirDisk i), b ∉ holds holeDirDisk (table bootSb holeDirDisk j) := by
    decide
  have bitmap : ∀ b, b < bootSb.size → (used bootSb holeDirDisk b = true ↔
      b < bootSb.dataStart ∨ ∃ i, i < bootSb.ninodes ∧ b ∈ holds holeDirDisk (table bootSb holeDirDisk i)) := by
    decide
  exact ⟨⟨by decide, fun i j hi hj => disjoint i hi j hj, by decide, bitmap, by decide⟩, rfl⟩

/-- `namecmp` compares `DIRSIZ` bytes: names that agree on their first 14
bytes are one name. -/
example : namecmp [49, 50, 51, 52, 53, 54, 55, 56, 57, 48, 49, 50, 51, 52, 97]
    [49, 50, 51, 52, 53, 54, 55, 56, 57, 48, 49, 50, 51, 52, 98] = 0 := by
  decide

end Xv6
