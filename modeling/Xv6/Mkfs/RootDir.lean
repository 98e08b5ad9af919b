/-
# Mkfs.RootDir -- the root directory mkfs writes, and the block it leaves out

mkfs appends one 16-byte entry to the root directory for `.`, for `..` and
for each input file.  An entry that starts a block takes the root's next
block.  After the last file, mkfs rounds the size up:
`off = ((off/BSIZE) + 1) * BSIZE`.  When the entries end exactly on a block
boundary, that adds a whole block to the size and allocates nothing for it.

`mkfs_root` follows mkfs for every input it accepts with at most
`NINODES - 2` files of at most one block each.  mkfs succeeds; the root's size
is the rounded one; and its direct addresses are set exactly for the blocks
the entries fill.  The root has a hole exactly when the entries fill whole
blocks (`mkfs_root_noHoles_iff`), as they do for 62 files.

The proof follows the program: one spec lemma per function of mkfs.c
(`winode_spec`, `ialloc_spec`, `fileBlock_direct_spec`, `appendLoop_one`),
then what appending an entry to the root (`iappend_root`) and a file's bytes
to its new inode (`iappend_fresh`) do.  Last, the loop over the files
(`addFiles_spec`) carries `Made`: the root holds every entry so far, and the
counters are where those entries and files put them.
-/
import Xv6.Mkfs.Image

namespace Xv6.Mkfs

open Bytes

set_option autoImplicit false

@[simp] theorem ok_bind {α β : Type} (a : α) (f : α → Except String β) :
    ((Except.ok a : Except String α) >>= f) = f a := rfl

/-! ## Blocks and inodes of the image file -/

theorem rsect_of_lt {s : State} {sec : Nat} (inFile : sec < s.len) : rsect s sec = .ok (s.disk sec) := by
  simp [rsect, inFile]

@[simp] theorem wsect_len (s : State) (sec : Nat) (buf : Block) :
    (wsect s sec buf).len = max s.len (sec + 1) := rfl

@[simp] theorem wsect_freeblock (s : State) (sec : Nat) (buf : Block) :
    (wsect s sec buf).freeblock = s.freeblock := rfl

@[simp] theorem wsect_freeinode (s : State) (sec : Nat) (buf : Block) :
    (wsect s sec buf).freeinode = s.freeinode := rfl

theorem wsect_disk (s : State) (sec : Nat) (buf : Block) :
    (wsect s sec buf).disk = Function.update s.disk sec buf := rfl

/-- The inode blocks of the inodes mkfs has room for lie before the data. -/
theorem IBLOCK_lt_nmeta {inum : Nat} (bound : inum < NINODES) : IBLOCK inum sb < nmeta := by
  simp only [IBLOCK, sb, IPB_eq, nmeta_eq, nlog, LOGSIZE_eq]
  simp only [NINODES] at bound
  omega

/-- A write to a block other than an inode's block leaves the inode. -/
theorem table_wsect_of_ne (s : State) {sec inum : Nat} (ne : sec ≠ IBLOCK inum sb) (buf : Block) :
    table sb (wsect s sec buf).disk inum = table sb s.disk inum := by
  simp only [table, wsect_disk, Function.update_of_ne (Ne.symm ne)]

theorem winode_spec {s : State} {inum : Nat} (inFile : IBLOCK inum sb < s.len) (d : Dinode) :
    winode s inum d = .ok (wsect s (IBLOCK inum sb) (d.write (s.disk (IBLOCK inum sb)) (inum % IPB))) := by
  simp only [winode, rsect_of_lt inFile, ok_bind]
  rfl

/-- `winode` is the kernel's `iupdate` on the image: the slot it writes reads
back, and every other inode is kept (`table_iupdate`). -/
theorem table_winode (s : State) {inum : Nat} {d : Dinode} (fits : d.Fits) (i : Nat) :
    table sb (wsect s (IBLOCK inum sb) (d.write (s.disk (IBLOCK inum sb)) (inum % IPB))).disk i =
      if i = inum then d else table sb s.disk i :=
  table_iupdate sb ⟨s.disk, []⟩ { toDinode := d, dev := 0, inum := inum, ref := 0, valid := false } fits i

theorem rinode_spec {s : State} {inum : Nat} (inFile : IBLOCK inum sb < s.len) :
    rinode s inum = .ok (table sb s.disk inum) := by
  simp only [rinode, rsect_of_lt inFile, ok_bind]
  rfl

theorem ialloc_spec {s : State} (inFile : IBLOCK s.freeinode sb < s.len) (type : Int) :
    ialloc s type = .ok (s.freeinode, wsect { s with freeinode := s.freeinode + 1 } (IBLOCK s.freeinode sb)
      ((freshDinode type).write (s.disk (IBLOCK s.freeinode sb)) (s.freeinode % IPB))) := by
  simp only [ialloc, winode_spec (s := { s with freeinode := s.freeinode + 1 }) inFile, ok_bind]
  rfl

theorem freshDinode_fits {type : Int} (small : -(2 ^ 16 : Int) ≤ 2 * type ∧ 2 * type < 2 ^ 16) :
    (freshDinode type).Fits :=
  ⟨small, by simp [freshDinode], by simp [freshDinode], by simp [freshDinode], by simp [freshDinode],
    fun _ => by simp [freshDinode]⟩

/-- An inode read from a block, with new addresses and size of C's widths, fits. -/
theorem fits_with {d : Dinode} (fits : d.Fits) {addrs : Fin (NDIRECT + 1) → Nat} {size : Nat}
    (addrsFit : ∀ j, addrs j < 2 ^ 32) (sizeFits : size < 2 ^ 32) : { d with addrs, size }.Fits :=
  ⟨fits.type, fits.major, fits.minor, fits.nlink, sizeFits, addrsFit⟩

/-! ## `iappend` -/

/-- Every address of an inode is a data block handed out before `freeblock`. -/
def HandedOut (d : Dinode) (freeblock : Nat) : Prop :=
  ∀ j, d.addrs j ≠ 0 → nmeta ≤ d.addrs j ∧ d.addrs j < freeblock

theorem HandedOut.mono {d : Dinode} {freeblock freeblock' : Nat} (handedOut : HandedOut d freeblock)
    (grows : freeblock ≤ freeblock') : HandedOut d freeblock' := fun j mapped =>
  ⟨(handedOut j mapped).1, lt_of_lt_of_le (handedOut j mapped).2 grows⟩

/-- `fileBlock` on a direct index `fbn`: the block the inode has there, or the
next one when it has none; no other address and nothing else of the state
changes. -/
theorem fileBlock_direct_spec {s : State} {din : Dinode} {fbn : Nat} (direct : fbn < NDIRECT)
    (handedOut : HandedOut din s.freeblock) (metaLe : nmeta ≤ s.freeblock) :
    ∃ x addrs freeblock, fileBlock s din fbn = .ok (x, { din with addrs }, { s with freeblock }) ∧
      nmeta ≤ x ∧ x < freeblock ∧ (∀ j : Fin (NDIRECT + 1), j.val = fbn → addrs j = x) ∧
      (∀ j : Fin (NDIRECT + 1), j.val ≠ fbn → addrs j = din.addrs j) ∧
      s.freeblock ≤ freeblock ∧ freeblock ≤ s.freeblock + 1 := by
  set k : Fin (NDIRECT + 1) := Fin.castSucc ⟨fbn, direct⟩ with k_def
  have isK : ∀ j : Fin (NDIRECT + 1), j.val = fbn → j = k := fun j at_ => Fin.ext at_
  by_cases empty : din.addrs k = 0
  · -- a new block from `freeblock`
    refine ⟨s.freeblock, Function.update din.addrs k s.freeblock, s.freeblock + 1, ?_, metaLe,
      Nat.lt_succ_self _, fun j at_ => by rw [isK j at_, Function.update_self],
      fun j off => Function.update_of_ne (fun eq => off (congrArg Fin.val eq)) .., by omega, le_refl _⟩
    simp only [fileBlock, dif_pos direct, ← k_def, if_pos empty]
  · -- the block it has
    obtain ⟨above, below⟩ := handedOut k empty
    refine ⟨din.addrs k, din.addrs, s.freeblock, ?_, above, below, fun j at_ => by rw [isK j at_],
      fun _ _ => rfl, le_refl _, Nat.le_succ _⟩
    simp only [fileBlock, dif_pos direct, ← k_def, if_neg empty]

/-- A pass of `appendLoop` that writes all of `p` into the block at `off`
finishes the append. -/
theorem appendLoop_one {fuel : Nat} {din : Dinode} {off : Nat} {p : List UInt8} {s : State}
    (enough : p.length ≤ fuel) (nonempty : p ≠ []) (inRange : off / BSIZE < MAXFILE)
    (inBlock : off % BSIZE + p.length ≤ BSIZE) {x : Nat} {din' : Dinode} {s' : State}
    (found : fileBlock s din (off / BSIZE) = .ok (x, din', s')) (readable : x < s'.len) :
    appendLoop fuel din off p s =
      .ok (din', off + p.length, wsect s' x (copyInto (s'.disk x) (off % BSIZE) p)) := by
  obtain ⟨fuel, rfl⟩ : ∃ f, fuel = f + 1 := ⟨fuel - 1, by have := List.length_pos_iff.mpr nonempty; omega⟩
  have whole : min p.length ((off / BSIZE + 1) * BSIZE - off) = p.length := by
    rw [BSIZE_eq] at inBlock ⊢
    omega
  have start : off - off / BSIZE * BSIZE = off % BSIZE := by
    rw [BSIZE_eq]
    omega
  have pos : p.length ≠ 0 := by simpa using nonempty
  rw [appendLoop, if_neg pos, if_pos inRange]
  simp only [found, ok_bind, whole, rsect_of_lt readable, start, List.take_length, List.drop_length]
  -- the next pass finds nothing left
  cases fuel <;> rfl

/-- What a step of mkfs that writes inode `inum` keeps: the image's length,
the next inode and every other inode.  It takes at most one block. -/
structure Keeps (s s' : State) (inum : Nat) : Prop where
  len : s'.len = s.len
  freeinode : s'.freeinode = s.freeinode
  grows : s.freeblock ≤ s'.freeblock
  byOne : s'.freeblock ≤ s.freeblock + 1
  others : ∀ i, i < NINODES → i ≠ inum → table sb s'.disk i = table sb s.disk i

theorem Keeps.refl (s : State) (inum : Nat) : Keeps s s inum :=
  ⟨rfl, rfl, le_refl _, Nat.le_succ _, fun _ _ _ => rfl⟩

theorem table_fits (disk : Disk) (inum : Nat) : (table sb disk inum).Fits := Dinode.read_fits _ _

/-- `iappend` of bytes that end inside the inode's last block, a direct one:
the inode gets that block and its new size, and nothing else of the image
that `Keeps` names changes. -/
theorem iappend_one_block {s : State} {inum : Nat} (bound : inum < NINODES) (len : s.len = FSSIZE)
    (metaLe : nmeta ≤ s.freeblock) (space : s.freeblock < FSSIZE)
    (handedOut : HandedOut (table sb s.disk inum) s.freeblock) {p : List UInt8} (nonempty : p ≠ [])
    (direct : (table sb s.disk inum).size / BSIZE < NDIRECT)
    (inBlock : (table sb s.disk inum).size % BSIZE + p.length ≤ BSIZE) :
    ∃ s' addrs, iappend s inum p = .ok s' ∧ Keeps s s' inum ∧
      table sb s'.disk inum = { table sb s.disk inum with addrs, size := (table sb s.disk inum).size + p.length } ∧
      (∀ j : Fin (NDIRECT + 1), j.val = (table sb s.disk inum).size / BSIZE →
        nmeta ≤ addrs j ∧ addrs j < s'.freeblock) ∧
      (∀ j : Fin (NDIRECT + 1), j.val ≠ (table sb s.disk inum).size / BSIZE →
        addrs j = (table sb s.disk inum).addrs j) := by
  set d := table sb s.disk inum with d_def
  have inodeBlock : IBLOCK inum sb < nmeta := IBLOCK_lt_nmeta bound
  have sizes : nmeta = 46 ∧ FSSIZE = 2000 := ⟨nmeta_eq, rfl⟩
  obtain ⟨x, addrs, freeblock, found, above, below, atK, others, grows, byOne⟩ :=
    fileBlock_direct_spec direct handedOut metaLe
  have readable : x < ({ s with freeblock } : State).len := by
    show x < s.len
    omega
  have inRange : d.size / BSIZE < MAXFILE := by
    rw [MAXFILE_eq]
    rw [NDIRECT_eq] at direct
    omega
  have loop := appendLoop_one (le_refl p.length) nonempty inRange inBlock found readable
  -- the bytes go to block `x`, then the inode with its new size to its slot
  set s₂ := wsect { s with freeblock } x (copyInto (s.disk x) (d.size % BSIZE) p) with s₂_def
  have fits : ({ d with addrs, size := d.size + p.length } : Dinode).Fits := by
    refine fits_with (table_fits s.disk inum) (fun j => ?_) ?_
    · by_cases at_ : j.val = d.size / BSIZE
      · rw [atK j at_]
        omega
      · rw [others j at_]
        exact (table_fits s.disk inum).addrs j
    · rw [NDIRECT_eq, BSIZE_eq] at *
      omega
  have inodeRead : IBLOCK inum sb < s₂.len := by
    simp only [s₂_def, wsect_len]
    show IBLOCK inum sb < max s.len (x + 1)
    omega
  refine ⟨wsect s₂ (IBLOCK inum sb) (({ d with addrs, size := d.size + p.length } : Dinode).write
      (s₂.disk (IBLOCK inum sb)) (inum % IPB)), addrs, ?_, ⟨?_, rfl, grows, byOne, fun i below ne => ?_⟩, ?_,
      fun j at_ => ⟨by rw [atK j at_]; exact above, by rw [atK j at_]; exact below⟩, others⟩
  · simp only [iappend, rinode_spec (show IBLOCK inum sb < s.len by omega), ok_bind, ← d_def, loop]
    exact winode_spec inodeRead _
  · simp only [s₂_def, wsect_len]
    show max (max s.len (x + 1)) (IBLOCK inum sb + 1) = s.len
    omega
  · -- another inode: neither its slot nor its block is written
    rw [table_winode _ fits, if_neg ne, s₂_def, table_wsect_of_ne _ (by have := IBLOCK_lt_nmeta below; omega)]
  · rw [table_winode _ fits, if_pos rfl]

/-! ## The root directory -/

/-- The root with `m` bytes of entries: its direct addresses are set exactly
for the blocks the entries reach, each a data block handed out already. -/
structure RootHolds (s : State) (m : Nat) : Prop where
  size : (table sb s.disk ROOTINO).size = m
  mapped : ∀ j : Fin (NDIRECT + 1), (table sb s.disk ROOTINO).addrs j ≠ 0 ↔ j.val < NDIRECT ∧ j.val * BSIZE < m
  handedOut : HandedOut (table sb s.disk ROOTINO) s.freeblock

theorem RootHolds.keep {s s' : State} {m : Nat} (root : RootHolds s m)
    (same : table sb s'.disk ROOTINO = table sb s.disk ROOTINO) (grows : s.freeblock ≤ s'.freeblock) :
    RootHolds s' m :=
  ⟨same ▸ root.size, same ▸ root.mapped, same ▸ root.handedOut.mono grows⟩

theorem length_dirent (inum : Nat) (name : List UInt8) : (dirent inum name).length = 16 := by
  simp only [dirent, DIRSIZ, List.length_append, List.length_take, List.length_replicate]
  simp only [List.length_cons, List.length_nil]
  omega

/-- One more entry in the root: it starts a block only at a block boundary, and
then that block is the one the root gets. -/
theorem iappend_root {s : State} {m : Nat} (root : RootHolds s m) (len : s.len = FSSIZE)
    (metaLe : nmeta ≤ s.freeblock) (space : s.freeblock < FSSIZE) (aligned : m % 16 = 0)
    (room : m + 16 ≤ NDIRECT * BSIZE) {e : List UInt8} (sixteen : e.length = 16) :
    ∃ s', iappend s ROOTINO e = .ok s' ∧ Keeps s s' ROOTINO ∧ RootHolds s' (m + 16) := by
  have direct : (table sb s.disk ROOTINO).size / BSIZE < NDIRECT := by
    rw [root.size]
    rw [NDIRECT_eq, BSIZE_eq] at room ⊢
    omega
  have inBlock : (table sb s.disk ROOTINO).size % BSIZE + e.length ≤ BSIZE := by
    rw [root.size, sixteen, BSIZE_eq]
    omega
  have nonempty : e ≠ [] := List.ne_nil_of_length_pos (by omega)
  obtain ⟨s', addrs, appended, keeps, table', atK, others⟩ :=
    iappend_one_block (by decide) len metaLe space root.handedOut nonempty direct inBlock
  rw [root.size] at atK others
  refine ⟨s', appended, keeps, ⟨by rw [table', root.size, sixteen], fun j => ?_, fun j mapped => ?_⟩⟩
  · -- the entry's block is mapped now; below it the blocks were full, and above it none is reached
    rw [table']
    show addrs j ≠ 0 ↔ j.val < NDIRECT ∧ j.val * BSIZE < m + 16
    have nmetaPos : 0 < nmeta := by decide
    have twelve : NDIRECT = 12 := NDIRECT_eq
    rw [BSIZE_eq] at room ⊢
    by_cases at_ : j.val = m / BSIZE
    · have block := atK j at_
      rw [BSIZE_eq] at at_
      constructor
      · intro _
        omega
      · intro _
        omega
    · rw [others j at_, root.mapped j, BSIZE_eq]
      rw [BSIZE_eq] at at_
      constructor
      · intro ⟨direct, below⟩
        exact ⟨direct, by omega⟩
      · intro ⟨direct, below⟩
        exact ⟨direct, by omega⟩
  · rw [table'] at mapped ⊢
    change addrs j ≠ 0 at mapped
    show nmeta ≤ addrs j ∧ addrs j < s'.freeblock
    by_cases at_ : j.val = m / BSIZE
    · exact atK j at_
    · rw [others j at_] at mapped ⊢
      exact (root.handedOut j mapped).elim fun above below => ⟨above, by have := keeps.grows; omega⟩

/-! ## An input file -/

/-- An input file that mkfs takes in one block: its short name has no `/`
and fits in `DIRSIZ` bytes without its `_`, and its bytes fit one block. -/
def Accepted (f : InFile) : Prop :=
  47 ∉ shortName f.path ∧ (skipUnderscore (shortName f.path)).length ≤ DIRSIZ ∧ f.contents.length ≤ BSIZE

instance : DecidablePred Accepted := fun _ => inferInstanceAs (Decidable (_ ∧ _ ∧ _))

theorem appendFile_nil (inum : Nat) (s : State) : appendFile inum s [] = .ok s := by
  rw [appendFile.eq_1]

theorem appendFile_of_length_le {inum : Nat} {s : State} {contents : List UInt8} (nonempty : contents ≠ [])
    (small : contents.length ≤ BSIZE) : appendFile inum s contents = iappend s inum contents := by
  obtain ⟨b, bs, rfl⟩ := List.exists_cons_of_ne_nil nonempty
  rw [appendFile.eq_2, List.take_of_length_le small, List.drop_of_length_le small]
  simp only [appendFile_nil]
  -- the last read comes back empty: what the one `iappend` left
  cases iappend s inum (b :: bs) <;> rfl

/-- The bytes of a file of at most one block, into its fresh inode. -/
theorem appendFile_fresh {s : State} {inum : Nat} (fresh : table sb s.disk inum = freshDinode T_FILE)
    (bound : inum < NINODES) (len : s.len = FSSIZE) (metaLe : nmeta ≤ s.freeblock) (space : s.freeblock < FSSIZE)
    {contents : List UInt8} (small : contents.length ≤ BSIZE) :
    ∃ s', appendFile inum s contents = .ok s' ∧ Keeps s s' inum := by
  by_cases nonempty : contents = []
  · exact ⟨s, by rw [nonempty, appendFile_nil], Keeps.refl s inum⟩
  · have empty : HandedOut (table sb s.disk inum) s.freeblock := fun j mapped => by
      rw [fresh] at mapped
      exact absurd rfl mapped
    obtain ⟨s', _, appended, keeps, _⟩ :=
      iappend_one_block bound len metaLe space empty nonempty (by rw [fresh]; decide)
        (by rw [fresh]; simpa [freshDinode] using small)
    exact ⟨s', by rw [appendFile_of_length_le nonempty small, appended], keeps⟩

/-! ## The loop over the input files -/

/-- mkfs after `.`, `..` and `k` input files. -/
structure Made (s : State) (k : Nat) : Prop where
  root : RootHolds s ((k + 2) * 16)
  len : s.len = FSSIZE
  freeinode : s.freeinode = k + 2
  metaLe : nmeta ≤ s.freeblock
  used : s.freeblock ≤ nmeta + 2 + 2 * k

/-- One input file: a fresh inode, one more entry in the root and at most two
blocks. -/
theorem addFile_spec {s : State} {k : Nat} (made : Made s k) (more : k + 3 ≤ NINODES) {f : InFile}
    (accepted : Accepted f) : ∃ s', addFile ROOTINO s f = .ok s' ∧ Made s' (k + 1) := by
  obtain ⟨noSlash, short, small⟩ := accepted
  have sizes : nmeta = 46 ∧ FSSIZE = 2000 ∧ NINODES = 200 ∧ NDIRECT * BSIZE = 12288 ∧ ROOTINO = 1 :=
    ⟨nmeta_eq, rfl, rfl, rfl, rfl⟩
  have inum : s.freeinode = k + 2 := made.freeinode
  have inodeBlock : IBLOCK s.freeinode sb < nmeta := IBLOCK_lt_nmeta (by omega)
  -- `ialloc`: the next inode, fresh
  set s₁ := wsect { s with freeinode := s.freeinode + 1 } (IBLOCK s.freeinode sb)
    ((freshDinode T_FILE).write (s.disk (IBLOCK s.freeinode sb)) (s.freeinode % IPB)) with s₁_def
  have table₁ := @table_winode { s with freeinode := s.freeinode + 1 } s.freeinode (freshDinode T_FILE)
    (freshDinode_fits (by decide))
  have counters₁ : s₁.freeblock = s.freeblock ∧ s₁.freeinode = s.freeinode + 1 := ⟨rfl, rfl⟩
  have len₁ : s₁.len = FSSIZE := by
    simp only [s₁_def, wsect_len]
    show max s.len _ = FSSIZE
    rw [made.len]
    omega
  have root₁ : RootHolds s₁ ((k + 2) * 16) :=
    made.root.keep (by rw [table₁, if_neg (by omega)]) (le_refl _)
  -- `iappend` of its entry to the root
  obtain ⟨s₂, entered, keeps₂, root₂⟩ := iappend_root root₁ len₁ made.metaLe (by have := made.used; omega)
    (by omega) (by omega) (length_dirent s.freeinode (skipUnderscore (shortName f.path)))
  -- `appendFile` of its bytes
  have fresh₂ : table sb s₂.disk s.freeinode = freshDinode T_FILE := by
    rw [keeps₂.others _ (by omega) (by omega), table₁, if_pos rfl]
  have grows₂ := keeps₂.grows
  have byOne₂ := keeps₂.byOne
  obtain ⟨s₃, appended, keeps₃⟩ := appendFile_fresh fresh₂ (by omega) (keeps₂.len.trans len₁)
    (by have := made.metaLe; omega) (by have := made.used; omega) small
  refine ⟨s₃, ?_, ⟨?_, ?_, ?_, ?_, ?_⟩⟩
  · simp only [addFile, noSlash, if_false, Nat.not_lt.mpr short, ialloc_spec (show IBLOCK s.freeinode sb < s.len by
      rw [made.len]; omega), ok_bind]
    rw [← s₁_def, entered, ok_bind, appended]
  · have same : (k + 1 + 2) * 16 = (k + 2) * 16 + 16 := by ring
    rw [same]
    exact root₂.keep (keeps₃.others ROOTINO (by decide) (by omega)) keeps₃.grows
  · rw [keeps₃.len, keeps₂.len, len₁]
  · rw [keeps₃.freeinode, keeps₂.freeinode]
    omega
  · have := made.metaLe
    have := keeps₃.grows
    omega
  · have := made.used
    have := keeps₃.byOne
    omega

/-- The loop over the input files, by induction on the files left. -/
theorem addFiles_spec (files : List InFile) (accepted : ∀ f ∈ files, Accepted f) {s : State} {k : Nat}
    (made : Made s k) (room : k + files.length + 2 ≤ NINODES) :
    ∃ s', files.foldlM (addFile ROOTINO) s = .ok s' ∧ Made s' (k + files.length) := by
  induction files generalizing s k with
  | nil => exact ⟨s, rfl, made⟩
  | cons f rest ih =>
    simp only [List.length_cons] at room
    obtain ⟨s₁, added, made₁⟩ := addFile_spec made (by omega) (accepted f List.mem_cons_self)
    obtain ⟨s', rest', made'⟩ :=
      ih (fun g mem => accepted g (List.mem_cons_of_mem f mem)) made₁ (by omega)
    refine ⟨s', by rw [List.foldlM_cons, added, ok_bind, rest'], ?_⟩
    have same : k + (rest.length + 1) = k + 1 + rest.length := by omega
    rw [List.length_cons, same]
    exact made'

/-! ## main -/

/-- The loop that zeroes the image writes zero blocks over a file of zeros:
it only makes the file `n` blocks long. -/
theorem zeroLoop (n len freeinode freeblock : Nat) :
    (List.range n).foldl (fun s i => wsect s i Block.zero) ⟨fun _ => Block.zero, len, freeinode, freeblock⟩ =
      ⟨fun _ => Block.zero, max len n, freeinode, freeblock⟩ := by
  induction n with
  | zero => simp
  | succ n ih =>
    rw [List.range_succ, List.foldl_append, ih, List.foldl_cons, List.foldl_nil]
    simp only [wsect, State.mk.injEq, Function.update_eq_self_iff, true_and, and_true]
    omega

/-- The image file once zeroed and given its superblock. -/
theorem zeroed_image : wsect ((List.range FSSIZE).foldl (fun s i => wsect s i Block.zero)
    ⟨fun _ => Block.zero, 0, 1, nmeta⟩) 1 superBlock =
    ⟨Function.update (fun _ => Block.zero) 1 superBlock, FSSIZE, 1, nmeta⟩ := by
  rw [zeroLoop]
  rfl

/-- The root as mkfs leaves it, for every input it accepts with at most
`NINODES - 2` files of at most one block each: mkfs succeeds, the root's size
is the entries' length rounded up past the next block boundary, and a direct
address is set exactly where the entries reach. -/
theorem mkfs_root (files : List InFile) (accepted : ∀ f ∈ files, Accepted f) (room : files.length + 2 ≤ NINODES) :
    ∃ s, mkfs files = .ok s ∧
      (table sb s.disk ROOTINO).size = ((files.length + 2) * 16 / BSIZE + 1) * BSIZE ∧
      ∀ j : Fin (NDIRECT + 1),
        (table sb s.disk ROOTINO).addrs j ≠ 0 ↔ j.val < NDIRECT ∧ j.val * BSIZE < (files.length + 2) * 16 := by
  have sizes : nmeta = 46 ∧ FSSIZE = 2000 ∧ NINODES = 200 ∧ NDIRECT * BSIZE = 12288 ∧ IBLOCK ROOTINO sb = 32 :=
    ⟨nmeta_eq, rfl, rfl, rfl, rfl⟩
  -- the image file, zeroed, with the superblock
  set s₀ : State := ⟨Function.update (fun _ => Block.zero) 1 superBlock, FSSIZE, 1, nmeta⟩ with s₀_def
  have zeroed : wsect ((List.range FSSIZE).foldl (fun s i => wsect s i Block.zero)
      ⟨fun _ => Block.zero, 0, 1, nmeta⟩) 1 superBlock = s₀ := zeroed_image
  -- the root: inode 1, fresh
  set s₁ := wsect { s₀ with freeinode := s₀.freeinode + 1 } (IBLOCK s₀.freeinode sb)
    ((freshDinode T_DIR).write (s₀.disk (IBLOCK s₀.freeinode sb)) (s₀.freeinode % IPB)) with s₁_def
  have isRoot : s₀.freeinode = ROOTINO := rfl
  have table₁ := @table_winode { s₀ with freeinode := s₀.freeinode + 1 } s₀.freeinode (freshDinode T_DIR)
    (freshDinode_fits (by decide))
  have len₁ : s₁.len = FSSIZE := by
    simp only [s₁_def, wsect_len]
    show max FSSIZE (IBLOCK ROOTINO sb + 1) = FSSIZE
    omega
  have counters₁ : s₁.freeblock = nmeta ∧ s₁.freeinode = 2 := ⟨rfl, rfl⟩
  have root₁ : RootHolds s₁ 0 := by
    refine ⟨by rw [table₁, if_pos isRoot.symm]; rfl, fun j => ?_, fun j mapped => ?_⟩
    · rw [table₁, if_pos isRoot.symm]
      simp [freshDinode]
    · rw [table₁, if_pos isRoot.symm] at mapped
      exact absurd rfl mapped
  -- `.` and `..`
  obtain ⟨s₂, dot, keeps₂, root₂⟩ :=
    iappend_root root₁ len₁ (le_refl _) (by decide) (by decide) (by decide) (length_dirent ROOTINO [46])
  obtain ⟨s₃, dotdot, keeps₃, root₃⟩ :=
    iappend_root root₂ (keeps₂.len.trans len₁) (by have := keeps₂.grows; exact this)
      (by have := keeps₂.byOne; show s₂.freeblock < FSSIZE; omega) (by decide) (by decide) (length_dirent ROOTINO [46, 46])
  have made₃ : Made s₃ 0 := by
    have := keeps₂.byOne
    have := keeps₃.byOne
    have := keeps₂.grows
    have := keeps₃.grows
    exact ⟨root₃, by rw [keeps₃.len, keeps₂.len, len₁], by rw [keeps₃.freeinode, keeps₂.freeinode]; rfl,
      by show nmeta ≤ s₃.freeblock; omega, by show s₃.freeblock ≤ nmeta + 2 + 2 * 0; omega⟩
  -- the input files
  obtain ⟨s₄, added, made₄⟩ := addFiles_spec files accepted made₃ (by omega)
  -- fix size of root inode dir
  set d := table sb s₄.disk ROOTINO with d_def
  set off := (d.size / BSIZE + 1) * BSIZE with off_def
  have entries : d.size = (files.length + 2) * 16 := by
    rw [made₄.root.size, Nat.zero_add]
  have fits : ({ d with size := off } : Dinode).Fits := by
    refine fits_with (table_fits s₄.disk ROOTINO) (table_fits s₄.disk ROOTINO).addrs ?_
    rw [off_def, entries, BSIZE_eq]
    omega
  have rootRead : IBLOCK ROOTINO sb < s₄.len := by
    rw [made₄.len]
    omega
  set s₅ := wsect s₄ (IBLOCK ROOTINO sb) (({ d with size := off } : Dinode).write (s₄.disk (IBLOCK ROOTINO sb))
    (ROOTINO % IPB)) with s₅_def
  -- the bitmap
  have fewBlocks : s₅.freeblock < BPB := by
    have := made₄.used
    show s₄.freeblock < BPB
    rw [BPB_eq]
    omega
  -- the bitmap block is not the root's inode block
  have final : table sb (wsect s₅ sb.bmapstart ((List.range s₅.freeblock).foldl setBit Block.zero)).disk ROOTINO =
      { d with size := off } := by
    rw [table_wsect_of_ne _ (by decide), s₅_def, table_winode _ fits, if_pos rfl]
  refine ⟨wsect s₅ sb.bmapstart ((List.range s₅.freeblock).foldl setBit Block.zero), ?_, ?_, fun j => ?_⟩
  · have rootSlot : IBLOCK s₀.freeinode sb < s₀.len := by
      show IBLOCK ROOTINO sb < FSSIZE
      omega
    simp only [mkfs, zeroed, ialloc_spec rootSlot, ok_bind]
    rw [← s₁_def]
    simp only [isRoot, ne_eq, not_true_eq_false, if_false]
    rw [dot, ok_bind, dotdot, ok_bind, added, ok_bind, rinode_spec rootRead, ok_bind, ← d_def, ← off_def,
      winode_spec rootRead, ok_bind, ← s₅_def, balloc, if_pos fewBlocks]
  · rw [final, ← entries]
  · rw [final, ← Nat.zero_add files.length]
    exact made₄.root.mapped j

/-- The root has no holes exactly when its entries do not end on a block
boundary: otherwise the rounding adds a block below the size that has no
address. -/
theorem mkfs_root_noHoles_iff (files : List InFile) (accepted : ∀ f ∈ files, Accepted f)
    (room : files.length + 2 ≤ NINODES) :
    ∃ s, mkfs files = .ok s ∧
      (NoHoles s.disk (table sb s.disk ROOTINO) ↔ (files.length + 2) * 16 % BSIZE ≠ 0) := by
  obtain ⟨s, made, size, mapped⟩ := mkfs_root files accepted room
  refine ⟨s, made, ?_⟩
  have few : (files.length + 2) * 16 ≤ 3200 := by
    simp only [NINODES] at room
    omega
  -- below the size every index is direct, where `blockAddr` is the address itself
  have direct : ∀ bn, bn * BSIZE < (table sb s.disk ROOTINO).size →
      (blockAddr s.disk (table sb s.disk ROOTINO) bn ≠ 0 ↔ bn * BSIZE < (files.length + 2) * 16) := by
    intro bn below
    rw [size, BSIZE_eq] at below
    have inDirect : bn < NDIRECT := by
      rw [NDIRECT_eq]
      omega
    rw [blockAddr, dif_pos inDirect, mapped]
    exact and_iff_right inDirect
  constructor
  · intro noHoles full
    have below : (files.length + 2) * 16 / BSIZE * BSIZE < (table sb s.disk ROOTINO).size := by
      rw [size, BSIZE_eq]
      omega
    have reached := (direct _ below).mp (noHoles _ below)
    rw [BSIZE_eq] at reached full
    omega
  · intro notFull bn below
    refine (direct bn below).mpr ?_
    rw [size, BSIZE_eq] at below
    rw [BSIZE_eq] at notFull ⊢
    omega

/-- Sixty-two programs of one byte, `user/_A` to `user/_~`: with `.` and `..`
their entries fill the root's first block exactly. -/
def sixtyTwoFiles : List InFile :=
  (List.range 62).map fun i => { path := [117, 115, 101, 114, 47, 95, (65 + i).toUInt8], contents := [0] }

/-- With 62 input files the root is two blocks long and its second block has
no address. -/
theorem mkfs_root_hole_62 :
    ∃ s, mkfs sixtyTwoFiles = .ok s ∧ (table sb s.disk ROOTINO).size = 2 * BSIZE ∧
      blockAddr s.disk (table sb s.disk ROOTINO) 1 = 0 := by
  obtain ⟨s, made, size, mapped⟩ := mkfs_root sixtyTwoFiles (by decide) (by decide)
  have count : sixtyTwoFiles.length = 62 := rfl
  refine ⟨s, made, by rw [size, count]; rfl, ?_⟩
  have inDirect : 1 < NDIRECT := by decide
  rw [blockAddr, dif_pos inDirect]
  by_contra mappedOne
  have reached : 1 * BSIZE < (sixtyTwoFiles.length + 2) * 16 := ((mapped _).mp mappedOne).2
  rw [count, BSIZE_eq] at reached
  omega

end Xv6.Mkfs
