/-
# Kernel.ReadWrite -- `readi` and `writei`

An inode's content is the sequence of its first `size` bytes, byte `p` being
byte `p % BSIZE` of the block `bmap` finds for index `p / BSIZE` (`fileByte`).
`readi` and `writei` walk a byte range block by block, copying
`min(n - tot, BSIZE - off % BSIZE)` bytes per pass, so each pass stays inside
one block and copies at least one byte: the loops below take the byte count
as fuel, which is always enough (`readLoop_eq`).

An inode has no holes (`NoHoles`) when every block index below its size has
a block.  Over such an inode `readi` only reads: `readi_spec` says that it
returns the bytes `[off, min(off + n, size))` of the content, or -1 when the
copy to the destination fails, and leaves the blocks, the calls made and the
inode exactly as they were, so it never reaches `balloc` or `log_write`.
-/
import Xv6.Kernel.Inode
import Xv6.Kernel.Vm

namespace Xv6

open Bytes

set_option autoImplicit false

/-! ## fs.c: `readi` and `writei` -/

/-- The loop of `readi`: `tot` bytes read so far, the next at offset `off`,
copied to `dst`.  `2 ^ 32 - 1` is `tot = -1`. -/
def readLoop (sb : Superblock) (userDst : Bool) (n : Nat) :
    (fuel tot off dst : Nat) → Fs → Inode → Mem → Except String (Nat × Fs × Inode × Mem)
  | 0, tot, _, _, fs, ip, m => .ok (tot, fs, ip, m)
  | fuel + 1, tot, off, dst, fs, ip, m =>
      if tot < n then
        match bmap sb fs ip (off / BSIZE) with
        | .error e => .error e
        | .ok (addr, fs, ip) =>
            if addr = 0 then .ok (tot, fs, ip, m)
            else
              let mm := min (n - tot) (BSIZE - off % BSIZE)
              match eitherCopyout m userDst dst (slice (fs.disk addr) (off % BSIZE) mm) with
              | (m, true) => readLoop sb userDst n fuel (tot + mm) (off + mm) (dst + mm) fs ip m
              | (m, false) => .ok (2 ^ 32 - 1, fs, ip, m)
      else .ok (tot, fs, ip, m)

/-- `readi`: read `n` bytes from offset `off` of the inode to `dst`; the count
read, or -1 when the copy fails. -/
def readi (sb : Superblock) (fs : Fs) (ip : Inode) (m : Mem) (userDst : Bool) (dst : Nat)
    (off n : UInt32) : Except String (Int × Fs × Inode × Mem) :=
  if off.toNat > ip.size ∨ off + n < off then .ok (0, fs, ip, m)
  else
    let n := if off.toNat + n.toNat > ip.size then ip.size - off.toNat else n.toNat
    match readLoop sb userDst n n 0 off.toNat dst fs ip m with
    | .error e => .error e
    | .ok (tot, fs, ip, m) => .ok (signed 4 tot, fs, ip, m)

/-- The loop of `writei`: `tot` bytes written so far, the next at offset `off`,
copied from `src`.  It returns the count and the offset reached. -/
def writeLoop (sb : Superblock) (m : Mem) (userSrc : Bool) (n : Nat) :
    (fuel tot off src : Nat) → Fs → Inode → Except String (Nat × Nat × Fs × Inode)
  | 0, tot, off, _, fs, ip => .ok (tot, off, fs, ip)
  | fuel + 1, tot, off, src, fs, ip =>
      if tot < n then
        match bmap sb fs ip (off / BSIZE) with
        | .error e => .error e
        | .ok (addr, fs, ip) =>
            if addr = 0 then .ok (tot, off, fs, ip)
            else
              let mm := min (n - tot) (BSIZE - off % BSIZE)
              let (bytes, ok) := eitherCopyin m userSrc src mm
              -- the bytes a failing copy moved before it failed are in the buffer all the same
              let fs := fs.write addr (copyInto (fs.disk addr) (off % BSIZE) bytes)
              if ok then writeLoop sb m userSrc n fuel (tot + mm) (off + mm) (src + mm) (fs.logWrite addr) ip
              else .ok (tot, off, fs, ip)
      else .ok (tot, off, fs, ip)

/-- `writei`: write `n` bytes from `src` at offset `off` of the inode; the
count written, or -1 for a range it refuses. -/
def writei (sb : Superblock) (fs : Fs) (ip : Inode) (m : Mem) (userSrc : Bool) (src : Nat)
    (off n : UInt32) : Except String (Int × Fs × Inode) :=
  if off.toNat > ip.size ∨ off + n < off then .ok (-1, fs, ip)
  else if off.toNat + n.toNat > MAXFILE * BSIZE then .ok (-1, fs, ip)
  else
    match writeLoop sb m userSrc n.toNat n.toNat 0 off.toNat src fs ip with
    | .error e => .error e
    | .ok (tot, off, fs, ip) =>
        let ip := if off > ip.size then { ip with size := off } else ip
        -- the inode is written back even if the size did not change
        .ok (signed 4 tot, iupdate sb fs ip, ip)

/-! ## An inode's content -/

/-- Byte `p` of an inode's content, through its block map. -/
def fileByte (disk : Disk) (d : Dinode) (p : Nat) : UInt8 :=
  get (disk (blockAddr disk d (p / BSIZE))) (p % BSIZE)

/-- The bytes `[p, p + k)` of an inode's content. -/
def fileBytes (disk : Disk) (d : Dinode) (p k : Nat) : List UInt8 :=
  (List.range k).map fun i => fileByte disk d (p + i)

/-- Every block index below the size has a block. -/
def NoHoles (disk : Disk) (d : Dinode) : Prop :=
  ∀ bn, bn * BSIZE < d.size → blockAddr disk d bn ≠ 0

theorem fileBytes_add (disk : Disk) (d : Dinode) (p k l : Nat) :
    fileBytes disk d p (k + l) = fileBytes disk d p k ++ fileBytes disk d (p + k) l := by
  simp only [fileBytes, List.range_add, List.map_append, List.map_map]
  congr 1
  apply List.map_congr_left
  intro i _
  simp [Nat.add_assoc]

/-- One pass of the loops copies bytes of one block: the content at `off` on. -/
theorem slice_eq_fileBytes (disk : Disk) (d : Dinode) {off k : Nat} (inBlock : k ≤ BSIZE - off % BSIZE) :
    slice (disk (blockAddr disk d (off / BSIZE))) (off % BSIZE) k = fileBytes disk d off k := by
  apply List.ext_getElem (by simp [fileBytes])
  intro i hi _
  have below : i < k := by simpa using hi
  have sameBlock : (off + i) / BSIZE = off / BSIZE := by
    rw [BSIZE_eq] at inBlock ⊢
    omega
  have offset : (off + i) % BSIZE = off % BSIZE + i := by
    rw [BSIZE_eq] at inBlock ⊢
    omega
  simp [getElem_slice, fileBytes, fileByte, sameBlock, offset]

/-! ## Reading an inode without holes -/

/-- Where a read lands: user or kernel memory with the bytes `bs` from `dst` on. -/
def Mem.store (m : Mem) (userDst : Bool) (dst : Nat) (bs : List UInt8) : Mem :=
  if userDst then { m with vm := { m.vm with byte := storeBytes m.vm.byte dst bs } }
  else { m with kmem := storeBytes m.kmem dst bs }

/-- A copy of `k` bytes to `dst` cannot fail. -/
def Mem.CanWrite (m : Mem) (userDst : Bool) (dst k : Nat) : Prop :=
  userDst = true → m.vm.Writable dst k

theorem Mem.store_append (m : Mem) (userDst : Bool) (dst : Nat) (bs cs : List UInt8) :
    (m.store userDst dst bs).store userDst (dst + bs.length) cs = m.store userDst dst (bs ++ cs) := by
  cases userDst <;> simp [Mem.store, storeBytes_append]

/-- A copy to writable memory stores its bytes. -/
theorem eitherCopyout_of_canWrite {m : Mem} {userDst : Bool} {dst : Nat} {bs : List UInt8}
    (canWrite : m.CanWrite userDst dst bs.length) :
    eitherCopyout m userDst dst bs = (m.store userDst dst bs, true) := by
  cases userDst with
  | false => rfl
  | true => simp [eitherCopyout, copyout_of_mapped _ _ _ (canWrite rfl), Mem.store]

/-- A copy that succeeds has stored its bytes. -/
theorem eitherCopyout_of_ok {m : Mem} {userDst : Bool} {dst : Nat} {bs : List UInt8}
    (ok : (eitherCopyout m userDst dst bs).2 = true) :
    (eitherCopyout m userDst dst bs).1 = m.store userDst dst bs := by
  cases userDst with
  | false => rfl
  | true =>
      simp only [eitherCopyout] at ok ⊢
      simp [copyout_of_ok _ _ _ ok, Mem.store]

theorem Mem.canWrite_store {m : Mem} {userDst : Bool} {dst k : Nat} (canWrite : m.CanWrite userDst dst k)
    (a : Nat) (bs : List UInt8) : (m.store userDst a bs).CanWrite userDst dst k := by
  cases userDst with
  | false => intro never; cases never
  | true => exact canWrite

/-- The `readi` loop from offset `base + tot` over blocks that all exist: it
reads the rest of the range, or stops with -1 at a failing copy, and changes no
block and no inode field. -/
theorem readLoop_eq (sb : Superblock) (userDst : Bool) (n base : Nat) (fs : Fs) (ip : Inode)
    (mapped : ∀ p, base ≤ p → p < base + n → blockAddr fs.disk ip.toDinode (p / BSIZE) ≠ 0)
    (inRange : ∀ p, base ≤ p → p < base + n → p / BSIZE < MAXFILE) :
    ∀ fuel tot dst (m : Mem), n - tot ≤ fuel → tot ≤ n →
      ∃ r m', readLoop sb userDst n fuel tot (base + tot) dst fs ip m = .ok (r, fs, ip, m') ∧
        ((r = n ∧ m' = m.store userDst dst (fileBytes fs.disk ip.toDinode (base + tot) (n - tot))) ∨
          r = 2 ^ 32 - 1) ∧
        (m.CanWrite userDst dst (n - tot) → r = n)
  | fuel, tot, dst, m, enough, atMost => by
      by_cases more : tot < n
      · obtain ⟨fuel, rfl⟩ : ∃ f, fuel = f + 1 := ⟨fuel - 1, by omega⟩
        -- one pass: the block exists, so `bmap` returns it and changes nothing
        have bmapEq := bmap_of_mapped sb fs ip (inRange _ (by omega) (by omega))
          (mapped (base + tot) (by omega) (by omega))
        simp only [readLoop, if_pos more, bmapEq, if_neg (mapped (base + tot) (by omega) (by omega))]
        set mm := min (n - tot) (BSIZE - (base + tot) % BSIZE) with mm_def
        have moved : 0 < mm := by
          rw [mm_def, BSIZE_eq]
          omega
        rw [slice_eq_fileBytes fs.disk ip.toDinode (Nat.min_le_right _ _)]
        set chunk := fileBytes fs.disk ip.toDinode (base + tot) mm with chunk_def
        have chunkLength : chunk.length = mm := by simp [chunk_def, fileBytes]
        cases copied : eitherCopyout m userDst dst chunk with
        | mk m₁ ok =>
          have canFirst : m.CanWrite userDst dst (n - tot) → m.CanWrite userDst dst chunk.length :=
            fun canWrite user x lo hi => canWrite user x lo (by omega)
          cases ok with
          | false =>
              refine ⟨2 ^ 32 - 1, m₁, rfl, .inr rfl, fun canWrite => ?_⟩
              rw [eitherCopyout_of_canWrite (canFirst canWrite)] at copied
              cases copied
          | true =>
              have stored : m₁ = m.store userDst dst chunk := by
                have := @eitherCopyout_of_ok m userDst dst chunk
                  (by rw [copied])
                rw [copied] at this
                exact this
              obtain ⟨r, m', loop, result, full⟩ :=
                readLoop_eq sb userDst n base fs ip mapped inRange fuel (tot + mm) (dst + mm) m₁
                  (by omega) (by omega)
              rw [← Nat.add_assoc] at loop
              refine ⟨r, m', loop, ?_, fun canWrite => full ?_⟩
              · rcases result with ⟨rfl, rest⟩ | failed
                · -- the pass stored the first `mm` bytes and the rest of the loop the others
                  left
                  refine ⟨rfl, ?_⟩
                  rw [rest, stored, ← Nat.add_assoc, ← chunkLength, Mem.store_append, chunkLength,
                    chunk_def, ← fileBytes_add, show mm + (r - (tot + mm)) = r - tot by omega]
                · exact .inr failed
              · rw [stored]
                exact Mem.canWrite_store (fun user x lo hi => canWrite user x (by omega) (by omega)) _ _
      · have done : tot = n := by omega
        subst done
        obtain ⟨f, rfl⟩ | zero : (∃ f, fuel = f + 1) ∨ fuel = 0 :=
          (Nat.eq_zero_or_eq_succ_pred fuel).elim (fun h => .inr h) (fun h => .inl ⟨_, h⟩)
        · refine ⟨tot, m, by simp [readLoop], .inl ⟨rfl, ?_⟩, fun _ => rfl⟩
          cases userDst <;> simp [Mem.store, fileBytes]
        · subst zero
          refine ⟨tot, m, rfl, .inl ⟨rfl, ?_⟩, fun _ => rfl⟩
          cases userDst <;> simp [Mem.store, fileBytes]

/-- `off + n < off` on `uint`s is the sum running past `2 ^ 32`. -/
theorem UInt32.add_lt_self_iff (off n : UInt32) : off + n < off ↔ 2 ^ 32 ≤ off.toNat + n.toNat := by
  rw [UInt32.lt_iff_toNat_lt, UInt32.toNat_add]
  have offBound := off.toNat_lt
  have nBound := n.toNat_lt
  omega

/-- Over an inode without holes, `readi` delivers the bytes
`[off, min(off + n, size))` of the content and returns their count, or
returns -1 when the copy to the destination fails, which it does not when the
destination can be written; it changes no block, makes no call and leaves the
inode as it was. -/
theorem readi_of_noHoles (sb : Superblock) (fs : Fs) (ip : Inode) (m : Mem) (userDst : Bool)
    (dst : Nat) {off n : UInt32} (noHoles : NoHoles fs.disk ip.toDinode)
    (small : ip.size ≤ MAXFILE * BSIZE) (inside : off.toNat ≤ ip.size)
    (noWrap : off.toNat + n.toNat < 2 ^ 32) :
    ∃ r m', readi sb fs ip m userDst dst off n = .ok (r, fs, ip, m') ∧
      ((r = ↑(min (off.toNat + n.toNat) ip.size - off.toNat) ∧
          m' = m.store userDst dst (fileBytes fs.disk ip.toDinode off.toNat
            (min (off.toNat + n.toNat) ip.size - off.toNat))) ∨ r = -1) ∧
      (m.CanWrite userDst dst (min (off.toNat + n.toNat) ip.size - off.toNat) →
        r = ↑(min (off.toNat + n.toNat) ip.size - off.toNat)) := by
  -- the clamped count of bytes the loop copies
  set k := min (off.toNat + n.toNat) ip.size - off.toNat with k_def
  have clamp : (if off.toNat + n.toNat > ip.size then ip.size - off.toNat else n.toNat) = k := by
    split <;> omega
  have mapped : ∀ p, off.toNat ≤ p → p < off.toNat + k →
      blockAddr fs.disk ip.toDinode (p / BSIZE) ≠ 0 := fun p _ hi =>
    noHoles _ (by have := Nat.div_mul_le_self p BSIZE; omega)
  have inRange : ∀ p, off.toNat ≤ p → p < off.toNat + k → p / BSIZE < MAXFILE := fun p _ hi => by
    rw [BSIZE_eq] at small ⊢
    omega
  obtain ⟨r, m', loop, result, full⟩ :=
    readLoop_eq sb userDst k off.toNat fs ip mapped inRange k 0 dst m (by omega) (by omega)
  simp only [Nat.add_zero, Nat.sub_zero] at loop result full
  have fits : 2 * k < 256 ^ 4 := by
    rw [BSIZE_eq, MAXFILE_eq] at small
    omega
  have minusOne : signed 4 (2 ^ 32 - 1) = -1 := by decide
  refine ⟨signed 4 r, m', ?_, ?_, fun canWrite => ?_⟩
  · rw [readi, if_neg (by rw [UInt32.add_lt_self_iff]; omega), clamp]
    simp only [loop]
  · rcases result with ⟨rfl, stored⟩ | rfl
    · exact .inl ⟨signed_of_small fits, stored⟩
    · exact .inr minusOne
  · rw [full canWrite]
    exact signed_of_small fits

end Xv6
