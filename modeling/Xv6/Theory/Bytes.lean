/-
# Theory.Bytes -- little-endian fields of a fixed-size byte array

Kernel structures live inside byte arrays: a log header, sixteen on-disk inodes
and a free bitmap all have the shape of a disk block, and code reads and writes
them through typed fields.  `field a o k` is the unsigned `k`-byte little-endian
value at byte offset `o` of `a`, and `setField a o k v` stores `v` there modulo
`256 ^ k`, as a C assignment to an unsigned field of that width does.

The layers above use only the lens laws: a field reads back what was stored
(`field_setField_self`), a store leaves every field it does not overlap alone
(`field_setField_of_disjoint`), and storing the value a field already holds
changes nothing (`setField_of_field_eq`).  Bytes past the end of the array read
as zero and stores past it are dropped, so no law carries a bound it does not use.

A free bitmap is the same array read bit by bit: bit `i` is bit `i % 8` of byte
`i / 8`, tested, set and cleared through the C mask `1 << (i % 8)`; setting or
clearing one bit leaves every other bit alone (`bit_setBit`, `bit_clearBit`).
A run of bytes is what `memmove` moves: `slice` reads one and `copyInto`
overwrites one in place (`get_copyInto`).
-/
import Mathlib

namespace Bytes

set_option autoImplicit false

variable {n : Nat}

/-! ## Bytes and fields -/

/-- The byte at position `i`, as a number; `0` past the end of the array. -/
def byteAt (a : Fin n → UInt8) (i : Nat) : Nat :=
  if h : i < n then (a ⟨i, h⟩).toNat else 0

/-- The unsigned `k`-byte little-endian field at byte offset `o`. -/
def field (a : Fin n → UInt8) (o : Nat) : Nat → Nat
  | 0 => 0
  | k + 1 => byteAt a o + 256 * field a (o + 1) k

/-- Store `v` modulo `256 ^ k` as the `k`-byte little-endian field at offset `o`. -/
def setField (a : Fin n → UInt8) (o k v : Nat) : Fin n → UInt8 :=
  fun i => if o ≤ i.val ∧ i.val < o + k then UInt8.ofNat (v / 256 ^ (i.val - o)) else a i

theorem byteAt_lt (a : Fin n → UInt8) (i : Nat) : byteAt a i < 256 := by
  unfold byteAt
  split
  · exact (a _).toNat_lt
  · omega

theorem field_lt (a : Fin n → UInt8) (o : Nat) : ∀ k, field a o k < 256 ^ k
  | 0 => by simp [field]
  | k + 1 => by
      have low := byteAt_lt a o
      have high := field_lt a (o + 1) k
      rw [field, pow_succ]
      omega

theorem byteAt_setField (a : Fin n → UInt8) (o k v i : Nat) :
    byteAt (setField a o k v) i =
      if o ≤ i ∧ i < o + k ∧ i < n then v / 256 ^ (i - o) % 256 else byteAt a i := by
  unfold byteAt setField
  by_cases bound : i < n
  · by_cases inside : o ≤ i ∧ i < o + k
    · simp [bound, inside]
    · have outside : ¬ (o ≤ i ∧ i < o + k ∧ i < n) := fun h => inside ⟨h.1, h.2.1⟩
      rw [if_neg outside]
      simp [bound, inside]
  · simp [bound]

/-- Every field of an all-zero array is zero. -/
theorem field_zero (o : Nat) : ∀ k, field (fun _ : Fin n => (0 : UInt8)) o k = 0
  | 0 => rfl
  | k + 1 => by
      rw [field, field_zero (o + 1) k]
      simp [byteAt]

/-- A field depends only on its own bytes. -/
theorem field_congr {a b : Fin n → UInt8} : ∀ {o k : Nat},
    (∀ i, o ≤ i → i < o + k → byteAt a i = byteAt b i) → field a o k = field b o k
  | _, 0, _ => rfl
  | o, k + 1, same => by
      have head := same o (le_refl o) (by omega)
      have tail : field a (o + 1) k = field b (o + 1) k :=
        field_congr fun i lo hi => same i (by omega) (by omega)
      rw [field, field, head, tail]

/-- A field whose bytes are the base-256 digits of `v` holds `v` modulo `256 ^ k`. -/
theorem field_eq_of_bytes {a : Fin n → UInt8} : ∀ {o k v : Nat},
    (∀ j, j < k → byteAt a (o + j) = v / 256 ^ j % 256) → field a o k = v % 256 ^ k
  | _, 0, v, _ => by simp [field, Nat.mod_one]
  | o, k + 1, v, digits => by
      have head : byteAt a o = v % 256 := by simpa using digits 0 (by omega)
      have tail : field a (o + 1) k = v / 256 % 256 ^ k := by
        apply field_eq_of_bytes
        intro j hj
        have digit := digits (j + 1) (by omega)
        rw [show o + (j + 1) = o + 1 + j by omega, pow_succ', ← Nat.div_div_eq_div_mul] at digit
        exact digit
      rw [field, head, tail, pow_succ', Nat.mod_mul]

/-- Each byte of a field is the matching base-256 digit of its value. -/
theorem byteAt_eq_of_field (a : Fin n → UInt8) : ∀ {o k j : Nat}, j < k →
    byteAt a (o + j) = field a o k / 256 ^ j % 256
  | _, 0, _, bound => absurd bound (Nat.not_lt_zero _)
  | o, k + 1, 0, _ => by
      have low := byteAt_lt a o
      simp only [field, Nat.add_zero, pow_zero, Nat.div_one]
      omega
  | o, k + 1, j + 1, bound => by
      have rest := byteAt_eq_of_field a (o := o + 1) (k := k) (j := j) (by omega)
      have shift : (byteAt a o + 256 * field a (o + 1) k) / 256 = field a (o + 1) k := by
        have low := byteAt_lt a o
        omega
      rw [show o + (j + 1) = o + 1 + j by omega, rest, field, pow_succ',
        ← Nat.div_div_eq_div_mul, shift]

/-- The digit `j` of `v` survives reduction modulo `256 ^ k` for `j < k`. -/
private theorem digit_mod_pow {v j k : Nat} (lower : j < k) :
    v % 256 ^ k / 256 ^ j % 256 = v / 256 ^ j % 256 := by
  obtain ⟨r, rfl⟩ : ∃ r, k = j + (r + 1) := ⟨k - j - 1, by omega⟩
  rw [pow_add, Nat.mod_mul_right_div_self, pow_succ', Nat.mod_mul_right_mod]

/-! ## The lens laws -/

/-- A field reads back the value stored in it, modulo its width. -/
theorem field_setField_self (a : Fin n → UInt8) {o k : Nat} (v : Nat) (fits : o + k ≤ n) :
    field (setField a o k v) o k = v % 256 ^ k := by
  apply field_eq_of_bytes
  intro j hj
  rw [byteAt_setField, if_pos ⟨by omega, by omega, by omega⟩, Nat.add_sub_cancel_left]

/-- A store leaves every field it does not overlap alone. -/
theorem field_setField_of_disjoint (a : Fin n → UInt8) {o k o' k' : Nat} (v : Nat)
    (apart : o + k ≤ o' ∨ o' + k' ≤ o) :
    field (setField a o k v) o' k' = field a o' k' := by
  apply field_congr
  intro i lo hi
  rw [byteAt_setField, if_neg (by omega)]

/-- Storing the value a field already holds changes nothing. -/
theorem setField_of_field_eq {a : Fin n → UInt8} {o k v : Nat}
    (holds : field a o k = v % 256 ^ k) : setField a o k v = a := by
  funext i
  unfold setField
  split
  · rename_i inside
    have digit := byteAt_eq_of_field a (o := o) (k := k) (j := i.val - o) (by omega)
    have at_i : byteAt a i.val = (a i).toNat := by simp [byteAt, i.isLt]
    rw [show o + (i.val - o) = i.val by omega, at_i, holds] at digit
    apply UInt8.toNat.inj
    rw [UInt8.toNat_ofNat', digit, digit_mod_pow (by omega)]
  · rfl

/-! ## Arrays of fields -/

/-- Store `f 0, ..., f (count - 1)` as consecutive `w`-byte fields from offset `o`:
`memmove` of a C array of `count` unsigned words. -/
def setWords (a : Fin n → UInt8) (o w count : Nat) (f : Nat → Nat) : Fin n → UInt8 :=
  (List.range count).foldl (fun a k => setField a (o + w * k) w (f k)) a

theorem setWords_succ (a : Fin n → UInt8) (o w count : Nat) (f : Nat → Nat) :
    setWords a o w (count + 1) f = setField (setWords a o w count f) (o + w * count) w (f count) := by
  rw [setWords, List.range_succ, List.foldl_append]
  rfl

/-- The stores leave every field outside the array alone. -/
theorem field_setWords_of_disjoint (a : Fin n → UInt8) {o w o' k' : Nat} (f : Nat → Nat) :
    ∀ {count : Nat}, o' + k' ≤ o ∨ o + w * count ≤ o' →
      field (setWords a o w count f) o' k' = field a o' k'
  | 0, _ => rfl
  | count + 1, apart => by
      have before : o' + k' ≤ o ∨ o + w * count ≤ o' := by
        rcases apart with h | h
        · exact .inl h
        · right
          nlinarith
      rw [setWords_succ, field_setField_of_disjoint _ _ (by rw [Nat.mul_succ] at apart; omega),
        field_setWords_of_disjoint a f before]

/-- Each word of the array reads back modulo its width. -/
theorem field_setWords (a : Fin n → UInt8) {o w : Nat} (f : Nat → Nat) :
    ∀ {count j : Nat}, j < count → o + w * count ≤ n →
      field (setWords a o w count f) (o + w * j) w = f j % 256 ^ w
  | 0, _, bound, _ => absurd bound (Nat.not_lt_zero _)
  | count + 1, j, bound, fits => by
      rw [setWords_succ]
      rcases Nat.lt_succ_iff_lt_or_eq.mp bound with earlier | rfl
      · -- an earlier word: the last store lies past it
        have apart : o + w * count ≥ o + w * j + w := by nlinarith
        rw [field_setField_of_disjoint _ _ (.inr apart)]
        exact field_setWords a f earlier (by nlinarith)
      · exact field_setField_self _ _ (by rw [Nat.mul_succ] at fits; omega)

/-! ## Signed fields -/

/-- The signed value of a `k`-byte field holding the bit pattern `v`: a C read
of an `int` or a `short`. -/
def signed (k v : Nat) : Int := if 2 * v < 256 ^ k then v else (v : Int) - (256 ^ k : Nat)

theorem signed_of_small {k v : Nat} (small : 2 * v < 256 ^ k) : signed k v = v := by
  simp [signed, small]

/-- The bit pattern of the signed value `v` in `k` bytes: a C store of an `int`
or a `short`. -/
def unsigned (k : Nat) (v : Int) : Nat := (v % ((256 ^ k : Nat) : Int)).toNat

/-- A signed value that fits in `k` bytes reads back from its bit pattern. -/
theorem signed_unsigned {k : Nat} {v : Int} (fits : -((256 ^ k : Nat) : Int) ≤ 2 * v ∧
    2 * v < ((256 ^ k : Nat) : Int)) : signed k (unsigned k v) = v := by
  have pos : (0 : Int) < ((256 ^ k : Nat) : Int) := by positivity
  unfold signed unsigned
  by_cases nonneg : 0 ≤ v
  · have small : v % ((256 ^ k : Nat) : Int) = v := Int.emod_eq_of_lt nonneg (by omega)
    rw [small, if_pos (by omega)]
    omega
  · have wrapped : v % ((256 ^ k : Nat) : Int) = v + ((256 ^ k : Nat) : Int) := by
      rw [Int.emod_eq_add_self_emod, Int.emod_eq_of_lt (by omega) (by omega)]
    rw [wrapped, if_neg (by omega)]
    omega

/-! ## Bytes as `UInt8` and runs of bytes -/

/-- The byte at position `i`; `0` past the end of the array. -/
def get (a : Fin n → UInt8) (i : Nat) : UInt8 := if h : i < n then a ⟨i, h⟩ else 0

/-- The `k` bytes from offset `o` on: what `memmove` copies out of `a + o`. -/
def slice (a : Fin n → UInt8) (o k : Nat) : List UInt8 := (List.range k).map fun j => get a (o + j)

@[simp] theorem length_slice (a : Fin n → UInt8) (o k : Nat) : (slice a o k).length = k := by
  simp [slice]

theorem getElem_slice (a : Fin n → UInt8) (o k j : Nat) (h : j < (slice a o k).length) :
    (slice a o k)[j] = get a (o + j) := by
  simp [slice]

/-- `memmove(a + o, bs, |bs|)`: the bytes `bs` from offset `o` on; bytes that would
land past the end are dropped. -/
def copyInto (a : Fin n → UInt8) (o : Nat) (bs : List UInt8) : Fin n → UInt8 :=
  fun i => if o ≤ i.val then bs[i.val - o]?.getD (a i) else a i

theorem get_copyInto (a : Fin n → UInt8) (o : Nat) (bs : List UInt8) (i : Nat) :
    get (copyInto a o bs) i = if o ≤ i ∧ i < o + bs.length ∧ i < n then bs[i - o]?.getD 0
      else get a i := by
  unfold get copyInto
  by_cases bound : i < n
  · by_cases inside : o ≤ i ∧ i < o + bs.length
    · have present : i - o < bs.length := by omega
      simp [bound, inside, present]
    · rw [if_neg fun h => inside ⟨h.1, h.2.1⟩]
      by_cases lo : o ≤ i
      · have absent : bs.length ≤ i - o := by omega
        simp [bound, lo, List.getElem?_eq_none absent]
      · simp [bound, lo]
  · simp [bound]

/-- A run of bytes written in place reads back. -/
theorem slice_copyInto (a : Fin n → UInt8) (o : Nat) (bs : List UInt8) (fits : o + bs.length ≤ n) :
    slice (copyInto a o bs) o bs.length = bs := by
  apply List.ext_getElem (by simp)
  intro j hj _
  rw [getElem_slice, get_copyInto, if_pos ⟨by omega, by simp at hj; omega, by simp at hj; omega⟩]
  simp at hj
  simp [hj]

/-! ## Bitmaps -/

/-- The mask `1 << (i % 8)` that selects bit `i` of a bitmap within its byte. -/
def mask (i : Nat) : UInt8 := 1 <<< (i % 8).toUInt8

/-- Bit `i` of a bitmap, `(a[i / 8] & m) != 0`; `false` past the end. -/
def bit (a : Fin n → UInt8) (i : Nat) : Bool :=
  if h : i / 8 < n then a ⟨i / 8, h⟩ &&& mask i != 0 else false

/-- `a[i / 8] |= m`. -/
def setBit (a : Fin n → UInt8) (i : Nat) : Fin n → UInt8 :=
  fun j => if j.val = i / 8 then a j ||| mask i else a j

/-- `a[i / 8] &= ~m`. -/
def clearBit (a : Fin n → UInt8) (i : Nat) : Fin n → UInt8 :=
  fun j => if j.val = i / 8 then a j &&& ~~~(mask i) else a j

theorem toNat_mask (i : Nat) : (mask i).toNat = 2 ^ (i % 8) := by
  have low : i % 8 < 8 := Nat.mod_lt _ (by omega)
  have small : 2 ^ (i % 8) < 2 ^ 8 := Nat.pow_lt_pow_right (by omega) low
  have shift : ((i % 8).toUInt8).toNat % 8 = i % 8 := by
    rw [Nat.toUInt8, UInt8.toNat_ofNat']
    omega
  rw [mask, UInt8.toNat_shiftLeft, shift, UInt8.toNat_one, Nat.one_shiftLeft, Nat.mod_eq_of_lt small]

/-- Masking a byte tests one of its bits. -/
theorem and_mask_ne_zero (x : UInt8) (i : Nat) : (x &&& mask i != 0) = x.toNat.testBit (i % 8) := by
  have masked : (x &&& mask i).toNat = (x.toNat.testBit (i % 8)).toNat * 2 ^ (i % 8) := by
    rw [UInt8.toNat_and, toNat_mask, Nat.and_two_pow]
  cases tested : x.toNat.testBit (i % 8)
  · rw [tested, Bool.toNat_false, Nat.zero_mul] at masked
    have : x &&& mask i = 0 := UInt8.toNat_inj.mp masked
    simp [this]
  · rw [tested, Bool.toNat_true, Nat.one_mul] at masked
    have : x &&& mask i ≠ 0 := fun zero => by
      rw [zero, UInt8.toNat_zero] at masked
      exact absurd masked.symm (Nat.two_pow_pos _).ne'
    simp [this]

theorem testBit_or_mask (x : UInt8) (i j : Nat) :
    (x ||| mask i).toNat.testBit j = (x.toNat.testBit j || decide (i % 8 = j)) := by
  rw [UInt8.toNat_or, toNat_mask, Nat.testBit_or, Nat.testBit_two_pow]

/-- The bits of `~(1 << k)` within a byte: all but bit `k`. -/
private theorem testBit_not_pow : ∀ k : Fin 8, ∀ j : Fin 8,
    (UInt8.size - 1 - 2 ^ k.val).testBit j.val = decide (k ≠ j) := by
  decide

theorem testBit_and_not_mask (x : UInt8) (i : Nat) {j : Nat} (bound : j < 8) :
    (x &&& ~~~(mask i)).toNat.testBit j = (x.toNat.testBit j && decide (i % 8 ≠ j)) := by
  rw [UInt8.toNat_and, UInt8.toNat_not, toNat_mask, Nat.testBit_and]
  have bits := testBit_not_pow ⟨i % 8, Nat.mod_lt _ (by omega)⟩ ⟨j, bound⟩
  simp only [ne_eq, Fin.mk.injEq] at bits
  rw [bits]

/-- Setting bit `i` sets it and leaves every other bit alone. -/
theorem bit_setBit (a : Fin n → UInt8) {i : Nat} (fits : i / 8 < n) (j : Nat) :
    bit (setBit a i) j = (decide (j = i) || bit a j) := by
  unfold bit setBit
  by_cases inside : j / 8 < n
  · simp only [dif_pos inside]
    by_cases same : j / 8 = i / 8
    · -- bit `j` shares its byte with bit `i`: they differ exactly when their positions do
      rw [if_pos same, and_mask_ne_zero, and_mask_ne_zero, testBit_or_mask]
      have iff : i % 8 = j % 8 ↔ j = i := by omega
      simp only [iff, Bool.or_comm]
    · rw [if_neg same]
      have differ : j ≠ i := fun h => same (by rw [h])
      simp [differ]
  · have differ : j ≠ i := fun h => inside (h ▸ fits)
    simp [inside, differ]

/-- Clearing bit `i` clears it and leaves every other bit alone. -/
theorem bit_clearBit (a : Fin n → UInt8) (i j : Nat) :
    bit (clearBit a i) j = (decide (j ≠ i) && bit a j) := by
  unfold bit clearBit
  by_cases inside : j / 8 < n
  · simp only [dif_pos inside]
    by_cases same : j / 8 = i / 8
    · rw [if_pos same, and_mask_ne_zero, and_mask_ne_zero,
        testBit_and_not_mask _ _ (Nat.mod_lt _ (by omega))]
      have iff : i % 8 ≠ j % 8 ↔ j ≠ i := by omega
      simp only [iff, Bool.and_comm]
    · rw [if_neg same]
      have differ : j ≠ i := fun h => same (by rw [h])
      simp [differ]
  · simp [inside]

/-! ## Little-endian words in a byte list

A word stored to memory is its bytes least significant first, as a copy of a
`uint64` array moves it on a little-endian machine.  Reading the bytes back
gives the word (`ofLE_toLE`). -/

/-- The `k` little-endian bytes of `v`, modulo `256 ^ k`. -/
def toLE (k v : Nat) : List UInt8 := (List.range k).map fun i => UInt8.ofNat (v / 256 ^ i)

/-- The number whose little-endian bytes are `bs`. -/
def ofLE : List UInt8 → Nat
  | [] => 0
  | b :: bs => b.toNat + 256 * ofLE bs

@[simp] theorem length_toLE (k v : Nat) : (toLE k v).length = k := by
  simp [toLE]

theorem toLE_succ (k v : Nat) : toLE (k + 1) v = UInt8.ofNat v :: toLE k (v / 256) := by
  simp only [toLE, List.range_succ_eq_map, List.map_cons, List.map_map, pow_zero, Nat.div_one]
  congr 1
  apply List.map_congr_left
  intro i _
  simp [pow_succ', Nat.div_div_eq_div_mul]

theorem ofLE_toLE (k v : Nat) : ofLE (toLE k v) = v % 256 ^ k := by
  induction k generalizing v with
  | zero => simp [toLE, ofLE, Nat.mod_one]
  | succ k ih =>
    rw [toLE_succ, ofLE, ih, pow_succ', Nat.mod_mul]
    simp [UInt8.toNat_ofNat']

theorem ofLE_lt (bs : List UInt8) : ofLE bs < 256 ^ bs.length := by
  induction bs with
  | nil => simp [ofLE]
  | cons b bs ih =>
    have byte : b.toNat < 256 := b.toNat_lt
    rw [ofLE, List.length_cons, pow_succ]
    omega

end Bytes
