/-
# Kernel.Virtio -- virtio_disk.c: the driver, the device and the two rings

The driver and the disk device share `NUM` descriptors and two rings.  A call
of `virtio_disk_rw(b, write)` takes three free descriptors (`alloc3_desc`), or
sleeps on `&disk.free[0]` until some are freed.  It then chains them as the
virtio block device reads a request (the command header, the buffer's data,
the status byte), puts the head of the chain in the avail ring and sleeps on
`b` until `b->disk` is 0.  The device takes the heads from the avail ring in
order (`devFetch`) and completes the requests it holds in any order it likes
(`devComplete`): it moves the data between `b->data` and the disk, writes the
status and puts the head in the used ring.  `virtio_disk_intr` reads the used
ring up to the device's index and sets `b->disk = 0` for each request it finds.
The caller, woken, frees its chain (`free_chain`).

Every stretch of driver code between taking `disk.vdisk_lock` and giving it up
(by `sleep` or `release`) is one step here, as is the device's reading of one
avail entry and its completion of one request.  The device is a parameter: a
`Device` says what one transfer does to the buffer, the disk and the status
byte, and carries as named fields what the driver may assume of it (a read
that reports success delivers the block at the sector and leaves the disk as
it was, a write that reports success stores the buffer there).  Which request
it completes next, and whether it reports an error, is the environment's
choice at every step (`.complete k r`).  It accepts a chain only in the shape
the specification gives (`parse`); `legacy` is the specification's legacy
block device.  `owner`, `served` and `inflight` are ghost state: which call
holds each descriptor, what the device did for the request at each head, and
the chains it has read and not yet completed.

`Inv` is kept by every step, for every device (`inv_step`).  From it:

* `virtio_descriptors`: the free descriptors are exactly those no call holds;
  each call in flight holds three distinct ones, chained as the device reads
  them;
* `virtio_rings`: a request the device has not served is in the avail ring or
  among the chains the device holds, and no head is in both; the used entries
  the driver has not read are the heads of requests the device has served; and
  neither ring ever holds `NUM` entries;
* `virtio_device_progress`: the device accepts every chain it is handed and can
  complete each it holds, and `virtio_disk_intr` fails only by its
  `"virtio_disk_intr status"` panic on a request the device failed;
* `virtio_rw_no_fault`: no call of `virtio_disk_rw` faults;
* `virtio_rw_returns`: `virtio_disk_rw` returns only after the device served
  its request, on its buffer and at sector `blockno * (BSIZE / 512)`, with the
  block moved, and the return frees exactly its three descriptors;
* `virtio_no_lost_wakeup`: a call asleep on `b` waits for a request the disk
  still owns, and one asleep on `&disk.free[0]` found fewer than three free
  descriptors, which only a `free_desc`, and its wakeup, can change.
-/
import Xv6.Kernel.Param

namespace Xv6

namespace Virtio

set_option autoImplicit false

/-! ## virtio.h -/

/-- `NUM`: the descriptors, and the entries of each ring. -/
def NUM : Nat := 8

instance : NeZero NUM := ⟨by decide⟩

def VRING_DESC_F_NEXT : UInt16 := 1
def VRING_DESC_F_WRITE : UInt16 := 2
def VIRTIO_BLK_T_IN : UInt32 := 0
def VIRTIO_BLK_T_OUT : UInt32 := 1

/-- What a descriptor's `addr` points at: nothing (`free_desc` writes 0), the
command header `disk.ops[i]`, a buffer's `b->data`, or the status byte
`disk.info[i].status`. -/
inductive Addr (B : Type)
  | null
  | op (i : Fin NUM)
  | data (b : B)
  | status (i : Fin NUM)
  deriving DecidableEq

/-- `struct virtq_desc`. -/
structure Desc (B : Type) where
  addr : Addr B
  len : UInt32
  flags : UInt16
  next : UInt16
  deriving DecidableEq

/-- A descriptor as `free_desc` leaves it, and as `memset` leaves them all. -/
def Desc.zero {B : Type} : Desc B := ⟨.null, 0, 0, 0⟩

/-- `struct virtio_blk_req`, sixteen bytes. -/
structure BlkReq where
  type : UInt32
  reserved : UInt32
  sector : UInt64
  deriving DecidableEq

/-- An entry of `disk.info[]`. -/
structure Info (B : Type) where
  b : Option B
  status : UInt8
  deriving DecidableEq

/-- The fields of `struct buf` that the driver and the device use. -/
structure Buf where
  blockno : UInt32
  /-- `b->disk`, an `int` that is only ever 0 or 1 -/
  disk : Bool
  data : Block

/-- `b->blockno * (BSIZE / 512)`, computed in `uint` and then widened. -/
def sectorOf (blockno : UInt32) : UInt64 := (blockno * UInt32.ofNat (BSIZE / 512)).toUInt64

/-- What the device did for one request: the buffer and sector it used, the
direction, whether it reported success, the bytes it moved, and the block at
the sector once it was done. -/
structure Transfer (B : Type) where
  buffer : B
  sector : UInt64
  write : Bool
  ok : Bool
  bytes : Block
  disk : Block

/-- The channels of `virtio_disk_rw`'s sleeps. -/
inductive Chan (B : Type)
  | free0
  | buf (b : B)
  deriving DecidableEq

/-- The three descriptors of `alloc3_desc`, `int idx[3]`. -/
abbrev Idx := Fin NUM × Fin NUM × Fin NUM

def Idx.toList (idx : Idx) : List (Fin NUM) := [idx.1, idx.2.1, idx.2.2]

/-- `f` with the entries of the three descriptors set to `v`. -/
def Idx.set {α : Type} (idx : Idx) (f : Fin NUM → α) (v : α) : Fin NUM → α :=
  Function.update (Function.update (Function.update f idx.1 v) idx.2.1 v) idx.2.2 v

/-- Where a call of `virtio_disk_rw` is. -/
inductive RwPc (B : Type)
  | idle
  /-- in the allocation loop, at `sleep(&disk.free[0], &disk.vdisk_lock)` -/
  | allocSleep (b : B) (write : Bool)
  /-- at `while(b->disk == 1) sleep(b, &disk.vdisk_lock)`, holding `idx` -/
  | waitSleep (b : B) (write : Bool) (idx : Idx)
  deriving DecidableEq

/-- The buffer of the call in progress. -/
def RwPc.buffer {B : Type} : RwPc B → Option B
  | .idle => none
  | .allocSleep b _ => some b
  | .waitSleep b _ _ => some b

/-- A chain as the device reads it: the header `ops[op]`, the buffer, the
direction, and the status byte `info[status]`. -/
structure Chain (B : Type) where
  head : Fin NUM
  op : Fin NUM
  buffer : B
  write : Bool
  status : Fin NUM

/-- `static struct disk` with the buffers, the disk image, the device's own
position in the avail ring, the calls of `virtio_disk_rw` and the ghost state. -/
structure VirtioSys (P B : Type) where
  desc : Fin NUM → Desc B
  ops : Fin NUM → BlkReq
  info : Fin NUM → Info B
  free : Fin NUM → Bool
  /-- `disk.avail->ring` and `disk.avail->idx` -/
  availRing : Fin NUM → UInt16
  availIdx : UInt16
  /-- `disk.used->ring[].id` and `disk.used->idx`, written by the device -/
  usedRing : Fin NUM → UInt32
  usedIdx : UInt16
  /-- `disk.used_idx`: how far the driver has read the used ring -/
  usedSeen : UInt16
  /-- how far the device has read the avail ring -/
  devIdx : UInt16
  /-- the chains the device has read and not yet completed, in the order read -/
  inflight : List (Chain B)
  buf : B → Buf
  image : Nat → UInt8
  pc : P → RwPc B
  /-- the channel a call sleeps on; `none` once woken -/
  chan : P → Option (Chan B)
  /-- ghost: the call holding each descriptor -/
  owner : Fin NUM → Option P
  /-- ghost: what the device did for the request headed at each descriptor -/
  served : Fin NUM → Option (Transfer B)

/-- What the C leaves undefined is a fault of its own: an index past `NUM`,
or `b->disk` through a null `b`. -/
inductive Fault
  | panic (msg : String)
  | undefined
  deriving DecidableEq

inductive Outcome (S : Type)
  | next (s : S)
  | blocked
  | fault (f : Fault)

/-- A step: a call of `virtio_disk_rw` starting, a sleeping call running again
once woken, the interrupt handler, the device reading the next avail entry,
or the device completing the `k`-th request it holds, as `r` decides. -/
inductive VirtioEvent (R P B : Type)
  | rw (p : P) (b : B) (write : Bool)
  | resume (p : P)
  | intr
  | fetch
  | complete (k : Nat) (r : R)

/-- The slot of a 16-bit ring index, `idx % NUM`. -/
def slot (c : UInt16) : Fin NUM := ⟨c.toNat % NUM, Nat.mod_lt _ (by decide)⟩

/-- The `n` ring entries from index `lo` on. -/
def window {α : Type} (ring : Fin NUM → α) (lo : UInt16) (n : Nat) : List α :=
  (List.range n).map fun k => ring (slot (lo + UInt16.ofNat k))

/-- `image` with the block `bytes` written from byte `a` on. -/
def storeBlock (image : Nat → UInt8) (a : Nat) (bytes : Block) : Nat → UInt8 :=
  fun x => if lt : a ≤ x ∧ x < a + BSIZE then bytes ⟨x - a, by omega⟩ else image x

/-- The block of `image` from byte `a` on. -/
def blockAt (image : Nat → UInt8) (a : Nat) : Block := fun k => image (a + k.val)

theorem blockAt_storeBlock (image : Nat → UInt8) (a : Nat) (bytes : Block) :
    blockAt (storeBlock image a bytes) a = bytes := by
  funext k
  simp only [blockAt, storeBlock, Nat.le_add_right, Nat.add_lt_add_iff_left, k.isLt, and_self, dif_pos,
    Nat.add_sub_cancel_left]

/-- The disk device, as far as the driver relies on it.  For a request it has
read, in direction `write` at `sector`, with the buffer's block and the disk
`image`, and whatever `r` stands for (the medium, the host, a failure), it
returns the block it delivers for a read, the image after, and the status
byte.  A transfer that reports success, status 0, moves the block: a read
delivers the image's block at the sector and leaves the image, a write
stores the buffer's block there.  Nothing else is assumed; in particular the
device may complete the requests it has read in any order. -/
structure Device (R : Type) where
  transfer : R → Bool → UInt64 → Block → (Nat → UInt8) → Block × (Nat → UInt8) × UInt8
  read_ok : ∀ r sector data image, (transfer r false sector data image).2.2 = 0 →
    (transfer r false sector data image).1 = blockAt image (sector.toNat * 512) ∧
      (transfer r false sector data image).2.1 = image
  write_ok : ∀ r sector data image, (transfer r true sector data image).2.2 = 0 →
    (transfer r true sector data image).2.1 = storeBlock image (sector.toNat * 512) data

/-- The legacy block device of the virtio specification, `ok` saying whether
the I/O succeeds: status 0, or 1 (`VIRTIO_BLK_S_IOERR`) with nothing moved. -/
def legacy : Device Bool where
  transfer ok write sector data image :=
    if write then (data, if ok then storeBlock image (sector.toNat * 512) data else image, if ok then 0 else 1)
    else (if ok then blockAt image (sector.toNat * 512) else data, image, if ok then 0 else 1)
  read_ok ok _ _ _ good := by cases ok <;> simp_all
  write_ok ok _ _ _ good := by cases ok <;> simp_all

/-! ## The rings, across the 16-bit wrap

A ring index counts entries modulo `2 ^ 16`, and `NUM` divides `2 ^ 16`, so
the slot of index `lo + k` is `(lo + k) % NUM` whatever the wrap. -/

section Rings

variable {α : Type}

theorem val_slot_add (lo : UInt16) (k : Nat) : (slot (lo + UInt16.ofNat k)).val = (lo.toNat + k) % NUM := by
  simp only [slot, UInt16.toNat_add, UInt16.toNat_ofNat', NUM]
  omega

theorem toNat_succ_sub {lo hi : UInt16} (short : (hi - lo).toNat + 1 < 2 ^ 16) :
    (hi + 1 - lo).toNat = (hi - lo).toNat + 1 := by
  have := hi.toNat_lt
  have := lo.toNat_lt
  simp only [UInt16.toNat_sub, UInt16.toNat_add, UInt16.reduceToNat] at *
  omega

theorem toNat_sub_succ {lo hi : UInt16} (nonempty : hi ≠ lo) : (hi - lo).toNat = (hi - (lo + 1)).toNat + 1 := by
  have ne : hi.toNat ≠ lo.toNat := fun same => nonempty (UInt16.toNat_inj.mp same)
  have := hi.toNat_lt
  have := lo.toNat_lt
  simp only [UInt16.toNat_sub, UInt16.toNat_add, UInt16.reduceToNat]
  omega

theorem add_toNat_sub (lo hi : UInt16) : lo + UInt16.ofNat (hi - lo).toNat = hi := by
  apply UInt16.toNat_inj.mp
  have := hi.toNat_lt
  have := lo.toNat_lt
  simp only [UInt16.toNat_add, UInt16.toNat_ofNat', UInt16.toNat_sub]
  omega

@[simp] theorem length_window (ring : Fin NUM → α) (lo : UInt16) (n : Nat) : (window ring lo n).length = n := by
  simp [window]

/-- Writing at the index past the window, while it has room, appends. -/
theorem window_push (ring : Fin NUM → α) {lo hi : UInt16} (room : (hi - lo).toNat < NUM) (x : α) :
    window (Function.update ring (slot hi) x) lo (hi + 1 - lo).toNat = window ring lo (hi - lo).toNat ++ [x] := by
  rw [toNat_succ_sub (by unfold NUM at room; omega), window, List.range_succ, List.map_append,
    List.map_singleton, add_toNat_sub, Function.update_self]
  congr 1
  apply List.map_congr_left
  intro k mem
  rw [List.mem_range] at mem
  -- the slots of the window are not the slot written
  refine Function.update_of_ne (fun same => ?_) _ _
  have apart := congrArg Fin.val same
  rw [← add_toNat_sub lo hi, val_slot_add, val_slot_add] at apart
  unfold NUM at room apart
  omega

/-- Reading at the window's first index takes its first entry. -/
theorem window_pop (ring : Fin NUM → α) {lo hi : UInt16} (nonempty : hi ≠ lo) :
    window ring lo (hi - lo).toNat = ring (slot lo) :: window ring (lo + 1) (hi - (lo + 1)).toNat := by
  rw [toNat_sub_succ nonempty, window, List.range_succ_eq_map, List.map_cons, List.map_map]
  congr 1
  · simp
  · apply List.map_congr_left
    intro k _
    simp only [Function.comp_apply]
    congr 2
    apply UInt16.toNat_inj.mp
    simp only [UInt16.toNat_add, UInt16.toNat_ofNat', UInt16.reduceToNat]
    omega

theorem Idx.set_of_mem {idx : Idx} {d : Fin NUM} (mem : d ∈ idx.toList) (f : Fin NUM → α) (v : α) :
    idx.set f v d = v := by
  simp only [Idx.toList, List.mem_cons, List.not_mem_nil, or_false] at mem
  rcases mem with rfl | rfl | rfl <;> simp [Idx.set, Function.update_apply]

theorem Idx.set_of_not_mem {idx : Idx} {d : Fin NUM} (not_mem : d ∉ idx.toList) (f : Fin NUM → α) (v : α) :
    idx.set f v d = f d := by
  simp only [Idx.toList, List.mem_cons, List.not_mem_nil, or_false, not_or] at not_mem
  obtain ⟨apart0, apart1, apart2⟩ := not_mem
  simp only [Idx.set, Function.update_of_ne apart0, Function.update_of_ne apart1, Function.update_of_ne apart2]

/-- In a list without repeats, erasing index `k` removes the element there. -/
theorem not_mem_eraseIdx [DecidableEq α] {l : List α} (nodup : l.Nodup) {k : Nat} {a : α}
    (at_ : l[k]? = some a) : a ∉ l.eraseIdx k := by
  obtain ⟨lt, rfl⟩ := List.getElem?_eq_some_iff.mp at_
  rw [← nodup.erase_getElem k lt, nodup.mem_erase_iff]
  exact fun ⟨ne, _⟩ => ne rfl

/-- Erasing index `k` keeps every element other than the one there. -/
theorem mem_eraseIdx_of_ne {l : List α} {k : Nat} {a x : α} (at_ : l[k]? = some a) (mem : x ∈ l)
    (ne : x ≠ a) : x ∈ l.eraseIdx k := by
  obtain ⟨i, lt, rfl⟩ := List.getElem_of_mem mem
  refine List.mem_eraseIdx_iff_getElem?.mpr ⟨i, fun same => ne ?_, List.getElem?_eq_getElem lt⟩
  subst same
  rw [List.getElem?_eq_getElem lt] at at_
  exact Option.some_inj.mp at_

end Rings

namespace VirtioSys

variable {R P B : Type} [DecidableEq P] [DecidableEq B]

section Code

variable (s : VirtioSys P B)

/-- The avail entries the device has not read yet. -/
def availList : List UInt16 := window s.availRing s.devIdx (s.availIdx - s.devIdx).toNat

/-- The used entries the driver has not read yet. -/
def usedList : List UInt32 := window s.usedRing s.usedSeen (s.usedIdx - s.usedSeen).toNat

/-- The free descriptors. -/
def freeCount : Nat := (Finset.univ.filter fun d : Fin NUM => s.free d = true).card

/-- `wakeup(chan)`. -/
def wakeup (c : Chan B) : VirtioSys P B :=
  { s with chan := fun q => if s.chan q = some c then none else s.chan q }

/-- `sleep(chan, &disk.vdisk_lock)`, at `pc`. -/
def sleep (p : P) (c : Chan B) (pc : RwPc B) : VirtioSys P B :=
  { s with chan := Function.update s.chan p (some c), pc := Function.update s.pc p pc }

/-- `alloc_desc`: mark the first free descriptor used and return it. -/
def allocDesc : Option (Fin NUM × VirtioSys P B) :=
  match (List.finRange NUM).find? fun d => s.free d with
  | some i => some (i, { s with free := Function.update s.free i false })
  | none => none

/-- `free_desc(i)`. -/
def freeDesc (i : Nat) : Except Fault (VirtioSys P B) :=
  if h : i < NUM then
    if s.free ⟨i, h⟩ then .error (.panic "free_desc 2")
    else .ok ({ s with desc := Function.update s.desc ⟨i, h⟩ Desc.zero,
                       free := Function.update s.free ⟨i, h⟩ true }.wakeup .free0)
  else .error (.panic "free_desc 1")

/-- `alloc3_desc(idx)`: three descriptors, or none and the ones taken given back. -/
def alloc3Desc : Except Fault (Option Idx × VirtioSys P B) :=
  match s.allocDesc with
  | none => .ok (none, s)
  | some (i0, s) =>
    match s.allocDesc with
    | none => do
        let s ← s.freeDesc i0
        pure (none, s)
    | some (i1, s) =>
      match s.allocDesc with
      | none => do
          let s ← s.freeDesc i0
          let s ← s.freeDesc i1
          pure (none, s)
      | some (i2, s) => .ok (some (i0, i1, i2), s)

/-- The descriptors not free. -/
def used : Nat := (Finset.univ.filter fun d : Fin NUM => s.free d = false).card

end Code

omit [DecidableEq P] in
theorem used_freeDesc {s s' : VirtioSys P B} {i : Nat} (freed : s.freeDesc i = .ok s') : s'.used < s.used := by
  unfold freeDesc at freed
  split at freed
  · rename_i lt
    split at freed
    · cases freed
    · rename_i taken
      cases freed
      apply Finset.card_lt_card
      rw [Finset.ssubset_iff_of_subset]
      · refine ⟨⟨i, lt⟩, by simpa using taken, by simp [wakeup]⟩
      · intro d mem
        simp only [Finset.mem_filter, Finset.mem_univ, true_and, wakeup] at mem ⊢
        by_cases same : d = ⟨i, lt⟩
        · subst same
          simp at mem
        · rwa [Function.update_of_ne same] at mem
  · cases freed

/-- `free_chain(i)`: free descriptors along `VRING_DESC_F_NEXT`.  The loop
ends because each `free_desc` frees a descriptor that was not free, or panics.
Reading `desc[i]` past the array is undefined, before `free_desc` would panic. -/
def freeChain (s : VirtioSys P B) (i : Nat) : Except Fault (VirtioSys P B) :=
  if h : i < NUM then
    match _freed : s.freeDesc i with
    | .error f => .error f
    | .ok s' =>
      if (s.desc ⟨i, h⟩).flags &&& VRING_DESC_F_NEXT ≠ 0 then s'.freeChain (s.desc ⟨i, h⟩).next.toNat
      else .ok s'
  else .error .undefined
termination_by s.used
decreasing_by exact used_freeDesc _freed

section Code

variable (s : VirtioSys P B)

/-- The formatting of the three descriptors and the avail entry, in
`virtio_disk_rw` between `alloc3_desc` and the wait. -/
def submit (b : B) (write : Bool) (idx : Idx) : VirtioSys P B :=
  { s with
    ops := Function.update s.ops idx.1
      ⟨if write then VIRTIO_BLK_T_OUT else VIRTIO_BLK_T_IN, 0, sectorOf (s.buf b).blockno⟩
    desc := Function.update (Function.update (Function.update s.desc
      idx.1 ⟨.op idx.1, 16, VRING_DESC_F_NEXT, UInt16.ofNat idx.2.1⟩)
      idx.2.1 ⟨.data b, UInt32.ofNat BSIZE, (if write then 0 else VRING_DESC_F_WRITE) ||| VRING_DESC_F_NEXT,
        UInt16.ofNat idx.2.2⟩)
      idx.2.2 ⟨.status idx.1, 1, VRING_DESC_F_WRITE, 0⟩
    info := Function.update s.info idx.1 ⟨some b, 0xff⟩
    buf := Function.update s.buf b { s.buf b with disk := true }
    availRing := Function.update s.availRing (slot s.availIdx) (UInt16.ofNat idx.1)
    availIdx := s.availIdx + 1 }

/-- Ghost: `p` holds the descriptors of `idx`, and the device has not yet
served the request at their head. -/
def claim (p : P) (idx : Idx) : VirtioSys P B :=
  { s with owner := fun d => if d ∈ idx.toList then some p else s.owner d,
           served := Function.update s.served idx.1 none }

/-- Ghost: nobody holds the descriptors of `idx` any more. -/
def unclaim (idx : Idx) : VirtioSys P B :=
  { s with owner := fun d => if d ∈ idx.toList then none else s.owner d }

/-- `while(b->disk == 1) sleep(b, ...)`, then `disk.info[idx[0]].b = 0;
free_chain(idx[0]); release(...)` and the return. -/
def waitLoop (p : P) (b : B) (write : Bool) (idx : Idx) : Outcome (VirtioSys P B) :=
  if (s.buf b).disk then .next (s.sleep p (.buf b) (.waitSleep b write idx))
  else
    match ({ s with info := Function.update s.info idx.1 { s.info idx.1 with b := none } }).freeChain idx.1 with
    | .ok s' => .next ({ s' with pc := Function.update s'.pc p .idle }.unclaim idx)
    | .error f => .fault f

/-- One pass of the allocation loop: on success the request goes out and the
call waits for it; otherwise it sleeps on `&disk.free[0]`. -/
def tryAlloc (p : P) (b : B) (write : Bool) : Outcome (VirtioSys P B) :=
  match s.alloc3Desc with
  | .error f => .fault f
  | .ok (none, s') => .next (s'.sleep p .free0 (.allocSleep b write))
  | .ok (some idx, s') => ((s'.submit b write idx).claim p idx).waitLoop p b write idx

end Code

/-- The body of `virtio_disk_intr`'s loop for the buffer `b` of `info[id]`:
`b->disk = 0; wakeup(b); disk.used_idx += 1`. -/
def intrPass (s : VirtioSys P B) (b : B) : VirtioSys P B :=
  let s₁ : VirtioSys P B := { s with buf := Function.update s.buf b { s.buf b with disk := false } }
  let s₂ := s₁.wakeup (.buf b)
  { s₂ with usedSeen := s₂.usedSeen + 1 }

/-- `virtio_disk_intr`'s loop over the used ring, up to `disk.used->idx`. -/
def intrLoop (s : VirtioSys P B) : Except Fault (VirtioSys P B) :=
  if _same : s.usedSeen = s.usedIdx then .ok s
  else
    let id := (s.usedRing (slot s.usedSeen)).toNat
    if h : id < NUM then
      if (s.info ⟨id, h⟩).status ≠ 0 then .error (.panic "virtio_disk_intr status")
      else
        match (s.info ⟨id, h⟩).b with
        | none => .error .undefined
        | some b => (s.intrPass b).intrLoop
    else .error .undefined
termination_by (s.usedIdx - s.usedSeen).toNat
decreasing_by
  have ne : s.usedIdx.toNat ≠ s.usedSeen.toNat := fun eq => _same (UInt16.toNat_inj.mp eq).symm
  simp only [intrPass, wakeup, UInt16.toNat_sub, UInt16.toNat_add]
  have := s.usedIdx.toNat_lt
  have := s.usedSeen.toNat_lt
  simp only [UInt16.reduceToNat] at *
  omega

omit [DecidableEq P] in
theorem intrLoop_done {s : VirtioSys P B} (same : s.usedSeen = s.usedIdx) : s.intrLoop = .ok s := by
  rw [intrLoop, dif_pos same]

omit [DecidableEq P] in
/-- A pass of the loop on a good status, for the buffer recorded at the head. -/
theorem intrLoop_pass {s : VirtioSys P B} {b : B} (pending : s.usedSeen ≠ s.usedIdx)
    (lt : (s.usedRing (slot s.usedSeen)).toNat < NUM) (good : (s.info ⟨_, lt⟩).status = 0)
    (found : (s.info ⟨_, lt⟩).b = some b) : s.intrLoop = (s.intrPass b).intrLoop := by
  rw [intrLoop, dif_neg pending, dif_pos lt, if_neg (not_not.mpr good), found]

section Device

variable (s : VirtioSys P B)

/-- `desc[i]`, when `i` is a descriptor. -/
def descAt (i : Nat) : Option (Desc B) := if h : i < NUM then some (s.desc ⟨i, h⟩) else none

/-- The chain at `head` as the device reads a block request: a readable
16-byte header, then the data with `VRING_DESC_F_WRITE` exactly for a read,
then a writable status byte that ends the chain. -/
def parse (head : Nat) : Option (Chain B) :=
  if h0 : head < NUM then
    let d0 := s.desc ⟨head, h0⟩
    match d0.addr with
    | .op i =>
      if d0.len = 16 ∧ d0.flags = VRING_DESC_F_NEXT then
        if h1 : d0.next.toNat < NUM then
          let d1 := s.desc ⟨d0.next.toNat, h1⟩
          match d1.addr with
          | .data b =>
            if d1.len = UInt32.ofNat BSIZE ∧ d1.flags &&& VRING_DESC_F_NEXT ≠ 0 then
              if h2 : d1.next.toNat < NUM then
                let d2 := s.desc ⟨d1.next.toNat, h2⟩
                match d2.addr with
                | .status j =>
                  if d2.len = 1 ∧ d2.flags = VRING_DESC_F_WRITE then
                    if (s.ops i).type = VIRTIO_BLK_T_IN ∧ d1.flags &&& VRING_DESC_F_WRITE ≠ 0 then
                      some ⟨⟨head, h0⟩, i, b, false, j⟩
                    else if (s.ops i).type = VIRTIO_BLK_T_OUT ∧ d1.flags &&& VRING_DESC_F_WRITE = 0 then
                      some ⟨⟨head, h0⟩, i, b, true, j⟩
                    else none
                  else none
                | _ => none
              else none
            else none
          | _ => none
        else none
      else none
    | _ => none
  else none

/-- The device reads the next avail entry and the chain at its head, if the
chain is a block request. -/
def devFetch : Option (VirtioSys P B) :=
  if s.devIdx = s.availIdx then none
  else
    match s.parse (s.availRing (slot s.devIdx)).toNat with
    | none => none
    | some c => some { s with devIdx := s.devIdx + 1, inflight := s.inflight ++ [c] }

/-- The device completes the `k`-th chain it holds, `c`: it moves the block
between the buffer and sector `ops[].sector` of the image as `dev` does it,
writes the status byte and puts the head in the used ring. -/
def serveChain (dev : Device R) (r : R) (k : Nat) (c : Chain B) : VirtioSys P B :=
  let sector := (s.ops c.op).sector
  let out := dev.transfer r c.write sector (s.buf c.buffer).data s.image
  { s with
    buf := if c.write then s.buf else Function.update s.buf c.buffer { s.buf c.buffer with data := out.1 }
    image := out.2.1
    info := Function.update s.info c.status { s.info c.status with status := out.2.2 }
    usedRing := Function.update s.usedRing (slot s.usedIdx) (UInt32.ofNat c.head)
    usedIdx := s.usedIdx + 1
    inflight := s.inflight.eraseIdx k
    served := Function.update s.served c.head (some ⟨c.buffer, sector, c.write, decide (out.2.2 = 0),
      if c.write then (s.buf c.buffer).data else out.1, blockAt out.2.1 (sector.toNat * 512)⟩) }

/-- The device completes the `k`-th chain it holds, if it holds one. -/
def devComplete (dev : Device R) (r : R) (k : Nat) : Option (VirtioSys P B) :=
  match s.inflight[k]? with
  | none => none
  | some c => some (s.serveChain dev r k c)

end Device

section Served

variable {s : VirtioSys P B} {dev : Device R} {r : R} {k : Nat} {c : Chain B}

omit [DecidableEq P] in
/-- The device changes at most a buffer's data: never `b->disk` or `b->blockno`. -/
theorem serveChain_buf (b' : B) : ∃ data, (s.serveChain dev r k c).buf b' = { s.buf b' with data } := by
  simp only [serveChain]
  split
  · exact ⟨_, rfl⟩
  · by_cases same : b' = c.buffer
    · subst same
      exact ⟨_, Function.update_self _ _ _⟩
    · exact ⟨_, Function.update_of_ne same _ _⟩

omit [DecidableEq P] in
theorem serveChain_buf_of_ne {b' : B} (other : b' ≠ c.buffer) : (s.serveChain dev r k c).buf b' = s.buf b' := by
  simp only [serveChain]
  split
  · rfl
  · exact Function.update_of_ne other _ _

omit [DecidableEq P] in
/-- The heads the device still holds are the old ones but the `k`-th. -/
theorem serveChain_heads :
    (s.serveChain dev r k c).inflight.map Chain.head = (s.inflight.map Chain.head).eraseIdx k :=
  (List.eraseIdx_map _ _ _).symm

end Served

/-! ## What the pieces of the code do -/

/-- A request chained as `virtio_disk_rw` formats it: the header, the data
and the status byte, linked by `next`, and the header `ops[idx[0]]`. -/
structure Chained (s : VirtioSys P B) (b : B) (write : Bool) (idx : Idx) : Prop where
  head : s.desc idx.1 = ⟨.op idx.1, 16, VRING_DESC_F_NEXT, UInt16.ofNat idx.2.1⟩
  data : s.desc idx.2.1 = ⟨.data b, UInt32.ofNat BSIZE,
    (if write then 0 else VRING_DESC_F_WRITE) ||| VRING_DESC_F_NEXT, UInt16.ofNat idx.2.2⟩
  status : s.desc idx.2.2 = ⟨.status idx.1, 1, VRING_DESC_F_WRITE, 0⟩
  op : s.ops idx.1 = ⟨if write then VIRTIO_BLK_T_OUT else VIRTIO_BLK_T_IN, 0, sectorOf (s.buf b).blockno⟩

section Pieces

variable {s : VirtioSys P B}

omit [DecidableEq P] [DecidableEq B] in
theorem allocDesc_some {i : Fin NUM} {s' : VirtioSys P B} (got : s.allocDesc = some (i, s')) :
    s.free i = true ∧ s' = { s with free := Function.update s.free i false } := by
  unfold allocDesc at got
  split at got
  · rename_i found
    cases got
    exact ⟨List.find?_some found, rfl⟩
  · cases got

omit [DecidableEq P] [DecidableEq B] in
theorem allocDesc_none (none_ : s.allocDesc = none) (d : Fin NUM) : s.free d = false := by
  unfold allocDesc at none_
  split at none_
  · cases none_
  · rename_i missing
    simpa using List.find?_eq_none.mp missing d (List.mem_finRange d)

omit [DecidableEq P] in
/-- `free_desc` of a descriptor in use. -/
theorem freeDesc_of_used (d : Fin NUM) (taken : s.free d = false) :
    s.freeDesc d.val = .ok ({ s with desc := Function.update s.desc d Desc.zero,
                                     free := Function.update s.free d true }.wakeup .free0) := by
  unfold freeDesc
  rw [dif_pos d.isLt]
  simp [taken]

omit [DecidableEq P] in
theorem wakeup_wakeup (c : Chan B) : (s.wakeup c).wakeup c = s.wakeup c := by
  simp only [wakeup, mk.injEq, true_and, and_true]
  funext q
  by_cases asleep : s.chan q = some c <;> simp [asleep]

omit [DecidableEq P] in
/-- `free_desc` of a descriptor in use whose fields are zero already only
marks it free. -/
theorem freeDesc_cleared {d : Fin NUM} (taken : s.free d = false) (zero : s.desc d = Desc.zero) :
    s.freeDesc d.val = .ok ({ s with free := Function.update s.free d true }.wakeup .free0) := by
  rw [freeDesc_of_used d taken, ← zero, Function.update_eq_self]

omit [DecidableEq P] in
/-- Giving back a descriptor just taken undoes the taking, but for the wakeup. -/
theorem freeDesc_undo {i : Fin NUM} (free : s.free i = true) (zero : s.desc i = Desc.zero) :
    ({ s with free := Function.update s.free i false } : VirtioSys P B).freeDesc i = .ok (s.wakeup .free0) := by
  rw [freeDesc_cleared (s := { s with free := Function.update s.free i false }) (by simp) zero,
    Function.update_idem, ← free, Function.update_eq_self]

omit [DecidableEq P] [DecidableEq B] in
theorem freeCount_le {l : List (Fin NUM)} (within : ∀ d, s.free d = true → d ∈ l) : s.freeCount ≤ l.length := by
  calc s.freeCount ≤ l.toFinset.card := by
        apply Finset.card_le_card
        intro d mem
        simp only [Finset.mem_filter, Finset.mem_univ, true_and] at mem
        exact List.mem_toFinset.mpr (within d mem)
    _ ≤ l.length := List.toFinset_card_le l

omit [DecidableEq P] in
/-- `alloc3_desc` never panics: it takes three distinct free descriptors, or
finds fewer than three free and gives back what it took. -/
theorem alloc3Desc_cases (cleared : ∀ d, s.free d = true → s.desc d = Desc.zero) :
    (∃ idx : Idx, idx.toList.Nodup ∧ (∀ d ∈ idx.toList, s.free d = true) ∧
      s.alloc3Desc = .ok (some idx, { s with free := idx.set s.free false })) ∨
    (s.freeCount < 3 ∧ (s.alloc3Desc = .ok (none, s) ∨ s.alloc3Desc = .ok (none, s.wakeup .free0))) := by
  rcases got0 : s.allocDesc with _ | ⟨i0, s0⟩
  · -- nothing free
    have few : s.freeCount ≤ ([] : List (Fin NUM)).length :=
      freeCount_le fun d free => by rw [allocDesc_none got0 d] at free; cases free
    refine .inr ⟨by simp at few; omega, .inl ?_⟩
    simp only [alloc3Desc, got0]
  obtain ⟨free0, rfl⟩ := allocDesc_some got0
  rcases got1 : allocDesc { s with free := Function.update s.free i0 false } with _ | ⟨i1, s1⟩
  · -- one free, which goes back
    have few : s.freeCount ≤ [i0].length := freeCount_le fun d free => by
      by_cases same : d = i0
      · simp [same]
      · have := allocDesc_none got1 d
        simp only [Function.update_of_ne same] at this
        rw [this] at free
        cases free
    refine .inr ⟨by simp at few; omega, .inr ?_⟩
    simp only [alloc3Desc, got0, got1, freeDesc_undo free0 (cleared i0 free0)]
    rfl
  obtain ⟨free1, rfl⟩ := allocDesc_some got1
  have apart01 : i1 ≠ i0 := fun same => by simp [same] at free1
  have free1' : s.free i1 = true := by simpa [Function.update_of_ne apart01] using free1
  rcases got2 : allocDesc { s with free := Function.update (Function.update s.free i0 false) i1 false }
    with _ | ⟨i2, s2⟩
  · -- two free, which go back in the order taken
    have few : s.freeCount ≤ [i0, i1].length := freeCount_le fun d free => by
      by_cases same0 : d = i0
      · simp [same0]
      · by_cases same1 : d = i1
        · simp [same1]
        · have := allocDesc_none got2 d
          simp only [Function.update_of_ne same0, Function.update_of_ne same1] at this
          rw [this] at free
          cases free
    refine .inr ⟨by simp at few; omega, .inr ?_⟩
    have back0 : Function.update (Function.update (Function.update s.free i0 false) i1 false) i0 true =
        Function.update s.free i1 false := by
      rw [Function.update_comm apart01.symm, Function.update_idem, Function.update_comm apart01, ← free0,
        Function.update_eq_self]
    have first := @freeDesc_cleared P B _
      { s with free := Function.update (Function.update s.free i0 false) i1 false } i0
      (by simp [Function.update_of_ne apart01.symm]) (cleared i0 free0)
    rw [back0] at first
    have second := @freeDesc_undo P B _ (s.wakeup .free0) i1 free1' (cleared i1 free1')
    simp only [alloc3Desc, got0, got1, got2, first, bind, Except.bind]
    exact (congrArg (Except.map (Prod.mk none)) second).trans (by rw [wakeup_wakeup]; rfl)
  obtain ⟨free2, rfl⟩ := allocDesc_some got2
  have apart02 : i2 ≠ i0 := fun same => by simp [same, apart01.symm] at free2
  have apart12 : i2 ≠ i1 := fun same => by simp [same] at free2
  have free2' : s.free i2 = true := by
    simpa [Function.update_of_ne apart02, Function.update_of_ne apart12] using free2
  refine .inl ⟨(i0, i1, i2), ?_, ?_, ?_⟩
  · simp [Idx.toList, apart01.symm, apart02.symm, apart12.symm]
  · simp [Idx.toList, free0, free1', free2']
  · simp only [alloc3Desc, got0, got1, got2, Idx.set]

omit [DecidableEq P] in
/-- Where the chain goes on: `free_chain` reads `flags` and `next` before
`free_desc` zeroes them. -/
theorem freeChain_of_freeDesc {i : Fin NUM} {s' : VirtioSys P B} (freed : s.freeDesc i = .ok s') :
    s.freeChain i = if (s.desc i).flags &&& VRING_DESC_F_NEXT ≠ 0 then s'.freeChain (s.desc i).next.toNat
      else .ok s' := by
  rw [freeChain, dif_pos i.isLt]
  split
  · rename_i f failed
    rw [freed] at failed
    cases failed
  · rename_i s'' freed'
    rw [freed] at freed'
    cases freed'
    rfl

omit [DecidableEq P] [DecidableEq B] in
theorem toNat_ofNat16 (d : Fin NUM) : (UInt16.ofNat d.val).toNat = d.val :=
  UInt16.toNat_ofNat_of_lt' (lt_of_lt_of_le d.isLt (by decide))

omit [DecidableEq P] [DecidableEq B] in
theorem toNat_ofNat32 (d : Fin NUM) : (UInt32.ofNat d.val).toNat = d.val :=
  UInt32.toNat_ofNat_of_lt' (lt_of_lt_of_le d.isLt (by decide))

omit [DecidableEq P] [DecidableEq B] in
theorem ofNat16_inj {d e : Fin NUM} : UInt16.ofNat d.val = UInt16.ofNat e.val ↔ d = e := by
  constructor
  · intro same
    apply Fin.ext
    rw [← toNat_ofNat16 d, ← toNat_ofNat16 e, same]
  · rintro rfl
    rfl

omit [DecidableEq P] [DecidableEq B] in
theorem ofNat32_inj {d e : Fin NUM} : UInt32.ofNat d.val = UInt32.ofNat e.val ↔ d = e := by
  constructor
  · intro same
    apply Fin.ext
    rw [← toNat_ofNat32 d, ← toNat_ofNat32 e, same]
  · rintro rfl
    rfl

section Chain

variable {b : B} {write : Bool} {idx : Idx}

omit [DecidableEq P] in
/-- `free_chain(idx[0])` on a chain as formatted, whose three descriptors are
in use, frees exactly those three and panics on none. -/
theorem freeChain_chained (chained : s.Chained b write idx) (nodup : idx.toList.Nodup)
    (taken : ∀ d ∈ idx.toList, s.free d = false) :
    s.freeChain idx.1 = .ok ({ s with desc := idx.set s.desc Desc.zero, free := idx.set s.free true }.wakeup .free0) := by
  obtain ⟨i0, i1, i2⟩ := idx
  simp only [Idx.toList, List.nodup_cons, List.mem_cons, not_or, List.not_mem_nil,
    not_false_eq_true, List.nodup_nil, and_true] at nodup
  obtain ⟨⟨apart01, apart02⟩, apart12⟩ := nodup
  dsimp only
  simp only [Idx.toList, List.mem_cons, List.not_mem_nil, or_false, forall_eq_or_imp,
    forall_eq] at taken
  obtain ⟨taken0, taken1, taken2⟩ := taken
  -- the header: `VRING_DESC_F_NEXT`, on to `idx[1]`
  rw [freeChain_of_freeDesc (freeDesc_of_used i0 taken0), chained.head, if_pos (by dsimp only; decide), toNat_ofNat16]
  -- the data: `VRING_DESC_F_NEXT` set whatever the direction, on to `idx[2]`
  rw [freeChain_of_freeDesc (freeDesc_of_used i1 (by simp [wakeup, Function.update_of_ne (Ne.symm apart01), taken1]))]
  simp only [wakeup, Function.update_of_ne (Ne.symm apart01), chained.data]
  rw [if_pos (by cases write <;> decide), toNat_ofNat16]
  -- the status byte ends the chain
  rw [freeChain_of_freeDesc (freeDesc_of_used i2 (by
    simp [Function.update_of_ne (Ne.symm apart02), Function.update_of_ne (Ne.symm apart12), taken2]))]
  simp only [Function.update_of_ne (Ne.symm apart02), Function.update_of_ne (Ne.symm apart12), chained.status]
  rw [if_neg (by decide)]
  simp only [wakeup, Idx.set, Except.ok.injEq, mk.injEq, true_and, and_true]
  funext q
  by_cases asleep : s.chan q = some .free0 <;> simp [asleep]

omit [DecidableEq P] [DecidableEq B] in
/-- The device reads a chain as formatted as the request it is. -/
theorem parse_chained (chained : s.Chained b write idx) :
    s.parse idx.1 = some ⟨idx.1, idx.1, b, write, idx.1⟩ := by
  unfold parse
  rw [dif_pos idx.1.isLt]
  simp only [Fin.eta, chained.head, true_and, toNat_ofNat16, Fin.is_lt, dif_pos, chained.data, chained.status,
    chained.op]
  cases write <;> simp [VRING_DESC_F_NEXT, VRING_DESC_F_WRITE, VIRTIO_BLK_T_IN, VIRTIO_BLK_T_OUT] <;> decide

end Chain

end Pieces

/-! ## The invariant -/

/-- What holds of the call `p` of `virtio_disk_rw(b, write)` while it waits
holding `idx`: its descriptors, their chain, and where its request is between
the two rings. -/
structure Req (s : VirtioSys P B) (p : P) (b : B) (write : Bool) (idx : Idx) : Prop where
  held : ∀ d ∈ idx.toList, s.owner d = some p
  nodup : idx.toList.Nodup
  chained : s.Chained b write idx
  info : (s.info idx.1).b = some b
  /-- the device has not served the request exactly while its head is in the
  avail ring or among the chains it has read -/
  pending : s.served idx.1 = none ↔ UInt16.ofNat idx.1.val ∈ s.availList ∨ idx.1 ∈ s.inflight.map Chain.head
  /-- the device read the chain as the request it is -/
  fetched : ∀ c ∈ s.inflight, c.head = idx.1 → c = ⟨idx.1, idx.1, b, write, idx.1⟩
  /-- a head in the used ring was served -/
  used : UInt32.ofNat idx.1.val ∈ s.usedList → s.served idx.1 ≠ none
  /-- what the device did is what the request asked for, and a success moved the block -/
  done : ∀ t, s.served idx.1 = some t → t.buffer = b ∧ t.sector = sectorOf (s.buf b).blockno ∧
    t.write = write ∧ (t.ok = true → (s.buf b).data = t.bytes ∧ t.disk = t.bytes) ∧
    ((s.info idx.1).status = 0 ↔ t.ok = true)
  /-- `b->disk` stays 1 until `virtio_disk_intr` has read the head from the used ring -/
  disk : (s.buf b).disk = true ↔ s.served idx.1 = none ∨ UInt32.ofNat idx.1.val ∈ s.usedList
  /-- which it does only past a good status -/
  seen : (s.buf b).disk = false → ∃ t, s.served idx.1 = some t ∧ t.ok = true

/-- The driver's invariant.  The descriptors in use are those the waiting
calls hold; each ring holds, in its unread part, the heads of the requests in
one phase; a call sleeps only while what it waits for has not happened. -/
structure Inv (s : VirtioSys P B) : Prop where
  free_iff : ∀ d, s.free d = true ↔ s.owner d = none
  cleared : ∀ d, s.free d = true → s.desc d = Desc.zero
  owned : ∀ d p, s.owner d = some p → ∃ b write idx, s.pc p = .waitSleep b write idx ∧ d ∈ idx.toList
  req : ∀ p b write idx, s.pc p = .waitSleep b write idx → s.Req p b write idx
  /-- one call at a time on a buffer: the caller holds its sleep-lock -/
  exclusive : ∀ p q b, (s.pc p).buffer = some b → (s.pc q).buffer = some b → p = q
  disk_owned : ∀ b, (s.buf b).disk = true → ∃ p write idx, s.pc p = .waitSleep b write idx
  avail : ∀ k ∈ s.availList, ∃ p b write idx, s.pc p = .waitSleep b write idx ∧ k = UInt16.ofNat idx.1.val
  avail_nodup : s.availList.Nodup
  inflight : ∀ c ∈ s.inflight, ∃ p b write idx, s.pc p = .waitSleep b write idx ∧ c.head = idx.1
  inflight_nodup : (s.inflight.map Chain.head).Nodup
  /-- the device reads an avail entry once -/
  fetched_apart : ∀ c ∈ s.inflight, UInt16.ofNat c.head.val ∉ s.availList
  used : ∀ k ∈ s.usedList, ∃ p b write idx, s.pc p = .waitSleep b write idx ∧ k = UInt32.ofNat idx.1.val
  used_nodup : s.usedList.Nodup
  asleep_buf : ∀ p b, s.chan p = some (.buf b) →
    (∃ write idx, s.pc p = .waitSleep b write idx) ∧ (s.buf b).disk = true
  asleep_free : ∀ p, s.chan p = some .free0 → (∃ b write, s.pc p = .allocSleep b write) ∧ s.freeCount < 3

section Invariant

variable {s s' : VirtioSys P B} {p q : P} {b b' : B} {write write' : Bool} {idx idx' : Idx}

omit [DecidableEq P] [DecidableEq B] in
theorem Chained.frame (chained : s.Chained b write idx) (desc : ∀ d ∈ idx.toList, s'.desc d = s.desc d)
    (ops : s'.ops idx.1 = s.ops idx.1) (blockno : (s'.buf b).blockno = (s.buf b).blockno) :
    s'.Chained b write idx where
  head := (desc _ (by simp [Idx.toList])).trans chained.head
  data := (desc _ (by simp [Idx.toList])).trans chained.data
  status := (desc _ (by simp [Idx.toList])).trans chained.status
  op := by rw [ops, blockno]; exact chained.op

omit [DecidableEq P] [DecidableEq B] in
/-- A request is what it was in a state that agrees on everything it reads. -/
theorem Req.frame (req : s.Req p b write idx) (owner : ∀ d ∈ idx.toList, s'.owner d = s.owner d)
    (desc : ∀ d ∈ idx.toList, s'.desc d = s.desc d) (ops : s'.ops idx.1 = s.ops idx.1)
    (info : s'.info idx.1 = s.info idx.1) (buf : s'.buf b = s.buf b) (served : s'.served idx.1 = s.served idx.1)
    (phase : UInt16.ofNat idx.1.val ∈ s'.availList ∨ idx.1 ∈ s'.inflight.map Chain.head ↔
      UInt16.ofNat idx.1.val ∈ s.availList ∨ idx.1 ∈ s.inflight.map Chain.head)
    (fetched : ∀ c ∈ s'.inflight, c.head = idx.1 → c ∈ s.inflight)
    (used : UInt32.ofNat idx.1.val ∈ s'.usedList ↔ UInt32.ofNat idx.1.val ∈ s.usedList) :
    s'.Req p b write idx where
  held d mem := (owner d mem).trans (req.held d mem)
  nodup := req.nodup
  chained := req.chained.frame desc ops (by rw [buf])
  info := by rw [info]; exact req.info
  pending := by rw [served, phase]; exact req.pending
  fetched c mem head := req.fetched c (fetched c mem head) head
  used := by rw [used, served]; exact req.used
  done := by rw [served, buf, info]; exact req.done
  disk := by rw [buf, served, used]; exact req.disk
  seen := by rw [buf, served]; exact req.seen

namespace Inv

variable (inv : s.Inv)
include inv

omit [DecidableEq P] [DecidableEq B] in
/-- Two waiting calls that share a descriptor are one call. -/
theorem same_call (waiting : s.pc p = .waitSleep b write idx) (waiting' : s.pc q = .waitSleep b' write' idx')
    {d : Fin NUM} (mem : d ∈ idx.toList) (mem' : d ∈ idx'.toList) : p = q := by
  have own := (inv.req p b write idx waiting).held d mem
  have own' := (inv.req q b' write' idx' waiting').held d mem'
  rw [own] at own'
  exact Option.some_inj.mp own'

omit [DecidableEq P] [DecidableEq B] in
theorem heads_ne (waiting : s.pc p = .waitSleep b write idx) (waiting' : s.pc q = .waitSleep b' write' idx')
    (other : p ≠ q) : idx.1 ≠ idx'.1 := fun same =>
  other (inv.same_call waiting waiting' (d := idx.1) (by simp [Idx.toList]) (by simp [Idx.toList, same]))

omit [DecidableEq P] [DecidableEq B] in
theorem taken (waiting : s.pc p = .waitSleep b write idx) : ∀ d ∈ idx.toList, s.free d = false := by
  intro d mem
  have own := (inv.req p b write idx waiting).held d mem
  cases free : s.free d
  · rfl
  · rw [inv.free_iff d] at free
    rw [free] at own
    cases own

omit [DecidableEq P] [DecidableEq B] in
/-- The head of a waiting request is not free. -/
theorem head_ne_free (waiting : s.pc p = .waitSleep b write idx) {h : Fin NUM} (free : s.free h = true) :
    idx.1 ≠ h := by
  rintro rfl
  rw [inv.taken waiting idx.1 (by simp [Idx.toList])] at free
  cases free

end Inv

/-- A nodup list of images of descriptors other than `h` is shorter than `NUM`. -/
theorem length_lt_of_heads {α : Type} [DecidableEq α] (f : Fin NUM → α) {l : List α} (nodup : l.Nodup)
    (h : Fin NUM) (heads : ∀ k ∈ l, ∃ d, d ≠ h ∧ k = f d) : l.length < NUM := by
  have sub : l.toFinset ⊆ (Finset.univ.erase h).image f := by
    intro k mem
    obtain ⟨d, apart, rfl⟩ := heads k (List.mem_toFinset.mp mem)
    exact Finset.mem_image_of_mem f (Finset.mem_erase.mpr ⟨apart, Finset.mem_univ d⟩)
  calc l.length = l.toFinset.card := (List.toFinset_card_of_nodup nodup).symm
    _ ≤ ((Finset.univ.erase h).image f).card := Finset.card_le_card sub
    _ ≤ (Finset.univ.erase h).card := Finset.card_image_le
    _ < NUM := by rw [Finset.card_erase_of_mem (Finset.mem_univ h), Finset.card_univ, Fintype.card_fin]; decide

namespace Inv

variable (inv : s.Inv)
include inv

omit [DecidableEq P] [DecidableEq B] in
/-- The avail ring has room while a descriptor is free. -/
theorem avail_room {h : Fin NUM} (free : s.free h = true) : (s.availIdx - s.devIdx).toNat < NUM := by
  rw [← length_window s.availRing s.devIdx (s.availIdx - s.devIdx).toNat]
  refine length_lt_of_heads (fun d => UInt16.ofNat d.val) inv.avail_nodup h fun k mem => ?_
  obtain ⟨p, b, write, idx, waiting, rfl⟩ := inv.avail k mem
  exact ⟨idx.1, inv.head_ne_free waiting free, rfl⟩

omit [DecidableEq P] [DecidableEq B] in
/-- The used ring has room while a request is unserved. -/
theorem used_room {h : Fin NUM} (unserved : s.served h = none) : (s.usedIdx - s.usedSeen).toNat < NUM := by
  rw [← length_window s.usedRing s.usedSeen (s.usedIdx - s.usedSeen).toNat]
  refine length_lt_of_heads (fun d => UInt32.ofNat d.val) inv.used_nodup h fun k mem => ?_
  obtain ⟨q, b', write', idx', waiting', rfl⟩ := inv.used k mem
  refine ⟨idx'.1, fun same => ?_, rfl⟩
  have := (inv.req q b' write' idx' waiting').used mem
  rw [same, unserved] at this
  exact this rfl

end Inv

omit [DecidableEq P] in
theorem chan_wakeup_eq_some {c c' : Chan B} (asleep : (s.wakeup c).chan p = some c') :
    s.chan p = some c' ∧ c' ≠ c := by
  simp only [wakeup] at asleep
  split at asleep
  · cases asleep
  · rename_i awake
    exact ⟨asleep, fun same => awake (same ▸ asleep)⟩

namespace Inv

omit [DecidableEq P] in
/-- `wakeup` only ends sleeps. -/
theorem wakeup (inv : s.Inv) (c : Chan B) : (s.wakeup c).Inv where
  free_iff := inv.free_iff
  cleared := inv.cleared
  owned := inv.owned
  req p b write idx waiting := (inv.req p b write idx waiting).frame (fun _ _ => rfl) (fun _ _ => rfl) rfl rfl rfl rfl
    Iff.rfl (fun _ mem _ => mem) Iff.rfl
  exclusive := inv.exclusive
  disk_owned := inv.disk_owned
  avail := inv.avail
  avail_nodup := inv.avail_nodup
  inflight := inv.inflight
  inflight_nodup := inv.inflight_nodup
  fetched_apart := inv.fetched_apart
  used := inv.used
  used_nodup := inv.used_nodup
  asleep_buf p b asleep := inv.asleep_buf p b (chan_wakeup_eq_some asleep).1
  asleep_free p asleep := inv.asleep_free p (chan_wakeup_eq_some asleep).1

end Inv

/-- Where a call of `virtio_disk_rw(b, write)` may run the allocation loop:
awake, and either starting on a buffer no call uses or back from its sleep
on `&disk.free[0]`. -/
def Starting (s : VirtioSys P B) (p : P) (b : B) (write : Bool) : Prop :=
  s.chan p = none ∧ ((s.pc p = .idle ∧ ∀ q, (s.pc q).buffer ≠ some b) ∨ s.pc p = .allocSleep b write)

namespace Starting

variable (starting : s.Starting p b write)
include starting

omit [DecidableEq P] [DecidableEq B] in
theorem not_waiting (b' : B) (write' : Bool) (idx : Idx) : s.pc p ≠ .waitSleep b' write' idx := by
  rcases starting.2 with ⟨idle, -⟩ | alloc
  · rw [idle]
    nofun
  · rw [alloc]
    nofun

omit [DecidableEq P] [DecidableEq B] in
/-- No other call is on the buffer. -/
theorem alone (inv : s.Inv) (other : q ≠ p) : (s.pc q).buffer ≠ some b := by
  rcases starting.2 with ⟨-, unused⟩ | alloc
  · exact unused q
  · intro uses
    exact other (inv.exclusive q p b uses (by rw [alloc]; rfl))

omit [DecidableEq P] [DecidableEq B] in
theorem ne_of_waiting (waiting : s.pc q = .waitSleep b' write' idx) : q ≠ p := by
  rintro rfl
  exact starting.not_waiting _ _ _ waiting

omit [DecidableEq B] in
/-- The calls waiting before `p` moves are still waiting after. -/
theorem kept {x : RwPc B} (pc : s'.pc = Function.update s.pc p x) (waiting : s.pc q = .waitSleep b' write' idx) :
    s'.pc q = .waitSleep b' write' idx := by
  rw [pc, Function.update_of_ne (starting.ne_of_waiting waiting), waiting]

omit [DecidableEq B] in
/-- `p` takes `b`, which no other call uses. -/
theorem exclusive (inv : s.Inv) {x : RwPc B} (uses : x.buffer = some b) (pc : s'.pc = Function.update s.pc p x) :
    ∀ q₁ q₂ b', (s'.pc q₁).buffer = some b' → (s'.pc q₂).buffer = some b' → q₁ = q₂ := by
  intro q₁ q₂ b' uses₁ uses₂
  rw [pc, Function.update_apply] at uses₁ uses₂
  split at uses₁ <;> split at uses₂
  · subst_vars
    rfl
  · rename_i other₂
    rw [uses] at uses₁
    cases uses₁
    exact absurd uses₂ (starting.alone inv other₂)
  · rename_i other₁ _
    rw [uses] at uses₂
    cases uses₂
    exact absurd uses₁ (starting.alone inv other₁)
  · exact inv.exclusive q₁ q₂ b' uses₁ uses₂

end Starting

namespace Inv

variable (inv : s.Inv)
include inv

omit [DecidableEq B] in
/-- `sleep(&disk.free[0])` with fewer than three free. -/
theorem sleep_alloc (starting : s.Starting p b write) (few : s.freeCount < 3) :
    (s.sleep p .free0 (.allocSleep b write)).Inv := by
  -- the waiting calls are the calls other than `p`, at their old `pc`
  have kept : ∀ q b' write' idx, s.pc q = .waitSleep b' write' idx →
      (s.sleep p .free0 (.allocSleep b write)).pc q = .waitSleep b' write' idx := fun _ _ _ _ =>
    starting.kept rfl
  have back : ∀ q b' write' idx, (s.sleep p .free0 (.allocSleep b write)).pc q = .waitSleep b' write' idx →
      s.pc q = .waitSleep b' write' idx := fun q _ _ _ waiting => by
    by_cases same : q = p
    · subst same
      simp [sleep] at waiting
    · simpa [sleep, Function.update_of_ne same] using waiting
  constructor
  · exact inv.free_iff
  · exact inv.cleared
  · intro d q own
    obtain ⟨b', write', idx, waiting, mem⟩ := inv.owned d q own
    exact ⟨b', write', idx, kept q _ _ _ waiting, mem⟩
  · intro q b' write' idx waiting
    exact (inv.req q b' write' idx (back q _ _ _ waiting)).frame (fun _ _ => rfl) (fun _ _ => rfl) rfl rfl rfl rfl
      Iff.rfl (fun _ mem _ => mem) Iff.rfl
  · exact starting.exclusive inv rfl rfl
  · intro b' busy
    obtain ⟨q, write', idx, waiting⟩ := inv.disk_owned b' busy
    exact ⟨q, write', idx, kept q _ _ _ waiting⟩
  · intro k mem
    obtain ⟨q, b', write', idx, waiting, rfl⟩ := inv.avail k mem
    exact ⟨q, b', write', idx, kept q _ _ _ waiting, rfl⟩
  · exact inv.avail_nodup
  · intro c mem
    obtain ⟨q, b', write', idx, waiting, head⟩ := inv.inflight c mem
    exact ⟨q, b', write', idx, kept q _ _ _ waiting, head⟩
  · exact inv.inflight_nodup
  · exact inv.fetched_apart
  · intro k mem
    obtain ⟨q, b', write', idx, waiting, rfl⟩ := inv.used k mem
    exact ⟨q, b', write', idx, kept q _ _ _ waiting, rfl⟩
  · exact inv.used_nodup
  · intro q b' asleep
    by_cases same : q = p
    · subst same
      simp [sleep] at asleep
    · simp only [sleep, Function.update_of_ne same] at asleep
      obtain ⟨⟨write', idx, waiting⟩, busy⟩ := inv.asleep_buf q b' asleep
      exact ⟨⟨write', idx, kept q _ _ _ waiting⟩, busy⟩
  · intro q asleep
    by_cases same : q = p
    · subst same
      exact ⟨⟨b, write, by simp [sleep]⟩, few⟩
    · simp only [sleep, Function.update_of_ne same] at asleep
      obtain ⟨⟨b', write', alloc⟩, few'⟩ := inv.asleep_free q asleep
      exact ⟨⟨b', write', by simpa [sleep, Function.update_of_ne same] using alloc⟩, few'⟩

omit [DecidableEq B] in
/-- `sleep(b)` again while the disk still has `b`. -/
theorem sleep_wait (waiting : s.pc p = .waitSleep b write idx) (busy : (s.buf b).disk = true) :
    (s.sleep p (.buf b) (.waitSleep b write idx)).Inv := by
  have pc : Function.update s.pc p (.waitSleep b write idx) = s.pc := by
    rw [← waiting, Function.update_eq_self]
  constructor
  all_goals simp only [sleep, pc]
  · exact inv.free_iff
  · exact inv.cleared
  · exact inv.owned
  · intro q b' write' idx' waiting'
    exact (inv.req q b' write' idx' waiting').frame (fun _ _ => rfl) (fun _ _ => rfl) rfl rfl rfl rfl Iff.rfl
      (fun _ mem _ => mem) Iff.rfl
  · exact inv.exclusive
  · exact inv.disk_owned
  · exact inv.avail
  · exact inv.avail_nodup
  · exact inv.inflight
  · exact inv.inflight_nodup
  · exact inv.fetched_apart
  · exact inv.used
  · exact inv.used_nodup
  · intro q b' asleep
    by_cases same : q = p
    · subst same
      simp only [Function.update_self, Option.some_inj, Chan.buf.injEq] at asleep
      subst asleep
      exact ⟨⟨write, idx, waiting⟩, busy⟩
    · rw [Function.update_of_ne same] at asleep
      exact inv.asleep_buf q b' asleep
  · intro q asleep
    by_cases same : q = p
    · subst same
      simp at asleep
    · rw [Function.update_of_ne same] at asleep
      exact inv.asleep_free q asleep

end Inv

omit [DecidableEq P] [DecidableEq B] in
theorem freeCount_mono (sub : ∀ d, s'.free d = true → s.free d = true) : s'.freeCount ≤ s.freeCount := by
  apply Finset.card_le_card
  intro d mem
  simp only [Finset.mem_filter, Finset.mem_univ, true_and] at mem ⊢
  exact sub d mem

omit [DecidableEq P] in
/-- The avail ring after `virtio_disk_rw` puts a head in it. -/
theorem availList_submit (room : (s.availIdx - s.devIdx).toNat < NUM) :
    (s.submit b write idx).availList = s.availList ++ [UInt16.ofNat idx.1.val] :=
  window_push s.availRing room _

/-- The state once `virtio_disk_rw` has formatted its request, with
`b->disk == 1`, and sleeps on `b`. -/
def started (s : VirtioSys P B) (p : P) (b : B) (write : Bool) (idx : Idx) : VirtioSys P B :=
  ((({ s with free := idx.set s.free false } : VirtioSys P B).submit b write idx).claim p idx).sleep p (.buf b)
    (.waitSleep b write idx)

/-- `virtio_disk_rw` formats only its own three descriptors. -/
theorem started_desc {d : Fin NUM} (not_mem : d ∉ idx.toList) : (s.started p b write idx).desc d = s.desc d := by
  obtain ⟨apart0, apart1, apart2⟩ : d ≠ idx.1 ∧ d ≠ idx.2.1 ∧ d ≠ idx.2.2 := by
    simpa [Idx.toList, not_or] using not_mem
  simp only [started, sleep, claim, submit]
  rw [Function.update_of_ne apart2, Function.update_of_ne apart1, Function.update_of_ne apart0]

theorem waitLoop_busy (busy : (s.buf b).disk = true) :
    s.waitLoop p b write idx = .next (s.sleep p (.buf b) (.waitSleep b write idx)) := by
  simp [waitLoop, busy]

/-- The new request, as `virtio_disk_rw` has formatted it. -/
theorem start_req (nodup : idx.toList.Nodup) (fresh_inflight : idx.1 ∉ s.inflight.map Chain.head)
    (fresh_used : UInt32.ofNat idx.1.val ∉ s.usedList)
    (avail : (s.started p b write idx).availList = s.availList ++ [UInt16.ofNat idx.1.val]) :
    (s.started p b write idx).Req p b write idx := by
  obtain ⟨⟨apart01, apart02⟩, apart12⟩ : (idx.1 ≠ idx.2.1 ∧ idx.1 ≠ idx.2.2) ∧ idx.2.1 ≠ idx.2.2 := by
    simpa [Idx.toList] using nodup
  have served : (s.started p b write idx).served idx.1 = none := by simp [started, sleep, claim]
  have busy : ((s.started p b write idx).buf b).disk = true := by simp [started, sleep, claim, submit]
  constructor
  · intro d mem
    simp [started, sleep, claim, mem]
  · exact nodup
  · constructor
    · simp [started, sleep, claim, submit, Function.update_of_ne apart01, Function.update_of_ne apart02]
    · simp [started, sleep, claim, submit, Function.update_of_ne apart12]
    · simp [started, sleep, claim, submit]
    · simp [started, sleep, claim, submit]
  · simp [started, sleep, claim, submit]
  · simp [served, avail]
  · intro c mem head
    exact absurd (head ▸ List.mem_map_of_mem (f := Chain.head) mem) fresh_inflight
  · intro mem
    exact absurd mem fresh_used
  · intro t done
    rw [served] at done
    cases done
  · simp [busy, served]
  · intro idle
    rw [busy] at idle
    cases idle

namespace Inv

variable (inv : s.Inv)
include inv

/-- The request goes out: three free descriptors become `p`'s chain, its head
enters the avail ring, and `p` sleeps on `b`. -/
theorem start (starting : s.Starting p b write) (nodup : idx.toList.Nodup)
    (free : ∀ d ∈ idx.toList, s.free d = true) : (s.started p b write idx).Inv := by
  -- the descriptors taken were nobody's, so the other calls' are elsewhere
  have outside : ∀ q b' write' idx', s.pc q = .waitSleep b' write' idx' → ∀ d ∈ idx'.toList, d ∉ idx.toList :=
    fun q _ _ _ waiting d mem' mem => by
      have := free d mem
      rw [inv.taken waiting d mem'] at this
      cases this
  have head_mem : idx.1 ∈ idx.toList := by simp [Idx.toList]
  have apart : ∀ q b' write' idx', s.pc q = .waitSleep b' write' idx' → idx'.1 ≠ idx.1 :=
    fun q _ _ idx' waiting same => outside q _ _ idx' waiting idx'.1 (by simp [Idx.toList]) (same ▸ head_mem)
  have room := inv.avail_room (free idx.1 head_mem)
  have avail : (s.started p b write idx).availList = s.availList ++ [UInt16.ofNat idx.1.val] :=
    @availList_submit P B _ _ b write idx room
  have fresh_avail : UInt16.ofNat idx.1.val ∉ s.availList := fun mem => by
    obtain ⟨q, b', write', idx', waiting, same⟩ := inv.avail _ mem
    exact apart q _ _ _ waiting (ofNat16_inj.mp same.symm)
  have fresh_used : UInt32.ofNat idx.1.val ∉ s.usedList := fun mem => by
    obtain ⟨q, b', write', idx', waiting, same⟩ := inv.used _ mem
    exact apart q _ _ _ waiting (ofNat32_inj.mp same.symm)
  have fresh_inflight : idx.1 ∉ s.inflight.map Chain.head := fun mem => by
    obtain ⟨c, mem, same⟩ := List.mem_map.mp mem
    obtain ⟨q, b', write', idx', waiting, head⟩ := inv.inflight c mem
    exact apart q _ _ _ waiting (head.symm.trans same)
  -- every other call keeps its `pc`; its buffer is not `b`
  have pc_other : ∀ q, q ≠ p → (s.started p b write idx).pc q = s.pc q := fun q other => by
    simp only [started, sleep]
    exact Function.update_of_ne other _ _
  have kept : ∀ q b' write' idx', s.pc q = .waitSleep b' write' idx' →
      (s.started p b write idx).pc q = .waitSleep b' write' idx' := fun _ _ _ _ => starting.kept rfl
  have back : ∀ q b' write' idx', q ≠ p → (s.started p b write idx).pc q = .waitSleep b' write' idx' →
      s.pc q = .waitSleep b' write' idx' := fun q _ _ _ other waiting => by
    rwa [pc_other q other] at waiting
  have buf_other : ∀ b', b' ≠ b → (s.started p b write idx).buf b' = s.buf b' := fun b' other => by
    simp only [started, sleep, claim, submit]
    exact Function.update_of_ne other _ _
  have buf_apart : ∀ q b' write' idx', s.pc q = .waitSleep b' write' idx' → b' ≠ b :=
    fun q _ _ _ waiting same => starting.alone inv (starting.ne_of_waiting waiting) (by rw [waiting, same]; rfl)
  constructor
  · intro d
    by_cases mem : d ∈ idx.toList
    · simp [started, sleep, claim, submit, Idx.set_of_mem mem, mem]
    · simpa [started, sleep, claim, submit, Idx.set_of_not_mem mem, mem] using inv.free_iff d
  · intro d isFree
    have mem : d ∉ idx.toList := fun mem => by
      simp [started, sleep, claim, submit, Idx.set_of_mem mem] at isFree
    simp only [started, sleep, claim, submit, Idx.set_of_not_mem mem] at isFree
    rw [started_desc mem]
    exact inv.cleared d isFree
  · intro d q own
    by_cases mem : d ∈ idx.toList
    · simp only [started, sleep, claim, submit, mem, if_true, Option.some_inj] at own
      subst own
      exact ⟨b, write, idx, by simp [started, sleep], mem⟩
    · simp only [started, sleep, claim, submit, mem, if_false] at own
      obtain ⟨b', write', idx', waiting, mem'⟩ := inv.owned d q own
      exact ⟨b', write', idx', kept q _ _ _ waiting, mem'⟩
  · intro q b' write' idx' waiting
    by_cases same : q = p
    · subst same
      simp only [started, sleep, Function.update_self, RwPc.waitSleep.injEq] at waiting
      obtain ⟨rfl, rfl, rfl⟩ := waiting
      exact start_req nodup fresh_inflight fresh_used avail
    · have waiting := back q _ _ _ same waiting
      have other := outside q _ _ _ waiting
      have head := apart q _ _ _ waiting
      refine (inv.req q b' write' idx' waiting).frame ?_ ?_ ?_ ?_ ?_ ?_ ?_ (fun _ mem _ => mem) Iff.rfl
      · intro d mem
        simp [started, sleep, claim, submit, other d mem]
      · exact fun d mem => started_desc (other d mem)
      · simp only [started, sleep, claim, submit]
        exact Function.update_of_ne head _ _
      · simp only [started, sleep, claim, submit]
        exact Function.update_of_ne head _ _
      · exact buf_other b' (buf_apart q _ _ _ waiting)
      · simp only [started, sleep, claim, submit]
        exact Function.update_of_ne head _ _
      · rw [avail, List.mem_append, List.mem_singleton, ofNat16_inj, or_iff_left head]
        rfl
  · exact starting.exclusive inv rfl rfl
  · intro b' busy
    by_cases same : b' = b
    · subst same
      exact ⟨p, write, idx, by simp [started, sleep]⟩
    · rw [buf_other b' same] at busy
      obtain ⟨q, write', idx', waiting⟩ := inv.disk_owned b' busy
      exact ⟨q, write', idx', kept q _ _ _ waiting⟩
  · intro k mem
    rw [avail, List.mem_append, List.mem_singleton] at mem
    rcases mem with mem | rfl
    · obtain ⟨q, b', write', idx', waiting, rfl⟩ := inv.avail k mem
      exact ⟨q, b', write', idx', kept q _ _ _ waiting, rfl⟩
    · exact ⟨p, b, write, idx, by simp [started, sleep], rfl⟩
  · rw [avail]
    exact inv.avail_nodup.append (List.nodup_singleton _) (List.disjoint_singleton.mpr fresh_avail)
  · intro c mem
    obtain ⟨q, b', write', idx', waiting, head⟩ := inv.inflight c mem
    exact ⟨q, b', write', idx', kept q _ _ _ waiting, head⟩
  · exact inv.inflight_nodup
  · intro c mem
    rw [avail, List.mem_append, List.mem_singleton, not_or]
    obtain ⟨q, b', write', idx', waiting, head⟩ := inv.inflight c mem
    refine ⟨inv.fetched_apart c mem, fun same => apart q _ _ _ waiting ?_⟩
    rw [← head]
    exact ofNat16_inj.mp same
  · intro k mem
    obtain ⟨q, b', write', idx', waiting, rfl⟩ := inv.used k mem
    exact ⟨q, b', write', idx', kept q _ _ _ waiting, rfl⟩
  · exact inv.used_nodup
  · intro q b' asleep
    by_cases same : q = p
    · subst same
      simp only [started, sleep, Function.update_self, Option.some_inj, Chan.buf.injEq] at asleep
      subst asleep
      exact ⟨⟨write, idx, by simp [started, sleep]⟩, by simp [started, sleep, claim, submit]⟩
    · simp only [started, sleep, Function.update_of_ne same] at asleep
      obtain ⟨⟨write', idx', waiting⟩, busy⟩ := inv.asleep_buf q b' asleep
      exact ⟨⟨write', idx', kept q _ _ _ waiting⟩, by rw [buf_other b' (buf_apart q _ _ _ waiting)]; exact busy⟩
  · intro q asleep
    by_cases same : q = p
    · subst same
      simp [started, sleep] at asleep
    · simp only [started, sleep, Function.update_of_ne same] at asleep
      obtain ⟨⟨b', write', alloc⟩, few⟩ := inv.asleep_free q asleep
      refine ⟨⟨b', write', by rw [pc_other q same, alloc]⟩, lt_of_le_of_lt ?_ few⟩
      exact freeCount_mono fun d isFree => by
        simp only [started, sleep, claim, submit] at isFree
        by_cases mem : d ∈ idx.toList
        · rw [Idx.set_of_mem mem] at isFree
          cases isFree
        · rwa [Idx.set_of_not_mem mem] at isFree

end Inv

/-- The state once `virtio_disk_rw` has returned: `info[idx[0]].b` cleared,
the chain freed by `free_chain`, and `p` idle. -/
def finished (s : VirtioSys P B) (p : P) (idx : Idx) : VirtioSys P B :=
  let s₁ : VirtioSys P B := { s with info := Function.update s.info idx.1 { s.info idx.1 with b := none } }
  let s₂ := { s₁ with desc := idx.set s₁.desc Desc.zero, free := idx.set s₁.free true }.wakeup .free0
  { s₂ with pc := Function.update s₂.pc p .idle }.unclaim idx

namespace Inv

variable (inv : s.Inv)
include inv

/-- Once `b->disk` is 0, `virtio_disk_rw` frees its chain without a panic and returns. -/
theorem waitLoop_done (waiting : s.pc p = .waitSleep b write idx) (idle : (s.buf b).disk = false) :
    s.waitLoop p b write idx = .next (s.finished p idx) := by
  have req := inv.req p b write idx waiting
  have chained : ({ s with info := Function.update s.info idx.1 { s.info idx.1 with b := none } } :
      VirtioSys P B).Chained b write idx := req.chained.frame (fun _ _ => rfl) rfl rfl
  simp only [waitLoop, idle, Bool.false_eq_true, if_false]
  rw [freeChain_chained chained req.nodup (inv.taken waiting)]
  rfl

/-- The return keeps the invariant: the chain goes back to the free
descriptors, and the sleepers on `&disk.free[0]` are all woken. -/
theorem finish (waiting : s.pc p = .waitSleep b write idx) (idle : (s.buf b).disk = false) :
    (s.finished p idx).Inv := by
  have req := inv.req p b write idx waiting
  obtain ⟨t, done, -⟩ := req.seen idle
  have pc_other : ∀ q, q ≠ p → (s.finished p idx).pc q = s.pc q := fun q other => by
    simp only [finished, unclaim]
    exact Function.update_of_ne other _ _
  have back : ∀ q b' write' idx', (s.finished p idx).pc q = .waitSleep b' write' idx' →
      q ≠ p ∧ s.pc q = .waitSleep b' write' idx' := fun q _ _ _ waiting' => by
    by_cases same : q = p
    · subst same
      simp [finished, unclaim] at waiting'
    · exact ⟨same, by rwa [pc_other q same] at waiting'⟩
  have kept : ∀ q b' write' idx', q ≠ p → s.pc q = .waitSleep b' write' idx' →
      (s.finished p idx).pc q = .waitSleep b' write' idx' := fun q _ _ _ other waiting' => by
    rw [pc_other q other, waiting']
  -- the other calls' descriptors are not `p`'s
  have outside : ∀ q b' write' idx', q ≠ p → s.pc q = .waitSleep b' write' idx' → ∀ d ∈ idx'.toList,
      d ∉ idx.toList := fun q _ _ _ other waiting' d mem' mem =>
    other (inv.same_call waiting' waiting mem' mem)
  -- the request is out of both rings
  have not_avail : UInt16.ofNat idx.1.val ∉ s.availList := fun mem => by
    have unserved := req.pending.mpr (.inl mem)
    rw [done] at unserved
    cases unserved
  have not_fetched : idx.1 ∉ s.inflight.map Chain.head := fun mem => by
    have unserved := req.pending.mpr (.inr mem)
    rw [done] at unserved
    cases unserved
  have not_used : UInt32.ofNat idx.1.val ∉ s.usedList := fun mem => by
    have busy := req.disk.mpr (.inr mem)
    rw [idle] at busy
    cases busy
  constructor
  · intro d
    by_cases mem : d ∈ idx.toList
    · simp [finished, unclaim, VirtioSys.wakeup, Idx.set_of_mem mem, mem]
    · simpa [finished, unclaim, VirtioSys.wakeup, Idx.set_of_not_mem mem, mem] using inv.free_iff d
  · intro d isFree
    by_cases mem : d ∈ idx.toList
    · simp [finished, unclaim, VirtioSys.wakeup, Idx.set_of_mem mem]
    · simp only [finished, unclaim, VirtioSys.wakeup, Idx.set_of_not_mem mem] at isFree ⊢
      exact inv.cleared d isFree
  · intro d q own
    by_cases mem : d ∈ idx.toList
    · simp [finished, unclaim, mem] at own
    · simp only [finished, unclaim, VirtioSys.wakeup, mem, if_false] at own
      obtain ⟨b', write', idx', waiting', mem'⟩ := inv.owned d q own
      have other : q ≠ p := fun same => by
        subst same
        rw [waiting] at waiting'
        cases waiting'
        exact mem mem'
      exact ⟨b', write', idx', kept q _ _ _ other waiting', mem'⟩
  · intro q b' write' idx' waiting'
    obtain ⟨other, waiting'⟩ := back q _ _ _ waiting'
    have head := inv.heads_ne waiting' waiting other
    refine (inv.req q b' write' idx' waiting').frame ?_ ?_ rfl ?_ rfl rfl Iff.rfl (fun _ mem _ => mem) Iff.rfl
    · intro d mem
      simp [finished, unclaim, VirtioSys.wakeup, outside q _ _ _ other waiting' d mem]
    · intro d mem
      simp only [finished, unclaim, VirtioSys.wakeup]
      exact Idx.set_of_not_mem (outside q _ _ _ other waiting' d mem) _ _
    · simp only [finished, unclaim, VirtioSys.wakeup]
      exact Function.update_of_ne head _ _
  · intro q₁ q₂ b' uses₁ uses₂
    have other₁ : q₁ ≠ p := fun same => by simp [same, finished, unclaim, RwPc.buffer] at uses₁
    have other₂ : q₂ ≠ p := fun same => by simp [same, finished, unclaim, RwPc.buffer] at uses₂
    rw [pc_other q₁ other₁] at uses₁
    rw [pc_other q₂ other₂] at uses₂
    exact inv.exclusive q₁ q₂ b' uses₁ uses₂
  · intro b' busy
    obtain ⟨q, write', idx', waiting'⟩ := inv.disk_owned b' busy
    have other : q ≠ p := fun same => by
      subst same
      rw [waiting] at waiting'
      cases waiting'
      change (s.buf b).disk = true at busy
      rw [idle] at busy
      cases busy
    exact ⟨q, write', idx', kept q _ _ _ other waiting'⟩
  · intro k mem
    obtain ⟨q, b', write', idx', waiting', rfl⟩ := inv.avail k mem
    have other : q ≠ p := fun same => by
      subst same
      rw [waiting] at waiting'
      cases waiting'
      exact not_avail mem
    exact ⟨q, b', write', idx', kept q _ _ _ other waiting', rfl⟩
  · exact inv.avail_nodup
  · intro c mem
    obtain ⟨q, b', write', idx', waiting', head⟩ := inv.inflight c mem
    have other : q ≠ p := fun same => by
      subst same
      rw [waiting] at waiting'
      cases waiting'
      exact not_fetched (head ▸ List.mem_map_of_mem (f := Chain.head) mem)
    exact ⟨q, b', write', idx', kept q _ _ _ other waiting', head⟩
  · exact inv.inflight_nodup
  · exact inv.fetched_apart
  · intro k mem
    obtain ⟨q, b', write', idx', waiting', rfl⟩ := inv.used k mem
    have other : q ≠ p := fun same => by
      subst same
      rw [waiting] at waiting'
      cases waiting'
      exact not_used mem
    exact ⟨q, b', write', idx', kept q _ _ _ other waiting', rfl⟩
  · exact inv.used_nodup
  · intro q b' asleep
    obtain ⟨asleep, -⟩ := chan_wakeup_eq_some asleep
    obtain ⟨⟨write', idx', waiting'⟩, busy⟩ := inv.asleep_buf q b' asleep
    have other : q ≠ p := fun same => by
      subst same
      rw [waiting] at waiting'
      cases waiting'
      rw [idle] at busy
      cases busy
    exact ⟨⟨write', idx', kept q _ _ _ other waiting'⟩, busy⟩
  · intro q asleep
    exact absurd rfl (chan_wakeup_eq_some asleep).2

end Inv

omit [DecidableEq P] in
/-- A pass of the interrupt loop takes the first unread used entry. -/
theorem usedList_pop (pending : s.usedSeen ≠ s.usedIdx) (b : B) :
    s.usedList = s.usedRing (slot s.usedSeen) :: (s.intrPass b).usedList :=
  window_pop s.usedRing (Ne.symm pending)

omit [DecidableEq P] [DecidableEq B] in
/-- The device takes the first unread avail entry. -/
theorem availList_pop (pending : s.devIdx ≠ s.availIdx) (l : List (Chain B)) :
    s.availList = s.availRing (slot s.devIdx) :: ({ s with devIdx := s.devIdx + 1, inflight := l } : VirtioSys P B).availList :=
  window_pop s.availRing (Ne.symm pending)

omit [DecidableEq P] [DecidableEq B] in
theorem usedRing_mem (pending : s.usedSeen ≠ s.usedIdx) : s.usedRing (slot s.usedSeen) ∈ s.usedList := by
  unfold usedList
  rw [window_pop s.usedRing (Ne.symm pending)]
  exact List.mem_cons_self

omit [DecidableEq P] [DecidableEq B] in
theorem availRing_mem (pending : s.devIdx ≠ s.availIdx) : s.availRing (slot s.devIdx) ∈ s.availList := by
  unfold availList
  rw [window_pop s.availRing (Ne.symm pending)]
  exact List.mem_cons_self

namespace Inv

variable (inv : s.Inv)
include inv

omit [DecidableEq P] [DecidableEq B] in
/-- The first unread used entry is the head of a waiting request the device has served. -/
theorem used_head (pending : s.usedSeen ≠ s.usedIdx) : ∃ q b write idx t, s.pc q = .waitSleep b write idx ∧
    s.usedRing (slot s.usedSeen) = UInt32.ofNat idx.1.val ∧ s.served idx.1 = some t := by
  have mem := usedRing_mem pending
  obtain ⟨q, b, write, idx, waiting, head⟩ := inv.used _ mem
  obtain ⟨t, served⟩ := Option.ne_none_iff_exists'.mp ((inv.req q b write idx waiting).used (head ▸ mem))
  exact ⟨q, b, write, idx, t, waiting, head, served⟩

omit [DecidableEq P] in
/-- One pass of `virtio_disk_intr` on a good status keeps the invariant. -/
theorem intr_pass (pending : s.usedSeen ≠ s.usedIdx) (lt : (s.usedRing (slot s.usedSeen)).toNat < NUM)
    (good : (s.info ⟨_, lt⟩).status = 0) (found : (s.info ⟨_, lt⟩).b = some b) : (s.intrPass b).Inv := by
  obtain ⟨q, b₀, write, idx, t, waiting, head, served⟩ := inv.used_head pending
  have req := inv.req q b₀ write idx waiting
  have id : (⟨_, lt⟩ : Fin NUM) = idx.1 := Fin.ext (by simp only [head, toNat_ofNat32])
  rw [id] at good found
  have same_buf : b₀ = b := Option.some_inj.mp (req.info.symm.trans found)
  subst same_buf
  obtain ⟨-, -, -, -, status⟩ := req.done t served
  have ok : t.ok = true := status.mp good
  have pop := usedList_pop pending (s := s) b₀
  have nodup := inv.used_nodup
  rw [pop, head] at nodup
  have not_tail : UInt32.ofNat idx.1.val ∉ (s.intrPass b₀).usedList := (List.nodup_cons.mp nodup).1
  have used_iff : ∀ {q' b' write' idx'}, s.pc q' = .waitSleep b' write' idx' → q' ≠ q →
      (UInt32.ofNat idx'.1.val ∈ (s.intrPass b₀).usedList ↔ UInt32.ofNat idx'.1.val ∈ s.usedList) :=
    fun waiting' other => by
      rw [pop, head, List.mem_cons, ofNat32_inj, or_iff_right (inv.heads_ne waiting' waiting other)]
  have buf_other : ∀ b', b' ≠ b₀ → (s.intrPass b₀).buf b' = s.buf b' := fun b' other => by
    simp only [intrPass, VirtioSys.wakeup]
    exact Function.update_of_ne other _ _
  have buf_apart : ∀ {q' b' write' idx'}, s.pc q' = .waitSleep b' write' idx' → q' ≠ q → b' ≠ b₀ :=
    fun waiting' other same => other (inv.exclusive _ _ b₀ (by rw [waiting', same]; rfl) (by rw [waiting]; rfl))
  constructor
  · exact inv.free_iff
  · exact inv.cleared
  · exact inv.owned
  · intro q' b' write' idx' waiting'
    change s.pc q' = _ at waiting'
    by_cases same : q' = q
    · subst same
      rw [waiting] at waiting'
      cases waiting'
      constructor
      · exact req.held
      · exact req.nodup
      · exact req.chained.frame (fun _ _ => rfl) rfl (by simp [intrPass, VirtioSys.wakeup])
      · exact req.info
      · exact req.pending
      · exact req.fetched
      · intro mem
        exact absurd mem not_tail
      · intro t' served'
        simpa [intrPass, VirtioSys.wakeup] using req.done t' served'
      · have idle : ((s.intrPass b₀).buf b₀).disk = false := by simp [intrPass, VirtioSys.wakeup]
        have served' : (s.intrPass b₀).served idx.1 = some t := served
        rw [idle, served']
        simp [not_tail]
      · exact fun _ => ⟨t, served, ok⟩
    · exact (inv.req q' b' write' idx' waiting').frame (fun _ _ => rfl) (fun _ _ => rfl) rfl rfl
        (buf_other b' (buf_apart waiting' same)) rfl Iff.rfl (fun _ mem _ => mem) (used_iff waiting' same)
  · exact inv.exclusive
  · intro b' busy
    have other : b' ≠ b₀ := fun same => by simp [same, intrPass, VirtioSys.wakeup] at busy
    rw [buf_other b' other] at busy
    exact inv.disk_owned b' busy
  · exact inv.avail
  · exact inv.avail_nodup
  · exact inv.inflight
  · exact inv.inflight_nodup
  · exact inv.fetched_apart
  · intro k mem
    exact inv.used k (by rw [pop]; exact List.mem_cons_of_mem _ mem)
  · exact (List.nodup_cons.mp nodup).2
  · intro q' b' asleep
    obtain ⟨asleep, other⟩ := chan_wakeup_eq_some asleep
    have other : b' ≠ b₀ := fun same => other (by rw [same])
    rw [buf_other b' other]
    exact inv.asleep_buf q' b' asleep
  · intro q' asleep
    exact inv.asleep_free q' (chan_wakeup_eq_some asleep).1

omit [DecidableEq P] in
/-- `virtio_disk_intr` keeps the invariant, over all its passes. -/
theorem intr (ran : s.intrLoop = .ok s') : s'.Inv := by
  induction s using VirtioSys.intrLoop.induct with
  | case1 s same =>
    rw [intrLoop_done same] at ran
    cases ran
    exact inv
  | case2 s pending _ lt bad =>
    rw [VirtioSys.intrLoop, dif_neg pending, dif_pos lt, if_pos bad] at ran
    cases ran
  | case3 s pending _ lt good missing =>
    rw [VirtioSys.intrLoop, dif_neg pending, dif_pos lt, if_neg good] at ran
    rw [missing] at ran
    cases ran
  | case4 s pending _ lt good b found ih =>
    rw [intrLoop_pass pending lt (not_not.mp good) found] at ran
    exact ih (inv.intr_pass pending lt (not_not.mp good) found) ran
  | case5 s pending _ lt =>
    rw [VirtioSys.intrLoop, dif_neg pending, dif_neg lt] at ran
    cases ran

omit [DecidableEq P] [DecidableEq B] in
/-- The first unread avail entry is the head of a waiting request the device
has not served. -/
theorem avail_head (pending : s.devIdx ≠ s.availIdx) : ∃ q b write idx, s.pc q = .waitSleep b write idx ∧
    s.availRing (slot s.devIdx) = UInt16.ofNat idx.1.val ∧ s.served idx.1 = none := by
  have mem := availRing_mem pending
  obtain ⟨q, b, write, idx, waiting, head⟩ := inv.avail _ mem
  exact ⟨q, b, write, idx, waiting, head, (inv.req q b write idx waiting).pending.mpr (.inl (head ▸ mem))⟩

omit [DecidableEq P] [DecidableEq B] in
/-- The device reads a request: its head moves from the avail ring to the
chains the device holds. -/
theorem fetch (pending : s.devIdx ≠ s.availIdx) (waiting : s.pc q = .waitSleep b write idx)
    (head : s.availRing (slot s.devIdx) = UInt16.ofNat idx.1.val) :
    ({ s with devIdx := s.devIdx + 1, inflight := s.inflight ++ [⟨idx.1, idx.1, b, write, idx.1⟩] } :
      VirtioSys P B).Inv := by
  set s' : VirtioSys P B := { s with devIdx := s.devIdx + 1, inflight := s.inflight ++ [⟨idx.1, idx.1, b, write, idx.1⟩] }
    with hs'
  have req := inv.req q b write idx waiting
  have pop : s.availList = UInt16.ofNat idx.1.val :: s'.availList := by
    rw [← head]
    exact availList_pop pending _
  have nodup := inv.avail_nodup
  rw [pop] at nodup
  have not_tail : UInt16.ofNat idx.1.val ∉ s'.availList := (List.nodup_cons.mp nodup).1
  have not_fetched : idx.1 ∉ s.inflight.map Chain.head := fun mem => by
    obtain ⟨c, mem, same⟩ := List.mem_map.mp mem
    exact inv.fetched_apart c mem (by rw [same, pop]; exact List.mem_cons_self)
  have heads : s'.inflight.map Chain.head = s.inflight.map Chain.head ++ [idx.1] := by
    rw [hs', List.map_append, List.map_singleton]
  -- the other requests: their heads are neither the one read nor its chain's
  have phase : ∀ {x : Fin NUM}, x ≠ idx.1 → (UInt16.ofNat x.val ∈ s'.availList ∨ x ∈ s'.inflight.map Chain.head ↔
      UInt16.ofNat x.val ∈ s.availList ∨ x ∈ s.inflight.map Chain.head) := fun apart => by
    rw [pop, heads, List.mem_cons, List.mem_append, List.mem_singleton, ofNat16_inj]
    simp only [apart, false_or, or_false]
  constructor
  · exact inv.free_iff
  · exact inv.cleared
  · exact inv.owned
  · intro q' b' write' idx' waiting'
    change s.pc q' = _ at waiting'
    by_cases same : q' = q
    · subst same
      rw [waiting] at waiting'
      cases waiting'
      refine ⟨req.held, req.nodup, req.chained.frame (fun _ _ => rfl) rfl rfl, req.info, ?_, fun c mem named => ?_, req.used, req.done, req.disk,
        req.seen⟩
      · have unserved : s.served idx.1 = none := req.pending.mpr (.inl (by rw [pop]; exact List.mem_cons_self))
        exact iff_of_true unserved (.inr (by rw [heads]; exact List.mem_append_right _ (List.mem_singleton_self _)))
      · rcases List.mem_append.mp mem with old | new
        · exact absurd (named ▸ List.mem_map_of_mem (f := Chain.head) old) not_fetched
        · exact List.mem_singleton.mp new
    · have apart := inv.heads_ne waiting' waiting same
      refine (inv.req q' b' write' idx' waiting').frame (fun _ _ => rfl) (fun _ _ => rfl) rfl rfl rfl rfl
        (phase apart) (fun c mem named => ?_) Iff.rfl
      rcases List.mem_append.mp mem with old | new
      · exact old
      · rw [List.mem_singleton.mp new] at named
        exact absurd named.symm apart
  · exact inv.exclusive
  · exact inv.disk_owned
  · intro k mem
    exact inv.avail k (by rw [pop]; exact List.mem_cons_of_mem _ mem)
  · exact (List.nodup_cons.mp nodup).2
  · intro c mem
    rcases List.mem_append.mp mem with old | new
    · exact inv.inflight c old
    · rw [List.mem_singleton.mp new]
      exact ⟨q, b, write, idx, waiting, rfl⟩
  · rw [heads]
    exact inv.inflight_nodup.append (List.nodup_singleton _) (List.disjoint_singleton.mpr not_fetched)
  · intro c mem
    rcases List.mem_append.mp mem with old | new
    · exact fun tail => inv.fetched_apart c old (by rw [pop]; exact List.mem_cons_of_mem _ tail)
    · rw [List.mem_singleton.mp new]
      exact not_tail
  · exact inv.used
  · exact inv.used_nodup
  · exact inv.asleep_buf
  · exact inv.asleep_free

omit [DecidableEq P] [DecidableEq B] in
/-- The device reads every request it is handed: the chain at the head of the
avail ring always parses. -/
theorem devFetch_of_pending (pending : s.devIdx ≠ s.availIdx) :
    ∃ q b write idx, s.pc q = .waitSleep b write idx ∧ s.availRing (slot s.devIdx) = UInt16.ofNat idx.1.val ∧
      s.devFetch = some { s with devIdx := s.devIdx + 1, inflight := s.inflight ++ [⟨idx.1, idx.1, b, write, idx.1⟩] } := by
  obtain ⟨q, b, write, idx, waiting, head, -⟩ := inv.avail_head pending
  refine ⟨q, b, write, idx, waiting, head, ?_⟩
  rw [devFetch, if_neg pending, head, toNat_ofNat16, parse_chained (inv.req q b write idx waiting).chained]

omit [DecidableEq P] [DecidableEq B] in
theorem device_fetch (ran : s.devFetch = some s') : s'.Inv := by
  by_cases pending : s.devIdx = s.availIdx
  · rw [devFetch, if_pos pending] at ran
    cases ran
  · obtain ⟨q, b, write, idx, waiting, head, fetched⟩ := inv.devFetch_of_pending pending
    rw [fetched] at ran
    cases ran
    exact inv.fetch pending waiting head

omit [DecidableEq P] in
/-- The device completes a request it holds, whichever it picks: the invariant
holds after, with the request moved from the chains it holds to the used ring. -/
theorem complete (dev : Device R) (r : R) {k : Nat} (waiting : s.pc q = .waitSleep b write idx)
    (at_ : s.inflight[k]? = some ⟨idx.1, idx.1, b, write, idx.1⟩) :
    (s.serveChain dev r k ⟨idx.1, idx.1, b, write, idx.1⟩).Inv := by
  set s' := s.serveChain dev r k ⟨idx.1, idx.1, b, write, idx.1⟩ with hs'
  have req := inv.req q b write idx waiting
  have mem : (⟨idx.1, idx.1, b, write, idx.1⟩ : Chain B) ∈ s.inflight := List.mem_of_getElem? at_
  have unserved : s.served idx.1 = none := req.pending.mpr (.inr (List.mem_map_of_mem (f := Chain.head) mem))
  have not_avail : UInt16.ofNat idx.1.val ∉ s.availList := inv.fetched_apart _ mem
  have not_used : UInt32.ofNat idx.1.val ∉ s.usedList := fun mem => req.used mem unserved
  have push : s'.usedList = s.usedList ++ [UInt32.ofNat idx.1.val] :=
    window_push s.usedRing (inv.used_room unserved) _
  -- the heads the device still holds are the old ones but `idx[0]`
  have headAt : (s.inflight.map Chain.head)[k]? = some idx.1 := by
    rw [List.getElem?_map, at_]
    rfl
  have gone : idx.1 ∉ s'.inflight.map Chain.head := by
    rw [serveChain_heads]
    exact not_mem_eraseIdx inv.inflight_nodup headAt
  have kept : ∀ {x : Fin NUM}, x ≠ idx.1 → (x ∈ s'.inflight.map Chain.head ↔ x ∈ s.inflight.map Chain.head) :=
    fun apart => ⟨fun mem => ((List.eraseIdx_sublist _ k).map Chain.head).subset mem,
      fun mem => by rw [serveChain_heads]; exact mem_eraseIdx_of_ne headAt mem apart⟩
  have sublist : ∀ c ∈ s'.inflight, c ∈ s.inflight := fun _ mem => List.mem_of_mem_eraseIdx mem
  have disk : ∀ b', (s'.buf b').disk = (s.buf b').disk := fun b' => by
    obtain ⟨data, changed⟩ : ∃ data, s'.buf b' = { s.buf b' with data } := serveChain_buf b'
    rw [changed]
  have blockno : (s'.buf b).blockno = (s.buf b).blockno := by
    obtain ⟨data, changed⟩ : ∃ data, s'.buf b = { s.buf b with data } := serveChain_buf b
    rw [changed]
  constructor
  · exact inv.free_iff
  · exact inv.cleared
  · exact inv.owned
  · intro q' b' write' idx' waiting'
    change s.pc q' = _ at waiting'
    by_cases same : q' = q
    · subst same
      rw [waiting] at waiting'
      cases waiting'
      constructor
      · exact req.held
      · exact req.nodup
      · exact req.chained.frame (fun _ _ => rfl) rfl blockno
      · simpa [hs', serveChain] using req.info
      · refine iff_of_false (by simp [hs', serveChain]) ?_
        rintro (avail | fetched)
        · exact not_avail avail
        · exact gone fetched
      · intro c mem named
        exact absurd (named ▸ List.mem_map_of_mem (f := Chain.head) mem) gone
      · intro _
        simp [hs', serveChain]
      · intro t served
        simp only [hs', serveChain, Function.update_self, Option.some_inj] at served
        subst served
        refine ⟨rfl, by rw [blockno, req.chained.op], rfl, fun good => ?_, by simp [hs', serveChain]⟩
        -- a success moved the block, in the request's direction, as `dev` promises
        simp only [decide_eq_true_eq] at good
        cases write
        · obtain ⟨delivered, same⟩ := dev.read_ok r _ _ _ good
          simp [hs', serveChain, delivered, same]
        · simp [hs', serveChain, dev.write_ok r _ _ _ good, blockAt_storeBlock]
      · rw [disk, req.disk.mpr (.inl unserved), push]
        simp
      · intro idle
        rw [disk, req.disk.mpr (.inl unserved)] at idle
        cases idle
    · have apart := inv.heads_ne waiting' waiting same
      have buf_apart : b' ≠ b := fun same_buf =>
        same (inv.exclusive _ _ b (by rw [waiting', same_buf]; rfl) (by rw [waiting]; rfl))
      refine (inv.req q' b' write' idx' waiting').frame (fun _ _ => rfl) (fun _ _ => rfl) rfl ?_
        (serveChain_buf_of_ne buf_apart) ?_ (or_congr Iff.rfl (kept apart)) (fun c mem _ => sublist c mem) ?_
      · simp only [hs', serveChain]
        exact Function.update_of_ne apart _ _
      · simp only [hs', serveChain]
        exact Function.update_of_ne apart _ _
      · rw [push, List.mem_append, List.mem_singleton, ofNat32_inj, or_iff_left apart]
  · exact inv.exclusive
  · intro b' busy
    rw [disk] at busy
    exact inv.disk_owned b' busy
  · exact inv.avail
  · exact inv.avail_nodup
  · exact fun c mem => inv.inflight c (sublist c mem)
  · exact ((List.eraseIdx_sublist _ k).map Chain.head).nodup inv.inflight_nodup
  · exact fun c mem => inv.fetched_apart c (sublist c mem)
  · intro k mem
    rw [push, List.mem_append, List.mem_singleton] at mem
    rcases mem with mem | rfl
    · exact inv.used k mem
    · exact ⟨q, b, write, idx, waiting, rfl⟩
  · rw [push]
    exact inv.used_nodup.append (List.nodup_singleton _) (List.disjoint_singleton.mpr not_used)
  · intro q' b' asleep
    rw [disk]
    exact inv.asleep_buf q' b' asleep
  · exact inv.asleep_free

omit [DecidableEq P] in
theorem device_complete {dev : Device R} {r : R} {k : Nat} (ran : s.devComplete dev r k = some s') : s'.Inv := by
  unfold devComplete at ran
  split at ran
  · cases ran
  · rename_i c at_
    cases ran
    have mem := List.mem_of_getElem? at_
    obtain ⟨q, b, write, idx, waiting, head⟩ := inv.inflight c mem
    obtain rfl := (inv.req q b write idx waiting).fetched c mem head
    exact inv.complete dev r waiting at_

omit [DecidableEq P] in
/-- `virtio_disk_intr` fails only by its `"virtio_disk_intr status"` panic,
on a request in the used ring that the device failed. -/
theorem intr_fault {f : Fault} (ran : s.intrLoop = .error f) : f = .panic "virtio_disk_intr status" ∧
    ∃ p b write idx t, s.pc p = .waitSleep b write idx ∧ UInt32.ofNat idx.1.val ∈ s.usedList ∧
      s.served idx.1 = some t ∧ t.ok = false := by
  induction s using VirtioSys.intrLoop.induct with
  | case1 s same =>
    rw [intrLoop_done same] at ran
    cases ran
  | case2 s pending _ lt bad =>
    rw [VirtioSys.intrLoop, dif_neg pending, dif_pos lt, if_pos bad] at ran
    cases ran
    obtain ⟨q, b, write, idx, t, waiting, head, served⟩ := inv.used_head pending
    have id : (⟨_, lt⟩ : Fin NUM) = idx.1 :=
      Fin.ext (show (s.usedRing (slot s.usedSeen)).toNat = idx.1.val by rw [head, toNat_ofNat32])
    rw [id] at bad
    obtain ⟨-, -, -, -, status⟩ := (inv.req q b write idx waiting).done t served
    refine ⟨rfl, q, b, write, idx, t, waiting, head ▸ usedRing_mem pending, served, ?_⟩
    cases okay : t.ok
    · rfl
    · exact absurd (status.mpr okay) bad
  | case3 s pending _ lt good missing =>
    obtain ⟨q, b, write, idx, t, waiting, head, -⟩ := inv.used_head pending
    have id : (⟨_, lt⟩ : Fin NUM) = idx.1 :=
      Fin.ext (show (s.usedRing (slot s.usedSeen)).toNat = idx.1.val by rw [head, toNat_ofNat32])
    rw [id, (inv.req q b write idx waiting).info] at missing
    cases missing
  | case4 s pending _ lt good b found ih =>
    rw [intrLoop_pass pending lt (not_not.mp good) found] at ran
    obtain ⟨rfl, q, b', write, idx, t, waiting, mem, served, bad⟩ :=
      ih (inv.intr_pass pending lt (not_not.mp good) found) ran
    refine ⟨rfl, q, b', write, idx, t, waiting, ?_, served, bad⟩
    rw [usedList_pop pending b]
    exact List.mem_cons_of_mem _ mem
  | case5 s pending _ lt =>
    obtain ⟨q, b, write, idx, t, waiting, head, -⟩ := inv.used_head pending
    exact absurd (show (s.usedRing (slot s.usedSeen)).toNat < NUM by rw [head, toNat_ofNat32]; exact idx.1.isLt) lt

omit [DecidableEq P] [DecidableEq B] in
/-- A ring whose unread entries are distinct heads of waiting requests holds
fewer than `NUM`: a request's second descriptor is no request's head. -/
theorem heads_lt {α : Type} [DecidableEq α] (f : Fin NUM → α) {l : List α} (nodup : l.Nodup)
    (heads : ∀ k ∈ l, ∃ p b write idx, s.pc p = .waitSleep b write idx ∧ k = f idx.1) : l.length < NUM := by
  cases l with
  | nil => exact Nat.pos_of_neZero NUM
  | cons k rest =>
    obtain ⟨p, b, write, idx, waiting, -⟩ := heads k List.mem_cons_self
    refine length_lt_of_heads f nodup idx.2.1 fun k' mem => ?_
    obtain ⟨q, b', write', idx', waiting', rfl⟩ := heads k' mem
    refine ⟨idx'.1, fun same => ?_, rfl⟩
    have one := inv.same_call waiting' waiting (d := idx'.1) (by simp [Idx.toList]) (by simp [Idx.toList, same])
    subst one
    rw [waiting] at waiting'
    cases waiting'
    have nodup := (inv.req q b write idx waiting).nodup
    simp [Idx.toList, same] at nodup

/-- One pass of `virtio_disk_rw`'s allocation loop never faults: the call
either sends its request and sleeps on `b`, or sleeps on `&disk.free[0]`. -/
theorem tryAlloc_next (starting : s.Starting p b write) : ∃ s', s.tryAlloc p b write = .next s' ∧ s'.Inv ∧
    ((∃ idx, s'.pc p = .waitSleep b write idx ∧ s'.chan p = some (.buf b)) ∨
     (s'.pc p = .allocSleep b write ∧ s'.chan p = some .free0)) := by
  rcases alloc3Desc_cases inv.cleared with ⟨idx, nodup, free, alloc⟩ | ⟨few, alloc | alloc⟩
  · -- the request goes out and `b->disk` is 1, so the call sleeps on `b`
    refine ⟨s.started p b write idx, ?_, inv.start starting nodup free, .inl ⟨idx, by simp [started, sleep],
      by simp [started, sleep]⟩⟩
    rw [VirtioSys.tryAlloc, alloc]
    exact waitLoop_busy (by simp [claim, submit])
  · refine ⟨s.sleep p .free0 (.allocSleep b write), ?_, inv.sleep_alloc starting few, .inr ⟨by simp [sleep],
      by simp [sleep]⟩⟩
    rw [VirtioSys.tryAlloc, alloc]
  · have starting' : (s.wakeup .free0).Starting p b write := ⟨by simp [VirtioSys.wakeup, starting.1], starting.2⟩
    refine ⟨(s.wakeup .free0).sleep p .free0 (.allocSleep b write), ?_,
      (inv.wakeup .free0).sleep_alloc starting' few, .inr ⟨by simp [sleep], by simp [sleep]⟩⟩
    rw [VirtioSys.tryAlloc, alloc]

end Inv

end Invariant

variable [Fintype P]

/-- One step.  A call starts only on a buffer no other call is using: `bread`
and `bwrite` hold the buffer's sleep-lock. -/
def step (dev : Device R) : VirtioEvent R P B → VirtioSys P B → Outcome (VirtioSys P B)
  | .rw p b write, s =>
      if s.pc p = .idle ∧ s.chan p = none ∧ ∀ q, (s.pc q).buffer ≠ some b then s.tryAlloc p b write
      else .blocked
  | .resume p, s =>
      if s.chan p = none then
        match s.pc p with
        | .idle => .blocked
        | .allocSleep b write => s.tryAlloc p b write
        | .waitSleep b write idx => s.waitLoop p b write idx
      else .blocked
  | .intr, s =>
      match s.intrLoop with
      | .ok s' => .next s'
      | .error f => .fault f
  | .fetch, s =>
      match s.devFetch with
      | some s' => .next s'
      | none => .blocked
  | .complete k r, s =>
      match s.devComplete dev r k with
      | some s' => .next s'
      | none => .blocked

/-- After `virtio_disk_init`: every descriptor free and zero, both rings
empty, no call in progress, no request at the device, and no buffer owned by
the disk. -/
def boot (buf : B → Buf) (image : Nat → UInt8) : VirtioSys P B where
  desc := fun _ => Desc.zero
  ops := fun _ => ⟨0, 0, 0⟩
  info := fun _ => ⟨none, 0⟩
  free := fun _ => true
  availRing := fun _ => 0
  availIdx := 0
  usedRing := fun _ => 0
  usedIdx := 0
  usedSeen := 0
  devIdx := 0
  inflight := []
  buf := fun b => { buf b with disk := false }
  image
  pc := fun _ => .idle
  chan := fun _ => none
  owner := fun _ => none
  served := fun _ => none

/-- The states reachable from `boot` by steps that do not fault, with the
device `dev`. -/
inductive Reachable (dev : Device R) (buf : B → Buf) (image : Nat → UInt8) : VirtioSys P B → Prop
  | boot : Reachable dev buf image (boot buf image)
  | step {s s' : VirtioSys P B} (e : VirtioEvent R P B) : Reachable dev buf image s → step dev e s = .next s' →
      Reachable dev buf image s'

/-! ## Whole runs -/

section Runs

variable {dev : Device R} {buf : B → Buf} {image : Nat → UInt8} {s s' : VirtioSys P B}

omit [DecidableEq P] [DecidableEq B] [Fintype P] in
theorem inv_boot (buf : B → Buf) (image : Nat → UInt8) : (boot buf image : VirtioSys P B).Inv where
  free_iff _ := by simp [boot]
  cleared _ _ := rfl
  owned _ _ own := by cases own
  req _ _ _ _ waiting := by cases waiting
  exclusive _ _ _ uses := by cases uses
  disk_owned _ busy := by simp [boot] at busy
  avail _ mem := by simp [boot, availList, window] at mem
  avail_nodup := by simp [boot, availList, window]
  inflight _ mem := by cases mem
  inflight_nodup := List.nodup_nil
  fetched_apart _ mem := by cases mem
  used _ mem := by simp [boot, usedList, window] at mem
  used_nodup := by simp [boot, usedList, window]
  asleep_buf _ _ asleep := by cases asleep
  asleep_free _ asleep := by cases asleep

namespace Inv

variable (inv : s.Inv)
include inv

/-- A call of `virtio_disk_rw` that starts never faults. -/
theorem rw_next (p : P) (b : B) (write : Bool) :
    step dev (.rw p b write) s = .blocked ∨ ∃ s', step dev (.rw p b write) s = .next s' ∧ s'.Inv := by
  simp only [step]
  split
  · rename_i guard
    obtain ⟨idle, awake, unused⟩ := guard
    have starting : s.Starting p b write := ⟨awake, .inl ⟨idle, unused⟩⟩
    obtain ⟨s', ran, inv', -⟩ := inv.tryAlloc_next starting
    exact .inr ⟨s', ran, inv'⟩
  · exact .inl rfl

/-- A call that runs again after a sleep never faults: it goes back to sleep,
sends its request, or returns. -/
theorem resume_next (p : P) :
    step dev (.resume p) s = .blocked ∨ ∃ s', step dev (.resume p) s = .next s' ∧ s'.Inv := by
  simp only [step]
  split
  · rename_i awake
    split
    · exact .inl rfl
    · rename_i b write alloc
      obtain ⟨s', ran, inv', -⟩ := inv.tryAlloc_next ⟨awake, .inr alloc⟩
      exact .inr ⟨s', ran, inv'⟩
    · rename_i b write idx waiting
      cases busy : (s.buf b).disk
      · exact .inr ⟨_, inv.waitLoop_done waiting busy, inv.finish waiting busy⟩
      · exact .inr ⟨_, waitLoop_busy busy, inv.sleep_wait waiting busy⟩
  · exact .inl rfl

end Inv

/-- Every step keeps the invariant, whatever the device does and in whatever
order it completes its requests. -/
theorem inv_step {e : VirtioEvent R P B} (inv : s.Inv) (stepped : step dev e s = .next s') : s'.Inv := by
  cases e with
  | rw p b write =>
    rcases inv.rw_next p b write with blocked | ⟨s'', ran, inv'⟩
    · rw [blocked] at stepped
      cases stepped
    · rw [ran] at stepped
      cases stepped
      exact inv'
  | resume p =>
    rcases inv.resume_next p with blocked | ⟨s'', ran, inv'⟩
    · rw [blocked] at stepped
      cases stepped
    · rw [ran] at stepped
      cases stepped
      exact inv'
  | intr =>
    simp only [step] at stepped
    split at stepped
    · rename_i ran
      cases stepped
      exact inv.intr ran
    · cases stepped
  | fetch =>
    simp only [step] at stepped
    split at stepped
    · rename_i ran
      cases stepped
      exact inv.device_fetch ran
    · cases stepped
  | complete k r =>
    simp only [step] at stepped
    split at stepped
    · rename_i ran
      cases stepped
      exact inv.device_complete ran
    · cases stepped

/-- The invariant holds in every reachable state. -/
theorem reachable_inv (reach : Reachable dev buf image s) : s.Inv := by
  induction reach with
  | boot => exact inv_boot buf image
  | step e _ stepped inv => exact inv_step inv stepped

end Runs

/-! ## A run: one read of block 0

Boot; the call `()` starts `virtio_disk_rw` on the buffer `()` for a read,
sends its request and sleeps on the buffer; the legacy device reads the
request and serves it; the interrupt handler reads it from the used ring; the
call returns. -/

/-- The driver after boot, with one buffer holding block 0. -/
def demo : VirtioSys Unit Unit := boot (fun _ => ⟨0, false, Block.zero⟩) (fun _ => 0)

/-- The request sent, the call asleep on its buffer. -/
def demoSent : VirtioSys Unit Unit := demo.started () () false (0, 1, 2)

/-- The request read by the device. -/
def demoFetched : VirtioSys Unit Unit :=
  { demoSent with devIdx := demoSent.devIdx + 1, inflight := demoSent.inflight ++ [⟨0, 0, (), false, 0⟩] }

/-- The request served by the device. -/
def demoServed : VirtioSys Unit Unit := demoFetched.serveChain legacy true 0 ⟨0, 0, (), false, 0⟩

/-- The request read from the used ring, the call woken. -/
def demoSeen : VirtioSys Unit Unit := demoServed.intrPass ()

theorem demo_rw : step legacy (.rw () () false) demo = .next demoSent := rfl

theorem demo_fetch : step legacy .fetch demoSent = .next demoFetched := rfl

theorem demo_complete : step legacy (.complete 0 true) demoFetched = .next demoServed := rfl

theorem demo_intr : step legacy .intr demoServed = .next demoSeen := by
  simp only [step]
  rw [intrLoop_pass (b := ()) (by decide) (by decide) (by decide) (by decide), intrLoop_done (by decide)]
  rfl

theorem demoSent_reachable : Reachable legacy (fun _ => ⟨0, false, Block.zero⟩) (fun _ => 0) demoSent :=
  .step (.rw () () false) .boot demo_rw

theorem demoServed_reachable : Reachable legacy (fun _ => ⟨0, false, Block.zero⟩) (fun _ => 0) demoServed :=
  .step (.complete 0 true) (.step .fetch demoSent_reachable demo_fetch) demo_complete

theorem demoSeen_reachable : Reachable legacy (fun _ => ⟨0, false, Block.zero⟩) (fun _ => 0) demoSeen :=
  .step .intr demoServed_reachable demo_intr

theorem demo_resume : step legacy (.resume ()) demoSeen = .next (demoSeen.finished () (0, 1, 2)) := by
  simp only [step]
  rw [if_pos (by decide)]
  exact (reachable_inv demoSeen_reachable).waitLoop_done rfl rfl

section Properties

variable {dev : Device R} {buf : B → Buf} {image : Nat → UInt8} {s s' : VirtioSys P B}

/-- The descriptors, in every reachable state: a descriptor is free exactly
when no call holds it, and is then zero; each waiting call holds three
distinct ones, chained as `virtio_disk_rw` formats a block request, which is
the request the device reads from them. -/
theorem virtio_descriptors (reach : Reachable dev buf image s) :
    (∀ d, s.free d = true ↔ s.owner d = none) ∧ (∀ d, s.free d = true → s.desc d = Desc.zero) ∧
    ∀ p b write idx, s.pc p = .waitSleep b write idx →
      idx.toList.Nodup ∧ (∀ d ∈ idx.toList, s.owner d = some p) ∧ s.Chained b write idx ∧
        s.parse idx.1 = some ⟨idx.1, idx.1, b, write, idx.1⟩ := by
  have inv := reachable_inv reach
  refine ⟨inv.free_iff, inv.cleared, fun p b write idx waiting => ?_⟩
  have req := inv.req p b write idx waiting
  exact ⟨req.nodup, req.held, req.chained, parse_chained req.chained⟩

theorem virtio_descriptors_sent :
    (∀ d, demoSent.free d = true ↔ demoSent.owner d = none) ∧
    (∀ d, demoSent.free d = true → demoSent.desc d = Desc.zero) ∧
    ∀ p b write idx, demoSent.pc p = .waitSleep b write idx →
      idx.toList.Nodup ∧ (∀ d ∈ idx.toList, demoSent.owner d = some p) ∧ demoSent.Chained b write idx ∧
        demoSent.parse idx.1 = some ⟨idx.1, idx.1, b, write, idx.1⟩ :=
  virtio_descriptors demoSent_reachable

/-- The two rings and the device, in every reachable state: a waiting request
the device has not served has its head in the avail ring or among the chains
the device has read, and the chain read is the request; the avail entries the
device has not read and the chains it holds are those of waiting requests,
the used entries the driver has not read are heads of requests the device has
served; no head is in a ring, or held by the device, twice, nor both in the
avail ring and held; and neither ring ever holds `NUM` unread entries. -/
theorem virtio_rings (reach : Reachable dev buf image s) :
    (∀ p b write idx, s.pc p = .waitSleep b write idx →
      (s.served idx.1 = none ↔ UInt16.ofNat idx.1.val ∈ s.availList ∨ idx.1 ∈ s.inflight.map Chain.head) ∧
      (∀ c ∈ s.inflight, c.head = idx.1 → c = ⟨idx.1, idx.1, b, write, idx.1⟩) ∧
      (UInt32.ofNat idx.1.val ∈ s.usedList → s.served idx.1 ≠ none)) ∧
    (∀ k ∈ s.availList, ∃ p b write idx, s.pc p = .waitSleep b write idx ∧ k = UInt16.ofNat idx.1.val) ∧
    (∀ c ∈ s.inflight, ∃ p b write idx, s.pc p = .waitSleep b write idx ∧ c.head = idx.1) ∧
    (∀ k ∈ s.usedList, ∃ p b write idx, s.pc p = .waitSleep b write idx ∧ k = UInt32.ofNat idx.1.val) ∧
    s.availList.Nodup ∧ (s.inflight.map Chain.head).Nodup ∧ s.usedList.Nodup ∧
    (∀ c ∈ s.inflight, UInt16.ofNat c.head.val ∉ s.availList) ∧
    (s.availIdx - s.devIdx).toNat < NUM ∧ (s.usedIdx - s.usedSeen).toNat < NUM := by
  have inv := reachable_inv reach
  have avail_lt := inv.heads_lt (fun d => UInt16.ofNat d.val) inv.avail_nodup inv.avail
  have used_lt := inv.heads_lt (fun d => UInt32.ofNat d.val) inv.used_nodup inv.used
  rw [availList, length_window] at avail_lt
  rw [usedList, length_window] at used_lt
  refine ⟨fun p b write idx waiting => ?_, inv.avail, inv.inflight, inv.used, inv.avail_nodup, inv.inflight_nodup,
    inv.used_nodup, inv.fetched_apart, avail_lt, used_lt⟩
  have req := inv.req p b write idx waiting
  exact ⟨req.pending, req.fetched, req.used⟩

theorem virtio_rings_served :
    (∀ p b write idx, demoServed.pc p = .waitSleep b write idx →
      (demoServed.served idx.1 = none ↔
        UInt16.ofNat idx.1.val ∈ demoServed.availList ∨ idx.1 ∈ demoServed.inflight.map Chain.head) ∧
      (∀ c ∈ demoServed.inflight, c.head = idx.1 → c = ⟨idx.1, idx.1, b, write, idx.1⟩) ∧
      (UInt32.ofNat idx.1.val ∈ demoServed.usedList → demoServed.served idx.1 ≠ none)) ∧
    (∀ k ∈ demoServed.availList, ∃ p b write idx, demoServed.pc p = .waitSleep b write idx ∧
      k = UInt16.ofNat idx.1.val) ∧
    (∀ c ∈ demoServed.inflight, ∃ p b write idx, demoServed.pc p = .waitSleep b write idx ∧ c.head = idx.1) ∧
    (∀ k ∈ demoServed.usedList, ∃ p b write idx, demoServed.pc p = .waitSleep b write idx ∧
      k = UInt32.ofNat idx.1.val) ∧
    demoServed.availList.Nodup ∧ (demoServed.inflight.map Chain.head).Nodup ∧ demoServed.usedList.Nodup ∧
    (∀ c ∈ demoServed.inflight, UInt16.ofNat c.head.val ∉ demoServed.availList) ∧
    (demoServed.availIdx - demoServed.devIdx).toNat < NUM ∧ (demoServed.usedIdx - demoServed.usedSeen).toNat < NUM :=
  virtio_rings demoServed_reachable

/-- The device and the interrupt handler, in every reachable state: the
device accepts every chain the driver hands it and can complete every request
it holds, in any order, and `virtio_disk_intr` fails only by its
`"virtio_disk_intr status"` panic, on a request in the used ring that the
device reported failed. -/
theorem virtio_device_progress (reach : Reachable dev buf image s) :
    (s.devIdx ≠ s.availIdx → ∃ s', step dev .fetch s = .next s') ∧
    (∀ k r, k < s.inflight.length → ∃ s', step dev (.complete k r) s = .next s') ∧
    ∀ f, step dev .intr s = .fault f → f = .panic "virtio_disk_intr status" ∧
      ∃ p b write idx t, s.pc p = .waitSleep b write idx ∧ UInt32.ofNat idx.1.val ∈ s.usedList ∧
        s.served idx.1 = some t ∧ t.ok = false := by
  have inv := reachable_inv reach
  refine ⟨fun pending => ?_, fun k r lt => ?_, fun f stepped => ?_⟩
  · obtain ⟨q, b, write, idx, -, -, fetched⟩ := inv.devFetch_of_pending pending
    obtain ⟨s', fetched⟩ : ∃ s', s.devFetch = some s' := ⟨_, fetched⟩
    exact ⟨s', by simp only [step, fetched]⟩
  · exact ⟨s.serveChain dev r k s.inflight[k], by simp only [step, devComplete, List.getElem?_eq_getElem lt]⟩
  · simp only [step] at stepped
    split at stepped
    · cases stepped
    · rename_i f' ran
      cases stepped
      exact inv.intr_fault ran

theorem virtio_device_progress_sent :
    (demoSent.devIdx ≠ demoSent.availIdx → ∃ s', step legacy .fetch demoSent = .next s') ∧
    (∀ k r, k < demoSent.inflight.length → ∃ s', step legacy (.complete k r) demoSent = .next s') ∧
    ∀ f, step legacy .intr demoSent = .fault f → f = .panic "virtio_disk_intr status" ∧
      ∃ p b write idx t, demoSent.pc p = .waitSleep b write idx ∧ UInt32.ofNat idx.1.val ∈ demoSent.usedList ∧
        demoSent.served idx.1 = some t ∧ t.ok = false :=
  virtio_device_progress demoSent_reachable

/-- `virtio_disk_rw` never faults: in every reachable state, a call that
starts, or runs again after a sleep, goes to its next sleep or returns, with
no `free_desc` panic and nothing the C leaves undefined. -/
theorem virtio_rw_no_fault (reach : Reachable dev buf image s) (p : P) :
    (∀ b write f, step dev (.rw p b write) s ≠ .fault f) ∧ ∀ f, step dev (.resume p) s ≠ .fault f := by
  have inv := reachable_inv reach
  constructor
  · intro b write f stepped
    rcases inv.rw_next p b write with blocked | ⟨s', ran, -⟩
    · rw [blocked] at stepped
      cases stepped
    · rw [ran] at stepped
      cases stepped
  · intro f stepped
    rcases inv.resume_next p with blocked | ⟨s', ran, -⟩
    · rw [blocked] at stepped
      cases stepped
    · rw [ran] at stepped
      cases stepped

theorem virtio_rw_no_fault_seen :
    (∀ b write f, step legacy (.rw () b write) demoSeen ≠ .fault f) ∧
      ∀ f, step legacy (.resume ()) demoSeen ≠ .fault f :=
  virtio_rw_no_fault demoSeen_reachable ()

/-- `virtio_disk_rw` returns only once the device has done its request: in
every reachable state, a waiting call that runs and returns had its request
served successfully, on its buffer, at sector `blockno * (BSIZE / 512)` and in
its direction; the buffer holds the block moved, which is the block at that
sector on the disk once the device was done; and exactly the call's three
descriptors go back to the free ones. -/
theorem virtio_rw_returns (reach : Reachable dev buf image s) (p : P) :
    ∀ b write idx s', s.pc p = .waitSleep b write idx → step dev (.resume p) s = .next s' → s'.pc p = .idle →
      (∃ t, s.served idx.1 = some t ∧ t.buffer = b ∧ t.sector = sectorOf (s.buf b).blockno ∧ t.write = write ∧
        t.ok = true ∧ (s'.buf b).data = t.bytes ∧ t.disk = t.bytes) ∧
      s'.free = idx.set s.free true ∧ ∀ d, s'.owner d = if d ∈ idx.toList then none else s.owner d := by
  have inv := reachable_inv reach
  intro b write idx s' waiting stepped returned
  simp only [step, waiting] at stepped
  split at stepped
  · cases busy : (s.buf b).disk
    · rw [inv.waitLoop_done waiting busy] at stepped
      cases stepped
      have req := inv.req p b write idx waiting
      obtain ⟨t, served, ok⟩ := req.seen busy
      obtain ⟨buffer, sector, dir, data, -⟩ := req.done t served
      exact ⟨⟨t, served, buffer, sector, dir, ok, (data ok).1, (data ok).2⟩, rfl, fun d => rfl⟩
    · rw [waitLoop_busy busy] at stepped
      cases stepped
      simp [sleep] at returned
  · cases stepped

theorem virtio_rw_returns_seen :
    (∃ t, demoSeen.served 0 = some t ∧ t.buffer = () ∧ t.sector = sectorOf (demoSeen.buf ()).blockno ∧
      t.write = false ∧ t.ok = true ∧ ((demoSeen.finished () (0, 1, 2)).buf ()).data = t.bytes ∧ t.disk = t.bytes) ∧
    (demoSeen.finished () (0, 1, 2)).free = Idx.set (0, 1, 2) demoSeen.free true ∧
    ∀ d, (demoSeen.finished () (0, 1, 2)).owner d = if d ∈ Idx.toList (0, 1, 2) then none else demoSeen.owner d :=
  virtio_rw_returns demoSeen_reachable () () false (0, 1, 2) _ rfl demo_resume rfl

/-- No lost wakeup, in every reachable state: a call asleep on `b` waits for
a request the disk still owns, and `b->disk` is 1 exactly until the device has
served it and `virtio_disk_intr` has read it; a call asleep on
`&disk.free[0]` found fewer than three descriptors free. -/
theorem virtio_no_lost_wakeup (reach : Reachable dev buf image s) :
    (∀ p b, s.chan p = some (.buf b) → (∃ write idx, s.pc p = .waitSleep b write idx) ∧ (s.buf b).disk = true) ∧
    (∀ p b write idx, s.pc p = .waitSleep b write idx →
      ((s.buf b).disk = true ↔ s.served idx.1 = none ∨ UInt32.ofNat idx.1.val ∈ s.usedList)) ∧
    ∀ p, s.chan p = some .free0 → (∃ b write, s.pc p = .allocSleep b write) ∧ s.freeCount < 3 := by
  have inv := reachable_inv reach
  exact ⟨inv.asleep_buf, fun p b write idx waiting => (inv.req p b write idx waiting).disk, inv.asleep_free⟩

theorem virtio_no_lost_wakeup_sent :
    (∀ p b, demoSent.chan p = some (.buf b) → (∃ write idx, demoSent.pc p = .waitSleep b write idx) ∧
      (demoSent.buf b).disk = true) ∧
    (∀ p b write idx, demoSent.pc p = .waitSleep b write idx →
      ((demoSent.buf b).disk = true ↔ demoSent.served idx.1 = none ∨ UInt32.ofNat idx.1.val ∈ demoSent.usedList)) ∧
    ∀ p, demoSent.chan p = some .free0 → (∃ b write, demoSent.pc p = .allocSleep b write) ∧ demoSent.freeCount < 3 :=
  virtio_no_lost_wakeup demoSent_reachable

end Properties

end VirtioSys

end Virtio

end Xv6
