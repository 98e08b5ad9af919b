/-
# Kernel.Uart -- uart.c: the transmit ring

`uartputc(c)` puts a byte in `uart_tx_buf` at slot `uart_tx_w % 32` and runs
`uartstart()`, which sends bytes from slot `uart_tx_r % 32` on to the
device's `THR` for as long as the ring is not empty and the device reads as
idle.  `uartintr()` runs `uartstart()` again when the device is ready for more.
All of it is done holding `uart_tx_lock`, so the model's steps are the critical
sections under that lock: a `uartputc` that finds room (`UartEvent.putc`,
which is refused when the ring is full, where `uartputc` sleeps on
`&uart_tx_r` and tests again when woken), and the `uartstart` of `uartintr`
(`UartEvent.intr`).  Each `uartstart` reads `LSR_TX_IDLE` from a list of the
device's answers, so every pattern of readiness is covered.  The callers of
`uartputc` pass a `char`, so the argument is a byte.  The receive half of
`uartintr`, `uartputc_sync` and the `panicked` spin do not touch the ring.

`uart_tx_w` and `uart_tx_r` are 64-bit counters that run freely, and the
tests `uart_tx_w == uart_tx_r` and `uart_tx_w == uart_tx_r + UART_TX_BUF_SIZE`
compare them modulo `2 ^ 64`.  `UartSys` adds the bytes put in the ring
(`put`, a ghost) and the bytes written to `THR` (`thr`).  `Inv` says the
counters are those two counts modulo `2 ^ 64`, `THR` got a prefix of what was
put, at most a ring's worth is left, and each byte left is in the slot of the
counter value it went in at.  It holds after every run (`reachable_inv`), so
what was put is what `THR` got followed by the ring's contents, oldest first,
with the counters at most 32 apart modulo `2 ^ 64`, and `uartputc` waits
exactly when 32 bytes are waiting (`uart_tx_fifo`).  As plain 64-bit numbers
the counters keep `uart_tx_r <= uart_tx_w <= uart_tx_r + 32` only while fewer
than `2 ^ 64 - 32` bytes have been put: after `2 ^ 64` bytes `uart_tx_w` has
wrapped to 0 (`uart_tx_w_wraps`), which the ring, being indexed modulo 32,
does not notice.
-/
import Xv6.Theory.Paths

namespace Xv6

namespace Uart

open Paths

set_option autoImplicit false

/-- `UART_TX_BUF_SIZE`. -/
def UART_TX_BUF_SIZE : Nat := 32

/-- `uart_tx_buf`, `uart_tx_w` and `uart_tx_r`. -/
structure Ring where
  buf : Fin UART_TX_BUF_SIZE → UInt8
  /-- write next to `uart_tx_buf[uart_tx_w % UART_TX_BUF_SIZE]` -/
  w : UInt64
  /-- read next from `uart_tx_buf[uart_tx_r % UART_TX_BUF_SIZE]` -/
  r : UInt64

/-- The slot `c % UART_TX_BUF_SIZE` of counter value `c`. -/
def slot (c : UInt64) : Fin UART_TX_BUF_SIZE := ⟨c.toNat % UART_TX_BUF_SIZE, Nat.mod_lt _ (by decide)⟩

/-- `uartstart()`, reading `LSR_TX_IDLE` from `lsr` each time round its loop
(once the device's answers run out it reads as busy): the ring after it, and
the bytes it writes to `THR` in order. -/
def uartstart (u : Ring) (lsr : List Bool) : Ring × List UInt8 :=
  if u.w = u.r then (u, [])
  else
    match lsr with
    | true :: lsr =>
      let c := u.buf (slot u.r)
      -- `uart_tx_r += 1; wakeup(&uart_tx_r); WriteReg(THR, c);`
      let (u, out) := uartstart { u with r := u.r + 1 } lsr
      (u, c :: out)
    | _ => (u, [])

/-- `uartputc(c)` under `uart_tx_lock`, its `uartstart` reading `lsr`: `none`
while the ring is full, where it sleeps. -/
def uartputc (u : Ring) (c : UInt8) (lsr : List Bool) : Option (Ring × List UInt8) :=
  if u.w = u.r + UInt64.ofNat UART_TX_BUF_SIZE then none
  else some (uartstart { u with buf := Function.update u.buf (slot u.w) c, w := u.w + 1 } lsr)

/-- The ring with what has gone through it. -/
structure UartSys where
  ring : Ring
  /-- ghost: the bytes `uartputc` put in the ring, in order -/
  put : List UInt8
  /-- the bytes written to `THR`, in order -/
  thr : List UInt8

/-- A critical section under `uart_tx_lock`. -/
inductive UartEvent where
  /-- `uartputc(c)` past its wait, its `uartstart` reading `lsr` -/
  | putc (c : UInt8) (lsr : List Bool)
  /-- the `uartstart` of `uartintr`, reading `lsr` -/
  | intr (lsr : List Bool)

namespace UartSys

def step : UartEvent → UartSys → Option UartSys
  | .putc c lsr, s => (uartputc s.ring c lsr).map fun (u, out) => ⟨u, s.put ++ [c], s.thr ++ out⟩
  | .intr lsr, s => some ⟨(uartstart s.ring lsr).1, s.put, s.thr ++ (uartstart s.ring lsr).2⟩

/-- After `uartinit`: the ring empty, both counters 0. -/
def boot : UartSys := ⟨⟨fun _ => 0, 0, 0⟩, [], []⟩

end UartSys

/-- The bytes in the ring, oldest first: from slot `uart_tx_r` up to the one
before `uart_tx_w`. -/
def pending (u : Ring) : List UInt8 :=
  (List.range (u.w - u.r).toNat).map fun i => u.buf (slot (u.r + UInt64.ofNat i))

/-! ## Counters -/

section Counters

/-- Two counts that differ by less than `2 ^ 64` are equal exactly when their
64-bit counters are. -/
theorem ofNat_inj_of_close {m n : Nat} (above : m < n + 2 ^ 64) (below : n < m + 2 ^ 64) :
    UInt64.ofNat m = UInt64.ofNat n ↔ m = n := by
  rw [← UInt64.toNat_inj, UInt64.toNat_ofNat', UInt64.toNat_ofNat']
  omega

theorem ofNat_succ (n : Nat) : UInt64.ofNat n + 1 = UInt64.ofNat (n + 1) := by
  rw [UInt64.ofNat_add]
  rfl

/-- Slots of counter values less than a ring apart differ. -/
theorem slot_ofNat_ne {i j : Nat} (lt : i < j) (close : j < i + UART_TX_BUF_SIZE) :
    slot (UInt64.ofNat i) ≠ slot (UInt64.ofNat j) := by
  intro same
  have := congrArg Fin.val same
  simp only [slot, UInt64.toNat_ofNat', UART_TX_BUF_SIZE] at this close
  omega

theorem toNat_ofNat_sub {m n : Nat} (le : n ≤ m) (close : m - n < 2 ^ 64) :
    (UInt64.ofNat m - UInt64.ofNat n).toNat = m - n := by
  rw [UInt64.toNat_sub, UInt64.toNat_ofNat', UInt64.toNat_ofNat']
  omega

end Counters

/-! ## The invariant -/

namespace UartSys

/-- The counters count what went in and out, `THR` got the oldest bytes, and
the rest wait in their slots. -/
structure Inv (s : UartSys) : Prop where
  /-- `uart_tx_w` counts the bytes put in, modulo `2 ^ 64` -/
  w_eq : s.ring.w = UInt64.ofNat s.put.length
  /-- `uart_tx_r` counts the bytes sent -/
  r_eq : s.ring.r = UInt64.ofNat s.thr.length
  /-- `THR` got the bytes in the order they were put in -/
  sent : s.thr <+: s.put
  /-- at most a ring's worth waits -/
  room : s.put.length ≤ s.thr.length + UART_TX_BUF_SIZE
  /-- a byte not yet sent is in the slot of the counter value it went in at -/
  slots : ∀ i (lt : i < s.put.length), s.thr.length ≤ i → s.ring.buf (slot (UInt64.ofNat i)) = s.put[i]

theorem inv_boot : boot.Inv where
  w_eq := rfl
  r_eq := rfl
  sent := List.nil_prefix
  room := Nat.zero_le _
  slots _ lt := absurd lt (Nat.not_lt_zero _)

section Steps

variable {s : UartSys}

theorem Inv.sent_le (inv : s.Inv) : s.thr.length ≤ s.put.length := inv.sent.length_le

/-- `uart_tx_w == uart_tx_r`: nothing waits. -/
theorem Inv.empty_iff (inv : s.Inv) : s.ring.w = s.ring.r ↔ s.put.length = s.thr.length := by
  have := inv.sent_le
  have := inv.room
  rw [inv.w_eq, inv.r_eq, ofNat_inj_of_close (by unfold UART_TX_BUF_SIZE at *; omega) (by omega)]

/-- `uart_tx_w == uart_tx_r + UART_TX_BUF_SIZE`: a ring's worth waits. -/
theorem Inv.full_iff (inv : s.Inv) :
    s.ring.w = s.ring.r + UInt64.ofNat UART_TX_BUF_SIZE ↔ s.put.length = s.thr.length + UART_TX_BUF_SIZE := by
  have := inv.sent_le
  have := inv.room
  rw [inv.w_eq, inv.r_eq, ← UInt64.ofNat_add]
  exact ofNat_inj_of_close (by unfold UART_TX_BUF_SIZE at *; omega) (by unfold UART_TX_BUF_SIZE at *; omega)

/-- `uartputc` puts `c` in when the ring has room. -/
theorem Inv.store (inv : s.Inv) (notFull : s.put.length < s.thr.length + UART_TX_BUF_SIZE) (c : UInt8) :
    Inv ⟨{ s.ring with buf := Function.update s.ring.buf (slot s.ring.w) c, w := s.ring.w + 1 },
      s.put ++ [c], s.thr⟩ where
  w_eq := by
    dsimp only
    rw [inv.w_eq, ofNat_succ, List.length_append, List.length_singleton]
  r_eq := inv.r_eq
  sent := inv.sent.trans (List.prefix_append _ _)
  room := by
    dsimp only
    rw [List.length_append, List.length_singleton]
    omega
  slots i lt waiting := by
    dsimp only at lt waiting ⊢
    rw [List.length_append, List.length_singleton] at lt
    rw [inv.w_eq]
    by_cases last : i = s.put.length
    · -- the byte just put in
      subst last
      rw [Function.update_self, List.getElem_concat_length]
      rfl
    · -- an older byte, whose slot is less than a ring away
      have older : i < s.put.length := by omega
      rw [Function.update_of_ne (slot_ofNat_ne older (by omega)), List.getElem_append_left older]
      exact inv.slots i older waiting

/-- `uartstart` sends the oldest byte when the ring is not empty. -/
theorem Inv.send (inv : s.Inv) (nonempty : s.ring.w ≠ s.ring.r) :
    Inv ⟨{ s.ring with r := s.ring.r + 1 }, s.put, s.thr ++ [s.ring.buf (slot s.ring.r)]⟩ := by
  have waiting : s.thr.length < s.put.length :=
    Nat.lt_of_le_of_ne inv.sent_le fun same => nonempty (inv.empty_iff.mpr same.symm)
  have oldest : s.ring.buf (slot s.ring.r) = s.put[s.thr.length] := by
    rw [inv.r_eq]
    exact inv.slots _ waiting le_rfl
  refine ⟨inv.w_eq, ?_, ?_, ?_, ?_⟩ <;> dsimp only
  · rw [inv.r_eq, ofNat_succ, List.length_append, List.length_singleton]
  · -- the prefix grows by the next byte of `put`
    have grown := List.take_concat_get' s.put s.thr.length waiting
    rw [← List.prefix_iff_eq_take.mp inv.sent] at grown
    rw [oldest, grown]
    exact List.take_prefix _ _
  · rw [List.length_append, List.length_singleton]
    have := inv.room
    omega
  · intro i lt sentBefore
    rw [List.length_append, List.length_singleton] at sentBefore
    exact inv.slots i lt (by omega)

/-- A whole `uartstart` run keeps the invariant, whatever the device answers.
The induction follows its loop, one byte a round. -/
theorem Inv.uartstart (lsr : List Bool) :
    ∀ {u : Ring} {thr : List UInt8} {put : List UInt8}, Inv ⟨u, put, thr⟩ →
      Inv ⟨(Uart.uartstart u lsr).1, put, thr ++ (Uart.uartstart u lsr).2⟩ := by
  induction lsr with
  | nil =>
    intro u thr put inv
    unfold Uart.uartstart
    split <;> simpa using inv
  | cons ready lsr ih =>
    intro u thr put inv
    unfold Uart.uartstart
    split
    · simpa using inv
    · rename_i nonempty
      cases ready with
      | false => simpa using inv
      | true =>
        have next := ih (inv.send nonempty)
        dsimp only at next ⊢
        rwa [List.append_cons thr]

theorem inv_step {e : UartEvent} {s' : UartSys} (inv : s.Inv) (stepped : step e s = some s') : s'.Inv := by
  cases e with
  | putc c lsr =>
    simp only [step, uartputc] at stepped
    split at stepped
    · cases stepped
    · rename_i notFull
      cases stepped
      have room : s.put.length < s.thr.length + UART_TX_BUF_SIZE :=
        Nat.lt_of_le_of_ne inv.room fun full => notFull (inv.full_iff.mpr full)
      exact Inv.uartstart lsr (inv.store room c)
  | intr lsr =>
    cases stepped
    exact Inv.uartstart lsr inv

end Steps

theorem reachable_inv {t : List UartEvent} {s : UartSys} (ran : run step boot t = some s) : s.Inv :=
  run_invariant step Inv (fun _ _ _ inv stepped => inv_step inv stepped) inv_boot ran

/-! ## First in, first out -/

section Fifo

variable {s : UartSys}

/-- The counters are as far apart as the bytes waiting. -/
theorem Inv.toNat_sub (inv : s.Inv) : (s.ring.w - s.ring.r).toNat = s.put.length - s.thr.length := by
  have := inv.room
  rw [inv.w_eq, inv.r_eq, toNat_ofNat_sub inv.sent_le (by unfold UART_TX_BUF_SIZE at *; omega)]

/-- What was put in is what `THR` got and then the ring's contents. -/
theorem Inv.put_eq (inv : s.Inv) : s.put = s.thr ++ pending s.ring := by
  conv_lhs => rw [← List.take_append_drop s.thr.length s.put, ← List.prefix_iff_eq_take.mp inv.sent]
  congr 1
  apply List.ext_getElem
  · rw [List.length_drop, pending, List.length_map, List.length_range, inv.toNat_sub]
  · intro i inDrop inPending
    rw [List.length_drop] at inDrop
    -- the `i`-th byte in the ring went in at counter value `uart_tx_r + i`
    simp only [List.getElem_drop, pending, List.getElem_map, List.getElem_range]
    rw [inv.r_eq, ← UInt64.ofNat_add]
    exact (inv.slots _ (by omega) (Nat.le_add_right _ _)).symm

/-- While the counts stay below `2 ^ 64 - 32`, the counters are ordered as
plain numbers. -/
theorem Inv.counters_le (inv : s.Inv) (small : s.put.length + UART_TX_BUF_SIZE < 2 ^ 64) :
    s.ring.r ≤ s.ring.w ∧ s.ring.w ≤ s.ring.r + UInt64.ofNat UART_TX_BUF_SIZE := by
  have := inv.sent_le
  have := inv.room
  rw [inv.w_eq, inv.r_eq, UInt64.le_iff_toNat_le, UInt64.le_iff_toNat_le, UInt64.toNat_add,
    UInt64.toNat_ofNat', UInt64.toNat_ofNat', UInt64.toNat_ofNat']
  unfold UART_TX_BUF_SIZE at *
  omega

/-- Every interleaving of `uartputc` and `uartintr`, under any answers of the
device: `THR` gets exactly the bytes put in, in order, followed in the ring by
those still waiting; the counters are at most a ring apart modulo `2 ^ 64`, and
ordered as numbers while fewer than `2 ^ 64 - 32` bytes have been put;
`uartputc` waits exactly when a ring's worth is waiting. -/
theorem uart_tx_fifo {t : List UartEvent} (ran : run step boot t = some s) :
    s.put = s.thr ++ pending s.ring ∧
      (s.ring.w - s.ring.r).toNat ≤ UART_TX_BUF_SIZE ∧
      (s.put.length + UART_TX_BUF_SIZE < 2 ^ 64 →
        s.ring.r ≤ s.ring.w ∧ s.ring.w ≤ s.ring.r + UInt64.ofNat UART_TX_BUF_SIZE) ∧
      ∀ c lsr, uartputc s.ring c lsr = none ↔ s.put.length = s.thr.length + UART_TX_BUF_SIZE := by
  have inv := reachable_inv ran
  refine ⟨inv.put_eq, ?_, inv.counters_le, fun c lsr => ?_⟩
  · rw [inv.toNat_sub]
    have := inv.room
    omega
  · rw [← inv.full_iff]
    unfold uartputc
    split <;> simp_all

/-- `A` waits for the device, `B` and `C` go out with it, and the interrupt
finds the device ready again. -/
theorem uart_tx_fifo_abc :
    ∃ s, run step boot [.putc 65 [false], .putc 66 [true, true], .putc 67 [false], .intr [true, true]] = some s ∧
      (s.put = s.thr ++ pending s.ring ∧
        (s.ring.w - s.ring.r).toNat ≤ UART_TX_BUF_SIZE ∧
        (s.put.length + UART_TX_BUF_SIZE < 2 ^ 64 →
          s.ring.r ≤ s.ring.w ∧ s.ring.w ≤ s.ring.r + UInt64.ofNat UART_TX_BUF_SIZE) ∧
        ∀ c lsr, uartputc s.ring c lsr = none ↔ s.put.length = s.thr.length + UART_TX_BUF_SIZE) :=
  ⟨_, rfl, uart_tx_fifo (t := [.putc 65 [false], .putc 66 [true, true], .putc 67 [false], .intr [true, true]]) rfl⟩

end Fifo

/-! ## The counters wrap -/

/-- After `i` bytes of 0, each sent as soon as it was put in. -/
def echoed (i : Nat) : UartSys :=
  ⟨⟨fun _ => 0, UInt64.ofNat i, UInt64.ofNat i⟩, List.replicate i 0, List.replicate i 0⟩

theorem step_echoed (i : Nat) : step (.putc 0 [true]) (echoed i) = some (echoed (i + 1)) := by
  have roomy : UInt64.ofNat i ≠ UInt64.ofNat i + UInt64.ofNat UART_TX_BUF_SIZE := by
    rw [← UInt64.ofNat_add, ne_eq, ofNat_inj_of_close (by unfold UART_TX_BUF_SIZE; omega)
      (by unfold UART_TX_BUF_SIZE; omega)]
    unfold UART_TX_BUF_SIZE
    omega
  have moved : UInt64.ofNat i + 1 ≠ UInt64.ofNat i := by
    rw [ofNat_succ, ne_eq, ofNat_inj_of_close (by omega) (by omega)]
    omega
  -- the byte goes in, and straight out: the buffer stays all zero
  have zero : Function.update (fun _ : Fin UART_TX_BUF_SIZE => (0 : UInt8)) (slot (UInt64.ofNat i)) 0 =
      fun _ => 0 := Function.update_eq_self_iff.mpr rfl
  simp only [echoed, step, uartputc, if_neg roomy, zero, Option.map_some]
  rw [uartstart, if_neg moved]
  simp only [uartstart, ofNat_succ, List.replicate_succ']
  rfl

/-- After `2 ^ 64 - 1` bytes went through, one more is put in while the device
is busy: `uart_tx_w` wraps to 0 and is below `uart_tx_r`. -/
theorem uart_tx_w_wraps :
    ∃ s, run step boot (List.replicate (2 ^ 64 - 1) (.putc 0 [true]) ++ [.putc 0 []]) = some s ∧
      s.ring.w = 0 ∧ ¬ s.ring.r ≤ s.ring.w := by
  have through : run step boot (List.replicate (2 ^ 64 - 1) (.putc 0 [true])) = some (echoed (2 ^ 64 - 1)) :=
    run_replicate step _ echoed fun i _ => step_echoed i
  refine ⟨?s, ?ran, ?_, ?_⟩
  case ran =>
    rw [run_append, through, Option.bind_some]
    rfl
  · decide
  · decide

end UartSys

end Uart

end Xv6
