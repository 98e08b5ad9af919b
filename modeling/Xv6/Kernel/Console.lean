/-
# Kernel.Console -- console.c: the input line discipline

`cons.buf` is a ring of `INPUT_BUF_SIZE` bytes behind three free-running
`uint` counters (`Theory.Ring`).  Readers have taken everything before `r`.
`[r, w)` is committed input that readers have not taken yet.  `[w, e)` is the
line being edited.  `consoleintr` runs for each typed character under
`cons.lock`.  It edits the line, and it commits the line on a newline, a `^D`
or a full buffer.  `consoleread` takes committed bytes under the same lock and
sleeps on `&cons.r` while there are none.

The line discipline is stated over lists as `Line`: the bytes committed so far,
how many readers have taken, and the line being edited.  `Line.intr` is what a
typed character does to it.  `ConsSys.line` reads a `Line` off the ring, and
`line_intr` says that `consoleintr` on the ring is `Line.intr` on that
`Line`.  This is the refinement: the ring and its counters implement the list
editor, across any wrap of the counters.

The system is any number of processes making `consoleread` calls and being
killed, with interrupts in between.  It is laid out as `PipeSys` is:

* `ConsSys.step` is an atomic stretch of `consoleread` between `acquire`,
  `killed()` and `sleep()`, a whole `consoleintr`, or a whole `kill`.
* `ConsSys.Inv` holds along every run (`console_runs`).
* `intr_keeps_unread` says that an interrupt leaves every byte in `[r, e)`
  in place.

A byte whose `copyout` fails has already been taken.  So readers get a part
of the committed bytes in order, not all of them (`consoleread_drops_byte`).
-/
import Xv6.Theory.Ring
import Xv6.Theory.Paths
import Xv6.Theory.Lock
import Xv6.Kernel.Vm

namespace Xv6

open Ring Paths

set_option autoImplicit false

/-! ## console.c -/

def INPUT_BUF_SIZE : Nat := 128

instance : NeZero INPUT_BUF_SIZE := ⟨by decide⟩

theorem INPUT_BUF_SIZE_dvd : INPUT_BUF_SIZE ∣ 2 ^ 32 := ⟨2 ^ 25, by decide⟩

/-- `C(x)`: control-`x`. -/
def C (x : Char) : UInt8 := x.toUInt8 - '@'.toUInt8

/-- The input half of `cons`, without its lock. -/
structure Cons where
  buf : Fin INPUT_BUF_SIZE → UInt8
  /-- read index -/
  r : UInt32
  /-- write index -/
  w : UInt32
  /-- edit index -/
  e : UInt32

/-- `cons` as the kernel starts: the indices are zero. -/
def Cons.init (buf : Fin INPUT_BUF_SIZE → UInt8) : Cons := { buf, r := 0, w := 0, e := 0 }

/-- `^U`'s loop, `while(cons.e != cons.w && cons.buf[(cons.e-1) % INPUT_BUF_SIZE] != '\n') cons.e--`,
run from `e` for at most `k` turns.  Each turn takes `e` one closer to `w`, so
`(e - w).toNat` turns are all the loop can make. -/
def killLine (buf : Fin INPUT_BUF_SIZE → UInt8) (w : UInt32) : Nat → UInt32 → UInt32
  | 0, e => e
  | k + 1, e => if e ≠ w ∧ buf (slot (e - 1)) ≠ '\n'.toUInt8 then killLine buf w k (e - 1) else e

/-- `consoleintr(c)`, all of it under `cons.lock`, and whether it called
`wakeup(&cons.r)`.  `uartintr` passes each received byte.  The echo and
`procdump` only print. -/
def consoleintr (cons : Cons) (c : UInt8) : Cons × Bool :=
  if c = C 'P' then (cons, false)
  else if c = C 'U' then ({ cons with e := killLine cons.buf cons.w (cons.e - cons.w).toNat cons.e }, false)
  else if c = C 'H' ∨ c = '\x7f'.toUInt8 then (if cons.e ≠ cons.w then { cons with e := cons.e - 1 } else cons, false)
  else if c ≠ 0 ∧ (cons.e - cons.r).toNat < INPUT_BUF_SIZE then
    let c := if c = '\r'.toUInt8 then '\n'.toUInt8 else c
    let stored := { cons with buf := Function.update cons.buf (slot cons.e) c, e := cons.e + 1 }
    if c = '\n'.toUInt8 ∨ c = C 'D' ∨ (stored.e - stored.r).toNat = INPUT_BUF_SIZE then
      ({ stored with w := stored.e }, true)
    else (stored, false)
  else (cons, false)

/-! ## The line discipline over lists -/

/-- The console's input as a line editor sees it: the bytes committed to
readers so far, how many of them readers have taken, and the line being
edited. -/
structure Line where
  committed : List UInt8
  consumed : Nat
  tail : List UInt8

namespace Line

/-- Bytes held for readers: committed and not taken, and the line being edited. -/
def unread (l : Line) : Nat := l.committed.length - l.consumed + l.tail.length

/-- A typed character: `^P` does nothing; `^U` erases the line being edited
and backspace or delete its last byte.  Any other byte but NUL joins the
line while fewer than `INPUT_BUF_SIZE` bytes are held, `'\r'` as `'\n'`.  A
newline, a `^D` or a full buffer commits the line. -/
def intr (c : UInt8) (l : Line) : Line :=
  if c = C 'P' then l
  else if c = C 'U' then { l with tail := [] }
  else if c = C 'H' ∨ c = '\x7f'.toUInt8 then { l with tail := l.tail.dropLast }
  else if c ≠ 0 ∧ l.unread < INPUT_BUF_SIZE then
    let c := if c = '\r'.toUInt8 then '\n'.toUInt8 else c
    if c = '\n'.toUInt8 ∨ c = C 'D' ∨ l.unread + 1 = INPUT_BUF_SIZE then
      { l with committed := l.committed ++ l.tail ++ [c], tail := [] }
    else { l with tail := l.tail ++ [c] }
  else l

/-- The line being edited holds no line end: a newline or a `^D` commits it. -/
def Open (l : Line) : Prop := ∀ b ∈ l.tail, b ≠ '\n'.toUInt8 ∧ b ≠ C 'D'

/-- The lines the discipline reaches from no input, by typed characters and
by readers taking the next committed byte. -/
inductive Reach : Line → Prop
  | start : Reach ⟨[], 0, []⟩
  | intr {l : Line} (c : UInt8) : Reach l → Reach (l.intr c)
  | take {l : Line} : Reach l → l.consumed < l.committed.length → Reach { l with consumed := l.consumed + 1 }

variable (c : UInt8) (l : Line)

@[simp] theorem consumed_intr : (l.intr c).consumed = l.consumed := by
  unfold intr
  dsimp only
  split_ifs <;> rfl

theorem Open.intr {l : Line} (editing : l.Open) : (l.intr c).Open := by
  unfold Line.intr
  dsimp only
  generalize (if c = '\r'.toUInt8 then '\n'.toUInt8 else c) = c'
  split_ifs with _ _ _ _ ends
  · exact editing
  · exact fun _ none_ => absurd none_ List.not_mem_nil
  · exact fun b mem => editing b (List.mem_of_mem_dropLast mem)
  · exact fun _ none_ => absurd none_ List.not_mem_nil
  · -- a byte that ends no line joins it
    intro b mem
    rcases List.mem_append.mp mem with old | new
    · exact editing b old
    · rw [List.mem_singleton.mp new]
      exact ⟨fun same => ends (.inl same), fun same => ends (.inr (.inl same))⟩
  · exact editing

end Line

theorem killLine_of_open (buf : Fin INPUT_BUF_SIZE → UInt8) (w : UInt32) :
    ∀ (k : Nat) (e : UInt32), (e - w).toNat = k → (∀ b ∈ window buf w e, b ≠ '\n'.toUInt8) →
      killLine buf w k e = w
  | 0, e, dist, _ => by rw [killLine, ← toNat_sub_eq_zero.mp dist]
  | k + 1, e, dist, editing => by
      have apart : e ≠ w := fun same => by rw [same, UInt32.sub_self] at dist; cases dist
      -- the last byte of the line is not a newline, so the loop takes it
      rw [window_popBack INPUT_BUF_SIZE_dvd _ apart] at editing
      have last := editing _ (List.mem_append_right _ (List.mem_singleton_self _))
      rw [killLine, if_pos ⟨apart, last⟩]
      exact killLine_of_open buf w k (e - 1) (by rw [toNat_pred_sub apart, dist]; rfl)
        fun b mem => editing b (List.mem_append_left _ mem)

/-! ## The ring implements the line discipline -/

namespace Cons

variable {cons : Cons}

/-- The line discipline's view of `cons`, where readers have taken `taken`. -/
def line (cons : Cons) (taken : List UInt8) : Line :=
  { committed := taken ++ window cons.buf cons.r cons.w, consumed := taken.length,
    tail := window cons.buf cons.w cons.e }

/-- `r ≤ w ≤ e ≤ r + INPUT_BUF_SIZE` across any wrap of the indices, and the
line being edited holds no line end. -/
structure Valid (cons : Cons) : Prop where
  committed : (cons.w - cons.r).toNat ≤ (cons.e - cons.r).toNat
  bound : (cons.e - cons.r).toNat ≤ INPUT_BUF_SIZE
  editing : ∀ b ∈ window cons.buf cons.w cons.e, b ≠ '\n'.toUInt8 ∧ b ≠ C 'D'

theorem Valid.open_ (valid : cons.Valid) (taken : List UInt8) : (cons.line taken).Open := valid.editing

/-- The bytes held are the distance from `r` to `e`. -/
theorem Valid.unread (valid : cons.Valid) (taken : List UInt8) :
    (cons.line taken).unread = (cons.e - cons.r).toNat := by
  have rest := toNat_sub_add_toNat_sub valid.committed
  have committed := valid.committed
  simp only [Line.unread, line, List.length_append, length_window, Nat.add_sub_cancel_left]
  omega

/-- `cons'` is `cons` after the character `c`: still valid, seen as
`Line.intr c` of what `cons` was, with `r` and the bytes of `[r, e)` where they
were. -/
structure Edited (cons cons' : Cons) (c : UInt8) : Prop where
  valid : cons'.Valid
  line : ∀ taken, cons'.line taken = (cons.line taken).intr c
  read : cons'.r = cons.r
  kept : window cons'.buf cons.r cons.e = window cons.buf cons.r cons.e

/-- A character that changes nothing. -/
theorem Valid.edited_self (valid : cons.Valid) {c : UInt8} (same : ∀ taken, (cons.line taken).intr c = cons.line taken) :
    Edited cons cons c :=
  ⟨valid, fun taken => (same taken).symm, rfl, rfl⟩

/-- `^U`: the loop backs `e` up to `w`. -/
theorem Valid.edited_kill (valid : cons.Valid) {c : UInt8}
    (erased : ∀ taken, (cons.line taken).intr c = { cons.line taken with tail := [] }) :
    Edited cons { cons with e := killLine cons.buf cons.w (cons.e - cons.w).toNat cons.e } c := by
  rw [killLine_of_open cons.buf cons.w _ cons.e rfl fun b mem => (valid.editing b mem).1]
  refine ⟨⟨Nat.le_refl _, valid.committed.trans valid.bound, by simp⟩, fun taken => ?_, rfl, rfl⟩
  rw [erased]
  simp [line]

/-- Backspace and delete: `e` backs up by one inside the line being edited. -/
theorem Valid.edited_erase (valid : cons.Valid) {c : UInt8}
    (erased : ∀ taken, (cons.line taken).intr c = { cons.line taken with tail := (cons.line taken).tail.dropLast }) :
    Edited cons (if cons.e ≠ cons.w then { cons with e := cons.e - 1 } else cons) c := by
  split
  · rename_i apart
    have rest := toNat_sub_add_toNat_sub valid.committed
    have nonempty : (cons.e - cons.w).toNat ≠ 0 := fun zero => apart (toNat_sub_eq_zero.mp zero)
    -- `e` is past `w`, so past `r`
    have past : cons.e ≠ cons.r := fun same => nonempty (by rw [rest, same, UInt32.sub_self]; simp)
    have shorter := toNat_pred_sub (r := cons.r) past
    have popped := window_popBack INPUT_BUF_SIZE_dvd cons.buf apart
    refine ⟨⟨?_, ?_, fun b mem => valid.editing b ?_⟩, fun taken => ?_, rfl, rfl⟩
    · show (cons.w - cons.r).toNat ≤ (cons.e - 1 - cons.r).toNat
      omega
    · show (cons.e - 1 - cons.r).toNat ≤ INPUT_BUF_SIZE
      have := valid.bound
      omega
    · rw [popped]
      exact List.mem_append_left _ mem
    · rw [erased]
      simp [line, popped]
  · rename_i same
    rw [not_not] at same
    refine valid.edited_self fun taken => ?_
    rw [erased]
    simp [line, same]

/-- A byte stored at `e` leaves `[r, e)` alone and joins the line being edited. -/
theorem Valid.store (valid : cons.Valid) (room : (cons.e - cons.r).toNat < INPUT_BUF_SIZE) (x : UInt8) :
    window (Function.update cons.buf (slot cons.e) x) cons.r cons.w = window cons.buf cons.r cons.w ∧
      window (Function.update cons.buf (slot cons.e) x) cons.w (cons.e + 1) = window cons.buf cons.w cons.e ++ [x] ∧
      window (Function.update cons.buf (slot cons.e) x) cons.r cons.e = window cons.buf cons.r cons.e ∧
      (cons.e + 1 - cons.r).toNat = (cons.e - cons.r).toNat + 1 := by
  have rest := toNat_sub_add_toNat_sub valid.committed
  refine ⟨window_update_of_le INPUT_BUF_SIZE_dvd _ valid.committed room x,
    window_push INPUT_BUF_SIZE_dvd (by decide) _ (by omega) x,
    window_update_of_le INPUT_BUF_SIZE_dvd _ (Nat.le_refl _) room x, toNat_succ_sub ?_⟩
  simp only [INPUT_BUF_SIZE] at room
  omega

/-- Any other byte but NUL, when the buffer has room: stored at `e`, and the
line committed when it ends or fills the buffer. -/
theorem Valid.edited_store (valid : cons.Valid) (room : (cons.e - cons.r).toNat < INPUT_BUF_SIZE) {c x : UInt8}
    (stored : ∀ taken, (cons.line taken).intr c =
      if x = '\n'.toUInt8 ∨ x = C 'D' ∨ (cons.line taken).unread + 1 = INPUT_BUF_SIZE then
        { cons.line taken with committed := (cons.line taken).committed ++ (cons.line taken).tail ++ [x], tail := [] }
      else { cons.line taken with tail := (cons.line taken).tail ++ [x] }) :
    Edited cons
      (let stored := { cons with buf := Function.update cons.buf (slot cons.e) x, e := cons.e + 1 }
        if x = '\n'.toUInt8 ∨ x = C 'D' ∨ (stored.e - stored.r).toNat = INPUT_BUF_SIZE then { stored with w := stored.e }
        else stored) c := by
  obtain ⟨ready, tail, kept, grows⟩ := valid.store room x
  have held := valid.unread
  have committed := valid.committed
  dsimp only
  rw [grows]
  split
  · -- the line is committed: `w` moves up to `e`
    rename_i ends
    have whole : window (Function.update cons.buf (slot cons.e) x) cons.r (cons.e + 1) =
        window cons.buf cons.r cons.w ++ window cons.buf cons.w cons.e ++ [x] := by
      rw [window_split INPUT_BUF_SIZE_dvd _ (w := cons.w) (by omega), ready, tail, List.append_assoc]
    refine ⟨⟨Nat.le_refl _, by dsimp only; omega, by simp⟩, fun taken => ?_, rfl, kept⟩
    rw [stored, if_pos (by rw [held]; exact ends)]
    simp [line, whole]
  · -- the byte joins the line
    rename_i open_
    refine ⟨⟨by dsimp only; omega, by dsimp only; omega, fun b mem => ?_⟩, fun taken => ?_, rfl, kept⟩
    · rw [tail] at mem
      rcases List.mem_append.mp mem with old | new
      · exact valid.editing b old
      · rw [List.mem_singleton.mp new]
        exact ⟨fun same => open_ (.inl same), fun same => open_ (.inr (.inl same))⟩
    · rw [stored, if_neg (by rw [held]; exact open_)]
      simp [line, ready, tail]

/-- `consoleintr` edits a valid `cons` as `Line.intr` says. -/
theorem Valid.consoleintr (valid : cons.Valid) (c : UInt8) : Edited cons (consoleintr cons c).1 c := by
  unfold Xv6.consoleintr
  by_cases isP : c = C 'P'
  · rw [if_pos isP]
    exact valid.edited_self fun taken => by rw [Line.intr, if_pos isP]
  rw [if_neg isP]
  by_cases isU : c = C 'U'
  · rw [if_pos isU]
    exact valid.edited_kill fun taken => by rw [Line.intr, if_neg isP, if_pos isU]
  rw [if_neg isU]
  by_cases erase : c = C 'H' ∨ c = '\x7f'.toUInt8
  · rw [if_pos erase]
    exact valid.edited_erase fun taken => by rw [Line.intr, if_neg isP, if_neg isU, if_pos erase]
  rw [if_neg erase]
  by_cases room : c ≠ 0 ∧ (cons.e - cons.r).toNat < INPUT_BUF_SIZE
  · rw [if_pos room]
    dsimp only
    rw [apply_ite Prod.fst]
    refine valid.edited_store room.2 fun taken => ?_
    rw [Line.intr, if_neg isP, if_neg isU, if_neg erase, if_pos (by rw [valid.unread]; exact room)]
  · rw [if_neg room]
    exact valid.edited_self fun taken => by
      rw [Line.intr, if_neg isP, if_neg isU, if_neg erase, if_neg (by rw [valid.unread]; exact room)]

end Cons

/-! ## Processes reading the console -/

/-- Where a process is in `consoleread`.  `n` is what is left of the
`int n` argument and `target` the argument itself: the code's `uint target`
meets `n` only while `0 < n ≤ target`, where unsigned and signed arithmetic
agree. -/
inductive ConsPc
  | idle
  /-- at `while(n > 0)` -/
  | read (userDst : Bool) (dst : Nat) (n target : Int)
  /-- at `while(cons.r == cons.w)` -/
  | readWait (userDst : Bool) (dst : Nat) (n target : Int)
  /-- at `killed(myproc())` on an empty buffer -/
  | readKilled (userDst : Bool) (dst : Nat) (n target : Int)
  /-- at `sleep(&cons.r, &cons.lock)` -/
  | readSleep (userDst : Bool) (dst : Nat) (n target : Int)
  /-- inside `sleep`, without `cons.lock` -/
  | readAsleep (userDst : Bool) (dst : Nat) (n target : Int)
  | readDone (r : Int)
  deriving DecidableEq, Repr

namespace ConsPc

/-- The points where the process holds `cons.lock`. -/
def locked : ConsPc → Bool
  | .read .. | .readWait .. | .readKilled .. | .readSleep .. => true
  | _ => false

/-- The points outside console code. -/
def outside : ConsPc → Bool
  | .idle | .readDone _ => true
  | _ => false

/-- What the bytes the current call copied out are at its point in the code:
`target - n` of them while it runs, and what it returned when it has.  None is
a `^D`, and only the last may be a newline. -/
def Counts : ConsPc → List UInt8 → Prop
  | .idle, _ => True
  | .read _ _ n target, got | .readWait _ _ n target, got | .readKilled _ _ n target, got
  | .readSleep _ _ n target, got | .readAsleep _ _ n target, got =>
      (got.length : Int) = target - n ∧ '\n'.toUInt8 ∉ got ∧ C 'D' ∉ got
  | .readDone r, got => (r = -1 ∨ r = got.length) ∧ '\n'.toUInt8 ∉ got.dropLast ∧ C 'D' ∉ got

end ConsPc

/-- Processes reading the console, and the console. -/
structure ConsSys (P : Type) where
  cons : Cons
  /-- the holder of `cons.lock` -/
  lock : Option P
  pc : P → ConsPc
  /-- `SLEEPING` on `&cons.r` -/
  asleep : P → Bool
  killed : P → Bool
  mem : P → Mem
  /-- the bytes `cons.r++` took, less those `cons.r--` gave back -/
  taken : List UInt8
  /-- the bytes copied out to readers -/
  delivered : List UInt8
  /-- the bytes the current call of each process copied out -/
  got : P → List UInt8

/-- What happens next: a process's call or step, a typed character, or a kill. -/
inductive ConsAct (P : Type)
  | read (userDst : Bool) (dst : Nat) (n : Int)
  | intr (c : UInt8)
  | kill (target : P)
  | next

namespace ConsSys

variable {P : Type} [DecidableEq P]

/-- No process in console code. -/
def start (cons : Cons) (killed : P → Bool) (mem : P → Mem) : ConsSys P :=
  { cons, lock := none, pc := fun _ => .idle, asleep := fun _ => false, killed, mem,
    taken := [], delivered := [], got := fun _ => [] }

/-- The line discipline's view of the console. -/
def line (s : ConsSys P) : Line := s.cons.line s.taken

section Segments

variable (s : ConsSys P) (p : P)

def goto (pc : ConsPc) : ConsSys P := { s with pc := Function.update s.pc p pc }

/-- `wakeup(&cons.r)`. -/
def wakeup : ConsSys P := { s with asleep := fun _ => false }

def release : ConsSys P := { s with lock := none }

/-- `sleep(&cons.r, &cons.lock)`. -/
def sleep (pc : ConsPc) : ConsSys P :=
  ({ s with lock := none, asleep := Function.update s.asleep p true } : ConsSys P).goto p pc

/-- A process woken from `sleep` runs again once it has `cons.lock` back. -/
def wake (pc : ConsPc) : Option (ConsSys P) :=
  if s.asleep p = false ∧ s.lock = none then some (({ s with lock := some p } : ConsSys P).goto p pc) else none

/-- `consoleintr(c)`, once the interrupt has `cons.lock`. -/
def intr (c : UInt8) : ConsSys P :=
  let (cons, woke) := consoleintr s.cons c
  if woke then ({ s with cons } : ConsSys P).wakeup else { s with cons }

/-- `cons.buf[cons.r++ % INPUT_BUF_SIZE]`. -/
def take : ConsSys P :=
  { s with cons := { s.cons with r := s.cons.r + 1 }, taken := s.taken ++ [s.cons.buf (slot s.cons.r)] }

/-- `cons.r--`: a `^D` saved for the next read. -/
def putBack : ConsSys P := { s with cons := { s.cons with r := s.cons.r - 1 }, taken := s.taken.dropLast }

/-- `either_copyout` of the byte `c` to `dst`: handed to the reader when the
copy succeeds. -/
def deliver (userDst : Bool) (dst : Nat) (c : UInt8) : ConsSys P × Bool :=
  let (m, ok) := eitherCopyout (s.mem p) userDst dst [c]
  ({ s with
      mem := Function.update s.mem p m
      delivered := if ok then s.delivered ++ [c] else s.delivered
      got := if ok then Function.update s.got p (s.got p ++ [c]) else s.got }, ok)

/-- `release(&cons.lock); return r;` -/
def finish (r : Int) : ConsSys P := (s.release).goto p (.readDone r)

/-- The loop body from `c = cons.buf[cons.r++ % INPUT_BUF_SIZE]` on.  The byte
is taken before the `copyout` that may fail. -/
def readByte (userDst : Bool) (dst : Nat) (n target : Int) : ConsSys P :=
  let c := s.cons.buf (slot s.cons.r)
  if c = C 'D' then
    -- end of file: a read that has bytes leaves the `^D` for the next one
    (if n < target then s.take.putBack else s.take).finish p (target - n)
  else
    let (s', ok) := s.take.deliver p userDst dst c
    if !ok then s'.finish p (target - n)
    else if c = '\n'.toUInt8 then s'.finish p (target - (n - 1))
    else s'.goto p (.read userDst (dst + 1) (n - 1) target)

/-- `consoleread` at `while(cons.r == cons.w)`. -/
def readWait (userDst : Bool) (dst : Nat) (n target : Int) : ConsSys P :=
  if s.cons.r = s.cons.w then s.goto p (.readKilled userDst dst n target)
  else s.readByte p userDst dst n target

/-- `consoleread` at `while(n > 0)`. -/
def readLoop (userDst : Bool) (dst : Nat) (n target : Int) : ConsSys P :=
  if 0 < n then s.readWait p userDst dst n target else s.finish p (target - n)

/-- `consoleread` at `killed(myproc())`. -/
def readKilled (userDst : Bool) (dst : Nat) (n target : Int) : ConsSys P :=
  if s.killed p then s.finish p (-1) else s.goto p (.readSleep userDst dst n target)

/-- `kill`: set the target's flag and wake it if it sleeps. -/
def kill (q : P) : ConsSys P :=
  { s with killed := Function.update s.killed q true, asleep := Function.update s.asleep q false }

/-- `target = n; acquire(&cons.lock);` -/
def enter (userDst : Bool) (dst : Nat) (n : Int) : ConsSys P :=
  ({ s with lock := some p, got := Function.update s.got p [] } : ConsSys P).goto p (.read userDst dst n n)

end Segments

/-- One step.  A read starts outside console code once `cons.lock` is free,
an interrupt runs once it is free, and `kill` is made from outside console
code. -/
def step : P × ConsAct P → ConsSys P → Option (ConsSys P)
  | (p, .read userDst dst n), s =>
      if (s.pc p).outside ∧ s.lock = none then some (s.enter p userDst dst n) else none
  | (_, .intr c), s => if s.lock = none then some (s.intr c) else none
  | (p, .kill q), s => if (s.pc p).outside then some (s.kill q) else none
  | (p, .next), s =>
      match s.pc p with
      | .read userDst dst n target => some (s.readLoop p userDst dst n target)
      | .readWait userDst dst n target => some (s.readWait p userDst dst n target)
      | .readKilled userDst dst n target => some (s.readKilled p userDst dst n target)
      | .readSleep userDst dst n target => some (s.sleep p (.readAsleep userDst dst n target))
      | .readAsleep userDst dst n target => s.wake p (.readWait userDst dst n target)
      | .idle | .readDone _ => none

/-! ## The ring and what readers get -/

section Ring

set_option linter.unusedSectionVars false

/-- The console is valid, and readers were handed a part of the bytes taken,
in order. -/
structure RingInv (s : ConsSys P) : Prop where
  valid : s.cons.Valid
  delivered : s.delivered.Sublist s.taken

/-- What the ring invariant reads. -/
def ringView (s : ConsSys P) : Cons × List UInt8 × List UInt8 := (s.cons, s.taken, s.delivered)

variable {s s' : ConsSys P} (p : P)

theorem RingInv.of_view (inv : s.RingInv) (same : s'.ringView = s.ringView) : s'.RingInv := by
  simp only [ringView, Prod.mk.injEq] at same
  obtain ⟨cons, taken, delivered⟩ := same
  exact ⟨cons ▸ inv.valid, by rw [delivered, taken]; exact inv.delivered⟩

@[simp] theorem ringView_goto (pc : ConsPc) : (s.goto p pc).ringView = s.ringView := rfl
@[simp] theorem ringView_wakeup : s.wakeup.ringView = s.ringView := rfl
@[simp] theorem ringView_release : s.release.ringView = s.ringView := rfl
@[simp] theorem ringView_sleep (pc : ConsPc) : (s.sleep p pc).ringView = s.ringView := rfl
@[simp] theorem ringView_finish (r : Int) : (s.finish p r).ringView = s.ringView := rfl
@[simp] theorem ringView_enter (userDst : Bool) (dst : Nat) (n : Int) :
    (s.enter p userDst dst n).ringView = s.ringView := rfl
@[simp] theorem ringView_kill (q : P) : (s.kill q).ringView = s.ringView := rfl

@[simp] theorem cons_intr (c : UInt8) : (s.intr c).cons = (consoleintr s.cons c).1 := by
  unfold intr
  split
  next edited => split <;> simp [wakeup, edited]

@[simp] theorem taken_intr (c : UInt8) : (s.intr c).taken = s.taken := by
  unfold intr
  split
  split <;> rfl

@[simp] theorem delivered_intr (c : UInt8) : (s.intr c).delivered = s.delivered := by
  unfold intr
  split
  split <;> rfl

/-- An interrupt edits the line as `Line.intr` says. -/
theorem RingInv.line_intr (inv : s.RingInv) (c : UInt8) : (s.intr c).line = s.line.intr c := by
  rw [line, cons_intr, taken_intr]
  exact (inv.valid.consoleintr c).line s.taken

theorem RingInv.intr (inv : s.RingInv) (c : UInt8) : (s.intr c).RingInv :=
  ⟨by rw [cons_intr]; exact (inv.valid.consoleintr c).valid, by rw [delivered_intr, taken_intr]; exact inv.delivered⟩

/-- Putting a `^D` back undoes taking it. -/
@[simp] theorem take_putBack (s : ConsSys P) : s.take.putBack = s := by
  simp [take, putBack]

/-- Taking a committed byte: it is the next one readers have not taken. -/
theorem line_take (nonempty : s.cons.r ≠ s.cons.w) :
    s.take.line = { s.line with consumed := s.line.consumed + 1 } ∧
      s.line.committed[s.line.consumed]? = some (s.cons.buf (slot s.cons.r)) := by
  have popped := window_pop INPUT_BUF_SIZE_dvd s.cons.buf (Ne.symm nonempty)
  refine ⟨?_, ?_⟩
  · simp [line, Cons.line, take, popped]
  · simp [line, Cons.line, popped]

theorem RingInv.take (inv : s.RingInv) (nonempty : s.cons.r ≠ s.cons.w) : s.take.RingInv := by
  have committed := inv.valid.committed
  have bound := inv.valid.bound
  have rest := toNat_sub_add_toNat_sub committed
  have ahead : (s.cons.w - s.cons.r).toNat ≠ 0 := fun zero => nonempty (toNat_sub_eq_zero.mp zero).symm
  -- `e` is at or past `w`, so past `r`
  have past : s.cons.e ≠ s.cons.r := fun same => ahead (by
    rw [same, UInt32.sub_self] at committed
    simpa using committed)
  have fewer := toNat_sub_succ (Ne.symm nonempty)
  have fewerHeld := toNat_sub_succ past
  refine ⟨⟨?_, ?_, inv.valid.editing⟩, inv.delivered.trans (List.sublist_append_left _ _)⟩
  · show (s.cons.w - (s.cons.r + 1)).toNat ≤ (s.cons.e - (s.cons.r + 1)).toNat
    omega
  · show (s.cons.e - (s.cons.r + 1)).toNat ≤ INPUT_BUF_SIZE
    omega

theorem delivered_deliver (userDst : Bool) (dst : Nat) (c : UInt8) :
    (s.deliver p userDst dst c).1.delivered =
      if (s.deliver p userDst dst c).2 then s.delivered ++ [c] else s.delivered := rfl

/-- The byte just taken, copied out or not. -/
theorem RingInv.takeDeliver (inv : s.RingInv) (nonempty : s.cons.r ≠ s.cons.w) (userDst : Bool) (dst : Nat) :
    (s.take.deliver p userDst dst (s.cons.buf (slot s.cons.r))).1.RingInv := by
  refine ⟨(inv.take nonempty).valid, ?_⟩
  rw [delivered_deliver]
  generalize (s.take.deliver p userDst dst _).2 = ok
  cases ok
  · exact inv.delivered.trans (List.sublist_append_left _ _)
  · exact inv.delivered.append_right _

end Ring

/-! ## The lock and what each call has copied out -/

section Calls

set_option linter.unusedSectionVars false

/-- The holder of `cons.lock` is the one process in locked code, and what
each process's call copied out is what its point in the code says. -/
structure CallInv (s : ConsSys P) : Prop where
  locked : Lock.Held ConsPc.locked s.lock s.pc
  counts : ∀ q, (s.pc q).Counts (s.got q)

variable {s s' : ConsSys P} (p : P)

/-- `p` alone moves: to `pc`, having copied out `got`, holding the lock exactly
in locked code. -/
theorem CallInv.move (inv : s.CallInv) {pc : ConsPc} {got : List UInt8}
    (alone : ∀ q, q ≠ p → (s.pc q).locked = false) (pcs : s'.pc = Function.update s.pc p pc)
    (gots : s'.got = Function.update s.got p got) (lock : s'.lock = if pc.locked then some p else none)
    (counts : pc.Counts got) : s'.CallInv := by
  refine ⟨by rw [pcs, lock]; exact Lock.Held.move p pc alone, ?_⟩
  rw [pcs, gots]
  exact Lock.fits_update inv.counts p counts

/-- `p` moves on without copying out a byte. -/
theorem CallInv.moveOn (inv : s.CallInv) {pc : ConsPc} (alone : ∀ q, q ≠ p → (s.pc q).locked = false)
    (pcs : s'.pc = Function.update s.pc p pc) (gots : s'.got = s.got)
    (lock : s'.lock = if pc.locked then some p else none) (counts : pc.Counts (s.got p)) : s'.CallInv :=
  inv.move p alone pcs (by rw [gots, Function.update_eq_self]) lock counts

/-- A step that changes no process's point, copies or the lock. -/
theorem CallInv.frame (inv : s.CallInv) (pcs : s'.pc = s.pc) (gots : s'.got = s.got) (lock : s'.lock = s.lock) :
    s'.CallInv :=
  ⟨fun q => by rw [pcs, lock]; exact inv.locked q, fun q => by rw [pcs, gots]; exact inv.counts q⟩

end Calls

/-! ## Every step keeps both -/

section Steps

set_option linter.unusedSectionVars false

/-- The invariant of the console system. -/
structure Inv (s : ConsSys P) : Prop where
  ring : s.RingInv
  calls : s.CallInv

variable {s : ConsSys P} (p : P) {userDst : Bool} {dst : Nat} {n target : Int}

@[simp] theorem pc_intr (c : UInt8) : (s.intr c).pc = s.pc := by
  unfold intr
  split
  split <;> rfl

@[simp] theorem got_intr (c : UInt8) : (s.intr c).got = s.got := by
  unfold intr
  split
  split <;> rfl

@[simp] theorem lock_intr (c : UInt8) : (s.intr c).lock = s.lock := by
  unfold intr
  split
  split <;> rfl

/-- The process in locked code holds the lock, and is alone there. -/
theorem Inv.holder (inv : s.Inv) (locked : (s.pc p).locked = true) :
    s.lock = some p ∧ ∀ q, q ≠ p → (s.pc q).locked = false :=
  have mine := (inv.calls.locked p).mpr locked
  ⟨mine, inv.calls.locked.alone (.inl mine)⟩

/-- What a running call has copied out, read off its point in the code. -/
theorem Inv.running (inv : s.Inv) {pc : ConsPc} (at_ : s.pc p = pc)
    (running : ∀ got, pc.Counts got → (got.length : Int) = target - n ∧ '\n'.toUInt8 ∉ got ∧ C 'D' ∉ got) :
    ((s.got p).length : Int) = target - n ∧ '\n'.toUInt8 ∉ s.got p ∧ C 'D' ∉ s.got p :=
  running _ (at_ ▸ inv.calls.counts p)

theorem Inv.enter (inv : s.Inv) (free : s.lock = none) : (s.enter p userDst dst n).Inv :=
  ⟨inv.ring.of_view (by simp), inv.calls.move p (inv.calls.locked.alone (.inr free)) rfl rfl rfl
    ⟨by simp, by simp, by simp⟩⟩

theorem Inv.intr (inv : s.Inv) (c : UInt8) : (s.intr c).Inv :=
  ⟨inv.ring.intr c, inv.calls.frame (pc_intr c) (got_intr c) (lock_intr c)⟩

/-- One byte of `consoleread`.  The byte is taken before its `copyout`, so a
failed copy ends the call without it. -/
theorem Inv.readByte (inv : s.Inv) (locked : (s.pc p).locked = true) (nonempty : s.cons.r ≠ s.cons.w)
    (counted : ((s.got p).length : Int) = target - n ∧ '\n'.toUInt8 ∉ s.got p ∧ C 'D' ∉ s.got p) :
    (s.readByte p userDst dst n target).Inv := by
  obtain ⟨_, alone⟩ := inv.holder p locked
  obtain ⟨length, noNewline, noEnd⟩ := counted
  have ended : (ConsPc.readDone (target - n)).Counts (s.got p) :=
    ⟨.inr length.symm, fun mem => noNewline (List.mem_of_mem_dropLast mem), noEnd⟩
  unfold ConsSys.readByte
  dsimp only
  by_cases isEnd : s.cons.buf (slot s.cons.r) = C 'D'
  · -- `^D`: the call ends, and leaves the `^D` for the next read when it has bytes
    rw [if_pos isEnd]
    by_cases more : n < target
    · rw [if_pos more, take_putBack]
      exact ⟨inv.ring.of_view (by simp), inv.calls.moveOn p alone rfl rfl rfl ended⟩
    · rw [if_neg more]
      exact ⟨(inv.ring.take nonempty).of_view (by simp), inv.calls.moveOn p alone rfl rfl rfl ended⟩
  · rw [if_neg isEnd]
    have ring := inv.ring.takeDeliver p nonempty userDst dst
    have pcs : (s.take.deliver p userDst dst (s.cons.buf (slot s.cons.r))).1.pc = s.pc := rfl
    have lock : (s.take.deliver p userDst dst (s.cons.buf (slot s.cons.r))).1.lock = s.lock := rfl
    have gots : (s.take.deliver p userDst dst (s.cons.buf (slot s.cons.r))).1.got =
        if (s.take.deliver p userDst dst (s.cons.buf (slot s.cons.r))).2 then
          Function.update s.got p (s.got p ++ [s.cons.buf (slot s.cons.r)])
        else s.got := rfl
    generalize s.take.deliver p userDst dst (s.cons.buf (slot s.cons.r)) = d at ring pcs lock gots
    obtain ⟨s', ok⟩ := d
    dsimp only at ring pcs lock gots ⊢
    cases ok
    · -- the `copyout` failed: the call ends without the byte
      rw [if_neg Bool.false_ne_true] at gots
      exact ⟨ring.of_view (by simp), inv.calls.moveOn p alone (by rw [← pcs]; rfl) gots rfl ended⟩
    · rw [if_pos rfl] at gots
      have grown : ((s.got p ++ [s.cons.buf (slot s.cons.r)]).length : Int) = target - (n - 1) := by
        simp only [List.length_append, List.length_singleton, Nat.cast_add, Nat.cast_one, length]
        omega
      have noEnd' : C 'D' ∉ s.got p ++ [s.cons.buf (slot s.cons.r)] := by
        simp only [List.mem_append, List.mem_singleton, not_or]
        exact ⟨noEnd, fun same => isEnd same.symm⟩
      simp only [Bool.not_true, Bool.false_eq_true, if_false]
      split
      · -- a newline ends the call, with the newline as its last byte
        exact ⟨ring.of_view (by simp), inv.calls.move p alone (by rw [← pcs]; rfl) gots rfl
          (show (ConsPc.readDone (target - (n - 1))).Counts _ from ⟨.inr grown.symm, by simpa using noNewline, noEnd'⟩)⟩
      · rename_i notNewline
        have noNewline' : '\n'.toUInt8 ∉ s.got p ++ [s.cons.buf (slot s.cons.r)] := by
          simp only [List.mem_append, List.mem_singleton, not_or]
          exact ⟨noNewline, fun same => notNewline same.symm⟩
        exact ⟨ring.of_view (by simp), inv.calls.move p alone (by rw [← pcs]; rfl) gots
          (by simpa [goto, ConsPc.locked] using lock.trans (inv.holder p locked).1)
          (show (ConsPc.read userDst (dst + 1) (n - 1) target).Counts _ from ⟨grown, noNewline', noEnd'⟩)⟩

/-- `consoleread` at `while(cons.r == cons.w)`. -/
theorem Inv.readWait (inv : s.Inv) (locked : (s.pc p).locked = true)
    (counted : ((s.got p).length : Int) = target - n ∧ '\n'.toUInt8 ∉ s.got p ∧ C 'D' ∉ s.got p) :
    (s.readWait p userDst dst n target).Inv := by
  obtain ⟨mine, alone⟩ := inv.holder p locked
  unfold ConsSys.readWait
  split
  · exact ⟨inv.ring.of_view (by simp), inv.calls.moveOn p alone rfl rfl (by simp [goto, mine, ConsPc.locked]) counted⟩
  · rename_i nonempty
    exact inv.readByte p locked nonempty counted

theorem Inv.readLoop (inv : s.Inv) (at_ : s.pc p = .read userDst dst n target) :
    (s.readLoop p userDst dst n target).Inv := by
  have counted := inv.running p at_ fun _ counts => counts
  unfold ConsSys.readLoop
  split
  · exact inv.readWait p (by rw [at_]; rfl) counted
  · obtain ⟨length, noNewline, noEnd⟩ := counted
    exact ⟨inv.ring.of_view (by simp), inv.calls.moveOn p (inv.holder p (by rw [at_]; rfl)).2 rfl rfl rfl
      ⟨.inr length.symm, fun mem => noNewline (List.mem_of_mem_dropLast mem), noEnd⟩⟩

theorem Inv.readKilled (inv : s.Inv) (at_ : s.pc p = .readKilled userDst dst n target) :
    (s.readKilled p userDst dst n target).Inv := by
  obtain ⟨mine, alone⟩ := inv.holder p (by rw [at_]; rfl)
  have counted := inv.running p at_ fun _ counts => counts
  unfold ConsSys.readKilled
  split
  · -- killed: -1
    exact ⟨inv.ring.of_view (by simp), inv.calls.moveOn p alone rfl rfl rfl
      ⟨.inl rfl, fun mem => counted.2.1 (List.mem_of_mem_dropLast mem), counted.2.2⟩⟩
  · exact ⟨inv.ring.of_view (by simp), inv.calls.moveOn p alone rfl rfl (by simp [goto, mine, ConsPc.locked]) counted⟩

theorem Inv.sleep (inv : s.Inv) (at_ : s.pc p = .readSleep userDst dst n target) :
    (s.sleep p (.readAsleep userDst dst n target)).Inv :=
  ⟨inv.ring.of_view (by simp), inv.calls.moveOn p (inv.holder p (by rw [at_]; rfl)).2 rfl rfl rfl
    (inv.running p at_ fun _ counts => counts)⟩

theorem Inv.wake (inv : s.Inv) (at_ : s.pc p = .readAsleep userDst dst n target) {s' : ConsSys P}
    (woke : s.wake p (.readWait userDst dst n target) = some s') : s'.Inv := by
  unfold ConsSys.wake at woke
  split at woke
  · rename_i free
    cases woke
    exact ⟨inv.ring.of_view rfl, inv.calls.moveOn p (inv.calls.locked.alone (.inr free.2)) rfl rfl rfl
      (inv.running p at_ fun _ counts => counts)⟩
  · cases woke

/-- Every step keeps the invariant. -/
theorem Inv.step (inv : s.Inv) {e : P × ConsAct P} {s' : ConsSys P} (stepped : step e s = some s') : s'.Inv := by
  obtain ⟨p, act⟩ := e
  cases act with
  | read userDst dst n =>
      simp only [ConsSys.step] at stepped
      split at stepped
      · rename_i free
        cases stepped
        exact inv.enter p free.2
      · cases stepped
  | intr c =>
      simp only [ConsSys.step] at stepped
      split at stepped
      · cases stepped
        exact inv.intr c
      · cases stepped
  | kill q =>
      simp only [ConsSys.step] at stepped
      split at stepped
      · cases stepped
        exact ⟨inv.ring.of_view (by simp), inv.calls.frame rfl rfl rfl⟩
      · cases stepped
  | next =>
      -- one case per point of the code
      cases at_ : s.pc p with
      | idle | readDone _ => simp [ConsSys.step, at_] at stepped
      | read userDst dst n target =>
          simp only [ConsSys.step, at_, Option.some.injEq] at stepped
          exact stepped ▸ inv.readLoop p at_
      | readWait userDst dst n target =>
          simp only [ConsSys.step, at_, Option.some.injEq] at stepped
          exact stepped ▸ inv.readWait p (by rw [at_]; rfl) (inv.running p at_ fun _ counts => counts)
      | readKilled userDst dst n target =>
          simp only [ConsSys.step, at_, Option.some.injEq] at stepped
          exact stepped ▸ inv.readKilled p at_
      | readSleep userDst dst n target =>
          simp only [ConsSys.step, at_, Option.some.injEq] at stepped
          exact stepped ▸ inv.sleep p at_
      | readAsleep userDst dst n target =>
          simp only [ConsSys.step, at_] at stepped
          exact inv.wake p at_ stepped

end Steps

/-! ## Every run -/

section Runs

set_option linter.unusedSectionVars false

variable {s : ConsSys P} (p : P)

theorem line_of_view {s' : ConsSys P} (same : s'.ringView = s.ringView) : s'.line = s.line := by
  simp only [ringView, Prod.mk.injEq] at same
  rw [line, line, same.1, same.2.1]

/-- Taking a committed byte is a take of the line discipline. -/
theorem take_line (nonempty : s.cons.r ≠ s.cons.w) :
    s.take.line = { s.line with consumed := s.line.consumed + 1 } ∧ s.line.consumed < s.line.committed.length := by
  obtain ⟨taken, next⟩ := line_take nonempty
  exact ⟨taken, (List.getElem?_eq_some_iff.mp next).1⟩

theorem line_readByte {userDst : Bool} {dst : Nat} {n target : Int} :
    (s.readByte p userDst dst n target).line = s.line ∨ (s.readByte p userDst dst n target).line = s.take.line := by
  unfold ConsSys.readByte
  dsimp only
  split
  · split
    · exact .inl (by rw [take_putBack]; exact line_of_view (by simp))
    · exact .inr (line_of_view (by simp))
  · -- the copy changes neither the console nor what was taken
    have same : (s.take.deliver p userDst dst (s.cons.buf (slot s.cons.r))).1.line = s.take.line := rfl
    generalize s.take.deliver p userDst dst (s.cons.buf (slot s.cons.r)) = d at same
    obtain ⟨s', ok⟩ := d
    dsimp only at same ⊢
    refine .inr ?_
    split
    · rw [← same]; exact line_of_view (by simp)
    · split
      · rw [← same]; exact line_of_view (by simp)
      · rw [← same]; exact line_of_view (by simp)

/-- Each step is a step of the line discipline: a typed character is
`Line.intr`, a byte taken is the next committed one, and every other step
leaves the line alone. -/
theorem Inv.line_step (inv : s.Inv) {e : P × ConsAct P} {s' : ConsSys P} (stepped : ConsSys.step e s = some s') :
    (∃ c, e.2 = .intr c ∧ s'.line = s.line.intr c) ∨ s'.line = s.line ∨
      (s'.line = { s.line with consumed := s.line.consumed + 1 } ∧ s.line.consumed < s.line.committed.length) := by
  -- a read reaching its loop body takes a byte or leaves the line alone
  have body : ∀ {x : ConsSys P}, (x.line = s.line ∨ x.line = s.take.line) → s.cons.r ≠ s.cons.w →
      (∃ c, e.2 = .intr c ∧ x.line = s.line.intr c) ∨ x.line = s.line ∨
        (x.line = { s.line with consumed := s.line.consumed + 1 } ∧ s.line.consumed < s.line.committed.length) := by
    intro x moved nonempty
    rcases moved with same | taken
    · exact .inr (.inl same)
    · exact .inr (.inr (taken ▸ take_line nonempty))
  obtain ⟨p, act⟩ := e
  cases act with
  | read userDst dst n =>
      simp only [ConsSys.step] at stepped
      split at stepped
      · cases stepped
        exact .inr (.inl (line_of_view (by simp)))
      · cases stepped
  | intr c =>
      simp only [ConsSys.step] at stepped
      split at stepped
      · cases stepped
        exact .inl ⟨c, rfl, inv.ring.line_intr c⟩
      · cases stepped
  | kill q =>
      simp only [ConsSys.step] at stepped
      split at stepped
      · cases stepped
        exact .inr (.inl (line_of_view (by simp)))
      · cases stepped
  | next =>
      cases at_ : s.pc p with
      | idle | readDone _ => simp [ConsSys.step, at_] at stepped
      | read userDst dst n target =>
          simp only [ConsSys.step, at_, Option.some.injEq] at stepped
          subst stepped
          unfold ConsSys.readLoop ConsSys.readWait
          split
          · split
            · exact .inr (.inl (line_of_view (by simp)))
            · rename_i nonempty
              exact body (line_readByte p) nonempty
          · exact .inr (.inl (line_of_view (by simp)))
      | readWait userDst dst n target =>
          simp only [ConsSys.step, at_, Option.some.injEq] at stepped
          subst stepped
          unfold ConsSys.readWait
          split
          · exact .inr (.inl (line_of_view (by simp)))
          · rename_i nonempty
            exact body (line_readByte p) nonempty
      | readKilled userDst dst n target =>
          simp only [ConsSys.step, at_, Option.some.injEq] at stepped
          subst stepped
          unfold ConsSys.readKilled
          split <;> exact .inr (.inl (line_of_view (by simp)))
      | readSleep userDst dst n target =>
          simp only [ConsSys.step, at_, Option.some.injEq] at stepped
          exact .inr (.inl (stepped ▸ line_of_view (by simp)))
      | readAsleep userDst dst n target =>
          simp only [ConsSys.step, at_] at stepped
          unfold ConsSys.wake at stepped
          split at stepped
          · cases stepped
            exact .inr (.inl (line_of_view rfl))
          · cases stepped

omit [DecidableEq P] in
/-- The console as the kernel starts, with no process in console code. -/
theorem start_inv (buf : Fin INPUT_BUF_SIZE → UInt8) (killed : P → Bool) (mem : P → Mem) :
    (start (Cons.init buf) killed mem).Inv :=
  ⟨⟨⟨by simp [start, Cons.init], by simp [start, Cons.init], by simp [start, Cons.init]⟩, List.Sublist.slnil⟩,
    ⟨fun _ => by simp [start, ConsPc.locked], fun _ => trivial⟩⟩

theorem run_inv {s s' : ConsSys P} {t : List (P × ConsAct P)} (inv : s.Inv) (ran : run step s t = some s') :
    s'.Inv :=
  run_invariant step Inv (fun _ _ _ kept stepped => kept.step stepped) inv ran

/-- The console refines the line discipline: along every run, the line read
off the ring is one the discipline reaches by the characters typed and the
bytes taken. -/
theorem console_refines (buf : Fin INPUT_BUF_SIZE → UInt8) (killed : P → Bool) (mem : P → Mem)
    {s : ConsSys P} {t : List (P × ConsAct P)} (ran : run step (start (Cons.init buf) killed mem) t = some s) :
    s.line.Reach := by
  have both := run_invariant step (fun s : ConsSys P => s.Inv ∧ s.line.Reach)
    (fun _ _ _ kept stepped => ⟨kept.1.step stepped, ?_⟩) ⟨start_inv buf killed mem, ?_⟩ ran
  · exact both.2
  · rename_i e x _
    rcases kept.1.line_step stepped with ⟨c, _, typed⟩ | same | ⟨taken, fewer⟩
    · exact typed ▸ kept.2.intr c
    · exact same ▸ kept.2
    · exact taken ▸ kept.2.take fewer
  · simpa [line, Cons.line, start, Cons.init] using Line.Reach.start

/-- An interrupt leaves every byte of `[r, e)` where it was. -/
theorem intr_keeps_unread (inv : s.Inv) (c : UInt8) :
    window (s.intr c).cons.buf s.cons.r s.cons.e = window s.cons.buf s.cons.r s.cons.e := by
  rw [cons_intr]
  exact (inv.ring.valid.consoleintr c).kept

/-- Over every interleaving of reads, typed characters and kills: the indices
keep `r ≤ w ≤ e ≤ r + INPUT_BUF_SIZE` across any wrap; the line being edited
holds no line end; an interrupt moves no byte of `[r, e)`; readers get a part
of the committed bytes they took, in order; and a call that returns `r ≥ 0`
copied out `r` bytes, none a `^D` and only the last a newline. -/
theorem console_runs (buf : Fin INPUT_BUF_SIZE → UInt8) (killed : P → Bool) (mem : P → Mem)
    {s : ConsSys P} {t : List (P × ConsAct P)} (ran : run step (start (Cons.init buf) killed mem) t = some s) :
    (s.cons.w - s.cons.r).toNat ≤ (s.cons.e - s.cons.r).toNat ∧ (s.cons.e - s.cons.r).toNat ≤ INPUT_BUF_SIZE ∧
      s.line.Open ∧
      (∀ c, window (s.intr c).cons.buf s.cons.r s.cons.e = window s.cons.buf s.cons.r s.cons.e) ∧
      s.delivered.Sublist (s.line.committed.take s.line.consumed) ∧
      (∀ q r, s.pc q = .readDone r → 0 ≤ r →
        r = (s.got q).length ∧ '\n'.toUInt8 ∉ (s.got q).dropLast ∧ C 'D' ∉ s.got q) := by
  have inv := run_inv (start_inv buf killed mem) ran
  have taken : s.line.committed.take s.line.consumed = s.taken := by simp [line, Cons.line]
  refine ⟨inv.ring.valid.committed, inv.ring.valid.bound, inv.ring.valid.editing, intr_keeps_unread inv,
    taken ▸ inv.ring.delivered, fun q r done nonneg => ?_⟩
  have counts := inv.calls.counts q
  rw [done] at counts
  obtain ⟨result, noNewline, noEnd⟩ := counts
  exact ⟨result.resolve_left (by omega), noNewline, noEnd⟩

end Runs

end ConsSys

/-! ## A failed `copyout` loses a typed byte -/

/-- A reader's memory: page 0 unmapped, page 1 mapped and writable. -/
def holeMem : Mem :=
  { vm := { user := fun pg => pg ≠ 0, writable := fun _ => true, byte := fun _ => 0 }, kmem := fun _ => 0 }

/-- One reader with a hole at page 0, and the console as the kernel starts. -/
def lineStart : ConsSys (Fin 1) := ConsSys.start (Cons.init fun _ => 0) (fun _ => false) fun _ => holeMem

/-- `a`, then Return. -/
def typeA : List (Fin 1 × ConsAct (Fin 1)) := [(0, .intr 97), (0, .intr 13)]

/-- `read` of two bytes of the console into `dst`, by process 0, to its end. -/
def readTwo (dst : Nat) : List (Fin 1 × ConsAct (Fin 1)) := [(0, .read true dst 2), (0, .next)]

/-- `a` and Return are typed.  A read into the unmapped page returns 0 with
`r` moved past the `a`.  The next read, into a mapped page, returns 1 and
gets only the newline: readers do not get the committed bytes `"a\n"`. -/
theorem consoleread_drops_byte :
    ∃ s₁ s₂, run ConsSys.step lineStart (typeA ++ readTwo 0) = some s₁ ∧
      s₁.pc 0 = .readDone 0 ∧ s₁.cons.r = 1 ∧ s₁.delivered = [] ∧
      run ConsSys.step s₁ (readTwo PGSIZE) = some s₂ ∧ s₂.pc 0 = .readDone 1 ∧
      s₂.line.committed = [97, 10] ∧ s₂.delivered = [10] ∧ ¬ s₂.delivered <+: s₂.line.committed := by
  simp +decide [lineStart, typeA, readTwo, ConsSys.step, ConsSys.start, ConsSys.enter, ConsSys.goto, ConsSys.intr,
    consoleintr, C, ConsSys.readLoop, ConsSys.readWait, ConsSys.readByte, ConsSys.take, ConsSys.deliver,
    eitherCopyout, copyout_one, ConsSys.finish, ConsSys.release, ConsSys.wakeup, ConsPc.outside, Cons.init, holeMem,
    PGROUNDDOWN, PGSIZE, ConsSys.line, Cons.line, Function.update]

end Xv6
