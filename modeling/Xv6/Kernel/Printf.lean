import Xv6.Theory.Bytes
import Xv6.Theory.Digits
import Xv6.Theory.Faults

/-!
# printf.c: the kernel's formatted console output

`printf(fmt, ...)` copies the format to the console and replaces each
conversion by its argument: `%d`, `%u` and `%x` take an `int`, the `l` and
`ll` forms a `uint64`, `%p` a `uint64` and `%s` a `char*`.  The conversion is
chosen by the if-chain `conv` on the byte after the '%' and the two after it;
user/printf.c has the same chain.  Numbers go through
`printint(long long xx, int base, int sign)`, which writes the digits into
`char buf[16]` back to front with the sign last and then prints `buf`
backwards; `printptr` writes `0x` and sixteen digits from the top.

An argument is its 64-bit slot and, for a `char*`, the string it points to
(`Arg`): `va_arg(ap, int)` reads the low 32 bits of the slot as an `int`, and
`va_arg(ap, uint64)` the whole slot, converted to `long long` on its way into
`printint`.  Bytes of the format are read with `fmtAt`, which reports a read
past its terminating NUL as an error.  A write past the end of `buf` is an
error too (`printintOf`).

`printintOf_eq` says what `printint` prints: the numeral of its argument,
after a '-', unless numeral and sign need more than sixteen bytes.  `%d` never
does (`printint_int`), but `%u` and `%x` take the `int` sign-extended to
`long long` and then as an `unsigned long long`, so a negative argument is
printed as a number of 64 bits: `%x` of -1 prints sixteen 'f's and `%u` of -1
needs twenty digits, past `buf`.  So does `%lu` of a number of twenty digits.
`printptr_eq` says `%p` is the sixteen hex digits of its argument.
-/

namespace Xv6

namespace Printf

open Digits Faults

set_option autoImplicit false

/-! ## Arguments and the format -/

/-- A variadic argument: the 64-bit word in its slot, and for a `char*` the
bytes of the string it points to, up to its NUL. -/
structure Arg where
  w : UInt64
  s : List UInt8 := []

/-- `va_arg(ap, int)`: the low 32 bits of the slot, as an `int`. -/
def Arg.int (a : Arg) : Int := Bytes.signed 4 (a.w.toNat % 2 ^ 32)

/-- `va_arg(ap, uint64)` passed to a `long long` parameter. -/
def Arg.longLong (a : Arg) : Int := Bytes.signed 8 a.w.toNat

/-- `"(null)"`, printed for a null `char*`. -/
def nullStr : List UInt8 := ['(', 'n', 'u', 'l', 'l', ')'].map Char.toUInt8

/-- What `%s` prints: `for(; *s; s++)` over the string, or over `"(null)"`
when the pointer is 0. -/
def Arg.str (a : Arg) : List UInt8 := if a.w = 0 then nullStr else a.s.takeWhile (· ≠ 0)

/-- `va_arg(ap, ...)`: the next argument. -/
def vaArg : List Arg → Except String (Arg × List Arg)
  | [] => .error "va_arg: no argument left"
  | a :: args => .ok (a, args)

/-- `fmt[i]`: the byte at `i`, the terminating NUL at the end, and an error for
a read past the first NUL. -/
def fmtAt (fmt : List UInt8) (i : Nat) : Except String UInt8 :=
  if 0 ∈ fmt.take i ∨ fmt.length < i then .error "fmt: read past the NUL" else .ok (fmt.getD i 0)

/-- The conversion the bytes after a '%' select. -/
inductive Conv where
  /-- `printint(va_arg(ap, int), base, sign)` -/
  | int (base : Nat) (sign : Bool)
  /-- `printint(va_arg(ap, uint64), base, sign)`, then `i += skip` -/
  | long (base : Nat) (sign : Bool) (skip : Nat)
  | ptr
  | str
  | percent
  /-- none of the above: an unknown sequence, or the NUL -/
  | other
  deriving DecidableEq

/-- The if-chain of `printf` (and of the user `vprintf`) on `c0`, `c1`, `c2`. -/
def conv (c0 c1 c2 : UInt8) : Conv :=
  if c0 = 'd'.toUInt8 then .int 10 true
  else if c0 = 'l'.toUInt8 ∧ c1 = 'd'.toUInt8 then .long 10 true 1
  else if c0 = 'l'.toUInt8 ∧ c1 = 'l'.toUInt8 ∧ c2 = 'd'.toUInt8 then .long 10 true 2
  else if c0 = 'u'.toUInt8 then .int 10 false
  else if c0 = 'l'.toUInt8 ∧ c1 = 'u'.toUInt8 then .long 10 false 1
  else if c0 = 'l'.toUInt8 ∧ c1 = 'l'.toUInt8 ∧ c2 = 'u'.toUInt8 then .long 10 false 2
  else if c0 = 'x'.toUInt8 then .int 16 false
  else if c0 = 'l'.toUInt8 ∧ c1 = 'x'.toUInt8 then .long 16 false 1
  else if c0 = 'l'.toUInt8 ∧ c1 = 'l'.toUInt8 ∧ c2 = 'x'.toUInt8 then .long 16 false 2
  else if c0 = 'p'.toUInt8 then .ptr
  else if c0 = 's'.toUInt8 then .str
  else if c0 = '%'.toUInt8 then .percent
  else .other

/-! ## Numbers -/

/-- `printint` of either printf.c, with its digit table and the width in bits of
its unsigned `x`: `sign` becomes "negative and signed", `x` is `-xx` or `xx`
taken modulo `2 ^ width`, and the do-while loop writes `x`'s digits into
`buf[16]`, then the '-'.  More than sixteen bytes are a write past `buf`. -/
def printintOf (digits : List UInt8) (width : Nat) (xx : Int) (base : Nat) (sign : Bool) :
    Except String (List UInt8) :=
  let sign := sign && decide (xx < 0)
  let x := ((if sign then -xx else xx) % 2 ^ width).toNat
  let buf := (fill base width x).map (digits.getD · 0) ++ (if sign then ['-'.toUInt8] else [])
  if 16 < buf.length then .error "printint: write past buf[16]" else .ok buf.reverse

/-- `digits`: `"0123456789abcdef"`. -/
def digits : List UInt8 :=
  ['0', '1', '2', '3', '4', '5', '6', '7', '8', '9', 'a', 'b', 'c', 'd', 'e', 'f'].map Char.toUInt8

/-- `printint(xx, base, sign)`: `x` is an `unsigned long long`. -/
def printint (xx : Int) (base : Nat) (sign : Bool) : Except String (List UInt8) :=
  printintOf digits 64 xx base sign

/-- The loop of `printptr`: `i` rounds of `digits[x >> 60]`, `x <<= 4`. -/
def printptrLoop (digits : List UInt8) : Nat → UInt64 → List UInt8
  | 0, _ => []
  | i + 1, x => digits.getD (x >>> 60).toNat 0 :: printptrLoop digits i (x <<< 4)

/-- `printptr(x)`: `0x` and `sizeof(uint64) * 2` digits. -/
def printptr (x : UInt64) : List UInt8 := '0'.toUInt8 :: 'x'.toUInt8 :: printptrLoop digits 16 x

/-- The bytes of a numeral: its digits through the table, after a '-' when negative. -/
def render (digits : List UInt8) (neg : Bool) (base x : Nat) : List UInt8 :=
  (if neg then ['-'.toUInt8] else []) ++ (numeral base x).map (digits.getD · 0)

/-! ## The format loop -/

/-- `c1 = c2 = 0; if(c0) c1 = fmt[i+1]; if(c1) c2 = fmt[i+2];`: the two bytes
after `c0 = fmt[i]`, read only while no NUL has been met. -/
def lookahead (fmt : List UInt8) (i : Nat) (c0 : UInt8) : Except String (UInt8 × UInt8) := do
  let c1 ← if c0 ≠ 0 then fmtAt fmt (i + 1) else pure 0
  let c2 ← if c1 ≠ 0 then fmtAt fmt (i + 2) else pure 0
  return (c1, c2)

/-- One branch of `printf`'s if-chain: what it prints, how many bytes after
`c0` it uses up (`i += skip`) and the arguments left; `none` for the branch
`c0 == 0`, which breaks out of the loop. -/
def convert (c : Conv) (c0 : UInt8) (args : List Arg) :
    Except String (Option (List UInt8 × Nat × List Arg)) :=
  match c with
  | .int base sign => do
    let (a, args) ← vaArg args
    return some (← printint a.int base sign, 0, args)
  | .long base sign skip => do
    let (a, args) ← vaArg args
    return some (← printint a.longLong base sign, skip, args)
  | .ptr => do
    let (a, args) ← vaArg args
    return some (printptr a.w, 0, args)
  | .str => do
    let (a, args) ← vaArg args
    return some (a.str, 0, args)
  | .percent => return some (['%'.toUInt8], 0, args)
  | .other =>
    -- an unknown sequence is printed to draw attention
    if c0 = 0 then return none else return some (['%'.toUInt8, c0], 0, args)

/-- The loop of `printf` from `fmt[i]`, with the arguments not yet taken: the
bytes it passes to `consputc`.  Every round moves `i` on, so
`fmt.length + 1` rounds are enough (`printfLoop_faults`). -/
def printfLoop (fmt : List UInt8) : Nat → Nat → List Arg → Except String (List UInt8)
  | 0, _, _ => .error "printf: out of fuel"
  | fuel + 1, i, args => do
    let cx ← fmtAt fmt i
    if cx = 0 then return []
    if cx ≠ '%'.toUInt8 then
      return cx :: (← printfLoop fmt fuel (i + 1) args)
    let i := i + 1
    let c0 ← fmtAt fmt i
    let (c1, c2) ← lookahead fmt i c0
    match ← convert (conv c0 c1 c2) c0 args with
    | none => return []
    | some (out, skip, args) => return out ++ (← printfLoop fmt fuel (i + skip + 1) args)

/-- `printf(fmt, ...)`: what it sends to the console. -/
def printf (fmt : List UInt8) (args : List Arg) : Except String (List UInt8) :=
  printfLoop fmt (fmt.length + 1) 0 args

/-! ## Reading the format -/

/-- The index of the format's terminating NUL. -/
def nulAt (fmt : List UInt8) : Nat := (fmt.takeWhile (· ≠ 0)).length

theorem nulAt_le (fmt : List UInt8) : nulAt fmt ≤ fmt.length :=
  (List.takeWhile_prefix _).length_le

theorem getD_of_lt_nulAt {fmt : List UInt8} {i : Nat} (lt : i < nulAt fmt) : fmt.getD i 0 ≠ 0 := by
  have inPrefix : (fmt.takeWhile (· ≠ 0))[i] = fmt.getD i 0 := by
    rw [List.getD_eq_getElem _ _ (Nat.lt_of_lt_of_le lt (nulAt_le fmt))]
    exact List.IsPrefix.getElem (List.takeWhile_prefix _) lt
  rw [← inPrefix]
  simpa using List.mem_takeWhile_imp (List.getElem_mem lt)

theorem getD_nulAt (fmt : List UInt8) : fmt.getD (nulAt fmt) 0 = 0 := by
  unfold nulAt
  induction fmt with
  | nil => rfl
  | cons c fmt ih =>
    by_cases zero : c = 0
    · simp [zero]
    · rw [List.takeWhile_cons_of_pos (by simpa using zero), List.length_cons, List.getD_cons_succ]
      exact ih

theorem not_mem_take_of_le_nulAt {fmt : List UInt8} {i : Nat} (le : i ≤ nulAt fmt) :
    0 ∉ fmt.take i := by
  intro mem
  obtain ⟨j, lt, at0⟩ := List.getElem_of_mem mem
  rw [List.length_take] at lt
  rw [List.getElem_take] at at0
  have := @getD_of_lt_nulAt fmt j (by omega)
  rw [List.getD_eq_getElem _ _ (by omega)] at this
  exact this at0

/-- Up to its terminating NUL the format reads as its bytes. -/
theorem fmtAt_of_le {fmt : List UInt8} {i : Nat} (le : i ≤ nulAt fmt) :
    fmtAt fmt i = .ok (fmt.getD i 0) := by
  have inside := nulAt_le fmt
  unfold fmtAt
  rw [if_neg (by simp only [not_or]; exact ⟨not_mem_take_of_le_nulAt le, by omega⟩)]

theorem conv_long {c0 c1 c2 : UInt8} {base : Nat} {sign : Bool} {skip : Nat}
    (chosen : conv c0 c1 c2 = .long base sign skip) : c1 ≠ 0 ∧ (skip = 1 ∨ skip = 2 ∧ c2 ≠ 0) := by
  simp only [conv, ite_eq_iff, reduceCtorEq, Conv.long.injEq, and_false, or_false, false_or] at chosen
  -- six `l` branches; each names the bytes it tested
  rcases chosen with ⟨-, (⟨⟨-, c1⟩, -, -, rfl⟩ | ⟨-, (⟨⟨-, c1, c2⟩, -, -, rfl⟩ |
    ⟨-, -, (⟨⟨-, c1⟩, -, -, rfl⟩ | ⟨-, (⟨⟨-, c1, c2⟩, -, -, rfl⟩ |
    ⟨-, -, (⟨⟨-, c1⟩, -, -, rfl⟩ | ⟨-, ⟨-, c1, c2⟩, -, -, rfl⟩)⟩)⟩)⟩)⟩)⟩
  all_goals subst_vars
  all_goals first
    | exact ⟨by decide, .inl rfl⟩
    | exact ⟨by decide, .inr ⟨rfl, by decide⟩⟩

theorem lt_nulAt {fmt : List UInt8} {i : Nat} (le : i ≤ nulAt fmt) (notNul : fmt.getD i 0 ≠ 0) :
    i < nulAt fmt := by
  rcases Nat.lt_or_eq_of_le le with lt | rfl
  · exact lt
  · exact absurd (getD_nulAt fmt) notNul

/-- The lookahead reads nothing past the NUL: a byte it finds that is not the
NUL lies before it. -/
theorem lookahead_ok {fmt : List UInt8} {i : Nat} (le : i ≤ nulAt fmt) :
    ∃ c1 c2, lookahead fmt i (fmt.getD i 0) = .ok (c1, c2) ∧
      (c1 ≠ 0 → i + 1 < nulAt fmt) ∧ (c2 ≠ 0 → c1 ≠ 0 ∧ i + 2 < nulAt fmt) := by
  unfold lookahead
  by_cases c0 : fmt.getD i 0 = 0
  · -- nothing after the NUL is read
    rw [if_neg (fun ne => ne c0)]
    exact ⟨0, 0, rfl, fun ne => absurd rfl ne, fun ne => absurd rfl ne⟩
  have first := lt_nulAt le c0
  rw [if_pos c0, fmtAt_of_le (by omega : i + 1 ≤ nulAt fmt)]
  by_cases c1 : fmt.getD (i + 1) 0 = 0
  · refine ⟨fmt.getD (i + 1) 0, 0, ?_, fun ne => absurd c1 ne, fun ne => absurd rfl ne⟩
    simp only [c1]
    rfl
  have second := lt_nulAt (by omega) c1
  refine ⟨fmt.getD (i + 1) 0, fmt.getD (i + 2) 0, ?_, fun _ => second,
    fun c2 => ⟨c1, lt_nulAt (by omega) c2⟩⟩
  dsimp only [bind, Except.bind]
  rw [if_pos c1, fmtAt_of_le (by omega : i + 2 ≤ nulAt fmt)]
  rfl

/-! ## What can go wrong -/

/-- The errors the kernel's `printf` can end in once its format is read
correctly: an argument missing, and a number too long for `buf`. -/
def printfFaults : List String := ["printint: write past buf[16]", "va_arg: no argument left"]

theorem printint_faults (xx : Int) (base : Nat) (sign : Bool) :
    Within printfFaults (printint xx base sign) := by
  intro e failed
  unfold printint printintOf at failed
  dsimp only at failed
  split_ifs at failed <;> cases failed <;> exact List.mem_cons_self

theorem vaArg_faults (args : List Arg) : Within printfFaults (vaArg args) := by
  cases args with
  | nil => exact .error (List.mem_cons_of_mem _ List.mem_cons_self)
  | cons a args => exact .ok _

theorem convert_faults (c : Conv) (c0 : UInt8) (args : List Arg) :
    Within printfFaults (convert c c0 args) := by
  cases c with
  | int base sign =>
    exact .bind (vaArg_faults args) fun ⟨a, _⟩ _ => .bind (printint_faults _ _ _) fun _ _ => .ok _
  | long base sign skip =>
    exact .bind (vaArg_faults args) fun ⟨a, _⟩ _ => .bind (printint_faults _ _ _) fun _ _ => .ok _
  | ptr => exact .bind (vaArg_faults args) fun ⟨a, _⟩ _ => .ok _
  | str => exact .bind (vaArg_faults args) fun ⟨a, _⟩ _ => .ok _
  | percent => exact .ok _
  | other =>
    simp only [convert]
    split
    · exact .ok _
    · exact .ok _

/-- A branch that goes on uses up no bytes after `c0`, except an `l` or `ll`
form, which uses up its own. -/
theorem convert_skip {c : Conv} {c0 : UInt8} {args : List Arg} {out : List UInt8} {skip : Nat}
    {rest : List Arg} (went : convert c c0 args = .ok (some (out, skip, rest))) :
    skip = 0 ∨ ∃ base sign, c = .long base sign skip := by
  cases c with
  | long base sign skip' =>
    obtain ⟨⟨a, args'⟩, -, went⟩ := bind_eq_ok went
    obtain ⟨printed, -, went⟩ := bind_eq_ok went
    cases went
    exact .inr ⟨base, sign, rfl⟩
  | int base sign =>
    obtain ⟨⟨a, args'⟩, -, went⟩ := bind_eq_ok went
    obtain ⟨printed, -, went⟩ := bind_eq_ok went
    cases went
    exact .inl rfl
  | ptr | str =>
    obtain ⟨⟨a, args'⟩, -, went⟩ := bind_eq_ok went
    cases went
    exact .inl rfl
  | percent =>
    cases went
    exact .inl rfl
  | other =>
    simp only [convert] at went
    split at went
    · cases went
    · cases went
      exact .inl rfl

/-- The NUL after a '%' ends the loop. -/
theorem convert_nul (c1 c2 : UInt8) (args : List Arg) : convert (conv 0 c1 c2) 0 args = .ok none := rfl

/-- From any index up to the NUL, with a round for every byte left, the loop
reads nothing past the NUL and does not run out of fuel: it can only miss an
argument or overrun `buf`.  The induction is on the fuel, one round a step. -/
theorem printfLoop_faults (fmt : List UInt8) :
    ∀ fuel i args, i ≤ nulAt fmt → nulAt fmt < i + fuel →
      Within printfFaults (printfLoop fmt fuel i args)
  | 0, i, args, le, lt => absurd lt (by omega)
  | fuel + 1, i, args, le, lt => by
    rw [printfLoop]
    refine .bind (by rw [fmtAt_of_le le]; exact .ok _) fun cx read => ?_
    rw [fmtAt_of_le le] at read
    cases read
    by_cases nul : fmt.getD i 0 = 0
    · rw [if_pos nul]
      exact .ok _
    rw [if_neg nul]
    have first := lt_nulAt le nul
    by_cases plain : fmt.getD i 0 ≠ '%'.toUInt8
    · -- a byte other than '%' is printed, and the loop goes on at `i + 1`
      rw [if_pos plain]
      exact .bind (printfLoop_faults fmt fuel (i + 1) args (by omega) (by omega)) fun _ _ => .ok _
    rw [if_neg plain]
    dsimp only
    refine .bind (by rw [fmtAt_of_le (by omega)]; exact .ok _) fun c0 read => ?_
    rw [fmtAt_of_le (by omega)] at read
    cases read
    obtain ⟨c1, c2, looked, second, third⟩ := lookahead_ok (by omega : i + 1 ≤ nulAt fmt)
    refine .bind (by rw [looked]; exact .ok _) fun bytes read => ?_
    rw [looked] at read
    cases read
    refine .bind (convert_faults _ _ _) fun went wentOk => ?_
    rcases went with _ | ⟨out, skip, rest⟩
    · exact .ok _
    -- the conversion went on: the bytes it used up lie before the NUL
    have c0ne : fmt.getD (i + 1) 0 ≠ 0 := by
      intro zero
      rw [zero, convert_nul] at wentOk
      cases wentOk
    have used : i + 1 + skip + 1 ≤ nulAt fmt := by
      have := lt_nulAt (by omega) c0ne
      rcases convert_skip wentOk with none | ⟨base, sign, long⟩
      · omega
      · rcases conv_long long with ⟨c1ne, rfl | ⟨rfl, c2ne⟩⟩
        · have := second c1ne
          omega
        · have := (third c2ne).2
          omega
    exact .bind (printfLoop_faults fmt fuel _ rest used (by omega)) fun _ _ => .ok _

theorem printf_faults (fmt : List UInt8) (args : List Arg) : Within printfFaults (printf fmt args) :=
  printfLoop_faults fmt _ 0 args (Nat.zero_le _) (by have := nulAt_le fmt; omega)

/-! ## What `printint` and `printptr` print -/

theorem toNat_emod_lt (v : Int) (n : Nat) : (v % 2 ^ n).toNat < 2 ^ n := by
  have pos : (0 : Int) < 2 ^ n := by positivity
  have below := Int.emod_lt_of_pos v pos
  have nonneg := Int.emod_nonneg v pos.ne'
  have cast : ((2 ^ n : Nat) : Int) = 2 ^ n := by push_cast; rfl
  omega

/-- `printint` prints the numeral of `x`, after a '-' when `xx` is negative and
signed, unless the two need more than `buf`'s sixteen bytes. -/
theorem printintOf_eq (digits : List UInt8) {width base : Nat} (pos : 0 < width) (two : 2 ≤ base)
    (xx : Int) (sign : Bool) :
    printintOf digits width xx base sign =
      let neg := sign && decide (xx < 0)
      let x := ((if neg then -xx else xx) % 2 ^ width).toNat
      if 16 < (numeral base x).length + (if neg then 1 else 0) then .error "printint: write past buf[16]"
      else .ok (render digits neg base x) := by
  obtain ⟨w, rfl⟩ : ∃ w, width = w + 1 := ⟨width - 1, by omega⟩
  have fits (v : Int) : (v % 2 ^ (w + 1)).toNat < base ^ (w + 1) :=
    Nat.lt_of_lt_of_le (toNat_emod_lt v _) (Nat.pow_le_pow_left two _)
  unfold printintOf render
  dsimp only
  rw [fill_eq two (fits _), List.length_append, List.length_map, List.length_reverse, List.reverse_append,
    List.map_reverse, List.reverse_reverse]
  cases sign && decide (xx < 0) <;> rfl

theorem int_bounds (a : Arg) : -2 ^ 31 ≤ a.int ∧ a.int < 2 ^ 31 := by
  have low := Nat.mod_lt a.w.toNat (show 0 < 2 ^ 32 by decide)
  unfold Arg.int Bytes.signed
  split <;> omega

/-- `%d` prints every `int` exactly, with an unsigned `x` of 32 bits or more: a
'-' when it is negative, then the decimal numeral of its magnitude. -/
theorem printintOf_int (digits : List UInt8) {width : Nat} (wide : 32 ≤ width) (a : Arg) :
    printintOf digits width a.int 10 true = .ok (render digits (decide (a.int < 0)) 10 a.int.natAbs) := by
  obtain ⟨lo, hi⟩ := int_bounds a
  have big : (2 : Int) ^ 32 ≤ 2 ^ width := pow_le_pow_right₀ (by norm_num) wide
  have magnitude :
      ((if decide (a.int < 0) then -a.int else a.int) % 2 ^ width).toNat = a.int.natAbs := by
    by_cases neg : a.int < 0
    · rw [if_pos (decide_eq_true neg), Int.emod_eq_of_lt (by omega) (by omega)]
      omega
    · rw [if_neg (by simpa using neg), Int.emod_eq_of_lt (by omega) (by omega)]
      omega
  have short : (numeral 10 a.int.natAbs).length ≤ 10 :=
    (length_numeral_le (by decide) _ (by decide)).mpr (by omega)
  rw [printintOf_eq digits (by omega) (by decide)]
  simp only [Bool.true_and, magnitude]
  rw [if_neg (by split <;> omega)]

theorem printint_int (a : Arg) :
    printint a.int 10 true = .ok (render digits (decide (a.int < 0)) 10 a.int.natAbs) :=
  printintOf_int digits (by decide) a

/-- `%u` of a negative `int` takes it as an `unsigned long long`: its twenty
digits do not fit `buf`. -/
theorem printint_unsigned_of_neg (a : Arg) (neg : a.int < 0) :
    printint a.int 10 false = .error "printint: write past buf[16]" := by
  obtain ⟨lo, -⟩ := int_bounds a
  have wide : 10 ^ 16 ≤ (a.int % 2 ^ 64).toNat := by omega
  have long : ¬(numeral 10 (a.int % 2 ^ 64).toNat).length ≤ 16 :=
    fun short => absurd ((length_numeral_le (by decide) _ (by decide)).mp short) (by omega)
  rw [printint, printintOf_eq digits (by decide) (by decide)]
  simp only [Bool.false_and, Bool.false_eq_true, if_false]
  rw [if_pos (by omega)]

/-- The chain picks base 10 or 16 for every number. -/
theorem conv_base {c0 c1 c2 : UInt8} :
    (∀ base sign, conv c0 c1 c2 = .int base sign → 10 ≤ base) ∧
      ∀ base sign skip, conv c0 c1 c2 = .long base sign skip → 10 ≤ base := by
  constructor
  · intro base sign chosen
    simp only [conv, ite_eq_iff, reduceCtorEq, Conv.int.injEq, and_false, or_false, false_or] at chosen
    grind
  · intro base sign skip chosen
    simp only [conv, ite_eq_iff, reduceCtorEq, Conv.long.injEq, and_false, or_false, false_or] at chosen
    grind

/-- The digits `printptr` writes from the top of `x << 4 * j`. -/
theorem printptrLoop_eq (digits : List UInt8) :
    ∀ k j (x : UInt64), j + k = 16 →
      printptrLoop digits k x = (fixed 16 k (x.toNat / 16 ^ j)).map (digits.getD · 0)
  | 0, _, _, _ => rfl
  | k + 1, j, x, sum => by
    have below := x.toNat_lt
    -- the top digit is bits 60..63 of the shifted word
    have top : (x >>> 60).toNat = x.toNat / 16 ^ j / 16 ^ k % 16 := by
      have shift : (x >>> 60).toNat = x.toNat / 16 ^ 15 := by
        rw [UInt64.toNat_shiftRight, Nat.shiftRight_eq_div_pow]
        rfl
      rw [shift, Nat.div_div_eq_div_mul, ← pow_add, show j + k = 15 by omega, Nat.mod_eq_of_lt]
      rw [Nat.div_lt_iff_lt_mul (by positivity)]
      omega
    -- shifting left by four drops the top digit and keeps the rest modulo `16 ^ k`
    have rest : fixed 16 k ((x <<< 4).toNat / 16 ^ (j + 1)) = fixed 16 k (x.toNat / 16 ^ j) := by
      rw [← fixed_mod, ← fixed_mod k (x.toNat / 16 ^ j)]
      congr 1
      rw [UInt64.toNat_shiftLeft, Nat.shiftLeft_eq, show (2 : Nat) ^ 64 = 16 ^ (j + 1) * 16 ^ k by
        rw [← pow_add, show j + 1 + k = 16 by omega]; rfl, Nat.mod_mul_right_div_self, pow_succ,
        show (4 : UInt64).toNat % 64 = 4 from rfl, show (2 : Nat) ^ 4 = 16 from rfl,
        Nat.mul_div_mul_right _ _ (by decide), Nat.mod_mod]
    rw [printptrLoop, printptrLoop_eq digits k (j + 1) (x <<< 4) (by omega), rest, top]
    rfl

/-- `%p` prints `0x` and the sixteen hex digits of its argument, zeros included. -/
theorem printptr_eq (x : UInt64) :
    printptr x = '0'.toUInt8 :: 'x'.toUInt8 :: (fixed 16 16 x.toNat).map (digits.getD · 0) ∧
      Nat.ofDigits 16 (fixed 16 16 x.toNat).reverse = x.toNat := by
  refine ⟨?_, ?_⟩
  · rw [printptr, printptrLoop_eq digits 16 0 x rfl, pow_zero, Nat.div_one]
  · rw [ofDigits_fixed, Nat.mod_eq_of_lt (by have := x.toNat_lt; omega)]

/-- `%u` and `%x` of the `int` -1, `%lu` of `2 ^ 64 - 1` and `%ld` of `-2 ^ 63`:
the first and the last two write past `buf`, and `%x` prints sixteen 'f's. -/
theorem printf_wide_arguments :
    printf (['%', 'u'].map Char.toUInt8) [{ w := 18446744073709551615 }] =
        .error "printint: write past buf[16]" ∧
      printf (['%', 'x'].map Char.toUInt8) [{ w := 18446744073709551615 }] =
        .ok (List.replicate 16 'f'.toUInt8) ∧
      printf (['%', 'l', 'u'].map Char.toUInt8) [{ w := 18446744073709551615 }] =
        .error "printint: write past buf[16]" ∧
      printf (['%', 'l', 'd'].map Char.toUInt8) [{ w := 9223372036854775808 }] =
        .error "printint: write past buf[16]" := by
  decide

end Printf

end Xv6
