import Xv6.Kernel.Printf

/-!
# user/printf.c: formatted output to a file descriptor

`vprintf(fd, fmt, ap)` walks the format with a `state` that is 0, or '%' just
after a '%'.  In state '%' it looks at the byte there and the two after it and
takes the same if-chain as the kernel's `printf` (`Printf.conv`), except that
an unknown sequence is always printed, since the loop never gets to a NUL in
that state.  Its `printint(int fd, int xx, int base, int sgn)` takes an `int`
and works in an unsigned `uint`, with the digits `"0123456789ABCDEF"`; each
byte goes out with `putc(fd, c)`, and the model returns them in order.

The `l` and `ll` branches read a `uint64` with `va_arg` but pass it to
`printint`'s `int xx`, which keeps its low 32 bits: `%ld`, `%lu` and `%lx`
print those bits as an `int`, the same number `%d` would print
(`vprintf_long_truncates`).  Everything else is read right: the lookahead
reads nothing past the format's NUL, and the only way `vprintf` fails is an
argument missing (`vprintf_faults`), since no `int` needs more than eleven of
`buf`'s sixteen bytes (`printint_ok`).
-/

namespace Xv6

namespace UserPrintf

open Digits Faults Printf

set_option autoImplicit false

/-- `digits`: `"0123456789ABCDEF"`. -/
def digits : List UInt8 :=
  ['0', '1', '2', '3', '4', '5', '6', '7', '8', '9', 'A', 'B', 'C', 'D', 'E', 'F'].map Char.toUInt8

/-- `printint(fd, xx, base, sgn)`: `x` is a `uint`. -/
def printint (xx : Int) (base : Nat) (sgn : Bool) : Except String (List UInt8) :=
  printintOf digits 32 xx base sgn

/-- `printptr(fd, x)`: `0x` and `sizeof(uint64) * 2` digits. -/
def printptr (x : UInt64) : List UInt8 := '0'.toUInt8 :: 'x'.toUInt8 :: printptrLoop digits 16 x

/-- `state`: 0, or '%' right after a '%'. -/
inductive State where
  | plain
  | percent
  deriving DecidableEq

/-- One branch of `vprintf`'s if-chain: what it prints, how many bytes after
`c0` it uses up (`i += skip`) and the arguments left. -/
def convert (c : Conv) (c0 : UInt8) (args : List Arg) :
    Except String (List UInt8 × Nat × List Arg) :=
  match c with
  | .int base sign => do
    let (a, args) ← vaArg args
    return (← printint a.int base sign, 0, args)
  | .long base sign skip => do
    -- `va_arg(ap, uint64)` lands in `int xx` as its low 32 bits, which is `a.int`
    let (a, args) ← vaArg args
    return (← printint a.int base sign, skip, args)
  | .ptr => do
    let (a, args) ← vaArg args
    return (printptr a.w, 0, args)
  | .str => do
    let (a, args) ← vaArg args
    return (a.str, 0, args)
  | .percent => return (['%'.toUInt8], 0, args)
  | .other => return (['%'.toUInt8, c0], 0, args)

/-- The loop of `vprintf` from `fmt[i]` in `state`, with the arguments not yet
taken: the bytes it writes to `fd`. -/
def vprintfLoop (fmt : List UInt8) :
    Nat → Nat → State → List Arg → Except String (List UInt8)
  | 0, _, _, _ => .error "vprintf: out of fuel"
  | fuel + 1, i, state, args => do
    let c0 ← fmtAt fmt i
    if c0 = 0 then return []
    match state with
    | .plain =>
      if c0 = '%'.toUInt8 then vprintfLoop fmt fuel (i + 1) .percent args
      else return c0 :: (← vprintfLoop fmt fuel (i + 1) .plain args)
    | .percent =>
      let (c1, c2) ← lookahead fmt i c0
      let (out, skip, args) ← convert (conv c0 c1 c2) c0 args
      return out ++ (← vprintfLoop fmt fuel (i + skip + 1) .plain args)

/-- `vprintf(fd, fmt, ap)`: what it writes to `fd`. -/
def vprintf (fmt : List UInt8) (args : List Arg) : Except String (List UInt8) :=
  vprintfLoop fmt (fmt.length + 1) 0 .plain args

/-! ## Faults -/

/-- `printint` never overruns `buf`: a `uint` has at most ten digits in a base
of ten or more, and the sign makes eleven. -/
theorem printint_ok (xx : Int) {base : Nat} (ten : 10 ≤ base) (sgn : Bool) :
    printint xx base sgn =
      .ok (render digits (sgn && decide (xx < 0)) base
        (((if sgn && decide (xx < 0) then -xx else xx) % 2 ^ 32).toNat)) := by
  have digitsFit (x : Nat) (small : x < 2 ^ 32) : (numeral base x).length ≤ 10 :=
    (length_numeral_le (by omega) x (by decide)).mpr
      (Nat.lt_of_lt_of_le small (le_trans (by decide) (Nat.pow_le_pow_left ten 10)))
  rw [printint, printintOf_eq digits (by decide) (by omega)]
  dsimp only
  generalize (sgn && decide (xx < 0)) = neg
  have fits := digitsFit _ (toNat_emod_lt (if neg then -xx else xx) 32)
  cases neg
  · rw [if_neg (by simp only [Bool.false_eq_true, if_false] at fits ⊢; omega)]
  · rw [if_neg (by simp only [if_true] at fits ⊢; omega)]

/-- The user `%d` prints every `int` exactly. -/
theorem printint_int (a : Arg) :
    printint a.int 10 true = .ok (render digits (decide (a.int < 0)) 10 a.int.natAbs) :=
  printintOf_int digits (by decide) a

/-- The only error of the user `vprintf`: an argument missing. -/
def vprintfFaults : List String := ["va_arg: no argument left"]

theorem vaArg_no_arg (args : List Arg) : Within vprintfFaults (vaArg args) := by
  cases args with
  | nil => exact .error List.mem_cons_self
  | cons a args => exact .ok _

theorem convert_faults {c0 c1 c2 : UInt8} (args : List Arg) :
    Within vprintfFaults (convert (conv c0 c1 c2) c0 args) := by
  obtain ⟨intBase, longBase⟩ := @conv_base c0 c1 c2
  cases chosen : conv c0 c1 c2 with
  | int base sign =>
    refine .bind (vaArg_no_arg args) fun ⟨a, _⟩ _ => ?_
    exact .bind (by rw [printint_ok _ (intBase base sign chosen)]; exact .ok _) fun _ _ => .ok _
  | long base sign skip =>
    refine .bind (vaArg_no_arg args) fun ⟨a, _⟩ _ => ?_
    exact .bind (by rw [printint_ok _ (longBase base sign skip chosen)]; exact .ok _)
      fun _ _ => .ok _
  | ptr => exact .bind (vaArg_no_arg args) fun ⟨a, _⟩ _ => .ok _
  | str => exact .bind (vaArg_no_arg args) fun ⟨a, _⟩ _ => .ok _
  | percent => exact .ok _
  | other => exact .ok _

/-- A branch uses up no bytes after `c0`, except an `l` or `ll` form, which uses
up its own. -/
theorem convert_skip {c : Conv} {c0 : UInt8} {args : List Arg} {out : List UInt8} {skip : Nat}
    {rest : List Arg} (went : convert c c0 args = .ok (out, skip, rest)) :
    skip = 0 ∨ ∃ base sign, c = .long base sign skip := by
  cases c with
  | long base sign skip' =>
    obtain ⟨⟨a, args'⟩, -, went⟩ := bind_eq_ok went
    obtain ⟨printed, -, went⟩ := bind_eq_ok went
    cases went
    exact .inr ⟨base, sign, rfl⟩
  | int base sign =>
    obtain ⟨⟨a, args'⟩, -, went⟩ := bind_eq_ok went
    obtain ⟨printed, -, went⟩ := bind_eq_ok went
    cases went
    exact .inl rfl
  | ptr | str =>
    obtain ⟨⟨a, args'⟩, -, went⟩ := bind_eq_ok went
    cases went
    exact .inl rfl
  | percent | other =>
    cases went
    exact .inl rfl

/-- From any index up to the NUL, in either state, with a round for every byte
left, the loop reads nothing past the NUL, does not run out of fuel and fails
only for a missing argument.  The induction is on the fuel, one round a step. -/
theorem vprintfLoop_faults (fmt : List UInt8) :
    ∀ fuel i state args, i ≤ nulAt fmt → nulAt fmt < i + fuel →
      Within vprintfFaults (vprintfLoop fmt fuel i state args)
  | 0, i, _, _, le, lt => absurd lt (by omega)
  | fuel + 1, i, state, args, le, lt => by
    rw [vprintfLoop]
    refine .bind (by rw [fmtAt_of_le le]; exact .ok _) fun c0 read => ?_
    rw [fmtAt_of_le le] at read
    cases read
    by_cases nul : fmt.getD i 0 = 0
    · rw [if_pos nul]
      exact .ok _
    rw [if_neg nul]
    have first := lt_nulAt le nul
    cases state with
    | plain =>
      -- a '%' only changes the state; any other byte is written
      dsimp only
      split
      · exact vprintfLoop_faults fmt fuel (i + 1) .percent args (by omega) (by omega)
      · exact .bind (vprintfLoop_faults fmt fuel (i + 1) .plain args (by omega) (by omega))
          fun _ _ => .ok _
    | percent =>
      dsimp only
      obtain ⟨c1, c2, looked, second, third⟩ := lookahead_ok le
      refine .bind (by rw [looked]; exact .ok _) fun bytes read => ?_
      rw [looked] at read
      cases read
      refine .bind (convert_faults args) fun ⟨out, skip, rest⟩ wentOk => ?_
      -- the bytes the conversion used up lie before the NUL
      have used : i + skip + 1 ≤ nulAt fmt := by
        rcases convert_skip wentOk with none | ⟨base, sign, long⟩
        · omega
        · rcases conv_long long with ⟨c1ne, rfl | ⟨rfl, c2ne⟩⟩
          · have := second c1ne
            omega
          · have := (third c2ne).2
            omega
      exact .bind (vprintfLoop_faults fmt fuel _ .plain rest used (by omega)) fun _ _ => .ok _

theorem vprintf_faults (fmt : List UInt8) (args : List Arg) :
    Within vprintfFaults (vprintf fmt args) :=
  vprintfLoop_faults fmt _ 0 .plain args (Nat.zero_le _) (by have := nulAt_le fmt; omega)

/-! ## The `l` forms -/

/-- `%ld`, `%lu` and `%lx` print their 64-bit argument as `%d`, `%u` and `%x`
print it: as the `int` of its low 32 bits. -/
theorem vprintf_long_truncates (a : Arg) :
    vprintf (['%', 'l', 'd'].map Char.toUInt8) [a] = vprintf (['%', 'd'].map Char.toUInt8) [a] ∧
      vprintf (['%', 'l', 'u'].map Char.toUInt8) [a] = vprintf (['%', 'u'].map Char.toUInt8) [a] ∧
      vprintf (['%', 'l', 'x'].map Char.toUInt8) [a] = vprintf (['%', 'x'].map Char.toUInt8) [a] := by
  -- the formats are fixed, so the loop runs through; `printint_ok` removes the overrun branch
  simp +decide [vprintf, vprintfLoop, fmtAt, lookahead, conv, convert, vaArg, printint_ok, bind,
    Except.bind, pure, Except.pure]

/-- `%ld` of `2 ^ 32` prints 0, `%lu` of `2 ^ 32 + 5` prints 5 and `%lx` of
`2 ^ 32 + 255` prints FF. -/
theorem vprintf_long_arguments :
    vprintf (['%', 'l', 'd'].map Char.toUInt8) [{ w := 4294967296 }] = .ok ['0'.toUInt8] ∧
      vprintf (['%', 'l', 'u'].map Char.toUInt8) [{ w := 4294967301 }] = .ok ['5'.toUInt8] ∧
      vprintf (['%', 'l', 'x'].map Char.toUInt8) [{ w := 4294967551 }] =
        .ok ['F'.toUInt8, 'F'.toUInt8] := by
  decide

end UserPrintf

end Xv6
