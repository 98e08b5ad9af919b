import Xv6.User.Sh

/-!
# sh.c: the tokens of a line

`gettoken` and `peek` read a line one token at a time, each skipping the
whitespace before it.  This module says what the tokens of a line are without
them: `tokensFrom` splits a line into words, the maximal runs of characters
outside `whitespace` and `symbols`, and symbols, `>>` being one token of code
`'+'`.  Each token keeps the positions `[q, eq)` it spans, the pointers
`gettoken` returns.

`toks buf s` are the tokens from position `s` on.  On a line without NUL,
`gettoken buf s` returns the code and positions of the first of them and a
position from which `toks` gives the rest (`gettoken_next`), or NUL when none
is left (`gettoken_done`); `peek buf s T` tells whether the first starts with a
character of `T` (`peek_of_toks`).  From here on the parser is a function of
the tokens.
-/

namespace Xv6
namespace Sh

set_option autoImplicit false

/-! ## Tokens -/

/-- A token and the positions `[q, eq)` it spans: a word, or a symbol with the code `gettoken` returns for it (`'+'` for `>>`). -/
inductive Tok where
  | word (q eq : Nat)
  | sym (c : Char) (q eq : Nat)
  deriving DecidableEq, Repr

/-- The code `gettoken` returns for the token: `'a'` for a word. -/
def Tok.code : Tok → Char
  | .word .. => 'a'
  | .sym c .. => c

def Tok.q : Tok → Nat
  | .word q _ | .sym _ q _ => q

def Tok.eq : Tok → Nat
  | .word _ eq | .sym _ _ eq => eq

/-- The character the token starts with as far as `peek` looks: `>` for `>>`, and for a word a character that is no symbol. -/
def Tok.lead : Tok → Char
  | .word .. => 'a'
  | .sym c .. => if c = '+' then '>' else c

/-- A character of a word: neither whitespace nor a symbol. -/
def wordChar (c : Char) : Bool := decide (c ∉ whitespace ∧ c ∉ symbols)

/-- The tokens of `cs`, the part of the line from position `i` on. -/
def tokensFrom (i : Nat) (cs : List Char) : List Tok :=
  match cs with
  | [] => []
  | c :: rest =>
    if c ∈ whitespace then tokensFrom (i + 1) rest
    else if c = '>' ∧ rest.head? = some '>' then .sym '+' i (i + 2) :: tokensFrom (i + 2) rest.tail
    else if c ∈ symbols then .sym c i (i + 1) :: tokensFrom (i + 1) rest
    else
      let n := (rest.takeWhile wordChar).length
      .word i (i + n + 1) :: tokensFrom (i + n + 1) (rest.drop n)
termination_by cs.length
decreasing_by all_goals simp only [List.length_cons, List.length_tail, List.length_drop]; omega

/-- The tokens of the line from position `s` on. -/
def toks (buf : List Char) (s : Nat) : List Tok := tokensFrom s (buf.drop s)

/-- The tokens of the line. -/
def tokens (buf : List Char) : List Tok := tokensFrom 0 buf

/-- Whether the first token starts with a character of `T`: what `peek` computes. -/
def startsWith (ts : List Tok) (T : List Char) : Bool :=
  match ts with
  | t :: _ => decide (t.lead ∈ T)
  | [] => false

/-- A word of the line at `[q, eq)`: word characters up to a character that does not extend them. -/
structure IsWord (buf : List Char) (q eq : Nat) : Prop where
  nonempty : q < eq
  inside : eq ≤ buf.length
  chars : ∀ k, q ≤ k → k < eq → wordChar (charAt buf k)
  maximal : eq < buf.length → wordChar (charAt buf eq) = false

/-! ## Characters and positions -/

theorem charAt_eq_headD (buf : List Char) (q : Nat) : charAt buf q = (buf.drop q).headD '\x00' := by
  simp [charAt]

theorem charAt_of_drop {buf cs : List Char} {i k : Nat} (suffix : buf.drop i = cs) (later : i ≤ k) :
    charAt buf k = cs.getD (k - i) '\x00' := by
  rw [charAt_eq_headD, ← suffix, show k = i + (k - i) by omega, ← List.drop_drop]
  simp

theorem drop_succ_of_drop {buf rest : List Char} {q : Nat} {c : Char} (h : buf.drop q = c :: rest) :
    buf.drop (q + 1) = rest := by
  rw [← List.drop_drop, h]
  rfl

theorem headD_drop_takeWhile (p : Char → Bool) (cs : List Char) (d : Char) (stop : p d = false) :
    p ((cs.drop (cs.takeWhile p).length).headD d) = false := by
  induction cs with
  | nil => exact stop
  | cons c rest ih =>
    cases hc : p c with
    | true => rw [List.takeWhile_cons_of_pos hc, List.length_cons, List.drop_succ_cons]; exact ih
    | false => rw [List.takeWhile_cons_of_neg (by simp [hc])]; exact hc

theorem takeWhile_getD (p : Char → Bool) (cs : List Char) (d : Char) {k : Nat}
    (before : k < (cs.takeWhile p).length) : p (cs.getD k d) = true := by
  induction cs generalizing k with
  | nil => simp at before
  | cons c rest ih =>
    cases hc : p c with
    | false => rw [List.takeWhile_cons_of_neg (by simp [hc])] at before; simp at before
    | true =>
      rw [List.takeWhile_cons_of_pos hc, List.length_cons] at before
      cases k with
      | zero => exact hc
      | succ k => exact ih (by omega)

theorem drop_takeWhile_head (p : Char → Bool) (cs : List Char) {c : Char} {r : List Char}
    (after : cs.drop (cs.takeWhile p).length = c :: r) : p c = false := by
  induction cs with
  | nil => cases after
  | cons c' rest ih =>
    cases hc : p c' with
    | true => rw [List.takeWhile_cons_of_pos hc, List.length_cons, List.drop_succ_cons] at after; exact ih after
    | false => rw [List.takeWhile_cons_of_neg (by simp [hc])] at after; cases after; exact hc

/-! ## Skipping whitespace -/

theorem skipWhitespace_of_stop {buf : List Char} {s : Nat} (stop : charAt buf s ∉ whitespace) :
    skipWhitespace buf s = s := by
  rw [charAt_eq_headD] at stop
  unfold skipWhitespace
  cases h : buf.drop s with
  | nil => rfl
  | cons c rest =>
    rw [h] at stop
    rw [List.takeWhile_cons_of_neg (by simpa using stop)]
    rfl

/-- `skipWhitespace` stops at a character that is not whitespace, NUL at the end. -/
theorem skipWhitespace_stop (buf : List Char) (s : Nat) : charAt buf (skipWhitespace buf s) ∉ whitespace := by
  rw [charAt_eq_headD, skipWhitespace, ← List.drop_drop]
  simpa using headD_drop_takeWhile (fun c => decide (c ∈ whitespace)) (buf.drop s) '\x00' (by decide)

theorem skipWhitespace_idem (buf : List Char) (s : Nat) :
    skipWhitespace buf (skipWhitespace buf s) = skipWhitespace buf s :=
  skipWhitespace_of_stop (skipWhitespace_stop buf s)

theorem skipWhitespace_le {buf : List Char} {s : Nat} (inside : s ≤ buf.length) :
    skipWhitespace buf s ≤ buf.length := by
  have bound := (List.takeWhile_prefix (fun c => decide (c ∈ whitespace)) (l := buf.drop s)).length_le
  rw [List.length_drop] at bound
  unfold skipWhitespace
  omega

theorem tokensFrom_skip (i : Nat) (cs : List Char) :
    tokensFrom (i + (cs.takeWhile fun c => c ∈ whitespace).length)
      (cs.drop (cs.takeWhile fun c => c ∈ whitespace).length) = tokensFrom i cs := by
  induction cs generalizing i with
  | nil => rfl
  | cons c rest ih =>
    by_cases space : c ∈ whitespace
    · rw [List.takeWhile_cons_of_pos (by simpa using space), List.length_cons, List.drop_succ_cons,
        tokensFrom.eq_2, if_pos space, ← ih (i + 1), Nat.add_comm _ 1, Nat.add_assoc]
    · rw [List.takeWhile_cons_of_neg (by simpa using space)]
      rfl

/-- `peek` and `gettoken` skip whitespace without changing the tokens ahead. -/
theorem toks_skipWhitespace (buf : List Char) (s : Nat) : toks buf (skipWhitespace buf s) = toks buf s := by
  unfold toks skipWhitespace
  rw [← List.drop_drop]
  exact tokensFrom_skip s (buf.drop s)

/-! ## The branches of `gettoken`

Each at the position after the whitespace: the end of the line, `>>`, another
symbol, and a word. -/

theorem gettoken_end {buf : List Char} {s : Nat} (stop : charAt buf (skipWhitespace buf s) = '\x00') :
    gettoken buf s = ('\x00', skipWhitespace buf s, skipWhitespace buf s, skipWhitespace buf s) := by
  unfold gettoken
  simp only [stop]
  rw [skipWhitespace_idem]

theorem gettoken_append {buf : List Char} {s : Nat} (first : charAt buf (skipWhitespace buf s) = '>')
    (second : charAt buf (skipWhitespace buf s + 1) = '>') :
    gettoken buf s = ('+', skipWhitespace buf s, skipWhitespace buf s + 2, skipWhitespace buf (skipWhitespace buf s + 2)) := by
  unfold gettoken
  simp only [first, second, if_true]

theorem gettoken_sym {buf : List Char} {s : Nat} {c : Char} (sym : c ∈ symbols)
    (at_q : charAt buf (skipWhitespace buf s) = c)
    (single : ¬(c = '>' ∧ charAt buf (skipWhitespace buf s + 1) = '>')) :
    gettoken buf s = (c, skipWhitespace buf s, skipWhitespace buf s + 1, skipWhitespace buf (skipWhitespace buf s + 1)) := by
  unfold gettoken
  simp only [symbols, List.mem_cons, List.not_mem_nil, or_false] at sym
  rcases sym with rfl | rfl | rfl | rfl | rfl | rfl | rfl <;> simp_all

theorem gettoken_word {buf : List Char} {s : Nat} (word : wordChar (charAt buf (skipWhitespace buf s)))
    (nonnul : charAt buf (skipWhitespace buf s) ≠ '\x00') :
    gettoken buf s = ('a', skipWhitespace buf s, skipWord buf (skipWhitespace buf s),
      skipWhitespace buf (skipWord buf (skipWhitespace buf s))) := by
  unfold gettoken
  simp only [wordChar, symbols, List.mem_cons, List.not_mem_nil, or_false, decide_eq_true_eq] at word
  simp only []
  split <;> simp_all

/-! ## `gettoken` and `peek` read the tokens -/

theorem tokensFrom_ne_nil {i : Nat} {c : Char} {rest : List Char} (nonspace : c ∉ whitespace) :
    tokensFrom i (c :: rest) ≠ [] := by
  rw [tokensFrom.eq_2, if_neg nonspace]
  split_ifs <;> simp

theorem startsWith_tokensFrom {i : Nat} {c : Char} {rest : List Char} {T : List Char}
    (nonspace : c ∉ whitespace) (syms : T ⊆ symbols) :
    startsWith (tokensFrom i (c :: rest)) T = decide (c ∈ T) := by
  rw [tokensFrom.eq_2, if_neg nonspace]
  split_ifs with app sym
  · simp [startsWith, Tok.lead, app.1]
  · simp only [startsWith, Tok.lead]
    split_ifs with plus
    · exact absurd (plus ▸ sym) (by decide)
    · rfl
  · have outside : c ∉ T := fun h => sym (syms h)
    have word : 'a' ∉ T := fun h => absurd (syms h) (by decide)
    simp [startsWith, Tok.lead, outside, word]

/-- Where no token is left, the line ends after the whitespace. -/
theorem gettoken_of_toks_nil {buf : List Char} {s : Nat} (done : toks buf s = []) :
    charAt buf (skipWhitespace buf s) = '\x00' ∧ buf.length ≤ skipWhitespace buf s := by
  have stop := skipWhitespace_stop buf s
  rw [← toks_skipWhitespace] at done
  unfold toks at done
  cases hdrop : buf.drop (skipWhitespace buf s) with
  | nil => exact ⟨by rw [charAt_eq_headD, hdrop]; rfl, List.drop_eq_nil_iff.mp hdrop⟩
  | cons c rest =>
    rw [charAt_eq_headD, hdrop] at stop
    rw [hdrop] at done
    exact absurd done (tokensFrom_ne_nil stop)

/-- `peek` looks at the first token. -/
theorem peek_of_toks {buf : List Char} {s : Nat} {T : List Char} (nul : '\x00' ∉ buf) (syms : T ⊆ symbols) :
    peek buf s T = (startsWith (toks buf s) T, skipWhitespace buf s) := by
  have stop := skipWhitespace_stop buf s
  rw [← toks_skipWhitespace]
  unfold peek toks
  cases hdrop : buf.drop (skipWhitespace buf s) with
  | nil => simp [charAt_eq_headD, hdrop, tokensFrom.eq_1, startsWith]
  | cons c rest =>
    have hc : charAt buf (skipWhitespace buf s) = c := by rw [charAt_eq_headD, hdrop]; rfl
    have nonnul : c ≠ '\x00' := fun h => nul (h ▸ List.mem_of_mem_drop (hdrop ▸ List.mem_cons_self))
    rw [hc] at stop
    rw [startsWith_tokensFrom stop syms]
    simp [hc, nonnul]

/-- `gettoken` reads the first token, and the tokens after it are the rest. -/
theorem gettoken_of_toks {buf : List Char} {s : Nat} {t : Tok} {ts : List Tok}
    (nul : '\x00' ∉ buf) (next : toks buf s = t :: ts) :
    gettoken buf s = (t.code, t.q, t.eq, skipWhitespace buf t.eq) ∧ toks buf t.eq = ts := by
  have stop := skipWhitespace_stop buf s
  rw [← toks_skipWhitespace] at next
  unfold toks at next
  cases hdrop : buf.drop (skipWhitespace buf s) with
  | nil => rw [hdrop, tokensFrom.eq_1] at next; cases next
  | cons c rest =>
    have hc : charAt buf (skipWhitespace buf s) = c := by rw [charAt_eq_headD, hdrop]; rfl
    have hrest := drop_succ_of_drop hdrop
    have nonnul : c ≠ '\x00' := fun h => nul (h ▸ List.mem_of_mem_drop (hdrop ▸ List.mem_cons_self))
    rw [hc] at stop
    rw [hdrop, tokensFrom.eq_2, if_neg stop] at next
    by_cases app : c = '>' ∧ rest.head? = some '>'
    · rw [if_pos app] at next
      obtain ⟨rfl, rfl⟩ := List.cons.inj next
      have second : charAt buf (skipWhitespace buf s + 1) = '>' := by
        rw [charAt_eq_headD, hrest]
        cases rest <;> simp_all
      refine ⟨gettoken_append (hc ▸ app.1) second, ?_⟩
      show tokensFrom _ (buf.drop (skipWhitespace buf s + 1 + 1)) = _
      rw [← List.drop_drop, hrest, List.drop_one]
      rfl
    · rw [if_neg app] at next
      by_cases sym : c ∈ symbols
      · rw [if_pos sym] at next
        obtain ⟨rfl, rfl⟩ := List.cons.inj next
        have single : ¬(c = '>' ∧ charAt buf (skipWhitespace buf s + 1) = '>') := by
          rw [charAt_eq_headD, hrest]
          rintro ⟨rfl, second⟩
          exact app ⟨rfl, by cases rest <;> simp_all⟩
        refine ⟨gettoken_sym sym hc single, ?_⟩
        show tokensFrom _ (buf.drop (skipWhitespace buf s + 1)) = _
        rw [hrest]
        rfl
      · rw [if_neg sym] at next
        obtain ⟨rfl, rfl⟩ := List.cons.inj next
        have word : wordChar c := by simp [wordChar, stop, sym]
        have skip : skipWord buf (skipWhitespace buf s) =
            skipWhitespace buf s + (rest.takeWhile wordChar).length + 1 := by
          show _ + ((buf.drop _).takeWhile wordChar).length = _
          rw [hdrop, List.takeWhile_cons_of_pos word, List.length_cons, Nat.add_assoc]
        refine ⟨?_, ?_⟩
        · rw [gettoken_word (by rw [hc]; exact word) (by rw [hc]; exact nonnul), skip]
          rfl
        · show tokensFrom _ (buf.drop (skipWhitespace buf s + (rest.takeWhile wordChar).length + 1)) = _
          rw [Nat.add_right_comm, ← List.drop_drop, hrest]
          rfl

/-! ## What the tokens are -/

/-- Every token lies in the line after where the tokens start, and every word token is a word of the line. -/
theorem mem_tokensFrom {buf : List Char} {i : Nat} {cs : List Char} (suffix : buf.drop i = cs) {t : Tok}
    (mem : t ∈ tokensFrom i cs) :
    i < t.eq ∧ t.eq ≤ buf.length ∧ ∀ q eq, t = .word q eq → i ≤ q ∧ IsWord buf q eq := by
  induction i, cs using tokensFrom.induct generalizing t with
  | case1 i => simp [tokensFrom.eq_1] at mem
  | case2 i c rest space ih =>
    rw [tokensFrom.eq_2, if_pos space] at mem
    have ⟨later, inside, words⟩ := ih (drop_succ_of_drop suffix) mem
    exact ⟨by omega, inside, fun q eq h => ⟨by have := (words q eq h).1; omega, (words q eq h).2⟩⟩
  | case3 i c rest space app ih =>
    rw [tokensFrom.eq_2, if_neg space, if_pos app] at mem
    have len := congrArg List.length suffix
    have second : 1 ≤ rest.length := by
      cases rest with
      | nil => simp at app
      | cons _ _ => simp
    simp only [List.length_drop, List.length_cons] at len
    rcases List.mem_cons.mp mem with rfl | mem
    · exact ⟨by simp [Tok.eq], by simp [Tok.eq]; omega, by simp⟩
    · have shifted : buf.drop (i + 2) = rest.tail := by
        rw [show i + 2 = i + 1 + 1 from rfl, ← List.drop_drop, drop_succ_of_drop suffix, List.drop_one]
      have ⟨later, inside, words⟩ := ih shifted mem
      exact ⟨by omega, inside, fun q eq h => ⟨by have := (words q eq h).1; omega, (words q eq h).2⟩⟩
  | case4 i c rest space app sym ih =>
    rw [tokensFrom.eq_2, if_neg space, if_neg app, if_pos sym] at mem
    have len := congrArg List.length suffix
    simp only [List.length_drop, List.length_cons] at len
    rcases List.mem_cons.mp mem with rfl | mem
    · exact ⟨by simp [Tok.eq], by simp [Tok.eq]; omega, by simp⟩
    · have ⟨later, inside, words⟩ := ih (drop_succ_of_drop suffix) mem
      exact ⟨by omega, inside, fun q eq h => ⟨by have := (words q eq h).1; omega, (words q eq h).2⟩⟩
  | case5 i c rest space app sym n ih =>
    rw [tokensFrom.eq_2, if_neg space, if_neg app, if_neg sym] at mem
    have len := congrArg List.length suffix
    have run : n ≤ rest.length := (List.takeWhile_prefix wordChar).length_le
    simp only [List.length_drop, List.length_cons] at len
    have rest_suffix : buf.drop (i + n + 1) = rest.drop n := by
      rw [Nat.add_right_comm, ← List.drop_drop, drop_succ_of_drop suffix]
    rcases List.mem_cons.mp mem with rfl | mem
    · refine ⟨by simp [Tok.eq], by simp [Tok.eq]; omega, ?_⟩
      rintro q eq ⟨⟩
      refine ⟨le_refl i, ⟨by omega, by omega, ?_, ?_⟩⟩
      · intro k first last
        rw [charAt_of_drop suffix first]
        rcases Nat.eq_or_lt_of_le first with rfl | later
        · simp [wordChar, space, sym]
        · rw [show k - i = (k - i - 1) + 1 by omega, List.getD_cons_succ]
          exact takeWhile_getD wordChar rest _ (by omega)
      · intro short
        rw [charAt_of_drop suffix (by omega), show i + n + 1 - i = n + 1 by omega, List.getD_cons_succ]
        cases after : rest.drop n with
        | nil => simp at after; omega
        | cons c' r =>
          have head : rest.getD n '\x00' = c' := by
            simpa using congrArg (fun l => List.headD l '\x00') after
          rw [head]
          exact drop_takeWhile_head wordChar rest after
    · have ⟨later, inside, words⟩ := ih rest_suffix mem
      exact ⟨by omega, inside, fun q eq h => ⟨by have := (words q eq h).1; omega, (words q eq h).2⟩⟩

/-- A symbol token's code is a symbol or `'+'`. -/
theorem sym_of_mem_tokensFrom {i : Nat} {cs : List Char} {c : Char} {q eq : Nat}
    (mem : Tok.sym c q eq ∈ tokensFrom i cs) : c ∈ '+' :: symbols := by
  induction i, cs using tokensFrom.induct with
  | case1 i => simp [tokensFrom.eq_1] at mem
  | case2 i c' rest space ih =>
    rw [tokensFrom.eq_2, if_pos space] at mem
    exact ih mem
  | case3 i c' rest space app ih =>
    rw [tokensFrom.eq_2, if_neg space, if_pos app] at mem
    rcases List.mem_cons.mp mem with same | mem
    · cases same
      exact List.mem_cons_self
    · exact ih mem
  | case4 i c' rest space app sym ih =>
    rw [tokensFrom.eq_2, if_neg space, if_neg app, if_pos sym] at mem
    rcases List.mem_cons.mp mem with same | mem
    · cases same
      exact List.mem_cons_of_mem _ sym
    · exact ih mem
  | case5 i c' rest space app sym n ih =>
    rw [tokensFrom.eq_2, if_neg space, if_neg app, if_neg sym] at mem
    rcases List.mem_cons.mp mem with same | mem
    · cases same
    · exact ih mem

/-- A symbol token's code is neither the code of a word nor the end's. -/
theorem sym_code_ne {buf : List Char} {s : Nat} {c : Char} {q eq : Nat} {rest : List Tok}
    (next : toks buf s = .sym c q eq :: rest) : c ≠ 'a' ∧ c ≠ '\x00' := by
  have sym := sym_of_mem_tokensFrom (next ▸ List.mem_cons_self : Tok.sym c q eq ∈ toks buf s)
  constructor <;> (rintro rfl; exact absurd sym (by decide))

/-- A line has no more tokens than characters. -/
theorem length_tokensFrom_le (i : Nat) (cs : List Char) : (tokensFrom i cs).length ≤ cs.length := by
  induction i, cs using tokensFrom.induct with
  | case1 i => simp [tokensFrom.eq_1]
  | case2 i c rest space ih =>
    rw [tokensFrom.eq_2, if_pos space, List.length_cons]
    omega
  | case3 i c rest space app ih =>
    rw [tokensFrom.eq_2, if_neg space, if_pos app, List.length_cons, List.length_cons]
    rw [List.length_tail] at ih
    omega
  | case4 i c rest space app sym ih =>
    rw [tokensFrom.eq_2, if_neg space, if_neg app, if_pos sym, List.length_cons, List.length_cons]
    omega
  | case5 i c rest space app sym n ih =>
    rw [tokensFrom.eq_2, if_neg space, if_neg app, if_neg sym, List.length_cons, List.length_cons]
    rw [List.length_drop] at ih
    exact Nat.succ_le_succ (le_trans ih (Nat.sub_le _ _))

theorem isWord_of_mem {buf : List Char} {q eq : Nat} (mem : Tok.word q eq ∈ tokens buf) : IsWord buf q eq :=
  ((mem_tokensFrom List.drop_zero mem).2.2 q eq rfl).2

/-! ## Reading the next token -/

theorem gettoken_done {buf : List Char} {s : Nat} (done : toks buf s = []) :
    gettoken buf s = ('\x00', skipWhitespace buf s, skipWhitespace buf s, skipWhitespace buf s) :=
  gettoken_end (gettoken_of_toks_nil done).1

/-- The position `gettoken` returns is inside the line, and the tokens there are the rest. -/
theorem gettoken_next {buf : List Char} {s : Nat} {t : Tok} {ts : List Tok} (nul : '\x00' ∉ buf)
    (next : toks buf s = t :: ts) :
    gettoken buf s = (t.code, t.q, t.eq, skipWhitespace buf t.eq) ∧
      toks buf (skipWhitespace buf t.eq) = ts ∧ skipWhitespace buf t.eq ≤ buf.length := by
  have ⟨read, after⟩ := gettoken_of_toks nul next
  have inside := (mem_tokensFrom rfl (next ▸ List.mem_cons_self : t ∈ toks buf s)).2.1
  exact ⟨read, by rw [toks_skipWhitespace, after], skipWhitespace_le inside⟩

theorem toks_next {buf : List Char} {s : Nat} {t : Tok} {ts : List Tok} (nul : '\x00' ∉ buf)
    (next : toks buf s = t :: ts) : toks buf (skipWhitespace buf t.eq) = ts ∧ skipWhitespace buf t.eq ≤ buf.length :=
  (gettoken_next nul next).2

end Sh
end Xv6
