import Xv6.User.ShGrammar

/-!
# sh.c: the parser accepts exactly its grammar

Completeness: a derivation that the rest of the line may follow is what the
parse function of its nonterminal returns, given fuel `4 n + k` for the `n`
tokens ahead (`parse_complete`).  What may follow a nonterminal is what stops
its parse function: `)` after a line, also `&` and `;` after a pipe, and also
`|` after an exec (`followOf`).  Nothing follows a whole line.

Adequacy: with that fuel every error of the parser is the message of one of
sh's `panic`s, and never the model's running out of fuel (`parse_panics`).

`nulterminate` writes a NUL at the end of every word and file name of the
tree and none inside one, since a word ends before a character that no word
has (`cstr_nulterminate`).  Together (`parsecmd_accepts_grammar`): on a line
without NUL, `parsecmd` returns a tree exactly when the line derives it, each
of the tree's words and file names then reads as its word, and on a line that
derives nothing `parsecmd` panics.
-/

namespace Xv6
namespace Sh

set_option autoImplicit false

/-! ## What follows a phrase -/

/-- What may follow a phrase: nothing, or a token that starts with a character of `T`. -/
def Follows (T : List Char) (rest : List Tok) : Prop := rest = [] ∨ startsWith rest T = true

theorem startsWith_of_follows {T T' : List Char} {rest : List Tok} (follows : Follows T rest)
    (apart : ∀ c ∈ T, c ∉ T') : startsWith rest T' = false := by
  rcases follows with rfl | ahead
  · rfl
  · cases rest with
    | nil => rfl
    | cons t rest =>
      simp only [startsWith, decide_eq_true_eq, decide_eq_false_iff_not] at ahead ⊢
      exact apart _ ahead

theorem Follows.mono {T T' : List Char} {rest : List Tok} (follows : Follows T rest) (sub : T ⊆ T') :
    Follows T' rest := by
  rcases follows with rfl | ahead
  · exact .inl rfl
  · right
    cases rest with
    | nil => cases ahead
    | cons t rest =>
      simp only [startsWith, decide_eq_true_eq] at ahead ⊢
      exact sub ahead

theorem Amps.follows {T T' : List Char} {ts : List Tok} {k : Nat} {rest : List Tok} (amps : Amps ts k rest)
    (follows : Follows T rest) (amp : '&' ∈ T') (sub : T ⊆ T') : Follows T' ts := by
  cases amps with
  | nil => exact follows.mono sub
  | cons => exact .inr (by simpa [startsWith, Tok.lead] using amp)

/-- The redirections of an exec stop where its words, or what follows it, begin. -/
theorem Words.stop {ts : List Tok} {ws : List (Nat × Nat)} {rs : List Redir} {rest : List Tok}
    (words : Words ts ws rs rest) (follows : Follows ['|', ')', '&', ';'] rest) :
    startsWith ts ['<', '>'] = false := by
  cases words with
  | nil => exact startsWith_of_follows follows (by simp)
  | cons => simp [startsWith, Tok.lead]

/-- The parse function of each nonterminal. -/
def parserOf : Nt → List Char → Nat → Nat → Except String (Cmd × Nat)
  | .line => parseline
  | .pipe => parsepipe
  | .exec => parseexec

/-- What may follow each nonterminal in a line: what stops its parse function. -/
def followOf : Nt → List Char
  | .line => [')']
  | .pipe => [')', '&', ';']
  | .exec => ['|', ')', '&', ';']

/-- The fuel each parse function needs for `n` tokens ahead. -/
def fuelOf : Nt → Nat → Nat
  | .line, n => 4 * n + 4
  | .pipe, n => 4 * n + 3
  | .exec, n => 4 * n + 2

/-! ## Completeness -/

theorem parseredirs_complete {buf : List Char} (nul : '\x00' ∉ buf) {ts : List Tok} {rs : List Redir}
    {rest : List Tok} (redirs : Redirs ts rs rest) (stop : startsWith rest ['<', '>'] = false) :
    ∀ {s : Nat}, toks buf s = ts → ∀ f : Nat, ts.length + 1 ≤ f → ∀ cmd,
      ∃ s', parseredirs buf f cmd s = .ok (wrap cmd rs, s') ∧ toks buf s' = rest := by
  induction redirs with
  | nil ts =>
    intro s here f enough cmd
    obtain ⟨f, rfl⟩ : ∃ f', f = f' + 1 := ⟨f - 1, by omega⟩
    exact ⟨_, parseredirs_stop nul (here ▸ stop), by rw [toks_skipWhitespace, here]⟩
  | @cons c q eq q' eq' mode fd ts rs rest opens _ ih =>
    intro s here f enough cmd
    obtain ⟨f, rfl⟩ : ∃ f', f = f' + 1 := ⟨f - 1, by omega⟩
    obtain ⟨after, -⟩ := toks_next nul (toks_next nul here).1
    rw [parseredirs_redir nul here opens]
    simp only [List.length_cons] at enough
    exact ih stop after f (by omega) _

theorem execLoop_complete {buf : List Char} (nul : '\x00' ∉ buf) {ts : List Tok} {ws : List (Nat × Nat)}
    {rs : List Redir} {rest : List Tok} (words : Words ts ws rs rest) (follows : Follows ['|', ')', '&', ';'] rest) :
    ∀ {s : Nat}, toks buf s = ts → ∀ f : Nat, ts.length + 1 ≤ f → ∀ ret argv, (argv ++ ws).length < MAXARGS →
      ∃ s', execLoop buf f ret argv s = .ok ((wrap ret rs).withArgv (argv ++ ws), s') ∧ toks buf s' = rest := by
  induction words with
  | nil ts =>
    intro s here f enough ret argv few
    obtain ⟨f, rfl⟩ : ∃ f', f = f' + 1 := ⟨f - 1, by omega⟩
    have done : toks buf (skipWhitespace buf s) = ts := by rw [toks_skipWhitespace, here]
    rcases follows with rfl | ahead
    · exact ⟨_, by rw [execLoop_end nul here, List.append_nil]; rfl, done⟩
    · exact ⟨_, by rw [execLoop_stop nul (here ▸ ahead), List.append_nil]; rfl, done⟩
  | @cons q eq ts rs ts' ws rs' rest redirs words ih =>
    intro s here f enough ret argv few
    obtain ⟨f, rfl⟩ : ∃ f', f = f' + 1 := ⟨f - 1, by omega⟩
    have inner := redirs.suffix.length_le
    obtain ⟨after, -⟩ := toks_next nul here
    simp only [Tok.eq] at after
    simp only [List.length_cons, List.length_append] at enough few
    obtain ⟨s₁, redirected, at₁⟩ := parseredirs_complete nul redirs (words.stop follows) after f (by omega) ret
    obtain ⟨s', looped, at'⟩ := ih follows at₁ f (by omega) (wrap ret rs) (argv ++ [(q, eq)])
      (by simp only [List.length_append, List.length_cons, List.length_nil]; omega)
    refine ⟨s', ?_, at'⟩
    rw [execLoop_word nul here, if_neg (by simp only [List.length_append, List.length_cons, List.length_nil]; omega),
      redirected]
    simp only [looped, wrap_append, List.append_assoc, List.singleton_append]

theorem backLoop_complete {buf : List Char} (nul : '\x00' ∉ buf) {ts : List Tok} {k : Nat} {rest : List Tok}
    (amps : Amps ts k rest) (stop : startsWith rest ['&'] = false) :
    ∀ {s : Nat}, toks buf s = ts → ∀ f : Nat, ts.length + 1 ≤ f → ∀ cmd,
      ∃ s', backLoop buf f cmd s = .ok (Cmd.back^[k] cmd, s') ∧ toks buf s' = rest := by
  induction amps with
  | nil ts =>
    intro s here f enough cmd
    obtain ⟨f, rfl⟩ : ∃ f', f = f' + 1 := ⟨f - 1, by omega⟩
    exact ⟨_, backLoop_stop nul (here ▸ stop), by rw [toks_skipWhitespace, here]⟩
  | @cons q eq ts k rest _ ih =>
    intro s here f enough cmd
    obtain ⟨f, rfl⟩ : ∃ f', f = f' + 1 := ⟨f - 1, by omega⟩
    obtain ⟨after, -⟩ := toks_next nul here
    rw [backLoop_amp nul here]
    simp only [List.length_cons] at enough
    exact ih stop after f (by omega) _

theorem parseexec_block {buf : List Char} (nul : '\x00' ∉ buf) {q eq q' eq' : Nat} {ts ts' rest : List Tok}
    {c : Cmd} {rs : List Redir}
    (line : ∀ {s : Nat}, toks buf s = ts → ∀ f, 4 * ts.length + 4 ≤ f →
      ∃ s', parseline buf f s = .ok (c, s') ∧ toks buf s' = .sym ')' q' eq' :: ts')
    (inner : ts'.length + 1 ≤ ts.length) (redirs : Redirs ts' rs rest) (stop : startsWith rest ['<', '>'] = false) :
    ∀ {s : Nat}, toks buf s = .sym '(' q eq :: ts → ∀ f, 4 * (ts.length + 1) + 2 ≤ f →
      ∃ s', parseexec buf f s = .ok (wrap c rs, s') ∧ toks buf s' = rest := by
  intro s here f enough
  obtain ⟨f, rfl⟩ : ∃ f', f = f' + 2 := ⟨f - 2, by omega⟩
  have here' : toks buf (skipWhitespace buf s) = .sym '(' q eq :: ts := by rw [toks_skipWhitespace, here]
  obtain ⟨opened, after, -⟩ := gettoken_next nul here'
  simp only [Tok.eq] at opened after
  obtain ⟨s₁, lined, at₁⟩ := line after f (by omega)
  have at₁' : toks buf (skipWhitespace buf s₁) = .sym ')' q' eq' :: ts' := by rw [toks_skipWhitespace, at₁]
  obtain ⟨shut, after', -⟩ := gettoken_next nul at₁'
  simp only [Tok.eq] at shut after'
  obtain ⟨s', redirected, at'⟩ := parseredirs_complete nul redirs stop after' f (by omega) c
  have paren : startsWith (toks buf s) ['('] = true := by rw [here]; simp [startsWith, Tok.lead]
  have close : startsWith (toks buf s₁) [')'] = true := by rw [at₁]; simp [startsWith, Tok.lead]
  refine ⟨s', ?_, at'⟩
  simp only [parseexec, parseblock, @peek_of_toks _ _ ['('] nul (by decide), @peek_of_toks _ _ [')'] nul (by decide),
    skipWhitespace_idem, toks_skipWhitespace, paren, opened, lined, close, shut, Bool.not_true, Bool.false_eq_true,
    if_true, if_false, bind, Except.bind, redirected]

theorem parseexec_simple {buf : List Char} (nul : '\x00' ∉ buf) {ts ts' rest : List Tok} {rs rs' : List Redir}
    {ws : List (Nat × Nat)} (redirs : Redirs ts rs ts') (words : Words ts' ws rs' rest) (few : ws.length < MAXARGS)
    (follows : Follows ['|', ')', '&', ';'] rest) :
    ∀ {s : Nat}, toks buf s = ts → ∀ f, 4 * ts.length + 2 ≤ f →
      ∃ s', parseexec buf f s = .ok (wrap (.exec ws) (rs ++ rs'), s') ∧ toks buf s' = rest := by
  intro s here f enough
  obtain ⟨f, rfl⟩ : ∃ f', f = f' + 1 := ⟨f - 1, by omega⟩
  -- a simple command starts with a redirection, a word, or what follows it
  have noParen : startsWith (toks buf s) ['('] = false := by
    rw [here]
    cases redirs with
    | nil =>
      cases words with
      | nil => exact startsWith_of_follows follows (by simp)
      | cons => simp [startsWith, Tok.lead]
    | cons opens =>
      revert opens
      unfold redirMode
      split <;> simp [startsWith, Tok.lead]
  have here' : toks buf (skipWhitespace buf s) = ts := by rw [toks_skipWhitespace, here]
  have inner := redirs.suffix.length_le
  obtain ⟨s₁, redirected, at₁⟩ := parseredirs_complete nul redirs (words.stop follows) here' f (by omega) (.exec [])
  obtain ⟨s', looped, at'⟩ := execLoop_complete nul words follows at₁ f (by omega) (wrap (.exec []) rs) []
    (by simpa using few)
  refine ⟨s', ?_, at'⟩
  simp only [parseexec, @peek_of_toks _ _ ['('] nul (by decide), noParen, Bool.false_eq_true, if_false, bind,
    Except.bind, redirected, looped, withArgv_wrap, wrap_append, List.nil_append]
  rfl

theorem parsepipe_one {buf : List Char} (nul : '\x00' ∉ buf) {ts rest : List Tok} {c : Cmd}
    (exec : ∀ {s : Nat}, toks buf s = ts → ∀ f, 4 * ts.length + 2 ≤ f →
      ∃ s', parseexec buf f s = .ok (c, s') ∧ toks buf s' = rest)
    (stop : startsWith rest ['|'] = false) :
    ∀ {s : Nat}, toks buf s = ts → ∀ f, 4 * ts.length + 3 ≤ f →
      ∃ s', parsepipe buf f s = .ok (c, s') ∧ toks buf s' = rest := by
  intro s here f enough
  obtain ⟨f, rfl⟩ : ∃ f', f = f' + 1 := ⟨f - 1, by omega⟩
  obtain ⟨s₁, left, at₁⟩ := exec here f (by omega)
  refine ⟨skipWhitespace buf s₁, ?_, by rw [toks_skipWhitespace, at₁]⟩
  simp only [parsepipe, @peek_of_toks _ _ ['|'] nul (by decide), bind, Except.bind, left, at₁, stop,
    Bool.false_eq_true, if_false]
  rfl

theorem parsepipe_more {buf : List Char} (nul : '\x00' ∉ buf) {ts ts' rest : List Tok} {c c' : Cmd} {q eq : Nat}
    (exec : ∀ {s : Nat}, toks buf s = ts → ∀ f, 4 * ts.length + 2 ≤ f →
      ∃ s', parseexec buf f s = .ok (c, s') ∧ toks buf s' = .sym '|' q eq :: ts')
    (pipe : ∀ {s : Nat}, toks buf s = ts' → ∀ f, 4 * ts'.length + 3 ≤ f →
      ∃ s', parsepipe buf f s = .ok (c', s') ∧ toks buf s' = rest)
    (inner : ts'.length + 1 ≤ ts.length) :
    ∀ {s : Nat}, toks buf s = ts → ∀ f, 4 * ts.length + 3 ≤ f →
      ∃ s', parsepipe buf f s = .ok (.pipe c c', s') ∧ toks buf s' = rest := by
  intro s here f enough
  obtain ⟨f, rfl⟩ : ∃ f', f = f' + 1 := ⟨f - 1, by omega⟩
  obtain ⟨s₁, left, at₁⟩ := exec here f (by omega)
  have at₁' : toks buf (skipWhitespace buf s₁) = .sym '|' q eq :: ts' := by rw [toks_skipWhitespace, at₁]
  obtain ⟨bar, after, -⟩ := gettoken_next nul at₁'
  simp only [Tok.eq] at bar after
  obtain ⟨s', right, at'⟩ := pipe after f (by omega)
  have ahead : startsWith (toks buf s₁) ['|'] = true := by rw [at₁]; simp [startsWith, Tok.lead]
  refine ⟨s', ?_, at'⟩
  simp only [parsepipe, @peek_of_toks _ _ ['|'] nul (by decide), bind, Except.bind, left, ahead, if_true, bar,
    right]
  rfl

theorem parseline_one {buf : List Char} (nul : '\x00' ∉ buf) {ts ts' rest : List Tok} {c : Cmd} {k : Nat}
    (pipe : ∀ {s : Nat}, toks buf s = ts → ∀ f, 4 * ts.length + 3 ≤ f →
      ∃ s', parsepipe buf f s = .ok (c, s') ∧ toks buf s' = ts')
    (inner : ts'.length ≤ ts.length) (amps : Amps ts' k rest) (follows : Follows [')'] rest) :
    ∀ {s : Nat}, toks buf s = ts → ∀ f, 4 * ts.length + 4 ≤ f →
      ∃ s', parseline buf f s = .ok (Cmd.back^[k] c, s') ∧ toks buf s' = rest := by
  intro s here f enough
  obtain ⟨f, rfl⟩ : ∃ f', f = f' + 1 := ⟨f - 1, by omega⟩
  obtain ⟨s₁, left, at₁⟩ := pipe here f (by omega)
  obtain ⟨s₂, backs, at₂⟩ := backLoop_complete nul amps (startsWith_of_follows follows (by simp)) at₁ f (by omega) c
  have noSemi : startsWith (toks buf s₂) [';'] = false := by rw [at₂]; exact startsWith_of_follows follows (by simp)
  refine ⟨skipWhitespace buf s₂, ?_, by rw [toks_skipWhitespace, at₂]⟩
  simp only [parseline, @peek_of_toks _ _ [';'] nul (by decide), bind, Except.bind, left, backs, noSemi,
    Bool.false_eq_true, if_false]
  rfl

theorem parseline_more {buf : List Char} (nul : '\x00' ∉ buf) {ts ts' ts'' rest : List Tok} {c c' : Cmd}
    {k q eq : Nat}
    (pipe : ∀ {s : Nat}, toks buf s = ts → ∀ f, 4 * ts.length + 3 ≤ f →
      ∃ s', parsepipe buf f s = .ok (c, s') ∧ toks buf s' = ts')
    (inner : ts'.length ≤ ts.length) (amps : Amps ts' k (.sym ';' q eq :: ts''))
    (line : ∀ {s : Nat}, toks buf s = ts'' → ∀ f, 4 * ts''.length + 4 ≤ f →
      ∃ s', parseline buf f s = .ok (c', s') ∧ toks buf s' = rest) :
    ∀ {s : Nat}, toks buf s = ts → ∀ f, 4 * ts.length + 4 ≤ f →
      ∃ s', parseline buf f s = .ok (.list (Cmd.back^[k] c) c', s') ∧ toks buf s' = rest := by
  intro s here f enough
  obtain ⟨f, rfl⟩ : ∃ f', f = f' + 1 := ⟨f - 1, by omega⟩
  have semi := amps.suffix.length_le
  simp only [List.length_cons] at semi
  obtain ⟨s₁, left, at₁⟩ := pipe here f (by omega)
  obtain ⟨s₂, backs, at₂⟩ := backLoop_complete nul amps (by simp [startsWith, Tok.lead]) at₁ f (by omega) c
  have at₂' : toks buf (skipWhitespace buf s₂) = .sym ';' q eq :: ts'' := by rw [toks_skipWhitespace, at₂]
  obtain ⟨read, after, -⟩ := gettoken_next nul at₂'
  simp only [Tok.eq] at read after
  obtain ⟨s', right, at'⟩ := line after f (by omega)
  have ahead : startsWith (toks buf s₂) [';'] = true := by rw [at₂]; simp [startsWith, Tok.lead]
  refine ⟨s', ?_, at'⟩
  simp only [parseline, @peek_of_toks _ _ [';'] nul (by decide), bind, Except.bind, left, backs, ahead, if_true,
    read, right]
  rfl

/-- A derivation that its follower may follow is what the parse function returns, given `fuelOf` fuel. -/
theorem parse_complete {buf : List Char} (nul : '\x00' ∉ buf) {nt : Nt} {ts : List Tok} {c : Cmd}
    {rest : List Tok} (derived : Derives nt ts c rest) (follows : Follows (followOf nt) rest) :
    ∀ {s : Nat}, toks buf s = ts → ∀ f, fuelOf nt ts.length ≤ f →
      ∃ s', parserOf nt buf f s = .ok (c, s') ∧ toks buf s' = rest := by
  induction derived with
  | block line redirs ih =>
    have inner := line.suffix.length_le
    simp only [List.length_cons] at inner
    intro s
    exact parseexec_block nul (ih (.inr (by simp [startsWith, Tok.lead, followOf]))) (by omega) redirs
      (startsWith_of_follows follows (by simp [followOf]))
  | simple redirs words few => exact parseexec_simple nul redirs words few follows
  | pipe _ ih => exact parsepipe_one nul (ih (follows.mono (by simp [followOf]))) (startsWith_of_follows follows (by simp [followOf]))
  | pipeMore exec _ ih₁ ih₂ =>
    have inner := exec.suffix.length_le
    simp only [List.length_cons] at inner
    intro s
    exact parsepipe_more nul (ih₁ (.inr (by simp [startsWith, Tok.lead, followOf]))) (ih₂ follows) (by omega)
  | line pipe amps ih =>
    exact parseline_one nul (ih (amps.follows follows (by simp [followOf]) (by simp [followOf]))) pipe.suffix.length_le amps follows
  | lineMore pipe amps _ ih₁ ih₃ =>
    exact parseline_more nul (ih₁ (amps.follows (show Follows [';'] _ from .inr (by simp [startsWith, Tok.lead])) (by simp [followOf])
      (by simp [followOf])))
      pipe.suffix.length_le amps (ih₃ follows)

/-! ## Panics -/

/-- The messages of the `panic`s of the parser. -/
def panics : List String :=
  ["missing file for redirection", "syntax", "too many args", "parseblock", "syntax - missing )"]

/-- A result that is an error only through a `panic`. -/
def Panics {α : Type} (r : Except String α) : Prop := ∀ e, r = .error e → e ∈ panics

theorem Panics.ok {α : Type} (a : α) : Panics (.ok a : Except String α) := fun _ h => by cases h

theorem Panics.panic {α : Type} {e : String} (listed : e ∈ panics) : Panics (.error e : Except String α) :=
  fun _ h => by cases h; exact listed

theorem Panics.bind {α β : Type} {x : Except String α} {g : α → Except String β} (first : Panics x)
    (rest : ∀ a, x = .ok a → Panics (g a)) : Panics (x >>= g) := by
  intro e failed
  cases hx : x with
  | error e' =>
    rw [hx] at failed
    cases failed
    exact first _ hx
  | ok a =>
    rw [hx] at failed
    exact rest a hx e failed

theorem parseredirs_panics {buf : List Char} (nul : '\x00' ∉ buf) (f : Nat) :
    ∀ {cmd : Cmd} {s : Nat}, (toks buf s).length + 1 ≤ f → Panics (parseredirs buf f cmd s) := by
  induction f with
  | zero => intro _ _ enough; omega
  | succ f ih =>
    intro cmd s enough
    cases ahead : startsWith (toks buf s) ['<', '>'] with
    | false => rw [parseredirs_stop nul ahead]; exact .ok _
    | true =>
      obtain ⟨c, q, eq, ts, mode, fd, next, opens⟩ := lead_redir ahead
      cases ts with
      | nil => rw [parseredirs_missing nul next opens (by simp)]; exact .panic (by decide)
      | cons t ts =>
        cases t with
        | sym => rw [parseredirs_missing nul next opens (by simp)]; exact .panic (by decide)
        | word q' eq' =>
          rw [parseredirs_redir nul next opens]
          obtain ⟨after, -⟩ := toks_next nul (toks_next nul next).1
          simp only [Tok.eq] at after
          rw [next] at enough
          simp only [List.length_cons] at enough
          exact ih (by rw [after]; omega)

theorem backLoop_panics {buf : List Char} (nul : '\x00' ∉ buf) (f : Nat) :
    ∀ {cmd : Cmd} {s : Nat}, (toks buf s).length + 1 ≤ f → Panics (backLoop buf f cmd s) := by
  induction f with
  | zero => intro _ _ enough; omega
  | succ f ih =>
    intro cmd s enough
    cases ahead : startsWith (toks buf s) ['&'] with
    | false => rw [backLoop_stop nul ahead]; exact .ok _
    | true =>
      obtain ⟨q, eq, ts, next⟩ := lead_sym ahead (by decide) (by decide)
      rw [backLoop_amp nul next]
      obtain ⟨after, -⟩ := toks_next nul next
      simp only [Tok.eq] at after
      rw [next] at enough
      simp only [List.length_cons] at enough
      exact ih (by rw [after]; omega)

theorem execLoop_panics {buf : List Char} (nul : '\x00' ∉ buf) (f : Nat) :
    ∀ {ret : Cmd} {argv : List (Nat × Nat)} {s : Nat}, (toks buf s).length + 1 ≤ f →
      Panics (execLoop buf f ret argv s) := by
  induction f with
  | zero => intro _ _ _ enough; omega
  | succ f ih =>
    intro ret argv s enough
    cases ahead : startsWith (toks buf s) ['|', ')', '&', ';'] with
    | true => rw [execLoop_stop nul ahead]; exact .ok _
    | false =>
      cases next : toks buf s with
      | nil => rw [execLoop_end nul next]; exact .ok _
      | cons t ts =>
        rw [next] at enough
        simp only [List.length_cons] at enough
        cases t with
        | sym c q eq => rw [execLoop_stray nul next ahead]; exact .panic (by decide)
        | word q eq =>
          obtain ⟨after, -⟩ := toks_next nul next
          simp only [Tok.eq] at after
          rw [execLoop_word nul next]
          split_ifs
          · exact .panic (by decide)
          · cases redirected : parseredirs buf f ret (skipWhitespace buf eq) with
            | error e => exact .panic (parseredirs_panics nul f (by rw [after]; omega) e redirected)
            | ok r =>
              obtain ⟨ret', s₁⟩ := r
              obtain ⟨-, rs, redirs, -⟩ := parseredirs_sound nul f redirected
              have shorter := redirs.suffix.length_le
              rw [after] at shorter
              exact ih (by omega)

/-- With `bound` fuel for the tokens ahead, `parse` fails only through a `panic`. -/
def Adequate (buf : List Char) (f : Nat) (bound : Nat → Nat) (parse : Nat → Except String (Cmd × Nat)) : Prop :=
  ∀ {s : Nat}, bound (toks buf s).length ≤ f → Panics (parse s)

theorem parseexec_panics_step {buf : List Char} {f : Nat} (nul : '\x00' ∉ buf)
    (block : Adequate buf f (fun n => 4 * n + 1) (parseblock buf f)) :
    Adequate buf (f + 1) (fun n => 4 * n + 2) (parseexec buf (f + 1)) := by
  intro s enough
  dsimp only at enough
  rw [parseexec, peek_of_toks nul (by decide)]
  cases paren : startsWith (toks buf s) ['('] with
  | true => exact block (by dsimp only; rw [toks_skipWhitespace]; omega)
  | false =>
    refine Panics.bind (parseredirs_panics nul f (by rw [toks_skipWhitespace]; omega)) ?_
    rintro ⟨ret, s₁⟩ redirected
    obtain ⟨-, rs, redirs, -⟩ := parseredirs_sound nul f redirected
    have shorter := redirs.suffix.length_le
    rw [toks_skipWhitespace] at shorter
    exact execLoop_panics nul f (by omega)

theorem parseblock_panics_step {buf : List Char} {f : Nat} (nul : '\x00' ∉ buf)
    (line : Adequate buf f (fun n => 4 * n + 4) (parseline buf f)) :
    Adequate buf (f + 1) (fun n => 4 * n + 1) (parseblock buf (f + 1)) := by
  intro s enough
  dsimp only at enough
  simp only [parseblock, @peek_of_toks _ _ ['('] nul (by decide), @peek_of_toks _ _ [')'] nul (by decide)]
  cases paren : startsWith (toks buf s) ['('] with
  | false => exact Panics.bind (.panic (by decide)) (fun _ h => by cases h)
  | true =>
    obtain ⟨q, eq, ts, next⟩ := lead_sym paren (by decide) (by decide)
    have next' : toks buf (skipWhitespace buf s) = .sym '(' q eq :: ts := by rw [toks_skipWhitespace, next]
    obtain ⟨opened, after, -⟩ := gettoken_next nul next'
    simp only [Tok.eq] at opened after
    simp only [opened, Bool.not_true, Bool.false_eq_true, if_false]
    rw [next, List.length_cons] at enough
    refine Panics.bind (line (by dsimp only; rw [after]; omega)) ?_
    rintro ⟨c, s₁⟩ lined
    obtain ⟨-, derived⟩ := (parse_sound nul f).1 lined
    have shorter := derived.suffix.length_le
    rw [after] at shorter
    cases close : startsWith (toks buf s₁) [')'] with
    | false => exact Panics.bind (.panic (by decide)) (fun _ h => by cases h)
    | true =>
      obtain ⟨q', eq', ts', closed⟩ := lead_sym close (by decide) (by decide)
      have closed' : toks buf (skipWhitespace buf s₁) = .sym ')' q' eq' :: ts' := by rw [toks_skipWhitespace, closed]
      obtain ⟨shut, after', -⟩ := gettoken_next nul closed'
      simp only [Tok.eq] at shut after'
      simp only [shut, Bool.not_true, Bool.false_eq_true, if_false]
      rw [closed, List.length_cons] at shorter
      exact parseredirs_panics nul f (by rw [after']; omega)

theorem parsepipe_panics_step {buf : List Char} {f : Nat} (nul : '\x00' ∉ buf)
    (exec : Adequate buf f (fun n => 4 * n + 2) (parseexec buf f))
    (pipe : Adequate buf f (fun n => 4 * n + 3) (parsepipe buf f)) :
    Adequate buf (f + 1) (fun n => 4 * n + 3) (parsepipe buf (f + 1)) := by
  intro s enough
  dsimp only at enough
  simp only [parsepipe, @peek_of_toks _ _ ['|'] nul (by decide)]
  refine Panics.bind (exec (by dsimp only; omega)) ?_
  rintro ⟨c, s₁⟩ left
  obtain ⟨-, derived⟩ := (parse_sound nul f).2.2.2 left
  have shorter := derived.suffix.length_le
  cases bar : startsWith (toks buf s₁) ['|'] with
  | false => exact .ok _
  | true =>
    obtain ⟨q, eq, ts, next⟩ := lead_sym bar (by decide) (by decide)
    have next' : toks buf (skipWhitespace buf s₁) = .sym '|' q eq :: ts := by rw [toks_skipWhitespace, next]
    obtain ⟨read, after, -⟩ := gettoken_next nul next'
    simp only [Tok.eq] at read after
    simp only [read, if_true]
    rw [next, List.length_cons] at shorter
    exact Panics.bind (pipe (by dsimp only; rw [after]; omega)) (fun _ _ => .ok _)

theorem parseline_panics_step {buf : List Char} {f : Nat} (nul : '\x00' ∉ buf)
    (pipe : Adequate buf f (fun n => 4 * n + 3) (parsepipe buf f))
    (line : Adequate buf f (fun n => 4 * n + 4) (parseline buf f)) :
    Adequate buf (f + 1) (fun n => 4 * n + 4) (parseline buf (f + 1)) := by
  intro s enough
  dsimp only at enough
  simp only [parseline, @peek_of_toks _ _ [';'] nul (by decide)]
  refine Panics.bind (pipe (by dsimp only; omega)) ?_
  rintro ⟨c, s₁⟩ left
  obtain ⟨-, derived⟩ := (parse_sound nul f).2.1 left
  have shorter₁ := derived.suffix.length_le
  refine Panics.bind (backLoop_panics nul f (by dsimp only; omega)) ?_
  rintro ⟨c₂, s₂⟩ backs
  dsimp only at backs
  obtain ⟨-, k, amps, -⟩ := backLoop_sound nul f backs
  have shorter₂ := amps.suffix.length_le
  cases semi : startsWith (toks buf s₂) [';'] with
  | false => exact .ok _
  | true =>
    obtain ⟨q, eq, ts, next⟩ := lead_sym semi (by decide) (by decide)
    have next' : toks buf (skipWhitespace buf s₂) = .sym ';' q eq :: ts := by rw [toks_skipWhitespace, next]
    obtain ⟨read, after, -⟩ := gettoken_next nul next'
    simp only [Tok.eq] at read after
    simp only [read, if_true]
    rw [next, List.length_cons] at shorter₂
    exact Panics.bind (line (by dsimp only; rw [after]; omega)) (fun _ _ => .ok _)

/-- With enough fuel the parser never runs out of it. -/
theorem parse_panics {buf : List Char} (nul : '\x00' ∉ buf) (f : Nat) :
    Adequate buf f (fun n => 4 * n + 4) (parseline buf f) ∧ Adequate buf f (fun n => 4 * n + 3) (parsepipe buf f) ∧
      Adequate buf f (fun n => 4 * n + 1) (parseblock buf f) ∧
      Adequate buf f (fun n => 4 * n + 2) (parseexec buf f) := by
  induction f with
  | zero => refine ⟨?_, ?_, ?_, ?_⟩ <;> intro s enough <;> dsimp only at enough <;> omega
  | succ f ih =>
    obtain ⟨line, pipe, block, exec⟩ := ih
    exact ⟨parseline_panics_step nul pipe line, parsepipe_panics_step nul exec pipe,
      parseblock_panics_step nul line, parseexec_panics_step nul block⟩

/-! ## nulterminate -/

/-- The words and file names of a command tree, as positions in the line. -/
def Cmd.words : Cmd → List (Nat × Nat)
  | .exec argv => argv
  | .redir cmd file efile _ _ => cmd.words ++ [(file, efile)]
  | .pipe left right => left.words ++ right.words
  | .list left right => left.words ++ right.words
  | .back cmd => cmd.words

theorem getD_set_nul (buf : List Char) (i k : Nat) :
    (buf.set i '\x00').getD k '\x00' = if i = k then '\x00' else buf.getD k '\x00' := by
  simp only [List.getD_eq_getElem?_getD, List.getElem?_set]
  split_ifs <;> simp_all

theorem nulterminate_getD_of_nul {cmd : Cmd} {buf : List Char} {k : Nat} (nul : buf.getD k '\x00' = '\x00') :
    (nulterminate cmd buf).getD k '\x00' = '\x00' := by
  induction cmd generalizing buf with
  | exec argv =>
    induction argv generalizing buf with
    | nil => exact nul
    | cons w argv ih =>
      refine ih ?_
      rw [getD_set_nul]
      split_ifs
      · rfl
      · exact nul
  | redir cmd file efile mode fd ih =>
    rw [nulterminate, getD_set_nul]
    split_ifs
    · rfl
    · exact ih nul
  | pipe left right ihl ihr => exact ihr (ihl nul)
  | list left right ihl ihr => exact ihr (ihl nul)
  | back cmd ih => exact ih nul

/-- `nulterminate` writes a NUL at the end of every word and file name. -/
theorem nulterminate_getD_of_mem {cmd : Cmd} {buf : List Char} {w : Nat × Nat} (mem : w ∈ cmd.words) :
    (nulterminate cmd buf).getD w.2 '\x00' = '\x00' := by
  induction cmd generalizing buf with
  | exec argv =>
    induction argv generalizing buf with
    | nil => cases mem
    | cons w' argv ih =>
      rcases List.mem_cons.mp mem with rfl | mem
      · exact @nulterminate_getD_of_nul (.exec argv) _ _ (by rw [getD_set_nul, if_pos rfl])
      · exact ih mem
  | redir cmd file efile mode fd ih =>
    rw [nulterminate, getD_set_nul]
    rcases List.mem_append.mp mem with mem | last
    · split_ifs
      · rfl
      · exact ih mem
    · rw [List.mem_singleton] at last
      rw [if_pos (by rw [last])]
  | pipe left right ihl ihr =>
    rw [nulterminate]
    rcases List.mem_append.mp mem with mem | mem
    · exact nulterminate_getD_of_nul (ihl mem)
    · exact ihr mem
  | list left right ihl ihr =>
    rw [nulterminate]
    rcases List.mem_append.mp mem with mem | mem
    · exact nulterminate_getD_of_nul (ihl mem)
    · exact ihr mem
  | back cmd ih => exact ih mem

/-- `nulterminate` writes nowhere else. -/
theorem nulterminate_getD_of_not_mem {cmd : Cmd} {buf : List Char} {k : Nat} (kept : ∀ w ∈ cmd.words, w.2 ≠ k) :
    (nulterminate cmd buf).getD k '\x00' = buf.getD k '\x00' := by
  induction cmd generalizing buf with
  | exec argv =>
    induction argv generalizing buf with
    | nil => rfl
    | cons w argv ih =>
      have rest := @ih (buf.set w.2 '\x00') (fun w' mem => kept w' (List.mem_cons_of_mem _ mem))
      rw [getD_set_nul, if_neg (kept w List.mem_cons_self)] at rest
      exact rest
  | redir cmd file efile mode fd ih =>
    rw [nulterminate, getD_set_nul, if_neg (kept (file, efile) (List.mem_append_right _ (List.mem_singleton_self _))),
      ih (fun w mem => kept w (List.mem_append_left _ mem))]
  | pipe left right ihl ihr =>
    rw [nulterminate, ihr (fun w mem => kept w (List.mem_append_right _ mem)),
      ihl (fun w mem => kept w (List.mem_append_left _ mem))]
  | list left right ihl ihr =>
    rw [nulterminate, ihr (fun w mem => kept w (List.mem_append_right _ mem)),
      ihl (fun w mem => kept w (List.mem_append_left _ mem))]
  | back cmd ih => exact ih kept

theorem nulterminate_length (cmd : Cmd) (buf : List Char) : (nulterminate cmd buf).length = buf.length := by
  induction cmd generalizing buf with
  | exec argv =>
    simp only [nulterminate]
    induction argv generalizing buf with
    | nil => rfl
    | cons w argv ih => rw [List.foldl_cons, ih, List.length_set]
  | redir cmd file efile mode fd ih => rw [nulterminate, List.length_set, ih]
  | pipe left right ihl ihr => rw [nulterminate, ihr, ihl]
  | list left right ihl ihr => rw [nulterminate, ihr, ihl]
  | back cmd ih => rw [nulterminate, ih]

/-- The C string at `q` is the line's `[q, eq)` when the first NUL after `q` is at `eq`. -/
theorem cstr_eq_take {buf buf' : List Char} {q eq : Nat} (before : q ≤ eq) (inside : eq ≤ buf'.length)
    (same : ∀ k, q ≤ k → k < eq → buf'.getD k '\x00' = buf.getD k '\x00' ∧ buf.getD k '\x00' ≠ '\x00')
    (stop : buf'.getD eq '\x00' = '\x00') :
    cstr buf' q = (buf.drop q).take (eq - q) := by
  induction h : eq - q generalizing q with
  | zero =>
    obtain rfl : q = eq := by omega
    unfold cstr
    rw [List.take_zero]
    cases hd : buf'.drop q with
    | nil => rfl
    | cons c rest =>
      have head : c = '\x00' := by
        have read : (buf'.drop q).headD '\x00' = buf'.getD q '\x00' := by simp
        rw [hd, List.headD_cons] at read
        rw [read, stop]
      simp [head]
  | succ n ih =>
    have lt : q < eq := by omega
    obtain ⟨agree, nonnul⟩ := same q le_rfl lt
    have inBuf : q < buf.length := by
      by_contra out
      exact nonnul (List.getD_eq_default _ _ (by omega))
    rw [List.getD_eq_getElem _ _ (by omega), List.getD_eq_getElem _ _ inBuf] at agree
    rw [List.getD_eq_getElem _ _ inBuf] at nonnul
    have tail := @ih (q + 1) (by omega) (fun k first last => same k (by omega) last) (by omega)
    unfold cstr at tail ⊢
    rw [List.drop_eq_getElem_cons (by omega : q < buf'.length), List.drop_eq_getElem_cons inBuf,
      List.takeWhile_cons_of_pos (by simpa [agree] using nonnul), tail, agree, List.take_succ_cons]

theorem wrap_words (cmd : Cmd) (rs : List Redir) :
    (wrap cmd rs).words = cmd.words ++ rs.map fun r => (r.file, r.efile) := by
  induction rs generalizing cmd with
  | nil => simp [wrap]
  | cons r rs ih =>
    rw [show wrap cmd (r :: rs) = wrap (.redir cmd r.file r.efile r.mode r.fd) rs from rfl, ih]
    simp [Cmd.words]

theorem back_iterate_words (k : Nat) (cmd : Cmd) : (Cmd.back^[k] cmd).words = cmd.words := by
  induction k generalizing cmd with
  | zero => rfl
  | succ k ih => rw [Function.iterate_succ_apply, ih]; rfl

theorem Redirs.files_mem {ts : List Tok} {rs : List Redir} {rest : List Tok} (redirs : Redirs ts rs rest) :
    ∀ r ∈ rs, Tok.word r.file r.efile ∈ ts := by
  induction redirs with
  | nil => intro r mem; cases mem
  | cons _ _ ih =>
    intro r mem
    rcases List.mem_cons.mp mem with rfl | mem
    · exact List.mem_cons_of_mem _ List.mem_cons_self
    · exact List.mem_cons_of_mem _ (List.mem_cons_of_mem _ (ih r mem))

theorem Words.words_mem {ts : List Tok} {ws : List (Nat × Nat)} {rs : List Redir} {rest : List Tok}
    (words : Words ts ws rs rest) : (∀ w ∈ ws, Tok.word w.1 w.2 ∈ ts) ∧ ∀ r ∈ rs, Tok.word r.file r.efile ∈ ts := by
  induction words with
  | nil => constructor <;> intro _ mem <;> cases mem
  | cons redirs _ ih =>
    constructor
    · intro w mem
      rcases List.mem_cons.mp mem with rfl | mem
      · exact List.mem_cons_self
      · exact List.mem_cons_of_mem _ (redirs.suffix.subset (ih.1 w mem))
    · intro r mem
      rcases List.mem_append.mp mem with mem | mem
      · exact List.mem_cons_of_mem _ (redirs.files_mem r mem)
      · exact List.mem_cons_of_mem _ (redirs.suffix.subset (ih.2 r mem))

/-- The words and file names of a derived tree are word tokens of the phrase. -/
theorem Derives.words_mem {nt : Nt} {ts : List Tok} {c : Cmd} {rest : List Tok} (derived : Derives nt ts c rest) :
    ∀ w ∈ c.words, Tok.word w.1 w.2 ∈ ts := by
  induction derived with
  | block line redirs ih =>
    intro w mem
    rw [wrap_words, List.mem_append] at mem
    rcases mem with mem | mem
    · exact List.mem_cons_of_mem _ (ih w mem)
    · obtain ⟨r, inRs, rfl⟩ := List.mem_map.mp mem
      exact List.mem_cons_of_mem _ (line.suffix.subset (List.mem_cons_of_mem _ (redirs.files_mem r inRs)))
  | simple redirs words _ =>
    intro w mem
    rw [wrap_words, List.mem_append] at mem
    rcases mem with mem | mem
    · exact redirs.suffix.subset (words.words_mem.1 w mem)
    · obtain ⟨r, inRs, rfl⟩ := List.mem_map.mp mem
      rcases List.mem_append.mp inRs with inRs | inRs
      · exact redirs.files_mem r inRs
      · exact redirs.suffix.subset (words.words_mem.2 r inRs)
  | pipe _ ih => exact ih
  | pipeMore exec _ ih₁ ih₂ =>
    intro w mem
    rcases List.mem_append.mp mem with mem | mem
    · exact ih₁ w mem
    · exact exec.suffix.subset (List.mem_cons_of_mem _ (ih₂ w mem))
  | line _ _ ih =>
    intro w mem
    rw [back_iterate_words] at mem
    exact ih w mem
  | lineMore pipe amps _ ih₁ ih₃ =>
    intro w mem
    rcases List.mem_append.mp mem with mem | mem
    · rw [back_iterate_words] at mem
      exact ih₁ w mem
    · exact pipe.suffix.subset (amps.suffix.subset (List.mem_cons_of_mem _ (ih₃ w mem)))

/-- After `nulterminate`, each word and file name of a tree of words of the line reads as its word. -/
theorem cstr_nulterminate {buf : List Char} {cmd : Cmd} (nul : '\x00' ∉ buf)
    (words : ∀ w ∈ cmd.words, IsWord buf w.1 w.2) :
    ∀ w ∈ cmd.words, cstr (nulterminate cmd buf) w.1 = (buf.drop w.1).take (w.2 - w.1) := by
  intro w mem
  have word := words w mem
  refine cstr_eq_take (le_of_lt word.nonempty) (by rw [nulterminate_length]; exact word.inside) ?_
    (nulterminate_getD_of_mem mem)
  intro k first last
  have inBuf : k < buf.length := by have := word.inside; omega
  -- no word ends inside another: a word ends before a character that is not a word's
  have kept : ∀ w' ∈ cmd.words, w'.2 ≠ k := by
    rintro w' mem' rfl
    have inner := word.chars w'.2 first last
    rw [(words w' mem').maximal inBuf] at inner
    cases inner
  refine ⟨nulterminate_getD_of_not_mem kept, ?_⟩
  rw [List.getD_eq_getElem _ _ inBuf]
  exact fun isNul => nul (isNul ▸ List.getElem_mem inBuf)

/-! ## parsecmd -/

theorem parsecmd_eq (buf : List Char) :
    parsecmd buf = (parseline buf (4 * buf.length + 4) 0).bind fun r =>
      if skipWhitespace buf r.2 ≠ buf.length then .error "syntax" else .ok (r.1, nulterminate r.1 buf) := rfl

theorem skipWhitespace_eq_length {buf : List Char} {s : Nat} (inside : s ≤ buf.length) :
    skipWhitespace buf s = buf.length ↔ toks buf s = [] := by
  constructor
  · intro at_end
    rw [← toks_skipWhitespace, at_end, toks, List.drop_length, tokensFrom.eq_1]
  · intro done
    have := (gettoken_of_toks_nil done).2
    have := skipWhitespace_le inside
    omega

theorem parsecmd_sound {buf : List Char} (nul : '\x00' ∉ buf) {cmd : Cmd} {buf' : List Char}
    (parsed : parsecmd buf = .ok (cmd, buf')) : Derives .line (tokens buf) cmd [] ∧ buf' = nulterminate cmd buf := by
  rw [parsecmd_eq] at parsed
  cases lined : parseline buf (4 * buf.length + 4) 0 with
  | error e => rw [lined] at parsed; cases parsed
  | ok r =>
    obtain ⟨c, s⟩ := r
    rw [lined] at parsed
    simp only [Except.bind] at parsed
    split_ifs at parsed with notEnd
    cases parsed
    obtain ⟨bound, derived⟩ := (parse_sound nul _).1 lined
    have done := (skipWhitespace_eq_length (bound (Nat.zero_le _))).mp (not_not.mp notEnd)
    rw [done] at derived
    exact ⟨derived, rfl⟩

theorem parsecmd_complete {buf : List Char} (nul : '\x00' ∉ buf) {cmd : Cmd}
    (derived : Derives .line (tokens buf) cmd []) : parsecmd buf = .ok (cmd, nulterminate cmd buf) := by
  have few := length_tokensFrom_le 0 buf
  obtain ⟨s, lined, done⟩ := parse_complete nul derived (.inl rfl) (show toks buf 0 = tokens buf from rfl)
    (4 * buf.length + 4) (by simp only [fuelOf, tokens]; omega)
  have lined : parseline buf (4 * buf.length + 4) 0 = .ok (cmd, s) := lined
  have atEnd := (skipWhitespace_eq_length (((parse_sound nul _).1 lined).1 (Nat.zero_le _))).mpr done
  rw [parsecmd_eq, lined]
  simp only [Except.bind, atEnd, ne_eq, not_true_eq_false, if_false]

theorem parsecmd_panics {buf : List Char} (nul : '\x00' ∉ buf)
    (underivable : ∀ cmd, ¬ Derives .line (tokens buf) cmd []) : ∃ e ∈ panics, parsecmd buf = .error e := by
  have few := length_tokensFrom_le 0 buf
  cases lined : parseline buf (4 * buf.length + 4) 0 with
  | error e =>
    refine ⟨e, (parse_panics nul _).1 (show 4 * (toks buf 0).length + 4 ≤ 4 * buf.length + 4 by
      rw [show toks buf 0 = tokensFrom 0 buf from rfl]; omega) e lined, ?_⟩
    rw [parsecmd_eq, lined]
    rfl
  | ok r =>
    obtain ⟨c, s⟩ := r
    by_cases atEnd : skipWhitespace buf s = buf.length
    · have parsed : parsecmd buf = .ok (c, nulterminate c buf) := by
        rw [parsecmd_eq, lined]
        simp only [Except.bind, atEnd, ne_eq, not_true_eq_false, if_false]
      exact absurd (parsecmd_sound nul parsed).1 (underivable c)
    · refine ⟨"syntax", by decide, ?_⟩
      rw [parsecmd_eq, lined]
      simp only [Except.bind, atEnd, ne_eq, not_false_eq_true, if_true]

/-- The parser accepts exactly its grammar.  On a line without NUL, `parsecmd` returns a tree exactly when the line's tokens derive it as a line; each word and file name of the tree then reads as its word; and when the tokens derive no line, `parsecmd` panics. -/
theorem parsecmd_accepts_grammar (buf : List Char) (nul : '\x00' ∉ buf) :
    (∀ cmd, (∃ buf', parsecmd buf = .ok (cmd, buf')) ↔ Derives .line (tokens buf) cmd []) ∧
      (∀ cmd buf', parsecmd buf = .ok (cmd, buf') →
        ∀ w ∈ cmd.words, cstr buf' w.1 = (buf.drop w.1).take (w.2 - w.1)) ∧
      ((∀ cmd, ¬ Derives .line (tokens buf) cmd []) → ∃ e ∈ panics, parsecmd buf = .error e) := by
  refine ⟨fun cmd => ⟨?_, fun derived => ⟨_, parsecmd_complete nul derived⟩⟩, ?_, parsecmd_panics nul⟩
  · rintro ⟨buf', parsed⟩
    exact (parsecmd_sound nul parsed).1
  · intro cmd buf' parsed
    obtain ⟨derived, rfl⟩ := parsecmd_sound nul parsed
    exact cstr_nulterminate nul fun w mem => isWord_of_mem (derived.words_mem w mem)

/-- The line `a>f`: one command with its output redirected to `f`. -/
theorem parsecmd_accepts_grammar_redir :
    '\x00' ∉ ['a', '>', 'f'] ∧
      Derives .line (tokens ['a', '>', 'f']) (.redir (.exec [(0, 1)]) 2 3 (O_WRONLY ||| O_CREATE ||| O_TRUNC) 1) [] :=
  ⟨by decide, ((parsecmd_accepts_grammar ['a', '>', 'f'] (by decide)).1 _).mp ⟨['a', '\x00', 'f'], by decide⟩⟩

end Sh
end Xv6
