import Xv6.User.ShLex

/-!
# sh.c: the grammar of a command line

sh's grammar over the tokens of `ShLex`, as relations that read a phrase from
the front of a list of tokens and leave the rest:

    line   ::= pipe {'&'} [';' line]
    pipe   ::= exec ['|' pipe]
    exec   ::= '(' line ')' redirs | redirs {word redirs}
    redirs ::= {('<' | '>' | '>>') word}

with at most `MAXARGS - 1` words in an exec.  A derivation carries the
command tree it builds: BACK, LIST and PIPE nodes, and the redirections
wrapped round the command in the order of the line, the first innermost, each
with the mode and descriptor `redirMode` gives it.

Each step of `parseredirs`, `execLoop` and `backLoop` is read off the tokens
(`parseredirs_redir`, `execLoop_word`, ...), and whatever `parseline`,
`parsepipe`, `parseblock` and `parseexec` return, at any fuel, is a derivation
from the tokens where they start to those where they stop (`parse_sound`).
-/

namespace Xv6
namespace Sh

set_option autoImplicit false

/-! ## The grammar -/

/-- A redirection: the word of its file, and the mode and descriptor the file is opened with. -/
structure Redir where
  file : Nat
  efile : Nat
  mode : Nat
  fd : Nat

/-- `cmd` inside the redirections `rs`, the first innermost. -/
def wrap (cmd : Cmd) (rs : List Redir) : Cmd :=
  rs.foldl (fun cmd r => .redir cmd r.file r.efile r.mode r.fd) cmd

/-- The mode and descriptor of `<`, `>` and `>>` (code `'+'`). -/
def redirMode : Char → Option (Nat × Nat)
  | '<' => some (O_RDONLY, 0)
  | '>' => some (O_WRONLY ||| O_CREATE ||| O_TRUNC, 1)
  | '+' => some (O_WRONLY ||| O_CREATE, 1)
  | _ => none

/-- `redirs ::= {('<' | '>' | '>>') word}`: the redirections at the front of `ts`, and the tokens after them. -/
inductive Redirs : List Tok → List Redir → List Tok → Prop
  | nil (ts : List Tok) : Redirs ts [] ts
  | cons {c : Char} {q eq q' eq' mode fd : Nat} {ts : List Tok} {rs : List Redir} {rest : List Tok} :
      redirMode c = some (mode, fd) → Redirs ts rs rest →
      Redirs (.sym c q eq :: .word q' eq' :: ts) (⟨q', eq', mode, fd⟩ :: rs) rest

/-- `{word redirs}`: the words of an exec and the redirections among them. -/
inductive Words : List Tok → List (Nat × Nat) → List Redir → List Tok → Prop
  | nil (ts : List Tok) : Words ts [] [] ts
  | cons {q eq : Nat} {ts : List Tok} {rs : List Redir} {ts' : List Tok} {ws : List (Nat × Nat)}
      {rs' : List Redir} {rest : List Tok} :
      Redirs ts rs ts' → Words ts' ws rs' rest → Words (.word q eq :: ts) ((q, eq) :: ws) (rs ++ rs') rest

/-- `{'&'}`: `k` ampersands at the front of `ts`. -/
inductive Amps : List Tok → Nat → List Tok → Prop
  | nil (ts : List Tok) : Amps ts 0 ts
  | cons {q eq : Nat} {ts : List Tok} {k : Nat} {rest : List Tok} :
      Amps ts k rest → Amps (.sym '&' q eq :: ts) (k + 1) rest

/-- The nonterminals that build a command. -/
inductive Nt where
  | line
  | pipe
  | exec
  deriving DecidableEq, Repr

/-- `Derives nt ts c rest`: `ts` starts with a phrase of `nt` that builds `c`, and `rest` follows it. -/
inductive Derives : Nt → List Tok → Cmd → List Tok → Prop
  /-- `exec ::= '(' line ')' redirs` -/
  | block {q eq q' eq' : Nat} {ts : List Tok} {c : Cmd} {ts' : List Tok} {rs : List Redir} {rest : List Tok} :
      Derives .line ts c (.sym ')' q' eq' :: ts') → Redirs ts' rs rest →
      Derives .exec (.sym '(' q eq :: ts) (wrap c rs) rest
  /-- `exec ::= redirs {word redirs}`, with fewer than `MAXARGS` words -/
  | simple {ts : List Tok} {rs : List Redir} {ts' : List Tok} {ws : List (Nat × Nat)} {rs' : List Redir}
      {rest : List Tok} :
      Redirs ts rs ts' → Words ts' ws rs' rest → ws.length < MAXARGS →
      Derives .exec ts (wrap (.exec ws) (rs ++ rs')) rest
  /-- `pipe ::= exec` -/
  | pipe {ts : List Tok} {c : Cmd} {rest : List Tok} :
      Derives .exec ts c rest → Derives .pipe ts c rest
  /-- `pipe ::= exec '|' pipe` -/
  | pipeMore {ts : List Tok} {c : Cmd} {q eq : Nat} {ts' : List Tok} {c' : Cmd} {rest : List Tok} :
      Derives .exec ts c (.sym '|' q eq :: ts') → Derives .pipe ts' c' rest → Derives .pipe ts (.pipe c c') rest
  /-- `line ::= pipe {'&'}` -/
  | line {ts : List Tok} {c : Cmd} {ts' : List Tok} {k : Nat} {rest : List Tok} :
      Derives .pipe ts c ts' → Amps ts' k rest → Derives .line ts (Cmd.back^[k] c) rest
  /-- `line ::= pipe {'&'} ';' line` -/
  | lineMore {ts : List Tok} {c : Cmd} {ts' : List Tok} {k q eq : Nat} {ts'' : List Tok} {c' : Cmd}
      {rest : List Tok} :
      Derives .pipe ts c ts' → Amps ts' k (.sym ';' q eq :: ts'') → Derives .line ts'' c' rest →
      Derives .line ts (.list (Cmd.back^[k] c) c') rest

theorem Redirs.suffix {ts : List Tok} {rs : List Redir} {rest : List Tok} (redirs : Redirs ts rs rest) :
    rest <:+ ts := by
  induction redirs with
  | nil => exact List.suffix_refl _
  | cons _ _ ih => exact ih.trans ((List.suffix_cons _ _).trans (List.suffix_cons _ _))

theorem Words.suffix {ts : List Tok} {ws : List (Nat × Nat)} {rs : List Redir} {rest : List Tok}
    (words : Words ts ws rs rest) : rest <:+ ts := by
  induction words with
  | nil => exact List.suffix_refl _
  | cons redirs _ ih => exact ih.trans (redirs.suffix.trans (List.suffix_cons _ _))

theorem Amps.suffix {ts : List Tok} {k : Nat} {rest : List Tok} (amps : Amps ts k rest) : rest <:+ ts := by
  induction amps with
  | nil => exact List.suffix_refl _
  | cons _ ih => exact ih.trans (List.suffix_cons _ _)

/-- A derivation reads a prefix of the tokens. -/
theorem Derives.suffix {nt : Nt} {ts : List Tok} {c : Cmd} {rest : List Tok} (derived : Derives nt ts c rest) :
    rest <:+ ts := by
  induction derived with
  | block _ redirs ih => exact redirs.suffix.trans ((List.suffix_cons _ _).trans (ih.trans (List.suffix_cons _ _)))
  | simple redirs words _ => exact words.suffix.trans redirs.suffix
  | pipe _ ih => exact ih
  | pipeMore _ _ ih₁ ih₂ => exact ih₂.trans ((List.suffix_cons _ _).trans ih₁)
  | line _ amps ih => exact amps.suffix.trans ih
  | lineMore _ amps _ ih₁ ih₃ => exact ih₃.trans ((List.suffix_cons _ _).trans (amps.suffix.trans ih₁))

/-! ## The commands a derivation builds -/

theorem wrap_append (cmd : Cmd) (rs rs' : List Redir) : wrap cmd (rs ++ rs') = wrap (wrap cmd rs) rs' :=
  List.foldl_append

/-- `parseexec` gives the words to the command inside the redirections. -/
theorem withArgv_wrap (cmd : Cmd) (rs : List Redir) (argv : List (Nat × Nat)) :
    (wrap cmd rs).withArgv argv = wrap (cmd.withArgv argv) rs := by
  induction rs generalizing cmd with
  | nil => rfl
  | cons r rs ih => exact ih (.redir cmd r.file r.efile r.mode r.fd)

/-- The node `parseredirs` builds for a redirection token. -/
theorem redir_of_mode {c : Char} {mode fd : Nat} (opens : redirMode c = some (mode, fd)) (cmd : Cmd) (q eq : Nat) :
    (if c = '<' then cmd.redir q eq O_RDONLY 0
      else if c = '>' then cmd.redir q eq (O_WRONLY ||| O_CREATE ||| O_TRUNC) 1
      else if c = '+' then cmd.redir q eq (O_WRONLY ||| O_CREATE) 1 else cmd) = cmd.redir q eq mode fd := by
  unfold redirMode at opens
  split at opens <;> simp_all

/-! ## What `peek` accepts -/

/-- A token that `peek` finds among `<>` is a redirection. -/
theorem lead_redir {ts : List Tok} (ahead : startsWith ts ['<', '>'] = true) :
    ∃ c q eq rest mode fd, ts = .sym c q eq :: rest ∧ redirMode c = some (mode, fd) := by
  cases ts with
  | nil => cases ahead
  | cons t rest =>
    cases t with
    | word => simp [startsWith, Tok.lead] at ahead
    | sym c q eq =>
      simp only [startsWith, Tok.lead, List.mem_cons, List.not_mem_nil, or_false, decide_eq_true_eq] at ahead
      split_ifs at ahead with plus
      · exact ⟨c, q, eq, rest, _, _, rfl, by rw [plus]; rfl⟩
      · rcases ahead with rfl | rfl
        · exact ⟨_, q, eq, rest, _, _, rfl, rfl⟩
        · exact ⟨_, q, eq, rest, _, _, rfl, rfl⟩

/-- A token that `peek` finds to be a symbol other than `>` is that symbol. -/
theorem lead_sym {ts : List Tok} {c : Char} (ahead : startsWith ts [c] = true) (notAppend : c ≠ '>')
    (notWord : c ≠ 'a') : ∃ q eq rest, ts = .sym c q eq :: rest := by
  cases ts with
  | nil => cases ahead
  | cons t rest =>
    cases t with
    | word => simp [startsWith, Tok.lead] at ahead; exact absurd ahead.symm notWord
    | sym c' q eq =>
      simp only [startsWith, Tok.lead, List.mem_singleton, decide_eq_true_eq] at ahead
      split_ifs at ahead
      · exact absurd ahead.symm notAppend
      · exact ⟨q, eq, rest, by rw [ahead]⟩

/-! ## The loops, one step at a time -/

theorem parseredirs_stop {buf : List Char} {f : Nat} {cmd : Cmd} {s : Nat} (nul : '\x00' ∉ buf)
    (stop : startsWith (toks buf s) ['<', '>'] = false) :
    parseredirs buf (f + 1) cmd s = .ok (cmd, skipWhitespace buf s) := by
  rw [parseredirs, peek_of_toks nul (by decide), stop]
  rfl

theorem parseredirs_redir {buf : List Char} {f : Nat} {cmd : Cmd} {s : Nat} {c : Char} {q eq q' eq' mode fd : Nat}
    {ts : List Tok} (nul : '\x00' ∉ buf) (next : toks buf s = .sym c q eq :: .word q' eq' :: ts)
    (opens : redirMode c = some (mode, fd)) :
    parseredirs buf (f + 1) cmd s = parseredirs buf f (.redir cmd q' eq' mode fd) (skipWhitespace buf eq') := by
  have ahead : startsWith (toks buf s) ['<', '>'] = true := by
    rw [next]
    revert opens
    unfold redirMode
    split <;> simp [startsWith, Tok.lead]
  rw [← toks_skipWhitespace] at next
  obtain ⟨symbol, after, -⟩ := gettoken_next nul next
  obtain ⟨file, -, -⟩ := gettoken_next nul after
  rw [parseredirs, peek_of_toks nul (by decide), ahead]
  simp only [Tok.code, Tok.q, Tok.eq] at symbol file
  simp only [if_true, symbol, file, ne_eq, not_true_eq_false, if_false]
  rw [redir_of_mode opens]

/-- A redirection that no word follows panics. -/
theorem parseredirs_missing {buf : List Char} {f : Nat} {cmd : Cmd} {s : Nat} {c : Char} {q eq mode fd : Nat}
    {ts : List Tok} (nul : '\x00' ∉ buf) (next : toks buf s = .sym c q eq :: ts)
    (opens : redirMode c = some (mode, fd)) (nofile : ∀ q' eq' rest, ts ≠ .word q' eq' :: rest) :
    parseredirs buf (f + 1) cmd s = .error "missing file for redirection" := by
  have ahead : startsWith (toks buf s) ['<', '>'] = true := by
    rw [next]
    revert opens
    unfold redirMode
    split <;> simp [startsWith, Tok.lead]
  rw [← toks_skipWhitespace] at next
  obtain ⟨symbol, after, -⟩ := gettoken_next nul next
  simp only [Tok.code, Tok.q, Tok.eq] at symbol after
  have notword : (gettoken buf (skipWhitespace buf eq)).1 ≠ 'a' := by
    cases ts with
    | nil => rw [gettoken_done after]; exact (by decide : ('\x00' : Char) ≠ 'a')
    | cons t rest =>
      cases t with
      | word q' eq' => exact absurd rfl (nofile q' eq' rest)
      | sym c' q' eq' => rw [(gettoken_next nul after).1]; exact (sym_code_ne after).1
  rw [parseredirs, peek_of_toks nul (by decide), ahead]
  simp only [if_true, symbol]
  rw [if_pos notword]

theorem backLoop_stop {buf : List Char} {f : Nat} {cmd : Cmd} {s : Nat} (nul : '\x00' ∉ buf)
    (stop : startsWith (toks buf s) ['&'] = false) :
    backLoop buf (f + 1) cmd s = .ok (cmd, skipWhitespace buf s) := by
  rw [backLoop, peek_of_toks nul (by decide), stop]
  rfl

theorem backLoop_amp {buf : List Char} {f : Nat} {cmd : Cmd} {s : Nat} {q eq : Nat} {ts : List Tok}
    (nul : '\x00' ∉ buf) (next : toks buf s = .sym '&' q eq :: ts) :
    backLoop buf (f + 1) cmd s = backLoop buf f (.back cmd) (skipWhitespace buf eq) := by
  have ahead : startsWith (toks buf s) ['&'] = true := by rw [next]; rfl
  rw [← toks_skipWhitespace] at next
  rw [backLoop, peek_of_toks nul (by decide), ahead]
  simp only [if_true, (gettoken_next nul next).1, Tok.eq]

theorem execLoop_stop {buf : List Char} {f : Nat} {ret : Cmd} {argv : List (Nat × Nat)} {s : Nat}
    (nul : '\x00' ∉ buf) (stop : startsWith (toks buf s) ['|', ')', '&', ';'] = true) :
    execLoop buf (f + 1) ret argv s = .ok (ret.withArgv argv, skipWhitespace buf s) := by
  rw [execLoop, peek_of_toks nul (by decide), stop]
  rfl

theorem execLoop_end {buf : List Char} {f : Nat} {ret : Cmd} {argv : List (Nat × Nat)} {s : Nat}
    (nul : '\x00' ∉ buf) (done : toks buf s = []) :
    execLoop buf (f + 1) ret argv s = .ok (ret.withArgv argv, skipWhitespace buf s) := by
  have go : startsWith (toks buf s) ['|', ')', '&', ';'] = false := by rw [done]; rfl
  rw [← toks_skipWhitespace] at done
  rw [execLoop, peek_of_toks nul (by decide), go]
  simp only [Bool.false_eq_true, if_false, gettoken_done done, skipWhitespace_idem]
  rfl

/-- At a word `execLoop` counts it, reads the redirections after it and goes on. -/
theorem execLoop_word {buf : List Char} {f : Nat} {ret : Cmd} {argv : List (Nat × Nat)} {s : Nat}
    {q eq : Nat} {ts : List Tok} (nul : '\x00' ∉ buf) (next : toks buf s = .word q eq :: ts) :
    execLoop buf (f + 1) ret argv s =
      if MAXARGS ≤ (argv ++ [(q, eq)]).length then .error "too many args"
      else
        match parseredirs buf f ret (skipWhitespace buf eq) with
        | .error e => .error e
        | .ok (ret, s) => execLoop buf f ret (argv ++ [(q, eq)]) s := by
  have go : startsWith (toks buf s) ['|', ')', '&', ';'] = false := by rw [next]; rfl
  rw [← toks_skipWhitespace] at next
  rw [execLoop, peek_of_toks nul (by decide), go]
  simp only [Bool.false_eq_true, if_false, (gettoken_next nul next).1, Tok.code, Tok.q, Tok.eq]
  rfl

/-- A symbol that does not end an exec panics. -/
theorem execLoop_stray {buf : List Char} {f : Nat} {ret : Cmd} {argv : List (Nat × Nat)} {s : Nat}
    {c : Char} {q eq : Nat} {ts : List Tok} (nul : '\x00' ∉ buf) (next : toks buf s = .sym c q eq :: ts)
    (go : startsWith (toks buf s) ['|', ')', '&', ';'] = false) :
    execLoop buf (f + 1) ret argv s = .error "syntax" := by
  have ⟨notWord, notEnd⟩ := sym_code_ne next
  rw [← toks_skipWhitespace] at next
  rw [execLoop, peek_of_toks nul (by decide), go]
  simp only [Bool.false_eq_true, if_false, (gettoken_next nul next).1, Tok.code]
  rw [if_neg notEnd, if_pos notWord]

/-! ## Soundness -/

theorem parseredirs_sound {buf : List Char} (nul : '\x00' ∉ buf) (f : Nat) :
    ∀ {cmd cmd' : Cmd} {s s' : Nat}, parseredirs buf f cmd s = .ok (cmd', s') →
      (s ≤ buf.length → s' ≤ buf.length) ∧ ∃ rs, Redirs (toks buf s) rs (toks buf s') ∧ cmd' = wrap cmd rs := by
  induction f with
  | zero => intro _ _ _ _ parsed; cases parsed
  | succ f ih =>
    intro cmd cmd' s s' parsed
    cases ahead : startsWith (toks buf s) ['<', '>'] with
    | false =>
      rw [parseredirs_stop nul ahead] at parsed
      cases parsed
      exact ⟨skipWhitespace_le, [], by rw [toks_skipWhitespace]; exact .nil _, rfl⟩
    | true =>
      obtain ⟨c, q, eq, ts, mode, fd, next, opens⟩ := lead_redir ahead
      cases ts with
      | nil => rw [parseredirs_missing nul next opens (by simp)] at parsed; cases parsed
      | cons t ts =>
        cases t with
        | sym => rw [parseredirs_missing nul next opens (by simp)] at parsed; cases parsed
        | word q' eq' =>
          rw [parseredirs_redir nul next opens] at parsed
          obtain ⟨bound, rs, derived, rfl⟩ := ih parsed
          obtain ⟨after, inside⟩ := toks_next nul (toks_next nul next).1
          refine ⟨fun _ => bound inside, ⟨q', eq', mode, fd⟩ :: rs, ?_, rfl⟩
          rw [next]
          exact .cons opens (after ▸ derived)

theorem backLoop_sound {buf : List Char} (nul : '\x00' ∉ buf) (f : Nat) :
    ∀ {cmd cmd' : Cmd} {s s' : Nat}, backLoop buf f cmd s = .ok (cmd', s') →
      (s ≤ buf.length → s' ≤ buf.length) ∧ ∃ k, Amps (toks buf s) k (toks buf s') ∧ cmd' = Cmd.back^[k] cmd := by
  induction f with
  | zero => intro _ _ _ _ parsed; cases parsed
  | succ f ih =>
    intro cmd cmd' s s' parsed
    cases ahead : startsWith (toks buf s) ['&'] with
    | false =>
      rw [backLoop_stop nul ahead] at parsed
      cases parsed
      exact ⟨skipWhitespace_le, 0, by rw [toks_skipWhitespace]; exact .nil _, rfl⟩
    | true =>
      obtain ⟨q, eq, ts, next⟩ := lead_sym ahead (by decide) (by decide)
      rw [backLoop_amp nul next] at parsed
      obtain ⟨bound, k, amps, rfl⟩ := ih parsed
      obtain ⟨after, inside⟩ := toks_next nul next
      refine ⟨fun _ => bound inside, k + 1, ?_, rfl⟩
      rw [next]
      exact .cons (after ▸ amps)

theorem execLoop_sound {buf : List Char} (nul : '\x00' ∉ buf) (f : Nat) :
    ∀ {ret cmd : Cmd} {argv : List (Nat × Nat)} {s s' : Nat}, execLoop buf f ret argv s = .ok (cmd, s') →
      argv.length < MAXARGS →
      (s ≤ buf.length → s' ≤ buf.length) ∧ ∃ ws rs, Words (toks buf s) ws rs (toks buf s') ∧
        (argv ++ ws).length < MAXARGS ∧ cmd = (wrap ret rs).withArgv (argv ++ ws) := by
  induction f with
  | zero => intro _ _ _ _ _ parsed; cases parsed
  | succ f ih =>
    intro ret cmd argv s s' parsed few
    -- the loop stops at a symbol of `|)&;` and at the end of the line
    have stopped : execLoop buf (f + 1) ret argv s = .ok (ret.withArgv argv, skipWhitespace buf s) →
        (s ≤ buf.length → s' ≤ buf.length) ∧ ∃ ws rs, Words (toks buf s) ws rs (toks buf s') ∧
          (argv ++ ws).length < MAXARGS ∧ cmd = (wrap ret rs).withArgv (argv ++ ws) := by
      intro stops
      rw [stops] at parsed
      cases parsed
      exact ⟨skipWhitespace_le, [], [], by rw [toks_skipWhitespace]; exact .nil _, by simpa using few, by simp [wrap]⟩
    cases ahead : startsWith (toks buf s) ['|', ')', '&', ';'] with
    | true => exact stopped (execLoop_stop nul ahead)
    | false =>
      cases next : toks buf s with
      | nil =>
        have done := stopped (execLoop_end nul next)
        rwa [next] at done
      | cons t ts =>
        cases t with
        | sym c q eq => rw [execLoop_stray nul next ahead] at parsed; cases parsed
        | word q eq =>
          rw [execLoop_word nul next] at parsed
          split_ifs at parsed with many
          cases redirected : parseredirs buf f ret (skipWhitespace buf eq) with
          | error e => rw [redirected] at parsed; cases parsed
          | ok r =>
            obtain ⟨ret', s₁⟩ := r
            rw [redirected] at parsed
            obtain ⟨bound₁, rs, redirs, rfl⟩ := parseredirs_sound nul f redirected
            obtain ⟨bound₂, ws, rs', words, short, rfl⟩ := ih parsed (by omega)
            obtain ⟨after, inside⟩ := toks_next nul next
            refine ⟨fun _ => bound₂ (bound₁ inside), (q, eq) :: ws, rs ++ rs', .cons (after ▸ redirs) words,
              by simpa using short, ?_⟩
            rw [wrap_append, List.append_assoc, List.singleton_append]

/-- Every result of `parse` is a derivation of `nt` from the tokens where it starts to those where it stops, and stays inside the line. -/
def Sound (buf : List Char) (nt : Nt) (parse : Nat → Except String (Cmd × Nat)) : Prop :=
  ∀ {s : Nat} {c : Cmd} {s' : Nat}, parse s = .ok (c, s') →
    (s ≤ buf.length → s' ≤ buf.length) ∧ Derives nt (toks buf s) c (toks buf s')

theorem parseexec_sound_step {buf : List Char} {f : Nat} (nul : '\x00' ∉ buf)
    (block : Sound buf .exec (parseblock buf f)) : Sound buf .exec (parseexec buf (f + 1)) := by
  intro s c s' parsed
  rw [parseexec, peek_of_toks nul (by decide)] at parsed
  cases paren : startsWith (toks buf s) ['('] with
  | true =>
    rw [paren] at parsed
    obtain ⟨bound, derived⟩ := block parsed
    rw [toks_skipWhitespace] at derived
    exact ⟨fun inside => bound (skipWhitespace_le inside), derived⟩
  | false =>
    rw [paren] at parsed
    cases redirected : parseredirs buf f (.exec []) (skipWhitespace buf s) with
    | error e => simp [redirected, bind, Except.bind] at parsed
    | ok r =>
      obtain ⟨ret, s₁⟩ := r
      simp only [redirected, Bool.false_eq_true, if_false] at parsed
      obtain ⟨bound₁, rs, redirs, rfl⟩ := parseredirs_sound nul f redirected
      obtain ⟨bound₂, ws, rs', words, short, rfl⟩ := execLoop_sound nul f parsed (by decide)
      rw [toks_skipWhitespace] at redirs
      refine ⟨fun inside => bound₂ (bound₁ (skipWhitespace_le inside)), ?_⟩
      rw [withArgv_wrap, withArgv_wrap, ← wrap_append]
      exact .simple redirs words short

theorem parseblock_sound_step {buf : List Char} {f : Nat} (nul : '\x00' ∉ buf)
    (line : Sound buf .line (parseline buf f)) : Sound buf .exec (parseblock buf (f + 1)) := by
  intro s c s' parsed
  simp only [parseblock, @peek_of_toks _ _ ['('] nul (by decide), @peek_of_toks _ _ [')'] nul (by decide)] at parsed
  cases paren : startsWith (toks buf s) ['('] with
  | false => simp [paren, bind, Except.bind, throw, throwThe, throwThe, MonadExceptOf.throw] at parsed
  | true =>
    obtain ⟨q, eq, ts, next⟩ := lead_sym paren (by decide) (by decide)
    have next' := next
    rw [← toks_skipWhitespace] at next'
    obtain ⟨opened, after, inside⟩ := gettoken_next nul next'
    simp only [Tok.eq] at opened after inside
    simp only [paren, opened, Bool.not_true, Bool.false_eq_true, if_false] at parsed
    cases inner : parseline buf f (skipWhitespace buf eq) with
    | error e => simp [inner, bind, Except.bind] at parsed
    | ok r =>
      obtain ⟨c₁, s₁⟩ := r
      simp only [inner, bind, Except.bind] at parsed
      obtain ⟨-, derived⟩ := line inner
      rw [after] at derived
      cases close : startsWith (toks buf s₁) [')'] with
      | false => simp [close, throw, throwThe, MonadExceptOf.throw] at parsed
      | true =>
        obtain ⟨q', eq', ts', closed⟩ := lead_sym close (by decide) (by decide)
        have closed' := closed
        rw [← toks_skipWhitespace] at closed'
        obtain ⟨shut, after', inside'⟩ := gettoken_next nul closed'
        simp only [Tok.eq] at shut after' inside'
        simp only [close, shut, Bool.not_true, Bool.false_eq_true, if_false] at parsed
        obtain ⟨bound, rs, redirs, rfl⟩ := parseredirs_sound nul f parsed
        rw [after'] at redirs
        refine ⟨fun _ => bound inside', ?_⟩
        rw [next]
        exact .block (closed ▸ derived) redirs

theorem parsepipe_sound_step {buf : List Char} {f : Nat} (nul : '\x00' ∉ buf)
    (exec : Sound buf .exec (parseexec buf f)) (pipe : Sound buf .pipe (parsepipe buf f)) :
    Sound buf .pipe (parsepipe buf (f + 1)) := by
  intro s c s' parsed
  simp only [parsepipe, @peek_of_toks _ _ ['|'] nul (by decide)] at parsed
  cases left : parseexec buf f s with
  | error e => simp [left, bind, Except.bind] at parsed
  | ok r =>
    obtain ⟨c₁, s₁⟩ := r
    simp only [left, bind, Except.bind] at parsed
    obtain ⟨bound₁, derived₁⟩ := exec left
    cases bar : startsWith (toks buf s₁) ['|'] with
    | false =>
      simp only [bar, Bool.false_eq_true, if_false, pure, Except.pure, Except.ok.injEq, Prod.mk.injEq] at parsed
      obtain ⟨rfl, rfl⟩ := parsed
      rw [toks_skipWhitespace]
      exact ⟨fun inside => skipWhitespace_le (bound₁ inside), .pipe derived₁⟩
    | true =>
      obtain ⟨q, eq, ts, next⟩ := lead_sym bar (by decide) (by decide)
      have next' := next
      rw [← toks_skipWhitespace] at next'
      obtain ⟨read, after, inside⟩ := gettoken_next nul next'
      simp only [Tok.eq] at read after inside
      simp only [bar, read, if_true] at parsed
      cases right : parsepipe buf f (skipWhitespace buf eq) with
      | error e => simp [right] at parsed
      | ok r =>
        obtain ⟨c₂, s₂⟩ := r
        simp only [right, pure, Except.pure, Except.ok.injEq, Prod.mk.injEq] at parsed
        obtain ⟨rfl, rfl⟩ := parsed
        obtain ⟨bound₂, derived₂⟩ := pipe right
        rw [after] at derived₂
        exact ⟨fun _ => bound₂ inside, .pipeMore (next ▸ derived₁) derived₂⟩

theorem parseline_sound_step {buf : List Char} {f : Nat} (nul : '\x00' ∉ buf)
    (pipe : Sound buf .pipe (parsepipe buf f)) (line : Sound buf .line (parseline buf f)) :
    Sound buf .line (parseline buf (f + 1)) := by
  intro s c s' parsed
  simp only [parseline, @peek_of_toks _ _ [';'] nul (by decide)] at parsed
  cases left : parsepipe buf f s with
  | error e => simp [left, bind, Except.bind] at parsed
  | ok r =>
    obtain ⟨c₁, s₁⟩ := r
    simp only [left, bind, Except.bind] at parsed
    obtain ⟨bound₁, derived₁⟩ := pipe left
    cases backs : backLoop buf f c₁ s₁ with
    | error e => simp [backs] at parsed
    | ok r =>
      obtain ⟨c₂, s₂⟩ := r
      simp only [backs] at parsed
      obtain ⟨bound₂, k, amps, rfl⟩ := backLoop_sound nul f backs
      cases semi : startsWith (toks buf s₂) [';'] with
      | false =>
        simp only [semi, Bool.false_eq_true, if_false, pure, Except.pure, Except.ok.injEq, Prod.mk.injEq] at parsed
        obtain ⟨rfl, rfl⟩ := parsed
        rw [toks_skipWhitespace]
        exact ⟨fun inside => skipWhitespace_le (bound₂ (bound₁ inside)), .line derived₁ amps⟩
      | true =>
        obtain ⟨q, eq, ts, next⟩ := lead_sym semi (by decide) (by decide)
        have next' := next
        rw [← toks_skipWhitespace] at next'
        obtain ⟨read, after, inside⟩ := gettoken_next nul next'
        simp only [Tok.eq] at read after inside
        simp only [semi, read, if_true] at parsed
        cases right : parseline buf f (skipWhitespace buf eq) with
        | error e => simp [right] at parsed
        | ok r =>
          obtain ⟨c₃, s₃⟩ := r
          simp only [right, pure, Except.pure, Except.ok.injEq, Prod.mk.injEq] at parsed
          obtain ⟨rfl, rfl⟩ := parsed
          obtain ⟨bound₃, derived₃⟩ := line right
          rw [after] at derived₃
          exact ⟨fun _ => bound₃ inside, .lineMore derived₁ (next ▸ amps) derived₃⟩

/-- The four parse functions are sound at every fuel. -/
theorem parse_sound {buf : List Char} (nul : '\x00' ∉ buf) (f : Nat) :
    Sound buf .line (parseline buf f) ∧ Sound buf .pipe (parsepipe buf f) ∧
      Sound buf .exec (parseblock buf f) ∧ Sound buf .exec (parseexec buf f) := by
  induction f with
  | zero => refine ⟨?_, ?_, ?_, ?_⟩ <;> intro s c s' parsed <;> cases parsed
  | succ f ih =>
    obtain ⟨line, pipe, block, exec⟩ := ih
    exact ⟨parseline_sound_step nul pipe line, parsepipe_sound_step nul exec pipe,
      parseblock_sound_step nul line, parseexec_sound_step nul block⟩

end Sh
end Xv6
