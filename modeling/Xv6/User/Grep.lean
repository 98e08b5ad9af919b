/-
# User.Grep -- grep.c: the Kernighan and Pike matcher and the line loop

`match`, `matchhere` and `matchstar` are the matcher of grep.c over the bytes
of a C string up to its NUL, as lists of characters.  `matchstar` takes
`matchhere re` as the function it retries at every split; with it every
function here recurses structurally, on the pattern or on the text.

A pattern means what `parse` reads in it: a list of atoms, `c*` or a single
character, and whether it ends in a `$` that anchors it at the end of the
text.  Its language (`patternLang`) is the concatenation of the atoms'
languages in Mathlib's `Language`.  `match_iff` says that `match` accepts
exactly the texts with a position (only the first one under `^`) from which
a prefix lies in that language, all of the rest when anchored.
-/
import Mathlib.Computability.Language

namespace Xv6

namespace Grep

set_option autoImplicit false

/-! ## grep.c's matcher -/

/-- `matchstar(c, re, text)`: `here` is `matchhere(re, ·)`, tried at `text`
and after every further character that `c` matches. -/
def matchstar (c : Char) (here : List Char → Bool) : List Char → Bool
  | [] => here []
  | x :: text => here (x :: text) || ((x == c || c == '.') && matchstar c here text)

/-- `matchhere(re, text)`: does `re` match at the beginning of `text`? -/
def matchhere : List Char → List Char → Bool
  | [], _ => true
  | c :: '*' :: re, text => matchstar c (matchhere re) text
  | ['$'], text => text.isEmpty
  | c :: re, x :: text => (c == '.' || c == x) && matchhere re text
  | _ :: _, [] => false

/-- The loop of `match` without `^`: every position of the text, its end
included. -/
def matchLoop (re : List Char) : List Char → Bool
  | [] => matchhere re []
  | x :: text => matchhere re (x :: text) || matchLoop re text

/-- `match(re, text)`. -/
def «match» : List Char → List Char → Bool
  | '^' :: re, text => matchhere re text
  | re, text => matchLoop re text

/-! ## What a pattern means -/

/-- A pattern atom: one character, or a character under `*`. -/
inductive Atom
  | one (c : Char)
  | star (c : Char)
  deriving DecidableEq, Repr

/-- The pattern as `matchhere` reads it: its atoms, and whether it ends in
an anchoring `$`. -/
def parse : List Char → List Atom × Bool
  | [] => ([], false)
  | c :: '*' :: re => (.star c :: (parse re).1, (parse re).2)
  | ['$'] => ([], true)
  | c :: re => (.one c :: (parse re).1, (parse re).2)

/-- The one-character words the pattern character `c` matches: `.` any
character, every other character itself. -/
def charLang (c : Char) : Language Char := {w | ∃ x, w = [x] ∧ (c = '.' ∨ x = c)}

def Atom.lang : Atom → Language Char
  | .one c => charLang c
  | .star c => KStar.kstar (charLang c)

/-- The words a list of atoms matches: one word of each atom's language, in
order. -/
def patternLang : List Atom → Language Char
  | [] => 1
  | a :: as => a.lang * patternLang as

/-- A parsed pattern matches at the start of `text`: a prefix of `text` lies
in its language, and all of `text` when the pattern is anchored. -/
def Here (pattern : List Atom × Bool) (text : List Char) : Prop :=
  ∃ u v, text = u ++ v ∧ u ∈ patternLang pattern.1 ∧ (pattern.2 = true → v = [])

/-- `re` matches at the start of `text`, as `parse` reads `re`. -/
def MatchesHere (re text : List Char) : Prop := Here (parse re) text

theorem mem_charLang {c : Char} {w : List Char} : w ∈ charLang c ↔ ∃ x, w = [x] ∧ (c = '.' ∨ x = c) := Iff.rfl

/-- Under `*`, a character matches the words all of whose characters it
matches. -/
theorem mem_kstar_charLang {c : Char} {w : List Char} : w ∈ KStar.kstar (charLang c) ↔ ∀ x ∈ w, c = '.' ∨ x = c := by
  rw [Language.mem_kstar]
  constructor
  · rintro ⟨L, rfl, each⟩ x mem
    obtain ⟨y, inY, xInY⟩ := List.mem_flatten.mp mem
    obtain ⟨z, rfl, ok⟩ := mem_charLang.mp (each y inY)
    rw [List.mem_singleton.mp xInY]
    exact ok
  · intro all
    refine ⟨w.map fun x => [x], by rw [← List.flatMap_def, List.flatMap_singleton'], fun y mem => ?_⟩
    obtain ⟨x, inW, rfl⟩ := List.mem_map.mp mem
    exact ⟨x, rfl, all x inW⟩

theorem matchstar_iff (c : Char) (here : List Char → Bool) (text : List Char) :
    matchstar c here text = true ↔ ∃ w v, text = w ++ v ∧ (∀ x ∈ w, c = '.' ∨ x = c) ∧ here v = true := by
  induction text with
  | nil =>
    simp only [matchstar, List.nil_eq_append_iff]
    constructor
    · intro found
      exact ⟨[], [], ⟨rfl, rfl⟩, by simp, found⟩
    · rintro ⟨w, v, ⟨rfl, rfl⟩, -, found⟩
      exact found
  | cons x text ih =>
    simp only [matchstar, Bool.or_eq_true, Bool.and_eq_true, Bool.or_eq_true, beq_iff_eq, ih]
    constructor
    · rintro (found | ⟨ok, w, v, rfl, all, found⟩)
      · exact ⟨[], x :: text, rfl, by simp, found⟩
      · refine ⟨x :: w, v, rfl, fun y mem => ?_, found⟩
        rcases List.mem_cons.mp mem with rfl | later
        · exact ok.symm
        · exact all y later
    · rintro ⟨w, v, split, all, found⟩
      cases w with
      | nil =>
        exact .inl (split ▸ found)
      | cons y w =>
        simp only [List.cons_append, List.cons.injEq] at split
        obtain ⟨rfl, rfl⟩ := split
        have first := all _ List.mem_cons_self
        exact .inr ⟨first.symm, w, v, rfl, fun z mem => all z (List.mem_cons_of_mem _ mem), found⟩

/-! ## Matching at the start of the text -/

section Here

variable {c : Char} {as : List Atom} {anchored : Bool}

theorem here_unanchored (text : List Char) : Here ([], false) text :=
  ⟨[], text, rfl, (Language.mem_one _).mpr rfl, fun h => absurd h Bool.false_ne_true⟩

theorem here_anchored {text : List Char} : Here ([], true) text ↔ text = [] := by
  constructor
  · rintro ⟨u, v, rfl, empty, atEnd⟩
    rw [(Language.mem_one _).mp empty, atEnd rfl]
    rfl
  · rintro rfl
    exact ⟨[], [], rfl, (Language.mem_one _).mpr rfl, fun _ => rfl⟩

/-- `c*` first: some run of characters `c` matches, then the rest of the
pattern. -/
theorem here_star {text : List Char} : Here (.star c :: as, anchored) text ↔
    ∃ w v, text = w ++ v ∧ (∀ x ∈ w, c = '.' ∨ x = c) ∧ Here (as, anchored) v := by
  simp only [Here, patternLang, Atom.lang, Language.mem_mul, mem_kstar_charLang]
  constructor
  · rintro ⟨u, v, rfl, ⟨w, run, u', rest, rfl⟩, atEnd⟩
    exact ⟨w, u' ++ v, List.append_assoc _ _ _, run, u', v, rfl, rest, atEnd⟩
  · rintro ⟨w, v, rfl, run, u', v', rfl, rest, atEnd⟩
    exact ⟨w ++ u', v', (List.append_assoc _ _ _).symm, ⟨w, run, u', rest, rfl⟩, atEnd⟩

/-- A single character first: it matches the first character of the text. -/
theorem here_one_cons {x : Char} {text : List Char} : Here (.one c :: as, anchored) (x :: text) ↔
    (c = '.' ∨ x = c) ∧ Here (as, anchored) text := by
  simp only [Here, patternLang, Atom.lang, Language.mem_mul, mem_charLang]
  constructor
  · rintro ⟨u, v, split, ⟨w, ⟨y, rfl, ok⟩, u', rest, rfl⟩, atEnd⟩
    simp only [List.cons_append, List.cons.injEq] at split
    obtain ⟨rfl, rfl⟩ := split
    exact ⟨ok, u', v, rfl, rest, atEnd⟩
  · rintro ⟨ok, u', v, rfl, rest, atEnd⟩
    exact ⟨x :: u', v, rfl, ⟨[x], ⟨x, rfl, ok⟩, u', rest, rfl⟩, atEnd⟩

theorem not_here_one_nil : ¬Here (.one c :: as, anchored) [] := by
  simp only [Here, patternLang, Atom.lang, Language.mem_mul, mem_charLang]
  rintro ⟨u, v, split, ⟨w, ⟨y, rfl, -⟩, u', -, rfl⟩, -⟩
  simp at split

end Here

/-- The atom `matchhere` reads at a character that is not followed by `*`
and is not an anchoring `$`. -/
theorem parse_one {c : Char} {re : List Char} (notStar : ∀ re', re ≠ '*' :: re') (notAnchor : ¬(c = '$' ∧ re = [])) :
    parse (c :: re) = (.one c :: (parse re).1, (parse re).2) :=
  parse.eq_4 c re (fun re' same => notStar re' same) (fun dollar empty => notAnchor ⟨dollar, empty⟩)

/-- `matchhere` at a character that is not followed by `*` and is not an
anchoring `$`. -/
theorem matchhere_one {c : Char} {re : List Char} (notStar : ∀ re', re ≠ '*' :: re') (notAnchor : ¬(c = '$' ∧ re = []))
    (text : List Char) : matchhere (c :: re) text =
      match text with
      | [] => false
      | x :: text => (c == '.' || c == x) && matchhere re text := by
  cases text with
  | nil => exact matchhere.eq_5 c re (fun re' same => notStar re' same) (fun dollar empty => notAnchor ⟨dollar, empty⟩)
  | cons x text =>
    exact matchhere.eq_4 c re x text (fun re' same => notStar re' same) (fun dollar empty => notAnchor ⟨dollar, empty⟩)

/-- `matchhere` over a character that is not starred and no anchor, by
cases on the text. -/
theorem matchhere_one_iff {c : Char} {re : List Char} (notStar : ∀ re', re ≠ '*' :: re') (notAnchor : ¬(c = '$' ∧ re = []))
    (rest : ∀ text, matchhere re text = true ↔ MatchesHere re text) (text : List Char) :
    matchhere (c :: re) text = true ↔ MatchesHere (c :: re) text := by
  rw [matchhere_one notStar notAnchor, MatchesHere, parse_one notStar notAnchor]
  cases text with
  | nil => exact ⟨fun h => absurd h Bool.false_ne_true, fun h => absurd h not_here_one_nil⟩
  | cons x text =>
    simp only [Bool.and_eq_true, Bool.or_eq_true, beq_iff_eq, rest, here_one_cons, MatchesHere]
    exact and_congr_left fun _ => or_congr Iff.rfl eq_comm

/-- `matchhere` decides `MatchesHere`: it follows the pattern as `parse`
reads it, and `matchstar` tries every run of the starred character. -/
theorem matchhere_iff : ∀ (re text : List Char), matchhere re text = true ↔ MatchesHere re text
  | [], text => ⟨fun _ => here_unanchored text, fun _ => rfl⟩
  | [c], text => by
    by_cases dollar : c = '$'
    · subst dollar
      simp only [matchhere, List.isEmpty_iff, MatchesHere, parse, here_anchored]
    · exact matchhere_one_iff (fun re' h => List.cons_ne_nil '*' re' h.symm) (fun h => dollar h.1)
        (matchhere_iff []) text
  | c :: d :: re, text => by
    by_cases star : d = '*'
    · subst star
      simp only [matchhere, matchstar_iff, MatchesHere, parse, here_star, matchhere_iff re]
    · exact matchhere_one_iff (fun _ h => star (List.cons.inj h).1) (fun h => List.cons_ne_nil _ _ h.2)
        (matchhere_iff (d :: re)) text

theorem matchLoop_iff (re : List Char) : ∀ text : List Char,
    matchLoop re text = true ↔ ∃ i, i ≤ text.length ∧ matchhere re (text.drop i) = true
  | [] => by
    simp only [matchLoop, List.length_nil, Nat.le_zero, List.drop_nil, exists_eq_left]
  | x :: text => by
    rw [matchLoop, Bool.or_eq_true, matchLoop_iff re text]
    constructor
    · rintro (here | ⟨i, within, later⟩)
      · exact ⟨0, Nat.zero_le _, here⟩
      · exact ⟨i + 1, by simp only [List.length_cons]; omega, later⟩
    · rintro ⟨i, within, found⟩
      cases i with
      | zero => exact .inl found
      | succ i => exact .inr ⟨i, by simp only [List.length_cons] at within; omega, found⟩

theorem match_iff (re text : List Char) :
    «match» re text = true ↔
      if re.head? = some '^' then MatchesHere re.tail text
      else ∃ i, i ≤ text.length ∧ MatchesHere re (text.drop i) := by
  by_cases caret : re.head? = some '^'
  · obtain ⟨re, rfl⟩ : ∃ re', re = '^' :: re' := by
      cases re with
      | nil => cases caret
      | cons c re => exact ⟨re, by rw [List.head?_cons, Option.some.injEq] at caret; rw [caret]⟩
    rw [if_pos caret, «match», List.tail_cons, matchhere_iff]
  · rw [if_neg caret, «match».eq_2 re text (fun re' same => caret (by rw [same]; rfl)), matchLoop_iff]
    simp only [matchhere_iff]

/-! ## grep's read loop -/

/-- `strchr(s, c)` on the bytes of `s` up to a NUL: those before the first
`c` and those after it, or `none`. -/
def strchr (s : List Char) (c : Char) : Option (List Char × List Char) :=
  match s with
  | [] => none
  | x :: s =>
      if x = '\x00' then none
      else if x = c then some ([], s)
      else (strchr s c).map fun found => (x :: found.1, found.2)

theorem strchr_some {s before after : List Char} {c : Char} (found : strchr s c = some (before, after)) :
    s = before ++ c :: after ∧ c ∉ before := by
  induction s generalizing before with
  | nil => cases found
  | cons x s ih =>
    unfold strchr at found
    by_cases nul : x = '\x00'
    · rw [if_pos nul] at found
      cases found
    rw [if_neg nul] at found
    by_cases here : x = c
    · rw [if_pos here, Option.some.injEq, Prod.mk.injEq] at found
      obtain ⟨rfl, rfl⟩ := found
      exact ⟨by rw [here]; rfl, List.not_mem_nil⟩
    · rw [if_neg here] at found
      obtain ⟨⟨before', after'⟩, rest, same⟩ := Option.map_eq_some_iff.mp found
      simp only [Prod.mk.injEq] at same
      obtain ⟨rfl, rfl⟩ := same
      obtain ⟨split, absent⟩ := ih rest
      exact ⟨by rw [split]; rfl, fun mem => (List.mem_cons.mp mem).elim (fun same => here same.symm) absent⟩

theorem strchr_shorter {s before after : List Char} {c : Char} (found : strchr s c = some (before, after)) :
    after.length < s.length := by
  rw [(strchr_some found).1, List.length_append, List.length_cons]
  omega

/-- With no NUL in `s`, `strchr` misses only a character `s` lacks. -/
theorem strchr_none {s : List Char} {c : Char} (noNul : '\x00' ∉ s) (missing : strchr s c = none) : c ∉ s := by
  induction s with
  | nil => exact List.not_mem_nil
  | cons x s ih =>
    have nul : x ≠ '\x00' := fun same => noNul (same ▸ List.mem_cons_self)
    unfold strchr at missing
    rw [if_neg nul] at missing
    by_cases here : x = c
    · rw [if_pos here] at missing
      cases missing
    rw [if_neg here, Option.map_eq_none_iff] at missing
    exact fun mem => (List.mem_cons.mp mem).elim (fun same => here same.symm)
      (ih (fun inS => noNul (List.mem_cons_of_mem _ inS)) missing)

theorem strchr_of_not_mem {s : List Char} {c : Char} (absent : c ∉ s) : strchr s c = none := by
  induction s with
  | nil => rfl
  | cons x s ih =>
    unfold strchr
    have here : x ≠ c := fun same => absent (same ▸ List.mem_cons_self)
    by_cases nul : x = '\x00'
    · rw [if_pos nul]
    · rw [if_neg nul, if_neg here, ih (fun mem => absent (List.mem_cons_of_mem _ mem)), Option.map_none]

/-- `strchr` finds the same first `c` with more bytes after the string. -/
theorem strchr_append {s t before after : List Char} {c : Char} (found : strchr s c = some (before, after)) :
    strchr (s ++ t) c = some (before, after ++ t) := by
  induction s generalizing before with
  | nil => cases found
  | cons x s ih =>
    rw [List.cons_append]
    unfold strchr at found ⊢
    by_cases nul : x = '\x00'
    · rw [if_pos nul] at found
      cases found
    rw [if_neg nul] at found ⊢
    by_cases here : x = c
    · rw [if_pos here, Option.some.injEq, Prod.mk.injEq] at found
      obtain ⟨rfl, rfl⟩ := found
      rw [if_pos here]
    · rw [if_neg here] at found ⊢
      obtain ⟨⟨before', after'⟩, rest, same⟩ := Option.map_eq_some_iff.mp found
      simp only [Prod.mk.injEq] at same
      obtain ⟨rfl, rfl⟩ := same
      rw [ih rest, Option.map_some]

/-- The inner loop of `grep` over `buf[p..m]`: each line up to a newline is
written, with its newline, when the pattern matches it, and what follows the
last newline is kept. -/
def lineLoop (pattern p out : List Char) : List Char × List Char :=
  match _found : strchr p '\n' with
  | none => (out, p)
  | some (line, rest) => lineLoop pattern rest (if «match» pattern line then out ++ (line ++ ['\n']) else out)
termination_by p.length
decreasing_by exact strchr_shorter _found

/-- `grep(pattern, fd)`: each `read` asks for the room left in `buf`, 1024
bytes of which one is kept for a NUL, and the file delivers at most
`sizes k` bytes of what it has left at the `k`-th read; the loop ends at the
first read that delivers nothing.  `fuel` bounds the reads. -/
def grepLoop (pattern : List Char) (sizes : Nat → Nat) : (fuel k : Nat) → (buf input out : List Char) → List Char
  | 0, _, _, _, out => out
  | fuel + 1, k, buf, input, out =>
      let n := min (min (sizes k) (1024 - buf.length - 1)) input.length
      if n = 0 then out
      else
        let next := lineLoop pattern (buf ++ input.take n) out
        grepLoop pattern sizes fuel (k + 1) next.2 (input.drop n) next.1

/-- What `grep` writes for the file `input`. -/
def grep (pattern : List Char) (sizes : Nat → Nat) (input : List Char) : List Char :=
  grepLoop pattern sizes (input.length + 1) 0 [] input []

/-- The lines of `input` that end in a newline, without it. -/
def lines (input : List Char) : List (List Char) := (input.splitOn '\n').dropLast

/-- Each of `ls` that `pattern` matches, with a newline, in order. -/
def matchingLines (pattern : List Char) (ls : List (List Char)) : List Char :=
  (ls.filter fun line => «match» pattern line).flatMap (· ++ ['\n'])

section LineLoop

variable (pattern : List Char) {p out : List Char}

theorem lineLoop_none (missing : strchr p '\n' = none) : lineLoop pattern p out = (out, p) := by
  rw [lineLoop]
  split
  · rfl
  · rename_i found
    rw [missing] at found
    cases found

theorem lineLoop_some {line rest : List Char} (found : strchr p '\n' = some (line, rest)) :
    lineLoop pattern p out =
      lineLoop pattern rest (if «match» pattern line then out ++ (line ++ ['\n']) else out) := by
  rw [lineLoop]
  split
  · rename_i missing
    rw [found] at missing
    cases missing
  · rename_i line' rest' found'
    rw [found, Option.some.injEq, Prod.mk.injEq] at found'
    obtain ⟨rfl, rfl⟩ := found'
    rfl

end LineLoop

/-- The bytes after the first newline of `a`, when there is one. -/
theorem no_nul_rest {a line rest : List Char} (noNul : '\x00' ∉ a) (found : strchr a '\n' = some (line, rest)) :
    '\x00' ∉ rest := fun mem => noNul (by
  rw [(strchr_some found).1]
  exact List.mem_append_right _ (List.mem_cons_of_mem _ mem))

/-- Running the inner loop over `a ++ b` is running it over `a` and then over
what it kept of `a` followed by `b`: this is why the chunks `read` returns do
not matter. -/
theorem lineLoop_append (pattern a b out : List Char) (noNul : '\x00' ∉ a) :
    lineLoop pattern (a ++ b) out = lineLoop pattern ((lineLoop pattern a out).2 ++ b) (lineLoop pattern a out).1 := by
  rcases found : strchr a '\n' with _ | ⟨line, rest⟩
  · rw [lineLoop_none pattern found]
  · rw [lineLoop_some pattern (strchr_append found), lineLoop_some pattern found]
    exact lineLoop_append pattern rest b _ (no_nul_rest noNul found)
termination_by a.length
decreasing_by exact strchr_shorter found

/-- A line that the file holds from after a newline (or from its start) to
the next newline is one of its `lines`. -/
theorem mem_lines {pre q rest : List Char} (start : pre = [] ∨ pre.getLast? = some '\n') (noNewline : '\n' ∉ q) :
    q ∈ lines (pre ++ q ++ '\n' :: rest) := by
  have tail : (q ++ '\n' :: rest).splitOn '\n' = q :: rest.splitOn '\n' :=
    List.splitOn_append_cons_self_of_not_mem noNewline rest
  have kept : q ∈ (q :: rest.splitOn '\n').dropLast := by
    rw [List.dropLast_cons_of_ne_nil (List.splitOn_ne_nil _ _)]
    exact List.mem_cons_self
  rcases start with rfl | ending
  · rw [List.nil_append, lines, tail]
    exact kept
  · obtain ⟨pre, rfl⟩ := List.getLast?_eq_some_iff.mp ending
    rw [lines, List.append_assoc, List.append_assoc, List.singleton_append, List.splitOn_append_cons_self, tail,
      List.dropLast_append_of_ne_nil (List.cons_ne_nil _ _)]
    exact List.mem_append_right _ kept

theorem lines_cons {line rest : List Char} (noNewline : '\n' ∉ line) :
    lines (line ++ '\n' :: rest) = line :: lines rest := by
  rw [lines, List.splitOn_append_cons_self_of_not_mem noNewline, List.dropLast_cons_of_ne_nil (List.splitOn_ne_nil _ _)]
  rfl

/-- The inner loop writes the matching lines of `p` and keeps what follows
its last newline. -/
theorem lineLoop_output (pattern p out : List Char) (noNul : '\x00' ∉ p) :
    (lineLoop pattern p out).1 = out ++ matchingLines pattern (lines p) := by
  rcases found : strchr p '\n' with _ | ⟨line, rest⟩
  · rw [lineLoop_none pattern found, lines, List.splitOn_eq_singleton (strchr_none noNul found)]
    simp only [List.dropLast_singleton, matchingLines, List.filter_nil, List.flatMap_nil, List.append_nil]
  · obtain ⟨split, noNewline⟩ := strchr_some found
    rw [lineLoop_some pattern found, lineLoop_output pattern rest _ (no_nul_rest noNul found), split,
      lines_cons noNewline]
    by_cases matched : «match» pattern line = true
    · simp only [if_pos matched, matchingLines, List.filter_cons_of_pos matched, List.flatMap_cons, List.append_assoc]
    · simp only [if_neg matched, matchingLines, List.filter_cons_of_neg matched]
termination_by p.length
decreasing_by exact strchr_shorter found

/-- What the inner loop keeps of `p` follows a newline of `p`, or is all of
it, and holds no newline. -/
theorem lineLoop_leftover (pattern p out : List Char) (noNul : '\x00' ∉ p) :
    ∃ pre, p = pre ++ (lineLoop pattern p out).2 ∧ '\n' ∉ (lineLoop pattern p out).2 ∧
      (pre = [] ∨ pre.getLast? = some '\n') := by
  rcases found : strchr p '\n' with _ | ⟨line, rest⟩
  · rw [lineLoop_none pattern found]
    exact ⟨[], rfl, strchr_none noNul found, .inl rfl⟩
  · rw [lineLoop_some pattern found]
    obtain ⟨pre, split, noNewline, start⟩ := lineLoop_leftover pattern rest
      (if «match» pattern line then out ++ (line ++ ['\n']) else out) (no_nul_rest noNul found)
    refine ⟨line ++ '\n' :: pre, ?_, noNewline, .inr ?_⟩
    · rw [(strchr_some found).1]
      conv_lhs => rw [split]
      simp only [List.append_assoc, List.cons_append]
    · rcases start with rfl | ending
      · simp
      · rw [← List.singleton_append, ← List.append_assoc, List.getLast?_append, ending]
        rfl
termination_by p.length
decreasing_by exact strchr_shorter found

section ReadLoop

variable (pattern : List Char) (sizes : Nat → Nat) (positive : ∀ k, 0 < sizes k)

include positive in
/-- The read loop, from the point where it has read `t` and `input` is left:
whatever the sizes of the reads, it ends having written what the inner loop
writes over the whole file.  The loop state is what the inner loop leaves
after `t`; a read can come back empty before the end only with a line of
1023 bytes in the buffer, which the file's lines rule out. -/
theorem grepLoop_spec : ∀ (fuel k : Nat) (t input : List Char), '\x00' ∉ t ++ input →
    (∀ line ∈ lines (t ++ input), line.length < 1023) → input.length < fuel →
    grepLoop pattern sizes fuel k (lineLoop pattern t []).2 input (lineLoop pattern t []).1 =
      (lineLoop pattern (t ++ input) []).1
  | 0, _, _, _, _, _, tooLong => absurd tooLong (Nat.not_lt_zero _)
  | fuel + 1, k, t, input, noNul, short, enough => by
    have noNulT : '\x00' ∉ t := fun mem => noNul (List.mem_append_left _ mem)
    rw [grepLoop]
    generalize size : min (min (sizes k) (1024 - (lineLoop pattern t []).2.length - 1)) input.length = n
    by_cases empty : n = 0
    · rw [if_pos empty]
      by_cases done : input = []
      · rw [done, List.append_nil]
      -- the read came back empty with bytes left: the buffer is full
      have full : 1023 ≤ (lineLoop pattern t []).2.length := by
        rw [empty] at size
        have := positive k
        have : input.length ≠ 0 := fun zero => done (List.eq_nil_of_length_eq_zero zero)
        omega
      obtain ⟨pre, split, noNewline, start⟩ := lineLoop_leftover pattern t [] noNulT
      -- so no newline is left to read: it would end a line longer than the buffer
      have lastLine : '\n' ∉ input := by
        intro mem
        rcases found : strchr input '\n' with _ | ⟨r1, r2⟩
        · exact strchr_none (fun inInput => noNul (List.mem_append_right _ inInput)) found mem
        · obtain ⟨whole, absent⟩ := strchr_some found
          have long := short _ (by
            rw [whole, split]
            have := @mem_lines pre ((lineLoop pattern t []).2 ++ r1) r2 start
              (fun inQ => (List.mem_append.mp inQ).elim noNewline absent)
            simpa only [List.append_assoc] using this)
          rw [List.length_append] at long
          omega
      rw [lineLoop_append pattern t input [] noNulT,
        lineLoop_none pattern (strchr_of_not_mem fun mem => (List.mem_append.mp mem).elim noNewline lastLine)]
    · -- a read of `n` bytes: the state is what the inner loop leaves after `t` and the chunk
      rw [if_neg empty, ← lineLoop_append pattern t _ [] noNulT]
      have rest := grepLoop_spec fuel (k + 1) (t ++ input.take n) (input.drop n)
        (by rw [List.append_assoc, List.take_append_drop]; exact noNul)
        (by rw [List.append_assoc, List.take_append_drop]; exact short)
        (by rw [List.length_drop]; omega)
      rw [rest, List.append_assoc, List.take_append_drop]

end ReadLoop

theorem grep_writes_matching_lines (pattern input : List Char) (sizes : Nat → Nat) (positive : ∀ k, 0 < sizes k)
    (noNul : '\x00' ∉ input) (short : ∀ line ∈ lines input, line.length < 1023) :
    grep pattern sizes input = matchingLines pattern (lines input) := by
  have start := grepLoop_spec pattern sizes positive (input.length + 1) 0 [] input noNul short (Nat.lt_succ_self _)
  rw [@lineLoop_none pattern [] [] rfl, List.nil_append] at start
  rw [grep, start, lineLoop_output pattern input [] noNul, List.nil_append]

theorem grep_two_lines :
    (∀ k, 0 < (fun _ => 1 : Nat → Nat) k) ∧ '\x00' ∉ ['a', 'b', '\n', 'c', 'd', '\n', 'b'] ∧
      (∀ line ∈ lines ['a', 'b', '\n', 'c', 'd', '\n', 'b'], line.length < 1023) ∧
      grep ['b'] (fun _ => 1) ['a', 'b', '\n', 'c', 'd', '\n', 'b'] = ['a', 'b', '\n'] := by
  have positive : ∀ k, 0 < (fun _ => 1 : Nat → Nat) k := fun _ => Nat.one_pos
  have noNul : '\x00' ∉ ['a', 'b', '\n', 'c', 'd', '\n', 'b'] := by decide
  have short : ∀ line ∈ lines ['a', 'b', '\n', 'c', 'd', '\n', 'b'], line.length < 1023 := by decide
  refine ⟨positive, noNul, short, ?_⟩
  rw [grep_writes_matching_lines ['b'] _ _ positive noNul short]
  decide

end Grep

end Xv6
