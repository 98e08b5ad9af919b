import Xv6.Kernel.File

/-!
# sh.c: the command-line parser

`parsecmd` turns a line into a command tree by recursive descent over the
characters of the line: `gettoken` reads one token and `peek` looks at the
next one, both skipping whitespace first.  The tree's words and file names
are pointers into the line, counted strings until `nulterminate` writes a NUL
after each of them.

The model keeps those pointers as positions in the line, which ends in a NUL
(`charAt` reads NUL at its end and past it).  The four mutually recursive
`parse*` functions and their loops take a fuel argument that every call
spends; `parsecmd` gives them more than a line can use, and running out is an
error that no `panic` of the source has.  A `panic` is an error with its
message.

`Shape` is the structure of a line of words, `|` and `;`, the part both
shells of this repository agree to build, and `Shape.stdio` the descriptors
0 and 1 that running it gives each command: `runcmd`'s PIPE and LIST cases.
-/

namespace Xv6
namespace Sh

set_option autoImplicit false

/-! ## Tokens -/

/-- `whitespace`: space, tab, carriage return, newline and vertical tab. -/
def whitespace : List Char := [' ', '\t', '\r', '\n', '\x0b']

def symbols : List Char := ['<', '|', '>', '&', ';', '(', ')']

def MAXARGS : Nat := 10

/-- The character at position `s` of the line: NUL at its end and past it. -/
def charAt (buf : List Char) (s : Nat) : Char := buf.getD s '\x00'

/-- `while(s < es && strchr(whitespace, *s)) s++;` -/
def skipWhitespace (buf : List Char) (s : Nat) : Nat :=
  s + ((buf.drop s).takeWhile fun c => c ∈ whitespace).length

/-- The word case of `gettoken`:
`while(s < es && !strchr(whitespace, *s) && !strchr(symbols, *s)) s++;` -/
def skipWord (buf : List Char) (s : Nat) : Nat :=
  s + ((buf.drop s).takeWhile fun c => c ∉ whitespace ∧ c ∉ symbols).length

/-- `gettoken(ps, es, q, eq)`: the token's code (`'a'` for a word, `'+'` for
`>>`, NUL at the end of the line), where it starts and ends, and the position
after the whitespace that follows it. -/
def gettoken (buf : List Char) (s : Nat) : Char × Nat × Nat × Nat :=
  let q := skipWhitespace buf s
  let (ret, eq) : Char × Nat :=
    match charAt buf q with
    | '\x00' => ('\x00', q)
    | '|' => ('|', q + 1)
    | '(' => ('(', q + 1)
    | ')' => (')', q + 1)
    | ';' => (';', q + 1)
    | '&' => ('&', q + 1)
    | '<' => ('<', q + 1)
    | '>' => if charAt buf (q + 1) = '>' then ('+', q + 2) else ('>', q + 1)
    | _ => ('a', skipWord buf q)
  (ret, q, eq, skipWhitespace buf eq)

/-- `peek(ps, es, toks)`: whether the next token starts with one of `toks`,
and the position after the whitespace before it. -/
def peek (buf : List Char) (s : Nat) (toks : List Char) : Bool × Nat :=
  let s := skipWhitespace buf s
  (decide (charAt buf s ≠ '\x00' ∧ charAt buf s ∈ toks), s)

/-! ## The command tree -/

/-- `struct cmd` and its five kinds; a word or a file name is the pair of
positions `(q, eq)` where it starts and ends in the line. -/
inductive Cmd where
  | exec (argv : List (Nat × Nat))
  | redir (cmd : Cmd) (file efile : Nat) (mode : Nat) (fd : Nat)
  | pipe (left right : Cmd)
  | list (left right : Cmd)
  | back (cmd : Cmd)
  deriving DecidableEq, Repr

/-- `parseexec` keeps a pointer to its `execcmd` while `parseredirs` wraps
it, and fills in `argv` through that pointer: the innermost command of the
chain of redirections gets the words. -/
def Cmd.withArgv (argv : List (Nat × Nat)) : Cmd → Cmd
  | .redir cmd file efile mode fd => .redir (cmd.withArgv argv) file efile mode fd
  | .exec _ => .exec argv
  | cmd => cmd

/-! ## The parser -/

/-- `parseredirs(cmd, ps, es)`: `cmd` wrapped in a `redircmd` for each
redirection that follows, the first innermost. -/
def parseredirs (buf : List Char) : (fuel : Nat) → Cmd → Nat → Except String (Cmd × Nat)
  | 0, _, _ => .error "out of fuel"
  | fuel + 1, cmd, s =>
      let (more, s) := peek buf s ['<', '>']
      if more then
        let (tok, _, _, s) := gettoken buf s
        let (file, q, eq, s) := gettoken buf s
        if file ≠ 'a' then .error "missing file for redirection"
        else
          let cmd :=
            if tok = '<' then .redir cmd q eq O_RDONLY 0
            else if tok = '>' then .redir cmd q eq (O_WRONLY ||| O_CREATE ||| O_TRUNC) 1
            else if tok = '+' then .redir cmd q eq (O_WRONLY ||| O_CREATE) 1
            else cmd
          parseredirs buf fuel cmd s
      else .ok (cmd, s)

/-- The loop of `parseexec`: `ret` is the command so far, and `argv` the
words its `execcmd` gets when the loop stops. -/
def execLoop (buf : List Char) : (fuel : Nat) → Cmd → List (Nat × Nat) → Nat → Except String (Cmd × Nat)
  | 0, _, _, _ => .error "out of fuel"
  | fuel + 1, ret, argv, s =>
      let (stop, s) := peek buf s ['|', ')', '&', ';']
      if stop then .ok (ret.withArgv argv, s)
      else
        let (tok, q, eq, s) := gettoken buf s
        if tok = '\x00' then .ok (ret.withArgv argv, s)
        else if tok ≠ 'a' then .error "syntax"
        else
          let argv := argv ++ [(q, eq)]
          if MAXARGS ≤ argv.length then .error "too many args"
          else
            match parseredirs buf fuel ret s with
            | .error e => .error e
            | .ok (ret, s) => execLoop buf fuel ret argv s

/-- The `&` loop of `parseline`. -/
def backLoop (buf : List Char) : (fuel : Nat) → Cmd → Nat → Except String (Cmd × Nat)
  | 0, _, _ => .error "out of fuel"
  | fuel + 1, cmd, s =>
      let (amp, s) := peek buf s ['&']
      if amp then backLoop buf fuel (.back cmd) (gettoken buf s).2.2.2
      else .ok (cmd, s)

mutual

def parseline (buf : List Char) : (fuel : Nat) → Nat → Except String (Cmd × Nat)
  | 0, _ => .error "out of fuel"
  | fuel + 1, s => do
      let (cmd, s) ← parsepipe buf fuel s
      let (cmd, s) ← backLoop buf fuel cmd s
      let (semi, s) := peek buf s [';']
      if semi then
        let (right, s) ← parseline buf fuel (gettoken buf s).2.2.2
        pure (.list cmd right, s)
      else pure (cmd, s)
termination_by structural fuel _ => fuel

def parsepipe (buf : List Char) : (fuel : Nat) → Nat → Except String (Cmd × Nat)
  | 0, _ => .error "out of fuel"
  | fuel + 1, s => do
      let (cmd, s) ← parseexec buf fuel s
      let (bar, s) := peek buf s ['|']
      if bar then
        let (right, s) ← parsepipe buf fuel (gettoken buf s).2.2.2
        pure (.pipe cmd right, s)
      else pure (cmd, s)
termination_by structural fuel _ => fuel

def parseblock (buf : List Char) : (fuel : Nat) → Nat → Except String (Cmd × Nat)
  | 0, _ => .error "out of fuel"
  | fuel + 1, s => do
      let (paren, s) := peek buf s ['(']
      if !paren then throw "parseblock"
      let (cmd, s) ← parseline buf fuel (gettoken buf s).2.2.2
      let (close, s) := peek buf s [')']
      if !close then throw "syntax - missing )"
      parseredirs buf fuel cmd (gettoken buf s).2.2.2
termination_by structural fuel _ => fuel

def parseexec (buf : List Char) : (fuel : Nat) → Nat → Except String (Cmd × Nat)
  | 0, _ => .error "out of fuel"
  | fuel + 1, s => do
      let (paren, s) := peek buf s ['(']
      if paren then parseblock buf fuel s
      else
        let (ret, s) ← parseredirs buf fuel (.exec []) s
        execLoop buf fuel ret [] s
termination_by structural fuel _ => fuel

end

/-- `nulterminate(cmd)`: a NUL after every word and every file name. -/
def nulterminate : Cmd → List Char → List Char
  | .exec argv, buf => argv.foldl (fun buf w => buf.set w.2 '\x00') buf
  | .redir cmd _ efile _ _, buf => (nulterminate cmd buf).set efile '\x00'
  | .pipe left right, buf => nulterminate right (nulterminate left buf)
  | .list left right, buf => nulterminate right (nulterminate left buf)
  | .back cmd, buf => nulterminate cmd buf

/-- `parsecmd(s)`: the command and the line after `nulterminate`; what is
left after the line is a syntax error. -/
def parsecmd (buf : List Char) : Except String (Cmd × List Char) := do
  let (cmd, s) ← parseline buf (4 * buf.length + 4) 0
  let (_, s) := peek buf s []
  if s ≠ buf.length then throw "syntax"
  pure (cmd, nulterminate cmd buf)

/-- The C string at position `p` of the line. -/
def cstr (buf : List Char) (p : Nat) : List Char := (buf.drop p).takeWhile fun c => c ≠ '\x00'

/-! ## What a line of words, `|` and `;` runs -/

/-- The structure of a line of words, `|` and `;`. -/
inductive Shape where
  | exec (words : List (List Char))
  | pipe (left right : Shape)
  | seq (left right : Shape)
  deriving DecidableEq, Repr

/-- The shape of a tree of EXEC, PIPE and LIST nodes, with the words read
from the line after `nulterminate`. -/
def Cmd.shape (buf : List Char) : Cmd → Option Shape
  | .exec argv => some (.exec (argv.map fun w => cstr buf w.1))
  | .pipe left right => return .pipe (← left.shape buf) (← right.shape buf)
  | .list left right => return .seq (← left.shape buf) (← right.shape buf)
  | _ => none

/-- Where a command's standard input or output is: the shell's own, or an end
of the pipe that the `|` at `path` in the tree makes. -/
inductive Channel where
  | shell
  | pipe (path : List Bool)
  deriving DecidableEq, Repr

/-- `runcmd`'s descriptors 0 and 1 for each command it execs, in the order of
the line: a PIPE node's left side runs with its output on the pipe's write
end and its right side with its input on the read end; a LIST node runs both
sides with the descriptors it has. -/
def Shape.stdio : Shape → List Bool → Channel → Channel → List (List (List Char) × Channel × Channel)
  | .exec words, _, input, output => [(words, input, output)]
  | .pipe left right, path, input, output =>
      left.stdio (path ++ [false]) input (.pipe path) ++ right.stdio (path ++ [true]) (.pipe path) output
  | .seq left right, path, input, output =>
      left.stdio (path ++ [false]) input output ++ right.stdio (path ++ [true]) input output


end Sh
end Xv6
