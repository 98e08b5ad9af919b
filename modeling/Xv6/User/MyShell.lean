import Xv6.User.Sh
import Xv6.Kernel.FileRw
import Xv6.Kernel.WriteContent

/-!
# my_shell.c: `run_command`

`run_command(buf, nbuf, pcp)` runs one line in three phases.  It first scans
the line for the first `|` or `;`: at a `|` it runs the two sides joined by
a pipe, at a `;` the left side and then the right, each side by a call of
`run_command` on it (`runCommand`, whose tree of calls is a `Job`).  A side
without an operator is tokenized into `arguments[]`, and the redirection
operators are shifted out of it with the file name after them (`parseArgs`).
Last, it opens the files of the redirections and execs the command.

`arguments[]` has `MAX` slots on the stack; a read or a write of a slot past
them is an error of the model, and so is a `strcmp` of the null pointer.  The
slots the tokenizer does not write hold what the stack held (`stack`).

The output redirection opens the file `O_WRONLY | O_CREATE`; for `>>` it then
reads the file one byte at a time to move the offset to its end, through the
kernel's `fileread` (`seekLoop`).  `appendOutput` is that path followed by the
command's `write` through the same file.
-/

namespace Xv6
namespace MyShell

open Sh (charAt cstr Shape Channel)

set_option autoImplicit false

/-! ## The split at the first operator -/

/-- `for (int i = 0; i < nbuf && *pointer != '\0'; i++)`: the position of the
first `|` or `;` among the first `nbuf` characters before the NUL. -/
def findOperator (nbuf : Nat) (buf : List Char) : Option Nat :=
  ((buf.takeWhile fun c => c ≠ '\x00').take nbuf).findIdx? fun c => c = '|' ∨ c = ';'

theorem findOperator_lt {nbuf i : Nat} {buf : List Char} (found : findOperator nbuf buf = some i) :
    i < buf.length := by
  obtain ⟨inside, -, -⟩ := List.findIdx?_eq_some_iff_getElem.mp found
  have shorter : ((buf.takeWhile fun c => c ≠ '\x00').take nbuf).length ≤ buf.length :=
    le_trans (List.length_take_le' _ _) (List.takeWhile_prefix _).length_le
  omega

/-- What `run_command` runs: the two sides of a pipe, a command and then the
rest of the line, or one command of a line without operators. -/
inductive Job where
  | pipe (left right : Job)
  | seq (first next : Job)
  | exec (line : List Char)
  deriving DecidableEq, Repr

/-- `run_command(buf, nbuf, pcp)`: the NUL written at the operator ends the
left side, and the right side starts after it. -/
def runCommand (nbuf : Nat) (buf : List Char) : Job :=
  match found : findOperator nbuf buf with
  | some i =>
      if charAt buf i = '|' then .pipe (runCommand nbuf (buf.take i)) (runCommand nbuf (buf.drop (i + 1)))
      else .seq (runCommand nbuf (buf.take i)) (runCommand nbuf (buf.drop (i + 1)))
  | none => .exec buf
termination_by buf.length
decreasing_by
  all_goals have := findOperator_lt found
  all_goals simp only [List.length_take, List.length_drop]
  all_goals omega

theorem runCommand_of_none {nbuf : Nat} {buf : List Char} (none : findOperator nbuf buf = none) :
    runCommand nbuf buf = .exec buf := by
  rw [runCommand]
  split
  · rename_i found
    rw [none] at found
    exact absurd found (Option.some_ne_none _).symm
  · rfl

theorem runCommand_of_some {nbuf i : Nat} {buf : List Char} (found : findOperator nbuf buf = some i) :
    runCommand nbuf buf =
      if charAt buf i = '|' then .pipe (runCommand nbuf (buf.take i)) (runCommand nbuf (buf.drop (i + 1)))
      else .seq (runCommand nbuf (buf.take i)) (runCommand nbuf (buf.drop (i + 1))) := by
  rw [runCommand]
  split
  · rename_i j found'
    rw [found] at found'
    rw [Option.some.inj found']
  · rename_i found'
    rw [found] at found'
    exact absurd found' (Option.some_ne_none _)

/-- The scan stopped at the first operator, so the left side has none. -/
theorem findOperator_take {nbuf i : Nat} {buf : List Char} (found : findOperator nbuf buf = some i) :
    findOperator nbuf (buf.take i) = none := by
  obtain ⟨inside, -, before⟩ := List.findIdx?_eq_some_iff_getElem.mp found
  -- the left side's scanned prefix is the first `i` characters of the line's
  have scanned : ((buf.take i).takeWhile fun c => c ≠ '\x00').take nbuf =
      ((buf.takeWhile fun c => c ≠ '\x00').take nbuf).take i := by
    rw [← List.take_takeWhile, List.take_take, List.take_take]
    rw [List.length_take] at inside
    congr 1
    omega
  unfold findOperator
  rw [scanned, List.findIdx?_eq_none_iff]
  intro x mem
  obtain ⟨j, below, rfl⟩ := List.mem_take_iff_getElem.mp mem
  simpa using before j (by omega)

/-- A chain of commands joined by operators whose left sides are single
commands: every operator groups all of the line after it. -/
def Job.RightNested : Job → Prop
  | .exec _ => True
  | .pipe (.exec _) right => right.RightNested
  | .seq (.exec _) next => next.RightNested
  | _ => False

/-- Whatever the line, every operator of it groups all of the line after it:
the scan stops at the first, so the left side runs as one command. -/
theorem runCommand_rightNested (nbuf : Nat) (buf : List Char) : (runCommand nbuf buf).RightNested := by
  fun_induction runCommand nbuf buf with
  | case1 buf i found pipe _ ihRight =>
    rw [runCommand_of_none (findOperator_take found)]
    exact ihRight
  | case2 buf i found seq _ ihRight =>
    rw [runCommand_of_none (findOperator_take found)]
    exact ihRight
  | case3 buf none => trivial

/-! ## Tokens and redirections -/

def MAX : Nat := 10

/-- `while (*pointer == ' ' || *pointer == '\t') pointer++;` -/
def skipBlanks (buf : List Char) (p : Nat) : Nat :=
  p + ((buf.drop p).takeWhile fun c => c = ' ' ∨ c = '\t').length

/-- `while (*pointer != ' ' && *pointer != '\0') pointer++;` -/
def skipArgument (buf : List Char) (p : Nat) : Nat :=
  p + ((buf.drop p).takeWhile fun c => c ≠ ' ' ∧ c ≠ '\x00').length

/-- `run_command`'s locals for the tokenizer and the redirections: the line it
writes NULs into, `arguments[]` as pointers into the line (`none` is the null
pointer), `numargs`, and what the redirections set. -/
structure Args where
  buf : List Char
  arguments : List (Option Nat)
  numargs : Nat
  redirectionLeft : Bool
  redirectionRight : Bool
  rdAppend : Bool
  fileNameL : Option Nat
  fileNameR : Option Nat
  deriving DecidableEq, Repr

/-- `arguments[i]`, an error past its `MAX` slots. -/
def Args.get (a : Args) (i : Nat) : Except String (Option Nat) :=
  if i < MAX then .ok (a.arguments.getD i none) else .error "arguments[] read out of bounds"

/-- `arguments[i] = v`, an error past its `MAX` slots. -/
def Args.set (a : Args) (i : Nat) (v : Option Nat) : Except String Args :=
  if i < MAX then .ok { a with arguments := a.arguments.set i v } else .error "arguments[] written out of bounds"

/-- The tokenizer loop at `pointer`; `room` counts the words it may still take
before `numargs` reaches `MAX - 1`. -/
def tokenLoop : (room : Nat) → Args → Nat → Except String Args
  | 0, a, _ => .ok a
  | room + 1, a, p =>
      if charAt a.buf p = '\x00' then .ok a
      else do
        let p := skipBlanks a.buf p
        let a ← a.set a.numargs (some p)
        let a := { a with numargs := a.numargs + 1 }
        let p := skipArgument a.buf p
        if charAt a.buf p ≠ '\x00' then tokenLoop room { a with buf := a.buf.set p '\x00' } (p + 1)
        else tokenLoop room a p

/-- The tokenizer, from `numargs = 0` and the stack's `arguments[]`, and then
`arguments[numargs] = 0`. -/
def tokenize (buf : List Char) (stack : List (Option Nat)) : Except String Args := do
  let a ← tokenLoop (MAX - 1) ⟨buf, stack, 0, false, false, false, none, none⟩ 0
  a.set a.numargs none

/-- `for (int j = i; arguments[j] != 0; j++) arguments[j] = arguments[j + 2];` -/
def shiftLoop : (fuel : Nat) → Args → Nat → Except String Args
  | 0, _, _ => .error "out of fuel"
  | fuel + 1, a, j => do
      match ← a.get j with
      | none => pure a
      | some _ =>
          let a ← a.set j (← a.get (j + 2))
          shiftLoop fuel a (j + 1)

/-- `strcmp(arguments[i], op) == 0 && arguments[i + 1] != 0`: the file name
after the operator `op` at `i`, if there is one. -/
def Args.operatorAt (a : Args) (i : Nat) (op : List Char) : Except String (Option Nat) := do
  match ← a.get i with
  | none => .error "strcmp of the null pointer"
  | some p => if cstr a.buf p = op then a.get (i + 1) else pure none

/-- What the three branches share: the operator at `i` and the name after it
are shifted out, and `numargs -= 2`. -/
def Args.removePair (a : Args) (i : Nat) : Except String Args := do
  let a ← shiftLoop (MAX + 1) a i
  pure { a with numargs := a.numargs - 2 }

/-- The redirection loop at `i`; `i--` and then `i++` after a removal look at
the same slot again. -/
def redirLoop : (fuel : Nat) → Args → Nat → Except String Args
  | 0, _, _ => .error "out of fuel"
  | fuel + 1, a, i =>
      if i < a.numargs then do
        match ← a.operatorAt i ['>', '>'] with
        | some file =>
            redirLoop fuel (← { a with redirectionRight := true, rdAppend := true, fileNameR := some file }.removePair i) i
        | none =>
        match ← a.operatorAt i ['>'] with
        | some file =>
            redirLoop fuel (← { a with redirectionRight := true, rdAppend := false, fileNameR := some file }.removePair i) i
        | none =>
        match ← a.operatorAt i ['<'] with
        | some file => redirLoop fuel (← { a with redirectionLeft := true, fileNameL := some file }.removePair i) i
        | none => redirLoop fuel a (i + 1)
      else pure a

/-- The tokenizing and redirection phase of `run_command` on a line without
`|` or `;`. -/
def parseArgs (buf : List Char) (stack : List (Option Nat)) : Except String Args := do
  let a ← tokenize buf stack
  redirLoop (2 * MAX) a 0

/-- `strcmp(arguments[0], "cd") == 0`. -/
def Args.isCd (a : Args) : Except String Bool := do
  match ← a.get 0 with
  | none => .error "strcmp of the null pointer"
  | some p => pure (cstr a.buf p = ['c', 'd'])

/-- The words `exec` gets: `arguments[0..numargs)`. -/
def Args.argv (a : Args) : List (List Char) :=
  (a.arguments.take a.numargs).map fun p => cstr a.buf (p.getD 0)

/-- A stack whose slots are all the null pointer. -/
def zeroStack : List (Option Nat) := List.replicate MAX none

/-- The words of a line as the tokenizer is meant to read them: the maximal
non-empty runs of characters other than ' ' and '\t'; `word` is the run read
so far. -/
def wordsFrom (word : List Char) : List Char → List (List Char)
  | [] => if word = [] then [] else [word]
  | c :: rest =>
      if c = ' ' ∨ c = '\t' then (if word = [] then [] else [word]) ++ wordsFrom [] rest
      else wordsFrom (word ++ [c]) rest

def intendedWords (line : List Char) : List (List Char) := wordsFrom [] line

/-- Four lines on which the tokenizing phase, with `arguments[]` zeroed, does
not leave the words of the line: a tab inside a word is kept, two trailing
spaces give an empty word, the empty line leaves `arguments[0]` null for the
`strcmp` with `"cd"`, and nine words ending in `> x` shift `arguments[10]`,
past the array, into it. -/
theorem run_command_tokens_diverge :
    intendedWords ['a', '\t', 'b'] = [['a'], ['b']] ∧
      (parseArgs ['a', '\t', 'b'] zeroStack).map Args.argv = .ok [['a', '\t', 'b']] ∧
    intendedWords ['l', 's', ' ', ' '] = [['l', 's']] ∧
      (parseArgs ['l', 's', ' ', ' '] zeroStack).map Args.argv = .ok [['l', 's'], []] ∧
    (parseArgs [] zeroStack >>= Args.isCd) = .error "strcmp of the null pointer" ∧
    parseArgs ['a', ' ', 'b', ' ', 'c', ' ', 'd', ' ', 'e', ' ', 'f', ' ', 'g', ' ', '>', ' ', 'x'] zeroStack =
      .error "arguments[] read out of bounds" := by
  refine ⟨by decide, by decide, by decide, by decide, by decide, by decide⟩

/-! ## Output redirection -/

/-- The mode `run_command` opens an output file with: for `>` before it opens
the file again with `O_TRUNC`, and for `>>` for good. -/
def outputMode : Nat := O_WRONLY ||| O_CREATE

/-- `while (read(descriptor_out, buffer, 1) > 0);` from the file's offset. -/
def seekLoop (sb : Superblock) (readable : Bool) (buffer : Nat) :
    (fuel : Nat) → UInt32 → Fs → Inode → Mem → Except String (UInt32 × Fs × Inode × Mem)
  | 0, _, _, _, _ => .error "out of fuel"
  | fuel + 1, off, fs, ip, m => do
      let (r, off, fs, ip, m) ← fileread sb fs ip m readable off buffer 1
      if r > 0 then seekLoop sb readable buffer fuel off fs ip m else pure (off, fs, ip, m)

/-- The `>>` path and the command after it: the file `sys_open` fills in for
`outputMode`, at offset 0; the loop that is to move that offset to the end of
the file, with one read for each byte a file can hold; and the command's
`write(1, addr, n)` through the descriptor `dup` made, which shares the file
and its offset.  `m` is the shell's memory and `mc` the command's. -/
def appendOutput (sb : Superblock) (ff : File) (fs : Fs) (ip : Inode) (m : Mem) (buffer : Nat) (mc : Mem)
    (addr : Nat) (n : Int) : Except String (Int × UInt32 × Fs × Inode) := do
  let f := FileSys.openedFile ff ip.inum T_FILE outputMode
  let (off, fs, ip, _) ← seekLoop sb f.readable buffer (2 ^ 32) 0 fs ip m
  filewrite sb fs ip mc f.writable off addr n

/-- `sys_open` makes a file opened `O_WRONLY | O_CREATE` writable and not
readable. -/
theorem openedFile_outputMode (ff : File) (i : Nat) (type : Int) :
    (FileSys.openedFile ff i type outputMode).readable = false ∧
      (FileSys.openedFile ff i type outputMode).writable = true := by
  simp only [FileSys.openedFile]
  decide

/-- On a file that is not readable the first read returns -1: the loop stops
there, and the offset and the state are as they were. -/
theorem seekLoop_unreadable (sb : Superblock) (buffer fuel : Nat) (off : UInt32) (fs : Fs) (ip : Inode)
    (m : Mem) : seekLoop sb false buffer (fuel + 1) off fs ip m = .ok (off, fs, ip, m) := by
  rfl

/-- Whatever the file holds, `>>` writes the command's output at offset 0. -/
theorem appendOutput_eq (sb : Superblock) (ff : File) (fs : Fs) (ip : Inode) (m : Mem) (buffer : Nat)
    (mc : Mem) (addr : Nat) (n : Int) :
    appendOutput sb ff fs ip m buffer mc addr n = filewrite sb fs ip mc true 0 addr n := by
  obtain ⟨unreadable, writable⟩ := openedFile_outputMode ff ip.inum T_FILE
  have loop := seekLoop_unreadable sb buffer (2 ^ 32 - 1) 0 fs ip m
  rw [show 2 ^ 32 - 1 + 1 = 2 ^ 32 from rfl] at loop
  simp only [appendOutput, unreadable, writable, loop]
  rfl

/-- Byte 4095 of `edgeMem` is on its mapped page. -/
theorem edgeMem_canRead : edgeMem.CanRead true 4095 1 := fun _ x lo below => by
  have first : PGROUNDDOWN x = 0 := by
    unfold PGROUNDDOWN PGSIZE
    omega
  simp [edgeMem, first]

/-- A one-byte write at offset 0 of the one-block file, of the byte 9 at the
mapped address 4095: `filewrite` writes it, the size stays 1024, and the
file's first byte is 9. -/
theorem filewrite_oneBlock_start :
    ∃ fs' ip', filewrite bootSb ⟨oneBlockDisk, []⟩ (loaded bootSb oneBlockDisk 1 1) edgeMem true 0 4095 1 =
        .ok (1, 1, fs', ip') ∧ ip'.size = 1024 ∧ fileBytes fs'.disk ip'.toDinode 0 1 = [9] := by
  have inv : OpInv bootSb oneBlockDisk (loaded bootSb oneBlockDisk 1 1) :=
    oneBlockDisk_owned.opInv_loaded 1 (by decide) (by decide)
  obtain ⟨tot, fs', ip', wrote, atMost, -, short, sized, content⟩ :=
    @writei_content bootSb bootSb_valid ⟨oneBlockDisk, []⟩ _ inv edgeMem true 4095 0 1
      (by decide) (by decide) (by decide) edgeMem_canRead
  -- the file's block 0 is mapped, so the write does not stop short
  have full : tot = 1 := by
    by_contra stopped
    simp only [UInt32.toNat_zero, Nat.zero_add] at short
    have atZero : tot / BSIZE = 0 := by
      rw [BSIZE_eq]
      simp at atMost
      omega
    rw [atZero] at short
    exact absurd (short (by simp at atMost ⊢; omega)) (by decide)
  subst full
  refine ⟨fs', ip', ?_, ?_, ?_⟩
  · exact filewrite_of_writei rfl (by decide) (by decide) wrote
  · rw [congrArg (fun ip : Inode => ip.size) sized]
    show max (table bootSb oneBlockDisk 1).size (0 + 1) = 1024
    decide
  · -- the one byte written is byte 0 of the file, read from address 4095
    have first := content 0 (Or.inr ⟨Nat.zero_le _, by decide⟩)
    rw [if_pos ⟨Nat.zero_le _, by decide⟩] at first
    simp [fileBytes, first, Mem.source, edgeMem]

/-- `cmd >> f` on the one-block file `f`, whose 1024 bytes start with a 0, and
a command whose output is the one byte 9: the read loop stops at once, the
byte is written at offset 0, and the file still has 1024 bytes, the first of
them now 9, instead of its 1024 bytes followed by the 9. -/
theorem append_overwrites_start (ff : File) (m : Mem) (buffer : Nat) :
    ∃ fs' ip', appendOutput bootSb ff ⟨oneBlockDisk, []⟩ (loaded bootSb oneBlockDisk 1 1) m buffer edgeMem 4095 1 =
        .ok (1, 1, fs', ip') ∧
      (loaded bootSb oneBlockDisk 1 1).size = 1024 ∧ fileBytes oneBlockDisk (table bootSb oneBlockDisk 1) 0 1 = [0] ∧
      ip'.size = 1024 ∧ fileBytes fs'.disk ip'.toDinode 0 1 = [9] := by
  obtain ⟨fs', ip', wrote, size, first⟩ := filewrite_oneBlock_start
  exact ⟨fs', ip', by rw [appendOutput_eq, wrote], by decide, by decide, size, first⟩

/-! ## The tree beside sh's -/

/-- The shape of what `run_command` runs, with the words each command is
exec'd with. -/
def Job.shape : Job → Except String Shape
  | .exec line => do pure (.exec (← parseArgs line zeroStack).argv)
  | .pipe left right => do pure (.pipe (← left.shape) (← right.shape))
  | .seq first next => do pure (.seq (← first.shape) (← next.shape))

/-- `a | b ; c`: `run_command` splits at the `|` and runs `b ; c` on its right,
so `c` reads from the pipe; `parsecmd` binds `|` tighter than `;`, and there
`c` reads the shell's input. -/
theorem run_command_splits_before_precedence :
    (runCommand 100 ['a', ' ', '|', ' ', 'b', ' ', ';', ' ', 'c']).shape =
        .ok (.pipe (.exec [['a']]) (.seq (.exec [['b']]) (.exec [['c']]))) ∧
      ((Sh.parsecmd ['a', ' ', '|', ' ', 'b', ' ', ';', ' ', 'c']).map fun r => r.1.shape r.2) =
        .ok (some (.seq (.pipe (.exec [['a']]) (.exec [['b']])) (.exec [['c']]))) ∧
      (Shape.pipe (.exec [['a']]) (.seq (.exec [['b']]) (.exec [['c']]))).stdio [] .shell .shell =
        [([['a']], .shell, .pipe []), ([['b']], .pipe [], .shell), ([['c']], .pipe [], .shell)] ∧
      (Shape.seq (.pipe (.exec [['a']]) (.exec [['b']])) (.exec [['c']])).stdio [] .shell .shell =
        [([['a']], .shell, .pipe [false]), ([['b']], .pipe [false], .shell), ([['c']], .shell, .shell)] := by
  -- the scan finds the `|` at 2, and on the right side the `;` at 3
  have tree : runCommand 100 ['a', ' ', '|', ' ', 'b', ' ', ';', ' ', 'c'] =
      .pipe (.exec ['a', ' ']) (.seq (.exec [' ', 'b', ' ']) (.exec [' ', 'c'])) := by
    rw [runCommand_of_some (show findOperator 100 ['a', ' ', '|', ' ', 'b', ' ', ';', ' ', 'c'] = some 2 by decide),
      if_pos (show charAt ['a', ' ', '|', ' ', 'b', ' ', ';', ' ', 'c'] 2 = '|' by decide)]
    show Job.pipe (runCommand 100 ['a', ' ']) (runCommand 100 [' ', 'b', ' ', ';', ' ', 'c']) = _
    rw [runCommand_of_none (show findOperator 100 ['a', ' '] = none by decide),
      runCommand_of_some (show findOperator 100 [' ', 'b', ' ', ';', ' ', 'c'] = some 3 by decide),
      if_neg (show ¬charAt [' ', 'b', ' ', ';', ' ', 'c'] 3 = '|' by decide)]
    show Job.pipe _ (Job.seq (runCommand 100 [' ', 'b', ' ']) (runCommand 100 [' ', 'c'])) = _
    rw [runCommand_of_none (show findOperator 100 [' ', 'b', ' '] = none by decide),
      runCommand_of_none (show findOperator 100 [' ', 'c'] = none by decide)]
  exact ⟨by rw [tree]; decide, by decide, by decide, by decide⟩

end MyShell
end Xv6
