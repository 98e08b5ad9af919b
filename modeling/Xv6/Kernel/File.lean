/-
# Kernel.File -- file.c and sysfile.c: open files, descriptors and pipe ends

`ftable.file[NFILE]` holds the open files.  A process's descriptors
`p->ofile[NOFILE]` point at them, and `ref` counts the descriptors: `filedup`
adds one, `fileclose` takes one away and, at the last, gives the file's own
reference back, to its pipe (`pipeclose`) or to its inode (`iput`).  A pipe
has one read and one write file; its page is freed when both are closed.

The model runs one system call of one process as one step (`exec`): `open`,
`dup`, `close`, `pipe`, `fork`, `exit`, and `wait`'s `freeproc` of a zombie.
What the calls get from below is a parameter of the step: the inode `namei` or
`create` found, the page `kalloc` gave `pipealloc`, whether `fork`'s
allocations and the copies of `pipe`'s descriptors out succeed.  Every failure
path of `sys_open`, `sys_pipe`, `pipealloc` and `fork` is modelled as the code
has it.  Inode references are counted per inode number (`iref`).

`Inv s held heldIp` is what holds between the lines of a call: every file's
`ref` is the number of descriptors that point at it plus the references the
call holds (`held`), and every inode's count is the files and working
directories that hold it plus the call's own (`heldIp`).  Each operation of
file.c has its lemma (`Inv.alloc`, `Inv.dup`, `Inv.fileclose`,
`Inv.install`, ...), each call is a chain of them, and `file_refs` is the
invariant over every run, with no panic and no use of a freed pipe on the way.
-/
import Xv6.Kernel.Proc
import Xv6.Kernel.Transactions
import Xv6.Kernel.Layout
import Xv6.Theory.Count

namespace Xv6

open Count Paths

set_option autoImplicit false

/-! ## fcntl.h -/

def O_RDONLY : Nat := 0x000
def O_WRONLY : Nat := 0x001
def O_RDWR : Nat := 0x002
def O_CREATE : Nat := 0x200
def O_TRUNC : Nat := 0x400

/-! ## file.h and pipe.c -/

/-- What an open file is. -/
inductive FileType
  | NONE
  | PIPE
  | INODE
  | DEVICE
  deriving DecidableEq, Repr

/-- `struct file`, with the fields its reference counts depend on: `pipe` is
the pipe's page and `ip` the inode's number. -/
structure File where
  type : FileType
  ref : Nat
  readable : Bool
  writable : Bool
  pipe : Nat
  ip : Nat
  deriving DecidableEq, Repr

/-- `struct pipe`: which of its ends are open. -/
structure PipeEnds where
  readopen : Bool
  writeopen : Bool
  deriving DecidableEq, Repr

/-- Whether the write end (`w`) or the read end of a pipe is open. -/
def PipeEnds.isOpen (e : PipeEnds) (w : Bool) : Bool := if w then e.writeopen else e.readopen

/-- `pipeclose`'s first step: the write end (`w`) or the read end closes. -/
def PipeEnds.close (e : PipeEnds) (w : Bool) : PipeEnds :=
  if w then { e with writeopen := false } else { e with readopen := false }

/-- The processes, the open files, the pages that hold a pipe, and the
reference count of each inode's table entry. -/
structure FileSys (n k nf : Nat) where
  state : Fin n → ProcState
  ofile : Fin n → Fin k → Option (Fin nf)
  cwd : Fin n → Option Nat
  file : Fin nf → File
  pipe : Nat → Option PipeEnds
  iref : Nat → Nat

/-- A system call of a process, with what the layers below the model give it:
the inode `namei` or `create` found for `open` (number, type and major), the
page `kalloc` gives `pipealloc` and whether the descriptors are copied out,
and whether `fork`'s allocations and copy of memory succeed.  `wait` frees a
zombie child. -/
inductive FileAct (n : Nat)
  | open (found : Option (Nat × Int × Int)) (omode : Nat)
  | dup (fd : Int)
  | close (fd : Int)
  | pipe (page : Option Nat) (copied : Bool)
  | fork (allocated : Bool)
  | exit
  | wait (child : Fin n)

/-- The inode an open file holds a reference to. -/
def File.inode (ff : File) : Option Nat :=
  if 0 < ff.ref ∧ (ff.type = .INODE ∨ ff.type = .DEVICE) then some ff.ip else none

/-- `ff` is an open end of pipe `pi`: its write end when `w`, its read end
otherwise. -/
def File.IsEnd (ff : File) (pi : Nat) (w : Bool) : Prop :=
  0 < ff.ref ∧ ff.type = .PIPE ∧ ff.pipe = pi ∧ ff.writable = w

namespace FileSys

variable {n k nf : Nat}

/-! ## Updates -/

section Updates

variable (s : FileSys n k nf)

def setFile (f : Fin nf) (ff : File) : FileSys n k nf := { s with file := Function.update s.file f ff }

def setFd (p : Fin n) (fd : Fin k) (x : Option (Fin nf)) : FileSys n k nf :=
  { s with ofile := Function.update s.ofile p (Function.update (s.ofile p) fd x) }

/-- `idup`, and the reference `iget` gives `namei` and `create`: one more
reference to inode `i`. -/
def idup (i : Nat) : FileSys n k nf := { s with iref := Function.update s.iref i (s.iref i + 1) }

/-- `iput`: one reference to inode `i` fewer. -/
def iput (i : Nat) : FileSys n k nf := { s with iref := Function.update s.iref i (s.iref i - 1) }

def setState (q : Fin n) (st : ProcState) : FileSys n k nf := { s with state := Function.update s.state q st }

def setCwd (q : Fin n) (x : Option Nat) : FileSys n k nf := { s with cwd := Function.update s.cwd q x }

def setPipe (pi : Nat) (x : Option PipeEnds) : FileSys n k nf := { s with pipe := Function.update s.pipe pi x }

variable (f : Fin nf) (ff : File) (p : Fin n) (fd : Fin k) (x : Option (Fin nf)) (i : Nat)

@[simp] theorem setFile_file : (s.setFile f ff).file = Function.update s.file f ff := rfl
@[simp] theorem setFile_ofile : (s.setFile f ff).ofile = s.ofile := rfl
@[simp] theorem setFile_state : (s.setFile f ff).state = s.state := rfl
@[simp] theorem setFile_cwd : (s.setFile f ff).cwd = s.cwd := rfl
@[simp] theorem setFile_pipe : (s.setFile f ff).pipe = s.pipe := rfl
@[simp] theorem setFile_iref : (s.setFile f ff).iref = s.iref := rfl

@[simp] theorem setFd_ofile : (s.setFd p fd x).ofile = Function.update s.ofile p (Function.update (s.ofile p) fd x) :=
  rfl
@[simp] theorem setFd_file : (s.setFd p fd x).file = s.file := rfl
@[simp] theorem setFd_state : (s.setFd p fd x).state = s.state := rfl
@[simp] theorem setFd_cwd : (s.setFd p fd x).cwd = s.cwd := rfl
@[simp] theorem setFd_pipe : (s.setFd p fd x).pipe = s.pipe := rfl
@[simp] theorem setFd_iref : (s.setFd p fd x).iref = s.iref := rfl

@[simp] theorem idup_iref : (s.idup i).iref = Function.update s.iref i (s.iref i + 1) := rfl
@[simp] theorem idup_file : (s.idup i).file = s.file := rfl
@[simp] theorem idup_ofile : (s.idup i).ofile = s.ofile := rfl
@[simp] theorem idup_state : (s.idup i).state = s.state := rfl
@[simp] theorem idup_cwd : (s.idup i).cwd = s.cwd := rfl
@[simp] theorem idup_pipe : (s.idup i).pipe = s.pipe := rfl

@[simp] theorem iput_iref : (s.iput i).iref = Function.update s.iref i (s.iref i - 1) := rfl
@[simp] theorem iput_file : (s.iput i).file = s.file := rfl
@[simp] theorem iput_ofile : (s.iput i).ofile = s.ofile := rfl
@[simp] theorem iput_state : (s.iput i).state = s.state := rfl
@[simp] theorem iput_cwd : (s.iput i).cwd = s.cwd := rfl
@[simp] theorem iput_pipe : (s.iput i).pipe = s.pipe := rfl

variable (q : Fin n) (st : ProcState) (c : Option Nat)

@[simp] theorem setState_state : (s.setState q st).state = Function.update s.state q st := rfl
@[simp] theorem setState_file : (s.setState q st).file = s.file := rfl
@[simp] theorem setState_ofile : (s.setState q st).ofile = s.ofile := rfl
@[simp] theorem setState_cwd : (s.setState q st).cwd = s.cwd := rfl
@[simp] theorem setState_pipe : (s.setState q st).pipe = s.pipe := rfl
@[simp] theorem setState_iref : (s.setState q st).iref = s.iref := rfl

@[simp] theorem setCwd_cwd : (s.setCwd q c).cwd = Function.update s.cwd q c := rfl
@[simp] theorem setCwd_file : (s.setCwd q c).file = s.file := rfl
@[simp] theorem setCwd_ofile : (s.setCwd q c).ofile = s.ofile := rfl
@[simp] theorem setCwd_state : (s.setCwd q c).state = s.state := rfl
@[simp] theorem setCwd_pipe : (s.setCwd q c).pipe = s.pipe := rfl
@[simp] theorem setCwd_iref : (s.setCwd q c).iref = s.iref := rfl

variable (pi : Nat) (e : Option PipeEnds)

@[simp] theorem setPipe_pipe : (s.setPipe pi e).pipe = Function.update s.pipe pi e := rfl
@[simp] theorem setPipe_file : (s.setPipe pi e).file = s.file := rfl
@[simp] theorem setPipe_ofile : (s.setPipe pi e).ofile = s.ofile := rfl
@[simp] theorem setPipe_state : (s.setPipe pi e).state = s.state := rfl
@[simp] theorem setPipe_cwd : (s.setPipe pi e).cwd = s.cwd := rfl
@[simp] theorem setPipe_iref : (s.setPipe pi e).iref = s.iref := rfl

end Updates

/-! ## file.c -/

section FileC

variable (s : FileSys n k nf)

/-- `filealloc`: the first file with `ref == 0`, now with `ref = 1`. -/
def filealloc : Option (Fin nf × FileSys n k nf) :=
  match (List.finRange nf).find? fun f => (s.file f).ref = 0 with
  | none => none
  | some f => some (f, s.setFile f { s.file f with ref := 1 })

/-- `filedup`: one more reference. -/
def filedup (f : Fin nf) : Except String (FileSys n k nf) :=
  if (s.file f).ref < 1 then .error "filedup"
  else .ok (s.setFile f { s.file f with ref := (s.file f).ref + 1 })

/-- `pipeclose`: the end closes, and the page is freed when both are closed.
A page that holds no pipe is one already freed: the model stops there. -/
def pipeclose (pi : Nat) (writable : Bool) : Except String (FileSys n k nf) :=
  match s.pipe pi with
  | none => .error "pipeclose: freed pipe"
  | some e =>
      let e := e.close writable
      if e.readopen = false ∧ e.writeopen = false then .ok (s.setPipe pi none)
      else .ok (s.setPipe pi (some e))

/-- The end of `fileclose` once the last reference is gone: the copy `ff` of
the file gives its own reference back, to its pipe or its inode. -/
def closeLast (ff : File) : Except String (FileSys n k nf) :=
  match ff.type with
  | .PIPE => s.pipeclose ff.pipe ff.writable
  | .INODE | .DEVICE => .ok (s.iput ff.ip)
  | .NONE => .ok s

/-- `fileclose`: one reference fewer; the last clears the file, then gives its
own reference back. -/
def fileclose (f : Fin nf) : Except String (FileSys n k nf) :=
  let ff := s.file f
  if ff.ref < 1 then .error "fileclose"
  else if ff.ref - 1 > 0 then .ok (s.setFile f { ff with ref := ff.ref - 1 })
  else (s.setFile f { ff with ref := 0, type := .NONE }).closeLast ff

end FileC

/-! ## sysfile.c -/

section SysFile

variable (s : FileSys n k nf) (p : Fin n)

/-- `argfd`: descriptor `fd` of `p` and its file, if it is open. -/
def argfd (fd : Int) : Option (Fin k × Fin nf) :=
  if range : 0 ≤ fd ∧ fd < k then
    match s.ofile p ⟨fd.toNat, by omega⟩ with
    | none => none
    | some f => some (⟨fd.toNat, by omega⟩, f)
  else none

/-- `fdalloc`: the first free descriptor of `p`, now pointing at `f`. -/
def fdalloc (f : Fin nf) : Option (Fin k × FileSys n k nf) :=
  match (List.finRange k).find? fun fd => s.ofile p fd = none with
  | none => none
  | some fd => some (fd, s.setFd p fd (some f))

def sysDup (fd : Int) : Except String (Int × FileSys n k nf) :=
  match s.argfd p fd with
  | none => .ok (-1, s)
  | some (_, f) =>
      match s.fdalloc p f with
      | none => .ok (-1, s)
      | some (fd, s) =>
          match s.filedup f with
          | .error e => .error e
          | .ok s => .ok (fd.val, s)

def sysClose (fd : Int) : Except String (Int × FileSys n k nf) :=
  match s.argfd p fd with
  | none => .ok (-1, s)
  | some (fd, f) =>
      match (s.setFd p fd none).fileclose f with
      | .error e => .error e
      | .ok s => .ok (0, s)

/-- The file `sys_open` fills in for inode `i` of type `type`. -/
def openedFile (ff : File) (i : Nat) (type : Int) (omode : Nat) : File :=
  { ff with
    type := if type = T_DEVICE then .DEVICE else .INODE
    ip := i
    readable := omode &&& O_WRONLY = 0
    writable := omode &&& O_WRONLY ≠ 0 ∨ omode &&& O_RDWR ≠ 0 }

/-- `sys_open`, from the inode `namei` or `create` found (with the reference
they return) or their failure. -/
def sysOpen (found : Option (Nat × Int × Int)) (omode : Nat) : Except String (Int × FileSys n k nf) :=
  match found with
  | none => .ok (-1, s)
  | some (i, type, major) =>
      let s := s.idup i
      if omode &&& O_CREATE = 0 ∧ type = T_DIR ∧ omode ≠ O_RDONLY then .ok (-1, s.iput i)
      else if type = T_DEVICE ∧ (major < 0 ∨ NDEV ≤ major) then .ok (-1, s.iput i)
      else
        match s.filealloc with
        | none => .ok (-1, s.iput i)
        | some (f, s) =>
            match s.fdalloc p f with
            | none =>
                match s.fileclose f with
                | .error e => .error e
                | .ok s => .ok (-1, s.iput i)
            | some (fd, s) => .ok (fd.val, s.setFile f (openedFile (s.file f) i type omode))

end SysFile

/-! ## pipe.c and `sys_pipe` -/

section Pipes

variable (s : FileSys n k nf) (p : Fin n)

/-- The end of a new pipe on page `pi` that `ff` becomes: the read end, or
the write end when `w`. -/
def pipeEnd (ff : File) (pi : Nat) (w : Bool) : File :=
  { ff with type := .PIPE, readable := !w, writable := w, pipe := pi }

/-- The read file and the write file of a new pipe on page `pi`. -/
def pipeFiles (f0 f1 : Fin nf) (pi : Nat) : FileSys n k nf :=
  { s with
    file := Function.update (Function.update s.file f0 (pipeEnd (s.file f0) pi false)) f1
      (pipeEnd (s.file f1) pi true)
    pipe := Function.update s.pipe pi (some ⟨true, true⟩) }

/-- `fileclose(rf); fileclose(wf)`. -/
def closeBoth (rf wf : Fin nf) : Except String (FileSys n k nf) :=
  match s.fileclose rf with
  | .error e => .error e
  | .ok s => s.fileclose wf

/-- `pipealloc`, with the page `kalloc` gives or its failure. -/
def pipealloc (page : Option Nat) : Except String (Option (Fin nf × Fin nf) × FileSys n k nf) :=
  match s.filealloc with
  | none => .ok (none, s)
  | some (f0, s) =>
      match s.filealloc with
      | none =>
          match s.fileclose f0 with
          | .error e => .error e
          | .ok s => .ok (none, s)
      | some (f1, s) =>
          match page with
          | none =>
              match s.closeBoth f0 f1 with
              | .error e => .error e
              | .ok s => .ok (none, s)
          | some pi => .ok (some (f0, f1), s.pipeFiles f0 f1 pi)

/-- `sys_pipe`: `copied` says whether both descriptors reach user memory. -/
def sysPipe (page : Option Nat) (copied : Bool) : Except String (Int × FileSys n k nf) :=
  match s.pipealloc page with
  | .error e => .error e
  | .ok (none, s) => .ok (-1, s)
  | .ok (some (rf, wf), s) =>
      match s.fdalloc p rf with
      | none =>
          match s.closeBoth rf wf with
          | .error e => .error e
          | .ok s => .ok (-1, s)
      | some (fd0, s) =>
          match s.fdalloc p wf with
          | none =>
              match (s.setFd p fd0 none).closeBoth rf wf with
              | .error e => .error e
              | .ok s => .ok (-1, s)
          | some (fd1, s) =>
              if copied then .ok (0, s)
              else
                match ((s.setFd p fd0 none).setFd p fd1 none).closeBoth rf wf with
                | .error e => .error e
                | .ok s => .ok (-1, s)

end Pipes

/-! ## proc.c: the files of `fork` and `exit` -/

/-- `fork`'s loop: `np->ofile[i] = filedup(p->ofile[i])` for every open `i`. -/
def forkFiles (p np : Fin n) : List (Fin k) → FileSys n k nf → Except String (FileSys n k nf)
  | [], s => .ok s
  | fd :: fds, s =>
      match s.ofile p fd with
      | none => forkFiles p np fds s
      | some f =>
          match s.filedup f with
          | .error e => .error e
          | .ok s => forkFiles p np fds (s.setFd np fd (some f))

/-- `exit`'s loop: `fileclose(f); p->ofile[fd] = 0` for every open `fd`. -/
def exitFiles (p : Fin n) : List (Fin k) → FileSys n k nf → Except String (FileSys n k nf)
  | [], s => .ok s
  | fd :: fds, s =>
      match s.ofile p fd with
      | none => exitFiles p fds s
      | some f =>
          match s.fileclose f with
          | .error e => .error e
          | .ok s => exitFiles p fds (s.setFd p fd none)

section Procs

variable (s : FileSys n k nf)

/-- `allocproc`'s scan: the first `UNUSED` slot. -/
def allocproc : Option (Fin n) := (List.finRange n).find? fun q => s.state q = .UNUSED

/-- `np->cwd = idup(p->cwd)`. -/
def forkCwd (p np : Fin n) : FileSys n k nf :=
  match s.cwd p with
  | none => s
  | some i => (s.idup i).setCwd np (some i)

/-- `fork`: the new slot, or `none` for -1.  When `allocproc`'s allocations or
`uvmcopy` fail, `freeproc` gives the slot back before any file is touched. -/
def fork (p : Fin n) (allocated : Bool) : Except String (Option (Fin n) × FileSys n k nf) :=
  match s.allocproc with
  | none => .ok (none, s)
  | some np =>
      if allocated then
        match forkFiles p np (List.finRange k) (s.setState np .USED) with
        | .error e => .error e
        | .ok s => .ok (some np, (s.forkCwd p np).setState np .RUNNABLE)
      else .ok (none, s)

/-- `iput(p->cwd); p->cwd = 0`. -/
def exitCwd (p : Fin n) : FileSys n k nf :=
  let s := match s.cwd p with
    | none => s
    | some i => s.iput i
  s.setCwd p none

variable [NeZero n]

/-- `exit`: the files, the working directory, and the slot left a `ZOMBIE`. -/
def exit (p : Fin n) : Except String (FileSys n k nf) :=
  if p = initproc then .error "init exiting"
  else
    match exitFiles p (List.finRange k) s with
    | .error e => .error e
    | .ok s => .ok ((s.exitCwd p).setState p .ZOMBIE)

end Procs

/-! ## The system -/

section System

variable [NeZero n]

/-- One system call of `p`, as one step. -/
def exec (s : FileSys n k nf) (p : Fin n) : FileAct n → Except String (FileSys n k nf)
  | .open found omode => (s.sysOpen p found omode).map Prod.snd
  | .dup fd => (s.sysDup p fd).map Prod.snd
  | .close fd => (s.sysClose p fd).map Prod.snd
  | .pipe page copied => (s.sysPipe p page copied).map Prod.snd
  | .fork allocated => (s.fork p allocated).map Prod.snd
  | .exit => s.exit p
  | .wait child => .ok (s.setState child .UNUSED)

/-- What the layers below can give: `kalloc` a page that holds no pipe, and
`wait` a zombie to free. -/
def possible (s : FileSys n k nf) : FileAct n → Bool
  | .pipe (some pi) _ => (s.pipe pi).isNone
  | .wait child => decide (s.state child = .ZOMBIE)
  | _ => true

/-- A step: a call of a live process. -/
def step : Fin n × FileAct n → FileSys n k nf → Option (FileSys n k nf)
  | (p, a), s =>
      if (s.state p).live ∧ s.possible a then
        match s.exec p a with
        | .ok s' => some s'
        | .error _ => none
      else none

/-- The table as the kernel image has it: every slot and file zero. -/
def boot : FileSys n k nf :=
  { state := fun _ => .UNUSED, ofile := fun _ _ => none, cwd := fun _ => none,
    file := fun _ => ⟨.NONE, 0, false, false, 0, 0⟩, pipe := fun _ => none, iref := fun _ => 0 }

/-- After `userinit`: `initproc` runnable in the root directory. -/
def start : FileSys n k nf :=
  (((boot : FileSys n k nf).idup ROOTINO).setState initproc .RUNNABLE).setCwd initproc (some ROOTINO)

end System

/-! ## The invariant -/

/-- The counts between the lines of a call that holds the file references
`held` and the inode references `heldIp`.  At a call's boundaries both are
empty: each `ref` is the number of descriptors that point at the file, and
each inode's count is its open files and working directories. -/
structure Counts (s : FileSys n k nf) (held : List (Fin nf)) (heldIp : List Nat) : Prop where
  refs : ∀ f, (s.file f).ref = count (Function.uncurry s.ofile) f + held.count f
  free : ∀ f, (s.file f).ref = 0 → (s.file f).type = .NONE
  idle : ∀ p, s.state p = .UNUSED ∨ s.state p = .ZOMBIE → (∀ fd, s.ofile p fd = none) ∧ s.cwd p = none
  irefs : ∀ i, s.iref i = count (fun f => (s.file f).inode) i + count s.cwd i + heldIp.count i

/-- The pipes: a page holds a pipe while one of its ends is open, each end is
one file, and `readopen` and `writeopen` say which are open. -/
structure PipeInv (s : FileSys n k nf) : Prop where
  ends : ∀ f, 0 < (s.file f).ref → (s.file f).type = .PIPE → (s.file f).readable = !(s.file f).writable
  opened : ∀ pi w, (∃ e, s.pipe pi = some e ∧ e.isOpen w = true) ↔ ∃ f, (s.file f).IsEnd pi w
  oneEnd : ∀ f g pi w, (s.file f).IsEnd pi w → (s.file g).IsEnd pi w → f = g
  allocated : ∀ pi e, s.pipe pi = some e → e.readopen = true ∨ e.writeopen = true

/-- What holds between the lines of a call. -/
structure Inv (s : FileSys n k nf) (held : List (Fin nf)) (heldIp : List Nat) : Prop
    extends s.Counts held heldIp, s.PipeInv

variable {s : FileSys n k nf} {held : List (Fin nf)} {heldIp : List Nat}

/-- A file that is not open refers to nothing. -/
theorem File.inode_of_zero {ff : File} (zero : ff.ref = 0) : ff.inode = none := by
  simp [File.inode, zero]

theorem File.not_isEnd_of_zero (ff : File) (zero : ff.ref = 0) (pi : Nat) (w : Bool) : ¬ ff.IsEnd pi w :=
  fun isEnd => by
    rw [File.IsEnd, zero] at isEnd
    exact Nat.lt_irrefl 0 isEnd.1

theorem File.not_isEnd_of_none (ff : File) (none_ : ff.type = .NONE) (pi : Nat) (w : Bool) : ¬ ff.IsEnd pi w :=
  fun isEnd => by
    rw [File.IsEnd, none_] at isEnd
    cases isEnd.2.1

theorem File.inode_of_pos {ff ff' : File} (pos : 0 < ff.ref) (pos' : 0 < ff'.ref) (type : ff'.type = ff.type)
    (ip : ff'.ip = ff.ip) : ff'.inode = ff.inode := by
  simp only [File.inode, pos, pos', type, ip, true_and]

theorem File.isEnd_of_pos {ff ff' : File} (pos : 0 < ff.ref) (pos' : 0 < ff'.ref) (type : ff'.type = ff.type)
    (pipe : ff'.pipe = ff.pipe) (writable : ff'.writable = ff.writable) (pi : Nat) (w : Bool) :
    ff'.IsEnd pi w ↔ ff.IsEnd pi w := by
  simp only [File.IsEnd, pos, pos', type, pipe, writable, true_and]

/-- A file's ends and inode, read after one file changed. -/
theorem setFile_isEnd {f : Fin nf} {ff : File} (sameEnds : ∀ pi w, ff.IsEnd pi w ↔ (s.file f).IsEnd pi w)
    (g : Fin nf) (pi : Nat) (w : Bool) : ((s.setFile f ff).file g).IsEnd pi w ↔ (s.file g).IsEnd pi w := by
  by_cases same : g = f
  · subst same
    rw [setFile_file, Function.update_self]
    exact sameEnds pi w
  · rw [setFile_file, Function.update_of_ne same]

/-- One file changes: its count and the inode counts balance as the
hypotheses say. -/
theorem Counts.setFile (counts : s.Counts held heldIp) {f : Fin nf} {ff : File} {held' : List (Fin nf)}
    {heldIp' : List Nat} (refs : ff.ref = count (Function.uncurry s.ofile) f + held'.count f)
    (others : ∀ g, g ≠ f → held'.count g = held.count g)
    (free : ff.ref = 0 → ff.type = .NONE)
    (irefs : ∀ i, hit ff.inode i + heldIp'.count i = hit (s.file f).inode i + heldIp.count i) :
    (s.setFile f ff).Counts held' heldIp' where
  refs g := by
    by_cases same : g = f
    · subst same
      rw [setFile_file, Function.update_self, setFile_ofile]
      exact refs
    · rw [setFile_file, Function.update_of_ne same, counts.refs g, others g same, setFile_ofile]
  free g := by
    by_cases same : g = f
    · subst same
      rw [setFile_file, Function.update_self]
      exact free
    · rw [setFile_file, Function.update_of_ne same]
      exact counts.free g
  idle := counts.idle
  irefs i := by
    have moved := count_comp_update File.inode s.file f ff i
    have before := counts.irefs i
    have balance := irefs i
    rw [setFile_iref, setFile_file, setFile_cwd]
    omega

/-- The pipe half of the invariant reads only the files and the pipes. -/
theorem PipeInv.frame {s' : FileSys n k nf} (pipes : s.PipeInv) (files : s'.file = s.file)
    (pipe : s'.pipe = s.pipe) : s'.PipeInv where
  ends := files ▸ pipes.ends
  opened := files ▸ pipe ▸ pipes.opened
  oneEnd := files ▸ pipes.oneEnd
  allocated := pipe ▸ pipes.allocated

/-- One file changes while the ends of pipes stay where they are. -/
theorem PipeInv.setFile (pipes : s.PipeInv) {f : Fin nf} {ff : File}
    (ends : 0 < ff.ref → ff.type = .PIPE → ff.readable = !ff.writable)
    (sameEnds : ∀ pi w, ff.IsEnd pi w ↔ (s.file f).IsEnd pi w) : (s.setFile f ff).PipeInv where
  ends g := by
    by_cases same : g = f
    · subst same
      rw [setFile_file, Function.update_self]
      exact ends
    · rw [setFile_file, Function.update_of_ne same]
      exact pipes.ends g
  opened pi w := by
    simp only [setFile_isEnd sameEnds]
    exact pipes.opened pi w
  oneEnd g g' pi w := by
    rw [setFile_isEnd sameEnds, setFile_isEnd sameEnds]
    exact pipes.oneEnd g g' pi w
  allocated := pipes.allocated

theorem Inv.setFile (inv : s.Inv held heldIp) {f : Fin nf} {ff : File} {held' : List (Fin nf)} {heldIp' : List Nat}
    (refs : ff.ref = count (Function.uncurry s.ofile) f + held'.count f)
    (others : ∀ g, g ≠ f → held'.count g = held.count g)
    (free : ff.ref = 0 → ff.type = .NONE)
    (ends : 0 < ff.ref → ff.type = .PIPE → ff.readable = !ff.writable)
    (sameEnds : ∀ pi w, ff.IsEnd pi w ↔ (s.file f).IsEnd pi w)
    (irefs : ∀ i, hit ff.inode i + heldIp'.count i = hit (s.file f).inode i + heldIp.count i) :
    (s.setFile f ff).Inv held' heldIp' :=
  ⟨inv.toCounts.setFile refs others free irefs, inv.toPipeInv.setFile ends sameEnds⟩

/-- Changing a pipe's record leaves the counts as they are. -/
theorem Counts.setPipe (counts : s.Counts held heldIp) (pi : Nat) (x : Option PipeEnds) :
    (s.setPipe pi x).Counts held heldIp where
  refs := counts.refs
  free := counts.free
  idle := counts.idle
  irefs := counts.irefs

theorem File.inode_of_none {ff : File} (none_ : ff.type = .NONE) : ff.inode = none := by
  simp [File.inode, none_]

/-! ## file.c keeps it -/

/-- What `filealloc` hands out: a file that was not open, now with one
reference. -/
theorem filealloc_spec {f : Fin nf} {s' : FileSys n k nf} (alloc : s.filealloc = some (f, s')) :
    (s.file f).ref = 0 ∧ s' = s.setFile f { s.file f with ref := 1 } := by
  unfold filealloc at alloc
  split at alloc
  · cases alloc
  · rename_i g found
    simp only [Option.some.injEq, Prod.mk.injEq] at alloc
    obtain ⟨rfl, rfl⟩ := alloc
    have zero := List.find?_some found
    exact ⟨of_decide_eq_true zero, rfl⟩

/-- The file `filealloc` hands out goes from no reference to one, which the
call holds. -/
theorem Inv.alloc (inv : s.Inv held heldIp) {f : Fin nf} (zero : (s.file f).ref = 0) :
    (s.setFile f { s.file f with ref := 1 }).Inv (f :: held) heldIp := by
  have none_ := inv.free f zero
  have unheld := inv.refs f
  have newInode : ({ s.file f with ref := 1 } : File).inode = none := File.inode_of_none none_
  refine inv.setFile ?_ (fun g other => List.count_cons_of_ne (Ne.symm other)) (fun one => absurd one Nat.one_ne_zero)
    (fun _ pipe => absurd (pipe.symm.trans none_) (by decide)) (fun pi w => ?_) (fun i => ?_)
  · show 1 = _
    rw [List.count_cons_self]
    omega
  · exact ⟨fun isEnd => absurd isEnd (File.not_isEnd_of_none { s.file f with ref := 1 } none_ pi w),
      fun isEnd => absurd isEnd (File.not_isEnd_of_zero _ zero pi w)⟩
  · rw [newInode, File.inode_of_zero zero]

theorem filedup_of_pos {f : Fin nf} (pos : 0 < (s.file f).ref) :
    s.filedup f = .ok (s.setFile f { s.file f with ref := (s.file f).ref + 1 }) := by
  rw [filedup, if_neg (by omega)]

/-- `filedup` of an open file: the new reference is the call's. -/
theorem Inv.dup (inv : s.Inv held heldIp) {f : Fin nf} (pos : 0 < (s.file f).ref) :
    (s.setFile f { s.file f with ref := (s.file f).ref + 1 }).Inv (f :: held) heldIp := by
  have counted := inv.refs f
  have newInode : ({ s.file f with ref := (s.file f).ref + 1 } : File).inode = (s.file f).inode :=
    File.inode_of_pos pos (Nat.succ_pos _) rfl rfl
  refine inv.setFile ?_ (fun g other => List.count_cons_of_ne (Ne.symm other))
    (fun zero => absurd zero (Nat.succ_ne_zero _)) (fun _ pipe => inv.ends f pos pipe)
    (File.isEnd_of_pos pos (Nat.succ_pos _) rfl rfl rfl) (fun i => by rw [newInode])
  show (s.file f).ref + 1 = _
  rw [List.count_cons_self]
  omega

/-- Putting a file the call holds into an empty descriptor of a process that
is neither free nor a zombie. -/
theorem Inv.install (inv : s.Inv held heldIp) {p : Fin n} {fd : Fin k} {f : Fin nf} (mem : f ∈ held)
    (empty : s.ofile p fd = none) (busy : s.state p ≠ .UNUSED ∧ s.state p ≠ .ZOMBIE) :
    (s.setFd p fd (some f)).Inv (held.erase f) heldIp where
  refs g := by
    have placed := count_install (g := Function.uncurry s.ofile) (i := (p, fd)) empty f g
    rw [setFd_ofile, Function.uncurry_update_update, placed, setFd_file, inv.refs g]
    by_cases same : g = f
    · subst same
      have pos := List.count_pos_iff.mpr mem
      rw [hit_some_self, List.count_erase_self]
      omega
    · rw [hit_some_of_ne (Ne.symm same), List.count_erase_of_ne same, Nat.add_zero]
  free := inv.free
  idle q idleQ := by
    have other : q ≠ p := by
      rintro rfl
      rcases idleQ with unused | zombie
      · exact busy.1 unused
      · exact busy.2 zombie
    rw [setFd_ofile, Function.update_of_ne other]
    exact inv.idle q idleQ
  toPipeInv := inv.toPipeInv.frame rfl rfl
  irefs := inv.irefs

/-- Taking a file out of its descriptor: the reference is now the call's. -/
theorem Inv.uninstall (inv : s.Inv held heldIp) {p : Fin n} {fd : Fin k} {f : Fin nf}
    (full : s.ofile p fd = some f) : (s.setFd p fd none).Inv (f :: held) heldIp where
  refs g := by
    have removed := count_remove (g := Function.uncurry s.ofile) (i := (p, fd)) full g
    rw [setFd_ofile, Function.uncurry_update_update, setFd_file, inv.refs g]
    by_cases same : g = f
    · subst same
      rw [hit_some_self] at removed
      rw [List.count_cons_self]
      omega
    · rw [hit_some_of_ne (Ne.symm same)] at removed
      rw [List.count_cons_of_ne (Ne.symm same)]
      omega
  free := inv.free
  idle q idleQ := by
    obtain ⟨closed, noCwd⟩ := inv.idle q idleQ
    refine ⟨fun fd' => ?_, noCwd⟩
    rw [setFd_ofile]
    by_cases same : q = p
    · subst same
      rw [Function.update_self]
      by_cases sameFd : fd' = fd
      · subst sameFd
        rw [Function.update_self]
      · rw [Function.update_of_ne sameFd]
        exact closed fd'
    · rw [Function.update_of_ne same]
      exact closed fd'
  toPipeInv := inv.toPipeInv.frame rfl rfl
  irefs := inv.irefs

/-- `iget` or `idup`: the new inode reference is the call's. -/
theorem Inv.idup (inv : s.Inv held heldIp) (i : Nat) : (s.idup i).Inv held (i :: heldIp) where
  refs := inv.refs
  free := inv.free
  idle := inv.idle
  toPipeInv := inv.toPipeInv.frame rfl rfl
  irefs j := by
    rw [idup_iref, idup_file, idup_cwd]
    by_cases same : j = i
    · subst same
      rw [Function.update_self, List.count_cons_self, inv.irefs j]
      omega
    · rw [Function.update_of_ne same, List.count_cons_of_ne (Ne.symm same), inv.irefs j]

/-- `iput` of an inode reference the call holds. -/
theorem Inv.iput (inv : s.Inv held heldIp) {i : Nat} (mem : i ∈ heldIp) : (s.iput i).Inv held (heldIp.erase i) where
  refs := inv.refs
  free := inv.free
  idle := inv.idle
  toPipeInv := inv.toPipeInv.frame rfl rfl
  irefs j := by
    rw [iput_iref, iput_file, iput_cwd]
    by_cases same : j = i
    · subst same
      have pos := List.count_pos_iff.mpr mem
      rw [Function.update_self, List.count_erase_self, inv.irefs j]
      omega
    · rw [Function.update_of_ne same, List.count_erase_of_ne same, inv.irefs j]

/-- A process slot changes state; a free or zombie slot holds nothing. -/
theorem Inv.setState (inv : s.Inv held heldIp) (q : Fin n) (st : ProcState)
    (idle : st = .UNUSED ∨ st = .ZOMBIE → (∀ fd, s.ofile q fd = none) ∧ s.cwd q = none) :
    (s.setState q st).Inv held heldIp where
  refs := inv.refs
  free := inv.free
  idle p idleP := by
    rw [setState_state] at idleP
    by_cases same : p = q
    · subst same
      rw [Function.update_self] at idleP
      exact idle idleP
    · rw [Function.update_of_ne same] at idleP
      exact inv.idle p idleP
  toPipeInv := inv.toPipeInv.frame rfl rfl
  irefs := inv.irefs

/-! ## `fileclose` keeps it -/

/-- Both ends of `e.close w` are closed exactly when the other end of `e` is. -/
theorem PipeEnds.close_shut (e : PipeEnds) (w : Bool) :
    ((e.close w).readopen = false ∧ (e.close w).writeopen = false) ↔ e.isOpen (!w) = false := by
  cases w <;> simp [PipeEnds.close, PipeEnds.isOpen]

theorem fileclose_of_more {f : Fin nf} (more : 1 < (s.file f).ref) :
    s.fileclose f = .ok (s.setFile f { s.file f with ref := (s.file f).ref - 1 }) := by
  simp only [fileclose, if_neg (Nat.not_lt.mpr (Nat.le_of_lt more)), if_pos (Nat.sub_pos_of_lt more)]

theorem fileclose_of_last {f : Fin nf} (last : (s.file f).ref = 1) :
    s.fileclose f = (s.setFile f { s.file f with ref := 0, type := .NONE }).closeLast (s.file f) := by
  simp only [fileclose, last, Nat.lt_irrefl, if_false, Nat.sub_self, gt_iff_lt]

theorem closeLast_of_none {ff : File} (type : ff.type = .NONE) : s.closeLast ff = .ok s := by
  unfold closeLast
  rw [type]

theorem closeLast_of_inode {ff : File} (type : ff.type = .INODE ∨ ff.type = .DEVICE) :
    s.closeLast ff = .ok (s.iput ff.ip) := by
  unfold closeLast
  rcases type with inode | device
  · rw [inode]
  · rw [device]

theorem closeLast_of_pipe {ff : File} (type : ff.type = .PIPE) : s.closeLast ff = s.pipeclose ff.pipe ff.writable := by
  unfold closeLast
  rw [type]

/-- The last reference to a file the call holds goes: the file is cleared,
and an inode reference it held passes to the call. -/
theorem Counts.clear (counts : s.Counts held heldIp) {f : Fin nf} (mem : f ∈ held) (last : (s.file f).ref = 1)
    (heldIp' : List Nat) (irefs : ∀ i, heldIp'.count i = hit (s.file f).inode i + heldIp.count i) :
    (s.setFile f { s.file f with ref := 0, type := .NONE }).Counts (held.erase f) heldIp' := by
  have counted := counts.refs f
  have pos := List.count_pos_iff.mpr mem
  have erased := List.count_erase_self (a := f) (l := held)
  have cleared : ({ s.file f with ref := 0, type := .NONE } : File).inode = none := File.inode_of_zero rfl
  refine counts.setFile ?_ (fun g other => List.count_erase_of_ne other) (fun _ => rfl) (fun i => ?_)
  · show 0 = _
    omega
  · rw [cleared, hit_none, Nat.zero_add, irefs i]

/-- The same for a file that is no end of a pipe. -/
theorem Inv.clear (inv : s.Inv held heldIp) {f : Fin nf} (mem : f ∈ held) (last : (s.file f).ref = 1)
    (heldIp' : List Nat) (irefs : ∀ i, heldIp'.count i = hit (s.file f).inode i + heldIp.count i)
    (notEnd : ∀ pi w, ¬ (s.file f).IsEnd pi w) :
    (s.setFile f { s.file f with ref := 0, type := .NONE }).Inv (held.erase f) heldIp' :=
  ⟨inv.toCounts.clear mem last heldIp' irefs, inv.toPipeInv.setFile (fun zero => absurd zero (Nat.lt_irrefl 0))
    fun pi w => ⟨fun isEnd => absurd isEnd (File.not_isEnd_of_zero { s.file f with ref := 0, type := .NONE }
      rfl pi w), fun isEnd => absurd isEnd (notEnd pi w)⟩⟩

/-- The ends of pipes once the last reference to the end `f` of pipe `pi` is
gone: the others, and only they. -/
theorem Inv.ends_clear (inv : s.Inv held heldIp) {f : Fin nf} {pi : Nat} {w : Bool} (isEnd : (s.file f).IsEnd pi w)
    (g : Fin nf) (pi' : Nat) (w' : Bool) :
    ((s.setFile f { s.file f with ref := 0, type := .NONE }).file g).IsEnd pi' w' ↔
      (s.file g).IsEnd pi' w' ∧ ¬ (pi' = pi ∧ w' = w) := by
  by_cases same : g = f
  · subst same
    rw [setFile_file, Function.update_self]
    refine ⟨fun cleared => absurd cleared (File.not_isEnd_of_zero { s.file g with ref := 0, type := .NONE }
      rfl pi' w'), fun ⟨was, other⟩ => absurd ⟨was.2.2.1.symm.trans isEnd.2.2.1, was.2.2.2.symm.trans isEnd.2.2.2⟩ other⟩
  · rw [setFile_file, Function.update_of_ne same]
    exact ⟨fun was => ⟨was, fun ⟨samePipe, sameEnd⟩ => same (inv.oneEnd g f pi w (samePipe ▸ sameEnd ▸ was) isEnd)⟩,
      And.left⟩

/-- The last reference to the end `f` of a pipe goes, and the pipe's record
becomes `x`: what `pipeclose` does, whether it frees the page or not. -/
theorem Inv.dropEnd (inv : s.Inv held heldIp) {f : Fin nf} (mem : f ∈ held) (last : (s.file f).ref = 1)
    (pipe : (s.file f).type = .PIPE) {x : Option PipeEnds}
    (closed : ∀ w', (∃ e, x = some e ∧ e.isOpen w' = true) ↔
      w' ≠ (s.file f).writable ∧ ∃ e, s.pipe (s.file f).pipe = some e ∧ e.isOpen w' = true)
    (alloc : ∀ e, x = some e → e.readopen = true ∨ e.writeopen = true) :
    ((s.setFile f { s.file f with ref := 0, type := .NONE }).setPipe (s.file f).pipe x).Inv (held.erase f) heldIp := by
  have isEnd : (s.file f).IsEnd (s.file f).pipe (s.file f).writable := ⟨by omega, pipe, rfl, rfl⟩
  have notInode : (s.file f).inode = none := by simp [File.inode, pipe]
  have cleared := (inv.toCounts.clear mem last heldIp fun i => by
    rw [notInode, hit_none, Nat.zero_add]).setPipe (s.file f).pipe x
  have after := inv.ends_clear isEnd
  exact
  { toCounts := cleared
    ends := fun g pos pipeG => by
      by_cases same : g = f
      · subst same
        rw [setPipe_file, setFile_file, Function.update_self] at pos
        exact absurd pos (Nat.lt_irrefl 0)
      · rw [setPipe_file, setFile_file, Function.update_of_ne same] at pos pipeG ⊢
        exact inv.ends g pos pipeG
    opened := fun pi' w' => by
      rw [setPipe_pipe, setPipe_file]
      simp only [after]
      by_cases samePipe : pi' = (s.file f).pipe
      · subst samePipe
        rw [Function.update_self, closed w', inv.opened]
        constructor
        · rintro ⟨other, g, endG⟩
          exact ⟨g, endG, fun ⟨_, sameEnd⟩ => other sameEnd⟩
        · rintro ⟨g, endG, notThis⟩
          exact ⟨fun sameEnd => notThis ⟨rfl, sameEnd⟩, g, endG⟩
      · rw [Function.update_of_ne samePipe, setFile_pipe, inv.opened]
        exact ⟨fun ⟨g, was⟩ => ⟨g, was, fun ⟨sameP, _⟩ => samePipe sameP⟩, fun ⟨g, was, _⟩ => ⟨g, was⟩⟩
    oneEnd := fun g g' pi' w' endG endG' => by
      rw [setPipe_file, after] at endG endG'
      exact inv.oneEnd g g' pi' w' endG.1 endG'.1
    allocated := fun pi' e => by
      rw [setPipe_pipe]
      by_cases samePipe : pi' = (s.file f).pipe
      · subst samePipe
        rw [Function.update_self]
        exact alloc e
      · rw [Function.update_of_ne samePipe]
        exact inv.allocated pi' e }

theorem PipeEnds.close_isOpen (e : PipeEnds) (w w' : Bool) :
    (e.close w).isOpen w' = true ↔ w' ≠ w ∧ e.isOpen w' = true := by
  cases w <;> cases w' <;> simp [PipeEnds.close, PipeEnds.isOpen]

/-- `pipeclose` after the last reference to a pipe end: the end closes, and
the page is freed when the other end was closed already. -/
theorem Inv.closeEnd (inv : s.Inv held heldIp) {f : Fin nf} (mem : f ∈ held) (last : (s.file f).ref = 1)
    (pipe : (s.file f).type = .PIPE) :
    ∃ s', (s.setFile f { s.file f with ref := 0, type := .NONE }).pipeclose (s.file f).pipe (s.file f).writable =
      .ok s' ∧ s'.Inv (held.erase f) heldIp := by
  have isEnd : (s.file f).IsEnd (s.file f).pipe (s.file f).writable := ⟨by omega, pipe, rfl, rfl⟩
  obtain ⟨e, at_, _⟩ := (inv.opened _ _).mpr ⟨f, isEnd⟩
  -- what the other end's record says, read through the page's record `e`
  have recorded : ∀ w', (w' ≠ (s.file f).writable ∧ ∃ e', s.pipe (s.file f).pipe = some e' ∧ e'.isOpen w' = true) ↔
      w' ≠ (s.file f).writable ∧ e.isOpen w' = true := by
    intro w'
    rw [at_]
    exact ⟨fun ⟨other, _, same, opened⟩ => ⟨other, Option.some_inj.mp same ▸ opened⟩,
      fun ⟨other, opened⟩ => ⟨other, e, rfl, opened⟩⟩
  by_cases shut : (e.close (s.file f).writable).readopen = false ∧ (e.close (s.file f).writable).writeopen = false
  · -- the other end was closed: the page is freed
    have otherShut := (PipeEnds.close_shut e _).mp shut
    refine ⟨_, ?_, inv.dropEnd mem last pipe (x := none) (fun w' => ?_) fun _ none_ => absurd none_ nofun⟩
    · simp only [pipeclose, setFile_pipe, at_, if_pos shut]
    · rw [recorded]
      refine ⟨fun ⟨_, none_, _⟩ => absurd none_ nofun, fun ⟨other, opened⟩ => absurd opened ?_⟩
      have flipped : w' = !(s.file f).writable := by
        cases w' <;> cases (s.file f).writable <;> simp_all
      rw [flipped, otherShut]
      exact Bool.false_ne_true
  · refine ⟨_, ?_, inv.dropEnd mem last pipe (x := some (e.close (s.file f).writable)) (fun w' => ?_) fun e' same => ?_⟩
    · simp only [pipeclose, setFile_pipe, at_, if_neg shut]
    · rw [recorded, ← PipeEnds.close_isOpen]
      exact ⟨fun ⟨_, same, opened⟩ => Option.some_inj.mp same ▸ opened, fun opened => ⟨_, rfl, opened⟩⟩
    · rw [← Option.some_inj.mp same]
      cases openR : (e.close (s.file f).writable).readopen
      · cases openW : (e.close (s.file f).writable).writeopen
        · exact absurd ⟨openR, openW⟩ shut
        · exact .inr rfl
      · exact .inl rfl

/-- The last reference to an inode or device file goes: its inode reference
is put. -/
theorem Inv.closeInode (inv : s.Inv held heldIp) {f : Fin nf} (mem : f ∈ held) (last : (s.file f).ref = 1)
    (type : (s.file f).type = .INODE ∨ (s.file f).type = .DEVICE) :
    ∃ s', (s.setFile f { s.file f with ref := 0, type := .NONE }).closeLast (s.file f) = .ok s' ∧
      s'.Inv (held.erase f) heldIp := by
  have inode : (s.file f).inode = some (s.file f).ip := by
    simp only [File.inode, last, Nat.lt_add_one, type, true_and, if_true]
  have notEnd : ∀ pi w, ¬ (s.file f).IsEnd pi w := fun pi w isEnd => by
    rcases type with inodeT | device
    · rw [isEnd.2.1] at inodeT
      cases inodeT
    · rw [isEnd.2.1] at device
      cases device
  have moved := inv.clear mem last ((s.file f).ip :: heldIp) (fun i => by rw [inode, count_cons_hit])
    notEnd
  have put := moved.iput (List.mem_cons_self ..)
  rw [List.erase_cons_head] at put
  exact ⟨_, closeLast_of_inode type, put⟩

/-- `fileclose` of a file the call holds a reference to gives that reference
back, and never panics. -/
theorem Inv.fileclose (inv : s.Inv held heldIp) {f : Fin nf} (mem : f ∈ held) :
    ∃ s', s.fileclose f = .ok s' ∧ s'.Inv (held.erase f) heldIp := by
  have counted := inv.refs f
  have pos := List.count_pos_iff.mpr mem
  by_cases more : 1 < (s.file f).ref
  · -- another reference stays: the file only counts one fewer
    have erased := List.count_erase_self (a := f) (l := held)
    have fewer : ({ s.file f with ref := (s.file f).ref - 1 } : File).ref = (s.file f).ref - 1 := rfl
    have newInode : ({ s.file f with ref := (s.file f).ref - 1 } : File).inode = (s.file f).inode :=
      File.inode_of_pos (by omega) (by omega) rfl rfl
    refine ⟨_, fileclose_of_more more, inv.setFile ?_ (fun g other => List.count_erase_of_ne other)
      (fun zero => absurd zero (by omega)) (fun _ pipe => inv.ends f (by omega) pipe)
      (File.isEnd_of_pos (by omega) (by omega) rfl rfl rfl) fun i => by rw [newInode]⟩
    rw [fewer]
    omega
  · -- the last reference: the file gives its own reference back
    have last : (s.file f).ref = 1 := by omega
    rw [fileclose_of_last last]
    cases type : (s.file f).type with
    | NONE =>
        exact ⟨_, closeLast_of_none type, inv.clear mem last heldIp
          (fun i => by rw [File.inode_of_none type, hit_none, Nat.zero_add]) (File.not_isEnd_of_none _ type)⟩
    | PIPE =>
        rw [closeLast_of_pipe type]
        exact inv.closeEnd mem last type
    | INODE => exact inv.closeInode mem last (.inl type)
    | DEVICE => exact inv.closeInode mem last (.inr type)

/-! ## `pipealloc` keeps it -/

theorem pipeFiles_eq (f0 f1 : Fin nf) (pi : Nat) :
    s.pipeFiles f0 f1 pi = ((s.setFile f0 (pipeEnd (s.file f0) pi false)).setFile f1
      (pipeEnd (s.file f1) pi true)).setPipe pi (some ⟨true, true⟩) := rfl

theorem pipeEnd_isEnd (ff : File) (pos : 0 < ff.ref) (pi pi' : Nat) (w w' : Bool) :
    (pipeEnd ff pi w).IsEnd pi' w' ↔ pi' = pi ∧ w' = w :=
  ⟨fun ⟨_, _, samePipe, sameEnd⟩ => ⟨samePipe.symm, sameEnd.symm⟩,
    fun ⟨samePipe, sameEnd⟩ => ⟨pos, rfl, samePipe.symm, sameEnd.symm⟩⟩

/-- The ends after `pipealloc`: `f0` reads and `f1` writes on `pi`, and every
other file is the end it was. -/
theorem pipeFiles_isEnd {f0 f1 : Fin nf} (apart : f0 ≠ f1) (pos0 : 0 < (s.file f0).ref)
    (pos1 : 0 < (s.file f1).ref) (pi : Nat) (g : Fin nf) (pi' : Nat) (w' : Bool) :
    ((s.pipeFiles f0 f1 pi).file g).IsEnd pi' w' ↔
      (g = f0 ∧ pi' = pi ∧ w' = false) ∨ (g = f1 ∧ pi' = pi ∧ w' = true) ∨
        (g ≠ f0 ∧ g ≠ f1 ∧ (s.file g).IsEnd pi' w') := by
  show (Function.update (Function.update s.file f0 _) f1 _ g).IsEnd pi' w' ↔ _
  by_cases isF1 : g = f1
  · subst isF1
    rw [Function.update_self, pipeEnd_isEnd _ pos1]
    exact ⟨fun ends => .inr (.inl ⟨rfl, ends⟩), fun ends => by
      rcases ends with ⟨isF0, _⟩ | ⟨_, ends⟩ | ⟨_, notF1, _⟩
      · exact absurd isF0.symm apart
      · exact ends
      · exact absurd rfl notF1⟩
  · rw [Function.update_of_ne isF1]
    by_cases isF0 : g = f0
    · subst isF0
      rw [Function.update_self, pipeEnd_isEnd _ pos0]
      exact ⟨fun ends => .inl ⟨rfl, ends⟩, fun ends => by
        rcases ends with ⟨_, ends⟩ | ⟨isF1', _⟩ | ⟨notF0, _⟩
        · exact ends
        · exact absurd isF1' isF1
        · exact absurd rfl notF0⟩
    · rw [Function.update_of_ne isF0]
      exact ⟨fun ends => .inr (.inr ⟨isF0, isF1, ends⟩), fun ends => by
        rcases ends with ⟨same, _⟩ | ⟨same, _⟩ | ⟨_, _, ends⟩
        · exact absurd same isF0
        · exact absurd same isF1
        · exact ends⟩

/-- `pipealloc`'s success: two files the call holds, not yet anything, become
the two ends of a pipe on a page that held none. -/
theorem Inv.pipeFiles (inv : s.Inv held heldIp) {f0 f1 : Fin nf} (apart : f0 ≠ f1)
    (pos0 : 0 < (s.file f0).ref) (pos1 : 0 < (s.file f1).ref)
    (none0 : (s.file f0).type = .NONE) (none1 : (s.file f1).type = .NONE) {pi : Nat} (fresh : s.pipe pi = none) :
    (s.pipeFiles f0 f1 pi).Inv held heldIp := by
  -- no file was an end of `pi`, and neither new end was an end of anything
  have noOld : ∀ g w', ¬ (s.file g).IsEnd pi w' := fun g w' ends => by
    obtain ⟨e, at_, _⟩ := (inv.opened pi w').mpr ⟨g, ends⟩
    rw [fresh] at at_
    cases at_
  have newEnds := pipeFiles_isEnd apart pos0 pos1 pi (s := s)
  have counts : (s.pipeFiles f0 f1 pi).Counts held heldIp := by
    have inode0 : (pipeEnd (s.file f0) pi false).inode = none := by simp [File.inode, pipeEnd]
    have inode1 : (pipeEnd (s.file f1) pi true).inode = none := by simp [File.inode, pipeEnd]
    have first : (s.setFile f0 (pipeEnd (s.file f0) pi false)).Counts held heldIp :=
      inv.toCounts.setFile (inv.refs f0) (fun _ _ => rfl) (fun zero => absurd zero (Nat.pos_iff_ne_zero.mp pos0))
        fun i => by rw [inode0, File.inode_of_none none0]
    have second : ((s.setFile f0 (pipeEnd (s.file f0) pi false)).setFile f1 (pipeEnd (s.file f1) pi true)).Counts
        held heldIp :=
      first.setFile (inv.refs f1) (fun _ _ => rfl) (fun zero => absurd zero (Nat.pos_iff_ne_zero.mp pos1)) fun i => by
        rw [inode1, setFile_file, Function.update_of_ne (Ne.symm apart), File.inode_of_none none1]
    rw [pipeFiles_eq]
    exact second.setPipe pi _
  refine ⟨counts, ⟨fun g pos pipeG => ?_, fun pi' w' => ?_, fun g g' pi' w' endG endG' => ?_, fun pi' e at_ => ?_⟩⟩
  · -- the new ends read when they do not write
    rw [pipeFiles_eq] at pos pipeG ⊢
    simp only [setPipe_file, setFile_file] at pos pipeG ⊢
    by_cases isF1 : g = f1
    · subst isF1
      rw [Function.update_self]
      rfl
    · rw [Function.update_of_ne isF1] at pos pipeG ⊢
      by_cases isF0 : g = f0
      · subst isF0
        rw [Function.update_self]
        rfl
      · rw [Function.update_of_ne isF0] at pos pipeG ⊢
        exact inv.ends g pos pipeG
  · show (∃ e, Function.update s.pipe pi (some ⟨true, true⟩) pi' = some e ∧ _) ↔ _
    simp only [newEnds]
    by_cases samePipe : pi' = pi
    · subst samePipe
      rw [Function.update_self]
      refine ⟨fun _ => ?_, fun _ => ⟨_, rfl, by cases w' <;> rfl⟩⟩
      cases w'
      · exact ⟨f0, .inl ⟨rfl, rfl, rfl⟩⟩
      · exact ⟨f1, .inr (.inl ⟨rfl, rfl, rfl⟩)⟩
    · rw [Function.update_of_ne samePipe, inv.opened]
      constructor
      · rintro ⟨g, ends⟩
        have isF0 : g ≠ f0 := fun same => File.not_isEnd_of_none _ none0 pi' w' (same ▸ ends)
        have isF1 : g ≠ f1 := fun same => File.not_isEnd_of_none _ none1 pi' w' (same ▸ ends)
        exact ⟨g, .inr (.inr ⟨isF0, isF1, ends⟩)⟩
      · rintro ⟨g, ⟨_, same, _⟩ | ⟨_, same, _⟩ | ⟨_, _, ends⟩⟩
        · exact absurd same samePipe
        · exact absurd same samePipe
        · exact ⟨g, ends⟩
  · rw [newEnds] at endG endG'
    rcases endG with ⟨rfl, rfl, rfl⟩ | ⟨rfl, rfl, rfl⟩ | ⟨_, _, endG⟩
    · rcases endG' with ⟨rfl, _⟩ | ⟨_, _, wrong⟩ | ⟨_, _, old⟩
      · rfl
      · cases wrong
      · exact absurd old (noOld _ _)
    · rcases endG' with ⟨_, _, wrong⟩ | ⟨rfl, _⟩ | ⟨_, _, old⟩
      · cases wrong
      · rfl
      · exact absurd old (noOld _ _)
    · rcases endG' with ⟨_, samePi, _⟩ | ⟨_, samePi, _⟩ | ⟨_, _, endG'⟩
      · exact absurd (samePi ▸ endG) (noOld _ _)
      · exact absurd (samePi ▸ endG) (noOld _ _)
      · exact inv.oneEnd g g' pi' w' endG endG'
  · change Function.update s.pipe pi (some ⟨true, true⟩) pi' = some e at at_
    by_cases samePipe : pi' = pi
    · subst samePipe
      rw [Function.update_self, Option.some_inj] at at_
      exact .inl (at_ ▸ rfl)
    · rw [Function.update_of_ne samePipe] at at_
      exact inv.allocated pi' e at_

/-! ## The descriptor calls keep it -/

/-- A process that makes a call is neither free nor a zombie. -/
theorem busy_of_live {st : ProcState} (live : st.live = true) : st ≠ .UNUSED ∧ st ≠ .ZOMBIE := by
  constructor <;> rintro rfl <;> cases live

theorem fdalloc_spec {p : Fin n} {f : Fin nf} {fd : Fin k} {s' : FileSys n k nf}
    (alloc : s.fdalloc p f = some (fd, s')) : s.ofile p fd = none ∧ s' = s.setFd p fd (some f) := by
  unfold fdalloc at alloc
  split at alloc
  · cases alloc
  · rename_i g found
    simp only [Option.some.injEq, Prod.mk.injEq] at alloc
    obtain ⟨rfl, rfl⟩ := alloc
    have empty := List.find?_some found
    exact ⟨of_decide_eq_true empty, rfl⟩

theorem argfd_spec {p : Fin n} {fd : Int} {fd' : Fin k} {f : Fin nf} (found : s.argfd p fd = some (fd', f)) :
    s.ofile p fd' = some f := by
  unfold argfd at found
  split at found
  · split at found
    · cases found
    · rename_i g at_
      simp only [Option.some.injEq, Prod.mk.injEq] at found
      obtain ⟨rfl, rfl⟩ := found
      exact at_
  · cases found

/-- The file of an open descriptor is open. -/
theorem Counts.pos_of_slot (counts : s.Counts held heldIp) {p : Fin n} {fd : Fin k} {f : Fin nf}
    (at_ : s.ofile p fd = some f) : 0 < (s.file f).ref := by
  have counted := counts.refs f
  have inSlot : count (Function.uncurry s.ofile) f ≠ 0 := fun zero => count_eq_zero.mp zero (p, fd) at_
  omega

theorem setFd_setFile (p : Fin n) (fd : Fin k) (x : Option (Fin nf)) (f : Fin nf) (ff : File) :
    (s.setFd p fd x).setFile f ff = (s.setFile f ff).setFd p fd x := rfl

/-- `sys_dup` never panics and keeps the invariant. -/
theorem Inv.sysDup (inv : s.Inv [] []) {p : Fin n} (live : (s.state p).live = true) (fd : Int) :
    ∃ r s', s.sysDup p fd = .ok (r, s') ∧ s'.Inv [] [] := by
  rcases found : s.argfd p fd with _ | ⟨fd₀, f⟩
  · exact ⟨-1, s, by simp only [FileSys.sysDup, found], inv⟩
  have pos := inv.pos_of_slot (argfd_spec found)
  rcases alloc : s.fdalloc p f with _ | ⟨fd', s₁⟩
  · exact ⟨-1, s, by simp only [FileSys.sysDup, found, alloc], inv⟩
  obtain ⟨empty, rfl⟩ := fdalloc_spec alloc
  -- the new reference is counted first, then put in the descriptor
  have moved := (inv.dup pos).install (List.mem_singleton_self f) empty (busy_of_live live)
  rw [List.erase_cons_head, ← setFd_setFile] at moved
  refine ⟨fd'.val, _, ?_, moved⟩
  simp only [FileSys.sysDup, found, alloc, filedup_of_pos (s := s.setFd p fd' (some f)) pos]
  rfl

/-- `sys_close` never panics and keeps the invariant. -/
theorem Inv.sysClose (inv : s.Inv [] []) {p : Fin n} (fd : Int) :
    ∃ r s', s.sysClose p fd = .ok (r, s') ∧ s'.Inv [] [] := by
  rcases found : s.argfd p fd with _ | ⟨fd', f⟩
  · exact ⟨-1, s, by simp only [FileSys.sysClose, found], inv⟩
  obtain ⟨s', closed, closedInv⟩ := (inv.uninstall (argfd_spec found)).fileclose (List.mem_singleton_self f)
  rw [List.erase_cons_head] at closedInv
  exact ⟨0, s', by simp only [FileSys.sysClose, found, closed], closedInv⟩

/-- Only how many references the call holds matters, not their order. -/
theorem Inv.perm (inv : s.Inv held heldIp) {held' : List (Fin nf)} (perm : held.Perm held') : s.Inv held' heldIp :=
  { inv with refs := fun f => by rw [inv.refs f, perm.count_eq] }

/-- The file `sys_open` fills in takes over the inode reference the call got
from `namei` or `create`. -/
theorem Inv.fill {i : Nat} (inv : s.Inv held [i]) {f : Fin nf} (pos : 0 < (s.file f).ref)
    (none_ : (s.file f).type = .NONE) (type : Int) (omode : Nat) :
    (s.setFile f (openedFile (s.file f) i type omode)).Inv held [] := by
  have notPipe : (openedFile (s.file f) i type omode).type ≠ .PIPE := by
    unfold openedFile
    split <;> nofun
  have opened : (openedFile (s.file f) i type omode).inode = some i := by
    have kind : (openedFile (s.file f) i type omode).type = .INODE ∨ (openedFile (s.file f) i type omode).type = .DEVICE := by
      unfold openedFile
      split
      · exact .inr rfl
      · exact .inl rfl
    simp only [File.inode, kind, and_true]
    rw [if_pos (show 0 < (openedFile (s.file f) i type omode).ref from pos)]
    rfl
  refine inv.setFile (inv.refs f) (fun _ _ => rfl) (fun zero => absurd zero (Nat.pos_iff_ne_zero.mp pos))
    (fun _ pipe => absurd pipe notPipe)
    (fun pi w => ⟨fun isEnd => absurd isEnd.2.1 notPipe, fun isEnd => absurd isEnd (File.not_isEnd_of_none _ none_ pi w)⟩)
    fun j => ?_
  rw [opened, File.inode_of_none none_, count_cons_hit, hit_none, Nat.zero_add]

/-- `sys_open` never panics and keeps the invariant, on every path. -/
theorem Inv.sysOpen (inv : s.Inv [] []) {p : Fin n} (live : (s.state p).live = true)
    (found : Option (Nat × Int × Int)) (omode : Nat) :
    ∃ r s', s.sysOpen p found omode = .ok (r, s') ∧ s'.Inv [] [] := by
  rcases found with _ | ⟨i, type, major⟩
  · exact ⟨-1, s, rfl, inv⟩
  have got := inv.idup i
  -- a failure puts the reference `namei` or `create` returned
  have back : ((s.idup i).iput i).Inv [] [] := by
    have put := got.iput (List.mem_singleton_self i)
    rwa [List.erase_cons_head] at put
  by_cases dir : omode &&& O_CREATE = 0 ∧ type = T_DIR ∧ omode ≠ O_RDONLY
  · exact ⟨-1, _, by simp only [FileSys.sysOpen, if_pos dir], back⟩
  by_cases dev : type = T_DEVICE ∧ (major < 0 ∨ NDEV ≤ major)
  · exact ⟨-1, _, by simp only [FileSys.sysOpen, if_neg dir, if_pos dev], back⟩
  rcases alloc : (s.idup i).filealloc with _ | ⟨f, s₂⟩
  · exact ⟨-1, _, by simp only [FileSys.sysOpen, if_neg dir, if_neg dev, alloc], back⟩
  obtain ⟨zero, rfl⟩ := filealloc_spec alloc
  have allocated := got.alloc zero
  have none_ := got.free f zero
  rcases fdAlloc : ((s.idup i).setFile f { (s.idup i).file f with ref := 1 }).fdalloc p f with _ | ⟨fd, s₃⟩
  · -- no descriptor: the new file is closed and the inode put
    obtain ⟨s₃, closed, closedInv⟩ := allocated.fileclose (List.mem_singleton_self f)
    rw [List.erase_cons_head] at closedInv
    have put := closedInv.iput (List.mem_singleton_self i)
    rw [List.erase_cons_head] at put
    exact ⟨-1, _, by simp only [FileSys.sysOpen, if_neg dir, if_neg dev, alloc, fdAlloc, closed], put⟩
  obtain ⟨empty, rfl⟩ := fdalloc_spec fdAlloc
  have installed := allocated.install (List.mem_singleton_self f) empty (busy_of_live live)
  rw [List.erase_cons_head] at installed
  refine ⟨fd.val, _, ?_, installed.fill (f := f) (by simp) (by simpa using none_) type omode⟩
  simp only [FileSys.sysOpen, if_neg dir, if_neg dev, alloc, fdAlloc]

/-- `fileclose(rf); fileclose(wf)` of two files the call holds. -/
theorem Inv.closeBoth {rf wf : Fin nf} (inv : s.Inv [wf, rf] heldIp) (apart : rf ≠ wf) :
    ∃ s', s.closeBoth rf wf = .ok s' ∧ s'.Inv [] heldIp := by
  obtain ⟨s₁, closed₁, inv₁⟩ := inv.fileclose (List.mem_cons_of_mem _ (List.mem_singleton_self rf))
  rw [List.erase_cons_tail (by simpa using apart.symm), List.erase_cons_head] at inv₁
  obtain ⟨s₂, closed₂, inv₂⟩ := inv₁.fileclose (List.mem_singleton_self wf)
  rw [List.erase_cons_head] at inv₂
  exact ⟨s₂, by simp only [FileSys.closeBoth, closed₁, closed₂], inv₂⟩

/-- `pipealloc` never panics: it hands back nothing, or two files the call
holds as the read and the write end of a new pipe. -/
theorem Inv.pipealloc (inv : s.Inv [] []) {page : Option Nat} (fresh : ∀ pi, page = some pi → s.pipe pi = none) :
    ∃ res s', s.pipealloc page = .ok (res, s') ∧
      ((res = none ∧ s'.Inv [] []) ∨
        ∃ rf wf, res = some (rf, wf) ∧ rf ≠ wf ∧ s'.state = s.state ∧ s'.Inv [wf, rf] []) := by
  rcases alloc0 : s.filealloc with _ | ⟨f0, s₁⟩
  · exact ⟨none, s, by simp only [FileSys.pipealloc, alloc0], .inl ⟨rfl, inv⟩⟩
  obtain ⟨zero0, rfl⟩ := filealloc_spec alloc0
  have inv₁ := inv.alloc zero0
  rcases alloc1 : (s.setFile f0 { s.file f0 with ref := 1 }).filealloc with _ | ⟨f1, s₂⟩
  · obtain ⟨s', closed, closedInv⟩ := inv₁.fileclose (List.mem_singleton_self f0)
    rw [List.erase_cons_head] at closedInv
    exact ⟨none, s', by simp only [FileSys.pipealloc, alloc0, alloc1, closed], .inl ⟨rfl, closedInv⟩⟩
  obtain ⟨zero1, rfl⟩ := filealloc_spec alloc1
  have apart : f0 ≠ f1 := by
    rintro rfl
    rw [setFile_file, Function.update_self] at zero1
    cases zero1
  have inv₂ := inv₁.alloc zero1
  rcases page with _ | pi
  · obtain ⟨s', closed, closedInv⟩ := inv₂.closeBoth apart
    exact ⟨none, s', by simp only [FileSys.pipealloc, alloc0, alloc1, closed], .inl ⟨rfl, closedInv⟩⟩
  · have none0 := inv.free f0 zero0
    have none1 := inv₁.free f1 zero1
    have piped := inv₂.pipeFiles apart (by simp [Function.update_of_ne apart]) (by simp)
      (by simpa [Function.update_of_ne apart] using none0) (by simpa using none1) (fresh pi rfl)
    refine ⟨some (f0, f1), _, ?_, .inr ⟨f0, f1, rfl, apart, ?_, piped⟩⟩
    · simp only [FileSys.pipealloc, alloc0, alloc1]
    · rfl

/-- `sys_pipe` never panics and keeps the invariant, on every path: every
failure closes what it took. -/
theorem Inv.sysPipe (inv : s.Inv [] []) {p : Fin n} (live : (s.state p).live = true) {page : Option Nat}
    (fresh : ∀ pi, page = some pi → s.pipe pi = none) (copied : Bool) :
    ∃ r s', s.sysPipe p page copied = .ok (r, s') ∧ s'.Inv [] [] := by
  obtain ⟨res, s₁, allocated, post⟩ := inv.pipealloc fresh
  rcases post with ⟨rfl, inv₁⟩ | ⟨rf, wf, rfl, apart, sameState, inv₁⟩
  · exact ⟨-1, s₁, by simp only [FileSys.sysPipe, allocated], inv₁⟩
  have busy : s₁.state p ≠ .UNUSED ∧ s₁.state p ≠ .ZOMBIE := by
    rw [sameState]
    exact busy_of_live live
  rcases alloc0 : s₁.fdalloc p rf with _ | ⟨fd0, s₂⟩
  · obtain ⟨s', closed, closedInv⟩ := inv₁.closeBoth apart
    exact ⟨-1, s', by simp only [FileSys.sysPipe, allocated, alloc0, closed], closedInv⟩
  obtain ⟨empty0, rfl⟩ := fdalloc_spec alloc0
  have inv₂ := inv₁.install (List.mem_cons_of_mem _ (List.mem_singleton_self rf)) empty0 busy
  rw [List.erase_cons_tail (by simpa using apart.symm), List.erase_cons_head] at inv₂
  have at0 : (s₁.setFd p fd0 (some rf)).ofile p fd0 = some rf := by simp
  rcases alloc1 : (s₁.setFd p fd0 (some rf)).fdalloc p wf with _ | ⟨fd1, s₃⟩
  · -- no second descriptor: the first is given back, then both files closed
    obtain ⟨s', closed, closedInv⟩ := ((inv₂.uninstall at0).perm (List.Perm.swap wf rf [])).closeBoth apart
    exact ⟨-1, s', by simp only [FileSys.sysPipe, allocated, alloc0, alloc1, closed], closedInv⟩
  obtain ⟨empty1, rfl⟩ := fdalloc_spec alloc1
  have inv₃ := inv₂.install (List.mem_singleton_self wf) empty1 busy
  rw [List.erase_cons_head] at inv₃
  cases copied
  · -- the descriptors do not reach user memory: both are given back
    have apartFd : fd0 ≠ fd1 := by
      rintro rfl
      rw [at0] at empty1
      cases empty1
    have at0' : ((s₁.setFd p fd0 (some rf)).setFd p fd1 (some wf)).ofile p fd0 = some rf := by
      simp [Function.update_of_ne apartFd]
    have inv₄ := inv₃.uninstall at0'
    have at1 : (((s₁.setFd p fd0 (some rf)).setFd p fd1 (some wf)).setFd p fd0 none).ofile p fd1 = some wf := by
      simp [Function.update_of_ne (Ne.symm apartFd)]
    obtain ⟨s', closed, closedInv⟩ := (inv₄.uninstall at1).closeBoth apart
    exact ⟨-1, s', by simp only [FileSys.sysPipe, allocated, alloc0, alloc1, closed, Bool.false_eq_true, if_false],
      closedInv⟩
  · exact ⟨0, _, by simp only [FileSys.sysPipe, allocated, alloc0, alloc1, if_true], inv₃⟩

/-! ## `fork`, `exit` and `wait` keep it -/

theorem allocproc_spec {np : Fin n} (found : s.allocproc = some np) : s.state np = .UNUSED := by
  unfold allocproc at found
  have unused := List.find?_some found
  exact of_decide_eq_true unused

/-- A working directory moves between a process and the call. -/
theorem Inv.setCwd (inv : s.Inv held heldIp) (q : Fin n) (x : Option Nat) (heldIp' : List Nat)
    (balance : ∀ j, hit x j + heldIp'.count j = hit (s.cwd q) j + heldIp.count j)
    (idle : s.state q = .UNUSED ∨ s.state q = .ZOMBIE → x = none) :
    (s.setCwd q x).Inv held heldIp' where
  refs := inv.refs
  free := inv.free
  idle p idleP := by
    obtain ⟨closed, noCwd⟩ := inv.idle p idleP
    refine ⟨closed, ?_⟩
    rw [setCwd_cwd]
    by_cases same : p = q
    · subst same
      rw [Function.update_self]
      exact idle idleP
    · rw [Function.update_of_ne same]
      exact noCwd
  toPipeInv := inv.toPipeInv.frame rfl rfl
  irefs j := by
    have moved := count_update s.cwd q x j
    have before := inv.irefs j
    have balanced := balance j
    rw [setCwd_iref, setCwd_file, setCwd_cwd]
    omega

/-- `fork`'s loop copies each open descriptor of `p` into the empty one of
`np`, counting one more reference each time. -/
theorem Inv.forkFiles {p np : Fin n} :
    ∀ (fds : List (Fin k)) (s : FileSys n k nf), s.Inv held heldIp → fds.Nodup →
      (∀ fd ∈ fds, s.ofile np fd = none) → (s.state np ≠ .UNUSED ∧ s.state np ≠ .ZOMBIE) →
      ∃ s', forkFiles p np fds s = .ok s' ∧ s'.Inv held heldIp ∧ s'.state = s.state ∧ s'.cwd = s.cwd
  | [], s, inv, _, _, _ => ⟨s, rfl, inv, rfl, rfl⟩
  | fd :: fds, s, inv, nodup, empty, busy => by
      have rest : ∀ fd' ∈ fds, s.ofile np fd' = none := fun fd' mem => empty fd' (List.mem_cons_of_mem _ mem)
      rcases at_ : s.ofile p fd with _ | f
      · obtain ⟨s', loop, inv', sameState, sameCwd⟩ := Inv.forkFiles (p := p) fds s inv (List.nodup_cons.mp nodup).2 rest busy
        exact ⟨s', by simp only [FileSys.forkFiles, at_, loop], inv', sameState, sameCwd⟩
      · have pos := inv.pos_of_slot at_
        have moved := (inv.dup pos).install (List.mem_cons_self ..) (empty fd (List.mem_cons_self ..)) busy
        rw [List.erase_cons_head] at moved
        -- the other descriptors of `np` are still empty
        have stillEmpty : ∀ fd' ∈ fds, ((s.setFile f { s.file f with ref := (s.file f).ref + 1 }).setFd np fd
            (some f)).ofile np fd' = none := fun fd' mem => by
          have other : fd' ≠ fd := fun same => (List.nodup_cons.mp nodup).1 (same ▸ mem)
          rw [setFd_ofile, Function.update_self, Function.update_of_ne other, setFile_ofile]
          exact rest fd' mem
        obtain ⟨s', loop, inv', sameState, sameCwd⟩ :=
          Inv.forkFiles (p := p) fds _ moved (List.nodup_cons.mp nodup).2 stillEmpty busy
        exact ⟨s', by simp only [FileSys.forkFiles, at_, filedup_of_pos pos, loop], inv', sameState, sameCwd⟩

/-- `np->cwd = idup(p->cwd)` for a slot without one. -/
theorem Inv.forkCwd (inv : s.Inv held heldIp) {p np : Fin n} (noCwd : s.cwd np = none)
    (busy : s.state np ≠ .UNUSED ∧ s.state np ≠ .ZOMBIE) : (s.forkCwd p np).Inv held heldIp := by
  unfold FileSys.forkCwd
  rcases at_ : s.cwd p with _ | i
  · exact inv
  · refine (inv.idup i).setCwd np (some i) heldIp (fun j => ?_) fun idleNp => ?_
    · rw [idup_cwd, noCwd, hit_none, count_cons_hit, Nat.zero_add]
    · rcases idleNp with unused | zombie
      · exact absurd unused busy.1
      · exact absurd zombie busy.2

/-- `fork` never panics and keeps the invariant, whether it succeeds or not. -/
theorem Inv.fork (inv : s.Inv [] []) (p : Fin n) (allocated : Bool) :
    ∃ r s', s.fork p allocated = .ok (r, s') ∧ s'.Inv [] [] := by
  rcases found : s.allocproc with _ | np
  · exact ⟨none, s, by simp only [FileSys.fork, found], inv⟩
  cases allocated
  · exact ⟨none, s, by simp only [FileSys.fork, found, Bool.false_eq_true, if_false], inv⟩
  have unused := allocproc_spec found
  obtain ⟨closed, noCwd⟩ := inv.idle np (.inl unused)
  have used := inv.setState np .USED fun idle => by rcases idle with h | h <;> cases h
  have busy : (s.setState np .USED).state np ≠ .UNUSED ∧ (s.setState np .USED).state np ≠ .ZOMBIE := by
    simp
  obtain ⟨s₁, loop, inv₁, sameState, sameCwd⟩ :=
    used.forkFiles (p := p) (List.finRange k) _ (List.nodup_finRange k) (fun fd _ => closed fd) busy
  have busy₁ : s₁.state np ≠ .UNUSED ∧ s₁.state np ≠ .ZOMBIE := by
    rw [sameState]
    exact busy
  have withCwd := inv₁.forkCwd (p := p) (by rw [sameCwd]; exact noCwd) busy₁
  have runnable := withCwd.setState np .RUNNABLE fun idle => by rcases idle with h | h <;> cases h
  exact ⟨some np, _, by simp only [FileSys.fork, found, if_true, loop], runnable⟩

theorem fileclose_of_free {f : Fin nf} (free : (s.file f).ref < 1) : s.fileclose f = .error "fileclose" := by
  unfold fileclose
  exact if_pos free

theorem pipeclose_frame {pi : Nat} {w : Bool} {s' : FileSys n k nf} (closed : s.pipeclose pi w = .ok s') :
    s'.ofile = s.ofile ∧ s'.state = s.state ∧ s'.cwd = s.cwd := by
  unfold pipeclose at closed
  rcases at_ : s.pipe pi with _ | e
  · simp only [at_] at closed
    cases closed
  · simp only [at_] at closed
    split_ifs at closed
    all_goals
      cases closed
      exact ⟨rfl, rfl, rfl⟩

/-- `fileclose` touches files, pipes and inode counts only. -/
theorem fileclose_frame {f : Fin nf} {s' : FileSys n k nf} (closed : s.fileclose f = .ok s') :
    s'.ofile = s.ofile ∧ s'.state = s.state ∧ s'.cwd = s.cwd := by
  by_cases zero : (s.file f).ref < 1
  · rw [fileclose_of_free zero] at closed
    cases closed
  by_cases more : 1 < (s.file f).ref
  · rw [fileclose_of_more more] at closed
    cases closed
    exact ⟨rfl, rfl, rfl⟩
  rw [fileclose_of_last (by omega)] at closed
  cases type : (s.file f).type with
  | PIPE =>
      rw [closeLast_of_pipe type] at closed
      obtain ⟨sameOfile, sameState, sameCwd⟩ := pipeclose_frame closed
      exact ⟨sameOfile, sameState, sameCwd⟩
  | NONE =>
      rw [closeLast_of_none type] at closed
      cases closed
      exact ⟨rfl, rfl, rfl⟩
  | INODE =>
      rw [closeLast_of_inode (.inl type)] at closed
      cases closed
      exact ⟨rfl, rfl, rfl⟩
  | DEVICE =>
      rw [closeLast_of_inode (.inr type)] at closed
      cases closed
      exact ⟨rfl, rfl, rfl⟩

theorem pipeclose_setFd (p : Fin n) (fd : Fin k) (x : Option (Fin nf)) (pi : Nat) (w : Bool) :
    (s.setFd p fd x).pipeclose pi w = (s.pipeclose pi w).map (·.setFd p fd x) := by
  unfold pipeclose
  rw [setFd_pipe]
  rcases s.pipe pi with _ | e
  · rfl
  · dsimp only
    split_ifs <;> rfl

theorem closeLast_setFd (p : Fin n) (fd : Fin k) (x : Option (Fin nf)) (ff : File) :
    (s.setFd p fd x).closeLast ff = (s.closeLast ff).map (·.setFd p fd x) := by
  cases type : ff.type with
  | PIPE => rw [closeLast_of_pipe type, closeLast_of_pipe type, pipeclose_setFd]
  | NONE => rw [closeLast_of_none type, closeLast_of_none type]; rfl
  | INODE => rw [closeLast_of_inode (.inl type), closeLast_of_inode (.inl type)]; rfl
  | DEVICE => rw [closeLast_of_inode (.inr type), closeLast_of_inode (.inr type)]; rfl

/-- Clearing a descriptor and closing a file commute: `exit` closes first. -/
theorem fileclose_setFd (p : Fin n) (fd : Fin k) (x : Option (Fin nf)) (f : Fin nf) :
    (s.setFd p fd x).fileclose f = (s.fileclose f).map (·.setFd p fd x) := by
  by_cases zero : (s.file f).ref < 1
  · rw [fileclose_of_free zero, fileclose_of_free (by rwa [setFd_file])]
    rfl
  by_cases more : 1 < (s.file f).ref
  · rw [fileclose_of_more more, fileclose_of_more (by rwa [setFd_file])]
    rfl
  have last : (s.file f).ref = 1 := by omega
  rw [fileclose_of_last last, fileclose_of_last (by rwa [setFd_file]), setFd_file, setFd_setFile, closeLast_setFd]

/-- `exit`'s loop closes every open descriptor of `p` among `fds`, and touches
no other slot, state or working directory. -/
theorem Inv.exitFiles {p : Fin n} :
    ∀ (fds : List (Fin k)) (s : FileSys n k nf), s.Inv held heldIp →
      ∃ s', exitFiles p fds s = .ok s' ∧ s'.Inv held heldIp ∧ (∀ fd ∈ fds, s'.ofile p fd = none) ∧
        (∀ q fd, s.ofile q fd = none → s'.ofile q fd = none) ∧ s'.state = s.state ∧ s'.cwd = s.cwd
  | [], s, inv => ⟨s, rfl, inv, nofun, fun _ _ => id, rfl, rfl⟩
  | fd :: fds, s, inv => by
      rcases at_ : s.ofile p fd with _ | f
      · obtain ⟨s', loop, inv', cleared, kept, sameState, sameCwd⟩ := Inv.exitFiles (p := p) fds s inv
        refine ⟨s', by simp only [FileSys.exitFiles, at_, loop], inv', fun fd' mem => ?_, kept, sameState, sameCwd⟩
        rcases List.mem_cons.mp mem with rfl | later
        · exact kept p fd' at_
        · exact cleared fd' later
      -- the invariant is carried by clearing the slot first; the model closes first
      obtain ⟨s₁, closed, inv₁⟩ := (inv.uninstall at_).fileclose (List.mem_cons_self ..)
      rw [List.erase_cons_head] at inv₁
      rw [fileclose_setFd] at closed
      obtain ⟨s₀, closed₀, rfl⟩ : ∃ s₀, s.fileclose f = .ok s₀ ∧ s₀.setFd p fd none = s₁ := by
        cases h : s.fileclose f with
        | error e =>
            rw [h] at closed
            cases closed
        | ok s₀ =>
            rw [h] at closed
            exact ⟨s₀, rfl, Except.ok.inj closed⟩
      obtain ⟨sameOfile, sameState₀, sameCwd₀⟩ := fileclose_frame closed₀
      obtain ⟨s', loop, inv', cleared, kept, sameState, sameCwd⟩ := Inv.exitFiles (p := p) fds _ inv₁
      have keptHere : ∀ q fd', s.ofile q fd' = none → (s₀.setFd p fd none).ofile q fd' = none := by
        intro q fd' empty
        rw [setFd_ofile, sameOfile]
        by_cases same : q = p
        · subst same
          by_cases sameFd : fd' = fd
          · rw [sameFd, Function.update_self, Function.update_self]
          · rw [Function.update_self, Function.update_of_ne sameFd]
            exact empty
        · rw [Function.update_of_ne same]
          exact empty
      refine ⟨s', by simp only [FileSys.exitFiles, at_, closed₀, loop], inv', fun fd' mem => ?_,
        fun q fd' empty => kept q fd' (keptHere q fd' empty), by rw [sameState, setFd_state, sameState₀],
        by rw [sameCwd, setFd_cwd, sameCwd₀]⟩
      rcases List.mem_cons.mp mem with rfl | later
      · exact kept p fd' (by rw [setFd_ofile, Function.update_self, Function.update_self])
      · exact cleared fd' later

/-- `iput(p->cwd); p->cwd = 0`. -/
theorem Inv.exitCwd (inv : s.Inv held heldIp) (p : Fin n) :
    (s.exitCwd p).Inv held heldIp ∧ (s.exitCwd p).cwd p = none ∧ (s.exitCwd p).ofile = s.ofile ∧
      (s.exitCwd p).state = s.state := by
  rcases at_ : s.cwd p with _ | i
  · have eq : s.exitCwd p = s.setCwd p none := by simp only [FileSys.exitCwd, at_]
    rw [eq]
    refine ⟨inv.setCwd p none heldIp (fun j => by rw [at_]) fun _ => rfl, ?_, rfl, rfl⟩
    rw [setCwd_cwd, Function.update_self]
  -- the directory's reference passes to the call, which puts it
  have eq : s.exitCwd p = (s.setCwd p none).iput i := by simp only [FileSys.exitCwd, at_]; rfl
  rw [eq]
  have moved := inv.setCwd p none (i :: heldIp) (fun j => by rw [at_, hit_none, Nat.zero_add, count_cons_hit])
    fun _ => rfl
  have put := moved.iput (List.mem_cons_self ..)
  rw [List.erase_cons_head] at put
  exact ⟨put, by rw [iput_cwd, setCwd_cwd, Function.update_self], rfl, rfl⟩

/-- `freeproc` of a zombie: it held nothing. -/
theorem Inv.wait (inv : s.Inv [] []) {c : Fin n} (zombie : s.state c = .ZOMBIE) :
    (s.setState c .UNUSED).Inv [] [] :=
  inv.setState c .UNUSED fun _ => inv.idle c (.inr zombie)

/-- Nothing is open at boot. -/
theorem boot_inv : (boot : FileSys n k nf).Inv [] [] where
  refs f := by
    rw [List.count_nil, Nat.add_zero]
    exact (count_none f).symm
  free _ _ := rfl
  idle _ _ := ⟨fun _ => rfl, rfl⟩
  irefs i := by
    have closed : count (fun f => ((boot : FileSys n k nf).file f).inode) i = 0 :=
      count_eq_zero.mpr fun f => by rw [File.inode_of_zero (show ((boot : FileSys n k nf).file f).ref = 0 from rfl)]; nofun
    have noCwd : count (boot : FileSys n k nf).cwd i = 0 := count_none i
    rw [closed, noCwd, List.count_nil]
    rfl
  ends _ zero := absurd zero (Nat.lt_irrefl 0)
  opened pi w := ⟨fun ⟨_, freed, _⟩ => (by cases freed), fun ⟨_, isEnd⟩ => (File.not_isEnd_of_zero _ rfl pi w isEnd).elim⟩
  oneEnd _ _ pi w isEnd := (File.not_isEnd_of_zero _ rfl pi w isEnd).elim
  allocated _ _ freed := by cases freed

section Exit

variable [NeZero n]

/-- `exit` of any process but `initproc` closes its files and directory
without a panic, and leaves a zombie that holds nothing. -/
theorem Inv.exit (inv : s.Inv [] []) {p : Fin n} (notInit : p ≠ initproc) :
    ∃ s', s.exit p = .ok s' ∧ s'.Inv [] [] := by
  obtain ⟨s₁, loop, inv₁, cleared, -, -, -⟩ := inv.exitFiles (p := p) (List.finRange k) s
  obtain ⟨inv₂, noCwd, sameOfile, -⟩ := inv₁.exitCwd p
  have zombie := inv₂.setState p .ZOMBIE fun _ =>
    ⟨fun fd => by rw [sameOfile]; exact cleared fd (List.mem_finRange fd), noCwd⟩
  exact ⟨_, by simp only [FileSys.exit, if_neg notInit, loop], zombie⟩

/-- Every call a live process can make keeps the invariant and never
panics; the one error is `initproc` calling `exit`. -/
theorem Inv.exec (inv : s.Inv [] []) {p : Fin n} (live : (s.state p).live = true) (a : FileAct n)
    (possible : s.possible a = true) :
    (∃ s', s.exec p a = .ok s' ∧ s'.Inv [] []) ∨ (p = initproc ∧ a = .exit) := by
  cases a with
  | «open» found omode =>
      obtain ⟨r, s', called, inv'⟩ := inv.sysOpen live found omode
      exact .inl ⟨s', by rw [FileSys.exec, called]; rfl, inv'⟩
  | dup fd =>
      obtain ⟨r, s', called, inv'⟩ := inv.sysDup live fd
      exact .inl ⟨s', by rw [FileSys.exec, called]; rfl, inv'⟩
  | close fd =>
      obtain ⟨r, s', called, inv'⟩ := inv.sysClose (p := p) fd
      exact .inl ⟨s', by rw [FileSys.exec, called]; rfl, inv'⟩
  | pipe page copied =>
      -- `kalloc` gives a page that holds no pipe
      have fresh : ∀ pi, page = some pi → s.pipe pi = none := by
        rintro pi rfl
        exact Option.isNone_iff_eq_none.mp possible
      obtain ⟨r, s', called, inv'⟩ := inv.sysPipe live fresh copied
      exact .inl ⟨s', by rw [FileSys.exec, called]; rfl, inv'⟩
  | fork allocated =>
      obtain ⟨r, s', called, inv'⟩ := inv.fork p allocated
      exact .inl ⟨s', by rw [FileSys.exec, called]; rfl, inv'⟩
  | exit =>
      by_cases init : p = initproc
      · exact .inr ⟨init, rfl⟩
      obtain ⟨s', called, inv'⟩ := inv.exit init
      exact .inl ⟨s', called, inv'⟩
  | wait child => exact .inl ⟨_, rfl, inv.wait (of_decide_eq_true possible)⟩

/-- A step keeps the invariant. -/
theorem Inv.step (inv : s.Inv [] []) {e : Fin n × FileAct n} {s' : FileSys n k nf}
    (stepped : FileSys.step e s = some s') : s'.Inv [] [] := by
  obtain ⟨p, a⟩ := e
  simp only [FileSys.step] at stepped
  split_ifs at stepped with guard
  obtain ⟨live, possible⟩ := guard
  rcases inv.exec live a possible with ⟨s₁, called, inv₁⟩ | ⟨rfl, rfl⟩
  · rw [called] at stepped
    cases stepped
    exact inv₁
  · -- `exit` of `initproc` is an error, so there is no step
    simp only [FileSys.exec, FileSys.exit] at stepped
    cases stepped

/-- `userinit`: `initproc` takes the root directory's reference. -/
theorem start_inv : (start : FileSys n k nf).Inv [] [] := by
  have got := (boot_inv : (boot : FileSys n k nf).Inv [] []).idup ROOTINO
  have runnable := got.setState initproc .RUNNABLE fun idle => by rcases idle with h | h <;> cases h
  refine runnable.setCwd initproc (some ROOTINO) [] (fun j => ?_) fun idle => ?_
  · rw [setState_cwd, idup_cwd, count_cons_hit]
    show _ = hit none j + _
    rw [hit_none, Nat.zero_add]
  · rcases idle with h | h <;> simp at h

theorem run_inv {t : List (Fin n × FileAct n)} {s : FileSys n k nf} (ran : run step start t = some s) :
    s.Inv [] [] :=
  run_invariant step (fun s => s.Inv [] []) (fun _ _ _ inv stepped => inv.step stepped) start_inv ran

/-- The file table in every reachable state, at call boundaries: each file's
`ref` is the number of descriptors that point at it, so a free file is in no
descriptor; a pipe's `readopen` (`writeopen`) says whether an open file is its
read (write) end, and a page holds a pipe only while one end is open; each
inode's count is its open files and working directories.  No call of a live
process panics, and none closes a freed pipe; the one error left is
`initproc` calling `exit`. -/
theorem file_refs {t : List (Fin n × FileAct n)} {s : FileSys n k nf} (ran : run step start t = some s) :
    (∀ f, (s.file f).ref = count (Function.uncurry s.ofile) f) ∧
    (∀ f, (s.file f).ref = 0 → ∀ p fd, s.ofile p fd ≠ some f) ∧
    (∀ pi w, (∃ e, s.pipe pi = some e ∧ e.isOpen w = true) ↔ ∃ f, (s.file f).IsEnd pi w) ∧
    (∀ pi e, s.pipe pi = some e → e.readopen = true ∨ e.writeopen = true) ∧
    (∀ i, s.iref i = count (fun f => (s.file f).inode) i + count s.cwd i) ∧
    (∀ p a, (s.state p).live = true → s.possible a = true →
      (∃ s', s.exec p a = .ok s') ∨ (p = initproc ∧ a = .exit)) := by
  have inv := run_inv ran
  have refs : ∀ f, (s.file f).ref = count (Function.uncurry s.ofile) f := fun f => inv.refs f
  refine ⟨refs, fun f zero p fd at_ => ?_, inv.opened, inv.allocated, fun i => inv.irefs i, fun p a live possible => ?_⟩
  · rw [refs f] at zero
    exact count_eq_zero.mp zero (p, fd) at_
  · rcases inv.exec live a possible with ⟨s', called, -⟩ | initExit
    · exact .inl ⟨s', called⟩
    · exact .inr initExit

/-- After `initproc`'s `pipe`, every file is counted by its descriptors. -/
theorem file_refs_pipe :
    ∃ s : FileSys NPROC NOFILE NFILE, run step start [(initproc, .pipe (some 0) true)] = some s ∧
      ∀ f, (s.file f).ref = count (Function.uncurry s.ofile) f :=
  ⟨_, rfl, (file_refs (t := [(initproc, .pipe (some 0) true)]) rfl).1⟩

end Exit

end FileSys

end Xv6
