/-
# Kernel.Transactions -- every path of every file-system call, and its begin_op/end_op brackets

A file-system call groups its disk writes into one log transaction:
`begin_op` opens it, `end_op` closes it, and in between `log_write` records a
block the transaction changes.  `log_write` panics unless a transaction is
open ("log_write outside of trans"), and `iput` must be called inside one,
because dropping the last reference to an unlinked inode truncates and frees
it.  The brackets sit in different layers (sysfile.c, file.c, exec.c and
proc.c's `exit`), and the calls have many early returns.

Each function on these paths is written here as `Paths.Cmd` code over the
events `Ev`, statement by statement as the source has them: every condition it
tests is left open, a `goto bad` is the code at `bad`, a panic is a halt, and a
function that writes no block (argument fetching, `ilock`'s read, pipes,
devices) keeps only its panics and returns.  `Ev.step` counts the call's own
open transactions and refuses a `log_write`, an `iput` or an `end_op` when
none is open.  `transaction_brackets` reads every run of every call with it.

`readi` allocates through `bmap` only at a hole below the inode's size, and no
inode has one under the file-system invariant (`readi_of_noHoles`); `readi` with
`holes = false` leaves that allocation out (`readBmap`).  Only `sys_read`
needs this: `fileread` calls `readi` with no transaction open, and every other
`readi` runs inside one (`transaction_brackets_with_holes`).
-/
import Xv6.Theory.Paths

namespace Xv6

open Paths

set_option autoImplicit false

/-- The events of a file-system call that its transaction brackets are about. -/
inductive Ev where
  | beginOp
  | endOp
  | logWrite
  | iput
  deriving DecidableEq, Repr

/-- The number of the call's own transactions that are open: `begin_op` opens
one, `end_op` closes one, and `log_write` and `iput` need one open. -/
def Ev.step : Ev → Nat → Option Nat
  | .beginOp, d => some (d + 1)
  | .endOp, d => if 0 < d then some (d - 1) else none
  | .logWrite, d => if 0 < d then some d else none
  | .iput, d => if 0 < d then some d else none

/-- The `begin_op` calls in a trace. -/
def opens (t : List Ev) : Nat := t.count .beginOp

/-- The `end_op` calls in a trace. -/
def closes (t : List Ev) : Nat := t.count .endOp

theorem opens_cons (e : Ev) (t : List Ev) : opens (e :: t) = opens [e] + opens t := by
  simp only [opens, List.count_cons, List.count_nil]
  omega

theorem closes_cons (e : Ev) (t : List Ev) : closes (e :: t) = closes [e] + closes t := by
  simp only [closes, List.count_cons, List.count_nil]
  omega

theorem Ev.step_eq_some {e : Ev} {d d' : Nat} (stepped : e.step d = some d') :
    d' + closes [e] = d + opens [e] ∧ (e ≠ .beginOp → 0 < d) := by
  cases e <;> simp only [Ev.step, Option.ite_none_right_eq_some, Option.some.injEq] at stepped <;>
    simp [opens, closes] <;> omega

/-- A trace the counter reads through from `d` to `d'`: every event but a
`begin_op` meets an open transaction, and the opens and closes account for the
difference. -/
theorem run_step_eq_some : ∀ {t : List Ev} {d d' : Nat}, run Ev.step d t = some d' →
    d' + closes t = d + opens t ∧
      ∀ p e, p ++ [e] <+: t → e ≠ .beginOp → closes p < d + opens p
  | [], d, d', ran => by
      simp only [run_nil, Option.some.injEq] at ran
      subst ran
      refine ⟨rfl, fun p e pre _ => ?_⟩
      simpa using pre.length_le
  | e :: t, d, d', ran => by
      simp only [run_cons, Option.bind_eq_some_iff] at ran
      obtain ⟨d₁, stepped, rest⟩ := ran
      obtain ⟨count₁, inside₁⟩ := Ev.step_eq_some stepped
      obtain ⟨count, inside⟩ := run_step_eq_some rest
      refine ⟨by rw [opens_cons, closes_cons]; omega, fun p e' pre notBegin => ?_⟩
      cases p with
      | nil =>
          -- the event is `e` itself
          obtain ⟨rfl, -⟩ := List.cons_prefix_cons.mp pre
          simpa [opens, closes] using inside₁ notBegin
      | cons a p =>
          -- an event of the rest, read from the count after `e`
          obtain ⟨rfl, pre'⟩ := List.cons_prefix_cons.mp pre
          have later := inside p e' pre' notBegin
          rw [opens_cons, closes_cons]
          omega

/-! ## stat.h -/

def T_DIR : Int := 1
def T_FILE : Int := 2
def T_DEVICE : Int := 3

namespace Txn

/-! ## fs.c -/

/-- `bzero`: log the zeroed block. -/
def bzero : Cmd Ev := .emit .logWrite

/-- `balloc`: at the first free bit, mark it, log the bitmap block, zero the
block and return it; print and return 0 when every bit is set. -/
def balloc : Cmd Ev :=
  .call <| .block [
    .loop (.loop (.when (.block [.emit .logWrite, bzero, .ret]))),
    .ret]

/-- `bfree`: panic on a free block; else clear its bit and log the bitmap block. -/
def bfree : Cmd Ev := .block [.when .halt, .emit .logWrite]

/-- `ialloc`: mark the first free inode allocated and log its block; print and
return 0 when there is none. -/
def ialloc : Cmd Ev :=
  .call <| .block [.loop (.when (.block [.emit .logWrite, .ret])), .ret]

/-- `iupdate`: log the block that holds the inode. -/
def iupdate : Cmd Ev := .emit .logWrite

/-- `ilock`: panic on a null or unreferenced inode, and on a free one it reads. -/
def ilock : Cmd Ev := .block [.when .halt, .when .halt]

/-- `iunlock`: panic unless the caller holds the lock. -/
def iunlock : Cmd Ev := .when .halt

/-- `itrunc`: free the direct blocks, the blocks the indirect block lists and
the indirect block itself, and write the inode back. -/
def itrunc : Cmd Ev :=
  .block [
    .loop (.when bfree),
    .when (.block [.loop (.when bfree), bfree]),
    iupdate]

/-- `iput`: the last reference to an inode with no links truncates it and
writes it back free. -/
def iput : Cmd Ev := .block [.emit .iput, .when (.block [itrunc, iupdate])]

def iunlockput : Cmd Ev := .block [iunlock, iput]

/-- `bmap`: a direct block, allocated if missing; or the indirect block,
allocated if missing, and its entry, allocated and logged if missing. -/
def bmap : Cmd Ev :=
  .call <| .block [
    .when (.block [.when (.block [balloc, .when .ret]), .ret]),
    .when (.block [
      .when (.block [balloc, .when .ret]),
      .when (.block [balloc, .when (.emit .logWrite)]),
      .ret]),
    .halt]

/-- `writei`: refuse a write that starts past the end or overflows; each block
is mapped (allocating), copied into and logged; the inode is written back. -/
def writei : Cmd Ev :=
  .call <| .block [
    .when .ret,
    .when .ret,
    .loop (.block [bmap, .when .brk, .when .brk, .emit .logWrite]),
    iupdate,
    .ret]

section Holes

/- Whether a `readi` may meet an unallocated block below the inode's size. -/
variable (holes : Bool)

/-- The `bmap` call of `readi`.  It reads below the size only, and there every
block of an inode with no holes is mapped, so `bmap` allocates nothing
(`bmap_of_mapped`). -/
def readBmap : Cmd Ev := if holes then bmap else .skip

/-- `readi`: clip the read to the size; map and copy out each block. -/
def readi : Cmd Ev :=
  .call <| .block [
    .when .ret,
    .loop (.block [readBmap holes, .when .brk, .when .brk]),
    .ret]

/-- `dirlookup`: panic on a non-directory and on a short read; return at the
matching entry. -/
def dirlookup : Cmd Ev :=
  .call <| .block [
    .when .halt,
    .loop (.block [readi holes, .when .halt, .when .ret]),
    .ret]

/-- `dirlink`: refuse a name that is present (dropping the inode the lookup
returned); find a free entry and write the new one there. -/
def dirlink : Cmd Ev :=
  .call <| .block [
    dirlookup holes, .when (.block [iput, .ret]),
    .loop (.block [readi holes, .when .halt, .when .brk]),
    writei, .when .ret,
    .ret]

/-- `namex`: walk the path from the root or the working directory, locking
each directory, looking the next element up in it and dropping it. -/
def namex (nameiparent : Bool) : Cmd Ev :=
  .call <| .block [
    .loop (.block [
      ilock,
      .when (.block [iunlockput, .ret]),
      -- stop one level early
      if nameiparent then .when (.block [iunlock, .ret]) else .skip,
      dirlookup holes, .when (.block [iunlockput, .ret]),
      iunlockput]),
    if nameiparent then .block [iput, .ret] else .skip,
    .ret]

def namei : Cmd Ev := namex holes false

def nameiparent : Cmd Ev := namex holes true

/-! ## file.c -/

/-- `fileclose`: the last reference to an inode or a device file drops its
inode in a transaction of its own; a pipe is closed without the disk. -/
def fileclose : Cmd Ev :=
  .call <| .block [
    .when .halt,
    .when .ret,
    .branch .skip (.when (.block [.emit .beginOp, iput, .emit .endOp]))]

/-- `filestat`: lock, copy the metadata out, unlock. -/
def filestat : Cmd Ev :=
  .call <| .block [.when (.block [ilock, iunlock, .when .ret, .ret]), .ret]

/-- `fileread`: from a pipe, a device, or an inode at the file's offset, with
no transaction open. -/
def fileread : Cmd Ev :=
  .call <| .block [
    .when .ret,
    .branch .skip
      (.branch (.when .ret)
        (.branch (.block [ilock, readi holes, iunlock])
          .halt)),
    .ret]

/-- `filewrite`: to a pipe, a device, or an inode, a few blocks at a time, each
chunk in a transaction of its own; a short chunk ends the loop. -/
def filewrite : Cmd Ev :=
  .call <| .block [
    .when .ret,
    .branch .skip
      (.branch (.when .ret)
        (.branch (.loop (.block [.emit .beginOp, ilock, writei, iunlock, .emit .endOp, .when .brk]))
          .halt)),
    .ret]

/-- `filedup`: panic on a file with no reference. -/
def filedup : Cmd Ev := .when .halt

/-! ## pipe.c -/

/-- `pipealloc`: two files and a page; on a failure close the files it got. -/
def pipealloc : Cmd Ev :=
  .call <| .block [
    .when (.block [.when fileclose, .when fileclose, .ret]),
    .when (.block [.when fileclose, .when fileclose, .ret]),
    .ret]

/-! ## sysfile.c -/

def sysDup : Cmd Ev := .block [.when .ret, .when .ret, filedup, .ret]

def sysRead : Cmd Ev := .block [.when .ret, fileread holes, .ret]

def sysWrite : Cmd Ev := .block [.when .ret, filewrite, .ret]

def sysClose : Cmd Ev := .block [.when .ret, fileclose, .ret]

def sysFstat : Cmd Ev := .block [.when .ret, filestat, .ret]

/-- The `bad:` exit of `sys_link`: take back the link count. -/
def sysLinkBad : Cmd Ev := .block [ilock, iupdate, iunlockput, .emit .endOp, .ret]

def sysLink : Cmd Ev :=
  .block [
    .when .ret,
    .emit .beginOp,
    namei holes, .when (.block [.emit .endOp, .ret]),
    ilock, .when (.block [iunlockput, .emit .endOp, .ret]),
    iupdate, iunlock,
    nameiparent holes, .when sysLinkBad,
    ilock,
    -- `dp->dev != ip->dev || dirlink(dp, name, ip->inum) < 0`
    .branch (.block [iunlockput, sysLinkBad])
      (.block [dirlink holes, .when (.block [iunlockput, sysLinkBad])]),
    iunlockput, iput,
    .emit .endOp, .ret]

/-- `isdirempty`: read every entry past `.` and `..`; panic on a short read. -/
def isdirempty : Cmd Ev :=
  .call <| .block [.loop (.block [readi holes, .when .halt, .when .ret]), .ret]

/-- The `bad:` exit of `sys_unlink`. -/
def sysUnlinkBad : Cmd Ev := .block [iunlockput, .emit .endOp, .ret]

def sysUnlink : Cmd Ev :=
  .block [
    .when .ret,
    .emit .beginOp,
    nameiparent holes, .when (.block [.emit .endOp, .ret]),
    ilock,
    .when sysUnlinkBad,
    dirlookup holes, .when sysUnlinkBad,
    ilock,
    .when .halt,
    -- `ip->type == T_DIR && !isdirempty(ip)`
    .when (.block [isdirempty holes, .when (.block [iunlockput, sysUnlinkBad])]),
    writei, .when .halt,
    .when iupdate,
    iunlockput,
    iupdate, iunlockput,
    .emit .endOp, .ret]

/-- The `fail:` exit of `create`: free the new inode and drop the parent. -/
def createFail : Cmd Ev := .block [iupdate, iunlockput, iunlockput, .ret]

def create (type : Int) : Cmd Ev :=
  .call <| .block [
    nameiparent holes, .when .ret,
    ilock,
    dirlookup holes,
    .when (.block [
      iunlockput, ilock,
      if type = T_FILE then .when .ret else .skip,
      iunlockput, .ret]),
    ialloc, .when (.block [iunlockput, .ret]),
    ilock, iupdate,
    -- `.` and `..` of a new directory
    if type = T_DIR then .block [dirlink holes, .branch createFail (.block [dirlink holes, .when createFail])]
    else .skip,
    dirlink holes, .when createFail,
    if type = T_DIR then iupdate else .skip,
    iunlockput, .ret]

def sysOpen : Cmd Ev :=
  .block [
    .when .ret,
    .emit .beginOp,
    -- `O_CREATE`, or look the path up
    .branch
      (.block [create holes T_FILE, .when (.block [.emit .endOp, .ret])])
      (.block [
        namei holes, .when (.block [.emit .endOp, .ret]),
        ilock, .when (.block [iunlockput, .emit .endOp, .ret])]),
    .when (.block [iunlockput, .emit .endOp, .ret]),
    .when (.block [.when fileclose, iunlockput, .emit .endOp, .ret]),
    .when itrunc,
    iunlock, .emit .endOp, .ret]

def sysMkdir : Cmd Ev :=
  .block [
    .emit .beginOp,
    .branch (.block [.emit .endOp, .ret])
      (.block [create holes T_DIR, .when (.block [.emit .endOp, .ret])]),
    iunlockput, .emit .endOp, .ret]

def sysMknod : Cmd Ev :=
  .block [
    .emit .beginOp,
    .branch (.block [.emit .endOp, .ret])
      (.block [create holes T_DEVICE, .when (.block [.emit .endOp, .ret])]),
    iunlockput, .emit .endOp, .ret]

def sysChdir : Cmd Ev :=
  .block [
    .emit .beginOp,
    .branch (.block [.emit .endOp, .ret])
      (.block [namei holes, .when (.block [.emit .endOp, .ret])]),
    ilock, .when (.block [iunlockput, .emit .endOp, .ret]),
    iunlock, iput, .emit .endOp, .ret]

/-! ## exec.c -/

/-- `loadseg`: read the segment page by page; panic on an unmapped page. -/
def loadseg : Cmd Ev :=
  .call <| .block [.loop (.block [.when .halt, readi holes, .when .ret]), .ret]

/-- The `bad:` exit of `exec` while it still holds the program's inode. -/
def execBad : Cmd Ev := .block [iunlockput, .emit .endOp, .ret]

def exec : Cmd Ev :=
  .call <| .block [
    .emit .beginOp,
    namei holes, .when (.block [.emit .endOp, .ret]),
    ilock,
    readi holes, .when execBad,
    .when execBad,
    .when execBad,
    .loop (.block [
      readi holes, .when execBad,
      -- a segment that is not `ELF_PROG_LOAD` is skipped
      .when (.block [
        .when execBad, .when execBad, .when execBad, .when execBad,
        loadseg holes, .when execBad])]),
    iunlockput, .emit .endOp,
    -- `ip = 0`: from here `bad:` only frees the page table
    .when .ret,
    .loop (.block [.when .ret, .when .ret, .when .ret]),
    .when .ret, .when .ret,
    .ret]

def sysExec : Cmd Ev :=
  .block [
    .when .ret,
    .loop (.block [.when .ret, .when .ret, .when .brk, .when .ret, .when .ret]),
    exec holes, .ret]

def sysPipe : Cmd Ev :=
  .block [
    pipealloc, .when .ret,
    .when (.block [fileclose, fileclose, .ret]),
    .when (.block [fileclose, fileclose, .ret]),
    .ret]

/-! ## proc.c -/

/-- `exit`: close every open file, then drop the working directory in a
transaction; the process then never runs again. -/
def exit : Cmd Ev :=
  .block [
    .when .halt,
    .loop (.when fileclose),
    .emit .beginOp, iput, .emit .endOp,
    .ret]

end Holes

end Txn

/-- The calls that reach the file system. -/
inductive Syscall where
  | sysDup
  | sysRead
  | sysWrite
  | sysClose
  | sysFstat
  | sysLink
  | sysUnlink
  | sysOpen
  | sysMkdir
  | sysMknod
  | sysChdir
  | sysExec
  | sysPipe
  | exit
  deriving DecidableEq, Repr

/-- The code of each call. -/
def Syscall.body (holes : Bool) : Syscall → Cmd Ev
  | .sysDup => Txn.sysDup
  | .sysRead => Txn.sysRead holes
  | .sysWrite => Txn.sysWrite
  | .sysClose => Txn.sysClose
  | .sysFstat => Txn.sysFstat
  | .sysLink => Txn.sysLink holes
  | .sysUnlink => Txn.sysUnlink holes
  | .sysOpen => Txn.sysOpen holes
  | .sysMkdir => Txn.sysMkdir holes
  | .sysMknod => Txn.sysMknod holes
  | .sysChdir => Txn.sysChdir holes
  | .sysExec => Txn.sysExec holes
  | .sysPipe => Txn.sysPipe
  | .exit => Txn.exit

/-- From no open transaction, every path of every call is read through and
ends with none open. -/
theorem syscall_checked (sc : Syscall) : check Ev.step (sc.body false) 0 (· == 0) = true := by
  cases sc <;> decide

/-- Holes matter to `sys_read` alone: every other call reads an inode only
inside a transaction, where filling a hole is logged like any other write. -/
theorem syscall_checked_with_holes (sc : Syscall) (notRead : sc ≠ .sysRead) :
    check Ev.step (sc.body true) 0 (· == 0) = true := by
  cases sc <;> first | decide | exact absurd rfl notRead

/-- What a check of a call's code from no open transaction says of each of
its runs. -/
theorem brackets_of_checked {body : Cmd Ev} (checked : check Ev.step body 0 (· == 0) = true) {t : List Ev}
    {f : Flow} (runs : Exec body t f) :
    (∀ p e, p ++ [e] <+: t → e ≠ .beginOp → closes p < opens p) ∧ (f ≠ .halted → opens t = closes t) := by
  obtain ⟨d, ran, ended⟩ := check_sound checked runs
  obtain ⟨count, inside⟩ := run_step_eq_some ran
  refine ⟨fun p e pre notBegin => by simpa using inside p e pre notBegin, fun notHalted => ?_⟩
  have closed : d = 0 := by simpa using ended notHalted
  omega

/-- Every run of every file-system call, on a file system with no holes: each
`log_write`, `iput` and `end_op` meets an open `begin_op` of the call, and
unless the run panics, every `begin_op` it opened is closed when it returns. -/
theorem transaction_brackets (sc : Syscall) {t : List Ev} {f : Flow}
    (runs : Exec (sc.body false) t f) :
    (∀ p e, p ++ [e] <+: t → e ≠ .beginOp → closes p < opens p) ∧
      (f ≠ .halted → opens t = closes t) :=
  brackets_of_checked (syscall_checked sc) runs

/-- The brackets hold even where `readi` fills holes, for every call but
`sys_read`: the invariant that no inode has a hole is needed for `fileread`
alone. -/
theorem transaction_brackets_with_holes (sc : Syscall) (notRead : sc ≠ .sysRead) {t : List Ev} {f : Flow}
    (runs : Exec (sc.body true) t f) :
    (∀ p e, p ++ [e] <+: t → e ≠ .beginOp → closes p < opens p) ∧
      (f ≠ .halted → opens t = closes t) :=
  brackets_of_checked (syscall_checked_with_holes sc notRead) runs

/-- `close` of the last reference to an inode file: `fileclose` drops the
inode in a transaction of its own. -/
theorem sysClose_drops_inode :
    Exec (Syscall.sysClose.body false) [.beginOp, .iput, .endOp] .returned := by
  have put : Exec Txn.iput ([Ev.iput] ++ []) .normal := Exec.block_cons (Exec.emit Ev.iput) Exec.whenSkip
  have dropped : Exec (Cmd.block [.emit .beginOp, Txn.iput, .emit .endOp])
      ([Ev.beginOp] ++ (([Ev.iput] ++ []) ++ [Ev.endOp])) .normal :=
    Exec.block_cons (Exec.emit _) (Exec.block_cons put (Exec.emit _))
  have closed : Exec Txn.fileclose ([] ++ ([] ++ ([Ev.beginOp] ++ (([Ev.iput] ++ []) ++ [Ev.endOp])))) .normal :=
    Exec.callDone (Exec.block_cons Exec.whenSkip (Exec.block_cons Exec.whenSkip (Exec.right (Exec.left dropped))))
    (by decide)
  have ran : Exec Txn.sysClose ([] ++ (([] ++ ([] ++ ([Ev.beginOp] ++ (([Ev.iput] ++ []) ++ [Ev.endOp])))) ++ []))
      .returned :=
    Exec.block_cons Exec.whenSkip (Exec.block_cons closed Exec.ret)
  simp only [List.nil_append, List.append_nil, List.cons_append] at ran
  exact ran

theorem sysClose_brackets :
    (∀ p e, p ++ [e] <+: [Ev.beginOp, .iput, .endOp] → e ≠ .beginOp → closes p < opens p) ∧
      (Flow.returned ≠ .halted → opens [Ev.beginOp, .iput, .endOp] = closes [.beginOp, .iput, .endOp]) :=
  @transaction_brackets .sysClose _ _ sysClose_drops_inode

end Xv6
