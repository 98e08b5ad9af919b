/-
# Kernel.SysFile -- the namespace calls of sysfile.c

`sys_link`, `sys_unlink`, `create` and the calls built on it, `sys_open`,
`sys_mkdir` and `sys_mknod`, over the disk, the inode table of `Namex` and the
open files and descriptors of `File`.  Every step of the C code is here as the
code has it: the lookups by `namei` and `nameiparent`, each `ilock`, `iget`,
`iupdate` and `iunlockput`, the entries written by `dirlink` and cleared by
`sys_unlink`, the inode `ialloc` hands out, and every `goto bad` and `goto
fail`.  The panics are errors.  `begin_op` and `end_op` are left out: the
writes go to the log as `Fs` keeps it, and `Transactions` brackets the calls.

A call that returns -1 is meant to leave the names as they were: `sys_link`
takes back the link it counted, and `create` frees an inode it could not
enter.  `sys_open` with `O_CREATE` does not: `create` has entered the new name
before `filealloc` and `fdalloc` are tried, and when either fails the call
returns -1 with the name in place (`open_create_keeps_entry`).
-/
import Xv6.Kernel.Namex
import Xv6.Kernel.File

namespace Xv6

open Bytes Mkfs

set_option autoImplicit false

/-! ## `create` -/

/-- The label `fail` of `create`: the new inode `ip` loses its link, so that
putting it frees it, and the parent `dp` is unlocked and put. -/
def createFail (sb : Superblock) (fs : Fs) (t : ITable) (dp ip : Fin NINODE) :
    Except String (Option (Fin NINODE) × Fs × ITable) := do
  let t := t.set ip { t.inode ip with nlink := 0 }
  let fs := iupdate sb fs (t.inode ip)
  let (fs, t) ← t.iunlockput sb fs ip
  let (fs, t) ← t.iunlockput sb fs dp
  return (none, fs, t)

/-- `dirlink(ip, ".", ip->inum) < 0 || dirlink(ip, "..", dp->inum) < 0` for a
new directory `ip` in `dp`: whether both entries went in.  "." adds no link,
so that a directory's count has no cycle. -/
def linkDots (sb : Superblock) (fs : Fs) (t : ITable) (dp ip : Fin NINODE) : Except String (Bool × Fs × ITable) := do
  let (r, fs, i) ← dirlink sb fs (t.inode ip) dot (t.inode ip).inum
  let t := t.set ip i
  if r < 0 then return (false, fs, t)
  let (r, fs, i) ← dirlink sb fs (t.inode ip) dotdot (t.inode dp).inum
  return (0 ≤ r, fs, t.set ip i)

/-- `create` once the new inode `ip` is locked with its link: the "." and ".."
of a directory, the parent's entry, and the parent's link for "..". -/
def createLink (sb : Superblock) (fs : Fs) (t : ITable) (dp ip : Fin NINODE) (name : List UInt8) (type : Int) :
    Except String (Option (Fin NINODE) × Fs × ITable) := do
  let (dots, fs, t) ← if type = T_DIR then linkDots sb fs t dp ip else pure (true, fs, t)
  if !dots then createFail sb fs t dp ip
  else
    let (r, fs, d) ← dirlink sb fs (t.inode dp) name (t.inode ip).inum
    let t := t.set dp d
    if r < 0 then createFail sb fs t dp ip
    else
      -- success is now certain: the parent gains the link of ".."
      let (fs, t) :=
        if type = T_DIR then
          let t := t.set dp { t.inode dp with nlink := (t.inode dp).nlink + 1 }
          (iupdate sb fs (t.inode dp), t)
        else (fs, t)
      let (fs, t) ← t.iunlockput sb fs dp
      return (some ip, fs, t)

/-- `create(path, type, major, minor)` from working directory `cwd`: the slot
of the inode `path` names, locked and with a reference, or `none`.  An
existing name is returned when a plain file is asked for and it is a file or
a device; a new one gets an inode from `ialloc` with one link. -/
def create (sb : Superblock) (fs : Fs) (t : ITable) (cwd : Fin NINODE) (path : List UInt8) (type major minor : Int) :
    Except String (Option (Fin NINODE) × Fs × ITable) := do
  let (parent, name, fs, t) ← nameiparent sb fs t cwd path (List.replicate DIRSIZ 0)
  match parent with
  | none => return (none, fs, t)
  | some dp =>
      let t ← t.ilock sb fs.disk dp
      let (found, fs, d) ← dirlookup sb fs (t.inode dp) name
      let t := t.set dp d
      match found with
      | some (inum, _) =>
          -- `dirlookup`'s `iget`
          let (ip, t) ← t.iget d.dev inum
          let (fs, t) ← t.iunlockput sb fs dp
          let t ← t.ilock sb fs.disk ip
          if type = T_FILE ∧ ((t.inode ip).type = T_FILE ∨ (t.inode ip).type = T_DEVICE) then
            return (some ip, fs, t)
          let (fs, t) ← t.iunlockput sb fs ip
          return (none, fs, t)
      | none =>
          match ialloc sb fs type with
          | (fs, none) =>
              let (fs, t) ← t.iunlockput sb fs dp
              return (none, fs, t)
          | (fs, some inum) =>
              -- `ialloc`'s `iget`
              let (ip, t) ← t.iget d.dev inum
              let t ← t.ilock sb fs.disk ip
              let t := t.set ip { t.inode ip with major, minor, nlink := 1 }
              let fs := iupdate sb fs (t.inode ip)
              createLink sb fs t dp ip name type

/-! ## The system calls -/

/-- `sys_open(path, omode)` of process `p` with working directory `cwd`: the
descriptor, or -1. -/
def sysOpen {n : Nat} (sb : Superblock) (fs : Fs) (t : ITable) (s : FileSys n NOFILE NFILE) (p : Fin n)
    (cwd : Fin NINODE) (path : List UInt8) (omode : Nat) :
    Except String (Int × Fs × ITable × FileSys n NOFILE NFILE) := do
  let (opened, fs, t) ←
    if omode &&& O_CREATE ≠ 0 then create sb fs t cwd path T_FILE 0 0
    else do
      let (found, fs, t) ← namei sb fs t cwd path
      match found with
      | none => pure (none, fs, t)
      | some ip =>
          let t ← t.ilock sb fs.disk ip
          if (t.inode ip).type = T_DIR ∧ omode ≠ O_RDONLY then
            let (fs, t) ← t.iunlockput sb fs ip
            pure (none, fs, t)
          else pure (some ip, fs, t)
  match opened with
  | none => return (-1, fs, t, s)
  | some ip =>
      if (t.inode ip).type = T_DEVICE ∧ ((t.inode ip).major < 0 ∨ NDEV ≤ (t.inode ip).major) then
        let (fs, t) ← t.iunlockput sb fs ip
        return (-1, fs, t, s)
      match s.filealloc with
      | none =>
          let (fs, t) ← t.iunlockput sb fs ip
          return (-1, fs, t, s)
      | some (f, s) =>
          match s.fdalloc p f with
          | none =>
              let s ← s.fileclose f
              let (fs, t) ← t.iunlockput sb fs ip
              return (-1, fs, t, s)
          | some (fd, s) =>
              let s := s.setFile f (FileSys.openedFile (s.file f) ip.val (t.inode ip).type omode)
              let (fs, t) ←
                if omode &&& O_TRUNC ≠ 0 ∧ (t.inode ip).type = T_FILE then do
                  let (fs, i) ← itrunc sb fs (t.inode ip)
                  pure (fs, t.set ip i)
                else pure (fs, t)
              let t ← t.iunlock ip
              return (fd.val, fs, t, s)

/-- `sys_mkdir(path)`. -/
def sysMkdir (sb : Superblock) (fs : Fs) (t : ITable) (cwd : Fin NINODE) (path : List UInt8) :
    Except String (Int × Fs × ITable) := do
  let (made, fs, t) ← create sb fs t cwd path T_DIR 0 0
  match made with
  | none => return (-1, fs, t)
  | some ip =>
      let (fs, t) ← t.iunlockput sb fs ip
      return (0, fs, t)

/-- `sys_mknod(path, major, minor)`: the `int` arguments become `create`'s
`short`s. -/
def sysMknod (sb : Superblock) (fs : Fs) (t : ITable) (cwd : Fin NINODE) (path : List UInt8) (major minor : Int) :
    Except String (Int × Fs × ITable) := do
  let (made, fs, t) ← create sb fs t cwd path T_DEVICE (signed 2 (unsigned 2 major)) (signed 2 (unsigned 2 minor))
  match made with
  | none => return (-1, fs, t)
  | some ip =>
      let (fs, t) ← t.iunlockput sb fs ip
      return (0, fs, t)

/-- The label `bad` of `sys_link`: the link counted on `ip` is taken back. -/
def linkBad (sb : Superblock) (fs : Fs) (t : ITable) (ip : Fin NINODE) : Except String (Int × Fs × ITable) := do
  let t ← t.ilock sb fs.disk ip
  let t := t.set ip { t.inode ip with nlink := (t.inode ip).nlink - 1 }
  let fs := iupdate sb fs (t.inode ip)
  let (fs, t) ← t.iunlockput sb fs ip
  return (-1, fs, t)

/-- `sys_link(old, new)`: the inode `old` names gets a link first, then the
entry `new` is made for it in its parent. -/
def sysLink (sb : Superblock) (fs : Fs) (t : ITable) (cwd : Fin NINODE) (old new : List UInt8) :
    Except String (Int × Fs × ITable) := do
  let (found, fs, t) ← namei sb fs t cwd old
  match found with
  | none => return (-1, fs, t)
  | some ip =>
      let t ← t.ilock sb fs.disk ip
      if (t.inode ip).type = T_DIR then
        let (fs, t) ← t.iunlockput sb fs ip
        return (-1, fs, t)
      let t := t.set ip { t.inode ip with nlink := (t.inode ip).nlink + 1 }
      let fs := iupdate sb fs (t.inode ip)
      let t ← t.iunlock ip
      let (parent, name, fs, t) ← nameiparent sb fs t cwd new (List.replicate DIRSIZ 0)
      match parent with
      | none => linkBad sb fs t ip
      | some dp =>
          let t ← t.ilock sb fs.disk dp
          -- `dirlink` is not tried across devices
          if (t.inode dp).dev ≠ (t.inode ip).dev then
            let (fs, t) ← t.iunlockput sb fs dp
            linkBad sb fs t ip
          else
            let (r, fs, d) ← dirlink sb fs (t.inode dp) name (t.inode ip).inum
            let t := t.set dp d
            if r < 0 then
              let (fs, t) ← t.iunlockput sb fs dp
              linkBad sb fs t ip
            else
              let (fs, t) ← t.iunlockput sb fs dp
              let (fs, t) ← t.iput sb fs ip
              return (0, fs, t)

/-- The loop of `isdirempty` from offset `off`: whether every entry from there
on is free. -/
def emptyFrom (sb : Superblock) : (fuel off : Nat) → Fs → Inode → Except String (Bool × Fs × Inode)
  | 0, _, fs, dp => .ok (true, fs, dp)
  | fuel + 1, off, fs, dp =>
      if off < dp.size then
        match readEntry sb fs dp off with
        | .error e => .error e
        | .ok (r, bytes, fs, dp) =>
            if r ≠ 16 then .error "isdirempty: readi"
            else if (Dirent.ofBytes bytes).inum ≠ 0 then .ok (false, fs, dp)
            else emptyFrom sb fuel (off + 16) fs dp
      else .ok (true, fs, dp)

/-- `isdirempty(dp)`: every entry past "." and ".." is free. -/
def isdirempty (sb : Superblock) (fs : Fs) (dp : Inode) : Except String (Bool × Fs × Inode) :=
  emptyFrom sb (dp.size / 16 + 1) 32 fs dp

/-- The label `bad` of `sys_unlink`. -/
def unlinkBad (sb : Superblock) (fs : Fs) (t : ITable) (dp : Fin NINODE) : Except String (Int × Fs × ITable) := do
  let (fs, t) ← t.iunlockput sb fs dp
  return (-1, fs, t)

/-- `sys_unlink(path)`: the entry is cleared, then the inode loses a link (and
the parent one, for a directory's ".."). -/
def sysUnlink (sb : Superblock) (fs : Fs) (t : ITable) (cwd : Fin NINODE) (path : List UInt8) :
    Except String (Int × Fs × ITable) := do
  let (parent, name, fs, t) ← nameiparent sb fs t cwd path (List.replicate DIRSIZ 0)
  match parent with
  | none => return (-1, fs, t)
  | some dp =>
      let t ← t.ilock sb fs.disk dp
      if namecmp name dot = 0 ∨ namecmp name dotdot = 0 then unlinkBad sb fs t dp
      else
        let (found, fs, d) ← dirlookup sb fs (t.inode dp) name
        let t := t.set dp d
        match found with
        | none => unlinkBad sb fs t dp
        | some (inum, off) =>
            let (ip, t) ← t.iget d.dev inum
            let t ← t.ilock sb fs.disk ip
            if (t.inode ip).nlink < 1 then throw "unlink: nlink < 1"
            let (empty, fs, i) ←
              if (t.inode ip).type = T_DIR then isdirempty sb fs (t.inode ip) else pure (true, fs, t.inode ip)
            let t := t.set ip i
            if (t.inode ip).type = T_DIR ∧ !empty then
              let (fs, t) ← t.iunlockput sb fs ip
              unlinkBad sb fs t dp
            else
              let (fs, d) ← unlinkEntry sb fs (t.inode dp) off
              let t := t.set dp d
              let (fs, t) :=
                if (t.inode ip).type = T_DIR then
                  let t := t.set dp { t.inode dp with nlink := (t.inode dp).nlink - 1 }
                  (iupdate sb fs (t.inode dp), t)
                else (fs, t)
              let (fs, t) ← t.iunlockput sb fs dp
              let t := t.set ip { t.inode ip with nlink := (t.inode ip).nlink - 1 }
              let fs := iupdate sb fs (t.inode ip)
              let (fs, t) ← t.iunlockput sb fs ip
              return (0, fs, t)


/-! ## `sys_open` leaves the name it created -/

/-- The small image with room for a file: inode 1 is the empty root, inode 2
is free. -/
def spareSb : Superblock := { bootSb with ninodes := 3 }

/-- One running process whose `NOFILE` descriptors all refer to file 0. -/
def fullFds : FileSys 1 NOFILE NFILE where
  state := fun _ => .RUNNING
  ofile := fun _ _ => some ⟨0, by decide⟩
  cwd := fun _ => some ROOTINO
  file := fun f =>
    if f.val = 0 then ⟨.INODE, NOFILE, true, false, 0, 0⟩ else ⟨.NONE, 0, false, false, 0, 0⟩
  pipe := fun _ => none
  iref := fun _ => 0

set_option maxRecDepth 100000 in
theorem open_create_keeps_entry :
    dirents emptyDirDisk (table spareSb emptyDirDisk ROOTINO) = [] ∧ (table spareSb emptyDirDisk 2).type = 0 ∧
      ∃ fs t s, sysOpen spareSb ⟨emptyDirDisk, []⟩ rootTable fullFds 0 0 [97] (O_CREATE ||| O_RDWR) =
        .ok (-1, fs, t, s) ∧
        dirents fs.disk (table spareSb fs.disk ROOTINO) = [⟨2, strncpy [97, 0] DIRSIZ⟩] ∧
        (table spareSb fs.disk 2).type = T_FILE ∧ (table spareSb fs.disk 2).nlink = 1 ∧ s.ofile = fullFds.ofile :=
  ⟨by decide, by decide, _, _, _, rfl, by decide, by decide, by decide, rfl⟩

end Xv6
