import Usax.Lib.Runs
import Usax.Fs.Ramfs

/-!
# System calls on a ramfs

`kernel/fs/vfs/vfs.c` and `kernel/cwd.c`: the calls that take paths or handles, for a ramfs that is the root file system.
A call resolves its paths, from the working directory of the process that makes it, and then runs the function of the
file system. `Sys.call` is one call of a process; `Sys.exec` is the step of the system that it makes.

Calls run one after the other.
-/

namespace Usax.Fs

open Common Lib Lib.Prog RamfsM

section Vfs

variable [Machine]

def vfsResolved (cwd : VfsPath) (path : List Char) (resLastSl : Bool) : RamfsM VfsPath :=
  fun s => some ((s.forest.vfsResolve cwd path resLastSl Held.zero).1, s)

def vfsOpen (cwd : VfsPath) (path : List Char) (fl : OpenFlags) (mode : Nat) : RamfsM Handle := do
  let p ← vfsResolved cwd path true
  failIf (fl.directory ∧ p.fsPath.type ≠ .dir) .enotdir
  ramfsOpen p fl mode

def vfsMkdir (cwd : VfsPath) (path : List Char) (mode : Nat) : RamfsM Unit := do
  let p ← vfsResolved cwd path false
  failIf (p.fsPath.inode ≠ none) .eexist
  ramfsMkdir p mode

def vfsRmdir (cwd : VfsPath) (path : List Char) : RamfsM Unit := do
  let p ← vfsResolved cwd path false
  failIf (p.fsPath.inode = none) .enoent
  ramfsRmdir p

def vfsUnlink (cwd : VfsPath) (path : List Char) : RamfsM Unit := do
  let p ← vfsResolved cwd path false
  failIf (p.fsPath.inode = none) .enoent
  ramfsUnlink p

def vfsSymlink (cwd : VfsPath) (target linkpath : List Char) : RamfsM Unit := do
  let p ← vfsResolved cwd linkpath false
  failIf (p.fsPath.inode ≠ none) .eexist
  ramfsSymlink target p

/-- `vfs_rename_or_link`. The old inode is retained while the new path is resolved, and released before the function of
the file system runs. -/
def vfsRenameOrLink (func : VfsPath → VfsPath → RamfsM Unit) (cwd : VfsPath) (oldpath newpath : List Char) :
    RamfsM Unit := do
  let oldp ← vfsResolved cwd oldpath false
  failIf (oldp.fsPath.inode = none) .enoent
  let newp ← vfsResolved cwd newpath false
  func oldp newp

def vfsRename : VfsPath → List Char → List Char → RamfsM Unit := vfsRenameOrLink ramfsRename

def vfsLink : VfsPath → List Char → List Char → RamfsM Unit := vfsRenameOrLink ramfsLink

def vfsChmod (cwd : VfsPath) (path : List Char) (mode : Nat) : RamfsM Unit := do
  let p ← vfsResolved cwd path true
  failIf (p.fsPath.inode = none) .enoent
  ramfsChmod (← deref p.fsPath.inode) mode

def sysChdir (cwd : VfsPath) (path : List Char) : RamfsM VfsPath := do
  let p ← vfsResolved cwd path true
  failIf (p.fsPath.inode = none) .enoent
  failIf (p.fsPath.type ≠ .dir) .enotdir
  let _ ← ramfsReleaseInode (← deref cwd.fsPath.inode)
  ramfsRetainInode (← deref p.fsPath.inode)
  return p

def vfsClose (h : Handle) : RamfsM Unit := do
  if ← ramfsReleaseInode h.inode then ramfsOnCloseLastHandle h.inode
  if h.lf then releaseSubsysFlock h.inode

/-- `retain_subsys_flock` of the lock of an inode. -/
def retainSubsysFlock (i : InodePtr) : RamfsM Unit := do
  let lf ← lookup fun s => s.locked i
  update fun s => { s with locked := Function.update s.locked i (some { lf with refCount := lf.refCount + 1 }) }

def vfsDup (h : Handle) : RamfsM Unit := do
  kalloc .enomem
  ramfsRetainInode h.inode
  if h.lf then retainSubsysFlock h.inode

end Vfs

/-! ## The system -/

/-- The ramfs, the working directories of the processes, the open files and the files that are locked as programs that
run. -/
structure Sys where
  fs : Ramfs
  cwd : List (Nat × VfsPath)
  handles : List Handle
  execLocks : List InodePtr

inductive Call
  | open (path : List Char) (fl : OpenFlags) (mode : Nat)
  | close (h : Handle)
  | dup (h : Handle)
  | mkdir (path : List Char) (mode : Nat)
  | rmdir (path : List Char)
  | unlink (path : List Char)
  | symlink (target linkpath : List Char)
  | link (oldpath newpath : List Char)
  | rename (oldpath newpath : List Char)
  | chmod (path : List Char) (mode : Nat)
  | chdir (path : List Char)
  | fork (child : Nat)
  | exit
  | lockExec (h : Handle)
  | unlockExec (i : InodePtr)

/-- A call of a process, and which of the allocations in it succeed. -/
structure Ev where
  pid : Nat
  call : Call
  allocs : List Bool

namespace Sys

variable [Machine]

/-- The end of a call: when it has succeeded, `k` stores its result. -/
def finish {α : Type} (s : Sys) (p : RamfsM α) (allocs : List Bool) (k : Sys → α → Sys) :
    Option (Except Errno Unit × Sys) :=
  (p { s.fs with allocs := allocs }).map fun r =>
    match r.1 with
    | .ok a => (.ok (), k { s with fs := r.2 } a)
    | .error e => (.error e, { s with fs := r.2 })

def setCwd (s : Sys) (pid : Nat) (p : VfsPath) : Sys := { s with cwd := (pid, p) :: s.cwd.eraseP (·.1 = pid) }

/-- A call of a process with the working directory `cwd`: its return value and the state after it. -/
def callFrom (s : Sys) (pid : Nat) (cwd : VfsPath) (allocs : List Bool) : Call → Option (Except Errno Unit × Sys)
  | .open path fl mode => s.finish (vfsOpen cwd path fl mode) allocs fun s h => { s with handles := h :: s.handles }
  | .close h =>
    if h ∈ s.handles then s.finish (vfsClose h) allocs fun s _ => { s with handles := s.handles.erase h } else none
  | .dup h => if h ∈ s.handles then s.finish (vfsDup h) allocs fun s _ => { s with handles := h :: s.handles } else none
  | .mkdir path mode => s.finish (vfsMkdir cwd path mode) allocs fun s _ => s
  | .rmdir path => s.finish (vfsRmdir cwd path) allocs fun s _ => s
  | .unlink path => s.finish (vfsUnlink cwd path) allocs fun s _ => s
  | .symlink target linkpath => s.finish (vfsSymlink cwd target linkpath) allocs fun s _ => s
  | .link oldpath newpath => s.finish (vfsLink cwd oldpath newpath) allocs fun s _ => s
  | .rename oldpath newpath => s.finish (vfsRename cwd oldpath newpath) allocs fun s _ => s
  | .chmod path mode => s.finish (vfsChmod cwd path mode) allocs fun s _ => s
  | .chdir path => s.finish (sysChdir cwd path) allocs fun s p => s.setCwd pid p
  | .fork child =>
    if s.cwd.lookup child = none then
      s.finish (do ramfsRetainInode (← deref cwd.fsPath.inode)) allocs fun s _ => { s with cwd := (child, cwd) :: s.cwd }
    else none
  | .exit =>
    s.finish (do ramfsReleaseInode (← deref cwd.fsPath.inode)) allocs fun s _ =>
      { s with cwd := s.cwd.eraseP (·.1 = pid) }
  | .lockExec h =>
    if h ∈ s.handles then
      s.finish (acquireSubsysFlock h.inode .procmgnt) allocs fun s _ => { s with execLocks := h.inode :: s.execLocks }
    else none
  | .unlockExec i =>
    if i ∈ s.execLocks then
      s.finish (releaseSubsysFlock i) allocs fun s _ => { s with execLocks := s.execLocks.erase i }
    else none

/-- A call: its return value and the state after it, if it is defined. -/
def call (s : Sys) (ev : Ev) : Option (Except Errno Unit × Sys) :=
  (s.cwd.lookup ev.pid).bind fun cwd => s.callFrom ev.pid cwd ev.allocs ev.call

def exec (s : Sys) (ev : Ev) : Option Sys := (s.call ev).map (·.2)

/-- A ramfs after `ramfs_create`, with one process in its root directory. -/
def start : Sys where
  fs := { Inodes.create.modify 1 fun x => { x with refCount := 1 } with locked := fun _ => none, allocs := [] }
  cwd := [(1, ⟨0, Inodes.create.getEntry none [], []⟩)]
  handles := []
  execLocks := []

/-- The states that are reached by calls that all meet `ok`. -/
def Reached (ok : Sys → Ev → Prop) : Sys → Prop := Lib.Reached (· = start) exec ok

end Sys

end Usax.Fs
