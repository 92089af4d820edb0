import Mathlib.Logic.Function.Basic
import Mathlib.Data.List.Basic
import Usax.Common.Utils
import Usax.Lib.Prog
import Usax.Fs.Resolve

/-!
# The directories of ramfs

`kernel/fs/ramfs`: the inodes and the directory entries, and the functions that change them. A directory keeps its
entries twice, in a tree by their names (`entriesTree`) and in a list (`entriesList`).

The functions run in `RamfsM`: they return an error or a result and go on with the state that they have reached, as the
C functions do. An access to an inode or an entry that has been freed, or through a null pointer, has no outcome at all
(`undefined`).

Every allocation may fail: `allocs` says for the coming ones whether they succeed, and when it is used up they all do.
An inode is named by its number, which is never used again, where the source has its address: a lock that is left of a freed
inode is not found here by the next inode at that address. The blocks of a file are not here, nor are the positions of the
handles in a directory.
-/

namespace Usax.Fs

open Common Lib Lib.Prog

structure Inode where
  type : VfsType
  nlink : Nat
  mode : Nat
  parentDir : Option InodePtr
  refCount : Nat
  numEntries : Nat
  entriesTree : List Entry
  entriesList : List Entry
  path : List Char
deriving DecidableEq, Repr

/-- The inodes in memory. `freed` are those that have been freed, as they were then. -/
@[ext]
structure Inodes where
  nextInodeNum : Nat
  root : InodePtr
  inode : InodePtr → Option Inode
  freed : List Inode

/-- `enum subsystem`, the owners of a file lock. -/
inductive Subsystem
  | vfs | procmgnt
deriving DecidableEq, Repr

structure LockedFile where
  owner : Subsystem
  refCount : Nat
deriving DecidableEq, Repr

/-- A mounted ramfs: its inodes and its tree of locked files. -/
structure Ramfs extends Inodes where
  locked : InodePtr → Option LockedFile
  allocs : List Bool

/-! ## Changes of the inodes -/

/-- The entry goes in the tree, unless there is one by its name, and in the list. -/
def Inode.addEntry (x : Inode) (e : Entry) : Inode :=
  { x with
    entriesTree := if ∃ e' ∈ x.entriesTree, e'.name = e.name then x.entriesTree else x.entriesTree ++ [e]
    entriesList := x.entriesList ++ [e]
    numEntries := x.numEntries + 1 }

/-- The entry by the name of `e` leaves the tree, and `e` leaves the list. -/
def Inode.removeEntry (x : Inode) (e : Entry) : Inode :=
  { x with
    entriesTree := x.entriesTree.eraseP fun e' => e'.name = e.name
    entriesList := x.entriesList.erase e
    numEntries := x.numEntries - 1 }

namespace Inodes

def modify (n : Inodes) (i : InodePtr) (f : Inode → Inode) : Inodes :=
  { n with inode := Function.update n.inode i ((n.inode i).map f) }

def link (n : Inodes) (d : InodePtr) (e : Entry) : Inodes :=
  (n.modify d (·.addEntry e)).modify e.inode fun x => { x with nlink := x.nlink + 1 }

def unlink (n : Inodes) (d : InodePtr) (e : Entry) : Inodes :=
  (n.modify d (·.removeEntry e)).modify e.inode fun x => { x with nlink := x.nlink - 1 }

def new (n : Inodes) (x : Inode) : Inodes :=
  { n with nextInodeNum := n.nextInodeNum + 1, inode := Function.update n.inode n.nextInodeNum (some x) }

def free (n : Inodes) (i : InodePtr) : Inodes :=
  { n with inode := Function.update n.inode i none, freed := (n.inode i).toList ++ n.freed }

end Inodes

/-! ## The functions as programs -/

abbrev RamfsM := Prog Errno Ramfs

namespace RamfsM

def inodeAt (i : InodePtr) : RamfsM Inode := lookup fun s => s.inode i

def setInodes (f : Inodes → Inodes) : RamfsM Unit := update fun s => { s with toInodes := f s.toInodes }

/-- An allocation; the caller returns `-e` when it fails. -/
def kalloc (e : Errno) : RamfsM Unit :=
  fun s => some (if s.allocs.headD true then .ok () else .error e, { s with allocs := s.allocs.drop 1 })

end RamfsM

open RamfsM

section

variable [Machine]

/-! ## Directory entries -/

/-- `RAMFS_ENTRY_MAX_LEN`: an entry has six pointers and a byte before the name. -/
def ramfsEntryMaxLen : Nat := 256 - 6 * (Machine.nbits / 8) - 1

/-- The name of the entry: one slash at the end is dropped. -/
def entryName (iname : List Char) : List Char := if iname.getLast? = some '/' then iname.dropLast else iname

def ramfsDirAddEntry (idir : InodePtr) (iname : List Char) (ie : InodePtr) : RamfsM Unit := do
  failIf (iname = []) .enoent
  failIf (iname.length + 1 > ramfsEntryMaxLen) .enametoolong
  kalloc .enospc
  let dir ← inodeAt idir
  let _ ← inodeAt ie
  -- the list of what is not a directory is not initialised
  if dir.type ≠ .dir then undefined else setInodes (·.link idir ⟨entryName iname, ie⟩)

def ramfsDirRemoveEntry (idir : InodePtr) (e : Entry) : RamfsM Unit := do
  let dir ← inodeAt idir
  let _ ← inodeAt e.inode
  -- an entry that is not in the list has been freed
  if e ∉ dir.entriesList then undefined else setInodes (·.unlink idir e)

def Inode.getEntryByName (x : Inode) (name : List Char) : Option Entry := x.entriesTree.find? fun e => e.name = name

/-! ## Inodes -/

/-- `ramfs_new_inode`. Each caller returns `-ENOSPC` for a null pointer. -/
def ramfsNewInode : RamfsM InodePtr := do
  kalloc .enospc
  let i ← read fun s => s.nextInodeNum
  setInodes (·.new ⟨.none, 0, 0, none, 0, 0, [], [], []⟩)
  return i

def kfreeInode (i : InodePtr) : RamfsM Unit := do
  let _ ← inodeAt i
  setInodes (·.free i)

def ramfsCreateInodeDir (mode : Nat) (parent : Option InodePtr) : RamfsM InodePtr := do
  let i ← ramfsNewInode
  let parent := parent.getD i
  setInodes (·.modify i fun x => { x with type := .dir, mode := mode &&& 0o777 ||| 0o40000, parentDir := some parent })
  (ramfsDirAddEntry i ['.'] i).onError (kfreeInode i)
  (ramfsDirAddEntry i ['.', '.'] parent).onError do
    let x ← inodeAt i
    ramfsDirRemoveEntry i (← deref x.entriesTree.head?)
    kfreeInode i
  return i

def ramfsCreateInodeFile (mode : Nat) (parent : InodePtr) : RamfsM InodePtr := do
  let i ← ramfsNewInode
  setInodes (·.modify i fun x => { x with type := .file, mode := mode &&& 0o777 ||| 0o100000, parentDir := some parent })
  return i

def ramfsDestroyInode (i : InodePtr) : RamfsM Unit := kfreeInode i

def ramfsCreateInodeSymlink (parent : InodePtr) (target : List Char) : RamfsM InodePtr := do
  let i ← ramfsNewInode
  (kalloc .enospc).onError (ramfsDestroyInode i)
  setInodes (·.modify i fun x =>
    { x with type := .symlink, mode := 0o777 ||| 0o120000, parentDir := some parent, path := target })
  return i

/-! ## The operations -/

def ramfsMkdir (p : VfsPath) (mode : Nat) : RamfsM Unit := do
  failIf (p.fsPath.inode ≠ none) .eexist
  let dir ← inodeAt p.fsPath.dirInode
  failIf (dir.mode &&& 0o300 ≠ 0o300) .eacces
  let newDir ← ramfsCreateInodeDir mode (some p.fsPath.dirInode)
  (ramfsDirAddEntry p.fsPath.dirInode p.lastComp newDir).onError (ramfsDestroyInode newDir)

/-- `ramfs_rmdir`. The two entries that are dropped are those at the root of the tree. -/
def ramfsRmdir (p : VfsPath) : RamfsM Unit := do
  let i ← deref p.fsPath.inode
  failIf (p.fsPath.type ≠ .dir) .enotdir
  let dir ← inodeAt p.fsPath.dirInode
  failIf (dir.mode &&& 0o200 ≠ 0o200) .eacces
  failIf (p.fsPath.dirEntry = none) .einval
  failIf (p.lastComp = ['.']) .einval
  let x ← inodeAt i
  failIf (x.numEntries > 2) .enotempty
  failIf (x.refCount > 0) .ebusy
  ramfsDirRemoveEntry i (← deref x.entriesTree.head?)
  let x ← inodeAt i
  ramfsDirRemoveEntry i (← deref x.entriesTree.head?)
  ramfsDirRemoveEntry p.fsPath.dirInode (← deref p.fsPath.dirEntry)
  ramfsDestroyInode i

def ramfsUnlink (p : VfsPath) : RamfsM Unit := do
  let i ← deref p.fsPath.inode
  let x ← inodeAt i
  failIf (x.type = .dir) .eisdir
  let dir ← inodeAt p.fsPath.dirInode
  failIf (dir.mode &&& 0o200 ≠ 0o200) .eacces
  ramfsDirRemoveEntry p.fsPath.dirInode (← deref p.fsPath.dirEntry)
  let x ← inodeAt i
  if x.nlink = 0 ∧ x.refCount = 0 then ramfsDestroyInode i

def ramfsSymlink (target : List Char) (lp : VfsPath) : RamfsM Unit := do
  let n ← ramfsCreateInodeSymlink lp.fsPath.dirInode target
  ramfsDirAddEntry lp.fsPath.dirInode lp.lastComp n

def ramfsLink (oldp newp : VfsPath) : RamfsM Unit := do
  failIf (oldp.fsPath.type ≠ .file) .eperm
  failIf (newp.fsPath.inode ≠ none) .eexist
  ramfsDirAddEntry newp.fsPath.dirInode newp.lastComp (← deref oldp.fsPath.inode)

/-- The first part of `ramfs_rename`: what the new path names goes away. -/
def ramfsRenameReplace (oldp newp : VfsPath) : RamfsM Unit :=
  match newp.fsPath.inode with
  | none => return
  | some i =>
    if newp.fsPath.type = .dir then do
      failIf (oldp.fsPath.type ≠ .dir) .eisdir
      let x ← inodeAt i
      failIf (x.numEntries > 2) .enotempty
      ramfsRmdir newp
    else ramfsUnlink newp

/-- The paths have found one and the same entry of a directory. -/
def VfsPath.SameEntry (p q : VfsPath) : Prop :=
  p.fsPath.dirInode = q.fsPath.dirInode ∧ p.fsPath.dirEntry = q.fsPath.dirEntry

instance {p q : VfsPath} : Decidable (p.SameEntry q) := inferInstanceAs (Decidable (_ ∧ _))

/-- The last part of `ramfs_rename`: the entry of the old path goes away. -/
def ramfsRenameRemove (oldp newp : VfsPath) : RamfsM Unit :=
  -- the entry has been freed with what the new path names; the new one is another object with the same contents
  if oldp.SameEntry newp then undefined
  else do ramfsDirRemoveEntry oldp.fsPath.dirInode (← deref oldp.fsPath.dirEntry)

def ramfsRename (oldp newp : VfsPath) : RamfsM Unit := do
  ramfsRenameReplace oldp newp
  let i ← deref oldp.fsPath.inode
  ramfsDirAddEntry newp.fsPath.dirInode newp.lastComp i
  ramfsRenameRemove oldp newp

def ramfsChmod (i : InodePtr) (mode : Nat) : RamfsM Unit := do
  let x ← inodeAt i
  let special := mode - (mode &&& 0o777)
  let currSpec := x.mode - (x.mode &&& 0o777)
  failIf (special ≠ 0 ∧ special ≠ currSpec) .eperm
  setInodes (·.modify i fun x => { x with mode := currSpec ||| mode &&& 0o777 })

/-! ## Open files -/

/-- The flags of `open` that ramfs looks at. -/
structure OpenFlags where
  wronly : Bool
  rdwr : Bool
  creat : Bool
  excl : Bool
  trunc : Bool
  directory : Bool
deriving DecidableEq, Repr

/-- `struct ramfs_handle`: its inode, and whether it holds a reference of the file's lock. -/
structure Handle where
  inode : InodePtr
  lf : Bool
deriving DecidableEq, Repr

/-- `acquire_subsys_flock` on a file system without locks of its own. -/
def acquireSubsysFlock (i : InodePtr) (subsys : Subsystem) : RamfsM Unit := do
  match ← read fun s => s.locked i with
  | some lf =>
    failIf (lf.owner ≠ subsys) .etxtbsy
    update fun s =>
      { s with locked := Function.update s.locked i (some { lf with refCount := lf.refCount + 1 }) }
  | none =>
    kalloc .enomem
    update fun s => { s with locked := Function.update s.locked i (some ⟨subsys, 1⟩) }

/-- `release_subsys_flock` of the lock of an inode. -/
def releaseSubsysFlock (i : InodePtr) : RamfsM Unit := do
  let lf ← lookup fun s => s.locked i
  update fun s =>
    { s with
      locked := Function.update s.locked i
        (if lf.refCount > 1 then some { lf with refCount := lf.refCount - 1 } else none) }

def ramfsOpenInt (i : InodePtr) : RamfsM Unit := do
  kalloc .enomem
  let _ ← inodeAt i
  setInodes (·.modify i fun x => { x with refCount := x.refCount + 1 })

def ramfsOpenExistingChecks (fl : OpenFlags) (x : Inode) : RamfsM Unit := do
  failIf (!fl.wronly ∧ x.mode &&& 0o400 ≠ 0o400) .eacces
  failIf (fl.wronly ∧ x.mode &&& 0o200 ≠ 0o200) .eacces
  failIf (fl.rdwr ∧ x.mode &&& 0o600 ≠ 0o600) .eacces
  failIf (fl.directory ∧ x.type ≠ .dir) .enotdir
  failIf (fl.creat ∧ fl.excl) .eexist
  failIf ((fl.wronly ∨ fl.rdwr) ∧ x.type = .dir) .eisdir
  failIf (fl.trunc ∧ ¬ (fl.wronly ∨ fl.rdwr)) .einval

/-- The first part of `ramfs_open`: the inode, which may be a new one, and whether its lock is taken. -/
def ramfsOpenInode (p : VfsPath) (fl : OpenFlags) (mode : Nat) : RamfsM Handle :=
  match p.fsPath.inode with
  | none => do
    failIf (!fl.creat) .enoent
    let dir ← inodeAt p.fsPath.dirInode
    failIf (dir.mode &&& 0o300 ≠ 0o300) .eacces
    let i ← ramfsCreateInodeFile mode p.fsPath.dirInode
    (acquireSubsysFlock i .vfs).onError (ramfsDestroyInode i)
    (ramfsDirAddEntry p.fsPath.dirInode p.lastComp i).onError (ramfsDestroyInode i)
    return ⟨i, true⟩
  | some i => do
    let dir ← inodeAt p.fsPath.dirInode
    failIf (dir.mode &&& 0o500 ≠ 0o500) .eacces
    let x ← inodeAt i
    ramfsOpenExistingChecks fl x
    if x.type = .file ∧ (fl.wronly ∨ fl.rdwr) then
      acquireSubsysFlock i .vfs
      return ⟨i, true⟩
    else return ⟨i, false⟩

def ramfsOpen (p : VfsPath) (fl : OpenFlags) (mode : Nat) : RamfsM Handle := do
  let h ← ramfsOpenInode p fl mode
  (ramfsOpenInt h.inode).onError (if h.lf then releaseSubsysFlock h.inode else return)
  return h

/-- `ramfs_release_inode`; the result says whether it was the last reference. -/
def ramfsReleaseInode (i : InodePtr) : RamfsM Bool := do
  let x ← inodeAt i
  setInodes (·.modify i fun x => { x with refCount := x.refCount - 1 })
  return x.refCount - 1 = 0

def ramfsRetainInode (i : InodePtr) : RamfsM Unit := do
  let _ ← inodeAt i
  setInodes (·.modify i fun x => { x with refCount := x.refCount + 1 })

def ramfsOnCloseLastHandle (i : InodePtr) : RamfsM Unit := do
  let x ← inodeAt i
  if x.nlink = 0 then ramfsDestroyInode i

/-! ## The file system -/

/-- `ramfs_get_entry`. What is not a directory has no entries: for a file this holds while it has no blocks, which stand
in the same place. -/
def Inodes.getEntry (n : Inodes) (idir : Option InodePtr) (name : List Char) : FsPath :=
  match idir with
  | none => ⟨some n.root, n.root, none, .dir⟩
  | some idir =>
    match (n.inode idir).bind (·.getEntryByName name) with
    | some re => ⟨some re.inode, idir, some re, ((n.inode re.inode).map (·.type)).getD .none⟩
    | none => ⟨none, idir, none, .none⟩

def Inodes.readlink (n : Inodes) (p : FsPath) : Except Errno (List Char) :=
  match p.inode.bind n.inode with
  | some x => if x.type = .symlink then .ok x.path else .error .einval
  | none => .error .einval

/-- The ramfs as the root file system, with nothing mounted in it. -/
def Inodes.forest (n : Inodes) : Forest := ⟨0, [], fun _ => n.getEntry, fun _ => n.readlink⟩

def Inodes.create : Inodes :=
  ⟨2, 1, Function.update (fun _ => none) 1 (some ⟨.dir, 2, 0o40777, some 1, 0, 2, [⟨['.'], 1⟩, ⟨['.', '.'], 1⟩],
    [⟨['.'], 1⟩, ⟨['.', '.'], 1⟩], []⟩), []⟩

end

end Usax.Fs
