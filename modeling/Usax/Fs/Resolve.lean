import Mathlib
import Usax.Common.Errno

/-!
# Path resolution

`kernel/fs/vfs/vfs_resolve.c.h`: `vfsResolve` walks over a path, component by component, through the directories of a
forest of mounted file systems. A symlink is resolved by a walk of its own, on the next frame of a stack of
`resolveStackSize` frames.

The file system that the walk is in is locked and retained, and so is the inode of each frame; `Held` counts what the
walk has locked and retained beyond what it has given back.

C strings are lists of characters without the final NUL; a pointer into a string is the rest of the string from there.
-/

namespace Usax.Fs

open Common

/-- A `struct mnt_fs *`. -/
abbrev FsId := Nat

/-- A `vfs_inode_ptr_t` that is not `NULL`. -/
abbrev InodePtr := Nat

inductive VfsType
  | none | file | dir | symlink | charDev | blockDev | pipe
deriving DecidableEq, Repr

structure Entry where
  name : List Char
  inode : InodePtr
deriving DecidableEq, Repr

structure FsPath where
  inode : Option InodePtr
  dirInode : InodePtr
  dirEntry : Option Entry
  type : VfsType
deriving DecidableEq, Repr

structure VfsPath where
  fs : FsId
  fsPath : FsPath
  lastComp : List Char
deriving DecidableEq, Repr

structure Mountpoint where
  hostFs : FsId
  hostFsInode : InodePtr
  targetFs : FsId
deriving DecidableEq, Repr

/-- The mounted file systems. `getEntry` and `readlink` are the functions of the file system; `getEntry` without a
directory is the root's entry. -/
structure Forest where
  root : FsId
  mps : List Mountpoint
  getEntry : FsId → Option InodePtr → List Char → FsPath
  readlink : FsId → FsPath → Except Errno (List Char)

namespace Forest

variable (F : Forest)

def getRootEntry (fs : FsId) : FsPath := F.getEntry fs none []

/-- `mp_get_retained_at`, without the retain. -/
def mpGetAt (hostFs : FsId) (inode : Option InodePtr) : Option FsId :=
  (F.mps.find? fun mp => some mp.hostFsInode = inode ∧ mp.hostFs = hostFs).map (·.targetFs)

/-- `mp_get_retained_mp_of`, without the retain. -/
def mpOf (targetFs : FsId) : Option Mountpoint := F.mps.find? fun mp => mp.targetFs = targetFs

end Forest

/-! ## Locks and references -/

/-- What is held, over what was held at the beginning: locks of the kind asked for and references of each file system,
and references of each inode. -/
structure Held where
  locks : FsId → Int
  refs : FsId → Int
  inodes : FsId → InodePtr → Int

def one (x : Nat) : Nat → Int := fun y => if y = x then 1 else 0

def oneInode (p : VfsPath) : FsId → InodePtr → Int :=
  fun fs => if fs = p.fs then p.fsPath.inode.elim 0 one else 0

namespace Held

def zero : Held := ⟨0, 0, 0⟩

/-- `vfs_smart_fs_lock`. -/
def lock (h : Held) (fs : FsId) : Held := { h with locks := h.locks + one fs }

def unlock (h : Held) (fs : FsId) : Held := { h with locks := h.locks - one fs }

/-- `retain_obj` of a file system. -/
def retain (h : Held) (fs : FsId) : Held := { h with refs := h.refs + one fs }

/-- `release_obj` of a file system. -/
def release (h : Held) (fs : FsId) : Held := { h with refs := h.refs - one fs }

/-- `vfs_retain_inode_at`, when there is an inode. -/
def retainInode (h : Held) (p : VfsPath) : Held := { h with inodes := h.inodes + oneInode p }

/-- `vfs_release_inode_at`, when there is an inode. -/
def releaseInode (h : Held) (p : VfsPath) : Held := { h with inodes := h.inodes - oneInode p }

end Held

/-! ## The walk -/

def resolveStackSize : Nat := 4

/-- The outcome of a function of the walk: its return code, the path that it leaves (`np` or the top of the stack)
and what is held. -/
structure Out where
  rc : Option Errno
  path : VfsPath
  held : Held

namespace Forest

variable (F : Forest)

/-- `vfs_resolve_stack_replace_top`, on what is held. -/
def replaceTop (top np : VfsPath) (h : Held) : Held := (h.releaseInode top).retainInode np

/-- `__vfs_resolve_get_entry` on a copy of the top of the stack. -/
def getEntryAt (comp : List Char) (top : VfsPath) (h : Held) : VfsPath × Held :=
  let fsPath := F.getEntry top.fs top.fsPath.inode comp
  match F.mpGetAt top.fs fsPath.inode with
  | some targetFs =>
    ({ top with fs := targetFs, fsPath := F.getRootEntry targetFs },
      (((h.retain targetFs).unlock top.fs).release top.fs).lock targetFs)
  | none => ({ top with fsPath := fsPath }, h)

def getLockedRetainedRoot (h : Held) : VfsPath × Held :=
  (⟨F.root, F.getRootEntry F.root, []⟩, (h.retain F.root).lock F.root)

def isPathDotdot : List Char → Bool
  | '.' :: '.' :: rest => rest = [] ∨ rest.head? = some '/'
  | _ => false

/-- `vfs_handle_cross_fs_dotdot`, or nothing when the component is not handled there. -/
def handleCrossFsDotdot (top : VfsPath) (h : Held) : Option (VfsPath × Held) :=
  if ¬ isPathDotdot top.lastComp ∨ (F.getRootEntry top.fs).inode ≠ top.fsPath.inode then none
  else if top.fs = F.root then some (top, h)
  else
    match F.mpOf top.fs with
    | some mp =>
      some ({ top with fs := mp.hostFs, fsPath := F.getEntry mp.hostFs (some mp.hostFsInode) ['.', '.'] },
        (((h.retain mp.hostFs).unlock top.fs).lock mp.hostFs).release top.fs)
    -- not reached: a file system that is not the root is mounted somewhere
    | none => some (top, h)

/-- `vfs_resolve_symlink`. `sub` is the walk on the next frame of the stack, if there is one left. -/
def resolveSymlink (sub : Option (List Char → VfsPath → Held → Out)) (np top : VfsPath) (h : Held) : Out :=
  match F.readlink top.fs np.fsPath with
  | .error e => ⟨some e, np, h⟩
  | .ok symlink =>
    let start :=
      if symlink.head? = some '/' then F.getLockedRetainedRoot ((h.unlock top.fs).release top.fs) else (top, h)
    match sub with
    | none => ⟨some .eloop, np, start.2⟩
    | some sub =>
      let out := sub symlink { start.1 with lastComp := symlink } (start.2.retainInode start.1)
      let np' := { out.path with lastComp := np.lastComp }
      let h' := out.held.releaseInode np'
      ⟨out.rc, np', if np'.fs ≠ start.1.fs then h'.unlock np'.fs else h'⟩

/-- `vfs_resolve_get_entry` for the component `comp`, at which `top.lastComp` starts. -/
def resolveGetEntry (sub : Option (List Char → VfsPath → Held → Out)) (comp : List Char) (top : VfsPath)
    (resSymlinks : Bool) (h : Held) : Out :=
  match F.handleCrossFsDotdot top h with
  | some (np, h) => ⟨none, np, h⟩
  | none =>
    if comp = [] then ⟨none, top, h⟩
    else
      let (np, h) := F.getEntryAt comp top h
      if np.fsPath.type = .symlink ∧ resSymlinks then F.resolveSymlink sub np top h else ⟨none, np, h⟩

/-- `vfs_resolve_have_to_stop`, at a slash with `rest` behind it: the return code, if the walk stops. -/
def resolveHaveToStop (rest : List Char) (np : VfsPath) : Option (Option Errno) :=
  if np.fsPath.inode = none then some (if rest ≠ [] then some .enoent else none)
  else if rest = [] then some (if np.fsPath.type ≠ .dir then some .enotdir else none)
  else none

/-- The loop of `__vfs_resolve`: `comp` is what has been read of the component and `path` is what is left. -/
def walk (sub : Option (List Char → VfsPath → Held → Out)) (resLastSl : Bool) :
    (path comp : List Char) → (top : VfsPath) → Held → Out
  | [], comp, top, h =>
    let out := F.resolveGetEntry sub comp top resLastSl h
    { out with held := replaceTop top out.path out.held }
  | c :: rest, comp, top, h =>
    if c ≠ '/' then walk sub resLastSl rest (comp ++ [c]) top h
    else
      let out := F.resolveGetEntry sub comp top true h
      match out.rc with
      | some e => ⟨some e, top, out.held⟩
      | none =>
        let held := replaceTop top out.path out.held
        match resolveHaveToStop rest out.path with
        | some rc => ⟨rc, out.path, held⟩
        | none => walk sub resLastSl rest [] { out.path with lastComp := rest } held

/-- `__vfs_resolve` on the top frame, with `room` frames left on the stack. -/
def resolveInt : (room : Nat) → (resLastSl : Bool) → (path : List Char) → (top : VfsPath) → Held → Out
  | 0, resLastSl, path, top, h => if path = [] then ⟨some .enoent, top, h⟩ else F.walk none resLastSl path [] top h
  | room + 1, resLastSl, path, top, h =>
    if path = [] then ⟨some .enoent, top, h⟩ else F.walk (some (resolveInt room true)) resLastSl path [] top h

/-- The end of `vfs_resolve`: `last_comp` moves back over the slashes before it, up to the first other character. -/
def stepBack : (before lastComp : List Char) → List Char
  | [], lastComp => lastComp
  | c :: before, lastComp => if c = '/' then stepBack before (c :: lastComp) else c :: lastComp

/-- The last component as the caller gets it. -/
def fixLastComp (path lastComp : List Char) : List Char :=
  if lastComp.head? = some '/' then stepBack (path.take (path.length - lastComp.length)).reverse lastComp
  else lastComp

/-- `vfs_resolve`, for a process whose working directory is `cwd`. A path is returned on success only. -/
def vfsResolve (cwd : VfsPath) (path : List Char) (resLastSl : Bool) (h : Held) : Except Errno VfsPath × Held :=
  let start := if path.head? = some '/' then F.getLockedRetainedRoot h else (cwd, (h.retain cwd.fs).lock cwd.fs)
  let out := F.resolveInt (resolveStackSize - 1) resLastSl path { start.1 with lastComp := path }
    (start.2.retainInode start.1)
  let held := out.held.releaseInode out.path
  match out.rc with
  | none => (.ok { out.path with lastComp := fixLastComp path out.path.lastComp }, held)
  | some e => (.error e, (held.unlock out.path.fs).release out.path.fs)

/-! ## What a walk returns -/

/-- The path is what a file system has answered, or that of the working directory. -/
def Found (cwd p : VfsPath) : Prop := (∃ d name, p.fsPath = F.getEntry p.fs d name) ∨ p.fsPath = cwd.fsPath

variable {F} {cwd top np : VfsPath} {h : Held} {sub : Option (List Char → VfsPath → Held → Out)} {comp : List Char}

theorem Found.setLastComp {lc : List Char} (hp : F.Found cwd np) : F.Found cwd { np with lastComp := lc } := hp

theorem found_getEntryAt : F.Found cwd (F.getEntryAt comp top h).1 := by
  unfold getEntryAt
  dsimp only
  split
  · exact .inl ⟨none, [], rfl⟩
  · exact .inl ⟨_, _, rfl⟩

theorem Found.cross {r : VfsPath × Held} (ht : F.Found cwd top) (hr : F.handleCrossFsDotdot top h = some r) :
    F.Found cwd r.1 := by
  unfold handleCrossFsDotdot at hr
  split at hr
  · cases hr
  split at hr
  · cases hr
    exact ht
  split at hr <;> cases hr
  · exact .inl ⟨_, _, rfl⟩
  · exact ht

theorem Found.symlink (ht : F.Found cwd top) (hn : F.Found cwd np)
    (hs : ∀ f ∈ sub, ∀ path top h, F.Found cwd top → F.Found cwd (f path top h).path) :
    F.Found cwd (F.resolveSymlink sub np top h).path := by
  unfold resolveSymlink
  cases F.readlink top.fs np.fsPath with
  | error e => exact hn
  | ok symlink =>
    cases sub with
    | none => exact hn
    | some f =>
      apply Found.setLastComp
      apply hs f rfl
      apply Found.setLastComp
      split
      · exact .inl ⟨none, [], rfl⟩
      · exact ht

theorem Found.getEntry {resSymlinks : Bool} (ht : F.Found cwd top)
    (hs : ∀ f ∈ sub, ∀ path top h, F.Found cwd top → F.Found cwd (f path top h).path) :
    F.Found cwd (F.resolveGetEntry sub comp top resSymlinks h).path := by
  unfold resolveGetEntry
  split
  · rename_i r hr
    exact ht.cross hr
  split
  · exact ht
  dsimp only
  split
  · exact ht.symlink found_getEntryAt hs
  · exact found_getEntryAt

theorem Found.walk {resLastSl : Bool} {path : List Char} (ht : F.Found cwd top)
    (hs : ∀ f ∈ sub, ∀ path top h, F.Found cwd top → F.Found cwd (f path top h).path) :
    F.Found cwd (F.walk sub resLastSl path comp top h).path := by
  induction path generalizing comp top h with
  | nil => exact ht.getEntry hs
  | cons c rest ih =>
    unfold Forest.walk
    split
    · exact ih ht
    dsimp only
    split
    · exact ht
    split
    · exact ht.getEntry hs
    · exact ih (ht.getEntry hs).setLastComp

theorem Found.resolveInt {room : Nat} {resLastSl : Bool} {path : List Char} (ht : F.Found cwd top) :
    F.Found cwd (F.resolveInt room resLastSl path top h).path := by
  induction room generalizing resLastSl path top h with
  | zero =>
    unfold Forest.resolveInt
    split
    · exact ht
    · exact ht.walk fun f hf => (by cases hf)
  | succ room ih =>
    unfold Forest.resolveInt
    split
    · exact ht
    · refine ht.walk fun f hf path top h ht => ?_
      cases hf
      exact ih ht

/-- **A path that is returned was answered by its file system, or is that of the working directory.** -/
theorem found_vfsResolve {path : List Char} {resLastSl : Bool} {p : VfsPath}
    (hp : (F.vfsResolve cwd path resLastSl h).1 = .ok p) : F.Found cwd p := by
  unfold vfsResolve at hp
  dsimp only at hp
  split at hp
  · cases hp
    apply Found.setLastComp
    apply Found.resolveInt
    apply Found.setLastComp
    split
    · exact .inl ⟨none, [], rfl⟩
    · exact .inr rfl
  · cases hp

end Forest

end Usax.Fs
