import Mathlib.Tactic.SplitIfs
import Usax.Fs.RamfsCalls

/-!
# The inodes after a change

The directory graph as it is read off the inodes: the entries of a directory (`ents`), which inodes are directories, the
parent directories and the counts of links; and what each change of the inodes does to them.
-/

namespace Usax.Fs

/-- An inode that has just been made. -/
structure Inode.Blank (x : Inode) : Prop where
  nlink : x.nlink = 0
  refCount : x.refCount = 0
  numEntries : x.numEntries = 0
  entriesTree : x.entriesTree = []
  entriesList : x.entriesList = []

namespace Inodes

variable {n : Inodes} {i j d : InodePtr} {e : Entry} {x : Inode} {f : Inode → Inode}

/-- The entries of a directory; nothing if the inode is free. -/
def ents (n : Inodes) (d : InodePtr) : List Entry := (n.inode d).elim [] (·.entriesList)

/-- The inode is allocated. -/
def Live (n : Inodes) (i : InodePtr) : Prop := ∃ x, n.inode i = some x

/-- The inode is a directory. -/
def IsDir (n : Inodes) (i : InodePtr) : Prop := ∃ x, n.inode i = some x ∧ x.type = .dir

/-- No entry of the directory has the name. -/
def NoName (n : Inodes) (d : InodePtr) (name : List Char) : Prop := ∀ e ∈ n.ents d, e.name ≠ name

theorem ents_eq (h : n.inode d = some x) : n.ents d = x.entriesList := by simp [ents, h]

theorem IsDir.live (h : n.IsDir i) : n.Live i := by
  obtain ⟨x, hx, -⟩ := h
  exact ⟨x, hx⟩

/-- The count of links that the inode keeps of itself. -/
def nlinkOf (n : Inodes) (i : InodePtr) : Nat := (n.inode i).elim 0 (·.nlink)

/-- The parent directory as the inode has it. -/
def parentOf (n : Inodes) (i : InodePtr) : Option InodePtr := (n.inode i).bind (·.parentDir)

/-! ## One inode after each change -/

theorem inode_modify : (n.modify i f).inode j = if j = i then (n.inode j).map f else n.inode j := by
  unfold modify
  by_cases h : j = i
  · subst h
    simp
  · simp [h]

theorem inode_new : (n.new x).inode j = if j = n.nextInodeNum then some x else n.inode j := by
  simp [new, Function.update_apply]

theorem inode_free : (n.free i).inode j = if j = i then none else n.inode j := by
  simp [free, Function.update_apply]

/-- An entry counts as a link of its inode, which can be the directory itself. -/
theorem inode_link : (n.link d e).inode j =
    (n.inode j).map fun x =>
      { (if j = d then x.addEntry e else x) with nlink := x.nlink + if j = e.inode then 1 else 0 } := by
  unfold link
  rw [inode_modify, inode_modify]
  cases n.inode j <;> split_ifs <;> simp [Inode.addEntry]

theorem inode_unlink : (n.unlink d e).inode j =
    (n.inode j).map fun x =>
      { (if j = d then x.removeEntry e else x) with nlink := x.nlink - if j = e.inode then 1 else 0 } := by
  unfold unlink
  rw [inode_modify, inode_modify]
  cases n.inode j <;> split_ifs <;> simp [Inode.removeEntry]

/-! ## The graph after each change -/

/-! A new entry; directories and their parents stay. -/

section Link

theorem ents_link (h : n.Live d) : (n.link d e).ents j = n.ents j ++ if j = d then [e] else [] := by
  obtain ⟨x, hx⟩ := h
  unfold ents
  rw [inode_link]
  by_cases hj : j = d
  · subst hj
    simp [hx, Inode.addEntry]
  · cases n.inode j <;> simp [hj]

theorem isDir_link : (n.link d e).IsDir j ↔ n.IsDir j := by
  unfold IsDir
  rw [inode_link]
  cases n.inode j with
  | none => simp
  | some x => by_cases hj : j = d <;> simp [hj, Inode.addEntry]

theorem live_link : (n.link d e).Live j ↔ n.Live j := by
  unfold Live
  rw [inode_link]
  cases n.inode j <;> simp

theorem parentOf_link : (n.link d e).parentOf j = n.parentOf j := by
  unfold parentOf
  rw [inode_link]
  cases n.inode j with
  | none => rfl
  | some x => by_cases hj : j = d <;> simp [hj, Inode.addEntry]

theorem nlinkOf_link (h : n.Live e.inode) : (n.link d e).nlinkOf j = n.nlinkOf j + if j = e.inode then 1 else 0 := by
  obtain ⟨x, hx⟩ := h
  unfold nlinkOf
  rw [inode_link]
  by_cases hj : j = e.inode
  · subst hj
    simp [hx]
  · cases n.inode j <;> simp [hj]

end Link

/-! An entry is taken out. -/

section Unlink

theorem ents_unlink : (n.unlink d e).ents j = if j = d then (n.ents j).erase e else n.ents j := by
  unfold ents
  rw [inode_unlink]
  cases n.inode j with
  | none => simp
  | some x => by_cases hj : j = d <;> simp [hj, Inode.removeEntry]

theorem isDir_unlink : (n.unlink d e).IsDir j ↔ n.IsDir j := by
  unfold IsDir
  rw [inode_unlink]
  cases n.inode j with
  | none => simp
  | some x => by_cases hj : j = d <;> simp [hj, Inode.removeEntry]

theorem live_unlink : (n.unlink d e).Live j ↔ n.Live j := by
  unfold Live
  rw [inode_unlink]
  cases n.inode j <;> simp

theorem parentOf_unlink : (n.unlink d e).parentOf j = n.parentOf j := by
  unfold parentOf
  rw [inode_unlink]
  cases n.inode j with
  | none => rfl
  | some x => by_cases hj : j = d <;> simp [hj, Inode.removeEntry]

theorem nlinkOf_unlink : (n.unlink d e).nlinkOf j = n.nlinkOf j - if j = e.inode then 1 else 0 := by
  unfold nlinkOf
  rw [inode_unlink]
  cases n.inode j <;> simp

end Unlink

/-! An inode is allocated, at the next number. -/

section New

theorem ents_new : (n.new x).ents j = if j = n.nextInodeNum then x.entriesList else n.ents j := by
  unfold ents
  rw [inode_new]
  split_ifs <;> rfl

theorem isDir_new : (n.new x).IsDir j ↔ if j = n.nextInodeNum then x.type = .dir else n.IsDir j := by
  unfold IsDir
  rw [inode_new]
  split_ifs <;> simp

theorem live_new : (n.new x).Live j ↔ j = n.nextInodeNum ∨ n.Live j := by
  unfold Live
  rw [inode_new]
  split_ifs with h <;> simp [h]

theorem parentOf_new : (n.new x).parentOf j = if j = n.nextInodeNum then x.parentDir else n.parentOf j := by
  unfold parentOf
  rw [inode_new]
  split_ifs <;> rfl

theorem nlinkOf_new : (n.new x).nlinkOf j = if j = n.nextInodeNum then x.nlink else n.nlinkOf j := by
  unfold nlinkOf
  rw [inode_new]
  split_ifs <;> rfl

end New

/-! An inode is freed, with the entries that it still had. -/

section Free

theorem ents_free : (n.free i).ents j = if j = i then [] else n.ents j := by
  unfold ents
  rw [inode_free]
  split_ifs <;> rfl

theorem isDir_free : (n.free i).IsDir j ↔ j ≠ i ∧ n.IsDir j := by
  unfold IsDir
  rw [inode_free]
  split_ifs with h <;> simp [h]

theorem live_free : (n.free i).Live j ↔ j ≠ i ∧ n.Live j := by
  unfold Live
  rw [inode_free]
  split_ifs with h <;> simp [h]

theorem parentOf_free (h : j ≠ i) : (n.free i).parentOf j = n.parentOf j := by
  unfold parentOf
  rw [inode_free, if_neg h]

theorem nlinkOf_free (h : j ≠ i) : (n.free i).nlinkOf j = n.nlinkOf j := by
  unfold nlinkOf
  rw [inode_free, if_neg h]

end Free

/-! Nothing of the graph changes. -/

section Touch

variable {mode refCount : Inode → Nat}

/-- A change of the mode and of the count of references. -/
def touch (n : Inodes) (i : InodePtr) (mode refCount : Inode → Nat) : Inodes :=
  n.modify i fun x => { x with mode := mode x, refCount := refCount x }

theorem ents_touch : (n.touch i mode refCount).ents j = n.ents j := by
  unfold ents touch
  rw [inode_modify]
  cases n.inode j <;> split_ifs <;> rfl

theorem isDir_touch : (n.touch i mode refCount).IsDir j ↔ n.IsDir j := by
  unfold IsDir touch
  rw [inode_modify]
  cases n.inode j <;> split_ifs <;> simp

theorem live_touch : (n.touch i mode refCount).Live j ↔ n.Live j := by
  unfold Live touch
  rw [inode_modify]
  cases n.inode j <;> split_ifs <;> simp

theorem parentOf_touch : (n.touch i mode refCount).parentOf j = n.parentOf j := by
  unfold parentOf touch
  rw [inode_modify]
  cases n.inode j <;> split_ifs <;> rfl

theorem nlinkOf_touch : (n.touch i mode refCount).nlinkOf j = n.nlinkOf j := by
  unfold nlinkOf touch
  rw [inode_modify]
  cases n.inode j <;> split_ifs <;> rfl

end Touch

/-- A change of a new inode is a change of what it is made with. -/
theorem new_modify : (n.new x).modify n.nextInodeNum f = n.new (f x) := by
  simp [new, modify]

/-- An entry of a new inode that is taken back leaves no trace. -/
theorem link_unlink_new (h : x.Blank) : ((n.new x).link n.nextInodeNum e).unlink n.nextInodeNum e = n.new x := by
  refine Inodes.ext rfl rfl (funext fun j => ?_) rfl
  rw [inode_unlink, inode_link]
  cases hj : (n.new x).inode j with
  | none => rfl
  | some y =>
    by_cases hd : j = n.nextInodeNum
    · subst hd
      obtain rfl : x = y := by simpa [inode_new] using hj
      obtain ⟨type, nlink, mode, parent, ref, num, tree, list, path⟩ := x
      obtain ⟨-, -, -, ht, hl⟩ := h
      subst ht hl
      simp [Inode.addEntry, Inode.removeEntry]
    · simp [hd]

end Inodes

/-- A directory without entries, also without the dot entries. -/
def Inode.blankDir (mode : Nat) (parent : InodePtr) : Inode :=
  ⟨.dir, 0, mode &&& 0o777 ||| 0o40000, some parent, 0, 0, [], [], []⟩

theorem Inode.blank_blankDir {mode : Nat} {parent : InodePtr} : (blankDir mode parent).Blank :=
  ⟨rfl, rfl, rfl, rfl, rfl⟩

/-- A new directory with its dot entries, before it has a name. -/
def Inodes.newDir (n : Inodes) (mode : Nat) (parent : InodePtr) : Inodes :=
  ((n.new (.blankDir mode parent)).link n.nextInodeNum ⟨['.'], n.nextInodeNum⟩).link n.nextInodeNum
    ⟨['.', '.'], parent⟩

namespace Inodes

variable {n : Inodes} {j d : InodePtr} {mode : Nat}

theorem Live.ne_next (h : n.Live j) (hf : n.inode n.nextInodeNum = none) : j ≠ n.nextInodeNum := by
  rintro rfl
  obtain ⟨x, hx⟩ := h
  rw [hf] at hx
  cases hx

theorem live_newDir : (n.newDir mode d).Live j ↔ j = n.nextInodeNum ∨ n.Live j := by
  rw [newDir, live_link, live_link, live_new]

theorem isDir_newDir : (n.newDir mode d).IsDir j ↔ j = n.nextInodeNum ∨ n.IsDir j := by
  rw [newDir, isDir_link, isDir_link, isDir_new]
  split_ifs with h <;> simp [h, Inode.blankDir]

/-- The only entries that are new are the dot entries. -/
theorem ents_newDir : (n.newDir mode d).ents j =
    if j = n.nextInodeNum then [⟨['.'], n.nextInodeNum⟩, ⟨['.', '.'], d⟩] else n.ents j := by
  have hlive : (n.new (.blankDir mode d)).Live n.nextInodeNum := live_new.mpr (.inl rfl)
  rw [newDir, ents_link (live_link.mpr hlive), ents_link hlive, ents_new]
  split_ifs <;> simp [Inode.blankDir]

theorem parentOf_newDir : (n.newDir mode d).parentOf j = if j = n.nextInodeNum then some d else n.parentOf j := by
  rw [newDir, parentOf_link, parentOf_link, parentOf_new]
  rfl

/-- The new directory has a link from itself, and its parent gets one. -/
theorem nlinkOf_newDir (hd : n.Live d) : (n.newDir mode d).nlinkOf j =
    (if j = n.nextInodeNum then 1 else n.nlinkOf j) + if j = d then 1 else 0 := by
  have hlive : (n.new (.blankDir mode d)).Live n.nextInodeNum := live_new.mpr (.inl rfl)
  rw [newDir, nlinkOf_link (live_link.mpr (live_new.mpr (.inr hd))), nlinkOf_link hlive, nlinkOf_new]
  dsimp only
  split_ifs <;> simp [Inode.blankDir]

end Inodes

end Usax.Fs
