import Mathlib.Data.List.Nodup
import Mathlib.Logic.Relation
import Usax.Fs.RamfsSpecs

/-!
# What a call does to the inodes

Each call is a sequence of effects on the inodes, `Effect k`, where `k : Care` says what is known of the calls.

* `Effect.tidy`: the tree and the list of a directory stay the same.
* `done_mkdir`, `done_rename`, `done_open` and so on: a function of the file system is such a sequence, when it meets the
  conditions `NameOk`, `MoveOk` and `MkdirLate` that `k` asks for.
-/

namespace Usax.Fs

open Common Lib Lib.Prog RamfsM Relation

/-- What is known of the calls: that the names of new entries are not in use (`names`), that directories are moved within
their parent directory only (`moves`), and whether a `mkdir` may fail after it has made the directory (`late`). -/
structure Care where
  names : Prop
  moves : Prop
  late : Prop

inductive Effect (k : Care) : Inodes → Inodes → Prop
  /-- a mode or a count of references changes -/
  | touch {n : Inodes} (i : InodePtr) (mode refCount : Inode → Nat) : Effect k n (n.touch i mode refCount)
  /-- an inode is made and freed again -/
  | tried {n : Inodes} {x : Inode} : x.Blank → Effect k n ((n.new x).free n.nextInodeNum)
  /-- a file or a symlink is made -/
  | create {n : Inodes} {x : Inode} {d : InodePtr} {name : List Char} : x.Blank → x.type ≠ .dir → n.IsDir d →
      (k.names → n.NoName d name) → Effect k n ((n.new x).link d ⟨name, n.nextInodeNum⟩)
  /-- a symlink is made and gets no entry -/
  | orphan {n : Inodes} {x : Inode} : x.Blank → x.type ≠ .dir → Effect k n (n.new x)
  | mkdir {n : Inodes} {d : InodePtr} {name : List Char} (mode : Nat) : n.IsDir d → (k.names → n.NoName d name) →
      Effect k n ((n.newDir mode d).link d ⟨name, n.nextInodeNum⟩)
  /-- a directory is made, gets no entry and is freed with its own entries in it -/
  | mkdirFail {n : Inodes} {d : InodePtr} (mode : Nat) : k.late → n.Live d →
      Effect k n ((n.newDir mode d).free n.nextInodeNum)
  | link {n : Inodes} {d i : InodePtr} {name : List Char} : n.IsDir d → n.Live i →
      (k.names → n.NoName d name) → (k.moves → ¬ n.IsDir i) → Effect k n (n.link d ⟨name, i⟩)
  /-- an entry gets another name in its directory -/
  | move {n : Inodes} {d : InodePtr} {e : Entry} {name : List Char} : n.IsDir d → n.Live e.inode →
      (k.names → n.NoName d name) → e ∈ n.ents d ∨ e = ⟨name, e.inode⟩ → e.name ≠ ['.'] → e.name ≠ ['.', '.'] →
      Effect k n ((n.link d ⟨name, e.inode⟩).unlink d e)
  | unlink {n : Inodes} {d : InodePtr} {e : Entry} : e ∈ n.ents d → n.Live e.inode → (k.moves → ¬ n.IsDir e.inode) →
      Effect k n (n.unlink d e)
  | rmdir {n : Inodes} {d : InodePtr} {e e₁ e₂ : Entry} {x : Inode} : n.inode e.inode = some x → x.numEntries ≤ 2 →
      x.refCount = 0 → e₁ ∈ n.ents e.inode → e₂ ∈ (n.unlink e.inode e₁).ents e.inode →
      e ∈ ((n.unlink e.inode e₁).unlink e.inode e₂).ents d →
      Effect k n ((((n.unlink e.inode e₁).unlink e.inode e₂).unlink d e).free e.inode)
  | free {n : Inodes} {i : InodePtr} {x : Inode} : n.inode i = some x → x.nlink = 0 → x.refCount = 0 →
      Effect k n (n.free i)

abbrev Effects (k : Care) : Inodes → Inodes → Prop := ReflTransGen (Effect k)

/-! ## Directories stay tidy -/

/-- The tree and the list of the entries are the same, no name is there twice, and the entries are counted. -/
structure Inode.Tidy (x : Inode) : Prop where
  tree : x.entriesTree = x.entriesList
  nodup : (x.entriesList.map (·.name)).Nodup
  num : x.numEntries = x.entriesList.length

theorem Inode.Blank.tidy {x : Inode} (h : x.Blank) : x.Tidy :=
  ⟨by rw [h.entriesTree, h.entriesList], by simp [h.entriesList], by simp [h.numEntries, h.entriesList]⟩

theorem eraseP_name_eq_erase {es : List Entry} {e : Entry} (hn : (es.map (·.name)).Nodup) (he : e ∈ es) :
    es.eraseP (fun e' => e'.name = e.name) = es.erase e := by
  induction es with
  | nil => rfl
  | cons a es ih =>
    obtain ⟨ha, hn⟩ := List.nodup_cons.mp hn
    by_cases hae : a = e
    · subst hae
      simp
    · have he : e ∈ es := (List.mem_cons.mp he).resolve_left (Ne.symm hae)
      have hne : a.name ≠ e.name := fun h => ha (List.mem_map.mpr ⟨e, he, h.symm⟩)
      rw [List.eraseP_cons_of_neg (by simpa using hne), List.erase_cons_tail (by simpa using hae), ih hn he]

theorem Inode.Tidy.addEntry {x : Inode} {e : Entry} (h : x.Tidy) (hn : ∀ e' ∈ x.entriesList, e'.name ≠ e.name) :
    (x.addEntry e).Tidy := by
  have hno : ¬ ∃ e' ∈ x.entriesTree, e'.name = e.name := by
    rintro ⟨e', he', hname⟩
    exact hn e' (h.tree ▸ he') hname
  refine ⟨?_, ?_, ?_⟩
  · unfold Inode.addEntry
    dsimp only
    rw [if_neg hno, h.tree]
  · simp only [Inode.addEntry, List.map_append, List.map_cons, List.map_nil]
    refine List.nodup_append.mpr ⟨h.nodup, List.pairwise_singleton _ _, ?_⟩
    intro a ha b hb
    obtain ⟨e', he', rfl⟩ := List.mem_map.mp ha
    obtain rfl := List.mem_singleton.mp hb
    exact hn e' he'
  · simp [Inode.addEntry, h.num]

theorem Inode.Tidy.removeEntry {x : Inode} {e : Entry} (h : x.Tidy) (he : e ∈ x.entriesList) :
    (x.removeEntry e).Tidy := by
  refine ⟨?_, ?_, ?_⟩
  · simp only [Inode.removeEntry, h.tree]
    exact eraseP_name_eq_erase h.nodup he
  · exact h.nodup.sublist (List.erase_sublist.map _)
  · simp [Inode.removeEntry, h.num, List.length_erase_of_mem he]

namespace Inodes

variable {n n' : Inodes} {i d : InodePtr} {e : Entry} {x : Inode}

def Tidy (n : Inodes) : Prop := ∀ i x, n.inode i = some x → x.Tidy

theorem Tidy.nodup (h : n.Tidy) : ((n.ents d).map (·.name)).Nodup := by
  unfold ents
  cases hd : n.inode d with
  | none => exact List.nodup_nil
  | some x => exact (h d x hd).nodup

theorem Tidy.touch {mode refCount : Inode → Nat} (h : n.Tidy) : (n.touch i mode refCount).Tidy := by
  intro j y hy
  unfold Inodes.touch at hy
  rw [inode_modify] at hy
  split_ifs at hy
  · obtain ⟨x, hx, rfl⟩ := Option.map_eq_some_iff.mp hy
    obtain ⟨h₁, h₂, h₃⟩ := h j x hx
    exact ⟨h₁, h₂, h₃⟩
  · exact h j y hy

theorem Tidy.new (h : n.Tidy) (hx : x.Blank) : (n.new x).Tidy := by
  intro j y hy
  rw [inode_new] at hy
  split_ifs at hy
  · cases hy
    exact hx.tidy
  · exact h j y hy

theorem Tidy.free (h : n.Tidy) : (n.free i).Tidy := by
  intro j y hy
  rw [inode_free] at hy
  split_ifs at hy
  exact h j y hy

theorem Tidy.link (h : n.Tidy) (hn : n.NoName d e.name) : (n.link d e).Tidy := by
  intro j y hy
  rw [inode_link] at hy
  obtain ⟨x, hx, rfl⟩ := Option.map_eq_some_iff.mp hy
  have : (if j = d then x.addEntry e else x).Tidy := by
    split_ifs with hj
    · refine (h j x hx).addEntry fun e' he' => hn e' ?_
      rw [← hj, ents_eq hx]
      exact he'
    · exact h j x hx
  exact ⟨this.tree, this.nodup, this.num⟩

theorem Tidy.unlink (h : n.Tidy) (he : e ∈ n.ents d) : (n.unlink d e).Tidy := by
  intro j y hy
  rw [inode_unlink] at hy
  obtain ⟨x, hx, rfl⟩ := Option.map_eq_some_iff.mp hy
  have : (if j = d then x.removeEntry e else x).Tidy := by
    split_ifs with hj
    · refine (h j x hx).removeEntry ?_
      rw [← ents_eq hx, hj]
      exact he
    · exact h j x hx
  exact ⟨this.tree, this.nodup, this.num⟩

theorem Tidy.newDir {mode : Nat} (h : n.Tidy) : (n.newDir mode d).Tidy := by
  have hlive : (n.new (.blankDir mode d)).Live n.nextInodeNum := live_new.mpr (.inl rfl)
  apply Tidy.link
  · apply (h.new Inode.blank_blankDir).link
    intro e he
    rw [ents_new, if_pos rfl] at he
    cases he
  · intro e he
    rw [ents_link hlive, ents_new, if_pos rfl, if_pos rfl] at he
    obtain rfl : e = ⟨['.'], n.nextInodeNum⟩ := List.mem_singleton.mp he
    simp

end Inodes

/-- **An effect keeps the directories tidy.** -/
theorem Effect.tidy {k : Care} {n n' : Inodes} (h : Effect k n n') (hk : k.names) (ht : n.Tidy)
    (hf : n.inode n.nextInodeNum = none) : n'.Tidy := by
  cases h with
  | touch i mode refCount => exact ht.touch
  | tried hx => exact (ht.new hx).free
  | create hx _ hd hn =>
    refine (ht.new hx).link ?_
    intro e he
    rw [Inodes.ents_new, if_neg (hd.live.ne_next hf)] at he
    exact hn hk e he
  | orphan hx _ => exact ht.new hx
  | mkdir mode hd hn =>
    refine ht.newDir.link ?_
    intro e he
    rw [Inodes.ents_newDir, if_neg (hd.live.ne_next hf)] at he
    exact hn hk e he
  | mkdirFail mode _ _ => exact ht.newDir.free
  | link _ _ hn _ => exact ht.link (hn hk)
  | move hd _ hn he _ _ =>
    refine (ht.link (hn hk)).unlink ?_
    rw [Inodes.ents_link hd.live, if_pos rfl]
    rcases he with he | he
    · exact List.mem_append_left _ he
    · exact List.mem_append_right _ (List.mem_singleton.mpr he)
  | unlink he _ _ => exact ht.unlink he
  | rmdir _ _ _ h₁ h₂ h₃ => exact (((ht.unlink h₁).unlink h₂).unlink h₃).free
  | free _ _ _ => exact ht.free

/-! ## Numbers of inodes are not used again -/

/-- No inode in memory has a number that is still to come. -/
def Inodes.Fresh (n : Inodes) : Prop := ∀ i, n.Live i → i < n.nextInodeNum

theorem Inodes.Fresh.next {n : Inodes} (h : n.Fresh) : n.inode n.nextInodeNum = none := by
  cases hx : n.inode n.nextInodeNum with
  | none => rfl
  | some x => exact absurd (h _ ⟨x, hx⟩) (lt_irrefl _)

theorem Effect.fresh {k : Care} {n n' : Inodes} (h : Effect k n n') (hf : n.Fresh) :
    n'.Fresh ∧ n.nextInodeNum ≤ n'.nextInodeNum := by
  have hnew {j : InodePtr} : j = n.nextInodeNum ∨ n.Live j → j < n.nextInodeNum + 1 := by
    rintro (rfl | hj)
    · exact Nat.lt_succ_self _
    · exact Nat.lt_succ_of_lt (hf j hj)
  cases h with
  | touch i mode refCount => exact ⟨fun j hj => hf j (Inodes.live_touch.mp hj), le_rfl⟩
  | tried hx => exact ⟨fun j hj => hnew (Inodes.live_new.mp (Inodes.live_free.mp hj).2), Nat.le_succ _⟩
  | create hx _ hd hn => exact ⟨fun j hj => hnew (Inodes.live_new.mp (Inodes.live_link.mp hj)), Nat.le_succ _⟩
  | orphan hx _ => exact ⟨fun j hj => hnew (Inodes.live_new.mp hj), Nat.le_succ _⟩
  | mkdir mode hd hn => exact ⟨fun j hj => hnew (Inodes.live_newDir.mp (Inodes.live_link.mp hj)), Nat.le_succ _⟩
  | mkdirFail mode _ _ => exact ⟨fun j hj => hnew (Inodes.live_newDir.mp (Inodes.live_free.mp hj).2), Nat.le_succ _⟩
  | link _ _ hn _ => exact ⟨fun j hj => hf j (Inodes.live_link.mp hj), le_rfl⟩
  | move hd _ hn he _ _ => exact ⟨fun j hj => hf j (Inodes.live_link.mp (Inodes.live_unlink.mp hj)), le_rfl⟩
  | unlink he _ _ => exact ⟨fun j hj => hf j (Inodes.live_unlink.mp hj), le_rfl⟩
  | rmdir _ _ _ h₁ h₂ h₃ =>
    refine ⟨fun j hj => hf j ?_, le_rfl⟩
    exact Inodes.live_unlink.mp (Inodes.live_unlink.mp (Inodes.live_unlink.mp (Inodes.live_free.mp hj).2))
  | free _ _ _ => exact ⟨fun j hj => hf j (Inodes.live_free.mp hj).2, le_rfl⟩

theorem Effects.fresh {k : Care} {n n' : Inodes} (h : Effects k n n') (hf : n.Fresh) : n'.Fresh := by
  induction h with
  | refl => exact hf
  | tail _ he ih => exact (he.fresh ih).1

theorem Effects.tidy {k : Care} {n n' : Inodes} (h : Effects k n n') (hk : k.names) (ht : n.Tidy) (hf : n.Fresh) :
    n'.Tidy := by
  induction h with
  | refl => exact ht
  | tail he h ih => exact h.tidy hk ih (Effects.fresh he hf).next

/-! ## Operations as effects -/

section Operations

variable {k : Care} {s s' : Ramfs} {n n' : Inodes} {p oldp newp : VfsPath}

def VfsPath.Fits (p : VfsPath) : Prop := ∀ e, p.fsPath.dirEntry = some e → p.fsPath.inode = some e.inode

/-- No entry of the directory has the last name of the path, or it is the one that the path has found. -/
def NameOk (n : Inodes) (p : VfsPath) : Prop :=
  ∀ e ∈ n.ents p.fsPath.dirInode, e.name = entryName p.lastComp → p.fsPath.dirEntry = some e

/-- A directory is renamed by its own name, and stays in its parent directory. -/
def MoveOk (n : Inodes) (oldp newp : VfsPath) : Prop :=
  ∀ i, oldp.fsPath.inode = some i → n.IsDir i → newp.fsPath.dirInode = oldp.fsPath.dirInode ∧
    ∀ e, oldp.fsPath.dirEntry = some e → e.name ≠ ['.'] ∧ e.name ≠ ['.', '.']

theorem NameOk.noName (h : NameOk n p) (hp : p.Fits) (hi : p.fsPath.inode = none) :
    n.NoName p.fsPath.dirInode (entryName p.lastComp) := by
  intro e he hname
  have := hp e (h e he hname)
  rw [hi] at this
  cases this

theorem Tried.effects (h : Tried n n') : Effects k n n' := by
  obtain rfl | ⟨x, hx, rfl⟩ := h
  · exact .refl
  · exact .single (.tried hx)

theorem Unlinked.effects {i : InodePtr} {e : Entry} (h : Unlinked n p n' i e) (hp : p.Fits) : Effects k n n' := by
  obtain rfl : i = e.inode := Option.some.inj (h.inode.symm.trans (hp e h.entry))
  have hu : Effect k n (n.unlink p.fsPath.dirInode e) := .unlink h.mem h.live fun _ => h.notDir
  obtain h' | ⟨x, hx, hl, hr, h'⟩ := h.result
  · rw [h']
    exact .single hu
  · rw [h']
    exact (ReflTransGen.single hu).tail (.free hx hl hr)

theorem Removed.effects {i : InodePtr} {x : Inode} {e e₁ e₂ : Entry} (h : Removed n p n' i x e e₁ e₂) (hp : p.Fits) :
    Effects k n n' := by
  obtain rfl : i = e.inode := Option.some.inj (h.inode.symm.trans (hp e h.entry))
  rw [h.result]
  exact .single (.rmdir h.get h.numEntries h.refCount h.mem₁ h.mem₂ h.mem)

theorem Replaced.effects (h : Replaced n newp n') (hp : newp.Fits) : Effects k n n' := by
  obtain ⟨-, rfl⟩ | ⟨i, e, h⟩ | ⟨i, x, e, e₁, e₂, h⟩ := h
  · exact .refl
  · exact h.effects hp
  · exact h.effects hp

theorem Inodes.Tidy.not_mem_erase {d : InodePtr} {e : Entry} (h : n.Tidy) : e ∉ (n.ents d).erase e := by
  have hn : (n.ents d).Nodup := h.nodup.of_map _
  exact hn.not_mem_erase

theorem NameOk.of_erase (h : NameOk n p) (ht : n.Tidy) {e : Entry} (he : p.fsPath.dirEntry = some e)
    (hn : ∀ e', e' ∈ n'.ents p.fsPath.dirInode → e' ∈ (n.ents p.fsPath.dirInode).erase e) :
    n'.NoName p.fsPath.dirInode (entryName p.lastComp) := by
  intro e' he' hname
  have hmem := hn e' he'
  have := h e' (List.mem_of_mem_erase hmem) hname
  rw [he] at this
  cases this
  exact ht.not_mem_erase hmem

theorem Replaced.noName (h : Replaced n newp n') (hok : NameOk n newp) (ht : n.Tidy) (hp : newp.Fits) :
    n'.NoName newp.fsPath.dirInode (entryName newp.lastComp) := by
  obtain ⟨hi, rfl⟩ | ⟨i, e, h⟩ | ⟨i, x, e, e₁, e₂, h⟩ := h
  · exact hok.noName hp hi
  · refine hok.of_erase ht h.entry fun e' he' => ?_
    obtain h' | ⟨x, -, -, -, h'⟩ := h.result
    · rw [h', Inodes.ents_unlink, if_pos rfl] at he'
      exact he'
    · rw [h', Inodes.ents_free] at he'
      split_ifs at he'
      · cases he'
      · rw [Inodes.ents_unlink, if_pos rfl] at he'
        exact he'
  · refine hok.of_erase ht h.entry fun e' he' => ?_
    rw [h.result, Inodes.ents_free] at he'
    split_ifs at he' with hd
    · cases he'
    · rwa [Inodes.ents_unlink, if_pos rfl, Inodes.ents_unlink, if_neg hd, Inodes.ents_unlink, if_neg hd] at he'

theorem Replaced.isDir (h : Replaced n newp n') {j : InodePtr} (hj : n'.IsDir j) : n.IsDir j := by
  obtain ⟨-, rfl⟩ | ⟨i, e, h⟩ | ⟨i, x, e, e₁, e₂, h⟩ := h
  · exact hj
  · obtain h' | ⟨x, -, -, -, h'⟩ := h.result <;> rw [h'] at hj
    · exact Inodes.isDir_unlink.mp hj
    · exact Inodes.isDir_unlink.mp (Inodes.isDir_free.mp hj).2
  · rw [h.result] at hj
    exact Inodes.isDir_unlink.mp (Inodes.isDir_unlink.mp (Inodes.isDir_unlink.mp (Inodes.isDir_free.mp hj).2))

/-- Every locked file has been made, and its lock is held. -/
def Ramfs.LocksOk (s : Ramfs) : Prop := ∀ i lf, s.locked i = some lf → i < s.nextInodeNum ∧ 0 < lf.refCount

theorem Ramfs.LocksOk.next (h : s.LocksOk) : s.locked s.nextInodeNum = none := by
  cases hx : s.locked s.nextInodeNum with
  | none => rfl
  | some lf => exact absurd (h _ lf hx).1 (lt_irrefl _)

theorem Ramfs.LocksOk.mono (h : s.LocksOk) (hl : s'.locked = s.locked) (hn : s.nextInodeNum ≤ s'.nextInodeNum) :
    s'.LocksOk := by
  intro j lf hj
  rw [hl] at hj
  obtain ⟨h₁, h₂⟩ := h j lf hj
  exact ⟨h₁.trans_le hn, h₂⟩

theorem LockStep.locksOk {i : InodePtr} (h : LockStep s.locked s'.locked i) (hs : s.LocksOk)
    (hn : s.nextInodeNum ≤ s'.nextInodeNum) (hi : i < s'.nextInodeNum) : s'.LocksOk := by
  obtain h | ⟨lf, hlf, h⟩ := h
  · exact hs.mono h hn
  · intro j lf' hj
    rw [h, Function.update_apply] at hj
    split_ifs at hj with hij
    · cases hj
      exact ⟨hij ▸ hi, hlf⟩
    · obtain ⟨h₁, h₂⟩ := hs j lf' hj
      exact ⟨h₁.trans_le hn, h₂⟩

theorem Effect.next_le (h : Effect k n n') : n.nextInodeNum ≤ n'.nextInodeNum := by
  cases h <;> first | exact le_rfl | exact Nat.le_succ _

theorem Effects.next_le (h : Effects k n n') : n.nextInodeNum ≤ n'.nextInodeNum := by
  induction h with
  | refl => exact le_rfl
  | tail _ h ih => exact ih.trans h.next_le

/-- The state has changed by effects only, and the locks are still in order. -/
structure Done (k : Care) (s s' : Ramfs) : Prop where
  effects : Effects k s.toInodes s'.toInodes
  locks : s.LocksOk → s'.LocksOk

theorem Done.of_locked (h : Effects k s.toInodes s'.toInodes) (hl : s'.locked = s.locked) : Done k s s' :=
  ⟨h, fun hs => hs.mono hl h.next_le⟩

theorem done_unlink (hp : p.Fits) :
    Spec (ramfsUnlink p) s (fun _ s' => Done k s s') fun _ s' => Done k s s' :=
  spec_unlink (fun _ _ _ h hs' => .of_locked (h.effects hp) hs'.locked) fun _ => .of_locked .refl rfl

theorem done_rmdir (hp : p.Fits) :
    Spec (ramfsRmdir p) s (fun _ s' => Done k s s') fun _ s' => Done k s s' :=
  spec_rmdir (fun _ _ _ _ _ _ h hs' => .of_locked (h.effects hp) hs'.locked) fun _ => .of_locked .refl rfl

theorem done_touch {i : InodePtr} {mode refCount : Inode → Nat} (h : s'.toInodes = s.touch i mode refCount)
    (hl : s'.locked = s.locked) : Done k s s' := by
  refine .of_locked ?_ hl
  rw [h]
  exact .single (.touch i mode refCount)

theorem Done.trans {s'' : Ramfs} (h : Done k s s') (h' : Done k s' s'') : Done k s s'' :=
  ⟨h.effects.trans h'.effects, fun hs => h'.locks (h.locks hs)⟩

theorem done_lock {i : InodePtr} {lf : Option LockedFile} (hs : s'.toInodes = s.toInodes)
    (hl : s'.locked = Function.update s.locked i lf) (hpos : ∀ f, lf = some f → 0 < f.refCount)
    (hi : i < s.nextInodeNum) : Done k s s' := by
  refine ⟨by rw [hs], fun h j f hj => ?_⟩
  rw [hs]
  rw [hl, Function.update_apply] at hj
  split_ifs at hj with hij
  · exact ⟨hij ▸ hi, hpos f hj⟩
  · exact h j f hj

theorem done_release {i : InodePtr} (hi : i < s.nextInodeNum) :
    Spec (releaseSubsysFlock i) s (fun _ s' => Done k s s') fun _ s' => Done k s s' := by
  apply spec_release
  intro s' lf hlf hs hl
  refine done_lock hs hl ?_ hi
  intro f hf
  split_ifs at hf with hlf'
  cases hf
  exact Nat.sub_pos_of_lt hlf'

theorem done_acquire {i : InodePtr} {subsys : Subsystem} (hi : i < s.nextInodeNum) :
    Spec (acquireSubsysFlock i subsys) s (fun _ s' => Done k s s') fun _ s' => Done k s s' := by
  apply spec_acquire
  · intro s' lf hlf hs hl
    refine done_lock hs hl ?_ hi
    intro f hf
    cases hf
    exact Nat.succ_pos _
  · intro s' _ _ hs hl _
    refine done_lock hs hl ?_ hi
    intro f hf
    cases hf
    exact Nat.one_pos
  · intro e s' m hs' _
    refine .of_locked ?_ hs'.locked
    rw [hs'.inodes]

section Specs

variable [Machine]

theorem done_mkdir {mode : Nat} (hf : s.Fresh) (hp : p.Fits)
    (hok : k.names → p.fsPath.inode = none → NameOk s.toInodes p) (hl : s.MkdirLate p → k.late) :
    Spec (ramfsMkdir p mode) s (fun _ s' => Done k s s') fun _ s' => Done k s s' := by
  apply spec_mkdir
  · intro s' hs' hi hlive hd
    have hd : s.IsDir p.fsPath.dirInode := (Inodes.isDir_newDir.mp hd).resolve_left (hlive.ne_next hf.next)
    refine .of_locked ?_ hs'.locked
    rw [hs'.inodes]
    exact .single (.mkdir mode hd fun hk => (hok hk hi).noName hp hi)
  · exact fun e s' ht hl _ => .of_locked ht.effects hl
  · intro e s' hs' hlk hlate hlive
    refine .of_locked ?_ hlk
    rw [hs']
    exact .single (.mkdirFail mode (hl hlate) hlive)

theorem done_symlink {target : List Char} (hp : p.Fits) (hi : p.fsPath.inode = none)
    (hok : k.names → NameOk s.toInodes p) :
    Spec (ramfsSymlink target p) s (fun _ s' => Done k s s') fun _ s' => Done k s s' := by
  have hb : (Inode.blankSymlink p.fsPath.dirInode target).Blank := ⟨rfl, rfl, rfl, rfl, rfl⟩
  have ht : (Inode.blankSymlink p.fsPath.dirInode target).type ≠ .dir := nofun
  apply spec_symlink
  · intro s' hs' hd
    refine .of_locked ?_ hs'.locked
    rw [hs'.inodes]
    rw [Inodes.isDir_new] at hd
    split_ifs at hd
    · cases hd
    · exact .single (.create hb ht hd fun hk => (hok hk).noName hp hi)
  · exact fun e s' ht hl _ => .of_locked ht.effects hl
  · intro e s' hs' hl _
    refine .of_locked ?_ hl
    rw [hs']
    exact .single (.orphan hb ht)

theorem done_link (hold : oldp.fsPath.type = .file → ∀ i, oldp.fsPath.inode = some i → ¬ s.IsDir i) (hp : newp.Fits)
    (hok : k.names → newp.fsPath.inode = none → NameOk s.toInodes newp) :
    Spec (ramfsLink oldp newp) s (fun _ s' => Done k s s') fun _ s' => Done k s s' := by
  apply spec_link
  · intro s' i hs' ht hn hi hd hlive
    refine .of_locked ?_ hs'.locked
    rw [hs'.inodes]
    exact .single (.link hd hlive (fun hk => (hok hk hn).noName hp hn) fun _ => hold ht i hi)
  · intro e s' m hs'
    refine .of_locked ?_ hs'.locked
    rw [hs'.inodes]

theorem done_rename (ht : k.names → s.Tidy) (hold : oldp.Fits) (hp : newp.Fits)
    (hok : k.names → NameOk s.toInodes newp) (hm : k.moves → MoveOk s.toInodes oldp newp) :
    Spec (ramfsRename oldp newp) s (fun _ s' => Done k s s') fun _ s' => Done k s s' := by
  apply spec_rename
  · intro s' n₁ i e hr hi he hd hlive hmem hlive' hs'
    obtain rfl : i = e.inode := Option.some.inj (hi.symm.trans (hold e he))
    have hnn := fun hk => hr.noName (hok hk) (ht hk) hp
    refine .of_locked ?_ hs'.locked
    rw [hs'.inodes]
    refine (hr.effects hp).trans ?_
    by_cases hc : k.moves ∧ s.IsDir e.inode
    · obtain ⟨hdir, hname⟩ := hm hc.1 e.inode hi hc.2
      rw [hdir] at hmem hd hnn ⊢
      rw [Inodes.ents_link hd.live, if_pos rfl] at hmem
      refine .single (.move hd hlive hnn ?_ (hname e he).1 (hname e he).2)
      exact (List.mem_append.mp hmem).imp_right List.mem_singleton.mp
    · have hnd : k.moves → ¬ n₁.IsDir e.inode := fun h h' => hc ⟨h, hr.isDir h'⟩
      refine (ReflTransGen.single (.link hd hlive hnn hnd)).tail (.unlink hmem hlive' fun h h' => ?_)
      exact hnd h (Inodes.isDir_link.mp h')
  · intro e s' m hs' _
    refine .of_locked ?_ hs'.locked
    rw [hs'.inodes]
  · intro e s' m n₁ hr hs' _
    refine .of_locked ?_ hs'.locked
    rw [hs'.inodes]
    exact hr.effects hp

theorem done_open {fl : OpenFlags} {mode : Nat} (hf : s.Fresh) (hlk : s.LocksOk) (hp : p.Fits)
    (hok : k.names → p.fsPath.inode = none → fl.creat = true → NameOk s.toInodes p) :
    Spec (ramfsOpen p fl mode) s (fun h s' => Done k s s' ∧ h.inode < s'.nextInodeNum) fun _ s' => Done k s s' := by
  have hb : (Inode.blankFile mode p.fsPath.dirInode).Blank := ⟨rfl, rfl, rfl, rfl, rfl⟩
  have ht : (Inode.blankFile mode p.fsPath.dirInode).type ≠ .dir := nofun
  cases hi : p.fsPath.inode with
  | some i =>
    apply spec_openExisting hi fun i lf h => (hlk i lf h).2
    · intro s' lf hs' hlive hstep
      have hi : i < s'.nextInodeNum := by
        rw [hs']
        exact hf i hlive
      exact ⟨⟨by rw [hs']; exact .single (.touch i _ _), fun h => hstep.locksOk h (by rw [hs']; rfl) hi⟩, hi⟩
    · intro e s' hs' hl
      refine .of_locked ?_ hl
      rw [hs']
  | none =>
    have hcreate (hd : (s.new (.blankFile mode p.fsPath.dirInode)).IsDir p.fsPath.dirInode)
        (hlive : s.Live p.fsPath.dirInode) (hc : fl.creat = true) : Effect k s.toInodes ((s.new (.blankFile mode p.fsPath.dirInode)).link
          p.fsPath.dirInode ⟨entryName p.lastComp, s.nextInodeNum⟩) := by
      rw [Inodes.isDir_new, if_neg (hlive.ne_next hf.next)] at hd
      exact .create hb ht hd fun hk => (hok hk hi hc).noName hp hi
    apply spec_openCreate hi hlk.next
    · intro s' hs' hd hlive hstep hc
      have hnext : s'.nextInodeNum = s.nextInodeNum + 1 := by rw [hs']; rfl
      have hi : s.nextInodeNum < s'.nextInodeNum := by
        rw [hnext]
        exact Nat.lt_succ_self _
      refine ⟨⟨?_, fun h => hstep.locksOk h hi.le hi⟩, hi⟩
      rw [hs']
      exact (ReflTransGen.single (hcreate hd hlive hc)).tail (.touch _ _ _)
    · exact fun e s' ht hl _ => .of_locked ht.effects hl
    · intro e s' hs' hl _
      have hnext : s'.nextInodeNum = s.nextInodeNum + 1 := by rw [hs']; rfl
      refine ⟨by rw [hs']; exact .single (.tried hb), fun h => ?_⟩
      refine LockStep.locksOk (i := s.nextInodeNum) (.inr ⟨_, Nat.one_pos, hl⟩) h ?_ ?_
      · rw [hnext]
        exact Nat.le_succ _
      · rw [hnext]
        exact Nat.lt_succ_self _
    · intro e s' hs' hd hlive hl hlate
      refine .of_locked ?_ hl
      rw [hs']
      exact .single (hcreate hd hlive hlate.2.1)

end Specs

end Operations

end Usax.Fs
