import Usax.Fs.Inodes

/-!
# What the functions of ramfs do

One `Spec` for each function that the operations are made of. The state after a function is given by its inodes, its
locks and the number of allocations that it has made (`Ramfs.Next`).
-/

namespace Usax.Fs

open Common Lib Lib.Prog RamfsM

/-! ## Programs -/

section Programs

variable {s s' s'' : Ramfs} {n n' : Inodes} {j k : Nat} {α : Type} {E : Errno → Ramfs → Prop} {i d : InodePtr}

/-- The state after `k` allocations, with the inodes `n`. -/
structure Ramfs.Next (s s' : Ramfs) (n : Inodes) (k : Nat) : Prop where
  inodes : s'.toInodes = n
  locked : s'.locked = s.locked
  allocs : s'.allocs = s.allocs.drop k

theorem Ramfs.Next.refl : s.Next s s.toInodes 0 := ⟨rfl, rfl, rfl⟩

theorem Ramfs.Next.trans (h : s.Next s' n j) (h' : s'.Next s'' n' k) : s.Next s'' n' (j + k) :=
  ⟨h'.inodes, h'.locked.trans h.locked, by rw [h'.allocs, h.allocs, List.drop_drop]⟩

theorem spec_inodeAt {Q : Inode → Ramfs → Prop} (h : ∀ x, s.inode i = some x → Q x s) : Spec (inodeAt i) s Q E :=
  Spec.lookup h

theorem spec_setInodes {Q : Unit → Ramfs → Prop} {f : Inodes → Inodes} (h : ∀ s', s.Next s' (f s.toInodes) 0 → Q () s') :
    Spec (setInodes f) s Q E := Spec.update (h _ ⟨rfl, rfl, rfl⟩)

theorem spec_kalloc {Q : Unit → Ramfs → Prop} {e : Errno}
    (h₁ : ∀ s', s.Next s' s.toInodes 1 → s.allocs.headD true = true → Q () s')
    (h₂ : ∀ s', s.Next s' s.toInodes 1 → s.allocs.headD true = false → E e s') : Spec (kalloc e) s Q E := by
  apply Spec.of_eq
  intro r hr
  obtain rfl := Option.some.inj hr
  cases ha : s.allocs.headD true with
  | false => exact ⟨fun a h => by simp at h, fun e' h => by simp at h; subst h; exact h₂ _ ⟨rfl, rfl, rfl⟩ ha⟩
  | true => exact ⟨fun a _ => h₁ _ ⟨rfl, rfl, rfl⟩ ha, fun e' h => by simp at h⟩

theorem spec_removeEntry {e : Entry} {Q : Unit → Ramfs → Prop}
    (h : ∀ s', s.Next s' (s.unlink d e) 0 → e ∈ s.ents d → s.Live d → s.Live e.inode → Q () s') :
    Spec (ramfsDirRemoveEntry d e) s Q E := by
  apply Spec.bind
  apply spec_inodeAt
  intro x hx
  apply Spec.bind
  apply spec_inodeAt
  intro y hy
  apply Spec.ite
  · intro _
    exact Spec.undefined
  · intro he
    apply spec_setInodes
    intro s' hs
    refine h s' hs ?_ ⟨x, hx⟩ ⟨y, hy⟩
    rw [Inodes.ents_eq hx]
    exact not_not.mp he

theorem spec_kfreeInode {Q : Unit → Ramfs → Prop}
    (h : ∀ s' x, s.Next s' (s.free i) 0 → s.inode i = some x → Q () s') : Spec (kfreeInode i) s Q E := by
  apply Spec.bind
  apply spec_inodeAt
  intro x hx
  apply spec_setInodes
  intro s' hs
  exact h s' x hs hx

theorem spec_newInode {Q : InodePtr → Ramfs → Prop}
    (h₁ : ∀ s', s.Next s' (s.new ⟨.none, 0, 0, none, 0, 0, [], [], []⟩) 1 → s.allocs.headD true = true →
      Q s.nextInodeNum s')
    (h₂ : ∀ s', s.Next s' s.toInodes 1 → s.allocs.headD true = false → E .enospc s') : Spec ramfsNewInode s Q E := by
  apply Spec.bind
  apply spec_kalloc _ h₂
  intro s₁ hs₁ ha
  apply Spec.bind
  apply Spec.read
  apply Spec.bind
  apply spec_setInodes
  intro s₂ hs₂
  apply Spec.pure
  rw [hs₁.inodes] at hs₂ ⊢
  exact h₁ s₂ (hs₁.trans hs₂) ha

def AllocsOk (allocs : List Bool) (k : Nat) : Prop := ∀ j < k, (allocs.drop j).headD true = true

theorem AllocsOk.succ {allocs : List Bool} (h : AllocsOk allocs k) (hk : (allocs.drop k).headD true = true) :
    AllocsOk allocs (k + 1) := by
  intro j hj
  rcases Nat.lt_succ_iff_lt_or_eq.mp hj with h' | rfl
  · exact h j h'
  · exact hk

theorem allocsOk_zero {allocs : List Bool} : AllocsOk allocs 0 := fun _ h => absurd h (Nat.not_lt_zero _)

theorem not_allocsOk {allocs : List Bool} (hj : j < k) (h : (allocs.drop j).headD true = false) :
    ¬ AllocsOk allocs k := by
  intro h'
  rw [h' j hj] at h
  cases h

/-- The inodes after an inode has been made in vain. -/
def Tried (n n' : Inodes) : Prop := n' = n ∨ ∃ x : Inode, x.Blank ∧ n' = (n.new x).free n.nextInodeNum

def Inode.blankFile (mode : Nat) (parent : InodePtr) : Inode :=
  ⟨.file, 0, mode &&& 0o777 ||| 0o100000, some parent, 0, 0, [], [], []⟩

def Inode.blankSymlink (parent : InodePtr) (target : List Char) : Inode :=
  ⟨.symlink, 0, 0o777 ||| 0o120000, some parent, 0, 0, [], [], target⟩

theorem spec_createInodeFile {mode : Nat} {Q : InodePtr → Ramfs → Prop}
    (h₁ : ∀ s', s.Next s' (s.new (.blankFile mode d)) 1 → s.allocs.headD true = true → Q s.nextInodeNum s')
    (h₂ : ∀ s', s.Next s' s.toInodes 1 → s.allocs.headD true = false → E .enospc s') :
    Spec (ramfsCreateInodeFile mode d) s Q E := by
  apply Spec.bind
  apply spec_newInode _ h₂
  intro s₁ hs₁ a₀
  apply Spec.bind
  apply spec_setInodes
  intro s₂ hs₂
  rw [hs₁.inodes, Inodes.new_modify] at hs₂
  apply Spec.pure
  exact h₁ s₂ (hs₁.trans hs₂) a₀

theorem spec_createInodeSymlink {target : List Char} {Q : InodePtr → Ramfs → Prop}
    (h₁ : ∀ s', s.Next s' (s.new (.blankSymlink d target)) 2 → AllocsOk s.allocs 2 → Q s.nextInodeNum s')
    (h₂ : ∀ e s', Tried s.toInodes s'.toInodes → s'.locked = s.locked → ¬ AllocsOk s.allocs 2 → E e s') :
    Spec (ramfsCreateInodeSymlink d target) s Q E := by
  apply Spec.bind
  apply spec_newInode _ fun s' hs' h => h₂ _ _ (.inl hs'.inodes) hs'.locked (not_allocsOk (j := 0) (by omega) h)
  intro s₁ hs₁ a₀
  apply Spec.bind
  apply Spec.onError
  apply spec_kalloc
  · intro s₂ hs₂ a₁
    apply Spec.bind
    apply spec_setInodes
    intro s₃ hs₃
    rw [hs₂.inodes, hs₁.inodes, Inodes.new_modify] at hs₃
    apply Spec.pure
    rw [hs₁.allocs] at a₁
    exact h₁ s₃ ((hs₁.trans hs₂).trans hs₃) ((allocsOk_zero.succ a₀).succ a₁)
  · intro s₂ hs₂ a₁
    apply spec_kfreeInode
    intro s₃ x hs₃ hx
    rw [hs₁.allocs] at a₁
    rw [hs₂.inodes, hs₁.inodes] at hs₃
    exact h₂ _ _ (.inr ⟨_, ⟨rfl, rfl, rfl, rfl, rfl⟩, hs₃.inodes⟩) (hs₃.locked.trans (hs₂.locked.trans hs₁.locked))
      (not_allocsOk (by omega) a₁)

variable [Machine]

/-- The allocation of an entry fails, or its name is refused. -/
def EntryFails (allocs : List Bool) (name : List Char) : Prop :=
  name = [] ∨ name.length + 1 > ramfsEntryMaxLen ∨ allocs.headD true = false

variable {name : List Char}

theorem spec_addEntry {Q : Unit → Ramfs → Prop}
    (h₁ : ∀ s', s.Next s' (s.link d ⟨entryName name, i⟩) 1 → ¬ EntryFails s.allocs name → s.IsDir d → s.Live i →
      Q () s')
    (h₂ : ∀ e s' k, s.Next s' s.toInodes k → EntryFails s.allocs name → E e s') :
    Spec (ramfsDirAddEntry d name i) s Q E := by
  apply Spec.bind
  apply Spec.failIf (fun hn => h₂ _ _ 0 .refl (.inl hn))
  intro hn
  apply Spec.bind
  apply Spec.failIf (fun hl => h₂ _ _ 0 .refl (.inr (.inl hl)))
  intro hl
  apply Spec.bind
  apply spec_kalloc _ fun s' hs' ha => h₂ _ _ 1 hs' (.inr (.inr ha))
  intro s₁ hs₁ ha
  apply Spec.bind
  apply spec_inodeAt
  intro x hx
  apply Spec.bind
  apply spec_inodeAt
  intro y hy
  apply Spec.ite
  · intro _
    exact Spec.undefined
  · intro ht
    apply spec_setInodes
    intro s₂ hs₂
    rw [hs₁.inodes] at hx hy hs₂
    refine h₁ s₂ (hs₁.trans hs₂) ?_ ⟨x, hx, not_not.mp ht⟩ ⟨y, hy⟩
    rintro (h | h | h)
    · exact hn h
    · exact hl h
    · rw [ha] at h
      cases h

theorem entryFails_dots {allocs : List Bool} (hn : name = ['.'] ∨ name = ['.', '.']) :
    EntryFails allocs name ↔ allocs.headD true = false := by
  have hlen : ¬ name.length + 1 > ramfsEntryMaxLen := by
    have : name.length ≤ 2 := by rcases hn with rfl | rfl <;> simp
    unfold ramfsEntryMaxLen
    rcases Machine.supported with h | h <;> rw [h] <;> omega
  have hne : name ≠ [] := by rcases hn with rfl | rfl <;> simp
  simp [EntryFails, hne, hlen]

theorem spec_createInodeDir {mode : Nat} {Q : InodePtr → Ramfs → Prop}
    (h₁ : ∀ s', s.Next s' (s.newDir mode d) 3 → AllocsOk s.allocs 3 → Q s.nextInodeNum s')
    (h₂ : ∀ e s', Tried s.toInodes s'.toInodes → s'.locked = s.locked → ¬ AllocsOk s.allocs 3 → E e s') :
    Spec (ramfsCreateInodeDir mode (some d)) s Q E := by
  apply Spec.bind
  apply spec_newInode _ fun s' hs' h => h₂ _ _ (.inl hs'.inodes) hs'.locked (not_allocsOk (j := 0) (by omega) h)
  intro s₁ hs₁ a₀
  apply Spec.bind
  apply spec_setInodes
  intro s₂ hs₂
  rw [hs₁.inodes, Inodes.new_modify] at hs₂
  replace hs₂ : s.Next s₂ (s.new (.blankDir mode d)) 1 := hs₁.trans hs₂
  apply Spec.bind
  apply Spec.onError
  apply spec_addEntry
  · intro s₃ hs₃ a₁ _ _
    rw [hs₂.inodes] at hs₃
    rw [entryFails_dots (.inl rfl), hs₂.allocs, Bool.not_eq_false] at a₁
    replace hs₃ := hs₂.trans hs₃
    apply Spec.bind
    apply Spec.onError
    apply spec_addEntry
    · intro s₄ hs₄ a₂ _ _
      rw [hs₃.inodes] at hs₄
      rw [entryFails_dots (.inr rfl), hs₃.allocs, Bool.not_eq_false] at a₂
      apply Spec.pure
      exact h₁ s₄ (hs₃.trans hs₄) (((allocsOk_zero.succ a₀).succ a₁).succ a₂)
    · intro e s₄ k hs₄ a₂
      rw [hs₃.inodes] at hs₄
      rw [entryFails_dots (.inr rfl), hs₃.allocs] at a₂
      apply Spec.bind
      apply spec_inodeAt
      intro x hx
      apply Spec.bind
      apply Spec.deref
      intro e' he'
      -- the root of the tree is the only entry
      obtain rfl : e' = ⟨entryName ['.'], s.nextInodeNum⟩ := by
        rw [hs₄.inodes, Inodes.inode_link, Inodes.inode_new] at hx
        simp only [if_pos, Option.map_some, Option.some.injEq] at hx
        rw [← hx] at he'
        exact (Option.some.inj he').symm
      apply Spec.bind
      apply spec_removeEntry
      intro s₅ hs₅ _ _ _
      apply spec_kfreeInode
      intro s₆ y hs₆ hy
      rw [hs₄.inodes, Inodes.link_unlink_new Inode.blank_blankDir] at hs₅
      rw [hs₅.inodes] at hs₆
      exact h₂ _ _ (.inr ⟨_, Inode.blank_blankDir, hs₆.inodes⟩)
        (hs₆.locked.trans (hs₅.locked.trans (hs₄.locked.trans hs₃.locked))) (not_allocsOk (by omega) a₂)
  · intro e s₃ k hs₃ a₁
    rw [entryFails_dots (.inl rfl), hs₂.allocs] at a₁
    apply spec_kfreeInode
    intro s₄ y hs₄ hy
    rw [hs₃.inodes, hs₂.inodes] at hs₄
    exact h₂ _ _ (.inr ⟨_, Inode.blank_blankDir, hs₄.inodes⟩) (hs₄.locked.trans (hs₃.locked.trans hs₂.locked))
      (not_allocsOk (by omega) a₁)

end Programs

/-! ## The operations -/

section Operations

variable {s : Ramfs} {n n' : Inodes} {p oldp newp : VfsPath} {E : Errno → Ramfs → Prop} {Q : Unit → Ramfs → Prop}

/-- An entry has been unlinked, and its inode is freed when nothing else holds it. -/
structure Unlinked (n : Inodes) (p : VfsPath) (n' : Inodes) (i : InodePtr) (e : Entry) : Prop where
  inode : p.fsPath.inode = some i
  entry : p.fsPath.dirEntry = some e
  notDir : ¬ n.IsDir i
  mem : e ∈ n.ents p.fsPath.dirInode
  live : n.Live e.inode
  result : n' = n.unlink p.fsPath.dirInode e ∨ ∃ x, (n.unlink p.fsPath.dirInode e).inode i = some x ∧ x.nlink = 0 ∧
    x.refCount = 0 ∧ n' = (n.unlink p.fsPath.dirInode e).free i

structure Removed (n : Inodes) (p : VfsPath) (n' : Inodes) (i : InodePtr) (x : Inode) (e e₁ e₂ : Entry) : Prop where
  inode : p.fsPath.inode = some i
  entry : p.fsPath.dirEntry = some e
  get : n.inode i = some x
  numEntries : x.numEntries ≤ 2
  refCount : x.refCount = 0
  mem₁ : e₁ ∈ n.ents i
  mem₂ : e₂ ∈ (n.unlink i e₁).ents i
  mem : e ∈ ((n.unlink i e₁).unlink i e₂).ents p.fsPath.dirInode
  result : n' = (((n.unlink i e₁).unlink i e₂).unlink p.fsPath.dirInode e).free i

theorem spec_unlink (h₁ : ∀ s' i e, Unlinked s.toInodes p s'.toInodes i e → s.Next s' s'.toInodes 0 → Q () s')
    (h₂ : ∀ e, E e s) : Spec (ramfsUnlink p) s Q E := by
  apply Spec.bind
  apply Spec.deref
  intro i hi
  apply Spec.bind
  apply spec_inodeAt
  intro x hx
  apply Spec.bind
  apply Spec.failIf fun _ => h₂ _
  intro ht
  apply Spec.bind
  apply spec_inodeAt
  intro dir _
  apply Spec.bind
  apply Spec.failIf fun _ => h₂ _
  intro _
  apply Spec.bind
  apply Spec.deref
  intro e he
  apply Spec.bind
  apply spec_removeEntry
  intro s₁ hs₁ hmem _ hlive
  have hnd : ¬ s.IsDir i := by
    rintro ⟨y, hy, hty⟩
    rw [hx] at hy
    cases hy
    exact ht hty
  apply Spec.bind
  apply spec_inodeAt
  intro y hy
  apply Spec.ite
  · rintro ⟨hl, hr⟩
    apply spec_kfreeInode
    intro s₂ z hs₂ hz
    rw [hs₁.inodes] at hs₂ hy
    have hn := hs₂.inodes
    exact h₁ s₂ i e ⟨hi, he, hnd, hmem, hlive, .inr ⟨y, hy, hl, hr, hn⟩⟩ (by rw [hn]; exact hs₁.trans hs₂)
  · intro _
    apply Spec.pure
    have hn := hs₁.inodes
    exact h₁ s₁ i e ⟨hi, he, hnd, hmem, hlive, .inl hn⟩ (by rw [hn]; exact hs₁)

theorem spec_rmdir (h₁ : ∀ s' i x e e₁ e₂, Removed s.toInodes p s'.toInodes i x e e₁ e₂ → s.Next s' s'.toInodes 0 → Q () s')
    (h₂ : ∀ e, E e s) : Spec (ramfsRmdir p) s Q E := by
  apply Spec.bind
  apply Spec.deref
  intro i hi
  apply Spec.bind
  apply Spec.failIf fun _ => h₂ _
  intro _
  apply Spec.bind
  apply spec_inodeAt
  intro dir _
  apply Spec.bind
  apply Spec.failIf fun _ => h₂ _
  intro _
  apply Spec.bind
  apply Spec.failIf fun _ => h₂ _
  intro _
  apply Spec.bind
  apply Spec.failIf fun _ => h₂ _
  intro _
  apply Spec.bind
  apply spec_inodeAt
  intro x hx
  apply Spec.bind
  apply Spec.failIf fun _ => h₂ _
  intro hnum
  apply Spec.bind
  apply Spec.failIf fun _ => h₂ _
  intro href
  apply Spec.bind
  apply Spec.deref
  intro e₁ _
  apply Spec.bind
  apply spec_removeEntry
  intro s₁ hs₁ hmem₁ _ _
  apply Spec.bind
  apply spec_inodeAt
  intro y _
  apply Spec.bind
  apply Spec.deref
  intro e₂ _
  apply Spec.bind
  apply spec_removeEntry
  intro s₂ hs₂ hmem₂ _ _
  rw [hs₁.inodes] at hs₂ hmem₂
  apply Spec.bind
  apply Spec.deref
  intro e he
  apply Spec.bind
  apply spec_removeEntry
  intro s₃ hs₃ hmem₃ _ _
  rw [hs₂.inodes] at hs₃ hmem₃
  apply spec_kfreeInode
  intro s₄ z hs₄ _
  rw [hs₃.inodes] at hs₄
  have hn := hs₄.inodes
  exact h₁ s₄ i x e e₁ e₂ ⟨hi, he, hx, not_lt.mp hnum, Nat.eq_zero_of_not_pos href, hmem₁, hmem₂, hmem₃, hn⟩
    (by rw [hn]; exact ((hs₁.trans hs₂).trans hs₃).trans hs₄)

def Replaced (n : Inodes) (newp : VfsPath) (n' : Inodes) : Prop :=
  newp.fsPath.inode = none ∧ n' = n ∨ (∃ i e, Unlinked n newp n' i e) ∨ ∃ i x e e₁ e₂, Removed n newp n' i x e e₁ e₂

theorem spec_renameReplace (h₁ : ∀ s', Replaced s.toInodes newp s'.toInodes → s.Next s' s'.toInodes 0 → Q () s')
    (h₂ : ∀ e, E e s) : Spec (ramfsRenameReplace oldp newp) s Q E := by
  unfold ramfsRenameReplace
  split
  · rename_i hi
    apply Spec.pure
    exact h₁ s (.inl ⟨hi, rfl⟩) .refl
  · rename_i i hi
    apply Spec.ite
    · intro _
      apply Spec.bind
      apply Spec.failIf fun _ => h₂ _
      intro _
      apply Spec.bind
      apply spec_inodeAt
      intro x _
      apply Spec.bind
      apply Spec.failIf fun _ => h₂ _
      intro _
      exact spec_rmdir (fun s' i x e e₁ e₂ hr => h₁ s' (.inr (.inr ⟨i, x, e, e₁, e₂, hr⟩))) h₂
    · intro _
      exact spec_unlink (fun s' i e hu => h₁ s' (.inr (.inl ⟨i, e, hu⟩))) h₂

variable [Machine]

/-- `mkdir` gets so far that it makes the directory, and then it cannot make the entry. -/
def Ramfs.MkdirLate (s : Ramfs) (p : VfsPath) : Prop :=
  p.fsPath.inode = none ∧ (∃ x, s.inode p.fsPath.dirInode = some x ∧ x.mode &&& 0o300 = 0o300) ∧ AllocsOk s.allocs 3 ∧
    EntryFails (s.allocs.drop 3) p.lastComp

theorem spec_mkdir {mode : Nat}
    (h₁ : ∀ s', s.Next s' ((s.newDir mode p.fsPath.dirInode).link p.fsPath.dirInode
      ⟨entryName p.lastComp, s.nextInodeNum⟩) 4 → p.fsPath.inode = none → s.Live p.fsPath.dirInode →
      (s.newDir mode p.fsPath.dirInode).IsDir p.fsPath.dirInode → Q () s')
    (h₂ : ∀ e s', Tried s.toInodes s'.toInodes → s'.locked = s.locked → ¬ s.MkdirLate p → E e s')
    (h₃ : ∀ e s', s'.toInodes = (s.newDir mode p.fsPath.dirInode).free s.nextInodeNum → s'.locked = s.locked →
      s.MkdirLate p → s.Live p.fsPath.dirInode → E e s') : Spec (ramfsMkdir p mode) s Q E := by
  apply Spec.bind
  apply Spec.failIf fun hi => h₂ _ _ (.inl rfl) rfl fun h => hi h.1
  intro hi
  apply Spec.bind
  apply spec_inodeAt
  intro x hx
  apply Spec.bind
  apply Spec.failIf
  · rintro hm
    refine h₂ _ _ (.inl rfl) rfl ?_
    rintro ⟨-, ⟨y, hy, hmy⟩, -⟩
    rw [hx] at hy
    cases hy
    exact hm hmy
  intro hm
  apply Spec.bind
  apply spec_createInodeDir _ fun e s' ht hl ha => h₂ e s' ht hl fun h => ha h.2.2.1
  intro s₁ hs₁ ha
  apply Spec.onError
  apply spec_addEntry
  · intro s₂ hs₂ _ hd _
    rw [hs₁.inodes] at hs₂ hd
    exact h₁ s₂ (hs₁.trans hs₂) (not_not.mp hi) ⟨x, hx⟩ hd
  · intro e s₂ k hs₂ hf
    rw [hs₁.allocs] at hf
    apply spec_kfreeInode
    intro s₃ y hs₃ _
    rw [hs₂.inodes, hs₁.inodes] at hs₃
    exact h₃ _ _ hs₃.inodes (hs₃.locked.trans (hs₂.locked.trans hs₁.locked))
      ⟨not_not.mp hi, ⟨x, hx, not_not.mp hm⟩, ha, hf⟩ ⟨x, hx⟩

/-- `symlink` gets so far that it makes the symlink, and then it cannot make the entry. -/
def Ramfs.SymlinkLate (s : Ramfs) (p : VfsPath) : Prop := AllocsOk s.allocs 2 ∧ EntryFails (s.allocs.drop 2) p.lastComp

theorem spec_symlink {target : List Char}
    (h₁ : ∀ s', s.Next s' ((s.new (.blankSymlink p.fsPath.dirInode target)).link p.fsPath.dirInode
      ⟨entryName p.lastComp, s.nextInodeNum⟩) 3 →
      (s.new (.blankSymlink p.fsPath.dirInode target)).IsDir p.fsPath.dirInode → Q () s')
    (h₂ : ∀ e s', Tried s.toInodes s'.toInodes → s'.locked = s.locked → ¬ s.SymlinkLate p → E e s')
    (h₃ : ∀ e s', s'.toInodes = s.new (.blankSymlink p.fsPath.dirInode target) → s'.locked = s.locked →
      s.SymlinkLate p → E e s') : Spec (ramfsSymlink target p) s Q E := by
  apply Spec.bind
  apply spec_createInodeSymlink _ fun e s' ht hl ha => h₂ e s' ht hl fun h => ha h.1
  intro s₁ hs₁ ha
  apply spec_addEntry
  · intro s₂ hs₂ _ hd _
    rw [hs₁.inodes] at hs₂ hd
    exact h₁ s₂ (hs₁.trans hs₂) hd
  · intro e s₂ k hs₂ hf
    rw [hs₁.allocs] at hf
    rw [hs₁.inodes] at hs₂
    exact h₃ _ _ hs₂.inodes (hs₂.locked.trans hs₁.locked) ⟨ha, hf⟩

theorem spec_link
    (h₁ : ∀ s' i, s.Next s' (s.link newp.fsPath.dirInode ⟨entryName newp.lastComp, i⟩) 1 →
      oldp.fsPath.type = .file → newp.fsPath.inode = none → oldp.fsPath.inode = some i →
      s.IsDir newp.fsPath.dirInode → s.Live i → Q () s')
    (h₂ : ∀ e s' k, s.Next s' s.toInodes k → E e s') : Spec (ramfsLink oldp newp) s Q E := by
  apply Spec.bind
  apply Spec.failIf fun _ => h₂ _ _ 0 .refl
  intro ht
  apply Spec.bind
  apply Spec.failIf fun _ => h₂ _ _ 0 .refl
  intro hi
  apply Spec.bind
  apply Spec.deref
  intro i hi'
  apply spec_addEntry
  · intro s' hs' _ hd hl
    exact h₁ s' i hs' (not_not.mp ht) (not_not.mp hi) hi' hd hl
  · exact fun e s' k hs' _ => h₂ e s' k hs'

/-- `rename` has removed what the new path names, and then it cannot make the entry. -/
def Ramfs.RenameLate (s : Ramfs) (oldp newp : VfsPath) : Prop :=
  newp.fsPath.inode ≠ none ∧ (∃ s', ramfsRenameReplace oldp newp s = some (.ok (), s')) ∧
    EntryFails s.allocs newp.lastComp

omit [Machine] in
theorem spec_renameRemove
    (h : ∀ e, oldp.fsPath.dirEntry = some e → Spec (ramfsDirRemoveEntry oldp.fsPath.dirInode e) s Q E) :
    Spec (ramfsRenameRemove oldp newp) s Q E := by
  apply Spec.ite
  · intro _
    exact Spec.undefined
  · intro _
    apply Spec.bind
    exact Spec.deref h

theorem spec_rename
    (h₁ : ∀ s' n₁ i e, Replaced s.toInodes newp n₁ → oldp.fsPath.inode = some i → oldp.fsPath.dirEntry = some e →
      n₁.IsDir newp.fsPath.dirInode → n₁.Live i →
      e ∈ (n₁.link newp.fsPath.dirInode ⟨entryName newp.lastComp, i⟩).ents oldp.fsPath.dirInode →
      (n₁.link newp.fsPath.dirInode ⟨entryName newp.lastComp, i⟩).Live e.inode →
      s.Next s' ((n₁.link newp.fsPath.dirInode ⟨entryName newp.lastComp, i⟩).unlink oldp.fsPath.dirInode e) 1 → Q () s')
    (h₂ : ∀ e s' k, s.Next s' s.toInodes k → ¬ s.RenameLate oldp newp → E e s')
    (h₃ : ∀ e s' k n₁, Replaced s.toInodes newp n₁ → s.Next s' n₁ k → s.RenameLate oldp newp → E e s') :
    Spec (ramfsRename oldp newp) s Q E := by
  have hrep : Spec (ramfsRenameReplace oldp newp) s
      (fun _ s' => Replaced s.toInodes newp s'.toInodes ∧ s.Next s' s'.toInodes 0) fun _ s' => s' = s :=
    spec_renameReplace (fun s' hr hs' => ⟨hr, hs'⟩) fun _ => rfl
  apply Spec.bind_eq
  · intro _ s₁ heq
    obtain ⟨hr, hs₁⟩ := hrep.1 _ _ heq
    apply Spec.bind
    apply Spec.deref
    intro i hi
    apply Spec.bind
    apply spec_addEntry
    · intro s₂ hs₂ _ hd hl
      apply spec_renameRemove
      intro e he
      apply spec_removeEntry
      intro s₃ hs₃ hmem _ hlive
      rw [hs₂.inodes] at hs₃ hmem hlive
      exact h₁ s₃ _ i e hr hi he hd hl hmem hlive ((hs₁.trans hs₂).trans hs₃)
    · intro e s₂ k hs₂ hf
      have hf : EntryFails s.allocs newp.lastComp := by
        rw [hs₁.allocs] at hf
        exact hf
      by_cases hn : newp.fsPath.inode = none
      · obtain ⟨-, heq⟩ | ⟨i, e, hu⟩ | ⟨i, x, e, e₁, e₂, hu⟩ := hr
        · rw [heq] at hs₁ hs₂
          exact h₂ _ _ _ (hs₁.trans hs₂) fun h => h.1 hn
        · rw [hu.inode] at hn
          cases hn
        · rw [hu.inode] at hn
          cases hn
      · exact h₃ _ _ _ _ hr (hs₁.trans hs₂) ⟨hn, ⟨_, heq⟩, hf⟩
  · intro e s₁ heq
    obtain rfl := hrep.2 _ _ heq
    refine h₂ _ _ 0 .refl ?_
    rintro ⟨-, ⟨s', hs'⟩, -⟩
    rw [heq] at hs'
    cases hs'

end Operations

/-! ## Open files -/

section Open

variable {s : Ramfs} {p : VfsPath} {i : InodePtr} {E : Errno → Ramfs → Prop} {Q : Unit → Ramfs → Prop}

theorem spec_acquire {subsys : Subsystem}
    (h₁ : ∀ s' lf, s.locked i = some lf → s'.toInodes = s.toInodes →
      s'.locked = Function.update s.locked i (some { lf with refCount := lf.refCount + 1 }) → Q () s')
    (h₂ : ∀ s', s.locked i = none → s.allocs.headD true = true → s'.toInodes = s.toInodes →
      s'.locked = Function.update s.locked i (some ⟨subsys, 1⟩) → s'.allocs = s.allocs.drop 1 → Q () s')
    (h₃ : ∀ e s' k, s.Next s' s.toInodes k → (s.locked i = none → s.allocs.headD true = false) → E e s') :
    Spec (acquireSubsysFlock i subsys) s Q E := by
  apply Spec.bind
  apply Spec.read
  cases hl : s.locked i with
  | some lf =>
    apply Spec.bind
    apply Spec.failIf fun _ => h₃ _ _ 0 .refl fun h => by rw [hl] at h; cases h
    intro _
    apply Spec.update
    exact h₁ _ lf hl rfl rfl
  | none =>
    apply Spec.bind
    apply spec_kalloc _ fun s' hs' ha => h₃ _ _ 1 hs' fun _ => ha
    intro s₁ hs₁ ha
    apply Spec.update
    exact h₂ _ hl ha hs₁.inodes (by dsimp only; rw [hs₁.locked]) hs₁.allocs

theorem spec_release (h : ∀ s' lf, s.locked i = some lf → s'.toInodes = s.toInodes →
    s'.locked = Function.update s.locked i
      (if lf.refCount > 1 then some { lf with refCount := lf.refCount - 1 } else none) → Q () s') :
    Spec (releaseSubsysFlock i) s Q E := by
  apply Spec.bind
  apply Spec.lookup
  intro lf hlf
  apply Spec.update
  exact h _ lf hlf rfl rfl

theorem spec_openInt
    (h₁ : ∀ s', s.Next s' (s.modify i fun x => { x with refCount := x.refCount + 1 }) 1 → s.Live i →
      s.allocs.headD true = true → Q () s')
    (h₂ : ∀ s', s.Next s' s.toInodes 1 → s.allocs.headD true = false → E .enomem s') : Spec (ramfsOpenInt i) s Q E := by
  apply Spec.bind
  apply spec_kalloc _ h₂
  intro s₁ hs₁ ha
  apply Spec.bind
  apply spec_inodeAt
  intro x hx
  apply spec_setInodes
  intro s₂ hs₂
  rw [hs₁.inodes] at hs₂ hx
  exact h₁ s₂ (hs₁.trans hs₂) ⟨x, hx⟩ ha

theorem spec_openExistingChecks {fl : OpenFlags} {x : Inode} (h₁ : Q () s) (h₂ : ∀ e, E e s) :
    Spec (ramfsOpenExistingChecks fl x) s Q E := by
  unfold ramfsOpenExistingChecks
  iterate 6
    apply Spec.bind
    apply Spec.failIf fun _ => h₂ _
    intro _
  exact Spec.failIf (fun _ => h₂ _) fun _ => h₁

def LockStep (l l' : InodePtr → Option LockedFile) (i : InodePtr) : Prop :=
  l' = l ∨ ∃ lf : LockedFile, 0 < lf.refCount ∧ l' = Function.update l i (some lf)

variable [Machine]

theorem spec_openExisting {fl : OpenFlags} {mode : Nat} {Q : Handle → Ramfs → Prop} (hi : p.fsPath.inode = some i)
    (hpos : ∀ i lf, s.locked i = some lf → 0 < lf.refCount)
    (h₁ : ∀ s' lf, s'.toInodes = s.modify i (fun x => { x with refCount := x.refCount + 1 }) → s.Live i →
      LockStep s.locked s'.locked i → Q ⟨i, lf⟩ s')
    (h₂ : ∀ e s', s'.toInodes = s.toInodes → s'.locked = s.locked → E e s') : Spec (ramfsOpen p fl mode) s Q E := by
  apply Spec.bind
  unfold ramfsOpenInode
  rw [hi]
  apply Spec.bind
  apply spec_inodeAt
  intro dir _
  apply Spec.bind
  apply Spec.failIf fun _ => h₂ _ _ rfl rfl
  intro _
  apply Spec.bind
  apply spec_inodeAt
  intro x _
  apply Spec.bind
  apply spec_openExistingChecks _ fun e => h₂ _ _ rfl rfl
  have hret : ∀ s₁ : Ramfs, s₁.toInodes = s.toInodes → LockStep s.locked s₁.locked i →
      (∀ s₂ : Ramfs, s₂.toInodes = s.toInodes → s₂.locked = s₁.locked →
        ∀ e, Spec (releaseSubsysFlock i) s₂ (fun _ s' => E e s') E) →
      Spec (do (ramfsOpenInt i).onError (releaseSubsysFlock i); return ⟨i, true⟩) s₁ Q E := by
    intro s₁ hs₁ hl hrel
    apply Spec.bind
    apply Spec.onError
    apply spec_openInt
    · intro s₂ hs₂ hlive _
      apply Spec.pure
      rw [hs₁] at hs₂ hlive
      exact h₁ _ _ hs₂.inodes hlive (by rw [hs₂.locked]; exact hl)
    · intro s₂ hs₂ _
      exact hrel s₂ (hs₂.inodes.trans hs₁) hs₂.locked _
  apply Spec.ite
  · intro _
    apply Spec.bind
    apply spec_acquire
    · intro s₁ lf hlf hs₁ hl
      apply Spec.pure
      refine hret s₁ hs₁ (.inr ⟨_, Nat.succ_pos _, hl⟩) fun s₂ hs₂ hl₂ e => ?_
      apply spec_release
      intro s₃ lf' hlf' hs₃ hl₃
      -- the count goes back to what it was
      rw [hl₂, hl, Function.update_self] at hlf'
      cases hlf'
      refine h₂ _ _ (hs₃.trans hs₂) ?_
      rw [hl₃, hl₂, hl, Function.update_idem, if_pos (Nat.succ_lt_succ (hpos i lf hlf)), Nat.add_sub_cancel, ← hlf,
        Function.update_eq_self]
    · intro s₁ hn _ hs₁ hl _
      apply Spec.pure
      refine hret s₁ hs₁ (.inr ⟨_, Nat.one_pos, hl⟩) fun s₂ hs₂ hl₂ e => ?_
      apply spec_release
      intro s₃ lf' hlf' hs₃ hl₃
      rw [hl₂, hl, Function.update_self] at hlf'
      cases hlf'
      refine h₂ _ _ (hs₃.trans hs₂) ?_
      rw [hl₃, hl₂, hl, Function.update_idem, if_neg (lt_irrefl 1), ← hn, Function.update_eq_self]
    · exact fun e s' k hs' _ => h₂ _ _ hs'.inodes hs'.locked
  · intro _
    apply Spec.pure
    apply Spec.bind
    apply Spec.onError
    apply spec_openInt
    · intro s₂ hs₂ hlive _
      apply Spec.pure
      exact h₁ _ _ hs₂.inodes hlive (.inl hs₂.locked)
    · intro s₂ hs₂ _
      exact Spec.pure (h₂ _ _ hs₂.inodes hs₂.locked)

/-- `open` makes a file and then it cannot make the entry or the handle. -/
def Ramfs.OpenLate (s : Ramfs) (p : VfsPath) (fl : OpenFlags) : Prop :=
  p.fsPath.inode = none ∧ fl.creat = true ∧
    (∃ x, s.inode p.fsPath.dirInode = some x ∧ x.mode &&& 0o300 = 0o300) ∧ AllocsOk s.allocs 2 ∧
    (EntryFails (s.allocs.drop 2) p.lastComp ∨ (s.allocs.drop 3).headD true = false)

theorem spec_openCreate {fl : OpenFlags} {mode : Nat} {Q : Handle → Ramfs → Prop} (hi : p.fsPath.inode = none)
    (hlock : s.locked s.nextInodeNum = none)
    (h₁ : ∀ s', s'.toInodes = ((s.new (.blankFile mode p.fsPath.dirInode)).link p.fsPath.dirInode
        ⟨entryName p.lastComp, s.nextInodeNum⟩).modify s.nextInodeNum (fun x => { x with refCount := x.refCount + 1 }) →
      (s.new (.blankFile mode p.fsPath.dirInode)).IsDir p.fsPath.dirInode → s.Live p.fsPath.dirInode →
      LockStep s.locked s'.locked s.nextInodeNum → fl.creat = true → Q ⟨s.nextInodeNum, true⟩ s')
    (h₂ : ∀ e s', Tried s.toInodes s'.toInodes → s'.locked = s.locked → ¬ s.OpenLate p fl → E e s')
    (h₃ : ∀ e s', s'.toInodes = (s.new (.blankFile mode p.fsPath.dirInode)).free s.nextInodeNum →
      s'.locked = Function.update s.locked s.nextInodeNum (some ⟨.vfs, 1⟩) → s.OpenLate p fl → E e s')
    (h₄ : ∀ e s', s'.toInodes = (s.new (.blankFile mode p.fsPath.dirInode)).link p.fsPath.dirInode
        ⟨entryName p.lastComp, s.nextInodeNum⟩ →
      (s.new (.blankFile mode p.fsPath.dirInode)).IsDir p.fsPath.dirInode → s.Live p.fsPath.dirInode →
      s'.locked = s.locked → s.OpenLate p fl → E e s') : Spec (ramfsOpen p fl mode) s Q E := by
  apply Spec.bind
  unfold ramfsOpenInode
  rw [hi]
  apply Spec.bind
  apply Spec.failIf
  · intro hc
    refine h₂ _ _ (.inl rfl) rfl fun h => ?_
    rw [h.2.1] at hc
    cases hc
  intro hc
  apply Spec.bind
  apply spec_inodeAt
  intro x hx
  apply Spec.bind
  apply Spec.failIf
  · intro hm
    refine h₂ _ _ (.inl rfl) rfl ?_
    rintro ⟨-, -, ⟨y, hy, hmy⟩, -⟩
    rw [hx] at hy
    cases hy
    exact hm hmy
  intro hm
  have hlate {h : AllocsOk s.allocs 2}
      (h' : EntryFails (s.allocs.drop 2) p.lastComp ∨ (s.allocs.drop 3).headD true = false) : s.OpenLate p fl :=
    ⟨hi, by simpa using hc, ⟨x, hx, not_not.mp hm⟩, h, h'⟩
  apply Spec.bind
  apply spec_createInodeFile _ fun s' hs' ha =>
    h₂ _ _ (.inl hs'.inodes) hs'.locked fun h => not_allocsOk (j := 0) (by omega) ha h.2.2.2.1
  intro s₁ hs₁ a₀
  apply Spec.bind
  apply Spec.onError
  have hl₁ : s₁.locked s.nextInodeNum = none := by rw [hs₁.locked, hlock]
  apply spec_acquire
  · intro s₂ lf hlf
    rw [hl₁] at hlf
    cases hlf
  · intro s₂ _ a₁ hs₂ hlk₂ hal₂
    rw [hs₁.allocs] at a₁ hal₂
    rw [hs₁.locked] at hlk₂
    rw [hs₁.inodes] at hs₂
    have ha : AllocsOk s.allocs 2 := (allocsOk_zero.succ a₀).succ a₁
    have hal₂ : s₂.allocs = s.allocs.drop 2 := by rw [hal₂, List.drop_drop]
    apply Spec.bind
    apply Spec.onError
    apply spec_addEntry
    · intro s₃ hs₃ _ hd _
      rw [hs₂] at hs₃ hd
      apply Spec.pure
      apply Spec.bind
      apply Spec.onError
      apply spec_openInt
      · intro s₄ hs₄ _ _
        rw [hs₃.inodes] at hs₄
        apply Spec.pure
        refine h₁ _ hs₄.inodes hd ⟨x, hx⟩ (.inr ⟨⟨.vfs, 1⟩, Nat.one_pos, ?_⟩) (by simpa using hc)
        rw [hs₄.locked, hs₃.locked, hlk₂]
      · intro s₄ hs₄ a₃
        rw [hs₃.allocs, hal₂, List.drop_drop] at a₃
        apply spec_release
        intro s₅ lf hlf hs₅ hlk₅
        have hlk₄ : s₄.locked = Function.update s.locked s.nextInodeNum (some ⟨.vfs, 1⟩) := by
          rw [hs₄.locked, hs₃.locked, hlk₂]
        rw [hlk₄, Function.update_self] at hlf
        cases hlf
        refine h₄ _ _ (hs₅.trans (hs₄.inodes.trans hs₃.inodes)) hd ⟨x, hx⟩ ?_ (hlate (h := ha) (.inr a₃))
        rw [hlk₅, hlk₄, Function.update_idem, if_neg (lt_irrefl 1), ← hlock, Function.update_eq_self]
    · intro e s₃ k hs₃ hf
      rw [hal₂] at hf
      apply spec_kfreeInode
      intro s₄ y hs₄ _
      rw [hs₃.inodes, hs₂] at hs₄
      exact h₃ _ _ hs₄.inodes (by rw [hs₄.locked, hs₃.locked, hlk₂]) (hlate (h := ha) (.inl hf))
  · intro e s₂ k hs₂ hf
    have a₁ := hf hl₁
    rw [hs₁.allocs] at a₁
    apply spec_kfreeInode
    intro s₃ y hs₃ _
    rw [hs₂.inodes, hs₁.inodes] at hs₃
    exact h₂ _ _ (.inr ⟨_, ⟨rfl, rfl, rfl, rfl, rfl⟩, hs₃.inodes⟩) (hs₃.locked.trans (hs₂.locked.trans hs₁.locked))
      fun h => not_allocsOk (by omega) a₁ h.2.2.2.1

end Open

end Usax.Fs
