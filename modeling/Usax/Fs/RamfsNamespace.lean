import Usax.Fs.RamfsTree

/-!
# The namespace of a ramfs

* `Sys.directories_tree`: the directories are a tree in every run that makes no entry by a name that is there, and moves
  no directory out of its parent directory.
-/

namespace Usax.Fs

open Common Lib Lib.Prog RamfsM Relation

/-! ## The tree -/

namespace Inodes

variable {n : Inodes} {d i p : InodePtr}

/-- A proper entry of a directory names another directory. -/
def Sub (n : Inodes) (d i : InodePtr) : Prop := n.IsDir i ∧ ∃ e ∈ n.ents d, e.Proper ∧ e.inode = i

structure IsTree (n : Inodes) : Prop where
  root : n.IsDir n.root
  /-- one proper entry names a directory, and both its `..` entry and its `parent_dir` denote where that entry is -/
  named : ∀ d, n.IsDir d → d ≠ n.root → ∃ p, (n.ents p).countP (fun e => e.Proper ∧ e.inode = d) = 1 ∧
    (∀ q, n.Sub q d → q = p) ∧ n.parentOf d = some p ∧ ∀ q, ⟨['.', '.'], q⟩ ∈ n.ents d ↔ q = p
  reachable : ∀ d, n.IsDir d → ReflTransGen n.Sub n.root d
  acyclic : ∀ d, ¬ TransGen n.Sub d d

theorem Shape.lt_of_sub (h : n.Shape) (hs : n.Sub d i) : d < i := by
  obtain ⟨hi, e, he, hprop, rfl⟩ := hs
  obtain ⟨hroot, hp⟩ := h.sub d e he hprop hi
  obtain ⟨p, hp', -, hlt⟩ := h.parent _ hi hroot
  obtain rfl : p = d := Option.some.inj (hp'.symm.trans hp)
  exact hlt

theorem Shape.sub_of_parent (h : n.Shape) (hd : n.IsDir d) (hroot : d ≠ n.root) (hp : n.parentOf d = some p) :
    n.Sub p d := by
  obtain ⟨e, he, hpe⟩ := List.countP_pos_iff.mp ((h.named d p hd hroot hp).symm ▸ Nat.one_pos)
  exact ⟨hd, e, he, of_decide_eq_true hpe⟩

/-- Climbing to the parent directory ends at the root, because the numbers of the inodes get smaller. -/
theorem Shape.reachable (h : n.Shape) (hd : n.IsDir d) : ReflTransGen n.Sub n.root d := by
  induction d using Nat.strong_induction_on with
  | _ d ih =>
    by_cases hroot : d = n.root
    · rw [hroot]
    · obtain ⟨p, hp, hp', hlt⟩ := h.parent d hd hroot
      exact (ih p hlt hp').tail (h.sub_of_parent hd hroot hp)

theorem Shape.acyclic (h : n.Shape) : ¬ TransGen n.Sub d d := by
  intro hd
  have hlt : ∀ {i : InodePtr}, TransGen n.Sub d i → d < i := by
    intro i hi
    induction hi with
    | single hs => exact h.lt_of_sub hs
    | tail _ hs ih => exact ih.trans (h.lt_of_sub hs)
  exact lt_irrefl d (hlt hd)

theorem Good.isTree {leak : InodePtr → Nat} (h : n.Good leak) : n.IsTree where
  root := h.shape.root
  named d hd hroot := by
    obtain ⟨p, hp, -, -⟩ := h.shape.parent d hd hroot
    refine ⟨p, h.shape.named d p hd hroot hp, ?_, hp, fun q => ⟨fun hq => ?_, ?_⟩⟩
    · rintro q ⟨-, e, he, hprop, rfl⟩
      exact Option.some.inj ((h.shape.sub q e he hprop hd).2.symm.trans hp)
    · exact congrArg Entry.inode (h.tidy.eq_of_name hq (h.shape.dotdot d p hd hp) rfl)
    · rintro rfl
      exact h.shape.dotdot d q hd hp
  reachable d hd := h.shape.reachable hd
  acyclic d := h.shape.acyclic

end Inodes

/-! ## Runs -/

theorem Effects.good {k : Care} {n n' : Inodes} {leak : InodePtr → Nat} (h : Effects k n n') (hk : k.names)
    (hm : k.moves) (hg : n.Good leak) : ∃ leak', n'.Good leak' ∧ (¬ k.late → leak' = leak) := by
  induction h with
  | refl => exact ⟨leak, hg, fun _ => rfl⟩
  | tail _ he ih =>
    obtain ⟨leak₁, hg₁, h₁⟩ := ih
    obtain ⟨leak₂, hg₂, h₂⟩ := he.good hk hm hg₁
    exact ⟨leak₂, hg₂, fun hl => (h₂ hl).trans (h₁ hl)⟩

namespace Sys

variable {s s' : Sys} {ev : Ev}

theorem good_start : start.fs.Good fun _ => 0 where
  fresh := base_start.fresh
  tidy i x hx := by
    obtain ⟨-, rfl⟩ := start_inode hx
    exact ⟨rfl, by decide, rfl⟩
  shape := by
    have hdir {i : InodePtr} (hi : start.fs.IsDir i) : i = 1 := by
      obtain ⟨x, hx, -⟩ := hi
      exact (start_inode hx).1
    have hroot : start.fs.IsDir 1 := ⟨_, rfl, rfl⟩
    have hents : start.fs.ents 1 = [⟨['.'], 1⟩, ⟨['.', '.'], 1⟩] := rfl
    have hplain {i : InodePtr} (hi : i ≠ 1) : start.fs.ents i = [] := by
      unfold Inodes.ents
      cases hx : start.fs.inode i with
      | none => rfl
      | some x => exact absurd (start_inode hx).1 hi
    have hmem {i : InodePtr} {e : Entry} (he : e ∈ start.fs.ents i) : i = 1 ∧ e.inode = 1 ∧ ¬ e.Proper := by
      by_cases hi : i = 1
      · rw [hi, hents] at he
        simp only [List.mem_cons, List.not_mem_nil, or_false] at he
        rcases he with rfl | rfl <;> exact ⟨hi, rfl, by decide⟩
      · rw [hplain hi] at he
        cases he
    constructor
    case plain => exact fun i hi => hplain fun h => hi (h ▸ hroot)
    case target =>
      intro d e he
      rw [(hmem he).2.1]
      exact hroot.live
    case root => exact hroot
    case rootParent => rfl
    case parent => exact fun d hd hne => absurd (hdir hd) hne
    case dot =>
      intro d hd
      rw [hdir hd, hents]
      exact List.mem_cons_self
    case dotdot =>
      intro d p hd hp
      rw [hdir hd] at hp ⊢
      cases hp
      rw [hents]
      exact List.mem_cons_of_mem _ List.mem_cons_self
    case sub => exact fun d e he hprop => absurd hprop (hmem he).2.2
    case named => exact fun d p hd hne => absurd (hdir hd) hne
  count i hi := by
    obtain ⟨x, hx⟩ := hi
    obtain ⟨rfl, -⟩ := start_inode hx
    decide
  leak _ _ := rfl

variable [Machine]

/-- Names are new, directories stay in their parent directory, and no call goes on with what it has removed. -/
def TreeOk (s : Sys) (ev : Ev) : Prop := s.NamesOk ev ∧ s.MovesOk ev ∧ s.RemovesOk ev

theorem Reached.good (h : Reached TreeOk s) : ∃ leak, s.fs.Good leak := by
  have : s.Base ∧ ∃ leak, s.fs.Good leak := by
    refine Lib.Reached.invariant (I := fun s => s.Base ∧ ∃ leak, s.fs.Good leak) (fun s hs => ?_)
      (fun s ev s' hb hok he => ?_) h
    · subst hs
      exact ⟨base_start, _, good_start⟩
    · obtain ⟨hb, leak, hg⟩ := hb
      obtain ⟨⟨r, t⟩, hc, rfl⟩ := Option.map_eq_some_iff.mp he
      have hd := done (k := ⟨True, True, True⟩) hb (fun _ => hg.tidy) (fun _ => hok.1) (fun _ => hok.2.1) (.inl trivial) hc
      obtain ⟨leak', hg', -⟩ := Effects.good hd.fs.effects trivial trivial hg
      exact ⟨hd.base hb, leak', hg'⟩
  exact this.2

end Sys

section

instance {n : Inodes} {p q : VfsPath} : Decidable (MoveOk n p q) :=
  inferInstanceAs (Decidable (∀ i ∈ p.fsPath.inode, n.IsDir i → _ ∧ ∀ e ∈ p.fsPath.dirEntry, _))

variable [Machine]

instance : (s : Sys) → (ev : Ev) → Decidable (s.MovesOk ev)
  | s, ⟨pid, .rename old new, _⟩ =>
    inferInstanceAs (Decidable (∀ p ∈ s.resolve pid old false, ∀ q ∈ s.resolve pid new false, MoveOk _ p q))
  | _, ⟨_, .open _ _ _, _⟩ | _, ⟨_, .close _, _⟩ | _, ⟨_, .dup _, _⟩ | _, ⟨_, .mkdir _ _, _⟩ | _, ⟨_, .rmdir _, _⟩
  | _, ⟨_, .unlink _, _⟩ | _, ⟨_, .symlink _ _, _⟩ | _, ⟨_, .link _ _, _⟩ | _, ⟨_, .chmod _ _, _⟩ | _, ⟨_, .chdir _, _⟩
  | _, ⟨_, .fork _, _⟩ | _, ⟨_, .exit, _⟩ | _, ⟨_, .lockExec _, _⟩ | _, ⟨_, .unlockExec _, _⟩ => .isTrue trivial

instance (s : Sys) (ev : Ev) : Decidable (s.TreeOk ev) := inferInstanceAs (Decidable (_ ∧ _ ∧ _))

/-- **The directories are a tree in every run in which no new entry gets a name that its directory has, every directory that
is renamed stays in its parent directory and no call goes on with what it has removed.** -/
theorem Sys.directories_tree {s : Sys} (h : s.Reached TreeOk) : s.fs.IsTree := by
  obtain ⟨leak, hg⟩ := h.good
  exact hg.isTree

/-- Directories are made, renamed and removed; a file moves from one to another. -/
def treeRun : List Ev :=
  let creat : OpenFlags := ⟨true, false, true, false, false, false⟩
  [⟨1, .mkdir ['/', 'a'] 0o777, []⟩, ⟨1, .mkdir ['/', 'a', '/', 'b'] 0o777, []⟩, ⟨1, .mkdir ['/', 'd'] 0o777, []⟩,
    ⟨1, .rename ['/', 'a', '/', 'b'] ['/', 'a', '/', 'c'], []⟩, ⟨1, .open ['/', 'a', '/', 'f'] creat 0o777, []⟩,
    ⟨1, .rename ['/', 'a', '/', 'f'] ['/', 'g'], []⟩, ⟨1, .rmdir ['/', 'd'], []⟩]

end

theorem Sys.directories_tree_run : ∃ (_ : Machine) (s : Sys), s.Reached TreeOk ∧ s.fs.parentOf 3 = some 2 ∧
    s.fs.inode 4 = none ∧ s.fs.IsTree := by
  let M := machine32
  have hrun : (Lib.execs Sys.exec Sys.start treeRun).map
      (fun s => (s.fs.parentOf 3, (s.fs.inode 4).isNone)) = some (some 2, true) := by
    decide +kernel
  obtain ⟨s, hs, heq⟩ := Option.map_eq_some_iff.mp hrun
  obtain ⟨h3, h4⟩ := Prod.mk.inj heq
  have hr : s.Reached TreeOk := Sys.reached_execs (by decide +kernel) hs
  exact ⟨M, s, hr, h3, Option.isNone_iff_eq_none.mp h4, Sys.directories_tree hr⟩

/-- A directory is renamed into another one: its `..` entry and its `parent_dir` stay with the root. -/
theorem Sys.directories_not_tree : ∃ (_ : Machine) (s : Sys), s.Reached (fun _ _ => True) ∧ ¬ s.fs.IsTree := by
  let M := machine32
  have hrun : (Lib.execs Sys.exec Sys.start [⟨1, .mkdir ['/', 'a'] 0o777, []⟩, ⟨1, .mkdir ['/', 'b'] 0o777, []⟩,
      ⟨1, .rename ['/', 'a'] ['/', 'b', '/', 'c'], []⟩]).map
      (fun s => (s.fs.root, s.fs.parentOf 2, s.fs.ents 3, decide (s.fs.IsDir 2))) =
      some (1, some 1, [⟨['.'], 3⟩, ⟨['.', '.'], 1⟩, ⟨['c'], 2⟩], true) := by
    decide +kernel
  obtain ⟨s, hs, heq⟩ := Option.map_eq_some_iff.mp hrun
  simp only [Prod.mk.injEq, decide_eq_true_eq] at heq
  obtain ⟨hroot, hparent, hents, hdir⟩ := heq
  refine ⟨M, s, Sys.reached_execs (by decide +kernel) hs, fun ht => ?_⟩
  obtain ⟨p, -, honly, hp, -⟩ := ht.named 2 hdir (by rw [hroot]; decide)
  have hsub : s.fs.Sub 3 2 := ⟨hdir, ⟨['c'], 2⟩, by rw [hents]; decide, by decide, rfl⟩
  have h3 := honly 3 hsub
  rw [hparent, ← h3] at hp
  cases hp

/-! ## Links -/

/-- **An inode is freed only when it has no link and no reference.** -/
theorem Effect.freed {k : Care} {n n' : Inodes} (h : Effect k n n') (hl : ¬ k.late) (hg : n.Good fun _ => 0)
    {y : Inode} (hy : y ∈ n'.freed) : y ∈ n.freed ∨ y.nlink = 0 ∧ y.refCount = 0 := by
  cases h with
  | touch i mode refCount => exact .inl hy
  | @tried x hx =>
    rcases List.mem_append.mp hy with hy | hy
    · rw [Inodes.inode_new, if_pos rfl] at hy
      obtain rfl := List.mem_singleton.mp hy
      exact .inr ⟨hx.nlink, hx.refCount⟩
    · exact .inl hy
  | create _ _ _ _ => exact .inl hy
  | orphan _ _ => exact .inl hy
  | mkdir _ _ _ => exact .inl hy
  | mkdirFail _ hlate _ => exact absurd hlate hl
  | link _ _ _ _ => exact .inl hy
  | move _ _ _ _ _ _ => exact .inl hy
  | unlink _ _ _ => exact .inl hy
  | @rmdir d e e₁ e₂ x hx hnum href h₁ h₂ h₃ =>
    rcases List.mem_append.mp hy with hy | hy
    · right
      have hy := Option.mem_toList.mp hy
      -- nothing is left that names the directory, so the count of its links is zero
      have hc : (((n.unlink e.inode e₁).unlink e.inode e₂).unlink d e).Counted fun _ => 0 :=
        ((hg.count.unlink hg.fresh h₁).unlink hg.fresh.unlink h₂).unlink hg.fresh.unlink.unlink h₃
      have hents : (((n.unlink e.inode e₁).unlink e.inode e₂).unlink d e).ents e.inode = [] := by
        rw [Inodes.ents_unlink, hg.ents_unlink_dots hx hnum h₁ h₂]
        simp
      have hrefs : (((n.unlink e.inode e₁).unlink e.inode e₂).unlink d e).refs e.inode = 0 := by
        rw [← Inodes.refs_free hents]
        apply Inodes.refs_eq_zero
        intro j e' he'
        exact (Inodes.live_free.mp ((hg.shape_rmdir hx hnum h₁ h₂ h₃).target j e' he')).1
      have hn := hc e.inode ⟨y, hy⟩
      rw [hrefs] at hn
      refine ⟨by simpa [Inodes.nlinkOf, hy] using hn, ?_⟩
      rw [Inodes.inode_unlink, Inodes.inode_unlink, Inodes.inode_unlink, hx] at hy
      simp only [Option.map_some, Option.some.injEq] at hy
      rw [← hy]
      split_ifs <;> exact href
    · exact .inl hy
  | @free i x hx hl hr =>
    rcases List.mem_append.mp hy with hy | hy
    · rw [hx] at hy
      obtain rfl := List.mem_singleton.mp hy
      exact .inr ⟨hl, hr⟩
    · exact .inl hy

theorem Effects.freed {k : Care} {n n' : Inodes} (h : Effects k n n') (hk : k.names) (hm : k.moves) (hl : ¬ k.late)
    (hg : n.Good fun _ => 0) (hf : ∀ x ∈ n.freed, x.nlink = 0 ∧ x.refCount = 0) :
    ∀ x ∈ n'.freed, x.nlink = 0 ∧ x.refCount = 0 := by
  induction h with
  | refl => exact hf
  | tail hs he ih =>
    obtain ⟨leak, hg', heq⟩ := Effects.good hs hk hm hg
    rw [heq hl] at hg'
    intro x hx
    rcases he.freed hl hg' hx with hx | hx
    · exact ih x hx
    · exact hx

/-! ## A rename of an inode to itself -/

section Rename

variable {s s' : Ramfs} {p q : VfsPath} {i : InodePtr}

/-- The checks of `ramfs_rmdir`, `ramfs_unlink` and `ramfs_rename` itself are all there is that can fail. -/
theorem spec_renameReplace_refuses (hi : q.fsPath.inode = some i) :
    Spec (ramfsRenameReplace p q) s (fun _ _ => ¬ s.Refuses i p q) fun _ s' => s' = s ∧ s.Refuses i p q := by
  unfold ramfsRenameReplace
  rw [hi]
  apply Spec.ite
  · intro ht
    have hrefuses (h : p.fsPath.type ≠ .dir ∨ q.fsPath.dirEntry = none ∨ q.lastComp = ['.'] ∨
        ∃ x, s.inode i = some x ∧ (x.numEntries > 2 ∨ x.refCount > 0)) : s = s ∧ s.Refuses i p q :=
      ⟨rfl, .inr (by rwa [if_pos ht])⟩
    apply Spec.bind
    refine Spec.failIf (fun h => hrefuses (.inl h)) fun hp => ?_
    apply Spec.bind
    apply spec_inodeAt
    intro x hx
    apply Spec.bind
    refine Spec.failIf (fun h => hrefuses (.inr (.inr (.inr ⟨x, hx, .inl h⟩)))) fun hnum => ?_
    unfold ramfsRmdir
    rw [hi]
    apply Spec.bind
    apply Spec.deref
    rintro _ ⟨⟩
    apply Spec.bind
    refine Spec.failIf (fun h => absurd ht h) fun _ => ?_
    apply Spec.bind
    apply spec_inodeAt
    intro dir hdir
    apply Spec.bind
    refine Spec.failIf (fun h => ⟨rfl, .inl ⟨dir, hdir, h⟩⟩) fun hmode => ?_
    apply Spec.bind
    refine Spec.failIf (fun h => hrefuses (.inr (.inl h))) fun he => ?_
    apply Spec.bind
    refine Spec.failIf (fun h => hrefuses (.inr (.inr (.inl h)))) fun hlast => ?_
    apply Spec.bind
    apply spec_inodeAt
    intro y hy
    obtain rfl : x = y := Option.some.inj (hx.symm.trans hy)
    apply Spec.bind
    refine Spec.failIf (fun h => absurd h hnum) fun _ => ?_
    apply Spec.bind
    refine Spec.failIf (fun h => hrefuses (.inr (.inr (.inr ⟨x, hx, .inr h⟩)))) fun href => ?_
    -- all checks have passed, and what is left cannot fail
    have hno : ¬ s.Refuses i p q := by
      unfold Ramfs.Refuses
      rw [if_pos ht]
      rintro (⟨dir', hdir', h⟩ | h | h | h | ⟨x', hx', h⟩)
      · rw [hdir] at hdir'
        cases hdir'
        exact hmode h
      · exact hp h
      · exact he h
      · exact hlast h
      · rw [hx] at hx'
        cases hx'
        exact h.elim hnum href
    apply Spec.bind
    apply Spec.deref
    intro e₁ _
    apply Spec.bind
    apply spec_removeEntry
    intro s₁ _ _ _ _
    apply Spec.bind
    apply spec_inodeAt
    intro z _
    apply Spec.bind
    apply Spec.deref
    intro e₂ _
    apply Spec.bind
    apply spec_removeEntry
    intro s₂ _ _ _ _
    apply Spec.bind
    apply Spec.deref
    intro e _
    apply Spec.bind
    apply spec_removeEntry
    intro s₃ _ _ _ _
    apply spec_kfreeInode
    intro _ _ _ _
    exact hno
  · intro ht
    unfold ramfsUnlink
    rw [hi]
    apply Spec.bind
    apply Spec.deref
    rintro _ ⟨⟩
    apply Spec.bind
    apply spec_inodeAt
    intro x hx
    apply Spec.bind
    refine Spec.failIf (fun h => ⟨rfl, .inr (by rw [if_neg ht]; exact ⟨x, hx, h⟩)⟩) fun htype => ?_
    apply Spec.bind
    apply spec_inodeAt
    intro dir hdir
    apply Spec.bind
    refine Spec.failIf (fun h => ⟨rfl, .inl ⟨dir, hdir, h⟩⟩) fun hmode => ?_
    have hno : ¬ s.Refuses i p q := by
      unfold Ramfs.Refuses
      rw [if_neg ht]
      rintro (⟨dir', hdir', h⟩ | ⟨x', hx', h⟩)
      · rw [hdir] at hdir'
        cases hdir'
        exact hmode h
      · rw [hx] at hx'
        cases hx'
        exact htype h
    apply Spec.bind
    apply Spec.deref
    intro e _
    apply Spec.bind
    apply spec_removeEntry
    intro s₁ _ _ _ _
    apply Spec.bind
    apply spec_inodeAt
    intro y _
    apply Spec.ite
    · intro _
      apply spec_kfreeInode
      intro _ _ _ _
      exact hno
    · intro _
      apply Spec.pure
      exact hno

theorem Replaced.nlinkOf_lt {n n' : Inodes} {leak : InodePtr → Nat} (h : Replaced n q n') (hg : n.Good leak) (hq : q.Fits)
    (hi : q.fsPath.inode = some i) : n'.nlinkOf i < n.nlinkOf i := by
  have hfreed {m : Inodes} : (m.free i).nlinkOf i = 0 := by simp [Inodes.nlinkOf, Inodes.inode_free]
  have hpos {d : InodePtr} {e : Entry} (he : e ∈ n.ents d) (hei : e.inode = i) : 0 < n.nlinkOf i := by
    subst hei
    rw [hg.count _ (hg.shape.target d e he)]
    exact Nat.add_pos_left (Inodes.refs_pos hg.fresh he) _
  obtain ⟨hnone, -⟩ | ⟨j, e, h⟩ | ⟨j, x, e, e₁, e₂, h⟩ := h
  · rw [hi] at hnone
    cases hnone
  · obtain rfl : j = i := Option.some.inj (h.inode.symm.trans hi)
    have hei : e.inode = j := Option.some.inj ((hq e h.entry).symm.trans hi)
    have hpos := hpos h.mem hei
    obtain h' | ⟨x, -, -, -, h'⟩ := h.result
    · rw [h', Inodes.nlinkOf_unlink, if_pos hei.symm]
      exact Nat.sub_lt hpos Nat.one_pos
    · rw [h', hfreed]
      exact hpos
  · obtain rfl : j = i := Option.some.inj (h.inode.symm.trans hi)
    rw [h.result, hfreed]
    exact hpos (hg.shape.dot j (hg.shape.isDir_of_mem h.mem₁)) rfl

variable [Machine]

/-- **A rename of an inode to itself leaves the inodes as they are just when it is refused.** -/
theorem spec_rename_same {leak : InodePtr → Nat} (hg : s.Good leak) (hp : p.Fits) (hq : q.Fits)
    (hpi : p.fsPath.inode = some i) (hqi : q.fsPath.inode = some i) :
    Spec (ramfsRename p q) s (fun _ s' => s'.toInodes = s.toInodes ↔ s.Refuses i p q)
      fun _ s' => s'.toInodes = s.toInodes ↔ s.Refuses i p q := by
  have hrep : Spec (ramfsRenameReplace p q) s (fun _ s' => Replaced s.toInodes q s'.toInodes ∧ s.Next s' s'.toInodes 0)
      fun _ s' => s' = s := spec_renameReplace (fun s' hr hs' => ⟨hr, hs'⟩) fun _ => rfl
  apply Spec.bind
  refine (hrep.both (spec_renameReplace_refuses hqi)).mono ?_ ?_
  · rintro _ s₁ ⟨⟨hr, hs₁⟩, hno⟩
    have hlt := hr.nlinkOf_lt hg hq hqi
    have hchanged {n : Inodes} (hn : n.nlinkOf i = s₁.nlinkOf i) : n = s.toInodes ↔ s.Refuses i p q := by
      refine iff_of_false ?_ hno
      rintro rfl
      exact hlt.ne' hn
    rw [hpi]
    apply Spec.bind
    apply Spec.deref
    rintro _ ⟨⟩
    apply Spec.bind
    apply spec_addEntry
    · intro s₂ hs₂ _ _ hl
      apply spec_renameRemove
      intro e he
      apply spec_removeEntry
      intro s₃ hs₃ _ _ _
      have hei : e.inode = i := Option.some.inj ((hp e he).symm.trans hpi)
      apply hchanged
      rw [hs₃.inodes, hs₂.inodes, Inodes.nlinkOf_unlink, Inodes.nlinkOf_link hl, if_pos rfl, if_pos hei.symm,
        Nat.add_sub_cancel]
    · intro e s₂ _ hs₂ _
      apply hchanged
      rw [hs₂.inodes]
  · rintro e s₁ ⟨rfl, -, hr⟩
    exact iff_of_true rfl hr

end Rename

/-! ## Links in runs -/

namespace Sys

variable [Machine] {s s' : Sys}

/-- Besides what keeps the tree, a `mkdir` that makes a directory makes its entry. -/
def LinksOk (s : Sys) (ev : Ev) : Prop := s.TreeOk ev ∧ s.MkdirsOk ev

theorem Reached.links (h : Reached LinksOk s) :
    s.Base ∧ s.fs.Good (fun _ => 0) ∧ ∀ x ∈ s.fs.freed, x.nlink = 0 ∧ x.refCount = 0 := by
  refine Lib.Reached.invariant
    (I := fun s => s.Base ∧ s.fs.Good (fun _ => 0) ∧ ∀ x ∈ s.fs.freed, x.nlink = 0 ∧ x.refCount = 0) (fun s hs => ?_)
    (fun s ev s' hb hok he => ?_) h
  · subst hs
    exact ⟨base_start, good_start, nofun⟩
  · obtain ⟨hb, hg, hf⟩ := hb
    obtain ⟨⟨r, t⟩, hc, rfl⟩ := Option.map_eq_some_iff.mp he
    have hd := done (k := ⟨True, True, False⟩) hb (fun _ => hg.tidy) (fun _ => hok.1.1) (fun _ => hok.1.2.1) (.inr hok.2) hc
    obtain ⟨leak, hg', heq⟩ := Effects.good hd.fs.effects trivial trivial hg
    rw [heq not_false] at hg'
    exact ⟨hd.base hb, hg', Effects.freed hd.fs.effects trivial trivial not_false hg hf⟩

theorem rename_same {leak : InodePtr → Nat} {ev : Ev} {oldpath newpath : List Char} {p q : VfsPath} {i : InodePtr}
    {r : Except Errno Unit} (hb : s.Base) (hg : s.fs.Good leak) (hev : ev.call = .rename oldpath newpath)
    (hp : p ∈ s.resolve ev.pid oldpath false) (hq : q ∈ s.resolve ev.pid newpath false) (hpi : p.fsPath.inode = some i)
    (hqi : q.fsPath.inode = some i) (hc : s.call ev = some (r, s')) :
    s'.fs.toInodes = s.fs.toInodes ↔ s.fs.Refuses i p q := by
  obtain ⟨cwd, hcwd, hc⟩ := Option.bind_eq_some_iff.mp hc
  obtain ⟨c, hmem, rfl⟩ := mem_of_lookup hcwd
  have hfits := (hb.cwd c hmem).1
  have hp := resolve_eq hcwd hp
  have hq := resolve_eq hcwd hq
  rw [hev] at hc
  simp only [callFrom] at hc
  refine finish_spec (P := fun _ s' => s'.fs.toInodes = s.fs.toInodes ↔ s.fs.Refuses i p q) hc ?_
  apply Spec.bind
  refine spec_resolved_eq (s := { s.fs with allocs := ev.allocs }) hp ?_
  apply Spec.bind
  refine Spec.failIf (fun hnone => ?_) fun _ => ?_
  · rw [hpi] at hnone
    cases hnone
  apply Spec.bind
  refine spec_resolved_eq (s := { s.fs with allocs := ev.allocs }) hq ?_
  exact spec_rename_same (s := { s.fs with allocs := ev.allocs }) hg (hfits.resolve hp) (hfits.resolve hq) hpi hqi

end Sys

section

variable [Machine]

/-- **In every run that keeps the tree and in which no `mkdir` fails late, the links of an inode are its entries, an inode is
freed with no links and no references, and entries are for inodes in memory. A rename of an inode to itself leaves everything as it is just when it is refused.** -/
theorem Sys.links_counted {s : Sys} (h : s.Reached LinksOk) :
    (∀ i, s.fs.Live i → s.fs.nlinkOf i = s.fs.refs i) ∧ (∀ x ∈ s.fs.freed, x.nlink = 0 ∧ x.refCount = 0) ∧
      (∀ d, ∀ e ∈ s.fs.ents d, s.fs.Live e.inode) ∧
      ∀ (ev : Ev) (oldpath newpath : List Char) (p q : VfsPath) (i : InodePtr) (r : Except Errno Unit) (s' : Sys),
        ev.call = .rename oldpath newpath → p ∈ s.resolve ev.pid oldpath false → q ∈ s.resolve ev.pid newpath false →
        p.fsPath.inode = some i → q.fsPath.inode = some i → s.call ev = some (r, s') →
        (s'.fs.toInodes = s.fs.toInodes ↔ s.fs.Refuses i p q) := by
  obtain ⟨hb, hg, hf⟩ := h.links
  refine ⟨fun i hi => hg.count i hi, hf, hg.shape.target, ?_⟩
  intro ev oldpath newpath p q i r s' hev hp hq hpi hqi hc
  exact Sys.rename_same hb hg hev hp hq hpi hqi hc

instance {allocs : List Bool} {k : Nat} : Decidable (AllocsOk allocs k) := inferInstanceAs (Decidable (∀ j < k, _))

instance {allocs : List Bool} {name : List Char} : Decidable (EntryFails allocs name) :=
  inferInstanceAs (Decidable (_ ∨ _ ∨ _))

instance {s : Ramfs} {p : VfsPath} : Decidable (s.MkdirLate p) :=
  inferInstanceAs (Decidable (_ ∧ (∃ x ∈ s.inode p.fsPath.dirInode, _) ∧ _ ∧ _))

instance : (s : Sys) → (ev : Ev) → Decidable (s.MkdirsOk ev)
  | s, ⟨pid, .mkdir path _, allocs⟩ =>
    inferInstanceAs (Decidable (∀ p ∈ s.resolve pid path false, ¬ { s.fs with allocs := allocs }.MkdirLate p))
  | _, ⟨_, .open _ _ _, _⟩ | _, ⟨_, .close _, _⟩ | _, ⟨_, .dup _, _⟩ | _, ⟨_, .rename _ _, _⟩ | _, ⟨_, .rmdir _, _⟩
  | _, ⟨_, .unlink _, _⟩ | _, ⟨_, .symlink _ _, _⟩ | _, ⟨_, .link _ _, _⟩ | _, ⟨_, .chmod _ _, _⟩ | _, ⟨_, .chdir _, _⟩
  | _, ⟨_, .fork _, _⟩ | _, ⟨_, .exit, _⟩ | _, ⟨_, .lockExec _, _⟩ | _, ⟨_, .unlockExec _, _⟩ => .isTrue trivial

instance (s : Sys) (ev : Ev) : Decidable (s.LinksOk ev) := inferInstanceAs (Decidable (_ ∧ _))

/-- A file gets a second name, is unlinked by both names and closed; a directory with an entry is renamed to itself. -/
def linksRun : List Ev :=
  let creat : OpenFlags := ⟨true, false, true, false, false, false⟩
  [⟨1, .open ['/', 'a'] creat 0o777, []⟩, ⟨1, .link ['/', 'a'] ['/', 'c'], []⟩, ⟨1, .unlink ['/', 'a'], []⟩,
    ⟨1, .unlink ['/', 'c'], []⟩, ⟨1, .close ⟨2, true⟩, []⟩, ⟨1, .mkdir ['/', 'd'] 0o777, []⟩,
    ⟨1, .mkdir ['/', 'd', '/', 'e'] 0o777, []⟩, ⟨1, .rename ['/', 'd'] ['/', 'd'], []⟩]

end

section

attribute [local instance] machine32

theorem Sys.links_counted_run : ∃ (_ : Machine) (s : Sys), s.Reached LinksOk ∧ s.fs.freed.length = 1 ∧
    (∀ x ∈ s.fs.freed, x.nlink = 0 ∧ x.refCount = 0) ∧ s.fs.nlinkOf 3 = 3 ∧ s.fs.refs 3 = 3 := by
  have hrun : (Lib.execs Sys.exec Sys.start linksRun).map
      (fun s => (s.fs.freed.length, s.fs.nlinkOf 3, (s.fs.inode 3).isSome)) = some (1, 3, true) := by
    decide +kernel
  obtain ⟨s, hs, heq⟩ := Option.map_eq_some_iff.mp hrun
  simp only [Prod.mk.injEq] at heq
  obtain ⟨hfreed, hlinks, hlive⟩ := heq
  have hr : s.Reached LinksOk := Sys.reached_execs (by decide +kernel) hs
  obtain ⟨hcount, hf, -⟩ := Sys.links_counted hr
  exact ⟨machine32, s, hr, hfreed, hf, hlinks, (hcount 3 (Option.isSome_iff_exists.mp hlive)).symm.trans hlinks⟩

/-- A file is renamed to another of its hard links: the call succeeds, and one of the two entries is gone. -/
theorem Sys.rename_hard_link_changes : ∃ (_ : Machine) (s s' : Sys) (p q : VfsPath), s.Reached LinksOk ∧
    p ∈ s.resolve 1 ['/', 'a'] false ∧ q ∈ s.resolve 1 ['/', 'c'] false ∧ p.fsPath.inode = some 2 ∧
    q.fsPath.inode = some 2 ∧ s.call ⟨1, .rename ['/', 'a'] ['/', 'c'], []⟩ = some (.ok (), s') ∧
    s'.fs.toInodes ≠ s.fs.toInodes := by
  let creat : OpenFlags := ⟨true, false, true, false, false, false⟩
  have hrun : ((Lib.execs Sys.exec Sys.start [⟨1, .open ['/', 'a'] creat 0o777, []⟩,
      ⟨1, .link ['/', 'a'] ['/', 'c'], []⟩]).bind fun s => (s.resolve 1 ['/', 'a'] false).bind fun p =>
        (s.resolve 1 ['/', 'c'] false).bind fun q => (s.call ⟨1, .rename ['/', 'a'] ['/', 'c'], []⟩).map fun r =>
        (p.fsPath.inode, q.fsPath.inode, r.1.isOk, s.fs.nlinkOf 2, r.2.fs.nlinkOf 2)) =
      some (some 2, some 2, true, 2, 1) := by
    decide +kernel
  obtain ⟨s, hs, hrun⟩ := Option.bind_eq_some_iff.mp hrun
  obtain ⟨p, hp, hrun⟩ := Option.bind_eq_some_iff.mp hrun
  obtain ⟨q, hq, hrun⟩ := Option.bind_eq_some_iff.mp hrun
  obtain ⟨⟨r, s'⟩, hc, heq⟩ := Option.map_eq_some_iff.mp hrun
  simp only [Prod.mk.injEq] at heq
  obtain ⟨hpi, hqi, hok, hn, hn'⟩ := heq
  have hr : s.Reached LinksOk := Sys.reached_execs (by decide +kernel) hs
  cases r with
  | error e => cases hok
  | ok a =>
    refine ⟨machine32, s, s', p, q, hr, hp, hq, hpi, hqi, hc, fun heq => ?_⟩
    rw [heq, hn] at hn'
    cases hn'

end

end Usax.Fs
