import Usax.Fs.RamfsNamespace

/-!
# Calls that fail

`Ramfs.Kept` says that the entries, the counts of links, the inodes in memory and the locks are as they were. A call that
fails keeps them, except when it fails late (`Sys.Late`): `mkdir`, `symlink`, `open` and `rename` make or remove something
before the last step that can fail, and do not undo all of it.

* `Sys.failed_call_keeps_iff`: a call that fails keeps everything just when it does not fail late.
-/

namespace Usax.Fs

open Common Lib Lib.Prog RamfsM Relation

def Inode.links (x : Inode) : List Entry × List Entry × Nat × Nat :=
  (x.entriesTree, x.entriesList, x.numEntries, x.nlink)

/-- The entries, the counts of links, the inodes in memory and the locks are the same. -/
def Ramfs.Kept (s s' : Ramfs) : Prop :=
  (∀ i, (s'.inode i).map Inode.links = (s.inode i).map Inode.links) ∧ s'.locked = s.locked

section Kept

variable {s s' : Ramfs} {i d : InodePtr} {p q : VfsPath}

theorem Ramfs.Kept.of_inode (hi : s'.inode = s.inode) (hl : s'.locked = s.locked) : s.Kept s' :=
  ⟨fun i => by rw [hi], hl⟩

theorem Ramfs.Kept.of_inodes (hi : s'.toInodes = s.toInodes) (hl : s'.locked = s.locked) : s.Kept s' :=
  .of_inode (by rw [hi]) hl

theorem Ramfs.Kept.ents (h : s.Kept s') : s'.ents d = s.ents d := by
  have hd := h.1 d
  unfold Inodes.ents
  cases hx : s.inode d with
  | none =>
    rw [hx] at hd
    rw [Option.map_eq_none_iff.mp hd]
  | some x =>
    rw [hx] at hd
    obtain ⟨y, hy, heq⟩ := Option.map_eq_some_iff.mp hd
    rw [hy]
    exact congrArg (·.2.1) heq

theorem Ramfs.Kept.live (h : s.Kept s') : s'.Live i ↔ s.Live i := by
  unfold Inodes.Live
  rw [← Option.isSome_iff_exists, ← Option.isSome_iff_exists, ← Option.isSome_map, h.1 i, Option.isSome_map]

theorem Ramfs.Kept.nlinkOf (h : s.Kept s') : s'.nlinkOf i = s.nlinkOf i := by
  have hi := h.1 i
  unfold Inodes.nlinkOf
  cases hx : s.inode i with
  | none =>
    rw [hx] at hi
    rw [Option.map_eq_none_iff.mp hi]
  | some x =>
    rw [hx] at hi
    obtain ⟨y, hy, heq⟩ := Option.map_eq_some_iff.mp hi
    rw [hy]
    exact congrArg (·.2.2.2) heq

theorem Tried.kept (h : Tried s.toInodes s'.toInodes) (hf : s.Fresh) (hl : s'.locked = s.locked) : s.Kept s' := by
  obtain h | ⟨x, -, h⟩ := h
  · exact .of_inodes h hl
  · refine .of_inode (funext fun j => ?_) hl
    rw [h, Inodes.inode_free, Inodes.inode_new]
    split_ifs with hj
    · rw [hj, hf.next]
    · rfl

/-! ## What a late failure leaves -/

theorem not_kept_mkdir {mode : Nat} (h : s'.toInodes = (s.newDir mode d).free s.nextInodeNum) (hf : s.Fresh)
    (hd : s.Live d) : ¬ s.Kept s' := by
  intro hk
  have hne := hd.ne_next hf.next
  have hn := hk.nlinkOf (i := d)
  rw [h, Inodes.nlinkOf_free hne, Inodes.nlinkOf_newDir hd, if_neg hne, if_pos rfl] at hn
  exact Nat.succ_ne_self _ hn

theorem not_kept_of_live (hf : s.Fresh) (h : s'.Live s.nextInodeNum) : ¬ s.Kept s' := fun hk =>
  (hk.live.mp h).ne_next hf.next rfl

theorem Replaced.not_kept {n : Inodes} (h : Replaced s.toInodes q n) (hi : q.fsPath.inode = some i)
    (hn : s'.toInodes = n) : ¬ s.Kept s' := by
  intro hk
  obtain ⟨hnone, -⟩ | ⟨j, e, h⟩ | ⟨j, x, e, e₁, e₂, h⟩ := h
  · rw [hi] at hnone
    cases hnone
  · obtain h' | ⟨x, hx, -, -, h'⟩ := h.result
    · have hents := hk.ents (d := q.fsPath.dirInode)
      rw [hn, h', Inodes.ents_unlink, if_pos rfl] at hents
      have hlen := congrArg List.length hents
      rw [List.length_erase_of_mem h.mem] at hlen
      have hpos := List.length_pos_of_mem h.mem
      omega
    · have hlive := hk.live.mpr (Inodes.live_unlink.mp ⟨x, hx⟩)
      rw [hn, h'] at hlive
      exact (Inodes.live_free.mp hlive).1 rfl
  · have hlive := hk.live.mpr ⟨x, h.get⟩
    rw [hn, h.result] at hlive
    exact (Inodes.live_free.mp hlive).1 rfl

end Kept

/-! ## The functions of the file system -/

section Operations

variable [Machine] {s : Ramfs} {p q : VfsPath}

/-- `rename` has removed what the new path names, and then it cannot make the entry. -/
def Ramfs.ReplaceLate (s : Ramfs) (p q : VfsPath) : Prop :=
  ∃ i, q.fsPath.inode = some i ∧ ¬ s.Refuses i p q ∧ EntryFails s.allocs q.lastComp

theorem kept_mkdir {mode : Nat} (hf : s.Fresh) :
    Spec (ramfsMkdir p mode) s (fun _ _ => True) fun _ s' => s.Kept s' ↔ ¬ s.MkdirLate p := by
  apply spec_mkdir
  · intro _ _ _ _ _
    trivial
  · intro e s' ht hl hno
    exact iff_of_true (ht.kept hf hl) hno
  · intro e s' hn _ hlate hd
    exact iff_of_false (not_kept_mkdir hn hf hd) (not_not_intro hlate)

theorem kept_symlink {target : List Char} (hf : s.Fresh) :
    Spec (ramfsSymlink target p) s (fun _ _ => True) fun _ s' => s.Kept s' ↔ ¬ s.SymlinkLate p := by
  apply spec_symlink
  · intro _ _ _
    trivial
  · intro e s' ht hl hno
    exact iff_of_true (ht.kept hf hl) hno
  · intro e s' hn _ hlate
    refine iff_of_false (not_kept_of_live hf ?_) (not_not_intro hlate)
    rw [hn]
    exact Inodes.live_new.mpr (.inl rfl)

theorem kept_open {fl : OpenFlags} {mode : Nat} (hf : s.Fresh) (hl : s.LocksOk) :
    Spec (ramfsOpen p fl mode) s (fun _ _ => True) fun _ s' => s.Kept s' ↔ ¬ s.OpenLate p fl := by
  cases hi : p.fsPath.inode with
  | none =>
    apply spec_openCreate hi hl.next
    · intro _ _ _ _ _ _
      trivial
    · intro e s' ht hl hno
      exact iff_of_true (ht.kept hf hl) hno
    · intro e s' _ hlock hlate
      refine iff_of_false (fun hk => ?_) (not_not_intro hlate)
      have hnext := congrFun hk.2 s.nextInodeNum
      rw [hlock, Function.update_self, hl.next] at hnext
      cases hnext
    · intro e s' hn _ _ _ hlate
      refine iff_of_false (not_kept_of_live hf ?_) (not_not_intro hlate)
      rw [hn]
      exact Inodes.live_link.mpr (Inodes.live_new.mpr (.inl rfl))
  | some i =>
    apply spec_openExisting hi fun j lf hj => (hl j lf hj).2
    · intro _ _ _ _ _
      trivial
    · intro e s' hn hlock
      refine iff_of_true (.of_inodes hn hlock) fun hlate => ?_
      rw [hlate.1] at hi
      cases hi

theorem kept_rename :
    Spec (ramfsRename p q) s (fun _ _ => True) fun _ s' => s.Kept s' ↔ ¬ s.ReplaceLate p q := by
  have hrep : Spec (ramfsRenameReplace p q) s (fun _ s' => Replaced s.toInodes q s'.toInodes ∧ s.Next s' s'.toInodes 0)
      fun _ s' => s' = s := spec_renameReplace (fun s' hr hs' => ⟨hr, hs'⟩) fun _ => rfl
  -- after the replacement, only the new entry can fail
  have hrest {s₁ : Ramfs} (hs₁ : s.Next s₁ s₁.toInodes 0)
      (hE : ∀ s₂, s₂.toInodes = s₁.toInodes → s₂.locked = s.locked → EntryFails s.allocs q.lastComp →
        (s.Kept s₂ ↔ ¬ s.ReplaceLate p q)) :
      Spec (do
        let i ← deref p.fsPath.inode
        ramfsDirAddEntry q.fsPath.dirInode q.lastComp i
        ramfsRenameRemove p q) s₁ (fun _ _ => True)
        fun _ s' => s.Kept s' ↔ ¬ s.ReplaceLate p q := by
    apply Spec.bind
    apply Spec.deref
    intro i _
    apply Spec.bind
    apply spec_addEntry
    · intro s₂ _ _ _ _
      apply spec_renameRemove
      intro e _
      apply spec_removeEntry
      intro _ _ _ _ _
      trivial
    · intro e s₂ k hs₂ hfails
      rw [hs₁.allocs] at hfails
      exact hE s₂ hs₂.inodes (hs₂.locked.trans hs₁.locked) hfails
  cases hi : q.fsPath.inode with
  | none =>
    apply Spec.bind
    refine hrep.mono ?_ ?_
    · rintro _ s₁ ⟨hr, hs₁⟩
      apply hrest hs₁
      intro s₂ hn hl _
      obtain ⟨-, heq⟩ | ⟨j, e, h⟩ | ⟨j, x, e, e₁, e₂, h⟩ := hr
      · refine iff_of_true (.of_inodes (hn.trans heq) hl) ?_
        rintro ⟨j, hj, -⟩
        rw [hi] at hj
        cases hj
      · cases hi.symm.trans h.inode
      · cases hi.symm.trans h.inode
    · rintro e s₁ rfl
      refine iff_of_true (.of_inodes rfl rfl) ?_
      rintro ⟨j, hj, -⟩
      rw [hi] at hj
      cases hj
  | some i =>
    apply Spec.bind
    refine (hrep.both (spec_renameReplace_refuses hi)).mono ?_ ?_
    · rintro _ s₁ ⟨⟨hr, hs₁⟩, hno⟩
      apply hrest hs₁
      intro s₂ hn _ hfails
      exact iff_of_false (hr.not_kept hi hn) (not_not_intro ⟨i, hi, hno, hfails⟩)
    · rintro e s₁ ⟨rfl, -, hr⟩
      refine iff_of_true (.of_inodes rfl rfl) ?_
      rintro ⟨j, hj, hno, -⟩
      obtain rfl : i = j := Option.some.inj (hi.symm.trans hj)
      exact hno hr

end Operations

/-! ## Calls -/

def Call.IsNamespace : Call → Prop
  | .open _ _ _ | .mkdir _ _ | .rmdir _ | .unlink _ | .symlink _ _ | .link _ _ | .rename _ _ => True
  | _ => False

namespace Sys

variable {s s' : Sys}

theorem not_mem_resolve {pid : Nat} {path : List Char} {b : Bool} {cwd p : VfsPath} {e : Errno}
    (hc : s.cwd.lookup pid = some cwd) (he : (s.fs.forest.vfsResolve cwd path b Held.zero).1 = .error e) :
    p ∉ s.resolve pid path b := fun hp => by cases he.symm.trans (resolve_eq hc hp)

theorem spec_resolved_mem {pid : Nat} {path : List Char} {b : Bool} {cwd : VfsPath} {fs : Ramfs}
    {Q : VfsPath → Ramfs → Prop} {E : Errno → Ramfs → Prop} (hc : s.cwd.lookup pid = some cwd)
    (hfs : fs.toInodes = s.fs.toInodes) (h₁ : ∀ p, s.resolve pid path b = some p → Q p fs)
    (h₂ : ∀ e, s.resolve pid path b = none → E e fs) : Spec (vfsResolved cwd path b) fs Q E := by
  apply Spec.of_eq
  intro r hr
  obtain rfl := Option.some.inj hr
  have hforest : fs.forest = s.fs.forest := by rw [hfs]
  refine ⟨fun p hp => h₁ p (mem_resolve hc (hforest ▸ hp)), fun e he => h₂ e ?_⟩
  apply Option.eq_none_iff_forall_not_mem.mpr
  intro p
  exact not_mem_resolve hc (hforest ▸ he)

variable [Machine]

/-- The call gets to the last step that can fail, and it fails there. -/
def Late (s : Sys) (ev : Ev) : Prop :=
  match ev.call with
  | .open path fl _ => ∃ p ∈ s.resolve ev.pid path true, ¬ (fl.directory ∧ p.fsPath.type ≠ .dir) ∧
      { s.fs with allocs := ev.allocs }.OpenLate p fl
  | .mkdir path _ => ∃ p ∈ s.resolve ev.pid path false, { s.fs with allocs := ev.allocs }.MkdirLate p
  | .symlink _ linkpath => ∃ p ∈ s.resolve ev.pid linkpath false, p.fsPath.inode = none ∧
      { s.fs with allocs := ev.allocs }.SymlinkLate p
  | .rename oldpath newpath => ∃ p ∈ s.resolve ev.pid oldpath false, ∃ q ∈ s.resolve ev.pid newpath false,
      p.fsPath.inode ≠ none ∧ { s.fs with allocs := ev.allocs }.ReplaceLate p q
  | _ => False

theorem kept_iff {ev : Ev} {e : Errno} (hb : s.Base) (hev : ev.call.IsNamespace)
    (hc : s.call ev = some (.error e, s')) : s.fs.Kept s'.fs ↔ ¬ s.Late ev := by
  obtain ⟨cwd, hcwd, hc⟩ := Option.bind_eq_some_iff.mp hc
  obtain ⟨pid, call, allocs⟩ := ev
  -- only the outcome of the function of the file system matters
  have hfinish {α : Type} {m : RamfsM α} {f : Sys → α → Sys} {L : Prop}
      (h : s.finish m allocs f = some (.error e, s'))
      (hm : Spec m { s.fs with allocs := allocs } (fun _ _ => True) fun _ fs => s.fs.Kept fs ↔ ¬ L) :
      s.fs.Kept s'.fs ↔ ¬ L := by
    refine finish_spec (P := fun r t => r = .error e → (s.fs.Kept t.fs ↔ ¬ L)) h (hm.mono ?_ ?_) rfl
    · intro a fs _ hr
      cases hr
    · intro e' fs hk _
      exact hk
  have hsame {L : Prop} (hL : ¬ L) : s.fs.Kept { s.fs with allocs := allocs } ↔ ¬ L :=
    iff_of_true (.of_inodes rfl rfl) hL
  cases call with
  | «open» path fl mode =>
    simp only [callFrom] at hc
    apply hfinish hc
    apply Spec.bind
    refine spec_resolved_mem hcwd rfl (fun p hp => ?_) fun e' hp => hsame ?_
    · apply Spec.bind
      refine Spec.failIf (fun hd => hsame ?_) fun hd => ?_
      · rintro ⟨p', hp', hd', -⟩
        obtain rfl : p = p' := Option.some.inj (hp.symm.trans hp')
        exact hd' hd
      · refine (kept_open (s := { s.fs with allocs := allocs }) hb.fresh hb.locks).mono (fun _ _ h => h) fun e' fs hk => ?_
        refine Iff.trans hk (not_congr ⟨fun h => ⟨p, hp, hd, h⟩, ?_⟩)
        rintro ⟨p', hp', -, h⟩
        obtain rfl : p = p' := Option.some.inj (hp.symm.trans hp')
        exact h
    · rintro ⟨p', hp', -⟩
      cases hp.symm.trans hp'
  | mkdir path mode =>
    simp only [callFrom] at hc
    apply hfinish hc
    apply Spec.bind
    refine spec_resolved_mem hcwd rfl (fun p hp => ?_) fun e' hp => hsame ?_
    · apply Spec.bind
      refine Spec.failIf (fun hi => hsame ?_) fun _ => ?_
      · rintro ⟨p', hp', h⟩
        obtain rfl : p = p' := Option.some.inj (hp.symm.trans hp')
        exact hi h.1
      · refine (kept_mkdir (s := { s.fs with allocs := allocs }) hb.fresh).mono (fun _ _ h => h) fun e' fs hk => ?_
        refine Iff.trans hk (not_congr ⟨fun h => ⟨p, hp, h⟩, ?_⟩)
        rintro ⟨p', hp', h⟩
        obtain rfl : p = p' := Option.some.inj (hp.symm.trans hp')
        exact h
    · rintro ⟨p', hp', -⟩
      cases hp.symm.trans hp'
  | symlink target linkpath =>
    simp only [callFrom] at hc
    apply hfinish hc
    apply Spec.bind
    refine spec_resolved_mem hcwd rfl (fun p hp => ?_) fun e' hp => hsame ?_
    · apply Spec.bind
      refine Spec.failIf (fun hi => hsame ?_) fun hi => ?_
      · rintro ⟨p', hp', hi', -⟩
        obtain rfl : p = p' := Option.some.inj (hp.symm.trans hp')
        exact hi hi'
      · refine (kept_symlink (s := { s.fs with allocs := allocs }) hb.fresh).mono (fun _ _ h => h) fun e' fs hk => ?_
        refine Iff.trans hk (not_congr ⟨fun h => ⟨p, hp, not_not.mp hi, h⟩, ?_⟩)
        rintro ⟨p', hp', -, h⟩
        obtain rfl : p = p' := Option.some.inj (hp.symm.trans hp')
        exact h
    · rintro ⟨p', hp', -⟩
      cases hp.symm.trans hp'
  | rename oldpath newpath =>
    simp only [callFrom] at hc
    apply hfinish hc
    apply Spec.bind
    refine spec_resolved_mem hcwd rfl (fun p hp => ?_) fun e' hp => hsame ?_
    · apply Spec.bind
      refine Spec.failIf (fun hi => hsame ?_) fun hi => ?_
      · rintro ⟨p', hp', q', -, hi', -⟩
        obtain rfl : p = p' := Option.some.inj (hp.symm.trans hp')
        exact hi' hi
      apply Spec.bind
      refine spec_resolved_mem hcwd rfl (fun q hq => ?_) fun e' hq => hsame ?_
      · refine (kept_rename (s := { s.fs with allocs := allocs })).mono (fun _ _ h => h) fun e' fs hk => ?_
        refine Iff.trans hk (not_congr ⟨fun h => ⟨p, hp, q, hq, hi, h⟩, ?_⟩)
        rintro ⟨p', hp', q', hq', -, h⟩
        obtain rfl : p = p' := Option.some.inj (hp.symm.trans hp')
        obtain rfl : q = q' := Option.some.inj (hq.symm.trans hq')
        exact h
      · rintro ⟨p', -, q', hq', -⟩
        cases hq.symm.trans hq'
    · rintro ⟨p', hp', -⟩
      cases hp.symm.trans hp'
  | rmdir path =>
    simp only [callFrom] at hc
    apply hfinish hc
    apply Spec.bind
    refine spec_resolved_mem hcwd rfl (fun p _ => ?_) fun e' _ => hsame not_false
    apply Spec.bind
    refine Spec.failIf (fun _ => hsame not_false) fun _ => ?_
    exact spec_rmdir (fun _ _ _ _ _ _ _ _ => trivial) fun _ => hsame not_false
  | unlink path =>
    simp only [callFrom] at hc
    apply hfinish hc
    apply Spec.bind
    refine spec_resolved_mem hcwd rfl (fun p _ => ?_) fun e' _ => hsame not_false
    apply Spec.bind
    refine Spec.failIf (fun _ => hsame not_false) fun _ => ?_
    exact spec_unlink (fun _ _ _ _ _ => trivial) fun _ => hsame not_false
  | link oldpath newpath =>
    simp only [callFrom] at hc
    apply hfinish hc
    apply Spec.bind
    refine spec_resolved_mem hcwd rfl (fun p _ => ?_) fun e' _ => hsame not_false
    apply Spec.bind
    refine Spec.failIf (fun _ => hsame not_false) fun _ => ?_
    apply Spec.bind
    refine spec_resolved_mem hcwd rfl (fun q _ => ?_) fun e' _ => hsame not_false
    exact spec_link (fun _ _ _ _ _ _ _ _ => trivial) fun _ _ _ hn =>
      iff_of_true (.of_inodes hn.inodes hn.locked) not_false
  | close | dup | chmod | chdir | fork | exit | lockExec | unlockExec => exact hev.elim

end Sys

/-- No lock is left of an inode that has been freed, which the next inode at its address would find. -/
def Sys.NoStaleLock (s : Sys) (_ : Ev) : Prop := ∀ i, s.fs.locked i ≠ none → s.fs.Live i

/-- **In every state that is reached without a lock of a freed inode, and with any pattern of allocations that fail, a call
that returns an error leaves the entries, the counts of links, the inodes in memory and the locks as they were just when it
does not fail late.** -/
theorem Sys.failed_call_keeps_iff [Machine] {s s' : Sys} {ev : Ev} {e : Errno} (h : s.Reached NoStaleLock)
    (_ : s.NoStaleLock ev) (hev : ev.call.IsNamespace) (hc : s.call ev = some (.error e, s')) :
    s.fs.Kept s'.fs ↔ ¬ s.Late ev :=
  Sys.kept_iff h.base hev hc

section

attribute [local instance] machine32

/-- The second allocation of a `mkdir` fails: nothing is left of it. -/
theorem Sys.failed_mkdir_keeps : ∃ (_ : Machine) (s s' : Sys) (e : Errno), s.Reached NoStaleLock ∧
    s.call ⟨1, .mkdir ['/', 'a'] 0o777, [true, false]⟩ = some (.error e, s') ∧
    (s.fs.Kept s'.fs ↔ ¬ s.Late ⟨1, .mkdir ['/', 'a'] 0o777, [true, false]⟩) := by
  have hrun : (Sys.start.call ⟨1, .mkdir ['/', 'a'] 0o777, [true, false]⟩).map (·.1.isOk) = some false := by
    decide
  obtain ⟨⟨r, s'⟩, hc, hr⟩ := Option.map_eq_some_iff.mp hrun
  have hstart : Sys.start.Reached Sys.NoStaleLock := .start rfl
  cases r with
  | ok a => cases hr
  | error e =>
    exact ⟨machine32, _, s', e, hstart, hc, Sys.failed_call_keeps_iff hstart (fun _ h => absurd rfl h) trivial hc⟩

/-- The last allocation of a `mkdir` fails: the link of the parent directory that the `..` entry was counted for stays. -/
theorem Sys.failed_mkdir_leaks : ∃ (_ : Machine) (s s' : Sys) (e : Errno), s.Reached (fun _ _ => True) ∧
    s.call ⟨1, .mkdir ['/', 'a'] 0o777, [true, true, true, false]⟩ = some (.error e, s') ∧ ¬ s.fs.Kept s'.fs := by
  have hrun : (Sys.start.call ⟨1, .mkdir ['/', 'a'] 0o777, [true, true, true, false]⟩).map
      (fun r => (r.1.isOk, r.2.fs.nlinkOf 1)) = some (false, 3) := by
    decide
  obtain ⟨⟨r, s'⟩, hc, heq⟩ := Option.map_eq_some_iff.mp hrun
  simp only [Prod.mk.injEq] at heq
  cases r with
  | ok a => cases heq.1
  | error e =>
    refine ⟨machine32, _, s', e, .start rfl, hc, fun hk => ?_⟩
    have hn := hk.nlinkOf (i := 1)
    rw [heq.2] at hn
    revert hn
    decide

end

end Usax.Fs
