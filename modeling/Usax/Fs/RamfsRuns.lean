import Usax.Fs.RamfsEffects

/-!
# Runs of system calls on a ramfs

`Sys.done`: a call is a sequence of effects on the inodes, when it meets the conditions that its effects need: new names
are not in use (`NamesOk`), directories stay in their parent directory (`MovesOk`), `mkdir` does not fail late
(`MkdirsOk`). `Sys.Base` holds in every run. A run ends where a call uses what has been freed; `RemovesOk` excludes the calls
that have freed it themselves.

* `Sys.entries_consistent`: the tree and the list of a directory agree in every run whose new names are not in use.
-/

namespace Usax.Fs

open Common Lib Lib.Prog RamfsM Relation

/-! ## Paths -/

section Paths

variable {n : Inodes} {cwd p : VfsPath} {path : List Char} {b : Bool} {h : Held}

theorem fits_getEntry {d : Option InodePtr} {name : List Char} {e : Entry} (he : (n.getEntry d name).dirEntry = some e) :
    (n.getEntry d name).inode = some e.inode := by
  unfold Inodes.getEntry at he ⊢
  split at he
  · cases he
  · split at he
    · cases he
      rfl
    · cases he

theorem VfsPath.Fits.resolve (hc : cwd.Fits) (hp : (n.forest.vfsResolve cwd path b h).1 = .ok p) : p.Fits := by
  intro e he
  obtain ⟨d, name, hf⟩ | hf := Forest.found_vfsResolve hp
  · rw [hf] at he ⊢
    exact fits_getEntry he
  · rw [hf] at he ⊢
    exact hc e he

theorem not_isDir_of_file {i : InodePtr} (hc : cwd.fsPath.type = .dir) (hp : (n.forest.vfsResolve cwd path b h).1 = .ok p)
    (ht : p.fsPath.type = .file) (hi : p.fsPath.inode = some i) : ¬ n.IsDir i := by
  rintro ⟨x, hx, hd⟩
  obtain ⟨d, name, hf⟩ | hf := Forest.found_vfsResolve hp
  · rw [hf] at ht hi
    cases d with
    | none => cases ht
    | some d =>
      simp only [Inodes.forest, Inodes.getEntry] at ht hi
      cases hg : (n.inode d).bind (·.getEntryByName name) with
      | none =>
        rw [hg] at ht
        cases ht
      | some re =>
        rw [hg] at ht hi
        cases hi
        simp [hx, hd] at ht
  · rw [hf, hc] at ht
    cases ht

end Paths

/-! ## Conditions on a call -/

/-- `ramfs_rename` of two paths of the inode `i` fails before it removes what the new path names. -/
def Ramfs.Refuses (s : Ramfs) (i : InodePtr) (p q : VfsPath) : Prop :=
  (∃ dir, s.inode q.fsPath.dirInode = some dir ∧ dir.mode &&& 0o200 ≠ 0o200) ∨
    if q.fsPath.type = .dir then
      p.fsPath.type ≠ .dir ∨ q.fsPath.dirEntry = none ∨ q.lastComp = ['.'] ∨
        ∃ x, s.inode i = some x ∧ (x.numEntries > 2 ∨ x.refCount > 0)
    else s.IsDir i

namespace Sys

def resolve (s : Sys) (pid : Nat) (path : List Char) (resLastSl : Bool) : Option VfsPath :=
  (s.cwd.lookup pid).bind fun cwd => (s.fs.forest.vfsResolve cwd path resLastSl Held.zero).1.toOption

variable [Machine]

/-- A call that makes an entry makes it by a name that the directory does not have. -/
def NamesOk (s : Sys) (ev : Ev) : Prop :=
  match ev.call with
  | .open path fl _ => ∀ p ∈ s.resolve ev.pid path true, p.fsPath.inode = none → fl.creat = true → NameOk s.fs.toInodes p
  | .mkdir path _ => ∀ p ∈ s.resolve ev.pid path false, p.fsPath.inode = none → NameOk s.fs.toInodes p
  | .symlink _ linkpath => ∀ p ∈ s.resolve ev.pid linkpath false, p.fsPath.inode = none → NameOk s.fs.toInodes p
  | .link _ newpath => ∀ p ∈ s.resolve ev.pid newpath false, p.fsPath.inode = none → NameOk s.fs.toInodes p
  | .rename _ newpath => ∀ p ∈ s.resolve ev.pid newpath false, NameOk s.fs.toInodes p
  | _ => True

/-- A directory is renamed by its own name and stays in its parent directory. -/
def MovesOk (s : Sys) (ev : Ev) : Prop :=
  match ev.call with
  | .rename oldpath newpath => ∀ p ∈ s.resolve ev.pid oldpath false, ∀ q ∈ s.resolve ev.pid newpath false,
      MoveOk s.fs.toInodes p q
  | _ => True

/-- What `ramfs_rmdir` looks for in the last component: a path that has found the dot entry of a directory ends in a dot. -/
def DotSeen (p : VfsPath) : Prop := ∀ e ∈ p.fsPath.dirEntry, e.name = ['.'] → p.lastComp = ['.']

/-- A call does not go on with an entry or a directory that it has removed: a dot entry is taken for one, and the two paths
of a `rename` that is not refused have found different entries and are not of one directory. -/
def RemovesOk (s : Sys) (ev : Ev) : Prop :=
  match ev.call with
  | .rmdir path => ∀ p ∈ s.resolve ev.pid path false, DotSeen p
  | .rename oldpath newpath => ∀ p ∈ s.resolve ev.pid oldpath false, ∀ q ∈ s.resolve ev.pid newpath false,
      DotSeen q ∧ ∀ i ∈ q.fsPath.inode, p.fsPath.inode = some i →
        s.fs.Refuses i p q ∨ ¬ s.fs.IsDir i ∧ ¬ p.SameEntry q
  | _ => True

/-- Names are new, and no call goes on with what it has removed. -/
def EntriesOk (s : Sys) (ev : Ev) : Prop := s.NamesOk ev ∧ s.RemovesOk ev

/-- A `mkdir` that makes a directory makes its entry too. -/
def MkdirsOk (s : Sys) (ev : Ev) : Prop :=
  match ev.call with
  | .mkdir path _ => ∀ p ∈ s.resolve ev.pid path false, ¬ { s.fs with allocs := ev.allocs }.MkdirLate p
  | _ => True

end Sys

/-! ## Calls as effects -/

section Calls

variable {k : Care} {s s' : Ramfs} {i : InodePtr} {cwd : VfsPath}

theorem done_retain :
    Spec (ramfsRetainInode i) s (fun _ s' => Done k s s') fun _ s' => Done k s s' := by
  apply Spec.bind
  apply spec_inodeAt
  intro x _
  apply spec_setInodes
  intro s₁ hs₁
  exact done_touch hs₁.inodes hs₁.locked

theorem spec_releaseInode {Q : Bool → Ramfs → Prop} {E : Errno → Ramfs → Prop}
    (h : ∀ s' x, s.inode i = some x → s.Next s' (s.touch i (·.mode) (·.refCount - 1)) 0 →
      Q (decide (x.refCount - 1 = 0)) s') :
    Spec (ramfsReleaseInode i) s Q E := by
  apply Spec.bind
  apply spec_inodeAt
  intro x hx
  apply Spec.bind
  apply spec_setInodes
  intro s₁ hs₁
  apply Spec.pure
  exact h s₁ x hx hs₁

theorem done_releaseInode :
    Spec (ramfsReleaseInode i) s (fun _ s' => Done k s s') fun _ s' => Done k s s' :=
  spec_releaseInode fun _ _ _ hs' => done_touch hs'.inodes hs'.locked

theorem done_close {hd : Handle} (hf : s.Fresh) :
    Spec (vfsClose hd) s (fun _ s' => Done k s s') fun _ s' => Done k s s' := by
  have hrel (s₁ : Ramfs) (h₁ : Done k s s₁) (hi : hd.inode < s.nextInodeNum) :
      Spec (if hd.lf then releaseSubsysFlock hd.inode else pure ()) s₁ (fun _ s' => Done k s s') fun _ s' => Done k s s' := by
    apply Spec.ite
    · intro _
      exact (done_release (hi.trans_le h₁.effects.next_le)).mono (fun _ _ h => h₁.trans h) fun _ _ h => h₁.trans h
    · intro _
      exact Spec.pure h₁
  apply Spec.bind
  apply spec_releaseInode
  intro s₁ x hx hs₁
  have h₁ : Done k s s₁ := done_touch hs₁.inodes hs₁.locked
  have hi : hd.inode < s.nextInodeNum := hf _ ⟨x, hx⟩
  apply Spec.ite
  · intro hlast
    apply Spec.bind
    apply Spec.bind
    apply spec_inodeAt
    intro y hy
    apply Spec.ite
    · intro hl
      apply spec_kfreeInode
      intro s₂ z hs₂ _
      refine hrel s₂ ⟨?_, fun h => (h₁.locks h).mono hs₂.locked (by rw [hs₂.inodes]; rfl)⟩ hi
      rw [hs₂.inodes]
      refine h₁.effects.tail (.free hy hl ?_)
      rw [hs₁.inodes, Inodes.touch, Inodes.inode_modify, if_pos rfl, hx] at hy
      cases hy
      exact of_decide_eq_true hlast
    · intro _
      apply Spec.pure
      exact hrel s₁ h₁ hi
  · intro _
    exact hrel s₁ h₁ hi

theorem done_dup {hd : Handle} (hf : s.Fresh) :
    Spec (vfsDup hd) s (fun _ s' => Done k s s') fun _ s' => Done k s s' := by
  apply Spec.bind
  apply spec_kalloc
  · intro s₁ hs₁ _
    have h₁ : Done k s s₁ := .of_locked (by rw [hs₁.inodes]) hs₁.locked
    apply Spec.bind
    apply Spec.bind
    apply spec_inodeAt
    intro x hx
    have hi : hd.inode < s.nextInodeNum := by
      rw [hs₁.inodes] at hx
      exact hf _ ⟨x, hx⟩
    apply spec_setInodes
    intro s₂ hs₂
    have h₂ : Done k s s₂ := h₁.trans (done_touch hs₂.inodes hs₂.locked)
    apply Spec.ite
    · intro _
      apply Spec.bind
      apply Spec.lookup
      intro lf hlf
      apply Spec.update
      refine h₂.trans (done_lock rfl rfl ?_ (hi.trans_le h₂.effects.next_le))
      intro f hf
      cases hf
      exact Nat.succ_pos _
    · intro _
      exact Spec.pure h₂
  · intro s₁ hs₁ _
    exact .of_locked (by rw [hs₁.inodes]) hs₁.locked

theorem spec_resolved {path : List Char} {b : Bool} {Q : VfsPath → Ramfs → Prop} {E : Errno → Ramfs → Prop}
    (h₁ : ∀ p, (s.forest.vfsResolve cwd path b Held.zero).1 = .ok p → Q p s) (h₂ : ∀ e, E e s) :
    Spec (vfsResolved cwd path b) s Q E := by
  apply Spec.of_eq
  intro r hr
  obtain rfl := Option.some.inj hr
  exact ⟨fun p hp => h₁ p hp, fun e _ => h₂ e⟩

theorem spec_resolved_eq {path : List Char} {b : Bool} {p : VfsPath} {Q : VfsPath → Ramfs → Prop}
    {E : Errno → Ramfs → Prop} (h : (s.forest.vfsResolve cwd path b Held.zero).1 = .ok p) (hQ : Q p s) :
    Spec (vfsResolved cwd path b) s Q E := by
  apply Spec.of_eq
  intro r hr
  obtain rfl := Option.some.inj hr
  refine ⟨fun p' hp' => ?_, fun e he => ?_⟩
  · obtain rfl : p = p' := Except.ok.inj (h.symm.trans hp')
    exact hQ
  · cases h.symm.trans he

end Calls

namespace Sys

variable {k : Care} {s s' : Sys} {ev : Ev} {r : Except Errno Unit} {cwd : VfsPath}

/-- The inodes of handles and of locked programs are below `b`. -/
def Made (s : Sys) (b : Nat) : Prop := (∀ h ∈ s.handles, h.inode < b) ∧ ∀ i ∈ s.execLocks, i < b

theorem Made.mono {b b' : Nat} (h : s.Made b) (hb : b ≤ b') : s.Made b' :=
  ⟨fun x hx => (h.1 x hx).trans_le hb, fun i hi => (h.2 i hi).trans_le hb⟩

structure Base (s : Sys) : Prop where
  fresh : s.fs.Fresh
  locks : s.fs.LocksOk
  cwd : ∀ c ∈ s.cwd, c.2.Fits ∧ c.2.fsPath.type = .dir
  made : s.Made s.fs.nextInodeNum

theorem finish_spec {α : Type} {p : RamfsM α} {allocs : List Bool} {f : Sys → α → Sys} {P : Except Errno Unit → Sys → Prop}
    (h : s.finish p allocs f = some (r, s'))
    (hp : Spec p { s.fs with allocs := allocs } (fun a fs => P (.ok ()) (f { s with fs := fs } a))
      fun e fs => P (.error e) { s with fs := fs }) : P r s' := by
  obtain ⟨⟨a | a, fs⟩, hr, heq⟩ := Option.map_eq_some_iff.mp h
  · cases heq
    exact hp.2 _ _ hr
  · cases heq
    exact hp.1 _ _ hr

structure CallDone (k : Care) (s s' : Sys) : Prop where
  fs : Done k s.fs s'.fs
  cwd : ∀ c ∈ s'.cwd, c.2.Fits ∧ c.2.fsPath.type = .dir
  made : s'.Made s'.fs.nextInodeNum

theorem callDone_fs {fs : Ramfs} (hb : s.Base) (hd : Done k s.fs fs) : CallDone k s { s with fs := fs } :=
  ⟨hd, hb.cwd, hb.made.mono hd.effects.next_le⟩

theorem finish_done {α : Type} {p : RamfsM α} {allocs : List Bool} {f : Sys → α → Sys} (hb : s.Base)
    (h : s.finish p allocs f = some (r, s')) (hf : ∀ t a, (f t a).fs = t.fs ∧ (f t a).cwd = t.cwd)
    (hmade : ∀ t a, t.handles = s.handles → t.execLocks = s.execLocks → (f t a).Made s.fs.nextInodeNum)
    (hp : Spec p { s.fs with allocs := allocs } (fun _ fs => Done k { s.fs with allocs := allocs } fs)
      fun _ fs => Done k { s.fs with allocs := allocs } fs) : CallDone k s s' := by
  refine finish_spec (P := fun _ s' => CallDone k s s') h (hp.mono (fun a fs hd => ?_) fun e fs hd => ?_)
  · obtain ⟨h₁, h₂⟩ := hf { s with fs := fs } a
    refine ⟨by rw [h₁]; exact ⟨hd.effects, hd.locks⟩, by rw [h₂]; exact hb.cwd, ?_⟩
    rw [h₁]
    exact (hmade { s with fs := fs } a rfl rfl).mono hd.effects.next_le
  · exact callDone_fs hb ⟨hd.effects, hd.locks⟩

theorem mem_resolve {pid : Nat} {path : List Char} {b : Bool} {p : VfsPath} (hc : s.cwd.lookup pid = some cwd)
    (hp : (s.fs.forest.vfsResolve cwd path b Held.zero).1 = .ok p) : p ∈ s.resolve pid path b := by
  simp [resolve, hc, hp, Except.toOption]

theorem resolve_eq {pid : Nat} {path : List Char} {b : Bool} {p : VfsPath} (hc : s.cwd.lookup pid = some cwd)
    (hp : p ∈ s.resolve pid path b) : (s.fs.forest.vfsResolve cwd path b Held.zero).1 = .ok p := by
  simp only [resolve, hc, Option.bind_some] at hp
  cases hr : (s.fs.forest.vfsResolve cwd path b Held.zero).1 with
  | error e =>
    rw [hr] at hp
    cases hp
  | ok q =>
    rw [hr] at hp
    cases hp
    rfl

theorem mem_of_lookup {pid : Nat} (hc : s.cwd.lookup pid = some cwd) : ∃ c ∈ s.cwd, c.2 = cwd := by
  obtain ⟨l₁, l₂, h, -⟩ := List.lookup_eq_some_iff.mp hc
  exact ⟨(pid, cwd), by rw [h]; simp, rfl⟩

theorem CallDone.base (hb : s.Base) (h : CallDone k s s') : s'.Base :=
  ⟨h.fs.effects.fresh hb.fresh, h.fs.locks hb.locks, h.cwd, h.made⟩

theorem start_inode {i : InodePtr} {x : Inode} (h : start.fs.inode i = some x) : i = 1 ∧ x = ⟨.dir, 2, 0o40777, some 1, 1,
    2, [⟨['.'], 1⟩, ⟨['.', '.'], 1⟩], [⟨['.'], 1⟩, ⟨['.', '.'], 1⟩], []⟩ := by
  by_cases hi : i = 1
  · subst hi
    cases h
    exact ⟨rfl, rfl⟩
  · simp [start, Inodes.modify, Inodes.create, hi] at h

theorem base_start : start.Base := by
  refine ⟨?_, nofun, ?_, nofun, nofun⟩
  · rintro i ⟨x, hx⟩
    obtain ⟨rfl, -⟩ := start_inode hx
    exact Nat.one_lt_two
  · intro c hc
    obtain rfl := List.mem_singleton.mp hc
    exact ⟨nofun, rfl⟩

variable [Machine]

/-- **A call is a sequence of effects**, of the kinds that its conditions allow. -/
theorem done (hb : s.Base) (ht : k.names → s.fs.Tidy) (hn : k.names → s.NamesOk ev) (hm : k.moves → s.MovesOk ev)
    (hl : k.late ∨ s.MkdirsOk ev) (hc : s.call ev = some (r, s')) : CallDone k s s' := by
  obtain ⟨cwd, hcwd, hc⟩ := Option.bind_eq_some_iff.mp hc
  obtain ⟨hfits, htype⟩ : cwd.Fits ∧ cwd.fsPath.type = .dir := by
    obtain ⟨c, hmem, rfl⟩ := mem_of_lookup hcwd
    exact hb.cwd c hmem
  obtain ⟨pid, call, allocs⟩ := ev
  dsimp only at hc hcwd
  have hmem {path : List Char} {b : Bool} {p : VfsPath}
      (hp : (s.fs.forest.vfsResolve cwd path b Held.zero).1 = .ok p) : p ∈ s.resolve pid path b := mem_resolve hcwd hp
  have hkeep : Done k { s.fs with allocs := allocs } { s.fs with allocs := allocs } := .of_locked .refl rfl
  have hstay : CallDone k s { s with fs := { s.fs with allocs := allocs } } := callDone_fs hb ⟨.refl, id⟩
  have hsame (t : Sys) (_ : Unit) (h₁ : t.handles = s.handles) (h₂ : t.execLocks = s.execLocks) :
      t.Made s.fs.nextInodeNum := by
    unfold Made
    rw [h₁, h₂]
    exact hb.made
  cases call with
  | «open» path fl mode =>
    simp only [callFrom] at hc
    refine finish_spec (P := fun _ s' => CallDone k s s') hc ?_
    apply Spec.bind
    refine spec_resolved (fun p hp => ?_) fun _ => hstay
    apply Spec.bind
    refine Spec.failIf (fun _ => hstay) fun _ => ?_
    refine Spec.mono (done_open (k := k) (s := { s.fs with allocs := allocs }) hb.fresh hb.locks (hfits.resolve hp)
      fun hk => hn hk p (hmem hp)) ?_ ?_
    · rintro h s₁ ⟨h₁, hi⟩
      refine ⟨⟨h₁.effects, h₁.locks⟩, hb.cwd, ?_, (hb.made.mono h₁.effects.next_le).2⟩
      intro h' hh'
      rcases List.mem_cons.mp hh' with rfl | hh'
      · exact hi
      · exact (hb.made.mono h₁.effects.next_le).1 h' hh'
    · intro e s₁ h₁
      exact callDone_fs hb ⟨h₁.effects, h₁.locks⟩
  | close h =>
    simp only [callFrom] at hc
    split_ifs at hc
    refine finish_done hb hc (fun _ _ => ⟨rfl, rfl⟩) ?_ (done_close hb.fresh)
    intro t _ h₁ h₂
    refine ⟨fun x hx => hb.made.1 x ?_, (hsame t () h₁ h₂).2⟩
    rw [← h₁]
    exact List.mem_of_mem_erase hx
  | dup h =>
    simp only [callFrom] at hc
    split_ifs at hc
    rename_i hh
    refine finish_done hb hc (fun _ _ => ⟨rfl, rfl⟩) ?_ (done_dup hb.fresh)
    intro t _ h₁ h₂
    refine ⟨fun x hx => ?_, (hsame t () h₁ h₂).2⟩
    rcases List.mem_cons.mp hx with rfl | hx
    · exact hb.made.1 _ hh
    · exact (hsame t () h₁ h₂).1 x hx
  | mkdir path mode =>
    simp only [callFrom] at hc
    refine finish_done hb hc (fun _ _ => ⟨rfl, rfl⟩) hsame ?_
    apply Spec.bind
    refine spec_resolved (fun p hp => ?_) fun _ => hkeep
    apply Spec.bind
    refine Spec.failIf (fun _ => hkeep) fun _ => ?_
    exact done_mkdir hb.fresh (hfits.resolve hp) (fun hk => hn hk p (hmem hp)) fun hlate =>
      hl.resolve_right fun h => h p (hmem hp) hlate
  | rmdir path =>
    simp only [callFrom] at hc
    refine finish_done hb hc (fun _ _ => ⟨rfl, rfl⟩) hsame ?_
    apply Spec.bind
    refine spec_resolved (fun p hp => ?_) fun _ => hkeep
    apply Spec.bind
    refine Spec.failIf (fun _ => hkeep) fun _ => ?_
    exact done_rmdir (hfits.resolve hp)
  | unlink path =>
    simp only [callFrom] at hc
    refine finish_done hb hc (fun _ _ => ⟨rfl, rfl⟩) hsame ?_
    apply Spec.bind
    refine spec_resolved (fun p hp => ?_) fun _ => hkeep
    apply Spec.bind
    refine Spec.failIf (fun _ => hkeep) fun _ => ?_
    exact done_unlink (hfits.resolve hp)
  | symlink target linkpath =>
    simp only [callFrom] at hc
    refine finish_done hb hc (fun _ _ => ⟨rfl, rfl⟩) hsame ?_
    apply Spec.bind
    refine spec_resolved (fun p hp => ?_) fun _ => hkeep
    apply Spec.bind
    refine Spec.failIf (fun _ => hkeep) fun hi => ?_
    exact done_symlink (hfits.resolve hp) (not_not.mp hi) fun hk => hn hk p (hmem hp) (not_not.mp hi)
  | link oldpath newpath =>
    simp only [callFrom] at hc
    refine finish_done hb hc (fun _ _ => ⟨rfl, rfl⟩) hsame ?_
    apply Spec.bind
    refine spec_resolved (fun p hp => ?_) fun _ => hkeep
    apply Spec.bind
    refine Spec.failIf (fun _ => hkeep) fun _ => ?_
    apply Spec.bind
    refine spec_resolved (fun q hq => ?_) fun _ => hkeep
    exact done_link (fun ht i hi => not_isDir_of_file htype hp ht hi) (hfits.resolve hq) fun hk => hn hk q (hmem hq)
  | rename oldpath newpath =>
    simp only [callFrom] at hc
    refine finish_done hb hc (fun _ _ => ⟨rfl, rfl⟩) hsame ?_
    apply Spec.bind
    refine spec_resolved (fun p hp => ?_) fun _ => hkeep
    apply Spec.bind
    refine Spec.failIf (fun _ => hkeep) fun _ => ?_
    apply Spec.bind
    refine spec_resolved (fun q hq => ?_) fun _ => hkeep
    exact done_rename ht (hfits.resolve hp) (hfits.resolve hq) (fun hk => hn hk q (hmem hq)) fun hk =>
      hm hk p (hmem hp) q (hmem hq)
  | chmod path mode =>
    simp only [callFrom] at hc
    refine finish_done hb hc (fun _ _ => ⟨rfl, rfl⟩) hsame ?_
    apply Spec.bind
    refine spec_resolved (fun p hp => ?_) fun _ => hkeep
    apply Spec.bind
    refine Spec.failIf (fun _ => hkeep) fun _ => ?_
    apply Spec.bind
    apply Spec.deref
    intro i _
    apply Spec.bind
    apply spec_inodeAt
    intro x _
    apply Spec.bind
    refine Spec.failIf (fun _ => hkeep) fun _ => ?_
    apply spec_setInodes
    intro s₁ hs₁
    exact done_touch hs₁.inodes hs₁.locked
  | chdir path =>
    simp only [callFrom] at hc
    refine finish_spec (P := fun _ s' => CallDone k s s') hc ?_
    apply Spec.bind
    refine spec_resolved (fun p hp => ?_) fun _ => hstay
    apply Spec.bind
    refine Spec.failIf (fun _ => hstay) fun _ => ?_
    apply Spec.bind
    refine Spec.failIf (fun _ => hstay) fun hpt => ?_
    apply Spec.bind
    apply Spec.deref
    intro i _
    apply Spec.bind
    apply done_releaseInode.mono
    · intro _ s₁ h₁
      apply Spec.bind
      apply Spec.deref
      intro j _
      apply Spec.bind
      apply done_retain.mono
      · intro _ s₂ h₂
        apply Spec.pure
        refine ⟨⟨(h₁.trans h₂).effects, (h₁.trans h₂).locks⟩, ?_, hb.made.mono (h₁.trans h₂).effects.next_le⟩
        intro c hc
        rcases List.mem_cons.mp hc with rfl | hc
        · exact ⟨hfits.resolve hp, not_not.mp hpt⟩
        · exact hb.cwd c (List.mem_of_mem_eraseP hc)
      · intro e s₂ h₂
        exact callDone_fs hb ⟨(h₁.trans h₂).effects, (h₁.trans h₂).locks⟩
    · intro e s₁ h₁
      exact callDone_fs hb ⟨h₁.effects, h₁.locks⟩
  | fork child =>
    simp only [callFrom] at hc
    split_ifs at hc
    refine finish_spec (P := fun _ s' => CallDone k s s') hc ?_
    apply Spec.bind
    apply Spec.deref
    intro i _
    apply done_retain.mono
    · intro _ s₁ h₁
      refine ⟨⟨h₁.effects, h₁.locks⟩, ?_, hb.made.mono h₁.effects.next_le⟩
      intro c hc
      rcases List.mem_cons.mp hc with rfl | hc
      · exact ⟨hfits, htype⟩
      · exact hb.cwd c hc
    · intro e s₁ h₁
      exact callDone_fs hb ⟨h₁.effects, h₁.locks⟩
  | exit =>
    simp only [callFrom] at hc
    refine finish_spec (P := fun _ s' => CallDone k s s') hc ?_
    apply Spec.bind
    apply Spec.deref
    intro i _
    apply done_releaseInode.mono
    · intro _ s₁ h₁
      exact ⟨⟨h₁.effects, h₁.locks⟩, fun c hc => hb.cwd c (List.mem_of_mem_eraseP hc),
        hb.made.mono h₁.effects.next_le⟩
    · intro e s₁ h₁
      exact callDone_fs hb ⟨h₁.effects, h₁.locks⟩
  | lockExec h =>
    simp only [callFrom] at hc
    split_ifs at hc
    rename_i hh
    refine finish_done hb hc (fun _ _ => ⟨rfl, rfl⟩) ?_ (done_acquire (hb.made.1 h hh))
    intro t _ h₁ h₂
    refine ⟨(hsame t () h₁ h₂).1, fun i hi => ?_⟩
    rcases List.mem_cons.mp hi with rfl | hi
    · exact hb.made.1 h hh
    · exact (hsame t () h₁ h₂).2 i hi
  | unlockExec i =>
    simp only [callFrom] at hc
    split_ifs at hc
    rename_i hi
    refine finish_done hb hc (fun _ _ => ⟨rfl, rfl⟩) ?_ (done_release (hb.made.2 i hi))
    intro t _ h₁ h₂
    refine ⟨(hsame t () h₁ h₂).1, fun j hj => hb.made.2 j ?_⟩
    rw [← h₂]
    exact List.mem_of_mem_erase hj

theorem reached_execs {ok : Sys → Ev → Prop} {evs : List Ev} (ha : Lib.Along exec ok start evs)
    (he : Lib.execs exec start evs = some s) : Reached ok s := by
  have h₀ : Reached ok start := .start rfl
  exact Lib.Reached.execs h₀ ha he

theorem Reached.base {ok : Sys → Ev → Prop} (h : Reached ok s) : s.Base := by
  refine Lib.Reached.invariant (fun s hs => ?_) (fun s ev s' hb _ he => ?_) h
  · rw [hs]
    exact base_start
  · obtain ⟨⟨r, t⟩, hc, rfl⟩ := Option.map_eq_some_iff.mp he
    exact (done (k := ⟨False, False, True⟩) hb nofun nofun nofun (.inl trivial) hc).base hb

/-! ## Trees and lists of entries -/

theorem Reached.tidy (h : Reached EntriesOk s) : s.fs.Tidy := by
  have : s.Base ∧ s.fs.Tidy := by
    refine Lib.Reached.invariant (I := fun s => s.Base ∧ s.fs.Tidy) (fun s hs => ?_) (fun s ev s' hb hok he => ?_) h
    · subst hs
      refine ⟨base_start, fun i x hx => ?_⟩
      obtain ⟨-, rfl⟩ := start_inode hx
      exact ⟨rfl, by decide, rfl⟩
    · obtain ⟨⟨r, t⟩, hc, rfl⟩ := Option.map_eq_some_iff.mp he
      have hd := done (k := ⟨True, False, True⟩) hb.1 (fun _ => hb.2) (fun _ => hok.1) nofun (.inl trivial) hc
      exact ⟨hd.base hb.1, hd.fs.effects.tidy trivial hb.2 hb.1.fresh⟩
  exact this.2

end Sys

/-- The tree and the list have the same entries, no two of them by the same name, each is found by its name, and they are
counted. -/
def Inode.EntriesConsistent (x : Inode) : Prop :=
  (∀ e, e ∈ x.entriesTree ↔ e ∈ x.entriesList) ∧ (x.entriesList.map (·.name)).Nodup ∧
    (∀ e ∈ x.entriesList, x.getEntryByName e.name = some e) ∧ x.numEntries = x.entriesList.length

theorem find_name {es : List Entry} {e : Entry} (hn : (es.map (·.name)).Nodup) (he : e ∈ es) :
    es.find? (fun e' => e'.name = e.name) = some e := by
  induction es with
  | nil => cases he
  | cons a es ih =>
    obtain ⟨ha, hn⟩ := List.nodup_cons.mp hn
    rcases List.mem_cons.mp he with rfl | he
    · simp
    · have hne : a.name ≠ e.name := fun h => ha (List.mem_map.mpr ⟨e, he, h.symm⟩)
      rw [List.find?_cons_of_neg (by simpa using hne), ih hn he]

theorem Inode.Tidy.entriesConsistent {x : Inode} (h : x.Tidy) : x.EntriesConsistent := by
  refine ⟨fun e => by rw [h.tree], h.nodup, fun e he => ?_, h.num⟩
  unfold Inode.getEntryByName
  rw [h.tree]
  exact find_name h.nodup he

section

variable [Machine]

instance {n : Inodes} {i : InodePtr} : Decidable (n.IsDir i) :=
  inferInstanceAs (Decidable (∃ x ∈ n.inode i, x.type = .dir))

instance {s : Ramfs} {i : InodePtr} {p q : VfsPath} : Decidable (s.Refuses i p q) :=
  inferInstanceAs (Decidable ((∃ dir ∈ s.inode q.fsPath.dirInode, _) ∨
    if q.fsPath.type = .dir then _ ∨ _ ∨ _ ∨ ∃ x ∈ s.inode i, _ else s.IsDir i))

instance {n : Inodes} {p : VfsPath} : Decidable (NameOk n p) := inferInstanceAs (Decidable (∀ e ∈ n.ents _, _ → _))

instance : (s : Sys) → (ev : Ev) → Decidable (s.NamesOk ev)
  | s, ⟨pid, .open path _ _, _⟩ => inferInstanceAs (Decidable (∀ p ∈ s.resolve pid path true, _ → _ → NameOk _ p))
  | s, ⟨pid, .mkdir path _, _⟩ => inferInstanceAs (Decidable (∀ p ∈ s.resolve pid path false, _ → NameOk _ p))
  | s, ⟨pid, .symlink _ path, _⟩ => inferInstanceAs (Decidable (∀ p ∈ s.resolve pid path false, _ → NameOk _ p))
  | s, ⟨pid, .link _ path, _⟩ => inferInstanceAs (Decidable (∀ p ∈ s.resolve pid path false, _ → NameOk _ p))
  | s, ⟨pid, .rename _ path, _⟩ => inferInstanceAs (Decidable (∀ p ∈ s.resolve pid path false, NameOk _ p))
  | _, ⟨_, .close _, _⟩ | _, ⟨_, .dup _, _⟩ | _, ⟨_, .rmdir _, _⟩ | _, ⟨_, .unlink _, _⟩ | _, ⟨_, .chmod _ _, _⟩
  | _, ⟨_, .chdir _, _⟩ | _, ⟨_, .fork _, _⟩ | _, ⟨_, .exit, _⟩ | _, ⟨_, .lockExec _, _⟩ | _, ⟨_, .unlockExec _, _⟩ =>
    .isTrue trivial

instance {p : VfsPath} : Decidable (Sys.DotSeen p) := inferInstanceAs (Decidable (∀ e ∈ p.fsPath.dirEntry, _ → _))

instance : (s : Sys) → (ev : Ev) → Decidable (s.RemovesOk ev)
  | s, ⟨pid, .rmdir path, _⟩ => inferInstanceAs (Decidable (∀ p ∈ s.resolve pid path false, Sys.DotSeen p))
  | s, ⟨pid, .rename old new, _⟩ =>
    inferInstanceAs (Decidable (∀ p ∈ s.resolve pid old false, ∀ q ∈ s.resolve pid new false,
      Sys.DotSeen q ∧ ∀ i ∈ q.fsPath.inode, _ → s.fs.Refuses i p q ∨ _))
  | _, ⟨_, .open _ _ _, _⟩ | _, ⟨_, .close _, _⟩ | _, ⟨_, .dup _, _⟩ | _, ⟨_, .mkdir _ _, _⟩ | _, ⟨_, .unlink _, _⟩
  | _, ⟨_, .symlink _ _, _⟩ | _, ⟨_, .link _ _, _⟩ | _, ⟨_, .chmod _ _, _⟩ | _, ⟨_, .chdir _, _⟩ | _, ⟨_, .fork _, _⟩
  | _, ⟨_, .exit, _⟩ | _, ⟨_, .lockExec _, _⟩ | _, ⟨_, .unlockExec _, _⟩ => .isTrue trivial

instance (s : Sys) (ev : Ev) : Decidable (s.EntriesOk ev) := inferInstanceAs (Decidable (_ ∧ _))

/-- **In every run in which no new entry gets a name that its directory has and no call goes on with what it has removed,
the entries of a directory are consistent.** -/
theorem Sys.entries_consistent {s : Sys} (h : s.Reached EntriesOk) {d : InodePtr} {x : Inode}
    (hd : s.fs.inode d = some x) : x.EntriesConsistent := (h.tidy d x hd).entriesConsistent

/-- Files, a directory and a symlink are made, one file gets another name and one is opened through the symlink. -/
def entriesRun : List Ev :=
  let creat : OpenFlags := ⟨true, false, true, false, false, false⟩
  [⟨1, .mkdir ['/', 'd'] 0o777, []⟩, ⟨1, .chdir ['d'], []⟩, ⟨1, .open ['f'] creat 0o777, []⟩,
    ⟨1, .symlink ['d', '/', 'f'] ['/', 'l'], []⟩, ⟨1, .open ['/', 'l'] creat 0o777, []⟩,
    ⟨1, .rename ['f'] ['.', '.', '/', 'g'], []⟩]

end

theorem Sys.entries_consistent_run : ∃ (_ : Machine) (s : Sys) (x : Inode), s.Reached EntriesOk ∧ s.fs.inode 1 = some x ∧
    x.entriesList.length = 5 ∧ x.EntriesConsistent := by
  let M := machine32
  have hrun : ((Lib.execs Sys.exec Sys.start entriesRun).bind (·.fs.inode 1)).map (·.entriesList.length) = some 5 := by
    decide +kernel
  obtain ⟨x, hx, hlen⟩ := Option.map_eq_some_iff.mp hrun
  obtain ⟨s, hs, hx⟩ := Option.bind_eq_some_iff.mp hx
  have hr : s.Reached EntriesOk := Sys.reached_execs (by decide +kernel) hs
  exact ⟨M, s, x, hr, hx, hlen, Sys.entries_consistent hr hx⟩

/-- A symlink in a directory points to a name in the same directory that is not there, and is opened with `O_CREAT`: the
new file gets the name of the symlink. -/
theorem Sys.entries_inconsistent : ∃ (_ : Machine) (s : Sys) (x : Inode), s.Reached (fun _ _ => True) ∧
    s.fs.inode 1 = some x ∧ ¬ x.EntriesConsistent := by
  let M := machine32
  let creat : OpenFlags := ⟨true, false, true, false, false, false⟩
  have hrun : ((Lib.execs Sys.exec Sys.start
      [⟨1, .symlink ['m'] ['/', 'l'], []⟩, ⟨1, .open ['/', 'l'] creat 0o777, []⟩]).bind (·.fs.inode 1)).map
      (fun x => (x.entriesList.map (·.name))) = some [['.'], ['.', '.'], ['l'], ['l']] := by
    decide
  obtain ⟨x, hx, hnames⟩ := Option.map_eq_some_iff.mp hrun
  obtain ⟨s, hs, hx⟩ := Option.bind_eq_some_iff.mp hx
  refine ⟨M, s, x, Sys.reached_execs (by decide) hs, hx, ?_⟩
  rintro ⟨-, hn, -⟩
  rw [hnames] at hn
  revert hn
  decide

end Usax.Fs
