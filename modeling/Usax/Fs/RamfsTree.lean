import Usax.Fs.RamfsLinks

/-!
# The directories are a tree

`Shape` says what the entries of a ramfs are: each directory has its own dot entries, and every directory but the root
has one more entry, in its parent directory. `Good` adds the counts of links to it.

* `Effect.good`: each effect keeps `Good`, when names are new and directories stay in their parent directory.
-/

namespace Usax.Fs

open Common Lib Relation

/-- Not one of the dot entries. -/
def Entry.Proper (e : Entry) : Prop := e.name ≠ ['.'] ∧ e.name ≠ ['.', '.']

instance {e : Entry} : Decidable e.Proper := inferInstanceAs (Decidable (_ ∧ _))

namespace Inodes

/-- The directories are a tree with the root at its top: a directory other than the root has one entry that is no dot entry,
and this entry is in its parent, which was made before it. -/
structure Shape (n : Inodes) : Prop where
  /-- Only directories have entries. -/
  plain : ∀ i, ¬ n.IsDir i → n.ents i = []
  /-- No entry leads to a free inode. -/
  target : ∀ d, ∀ e ∈ n.ents d, n.Live e.inode
  root : n.IsDir n.root
  rootParent : n.parentOf n.root = some n.root
  parent : ∀ d, n.IsDir d → d ≠ n.root → ∃ p, n.parentOf d = some p ∧ n.IsDir p ∧ p < d
  dot : ∀ d, n.IsDir d → ⟨['.'], d⟩ ∈ n.ents d
  dotdot : ∀ d p, n.IsDir d → n.parentOf d = some p → ⟨['.', '.'], p⟩ ∈ n.ents d
  sub : ∀ d, ∀ e ∈ n.ents d, e.Proper → n.IsDir e.inode → e.inode ≠ n.root ∧ n.parentOf e.inode = some d
  named : ∀ d p, n.IsDir d → d ≠ n.root → n.parentOf d = some p →
    (n.ents p).countP (fun e => e.Proper ∧ e.inode = d) = 1

/-- The invariant of the runs: the shape, and counts of links that are right up to `leak`, the links that failed calls have
left behind. -/
structure Good (leak : InodePtr → Nat) (n : Inodes) : Prop where
  fresh : n.Fresh
  tidy : n.Tidy
  shape : n.Shape
  count : n.Counted leak
  leak : ∀ i, n.nextInodeNum ≤ i → leak i = 0

variable {n n' : Inodes} {i j d : InodePtr} {e : Entry} {x : Inode} {leak : InodePtr → Nat}

/-! ## Facts about the shape -/

theorem Shape.isDir_of_mem (h : n.Shape) (he : e ∈ n.ents d) : n.IsDir d := by
  by_contra hd
  rw [h.plain d hd] at he
  cases he

theorem Tidy.eq_of_name {e' : Entry} (h : n.Tidy) (he : e ∈ n.ents d) (he' : e' ∈ n.ents d) (hn : e.name = e'.name) :
    e = e' :=
  List.inj_on_of_nodup_map h.nodup he he' hn

theorem Good.refs_eq_zero_of_nlink (h : n.Good leak) (hx : n.inode i = some x) (hl : x.nlink = 0) : n.refs i = 0 := by
  have hc := h.count i ⟨x, hx⟩
  have hn : n.nlinkOf i = 0 := by simp [nlinkOf, hx, hl]
  omega

/-- A directory has its own dot entry, so only files and symlinks get to a count of 0. -/
theorem Good.not_isDir_of_nlink (h : n.Good leak) (hx : n.inode i = some x) (hl : x.nlink = 0) : ¬ n.IsDir i := by
  intro hd
  have hpos := refs_pos h.fresh (h.shape.dot i hd)
  have hzero := h.refs_eq_zero_of_nlink hx hl
  exact hpos.ne' hzero

theorem Good.refs_next (h : n.Good leak) : n.refs n.nextInodeNum = 0 := by
  apply refs_eq_zero
  intro d e he
  exact (h.shape.target d e he).ne_next h.fresh.next

/-- The dot entries lead to directories. -/
theorem Good.proper_of_not_isDir (h : n.Good leak) (he : e ∈ n.ents d) (hi : ¬ n.IsDir e.inode) : e.Proper := by
  have hd := h.shape.isDir_of_mem he
  refine ⟨fun hname => hi ?_, fun hname => hi ?_⟩
  · rw [h.tidy.eq_of_name he (h.shape.dot d hd) hname]
    exact hd
  · by_cases hroot : d = n.root
    · subst hroot
      rw [h.tidy.eq_of_name he (h.shape.dotdot _ _ hd h.shape.rootParent) hname]
      exact hd
    · obtain ⟨p, hp, hp', -⟩ := h.shape.parent d hd hroot
      rw [h.tidy.eq_of_name he (h.shape.dotdot d p hd hp) hname]
      exact hp'

theorem Good.ne_of_nlink (h : n.Good leak) (hx : n.inode i = some x) (hl : x.nlink = 0) (he : e ∈ n.ents d) :
    e.inode ≠ i := by
  rintro rfl
  exact (refs_pos h.fresh he).ne' (h.refs_eq_zero_of_nlink hx hl)

theorem countP_proper_erase {es : List Entry} (hne : e.inode ≠ i) :
    (es.erase e).countP (fun e => e.Proper ∧ e.inode = i) = es.countP fun e => e.Proper ∧ e.inode = i := by
  by_cases he : e ∈ es
  · rw [(List.perm_cons_erase he).countP_eq, List.countP_cons_of_neg (by simp [hne])]
  · rw [List.erase_of_not_mem he]

/-- A change that keeps the directories, their parents and the dot entries keeps the shape, if each directory has as many
proper entries in its parent as before. -/
theorem Shape.of_ents (h : n.Shape) (hroot : n'.root = n.root) (hdir : ∀ j, n'.IsDir j ↔ n.IsDir j)
    (hpar : ∀ j, n.IsDir j → n'.parentOf j = n.parentOf j) (hplain : ∀ j, ¬ n.IsDir j → n'.ents j = [])
    (htarget : ∀ d, ∀ e ∈ n'.ents d, n'.Live e.inode) (hdots : ∀ d, ∀ e ∈ n.ents d, ¬ e.Proper → e ∈ n'.ents d)
    (hsub : ∀ d, ∀ e ∈ n'.ents d, e.Proper → n.IsDir e.inode → e.inode ≠ n.root ∧ n.parentOf e.inode = some d)
    (hnamed : ∀ d p, n.IsDir d → n.parentOf d = some p → (n'.ents p).countP (fun e => e.Proper ∧ e.inode = d) =
      (n.ents p).countP fun e => e.Proper ∧ e.inode = d) : n'.Shape where
  plain i hi := hplain i fun hd => hi ((hdir i).mpr hd)
  target := htarget
  root := by
    rw [hroot]
    exact (hdir _).mpr h.root
  rootParent := by
    rw [hroot, hpar _ h.root]
    exact h.rootParent
  parent d hd hne := by
    have hd := (hdir d).mp hd
    obtain ⟨p, hp, hp', hlt⟩ := h.parent d hd (hroot ▸ hne)
    exact ⟨p, (hpar d hd).trans hp, (hdir p).mpr hp', hlt⟩
  dot d hd := hdots d _ (h.dot d ((hdir d).mp hd)) (by simp [Entry.Proper])
  dotdot d p hd hp := by
    have hd := (hdir d).mp hd
    exact hdots d _ (h.dotdot d p hd ((hpar d hd).symm.trans hp)) (by simp [Entry.Proper])
  sub d e he hprop hd := by
    have hd := (hdir _).mp hd
    rw [hroot, hpar _ hd]
    exact hsub d e he hprop hd
  named d p hd hne hp := by
    have hd := (hdir d).mp hd
    have hp := (hpar d hd).symm.trans hp
    rw [hnamed d p hd hp]
    exact h.named d p hd (hroot ▸ hne) hp

theorem Shape.congr (h : n.Shape) (hroot : n'.root = n.root) (hents : ∀ j, n'.ents j = n.ents j)
    (hdir : ∀ j, n'.IsDir j ↔ n.IsDir j) (hlive : ∀ d, ∀ e ∈ n.ents d, n'.Live e.inode)
    (hpar : ∀ j, n.IsDir j → n'.parentOf j = n.parentOf j) : n'.Shape := by
  refine h.of_ents hroot hdir hpar (fun j hj => ?_) (fun d e he => ?_) (fun d e he _ => ?_) (fun d e he => ?_)
    fun d p _ _ => by rw [hents]
  · rw [hents]
    exact h.plain j hj
  · exact hlive d e (hents d ▸ he)
  · rw [hents]
    exact he
  · exact h.sub d e (hents d ▸ he)

/-! ## Files and symlinks -/

theorem Shape.touch {mode refCount : Inode → Nat} (h : n.Shape) : (n.touch i mode refCount).Shape :=
  h.congr rfl (fun _ => ents_touch) (fun _ => isDir_touch) (fun d e he => live_touch.mpr (h.target d e he))
    fun _ _ => parentOf_touch

theorem Shape.new (h : n.Shape) (hf : n.Fresh) (hx : x.Blank) (hx' : x.type ≠ .dir) : (n.new x).Shape := by
  have hnext : ¬ n.IsDir n.nextInodeNum := fun hd => hd.live.ne_next hf.next rfl
  refine h.congr rfl (fun j => ?_) (fun j => ?_) (fun d e he => live_new.mpr (.inr (h.target d e he))) fun j hj => ?_
  · rw [ents_new]
    split_ifs with hj
    · rw [hx.entriesList, hj, h.plain _ hnext]
    · rfl
  · rw [isDir_new]
    split_ifs with hj
    · rw [hj]
      exact iff_of_false hx' hnext
    · rfl
  · rw [parentOf_new, if_neg (hj.live.ne_next hf.next)]

theorem Shape.link (h : n.Shape) (hd : n.IsDir d) (he : n.Live e.inode) (hi : ¬ n.IsDir e.inode) :
    (n.link d e).Shape := by
  have hmem {j : InodePtr} {e' : Entry} (he' : e' ∈ (n.link d e).ents j) : e' ∈ n.ents j ∨ e' = e := by
    rw [ents_link hd.live] at he'
    split_ifs at he'
    · simpa using he'
    · exact .inl (by simpa using he')
  refine h.of_ents rfl (fun _ => isDir_link) (fun _ _ => parentOf_link) (fun j hj => ?_) (fun j e' he' => ?_)
    (fun j e' he' _ => ?_) (fun j e' he' hprop hdir => ?_) fun j p hj hp => ?_
  · have hjd : j ≠ d := fun hjd => hj (hjd ▸ hd)
    rw [ents_link hd.live, if_neg hjd, h.plain j hj, List.append_nil]
  · rw [live_link]
    rcases hmem he' with he' | rfl
    · exact h.target j e' he'
    · exact he
  · rw [ents_link hd.live]
    exact List.mem_append_left _ he'
  · rcases hmem he' with he' | rfl
    · exact h.sub j e' he' hprop hdir
    · exact absurd hdir hi
  · have hne : e.inode ≠ j := fun hij => hi (hij ▸ hj)
    rw [ents_link hd.live, List.countP_append]
    split_ifs <;> simp [hne]

theorem Good.shape_unlink (h : n.Good leak) (he : e ∈ n.ents d) (hi : ¬ n.IsDir e.inode) : (n.unlink d e).Shape := by
  have hprop := h.proper_of_not_isDir he hi
  have hmem {j : InodePtr} {e' : Entry} (he' : e' ∈ (n.unlink d e).ents j) : e' ∈ n.ents j := by
    rw [ents_unlink] at he'
    split_ifs at he'
    · exact List.mem_of_mem_erase he'
    · exact he'
  refine h.shape.of_ents rfl (fun _ => isDir_unlink) (fun _ _ => parentOf_unlink) (fun j hj => ?_) (fun j e' he' => ?_)
    (fun j e' he' hdot => ?_) (fun j e' he' => h.shape.sub j e' (hmem he')) fun j p hj hp => ?_
  · rw [ents_unlink, h.shape.plain j hj]
    simp
  · exact live_unlink.mpr (h.shape.target j e' (hmem he'))
  · rw [ents_unlink]
    have hne : e' ≠ e := by
      rintro rfl
      exact hdot hprop
    split_ifs
    · exact (List.mem_erase_of_ne hne).mpr he'
    · exact he'
  · have hne : e.inode ≠ j := fun hij => hi (hij ▸ hj)
    rw [ents_unlink]
    split_ifs
    · exact countP_proper_erase hne
    · rfl

theorem Good.shape_free (h : n.Good leak) (hx : n.inode i = some x) (hl : x.nlink = 0) : (n.free i).Shape := by
  have hi := h.not_isDir_of_nlink hx hl
  refine h.shape.congr rfl (fun j => ?_) (fun j => ?_) (fun d e he => ?_) fun j hj => ?_
  · rw [ents_free]
    split_ifs with hj
    · rw [hj, h.shape.plain i hi]
    · rfl
  · rw [isDir_free]
    refine and_iff_right_of_imp ?_
    rintro hj rfl
    exact hi hj
  · exact live_free.mpr ⟨h.ne_of_nlink hx hl he, h.shape.target d e he⟩
  · apply parentOf_free
    rintro rfl
    exact hi hj

/-! ## Directories -/

theorem Shape.proper_of_noName {name : List Char} (h : n.Shape) (hd : n.IsDir d) (hn : n.NoName d name) :
    Entry.Proper ⟨name, i⟩ := by
  refine ⟨fun hname => hn _ (h.dot d hd) hname.symm, ?_⟩
  intro hname
  by_cases hroot : d = n.root
  · subst hroot
    exact hn _ (h.dotdot _ _ hd h.rootParent) hname.symm
  · obtain ⟨p, hp, -⟩ := h.parent d hd hroot
    exact hn _ (h.dotdot d p hd hp) hname.symm

/-- The new directory is a leaf: its number is larger than that of its parent, and its one proper entry is the new one. -/
theorem Good.shape_mkdir {name : List Char} {mode : Nat} (h : n.Good leak) (hd : n.IsDir d) (hn : n.NoName d name) :
    ((n.newDir mode d).link d ⟨name, n.nextInodeNum⟩).Shape := by
  have hnew {j : InodePtr} (hj : n.Live j) : j ≠ n.nextInodeNum := hj.ne_next h.fresh.next
  have hprop : Entry.Proper ⟨name, n.nextInodeNum⟩ := h.shape.proper_of_noName hd hn
  have hdir {j : InodePtr} : ((n.newDir mode d).link d ⟨name, n.nextInodeNum⟩).IsDir j ↔
      j = n.nextInodeNum ∨ n.IsDir j := isDir_link.trans isDir_newDir
  have hpar {j : InodePtr} : ((n.newDir mode d).link d ⟨name, n.nextInodeNum⟩).parentOf j =
      if j = n.nextInodeNum then some d else n.parentOf j := parentOf_link.trans parentOf_newDir
  have hents₀ : ((n.newDir mode d).link d ⟨name, n.nextInodeNum⟩).ents n.nextInodeNum =
      [⟨['.'], n.nextInodeNum⟩, ⟨['.', '.'], d⟩] := by
    rw [ents_link (live_newDir.mpr (.inr hd.live)), ents_newDir, if_pos rfl, if_neg (hnew hd.live).symm, List.append_nil]
  have hents {j : InodePtr} (hj : j ≠ n.nextInodeNum) : ((n.newDir mode d).link d ⟨name, n.nextInodeNum⟩).ents j =
      n.ents j ++ if j = d then [⟨name, n.nextInodeNum⟩] else [] := by
    rw [ents_link (live_newDir.mpr (.inr hd.live)), ents_newDir, if_neg hj]
  have hmem {j : InodePtr} {e : Entry} (hj : j ≠ n.nextInodeNum)
      (he : e ∈ ((n.newDir mode d).link d ⟨name, n.nextInodeNum⟩).ents j) :
      e ∈ n.ents j ∨ j = d ∧ e = ⟨name, n.nextInodeNum⟩ := by
    rw [hents hj] at he
    split_ifs at he with hjd
    · simpa [hjd] using he
    · exact .inl (by simpa using he)
  constructor
  case plain =>
    intro i hi
    obtain ⟨hi₁, hi₂⟩ := not_or.mp fun hor => hi (hdir.mpr hor)
    rw [hents hi₁, if_neg (fun hid : i = d => hi₂ (hid ▸ hd)), h.shape.plain i hi₂, List.append_nil]
  case target =>
    intro j e he
    rw [live_link, live_newDir]
    by_cases hj : j = n.nextInodeNum
    · rw [hj, hents₀] at he
      simp only [List.mem_cons, List.not_mem_nil, or_false] at he
      rcases he with rfl | rfl
      · exact .inl rfl
      · exact .inr hd.live
    · rcases hmem hj he with he | ⟨-, rfl⟩
      · exact .inr (h.shape.target j e he)
      · exact .inl rfl
  case root => exact hdir.mpr (.inr h.shape.root)
  case rootParent =>
    rw [hpar]
    exact (if_neg (hnew h.shape.root.live)).trans h.shape.rootParent
  case parent =>
    intro j hj hroot
    rw [hpar]
    split_ifs with hj'
    · exact ⟨d, rfl, hdir.mpr (.inr hd), hj' ▸ h.fresh d hd.live⟩
    · obtain ⟨p, hp, hp', hlt⟩ := h.shape.parent j ((hdir.mp hj).resolve_left hj') hroot
      exact ⟨p, hp, hdir.mpr (.inr hp'), hlt⟩
  case dot =>
    intro j hj
    by_cases hj' : j = n.nextInodeNum
    · rw [hj', hents₀]
      exact List.mem_cons_self
    · rw [hents hj']
      exact List.mem_append_left _ (h.shape.dot j ((hdir.mp hj).resolve_left hj'))
  case dotdot =>
    intro j p hj hp
    rw [hpar] at hp
    split_ifs at hp with hj'
    · cases hp
      rw [hj', hents₀]
      simp
    · rw [hents hj']
      exact List.mem_append_left _ (h.shape.dotdot j p ((hdir.mp hj).resolve_left hj') hp)
  case sub =>
    intro j e he hprop' hedir
    rw [hpar]
    by_cases hj : j = n.nextInodeNum
    · rw [hj, hents₀] at he
      simp only [List.mem_cons, List.not_mem_nil, or_false] at he
      rcases he with rfl | rfl <;> simp [Entry.Proper] at hprop'
    · rcases hmem hj he with he | ⟨rfl, rfl⟩
      · have hne := hnew (h.shape.target j e he)
        rw [if_neg hne]
        exact h.shape.sub j e he hprop' ((hdir.mp hedir).resolve_left hne)
      · exact ⟨(hnew h.shape.root.live).symm, if_pos rfl⟩
  case named =>
    intro j p hj hroot hp
    rw [hpar] at hp
    split_ifs at hp with hj'
    · -- the new directory has the new entry, and no other entry is for it
      cases hp
      have hzero : (n.ents d).countP (fun e => e.Proper ∧ e.inode = j) = 0 := by
        refine List.countP_eq_zero.mpr fun e he => ?_
        have := hnew (h.shape.target d e he)
        simp [hj', this]
      rw [hents (hnew hd.live), if_pos rfl, List.countP_append, hzero]
      simp [hprop, hj']
    · have hj := (hdir.mp hj).resolve_left hj'
      obtain ⟨p', hp', hdir', -⟩ := h.shape.parent j hj hroot
      obtain rfl : p' = p := Option.some.inj (hp'.symm.trans hp)
      rw [hents (hnew hdir'.live), List.countP_append, h.shape.named j p' hj hroot hp]
      split_ifs <;> simp [Ne.symm hj']

/-- A directory gets another name in the directory that it is in. -/
theorem Good.shape_move {name : List Char} (h : n.Good leak) (hn : n.NoName d name) (he : e ∈ n.ents d)
    (hprop : e.Proper) : ((n.link d ⟨name, e.inode⟩).unlink d e).Shape := by
  have hd := h.shape.isDir_of_mem he
  have hprop' : Entry.Proper ⟨name, e.inode⟩ := h.shape.proper_of_noName hd hn
  have hents {j : InodePtr} : ((n.link d ⟨name, e.inode⟩).unlink d e).ents j =
      if j = d then (n.ents d).erase e ++ [⟨name, e.inode⟩] else n.ents j := by
    rw [ents_unlink, ents_link hd.live]
    split_ifs with hj
    · rw [hj, List.erase_append_left _ he]
    · rw [List.append_nil]
  have hmem {j : InodePtr} {e' : Entry} (he' : e' ∈ ((n.link d ⟨name, e.inode⟩).unlink d e).ents j) :
      e' ∈ n.ents j ∨ j = d ∧ e' = ⟨name, e.inode⟩ := by
    rw [hents] at he'
    split_ifs at he' with hj
    · rcases List.mem_append.mp he' with he' | he'
      · exact .inl (hj ▸ List.mem_of_mem_erase he')
      · exact .inr ⟨hj, List.mem_singleton.mp he'⟩
    · exact .inl he'
  refine h.shape.of_ents rfl (fun _ => isDir_unlink.trans isDir_link) (fun _ _ => parentOf_unlink.trans parentOf_link)
    (fun j hj => ?_) (fun j e' he' => ?_) (fun j e' he' hdot => ?_) (fun j e' he' hp' hdir => ?_) fun j p hj hp => ?_
  · rw [hents, if_neg (fun hjd : j = d => hj (hjd ▸ hd)), h.shape.plain j hj]
  · rw [live_unlink, live_link]
    rcases hmem he' with he' | ⟨-, rfl⟩
    · exact h.shape.target j e' he'
    · exact h.shape.target d e he
  · rw [hents]
    split_ifs with hj
    · subst hj
      have hne : e' ≠ e := by
        rintro rfl
        exact hdot hprop
      exact List.mem_append_left _ ((List.mem_erase_of_ne hne).mpr he')
    · exact he'
  · rcases hmem he' with he' | ⟨rfl, rfl⟩
    · exact h.shape.sub j e' he' hp' hdir
    · exact h.shape.sub j e he hprop hdir
  · rw [hents]
    split_ifs with hpd
    · rw [hpd, List.countP_append, (List.perm_cons_erase he).countP_eq]
      by_cases hij : e.inode = j
      · subst hij
        simp [hprop, hprop']
      · simp [hij]
    · rfl

/-! ## Removing a directory -/

/-- A directory that counts two entries has the dot entries and no others. -/
theorem Good.perm_dots (h : n.Good leak) (hi : n.IsDir i) (hx : n.inode i = some x) (hnum : x.numEntries ≤ 2) :
    ∃ p, [⟨['.'], i⟩, ⟨['.', '.'], p⟩].Perm (n.ents i) := by
  obtain ⟨p, hp⟩ : ∃ p, n.parentOf i = some p := by
    by_cases hroot : i = n.root
    · exact ⟨n.root, hroot ▸ h.shape.rootParent⟩
    · obtain ⟨p, hp, -⟩ := h.shape.parent i hi hroot
      exact ⟨p, hp⟩
  refine ⟨p, ?_⟩
  have hsub : [⟨['.'], i⟩, ⟨['.', '.'], p⟩] ⊆ n.ents i := by
    intro e he
    simp only [List.mem_cons, List.not_mem_nil, or_false] at he
    rcases he with rfl | rfl
    · exact h.shape.dot i hi
    · exact h.shape.dotdot i p hi hp
  have hlen : (n.ents i).length ≤ 2 := by
    rw [ents_eq hx, ← (h.tidy i x hx).num]
    exact hnum
  apply List.Subperm.perm_of_length_le
  · exact List.subperm_of_subset (by simp) hsub
  · exact hlen

theorem Good.not_proper_of_numEntries (h : n.Good leak) (hi : n.IsDir i) (hx : n.inode i = some x)
    (hnum : x.numEntries ≤ 2) : ∀ e ∈ n.ents i, ¬ e.Proper := by
  obtain ⟨p, hp⟩ := h.perm_dots hi hx hnum
  intro e he
  have he := hp.mem_iff.mpr he
  simp only [List.mem_cons, List.not_mem_nil, or_false] at he
  rcases he with rfl | rfl <;> simp [Entry.Proper]

/-- A directory without proper entries is the parent of no other one. -/
theorem Shape.parentOf_ne (h : n.Shape) (hempty : ∀ e ∈ n.ents i, ¬ e.Proper) (hj : n.IsDir j) (hroot : j ≠ n.root) :
    n.parentOf j ≠ some i := by
  intro hp
  have hone := h.named j i hj hroot hp
  obtain ⟨e, he, hpe⟩ := List.countP_pos_iff.mp (hone ▸ Nat.one_pos)
  exact hempty e he (of_decide_eq_true hpe).1

theorem Good.proper_of_empty (h : n.Good leak) (hempty : ∀ e' ∈ n.ents e.inode, ¬ e'.Proper) (he : e ∈ n.ents d)
    (hne : d ≠ e.inode) : e.Proper := by
  have hd := h.shape.isDir_of_mem he
  refine ⟨fun hname => hne ?_, fun hname => ?_⟩
  · rw [h.tidy.eq_of_name he (h.shape.dot d hd) hname]
  · by_cases hroot : d = n.root
    · subst hroot
      apply hne
      rw [h.tidy.eq_of_name he (h.shape.dotdot _ _ hd h.shape.rootParent) hname]
    · obtain ⟨p, hp, -⟩ := h.shape.parent d hd hroot
      have hep := h.tidy.eq_of_name he (h.shape.dotdot d p hd hp) hname
      rw [hep] at hempty
      exact h.shape.parentOf_ne hempty hd hroot hp

theorem Good.ents_unlink_dots {e₁ e₂ : Entry} (h : n.Good leak) (hx : n.inode i = some x) (hnum : x.numEntries ≤ 2)
    (h₁ : e₁ ∈ n.ents i) (h₂ : e₂ ∈ (n.unlink i e₁).ents i) : ((n.unlink i e₁).unlink i e₂).ents i = [] := by
  rw [ents_unlink, if_pos rfl] at h₂ ⊢
  rw [ents_unlink, if_pos rfl]
  have hlen : (n.ents i).length ≤ 2 := by
    rw [ents_eq hx, ← (h.tidy i x hx).num]
    exact hnum
  apply List.eq_nil_of_length_eq_zero
  rw [List.length_erase_of_mem h₂, List.length_erase_of_mem h₁]
  omega

/-- An empty directory is removed: its entry, its dot entries and its inode. -/
theorem Good.shape_rmdir {e₁ e₂ : Entry} (h : n.Good leak) (hx : n.inode e.inode = some x) (hnum : x.numEntries ≤ 2)
    (h₁ : e₁ ∈ n.ents e.inode) (h₂ : e₂ ∈ (n.unlink e.inode e₁).ents e.inode)
    (he : e ∈ ((n.unlink e.inode e₁).unlink e.inode e₂).ents d) :
    ((((n.unlink e.inode e₁).unlink e.inode e₂).unlink d e).free e.inode).Shape := by
  have hi := h.shape.isDir_of_mem h₁
  have hempty := h.not_proper_of_numEntries hi hx hnum
  have hdi : d ≠ e.inode := by
    rintro rfl
    rw [h.ents_unlink_dots hx hnum h₁ h₂] at he
    cases he
  have hed : e ∈ n.ents d := by
    rwa [ents_unlink, if_neg hdi, ents_unlink, if_neg hdi] at he
  have hprop := h.proper_of_empty hempty hed hdi
  obtain ⟨hroot, hpar⟩ := h.shape.sub d e hed hprop hi
  -- what the other cases use of the tree afterwards
  generalize hn' : (((n.unlink e.inode e₁).unlink e.inode e₂).unlink d e).free e.inode = n'
  have hroot' : n'.root = n.root := by rw [← hn']; rfl
  have hdir {j : InodePtr} : n'.IsDir j ↔ j ≠ e.inode ∧ n.IsDir j := by
    rw [← hn', isDir_free, isDir_unlink, isDir_unlink, isDir_unlink]
  have hlive {j : InodePtr} : n'.Live j ↔ j ≠ e.inode ∧ n.Live j := by
    rw [← hn', live_free, live_unlink, live_unlink, live_unlink]
  have hparent {j : InodePtr} (hj : j ≠ e.inode) : n'.parentOf j = n.parentOf j := by
    rw [← hn', parentOf_free hj, parentOf_unlink, parentOf_unlink, parentOf_unlink]
  have hfreed : n'.ents e.inode = [] := by rw [← hn', ents_free, if_pos rfl]
  have hents {j : InodePtr} (hj : j ≠ e.inode) : n'.ents j = if j = d then (n.ents j).erase e else n.ents j := by
    rw [← hn', ents_free, if_neg hj, ents_unlink, ents_unlink, if_neg hj, ents_unlink, if_neg hj]
  clear hn'
  have hmem {j : InodePtr} {e' : Entry} (he' : e' ∈ n'.ents j) : j ≠ e.inode ∧ e' ∈ n.ents j ∧ (j = d → e' ≠ e) := by
    have hj : j ≠ e.inode := by
      rintro rfl
      rw [hfreed] at he'
      cases he'
    rw [hents hj] at he'
    split_ifs at he' with hjd
    · refine ⟨hj, List.mem_of_mem_erase he', ?_⟩
      rintro - rfl
      exact h.tidy.not_mem_erase he'
    · exact ⟨hj, he', fun hjd' => absurd hjd' hjd⟩
  have hkeep {j : InodePtr} {e' : Entry} (hj : j ≠ e.inode) (he' : e' ∈ n.ents j) (hdot : ¬ e'.Proper) :
      e' ∈ n'.ents j := by
    have hne : e' ≠ e := by
      rintro rfl
      exact hdot hprop
    rw [hents hj]
    split_ifs
    · exact (List.mem_erase_of_ne hne).mpr he'
    · exact he'
  constructor
  case plain =>
    intro j hj
    by_cases hji : j = e.inode
    · rw [hji, hfreed]
    · rw [hents hji, h.shape.plain j fun hd => hj (hdir.mpr ⟨hji, hd⟩)]
      simp
  case target =>
    intro j e' he'
    obtain ⟨hj, he', hne⟩ := hmem he'
    refine hlive.mpr ⟨fun hi' => ?_, h.shape.target j e' he'⟩
    -- the only other entry for the directory is the one that has been taken out
    have hprop' : e'.Proper := h.proper_of_empty (hi' ▸ hempty) he' (hi' ▸ hj)
    have hpar' := (h.shape.sub j e' he' hprop' (hi' ▸ hi)).2
    rw [hi', hpar] at hpar'
    cases hpar'
    have hone := h.shape.named e.inode d hi hroot hpar
    rw [(List.perm_cons_erase hed).countP_eq, List.countP_cons_of_pos (by simp [hprop])] at hone
    have hpos : 0 < ((n.ents d).erase e).countP fun e' => e'.Proper ∧ e'.inode = e.inode :=
      List.countP_pos_iff.mpr ⟨e', (List.mem_erase_of_ne (hne rfl)).mpr he', by simp [hprop', hi']⟩
    omega
  case root =>
    rw [hroot']
    exact hdir.mpr ⟨hroot.symm, h.shape.root⟩
  case rootParent =>
    rw [hroot', hparent hroot.symm]
    exact h.shape.rootParent
  case parent =>
    intro j hj hjroot
    rw [hroot'] at hjroot
    obtain ⟨hji, hj⟩ := hdir.mp hj
    obtain ⟨p, hp, hp', hlt⟩ := h.shape.parent j hj hjroot
    refine ⟨p, (hparent hji).trans hp, hdir.mpr ⟨?_, hp'⟩, hlt⟩
    rintro rfl
    exact h.shape.parentOf_ne hempty hj hjroot hp
  case dot =>
    intro j hj
    obtain ⟨hji, hj⟩ := hdir.mp hj
    exact hkeep hji (h.shape.dot j hj) (by simp [Entry.Proper])
  case dotdot =>
    intro j p hj hp
    obtain ⟨hji, hj⟩ := hdir.mp hj
    exact hkeep hji (h.shape.dotdot j p hj ((hparent hji).symm.trans hp)) (by simp [Entry.Proper])
  case sub =>
    intro j e' he' hprop' hdir'
    obtain ⟨hji, hdir'⟩ := hdir.mp hdir'
    rw [hparent hji, hroot']
    exact h.shape.sub j e' (hmem he').2.1 hprop' hdir'
  case named =>
    intro j p hj hjroot hp
    rw [hroot'] at hjroot
    obtain ⟨hji, hj⟩ := hdir.mp hj
    have hp := (hparent hji).symm.trans hp
    have hpi : p ≠ e.inode := by
      rintro rfl
      exact h.shape.parentOf_ne hempty hj hjroot hp
    rw [hents hpi, ← h.shape.named j p hj hjroot hp]
    split_ifs
    · exact countP_proper_erase (Ne.symm hji)
    · rfl

/-! ## Counts -/

theorem Fresh.new (h : n.Fresh) : (n.new x).Fresh := by
  intro j hj
  rcases live_new.mp hj with rfl | hj
  · exact Nat.lt_succ_self _
  · exact Nat.lt_succ_of_lt (h j hj)

theorem Fresh.link (h : n.Fresh) : (n.link d e).Fresh := fun j hj => h j (live_link.mp hj)

theorem Fresh.unlink (h : n.Fresh) : (n.unlink d e).Fresh := fun j hj => h j (live_unlink.mp hj)

/-- A new inode has no links and no entry leads to it. -/
theorem Good.counted_new (h : n.Good leak) (hx : x.Blank) : (n.new x).Counted leak :=
  h.count.new hx h.refs_next (h.leak _ le_rfl)

theorem Good.counted_newDir {mode : Nat} (h : n.Good leak) (hd : n.Live d) : (n.newDir mode d).Counted leak := by
  have hlive : (n.new (.blankDir mode d)).Live n.nextInodeNum := live_new.mpr (.inl rfl)
  apply Counted.link
  · exact (h.counted_new Inode.blank_blankDir).link h.fresh.new hlive hlive
  · exact h.fresh.new.link
  · exact live_link.mpr hlive
  · exact live_link.mpr (live_new.mpr (.inr hd))

/-- A directory that is made and freed again leaves a link of its parent directory behind. -/
theorem Good.counted_mkdirFail {mode : Nat} (h : n.Good leak) (hd : n.Live d) :
    ((n.newDir mode d).free n.nextInodeNum).Counted fun j => leak j + if j = d then 1 else 0 := by
  intro j hj
  obtain ⟨hne, hj⟩ := live_free.mp hj
  have hj := (live_newDir.mp hj).resolve_left hne
  have hrefs : ((n.newDir mode d).free n.nextInodeNum).refs j = n.refs j := by
    unfold refs
    have hnext : ((n.newDir mode d).free n.nextInodeNum).nextInodeNum = n.nextInodeNum + 1 := rfl
    rw [hnext, Finset.sum_range_succ, ents_free, if_pos rfl, List.countP_nil, Nat.add_zero]
    refine Finset.sum_congr rfl fun i hi => ?_
    have hi := (Finset.mem_range.mp hi).ne
    rw [ents_free, if_neg hi, ents_newDir, if_neg hi]
  rw [nlinkOf_free hne, nlinkOf_newDir hd, if_neg hne, hrefs, h.count j hj, Nat.add_assoc]

/-- An inode that was new and is freed again leaves the shape as it was. -/
theorem Good.shape_freed {m : Inodes} (h : n.Good leak) (hroot : m.root = n.root)
    (hents : ∀ j, j ≠ n.nextInodeNum → m.ents j = n.ents j)
    (hdir : ∀ j, j ≠ n.nextInodeNum → (m.IsDir j ↔ n.IsDir j)) (hlive : ∀ j, n.Live j → m.Live j)
    (hpar : ∀ j, j ≠ n.nextInodeNum → m.parentOf j = n.parentOf j) : (m.free n.nextInodeNum).Shape := by
  have hnew {j : InodePtr} (hj : n.Live j) : j ≠ n.nextInodeNum := hj.ne_next h.fresh.next
  refine h.shape.congr hroot (fun j => ?_) (fun j => ?_) (fun d e he => ?_) fun j hj => ?_
  · rw [ents_free]
    split_ifs with hj
    · rw [hj, h.shape.plain _ fun hd => hnew hd.live rfl]
    · exact hents j hj
  · rw [isDir_free]
    exact ⟨fun ⟨hne, hj⟩ => (hdir j hne).mp hj, fun hj => ⟨hnew hj.live, (hdir j (hnew hj.live)).mpr hj⟩⟩
  · have htarget := h.shape.target d e he
    exact live_free.mpr ⟨hnew htarget, hlive _ htarget⟩
  · rw [parentOf_free (hnew hj.live), hpar j (hnew hj.live)]

theorem Good.shape_mkdirFail {mode : Nat} (h : n.Good leak) : ((n.newDir mode d).free n.nextInodeNum).Shape := by
  refine h.shape_freed rfl (fun j hj => ?_) (fun j hj => ?_) (fun j hj => live_newDir.mpr (.inr hj)) fun j hj => ?_
  · rw [ents_newDir, if_neg hj]
  · rw [isDir_newDir]
    exact or_iff_right hj
  · rw [parentOf_newDir, if_neg hj]

theorem Good.shape_tried (h : n.Good leak) : ((n.new x).free n.nextInodeNum).Shape := by
  refine h.shape_freed rfl (fun j hj => ?_) (fun j hj => ?_) (fun j hj => live_new.mpr (.inr hj)) fun j hj => ?_
  · rw [ents_new, if_neg hj]
  · rw [isDir_new, if_neg hj]
  · rw [parentOf_new, if_neg hj]

theorem Good.shape_move_same {name : List Char} (h : n.Good leak) (hd : n.IsDir d) (hn : n.NoName d name) :
    ((n.link d ⟨name, i⟩).unlink d ⟨name, i⟩).Shape := by
  have hnot : ⟨name, i⟩ ∉ n.ents d := fun he => hn _ he rfl
  refine h.shape.congr rfl (fun j => ?_) (fun _ => isDir_unlink.trans isDir_link)
    (fun d' e he => live_unlink.mpr (live_link.mpr (h.shape.target d' e he))) fun _ _ =>
      parentOf_unlink.trans parentOf_link
  rw [ents_unlink, ents_link hd.live]
  split_ifs with hj
  · rw [hj, List.erase_append_right _ hnot, List.erase_cons_head, List.append_nil]
  · rw [List.append_nil]

/-- The link of the old name is given to the new one. -/
theorem Good.counted_move {name : List Char} (h : n.Good leak) (hd : n.IsDir d) (hi : n.Live e.inode)
    (he : e ∈ n.ents d ∨ e = ⟨name, e.inode⟩) : ((n.link d ⟨name, e.inode⟩).unlink d e).Counted leak := by
  have hlink : (n.link d ⟨name, e.inode⟩).Counted leak := h.count.link h.fresh hd.live hi
  apply hlink.unlink h.fresh.link
  rw [ents_link hd.live, if_pos rfl]
  rcases he with he | he
  · exact List.mem_append_left _ he
  · exact List.mem_append_right _ (List.mem_singleton.mpr he)

end Inodes

/-- **An effect keeps the shape of the file system and the counts of links**, when names are new and directories stay in
their parent directory. Only a `mkdir` that fails late makes the count of a directory larger. -/
theorem Effect.good {k : Care} {n n' : Inodes} {leak : InodePtr → Nat} (h : Effect k n n') (hk : k.names)
    (hm : k.moves) (hg : n.Good leak) : ∃ leak', n'.Good leak' ∧ (¬ k.late → leak' = leak) := by
  have hfresh := (h.fresh hg.fresh).1
  have htidy := h.tidy hk hg.tidy hg.fresh.next
  have hleak : ∀ i, n'.nextInodeNum ≤ i → leak i = 0 := fun i hi => hg.leak i (h.next_le.trans hi)
  have hkeep (hs : n'.Shape) (hc : n'.Counted leak) : ∃ leak', n'.Good leak' ∧ (¬ k.late → leak' = leak) :=
    ⟨leak, ⟨hfresh, htidy, hs, hc, hleak⟩, fun _ => rfl⟩
  cases h with
  | touch i mode refCount => exact hkeep hg.shape.touch hg.count.touch
  | tried hx =>
    apply hkeep hg.shape_tried
    apply (hg.counted_new hx).free
    rw [Inodes.ents_new, if_pos rfl, hx.entriesList]
  | @create x d name hx hx' hd hn =>
    have hd' : (n.new x).IsDir d := by
      rw [Inodes.isDir_new, if_neg (hd.live.ne_next hg.fresh.next)]
      exact hd
    have hlive : (n.new x).Live n.nextInodeNum := Inodes.live_new.mpr (.inl rfl)
    apply hkeep
    · apply (hg.shape.new hg.fresh hx hx').link hd' hlive
      rw [Inodes.isDir_new, if_pos rfl]
      exact hx'
    · exact (hg.counted_new hx).link hg.fresh.new hd'.live hlive
  | orphan hx hx' => exact hkeep (hg.shape.new hg.fresh hx hx') (hg.counted_new hx)
  | mkdir mode hd hn =>
    apply hkeep (hg.shape_mkdir hd (hn hk))
    apply (hg.counted_newDir hd.live).link
    · exact hg.fresh.new.link.link
    · exact Inodes.live_newDir.mpr (.inr hd.live)
    · exact Inodes.live_newDir.mpr (.inl rfl)
  | mkdirFail mode hlate hd =>
    refine ⟨_, ⟨hfresh, htidy, hg.shape_mkdirFail, hg.counted_mkdirFail hd, fun i hi => ?_⟩, fun hl => absurd hlate hl⟩
    have hne : i ≠ _ := ((hg.fresh _ hd).trans_le ((Nat.le_succ _).trans hi)).ne'
    rw [hleak i hi, if_neg hne]
  | link hd hi hn hdir => exact hkeep (hg.shape.link hd hi (hdir hm)) (hg.count.link hg.fresh hd.live hi)
  | @move d e name hd hi hn he hdot hdotdot =>
    refine hkeep ?_ (hg.counted_move hd hi he)
    rcases he with he | he
    · exact hg.shape_move (hn hk) he ⟨hdot, hdotdot⟩
    · have hs : ((n.link d ⟨name, e.inode⟩).unlink d ⟨name, e.inode⟩).Shape := hg.shape_move_same hd (hn hk)
      rwa [← he] at hs ⊢
  | unlink he _ hdir => exact hkeep (hg.shape_unlink he (hdir hm)) (hg.count.unlink hg.fresh he)
  | @rmdir d e e₁ e₂ x hx hnum _ h₁ h₂ h₃ =>
    apply hkeep (hg.shape_rmdir hx hnum h₁ h₂ h₃)
    apply Inodes.Counted.free
    · exact ((hg.count.unlink hg.fresh h₁).unlink hg.fresh.unlink h₂).unlink hg.fresh.unlink.unlink h₃
    · rw [Inodes.ents_unlink, hg.ents_unlink_dots hx hnum h₁ h₂]
      simp
  | free hx hl _ =>
    apply hkeep (hg.shape_free hx hl)
    exact hg.count.free (hg.shape.plain _ (hg.not_isDir_of_nlink hx hl))

end Usax.Fs
