import Mathlib.Tactic.SplitIfs
import Usax.Fs.AbsPath
import Usax.Fs.Resolve

/-!
# Several slashes

A law of `vfs_resolve`, for every forest of file systems: several slashes in the place of one give the same result, except
at the end of a path whose last component does not exist (`vfsResolve_slashes_differ`): one slash there is skipped, of two the
first is taken for an inner one.

* `sameResult_iff`: the condition for one forest;
* `Settled`: the paths that do not end in nothing in any tree, for which `Tree.walk_settled` follows the walk from component to
  component; `chain` has a tree for every other path.
* `vfsResolve_slashes`: both.
-/

namespace Usax.Fs

open Common

/-- What an outcome says apart from `last_comp`. -/
def Out.view (o : Out) : Option Errno × FsId × FsPath × Held := (o.rc, o.path.fs, o.path.fsPath, o.held)

namespace Forest

variable {F : Forest} {sub : Option (List Char → VfsPath → Held → Out)} {top cwd : VfsPath} {h : Held}
  {comp path pre rest lc : List Char} {resLastSl : Bool}

/-! ## The last component does not matter -/

theorem resolveSymlink_lastComp {np : VfsPath} :
    (F.resolveSymlink sub { np with lastComp := lc } { top with lastComp := lc } h).view =
      (F.resolveSymlink sub np top h).view := by
  unfold resolveSymlink
  dsimp only
  cases F.readlink top.fs np.fsPath with
  | error e => rfl
  | ok symlink =>
    cases sub with
    | none =>
      dsimp only
      split_ifs <;> rfl
    | some f =>
      dsimp only
      by_cases hs : symlink.head? = some '/'
      · simp only [if_pos hs]
        rfl
      · simp only [if_neg hs]
        rfl

theorem resolveGetEntry_lastComp (hd : isPathDotdot lc = isPathDotdot top.lastComp) :
    (F.resolveGetEntry sub comp { top with lastComp := lc } resLastSl h).view =
      (F.resolveGetEntry sub comp top resLastSl h).view := by
  unfold resolveGetEntry handleCrossFsDotdot
  dsimp only
  rw [hd]
  by_cases hx : ¬isPathDotdot top.lastComp = true ∨ (F.getRootEntry top.fs).inode ≠ top.fsPath.inode
  · have hentry : F.getEntryAt comp { top with lastComp := lc } h =
        ({ (F.getEntryAt comp top h).1 with lastComp := lc }, (F.getEntryAt comp top h).2) := by
      unfold getEntryAt
      dsimp only
      cases F.mpGetAt top.fs (F.getEntry top.fs top.fsPath.inode comp).inode <;> rfl
    simp only [if_pos hx, hentry]
    by_cases hc : comp = []
    · simp only [if_pos hc]
      rfl
    · simp only [if_neg hc]
      split_ifs
      · exact resolveSymlink_lastComp
      · rfl
  · simp only [if_neg hx]
    by_cases hr : top.fs = F.root
    · simp only [if_pos hr]
      rfl
    · simp only [if_neg hr]
      cases F.mpOf top.fs <;> rfl

/-! ## A second slash -/

/-- What the loop does at a slash, once the component before it was looked up. -/
def atSlash (F : Forest) (sub : Option (List Char → VfsPath → Held → Out)) (resLastSl : Bool) (rest : List Char)
    (top : VfsPath) (o : Out) : Out :=
  match o.rc with
  | some e => ⟨some e, top, o.held⟩
  | none =>
    match resolveHaveToStop rest o.path with
    | some rc => ⟨rc, o.path, replaceTop top o.path o.held⟩
    | none => F.walk sub resLastSl rest [] { o.path with lastComp := rest } (replaceTop top o.path o.held)

theorem walk_slash : F.walk sub resLastSl ('/' :: rest) comp top h =
    F.atSlash sub resLastSl rest top (F.resolveGetEntry sub comp top true h) := by
  rw [Forest.walk, if_neg (by simp)]
  rfl

theorem walk_other {c : Char} (hc : c ≠ '/') :
    F.walk sub resLastSl (c :: rest) comp top h = F.walk sub resLastSl rest (comp ++ [c]) top h := by
  rw [Forest.walk, if_pos hc]

theorem atSlash_view {o o' : Out} (hv : o.view = o'.view) :
    (F.atSlash sub resLastSl rest { top with lastComp := lc } o).view = (F.atSlash sub resLastSl rest top o').view := by
  obtain ⟨rc, ⟨fs, fp, l⟩, held⟩ := o
  obtain ⟨rc', ⟨fs', fp', l'⟩, held'⟩ := o'
  simp only [Out.view, Prod.mk.injEq] at hv
  obtain ⟨rfl, rfl, rfl, rfl⟩ := hv
  have hstop : resolveHaveToStop rest ⟨fs, fp, l⟩ = resolveHaveToStop rest ⟨fs, fp, l'⟩ := rfl
  unfold atSlash
  cases rc with
  | some e => rfl
  | none =>
    simp only [hstop]
    cases resolveHaveToStop rest ⟨fs, fp, l'⟩ <;> rfl

theorem isPathDotdot_slash (hc : '/' ∉ comp) : isPathDotdot (comp ++ '/' :: rest) = decide (comp = ['.', '.']) := by
  match comp with
  | [] => rfl
  | [a] => by_cases ha : a = '.' <;> simp [isPathDotdot, ha]
  | [a, b] => by_cases ha : a = '.' <;> by_cases hb : b = '.' <;> simp [isPathDotdot, ha, hb]
  | a :: b :: c :: l =>
    have hne : c ≠ '/' := fun h => hc (by simp [h])
    by_cases ha : a = '.' <;> by_cases hb : b = '.' <;> simp [isPathDotdot, ha, hb, hne]

theorem resolveGetEntry_nil (hlc : top.lastComp = '/' :: rest) :
    F.resolveGetEntry sub [] top true h = ⟨none, top, h⟩ := by
  simp [resolveGetEntry, handleCrossFsDotdot, isPathDotdot, hlc]

theorem replaceTop_self : replaceTop top top h = h := by
  simp [replaceTop, Held.releaseInode, Held.retainInode]

theorem atSlash_slash {o : Out} (hend : rest ≠ [] ∨ (o.rc = none → o.path.fsPath.inode ≠ none)) :
    (F.atSlash sub resLastSl ('/' :: rest) top o).view = (F.atSlash sub resLastSl rest top o).view := by
  obtain ⟨rc, p, held⟩ := o
  cases rc with
  | some e => rfl
  | none =>
    by_cases hi : p.fsPath.inode = none
    · have hrest : rest ≠ [] := hend.resolve_right fun hn => hn rfl hi
      simp [atSlash, resolveHaveToStop, hi, hrest]
    · have hgo : resolveHaveToStop ('/' :: rest) p = none := by simp [resolveHaveToStop, hi]
      have hsame : resolveHaveToStop rest { p with lastComp := '/' :: rest } = resolveHaveToStop rest p := rfl
      rw [atSlash, atSlash]
      simp only [hgo, walk_slash, @resolveGetEntry_nil F sub { p with lastComp := '/' :: rest } _ rest rfl]
      rw [atSlash]
      simp only [hsame, replaceTop_self]
      cases resolveHaveToStop rest p <;> rfl

theorem atSlash_slashes {o : Out} (hend : rest ≠ [] ∨ (o.rc = none → o.path.fsPath.inode ≠ none)) (k : Nat) :
    (F.atSlash sub resLastSl (List.replicate k '/' ++ rest) top o).view = (F.atSlash sub resLastSl rest top o).view := by
  induction k with
  | zero => rfl
  | succ k ih =>
    rw [List.replicate_succ, List.cons_append, ← ih]
    exact atSlash_slash (hend.imp_left (List.append_ne_nil_of_right_ne_nil _))

/-- A path is a component, or a component and the path behind the first slash. -/
theorem path_induction {P : List Char → Prop} (last : ∀ w, '/' ∉ w → P w)
    (slash : ∀ w path, '/' ∉ w → P path → P (w ++ '/' :: path)) (path : List Char) : P path := by
  induction hn : path.length using Nat.strong_induction_on generalizing path with
  | _ n ih =>
    by_cases h : '/' ∈ path
    · obtain ⟨w, rest, rfl, hw⟩ := List.eq_append_cons_of_mem h
      refine slash w rest hw (ih rest.length ?_ rest rfl)
      rw [← hn, List.length_append, List.length_cons]
      omega
    · exact last path h

theorem walk_word {w : List Char} (hw : '/' ∉ w) : F.walk sub resLastSl (w ++ '/' :: rest) comp top h =
    F.atSlash sub resLastSl rest top (F.resolveGetEntry sub (comp ++ w) top true h) := by
  induction w generalizing comp with
  | nil => rw [List.nil_append, walk_slash, List.append_nil]
  | cons c w ih =>
    obtain ⟨hc, hw⟩ := not_or.mp (List.mem_cons.not.mp hw)
    rw [List.cons_append, walk_other (Ne.symm hc), ih hw, List.append_assoc, List.singleton_append]

section

variable {o : Out}

theorem atSlash_error {e : Errno} (hrc : o.rc = some e) : (F.atSlash sub resLastSl rest top o).rc = some e := by
  rw [atSlash, hrc]

theorem atSlash_missing (hrc : o.rc = none) (hi : o.path.fsPath.inode = none) :
    (F.atSlash sub resLastSl rest top o).rc = (if rest ≠ [] then some .enoent else none) ∧
      (F.atSlash sub resLastSl rest top o).path = o.path := by
  simp [atSlash, hrc, resolveHaveToStop, hi]

/-- At the end of a path. -/
theorem atSlash_end (hrc : o.rc = none) (hi : o.path.fsPath.inode ≠ none) :
    (F.atSlash sub resLastSl [] top o).path = o.path := by
  simp [atSlash, hrc, resolveHaveToStop, hi]

theorem atSlash_nil (hrc : (F.atSlash sub resLastSl [] top o).rc = none)
    (hi : (F.atSlash sub resLastSl [] top o).path.fsPath.inode = none) : o.rc = none ∧ o.path.fsPath.inode = none := by
  cases horc : o.rc with
  | some e => rw [atSlash_error horc] at hrc; cases hrc
  | none =>
    refine ⟨rfl, by_contra fun hoi => hoi ?_⟩
    rwa [atSlash_end horc hoi] at hi

theorem atSlash_go (hrc : o.rc = none) (hi : o.path.fsPath.inode ≠ none) (hrest : rest ≠ []) :
    F.atSlash sub resLastSl rest top o =
      F.walk sub resLastSl rest [] { o.path with lastComp := rest } (replaceTop top o.path o.held) := by
  simp [atSlash, hrc, resolveHaveToStop, hi, hrest]

end

theorem walk_word_view {w : List Char} (hw : '/' ∉ w) (l : List Char) :
    (F.walk sub resLastSl (w ++ '/' :: l) [] { top with lastComp := w ++ '/' :: l } h).view =
      (F.atSlash sub resLastSl l top (F.resolveGetEntry sub w { top with lastComp := w ++ ['/'] } true h)).view := by
  rw [walk_word hw, List.nil_append]
  apply atSlash_view
  refine @resolveGetEntry_lastComp F sub { top with lastComp := w ++ ['/'] } h w (w ++ '/' :: l) true ?_
  rw [isPathDotdot_slash hw, isPathDotdot_slash hw]

/-- **A walk up to a slash** fails, whatever comes behind it, or arrives there with an outcome. -/
theorem walk_arrives (path : List Char) (top : VfsPath) (h : Held) :
    (∃ top' o, ∀ l, (F.walk sub resLastSl (path ++ '/' :: l) [] { top with lastComp := path ++ '/' :: l } h).view =
      (F.atSlash sub resLastSl l top' o).view) ∨
    ∃ v, v.1 ≠ none ∧
      ∀ l, (F.walk sub resLastSl (path ++ '/' :: l) [] { top with lastComp := path ++ '/' :: l } h).view = v := by
  induction path using path_induction generalizing top h with
  | last w hw => exact .inl ⟨_, _, walk_word_view hw⟩
  | slash w path hw ih =>
    have hne (l : List Char) : path ++ '/' :: l ≠ [] := List.append_ne_nil_of_right_ne_nil path (List.cons_ne_nil _ _)
    have hview (l : List Char) := @walk_word_view F sub top h resLastSl w hw (path ++ '/' :: l)
    simp only [List.append_assoc, List.cons_append] at hview ⊢
    simp only [hview]
    generalize F.resolveGetEntry sub w _ true h = o
    cases hrc : o.rc with
    | some e =>
      refine .inr ⟨Out.view ⟨some e, top, o.held⟩, by simp [Out.view], fun l => ?_⟩
      simp [atSlash, hrc]
    | none =>
      by_cases hi : o.path.fsPath.inode = none
      · refine .inr ⟨Out.view ⟨some .enoent, o.path, replaceTop top o.path o.held⟩, by simp [Out.view], fun l => ?_⟩
        simp [atSlash, hrc, resolveHaveToStop, hi]
      · simp only [atSlash_go hrc hi (hne _)]
        exact ih _ _

/-! ## Several slashes -/

/-- The return code, and the path without its last component. -/
def resultView (r : Except Errno VfsPath × Held) : Except Errno (FsId × FsPath) × Held :=
  (r.1.map fun p => (p.fs, p.fsPath), r.2)

/-- Where `vfs_resolve` starts. -/
def startAt (F : Forest) (cwd : VfsPath) (path : List Char) (h : Held) : VfsPath × Held :=
  if path.head? = some '/' then F.getLockedRetainedRoot h else (cwd, (h.retain cwd.fs).lock cwd.fs)

/-- The walk of `vfs_resolve`. -/
def outOf (F : Forest) (cwd : VfsPath) (path : List Char) (resLastSl : Bool) (h : Held) : Out :=
  F.walk (some (F.resolveInt 2 true)) resLastSl path [] { (F.startAt cwd path h).1 with lastComp := path }
    ((F.startAt cwd path h).2.retainInode (F.startAt cwd path h).1)

theorem vfsResolve_eq (hp : path ≠ []) : F.vfsResolve cwd path resLastSl h =
    (let o := F.outOf cwd path resLastSl h
    match o.rc with
    | none => (.ok { o.path with lastComp := fixLastComp path o.path.lastComp }, o.held.releaseInode o.path)
    | some e => (.error e, ((o.held.releaseInode o.path).unlock o.path.fs).release o.path.fs)) := by
  have hint : F.resolveInt (resolveStackSize - 1) resLastSl path { (F.startAt cwd path h).1 with lastComp := path }
      ((F.startAt cwd path h).2.retainInode (F.startAt cwd path h).1) = F.outOf cwd path resLastSl h := by
    rw [resolveStackSize, resolveInt, if_neg hp]
    rfl
  rw [← hint]
  rfl

theorem vfsResolve_congr {path' : List Char} (hp : path ≠ []) (hp' : path' ≠ [])
    (hv : (F.outOf cwd path resLastSl h).view = (F.outOf cwd path' resLastSl h).view) :
    resultView (F.vfsResolve cwd path resLastSl h) = resultView (F.vfsResolve cwd path' resLastSl h) := by
  rw [vfsResolve_eq hp, vfsResolve_eq hp']
  generalize F.outOf cwd path resLastSl h = o at hv ⊢
  generalize F.outOf cwd path' resLastSl h = o' at hv ⊢
  obtain ⟨rc, ⟨fs, fp, l⟩, held⟩ := o
  obtain ⟨rc', ⟨fs', fp', l'⟩, held'⟩ := o'
  simp only [Out.view, Prod.mk.injEq] at hv
  obtain ⟨rfl, rfl, rfl, rfl⟩ := hv
  cases rc <;> rfl

/-- Any number of slashes in the place of one gives the same result. -/
def SameResult (F : Forest) (cwd : VfsPath) (pre rest : List Char) (resLastSl : Bool) (h : Held) : Prop :=
  ∀ k, resultView (F.vfsResolve cwd (pre ++ (List.replicate (k + 1) '/' ++ rest)) resLastSl h) =
    resultView (F.vfsResolve cwd (pre ++ '/' :: rest) resLastSl h)

/-- The walk over the path up to the slash finds something, or fails, or is not at the end of the path. -/
def EndExists (F : Forest) (cwd : VfsPath) (pre rest : List Char) (resLastSl : Bool) (h : Held) : Prop :=
  rest ≠ [] ∨ ∀ p, (F.vfsResolve cwd (pre ++ ['/']) resLastSl h).1 = .ok p → p.fsPath.inode ≠ none

theorem endExists_iff : F.EndExists cwd pre rest resLastSl h ↔ rest ≠ [] ∨
    ((F.outOf cwd (pre ++ ['/']) resLastSl h).rc = none →
      (F.outOf cwd (pre ++ ['/']) resLastSl h).path.fsPath.inode ≠ none) := by
  rw [EndExists, vfsResolve_eq (List.append_ne_nil_of_right_ne_nil pre (List.cons_ne_nil _ _))]
  dsimp only
  cases hrc : (F.outOf cwd (pre ++ ['/']) resLastSl h).rc with
  | some e => simp
  | none => simp

theorem outOf_arrives (F : Forest) (cwd : VfsPath) (pre : List Char) (resLastSl : Bool) (h : Held) :
    (∃ top' o, ∀ l, (F.outOf cwd (pre ++ '/' :: l) resLastSl h).view =
      (F.atSlash (some (F.resolveInt 2 true)) resLastSl l top' o).view) ∨
    ∃ v, v.1 ≠ none ∧ ∀ l, (F.outOf cwd (pre ++ '/' :: l) resLastSl h).view = v := by
  have hstart (l : List Char) : F.startAt cwd (pre ++ '/' :: l) h = F.startAt cwd (pre ++ ['/']) h := by
    unfold startAt
    cases pre <;> rfl
  simp only [outOf, hstart]
  exact walk_arrives ..

/-- In a given forest the results are the same exactly if the path up to the slash does not end in nothing. -/
theorem sameResult_iff : F.SameResult cwd pre rest resLastSl h ↔ F.EndExists cwd pre rest resLastSl h := by
  have hne (l : List Char) : pre ++ '/' :: l ≠ [] := List.append_ne_nil_of_right_ne_nil pre (List.cons_ne_nil _ _)
  rw [endExists_iff]
  rcases outOf_arrives F cwd pre resLastSl h with ⟨top', o, ho⟩ | ⟨v, hv, hall⟩
  · constructor
    · -- what is missing behind one slash is an error behind two
      intro heq
      by_contra hnot
      obtain ⟨hrest, hmiss⟩ := not_or.mp hnot
      obtain rfl := not_not.mp hrest
      obtain ⟨hrc, hi⟩ := Classical.not_imp.mp hmiss
      have hrc' := (congrArg Prod.fst (ho [])).symm.trans hrc
      have hi' := (congrArg (·.2.2.1.inode) (ho [])).symm.trans (not_not.mp hi)
      have herr : (F.outOf cwd (pre ++ ['/', '/']) resLastSl h).rc = some .enoent := by
        refine (congrArg Prod.fst (ho ['/'])).trans ?_
        obtain ⟨horc, hoi⟩ := atSlash_nil hrc' hi'
        exact (atSlash_missing horc hoi).1
      have htwo := congrArg Prod.fst (heq 1)
      rw [show pre ++ (List.replicate (1 + 1) '/' ++ []) = pre ++ ['/', '/'] from rfl, vfsResolve_eq (hne ['/']),
        vfsResolve_eq (hne [])] at htwo
      simp [resultView, herr, hrc, Except.map] at htwo
    · intro hend k
      refine vfsResolve_congr (hne _) (hne _) ?_
      rw [List.replicate_succ, List.cons_append, ho, ho]
      refine atSlash_slashes (hend.imp_right fun hn hrc hi => ?_) k
      obtain ⟨hrc', hpath⟩ := @atSlash_missing F (some (F.resolveInt 2 true)) top' [] resLastSl o hrc hi
      refine hn ((congrArg Prod.fst (ho [])).trans hrc') ((congrArg (·.2.2.1.inode) (ho [])).trans ?_)
      rw [Out.view, hpath]
      exact hi
  · refine iff_of_true (fun k => vfsResolve_congr (hne _) (hne _) ?_) (.inr fun hrc => ?_)
    · rw [List.replicate_succ, List.cons_append, hall, hall]
    · exact absurd ((congrArg Prod.fst (hall [])).symm.trans hrc) hv

/-! ## The paths for which it is so in every tree -/

/-- The entry of a directory. -/
def DirEntry (isDir : FsId → InodePtr → Prop) (fs : FsId) (p : FsPath) : Prop :=
  p.type = .dir ∧ ∃ d, p.inode = some d ∧ isDir fs d

/-- The directories are `isDir`: they have the dot entries, and dot entries lead to directories. Walks begin in directories,
and file systems are mounted on them. -/
structure Tree (F : Forest) (isDir : FsId → InodePtr → Prop) (cwd : VfsPath) : Prop where
  root : ∀ fs, DirEntry isDir fs (F.getRootEntry fs)
  dots : ∀ fs d w, isDots w = true → isDir fs d ∨ (F.getEntry fs (some d) w).inode ≠ none →
    DirEntry isDir fs (F.getEntry fs (some d) w)
  missing : ∀ fs d w, (F.getEntry fs d w).inode = none → (F.getEntry fs d w).type = .none
  mount : ∀ mp ∈ F.mps, isDir mp.hostFs mp.hostFsInode
  cwd : ∃ d, cwd.fsPath.inode = some d ∧ isDir cwd.fs d

/-- The path ends with a slash, or with a dot entry that no name comes right before. `dir` says that what comes before the
components is a directory. -/
def Settled : (dir : Bool) → (words : List (List Char)) → Bool
  | _, [] => true
  | dir, [w] => w = [] ∨ isDots w ∧ dir
  | dir, w :: words => Settled (if w = [] then dir else isDots w) words

def OnDir (isDir : FsId → InodePtr → Prop) (p : VfsPath) : Prop := ∃ d, p.fsPath.inode = some d ∧ isDir p.fs d

variable {isDir : FsId → InodePtr → Prop}

theorem Tree.onDir_root (ht : F.Tree isDir cwd) (fs : FsId) (lc : List Char) : OnDir isDir ⟨fs, F.getRootEntry fs, lc⟩ :=
  (ht.root fs).2

theorem getEntryAt_plain (hmp : F.mpGetAt top.fs (F.getEntry top.fs top.fsPath.inode comp).inode = none) :
    F.getEntryAt comp top h = ({ top with fsPath := F.getEntry top.fs top.fsPath.inode comp }, h) := by
  unfold getEntryAt
  dsimp only
  rw [hmp]

/-- A dot entry: from a directory it leads to one, and from anything else to one or to nothing. -/
theorem Tree.resolve_dots (ht : F.Tree isDir cwd) (hi : top.fsPath.inode ≠ none) {w : List Char} (hw : isDots w = true) :
    (F.resolveGetEntry sub w top true h).rc = none ∧
      ((F.resolveGetEntry sub w top true h).path.fsPath.inode ≠ none ∨ OnDir isDir top →
        OnDir isDir (F.resolveGetEntry sub w top true h).path) := by
  have hne : w ≠ [] := by rintro rfl; simp [isDots] at hw
  obtain ⟨d, hd⟩ := Option.ne_none_iff_exists'.mp hi
  unfold resolveGetEntry
  split
  · rename_i np held hcross
    refine ⟨rfl, fun _ => ?_⟩
    unfold handleCrossFsDotdot at hcross
    split at hcross
    · cases hcross
    · rename_i hroot
      obtain ⟨-, hroot⟩ := not_or.mp hroot
      have htop : OnDir isDir top := by
        obtain ⟨d', hd', hdir⟩ := (ht.root top.fs).2
        exact ⟨d', (not_not.mp hroot).symm.trans hd', hdir⟩
      split at hcross
      · cases hcross
        exact htop
      · split at hcross
        · rename_i mp hmp
          cases hcross
          exact (ht.dots mp.hostFs mp.hostFsInode ['.', '.'] (by decide) (.inl (ht.mount mp (List.mem_of_find?_eq_some hmp)))).2
        · cases hcross
          exact htop
  · rw [if_neg hne]
    by_cases hdir : isDir top.fs d ∨ (F.getEntry top.fs (some d) w).inode ≠ none
    · obtain ⟨htype, d', hd', hdir'⟩ := ht.dots top.fs d w hw hdir
      unfold getEntryAt
      rw [hd]
      dsimp only
      split
      · rename_i target _
        rw [if_neg (by simp [(ht.root target).1])]
        exact ⟨rfl, fun _ => ht.onDir_root target _⟩
      · rw [if_neg (by simp [htype])]
        exact ⟨rfl, fun _ => ⟨d', hd', hdir'⟩⟩
    · obtain ⟨hdir, hnone⟩ := not_or.mp hdir
      have hnone := not_not.mp hnone
      have hmp : F.mpGetAt top.fs (F.getEntry top.fs top.fsPath.inode w).inode = none := by
        simp [mpGetAt, hd, hnone]
      have htype := ht.missing _ _ _ hnone
      rw [← hd] at hnone htype
      rw [getEntryAt_plain hmp]
      dsimp only
      rw [if_neg (by simp [htype])]
      refine ⟨rfl, fun hor => ?_⟩
      rcases hor with hor | ⟨d', hd', hdir'⟩
      · exact absurd hnone hor
      · exact absurd (Option.some.inj (hd.symm.trans hd') ▸ hdir') hdir

theorem words_last {w : List Char} (hw : '/' ∉ w) : w.splitOn '/' = [w] := List.splitOn_eq_singleton hw

theorem words_slash {w : List Char} (hw : '/' ∉ w) : (w ++ '/' :: path).splitOn '/' = w :: path.splitOn '/' := by
  have hall : ∀ c ∈ w, (c == '/') = false := fun c hc => by
    rw [beq_eq_false_iff_ne]
    rintro rfl
    exact hw hc
  exact List.splitOnP_append_cons_of_forall_mem hall '/' (by simp) path

theorem settled_cons {dir : Bool} {w : List Char} {words : List (List Char)} (h : words ≠ []) :
    Settled dir (w :: words) = Settled (if w = [] then dir else isDots w) words := by
  cases words with
  | nil => exact absurd rfl h
  | cons => rfl

/-- A walk over a path that is settled does not end in nothing. -/
theorem Tree.walk_settled (ht : F.Tree isDir cwd) {dir : Bool} (hs : Settled dir (path.splitOn '/') = true)
    (hlc : top.lastComp = path ++ ['/']) (hi : top.fsPath.inode ≠ none) (hdir : dir = true → OnDir isDir top)
    (hrc : (F.walk sub resLastSl (path ++ ['/']) [] top h).rc = none) :
    (F.walk sub resLastSl (path ++ ['/']) [] top h).path.fsPath.inode ≠ none := by
  have onDir {p : VfsPath} (hp : OnDir isDir p) : p.fsPath.inode ≠ none := by
    obtain ⟨d, hd, -⟩ := hp
    simp [hd]
  induction path using path_induction generalizing top h dir with
  | last w hw =>
    rw [walk_word hw, List.nil_append]
    rw [words_last hw, Settled, decide_eq_true_eq] at hs
    rcases hs with rfl | ⟨hdots, hd⟩
    · rw [resolveGetEntry_nil hlc, atSlash_end rfl hi]
      exact hi
    · obtain ⟨horc, hon⟩ := @Tree.resolve_dots F sub top cwd h isDir ht hi w hdots
      have hon := onDir (hon (.inr (hdir hd)))
      rwa [atSlash_end horc hon]
  | slash w path hw ih =>
    have hne : path ++ ['/'] ≠ [] := by simp
    rw [List.append_assoc, List.cons_append] at hlc hrc ⊢
    rw [walk_word hw, List.nil_append] at hrc ⊢
    rw [words_slash hw, settled_cons (List.splitOn_ne_nil _ _)] at hs
    cases horc : (F.resolveGetEntry sub w top true h).rc with
    | some e => rw [atSlash_error horc] at hrc; cases hrc
    | none =>
      by_cases hoi : (F.resolveGetEntry sub w top true h).path.fsPath.inode = none
      · rw [(atSlash_missing horc hoi).1, if_pos hne] at hrc
        cases hrc
      · rw [atSlash_go horc hoi hne] at hrc ⊢
        refine ih hs rfl hoi (fun hd => ?_) hrc
        split_ifs at hd with hnil
        · subst hnil
          rw [resolveGetEntry_nil hlc]
          exact hdir hd
        · exact (ht.resolve_dots hi hd).2 (.inl hoi)

/-! ## A tree for every other path -/

def isName (w : List Char) : Bool := w ≠ [] ∧ isDots w = false

/-- `n` directories in one another, whatever the names are; a name in the last one is a file, or missing. -/
def chain (n : Nat) (file : Bool) : Forest where
  root := 0
  mps := []
  getEntry := fun _ d w =>
    match d with
    | none => ⟨some n, n, none, .dir⟩
    | some 0 => ⟨none, 0, none, .none⟩
    | some (d + 1) =>
      if isDots w then ⟨some (d + 1), d + 1, none, .dir⟩
      else if 0 < d then ⟨some d, d + 1, none, .dir⟩
      else if file then ⟨some 0, 1, none, .file⟩
      else ⟨none, 1, none, .none⟩
  readlink := fun _ _ => .error .einval

def chainRoot (n : Nat) : VfsPath := ⟨0, ⟨some n, n, none, .dir⟩, []⟩

variable {n : Nat} {file : Bool}

theorem chain_type (fs : FsId) (d : Option InodePtr) (w : List Char) :
    ((chain n file).getEntry fs d w).type ≠ .symlink ∧
      (((chain n file).getEntry fs d w).inode = none → ((chain n file).getEntry fs d w).type = .none) := by
  rcases d with _ | _ | d
  · simp [chain]
  · simp [chain]
  · simp only [chain]
    split_ifs <;> simp

theorem tree_chain (hn : 0 < n) : (chain n file).Tree (fun _ d => 0 < d) (chainRoot n) where
  root fs := ⟨rfl, n, rfl, hn⟩
  dots fs d w hw hd := by
    cases d with
    | zero => exact absurd hd (not_or.mpr ⟨Nat.lt_irrefl 0, not_not.mpr rfl⟩)
    | succ d => simp [chain, hw, DirEntry]
  missing fs d w := (chain_type fs d w).2
  mount mp hmp := by cases hmp
  cwd := ⟨n, rfl, hn⟩

theorem chain_getEntry {w : List Char} {d : Nat} (hn : 0 < n) (hw : w ≠ []) (hw' : '/' ∉ w)
    (hlc : top.lastComp = w ++ '/' :: rest) (hfs : top.fs = 0) (hd : top.fsPath.inode = some d) :
    ((chain n file).resolveGetEntry sub w top true h).rc = none ∧
      ((chain n file).resolveGetEntry sub w top true h).path.fs = 0 ∧
      ((chain n file).resolveGetEntry sub w top true h).path.fsPath.inode =
        ((chain n file).getEntry 0 (some d) w).inode := by
  unfold resolveGetEntry
  split
  · -- `..` in the root
    rename_i np held hcross
    unfold handleCrossFsDotdot at hcross
    rw [hlc, isPathDotdot_slash hw', hd] at hcross
    split at hcross
    · cases hcross
    · rename_i hroot
      obtain ⟨hdots, hsame⟩ := not_or.mp hroot
      obtain rfl : w = ['.', '.'] := by simpa using hdots
      obtain rfl : n = d := Option.some.inj (not_not.mp hsame)
      rw [if_pos (show top.fs = (chain n file).root from hfs)] at hcross
      cases hcross
      refine ⟨rfl, hfs, ?_⟩
      obtain ⟨n, rfl⟩ : ∃ n', n = n' + 1 := ⟨n - 1, by omega⟩
      rw [hd]
      rfl
  · rw [if_neg hw, getEntryAt_plain rfl]
    dsimp only
    rw [if_neg (fun hs => (chain_type _ _ _).1 hs.1), hd]
    exact ⟨rfl, hfs, rfl⟩

theorem countP_pos_of_not_settled {words : List (List Char)} (hs : Settled true words = false) : 0 < words.countP isName := by
  by_contra hc
  have hnone : ∀ w ∈ words, isName w = false := by simpa [List.countP_eq_zero] using hc
  suffices Settled true words = true by simp [this] at hs
  clear hs hc
  induction words with
  | nil => rfl
  | cons w words ih =>
    have hw : w = [] ∨ isDots w = true := by
      have := hnone w List.mem_cons_self
      by_cases h : w = [] <;> simp_all [isName]
    have ih := ih fun x hx => hnone x (List.mem_cons_of_mem _ hx)
    cases words with
    | nil => simpa [Settled] using hw
    | cons w' words =>
      rw [settled_cons (List.cons_ne_nil _ _)]
      rcases hw with rfl | hw
      · exact ih
      · split_ifs
        · exact ih
        · rw [hw]
          exact ih

theorem last_ne_nil_of_not_settled {dir : Bool} {words : List (List Char)} (hs : Settled dir words = false) :
    ∃ w ∈ words.getLast?, w ≠ [] := by
  induction words generalizing dir with
  | nil => cases hs
  | cons w words ih =>
    cases words with
    | nil =>
      refine ⟨w, rfl, ?_⟩
      rintro rfl
      simp [Settled] at hs
    | cons w' words =>
      rw [settled_cons (List.cons_ne_nil _ _)] at hs
      exact ih hs

/-- The walk over the path ends in nothing. -/
theorem walk_chain {dir : Bool} (hn : 0 < n) (hs : Settled dir (path.splitOn '/') = false)
    (hfile : ∀ w ∈ (path.splitOn '/').getLast?, file = isDots w)
    (hlc : top.lastComp = path ++ ['/']) (hfs : top.fs = 0)
    (hi : top.fsPath.inode = some ((path.splitOn '/').countP isName)) :
    ((chain n file).walk sub resLastSl (path ++ ['/']) [] top h).rc = none ∧
      ((chain n file).walk sub resLastSl (path ++ ['/']) [] top h).path.fsPath.inode = none := by
  induction path using path_induction generalizing top h dir with
  | last w hw =>
    rw [walk_word hw, List.nil_append]
    rw [words_last hw] at hs hfile hi
    obtain ⟨hne, hdots⟩ : w ≠ [] ∧ ¬(isDots w = true ∧ dir = true) := by simpa [Settled] using hs
    obtain ⟨hrc, -, hinode⟩ := @chain_getEntry sub top h [] n file w _ hn hne hw hlc hfs hi
    have hnone : ((chain n file).getEntry 0 (some ([w].countP isName)) w).inode = none := by
      have hfile := hfile w rfl
      cases hw' : isDots w with
      | true => simp [isName, hw', chain]
      | false => simp [isName, hw', hne, chain, hfile]
    obtain ⟨hrc', hpath⟩ := @atSlash_missing (chain n file) sub top [] resLastSl _ hrc (hinode.trans hnone)
    exact ⟨hrc', by rw [hpath, hinode, hnone]⟩
  | slash w path hw ih =>
    have hne : path ++ ['/'] ≠ [] := by simp
    rw [List.append_assoc, List.cons_append] at hlc ⊢
    rw [walk_word hw, List.nil_append]
    rw [words_slash hw, settled_cons (List.splitOn_ne_nil _ _)] at hs
    rw [words_slash hw] at hfile hi
    have hlast : ∀ w ∈ (path.splitOn '/').getLast?, file = isDots w := by
      intro x hx
      apply hfile
      rw [List.getLast?_cons_of_ne_nil (List.splitOn_ne_nil _ _)]
      exact hx
    by_cases hnil : w = []
    · subst hnil
      have hi : top.fsPath.inode = some ((path.splitOn '/').countP isName) := by simpa [isName] using hi
      rw [resolveGetEntry_nil hlc, atSlash_go rfl (by simp [hi]) hne]
      exact ih hs hlast rfl hfs hi
    · rw [if_neg hnil] at hs
      obtain ⟨hrc, hfs', hinode⟩ := @chain_getEntry sub top h (path ++ ['/']) n file w _ hn hnil hw hlc hfs hi
      have hnext : ((chain n file).getEntry 0 (some ((w :: path.splitOn '/').countP isName)) w).inode =
          some ((path.splitOn '/').countP isName) := by
        cases hdots : isDots w with
        | true =>
          rw [hdots] at hs
          obtain ⟨m, hm⟩ : ∃ m, (path.splitOn '/').countP isName = m + 1 :=
            Nat.exists_eq_add_of_lt (countP_pos_of_not_settled hs) |>.imp fun m hm => by omega
          simp [isName, hdots, hm, chain]
        | false =>
          by_cases hm : 0 < (path.splitOn '/').countP isName
          · simp [isName, hdots, hnil, hm, chain]
          · -- the last component is a dot entry, and the name is that of a file
            have hm : (path.splitOn '/').countP isName = 0 := by omega
            obtain ⟨x, hx, hxne⟩ := last_ne_nil_of_not_settled hs
            have hxname : isName x = false := by
              simpa using List.countP_eq_zero.mp hm x (List.mem_of_getLast? hx)
            have hxdots : isDots x = true := by simpa [isName, hxne] using hxname
            have hfile : file = true := (hlast x hx).trans hxdots
            simp [isName, hdots, hnil, hm, chain, hfile]
      have hnext := hinode.trans hnext
      rw [atSlash_go hrc (by simp [hnext]) hne]
      exact ih hs hlast rfl hfs' hnext

theorem Tree.onDir_startAt (ht : F.Tree isDir cwd) (path : List Char) (h : Held) : OnDir isDir (F.startAt cwd path h).1 := by
  unfold startAt
  split_ifs
  · exact ht.onDir_root _ _
  · exact ht.cwd

/-- **Several slashes in the place of one** do not change what `vfs_resolve` returns in any tree, exactly if they are not at the
end of the path, or a dot entry without a name right before it is there. In a given forest the results are the same exactly
if the slashes are not at the end, or the path up to there does not end in nothing. -/
theorem vfsResolve_slashes (pre rest : List Char) :
    ((∀ F isDir cwd resLastSl h, Tree F isDir cwd → F.SameResult cwd pre rest resLastSl h) ↔
      rest ≠ [] ∨ Settled true (pre.splitOn '/') = true) ∧
    ∀ F cwd resLastSl h, SameResult F cwd pre rest resLastSl h ↔ F.EndExists cwd pre rest resLastSl h := by
  refine ⟨⟨fun heq => ?_, fun hs F isDir cwd resLastSl h ht => ?_⟩, fun F cwd resLastSl h => sameResult_iff⟩
  · by_contra hnot
    obtain ⟨hrest, hs⟩ := not_or.mp hnot
    obtain rfl := not_not.mp hrest
    have hs : Settled true (pre.splitOn '/') = false := Bool.eq_false_iff.mpr hs
    have hn := countP_pos_of_not_settled hs
    obtain ⟨x, hx, -⟩ := last_ne_nil_of_not_settled hs
    let n := (pre.splitOn '/').countP isName
    have hend := sameResult_iff.mp (heq (chain n (isDots x)) _ (chainRoot n) true .zero (tree_chain hn))
    have hstart : (startAt (chain n (isDots x)) (chainRoot n) (pre ++ ['/']) .zero).1 = chainRoot n := by
      unfold startAt
      split_ifs <;> rfl
    obtain ⟨hrc, hi⟩ := @walk_chain (some (resolveInt (chain n (isDots x)) 2 true))
      { (startAt (chain n (isDots x)) (chainRoot n) (pre ++ ['/']) .zero).1 with lastComp := pre ++ ['/'] }
      ((startAt (chain n (isDots x)) (chainRoot n) (pre ++ ['/']) .zero).2.retainInode
        (startAt (chain n (isDots x)) (chainRoot n) (pre ++ ['/']) .zero).1) pre true n (isDots x) true hn hs
      (fun w hw => by rw [Option.mem_unique hw hx]) rfl (by rw [hstart]; rfl) (by rw [hstart]; rfl)
    exact (endExists_iff.mp hend).resolve_left (fun h => h rfl) hrc hi
  · refine sameResult_iff.mpr (endExists_iff.mpr (hs.imp_right fun hs => ?_))
    obtain ⟨d, hd, hdir⟩ := ht.onDir_startAt (pre ++ ['/']) h
    exact ht.walk_settled hs rfl (by simp [hd]) fun _ => ⟨d, hd, hdir⟩

/-- In a tree with a file `/a/b`, and at the end of `/./`. -/
theorem vfsResolve_slashes_chain :
    resultView ((chain 2 true).vfsResolve (chainRoot 2) ['/', 'a', '/', '/', '/', 'b'] true .zero) =
      resultView ((chain 2 true).vfsResolve (chainRoot 2) ['/', 'a', '/', 'b'] true .zero) ∧
    resultView ((chain 2 true).vfsResolve (chainRoot 2) ['/', '.', '/', '/'] true .zero) =
      resultView ((chain 2 true).vfsResolve (chainRoot 2) ['/', '.', '/'] true .zero) :=
  ⟨(vfsResolve_slashes ['/', 'a'] ['b']).1.mpr (.inl (by decide)) (chain 2 true) _ (chainRoot 2) true .zero
      (tree_chain (by decide)) 2,
    (vfsResolve_slashes ['/', '.'] []).1.mpr (.inr (by decide)) (chain 2 true) _ (chainRoot 2) true .zero
      (tree_chain (by decide)) 1⟩

/-- **Two slashes at the end.** There is no `a`: `/a/` resolves to the missing entry of the root, and `/a//` is an error. If `a`
is a file, it is so for `/a/./` and `/a/.//`. -/
theorem vfsResolve_slashes_differ :
    ((∃ p, ((chain 1 false).vfsResolve (chainRoot 1) ['/', 'a', '/'] true .zero).1 = .ok p ∧ p.fsPath.inode = none) ∧
      ((chain 1 false).vfsResolve (chainRoot 1) ['/', 'a', '/', '/'] true .zero).1 = .error .enoent) ∧
    (∃ p, ((chain 1 true).vfsResolve (chainRoot 1) ['/', 'a', '/', '.', '/'] true .zero).1 = .ok p ∧
        p.fsPath.inode = none) ∧
      ((chain 1 true).vfsResolve (chainRoot 1) ['/', 'a', '/', '.', '/', '/'] true .zero).1 = .error .enoent :=
  ⟨⟨⟨_, rfl, rfl⟩, rfl⟩, ⟨_, rfl, rfl⟩, rfl⟩

end Forest

end Usax.Fs
