import Mathlib.Data.List.Induction
import Mathlib.Tactic.SplitIfs
import Usax.Common.Errno

/-!
# Absolute paths

`compute_abs_path` of `fs/vfs_util.c`: the absolute form of a path, computed by looking at the path character by character
and by going back over the last component of what was written for a `..`. A C string is the list of its characters, and the
destination is what has been written of it.

* `absLoop_spec`: what the loop writes is the list of directories that the components of the path lead to;
* `computeAbsPath_normal`: the result is the normal form of the path, and its own one, if no `.` or `..` in the path has two
  slashes behind it and the working directory is in normal form;
* `computeAbsPath_two_slashes`: it is not otherwise.
-/

namespace Usax.Fs

open Common

/-! ## The function -/

/-- The loop of `drop_last_component`: `d` is at this index. -/
def backUp (dest : List Char) : Nat → Nat
  | 0 => 0
  | 1 => 1
  | i + 2 => if dest[i + 1]? = some '/' then i + 2 else backUp dest (i + 1)

def dropLastComponent (dest : List Char) : List Char := dest.take (backUp dest (dest.length - 1))

/-- What is done for a `..`. -/
def goUp (dest : List Char) : List Char := if 1 < dest.length then dropLastComponent dest else dest

def absLoop : (p dest : List Char) → List Char
  | [], dest => dest
  | c :: p, dest =>
    let copyChar := absLoop p (dest ++ [c])
    if c = '/' ∧ p.head? = some '/' then absLoop p dest
    else if c ≠ '.' then copyChar
    else if dest ≠ [] ∧ dest.getLast? ≠ some '/' then copyChar
    else
      match p with
      | [] => dest
      | c₁ :: p =>
        if c₁ = '/' then absLoop p dest
        else if c₁ ≠ '.' then copyChar
        else
          match p with
          | [] => goUp dest
          | c₂ :: p => if c₂ = '/' then absLoop p (goUp dest) else copyChar

/-- The end of `compute_abs_path`: the last slash is dropped if the path does not end in one. -/
def dropSlash (path dest : List Char) : List Char :=
  if 1 < dest.length ∧ dest.getLast? = some '/' ∧ path.getLast? ≠ some '/' then dest.dropLast else dest

def computeAbsPath (path strCwd : List Char) (destS : Nat) : Except Errno (List Char) :=
  if path = [] then .error .enoent
  else if path.head? ≠ some '/' then
    if destS < path.length + strCwd.length + 1 then .error .enametoolong
    else .ok (dropSlash path (absLoop path strCwd))
  else if destS < path.length + 1 then .error .enametoolong
  else .ok (dropSlash path (absLoop path []))

/-! ## The normal form -/

/-- The components of a path, with the empty ones; `cur` is what was read of the first one. -/
def components : (cur path : List Char) → List (List Char)
  | cur, [] => [cur]
  | cur, c :: path => if c = '/' then cur :: components [] path else components (cur ++ [c]) path

/-- `.` or `..`. -/
def isDots (x : List Char) : Bool := x = ['.'] ∨ x = ['.', '.']

/-- One component, from the directories that were passed. -/
def enter (dirs : List (List Char)) (x : List Char) : List (List Char) :=
  if x = [] ∨ x = ['.'] then dirs else if x = ['.', '.'] then dirs.dropLast else dirs ++ [x]

/-- Where a path leads to from a directory. -/
def walkTo (dirs : List (List Char)) (path : List Char) : List (List Char) := (components [] path).foldl enter dirs

/-- The path of a directory, with a slash at the end. -/
def dirPath (dirs : List (List Char)) : List Char := '/' :: dirs.flatMap (· ++ ['/'])

/-- The path of an entry, with a slash at the end or without. -/
def absPath (dirs : List (List Char)) (slash : Bool) : List Char :=
  if dirs ≠ [] ∧ !slash then (dirPath dirs).dropLast else dirPath dirs

structure IsName (x : List Char) : Prop where
  ne_nil : x ≠ []
  noSlash : '/' ∉ x
  notDots : isDots x = false

/-- No `.` or `..` has two slashes behind it. -/
def tidy : (cur path : List Char) → Prop
  | _, [] => True
  | cur, c :: path => if c = '/' then (isDots cur = true → path.head? ≠ some '/') ∧ tidy [] path else tidy (cur ++ [c]) path

/-! ## Going up -/

variable {dirs : List (List Char)} {cur path p x : List Char}

theorem dirPath_concat : dirPath (dirs ++ [x]) = dirPath dirs ++ (x ++ ['/']) := by simp [dirPath]

theorem dirPath_getLast : (dirPath dirs).getLast? = some '/' := by
  cases dirs using List.reverseRecOn with
  | nil => rfl
  | append_singleton dirs x => rw [dirPath_concat, ← List.append_assoc, List.getLast?_concat]

theorem length_dirPath : 1 < (dirPath dirs).length ↔ dirs ≠ [] := by
  cases dirs with
  | nil => simp [dirPath]
  | cons x dirs =>
    simp only [dirPath, List.flatMap_cons, List.length_cons, List.length_append, ne_eq, reduceCtorEq, not_false_eq_true,
      iff_true]
    omega

theorem backUp_name (hx : '/' ∉ x) {pre post : List Char} (hp : pre.getLast? = some '/') :
    backUp (pre ++ x ++ post) (pre.length + x.length) = pre.length := by
  induction x using List.reverseRecOn generalizing post with
  | nil =>
    obtain ⟨l, rfl⟩ := List.getLast?_eq_some_iff.mp hp
    cases l with
    | nil => rfl
    | cons a l =>
      have hlen : (a :: l ++ ['/']).length + ([] : List Char).length = l.length + 2 := by simp
      rw [hlen, backUp, if_pos (by simp)]
      simp
  | append_singleton x c ih =>
    have hc : c ≠ '/' := fun h => hx (by simp [h])
    obtain ⟨l, rfl⟩ := List.getLast?_eq_some_iff.mp hp
    have hlen : (l ++ ['/']).length + (x ++ [c]).length = (l.length + x.length) + 2 := by simp; omega
    have hget : (l ++ ['/'] ++ (x ++ [c]) ++ post)[l.length + x.length + 1]? = some c := by
      rw [List.append_assoc, List.getElem?_append_right (by simp)]
      simp
    rw [hlen, backUp, hget, if_neg (by simpa using hc)]
    have := @ih (fun h => hx (List.mem_append_left _ h)) (c :: post)
    simp only [List.append_assoc, List.cons_append, List.nil_append, List.length_append, List.length_cons,
      List.length_nil] at this ⊢
    rw [← this]
    congr 1
    omega

theorem goUp_dirPath (hd : ∀ x ∈ dirs, IsName x) : goUp (dirPath dirs) = dirPath dirs.dropLast := by
  cases dirs using List.reverseRecOn with
  | nil => rfl
  | append_singleton dirs x =>
    have hx := hd x (by simp)
    rw [goUp, if_pos (length_dirPath.mpr (by simp)), dropLastComponent, List.dropLast_concat]
    have hback := @backUp_name x hx.noSlash (dirPath dirs) ['/'] dirPath_getLast
    rw [dirPath_concat, ← List.append_assoc]
    have hidx : (dirPath dirs ++ x ++ ['/']).length - 1 = (dirPath dirs).length + x.length := by simp
    rw [hidx, hback, List.append_assoc, List.take_left]

/-! ## The loop -/

/-- The loop is in a component of which `cur` was written, behind the directories `dirs`. -/
structure AtPos (dirs : List (List Char)) (cur p : List Char) : Prop where
  names : ∀ x ∈ dirs, IsName x
  noSlash : '/' ∉ cur
  notDots : cur ≠ [] → isDots (cur ++ p.takeWhile (· ≠ '/')) = false
  start : cur = [] → p.head? ≠ some '/'
  tidy : tidy cur p

namespace AtPos

variable {c c₁ c₂ : Char}

theorem isName (h : AtPos dirs cur p) (hne : cur ≠ []) (hp : p.takeWhile (· ≠ '/') = []) : IsName cur := by
  have hd := h.notDots hne
  rw [hp, List.append_nil] at hd
  exact ⟨hne, h.noSlash, hd⟩

theorem copy (h : AtPos dirs cur (c :: p)) (hc : c ≠ '/') (hd : isDots (cur ++ c :: p.takeWhile (· ≠ '/')) = false) :
    AtPos dirs (cur ++ [c]) p := by
  refine ⟨h.names, ?_, fun _ => by simpa using hd, fun h => by simp at h, ?_⟩
  · simpa [h.noSlash] using fun h => hc h.symm
  · have ht := h.tidy
    rwa [Fs.tidy, if_neg hc] at ht

theorem skip (h : AtPos dirs cur ('/' :: '/' :: p)) : AtPos dirs cur ('/' :: p) := by
  have hne : cur ≠ [] := fun hc => h.start hc rfl
  have ht := h.tidy
  simp only [Fs.tidy, if_true, List.head?_cons] at ht
  refine ⟨h.names, h.noSlash, fun _ => by simpa using h.notDots hne, fun hc => absurd hc hne, ?_⟩
  simp only [Fs.tidy, if_true]
  exact ⟨fun hd => absurd rfl (ht.1 hd), ht.2.2⟩

theorem slash (h : AtPos dirs cur ('/' :: p)) (hp : p.head? ≠ some '/') : IsName cur ∧ AtPos (dirs ++ [cur]) [] p := by
  have hname := h.isName (fun hc => h.start hc rfl) (by simp)
  have ht := h.tidy
  rw [Fs.tidy, if_pos rfl] at ht
  refine ⟨hname, fun x hx => ?_, by simp, fun h => absurd rfl h, fun _ => hp, ht.2⟩
  rcases List.mem_append.mp hx with hx | hx
  · exact h.names x hx
  · rw [List.mem_singleton.mp hx]
    exact hname

theorem dots (h : AtPos dirs [] (x ++ '/' :: p)) (hx : isDots x = true) {dirs' : List (List Char)}
    (hn : ∀ x ∈ dirs', IsName x) : AtPos dirs' [] p := by
  have ht : (isDots x = true → p.head? ≠ some '/') ∧ Fs.tidy [] p := by
    have ht := h.tidy
    simp only [isDots, Bool.decide_or, Bool.or_eq_true, decide_eq_true_eq] at hx
    rcases hx with rfl | rfl <;> simpa [Fs.tidy] using ht
  exact ⟨hn, by simp, fun h => absurd rfl h, fun _ => ht.1 hx, ht.2⟩

end AtPos

/-- What the loop leaves: directories, and a name if the path does not end in a slash. -/
def Written (dirs : List (List Char)) (cur p dest : List Char) : Prop :=
  ∃ dirs' cur', dest = dirPath dirs' ++ cur' ∧ (∀ x ∈ dirs', IsName x) ∧
    (cur' = [] ∨ IsName cur' ∧ ∃ c, c ≠ '/' ∧ (cur ++ p).getLast? = some c) ∧
    enter dirs' cur' = (components cur p).foldl enter dirs

theorem Written.of_eq {dirs₁ : List (List Char)} {cur₁ p₁ dest : List Char} (h : Written dirs₁ cur₁ p₁ dest)
    (hlast : ∀ c, (cur₁ ++ p₁).getLast? = some c → (cur ++ p).getLast? = some c)
    (heq : (components cur₁ p₁).foldl enter dirs₁ = (components cur p).foldl enter dirs) : Written dirs cur p dest := by
  obtain ⟨dirs', cur', hdest, hn, hc, hfold⟩ := h
  exact ⟨dirs', cur', hdest, hn, hc.imp_right fun ⟨hname, c, hne, hl⟩ => ⟨hname, c, hne, hlast c hl⟩, hfold.trans heq⟩

theorem IsName.enter (h : IsName x) : enter dirs x = dirs ++ [x] := by
  have hd := h.notDots
  simp only [isDots, Bool.decide_or, Bool.or_eq_false_iff, decide_eq_false_iff_not] at hd
  simp [Fs.enter, h.ne_nil, hd.1, hd.2]

theorem getLast_dirPath_append (hcur : '/' ∉ cur) : (dirPath dirs ++ cur).getLast? = some '/' ↔ cur = [] := by
  rw [List.getLast?_append, dirPath_getLast]
  cases cur using List.reverseRecOn with
  | nil => simp
  | append_singleton l a =>
    have ha : a ≠ '/' := fun h => hcur (by simp [h])
    simp [ha]

/-- **The loop** follows the components of the path. -/
theorem absLoop_spec (h : AtPos dirs cur p) : Written dirs cur p (absLoop p (dirPath dirs ++ cur)) := by
  induction hlen : p.length using Nat.strongRecOn generalizing p cur dirs with
  | ind n ih =>
  -- the rest of the path behind a component
  have hrest {pre q : List Char} {dirs₁ : List (List Char)} (hq : p = pre ++ q) (hpre : pre ≠ []) (hpos : AtPos dirs₁ [] q)
      (heq : (components [] q).foldl enter dirs₁ = (components cur p).foldl enter dirs) :
      Written dirs cur p (absLoop q (dirPath dirs₁)) := by
    have hlt : q.length < n := by
      rw [← hlen, hq, List.length_append]
      exact Nat.lt_add_of_pos_left (List.length_pos_iff.mpr hpre)
    have hrun := ih q.length hlt hpos rfl
    rw [List.append_nil] at hrun
    refine hrun.of_eq (fun c hc => ?_) heq
    rw [List.nil_append] at hc
    rw [hq, List.getLast?_append, List.getLast?_append, hc]
    rfl
  cases p with
  | nil =>
    refine ⟨dirs, cur, rfl, h.names, ?_, rfl⟩
    cases hc : cur using List.reverseRecOn with
    | nil => exact .inl rfl
    | append_singleton l a =>
      subst hc
      exact .inr ⟨h.isName (by simp) rfl, a, fun ha => h.noSlash (by simp [ha]), by simp⟩
  | cons c p =>
    have hlt : p.length < n := by rw [← hlen, List.length_cons]; exact Nat.lt_succ_self _
    have hcopy (hc : c ≠ '/') (hd : isDots (cur ++ c :: p.takeWhile (· ≠ '/')) = false) :
        Written dirs cur (c :: p) (absLoop p (dirPath dirs ++ cur ++ [c])) := by
      have hrun := ih p.length hlt (h.copy hc hd) rfl
      rw [← List.append_assoc] at hrun
      exact hrun.of_eq (fun _ hl => by simpa using hl) (by rw [components, if_neg hc])
    rw [absLoop.eq_def]
    dsimp only
    by_cases hslash : c = '/'
    · subst hslash
      by_cases hp : p.head? = some '/'
      · obtain ⟨r, rfl⟩ : ∃ r, p = '/' :: r := List.head?_eq_some_iff.mp hp
        rw [if_pos ⟨rfl, hp⟩]
        refine (ih _ hlt h.skip rfl).of_eq (fun c hl => ?_) (by simp [components, enter])
        simpa [List.getLast?_append] using hl
      · rw [if_neg fun hc => hp hc.2, if_pos (by decide)]
        obtain ⟨hname, hpos⟩ := h.slash hp
        have hwritten := @hrest ['/'] p (dirs ++ [cur]) rfl (by simp) hpos (by simp [components, hname.enter])
        rwa [dirPath_concat, ← List.append_assoc] at hwritten
    · rw [if_neg fun hc => hslash hc.1]
      by_cases hdot : c = '.'
      · subst hdot
        rw [if_neg (by simp)]
        by_cases hcur : cur = []
        · -- at the start of a component
          subst hcur
          rw [if_neg fun hc => hc.2 ((getLast_dirPath_append h.noSlash).mpr rfl)]
          have hup := goUp_dirPath h.names
          have hdrop : ∀ x ∈ dirs.dropLast, IsName x := fun x hx => h.names x (List.dropLast_subset _ hx)
          simp only [List.append_nil] at hcopy ⊢
          cases p with
          | nil => exact ⟨dirs, [], by simp, h.names, .inl rfl, by simp [components, enter]⟩
          | cons c₁ p =>
            dsimp only
            by_cases h₁ : c₁ = '/'
            · subst h₁
              rw [if_pos rfl]
              exact @hrest ['.', '/'] p dirs rfl (by simp) (@AtPos.dots dirs p ['.'] h rfl _ h.names)
                (by simp [components, enter])
            · rw [if_neg h₁]
              by_cases h₂ : c₁ = '.'
              · subst h₂
                rw [if_neg (by simp)]
                cases p with
                | nil =>
                  dsimp only
                  rw [hup]
                  exact ⟨dirs.dropLast, [], by simp, hdrop, .inl rfl, by simp [components, enter]⟩
                | cons c₂ p =>
                  dsimp only
                  by_cases h₃ : c₂ = '/'
                  · subst h₃
                    rw [if_pos rfl, hup]
                    exact @hrest ['.', '.', '/'] p dirs.dropLast rfl (by simp)
                      (@AtPos.dots dirs p ['.', '.'] h rfl _ hdrop) (by simp [components, enter])
                  · rw [if_neg h₃]
                    exact hcopy hslash (by simp [isDots, h₃])
              · rw [if_pos h₂]
                exact hcopy hslash (by simp [isDots, h₁, h₂])
        · have hne : dirPath dirs ++ cur ≠ [] := by simp [dirPath]
          rw [if_pos ⟨hne, fun hl => hcur ((getLast_dirPath_append h.noSlash).mp hl)⟩]
          exact hcopy hslash (by simpa using h.notDots hcur)
      · rw [if_pos hdot]
        refine hcopy hslash ?_
        by_cases hcur : cur = []
        · subst hcur
          simp [isDots, hdot]
        · have := h.notDots hcur
          rwa [List.takeWhile_cons_of_pos (by simpa using hslash)] at this

theorem absLoop_absolute (hp : path.head? = some '/') (ht : tidy [] path) : Written [] [] path (absLoop path []) := by
  induction path with
  | nil => cases hp
  | cons c path ih =>
    obtain rfl : c = '/' := by simpa using hp
    have htidy : tidy [] path := by
      rw [tidy, if_pos rfl] at ht
      exact ht.2
    have heq : (components [] path).foldl enter [] = (components [] ('/' :: path)).foldl enter [] := by
      simp [components, enter]
    have hlast : ∀ c, ([] ++ path).getLast? = some c → ([] ++ '/' :: path).getLast? = some c := by
      intro c hc
      rw [List.nil_append] at hc
      rw [List.nil_append, ← List.singleton_append, List.getLast?_append, hc]
      rfl
    rw [absLoop.eq_def]
    dsimp only
    by_cases hslash : path.head? = some '/'
    · rw [if_pos ⟨rfl, hslash⟩]
      exact (ih hslash htidy).of_eq hlast heq
    · rw [if_neg fun hc => hslash hc.2, if_pos (by decide)]
      have hpos : AtPos [] [] path := ⟨by simp, by simp, fun h => absurd rfl h, fun _ => hslash, htidy⟩
      exact (absLoop_spec hpos).of_eq hlast heq

/-! ## The result -/

theorem Written.dropSlash {dest : List Char} (h : Written dirs [] path dest) :
    dropSlash path dest = absPath (walkTo dirs path) (path.getLast? = some '/') ∧ ∀ x ∈ walkTo dirs path, IsName x := by
  obtain ⟨dirs', cur', rfl, hn, hc, hfold⟩ := h
  rw [walkTo, ← hfold]
  rcases hc with rfl | ⟨hname, c, hc, hlast⟩
  · have heq : enter dirs' [] = dirs' := by simp [enter]
    rw [heq, List.append_nil, Fs.dropSlash, absPath, dirPath_getLast]
    exact ⟨by simp [length_dirPath], hn⟩
  · rw [List.nil_append] at hlast
    have hkeep : ¬(dirPath dirs' ++ cur').getLast? = some '/' := fun h =>
      hname.ne_nil ((getLast_dirPath_append hname.noSlash).mp h)
    rw [hname.enter, Fs.dropSlash, if_neg fun h => hkeep h.2.1, absPath, hlast, if_pos (by simp [hc]), dirPath_concat,
      ← List.append_assoc, List.dropLast_concat]
    refine ⟨rfl, fun x hx => ?_⟩
    rcases List.mem_append.mp hx with hx | hx
    · exact hn x hx
    · rw [List.mem_singleton.mp hx]
      exact hname

theorem length_goUp (dest : List Char) : (goUp dest).length ≤ dest.length := by
  unfold goUp dropLastComponent
  split_ifs
  · exact List.length_take_le' _ _
  · exact Nat.le_refl _

theorem length_absLoop (p dest : List Char) : (absLoop p dest).length ≤ dest.length + p.length := by
  have hup := length_goUp
  fun_induction absLoop p dest <;> grind

theorem length_dropSlash (path dest : List Char) : (dropSlash path dest).length ≤ dest.length := by
  unfold dropSlash
  split_ifs <;> simp

/-! ## The normal form of a normal form -/

theorem components_append {q : List Char} (hx : '/' ∉ x) :
    components cur (x ++ '/' :: q) = (cur ++ x) :: components [] q := by
  induction x generalizing cur with
  | nil => simp [components]
  | cons c x ih =>
    have hc : c ≠ '/' := fun h => hx (by simp [h])
    rw [List.cons_append, components, if_neg hc, ih fun h => hx (List.mem_cons_of_mem _ h)]
    simp

theorem components_name (hx : '/' ∉ x) : components cur x = [cur ++ x] := by
  induction x generalizing cur with
  | nil => simp [components]
  | cons c x ih =>
    have hc : c ≠ '/' := fun h => hx (by simp [h])
    rw [components, if_neg hc, ih fun h => hx (List.mem_cons_of_mem _ h)]
    simp

theorem components_dirPath (hd : ∀ x ∈ dirs, IsName x) (hx : '/' ∉ x) :
    components [] (dirPath dirs ++ x) = [] :: dirs ++ [x] := by
  have hflat : components [] (dirs.flatMap (· ++ ['/']) ++ x) = dirs ++ [x] := by
    induction dirs with
    | nil => simpa using @components_name [] x hx
    | cons y dirs ih =>
      rw [List.flatMap_cons, List.append_assoc, List.append_assoc, List.singleton_append,
        components_append (hd y (by simp)).noSlash, ih fun z hz => hd z (by simp [hz])]
      simp
  rw [dirPath, List.cons_append, components, if_pos rfl, hflat]
  rfl

theorem tidy_of_components (h : ∀ x ∈ components cur p, isDots x = false) : tidy cur p := by
  induction p generalizing cur with
  | nil => trivial
  | cons c p ih =>
    rw [components] at h
    rw [tidy]
    split_ifs at h ⊢
    · exact ⟨fun hd => by simp [h cur (by simp)] at hd, ih fun x hx => h x (by simp [hx])⟩
    · exact ih h

theorem foldl_enter_names (hd : ∀ x ∈ dirs, IsName x) (dirs₀ : List (List Char)) :
    dirs.foldl enter dirs₀ = dirs₀ ++ dirs := by
  induction dirs generalizing dirs₀ with
  | nil => simp
  | cons x dirs ih =>
    rw [List.foldl_cons, (hd x (by simp)).enter, ih fun y hy => hd y (by simp [hy])]
    simp

theorem computeAbsPath_absPath (hd : ∀ x ∈ dirs, IsName x) (slash : Bool) {destS : Nat} (strCwd : List Char)
    (hlen : (absPath dirs slash).length < destS) :
    computeAbsPath (absPath dirs slash) strCwd destS = .ok (absPath dirs slash) := by
  -- the path is that of a directory with a name behind it, or nothing
  obtain ⟨l, x, hpath, hl, hx, hto, hslash⟩ : ∃ l x, absPath dirs slash = dirPath l ++ x ∧ (∀ y ∈ l, IsName y) ∧
      (x = [] ∨ IsName x) ∧ enter l x = dirs ∧ (dirs = [] ∨ decide (x = []) = slash) := by
    cases hs : decide (dirs ≠ [] ∧ !slash) with
    | false =>
      rw [decide_eq_false_iff_not] at hs
      refine ⟨dirs, [], by rw [absPath, if_neg hs, List.append_nil], hd, .inl rfl, by simp [enter], ?_⟩
      by_cases hnil : dirs = []
      · exact .inl hnil
      · exact .inr (by cases slash <;> simp_all)
    | true =>
      rw [decide_eq_true_eq] at hs
      obtain ⟨hne, hslash⟩ := hs
      cases dirs using List.reverseRecOn with
      | nil => exact absurd rfl hne
      | append_singleton l x =>
        have hx := hd x (by simp)
        refine ⟨l, x, ?_, fun y hy => hd y (by simp [hy]), .inr hx, hx.enter, .inr ?_⟩
        · rw [absPath, if_pos ⟨hne, hslash⟩, dirPath_concat, ← List.append_assoc, List.dropLast_concat]
        · simp [hx.ne_nil, show slash = false by simpa using hslash]
  have hxs : '/' ∉ x := by
    rcases hx with rfl | hx
    · simp
    · exact hx.noSlash
  have hcomp := components_dirPath hl hxs
  rw [← hpath] at hcomp
  have hhead : (absPath dirs slash).head? = some '/' := by rw [hpath]; rfl
  have hne : absPath dirs slash ≠ [] := fun h => by simp [h] at hhead
  have htidy : tidy [] (absPath dirs slash) := by
    refine tidy_of_components fun y hy => ?_
    rw [hcomp] at hy
    simp only [List.cons_append, List.mem_cons, List.mem_append, List.not_mem_nil, or_false] at hy
    rcases hy with rfl | hy | rfl
    · rfl
    · exact (hl y hy).notDots
    · rcases hx with rfl | hx
      · rfl
      · exact hx.notDots
  have hwalk : walkTo [] (absPath dirs slash) = dirs := by
    rw [walkTo, hcomp, List.cons_append, List.foldl_cons, List.foldl_append, ← hto]
    simp [foldl_enter_names hl, enter]
  have hend : absPath dirs ((absPath dirs slash).getLast? = some '/') = absPath dirs slash := by
    rcases hslash with rfl | hslash
    · rfl
    · have hiff := @getLast_dirPath_append l x hxs
      rw [← hpath] at hiff
      simp only [hiff, hslash]
  rw [computeAbsPath, if_neg hne, if_neg (by simp [hhead]), if_neg (by omega),
    (absLoop_absolute hhead htidy).dropSlash.1, hwalk, hend]

/-- **The result is the normal form of the path**, and its own normal form, if no `.` or `..` has two slashes behind it. A
relative path starts at a working directory that is given in normal form. -/
theorem computeAbsPath_normal {strCwd : List Char} (hd : ∀ x ∈ dirs, IsName x)
    (hcwd : path.head? ≠ some '/' → strCwd = dirPath dirs) (ht : tidy [] path) {destS : Nat} {dest : List Char}
    (hres : computeAbsPath path strCwd destS = .ok dest) :
    let dirs' := walkTo (if path.head? = some '/' then [] else dirs) path
    dest = absPath dirs' (path.getLast? = some '/') ∧ (∀ x ∈ dirs', IsName x) ∧ dest.length < destS ∧
      ∀ strCwd' destS', dest.length < destS' → computeAbsPath dest strCwd' destS' = .ok dest := by
  have hlenLoop := length_absLoop path
  have hlenDrop := length_dropSlash path
  unfold computeAbsPath at hres
  split_ifs at hres with hne hhead hfits hfits <;> cases hres
  · obtain rfl := hcwd hhead
    have hpos : AtPos dirs [] path := ⟨hd, by simp, fun h => absurd rfl h, fun _ => hhead, ht⟩
    have hw := absLoop_spec hpos
    rw [List.append_nil] at hw
    obtain ⟨heq, hn⟩ := hw.dropSlash
    dsimp only
    rw [if_neg hhead]
    refine ⟨heq, hn, ?_, fun strCwd' destS' hlt => ?_⟩
    · have h₁ := hlenLoop (dirPath dirs)
      have h₂ := hlenDrop (absLoop path (dirPath dirs))
      omega
    · rw [heq] at hlt ⊢
      exact computeAbsPath_absPath hn _ strCwd' hlt
  · have hhead : path.head? = some '/' := by simpa using hhead
    obtain ⟨heq, hn⟩ := (absLoop_absolute hhead ht).dropSlash
    dsimp only
    rw [if_pos hhead]
    refine ⟨heq, hn, ?_, fun strCwd' destS' hlt => ?_⟩
    · have h₁ := hlenLoop []
      have h₂ := hlenDrop (absLoop path [])
      rw [List.length_nil] at h₁
      omega
    · rw [heq] at hlt ⊢
      exact computeAbsPath_absPath hn _ strCwd' hlt

theorem computeAbsPath_normal_up :
    computeAbsPath ['.', '.', '/', 'b', '/', '/'] ['/', 'a', '/'] 12 = .ok ['/', 'b', '/'] ∧
      ['/', 'b', '/'] = absPath [['b']] true ∧ computeAbsPath ['/', 'b', '/'] ['/'] 4 = .ok ['/', 'b', '/'] := by
  have hres : computeAbsPath ['.', '.', '/', 'b', '/', '/'] ['/', 'a', '/'] 12 = .ok ['/', 'b', '/'] := rfl
  have hname : ∀ x ∈ [['a']], IsName x := by
    simp only [List.mem_singleton]
    rintro x rfl
    exact ⟨by decide, by decide, rfl⟩
  have htidy : tidy [] ['.', '.', '/', 'b', '/', '/'] := by simp [tidy, isDots]
  obtain ⟨heq, -, -, hagain⟩ := computeAbsPath_normal hname (fun _ => rfl) htidy hres
  exact ⟨hres, heq, hagain ['/'] 4 (by decide)⟩

/-- The slash behind a `./` is written though one is there: `/.//a` gives `//a`. -/
theorem computeAbsPath_two_slashes :
    computeAbsPath ['/', '.', '/', '/', 'a'] ['/'] 16 = .ok ['/', '/', 'a'] ∧
      walkTo [] ['/', '.', '/', '/', 'a'] = [['a']] ∧ absPath [['a']] false = ['/', 'a'] ∧
        computeAbsPath ['/', '/', 'a'] ['/'] 16 = .ok ['/', 'a'] :=
  ⟨rfl, rfl, rfl, rfl⟩

end Usax.Fs
