import Mathlib.Algebra.Order.Ring.Int
import Mathlib.Data.List.Pairwise
import Usax.Bintree.Defs

/-!
# Sorted and balanced trees

The objects of a tree in order (`toList`), and balanced trees whose stored heights are true (`Avl`). A slot of a tree has
objects before and after it (`before`, `after`), and is as high as what it pointed to, up to one level (`Close`): that is
enough for the slots above it to be balanced (`unwind_spec`).

The main result is `Reachable.refines_map`: a tree is a finite set of keys, as long as it is lower than the stack. A tree of
integers that is not is reached (`exists_high`), and an insertion in it writes past the stack (`insert_overflow`).
-/

namespace Usax.Bintree

variable {α : Type} {c : α → Int} {x y : α} {h : Nat} {t l r : Tree α} {fs gs : List (Frame α)} {n : Nat}

/-! ## Objects and levels -/

namespace Tree

def toList : Tree α → List α
  | nil => []
  | node x _ l r => l.toList ++ x :: r.toList

def levels : Tree α → Nat
  | nil => 0
  | node _ _ l r => max l.levels r.levels + 1

/-- Every stored height is the true one, and every balance factor is -1, 0 or 1. -/
def Avl : Tree α → Prop
  | nil => True
  | node _ h l r => h = max l.levels r.levels ∧ l.levels ≤ r.levels + 1 ∧ r.levels ≤ l.levels + 1 ∧ l.Avl ∧ r.Avl

def HeightOk (t : Tree α) : Prop := t.height = t.levels - 1

def mk (x : α) (l r : Tree α) : Tree α := node x (max l.levels r.levels) l r

theorem heightOk_mk : (mk x l r).HeightOk := by
  simp [HeightOk, mk, height, levels]

theorem Avl.heightOk (ht : t.Avl) : t.HeightOk := by
  cases t with
  | nil => rfl
  | node x h l r => simp [HeightOk, height, levels, ht.1]

theorem avl_mk : (mk x l r).Avl ↔ l.levels ≤ r.levels + 1 ∧ r.levels ≤ l.levels + 1 ∧ l.Avl ∧ r.Avl := by
  simp [mk, Avl]

theorem levels_mk : (mk x l r).levels = max l.levels r.levels + 1 := rfl

theorem updateHeight_node (hl : l.HeightOk) (hr : r.HeightOk) (hs : max l.levels r.levels < 2 ^ 16) :
    updateHeight (node x h l r) = mk x l r := by
  rw [HeightOk] at hl hr
  rw [updateHeight, mk, hl, hr]
  congr 1
  omega

theorem updateHeight_mk (hl : l.HeightOk) (hr : r.HeightOk) (hs : max l.levels r.levels < 2 ^ 16) :
    updateHeight (mk x l r) = mk x l r := updateHeight_node hl hr hs

@[simp] theorem toList_updateHeight : t.updateHeight.toList = t.toList := by
  cases t <;> rfl

@[simp] theorem toList_rotateLeftChild : t.rotateLeftChild.toList = t.toList := by
  unfold rotateLeftChild
  split
  · simp [updateHeight, toList]
  · rfl

@[simp] theorem toList_rotateRightChild : t.rotateRightChild.toList = t.toList := by
  unfold rotateRightChild
  split
  · simp [updateHeight, toList]
  · rfl

@[simp] theorem toList_balance : t.balance.toList = t.toList := by
  cases t with
  | nil => rfl
  | node x h l r =>
    rw [balance, toList_updateHeight]
    split_ifs <;> simp [toList]

/-! ### Mirror images -/

def mirror : Tree α → Tree α
  | nil => nil
  | node x h l r => node x h r.mirror l.mirror

@[simp] theorem height_mirror : t.mirror.height = t.height := by
  cases t <;> rfl

@[simp] theorem levels_mirror : t.mirror.levels = t.levels := by
  induction t with
  | nil => rfl
  | node x h l r ihl ihr => rw [mirror, levels, levels, ihl, ihr, Nat.max_comm]

theorem avl_mirror : t.mirror.Avl ↔ t.Avl := by
  induction t with
  | nil => exact Iff.rfl
  | node x h l r ihl ihr =>
    rw [mirror, Avl, Avl, ihl, ihr, levels_mirror, levels_mirror, Nat.max_comm]
    tauto

theorem updateHeight_mirror : t.mirror.updateHeight = t.updateHeight.mirror := by
  cases t with
  | nil => rfl
  | node x h l r => rw [mirror, updateHeight, updateHeight, mirror, height_mirror, height_mirror, max_comm]

theorem rotateLeftChild_mirror : t.mirror.rotateLeftChild = t.rotateRightChild.mirror := by
  rcases t with _ | ⟨x, h, l, _ | ⟨y, hy, rl, rr⟩⟩
  · rfl
  · rfl
  · simp only [rotateRightChild, rotateLeftChild, mirror, ← updateHeight_mirror]

theorem rotateRightChild_mirror : t.mirror.rotateRightChild = t.rotateLeftChild.mirror := by
  rcases t with _ | ⟨x, h, _ | ⟨y, hy, ll, lr⟩, r⟩
  · rfl
  · rfl
  · simp only [rotateRightChild, rotateLeftChild, mirror, ← updateHeight_mirror]

theorem balance_mirror (t : Tree α) : t.mirror.balance = t.balance.mirror := by
  cases t with
  | nil => rfl
  | node x h l r =>
    have hleft (t : Tree α) : t.mirror.leftOf = t.rightOf.mirror := by cases t <;> rfl
    have hright (t : Tree α) : t.mirror.rightOf = t.leftOf.mirror := by cases t <;> rfl
    rw [mirror, balance, balance, ← updateHeight_mirror]
    simp only [height_mirror, hleft, hright]
    congr 1
    by_cases hl : l.height - r.height > 1
    · rw [if_neg (by omega), if_pos (by omega), if_pos hl, apply_ite mirror, ← rotateRightChild_mirror,
        ← rotateRightChild_mirror, rotateLeftChild_mirror]
      rfl
    · by_cases hr : l.height - r.height < -1
      · rw [if_pos (by omega), if_neg hl, if_pos hr, apply_ite mirror, ← rotateLeftChild_mirror, ← rotateLeftChild_mirror,
          rotateRightChild_mirror]
        rfl
      · rw [if_neg (by omega), if_neg (by omega), if_neg hl, if_neg hr]
        rfl

end Tree

open Usax.Bintree.Tree

def Close (a b : Nat) : Prop := a ≤ b + 1 ∧ b ≤ a + 1

/-! ## Balancing -/

theorem balance_left (hl : l.Avl) (hr : r.Avl) (he : l.levels = r.levels + 2) (hs : l.levels < 2 ^ 16) :
    (balance (node x h l r)).Avl ∧
      (l.levels ≤ (balance (node x h l r)).levels ∧ (balance (node x h l r)).levels ≤ l.levels + 1) := by
  cases l with
  | nil => simp [levels] at he
  | node y hy ll lr =>
    have hbf : (node y hy ll lr).height - r.height > 1 := by
      rw [hl.heightOk, hr.heightOk, he]
      omega
    obtain ⟨-, h₁, h₂, hll, hlr⟩ := hl
    have hlev : max ll.levels lr.levels + 1 = r.levels + 2 := he
    have hs' : max ll.levels lr.levels + 1 < 2 ^ 16 := hs
    rw [balance, if_pos hbf]
    by_cases hge : (node y hy ll lr).leftOf.height ≥ (node y hy ll lr).rightOf.height
    · rw [if_pos hge]
      rw [leftOf, rightOf, hll.heightOk, hlr.heightOk] at hge
      have hin : max lr.levels r.levels < 2 ^ 16 := by omega
      have hout : max ll.levels (mk x lr r).levels < 2 ^ 16 := by rw [levels_mk]; omega
      rw [rotateLeftChild, updateHeight_node hlr.heightOk hr.heightOk hin, updateHeight_node hll.heightOk heightOk_mk hout,
        updateHeight_mk hll.heightOk heightOk_mk hout]
      rw [avl_mk, avl_mk]
      simp only [levels_mk]
      exact ⟨⟨by omega, by omega, hll, by omega, by omega, hlr, hr⟩, by omega, by omega⟩
    · rw [if_neg hge]
      rw [leftOf, rightOf, hll.heightOk, hlr.heightOk] at hge
      cases lr with
      | nil =>
        have hnil : (nil : Tree α).levels = 0 := rfl
        omega
      | node z hz zl zr =>
        obtain ⟨-, h₃, h₄, hzl, hzr⟩ := hlr
        have hz' : (node z hz zl zr).levels = max zl.levels zr.levels + 1 := rfl
        rw [hz'] at hlev hge h₁ h₂ hs'
        have b₁ : max ll.levels zl.levels < 2 ^ 16 := by omega
        have b₂ : max (mk y ll zl).levels zr.levels < 2 ^ 16 := by rw [levels_mk]; omega
        have b₃ : max zr.levels r.levels < 2 ^ 16 := by omega
        have b₄ : max (mk y ll zl).levels (mk x zr r).levels < 2 ^ 16 := by rw [levels_mk, levels_mk]; omega
        rw [rotateRightChild, updateHeight_node hll.heightOk hzl.heightOk b₁, updateHeight_node heightOk_mk hzr.heightOk b₂,
          mk.eq_def z, rotateLeftChild, updateHeight_node hzr.heightOk hr.heightOk b₃,
          updateHeight_node heightOk_mk heightOk_mk b₄, updateHeight_mk heightOk_mk heightOk_mk b₄]
        rw [avl_mk, avl_mk, avl_mk]
        simp only [levels_mk]
        exact ⟨⟨by omega, by omega, ⟨by omega, by omega, hll, hzl⟩, by omega, by omega, hzr, hr⟩, by omega, by omega⟩

theorem balance_right (hl : l.Avl) (hr : r.Avl) (he : r.levels = l.levels + 2) (hs : r.levels < 2 ^ 16) :
    (balance (node x h l r)).Avl ∧
      (r.levels ≤ (balance (node x h l r)).levels ∧ (balance (node x h l r)).levels ≤ r.levels + 1) := by
  have hbal := @balance_left α x h r.mirror l.mirror (avl_mirror.mpr hr) (avl_mirror.mpr hl) (by simpa using he)
    (by simpa using hs)
  have hmirror : balance (node x h r.mirror l.mirror) = (balance (node x h l r)).mirror := balance_mirror (node x h l r)
  rw [hmirror, avl_mirror, levels_mirror, levels_mirror] at hbal
  exact hbal

theorem balance_node (hl : l.Avl) (hr : r.Avl) (h₁ : l.levels ≤ r.levels + 1) (h₂ : r.levels ≤ l.levels + 1)
    (hs : max l.levels r.levels < 2 ^ 16) : balance (node x h l r) = mk x l r := by
  have hbf : ¬l.height - r.height > 1 ∧ ¬l.height - r.height < -1 := by
    rw [hl.heightOk, hr.heightOk]
    omega
  rw [balance, if_neg hbf.1, if_neg hbf.2, updateHeight_node hl.heightOk hr.heightOk hs]

theorem Tree.Avl.balance (ht : t.Avl) (hs : t.levels < 2 ^ 16) : t.balance = t := by
  cases t with
  | nil => rfl
  | node x h l r =>
    obtain ⟨rfl, h₁, h₂, hl, hr⟩ := ht
    have hs' : max l.levels r.levels + 1 < 2 ^ 16 := hs
    exact balance_node hl hr h₁ h₂ (by omega)

/-! ## Slots -/

namespace Frame

def sibling : Frame α → Tree α
  | left _ _ r => r
  | right _ _ l => l

def Fits (f : Frame α) (n : Nat) : Prop := f.sibling.Avl ∧ Close f.sibling.levels n

def levels (f : Frame α) (n : Nat) : Nat := max f.sibling.levels n + 1

theorem levels_plug (f : Frame α) : (f.plug t).levels = f.levels t.levels := by
  cases f with
  | left x h r => simp [plug, levels, sibling, Tree.levels, Nat.max_comm]
  | right x h l => rfl

theorem avl_plug {f : Frame α} (ht : (f.plug t).Avl) : f.Fits t.levels ∧ t.Avl := by
  cases f with
  | left x h r =>
    obtain ⟨-, h₁, h₂, hl, hr⟩ := ht
    exact ⟨⟨hr, h₂, h₁⟩, hl⟩
  | right x h l =>
    obtain ⟨-, h₁, h₂, hl, hr⟩ := ht
    exact ⟨⟨hl, h₁, h₂⟩, hr⟩

/-- **One slot**: what it points to has changed by one level at most, and so has the subtree of the frame when it is
balanced. -/
theorem balance_plug {f : Frame α} (hf : f.Fits n) (ht : t.Avl) (hc : Close t.levels n) (hs : n + 3 < 2 ^ 16) :
    (f.plug t).balance.Avl ∧ Close (f.plug t).balance.levels (f.levels n) := by
  obtain ⟨hsib, hn₁, hn₂⟩ := hf
  obtain ⟨hc₁, hc₂⟩ := hc
  cases f with
  | left x h r =>
    simp only [sibling] at hsib hn₁ hn₂
    simp only [plug, levels, sibling, Close]
    rcases Nat.lt_or_ge (r.levels + 1) t.levels with hlt | hge
    · have hb := balance_left (x := x) (h := h) ht hsib (by omega) (by omega)
      exact ⟨hb.1, by omega⟩
    rcases Nat.lt_or_ge (t.levels + 1) r.levels with hlt' | hge'
    · have hb := balance_right (x := x) (h := h) ht hsib (by omega) (by omega)
      exact ⟨hb.1, by omega⟩
    rw [balance_node ht hsib hge hge' (by omega), avl_mk, levels_mk]
    exact ⟨⟨hge, hge', ht, hsib⟩, by omega⟩
  | right x h l =>
    simp only [sibling] at hsib hn₁ hn₂
    simp only [plug, levels, sibling, Close]
    rcases Nat.lt_or_ge (t.levels + 1) l.levels with hlt | hge
    · have hb := balance_left (x := x) (h := h) hsib ht (by omega) (by omega)
      exact ⟨hb.1, by omega⟩
    rcases Nat.lt_or_ge (l.levels + 1) t.levels with hlt' | hge'
    · have hb := balance_right (x := x) (h := h) hsib ht (by omega) (by omega)
      exact ⟨hb.1, by omega⟩
    rw [balance_node hsib ht hge hge' (by omega), avl_mk, levels_mk]
    exact ⟨⟨hge, hge', hsib, ht⟩, by omega⟩

end Frame

def plug : List (Frame α) → Tree α → Tree α
  | [], t => t
  | f :: fs, t => plug fs (f.plug t)

def before : List (Frame α) → List α
  | [] => []
  | .left _ _ _ :: fs => before fs
  | .right x _ l :: fs => before fs ++ l.toList ++ [x]

def after : List (Frame α) → List α
  | [] => []
  | .left x _ r :: fs => x :: r.toList ++ after fs
  | .right _ _ _ :: fs => after fs

theorem toList_plug : ∀ (fs : List (Frame α)) (t : Tree α), (plug fs t).toList = before fs ++ t.toList ++ after fs
  | [], t => by simp [plug, before, after]
  | .left x h r :: fs, t => by
    rw [plug, toList_plug fs]
    simp [Frame.plug, before, after, toList]
  | .right x h l :: fs, t => by
    rw [plug, toList_plug fs]
    simp [Frame.plug, before, after, toList]

theorem toList_unwind : ∀ (fs : List (Frame α)) (t : Tree α), (unwind fs t).toList = before fs ++ t.toList ++ after fs
  | [], t => by simp [unwind, before, after]
  | .left x h r :: fs, t => by
    rw [unwind, toList_unwind fs]
    simp [Frame.plug, before, after, toList]
  | .right x h l :: fs, t => by
    rw [unwind, toList_unwind fs]
    simp [Frame.plug, before, after, toList]

def Fits : List (Frame α) → Nat → Prop
  | [], _ => True
  | f :: fs, n => f.Fits n ∧ Fits fs (f.levels n)

def pathLevels : List (Frame α) → Nat → Nat
  | [], n => n
  | f :: fs, n => pathLevels fs (f.levels n)

theorem add_length_le_pathLevels : ∀ (fs : List (Frame α)) (n : Nat), n + fs.length ≤ pathLevels fs n
  | [], n => by simp [pathLevels]
  | f :: fs, n => by
    have ih := add_length_le_pathLevels fs (f.levels n)
    rw [pathLevels, List.length_cons]
    rw [Frame.levels] at ih ⊢
    omega

theorem avl_plug : ∀ (fs : List (Frame α)) {t : Tree α}, (plug fs t).Avl →
    Fits fs t.levels ∧ t.Avl ∧ pathLevels fs t.levels = (plug fs t).levels
  | [], _, ht => ⟨trivial, ht, rfl⟩
  | f :: fs, t, ht => by
    obtain ⟨h₁, h₂, h₃⟩ := avl_plug fs ht
    obtain ⟨h₄, h₅⟩ := Frame.avl_plug h₂
    rw [f.levels_plug] at h₁ h₃
    exact ⟨⟨h₄, h₁⟩, h₅, h₃⟩

/-- **The whole stack**: when what the last slot points to has changed by one level at most, the tree is balanced, and it has
changed by one level at most. -/
theorem unwind_spec : ∀ {fs : List (Frame α)} {t : Tree α} {n : Nat}, t.balance.Avl → Close t.balance.levels n → Fits fs n →
    pathLevels fs n + 3 < 2 ^ 16 → (unwind fs t).Avl ∧ Close (unwind fs t).levels (pathLevels fs n)
  | [], _, _, ht, hc, _, _ => ⟨ht, hc⟩
  | f :: fs, t, n, ht, hc, hf, hs => by
    have hle := add_length_le_pathLevels (f :: fs) n
    obtain ⟨hb, hcb⟩ := Frame.balance_plug hf.1 ht hc (by omega)
    rw [unwind, pathLevels]
    exact unwind_spec hb hcb hf.2 hs

/-! ## Paths -/

/-- The comparison goes from negative to positive along the objects, and is 0 at most once. -/
def Cut (c : α → Int) (xs : List α) : Prop := xs.Pairwise fun a b => (c b ≤ 0 → c a < 0) ∧ (0 ≤ c a → 0 < c b)

/-- What `AVL_BUILD_PATH_TO_OBJ` ends with: the slot of an object that is equal, or an empty one at its place. -/
structure AtPlace (c : α → Int) (fs : List (Frame α)) (t : Tree α) : Prop where
  before : ∀ y ∈ before fs, c y < 0
  after : ∀ y ∈ after fs, 0 < c y
  top : ∀ x h l r, t = .node x h l r → c x = 0

theorem cut_node (hc : Cut c (node x h l r).toList) : Cut c l.toList ∧ Cut c r.toList ∧
    (∀ a ∈ l.toList, (c x ≤ 0 → c a < 0)) ∧ ∀ b ∈ r.toList, (0 ≤ c x → 0 < c b) := by
  obtain ⟨hl, hxr, hlr⟩ := List.pairwise_append.mp hc
  obtain ⟨hx, hr⟩ := List.pairwise_cons.mp hxr
  exact ⟨hl, hr, fun a ha => (hlr a ha x List.mem_cons_self).1, fun b hb => (hx b hb).2⟩

theorem plug_buildPath {slots : Nat} {fs gs : List (Frame α)} {t top : Tree α} (h : buildPath c slots fs t = some (gs, top)) :
    plug gs top = plug fs t := by
  induction slots generalizing fs t with
  | zero => exact nomatch h
  | succ slots ih =>
    cases t with
    | nil =>
      obtain ⟨rfl, rfl⟩ := Prod.mk.inj (Option.some.inj h)
      rfl
    | node x hx l r =>
      rw [buildPath] at h
      split_ifs at h
      · obtain ⟨rfl, rfl⟩ := Prod.mk.inj (Option.some.inj h)
        rfl
      · exact (ih h).trans rfl
      · exact (ih h).trans rfl

theorem mem_of_insert {x y : α} {t t' : Tree α} {added : Bool} (h : insert c x t = some (t', added))
    (hy : y ∈ t'.toList) : y = x ∨ y ∈ t.toList := by
  unfold insert at h
  split at h
  · obtain ⟨rfl, -⟩ := Prod.mk.inj (Option.some.inj h)
    exact .inl (by simpa [new, toList] using hy)
  · obtain ⟨⟨fs, dest⟩, hpath, hrun⟩ := Option.bind_eq_some_iff.mp h
    have hplug := plug_buildPath hpath
    cases dest with
    | node z hz l r =>
      obtain ⟨rfl, -⟩ := Prod.mk.inj (Option.some.inj hrun)
      exact .inr hy
    | nil =>
      obtain ⟨rfl, -⟩ := Prod.mk.inj (Option.some.inj hrun)
      rw [plug] at hplug
      rw [← hplug, toList_plug]
      rw [toList_unwind] at hy
      simp only [new, toList, List.nil_append, List.append_nil, List.mem_append, List.mem_singleton] at hy ⊢
      tauto

/-- **The search**: with enough entries on the stack it ends, at the place of the object. -/
theorem buildPath_spec : ∀ {slots : Nat} (fs : List (Frame α)) {t : Tree α}, t.levels < slots → Cut c t.toList →
    (∀ y ∈ before fs, c y < 0) → (∀ y ∈ after fs, 0 < c y) →
    ∃ gs top, buildPath c slots fs t = some (gs, top) ∧ plug gs top = plug fs t ∧ AtPlace c gs top
  | 0, _, _, hs, _, _, _ => absurd hs (Nat.not_lt_zero _)
  | _ + 1, fs, .nil, _, _, hb, ha => ⟨fs, .nil, rfl, rfl, hb, ha, nofun⟩
  | slots + 1, fs, .node x h l r, hs, hc, hb, ha => by
    obtain ⟨hl, hr, hlx, hxr⟩ := cut_node hc
    have hlev : (node x h l r).levels = max l.levels r.levels + 1 := rfl
    rw [hlev] at hs
    rw [buildPath]
    by_cases hx : c x = 0
    · rw [if_pos hx]
      refine ⟨fs, _, rfl, rfl, hb, ha, ?_⟩
      rintro _ _ _ _ ⟨⟩
      exact hx
    rw [if_neg hx]
    by_cases hneg : c x < 0
    · rw [if_pos hneg]
      refine buildPath_spec (.right x h l :: fs) (by omega) hr (fun y hy => ?_) ha
      rcases List.mem_append.mp hy with hy | hy
      · rcases List.mem_append.mp hy with hy | hy
        · exact hb y hy
        · exact hlx y hy (by omega)
      · rw [List.mem_singleton.mp hy]
        exact hneg
    · rw [if_neg hneg]
      refine buildPath_spec (.left x h r :: fs) (by omega) hl hb fun y hy => ?_
      rcases List.mem_cons.mp hy with rfl | hy
      · omega
      · rcases List.mem_append.mp hy with hy | hy
        · exact hxr y hy (by omega)
        · exact ha y hy

theorem successorPath_spec : ∀ {slots : Nat} (fs : List (Frame α)) {t : Tree α}, t ≠ .nil → t.levels ≤ slots →
    before fs = [] →
    ∃ gs y hy s, successorPath slots fs t = some (gs, y, hy, s) ∧ plug gs (.node y hy .nil s) = plug fs t ∧ before gs = []
  | _, _, .nil, hne, _, _ => absurd rfl hne
  | 0, _, .node x h l r, _, hs, _ => absurd hs (by simp [levels])
  | slots + 1, fs, .node y hy .nil r, _, _, hb => ⟨fs, y, hy, r, rfl, rfl, hb⟩
  | slots + 1, fs, .node y hy (.node z hz zl zr) r, _, hs, hb => by
    have hs' : max (node z hz zl zr).levels r.levels + 1 ≤ slots + 1 := hs
    exact successorPath_spec (.left y hy r :: fs) nofun (by omega) hb

/-! ## Comparators -/

structure TotalOrder (cmp : α → α → Int) : Prop where
  refl : ∀ a, cmp a a = 0
  symm : ∀ a b, cmp a b < 0 ↔ 0 < cmp b a
  trans : ∀ a b c, cmp a b ≤ 0 → cmp b c ≤ 0 → cmp a c ≤ 0

/-- A comparison of the objects with a value that is in the same order. -/
def Compares (cmp : α → α → Int) (c : α → Int) : Prop :=
  ∀ a b, cmp a b < 0 → (c b ≤ 0 → c a < 0) ∧ (0 ≤ c a → 0 < c b)

variable {cmp : α → α → Int}

theorem TotalOrder.lt_of_lt_of_le (ho : TotalOrder cmp) {a b c : α} (h₁ : cmp a b < 0) (h₂ : cmp b c ≤ 0) : cmp a c < 0 := by
  by_contra hge
  have hca : cmp c a ≤ 0 := by
    by_contra h
    exact hge ((ho.symm a c).2 (by omega))
  have hba := ho.trans b c a h₂ hca
  have := (ho.symm a b).1 h₁
  omega

theorem TotalOrder.compares (ho : TotalOrder cmp) (x : α) : Compares cmp (cmp · x) := by
  refine fun a b hab => ⟨fun hb => ho.lt_of_lt_of_le hab hb, fun ha => ?_⟩
  by_contra hb
  have hax := ho.lt_of_lt_of_le hab (not_lt.mp hb)
  exact absurd ha (not_le.mpr hax)

structure Ok (cmp : α → α → Int) (t : Tree α) : Prop where
  sorted : t.toList.Pairwise (cmp · · < 0)
  avl : t.Avl

theorem Ok.cut (hk : Ok cmp t) (hc : Compares cmp c) : Cut c t.toList := hk.sorted.imp fun h => hc _ _ h

theorem Ok.nodup (hk : Ok cmp t) (ho : TotalOrder cmp) : t.toList.Nodup := by
  refine hk.sorted.imp fun {a b} hab e => ?_
  rw [e, ho.refl] at hab
  exact absurd hab (lt_irrefl _)

/-! ## The operations -/

/-- **`bintree_find`** returns the object that compares equal. -/
theorem find_spec : ∀ {t : Tree α}, Cut c t.toList → ∀ y, find c t = some y ↔ y ∈ t.toList ∧ c y = 0
  | .nil, _, y => by simp [find, toList]
  | .node x h l r, hc, y => by
    obtain ⟨hl, hr, hlx, hxr⟩ := cut_node hc
    have ihl := find_spec hl y
    have ihr := find_spec hr y
    rw [find, toList, List.mem_append, List.mem_cons]
    by_cases hx : c x = 0
    · rw [if_pos hx, Option.some.injEq]
      constructor
      · rintro rfl
        exact ⟨Or.inr (Or.inl rfl), hx⟩
      · rintro ⟨hy | rfl | hy, h0⟩
        · exact absurd (hlx y hy (by omega)) (by omega)
        · rfl
        · exact absurd (hxr y hy (by omega)) (by omega)
    rw [if_neg hx]
    by_cases hneg : c x < 0
    · rw [if_pos hneg, ihr]
      constructor
      · exact fun hy => ⟨Or.inr (Or.inr hy.1), hy.2⟩
      · rintro ⟨hy | rfl | hy, h0⟩
        · exact absurd (hlx y hy (by omega)) (by omega)
        · exact absurd h0 hx
        · exact ⟨hy, h0⟩
    · rw [if_neg hneg, ihl]
      constructor
      · exact fun hy => ⟨Or.inl hy.1, hy.2⟩
      · rintro ⟨hy | rfl | hy, h0⟩
        · exact ⟨hy, h0⟩
        · exact absurd h0 hx
        · exact absurd (hxr y hy (by omega)) (by omega)

theorem Tree.levels_new : (new x).levels = 1 := rfl

theorem Tree.avl_new : (new x).Avl := ⟨rfl, by simp, by simp, trivial, trivial⟩

/-- What `bintree_insert` does: there is an equal object and nothing changes, or the object is added. -/
structure Inserted (cmp : α → α → Int) (x : α) (t t' : Tree α) (added : Bool) : Prop where
  ok : Ok cmp t'
  present : added = false ↔ ∃ y ∈ t.toList, cmp y x = 0
  same : added = false → t' = t
  perm : added = true → t'.toList.Perm (x :: t.toList)

/-- **`bintree_insert`**. -/
theorem insert_spec (ho : TotalOrder cmp) (hk : Ok cmp t) (hlev : t.levels < maxTreeHeight) (x : α) :
    ∃ t' added, insert (cmp · x) x t = some (t', added) ∧ Inserted cmp x t t' added := by
  cases t with
  | nil =>
    exact ⟨_, _, rfl, ⟨⟨List.pairwise_singleton _ _, avl_new⟩, by simp [toList], nofun, fun _ => List.Perm.refl _⟩⟩
  | node x₀ h₀ l₀ r₀ =>
    obtain ⟨fs, top, hpath, hplug, hat⟩ := buildPath_spec [] hlev (hk.cut (ho.compares x)) nofun nofun
    rw [insert, hpath]
    on_goal 2 => exact nofun
    rw [plug] at hplug
    generalize hs : node x₀ h₀ l₀ r₀ = t at *
    cases top with
    | node y hy l r =>
      have hmem : y ∈ t.toList := by
        rw [← hplug, toList_plug]
        simp [toList]
      exact ⟨t, false, rfl, hk, ⟨fun _ => ⟨y, hmem, hat.top _ _ _ _ rfl⟩, fun _ => rfl⟩, fun _ => rfl, nofun⟩
    | nil =>
      have hlist : t.toList = before fs ++ after fs := by
        rw [← hplug, toList_plug]
        simp [toList]
      have hnew : (unwind fs (new x)).toList = before fs ++ x :: after fs := by
        rw [toList_unwind]
        simp [new, toList]
      have havl := hk.avl
      rw [← hplug] at havl
      obtain ⟨hfits, -, hpl⟩ := avl_plug fs havl
      rw [hplug] at hpl
      have hsmall : pathLevels fs 0 + 3 < 2 ^ 16 := by
        rw [show pathLevels fs 0 = t.levels from hpl]
        rw [maxTreeHeight] at hlev
        omega
      have hbal : (new x).balance = new x := avl_new.balance (by rw [levels_new]; omega)
      obtain ⟨hun, -⟩ := unwind_spec (t := new x) (n := 0) (by rw [hbal]; exact avl_new)
        (by rw [hbal, levels_new]; exact ⟨by omega, by omega⟩) hfits hsmall
      have hsorted := hk.sorted
      rw [hlist, List.pairwise_append] at hsorted
      refine ⟨_, true, rfl, ⟨?_, hun⟩, ⟨nofun, ?_⟩, nofun, fun _ => ?_⟩
      · rw [hnew, List.pairwise_append, List.pairwise_cons]
        refine ⟨hsorted.1, ⟨fun b hb => (ho.symm x b).2 (hat.after b hb), hsorted.2.1⟩, fun a ha b hb => ?_⟩
        rcases List.mem_cons.mp hb with rfl | hb
        · exact hat.before a ha
        · exact hsorted.2.2 a ha b hb
      · rintro ⟨y, hy, h0⟩
        rw [hlist, List.mem_append] at hy
        rcases hy with hy | hy
        · exact absurd (hat.before y hy) (by omega)
        · exact absurd (hat.after y hy) (by omega)
      · rw [hnew, hlist]
        exact List.perm_middle

/-- What `bintree_remove` does: the object that compares equal is returned and taken out, if there is one. -/
structure Removed (cmp : α → α → Int) (c : α → Int) (t t' : Tree α) (obj : Option α) : Prop where
  ok : Ok cmp t'
  obj : ∀ y, obj = some y ↔ y ∈ t.toList ∧ c y = 0
  mem : ∀ y, y ∈ t'.toList ↔ y ∈ t.toList ∧ c y ≠ 0

theorem removeAux_spec (ht : (plug fs (node x h l r)).Avl) (hlev : (plug fs (node x h l r)).levels < maxTreeHeight) :
    ∃ t', removeAux fs l r = some t' ∧ t'.Avl ∧ t'.toList = before fs ++ (l.toList ++ r.toList) ++ after fs := by
  obtain ⟨hfits, hnode, hpl⟩ := avl_plug fs ht
  obtain ⟨-, h₁, h₂, hl, hr⟩ := hnode
  have hlen := add_length_le_pathLevels fs (node x h l r).levels
  have hnl : (node x h l r).levels = max l.levels r.levels + 1 := rfl
  rw [maxTreeHeight] at hlev
  have hsmall : pathLevels fs (node x h l r).levels + 3 < 2 ^ 16 := by omega
  have hnil : (nil : Tree α).levels = 0 := rfl
  -- one child takes the place of the node
  have hchild : ∀ {k : Tree α}, k.Avl → Close k.levels (node x h l r).levels →
      (unwind fs k).Avl ∧ (unwind fs k).toList = before fs ++ k.toList ++ after fs := by
    intro k hk hclose
    have hkl : k.levels < 2 ^ 16 := by have := hclose.1; omega
    have hbal := hk.balance hkl
    exact ⟨(unwind_spec (by rw [hbal]; exact hk) (by rw [hbal]; exact hclose) hfits hsmall).1, toList_unwind _ _⟩
  unfold removeAux
  split
  · -- the successor does
    rename_i xl hxl ll lr xr hxr rl rr
    have hroom : (node xr hxr rl rr).levels ≤ maxTreeHeight - (fs.length + 1) := by
      rw [maxTreeHeight]
      omega
    have hne : node xr hxr rl rr ≠ .nil := nofun
    obtain ⟨gs, y, hy, s, hpath, hplug, hbef⟩ := successorPath_spec [] hne hroom rfl
    rw [plug] at hplug
    rw [← hplug] at hr
    obtain ⟨hgfits, hsucc, hgl⟩ := avl_plug gs hr
    rw [hplug] at hgl hr
    obtain ⟨-, -, hs₁, -, hs⟩ := hsucc
    have hsl : s.levels ≤ 1 := hs₁
    have hnl' : (node y hy nil s).levels = s.levels + 1 := by simp [levels]
    have hsb := hs.balance (by omega)
    obtain ⟨hra, hrc⟩ := unwind_spec (t := s) (n := (node y hy nil s).levels) (by rw [hsb]; exact hs)
      (by rw [hsb, hnl']; exact ⟨by omega, by omega⟩) hgfits (by rw [hgl]; omega)
    rw [hgl] at hrc
    -- the successor has the children of the node, the right one with one level less at most
    obtain ⟨hb, hbc⟩ := Frame.balance_plug (f := .right y hy (node xl hxl ll lr)) (n := (node xr hxr rl rr).levels)
      ⟨hl, h₁, h₂⟩ hra hrc (by omega)
    refine ⟨_, by rw [hpath]; rfl, (unwind_spec hb hbc hfits hsmall).1, ?_⟩
    have hrl : (node xr hxr rl rr).toList = y :: s.toList ++ after gs := by
      rw [← hplug, toList_plug, hbef]
      simp [toList]
    rw [toList_unwind, hrl, Frame.plug, toList, toList_unwind, hbef]
    simp
  · have hc := hchild hl ⟨by omega, by omega⟩
    exact ⟨_, rfl, hc.1, by rw [hc.2]; simp [toList]⟩
  · have hc := hchild hr ⟨by omega, by omega⟩
    exact ⟨_, rfl, hc.1, by rw [hc.2]; simp [toList]⟩

/-- **`bintree_remove`**. -/
theorem remove_spec (hk : Ok cmp t) (hlev : t.levels < maxTreeHeight) (hc : Compares cmp c) :
    ∃ t' obj, remove c t = some (t', obj) ∧ Removed cmp c t t' obj := by
  obtain ⟨fs, top, hpath, hplug, hat⟩ := buildPath_spec [] hlev (hk.cut hc) nofun nofun
  rw [plug] at hplug
  rw [remove, hpath]
  cases top with
  | nil =>
    have hlist : t.toList = before fs ++ after fs := by
      rw [← hplug, toList_plug]
      simp [toList]
    have hne : ∀ y ∈ t.toList, c y ≠ 0 := by
      intro y hy
      rw [hlist, List.mem_append] at hy
      rcases hy with hy | hy
      · have := hat.before y hy
        omega
      · have := hat.after y hy
        omega
    exact ⟨t, none, rfl, hk, fun y => ⟨nofun, fun h => absurd h.2 (hne y h.1)⟩, fun y => ⟨fun h => ⟨h, hne y h⟩, And.left⟩⟩
  | node x h l r =>
    have hx : c x = 0 := hat.top _ _ _ _ rfl
    obtain ⟨t', haux, havl, hlist'⟩ := removeAux_spec (hplug ▸ hk.avl) (hplug ▸ hlev)
    have hlist : t.toList = before fs ++ l.toList ++ x :: (r.toList ++ after fs) := by
      rw [← hplug, toList_plug]
      simp [toList]
    have hlist' : t'.toList = before fs ++ l.toList ++ (r.toList ++ after fs) := by simpa using hlist'
    have hcut := hk.cut hc
    rw [hlist, Cut, List.pairwise_append, List.pairwise_cons] at hcut
    have hlt : ∀ y ∈ before fs ++ l.toList, c y ≠ 0 := fun y hy => by
      have := (hcut.2.2 y hy x List.mem_cons_self).1 (by omega)
      omega
    have hgt : ∀ y ∈ r.toList ++ after fs, c y ≠ 0 := fun y hy => by
      have := (hcut.2.1.1 y hy).2 (by omega)
      omega
    refine ⟨t', some x, by simp [haux], ⟨?_, havl⟩, fun y => ?_, fun y => ?_⟩
    · have hsub : t'.toList.Sublist t.toList := by
        rw [hlist, hlist']
        exact (List.sublist_cons_self _ _).append_left _
      exact hk.sorted.sublist hsub
    · rw [Option.some.injEq, hlist, List.mem_append, List.mem_cons]
      constructor
      · rintro rfl
        exact ⟨Or.inr (Or.inl rfl), hx⟩
      · rintro ⟨hy | rfl | hy, h0⟩
        · exact absurd h0 (hlt y hy)
        · rfl
        · exact absurd h0 (hgt y hy)
    · rw [hlist, hlist', List.mem_append (t := x :: (r.toList ++ after fs)), List.mem_cons,
        List.mem_append (s := before fs ++ l.toList) (t := r.toList ++ after fs)]
      constructor
      · rintro (hy | hy)
        · exact ⟨Or.inl hy, hlt y hy⟩
        · exact ⟨Or.inr (Or.inr hy), hgt y hy⟩
      · rintro ⟨hy | rfl | hy, h0⟩
        · exact Or.inl hy
        · exact absurd hx h0
        · exact Or.inr hy

/-! ## Runs -/

/-- The trees that are reached from an empty one. A call is made on a tree that is lower than the stack. -/
inductive Reachable (cmp : α → α → Int) : Tree α → Prop
  | empty : Reachable cmp .nil
  | insert {t t' : Tree α} {added : Bool} (x : α) : Reachable cmp t → t.levels < maxTreeHeight →
      insert (cmp · x) x t = some (t', added) → Reachable cmp t'
  | remove {t t' : Tree α} {obj : Option α} {c : α → Int} : Reachable cmp t → t.levels < maxTreeHeight → Compares cmp c →
      remove c t = some (t', obj) → Reachable cmp t'

/-- **Every tree that is reached** is in search order and balanced. -/
theorem Reachable.ok (ho : TotalOrder cmp) (hr : Reachable cmp t) : Ok cmp t := by
  induction hr with
  | empty => exact ⟨List.Pairwise.nil, trivial⟩
  | insert x _ hlev hrun ih =>
    obtain ⟨t', added, hrun', hins⟩ := insert_spec ho ih hlev x
    cases hrun.symm.trans hrun'
    exact hins.ok
  | remove _ hlev hc hrun ih =>
    obtain ⟨t', obj, hrun', hrem⟩ := remove_spec ih hlev hc
    cases hrun.symm.trans hrun'
    exact hrem.ok

/-- **A tree is a finite set of keys**: in every tree that is reached `bintree_find` returns the object with the key, if
there is one, and if the tree is lower than the stack `bintree_insert` adds an object unless there is an equal one, and
`bintree_remove` returns the object with the key and takes it out; the tree is in search order and balanced, and so are those
that the calls leave. -/
theorem Reachable.refines_map (ho : TotalOrder cmp) (hr : Reachable cmp t) :
    Ok cmp t ∧ (∀ c, Compares cmp c → ∀ y, find c t = some y ↔ y ∈ t.toList ∧ c y = 0) ∧
    (t.levels < maxTreeHeight →
      (∀ x, ∃ t' added, Bintree.insert (cmp · x) x t = some (t', added) ∧ Inserted cmp x t t' added) ∧
      ∀ c, Compares cmp c → ∃ t' obj, Bintree.remove c t = some (t', obj) ∧ Removed cmp c t t' obj) := by
  have hk := hr.ok ho
  exact ⟨hk, fun c hc => find_spec (hk.cut hc), fun hlev =>
    ⟨insert_spec ho hk hlev, fun c hc => remove_spec hk hlev hc⟩⟩

/-! ## Trees that are too high -/

theorem Tree.length_toList_lt : ∀ t : Tree α, t.toList.length < 2 ^ t.levels
  | nil => by simp [toList, levels]
  | node x h l r => by
    have hl := l.length_toList_lt
    have hr := r.length_toList_lt
    have hl' : 2 ^ l.levels ≤ 2 ^ max l.levels r.levels := Nat.pow_le_pow_right (by omega) (le_max_left _ _)
    have hr' : 2 ^ r.levels ≤ 2 ^ max l.levels r.levels := Nat.pow_le_pow_right (by omega) (le_max_right _ _)
    rw [toList, levels, pow_succ, List.length_append, List.length_cons]
    omega

def intCmp (a b : Int) : Int := a - b

theorem intCmp_totalOrder : TotalOrder intCmp := by
  refine ⟨fun a => ?_, fun a b => ?_, fun a b c => ?_⟩ <;> simp only [intCmp] <;> omega

theorem exists_even (n : Nat) : ∃ t : Tree Int, Reachable intCmp t ∧ (∀ y ∈ t.toList, 2 ∣ y ∧ y < 2 * n) ∧
    (maxTreeHeight ≤ t.levels ∨ t.toList.length = n) := by
  induction n with
  | zero => exact ⟨.nil, .empty, by simp [toList], Or.inr rfl⟩
  | succ n ih =>
    obtain ⟨t, hr, hmem, hn⟩ := ih
    by_cases hlev : maxTreeHeight ≤ t.levels
    · exact ⟨t, hr, fun y hy => ⟨(hmem y hy).1, by have := (hmem y hy).2; omega⟩, Or.inl hlev⟩
    obtain ⟨t', added, hrun, hins⟩ := insert_spec intCmp_totalOrder (hr.ok intCmp_totalOrder) (not_le.mp hlev) (2 * n)
    have hadded : added = true := by
      refine Bool.eq_true_of_not_eq_false fun h => ?_
      obtain ⟨y, hy, h0⟩ := hins.present.1 h
      have := (hmem y hy).2
      simp only [intCmp] at h0
      omega
    have hperm := hins.perm hadded
    refine ⟨t', hr.insert _ (not_le.mp hlev) hrun, fun y hy => ?_, Or.inr ?_⟩
    · rcases List.mem_cons.mp (hperm.mem_iff.1 hy) with rfl | hy
      · omega
      · exact ⟨(hmem y hy).1, by have := (hmem y hy).2; omega⟩
    · rw [hperm.length_eq, List.length_cons, hn.resolve_left hlev]

/-- **A tree that is as high as the stack.** -/
theorem exists_high : ∃ t : Tree Int, Reachable intCmp t ∧ (∀ y ∈ t.toList, 2 ∣ y) ∧ maxTreeHeight ≤ t.levels := by
  obtain ⟨t, hr, hmem, hn⟩ := exists_even (2 ^ 31)
  refine ⟨t, hr, fun y hy => (hmem y hy).1, hn.elim id fun hn => ?_⟩
  have hlt := t.length_toList_lt
  rw [hn, Nat.pow_lt_pow_iff_right (by omega)] at hlt
  exact hlt

theorem buildPath_overflow : ∀ {slots : Nat} {t : Tree Int}, t ≠ .nil → slots ≤ t.levels →
    t.toList.Pairwise (intCmp · · < 0) → (∀ y ∈ t.toList, 2 ∣ y) →
    ∃ k ∈ t.toList, ∀ fs, buildPath (intCmp · (k + 1)) slots fs t = none
  | _, .nil, hne, _, _, _ => absurd rfl hne
  | 0, .node x h l r, _, _, _, _ => ⟨x, by simp [toList], fun _ => rfl⟩
  | slots + 1, .node x h l r, _, hs, hsort, heven => by
    have hs' : slots + 1 ≤ max l.levels r.levels + 1 := hs
    obtain ⟨hl, hxr, hlx⟩ := List.pairwise_append.mp hsort
    obtain ⟨hx, hr⟩ := List.pairwise_cons.mp hxr
    have hxe : 2 ∣ x := heven x (by simp [toList])
    have hle : ∀ y ∈ l.toList, 2 ∣ y := fun y hy => heven y (by simp [toList, hy])
    have hre : ∀ y ∈ r.toList, 2 ∣ y := fun y hy => heven y (by simp [toList, hy])
    rcases Nat.eq_zero_or_pos slots with rfl | hpos
    · refine ⟨x, by simp [toList], fun fs => ?_⟩
      rw [buildPath, if_neg (by simp [intCmp]), if_pos (by simp [intCmp])]
      rfl
    have hnil : (nil : Tree Int).levels = 0 := rfl
    by_cases hll : slots ≤ l.levels
    · have hlne : l ≠ .nil := by
        rintro rfl
        omega
      obtain ⟨k, hk, hrun⟩ := buildPath_overflow hlne hll hl hle
      have hkx := hlx k hk x List.mem_cons_self
      have hke := hle k hk
      rw [intCmp] at hkx
      refine ⟨k, by simp [toList, hk], fun fs => ?_⟩
      rw [buildPath, if_neg (by rw [intCmp]; omega), if_neg (by rw [intCmp]; omega)]
      exact hrun _
    · have hrne : r ≠ .nil := by
        rintro rfl
        omega
      have hrl : slots ≤ r.levels := by omega
      obtain ⟨k, hk, hrun⟩ := buildPath_overflow hrne hrl hr hre
      have hxk := hx k hk
      have hke := hre k hk
      rw [intCmp] at hxk
      refine ⟨k, by simp [toList, hk], fun fs => ?_⟩
      rw [buildPath, if_neg (by rw [intCmp]; omega), if_pos (by rw [intCmp]; omega)]
      exact hrun _

/-- An insertion in a tree that is as high as the stack. -/
theorem insert_overflow : ∃ (t : Tree Int) (x : Int), Reachable intCmp t ∧ Bintree.insert (intCmp · x) x t = none := by
  obtain ⟨t, hr, heven, hlev⟩ := exists_high
  cases t with
  | nil => exact absurd hlev (by decide)
  | node y h l r =>
    have hne : node y h l r ≠ .nil := nofun
    obtain ⟨k, -, hrun⟩ := buildPath_overflow hne hlev (hr.ok intCmp_totalOrder).sorted heven
    refine ⟨_, k + 1, hr, ?_⟩
    rw [Bintree.insert, hrun]
    · rfl
    · exact nofun

/-- The objects 1 to 5 inserted in order, and 2 removed, whose successor takes the root. -/
def sampleTree : Tree Int := node 3 2 (new 1) (node 4 1 nil (new 5))

theorem reachable_sampleTree : Reachable intCmp sampleTree := by
  have h₁ : Reachable intCmp (new 1) := Reachable.empty.insert 1 (by decide) rfl
  have h₂ : Reachable intCmp (node 1 1 nil (new 2)) := h₁.insert 2 (by decide) rfl
  have h₃ : Reachable intCmp (node 2 1 (new 1) (new 3)) := h₂.insert 3 (by decide) rfl
  have h₄ : Reachable intCmp (node 2 2 (new 1) (node 3 1 nil (new 4))) := h₃.insert 4 (by decide) rfl
  have h₅ : Reachable intCmp (node 2 2 (new 1) (node 4 1 (new 3) (new 5))) := h₄.insert 5 (by decide) rfl
  exact h₅.remove (by decide) (intCmp_totalOrder.compares 2) rfl

/-- An insertion that rotates at 4, and the removal of the root. -/
theorem Reachable.refines_sampleTree :
    Bintree.insert (intCmp · 6) 6 sampleTree = some (node 3 2 (new 1) (node 5 1 (new 4) (new 6)), true) ∧
    Inserted intCmp 6 sampleTree (node 3 2 (new 1) (node 5 1 (new 4) (new 6))) true ∧
    Bintree.remove (intCmp · 3) sampleTree = some (node 4 1 (new 1) (new 5), some 3) ∧
    Removed intCmp (intCmp · 3) sampleTree (node 4 1 (new 1) (new 5)) (some 3) := by
  obtain ⟨hins, hrem⟩ := (Reachable.refines_map intCmp_totalOrder reachable_sampleTree).2.2 (by decide)
  obtain ⟨t', added, hrun, hin⟩ := hins 6
  obtain ⟨t'', obj, hrun', hout⟩ := hrem _ (intCmp_totalOrder.compares 3)
  have hins' : Bintree.insert (intCmp · 6) 6 sampleTree = some (node 3 2 (new 1) (node 5 1 (new 4) (new 6)), true) := rfl
  have hrem' : Bintree.remove (intCmp · 3) sampleTree = some (node 4 1 (new 1) (new 5), some 3) := rfl
  obtain ⟨rfl, rfl⟩ := Prod.mk.inj (Option.some.inj (hrun.symm.trans hins'))
  obtain ⟨rfl, rfl⟩ := Prod.mk.inj (Option.some.inj (hrun'.symm.trans hrem'))
  exact ⟨hrun, hin, hrun', hout⟩

end Usax.Bintree
