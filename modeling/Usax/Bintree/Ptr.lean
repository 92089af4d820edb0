import Usax.Bintree.Avl

/-!
# Trees with a word as the key

`bintree_insert_ptr`, `bintree_find_ptr` and `bintree_remove_ptr` compare a field of the objects, a `long`, by subtraction.
They do what the generic functions do with the numerical order of the keys (`ptr_agrees_iff`) exactly if no difference of two
keys wraps around. `insert_ptr_differs` has two keys that are far apart.
-/

namespace Usax.Bintree

open Usax.Bintree.Tree

variable {α : Type} {c d : α → Int} {x : α} {t : Tree α} {w : Nat}

/-! ## Comparisons with the same signs -/

def SameSign (a b : Int) : Prop := (a = 0 ↔ b = 0) ∧ (a < 0 ↔ b < 0)

theorem buildPath_congr : ∀ {slots : Nat} {fs : List (Frame α)} {t : Tree α}, (∀ y ∈ t.toList, SameSign (c y) (d y)) →
    buildPath c slots fs t = buildPath d slots fs t
  | 0, _, _, _ => rfl
  | _ + 1, _, .nil, _ => rfl
  | slots + 1, fs, .node x h l r, hs => by
    obtain ⟨h₀, hneg⟩ := hs x (by simp [toList])
    rw [buildPath, buildPath, buildPath_congr fun y hy => hs y (by simp [toList, hy]),
      buildPath_congr (t := l) fun y hy => hs y (by simp [toList, hy])]
    simp only [h₀, hneg]

theorem find_congr : ∀ {t : Tree α}, (∀ y ∈ t.toList, SameSign (c y) (d y)) → find c t = find d t
  | .nil, _ => rfl
  | .node x h l r, hs => by
    obtain ⟨h₀, hneg⟩ := hs x (by simp [toList])
    rw [find, find, find_congr fun y hy => hs y (by simp [toList, hy]),
      find_congr (t := l) fun y hy => hs y (by simp [toList, hy])]
    simp only [h₀, hneg]

theorem insert_congr (hs : ∀ y ∈ t.toList, SameSign (c y) (d y)) : insert c x t = insert d x t := by
  cases t with
  | nil => rfl
  | node y h l r => rw [insert, insert, buildPath_congr hs] <;> rintro ⟨⟩

theorem remove_congr (hs : ∀ y ∈ t.toList, SameSign (c y) (d y)) : remove c t = remove d t := by
  rw [remove, remove, buildPath_congr hs]

/-! ## The specialised functions -/

/-- An object, with the field that is its key. -/
structure Obj (w : Nat) where
  addr : Nat
  key : BitVec w
deriving DecidableEq, Repr

/-- `bintree_find_ptr_cmp`; `bintree_insrem_ptr_cmp` compares with the field of an object. -/
def ptrCmp (v : BitVec w) (y : Obj w) : Int := (y.key - v).toInt

def numCmp (v : BitVec w) (y : Obj w) : Int := y.key.toInt - v.toInt

/-- `bintree_find_ptr_internal`. -/
def findPtr (v : BitVec w) (t : Tree (Obj w)) : Option (Obj w) := find (ptrCmp v) t

/-- `bintree_insert_ptr_internal`. -/
def insertPtr (x : Obj w) (t : Tree (Obj w)) : Option (Tree (Obj w) × Bool) := insert (ptrCmp x.key) x t

/-- `bintree_remove_ptr_internal`. -/
def removePtr (x : Obj w) (t : Tree (Obj w)) : Option (Tree (Obj w) × Option (Obj w)) := remove (ptrCmp x.key) t

/-- The difference of the keys can be represented. -/
def Fit (a b : BitVec w) : Prop := -2 ^ (w - 1) ≤ a.toInt - b.toInt ∧ a.toInt - b.toInt < 2 ^ (w - 1)

/-- The specialised functions do what the generic ones do, for objects with keys of the set and values of the set. -/
def PtrAgrees (keys : Set (BitVec w)) : Prop :=
  ∀ t : Tree (Obj w), (∀ y ∈ t.toList, y.key ∈ keys) →
    (∀ v ∈ keys, findPtr v t = find (numCmp v) t) ∧
    ∀ x : Obj w, x.key ∈ keys → insertPtr x t = insert (numCmp x.key) x t ∧ removePtr x t = remove (numCmp x.key) t

theorem toInt_sub_cases (hw : 0 < w) (a b : BitVec w) :
    (Fit a b ∧ (a - b).toInt = a.toInt - b.toInt) ∨
    (2 ^ (w - 1) ≤ a.toInt - b.toInt ∧ (a - b).toInt < 0) ∨ (a.toInt - b.toInt < -2 ^ (w - 1) ∧ 0 < (a - b).toInt) := by
  have ha := a.toInt_lt
  have ha' := a.le_toInt
  have hb := b.toInt_lt
  have hb' := b.le_toInt
  have hpow : ((2 ^ w : Nat) : Int) = 2 * 2 ^ (w - 1) := by
    rw [Nat.cast_pow, ← pow_succ', Nat.sub_add_cancel hw]
    rfl
  rw [Fit, BitVec.toInt_sub]
  generalize hH : (2 : Int) ^ (w - 1) = H at *
  rcases lt_or_ge (a.toInt - b.toInt) (-H) with hlt | hge
  · right; right
    rw [← Int.add_bmod_right, Int.bmod_eq_of_le_mul_two] <;> omega
  rcases lt_or_ge (a.toInt - b.toInt) H with hlt | hge'
  · left
    rw [Int.bmod_eq_of_le_mul_two] <;> omega
  · right; left
    rw [← Int.sub_bmod_right, Int.bmod_eq_of_le_mul_two] <;> omega

theorem Fit.sameSign {v : BitVec w} {y : Obj w} (hw : 0 < w) (hf : Fit y.key v) : SameSign (ptrCmp v y) (numCmp v y) := by
  rw [ptrCmp, numCmp]
  rcases toInt_sub_cases hw y.key v with ⟨-, h⟩ | h | h
  · rw [h]
    exact ⟨Iff.rfl, Iff.rfl⟩
  · exact absurd hf.2 (not_lt.mpr h.1)
  · exact absurd hf.1 (not_le.mpr h.1)

theorem insertPtr_new {x y : Obj w} (hw : 0 < w) (hf : ¬Fit y.key x.key) :
    insertPtr x (.new y) ≠ insert (numCmp x.key) x (.new y) := by
  have hnil : (nil : Tree (Obj w)).Avl := trivial
  have hbal : (new x).balance = new x := avl_new.balance (by rw [levels_new]; omega)
  have hleft : ∀ {c : Obj w → Int}, 0 < c y → insert c x (.new y) = some (mk y (.new x) .nil, true) := by
    intro c hc
    have hpath : buildPath c maxTreeHeight [] (.new y) = some ([.left y 0 .nil], .nil) := by
      rw [Tree.new, maxTreeHeight, buildPath, if_neg (by omega), if_neg (by omega)]
      rfl
    have hun : unwind [.left y 0 .nil] (new x) = mk y (new x) .nil := by
      rw [unwind, unwind, hbal, Frame.plug, balance_node avl_new hnil] <;> simp [levels_new, levels]
    rw [Tree.new, insert, ← Tree.new, hpath, ← hun]
    · rfl
    · rintro ⟨⟩
  have hright : ∀ {c : Obj w → Int}, c y < 0 → insert c x (.new y) = some (mk y .nil (.new x), true) := by
    intro c hc
    have hpath : buildPath c maxTreeHeight [] (.new y) = some ([.right y 0 .nil], .nil) := by
      rw [Tree.new, maxTreeHeight, buildPath, if_neg (by omega), if_pos hc]
      rfl
    have hun : unwind [.right y 0 .nil] (new x) = mk y .nil (new x) := by
      rw [unwind, unwind, hbal, Frame.plug, balance_node hnil avl_new] <;> simp [levels_new, levels]
    rw [Tree.new, insert, ← Tree.new, hpath, ← hun]
    · rfl
    · rintro ⟨⟩
  have hne : mk y (.new x) .nil ≠ mk y .nil (.new x) := by simp [mk, Tree.new]
  have hH : (0 : Int) < 2 ^ (w - 1) := Int.pow_pos (by decide)
  rw [insertPtr]
  rcases toInt_sub_cases hw y.key x.key with h | h | h
  · exact absurd h.1 hf
  · rw [hright h.2, hleft (show 0 < numCmp x.key y by rw [numCmp]; omega)]
    simpa using hne.symm
  · rw [hleft h.2, hright (show numCmp x.key y < 0 by rw [numCmp]; omega)]
    simpa using hne

/-- **The specialised functions** agree with the generic ones on a set of keys exactly if no difference of two of them wraps
around. -/
theorem ptr_agrees_iff (hw : 0 < w) (keys : Set (BitVec w)) : PtrAgrees keys ↔ ∀ a ∈ keys, ∀ b ∈ keys, Fit a b := by
  constructor
  · intro hagree a ha b hb
    by_contra hf
    have hnew := ((hagree (.new ⟨0, a⟩) (by simp [Tree.new, toList, ha])).2 ⟨1, b⟩ hb).1
    exact insertPtr_new hw hf hnew
  · intro hfit t ht
    have hsame : ∀ v ∈ keys, ∀ y ∈ t.toList, SameSign (ptrCmp v y) (numCmp v y) := fun v hv y hy =>
      (hfit _ (ht y hy) v hv).sameSign hw
    exact ⟨fun v hv => find_congr (hsame v hv), fun x hx =>
      ⟨insert_congr (hsame _ hx), remove_congr (hsame _ hx)⟩⟩

/-- Keys of 64 bits that are not negative. -/
theorem ptr_agrees_iff_nonneg : PtrAgrees {a : BitVec 64 | 0 ≤ a.toInt} := by
  refine (ptr_agrees_iff (show 0 < 64 by decide) _).2 fun a ha b hb => ?_
  have ha' := a.toInt_lt
  have hb' := b.toInt_lt
  change 0 ≤ a.toInt at ha
  change 0 ≤ b.toInt at hb
  rw [Fit]
  omega

/-- The smallest and the largest key of 64 bits: the larger one is stored on the left, and not found. -/
theorem insert_ptr_differs :
    insertPtr (⟨1, 0x7fffffffffffffff#64⟩ : Obj 64) (.new ⟨0, 0x8000000000000000#64⟩) =
      some (.node ⟨0, 0x8000000000000000#64⟩ 1 (.new ⟨1, 0x7fffffffffffffff#64⟩) .nil, true) ∧
    insert (numCmp 0x7fffffffffffffff#64) (⟨1, 0x7fffffffffffffff#64⟩ : Obj 64) (.new ⟨0, 0x8000000000000000#64⟩) =
      some (.node ⟨0, 0x8000000000000000#64⟩ 1 .nil (.new ⟨1, 0x7fffffffffffffff#64⟩), true) ∧
    findPtr 0x7fffffffffffffff#64
      (.node (⟨0, 0x8000000000000000#64⟩ : Obj 64) 1 .nil (.new ⟨1, 0x7fffffffffffffff#64⟩)) = none ∧
    find (numCmp 0x7fffffffffffffff#64)
      (.node (⟨0, 0x8000000000000000#64⟩ : Obj 64) 1 .nil (.new ⟨1, 0x7fffffffffffffff#64⟩)) =
        some ⟨1, 0x7fffffffffffffff#64⟩ := by
  decide

end Usax.Bintree
