import Mathlib.Data.Nat.Fib.Basic
import Usax.Bintree.Visit

/-!
# How many objects a high tree has

A balanced tree with `n` levels has `fib (n + 2) - 1` objects at least, and the Fibonacci trees have no more. So a tree with
fewer objects than the smallest one of `MAX_TREE_HEIGHT` levels is lower than the stacks of the operations and of the visits
(`stacks_within`). One more level is too much: the slot below the last level needs an entry as well, and the Fibonacci tree
of `MAX_TREE_HEIGHT` levels can be reached (`stacks_overflow`).

Every balanced tree that is lower than the stack is reached: take a lowest leaf away, and insert it again (`exists_graft`,
`reachable_of_avl`).
-/

namespace Usax.Bintree

open Usax.Bintree.Tree

variable {α : Type} {cmp : α → α → Int} {c : α → Int} {x : α} {t : Tree α}

/-! ## The fewest objects -/

theorem Tree.Avl.fib_le (ht : t.Avl) : Nat.fib (t.levels + 2) ≤ t.toList.length + 1 := by
  induction t with
  | nil => simp [levels, toList]
  | node x h l r ihl ihr =>
    obtain ⟨-, h₁, h₂, hl, hr⟩ := ht
    have hchildren : Nat.fib (max l.levels r.levels + 1) + Nat.fib (max l.levels r.levels + 2) ≤
        Nat.fib (l.levels + 2) + Nat.fib (r.levels + 2) := by
      rcases le_total l.levels r.levels with hle | hle
      · rw [max_eq_right hle]
        exact Nat.add_le_add_right (Nat.fib_mono (by omega)) _
      · rw [max_eq_left hle, Nat.add_comm]
        exact Nat.add_le_add_left (Nat.fib_mono (by omega)) _
    have hsum : Nat.fib (max l.levels r.levels + 1 + 2) =
        Nat.fib (max l.levels r.levels + 1) + Nat.fib (max l.levels r.levels + 2) := Nat.fib_add_two
    have hl' := ihl hl
    have hr' := ihr hr
    rw [levels, toList, List.length_append, List.length_cons, hsum]
    omega

theorem Tree.Avl.levels_lt (ht : t.Avl) {n : Nat} (hsize : t.toList.length + 1 < Nat.fib (n + 2)) : t.levels < n := by
  by_contra hge
  have hmono : Nat.fib (n + 2) ≤ Nat.fib (t.levels + 2) := Nat.fib_mono (by omega)
  exact absurd (hmono.trans ht.fib_le) (not_le.mpr hsize)

/-! ## Inserting a leaf -/

/-- The new object below its place, before the last step of the unwinding. -/
def graft (c : α → Int) (x : α) : Tree α → Tree α
  | .nil => .new x
  | .node y h l r => if c y < 0 then .node y h l (graft c x r).balance else .node y h (graft c x l).balance r

theorem buildPath_graft : ∀ {slots : Nat} (fs : List (Frame α)) {t : Tree α}, t.levels < slots → (∀ y ∈ t.toList, c y ≠ 0) →
    ∃ gs, buildPath c slots fs t = some (gs, .nil) ∧ unwind gs (new x) = unwind fs (graft c x t)
  | 0, _, _, hs, _ => absurd hs (Nat.not_lt_zero _)
  | _ + 1, fs, .nil, _, _ => ⟨fs, rfl, rfl⟩
  | slots + 1, fs, .node y h l r, hs, hne => by
    have hs' : max l.levels r.levels + 1 < slots + 1 := hs
    rw [buildPath, graft, if_neg (hne y (by simp [toList]))]
    by_cases hneg : c y < 0
    · rw [if_pos hneg, if_pos hneg]
      exact buildPath_graft (.right y h l :: fs) (by omega) fun z hz => hne z (by simp [toList, hz])
    · rw [if_neg hneg, if_neg hneg]
      exact buildPath_graft (.left y h r :: fs) (by omega) fun z hz => hne z (by simp [toList, hz])

theorem insert_graft (hlev : t.levels < maxTreeHeight) (hne : ∀ y ∈ t.toList, c y ≠ 0) :
    Bintree.insert c x t = some ((graft c x t).balance, true) := by
  cases t with
  | nil =>
    have hnew : (new x).balance = new x := avl_new.balance (by rw [levels_new]; omega)
    rw [graft, hnew]
    rfl
  | node y h l r =>
    obtain ⟨gs, hpath, hun⟩ := buildPath_graft (x := x) [] hlev hne
    rw [Bintree.insert, hpath]
    · exact congrArg (fun t => some (t, true)) hun
    · rintro ⟨⟩

/-! ## Every balanced tree is reached -/

theorem exists_graft (ho : TotalOrder cmp) (ht : t.Avl) (hsort : t.toList.Pairwise (cmp · · < 0)) (hne : t ≠ .nil)
    (hs : t.levels < 2 ^ 16) : ∃ t' x a b, t'.Avl ∧ t'.levels ≤ t.levels ∧ t.levels ≤ t'.levels + 1 ∧
      t.toList = a ++ x :: b ∧ t'.toList = a ++ b ∧ (graft (cmp · x) x t').balance = t := by
  induction t with
  | nil => exact absurd rfl hne
  | node y h l r ihl ihr =>
    obtain ⟨rfl, h₁, h₂, hl, hr⟩ := ht
    have hs' : max l.levels r.levels + 1 < 2 ^ 16 := hs
    obtain ⟨hsl, hyr, hly⟩ := List.pairwise_append.mp hsort
    obtain ⟨hy, hsr⟩ := List.pairwise_cons.mp hyr
    by_cases hlow : l.levels < r.levels
    · have hrne : r ≠ .nil := by
        rintro rfl
        exact absurd hlow (Nat.not_lt_zero _)
      obtain ⟨r', x, a, b, hr', hle, hge, hlist, hlist', hgraft⟩ := ihr hr hsr hrne (by omega)
      have hyx : cmp y x < 0 := hy x (by rw [hlist]; simp)
      refine ⟨mk y l r', x, l.toList ++ y :: a, b, avl_mk.mpr ⟨by omega, by omega, hl, hr'⟩, ?_, ?_, ?_, ?_, ?_⟩
      · rw [levels_mk, levels]
        omega
      · rw [levels_mk, levels]
        omega
      · rw [toList, hlist]
        simp
      · rw [mk, toList, hlist']
        simp
      · rw [mk, graft, if_pos hyx, hgraft]
        exact balance_node hl hr h₁ h₂ (by omega)
    · by_cases hlnil : l = .nil
      · subst hlnil
        have hrnil : r = .nil := by
          cases r with
          | nil => rfl
          | node z hz rl rr => exact absurd (Nat.zero_lt_succ _) hlow
        subst hrnil
        refine ⟨.nil, y, [], [], trivial, Nat.zero_le _, le_rfl, rfl, rfl, ?_⟩
        exact avl_new.balance (by rw [levels_new]; omega)
      · obtain ⟨l', x, a, b, hl', hle, hge, hlist, hlist', hgraft⟩ := ihl hl hsl hlnil (by omega)
        have hxy : cmp x y < 0 := hly x (by rw [hlist]; simp) y List.mem_cons_self
        have hyx : ¬ cmp y x < 0 := by
          have := (ho.symm x y).1 hxy
          omega
        refine ⟨mk y l' r, x, a, b ++ y :: r.toList, avl_mk.mpr ⟨by omega, by omega, hl', hr⟩, ?_, ?_, ?_, ?_, ?_⟩
        · rw [levels_mk, levels]
          omega
        · rw [levels_mk, levels]
          omega
        · rw [toList, hlist]
          simp
        · rw [mk, toList, hlist']
          simp
        · rw [mk, graft, if_neg hyx, hgraft]
          exact balance_node hl hr h₁ h₂ (by omega)

theorem exists_insert (ho : TotalOrder cmp) (hk : Ok cmp t) (hne : t ≠ .nil) (hs : t.levels < 2 ^ 16) :
    ∃ t', Ok cmp t' ∧ t'.levels ≤ t.levels ∧ t'.toList.length + 1 = t.toList.length ∧
      (Reachable cmp t' → t'.levels < maxTreeHeight → Reachable cmp t) := by
  obtain ⟨t', x, a, b, havl, hle, -, hlist, hlist', hgraft⟩ := exists_graft ho hk.avl hk.sorted hne hs
  have hsort := hk.sorted
  rw [hlist] at hsort
  have hsort' : t'.toList.Pairwise (cmp · · < 0) := by
    rw [hlist']
    exact hsort.sublist (List.Sublist.append_left (List.sublist_cons_self x b) a)
  refine ⟨t', ⟨hsort', havl⟩, hle, by simp [hlist, hlist', Nat.add_assoc], fun hr hlev => ?_⟩
  have hnot : ∀ y ∈ t'.toList, cmp y x ≠ 0 := by
    intro y hy
    obtain ⟨-, hxb, hab⟩ := List.pairwise_append.mp hsort
    rw [hlist'] at hy
    rcases List.mem_append.mp hy with hy | hy
    · exact (hab y hy x List.mem_cons_self).ne
    · exact ((ho.symm x y).1 ((List.pairwise_cons.mp hxb).1 y hy)).ne'
  have hins := hr.insert x hlev (insert_graft hlev hnot)
  rwa [hgraft] at hins

/-- **Every balanced tree that is lower than the stack is reached.** -/
theorem reachable_of_avl (ho : TotalOrder cmp) (n : Nat) (t : Tree α) (hn : t.toList.length = n) (hk : Ok cmp t)
    (hlev : t.levels < maxTreeHeight) : Reachable cmp t := by
  induction n generalizing t with
  | zero =>
    cases t with
    | nil => exact .empty
    | node y h l r => simp [toList] at hn
  | succ n ih =>
    have hne : t ≠ .nil := by
      rintro rfl
      simp [toList] at hn
    have hs : t.levels < 2 ^ 16 := hlev.trans (by decide)
    obtain ⟨t', hk', hle, hlen, hstep⟩ := exists_insert ho hk hne hs
    exact hstep (ih t' (by omega) hk' (hle.trans_lt hlev)) (hle.trans_lt hlev)

/-! ## Fibonacci trees -/

/-- The Fibonacci tree with the given number of levels, of the even numbers from `b` on. -/
def fibTree : Nat → Int → Tree Int
  | 0, _ => .nil
  | 1, b => mk b .nil .nil
  | n + 2, b => mk (b + 2 * (Nat.fib (n + 3) - 1)) (fibTree (n + 1) b) (fibTree n (b + 2 * Nat.fib (n + 3)))

theorem levels_fibTree : ∀ (n : Nat) (b : Int), (fibTree n b).levels = n
  | 0, _ => rfl
  | 1, _ => rfl
  | n + 2, b => by
    rw [fibTree, levels_mk, levels_fibTree (n + 1), levels_fibTree n]
    omega

theorem avl_fibTree : ∀ (n : Nat) (b : Int), (fibTree n b).Avl
  | 0, _ => trivial
  | 1, _ => avl_mk.mpr ⟨by simp [levels], by simp [levels], trivial, trivial⟩
  | n + 2, b => by
    refine avl_mk.mpr ⟨?_, ?_, avl_fibTree (n + 1) _, avl_fibTree n _⟩
    · rw [levels_fibTree, levels_fibTree]
    · rw [levels_fibTree, levels_fibTree]
      omega

theorem length_fibTree : ∀ (n : Nat) (b : Int), (fibTree n b).toList.length + 1 = Nat.fib (n + 2)
  | 0, _ => rfl
  | 1, _ => rfl
  | n + 2, b => by
    have hl := length_fibTree (n + 1) b
    have hr := length_fibTree n (b + 2 * Nat.fib (n + 3))
    have hsum : Nat.fib (n + 2 + 2) = Nat.fib (n + 2) + Nat.fib (n + 1 + 2) := Nat.fib_add_two
    rw [fibTree, mk, toList, List.length_append, List.length_cons, hsum]
    omega

theorem mem_fibTree : ∀ (n : Nat) (b : Int), 2 ∣ b → ∀ y ∈ (fibTree n b).toList,
    2 ∣ y ∧ b ≤ y ∧ y < b + 2 * (Nat.fib (n + 2) - 1)
  | 0, _, _, _, hy => absurd hy (by simp [fibTree, toList])
  | 1, b, hb, y, hy => by
    obtain rfl : y = b := by simpa [fibTree, mk, toList] using hy
    have hfib : Nat.fib (1 + 2) = 2 := rfl
    rw [hfib]
    omega
  | n + 2, b, hb, y, hy => by
    have hpos : 0 < Nat.fib (n + 2) := Nat.fib_pos.mpr (by omega)
    have hpos' : 0 < Nat.fib (n + 3) := Nat.fib_pos.mpr (by omega)
    have hsum : Nat.fib (n + 2 + 2) = Nat.fib (n + 2) + Nat.fib (n + 3) := Nat.fib_add_two
    rw [fibTree, mk, toList, List.mem_append, List.mem_cons] at hy
    rw [hsum]
    push_cast
    rcases hy with hy | rfl | hy
    · have hin := mem_fibTree (n + 1) b hb y hy
      rw [show n + 1 + 2 = n + 3 from rfl] at hin
      omega
    · omega
    · have hin := mem_fibTree n (b + 2 * Nat.fib (n + 3)) (by omega) y hy
      omega

theorem sorted_fibTree : ∀ (n : Nat) (b : Int), 2 ∣ b → (fibTree n b).toList.Pairwise (intCmp · · < 0)
  | 0, _, _ => List.Pairwise.nil
  | 1, _, _ => List.pairwise_singleton _ _
  | n + 2, b, hb => by
    have hb' : 2 ∣ b + 2 * (Nat.fib (n + 3) : Int) := by omega
    have hleft := mem_fibTree (n + 1) b hb
    have hright := mem_fibTree n _ hb'
    rw [fibTree, mk, toList, List.pairwise_append, List.pairwise_cons]
    refine ⟨sorted_fibTree (n + 1) b hb, ⟨fun y hy => ?_, sorted_fibTree n _ hb'⟩, fun y hy z hz => ?_⟩
    · have hin := hright y hy
      rw [intCmp]
      omega
    · have hin := hleft y hy
      rw [show n + 1 + 2 = n + 3 from rfl] at hin
      rw [intCmp]
      rcases List.mem_cons.mp hz with rfl | hz
      · omega
      · have hin' := hright z hz
        omega

theorem ok_fibTree (n : Nat) : Ok intCmp (fibTree n 0) := ⟨sorted_fibTree n 0 (by omega), avl_fibTree n 0⟩

/-- The Fibonacci tree that is as high as the stack is reached: with a leaf less it is lower, having too few objects. -/
theorem reachable_fibTree : Reachable intCmp (fibTree maxTreeHeight 0) := by
  have hlev := levels_fibTree maxTreeHeight 0
  have hne : fibTree maxTreeHeight 0 ≠ .nil := by
    intro h
    rw [h] at hlev
    exact absurd hlev (by decide)
  obtain ⟨t', hk', -, hlen, hstep⟩ := exists_insert intCmp_totalOrder (ok_fibTree _) hne (by rw [hlev]; decide)
  have hlow : t'.levels < maxTreeHeight := by
    refine hk'.avl.levels_lt ?_
    rw [hlen, ← length_fibTree maxTreeHeight 0]
    omega
  exact hstep (reachable_of_avl intCmp_totalOrder _ t' rfl hk' hlow) hlow

/-! ## The stacks -/

/-- **The stacks are high enough exactly for a tree of fewer than `MAX_TREE_HEIGHT` levels**: in a tree that is reached an
insertion and a removal stay on their stack of slots, and the visits on their stack of calls. A tree with fewer objects than
the smallest balanced one of `MAX_TREE_HEIGHT` levels is such a tree. -/
theorem stacks_within (ho : TotalOrder cmp) (hr : Reachable cmp t) :
    ((∀ x, Bintree.insert (cmp · x) x t ≠ none) ∧ (∀ c, Compares cmp c → Bintree.remove c t ≠ none) ∧
      VisitsInOrder t false ∧ VisitsInOrder t true ↔ t.levels < maxTreeHeight) ∧
    (t.toList.length + 1 < Nat.fib (maxTreeHeight + 2) → t.levels < maxTreeHeight) := by
  have hk := hr.ok ho
  refine ⟨⟨fun h => ?_, fun hlev => ⟨fun x h => ?_, fun c hc h => ?_, visitsInOrder hlev, visitsInOrder hlev⟩⟩,
    hk.avl.levels_lt⟩
  · exact not_le.mp fun hge => not_visitsInOrder (hk.nodup ho) hge h.2.2.1
  · obtain ⟨t', added, hrun, -⟩ := insert_spec ho hk hlev x
    exact nomatch h.symm.trans hrun
  · obtain ⟨t', obj, hrun, -⟩ := remove_spec hk hlev hc
    exact nomatch h.symm.trans hrun

theorem stacks_within_sampleTree : (∀ x, Bintree.insert (intCmp · x) x sampleTree ≠ none) ∧
    (∀ c, Compares intCmp c → Bintree.remove c sampleTree ≠ none) ∧
      VisitsInOrder sampleTree false ∧ VisitsInOrder sampleTree true :=
  (stacks_within intCmp_totalOrder reachable_sampleTree).1.2 (by decide)

/-- A tree with fewer objects than any balanced one of `MAX_TREE_HEIGHT + 1` levels, and a number for whose path there is no
room on the stack. -/
theorem stacks_overflow : ∃ (t : Bintree.Tree Int) (x : Int), Reachable intCmp t ∧
    (∀ s : Bintree.Tree Int, s.Avl → s.levels = maxTreeHeight + 1 → t.toList.length < s.toList.length) ∧
      Bintree.insert (intCmp · x) x t = none := by
  have hlev := levels_fibTree maxTreeHeight 0
  have hlen := length_fibTree maxTreeHeight 0
  have heven : ∀ y ∈ (fibTree maxTreeHeight 0).toList, 2 ∣ y := fun y hy => (mem_fibTree _ 0 (by omega) y hy).1
  have hr := reachable_fibTree
  have hsort := (ok_fibTree maxTreeHeight).sorted
  generalize fibTree maxTreeHeight 0 = t at *
  cases t with
  | nil => exact absurd hlev (by decide)
  | node y h l r =>
    obtain ⟨k, -, hrun⟩ := buildPath_overflow (nofun : Bintree.Tree.node y h l r ≠ .nil) hlev.ge hsort heven
    refine ⟨_, k + 1, hr, fun s hs hlevs => ?_, ?_⟩
    · have hfib := hs.fib_le
      have hlt : Nat.fib (maxTreeHeight + 2) < Nat.fib (maxTreeHeight + 1 + 2) := Nat.fib_lt_fib_succ (by decide)
      rw [hlevs] at hfib
      omega
    · rw [Bintree.insert, hrun]
      · rfl
      · exact nofun

end Usax.Bintree
