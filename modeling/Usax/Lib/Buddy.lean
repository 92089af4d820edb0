import Mathlib.Data.List.Perm.Basic
import Mathlib.Data.List.Pairwise
import Mathlib.Algebra.BigOperators.Group.List.Basic
import Mathlib.Tactic.Ring
import Mathlib.Tactic.Linarith

/-!
# Buddy trees

A space of `2 ^ k` units is free, in use as one block, or split in two halves that are managed in the same way. A block
in use is a *piece*: its level `l` and its offset, for `2 ^ l` units. A *context* is a buddy tree with one hole, given
from the hole outwards.

- the pieces of a tree are pairwise disjoint and aligned (`pieces_bound`, `pieces_disjoint`);
- filling a hole adds the pieces of the filling to those of the context (`pieces_plug`), and `close` fills a hole with
  coalescing (`pieces_close`, `canon_close`);
- `find` looks for a free block of a given level from left to right: what it finds is free (`pieces_find`), and in a
  coalesced tree it finds the first one that there is (`find_complete`);
- in a coalesced (`Canon`) tree the pieces determine the tree (`Canon.ext`).
-/

namespace Usax.Lib

/-- The state of a block and of its parts. -/
inductive Buddy where
  | free
  | used
  | split (l r : Buddy)
deriving DecidableEq, Repr

namespace Buddy

/-- The tree has at most `k` levels of splits. -/
def Fits : Nat → Buddy → Prop
  | _, free => True
  | _, used => True
  | 0, split _ _ => False
  | k + 1, split l r => Fits k l ∧ Fits k r

/-- No split block has two free halves. -/
def Canon : Buddy → Prop
  | free => True
  | used => True
  | split l r => Canon l ∧ Canon r ∧ ¬(l = free ∧ r = free)

def isFull : Buddy → Bool
  | free => false
  | used => true
  | split l r => l.isFull && r.isFull

def halves : Buddy → Buddy × Buddy
  | split l r => (l, r)
  | b => (b, b)

/-- The blocks in use, as levels and offsets, of a block of level `k` at offset `o`. -/
def pieces : Nat → Nat → Buddy → List (Nat × Nat)
  | _, _, free => []
  | k, o, used => [(k, o)]
  | 0, _, split _ _ => []
  | k + 1, o, split l r => pieces k o l ++ pieces k (o + 2 ^ k) r

/-- The number of units in a list of pieces. -/
def total (ps : List (Nat × Nat)) : Nat := (ps.map (fun p => 2 ^ p.1)).sum

/-- Two pieces share no unit. -/
def Disj (p q : Nat × Nat) : Prop := p.2 + 2 ^ p.1 ≤ q.2 ∨ q.2 + 2 ^ q.1 ≤ p.2

@[simp] theorem total_nil : total [] = 0 := rfl

@[simp] theorem total_cons (p : Nat × Nat) (ps : List (Nat × Nat)) : total (p :: ps) = 2 ^ p.1 + total ps := by
  simp [total]

@[simp] theorem total_append (ps qs : List (Nat × Nat)) : total (ps ++ qs) = total ps + total qs := by simp [total]

theorem total_perm {ps qs : List (Nat × Nat)} (h : ps.Perm qs) : total ps = total qs := (h.map _).sum_eq

theorem Disj.symm {p q : Nat × Nat} (h : Disj p q) : Disj q p := Or.symm h

theorem pieces_shift : ∀ (k o : Nat) (u : Buddy), pieces k o u = (pieces k 0 u).map (fun p => (p.1, o + p.2))
  | 0, _, free | _ + 1, _, free | 0, _, split _ _ => rfl
  | 0, _, used | _ + 1, _, used => rfl
  | k + 1, o, split l r => by
    rw [pieces, pieces, List.map_append, pieces_shift k o l, pieces_shift k (o + 2 ^ k) r, pieces_shift k (0 + 2 ^ k) r,
      List.map_map]
    simp [Function.comp_def, Nat.add_assoc]

/-! ## Where the pieces of a block are -/

theorem pieces_bound : ∀ {k o : Nat} {u : Buddy} {p : Nat × Nat}, p ∈ pieces k o u →
    o ≤ p.2 ∧ p.2 + 2 ^ p.1 ≤ o + 2 ^ k ∧ p.1 ≤ k ∧ 2 ^ p.1 ∣ p.2 - o
  | 0, o, used, p, h | k + 1, o, used, p, h => by
    simp only [pieces, List.mem_singleton] at h
    subst h
    simp
  | k + 1, o, split l r, p, h => by
    have e : 2 ^ (k + 1) = 2 ^ k + 2 ^ k := by ring
    rcases List.mem_append.mp h with h | h
    · obtain ⟨h₁, h₂, h₃, h₄⟩ := pieces_bound h
      exact ⟨h₁, by omega, by omega, h₄⟩
    · obtain ⟨h₁, h₂, h₃, h₄⟩ := pieces_bound h
      refine ⟨by omega, by omega, by omega, ?_⟩
      rw [show p.2 - o = p.2 - (o + 2 ^ k) + 2 ^ k by omega]
      exact Nat.dvd_add h₄ (Nat.pow_dvd_pow 2 h₃)

theorem pieces_disjoint : ∀ (k o : Nat) (u : Buddy), (pieces k o u).Pairwise Disj
  | 0, _, free | _ + 1, _, free | 0, _, split _ _ => List.Pairwise.nil
  | 0, _, used | _ + 1, _, used => List.pairwise_singleton _ _
  | k + 1, o, split l r => by
    refine List.pairwise_append.mpr ⟨pieces_disjoint k o l, pieces_disjoint k _ r, ?_⟩
    intro p hp q hq
    have h₁ := pieces_bound hp
    have h₂ := pieces_bound hq
    exact Or.inl (by omega)

theorem total_pieces_le : ∀ (k o : Nat) (u : Buddy), total (pieces k o u) ≤ 2 ^ k
  | 0, o, .free | k + 1, o, .free => by simp [pieces, total]
  | 0, o, .used | k + 1, o, .used => by simp [pieces, total]
  | 0, o, .split _ _ => by simp [pieces, total]
  | k + 1, o, .split l r => by
    have h₁ := total_pieces_le k o l
    have h₂ := total_pieces_le k (o + 2 ^ k) r
    rw [pieces, total_append, pow_succ]
    omega

theorem eq_used_of_mem {k o x : Nat} {u : Buddy} (h : (k, x) ∈ pieces k o u) : u = used := by
  cases u with
  | free => cases k <;> simp [pieces] at h
  | used => rfl
  | split l r =>
    cases k with
    | zero => simp [pieces] at h
    | succ k =>
      rcases List.mem_append.mp h with h | h <;>
      · have := (pieces_bound h).2.2.1
        omega

theorem exists_piece : ∀ {k : Nat} (o : Nat) {u : Buddy}, Fits k u → Canon u → u ≠ free → ∃ p, p ∈ pieces k o u
  | 0, o, used, _, _, _ | k + 1, o, used, _, _, _ => ⟨_, List.mem_singleton.mpr rfl⟩
  | _, _, free, _, _, h => absurd rfl h
  | k + 1, o, split l r, hf, hc, _ => by
    by_cases hl : l = free
    · obtain ⟨p, hp⟩ := exists_piece (o + 2 ^ k) hf.2 hc.2.1 (fun hr => hc.2.2 ⟨hl, hr⟩)
      exact ⟨p, List.mem_append_right _ hp⟩
    · obtain ⟨p, hp⟩ := exists_piece o hf.1 hc.1 hl
      exact ⟨p, List.mem_append_left _ hp⟩

theorem mem_pieces_split {k o : Nat} {l r : Buddy} {p : Nat × Nat} :
    p ∈ pieces (k + 1) o (split l r) ↔
      (p ∈ pieces k o l ∧ p.2 < o + 2 ^ k) ∨ (p ∈ pieces k (o + 2 ^ k) r ∧ o + 2 ^ k ≤ p.2) := by
  have hpos : 0 < 2 ^ p.1 := by positivity
  constructor
  · intro h
    rcases List.mem_append.mp h with h | h
    · exact Or.inl ⟨h, by have := pieces_bound h; omega⟩
    · exact Or.inr ⟨h, (pieces_bound h).1⟩
  · rintro (⟨h, _⟩ | ⟨h, _⟩)
    · exact List.mem_append_left _ h
    · exact List.mem_append_right _ h

/-- **The pieces determine a coalesced tree.** -/
theorem Canon.ext : ∀ {k o : Nat} {u v : Buddy}, Fits k u → Fits k v → Canon u → Canon v →
    (∀ p, p ∈ pieces k o u ↔ p ∈ pieces k o v) → u = v := by
  intro k
  induction k with
  | zero =>
    intro o u v hu hv _ _ h
    cases u with
    | split => exact absurd hu id
    | free =>
      cases v with
      | free => rfl
      | used => exact absurd ((h (0, o)).2 (by simp [pieces])) (by simp [pieces])
      | split => exact absurd hv id
    | used => exact (eq_used_of_mem ((h (0, o)).1 (by simp [pieces]))).symm
  | succ k ih =>
    intro o u v hu hv cu cv h
    by_cases hfu : u = free
    · subst hfu
      by_contra hne
      obtain ⟨p, hp⟩ := exists_piece o hv cv (Ne.symm hne)
      exact absurd ((h p).2 hp) (by simp [pieces])
    by_cases hfv : v = free
    · subst hfv
      obtain ⟨p, hp⟩ := exists_piece o hu cu hfu
      exact absurd ((h p).1 hp) (by simp [pieces])
    cases u with
    | free => exact absurd rfl hfu
    | used => exact (eq_used_of_mem ((h (k + 1, o)).1 (by simp [pieces]))).symm
    | split l r =>
      cases v with
      | free => exact absurd rfl hfv
      | used => exact eq_used_of_mem ((h (k + 1, o)).2 (by simp [pieces]))
      | split l' r' =>
        have hpos : ∀ x, 0 < 2 ^ x := fun x => by positivity
        have hl : l = l' := ih hu.1 hv.1 cu.1 cv.1 (o := o) (fun p => by
          constructor
          · intro hp
            have hb := pieces_bound hp
            have := hpos p.1
            rcases mem_pieces_split.1 ((h p).1 (List.mem_append_left _ hp)) with h' | h'
            · exact h'.1
            · omega
          · intro hp
            have hb := pieces_bound hp
            have := hpos p.1
            rcases mem_pieces_split.1 ((h p).2 (List.mem_append_left _ hp)) with h' | h'
            · exact h'.1
            · omega)
        have hr : r = r' := ih hu.2 hv.2 cu.2.1 cv.2.1 (o := o + 2 ^ k) (fun p => by
          constructor
          · intro hp
            have hb := pieces_bound hp
            rcases mem_pieces_split.1 ((h p).1 (List.mem_append_right _ hp)) with h' | h'
            · omega
            · exact h'.1
          · intro hp
            have hb := pieces_bound hp
            rcases mem_pieces_split.1 ((h p).2 (List.mem_append_right _ hp)) with h' | h'
            · omega
            · exact h'.1)
        rw [hl, hr]

/-! ## Contexts -/

/-- A tree with a hole, from the hole outwards: on which side the hole is, and the block on the other side. -/
abbrev Ctx := List (Bool × Buddy)

/-- A block around one of its halves. -/
def fill (fr : Bool × Buddy) (u : Buddy) : Buddy := if fr.1 then split fr.2 u else split u fr.2

/-- A block around one of its halves, coalesced. -/
def merge (fr : Bool × Buddy) (u : Buddy) : Buddy := if u = free ∧ fr.2 = free then free else fill fr u

/-- Fill the hole. -/
def plug : Ctx → Buddy → Buddy
  | [], u => u
  | fr :: c, u => plug c (fill fr u)

/-- Fill the hole, coalescing on the way out. -/
def close : Ctx → Buddy → Buddy
  | [], u => u
  | fr :: c, u => close c (merge fr u)

namespace Ctx

/-- The offset of a hole of level `j`. -/
def off : Nat → Ctx → Nat
  | _, [] => 0
  | j, fr :: c => off (j + 1) c + (if fr.1 then 2 ^ j else 0)

/-- The pieces around a hole of level `j`. -/
def pieces : Nat → Ctx → List (Nat × Nat)
  | _, [] => []
  | j, fr :: c => Buddy.pieces j (off (j + 1) c + (if fr.1 then 0 else 2 ^ j)) fr.2 ++ pieces (j + 1) c

/-- The blocks around a hole of level `j` have at most as many levels as they can. -/
def Fits : Nat → Ctx → Prop
  | _, [] => True
  | j, fr :: c => Buddy.Fits j fr.2 ∧ Fits (j + 1) c

/-- The blocks around the hole are coalesced. -/
def Canon (c : Ctx) : Prop := ∀ fr ∈ c, Buddy.Canon fr.2

end Ctx

@[simp] theorem plug_append (c d : Ctx) (u : Buddy) : plug (c ++ d) u = plug d (plug c u) := by
  induction c generalizing u with
  | nil => rfl
  | cons fr c ih => exact ih _

theorem off_append : ∀ (j : Nat) (c d : Ctx), Ctx.off j (c ++ d) = Ctx.off j c + Ctx.off (j + c.length) d
  | j, [], d => by simp [Ctx.off]
  | j, fr :: c, d => by
    simp only [List.cons_append, Ctx.off, off_append (j + 1) c d, List.length_cons]
    rw [show j + 1 + c.length = j + (c.length + 1) by omega]
    omega

theorem off_add_le : ∀ (j : Nat) (c : Ctx), Ctx.off j c + 2 ^ j ≤ 2 ^ (j + c.length)
  | j, [] => by simp [Ctx.off]
  | j, fr :: c => by
    have := off_add_le (j + 1) c
    have hpos : 0 < 2 ^ j := by positivity
    have e : 2 ^ (j + 1) = 2 ^ j + 2 ^ j := by ring
    rw [show j + (fr :: c).length = j + 1 + c.length by simp; omega]
    simp only [Ctx.off]
    split <;> omega

theorem fill_ne_free (fr : Bool × Buddy) (u : Buddy) : fill fr u ≠ free := by
  unfold fill
  split <;> simp

theorem isFull_fill (fr : Bool × Buddy) (u : Buddy) : (fill fr u).isFull = (u.isFull && fr.2.isFull) := by
  unfold fill
  split
  · exact Bool.and_comm _ _
  · rfl

theorem isFull_plug_of_not : ∀ {c : Ctx} {u : Buddy}, u.isFull = false → (plug c u).isFull = false
  | [], _, h => h
  | fr :: c, u, h => isFull_plug_of_not (c := c) (by rw [isFull_fill, h]; rfl)

theorem fits_fill {k : Nat} {fr : Bool × Buddy} {u : Buddy} : Buddy.Fits (k + 1) (fill fr u) ↔
    Buddy.Fits k u ∧ Buddy.Fits k fr.2 := by
  unfold fill
  split
  · exact and_comm
  · exact Iff.rfl

theorem canon_fill {fr : Bool × Buddy} {u : Buddy} (hu : Buddy.Canon u) (hf : Buddy.Canon fr.2)
    (h : ¬(u = free ∧ fr.2 = free)) : Buddy.Canon (fill fr u) := by
  unfold fill
  split
  · exact ⟨hf, hu, fun e => h ⟨e.2, e.1⟩⟩
  · exact ⟨hu, hf, h⟩

theorem pieces_fill (k o : Nat) (fr : Bool × Buddy) (u : Buddy) :
    (Buddy.pieces (k + 1) o (fill fr u)).Perm (Buddy.pieces k (o + (if fr.1 then 2 ^ k else 0)) u ++
      Buddy.pieces k (o + (if fr.1 then 0 else 2 ^ k)) fr.2) := by
  obtain ⟨b, s⟩ := fr
  cases b
  · exact List.Perm.refl _
  · exact List.perm_append_comm

theorem pieces_merge (k o : Nat) (fr : Bool × Buddy) (u : Buddy) :
    (Buddy.pieces (k + 1) o (merge fr u)).Perm (Buddy.pieces (k + 1) o (fill fr u)) := by
  unfold merge
  split
  · rename_i h
    refine List.Perm.trans ?_ (pieces_fill k o fr u).symm
    rw [h.1, h.2]
    cases k <;> exact List.Perm.refl _
  · exact List.Perm.refl _

theorem pieces_plug : ∀ (j : Nat) (c : Ctx) (u : Buddy),
    (Buddy.pieces (j + c.length) 0 (plug c u)).Perm (Buddy.pieces j (Ctx.off j c) u ++ Ctx.pieces j c)
  | j, [], u => by simp [plug, Ctx.off, Ctx.pieces]
  | j, fr :: c, u => by
    have ih := pieces_plug (j + 1) c (fill fr u)
    rw [show j + 1 + c.length = j + (fr :: c).length by simp; omega] at ih
    refine ih.trans (((pieces_fill j _ fr u).append_right _).trans ?_)
    rw [List.append_assoc]
    exact List.Perm.refl _

theorem pieces_close : ∀ (j : Nat) (c : Ctx) (u : Buddy),
    (Buddy.pieces (j + c.length) 0 (close c u)).Perm (Buddy.pieces j (Ctx.off j c) u ++ Ctx.pieces j c)
  | j, [], u => by simp [close, Ctx.off, Ctx.pieces]
  | j, fr :: c, u => by
    have ih := pieces_close (j + 1) c (merge fr u)
    rw [show j + 1 + c.length = j + (fr :: c).length by simp; omega] at ih
    refine ih.trans ((((pieces_merge j _ fr u).trans (pieces_fill j _ fr u)).append_right _).trans ?_)
    rw [List.append_assoc]
    exact List.Perm.refl _

theorem fits_plug : ∀ {j : Nat} {c : Ctx} {u : Buddy}, Buddy.Fits (j + c.length) (plug c u) ↔
    Buddy.Fits j u ∧ Ctx.Fits j c
  | j, [], u => by simp [plug, Ctx.Fits]
  | j, fr :: c, u => by
    rw [show j + (fr :: c).length = j + 1 + c.length by simp; omega]
    simp only [plug, Ctx.Fits]
    rw [fits_plug, fits_fill]
    tauto

theorem canon_merge {fr : Bool × Buddy} {u : Buddy} (hu : Buddy.Canon u) (hf : Buddy.Canon fr.2) :
    Buddy.Canon (merge fr u) := by
  unfold merge
  split
  · trivial
  · exact canon_fill hu hf ‹_›

theorem canon_close : ∀ {c : Ctx} {u : Buddy}, Buddy.Canon u → Ctx.Canon c → Buddy.Canon (close c u)
  | [], _, hu, _ => hu
  | fr :: c, _, hu, hc =>
    canon_close (c := c) (canon_merge hu (hc fr List.mem_cons_self)) (fun g hg => hc g (List.mem_cons_of_mem _ hg))

theorem canon_plug : ∀ {c : Ctx} {u : Buddy}, Buddy.Canon u → Ctx.Canon c → u ≠ free → Buddy.Canon (plug c u)
  | [], _, hu, _, _ => hu
  | fr :: c, u, hu, hc, hne =>
    canon_plug (c := c) (canon_fill hu (hc fr List.mem_cons_self) (fun h => hne h.1))
      (fun g hg => hc g (List.mem_cons_of_mem _ hg)) (fill_ne_free fr u)

theorem Canon.of_plug : ∀ {c : Ctx} {u : Buddy}, Buddy.Canon (plug c u) → Buddy.Canon u ∧ Ctx.Canon c
  | [], _, h => ⟨h, fun _ hf => absurd hf List.not_mem_nil⟩
  | fr :: c, u, h => by
    obtain ⟨hf, hc⟩ := Canon.of_plug (c := c) h
    have : Buddy.Canon u ∧ Buddy.Canon fr.2 := by
      unfold fill at hf
      split at hf
      · exact ⟨hf.2.1, hf.1⟩
      · exact ⟨hf.1, hf.2.1⟩
    exact ⟨this.1, fun g hg => by
      rcases List.mem_cons.mp hg with rfl | hg
      · exact this.2
      · exact hc g hg⟩

theorem exists_ctx_of_mem : ∀ {k j o : Nat} {u : Buddy} (d : Ctx), (j, o) ∈ pieces k (Ctx.off k d) u →
    ∃ c : Ctx, u = plug c used ∧ j + c.length = k ∧ Ctx.off j (c ++ d) = o
  | k, j, o, used, d, h => by
    have : (j, o) = (k, Ctx.off k d) := by cases k <;> simpa [pieces] using h
    cases this
    exact ⟨[], rfl, rfl, rfl⟩
  | k, _, _, free, _, h => by cases k <;> simp [pieces] at h
  | k + 1, j, o, split l r, d, h => by
    rcases List.mem_append.mp h with h | h
    · obtain ⟨c, hu, hk, ho⟩ := exists_ctx_of_mem ((false, r) :: d) (by simpa [Ctx.off] using h)
      refine ⟨c ++ [(false, r)], by rw [plug_append, ← hu]; rfl, by simp; omega, ?_⟩
      rw [List.append_assoc]
      exact ho
    · obtain ⟨c, hu, hk, ho⟩ := exists_ctx_of_mem ((true, l) :: d) (by simpa [Ctx.off] using h)
      refine ⟨c ++ [(true, l)], by rw [plug_append, ← hu]; rfl, by simp; omega, ?_⟩
      rw [List.append_assoc]
      exact ho

/-! ## Looking for a free block -/

/-- The first free block of level `j`, from left to right, in a block of level `k`: its context. -/
def find (j : Nat) : Nat → Buddy → Option Ctx
  | 0, u => if u = free then some [] else none
  | k + 1, u =>
    if u.isFull then none
    else if k + 1 ≤ j then (if u = free then some [] else none)
    else
      match find j k u.halves.1 with
      | some c => some (c ++ [(false, u.halves.2)])
      | none => (find j k u.halves.2).map (· ++ [(true, u.halves.1)])

theorem find_full {j k : Nat} {u : Buddy} (h : u.isFull = true) : find j k u = none := by
  cases k with
  | zero =>
    cases u with
    | free => cases h
    | used => rfl
    | split => rfl
  | succ k => simp [find, h]

theorem find_self {j : Nat} {u : Buddy} : find j j u = if u = free then some [] else none := by
  cases j with
  | zero => rfl
  | succ j =>
    by_cases hu : u = free
    · subst hu; simp [find, isFull]
    · simp [find, hu]

theorem find_succ {j k : Nat} {u : Buddy} (hj : j ≤ k) (hu : u.isFull = false) : find j (k + 1) u =
    match find j k u.halves.1 with
    | some c => some (c ++ [(false, u.halves.2)])
    | none => (find j k u.halves.2).map (· ++ [(true, u.halves.1)]) := by
  simp only [find, hu, Bool.false_eq_true, ↓reduceIte, if_neg (show ¬k + 1 ≤ j by omega)]

theorem canon_halves {u : Buddy} (hu : Buddy.Canon u) : Buddy.Canon u.halves.1 ∧ Buddy.Canon u.halves.2 := by
  cases u with
  | free => exact ⟨trivial, trivial⟩
  | used => exact ⟨trivial, trivial⟩
  | split l r => exact ⟨hu.1, hu.2.1⟩

theorem fits_halves {k : Nat} {u : Buddy} (hu : Buddy.Fits (k + 1) u) :
    Buddy.Fits k u.halves.1 ∧ Buddy.Fits k u.halves.2 := by
  cases u with
  | free => exact ⟨by cases k <;> trivial, by cases k <;> trivial⟩
  | used => exact ⟨by cases k <;> trivial, by cases k <;> trivial⟩
  | split l r => exact hu

theorem pieces_halves {k : Nat} (o : Nat) {u : Buddy} (hu : u.isFull = false) :
    pieces (k + 1) o u = pieces k o u.halves.1 ++ pieces k (o + 2 ^ k) u.halves.2 := by
  cases u with
  | free => cases k <;> rfl
  | used => cases hu
  | split l r => rfl

theorem find_induct {j : Nat} {P : Nat → Buddy → Ctx → Prop} (here : P j free [])
    (left : ∀ {k : Nat} {u : Buddy} {c : Ctx}, j ≤ k → u.isFull = false → find j k u.halves.1 = some c →
      P k u.halves.1 c → P (k + 1) u (c ++ [(false, u.halves.2)]))
    (right : ∀ {k : Nat} {u : Buddy} {c : Ctx}, j ≤ k → u.isFull = false → find j k u.halves.2 = some c →
      P k u.halves.2 c → P (k + 1) u (c ++ [(true, u.halves.1)])) :
    ∀ {k : Nat} {u : Buddy} {c : Ctx}, j ≤ k → find j k u = some c → P k u c := by
  have self : ∀ {u : Buddy} {c : Ctx}, find j j u = some c → P j u c := by
    intro u c h
    rw [find_self] at h
    split at h
    · rename_i hu
      cases h
      rw [hu]
      exact here
    · cases h
  intro k
  induction k with
  | zero =>
    intro u c hj h
    obtain rfl : j = 0 := by omega
    exact self h
  | succ k ih =>
    intro u c hj h
    rcases Nat.lt_or_eq_of_le hj with hj | rfl
    · have hf : u.isFull = false := by
        rw [Bool.eq_false_iff]
        intro hf
        rw [find_full hf] at h
        cases h
      rw [find_succ (by omega) hf] at h
      cases hl : find j k u.halves.1 with
      | some c' =>
        rw [hl] at h
        cases h
        exact left (by omega) hf hl (ih (by omega) hl)
      | none =>
        rw [hl] at h
        obtain ⟨c', hc', rfl⟩ := Option.map_eq_some_iff.mp h
        exact right (by omega) hf hc' (ih (by omega) hc')
    · exact self h

theorem find_length {j k : Nat} {u : Buddy} {c : Ctx} (hj : j ≤ k) (h : find j k u = some c) : j + c.length = k := by
  refine find_induct (P := fun k _ c => j + c.length = k) rfl ?_ ?_ hj h
  all_goals
    intro k u c _ _ _ ih
    rw [List.length_append, List.length_singleton, ← Nat.add_assoc, ih]

theorem find_fits {j k : Nat} {u : Buddy} {c : Ctx} (hj : j ≤ k) (hu : Buddy.Fits k u) (h : find j k u = some c) :
    Ctx.Fits j c := by
  have snoc : ∀ {j k : Nat} {c : Ctx} {fr : Bool × Buddy}, j + c.length = k → Ctx.Fits j c → Buddy.Fits k fr.2 →
      Ctx.Fits j (c ++ [fr]) := by
    intro j k c fr hk hf ffr
    induction c generalizing j with
    | nil => exact ⟨by rw [show j = k by simpa using hk]; exact ffr, trivial⟩
    | cons g c ih => exact ⟨hf.1, ih (by rw [← hk]; simp; omega) hf.2⟩
  refine find_induct (P := fun k u c => Buddy.Fits k u → Ctx.Fits j c) (fun _ => trivial) ?_ ?_ hj h hu
  · intro k u c hj _ hfind ih hu
    obtain ⟨fl, fr⟩ := fits_halves hu
    exact snoc (find_length hj hfind) (ih fl) fr
  · intro k u c hj _ hfind ih hu
    obtain ⟨fl, fr⟩ := fits_halves hu
    exact snoc (find_length hj hfind) (ih fr) fl

theorem find_canon {j k : Nat} {u : Buddy} {c : Ctx} (hj : j ≤ k) (hu : Buddy.Canon u) (h : find j k u = some c) :
    Ctx.Canon c := by
  have snoc : ∀ {c : Ctx} {fr : Bool × Buddy}, Ctx.Canon c → Buddy.Canon fr.2 → Ctx.Canon (c ++ [fr]) := by
    intro c fr hc cfr g hg
    rcases List.mem_append.mp hg with hg | hg
    · exact hc g hg
    · rw [List.mem_singleton.mp hg]; exact cfr
  refine find_induct (P := fun _ u c => Buddy.Canon u → Ctx.Canon c) (fun _ _ hf => absurd hf List.not_mem_nil) ?_ ?_ hj h hu
  · intro k u c _ _ _ ih hu
    obtain ⟨cl, cr⟩ := canon_halves hu
    exact snoc (ih cl) cr
  · intro k u c _ _ _ ih hu
    obtain ⟨cl, cr⟩ := canon_halves hu
    exact snoc (ih cr) cl

theorem pieces_plug_find {j k : Nat} (o : Nat) {u : Buddy} {c : Ctx} (hj : j ≤ k) (h : find j k u = some c) :
    Buddy.pieces k o (plug c free) = Buddy.pieces k o u := by
  refine find_induct (P := fun k u c => ∀ o, Buddy.pieces k o (plug c free) = Buddy.pieces k o u) (fun _ => rfl)
    ?_ ?_ hj h o
  all_goals
    intro k u c _ hf _ ih o
    rw [plug_append, pieces_halves o hf, ← ih]
    rfl

theorem pieces_find {j k : Nat} {u w : Buddy} {c : Ctx} (hj : j ≤ k) (h : find j k u = some c) :
    (Buddy.pieces k 0 (plug c w)).Perm (Buddy.pieces j (Ctx.off j c) w ++ Buddy.pieces k 0 u) := by
  have hlen := find_length hj h
  have hfree : Buddy.pieces j (Ctx.off j c) Buddy.free = [] := by cases j <;> rfl
  have h₁ := pieces_plug j c w
  have h₂ := pieces_plug j c Buddy.free
  rw [hlen, pieces_plug_find 0 hj h, hfree, List.nil_append] at h₂
  rw [hlen] at h₁
  exact h₁.trans (h₂.symm.append_left _)

theorem find_disj {j k : Nat} {u : Buddy} {c : Ctx} (hj : j ≤ k) (h : find j k u = some c)
    {p : Nat × Nat} (hp : p ∈ Buddy.pieces k 0 u) : Disj p (j, Ctx.off j c) := by
  have hall := pieces_disjoint k 0 (plug c used)
  rw [(pieces_find (w := used) hj h).pairwise_iff (fun h => h.symm), List.pairwise_append] at hall
  refine (hall.2.2 (j, Ctx.off j c) ?_ p hp).symm
  cases j <;> exact List.mem_singleton.mpr rfl

theorem exists_piece_of_isFull : ∀ {k o : Nat} {u : Buddy}, Buddy.Fits k u → u.isFull = true → ∀ x, o ≤ x →
    x < o + 2 ^ k → ∃ p ∈ pieces k o u, p.2 ≤ x ∧ x < p.2 + 2 ^ p.1
  | 0, _, used, _, _, _, h₁, h₂ | _ + 1, _, used, _, _, _, h₁, h₂ => ⟨_, List.mem_singleton.mpr rfl, h₁, h₂⟩
  | k + 1, o, split l r, hf, hu, x, h₁, h₂ => by
    have e : 2 ^ (k + 1) = 2 ^ k + 2 ^ k := by ring
    simp only [isFull, Bool.and_eq_true] at hu
    by_cases hx : x < o + 2 ^ k
    · obtain ⟨p, hp, h⟩ := exists_piece_of_isFull hf.1 hu.1 x h₁ hx
      exact ⟨p, List.mem_append_left _ hp, h⟩
    · obtain ⟨p, hp, h⟩ := exists_piece_of_isFull (o := o + 2 ^ k) hf.2 hu.2 x (by omega) (by omega)
      exact ⟨p, List.mem_append_right _ hp, h⟩

theorem find_free (j : Nat) : ∀ {k : Nat}, j ≤ k → ∃ c, find j k free = some c ∧ ∀ i, Ctx.off i c = 0
  | 0, h => ⟨[], by simp [find], fun _ => rfl⟩
  | k + 1, h => by
    rcases Nat.lt_or_eq_of_le h with h | rfl
    · obtain ⟨c, hc, ho⟩ := find_free j (show j ≤ k by omega)
      refine ⟨c ++ [(false, free)], ?_, fun i => ?_⟩
      · rw [find_succ (by omega) rfl]
        simp only [halves, hc]
      · rw [off_append, ho]
        simp [Ctx.off]
    · exact ⟨[], by rw [find_self]; simp, fun _ => rfl⟩

/-- **`find` finds the first free block**: if an aligned block of level `j` at `x` meets no piece, it finds one at `x`
or before. -/
theorem find_complete {j : Nat} : ∀ {k o x : Nat} {u : Buddy}, j ≤ k → Buddy.Fits k u → Buddy.Canon u →
    2 ^ j ∣ x - o → o ≤ x → x + 2 ^ j ≤ o + 2 ^ k → (∀ p ∈ pieces k o u, Disj p (j, x)) →
    ∃ c, find j k u = some c ∧ o + Ctx.off j c ≤ x := by
  intro k
  induction k with
  | zero =>
    intro o x u hj hf hc _ hox hx hd
    have hj : j = 0 := by omega
    subst hj
    have : u = free := by
      by_contra hne
      obtain ⟨p, hp⟩ := exists_piece o hf hc hne
      have hb := pieces_bound hp
      have hpos : 0 < 2 ^ p.1 := by positivity
      rcases hd p hp with h | h <;> simp at h hx <;> omega
    subst this
    exact ⟨[], by simp [find], by simpa [Ctx.off] using hox⟩
  | succ k ih =>
    intro o x u hj hf hc hal hox hx hd
    have e : 2 ^ (k + 1) = 2 ^ k + 2 ^ k := by ring
    rcases Nat.lt_or_eq_of_le hj with hj | rfl
    · by_cases hu : u = free
      · subst hu
        obtain ⟨c, h₁, h₂⟩ := find_free j (k := k + 1) (by omega)
        exact ⟨c, h₁, by rw [h₂]; exact hox⟩
      have hpos : 0 < 2 ^ j := by positivity
      have hfull : u.isFull = false := by
        by_contra h
        obtain ⟨p, hp, h₁, h₂⟩ := exists_piece_of_isFull hf (by simpa using h) x hox (by omega)
        rcases hd p hp with h | h <;> simp at h <;> omega
      cases u with
      | free => exact absurd rfl hu
      | used => cases hfull
      | split l r =>
        rw [find_succ (by omega) hfull]
        simp only [halves]
        by_cases hlt : x < o + 2 ^ k
        · -- alignment keeps the block inside of the left half
          have hin : x + 2 ^ j ≤ o + 2 ^ k := by
            obtain ⟨a, ha⟩ := hal
            obtain ⟨b, hb⟩ := Nat.pow_dvd_pow 2 (show j ≤ k by omega)
            have : a < b := by
              by_contra hab
              have := Nat.mul_le_mul_left (2 ^ j) (show b ≤ a by omega)
              omega
            have := Nat.mul_le_mul_left (2 ^ j) (show a + 1 ≤ b by omega)
            rw [Nat.mul_add] at this
            omega
          obtain ⟨c, h₁, h₂⟩ := ih (by omega) hf.1 hc.1 hal hox hin
            (fun p hp => hd p (List.mem_append_left _ hp))
          refine ⟨_, by rw [h₁], ?_⟩
          rw [off_append]
          simpa [Ctx.off] using h₂
        · cases hl : find j k l with
          | some c =>
            refine ⟨_, rfl, ?_⟩
            have h₁ := find_length (by omega) hl
            have := off_add_le j c
            rw [h₁] at this
            rw [off_append]
            simp [Ctx.off]
            omega
          | none =>
            obtain ⟨c, h₁, h₂⟩ := ih (o := o + 2 ^ k) (by omega) hf.2 hc.2.1
              (by
                rw [show x - o = x - (o + 2 ^ k) + 2 ^ k by omega] at hal
                exact (Nat.dvd_add_left (Nat.pow_dvd_pow 2 (by omega))).1 hal)
              (by omega) (by omega) (fun p hp => hd p (List.mem_append_right _ hp))
            refine ⟨_, by rw [h₁]; rfl, ?_⟩
            have h₃ := find_length (by omega) h₁
            rw [off_append, h₃]
            simp [Ctx.off]
            omega
    · have : u = free := by
        by_contra hne
        obtain ⟨p, hp⟩ := exists_piece o hf hc hne
        have hb := pieces_bound hp
        have hpos : 0 < 2 ^ p.1 := by positivity
        rcases hd p hp with h | h <;> simp at h hx <;> omega
      subst this
      exact ⟨[], by rw [find_self]; simp, by simpa [Ctx.off] using hox⟩

theorem isFull_of_find_zero : ∀ {k : Nat} {u : Buddy}, Buddy.Fits k u → find 0 k u = none → u.isFull = true
  | 0, free, _, h => by simp [find] at h
  | 0, used, _, _ => rfl
  | k + 1, u, hf, h => by
    by_contra hu
    have hu : u.isFull = false := by simpa using hu
    obtain ⟨fl, fr⟩ := fits_halves hf
    rw [find_succ (Nat.zero_le _) hu] at h
    cases hl : find 0 k u.halves.1 with
    | some c => rw [hl] at h; cases h
    | none =>
      rw [hl] at h
      have h₁ := isFull_of_find_zero fl hl
      have h₂ := isFull_of_find_zero fr (Option.map_eq_none_iff.1 h)
      cases u with
      | free => cases h₁
      | used => cases hu
      | split l r => simp [isFull, halves] at h₁ h₂ hu; simp [h₁, h₂] at hu

/-! ## Blocks split evenly -/

/-- A block in use, split into blocks in use `d` levels below. -/
def evenly : Nat → Buddy
  | 0 => used
  | d + 1 => split (evenly d) (evenly d)

theorem isFull_evenly : ∀ d, (evenly d).isFull = true
  | 0 => rfl
  | d + 1 => by simp [evenly, isFull, isFull_evenly d]

theorem evenly_ne_free (d : Nat) : evenly d ≠ free := by cases d <;> simp [evenly]

theorem canon_evenly : ∀ d, Buddy.Canon (evenly d)
  | 0 => trivial
  | d + 1 => ⟨canon_evenly d, canon_evenly d, fun h => evenly_ne_free d h.1⟩

theorem fits_evenly : ∀ {d k : Nat}, d ≤ k → Buddy.Fits k (evenly d)
  | 0, 0, _ | 0, _ + 1, _ => trivial
  | d + 1, k + 1, h => ⟨fits_evenly (by omega), fits_evenly (by omega)⟩

theorem total_evenly : ∀ {d k : Nat} (o : Nat), d ≤ k → total (pieces k o (evenly d)) = 2 ^ k
  | 0, 0, _, _ | 0, _ + 1, _, _ => by simp [evenly, pieces]
  | d + 1, k + 1, o, h => by
    simp only [evenly, pieces, total_append, total_evenly _ (show d ≤ k by omega)]
    ring

theorem level_evenly : ∀ {d k o : Nat} {p : Nat × Nat}, d ≤ k → p ∈ pieces k o (evenly d) → p.1 = k - d
  | 0, 0, _, _, _, h | 0, _ + 1, _, _, _, h => by
    simp only [evenly, pieces, List.mem_singleton] at h
    rw [h, Nat.sub_zero]
  | d + 1, k + 1, o, p, hd, h => by
    rcases List.mem_append.mp h with h | h
    · rw [level_evenly (by omega) h]; omega
    · rw [level_evenly (by omega) h]; omega

/-! ## The part of a tree that is a given block -/

theorem off_dvd : ∀ (j : Nat) (c : Ctx), 2 ^ j ∣ Ctx.off j c
  | _, [] => Nat.dvd_zero _
  | j, fr :: c => by
    refine Nat.dvd_add (dvd_trans (Nat.pow_dvd_pow 2 (Nat.le_succ j)) (off_dvd (j + 1) c)) ?_
    split
    · exact dvd_refl _
    · exact Nat.dvd_zero _

def Within (b p : Nat × Nat) : Prop := b.2 ≤ p.2 ∧ p.2 + 2 ^ p.1 ≤ b.2 + 2 ^ b.1

instance (b p : Nat × Nat) : Decidable (Within b p) := inferInstanceAs (Decidable (_ ∧ _))

theorem Disj.not_within {b p : Nat × Nat} (h : Disj p b) : ¬Within b p := by
  have : 0 < 2 ^ p.1 := by positivity
  rintro ⟨h₁, h₂⟩
  rcases h with h | h <;> omega

theorem Disj.not_within_both {b b' p : Nat × Nat} (hd : Disj b' b) (h : Within b' p) : ¬Within b p := by
  have : 0 < 2 ^ p.1 := by positivity
  simp only [Within] at h ⊢
  rcases hd with hd | hd <;> omega

theorem Ctx.pieces_disj : ∀ {j : Nat} {c : Ctx} {p : Nat × Nat}, p ∈ Ctx.pieces j c → Disj p (j, Ctx.off j c)
  | _, [], _, h => absurd h List.not_mem_nil
  | j, fr :: c, p, h => by
    have e : 2 ^ (j + 1) = 2 ^ j + 2 ^ j := by ring
    have hpos : 0 < 2 ^ j := by positivity
    simp only [Disj, Ctx.off]
    rcases List.mem_append.mp h with h | h
    · obtain ⟨h₁, h₂, _⟩ := pieces_bound h
      cases hb : fr.1 <;> simp only [hb, Bool.false_eq_true, ↓reduceIte] at h₁ h₂ ⊢ <;> omega
    · have := Ctx.pieces_disj (c := c) h
      simp only [Disj] at this
      split <;> omega

theorem exists_ctx_of_within {k l y : Nat} {u : Buddy} {p : Nat × Nat} (hp : p ∈ pieces k 0 u) (hl : p.1 ≤ l)
    (hk : l ≤ k) (hy : 2 ^ l ∣ y) (hw : Within (l, y) p) : ∃ c v, u = plug c v ∧ l + c.length = k ∧ Ctx.off l c = y := by
  obtain ⟨i, x⟩ := p
  obtain ⟨c, hu, hc, ho⟩ := exists_ctx_of_mem [] (show (i, x) ∈ pieces k (Ctx.off k []) u from hp)
  rw [List.append_nil] at ho
  have hsplit : c = c.take (l - i) ++ c.drop (l - i) := (List.take_append_drop _ _).symm
  have hlen : i + (c.take (l - i)).length = l := by rw [List.length_take]; simp at hl; omega
  refine ⟨c.drop (l - i), plug (c.take (l - i)) .used, by rw [← plug_append, ← hsplit, hu],
    by rw [List.length_drop]; simp at hl; omega, ?_⟩
  rw [hsplit, off_append, hlen] at ho
  have h₁ := off_add_le i (c.take (l - i))
  rw [hlen] at h₁
  obtain ⟨s, hs⟩ := off_dvd l (c.drop (l - i))
  obtain ⟨t, rfl⟩ := hy
  have hpos : 0 < 2 ^ l := by positivity
  have hi : 0 < 2 ^ i := by positivity
  simp only [Within] at hw
  rw [hs] at ho ⊢
  have h₂ : s < t + 1 := by
    by_contra hc
    have := Nat.mul_le_mul_left (2 ^ l) (show t + 1 ≤ s by omega)
    rw [Nat.mul_add] at this
    omega
  have h₃ : t < s + 1 := by
    by_contra hc
    have := Nat.mul_le_mul_left (2 ^ l) (show s + 1 ≤ t by omega)
    rw [Nat.mul_add] at this
    omega
  rw [show s = t by omega]

theorem perm_of_within {l : Nat} {c : Ctx} {v : Buddy} {xs rest : List (Nat × Nat)}
    (h : (pieces (l + c.length) 0 (plug c v)).Perm (xs ++ rest)) (hx : ∀ p ∈ xs, Within (l, Ctx.off l c) p)
    (hr : ∀ p ∈ rest, ¬Within (l, Ctx.off l c) p) :
    (pieces l (Ctx.off l c) v).Perm xs ∧ (Ctx.pieces l c).Perm rest := by
  have h' := (pieces_plug l c v).symm.trans h
  have hv : ∀ p ∈ pieces l (Ctx.off l c) v, Within (l, Ctx.off l c) p := fun p hp => by
    obtain ⟨h₁, h₂, _⟩ := pieces_bound hp
    exact ⟨h₁, h₂⟩
  have hc : ∀ p ∈ Ctx.pieces l c, ¬Within (l, Ctx.off l c) p := fun p hp => (Ctx.pieces_disj hp).not_within
  have key : ∀ {ys zs : List (Nat × Nat)}, (∀ p ∈ ys, Within (l, Ctx.off l c) p) →
      (∀ p ∈ zs, ¬Within (l, Ctx.off l c) p) →
      (ys ++ zs).filter (fun p => decide (Within (l, Ctx.off l c) p)) = ys ∧
      (ys ++ zs).filter (fun p => !decide (Within (l, Ctx.off l c) p)) = zs := by
    intro ys zs hy hz
    have h₁ : ys.filter (fun p => decide (Within (l, Ctx.off l c) p)) = ys := by
      rw [List.filter_eq_self]; intro p hp; simpa using hy p hp
    have h₂ : zs.filter (fun p => decide (Within (l, Ctx.off l c) p)) = [] := by
      rw [List.filter_eq_nil_iff]; intro p hp; simpa using hz p hp
    have h₃ : ys.filter (fun p => !decide (Within (l, Ctx.off l c) p)) = [] := by
      rw [List.filter_eq_nil_iff]; intro p hp; simpa using hy p hp
    have h₄ : zs.filter (fun p => !decide (Within (l, Ctx.off l c) p)) = zs := by
      rw [List.filter_eq_self]; intro p hp; simpa using hz p hp
    rw [List.filter_append, List.filter_append, h₁, h₂, h₃, h₄]
    simp
  obtain ⟨e₁, e₂⟩ := key hv hc
  obtain ⟨e₃, e₄⟩ := key hx hr
  constructor
  · have := h'.filter (fun p => decide (Within (l, Ctx.off l c) p))
    rwa [e₁, e₃] at this
  · have := h'.filter (fun p => !decide (Within (l, Ctx.off l c) p))
    rwa [e₂, e₄] at this

end Buddy

end Usax.Lib
