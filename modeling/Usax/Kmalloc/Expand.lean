import Usax.Kmalloc.FreeRuns

/-!
# Expanding a heap

`kmalloc_heap_dup_expanded` copies the metadata of a heap into that of a larger one, row by row: the old heap becomes the
first block of the new one, and the same blocks are in use (`dupExpanded_owns`). The nodes above the old root are split even if
the old heap is free, so the new heap need not be coalesced.
-/

namespace Usax.Kmalloc

open Usax.Lib Usax.Lib.Buddy Common

def copyRow (h newHeap : KmallocHeap) (newIdx oldIdx count : Nat) : Option KmallocHeap :=
  if newIdx + count ≤ newHeap.metadataSize ∧ oldIdx + count ≤ h.metadataSize then
    some { newHeap with metadataNodes := fun i =>
      if newIdx ≤ i ∧ i < newIdx + count then h.metadataNodes (oldIdx + (i - newIdx)) else newHeap.metadataNodes i }
  else none

section

variable [Machine]

def dupRows : Nat → (h newHeap : KmallocHeap) → (size nodesPerRow : Nat) → Option KmallocHeap
  | 0, _, _, _, _ => none
  | fuel + 1, h, newHeap, size, nodesPerRow =>
    if size ≥ h.minBlockSize then do
      let newIdx := ptrToNode newHeap h.vaddr size
      if size > h.size then
        let newHeap ← newHeap.modifyNode newIdx (fun b => { b with split := true })
        dupRows fuel h newHeap (size / 2) nodesPerRow
      else
        let oldIdx := ptrToNode h h.vaddr size
        let newHeap ← copyRow h newHeap newIdx oldIdx nodesPerRow
        dupRows fuel h newHeap (size / 2) (nodesPerRow * 2)
    else
      some newHeap

/-- `kmalloc_heap_dup_expanded`, once the new heap and its metadata are allocated. -/
def kmallocHeapDupExpanded (h : KmallocHeap) (newSize : Nat) (nodeBefore : BlockNode) : Option KmallocHeap :=
  let metadataSize := calculateHeapMetadataSize newSize h.minBlockSize
  if newSize = h.size then
    some { h with metadataSize := metadataSize, nodeBefore := nodeBefore }
  else
    let newHeap := { h with
      size := newSize
      metadataSize := metadataSize
      metadataNodes := fun _ => newNode
      nodeBefore := nodeBefore
      heapLastByte := h.vaddr + newSize - 1
      heapDataSizeLog2 := log2ForPowerOf2 newSize
      allocBlockSizeLog2 := log2ForPowerOf2 h.allocBlockSize }
    dupRows (newHeap.heapDataSizeLog2 + 2) h newHeap newSize 1

end

variable {a : Option Nat} {m K : Nat} {f g : Nat → BlockNode}

/-- Row `s` of the old nodes is at the start of row `s + D` of the new ones, for the rows from `r` on. -/
def Copied (D K r : Nat) (f g : Nat → BlockNode) : Prop :=
  ∀ s, r ≤ s → s ≤ K → ∀ p < 2 ^ s, g (firstInRow (s + D) 0 + p) = f (firstInRow s 0 + p)

/-- Everything but these rows is as before. -/
def Rest (D K r : Nat) (g g' : Nat → BlockNode) : Prop :=
  ∀ i, (∀ s, r ≤ s → s ≤ K → i + 1 < 2 ^ (s + D) ∨ 2 ^ (s + D) + 2 ^ s ≤ i + 1) → g' i = g i

variable {D : Nat}

/-- A copied node and the old node that it is a copy of, at the same place below the two roots. -/
theorem Copied.inRow {d s p i : Nat} (hc : Copied D K 0 f g) (hs : s + d ≤ K) (hp : p < 2 ^ s)
    (hi : InRow d (firstInRow (s + D) 0 + p) i) : ∃ j, InRow d (firstInRow s 0 + p) j ∧ g i = f j := by
  have e₁ := firstInRow_add_one (s + D) 0
  have e₂ := firstInRow_add_one s 0
  have e₃ := firstInRow_add_one (s + d) 0
  have e₄ := firstInRow_add_one (s + d + D) 0
  have e₅ : (firstInRow (s + D) 0 + p + 1) * 2 ^ d = 2 ^ (s + d + D) + p * 2 ^ d := by
    rw [show firstInRow (s + D) 0 + p + 1 = 2 ^ (s + D) + p by omega, show s + d + D = s + D + d by omega, pow_add 2 (s + D)]
    ring
  have e₆ : (firstInRow s 0 + p + 1) * 2 ^ d = 2 ^ (s + d) + p * 2 ^ d := by
    rw [show firstInRow s 0 + p + 1 = 2 ^ s + p by omega, pow_add]
    ring
  have hpd : p * 2 ^ d + 2 ^ d ≤ 2 ^ (s + d) := by
    rw [pow_add, ← Nat.succ_mul]
    exact Nat.mul_le_mul_right _ hp
  obtain ⟨h₁, h₂⟩ := hi
  rw [show firstInRow (s + D) 0 + p + 2 = firstInRow (s + D) 0 + p + 1 + 1 by omega, Nat.succ_mul, e₅] at h₂
  rw [e₅] at h₁
  -- the place of the node in its row
  obtain ⟨q, hq⟩ : ∃ q, i = firstInRow (s + d + D) 0 + q := ⟨i + 1 - 2 ^ (s + d + D), by omega⟩
  refine ⟨firstInRow (s + d) 0 + q, ⟨?_, ?_⟩, ?_⟩
  · rw [e₆]; omega
  · rw [show firstInRow s 0 + p + 2 = firstInRow s 0 + p + 1 + 1 by omega, Nat.succ_mul, e₆]; omega
  · rw [hq]
    exact hc (s + d) (Nat.zero_le _) hs q (by omega)

theorem Copied.rep (hc : Copied D K 0 f g) : ∀ {k s p : Nat} {u : Buddy}, k + s = K → p < 2 ^ s →
    Rep a f k (firstInRow s 0 + p) u → Rep a g k (firstInRow (s + D) 0 + p) u
  | k, s, p, .free, hk, hp, h => by
    rw [Rep.free_iff] at h ⊢
    intro i hi
    obtain ⟨d, hd, hrow⟩ := below_iff_inRow.1 hi
    obtain ⟨j, hj, he⟩ := hc.inRow (by omega) hp hrow
    rw [he]
    exact h j (below_iff_inRow.2 ⟨d, hd, hj⟩)
  | k, s, p, .used, hk, hp, h => by
    rw [Rep.used_iff] at h ⊢
    rw [hc s (Nat.zero_le _) (by omega) p hp]
    refine ⟨h.1, h.2.1, fun i hi hne => ?_⟩
    obtain ⟨d, hd, hrow⟩ := below_iff_inRow.1 hi
    obtain ⟨j, hj, he⟩ := hc.inRow (by omega) hp hrow
    have hne' : j ≠ firstInRow s 0 + p := by
      rintro rfl
      obtain rfl := hj.unique (inRow_zero.2 rfl)
      exact hne (inRow_zero.1 hrow)
    obtain ⟨h₁, h₂⟩ := h.2.2 j (below_iff_inRow.2 ⟨d, hd, hj⟩) hne'
    rw [he]
    refine ⟨h₁, fun hfull => ?_⟩
    obtain ⟨h₃, A, hA, ha, hin⟩ := h₂ hfull
    obtain rfl := hj.unique hin
    exact ⟨h₃, A, hA, ha, hrow⟩
  | k + 1, s, p, .split l r, hk, hp, h => by
    obtain ⟨h₁, h₂, h₃, h₄⟩ := h
    have e : 2 ^ (s + 1) = 2 ^ s + 2 ^ s := by ring
    rw [firstInRow_left] at h₃
    rw [firstInRow_right] at h₄
    refine ⟨?_, ?_, ?_, ?_⟩
    · rw [hc s (Nat.zero_le _) (by omega) p hp]; exact h₁
    · rw [hc s (Nat.zero_le _) (by omega) p hp]; exact h₂
    · rw [firstInRow_left, Nat.add_right_comm]; exact hc.rep (by omega) (by omega) h₃
    · rw [firstInRow_right, Nat.add_right_comm]; exact hc.rep (by omega) (by omega) h₄

/-- A tree at the left end of `D` more levels. -/
def grown : Nat → Buddy → Buddy
  | 0, u => u
  | D + 1, u => .split (grown D u) .free

theorem pieces_grown (o : Nat) (u : Buddy) : ∀ D, pieces (K + D) o (grown D u) = pieces K o u
  | 0 => rfl
  | D + 1 => by
    have hfree : pieces (K + D) (o + 2 ^ (K + D)) .free = [] := by cases K + D <;> rfl
    rw [grown, ← Nat.add_assoc, pieces, hfree, List.append_nil]
    exact pieces_grown o u D

theorem canon_grown {u : Buddy} (hu : Buddy.Canon u) (hne : u ≠ .free) : ∀ D, Buddy.Canon (grown D u) ∧ grown D u ≠ .free
  | 0 => ⟨hu, hne⟩
  | D + 1 => by
    obtain ⟨hc, hn⟩ := canon_grown hu hne D
    exact ⟨⟨hc, trivial, fun h => hn h.1⟩, nofun⟩

/-- The first node of each new row above the old root is split. -/
def withTop (g : Nat → BlockNode) (r : Nat) : Nat → (Nat → BlockNode)
  | 0 => g
  | e + 1 => withTop (Function.update g (firstInRow r 0) { g (firstInRow r 0) with split := true }) (r + 1) e

theorem firstInRow_inj {q r : Nat} (h : firstInRow q 0 = firstInRow r 0) : q = r := by
  have e₁ := firstInRow_add_one q 0
  have e₂ := firstInRow_add_one r 0
  exact Nat.pow_right_injective (le_refl 2) (by simp only; omega)

theorem withTop_of_ne {i : Nat} : ∀ {e r : Nat} {g : Nat → BlockNode}, (∀ q, r ≤ q → q < r + e → i ≠ firstInRow q 0) →
    withTop g r e i = g i
  | 0, _, _, _ => rfl
  | e + 1, r, g, h => by
    rw [withTop, withTop_of_ne fun q h₁ h₂ => h q (by omega) (by omega), Function.update_of_ne (h r (le_refl r) (by omega))]

theorem withTop_first {q : Nat} : ∀ {e r : Nat} {g : Nat → BlockNode}, r ≤ q → q < r + e →
    withTop g r e (firstInRow q 0) = { g (firstInRow q 0) with split := true }
  | 0, _, _, h₁, h₂ => by omega
  | e + 1, r, g, h₁, h₂ => by
    rw [withTop]
    rcases Nat.eq_or_lt_of_le h₁ with rfl | h₁
    · rw [withTop_of_ne fun q' h₃ _ he => absurd (firstInRow_inj he) (by omega), Function.update_self]
    · rw [withTop_first h₁ (by omega), Function.update_of_ne fun he => absurd (firstInRow_inj he) (by omega)]

/-- The nodes that the loop ends with: the old ones at the left end of `D` more levels, everything else free. -/
structure Grown (D K : Nat) (f g : Nat → BlockNode) : Prop where
  copied : Copied D K 0 f g
  top : ∀ e < D, g (firstInRow (D - (e + 1)) 0) = ⟨true, false, false, false⟩
  beside : ∀ e < D, Clean g (K + e) (firstInRow (D - e) 0 + 1)

theorem Grown.of_rest (hc : Copied D K 0 f g) (hr : Rest D K 0 (withTop (fun _ => newNode) 0 D) g) : Grown D K f g where
  copied := hc
  top e he := by
    have e₁ := firstInRow_add_one (D - (e + 1)) 0
    rw [hr _ fun s _ _ => Or.inl ?_, withTop_first (Nat.zero_le _) (by omega)]
    · rfl
    · have hlt : 2 ^ (D - (e + 1)) < 2 ^ (s + D) := Nat.pow_lt_pow_right (by omega) (by omega)
      omega
  beside e he := by
    intro i hi
    have e₂ := firstInRow_add_one (D - e) 0
    obtain ⟨c, -, h₁, h₂⟩ := below_iff_inRow.1 hi
    have hpos : 0 < 2 ^ c := by positivity
    have e₃ : (firstInRow (D - e) 0 + 1 + 1) * 2 ^ c = 2 ^ (D - e + c) + 2 ^ c := by rw [e₂, pow_add]; ring
    have e₄ : (firstInRow (D - e) 0 + 1 + 2) * 2 ^ c = 2 ^ (D - e + c) + 2 * 2 ^ c := by
      rw [show firstInRow (D - e) 0 + 1 + 2 = 2 ^ (D - e) + 2 by omega, pow_add]; ring
    have e₅ : 2 * 2 ^ c ≤ 2 ^ (D - e + c) := by
      rw [Nat.mul_comm, ← pow_succ]
      exact Nat.pow_le_pow_right (by omega) (by omega)
    rw [e₃] at h₁
    rw [e₄] at h₂
    rw [hr i fun s _ _ => ?_, withTop_of_ne fun q _ _ heq => ?_]
    · rfl
    · -- a first node of a row is a power of 2, and the node is between two of them
      have e₆ := firstInRow_add_one q 0
      have hq : D - e + c < q := (Nat.pow_lt_pow_iff_right (by omega)).mp (show 2 ^ (D - e + c) < 2 ^ q by omega)
      have hle : 2 ^ (D - e + c + 1) ≤ 2 ^ q := Nat.pow_le_pow_right (by omega) hq
      rw [pow_succ] at hle
      omega
    · rcases Nat.lt_or_ge (D - e + c) (s + D) with hlt | hge
      · have hle : 2 ^ (D - e + c + 1) ≤ 2 ^ (s + D) := Nat.pow_le_pow_right (by omega) hlt
        rw [pow_succ] at hle
        exact Or.inl (by omega)
      · have h₃ : 2 ^ (s + D) ≤ 2 ^ (D - e + c) := Nat.pow_le_pow_right (by omega) hge
        have h₄ : 2 ^ s ≤ 2 ^ c := Nat.pow_le_pow_right (by omega) (by omega)
        exact Or.inr (by omega)

theorem children_top {e : Nat} (he : e < D) : 2 * firstInRow (D - (e + 1)) 0 + 1 = firstInRow (D - e) 0 ∧
    2 * firstInRow (D - (e + 1)) 0 + 2 = firstInRow (D - e) 0 + 1 := by
  have hrow : D - (e + 1) + 1 = D - e := by omega
  rw [← hrow, firstInRow_succ]
  exact ⟨rfl, rfl⟩

theorem Grown.rep {u : Buddy} (hg : Grown D K f g) (hu : Rep a f K 0 u) : ∀ {e : Nat}, e ≤ D →
    Rep a g (K + e) (firstInRow (D - e) 0) (grown e u)
  | 0, _ => by
    have h₀ : Rep a f K (firstInRow 0 0 + 0) u := by simpa [firstInRow] using hu
    have hcopy := hg.copied.rep (Nat.add_zero K) (by norm_num) h₀
    rwa [Nat.zero_add] at hcopy
  | e + 1, he => by
    obtain ⟨hleft, hright⟩ := children_top he
    refine ⟨by rw [hg.top e he], by rw [hg.top e he]; simp [Buddy.isFull], ?_, ?_⟩
    · rw [hleft]
      exact hg.rep hu (by omega)
    · rw [hright]
      exact Rep.free_iff.2 (hg.beside e he)

variable [Machine]

theorem ptrToNode_first {h : KmallocHeap} {t : Nat} (sh : Shape h m K a) (ht : t ≤ K) :
    ptrToNode h h.vaddr (2 ^ (m + t)) = firstInRow (K - t) 0 := by
  have := ptrToNode_row sh ht 0
  simpa using this

/-- The new nodes with one more row copied. -/
def withRow (h : KmallocHeap) (D r : Nat) (g : Nat → BlockNode) (i : Nat) : BlockNode :=
  if firstInRow (r + D) 0 ≤ i ∧ i < firstInRow (r + D) 0 + 2 ^ r then
    h.metadataNodes (firstInRow r 0 + (i - firstInRow (r + D) 0))
  else g i

section Loop

variable {h new : KmallocHeap} (sh : Shape h m K a) (sh' : Shape new m (K + D) a) (hva : new.vaddr = h.vaddr)

include sh sh' hva

theorem dupRows_row {t fuel : Nat} (g : Nat → BlockNode) (ht : t ≤ K) :
    dupRows (fuel + 1) h (new.withNodes g) (2 ^ (m + t)) (2 ^ (K - t)) =
      dupRows fuel h (new.withNodes (withRow h D (K - t) g)) (2 ^ (m + t) / 2) (2 ^ (K - t) * 2) := by
  have hnew : ptrToNode (new.withNodes g) h.vaddr (2 ^ (m + t)) = firstInRow (K - t + D) 0 := by
    rw [← hva, show K - t + D = K + D - t by omega]
    exact ptrToNode_first (sh'.withNodes g) (by omega)
  have e₁ := firstInRow_add_one (K - t + D) 0
  have e₂ := firstInRow_add_one (K - t) 0
  have h₁ : 2 ^ (K - t) ≤ 2 ^ K := Nat.pow_le_pow_right (by omega) (by omega)
  have h₂ : 2 ^ (K - t + D) ≤ 2 ^ (K + D) := Nat.pow_le_pow_right (by omega) (by omega)
  have h₃ : 2 ^ K ≤ 2 ^ (K + D) := Nat.pow_le_pow_right (by omega) (by omega)
  have hin : firstInRow (K - t + D) 0 + 2 ^ (K - t) ≤ (new.withNodes g).metadataSize ∧
      firstInRow (K - t) 0 + 2 ^ (K - t) ≤ h.metadataSize := by
    rw [KmallocHeap.withNodes_metadataSize, sh'.metadataSize, sh.metadataSize, pow_succ, pow_succ]
    omega
  rw [dupRows, if_pos (by rw [sh.minBlockSize]; exact Nat.pow_le_pow_right (by omega) (by omega))]
  simp only [hnew, ptrToNode_first sh ht]
  rw [if_neg (by rw [sh.size]; exact not_lt.2 (Nat.pow_le_pow_right (by omega) (by omega))), copyRow, if_pos hin]
  rfl

/-- **The copying loop**, from the rows of blocks of level `t` on. -/
theorem dupRows_spec : ∀ {t fuel : Nat} {g : Nat → BlockNode}, t ≤ K → t + 1 < fuel →
    ∃ g', dupRows fuel h (new.withNodes g) (2 ^ (m + t)) (2 ^ (K - t)) = some (new.withNodes g') ∧
      Copied D K (K - t) h.metadataNodes g' ∧ Rest D K (K - t) g g' := by
  have hrow : ∀ {r p : Nat} (g : Nat → BlockNode), p < 2 ^ r →
      withRow h D r g (firstInRow (r + D) 0 + p) = h.metadataNodes (firstInRow r 0 + p) := by
    intro r p g hp
    rw [withRow, if_pos ⟨Nat.le_add_right _ _, by omega⟩, Nat.add_sub_cancel_left]
  have hout : ∀ {r i : Nat} (g : Nat → BlockNode), i + 1 < 2 ^ (r + D) ∨ 2 ^ (r + D) + 2 ^ r ≤ i + 1 →
      withRow h D r g i = g i := by
    intro r i g hi
    have e := firstInRow_add_one (r + D) 0
    rw [withRow, if_neg (by omega)]
  intro t
  induction t with
  | zero =>
    intro fuel g _ hfuel
    obtain ⟨fuel, rfl⟩ : ∃ n, fuel = n + 2 := ⟨fuel - 2, by omega⟩
    refine ⟨withRow h D K g, ?_, ?_, ?_⟩
    · have hlt : ¬2 ^ (m + 0) / 2 ≥ 2 ^ m := not_le.2 (Nat.div_lt_self (by positivity) (by omega))
      rw [dupRows_row sh sh' hva g (Nat.zero_le _), Nat.sub_zero, dupRows, sh.minBlockSize, if_neg hlt]
    · intro s h₁ h₂ p hp
      obtain rfl : s = K := by omega
      exact hrow g hp
    · intro i hi
      exact hout g (hi K (by omega) (le_refl _))
  | succ t ih =>
    intro fuel g ht hfuel
    obtain ⟨fuel, rfl⟩ : ∃ n, fuel = n + 1 := ⟨fuel - 1, by omega⟩
    obtain ⟨g', hrun, hcop, hrest⟩ := ih (g := withRow h D (K - (t + 1)) g) (by omega) (show t + 1 < fuel by omega)
    have hr : K - (t + 1) + 1 = K - t := by omega
    refine ⟨g', ?_, ?_, ?_⟩
    · rw [dupRows_row sh sh' hva g ht, ← pow_succ, hr, ← Nat.add_assoc, pow_succ, Nat.mul_div_cancel _ (by omega)]
      exact hrun
    · intro s h₁ h₂ p hp
      by_cases hs : K - t ≤ s
      · exact hcop s hs h₂ p hp
      -- the row just copied is not touched again
      obtain rfl : s = K - (t + 1) := by omega
      rw [← hrow g hp]
      refine hrest _ (fun s' h₃ _ => Or.inl ?_)
      have e := firstInRow_add_one (K - (t + 1) + D) 0
      have hle : 2 ^ (K - (t + 1) + D + 1) ≤ 2 ^ (s' + D) := Nat.pow_le_pow_right (by omega) (by omega)
      have hle' : 2 ^ (K - (t + 1)) ≤ 2 ^ (K - (t + 1) + D) := Nat.pow_le_pow_right (by omega) (by omega)
      rw [pow_succ] at hle
      omega
    · intro i hi
      rw [hrest i (fun s h₁ h₂ => hi s (by omega) h₂)]
      exact hout g (hi _ (le_refl _) (by omega))

theorem dupRows_top : ∀ {e : Nat} (fuel : Nat) {g : Nat → BlockNode}, e ≤ D →
    dupRows (fuel + e) h (new.withNodes g) (2 ^ (m + (K + e))) 1 =
      dupRows fuel h (new.withNodes (withTop g (D - e) e)) (2 ^ (m + K)) 1 := by
  intro e
  induction e with
  | zero =>
    intro fuel g _
    rfl
  | succ e ih =>
    intro fuel g he
    have hidx : ptrToNode (new.withNodes g) h.vaddr (2 ^ (m + (K + (e + 1)))) = firstInRow (D - (e + 1)) 0 := by
      have hrow : K + D - (K + (e + 1)) = D - (e + 1) := by omega
      rw [← hva, ← hrow]
      exact ptrToNode_first (sh'.withNodes g) (by omega)
    have hin : firstInRow (D - (e + 1)) 0 < (new.withNodes g).metadataSize := by
      have e₁ := firstInRow_add_one (D - (e + 1)) 0
      have e₂ : 2 ^ (D - (e + 1)) ≤ 2 ^ (K + D + 1) := Nat.pow_le_pow_right (by omega) (by omega)
      rw [KmallocHeap.withNodes_metadataSize, sh'.metadataSize]
      omega
    have hhalf : 2 ^ (m + (K + (e + 1))) / 2 = 2 ^ (m + (K + e)) := by
      rw [← Nat.add_assoc K, ← Nat.add_assoc m, pow_succ, Nat.mul_div_cancel _ (by omega)]
    rw [← Nat.add_assoc, dupRows, if_pos (by rw [sh.minBlockSize]; exact Nat.pow_le_pow_right (by omega) (by omega))]
    simp only [hidx]
    rw [if_pos (by rw [sh.size]; exact Nat.pow_lt_pow_right (by omega) (by omega)), KmallocHeap.modifyNode_eq hin,
      Option.bind_eq_bind, Option.bind_some, hhalf]
    refine (ih fuel (by omega)).trans ?_
    rw [withTop, show D - (e + 1) + 1 = D - e by omega]
    rfl

end Loop

/-- **`kmalloc_heap_dup_expanded`**, whatever the nodes of the old heap are. -/
theorem dupExpanded_spec {h : KmallocHeap} (nodeBefore : BlockNode) (sh : Shape h m K a) (hs : m + (K + D) < 31) :
    ∃ h', kmallocHeapDupExpanded h (2 ^ (m + (K + D))) nodeBefore = some h' ∧ Shape h' m (K + D) a ∧
      Grown D K h.metadataNodes h'.metadataNodes ∧ h'.vaddr = h.vaddr ∧ h'.vallocAndMap = h.vallocAndMap ∧
      h'.memAllocated = h.memAllocated ∧ h'.linearMapping = h.linearMapping := by
  have hmd : calculateHeapMetadataSize (2 ^ (m + (K + D))) h.minBlockSize = 2 ^ (K + D + 1) := by
    rw [calculateHeapMetadataSize, sh.minBlockSize, pow_add, show 2 * (2 ^ m * 2 ^ (K + D)) = 2 ^ m * 2 ^ (K + D + 1) by
      ring, Nat.mul_div_cancel_left _ (by positivity)]
  rcases Nat.eq_zero_or_pos D with rfl | hD
  · refine ⟨{ h with
      metadataSize := calculateHeapMetadataSize (2 ^ (m + (K + 0))) h.minBlockSize, nodeBefore := nodeBefore },
      by rw [kmallocHeapDupExpanded, if_pos (by rw [sh.size]; rfl)],
      ⟨sh.size, sh.minBlockSize, sh.log2, hmd, sh.small, sh.linear, sh.paged⟩,
      ⟨fun _ _ _ _ _ => rfl, nofun, nofun⟩, rfl, rfl, rfl, rfl⟩
  have hne : ¬2 ^ (m + (K + D)) = h.size := by
    rw [sh.size]
    exact fun e => by have := Nat.pow_right_injective (le_refl 2) e; omega
  set new : KmallocHeap := { h with
      size := 2 ^ (m + (K + D))
      metadataSize := calculateHeapMetadataSize (2 ^ (m + (K + D))) h.minBlockSize
      metadataNodes := fun _ => newNode
      nodeBefore := nodeBefore
      heapLastByte := h.vaddr + 2 ^ (m + (K + D)) - 1
      heapDataSizeLog2 := log2ForPowerOf2 (2 ^ (m + (K + D)))
      allocBlockSizeLog2 := log2ForPowerOf2 h.allocBlockSize } with hnew
  have sh' : Shape new m (K + D) a := by
    refine ⟨rfl, sh.minBlockSize, log2ForPowerOf2_two_pow (by omega), hmd, hs, sh.linear, fun A hA => ?_⟩
    obtain ⟨hlin, habs, hlog, hAK, hd⟩ := sh.paged A hA
    refine ⟨hlin, habs, ?_, by omega, hd⟩
    show log2ForPowerOf2 h.allocBlockSize = m + A
    rw [habs]
    exact log2ForPowerOf2_two_pow (by omega)
  obtain ⟨g, hrun, hcop, hrest⟩ := dupRows_spec sh sh' rfl (t := K) (g := withTop (fun _ => newNode) 0 D) (le_refl K)
    (show K + 1 < m + K + 2 by omega)
  rw [Nat.sub_self] at hrun hcop hrest
  refine ⟨new.withNodes g, ?_, sh'.withNodes g, .of_rest hcop hrest, rfl, rfl, rfl, rfl⟩
  rw [kmallocHeapDupExpanded, if_neg hne]
  show dupRows (log2ForPowerOf2 (2 ^ (m + (K + D))) + 2) h new (2 ^ (m + (K + D))) 1 = some (new.withNodes g)
  rw [log2ForPowerOf2_two_pow (by omega), show m + (K + D) + 2 = m + K + 2 + D by omega]
  have htop := dupRows_top sh sh' rfl (m + K + 2) (g := fun _ => newNode) (le_refl D)
  rw [Nat.sub_self] at htop
  exact htop.trans hrun

/-- **A larger copy of a heap** has the same blocks in use. A linear-mapped heap has its own metadata in use. -/
theorem dupExpanded_owns {h : KmallocHeap} {ps : List (Nat × Nat)} (nodeBefore : BlockNode) (ho : Owns h m K a ps)
    (hs : m + (K + D) < 31) (hne : h.linearMapping = true → ps ≠ []) :
    ∃ h', kmallocHeapDupExpanded h (2 ^ (m + (K + D))) nodeBefore = some h' ∧ Owns h' m (K + D) a ps ∧
      h'.vaddr = h.vaddr ∧ h'.vallocAndMap = h.vallocAndMap ∧ h'.memAllocated = h.memAllocated := by
  obtain ⟨u, hrep, hcanon, hperm⟩ := ho.tree
  obtain ⟨h', hrun, sh', hg, hva, hvalloc, hmem, hlin⟩ := dupExpanded_spec nodeBefore ho.shape hs
  have hgrown := hg.rep hrep (le_refl D)
  rw [Nat.sub_self] at hgrown
  refine ⟨h', hrun, ⟨sh', grown D u, hgrown, fun hl => ?_, ?_⟩, hva, hvalloc, hmem⟩
  · rw [hlin] at hl
    have hu : u ≠ .free := by
      rintro rfl
      have hnil : pieces K 0 .free = [] := by cases K <;> rfl
      rw [hnil] at hperm
      exact hne hl hperm.nil_eq.symm
    exact (canon_grown (hcanon hl) hu D).1
  · rw [pieces_grown]
    exact hperm

end Usax.Kmalloc
