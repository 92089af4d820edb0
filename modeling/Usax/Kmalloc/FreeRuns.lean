import Usax.Kmalloc.Blocks

/-!
# Freeing runs of blocks

`per_heap_kfree_unsafe` frees one block, or, for a multi-step free, one block for each binary digit of the size. A block
can be freed when something in it is in use and, unless splitting is allowed, when it is in use as a whole (`Freeable`).
What is left in use is what lies outside of the freed blocks (`perHeapKfree_one`, `perHeapKfree_multi`), and when a whole
run is freed, it is the rest (`perHeapKfree_run`); without a size, `calculate_block_size` finds the size of the block (`calculateBlockSize_spec`).
-/

namespace Usax.Kmalloc

open Usax.Lib Usax.Lib.Buddy Common

variable {a : Option Nat} {m K : Nat}

theorem eq_singleton_of_within {b : Nat × Nat} {xs : List (Nat × Nat)} (hd : xs.Pairwise Disj) (hb : b ∈ xs)
    (hx : ∀ p ∈ xs, Within b p) : xs = [b] := by
  obtain ⟨ys, zs, rfl⟩ := List.append_of_mem hb
  obtain ⟨_, h₂, h₃⟩ := List.pairwise_append.mp hd
  have hys : ys = [] := by
    rw [List.eq_nil_iff_forall_not_mem]
    exact fun p hp => (h₃ p hp b List.mem_cons_self).not_within (hx p (by simp [hp]))
  have hzs : zs = [] := by
    rw [List.eq_nil_iff_forall_not_mem]
    exact fun p hp => ((List.pairwise_cons.mp h₂).1 p hp).symm.not_within (hx p (by simp [hp]))
  rw [hys, hzs]
  rfl

/-- The block can be freed: something in it is in use, and it is in use as a whole unless splitting is allowed. A block
of a heap that is not linear-mapped may stay mapped only if no allocation block in it is marked. -/
structure Freeable (h : KmallocHeap) (K : Nat) (a : Option Nat) (ps : List (Nat × Nat)) (allowSplit doActualFree : Bool)
    (b : Nat × Nat) : Prop where
  block : IsBlock K b
  inUse : ∃ p ∈ ps, Within b p
  whole : b ∈ ps ∨ allowSplit = true
  unmarked : doActualFree = false → a ≠ none → (h.metadataNodes (blockNode K b.1 b.2)).split = false →
    ∀ i, Below b.1 (blockNode K b.1 b.2) i → i ≠ blockNode K b.1 b.2 → (h.metadataNodes i).full = false

/-- The units that `internal_kfree` counts for a block. -/
def countedUnits (h : KmallocHeap) (K : Nat) (b : Nat × Nat) : Nat :=
  2 ^ b.1 - if (h.metadataNodes (blockNode K b.1 b.2)).split then freeLeaves h.metadataNodes b.1 (blockNode K b.1 b.2)
    else 0

/-- What is in use outside of some blocks. -/
def outside (bs ps : List (Nat × Nat)) : List (Nat × Nat) := ps.filter (fun p => decide (∀ b ∈ bs, ¬Within b p))

@[simp] theorem outside_nil (ps : List (Nat × Nat)) : outside [] ps = ps := by simp [outside]

theorem outside_cons (b : Nat × Nat) (bs ps : List (Nat × Nat)) : outside (b :: bs) ps = outside bs (outside [b] ps) := by
  rw [outside, outside, outside, List.filter_filter]
  congr 1
  funext p
  rw [Bool.eq_iff_iff]
  simp [and_comm]

/-- The counter goes down by `n`, as a machine word. -/
structure Shrinks [Machine] (h h' : KmallocHeap) (n : Nat) : Prop where
  mod : (h'.memAllocated + n) % 2 ^ Machine.nbits = h.memAllocated % 2 ^ Machine.nbits
  lt : h.memAllocated < 2 ^ Machine.nbits → h'.memAllocated < 2 ^ Machine.nbits

theorem Shrinks.trans [Machine] {h₁ h₂ h₃ : KmallocHeap} {n k : Nat} (e : Shrinks h₁ h₂ n) (e' : Shrinks h₂ h₃ k) :
    Shrinks h₁ h₃ (n + k) :=
  ⟨by rw [Nat.add_comm n k, ← Nat.add_assoc, ← Nat.mod_add_mod, e'.mod, Nat.mod_add_mod, e.mod], fun h => e'.lt (e.lt h)⟩

theorem outside_eq_self {b : Nat × Nat} {ps : List (Nat × Nat)} (h : ∀ p ∈ ps, ¬Within b p) : outside [b] ps = ps := by
  rw [outside, List.filter_eq_self]
  simpa using h

theorem outside_eq_nil {b : Nat × Nat} {ps : List (Nat × Nat)} (h : ∀ p ∈ ps, Within b p) : outside [b] ps = [] := by
  rw [outside, List.filter_eq_nil_iff]
  simpa using h

theorem outside_flatMap {α : Type} {b : Nat × Nat} {f : α → List (Nat × Nat)} {q : α → Bool} : ∀ {xs : List α},
    (∀ x ∈ xs, q x = true → ∀ p ∈ f x, ¬Within b p) → (∀ x ∈ xs, q x = false → ∀ p ∈ f x, Within b p) →
    outside [b] (xs.flatMap f) = (xs.filter q).flatMap f
  | [], _, _ => rfl
  | x :: xs, h₁, h₂ => by
    have ih := outside_flatMap (fun x hx => h₁ x (List.mem_cons_of_mem _ hx)) (fun x hx => h₂ x (List.mem_cons_of_mem _ hx))
    have ho : outside [b] ((x :: xs).flatMap f) = outside [b] (f x) ++ outside [b] (xs.flatMap f) := by
      rw [List.flatMap_cons, outside, List.filter_append]; rfl
    rw [ho, ih]
    cases hq : q x with
    | true => rw [outside_eq_self (h₁ x List.mem_cons_self hq), List.filter_cons_of_pos hq, List.flatMap_cons]
    | false => rw [outside_eq_nil (h₂ x List.mem_cons_self hq), List.filter_cons_of_neg (by simp [hq]), List.nil_append]

theorem outside_run {sub : Option Nat} {y n i : Nat} {rest : List (Nat × Nat)} (hn : n < 2 ^ i)
    (hd : (runPieces sub y n i ++ rest).Pairwise Disj) : outside (runBlocks y n i) (runPieces sub y n i ++ rest) = rest := by
  rw [outside, List.filter_append, List.filter_eq_nil_iff.2, List.nil_append, List.filter_eq_self]
  · intro p hp
    simp only [decide_eq_true_eq]
    intro b hb hw
    obtain ⟨h₁, h₂, _⟩ := mem_runBlocks hb
    have hpos : 0 < 2 ^ p.1 := by positivity
    rw [Nat.div_eq_of_lt hn, Nat.zero_mul, Nat.add_zero] at h₁
    obtain ⟨q, hq, hq₁, hq₂⟩ := exists_mem_runPieces sub hn (x := p.2) (h₁.trans hw.1) (by have := hw.2; omega)
    rcases (List.pairwise_append.1 hd).2.2 q hq p hp with h | h <;> omega
  · intro p hp
    obtain ⟨b, hb, hw, _⟩ := mem_runPieces hp
    simpa using ⟨b.1, b.2, hb, hw⟩

variable {allowSplit doActualFree : Bool}

theorem Freeable.run {h : KmallocHeap} {ps : List (Nat × Nat)} {sub : Option Nat} {y n k : Nat} (hk : IsBlock K (k, y))
    (hn : n ≤ 2 ^ k) (hps : ∀ p ∈ runPieces sub y n (K + 1), p ∈ ps) (hsub : sub = none ∨ allowSplit = true)
    {b : Nat × Nat} (hb : b ∈ runBlocks y n (K + 1))
    (hun : doActualFree = false → a ≠ none → (h.metadataNodes (blockNode K b.1 b.2)).split = false →
      ∀ i, Below b.1 (blockNode K b.1 b.2) i → i ≠ blockNode K b.1 b.2 → (h.metadataNodes i).full = false) :
    Freeable h K a ps allowSplit doActualFree b := by
  obtain ⟨_, h₂, h₃, _⟩ := mem_runBlocks hb
  have hin := hk.inside
  simp only at hin
  obtain ⟨_, hne, hcan, hfits⟩ := cut_spec sub b.1
  have hmem : ∀ p ∈ pieces b.1 b.2 (cut sub b.1), p ∈ ps := fun p hp => hps p (List.mem_flatMap.2 ⟨b, hb, hp⟩)
  refine ⟨⟨by omega, dvd_of_mem_runBlocks hk.aligned (lt_of_le_of_lt hn (Nat.pow_lt_pow_right (by omega) (by omega))) hb, by omega⟩, ?_, hsub.imp_left (fun hs => ?_), hun⟩
  · obtain ⟨p, hp⟩ := exists_piece b.2 hfits hcan hne
    obtain ⟨h₄, h₅, _⟩ := pieces_bound hp
    exact ⟨p, hmem p hp, h₄, h₅⟩
  · subst hs
    exact hmem b (by obtain ⟨l, o⟩ := b; cases l <;> simp [cut, pieces])

theorem Freeable.beside {h h' : KmallocHeap} {ps : List (Nat × Nat)} {b b' : Nat × Nat}
    (hb' : Freeable h K a ps allowSplit doActualFree b') (hd : Disj b' b)
    (hsame : ∀ i, Below b'.1 (blockNode K b'.1 b'.2) i → h'.metadataNodes i = h.metadataNodes i) :
    Freeable h' K a (outside [b] ps) allowSplit doActualFree b' ∧ countedUnits h' K b' = countedUnits h K b' := by
  have hmem : ∀ p ∈ ps, Within b' p → p ∈ outside [b] ps := fun p hp hw =>
    List.mem_filter.2 ⟨hp, by simpa using hd.not_within_both hw⟩
  have hn := hsame _ (Below.self b'.1 _)
  refine ⟨⟨hb'.block, ?_, ?_, fun h₁ h₂ h₃ i hi hne => ?_⟩, ?_⟩
  · obtain ⟨p, hp, hw⟩ := hb'.inUse
    exact ⟨p, hmem p hp hw, hw⟩
  · exact hb'.whole.imp_left (fun h => hmem b' h ⟨le_refl _, le_refl _⟩)
  · rw [hsame i hi]
    exact hb'.unmarked h₁ h₂ (hn ▸ h₃) i hi hne
  · rw [countedUnits, countedUnits, hn,
      freeLeaves_congr (fun i hi => hsame i (below_iff_inRow.2 ⟨b'.1, le_refl _, hi⟩))]

theorem blockSizeLoop_spec {h : KmallocHeap} {l y : Nat} (hmin : h.minBlockSize = 2 ^ m) :
    ∀ {k o n : Nat} (fuel : Nat) {u : Buddy}, Rep a h.metadataNodes k n u → (l, y) ∈ pieces k o u →
    (∀ i, Below k n i → i < h.metadataSize) → k < fuel →
    blockSizeLoop fuel h (h.vaddr + 2 ^ m * y) n (h.vaddr + 2 ^ m * o) (2 ^ (m + k)) = some (2 ^ (m + l))
  | 0, o, n, fuel + 1, u, hrep, hp, _, _ => by
    have hl := (pieces_bound hp).2.2.1
    simp only at hl
    rw [blockSizeLoop, hmin, if_neg (by simp), Nat.le_zero.1 hl]
  | k + 1, o, n, fuel + 1, u, hrep, hp, hin, hfuel => by
    rw [blockSizeLoop, hmin, if_pos (Nat.pow_lt_pow_right (by omega) (by omega)),
      KmallocHeap.node?_eq (hin n (Below.self _ _))]
    simp only [Option.bind_eq_bind, Option.bind_some, ← Nat.add_assoc, half_two_pow]
    cases u with
    | free => exact absurd hp (by simp [pieces])
    | used =>
      simp only [pieces, List.mem_singleton, Prod.mk.injEq] at hp
      rw [hrep.used_bits.2, hp.1]
      rfl
    | split u₁ u₂ =>
      have hge : h.vaddr + 2 ^ m * y ≥ h.vaddr + 2 ^ m * o + 2 ^ (m + k) ↔ o + 2 ^ k ≤ y := by
        rw [pow_add, ge_iff_le, Nat.add_assoc, ← Nat.mul_add, Nat.add_le_add_iff_left,
          Nat.mul_le_mul_left_iff (by positivity)]
      rw [hrep.split_bit.2 ⟨u₁, u₂, rfl⟩]
      simp only [Bool.not_true, Bool.false_eq_true, ↓reduceIte, hge]
      rcases mem_pieces_split.1 hp with ⟨hp, hlt⟩ | ⟨hp, hle⟩
      · rw [if_neg (by simpa using hlt)]
        exact blockSizeLoop_spec hmin fuel hrep.2.2.1 hp (fun i hi => hin i (Or.inr (Or.inl hi))) (by omega)
      · rw [if_pos hle, Nat.add_assoc, pow_add, ← Nat.mul_add, ← pow_add]
        exact blockSizeLoop_spec hmin fuel hrep.2.2.2 hp (fun i hi => hin i (Or.inr (Or.inr hi))) (by omega)

/-- **`calculate_block_size`** finds the size of a block in use. -/
theorem calculateBlockSize_spec {h : KmallocHeap} {ps : List (Nat × Nat)} {l y : Nat} (ho : Owns h m K a ps)
    (hp : (l, y) ∈ ps) : calculateBlockSize h (h.vaddr + 2 ^ m * y) = some (2 ^ (m + l)) := by
  obtain ⟨u, hrep, _, hperm⟩ := ho.tree
  have := blockSizeLoop_spec (o := 0) ho.shape.minBlockSize (h.heapDataSizeLog2 + 1) hrep (hperm.symm.subset hp)
    (fun i => ho.shape.lt_of_below) (by rw [ho.shape.log2]; omega)
  rw [Nat.mul_zero, Nat.add_zero, ← ho.shape.size] at this
  exact this

variable [Machine]

theorem Owns.kfree {h : KmallocHeap} {ps : List (Nat × Nat)} {b : Nat × Nat} (ho : Owns h m K a ps)
    (hb : Freeable h K a ps allowSplit doActualFree b) :
    ∃ h', internalKfree h (h.vaddr + 2 ^ m * b.2) (2 ^ (m + b.1)) allowSplit doActualFree = some h' ∧
      Owns h' m K a (outside [b] ps) ∧ Frame K h h' ∧ Shrinks h h' (2 ^ m * countedUnits h K b) ∧
      ∀ b', IsBlock K b' → Disj b' b → ∀ i, Below b'.1 (blockNode K b'.1 b'.2) i →
        h'.metadataNodes i = h.metadataNodes i := by
  have hperm : (ps.filter (fun p => decide (Within b p)) ++ outside [b] ps).Perm ps := by
    have := List.filter_append_perm (fun p => decide (Within b p)) ps
    simpa [outside] using this
  have hx : ∀ p ∈ ps.filter (fun p => decide (Within b p)), Within b p := fun p hp => by
    simpa using (List.mem_filter.1 hp).2
  obtain ⟨p, hp, hw⟩ := hb.inUse
  have hmem : ∀ p ∈ ps, Within b p → p ∈ ps.filter (fun p => decide (Within b p)) := fun p hp hw =>
    List.mem_filter.2 ⟨hp, by simpa using hw⟩
  obtain ⟨h', hrun, ho', hfr, hcnt, hnear⟩ := internalKfree_owns (l := b.1) (y := b.2) (ho.perm hperm.symm) hb.block.level
    hb.block.aligned (List.ne_nil_of_mem (hmem p hp hw)) hx (fun p hp => by simpa [outside] using (List.mem_filter.1 hp).2)
    (hb.whole.imp_left (fun hb' => eq_singleton_of_within (ho.disjoint.filter _) (hmem b hb' ⟨le_refl _, le_refl _⟩) hx))
    hb.unmarked
  refine ⟨h', hrun, ho', hfr, ?_, hnear⟩
  have hc : 2 ^ m * countedUnits h K b = 2 ^ (m + b.1) -
      if (h.metadataNodes (blockNode K b.1 b.2)).split then
        freeLeaves h.metadataNodes b.1 (blockNode K b.1 b.2) * 2 ^ m else 0 := by
    rw [countedUnits, pow_add, Nat.mul_sub]
    split
    · rw [Nat.mul_comm (freeLeaves _ _ _)]
    · rw [Nat.mul_zero]
  exact ⟨by rw [hcnt, hc]; exact subWord_add_mod _ _, fun _ => by rw [hcnt]; exact subWord_lt _ _⟩

theorem multiFreeLoop_done : ∀ {i : Nat} {h : KmallocHeap} {ptr tot : Nat},
    multiFreeLoop i h ptr tot tot allowSplit doActualFree = some h
  | 0, _, _, _ => rfl
  | _ + 1, _, _, _ => by rw [multiFreeLoop, if_neg (lt_irrefl _)]

theorem multiFreeLoop_skip : ∀ {i : Nat} {h : KmallocHeap} {ptr size tot : Nat},
    (∀ j < i, size.testBit j = false) → multiFreeLoop i h ptr size tot allowSplit doActualFree = some h
  | 0, _, _, _, _, _ => rfl
  | i + 1, h, ptr, size, tot, hb => by
    rw [multiFreeLoop, hb i (Nat.lt_succ_self i), multiFreeLoop_skip (fun j hj => hb j (by omega))]
    simp

/-- **The multi-step loop** of `per_heap_kfree_unsafe`, from digit `i` of the size on. -/
theorem multiFreeLoop_spec {y n : Nat} : ∀ {i : Nat} {h : KmallocHeap} {ps : List (Nat × Nat)}, Owns h m K a ps →
    (∀ b ∈ runBlocks y n i, Freeable h K a ps allowSplit doActualFree b) →
    ∃ h', multiFreeLoop (m + i) h (h.vaddr + 2 ^ m * y) (2 ^ m * n) (2 ^ m * (n / 2 ^ i * 2 ^ i)) allowSplit
        doActualFree = some h' ∧
      Owns h' m K a (outside (runBlocks y n i) ps) ∧ Frame K h h' ∧
      Shrinks h h' (2 ^ m * ((runBlocks y n i).map (countedUnits h K)).sum) := by
  have hdone : ∀ {i : Nat} {h : KmallocHeap} {ps : List (Nat × Nat)}, n / 2 ^ i * 2 ^ i = n → Owns h m K a ps →
      ∃ h', multiFreeLoop (m + i) h (h.vaddr + 2 ^ m * y) (2 ^ m * n) (2 ^ m * (n / 2 ^ i * 2 ^ i)) allowSplit
          doActualFree = some h' ∧
        Owns h' m K a (outside (runBlocks y n i) ps) ∧ Frame K h h' ∧
        Shrinks h h' (2 ^ m * ((runBlocks y n i).map (countedUnits h K)).sum) := by
    intro i h ps hi ho
    rw [hi, runBlocks_eq_nil hi]
    exact ⟨h, multiFreeLoop_done, by simpa using ho, Frame.refl K h, by simp, id⟩
  intro i
  induction i with
  | zero => exact fun ho _ => hdone (by simp) ho
  | succ i ih =>
    intro h ps ho hfree
    by_cases hi : n / 2 ^ (i + 1) * 2 ^ (i + 1) = n
    · exact hdone hi ho
    have hlt : n / 2 ^ (i + 1) * 2 ^ (i + 1) < n := lt_of_le_of_ne (high_le _ _) hi
    have hlt' : 2 ^ m * (n / 2 ^ (i + 1) * 2 ^ (i + 1)) < 2 ^ m * n := Nat.mul_lt_mul_of_pos_left hlt (by positivity)
    have htest : (2 ^ m * n).testBit (m + i) = n.testBit i := by simp [Nat.testBit_two_pow_mul]
    have hs := high_succ n i
    rw [← Nat.add_assoc, multiFreeLoop, if_pos hlt', htest]
    rw [runBlocks] at hfree ⊢
    cases hbit : n.testBit i with
    | false =>
      simp only [hbit, Bool.false_eq_true, ↓reduceIte, Nat.add_zero] at hs hfree ⊢
      rw [← hs]
      exact ih ho hfree
    | true =>
      simp only [hbit, ↓reduceIte] at hs hfree ⊢
      have hpair := runBlocks_disjoint (o := y) (n := n) (i + 1)
      rw [runBlocks, hbit, if_pos rfl, List.pairwise_cons] at hpair
      set b := (i, y + n / 2 ^ (i + 1) * 2 ^ (i + 1)) with hb
      obtain ⟨h₁, hrun, ho₁, hfr, hsh, hnear⟩ := ho.kfree (hfree b List.mem_cons_self)
      have hbeside : ∀ b' ∈ runBlocks y n i, Freeable h₁ K a (outside [b] ps) allowSplit doActualFree b' ∧
          countedUnits h₁ K b' = countedUnits h K b' := fun b' hb' => by
        have hfb' := hfree b' (List.mem_cons_of_mem _ hb')
        have hd := (hpair.1 b' hb').symm
        exact hfb'.beside hd (hnear b' hfb'.block hd)
      obtain ⟨h', hloop, ho', hfr', hsh'⟩ := ih ho₁ (fun b' hb' => (hbeside b' hb').1)
      refine ⟨h', ?_, by rw [outside_cons]; exact ho', hfr.trans hfr', ?_⟩
      · have e₁ : h.vaddr + 2 ^ m * y + 2 ^ m * (n / 2 ^ (i + 1) * 2 ^ (i + 1)) = h.vaddr + 2 ^ m * b.2 := by
          rw [hb]; ring
        have e₂ : 2 ^ m * (n / 2 ^ (i + 1) * 2 ^ (i + 1)) + 2 ^ (m + i) = 2 ^ m * (n / 2 ^ i * 2 ^ i) := by
          rw [hs, pow_add]; ring
        rw [e₁, hrun, Option.bind_eq_bind, Option.bind_some, e₂, ← hfr.vaddr]
        exact hloop
      · rw [List.map_congr_left (fun b' hb' => (hbeside b' hb').2)] at hsh'
        rw [List.map_cons, List.sum_cons, Nat.mul_add]
        exact hsh.trans hsh'

/-! ## `per_heap_kfree_unsafe` -/

/-- The size of the block that is freed: the one that is passed, rounded up, or the one of the block in use. -/
def SizeFor (m userSize : Nat) (ps : List (Nat × Nat)) (b : Nat × Nat) : Prop :=
  (userSize ≠ 0 ∧ roundupNextPowerOf2 (max userSize (2 ^ m)) = 2 ^ (m + b.1)) ∨ (userSize = 0 ∧ b ∈ ps)

/-- **`per_heap_kfree_unsafe` of one block**. -/
theorem perHeapKfree_one {h : KmallocHeap} {ps : List (Nat × Nat)} {b : Nat × Nat} {userSize flags : Nat}
    (ho : Owns h m K a ps) (hf : hasFlag flags flMultiStep = false)
    (hb : Freeable h K a ps (hasFlag flags flAllowSplit) (!hasFlag flags flNoActual) b) (hs : SizeFor m userSize ps b) :
    ∃ h', perHeapKfreeUnsafe h (h.vaddr + 2 ^ m * b.2) userSize flags = some (h', 2 ^ (m + b.1)) ∧
      Owns h' m K a (outside [b] ps) ∧ Frame K h h' ∧ Shrinks h h' (2 ^ m * countedUnits h K b) := by
  obtain ⟨h', hrun, ho', hfr, hsh, _⟩ := ho.kfree hb
  refine ⟨h', ?_, ho', hfr, hsh⟩
  simp only [perHeapKfreeUnsafe, hf, Bool.not_false, ↓reduceIte, ho.shape.minBlockSize]
  rcases hs with ⟨h₀, hr⟩ | ⟨h₀, hmem⟩
  · rw [if_pos h₀, hr]
    simp only [Option.bind_eq_bind, Option.bind_some, hrun]
    rfl
  · rw [if_neg (by simpa using h₀), calculateBlockSize_spec ho hmem]
    simp only [Option.bind_eq_bind, Option.bind_some, hrun]
    rfl

/-- **`per_heap_kfree_unsafe` of a run**. The whole heap is not freed this way: its size has no digit that the loop looks
at. -/
theorem perHeapKfree_multi {h : KmallocHeap} {ps : List (Nat × Nat)} {y n flags : Nat}
    (ho : Owns h m K a ps) (hf : hasFlag flags flMultiStep = true) (hn : n < 2 ^ K)
    (hb : ∀ b ∈ runBlocks y n K, Freeable h K a ps (hasFlag flags flAllowSplit) (!hasFlag flags flNoActual) b) :
    ∃ h', perHeapKfreeUnsafe h (h.vaddr + 2 ^ m * y) (2 ^ m * n) flags = some (h', 2 ^ m * n) ∧
      Owns h' m K a (outside (runBlocks y n K) ps) ∧ Frame K h h' ∧
      Shrinks h h' (2 ^ m * ((runBlocks y n K).map (countedUnits h K)).sum) := by
  obtain ⟨h', hrun, hrest⟩ := multiFreeLoop_spec ho hb
  refine ⟨h', ?_, hrest⟩
  rw [Nat.div_eq_of_lt hn, Nat.zero_mul, Nat.mul_zero] at hrun
  simp only [perHeapKfreeUnsafe, hf, Bool.not_true, Bool.false_eq_true, ↓reduceIte, ho.shape.log2, hrun,
    Option.bind_eq_bind, Option.bind_some]
  rfl

/-- A run in use can be freed at once: with splitting if it is cut into sub-blocks, with its size in a multi-step free
and with a size that is rounded up to it otherwise. -/
structure RunFree (h : KmallocHeap) (m K : Nat) (a sub : Option Nat) (y n k userSize flags : Nat) : Prop where
  block : IsBlock K (k, y)
  le : n ≤ 2 ^ k
  split : sub = none ∨ hasFlag flags flAllowSplit = true
  multi : hasFlag flags flMultiStep = true → userSize = 2 ^ m * n ∧ n < 2 ^ K
  one : hasFlag flags flMultiStep = false → n = 2 ^ k ∧
    if userSize = 0 then sub = none else roundupNextPowerOf2 (max userSize (2 ^ m)) = 2 ^ (m + k)
  unmarked : ∀ b ∈ runBlocks y n (K + 1), hasFlag flags flNoActual = true → a ≠ none →
    (h.metadataNodes (blockNode K b.1 b.2)).split = false →
    ∀ i, Below b.1 (blockNode K b.1 b.2) i → i ≠ blockNode K b.1 b.2 → (h.metadataNodes i).full = false

/-- **`per_heap_kfree_unsafe` of a run in use** leaves the rest in use. -/
theorem perHeapKfree_run {h : KmallocHeap} {rest : List (Nat × Nat)} {sub : Option Nat} {y n k userSize flags : Nat}
    (ho : Owns h m K a (runPieces sub y n (K + 1) ++ rest)) (hr : RunFree h m K a sub y n k userSize flags) :
    ∃ h' sz, perHeapKfreeUnsafe h (h.vaddr + 2 ^ m * y) userSize flags = some (h', sz) ∧ Owns h' m K a rest ∧
      Frame K h h' ∧ Shrinks h h' (2 ^ m * ((runBlocks y n (K + 1)).map (countedUnits h K)).sum) := by
  have hK : k ≤ K := hr.block.level
  have hin : y + 2 ^ k ≤ 2 ^ K := hr.block.inside
  have hlt : n < 2 ^ (K + 1) := by
    have := hr.le
    have : 0 < 2 ^ K := by positivity
    rw [pow_succ]
    omega
  have hout := outside_run hlt ho.disjoint
  have hfree : ∀ b ∈ runBlocks y n (K + 1), Freeable h K a (runPieces sub y n (K + 1) ++ rest)
      (hasFlag flags flAllowSplit) (!hasFlag flags flNoActual) b := fun b hb =>
    Freeable.run hr.block hr.le (fun p hp => List.mem_append_left rest hp) hr.split hb
      (fun h₁ => hr.unmarked b hb (by simpa using h₁))
  by_cases hmulti : hasFlag flags flMultiStep = true
  · obtain ⟨hsize, hn⟩ := hr.multi hmulti
    rw [runBlocks_add hn 1] at hfree hout ⊢
    obtain ⟨h', hrun, ho', hfr, hsh⟩ := perHeapKfree_multi ho hmulti hn hfree
    rw [hout] at ho'
    exact ⟨h', _, by rw [hsize]; exact hrun, ho', hfr, hsh⟩
  · have hmulti : hasFlag flags flMultiStep = false := Bool.eq_false_iff.2 hmulti
    obtain ⟨rfl, hsize⟩ := hr.one hmulti
    rw [runBlocks_two_pow (show k < K + 1 by omega)] at hfree hout ⊢
    have hfor : SizeFor m userSize (runPieces sub y (2 ^ k) (K + 1) ++ rest) (k, y) := by
      by_cases h₀ : userSize = 0
      · rw [if_pos h₀] at hsize
        refine Or.inr ⟨h₀, List.mem_append_left _ ?_⟩
        rw [hsize, runPieces_two_pow none (show k < K + 1 by omega)]
        cases k <;> simp [cut, pieces]
      · rw [if_neg h₀] at hsize
        exact Or.inl ⟨h₀, hsize⟩
    obtain ⟨h', hrun, ho', hfr, hsh⟩ := perHeapKfree_one ho hmulti (hfree _ List.mem_cons_self) hfor
    rw [hout] at ho'
    exact ⟨h', _, hrun, ho', hfr, by simpa using hsh⟩

/-! ## Heaps of minimum blocks -/

end Usax.Kmalloc
