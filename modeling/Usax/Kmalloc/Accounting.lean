import Usax.Kmalloc.HeapRuns

/-!
# The counter of a heap

`mem_allocated` against the blocks in use, which are the topmost nodes that are full and not split (`inUse`). Four things
make them differ (`memAllocated_differs`): `KMALLOC_FL_NO_ACTUAL_ALLOC`, a failure of `valloc_and_map`, a block that is
not unmapped although its allocation blocks are marked, and coalescing a block whose sub-blocks are larger than the
minimum, since the free blocks are counted in the row of the minimum blocks only. In a run without them (`Exact`) the
counter is the size of the blocks in use (`ExactRun.memAllocated_eq`).
-/

namespace Usax.Kmalloc

open Usax.Lib Usax.Lib.Buddy Common

/-! ## The blocks in use -/

/-- The topmost full and not split nodes from node `n` on, with their levels and offsets. -/
def inUseBlocks (f : Nat → BlockNode) : (k n o : Nat) → List (Nat × Nat)
  | 0, n, o => if (f n).full && !(f n).split then [(0, o)] else []
  | k + 1, n, o =>
    if (f n).full && !(f n).split then [(k + 1, o)]
    else inUseBlocks f k (2 * n + 1) o ++ inUseBlocks f k (2 * n + 2) (o + 2 ^ k)

namespace KmallocHeap

def depth (h : KmallocHeap) : Nat := h.heapDataSizeLog2 - Nat.log2 h.minBlockSize

def inUse (h : KmallocHeap) : List (Nat × Nat) := inUseBlocks h.metadataNodes h.depth 0 0

def bytesInUse (h : KmallocHeap) : Nat := h.minBlockSize * total h.inUse

end KmallocHeap

variable {a : Option Nat} {m K : Nat}

theorem inUseBlocks_clean {f : Nat → BlockNode} : ∀ {k n : Nat} (o : Nat), Clean f k n → inUseBlocks f k n o = []
  | 0, n, o, h => by rw [inUseBlocks, h.root.1]; rfl
  | k + 1, n, o, h => by
    rw [inUseBlocks, h.root.1, inUseBlocks_clean o h.left, inUseBlocks_clean _ h.right]
    rfl

theorem Rep.inUseBlocks {f : Nat → BlockNode} : ∀ {k n : Nat} {u : Buddy} (o : Nat), Rep a f k n u →
    inUseBlocks f k n o = pieces k o u
  | k, n, .free, o, h => by
    rw [inUseBlocks_clean o (Rep.free_iff.1 h)]
    cases k <;> rfl
  | 0, n, .used, o, h | k + 1, n, .used, o, h => by
    simp [Kmalloc.inUseBlocks, h.used_bits, pieces]
  | k + 1, n, .split l r, o, h => by
    rw [Kmalloc.inUseBlocks, h.1, h.2.2.1.inUseBlocks, h.2.2.2.inUseBlocks]
    simp [pieces]

theorem Owns.depth {h : KmallocHeap} {ps : List (Nat × Nat)} (ho : Owns h m K a ps) : h.depth = K := by
  rw [KmallocHeap.depth, ho.shape.log2, ho.shape.minBlockSize, Nat.log2_two_pow]
  omega

theorem Owns.inUse {h : KmallocHeap} {ps : List (Nat × Nat)} (ho : Owns h m K a ps) : h.inUse.Perm ps := by
  obtain ⟨u, hrep, _, hperm⟩ := ho.tree
  rw [KmallocHeap.inUse, ho.depth, hrep.inUseBlocks]
  exact hperm

theorem Owns.bytesInUse {h : KmallocHeap} {ps : List (Nat × Nat)} (ho : Owns h m K a ps) :
    h.bytesInUse = 2 ^ m * total ps := by
  rw [KmallocHeap.bytesInUse, ho.shape.minBlockSize, total_perm ho.inUse]

/-! ## What a free counts -/

def inside (b : Nat × Nat) (ps : List (Nat × Nat)) : List (Nat × Nat) := ps.filter (fun p => decide (Within b p))

theorem inside_append_outside (b : Nat × Nat) (ps : List (Nat × Nat)) : (inside b ps ++ outside [b] ps).Perm ps := by
  have := List.filter_append_perm (fun p => decide (Within b p)) ps
  simpa [inside, outside] using this

theorem total_outside : ∀ {bs ps : List (Nat × Nat)}, bs.Pairwise Disj →
    total (outside bs ps) + (bs.map (fun b => total (inside b ps))).sum = total ps
  | [], ps, _ => by simp
  | b :: bs, ps, hd => by
    obtain ⟨hb, hd⟩ := List.pairwise_cons.1 hd
    have ih : total (outside bs (outside [b] ps)) + _ = _ := total_outside hd
    have hin : ∀ b' ∈ bs, inside b' (outside [b] ps) = inside b' ps := fun b' hb' => by
      unfold inside outside
      rw [List.filter_filter]
      refine List.filter_congr (fun p _ => ?_)
      by_cases hw : Within b' p
      · simpa [hw] using (hb b' hb').symm.not_within_both hw
      · simp [hw]
    rw [List.map_congr_left (fun b' hb' => by rw [hin b' hb'])] at ih
    have hsum := total_perm (inside_append_outside b ps)
    rw [total_append] at hsum
    rw [outside_cons, List.map_cons, List.sum_cons]
    omega

theorem Rep.freeLeaves {f : Nat → BlockNode} : ∀ {k n : Nat} {u : Buddy} (o : Nat), Rep a f k n u →
    (∀ p ∈ pieces k o u, p.1 = 0) → freeLeaves f k n + total (pieces k o u) = 2 ^ k
  | 0, n, .free, o, h, _ => by
    simp [Kmalloc.freeLeaves, (Rep.free_iff.1 h) n (Below.self 0 n), pieces, total]
  | k + 1, n, .free, o, h, _ => by
    have h' := Rep.free_iff.1 h
    have h₁ := Rep.freeLeaves o (Rep.free_iff (a := a).2 h'.left) (by cases k <;> simp [pieces])
    have h₂ := Rep.freeLeaves o (Rep.free_iff (a := a).2 h'.right) (by cases k <;> simp [pieces])
    have hnil : pieces k o Buddy.free = [] := by cases k <;> rfl
    rw [hnil] at h₁ h₂
    simp only [Kmalloc.freeLeaves, pieces, total, List.map_nil, List.sum_nil, pow_succ] at *
    omega
  | 0, n, .used, o, h, _ => by
    simp [Kmalloc.freeLeaves, isBlockNodeFree, h.used_bits, pieces, total]
  | k + 1, n, .used, o, _, hp => by
    have := hp (k + 1, o) (by simp [pieces])
    simp at this
  | k + 1, n, .split l r, o, h, hp => by
    have h₁ := h.2.2.1.freeLeaves o (fun p hm => hp p (List.mem_append_left _ hm))
    have h₂ := h.2.2.2.freeLeaves (o + 2 ^ k) (fun p hm => hp p (List.mem_append_right _ hm))
    rw [Kmalloc.freeLeaves, pieces, total_append, pow_succ]
    omega

/-- What `internal_kfree` counts for a block is what is in use inside of it, if the block is in use as a whole or only
minimum blocks are in use inside. -/
theorem Owns.countedUnits {h : KmallocHeap} {ps : List (Nat × Nat)} {b : Nat × Nat} (ho : Owns h m K a ps)
    (hb : IsBlock K b) (hin : ∃ p ∈ ps, Within b p) (hmin : b ∈ ps ∨ ∀ p ∈ ps, Within b p → p.1 = 0) :
    countedUnits h K b = total (inside b ps) := by
  obtain ⟨l, y⟩ := b
  have hwithin : ∀ p ∈ inside (l, y) ps, Within (l, y) p := fun p hp => by simpa using (List.mem_filter.1 hp).2
  by_cases hmem : (l, y) ∈ ps
  · have hself : (l, y) ∈ inside (l, y) ps := List.mem_filter.2 ⟨hmem, by simp [Within]⟩
    have hd : (inside (l, y) ps).Pairwise Disj := ho.disjoint.filter _
    rw [Kmalloc.countedUnits, (ho.node_bits hmem).2, eq_singleton_of_within hd hself hwithin]
    simp [total]
  · have hmin := hmin.resolve_left hmem
    obtain ⟨u, hrep, hcan, hperm⟩ := ho.tree
    obtain ⟨p, hp, hw⟩ := hin
    obtain ⟨c, v, rfl, rfl, rfl⟩ := exists_ctx_of_within (hperm.symm.subset hp) (by
      have := hw.1
      have := hw.2
      simp only at *
      exact (Nat.pow_le_pow_iff_right (by omega : 1 < 2)).1 (by omega)) (show l ≤ K from hb.level)
      (show 2 ^ l ∣ y from hb.aligned) hw
    obtain ⟨_, hv⟩ := hrep.descend
    have hpv := (perm_of_within (hperm.trans (inside_append_outside _ ps).symm) hwithin
      (fun p hp => by simpa [outside] using (List.mem_filter.1 hp).2)).1
    have hzero : ∀ p ∈ pieces l (Ctx.off l c) v, p.1 = 0 := fun p hp =>
      hmin p (List.mem_filter.1 (hpv.subset hp)).1 (hwithin p (hpv.subset hp))
    have hsum := hv.freeLeaves _ hzero
    have hsplit : (h.metadataNodes (node 0 c)).split = true := by
      refine hv.split_bit.2 ?_
      cases v with
      | free => exact absurd (hpv.symm.subset (List.mem_filter.2 ⟨hp, by simpa using hw⟩)) (by cases l <;> simp [pieces])
      | used => exact absurd (hpv.subset (by cases l <;> simp [pieces])) (fun h => hmem (List.mem_filter.1 h).1)
      | split v₁ v₂ => exact ⟨v₁, v₂, rfl⟩
    rw [Kmalloc.countedUnits, ← node_eq_blockNode rfl, hsplit, if_pos rfl, ← total_perm hpv]
    simp only
    omega

theorem Owns.total_le {h : KmallocHeap} {ps : List (Nat × Nat)} (ho : Owns h m K a ps) : total ps ≤ 2 ^ K := by
  obtain ⟨u, _, _, hperm⟩ := ho.tree
  rw [← total_perm hperm]
  exact total_pieces_le K 0 u

/-- The counter is the size of the blocks in use. -/
structure Counted (h : KmallocHeap) (m K : Nat) (a : Option Nat) (ps : List (Nat × Nat)) : Prop where
  owns : Owns h m K a ps
  counter : h.memAllocated = 2 ^ m * total ps

theorem Counted.perm {h : KmallocHeap} {ps qs : List (Nat × Nat)} (hc : Counted h m K a ps) (hp : ps.Perm qs) :
    Counted h m K a qs :=
  ⟨hc.owns.perm hp, by rw [← total_perm hp]; exact hc.counter⟩

/-- A block that is freed: in use as a whole, or, with splitting, in parts that are minimum blocks. On a heap that is not
linear-mapped it is unmapped, unless nothing in it is marked as mapped. -/
structure BlockExact (h : KmallocHeap) (flags : Nat) (b : Nat × Nat) : Prop where
  block : IsBlock h.depth b
  inUse : ∃ p ∈ h.inUse, Within b p
  whole : b ∈ h.inUse ∨ hasFlag flags flAllowSplit = true
  minimum : b ∈ h.inUse ∨ ∀ p ∈ h.inUse, Within b p → p.1 = 0
  unmarked : hasFlag flags flNoActual = true → h.linearMapping = false →
    (h.metadataNodes (blockNode h.depth b.1 b.2)).split = false →
    ∀ i, Below b.1 (blockNode h.depth b.1 b.2) i → i ≠ blockNode h.depth b.1 b.2 → (h.metadataNodes i).full = false

theorem Counted.freeable {h : KmallocHeap} {flags : Nat} {b : Nat × Nat} (hc : Counted h m K a h.inUse)
    (hb : BlockExact h flags b) : Freeable h K a h.inUse (hasFlag flags flAllowSplit) (!hasFlag flags flNoActual) b ∧
      countedUnits h K b = total (inside b h.inUse) := by
  have hblock := hb.block
  have hun := hb.unmarked
  rw [hc.owns.depth] at hblock hun
  refine ⟨⟨hblock, hb.inUse, hb.whole, fun h₁ h₂ => hun (by simpa using h₁) ?_⟩,
    hc.owns.countedUnits hblock hb.inUse hb.minimum⟩
  cases a with
  | none => exact absurd rfl h₂
  | some A => exact (hc.owns.shape.paged A rfl).1

theorem Placed.total {vaddr : Nat} {b : LiveBlock} (hb : Placed vaddr m K b) :
    2 ^ m * total (b.pieces vaddr m K) = b.size := by
  rw [LiveBlock.pieces, total_runPieces, total_runBlocks, Nat.div_eq_of_lt hb.units_lt, Nat.zero_mul, Nat.sub_zero]
  exact hb.size.symm

theorem HeapState.total_blocks {vaddr : Nat} : ∀ {bs : List LiveBlock}, (∀ b ∈ bs, Placed vaddr m K b) →
    2 ^ m * total (bs.flatMap (LiveBlock.pieces vaddr m K)) = (bs.map LiveBlock.size).sum
  | [], _ => rfl
  | b :: bs, h => by
    rw [List.flatMap_cons, total_append, Nat.mul_add, (h b List.mem_cons_self).total,
      total_blocks (fun c hc => h c (List.mem_cons_of_mem _ hc)), List.map_cons, List.sum_cons]

/-! ## The system -/

inductive HeapCall where
  | kmalloc (size flags : Nat)
  | kfree (ptr userSize flags : Nat)

section System

variable [Machine]

namespace KmallocHeap

def call (h : KmallocHeap) : HeapCall → Option KmallocHeap
  | .kmalloc size flags => (perHeapKmallocUnsafe h size flags).map Prod.fst
  | .kfree ptr userSize flags => (perHeapKfreeUnsafe h ptr userSize flags).map Prod.fst

def calls (h : KmallocHeap) : List HeapCall → Option KmallocHeap
  | [] => some h
  | c :: cs => (h.call c).bind (fun h => h.calls cs)

end KmallocHeap

/-- A legal allocation that maps its memory, by a callback that does not fail. -/
structure KmallocExact (h : KmallocHeap) (size flags : Nat) : Prop extends KmallocLegal h size flags where
  actual : hasFlag flags flNoActual = false
  valloc : h.linearMapping = true ∨ ∀ n, h.vallocAndMap n = true

/-- A free of one block, or of the blocks for the digits of a size. -/
structure KfreeExact (h : KmallocHeap) (ptr userSize flags : Nat) : Prop where
  multi : hasFlag flags flMultiStep = true → ∃ y n, ptr = h.vaddr + h.minBlockSize * y ∧
    userSize = h.minBlockSize * n ∧ n ≤ 2 ^ h.depth ∧ ∀ b ∈ runBlocks y n h.depth, BlockExact h flags b
  one : hasFlag flags flMultiStep = false → ∃ l y, ptr = h.vaddr + h.minBlockSize * y ∧ BlockExact h flags (l, y) ∧
    if userSize = 0 then (l, y) ∈ h.inUse
    else roundupNextPowerOf2 (max userSize h.minBlockSize) = h.minBlockSize * 2 ^ l

/-- The calls that count what they do. -/
def Exact (h : KmallocHeap) : HeapCall → Prop
  | .kmalloc size flags => KmallocExact h size flags
  | .kfree ptr userSize flags => KfreeExact h ptr userSize flags

/-- The heaps that are reached from one that was just created, linear-mapped or with allocation blocks of some level, by
such calls. -/
inductive ExactRun : KmallocHeap → Prop
  | create (a : Option Nat) {m K vaddr : Nat} (nodeBefore : BlockNode) (valloc : Nat → Bool) (small : m + K < 31)
      (aligned : ∀ A, a = some A → A ≤ K ∧ 2 ^ (m + A) ∣ vaddr) :
      ExactRun (kmallocCreateHeap vaddr (2 ^ (m + K)) (2 ^ m) (a.elim 0 (fun A => 2 ^ (m + A))) a.isNone nodeBefore valloc)
  | call {h h' : KmallocHeap} (c : HeapCall) : ExactRun h → Exact h c → h.call c = some h' → ExactRun h'

/-! ## Exact runs -/

theorem Counted.lt {h : KmallocHeap} {ps : List (Nat × Nat)} (hc : Counted h m K a ps) :
    2 ^ m * total ps ≤ 2 ^ (m + K) ∧ 2 ^ (m + K) < 2 ^ Machine.nbits := by
  constructor
  · rw [pow_add]
    exact Nat.mul_le_mul_left _ hc.owns.total_le
  · have h32 := two_pow_32_le
    have : 2 ^ (m + K) < 2 ^ 32 := Nat.pow_lt_pow_right (by omega) (by have := hc.owns.shape.small; omega)
    omega

theorem Counted.grow {h h' : KmallocHeap} {ps qs : List (Nat × Nat)} (hc : Counted h m K a ps)
    (ho : Owns h' m K a (qs ++ ps)) (hg : Grows h h' (2 ^ m * total qs)) : Counted h' m K a (qs ++ ps) := by
  refine ⟨ho, ?_⟩
  obtain ⟨h₁, h₂⟩ := hc.lt
  have h₃ : 2 ^ m * total (qs ++ ps) ≤ 2 ^ (m + K) := by
    rw [pow_add]
    exact Nat.mul_le_mul_left _ ho.total_le
  have hmod := hg.mod
  have hlt := hg.lt (by rw [hc.counter]; omega)
  rw [total_append, Nat.mul_add] at h₃ ⊢
  rw [hc.counter, Nat.mod_eq_of_lt hlt, Nat.mod_eq_of_lt (by omega)] at hmod
  omega

theorem Counted.shrink {h h' : KmallocHeap} {ps qs : List (Nat × Nat)} {n : Nat} (hc : Counted h m K a ps)
    (ho : Owns h' m K a qs) (hn : total qs + n = total ps) (hs : Shrinks h h' (2 ^ m * n)) : Counted h' m K a qs := by
  refine ⟨ho, ?_⟩
  obtain ⟨h₁, h₂⟩ := hc.lt
  have hmod := hs.mod
  have hlt := hs.lt (by rw [hc.counter]; omega)
  rw [hc.counter, ← hn, Nat.mul_add] at hmod
  rw [← hn, Nat.mul_add] at h₁
  have h₃ := Nat.ModEq.add_right_cancel' _ hmod
  rwa [Nat.ModEq, Nat.mod_eq_of_lt hlt, Nat.mod_eq_of_lt (by omega)] at h₃

theorem Counted.kmalloc {h : KmallocHeap} {ps : List (Nat × Nat)} {size flags : Nat} (hc : Counted h m K a ps)
    (he : KmallocExact h size flags) : ∃ h' ps', h.call (.kmalloc size flags) = some h' ∧ Counted h' m K a ps' := by
  obtain ⟨sub, hargs⟩ := he.toKmallocLegal.args hc.owns.shape.minBlockSize
  have hv : VallocOk h (!hasFlag flags flNoActual) := he.valloc.imp_right Or.inr
  rcases perHeapKmalloc_owns hc.owns hargs hv with
    ⟨_, hrun⟩ | ⟨k, _, _, ⟨_, sz, _, _, hrun⟩ | ⟨h', y, n, hrun, _, _, _, hal⟩⟩
  · exact ⟨h, ps, by rw [KmallocHeap.call, hrun]; rfl, hc⟩
  · exact ⟨h, ps, by rw [KmallocHeap.call, hrun]; rfl, hc⟩
  · refine ⟨h', _, by rw [KmallocHeap.call, hrun]; rfl, hc.grow hal.owns ?_⟩
    have hg := hal.grows
    have hn : n < 2 ^ (K + 1) := by
      have h₁ := hal.le
      have h₂ : y + 2 ^ k ≤ 2 ^ K := hal.block.inside
      have hpos : 0 < 2 ^ K := by positivity
      rw [pow_succ]
      omega
    rw [he.actual, Bool.not_false, if_pos rfl] at hg
    rw [total_runPieces, total_runBlocks, Nat.div_eq_of_lt hn, Nat.zero_mul, Nat.sub_zero]
    exact hg

theorem Counted.kfree {h : KmallocHeap} {ptr userSize flags : Nat} (hc : Counted h m K a h.inUse)
    (he : KfreeExact h ptr userSize flags) :
    ∃ h' ps', h.call (.kfree ptr userSize flags) = some h' ∧ Counted h' m K a ps' := by
  have hmin := hc.owns.shape.minBlockSize
  have hK := hc.owns.depth
  by_cases hf : hasFlag flags flMultiStep = true
  · obtain ⟨y, n, rfl, rfl, hn, hb⟩ := he.multi hf
    rw [hK] at hn hb
    rw [hmin]
    rcases Nat.lt_or_eq_of_le hn with hn | rfl
    · obtain ⟨h', hrun, ho, _, hsh⟩ := perHeapKfree_multi hc.owns hf hn (fun b hb' => (hc.freeable (hb b hb')).1)
      rw [List.map_congr_left (fun b hb' => (hc.freeable (hb b hb')).2)] at hsh
      exact ⟨h', _, by rw [KmallocHeap.call, hrun]; rfl,
        hc.shrink ho (total_outside (runBlocks_disjoint (o := y) (n := n) K)) hsh⟩
    · -- the loop starts below the only digit of the size
      have hskip : ∀ j < m + K, (2 ^ m * 2 ^ K).testBit j = false := fun j hj => by
        rw [← pow_add, Nat.testBit_two_pow]
        exact decide_eq_false (by omega)
      refine ⟨h, _, ?_, hc⟩
      simp only [KmallocHeap.call, perHeapKfreeUnsafe, hf, Bool.not_true, Bool.false_eq_true, ↓reduceIte,
        hc.owns.shape.log2, multiFreeLoop_skip hskip]
      rfl
  · have hf : hasFlag flags flMultiStep = false := Bool.eq_false_iff.2 hf
    obtain ⟨l, y, rfl, hb, hsize⟩ := he.one hf
    obtain ⟨hfree, hcount⟩ := hc.freeable hb
    have hs : SizeFor m userSize h.inUse (l, y) := by
      rw [hmin, ← pow_add] at hsize
      by_cases h₀ : userSize = 0
      · rw [if_pos h₀] at hsize
        exact Or.inr ⟨h₀, hsize⟩
      · rw [if_neg h₀] at hsize
        exact Or.inl ⟨h₀, hsize⟩
    obtain ⟨h', hrun, ho, _, hsh⟩ := perHeapKfree_one hc.owns hf hfree hs
    rw [hcount] at hsh
    have hsum := total_perm (inside_append_outside (l, y) h.inUse)
    rw [total_append, Nat.add_comm] at hsum
    rw [hmin]
    exact ⟨h', _, by rw [KmallocHeap.call, hrun]; rfl, hc.shrink ho hsum hsh⟩

/-- **One call**: it does not fail, and the counter is again the size of the blocks in use. -/
theorem Counted.step {h : KmallocHeap} (hc : Counted h m K a h.inUse) {c : HeapCall} (he : Exact h c) :
    ∃ h', h.call c = some h' ∧ Counted h' m K a h'.inUse := by
  have hback : ∀ {h' : KmallocHeap} {ps' : List (Nat × Nat)}, Counted h' m K a ps' → Counted h' m K a h'.inUse :=
    fun hc' => hc'.perm hc'.owns.inUse.symm
  cases c with
  | kmalloc size flags =>
    obtain ⟨h', ps', hrun, hc'⟩ := hc.kmalloc he
    exact ⟨h', hrun, hback hc'⟩
  | kfree ptr userSize flags =>
    obtain ⟨h', ps', hrun, hc'⟩ := hc.kfree he
    exact ⟨h', hrun, hback hc'⟩

theorem ExactRun.counted {h : KmallocHeap} (hr : ExactRun h) : ∃ m K a, Counted h m K a h.inUse := by
  induction hr with
  | create a nodeBefore valloc small aligned =>
    have ho := owns_create a _ nodeBefore valloc small aligned
    exact ⟨_, _, a, ho.perm ho.inUse.symm, by rw [total_perm ho.inUse]; rfl⟩
  | call c _ he hrun ih =>
    obtain ⟨m, K, a, hc⟩ := ih
    obtain ⟨h', hrun', hc'⟩ := hc.step he
    rw [hrun] at hrun'
    cases hrun'
    exact ⟨m, K, a, hc'⟩

/-- **The counter of an exact run** is the size of the blocks in use, which is at most the size of the heap, and no exact
call fails. -/
theorem ExactRun.memAllocated_eq {h : KmallocHeap} (hr : ExactRun h) :
    h.memAllocated = h.bytesInUse ∧ h.bytesInUse ≤ h.size ∧ ∀ c, Exact h c → ∃ h', h.call c = some h' := by
  obtain ⟨m, K, a, hc⟩ := hr.counted
  refine ⟨?_, ?_, fun c he => ?_⟩
  · rw [hc.owns.bytesInUse]
    exact hc.counter
  · rw [hc.owns.bytesInUse, hc.owns.shape.size]
    exact hc.lt.1
  · obtain ⟨h', hrun, _⟩ := hc.step he
    exact ⟨h', hrun⟩

/-! ## The counter and the blocks that are held -/

/-- The size of the metadata and of the blocks that are held. -/
def HeapState.bytes (s : HeapState) : Nat := ((s.metadata :: s.live).map LiveBlock.size).sum

/-- The counter is the size of the blocks that are held. -/
structure HeapState.CountedInv (m K : Nat) (s : HeapState) : Prop extends HeapState.Inv m K s where
  bytes : s.heap.memAllocated = s.bytes

namespace HeapState

variable {s : HeapState}

theorem CountedInv.counted (hi : s.CountedInv m K) :
    Counted s.heap m K none ((s.metadata :: s.live).flatMap (LiveBlock.pieces s.heap.vaddr m K)) :=
  ⟨hi.owns, by rw [total_blocks hi.placed]; exact hi.bytes⟩

theorem CountedInv.bytes_le (hi : s.CountedInv m K) : s.bytes ≤ 2 ^ (m + K) ∧ 2 ^ (m + K) < 2 ^ Machine.nbits := by
  have h := hi.counted.lt
  rw [total_blocks hi.placed] at h
  exact h

theorem CountedInv.of_inv {s' : HeapState} (hi : s.CountedInv m K) (hi' : s'.Inv m K)
    (h : (s'.heap.memAllocated + s.bytes) % 2 ^ Machine.nbits = (s.heap.memAllocated + s'.bytes) % 2 ^ Machine.nbits) :
    s'.CountedInv m K := by
  refine ⟨hi', ?_⟩
  have hle : s'.bytes ≤ 2 ^ (m + K) := by
    have := hi'.owns.total_le
    rw [HeapState.bytes, ← total_blocks hi'.placed, pow_add]
    exact Nat.mul_le_mul_left _ this
  have hlt := hi.bytes_le.2
  rw [hi.bytes, Nat.add_comm s.bytes] at h
  have h' := Nat.ModEq.add_right_cancel' _ h
  rwa [Nat.ModEq, Nat.mod_eq_of_lt hi'.counter, Nat.mod_eq_of_lt (by omega)] at h'

/-- **Allocations that map what they return.** -/
theorem CountedInv.kmalloc (hi : s.CountedInv m K) {size flags : Nat} (hl : KmallocLegal s.heap size flags)
    (ha : hasFlag flags flNoActual = false) :
    (∃ sz, perHeapKmallocUnsafe s.heap size flags = some (s.heap, sz, none) ∧
      (sz = size ∨ sz = max (roundupNextPowerOf2 size) (2 ^ m)) ∧
      ∀ k, max (roundupNextPowerOf2 size) (2 ^ m) = 2 ^ (m + k) → size ≤ 2 ^ (m + K) →
        NoFit K ((s.metadata :: s.live).flatMap (LiveBlock.pieces s.heap.vaddr m K)) k) ∨
    ∃ h sz ptr, perHeapKmallocUnsafe s.heap size flags = some (h, sz, some ptr) ∧ Frame K s.heap h ∧
      CountedInv m K { s with heap := h, live := ⟨ptr, sz, size, flags⟩ :: s.live } := by
  rcases hi.toInv.kmalloc hl with hnull | ⟨h, sz, ptr, hrun, hfr, hi', hg⟩
  · exact Or.inl hnull
  · refine Or.inr ⟨h, sz, ptr, hrun, hfr, hi.of_inv hi' ?_⟩
    have hmod := hg.mod
    rw [ha, Bool.not_false, if_pos rfl] at hmod
    have hb : HeapState.bytes { s with heap := h, live := ⟨ptr, sz, size, flags⟩ :: s.live } = sz + s.bytes := by
      simp only [HeapState.bytes, List.map_cons, List.sum_cons]
      omega
    rw [hb, ← Nat.add_assoc, Nat.add_mod, hmod, ← Nat.add_mod]

theorem Inv.kfree_size (hi : s.Inv m K) {b : LiveBlock} {userSize flags : Nat} (hb : b ∈ s.live)
    (hl : KfreeMatches s.heap b userSize flags) (hs : b.subBlockSize = 0 ∨ b.subBlockSize = s.heap.minBlockSize) :
    ∃ h sz, perHeapKfreeUnsafe s.heap b.ptr userSize flags = some (h, sz) ∧ Frame K s.heap h ∧
      Inv m K { s with heap := h, live := s.live.erase b } ∧ Shrinks s.heap h b.size := by
  obtain ⟨h, sz, hrun, hfr, hi', hsh⟩ := hi.kfree hb hl
  refine ⟨h, sz, hrun, hfr, hi', ?_⟩
  have hpb := hi.placed b (List.mem_cons_of_mem _ hb)
  obtain ⟨k, hk, hn, _⟩ := hpb.block
  have ho := hi.owns.perm (pieces_erase s.heap.vaddr m K hb)
  have hd := ho.disjoint
  have hout := outside_run hpb.units_lt hd
  set bs := runBlocks (b.start s.heap.vaddr m) (b.units m) (K + 1) with hbs
  set ps := b.pieces s.heap.vaddr m K ++ (s.metadata :: s.live.erase b).flatMap (LiveBlock.pieces s.heap.vaddr m K) with hps
  -- each block of the run counts what is in use inside of it
  have hcount : ∀ c ∈ bs, countedUnits s.heap K c = total (Kmalloc.inside c ps) := fun c hc => by
    have hfree : ∀ al : Bool, b.sub m = none ∨ al = true → Freeable s.heap K none ps al true c := fun al hal =>
      Freeable.run hk hn (fun p hp => List.mem_append_left _ hp) hal hc (by simp)
    have hfr := hfree true (Or.inr rfl)
    refine ho.countedUnits hfr.block hfr.inUse ?_
    rcases hs with h₀ | h₀
    · exact Or.inl ((hfree false (Or.inl (if_pos h₀))).whole.resolve_right Bool.false_ne_true)
    · refine Or.inr (fun p hp hw => ?_)
      have hsub : b.sub m = some 0 := LiveBlock.sub_eq (by rw [h₀, hi.owns.shape.minBlockSize]; rfl)
      rcases List.mem_append.1 hp with hp | hp
      · rw [LiveBlock.pieces, hsub] at hp
        obtain ⟨d, _, hd⟩ := List.mem_flatMap.1 hp
        rw [cut, Nat.sub_zero] at hd
        rw [level_evenly (le_refl _) hd, Nat.sub_self]
      · rw [← hout] at hp
        have := (List.mem_filter.1 hp).2
        exact absurd hw (by simpa using of_decide_eq_true this c hc)
  have hsum : total (outside bs ps) + _ = total ps :=
    total_outside (runBlocks_disjoint (o := b.start s.heap.vaddr m) (n := b.units m) (K + 1))
  have hps' : total ps = _ := total_append _ _
  rw [show outside bs ps = _ from hout] at hsum
  have hcounted : 2 ^ m * (bs.map (countedUnits s.heap K)).sum = b.size := by
    rw [List.map_congr_left hcount, ← hpb.total]
    congr 1
    omega
  rwa [hcounted] at hsh

/-- **Frees of a block that is not split, or split into minimum blocks.** -/
theorem CountedInv.kfree (hi : s.CountedInv m K) {b : LiveBlock} {userSize flags : Nat} (hb : b ∈ s.live)
    (hl : KfreeMatches s.heap b userSize flags) (hs : b.subBlockSize = 0 ∨ b.subBlockSize = s.heap.minBlockSize) :
    ∃ h sz, perHeapKfreeUnsafe s.heap b.ptr userSize flags = some (h, sz) ∧ Frame K s.heap h ∧
      CountedInv m K { s with heap := h, live := s.live.erase b } := by
  obtain ⟨h, sz, hrun, hfr, hi', hsh⟩ := hi.toInv.kfree_size hb hl hs
  refine ⟨h, sz, hrun, hfr, hi.of_inv hi' ?_⟩
  have hmod := hsh.mod
  have hbytes : s.bytes = b.size + HeapState.bytes { s with heap := h, live := s.live.erase b } := by
    have := ((List.perm_cons_erase hb).map LiveBlock.size).sum_eq
    simp only [HeapState.bytes, List.map_cons, List.sum_cons] at this ⊢
    omega
  rw [hbytes, ← Nat.add_assoc, Nat.add_mod, hmod, ← Nat.add_mod]

end HeapState

end System

/-- A block of four minimum blocks, split into them. -/
theorem ExactRun.memAllocated_split : ∃ (_ : Machine) (h : KmallocHeap), ExactRun h ∧ h.inUse.length = 4 ∧
    h.memAllocated = 8192 ∧ h.memAllocated = h.bytesInUse := by
  refine ⟨machine64, ?_⟩
  let M := machine64
  have hrun : ((kmallocCreateHeap 0x100000 (2 ^ (11 + 5)) (2 ^ 11) 0 true newNode (fun _ => true)).call
      (.kmalloc 8192 2048)).map (fun h => (h.inUse.length, h.memAllocated)) = some (4, 8192) := by decide
  obtain ⟨h, hcall, heq⟩ := Option.map_eq_some_iff.1 hrun
  obtain ⟨hlen, hmem⟩ := Prod.mk.inj heq
  have hr : ExactRun h := (ExactRun.create none newNode (fun _ => true) (by omega) (by simp)).call (.kmalloc 8192 2048)
    ⟨⟨by decide, Or.inr ⟨by decide, 11, by decide⟩⟩, by decide, Or.inl rfl⟩ hcall
  exact ⟨h, hr, hlen, hmem, hr.memAllocated_eq.1⟩

/-- **What makes the counter differ**, each after calls on a new heap: the counter and the size of the blocks in use. -/
theorem memAllocated_differs : ∃ _ : Machine,
    -- a block with sub-blocks of two minimum blocks is coalesced: nothing is taken off the counter
    ((kmallocCreateHeap 0x100000 65536 2048 0 true newNode (fun _ => true)).calls
      [.kmalloc 8192 4096, .kfree 0x100000 8192 flAllowSplit]).map (fun h => (h.memAllocated, h.bytesInUse)) =
        some (8192, 0) ∧
    -- an allocation that maps nothing is not counted, its free is
    ((kmallocCreateHeap 0x100000 65536 2048 0 true newNode (fun _ => true)).calls
      [.kmalloc 2048 flNoActual]).map (fun h => (h.memAllocated, h.bytesInUse)) = some (0, 2048) ∧
    ((kmallocCreateHeap 0x100000 65536 2048 0 true newNode (fun _ => true)).calls
      [.kmalloc 2048 flNoActual, .kfree 0x100000 2048 0]).map (fun h => (h.memAllocated, h.bytesInUse)) =
        some (2 ^ 64 - 2048, 0) ∧
    -- a callback that fails: the allocation is taken back before it was counted
    ((kmallocCreateHeap 0x100000 65536 4096 4096 false newNode (fun _ => false)).calls
      [.kmalloc 4096 0]).map (fun h => (h.memAllocated, h.bytesInUse)) = some (2 ^ 64 - 4096, 0) ∧
    -- the pages of a block that is not unmapped stay full
    ((kmallocCreateHeap 0x100000 65536 4096 4096 false newNode (fun _ => true)).calls
      [.kmalloc 8192 0, .kfree 0x100000 8192 flNoActual]).map (fun h => (h.memAllocated, h.bytesInUse)) =
        some (0, 8192) :=
  ⟨machine64, by decide, by decide, by decide, by decide, by decide⟩

end Usax.Kmalloc
