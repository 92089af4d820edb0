import Usax.Kmalloc.Free

/-!
# Allocating a block

`internal_kmalloc` fills the hole that `find` finds with a block in use (`internalKmalloc_spec`), and
`internal_kmalloc_split_block` replaces a block in use by its parts (`splitBlock_spec`). For heaps that are not
linear-mapped this is about runs in which `valloc_and_map` does not fail.
-/

namespace Usax.Kmalloc

open Usax.Lib Usax.Lib.Buddy Common

variable {a : Option Nat} {m K j : Nat}

/-! ## Allocation blocks -/

theorem RepCtx.congr_bits {f g : Nat → BlockNode} {r : Nat} : ∀ {c : Ctx} {j : Nat} {v : Buddy}, RepCtx a f r c j v →
    (∀ i, ¬Below j (node r c) i → (g i).split = (f i).split ∧ (g i).full = (f i).full ∧
      ((f i).allocated = true → (g i).allocated = true)) → RepCtx a g r c j v
  | [], _, _, _, _ => trivial
  | fr :: c, j, v, h, e => by
    obtain ⟨h₁, h₂, _⟩ := e (node r c) (fun hb => hb.ne_parent rfl)
    refine ⟨h₁ ▸ h.1, h₂ ▸ h.2.1, ?_, ?_⟩
    · refine h.2.2.1.congr_bits (fun i hi => ?_)
      obtain ⟨h₁, h₂, h₃⟩ := e i (fun hb => hb.sibling hi)
      exact ⟨h₁, h₂, fun _ => h₃⟩
    · exact h.2.2.2.congr_bits (fun i hi => e i (fun hb => hi hb.of_child))

/-! ## Splitting a block in use -/

/-- What a loop over rows may do: set the `split` and `full` bits of the rows it goes over, and no other bit. -/
structure MarkedRows (split full : Bool) (lo hi n : Nat) (f g : Nat → BlockNode) : Prop where
  marked : ∀ e i, lo ≤ e → e < hi → InRow e n i → (g i).split = split ∧ (g i).full = full
  other : ∀ i, (∀ e, lo ≤ e → e < hi → ¬InRow e n i) → g i = f i
  allocated : ∀ i, (g i).allocated = true → (f i).allocated = true
  allocFailed : ∀ i, (g i).allocFailed = true → (f i).allocFailed = true

theorem mapRow_marked {h : KmallocHeap} {d n : Nat} (split full : Bool) {p : BlockNode → BlockNode}
    (hin : ∀ i, InRow d n i → i < h.metadataSize) (hp : ∀ b, (p b).split = split ∧ (p b).full = full)
    (ha : ∀ b, (p b).allocated = true → b.allocated = true)
    (hf : ∀ b, (p b).allocFailed = true → b.allocFailed = true) :
    ∃ g, h.mapRow (firstInRow d n) (2 ^ d) p = some (h.withNodes g) ∧
      MarkedRows split full d (d + 1) n h.metadataNodes g := by
  obtain ⟨g, hg, hrow, hout⟩ := mapRow_row hin p
  refine ⟨g, hg, fun e i h₁ h₂ hr => ?_, fun i hi => hout i (hi d (le_refl _) (by omega)), fun i hi => ?_, fun i hi => ?_⟩
  · rw [show e = d by omega] at hr
    rw [hrow i hr]; exact hp _
  · by_cases hr : InRow d n i
    · rw [hrow i hr] at hi; exact ha _ hi
    · rwa [hout i hr] at hi
  · by_cases hr : InRow d n i
    · rw [hrow i hr] at hi; exact hf _ hi
    · rwa [hout i hr] at hi

/-- The loop of `internal_kmalloc_split_block`: the rows from `e` on, above the level `l` of the leaves. -/
theorem splitRows_spec {n l leaf : Nat} : ∀ {d e : Nat} {h : KmallocHeap} (fuel : Nat), 2 ^ (m + l) ≤ leaf →
    (0 < d → leaf = 2 ^ (m + l)) → (∀ e' i, e' ≤ e + d → InRow e' n i → i < h.metadataSize) → d < fuel →
    ∃ f, splitRows fuel h leaf (2 ^ (m + (l + d))) (firstInRow e n) (2 ^ e) =
        some (h.withNodes f, 2 ^ (m + l), firstInRow (e + d) n, 2 ^ (e + d)) ∧
      MarkedRows true true e (e + d) n h.metadataNodes f
  | 0, e, h, fuel + 1, hl, _, _, _ => by
    refine ⟨h.metadataNodes, ?_, fun e' i h₁ h₂ => by omega, fun _ _ => rfl, fun _ => id, fun _ => id⟩
    rw [splitRows, Nat.add_zero, Nat.add_zero, if_neg (by omega)]
    rfl
  | d + 1, e, h, fuel + 1, hl, hleaf, hin, hfuel => by
    have hlt : leaf < 2 ^ (m + (l + (d + 1))) := by
      rw [hleaf (by omega)]; exact Nat.pow_lt_pow_right (by omega) (by omega)
    obtain ⟨g, hg, hrow⟩ := mapRow_marked (h := h) (d := e) (n := n) true true
      (p := if 2 ^ (m + (l + (d + 1))) ≠ h.allocBlockSize then fun _ => splitFullNode
        else fun b => { b with split := true, full := true })
      (fun i hi => hin e i (by omega) hi) (by intro b; split <;> exact ⟨rfl, rfl⟩)
      (by intro b; split <;> simp [splitFullNode]) (by intro b; split <;> simp [splitFullNode])
    rw [show e + (d + 1) = e + 1 + d by omega] at hin ⊢
    obtain ⟨f, hf, hrows⟩ := splitRows_spec (d := d) (e := e + 1) (h := h.withNodes g) fuel hl
      (fun _ => hleaf (by omega)) hin (by omega)
    refine ⟨f, ?_, fun e' i h₁ h₂ hr => ?_, fun i hi => ?_, fun i hi => ?_, fun i hi => ?_⟩
    · rw [splitRows, if_pos hlt, hg, Option.bind_eq_bind, Option.bind_some, ← Nat.add_assoc, ← Nat.add_assoc,
        half_two_pow, nodeLeft, ← firstInRow_succ, twice_two_pow, Nat.add_assoc, hf]
      rfl
    · by_cases he : e' = e
      · subst he
        rw [hrows.other i (fun e'' h₃ _ hr' => by have := hr.unique hr'; omega)]
        exact hrow.marked e' i (le_refl _) (by omega) hr
      · exact hrows.marked e' i (by omega) h₂ hr
    · rw [hrows.other i (fun e' h₁ h₂ => hi e' (by omega) h₂)]
      exact hrow.other i (fun e' h₁ h₂ => hi e' h₁ (by omega))
    · exact hrow.allocated i (hrows.allocated i hi)
    · exact hrow.allocFailed i (hrows.allocFailed i hi)

/-- A block whose rows above the leaves are split and full, and whose leaves are in use, is split evenly. -/
theorem rep_evenly {f : Nat → BlockNode} : ∀ {d l n : Nat},
    (∀ e i, e < d → InRow e n i → (f i).split = true ∧ (f i).full = true) →
    (∀ i, InRow d n i → Rep a f l i .used) → Rep a f (l + d) n (evenly d)
  | 0, _, n, _, h => h n (inRow_zero.2 rfl)
  | d + 1, l, n, hrows, hleaf => by
    obtain ⟨h₁, h₂⟩ := hrows 0 n (by omega) (inRow_zero.2 rfl)
    refine ⟨h₁, by rw [h₂, isFull_evenly]; rfl, ?_, ?_⟩
    · exact rep_evenly (fun e i he hi => hrows (e + 1) i (by omega) (inRow_succ.2 (Or.inl hi)))
        (fun i hi => hleaf i (inRow_succ.2 (Or.inl hi)))
    · exact rep_evenly (fun e i he hi => hrows (e + 1) i (by omega) (inRow_succ.2 (Or.inr hi)))
        (fun i hi => hleaf i (inRow_succ.2 (Or.inr hi)))

variable [Machine]

/-- **`internal_kmalloc_split_block`** replaces a block in use by blocks in use of level `l` (or leaves it as it is). -/
theorem splitBlock_spec {h : KmallocHeap} {c : Ctx} (sh : Shape h m K a) (hK : j + c.length = K)
    (hrep : Rep a h.metadataNodes j (node 0 c) .used) (l : Nat) :
    ∃ f, internalKmallocSplitBlock h (h.vaddr + 2 ^ m * Ctx.off j c) (2 ^ (m + j)) (2 ^ (m + l)) =
        some (h.withNodes f) ∧
      Rep a f j (node 0 c) (evenly (j - l)) ∧ Writes j (node 0 c) h.metadataNodes f := by
  obtain ⟨d, hd⟩ : ∃ d, d = j - l := ⟨_, rfl⟩
  have hin : ∀ e i, e ≤ j → InRow e (node 0 c) i → i < h.metadataSize := fun e i he hi =>
    sh.lt_of_below (hK ▸ below_node (below_iff_inRow.2 ⟨e, he, hi⟩))
  obtain ⟨f, hf, hrows⟩ := splitRows_spec (m := m) (n := node 0 c) (l := j - d) (d := d) (e := 0)
    (h.heapDataSizeLog2 + 1) (show _ ≤ 2 ^ (m + l) from Nat.pow_le_pow_right (by omega) (by omega))
    (fun h₀ => by rw [show j - d = l by omega]) (fun e i he => hin e i (by omega)) (by rw [sh.log2]; omega)
  simp only [firstInRow_zero, pow_zero, Nat.zero_add, show j - d + d = j by omega] at hf hrows
  obtain ⟨g, hg, hleaf⟩ := mapRow_marked (h := h.withNodes f) (d := d) (n := node 0 c) false true
    (p := if 2 ^ (m + (j - d)) ≠ h.allocBlockSize then fun _ => fullNode else fun b => { b with full := true, split := false })
    (fun i hi => hin d i (by omega) hi) (by intro b; split <;> exact ⟨rfl, rfl⟩)
    (by intro b; split <;> simp [fullNode]) (by intro b; split <;> simp [fullNode])
  -- nodes above the leaves, and below them
  have habove : ∀ e i, e < d → InRow e (node 0 c) i → g i = f i := fun e i he hi =>
    hleaf.other i (fun e' h₁ _ hr => by have := hi.unique hr; omega)
  have hunder : ∀ e i, d < e → InRow e (node 0 c) i → g i = h.metadataNodes i := fun e i he hi => by
    rw [hleaf.other i (fun e' h₁ h₂ hr => by have := hi.unique hr; omega)]
    exact hrows.other i (fun e' h₁ h₂ hr => by have := hi.unique hr; omega)
  refine ⟨g, ?_, ?_, ⟨fun i hi => ?_, fun i hi => hrows.allocated i (hleaf.allocated i hi),
    fun i hi => hrows.allocFailed i (hleaf.allocFailed i hi)⟩⟩
  · rw [internalKmallocSplitBlock, ptrToNode_off sh hK]
    simp only [hf, Option.bind_eq_bind, Option.bind_some, KmallocHeap.withNodes_allocBlockSize]
    exact hg
  · rw [← hd, show j = j - d + d by omega]
    refine rep_evenly (fun e i he hi => ?_) (fun i hi => ?_)
    · rw [habove e i he hi]
      exact hrows.marked e i (by omega) he hi
    · obtain ⟨h₁, h₂⟩ := hleaf.marked d i (le_refl _) (by omega) hi
      refine Rep.used_iff.2 ⟨h₂, h₁, fun x hx hne => ?_⟩
      obtain ⟨e, he, hr⟩ := below_iff_inRow.1 hx
      have hpos : e ≠ 0 := fun h₀ => hne (inRow_zero.1 (h₀ ▸ hr))
      have hr' := hi.trans hr
      have hxn : x ≠ node 0 c := fun h₀ => by
        have := hr'.unique (inRow_zero.2 h₀)
        omega
      rw [hunder (d + e) x (by omega) hr']
      obtain ⟨d₁, d₂⟩ := (Rep.used_iff.1 hrep).2.2 x (below_iff_inRow.2 ⟨d + e, by omega, hr'⟩) hxn
      refine ⟨d₁, fun hfull => ?_⟩
      obtain ⟨h₃, A, hA, ha, hrA⟩ := d₂ hfull
      have := hrA.unique hr'
      exact ⟨h₃, A, by omega, ha, by rw [show j - d - A = e by omega]; exact hr⟩
  · have hrow : ∀ e, e ≤ j → ¬InRow e (node 0 c) i := fun e he hr => hi (below_iff_inRow.2 ⟨e, he, hr⟩)
    rw [hleaf.other i (fun e _ h₂ => hrow e (by omega))]
    exact hrows.other i (fun e _ h₂ => hrow e (by omega))

theorem allocateBlocks_succ {h : KmallocHeap} (nodeSize va count : Nat)
    (hn : ptrToNode h va h.allocBlockSize < h.metadataSize) (hv : ∀ n, h.vallocAndMap n = true) :
    ∃ calls ev, allocateBlocks (count + 1) h nodeSize va false =
      allocateBlocks count { h.withNodes (Function.update h.metadataNodes (ptrToNode h va h.allocBlockSize)
        { h.metadataNodes (ptrToNode h va h.allocBlockSize) with
          allocated := true
          full := (h.metadataNodes (ptrToNode h va h.allocBlockSize)).full ||
            decide (h.allocBlockSize ≤ nodeSize) }) with
        vallocCalls := calls, vmEvents := ev } nodeSize (va + h.allocBlockSize) false := by
  rw [allocateBlocks]
  simp only [KmallocHeap.node?_eq hn, Option.bind_eq_bind, Option.bind_some, hv, ↓reduceIte]
  by_cases ha : (h.metadataNodes (ptrToNode h va h.allocBlockSize)).allocated = true
  · refine ⟨h.vallocCalls, h.vmEvents, ?_⟩
    by_cases hs : h.allocBlockSize ≤ nodeSize
    · simp only [ha, hs, Bool.not_true, Bool.false_eq_true, ↓reduceIte, KmallocHeap.modifyNode_eq hn,
        Option.bind_some, decide_true, Bool.or_true]
      rfl
    · simp only [ha, hs, Bool.not_true, Bool.false_eq_true, ↓reduceIte, decide_false, Bool.or_false]
      rw [show ({ h.metadataNodes (ptrToNode h va h.allocBlockSize) with allocated := true } : BlockNode) =
        h.metadataNodes (ptrToNode h va h.allocBlockSize) by rw [← ha], Function.update_eq_self]
      rfl
  · refine ⟨h.vallocCalls + 1, .map va (h.allocBlockSize / pageSize) :: h.vmEvents, ?_⟩
    by_cases hs : h.allocBlockSize ≤ nodeSize
    · simp only [ha, hs, Bool.not_false, ↓reduceIte, ge_iff_le, KmallocHeap.setNode, hn, Option.bind_some,
        KmallocHeap.modifyNode, KmallocHeap.node?, Option.bind_eq_bind, Function.update_self, Function.update_idem,
        decide_true, Bool.or_true]
      rfl
    · simp only [ha, hs, Bool.not_false, ↓reduceIte, ge_iff_le, KmallocHeap.setNode, hn, Option.bind_some,
        decide_false, Bool.or_false]
      rfl

theorem allocateBlocks_spec {A : Nat} (nodeSize : Nat) : ∀ (count q : Nat) {h : KmallocHeap}, Shape h m K (some A) →
    (∀ n, h.vallocAndMap n = true) → firstInRow (K - A) 0 + q + count ≤ h.metadataSize →
    ∃ g calls ev, allocateBlocks count h nodeSize (h.vaddr + 2 ^ (m + A) * q) false =
        some ({ h.withNodes g with vallocCalls := calls, vmEvents := ev }, false) ∧
      (∀ i, firstInRow (K - A) 0 + q ≤ i ∧ i < firstInRow (K - A) 0 + q + count → g i = { h.metadataNodes i with
        allocated := true, full := (h.metadataNodes i).full || decide (2 ^ (m + A) ≤ nodeSize) }) ∧
      ∀ i, ¬(firstInRow (K - A) 0 + q ≤ i ∧ i < firstInRow (K - A) 0 + q + count) → g i = h.metadataNodes i
  | 0, q, h, _, _, _ => ⟨h.metadataNodes, h.vallocCalls, h.vmEvents, rfl, fun i hi => by omega, fun _ _ => rfl⟩
  | count + 1, q, h, sh, hv, hin => by
    obtain ⟨_, hab, _, hAK, _⟩ := sh.paged A rfl
    have hn : ptrToNode h (h.vaddr + 2 ^ (m + A) * q) h.allocBlockSize = firstInRow (K - A) 0 + q := by
      rw [hab, ptrToNode_row sh hAK]
    obtain ⟨calls, ev, he⟩ := allocateBlocks_succ (h := h) nodeSize
      (h.vaddr + 2 ^ (m + A) * q) count (by rw [hn]; omega) hv
    rw [hn, hab] at he
    set f := Function.update h.metadataNodes (firstInRow (K - A) 0 + q) { h.metadataNodes (firstInRow (K - A) 0 + q) with
      allocated := true
      full := (h.metadataNodes (firstInRow (K - A) 0 + q)).full || decide (2 ^ (m + A) ≤ nodeSize) } with hf
    obtain ⟨g, calls', ev', hrun, hg, hout⟩ := allocateBlocks_spec nodeSize count (q + 1)
      (h := { h.withNodes f with vallocCalls := calls, vmEvents := ev })
      (sh.of_same ⟨rfl, rfl, rfl, rfl, rfl, rfl, rfl, rfl, rfl, rfl⟩) hv (by simp; omega)
    refine ⟨g, calls', ev', ?_, update_range (fun b : BlockNode => { b with
      allocated := true, full := b.full || decide (2 ^ (m + A) ≤ nodeSize) }) hg hout⟩
    rw [he, Nat.add_assoc, ← Nat.mul_succ]
    exact hrun

/-- What a heap needs for its allocations not to fail half-way. -/
def VallocOk (h : KmallocHeap) (doActualAlloc : Bool) : Prop :=
  h.linearMapping = true ∨ doActualAlloc = false ∨ ∀ n, h.vallocAndMap n = true

/-- **`actual_allocate_node`** turns a free block into a block in use. -/
theorem actualAllocateNode_spec {h : KmallocHeap} {c : Ctx} {v : Buddy} {doActualAlloc : Bool} (sh : Shape h m K a)
    (hK : j + c.length = K) (hctx : RepCtx a h.metadataNodes 0 c j v) (hrep : Rep a h.metadataNodes j (node 0 c) .free)
    (hv : VallocOk h doActualAlloc) :
    ∃ f calls ev, actualAllocateNode h (2 ^ (m + j)) (node 0 c) doActualAlloc =
        some ({ h.withNodes f with vallocCalls := calls, vmEvents := ev }, true, h.vaddr + 2 ^ m * Ctx.off j c) ∧
      RepCtx a f 0 c j v ∧ Rep a f j (node 0 c) .used ∧ (∀ i, ¬Below K 0 i → f i = h.metadataNodes i) ∧
      ((h.linearMapping = true ∨ doActualAlloc = false) → Writes K 0 h.metadataNodes f) ∧
      (∀ i, (f i).allocFailed = true → (h.metadataNodes i).allocFailed = true) := by
  have hn : node 0 c < h.metadataSize := sh.lt_of_below (hK ▸ below_node (Below.self j _))
  have hbn : Below j (node 0 c) (node 0 c) := Below.self _ _
  set f := Function.update h.metadataNodes (node 0 c) { h.metadataNodes (node 0 c) with full := true } with hf
  have hout : ∀ i, i ≠ node 0 c → f i = h.metadataNodes i := fun i hi => Function.update_of_ne hi _ _
  have hctx' : RepCtx a f 0 c j v := hctx.congr (fun i hi => (hout i (fun e => hi (e ▸ hbn))).symm)
  have hclean := Rep.free_iff.1 hrep
  have hused : Rep a f j (node 0 c) .used := by
    refine Rep.used_iff.2 ⟨by simp [hf], by simpa [hf] using hclean.root.2, Clean.dim (fun i hi hne => ?_)⟩
    rw [hout i hne]; exact hclean i hi
  have hwr : Writes K 0 h.metadataNodes f := Writes.update (hK ▸ below_node hbn) id id
  have hptr : nodeToPtr (h.withNodes f) (node 0 c) (2 ^ (m + j)) = h.vaddr + 2 ^ m * Ctx.off j c :=
    nodeToPtr_node (sh.withNodes f) hK
  rw [actualAllocateNode, KmallocHeap.modifyNode_eq hn, ← hf]
  simp only [Option.bind_eq_bind, Option.bind_some, hptr, KmallocHeap.withNodes_linearMapping,
    KmallocHeap.withNodes_allocBlockSize, KmallocHeap.withNodes_allocBlockSizeLog2]
  by_cases hl : h.linearMapping = true ∨ doActualAlloc = false
  · refine ⟨f, h.vallocCalls, h.vmEvents, ?_, hctx', hused, hwr.outside, fun _ => hwr, hwr.allocFailed⟩
    rw [if_pos (by simpa using hl)]
    rfl
  · rw [if_neg (by simpa using hl)]
    have hval : ∀ n, h.vallocAndMap n = true := by
      rcases hv with h₁ | h₁ | h₁
      · exact absurd (Or.inl h₁) hl
      · exact absurd (Or.inr h₁) hl
      · exact h₁
    cases a with
    | none => exact absurd (Or.inl (sh.linear rfl).1) hl
    | some A =>
      obtain ⟨_, hab, hal, hAK, _⟩ := sh.paged A rfl
      obtain ⟨q, hq, hrange⟩ := allocRange sh hK
      set count := 1 + (2 ^ (m + j) - 1) >>> (m + A) with hcount
      have hpos : 1 ≤ count := Nat.le_add_right _ _
      obtain ⟨g, calls, ev, hrun, hin, hout'⟩ := allocateBlocks_spec (2 ^ (m + j)) count q
        (sh.withNodes f) hval (by
          have := sh.lt_of_below (((hrange (firstInRow (K - A) 0 + q + count - 1)).1 (by omega)).below hK hAK)
          simp only [KmallocHeap.withNodes_metadataSize]
          omega)
      simp only [hrange, KmallocHeap.withNodes_nodes, Nat.pow_le_pow_iff_right (by omega : 1 < 2),
        Nat.add_le_add_iff_left] at hin hout'
      have hfail : ∀ i, (g i).allocFailed = (f i).allocFailed := fun i => by
        by_cases e : AllocNode A j c i
        · rw [hin i e]
        · rw [hout' i e]
      refine ⟨g, calls, ev, ?_, ?_, ?_, fun i hi => ?_, fun h₁ => absurd h₁ hl, fun i hi => ?_⟩
      · rw [← hab] at hq hrun
        rw [← hal] at hcount
        rw [hq, ← hcount, show allocateBlocks count (h.withNodes f) _ (h.vaddr + _) false = _ from hrun]
        rfl
      · refine hctx'.congr_bits (fun i hi => ?_)
        by_cases e : AllocNode A j c i
        · have hA : ¬A ≤ j := fun hA => by
            rw [AllocNode, if_pos hA] at e
            exact hi (below_iff_inRow.2 ⟨j - A, by omega, e⟩)
          rw [hin i e]
          simp [hA]
        · rw [hout' i e]
          simp
      · by_cases hA : A ≤ j
        · obtain ⟨h₁, h₂, h₃⟩ := Rep.used_iff.1 hused
          have hbits : (g (node 0 c)).full = true ∧ (g (node 0 c)).split = false := by
            by_cases e : AllocNode A j c (node 0 c)
            · rw [hin _ e]; simp [hA, h₂]
            · rw [hout' _ e]; exact ⟨h₁, h₂⟩
          refine Rep.used_iff.2 ⟨hbits.1, hbits.2, fun i hi hne => ?_⟩
          by_cases e : AllocNode A j c i
          · have hr : InRow (j - A) (node 0 c) i := by rwa [AllocNode, if_pos hA] at e
            have hlt : A < j := by
              by_contra hc
              rw [show j - A = 0 by omega] at hr
              exact hne (inRow_zero.1 hr)
            rw [hin i e]
            exact ⟨(h₃ i hi hne).1, fun _ => ⟨rfl, A, hlt, rfl, hr⟩⟩
          · rw [hout' i e]; exact h₃ i hi hne
        · refine hused.congr_bits (fun i _ => ?_)
          by_cases e : AllocNode A j c i
          · rw [hin i e]; simp [hA]
          · rw [hout' i e]; simp
      · rw [hout' i (fun e => hi (e.below hK hAK))]; exact hwr.outside i hi
      · rw [hfail] at hi; exact hwr.allocFailed i hi

/-! ## Filling the first free block -/

/-- **`internal_kmalloc`** of a block below the node of the context `d`: it fills the hole that `find` finds, or does
nothing. The `full` bits above the starting node are left as they are. -/
theorem internalKmalloc_spec {h : KmallocHeap} {d : Ctx} {k : Nat} {u : Buddy} {doActualAlloc : Bool} (sh : Shape h m K a)
    (hK : k + d.length = K) (hd : RepCtx a h.metadataNodes 0 d k u) (hu : Rep a h.metadataNodes k (node 0 d) u)
    (hj : j ≤ k) (hv : VallocOk h doActualAlloc) :
    match find j k u with
    | none => internalKmalloc h (2 ^ (m + j)) (node 0 d) (2 ^ (m + k)) true doActualAlloc = some (h, none)
    | some c => ∃ h', internalKmalloc h (2 ^ (m + j)) (node 0 d) (2 ^ (m + k)) true doActualAlloc =
          some (h', some (h.vaddr + 2 ^ m * Ctx.off j (c ++ d))) ∧ Same h h' ∧
        h'.memAllocated = (if doActualAlloc then addWord h.memAllocated (2 ^ (m + j)) else h.memAllocated) ∧
        Rep a h'.metadataNodes k (node 0 d) (plug c .used) ∧ RepCtx a h'.metadataNodes 0 d k u ∧
        (∀ i, ¬Below K 0 i → h'.metadataNodes i = h.metadataNodes i) ∧
        ((h.linearMapping = true ∨ doActualAlloc = false) → Writes K 0 h.metadataNodes h'.metadataNodes) ∧
        (∀ i, (h'.metadataNodes i).allocFailed = true → (h.metadataNodes i).allocFailed = true) := by
  have hin : ∀ i, Below k (node 0 d) i → i < h.metadataSize := fun i hi => sh.lt_of_below (hK ▸ below_node hi)
  have hsearch := search_spec (m := m) (j := j) [] hj
    (show k - j < allocStackSize by have := sh.small; rw [allocStackSize]; omega) hin hu
  have hne : ¬2 ^ (m + k) = 0 := by positivity
  cases hfind : find j k u with
  | none =>
    rw [hfind] at hsearch
    simp only [internalKmalloc, hne, ↓reduceIte, Option.bind_eq_bind, Option.bind_some]
    rw [hsearch]
    rfl
  | some c =>
    rw [hfind] at hsearch
    obtain ⟨f, hres, hwr, hctx, hfree⟩ := hsearch
    have hlen : j + c.length = k := find_length hj hfind
    have hnotfull : u.isFull = false := by
      rw [Bool.eq_false_iff]; intro e; rw [find_full e] at hfind; cases hfind
    have hd' : RepCtx a f 0 d k u := hd.congr (fun i hi => (hwr.outside i hi).symm)
    have hC : RepCtx a f 0 (c ++ d) j .free := by
      refine RepCtx.append hctx ?_
      rw [hlen]
      exact hd'.swap (by rw [hnotfull, isFull_plug_of_not rfl])
    have hKC : j + (c ++ d).length = K := by rw [List.length_append]; omega
    rw [← node_append] at hfree
    obtain ⟨f₁, calls, ev, hact, hC₁, hused, hout₁, hwr₁, hfail₁⟩ := actualAllocateNode_spec (sh.withNodes f) hKC hC hfree hv
    obtain ⟨hc₁, hd₁⟩ := hC₁.of_append
    set h₁ : KmallocHeap := { h.withNodes f₁ with vallocCalls := calls, vmEvents := ev } with hh₁
    rw [node_append] at hused hact
    have hact' : actualAllocateNode (h.withNodes f) (2 ^ (m + j)) (node (node 0 d) c) doActualAlloc =
      some (h₁, true, h.vaddr + 2 ^ m * Ctx.off j (c ++ d)) := hact
    obtain ⟨f₂, hmark, hc₂, hin₂, hwr₂⟩ := markParents_spec (h := h₁) (w := .used) hc₁ rfl hused.used_bits.1
      (by rw [hlen]; exact hin)
    rw [hlen] at hwr₂ hd₁
    have hbelow : ∀ i, Below k (node 0 d) i → Below K 0 i := fun i hi => hK ▸ below_node hi
    refine ⟨{ h₁.withNodes f₂ with memAllocated := if doActualAlloc then addWord h.memAllocated (2 ^ (m + j))
      else h.memAllocated }, ?_, ⟨rfl, rfl, rfl, rfl, rfl, rfl, rfl, rfl, rfl, rfl⟩, rfl, ?_, ?_, fun i hi => ?_,
      fun hl => ?_, fun i hi => ?_⟩
    · simp only [internalKmalloc, hne, ↓reduceIte, Option.bind_eq_bind, Option.bind_some]
      rw [hres]
      simp only [Option.bind_some, List.append_nil, hact', hmark]
      cases doActualAlloc <;> rfl
    · rw [← hlen]
      exact hc₂.plug (hused.congr (fun i hi => (hin₂ i hi).symm))
    · exact (hd₁.swap (by rw [hnotfull, isFull_plug_of_not rfl])).congr (fun i hi => (hwr₂.outside i hi).symm)
    · exact ((hwr₂.outside i (fun hb => hi (hbelow i hb))).trans (hout₁ i hi)).trans
        (hwr.outside i (fun hb => hi (hbelow i hb)))
    · exact ((hwr.mono hbelow).trans (hwr₁ hl)).trans (hwr₂.mono hbelow)
    · exact hwr.allocFailed i (hfail₁ i (hwr₂.allocFailed i hi))

/-- `internal_kmalloc` from the root without marking the node: the way to the first free block is split. -/
theorem internalKmalloc_find {h : KmallocHeap} {u : Buddy} (sh : Shape h m K a) (hu : Rep a h.metadataNodes K 0 u)
    (hj : j ≤ K) :
    match find j K u with
    | none => internalKmalloc h (2 ^ (m + j)) 0 (2 ^ (m + K)) false false = some (h, none)
    | some c => ∃ f, internalKmalloc h (2 ^ (m + j)) 0 (2 ^ (m + K)) false false =
          some (h.withNodes f, some (h.vaddr + 2 ^ m * Ctx.off j c)) ∧ RepCtx a f 0 c j .free ∧
        Rep a f j (node 0 c) .free ∧ Writes K 0 h.metadataNodes f := by
  have hsearch := search_spec (m := m) (j := j) [] hj
    (show K - j < allocStackSize by have := sh.small; rw [allocStackSize]; omega) (fun i => sh.lt_of_below) hu
  have hne : ¬2 ^ (m + K) = 0 := by positivity
  cases hfind : find j K u with
  | none =>
    rw [hfind] at hsearch
    simp only [internalKmalloc, hne, ↓reduceIte, Option.bind_eq_bind, Option.bind_some]
    rw [hsearch]
    rfl
  | some c =>
    rw [hfind] at hsearch
    obtain ⟨f, hres, hwr, hctx, hfree⟩ := hsearch
    have hlen : j + c.length = K := find_length hj hfind
    obtain ⟨f₂, hmark, hc₂, hin₂, hwr₂⟩ := markParents_spec (h := h.withNodes f) (w := .free) hctx rfl
      (Rep.free_iff.1 hfree).root.1 (by rw [hlen]; exact fun i => sh.lt_of_below)
    rw [hlen] at hwr₂
    refine ⟨f₂, ?_, hc₂, hfree.congr (fun i hi => (hin₂ i hi).symm), hwr.trans hwr₂⟩
    simp only [internalKmalloc, hne, ↓reduceIte, Option.bind_eq_bind, Option.bind_some]
    rw [hres]
    simp only [Option.bind_some, List.append_nil, Bool.false_eq_true, ↓reduceIte, hmark,
      nodeToPtr_node (sh.withNodes f) hlen]
    rfl

end Usax.Kmalloc
