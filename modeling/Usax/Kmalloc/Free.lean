import Usax.Kmalloc.Search

/-!
# Freeing a block

`internal_kfree` empties a hole of the buddy tree and coalesces what it can on the way up (`internalKfree_spec`): in the
words of the library, the tree of the context `c` becomes `close c free`. The parts are

- `set_free_uplevels`, the walk up (`setFreeUplevels_spec`);
- `internal_kmalloc_coalesce_block`, the walk down over a block that is split (`coalesceBlock_spec`);
- the loop that unmaps the allocation blocks of a heap that is not linear-mapped (`freeAllocBlocks_spec`).
-/

namespace Usax.Kmalloc

open Usax.Lib Usax.Lib.Buddy Common

variable {a : Option Nat} {m K j : Nat}

/-! ## The walk up -/

theorem nodeParent_node (r : Nat) (fr : Bool × Buddy) (c : Ctx) : nodeParent (node r (fr :: c)) = some (node r c) := by
  have := fr.1.toNat_le
  have e : node r (fr :: c) = 2 * node r c + 1 + fr.1.toNat := rfl
  rw [nodeParent, if_neg (by omega), show (node r (fr :: c) - 1) / 2 = node r c by omega]

theorem nodeParent_eq_head : ∀ c : Ctx, nodeParent (node 0 c) = (ancestors 0 c).head?
  | [] => rfl
  | fr :: c => nodeParent_node 0 fr c

/-- Nothing has changed but the nodes below the hole and its ancestors. -/
def Near (c : Ctx) (j : Nat) (f g : Nat → BlockNode) : Prop :=
  ∀ i, ¬Below j (node 0 c) i → i ∉ ancestors 0 c → g i = f i

theorem Near.trans {c : Ctx} {f g e : Nat → BlockNode} (h : Near c j f g) (h' : Near c j g e) : Near c j f e :=
  fun i hi ha => (h' i hi ha).trans (h i hi ha)

theorem Near.cons {fr : Bool × Buddy} {c : Ctx} {f g : Nat → BlockNode} (h : Near c (j + 1) f g)
    (hin : ∀ i, Below (j + 1) (node 0 c) i → g i = f i) : Near (fr :: c) j f g := fun i _ ha => by
  by_cases hb : Below (j + 1) (node 0 c) i
  · exact hin i hb
  · exact h i hb (fun h' => ha (List.mem_cons_of_mem _ h'))

theorem Near.parent {fr : Bool × Buddy} {c : Ctx} {f : Nat → BlockNode} {b : BlockNode} :
    Near (fr :: c) j f (Function.update f (node 0 c) b) := fun i _ ha =>
  Function.update_of_ne (fun (e : i = node 0 c) => ha (e ▸ List.mem_cons_self)) _ _

theorem clearFullLoop_spec : ∀ {c : Ctx} {j : Nat} {v w : Buddy} {h : KmallocHeap} (fuel : Nat),
    RepCtx a h.metadataNodes 0 c j v → w.isFull = false → c.length ≤ fuel →
    (∀ i, Below (j + c.length) 0 i → i < h.metadataSize) →
    ∃ f, clearFullLoop fuel h (ancestors 0 c).head? = some (h.withNodes f) ∧ RepCtx a f 0 c j w ∧
      (∀ i, Below j (node 0 c) i → f i = h.metadataNodes i) ∧ Writes (j + c.length) 0 h.metadataNodes f ∧
      Near c j h.metadataNodes f
  | [], _, _, _, h, fuel, _, _, _, _ =>
    ⟨h.metadataNodes, by cases fuel <;> rfl, trivial, fun _ _ => rfl, Writes.refl _ _ _, fun _ _ _ => rfl⟩
  | fr :: c, j, v, w, h, fuel + 1, hctx, hw, hfuel, hin => by
    rw [show j + (fr :: c).length = j + 1 + c.length by simp; omega] at hin ⊢
    have hp : node 0 c < h.metadataSize := hin _ (below_node (Below.self (j + 1) _))
    have hfill : (fill fr w).isFull = false := by rw [isFull_fill, hw]; rfl
    let f := Function.update h.metadataNodes (node 0 c) { h.metadataNodes (node 0 c) with full := false }
    have hout : ∀ i, i ≠ node 0 c → f i = h.metadataNodes i := fun i hi => Function.update_of_ne hi _ _
    have hwr : Writes (j + 1) (node 0 c) h.metadataNodes f := Writes.update (Below.self _ _) id id
    have hctx' : RepCtx a f 0 c (j + 1) (fill fr v) :=
      hctx.2.2.2.congr (fun i hi => (hout i (fun e => hi (e ▸ Below.self _ _))).symm)
    obtain ⟨f', hrun, hc', hin', hwr', hnear⟩ := clearFullLoop_spec (h := h.withNodes f) fuel hctx' hfill
      (by simp at hfuel; omega) hin
    refine ⟨f', ?_, ⟨?_, ?_, ?_, hc'⟩, fun i hi => ?_, (hwr.mono (fun i hi => below_node hi)).trans hwr',
      Near.parent.trans (hnear.cons hin')⟩
    · rw [ancestors, List.head?_cons, clearFullLoop, KmallocHeap.modifyNode_eq hp, nodeParent_eq_head]
      exact hrun
    · rw [hin' _ (Below.self _ _)]; simpa [f] using hctx.1
    · rw [hin' _ (Below.self _ _), hfill]; simp [f]
    · refine hctx.2.2.1.congr (fun i hi => ?_)
      rw [hin' i hi.of_child]
      exact (hout i (fun e => hi.ne_parent e)).symm
    · rw [hin' i hi.of_child]
      exact hout i (fun e => hi.ne_parent e)

/-- Once the nodes below the hole are clean, the nodes are those of the coalesced tree. -/
def Closed (a : Option Nat) (f : Nat → BlockNode) (c : Ctx) (j : Nat) : Prop :=
  ∀ g : Nat → BlockNode, (∀ i, ¬Below j (node 0 c) i → g i = f i) → Clean g j (node 0 c) →
    Rep a g (j + c.length) 0 (close c .free)

theorem close_of_ne_free : ∀ {c : Ctx} {u : Buddy}, u ≠ .free → close c u = plug c u
  | [], _, _ => rfl
  | fr :: c, u, h => by
    rw [close, plug, merge, if_neg (fun e => h e.1)]
    exact close_of_ne_free (fill_ne_free fr u)

theorem RepCtx.closed {f : Nat → BlockNode} {fr : Bool × Buddy} {c : Ctx} (h : RepCtx a f 0 (fr :: c) j .free)
    (hs : fr.2 ≠ .free) : Closed a f (fr :: c) j := by
  intro g hg hcl
  rw [close, merge, if_neg (fun e => hs e.2), close_of_ne_free (fill_ne_free fr _)]
  exact (h.congr (fun i hi => (hg i hi).symm)).plug (Rep.free_iff.2 hcl)

theorem twice_two_pow (k : Nat) : 2 ^ k <<< 1 = 2 ^ (k + 1) := by
  rw [Nat.shiftLeft_eq, pow_one, pow_succ]

theorem isBlockNodeFree_clear (b : BlockNode) : isBlockNodeFree b.clear = true := rfl

theorem coalesceLoop_succ {h : KmallocHeap} {nd p size fuel : Nat} (hlt : ∀ i, Below 1 p i → i < h.metadataSize)
    (hp : (h.metadataNodes p).split = true) : coalesceLoop (fuel + 1) h nd p size =
    if !isBlockNodeFree (h.metadataNodes (2 * p + 1)) || !isBlockNodeFree (h.metadataNodes (2 * p + 2)) then
      some (h.withNodes (Function.update h.metadataNodes p { h.metadataNodes p with
        full := (h.metadataNodes (2 * p + 1)).full && (h.metadataNodes (2 * p + 2)).full }), nd, p, size >>> 1)
    else match nodeParent p with
      | none => some (h.withNodes (Function.update h.metadataNodes p (h.metadataNodes p).clear), p, p, size)
      | some q => coalesceLoop fuel (h.withNodes (Function.update h.metadataNodes p (h.metadataNodes p).clear)) p q
          (size <<< 1) := by
  have hnf : isBlockNodeFree (h.metadataNodes p) = false := by simp [isBlockNodeFree, hp]
  have h₁ := hlt p (Below.self 1 p)
  rw [coalesceLoop, KmallocHeap.node?_eq h₁]
  simp only [Option.bind_eq_bind, Option.bind_some, hnf, Bool.false_eq_true, ↓reduceIte, nodeLeft, nodeRight,
    KmallocHeap.node?_eq (hlt _ (Or.inr (Or.inl rfl))), KmallocHeap.node?_eq (hlt _ (Or.inr (Or.inr rfl))),
    KmallocHeap.modifyNode_eq h₁]
  rfl

/-- The two loops of `set_free_uplevels`: coalesce as far as possible, then clear the `full` bits up to the root. The
coalesced blocks are those of the levels up to the returned size. -/
theorem coalesceLoop_spec : ∀ {c : Ctx} {fr : Bool × Buddy} {j : Nat} {v : Buddy} {h : KmallocHeap} (nd fuel fuel' : Nat),
    RepCtx a h.metadataNodes 0 (fr :: c) j v → isBlockNodeFree (h.metadataNodes (node 0 (fr :: c))) = true →
    c.length < fuel → c.length < fuel' → (∀ i, Below (j + (fr :: c).length) 0 i → i < h.metadataSize) →
    ∃ h₁ b n d f, coalesceLoop fuel h nd (node 0 c) (2 ^ (m + j) <<< 1) = some (h₁, b, n, 2 ^ (m + (j + d))) ∧
      h₁.heapDataSizeLog2 = h.heapDataSizeLog2 ∧ clearFullLoop fuel' h₁ (some n) = some (h.withNodes f) ∧
      (∀ i, Below j (node 0 (fr :: c)) i → f i = h.metadataNodes i) ∧
      Writes (j + (fr :: c).length) 0 h.metadataNodes f ∧ Near (fr :: c) j h.metadataNodes f ∧ Closed a f (fr :: c) j ∧
      ∀ e, e ≤ d → e ≤ (fr :: c).length → isBlockNodeFree (f (node 0 ((fr :: c).drop e))) = true
  | c, fr, j, v, h, nd, fuel + 1, fuel' + 1, hctx, hfree, hfuel, hfuel', hin => by
    have hbelow : ∀ i, Below (j + 1) (node 0 c) i → Below (j + (fr :: c).length) 0 i := fun i hi => by
      rw [show j + (fr :: c).length = j + 1 + c.length by simp; omega]; exact below_node hi
    have hlt : ∀ i, Below (j + 1) (node 0 c) i → i < h.metadataSize := fun i hi => hin i (hbelow i hi)
    have hp : node 0 c < h.metadataSize := hlt _ (Below.self _ _)
    have hsib := hctx.2.2.1.isFree_iff
    have hboth : (!isBlockNodeFree (h.metadataNodes (2 * node 0 c + 1)) ||
        !isBlockNodeFree (h.metadataNodes (2 * node 0 c + 2))) =
        !isBlockNodeFree (h.metadataNodes (child (node 0 c) !fr.1)) := by
      obtain ⟨b, s⟩ := fr
      have hfree' : isBlockNodeFree (h.metadataNodes (child (node 0 c) b)) = true := hfree
      cases b
      · simp only [child_false] at hfree'; simp [hfree', child]
      · simp only [child_true] at hfree'; simp [hfree', child]
    have hlt₁ : ∀ i, Below 1 (node 0 c) i → i < h.metadataSize := by
      intro i hi
      rcases hi with rfl | rfl | rfl
      · exact hp
      · exact hlt _ (Or.inr (Or.inl (Below.self _ _)))
      · exact hlt _ (Or.inr (Or.inr (Below.self _ _)))
    rw [coalesceLoop_succ hlt₁ hctx.1, hboth]
    by_cases hs : fr.2 = .free
    · -- both halves are free: the parent becomes a free block, and the hole of a shorter context
      rw [hsib.2 hs, if_neg (by simp)]
      let f := Function.update h.metadataNodes (node 0 c) (h.metadataNodes (node 0 c)).clear
      have hout : ∀ i, i ≠ node 0 c → f i = h.metadataNodes i := fun i hi => Function.update_of_ne hi _ _
      have hfp : isBlockNodeFree (f (node 0 c)) = true := by simp [f, isBlockNodeFree_clear]
      have hwr : Writes (j + (fr :: c).length) 0 h.metadataNodes f :=
        Writes.update (hbelow _ (Below.self _ _)) id id
      have hmerge : merge fr .free = .free := if_pos ⟨rfl, hs⟩
      have hclean : ∀ g : Nat → BlockNode, (∀ i, ¬Below j (node 0 (fr :: c)) i → Below (j + 1) (node 0 c) i → g i = f i) →
          Clean g j (node 0 (fr :: c)) → Clean g (j + 1) (node 0 c) := by
        intro g hg hcl i hi
        rcases Below.cases fr.1 hi with rfl | hi' | hi'
        · rw [hg _ (fun hb => hb.ne_parent rfl) hi]; exact hfp
        · exact hcl i hi'
        · rw [hg i (fun hb => hb.sibling hi') hi, hout i (fun e => hi'.ne_parent e)]
          exact Rep.free_iff.1 (hs ▸ hctx.2.2.1) i hi'
      cases c with
      | nil =>
        refine ⟨h.withNodes f, 0, 0, 1, f, by rw [twice_two_pow]; rfl, rfl, ?_, fun i hi => hout i (fun e => hi.ne_parent e), hwr,
          Near.parent, fun g hg hcl => ?_, fun e he _ => ?_⟩
        · rw [clearFullLoop, KmallocHeap.modifyNode_withNodes (n := 0) hp]
          cases fuel' <;> simp [f, node, BlockNode.clear, nodeParent, clearFullLoop]
        · rw [close, hmerge]
          exact Rep.free_iff.2 (hclean g (fun i hi _ => hg i hi) hcl)
        · rcases Nat.le_one_iff_eq_zero_or_eq_one.1 he with rfl | rfl
          · rw [List.drop_zero, hout _ (fun e => (Below.self j (node 0 [fr])).ne_parent e)]; exact hfree
          · exact hfp
      | cons fr' c =>
        have hctx' : RepCtx a f 0 (fr' :: c) (j + 1) (fill fr v) :=
          hctx.2.2.2.congr (fun i hi => (hout i (fun e => hi (e ▸ Below.self _ _))).symm)
        have hlen : j + (fr :: fr' :: c).length = j + 1 + (fr' :: c).length := by simp; omega
        obtain ⟨h₁, b, n, d, f', hrun, hlog, hclr, hin', hwr', hnear, hclo, hfr⟩ := coalesceLoop_spec (h := h.withNodes f)
          (node 0 (fr' :: c)) fuel (fuel' + 1) hctx' hfp (by simp at hfuel; omega)
          (by simp at hfuel'; omega) (hlen ▸ hin)
        rw [← hlen] at hwr'
        refine ⟨h₁, b, n, d + 1, f', ?_, hlog, hclr, fun i hi => ?_, hwr.trans hwr',
          Near.parent.trans (hnear.cons hin'), fun g hg hcl => ?_, fun e he hlen => ?_⟩
        · rw [nodeParent_node, twice_two_pow, show j + (d + 1) = j + 1 + d by omega]
          exact hrun
        · rw [hin' i hi.of_child]; exact hout i (fun e => hi.ne_parent e)
        · rw [close, hmerge, hlen]
          refine hclo g (fun i hi => hg i (fun hb => hi hb.of_child)) (hclean g (fun i hi hb => ?_) hcl)
          rw [hg i hi]; exact hin' i hb
        · cases e with
          | zero =>
            have hb : Below j (node 0 (fr :: fr' :: c)) (node 0 (fr :: fr' :: c)) := Below.self _ _
            rw [List.drop_zero, hin' _ hb.of_child, KmallocHeap.withNodes_nodes, hout _ (fun e => hb.ne_parent e)]
            exact hfree
          | succ e => exact hfr e (by omega) (by simp at hlen ⊢; omega)
    · have hs' : isBlockNodeFree (h.metadataNodes (child (node 0 c) !fr.1)) = false := by
        rw [Bool.eq_false_iff]; exact fun e => hs (hsib.1 e)
      rw [hs', if_pos (by rfl), twice_two_pow, half_two_pow]
      obtain ⟨f, hrun, hc', hin', hwr', hnear⟩ := clearFullLoop_spec (w := .free) (fuel' + 1) hctx rfl
        (by simp; omega) hin
      refine ⟨_, _, _, 0, f, rfl, rfl, ?_, hin', hwr', hnear, hc'.closed hs, fun e he _ => ?_⟩
      · -- the loop clears the `full` bit that has just been written
        rw [ancestors, List.head?_cons, clearFullLoop, KmallocHeap.modifyNode_eq hp] at hrun
        rw [clearFullLoop, KmallocHeap.modifyNode_withNodes hp]
        simpa using hrun
      · rw [Nat.le_zero.1 he, List.drop_zero, hin' _ (Below.self _ _)]; exact hfree

/-- **`set_free_uplevels`**: with the nodes below the hole clean, the tree is the coalesced one, and the blocks around the
hole are free up to the returned size. -/
theorem setFreeUplevels_spec {h : KmallocHeap} {c : Ctx} {v : Buddy} (sh : Shape h m K a) (hK : j + c.length = K)
    (hctx : RepCtx a h.metadataNodes 0 c j v) (hsp : (h.metadataNodes (node 0 c)).split = false) :
    ∃ nd d f nb, setFreeUplevels h (node 0 c) (2 ^ (m + j)) =
        some ({ h.withNodes f with nodeBefore := nb }, nd, 2 ^ (m + (j + d))) ∧
      (∀ i, Below j (node 0 c) i → f i = Function.update h.metadataNodes (node 0 c)
        { h.metadataNodes (node 0 c) with full := false } i) ∧
      Writes K 0 h.metadataNodes f ∧ Near c j h.metadataNodes f ∧ Closed a f c j ∧
      ∀ e, e ≤ d → e ≤ c.length → isBlockNodeFree (f (node 0 (c.drop e))) = true := by
  have hin : ∀ i, Below (j + c.length) 0 i → i < h.metadataSize := fun i hi => sh.lt_of_below (hK ▸ hi)
  have hn : node 0 c < h.metadataSize := hin _ (below_node (Below.self j _))
  rw [setFreeUplevels, KmallocHeap.modifyNode_eq hn, Option.bind_eq_bind, Option.bind_some]
  set f := Function.update h.metadataNodes (node 0 c) { h.metadataNodes (node 0 c) with full := false } with hf
  have hout : ∀ i, i ≠ node 0 c → f i = h.metadataNodes i := fun i hi => Function.update_of_ne hi _ _
  have hfree : isBlockNodeFree (f (node 0 c)) = true := by simp [hf, isBlockNodeFree, hsp]
  have hwr : Writes K 0 h.metadataNodes f := Writes.update (hK ▸ below_node (Below.self j _)) id id
  have hnear : Near c j h.metadataNodes f := fun i hi _ => hout i (fun e => hi (e ▸ Below.self _ _))
  cases c with
  | nil =>
    have hclo : Closed a f [] j := fun g _ hcl => Rep.free_iff.2 hcl
    have hfr : ∀ e, e ≤ ([] : Ctx).length → isBlockNodeFree (f (node 0 (([] : Ctx).drop e))) = true := by
      intro e he
      rw [List.drop_nil]; exact hfree
    rw [show nodeParent (node 0 []) = none from rfl]
    by_cases hb : isBlockNodeFree h.nodeBefore = true
    · refine ⟨0, 1, f, h.nodeBefore, ?_, fun _ _ => rfl, hwr, hnear, hclo, fun e _ he => hfr e he⟩
      simp only [KmallocHeap.withNodes, hb, ↓reduceIte, twice_two_pow]
      rfl
    · refine ⟨0, 0, f, { h.nodeBefore with full := false }, ?_, fun _ _ => rfl, hwr, hnear, hclo,
        fun e _ he => hfr e he⟩
      have h₀ : (f 0).full = false := by rw [hf]; simp [node]
      simp only [KmallocHeap.withNodes, hb, KmallocHeap.node?, show 0 < h.metadataSize from hn, twice_two_pow,
        half_two_pow, ↓reduceIte, Bool.false_eq_true, Option.bind_eq_bind, Option.bind_some, h₀, Bool.and_false]
      rfl
  | cons fr c =>
    have hctx' : RepCtx a f 0 (fr :: c) j v :=
      hctx.congr (fun i hi => (hout i (fun e => hi (e ▸ Below.self _ _))).symm)
    obtain ⟨h₁, b, n, d, f', hrun, hlog, hclr, hin', hwr', hnear', hclo, hfr⟩ := coalesceLoop_spec (m := m)
      (h := h.withNodes f)
      (node 0 (fr :: c)) (h.heapDataSizeLog2 + 1) (h.heapDataSizeLog2 + 1) hctx' hfree
      (by rw [sh.log2]; simp at hK; omega) (by rw [sh.log2]; simp at hK; omega) hin
    rw [hK] at hwr'
    refine ⟨b, d, f', h.nodeBefore, ?_, hin', hwr.trans hwr', hnear.trans hnear', hclo, hfr⟩
    rw [nodeParent_node]
    change (coalesceLoop (h.heapDataSizeLog2 + 1) (h.withNodes f) _ _ _).bind _ = _
    rw [hrun, Option.bind_some]
    change (clearFullLoop (h₁.heapDataSizeLog2 + 1) _ _).bind _ = _
    rw [hlog, KmallocHeap.withNodes_log2, hclr]
    rfl

/-! ## The walk down over a split block -/

theorem mapRow_row {h : KmallocHeap} {d n : Nat} (hin : ∀ i, InRow d n i → i < h.metadataSize)
    (p : BlockNode → BlockNode) : ∃ g, h.mapRow (firstInRow d n) (2 ^ d) p = some (h.withNodes g) ∧
      (∀ i, InRow d n i → g i = p (h.metadataNodes i)) ∧ ∀ i, ¬InRow d n i → g i = h.metadataNodes i := by
  have hpos : 0 < 2 ^ d := by positivity
  have hlast := hin (firstInRow d n + 2 ^ d - 1) (inRow_iff_range.2 (by omega))
  refine ⟨_, by rw [KmallocHeap.mapRow, if_pos (by omega)]; rfl, fun i hi => ?_, fun i hi => ?_⟩
  · exact if_pos (inRow_iff_range.1 hi)
  · exact if_neg (fun h => hi (inRow_iff_range.2 h))

/-- The number of free nodes in the lowest row of the tree of height `k` below `n`. -/
def freeLeaves (f : Nat → BlockNode) : Nat → Nat → Nat
  | 0, n => if isBlockNodeFree (f n) then 1 else 0
  | k + 1, n => freeLeaves f k (2 * n + 1) + freeLeaves f k (2 * n + 2)

theorem freeLeaves_congr {f g : Nat → BlockNode} : ∀ {k n : Nat}, (∀ i, InRow k n i → f i = g i) →
    freeLeaves f k n = freeLeaves g k n
  | 0, n, h => by rw [freeLeaves, freeLeaves, h n (inRow_zero.2 rfl)]
  | k + 1, n, h => by
    rw [freeLeaves, freeLeaves, freeLeaves_congr (fun i hi => h i (inRow_succ.2 (Or.inl hi))),
      freeLeaves_congr (fun i hi => h i (inRow_succ.2 (Or.inr hi)))]

theorem countFree_row {h : KmallocHeap} : ∀ {d n : Nat},
    countFree h (firstInRow d n) (2 ^ d) = freeLeaves h.metadataNodes d n
  | 0, n => by
    simp only [countFree, firstInRow_zero, pow_zero, List.range_one, List.countP_singleton, Nat.add_zero, freeLeaves]
  | d + 1, n => by
    obtain ⟨h₁, h₂⟩ := firstInRow_children d n
    rw [freeLeaves, ← countFree_row, ← countFree_row, h₁, h₂, pow_succ, Nat.mul_two]
    simp only [countFree, List.range_add, List.countP_append, List.countP_map]
    congr 2
    funext i
    simp [Nat.add_assoc]

/-- The rows from `d` on: free afterwards, with no new bits, and nothing else has changed. -/
structure ClearedFrom (d k n : Nat) (f g : Nat → BlockNode) : Prop extends Writes k n f g where
  clean : ∀ e i, d ≤ e → e ≤ k → InRow e n i → isBlockNodeFree (g i) = true
  above : ∀ e i, e < d → InRow e n i → g i = f i

theorem half_lt_two_pow (k : Nat) : 2 ^ k >>> 1 < 2 ^ k := by
  rw [Nat.shiftRight_eq_div_pow]
  exact Nat.div_lt_self (by positivity) (by norm_num)

theorem coalesceRows_spec {n : Nat} : ∀ {k d : Nat} {h : KmallocHeap} (fuel acc : Nat), h.minBlockSize = 2 ^ m →
    (∀ i, Below (d + k) n i → i < h.metadataSize) → k + 1 < fuel →
    ∃ f, coalesceRows fuel h (2 ^ (m + k)) (firstInRow d n) (2 ^ d) acc =
        some (h.withNodes f, acc + freeLeaves h.metadataNodes (d + k) n * 2 ^ m) ∧
      ClearedFrom d (d + k) n h.metadataNodes f
  | 0, d, h, fuel + 2, acc, hmin, hin, _ => by
    obtain ⟨g, hg, hrow, hout⟩ := mapRow_row (h := h) (d := d) (n := n)
      (fun i hi => hin i (below_iff_inRow.2 ⟨d, by omega, hi⟩)) BlockNode.clear
    refine ⟨g, ?_, ⟨⟨fun i hi => hout i (fun hr => hi (below_iff_inRow.2 ⟨d, by omega, hr⟩)), ?_, ?_⟩, ?_, ?_⟩⟩
    · rw [coalesceRows]
      simp only [Nat.add_zero, hmin, lt_irrefl, ↓reduceIte, hg, Option.bind_eq_bind, Option.bind_some]
      rw [coalesceRows, if_pos (by rw [show (h.withNodes g).minBlockSize = h.minBlockSize from rfl, hmin]
                                   exact half_lt_two_pow m), countFree_row]
    · intro i hi
      by_cases hr : InRow d n i
      · rw [hrow i hr] at hi; exact hi
      · rwa [hout i hr] at hi
    · intro i hi
      by_cases hr : InRow d n i
      · rw [hrow i hr] at hi; exact hi
      · rwa [hout i hr] at hi
    · intro e i h₁ h₂ hr
      rw [show e = d by omega] at hr
      rw [hrow i hr]; exact isBlockNodeFree_clear _
    · intro e i he hr
      exact hout i (fun h' => by have := hr.unique h'; omega)
  | k + 1, d, h, fuel + 1, acc, hmin, hin, hfuel => by
    have hlt : 2 ^ m < 2 ^ (m + (k + 1)) := Nat.pow_lt_pow_right (by omega) (by omega)
    set p : BlockNode → BlockNode :=
      if 2 ^ (m + (k + 1)) ≠ h.allocBlockSize then fun _ => newNode else BlockNode.clear with hp
    have hpf : ∀ b, isBlockNodeFree (p b) = true := by intro b; rw [hp]; split <;> rfl
    have hpa : ∀ b, (p b).allocated = true → b.allocated = true := by
      intro b; rw [hp]; split <;> simp [newNode, BlockNode.clear]
    have hpb : ∀ b, (p b).allocFailed = true → b.allocFailed = true := by
      intro b; rw [hp]; split <;> simp [newNode, BlockNode.clear]
    obtain ⟨g, hg, hrow, hout⟩ := mapRow_row (h := h) (d := d) (n := n)
      (fun i hi => hin i (below_iff_inRow.2 ⟨d, by omega, hi⟩)) p
    rw [show d + (k + 1) = d + 1 + k by omega] at hin ⊢
    obtain ⟨f, hf, hcl⟩ := coalesceRows_spec (h := h.withNodes g) fuel acc hmin hin (by omega)
    have hleaf : freeLeaves g (d + 1 + k) n = freeLeaves h.metadataNodes (d + 1 + k) n :=
      freeLeaves_congr (fun i hi => hout i (fun h' => by have := hi.unique h'; omega))
    refine ⟨f, ?_, ⟨⟨fun i hi => ?_, ?_, ?_⟩, ?_, ?_⟩⟩
    · rw [coalesceRows, hmin, if_neg (by omega), if_pos (by omega), ← hp, hg, Option.bind_eq_bind, Option.bind_some,
        ← Nat.add_assoc, half_two_pow, nodeLeft, ← firstInRow_succ, twice_two_pow, hf, KmallocHeap.withNodes_nodes,
        hleaf]
      rfl
    · rw [hcl.outside i hi]
      exact hout i (fun hr => hi (below_iff_inRow.2 ⟨d, by omega, hr⟩))
    · intro i hi
      have hi := hcl.allocated i hi
      by_cases hr : InRow d n i
      · rw [KmallocHeap.withNodes_nodes, hrow i hr] at hi; exact hpa _ hi
      · rwa [KmallocHeap.withNodes_nodes, hout i hr] at hi
    · intro i hi
      have hi := hcl.allocFailed i hi
      by_cases hr : InRow d n i
      · rw [KmallocHeap.withNodes_nodes, hrow i hr] at hi; exact hpb _ hi
      · rwa [KmallocHeap.withNodes_nodes, hout i hr] at hi
    · intro e i h₁ h₂ hr
      by_cases he : e = d
      · subst he
        rw [hcl.above e i (by omega) hr, KmallocHeap.withNodes_nodes, hrow i hr]
        exact hpf _
      · exact hcl.clean e i (by omega) h₂ hr
    · intro e i he hr
      rw [hcl.above e i (by omega) hr]
      exact hout i (fun h' => by have := hr.unique h'; omega)

/-! ## Allocation blocks -/

/-- `i` is the node of an allocation block (level `A`) that meets the hole of `c`, of level `j`. -/
def AllocNode (A j : Nat) (c : Ctx) (i : Nat) : Prop :=
  if A ≤ j then InRow (j - A) (node 0 c) i else i = node 0 (c.drop (A - j))

theorem pos_drop : ∀ (e : Nat) (c : Ctx), pos (c.drop e) = pos c / 2 ^ e
  | 0, c => by simp
  | e + 1, [] => by simp [pos]
  | e + 1, fr :: c => by
    have hb := fr.1.toNat_le
    rw [List.drop_succ_cons, pos_drop e c, pos, pow_succ, Nat.mul_comm (2 ^ e) 2, ← Nat.div_div_eq_div_mul]
    congr 1
    omega

theorem blocks_pred (s e : Nat) : (2 ^ (s + e) - 1) >>> s = 2 ^ e - 1 := by
  have h₁ : 0 < 2 ^ s := by positivity
  have h₂ : 0 < 2 ^ e := by positivity
  have e₁ : 2 ^ (s + e) - 1 = 2 ^ s - 1 + 2 ^ s * (2 ^ e - 1) := by
    obtain ⟨y, hy⟩ : ∃ y, 2 ^ e = y + 1 := ⟨2 ^ e - 1, by omega⟩
    rw [pow_add, hy, Nat.mul_add, Nat.add_sub_cancel]
    omega
  rw [Nat.shiftRight_eq_div_pow, e₁, Nat.add_mul_div_left _ _ h₁, Nat.div_eq_of_lt (by omega), Nat.zero_add]

theorem allocRange {h : KmallocHeap} {c : Ctx} {A : Nat} (sh : Shape h m K (some A)) (hK : j + c.length = K) :
    ∃ q, (h.vaddr + 2 ^ m * Ctx.off j c) / 2 ^ (m + A) * 2 ^ (m + A) = h.vaddr + 2 ^ (m + A) * q ∧
      ∀ i, (firstInRow (K - A) 0 + q ≤ i ∧ i < firstInRow (K - A) 0 + q + (1 + (2 ^ (m + j) - 1) >>> (m + A))) ↔
        AllocNode A j c i := by
  obtain ⟨_, _, _, hAK, w, hw⟩ := sh.paged A rfl
  have hnode := node_eq c
  have hX : 0 < 2 ^ (m + A) := by positivity
  rw [off_eq]
  by_cases hA : A ≤ j
  · refine ⟨pos c * 2 ^ (j - A), ?_, fun i => ?_⟩
    · have e : 2 ^ m * (pos c * 2 ^ j) = 2 ^ (m + A) * (pos c * 2 ^ (j - A)) := by
        rw [show j = A + (j - A) by omega, pow_add, pow_add, show A + (j - A) - A = j - A by omega]; ring
      rw [e, hw, ← Nat.mul_add, Nat.mul_div_cancel_left _ hX, Nat.mul_comm]
    · have hrow := firstInRow_add_one (j - A) (node 0 c)
      have hrow' := firstInRow_add_one (K - A) 0
      have e : (node 0 c + 1) * 2 ^ (j - A) = 2 ^ (K - A) + pos c * 2 ^ (j - A) := by
        rw [hnode, Nat.add_mul, ← pow_add, show c.length + (j - A) = K - A by omega]
      have hpos : 0 < 2 ^ (j - A) := by positivity
      rw [AllocNode, if_pos hA, inRow_iff_range, show m + j = m + A + (j - A) by omega, blocks_pred]
      omega
  · refine ⟨pos c / 2 ^ (A - j), ?_, fun i => ?_⟩
    · have e : 2 ^ m * (pos c * 2 ^ j) = 2 ^ (m + j) * pos c := by rw [pow_add]; ring
      have e' : 2 ^ (m + A) = 2 ^ (m + j) * 2 ^ (A - j) := by rw [← pow_add]; congr 1; omega
      rw [e, hw, Nat.mul_add_div hX, e', Nat.mul_div_mul_left _ _ (by positivity), ← e', Nat.add_mul,
        Nat.mul_comm w, Nat.mul_comm (pos c / _)]
    · have hlen := node_eq (c.drop (A - j))
      have hrow' := firstInRow_add_one (K - A) 0
      have hcount : (2 ^ (m + j) - 1) >>> (m + A) = 0 := by
        rw [Nat.shiftRight_eq_div_pow, Nat.div_eq_of_lt]
        have : 2 ^ (m + j) ≤ 2 ^ (m + A) := Nat.pow_le_pow_right (by omega) (by omega)
        have : 0 < 2 ^ (m + j) := by positivity
        omega
      rw [List.length_drop, pos_drop, show c.length - (A - j) = K - A by omega] at hlen
      rw [AllocNode, if_neg hA, hcount]
      omega

/-- What the last loop of `internal_kfree` does to the node of an allocation block. -/
def BlockNode.release (b : BlockNode) : BlockNode :=
  if b.allocated then newNode else if b.allocFailed then { b with allocFailed := false } else b

theorem release_free {b : BlockNode} (h : isBlockNodeFree b = true ∨ b.split = false ∧ b.allocated = true) :
    isBlockNodeFree b.release = true := by
  unfold BlockNode.release
  split
  · rfl
  · rename_i ha
    rcases h with h | h
    · split
      · rw [isBlockNodeFree_iff] at h ⊢; exact h
      · exact h
    · exact absurd h.2 ha

theorem release_bits (b : BlockNode) : (b.release.allocated = true → b.allocated = true) ∧
    (b.release.allocFailed = true → b.allocFailed = true) := by
  unfold BlockNode.release
  split
  · simp [newNode]
  · split <;> simp

theorem AllocNode.below {A : Nat} {c : Ctx} {i : Nat} (hK : j + c.length = K) (hA : A ≤ K) (h : AllocNode A j c i) :
    Below K 0 i := by
  unfold AllocNode at h
  split at h
  · exact hK ▸ below_node (below_iff_inRow.2 ⟨j - A, by omega, h⟩)
  · have := below_node (r := 0) (c := c.drop (A - j)) (Below.self A _)
    rw [List.length_drop, show A + (c.length - (A - j)) = K by omega] at this
    rw [h]; exact this

theorem node_drop_mem : ∀ {c : Ctx} {e : Nat}, 0 < e → e ≤ c.length → node 0 (c.drop e) ∈ ancestors 0 c
  | [], _, h, h' => absurd h' (by simp; omega)
  | _ :: _, 1, _, _ => List.mem_cons_self
  | _ :: _, e + 2, _, h => List.mem_cons_of_mem _ (node_drop_mem (by omega) (by simp at h; omega))

theorem AllocNode.near {A : Nat} {c : Ctx} {i : Nat} (hK : j + c.length = K) (hA : A ≤ K) (h : AllocNode A j c i)
    (hi : ¬Below j (node 0 c) i) (ha : i ∉ ancestors 0 c) : False := by
  unfold AllocNode at h
  split at h
  · exact hi (below_iff_inRow.2 ⟨j - A, by omega, h⟩)
  · exact ha (h ▸ node_drop_mem (by omega) (by omega))

/-! ## Freeing a block -/

variable [Machine]

/-- **`internal_kmalloc_coalesce_block`** turns a split block into a block in use, and returns the size of what was free
in its lowest row. -/
theorem coalesceBlock_spec {h : KmallocHeap} {c : Ctx} (sh : Shape h m K a) (hK : j + c.length = K) :
    ∃ f, internalKmallocCoalesceBlock h (h.vaddr + 2 ^ m * Ctx.off j c) (2 ^ (m + j)) =
        some (h.withNodes f, freeLeaves h.metadataNodes j (node 0 c) * 2 ^ m) ∧
      Writes j (node 0 c) h.metadataNodes f ∧ (f (node 0 c)).full = true ∧ (f (node 0 c)).split = false ∧
      ∀ i, Below j (node 0 c) i → i ≠ node 0 c → isBlockNodeFree (f i) = true := by
  have hin : ∀ i, Below j (node 0 c) i → i < h.metadataSize := fun i hi => sh.lt_of_below (hK ▸ below_node hi)
  obtain ⟨f, hf, hcl⟩ := coalesceRows_spec (n := node 0 c) (k := j) (d := 0)
    (h.heapDataSizeLog2 + 2) 0 sh.minBlockSize (by simpa using hin) (by rw [sh.log2]; omega)
  simp only [firstInRow_zero, pow_zero, Nat.zero_add] at hf hcl
  have hclean : ∀ i, Below j (node 0 c) i → isBlockNodeFree (f i) = true := by
    intro i hi
    obtain ⟨d, hd, hr⟩ := below_iff_inRow.1 hi
    exact hcl.clean d i (Nat.zero_le _) hd hr
  have hn := Below.self j (node 0 c)
  refine ⟨Function.update f (node 0 c) { f (node 0 c) with full := true }, ?_,
    hcl.toWrites.trans (Writes.update hn id id), by simp, ?_, fun i hi hne => ?_⟩
  · rw [internalKmallocCoalesceBlock]
    simp only [ptrToNode_off sh hK, hf, Option.bind_eq_bind, Option.bind_some,
      KmallocHeap.modifyNode_withNodes (hin _ hn)]
    rfl
  · simpa using (isBlockNodeFree_iff.1 (hclean _ hn)).2
  · rw [Function.update_of_ne hne]; exact hclean i hi

theorem ptrToNode_row {h : KmallocHeap} {A : Nat} (sh : Shape h m K a) (hA : A ≤ K) (q : Nat) :
    ptrToNode h (h.vaddr + 2 ^ (m + A) * q) (2 ^ (m + A)) = firstInRow (K - A) 0 + q := by
  have hs := sh.small
  simp only [ptrToNode, log2ForPowerOf2_two_pow (show m + A < 32 by omega), sh.log2]
  rw [Nat.add_sub_cancel_left, Nat.shiftRight_eq_div_pow, Nat.mul_div_cancel_left _ (by positivity),
    show m + K - (m + A) = K - A by omega, firstInRow, Nat.zero_add, Nat.one_mul]

theorem freeAllocBlocks_succ {h : KmallocHeap} (va count : Nat)
    (hn : ptrToNode h va h.allocBlockSize < h.metadataSize) :
    ∃ ev, freeAllocBlocks (count + 1) h va = freeAllocBlocks count { h.withNodes (Function.update h.metadataNodes
      (ptrToNode h va h.allocBlockSize) (h.metadataNodes (ptrToNode h va h.allocBlockSize)).release) with
      vmEvents := ev } (va + h.allocBlockSize) := by
  rw [freeAllocBlocks]
  simp only [KmallocHeap.node?_eq hn, Option.bind_eq_bind, Option.bind_some, BlockNode.release]
  by_cases ha : (h.metadataNodes (ptrToNode h va h.allocBlockSize)).allocated = true
  · simp only [ha, ↓reduceIte, KmallocHeap.setNode, hn, Option.bind_some]
    exact ⟨_, rfl⟩
  · refine ⟨h.vmEvents, ?_⟩
    by_cases hf : (h.metadataNodes (ptrToNode h va h.allocBlockSize)).allocFailed = true
    · simp only [ha, hf, ↓reduceIte, KmallocHeap.setNode, hn, Option.bind_some, Bool.false_eq_true]
      rfl
    · simp only [ha, hf, ↓reduceIte, Bool.false_eq_true, Function.update_eq_self]
      rfl

omit [Machine] in
theorem update_range {α : Type*} (F : α → α) {f g : Nat → α} {p count : Nat}
    (hg : ∀ i, p + 1 ≤ i ∧ i < p + 1 + count → g i = F (Function.update f p (F (f p)) i))
    (hout : ∀ i, ¬(p + 1 ≤ i ∧ i < p + 1 + count) → g i = Function.update f p (F (f p)) i) :
    (∀ i, p ≤ i ∧ i < p + (count + 1) → g i = F (f i)) ∧ ∀ i, ¬(p ≤ i ∧ i < p + (count + 1)) → g i = f i := by
  refine ⟨fun i hi => ?_, fun i hi => ?_⟩
  · by_cases e : i = p
    · rw [hout i (by omega), e, Function.update_self]
    · rw [hg i (by omega), Function.update_of_ne e]
  · rw [hout i (by omega), Function.update_of_ne (by omega)]

theorem freeAllocBlocks_spec {A : Nat} : ∀ (count q : Nat) {h : KmallocHeap}, Shape h m K (some A) →
    firstInRow (K - A) 0 + q + count ≤ h.metadataSize →
    ∃ g ev, freeAllocBlocks count h (h.vaddr + 2 ^ (m + A) * q) = some { h.withNodes g with vmEvents := ev } ∧
      (∀ i, firstInRow (K - A) 0 + q ≤ i ∧ i < firstInRow (K - A) 0 + q + count → g i = (h.metadataNodes i).release) ∧
      ∀ i, ¬(firstInRow (K - A) 0 + q ≤ i ∧ i < firstInRow (K - A) 0 + q + count) → g i = h.metadataNodes i
  | 0, q, h, _, _ => ⟨h.metadataNodes, h.vmEvents, rfl, fun i hi => by omega, fun _ _ => rfl⟩
  | count + 1, q, h, sh, hin => by
    obtain ⟨_, hab, _, hAK, _⟩ := sh.paged A rfl
    have hn : ptrToNode h (h.vaddr + 2 ^ (m + A) * q) h.allocBlockSize = firstInRow (K - A) 0 + q := by
      rw [hab, ptrToNode_row sh hAK]
    obtain ⟨ev, he⟩ := freeAllocBlocks_succ (h := h) (h.vaddr + 2 ^ (m + A) * q) count
      (by rw [hn]; omega)
    rw [hn] at he
    set f := Function.update h.metadataNodes (firstInRow (K - A) 0 + q)
      (h.metadataNodes (firstInRow (K - A) 0 + q)).release with hf
    obtain ⟨g, ev', hrun, hg, hout⟩ := freeAllocBlocks_spec count (q + 1)
      (h := { h.withNodes f with vmEvents := ev }) (sh.of_same ⟨rfl, rfl, rfl, rfl, rfl, rfl, rfl, rfl, rfl, rfl⟩)
      (by simp; omega)
    refine ⟨g, ev', ?_, update_range BlockNode.release hg hout⟩
    rw [he, hab, Nat.add_assoc, ← Nat.mul_succ]
    exact hrun

theorem internalKfree_eq {h h₁ : KmallocHeap} {ptr size corr : Nat} {allowSplit doActualFree : Bool}
    (hn : ptrToNode h ptr size < h.metadataSize)
    (hco : (if allowSplit && (h.metadataNodes (ptrToNode h ptr size)).split then
      internalKmallocCoalesceBlock h ptr size else some (h, 0)) = some (h₁, corr)) :
    internalKfree h ptr size allowSplit doActualFree =
      (setFreeUplevels { h₁ with memAllocated := subWord h₁.memAllocated (size - corr) } (ptrToNode h ptr size) size).bind
        fun r => if r.2.2 < r.1.allocBlockSize then some r.1
          else if r.1.linearMapping || !doActualFree then some r.1
          else freeAllocBlocks (1 + (size - 1) >>> r.1.allocBlockSizeLog2) r.1
            (ptr / r.1.allocBlockSize * r.1.allocBlockSize) := by
  rw [internalKfree, KmallocHeap.node?_eq hn]
  simp only [Option.bind_eq_bind, Option.bind_some]
  by_cases hs : (allowSplit && (h.metadataNodes (ptrToNode h ptr size)).split) = true
  · rw [if_pos hs] at hco
    rw [if_pos hs, hco]
    rfl
  · rw [if_neg hs] at hco
    cases hco
    rw [if_neg hs]
    rfl

/-- The end of `internal_kfree`: a block that is free now is closed once its allocation blocks are released. -/
theorem releaseBlocks_spec {h : KmallocHeap} {c : Ctx} {d : Nat} (doActualFree : Bool) (sh : Shape h m K a)
    (hK : j + c.length = K) (hclo : Closed a h.metadataNodes c j) (hdim : Dim a h.metadataNodes j (node 0 c))
    (hfr : ∀ e, e ≤ d → e ≤ c.length → isBlockNodeFree (h.metadataNodes (node 0 (c.drop e))) = true)
    (hact : doActualFree = false → a ≠ none →
      ∀ i, Below j (node 0 c) i → i ≠ node 0 c → (h.metadataNodes i).full = false) :
    ∃ h', (if 2 ^ (m + (j + d)) < h.allocBlockSize then some h
        else if h.linearMapping || !doActualFree then some h
        else freeAllocBlocks (1 + (2 ^ (m + j) - 1) >>> h.allocBlockSizeLog2) h
          ((h.vaddr + 2 ^ m * Ctx.off j c) / h.allocBlockSize * h.allocBlockSize)) = some h' ∧
      Same h h' ∧ h'.memAllocated = h.memAllocated ∧ h'.vallocCalls = h.vallocCalls ∧
      Writes K 0 h.metadataNodes h'.metadataNodes ∧ Near c j h.metadataNodes h'.metadataNodes ∧
      Rep a h'.metadataNodes K 0 (close c .free) := by
  have hn : isBlockNodeFree (h.metadataNodes (node 0 c)) = true := hfr 0 (Nat.zero_le _) (Nat.zero_le _)
  have hclean : (∀ i, Below j (node 0 c) i → i ≠ node 0 c → (h.metadataNodes i).full = false) →
      Rep a h.metadataNodes K 0 (close c .free) := by
    intro hf
    rw [← hK]
    refine hclo _ (fun _ _ => rfl) (fun i hi => ?_)
    by_cases e : i = node 0 c
    · rw [e]; exact hn
    · exact isBlockNodeFree_iff.2 ⟨hf i hi e, (hdim i hi e).1⟩
  -- nothing is full below a block that is smaller than an allocation block
  have hsmall : (∀ A, a = some A → j ≤ A) → Rep a h.metadataNodes K 0 (close c .free) := by
    intro hA
    refine hclean (fun i hi hne => ?_)
    by_contra hf
    obtain ⟨_, A, hlt, ha, _⟩ := (hdim i hi hne).2 (by simpa using hf)
    have := hA A ha
    omega
  cases a with
  | none =>
    obtain ⟨hl, hab⟩ := sh.linear rfl
    refine ⟨h, ?_, Same.refl h, rfl, rfl, Writes.refl _ _ _, fun _ _ _ => rfl, hsmall (fun A hA => by cases hA)⟩
    rw [hab, if_neg (Nat.not_lt_zero _), hl]
    rfl
  | some A =>
    obtain ⟨hl, hab, hal, hAK, _⟩ := sh.paged A rfl
    rw [hl, hab, hal, Bool.false_or]
    by_cases hlt : 2 ^ (m + (j + d)) < 2 ^ (m + A)
    · have := (Nat.pow_lt_pow_iff_right (by omega : 1 < 2)).1 hlt
      exact ⟨h, if_pos hlt, Same.refl h, rfl, rfl, Writes.refl _ _ _, fun _ _ _ => rfl, hsmall (fun A' hA => by cases hA; omega)⟩
    rw [if_neg hlt]
    cases hd : doActualFree with
    | false => exact ⟨h, rfl, Same.refl h, rfl, rfl, Writes.refl _ _ _, fun _ _ _ => rfl, hclean (hact hd (by simp))⟩
    | true =>
      have hAd : A ≤ j + d := by
        by_contra hc
        exact hlt (Nat.pow_lt_pow_right (by omega) (by omega))
      obtain ⟨q, hq, hrange⟩ := allocRange sh hK
      set count := 1 + (2 ^ (m + j) - 1) >>> (m + A) with hcount
      have hpos : 1 ≤ count := Nat.le_add_right _ _
      obtain ⟨g, ev, hrun, hin, hout⟩ := freeAllocBlocks_spec count q sh (by
        have := sh.lt_of_below (((hrange (firstInRow (K - A) 0 + q + count - 1)).1 (by omega)).below hK hAK)
        omega)
      simp only [hrange] at hin hout
      refine ⟨{ h.withNodes g with vmEvents := ev }, by rw [hq]; exact hrun,
        ⟨rfl, rfl, rfl, rfl, rfl, rfl, rfl, rfl, rfl, rfl⟩, rfl, rfl,
        ⟨fun i hi => hout i (fun ha => hi (ha.below hK hAK)), fun i hi => ?_, fun i hi => ?_⟩,
        fun i hi ha => hout i (fun h' => h'.near hK hAK hi ha), ?_⟩
      · by_cases e : AllocNode A j c i
        · exact (release_bits _).1 (hin i e ▸ hi)
        · exact hout i e ▸ hi
      · by_cases e : AllocNode A j c i
        · exact (release_bits _).2 (hin i e ▸ hi)
        · exact hout i e ▸ hi
      · by_cases hA : A ≤ j
        · -- the allocation blocks are below the hole, and nothing else is full there
          have hrow : ∀ i, AllocNode A j c i ↔ InRow (j - A) (node 0 c) i := fun i => by rw [AllocNode, if_pos hA]
          rw [← hK]
          refine hclo g (fun i hi => hout i (fun ha => hi ?_)) (fun i hi => ?_)
          · exact below_iff_inRow.2 ⟨j - A, by omega, (hrow i).1 ha⟩
          · by_cases hne : i = node 0 c
            · subst hne
              by_cases e : AllocNode A j c (node 0 c)
              · rw [hin _ e]; exact release_free (Or.inl hn)
              · rw [hout _ e]; exact hn
            · obtain ⟨d₁, d₂⟩ := hdim i hi hne
              cases hfull : (h.metadataNodes i).full with
              | true =>
                obtain ⟨hal', A', _, hA', hr⟩ := d₂ hfull
                cases hA'
                rw [hin i ((hrow i).2 hr)]
                exact release_free (Or.inr ⟨d₁, hal'⟩)
              | false =>
                have hfi := isBlockNodeFree_iff.2 ⟨hfull, d₁⟩
                by_cases e : AllocNode A j c i
                · rw [hin i e]; exact release_free (Or.inl hfi)
                · rw [hout i e]; exact hfi
        · -- the allocation block around the hole is free already
          refine (hsmall (fun A' hA' => by cases hA'; omega)).congr_bits (fun i _ => ?_)
          by_cases e : AllocNode A j c i
          · have e' : i = node 0 (c.drop (A - j)) := by rwa [AllocNode, if_neg hA] at e
            have hfi := hfr (A - j) (by omega) (by omega)
            rw [← e'] at hfi
            have hgi := isBlockNodeFree_iff.1 (release_free (Or.inl hfi))
            rw [isBlockNodeFree_iff] at hfi
            simp only [KmallocHeap.withNodes_nodes, hin i e]
            exact ⟨hgi.2.trans hfi.2.symm, hgi.1.trans hfi.1.symm, fun hf => by rw [hfi.1] at hf; cases hf⟩
          · simp only [KmallocHeap.withNodes_nodes, hout i e]
            exact ⟨trivial, trivial, fun _ h => h⟩

/-- **`internal_kfree`** empties the hole of a context: the tree becomes the coalesced one. The counter goes down by the
size of the block, but for what was free in the lowest row of a block that is split. -/
theorem internalKfree_spec {h : KmallocHeap} {c : Ctx} {v : Buddy} (allowSplit doActualFree : Bool) (sh : Shape h m K a)
    (hK : j + c.length = K) (hctx : RepCtx a h.metadataNodes 0 c j v) (hrep : Rep a h.metadataNodes j (node 0 c) v)
    (hv : v = .used ∨ allowSplit = true ∧ v ≠ .free)
    (hact : doActualFree = false → a ≠ none → v = .used →
      ∀ i, Below j (node 0 c) i → i ≠ node 0 c → (h.metadataNodes i).full = false) :
    ∃ h', internalKfree h (h.vaddr + 2 ^ m * Ctx.off j c) (2 ^ (m + j)) allowSplit doActualFree = some h' ∧
      Same h h' ∧ h'.memAllocated = subWord h.memAllocated (2 ^ (m + j) -
        if v = .used then 0 else freeLeaves h.metadataNodes j (node 0 c) * 2 ^ m) ∧
      h'.vallocCalls = h.vallocCalls ∧ Writes K 0 h.metadataNodes h'.metadataNodes ∧
      Near c j h.metadataNodes h'.metadataNodes ∧ Rep a h'.metadataNodes K 0 (close c .free) := by
  have hin : ∀ i, Below j (node 0 c) i → i < h.metadataSize := fun i hi => sh.lt_of_below (hK ▸ below_node hi)
  have hnode := ptrToNode_off sh hK
  -- the block as it is after it has been coalesced
  obtain ⟨f, corr, hco, hcorr, hwr, hsp, hdim, hact'⟩ : ∃ f corr,
      (if allowSplit && (h.metadataNodes (node 0 c)).split then
        internalKmallocCoalesceBlock h (h.vaddr + 2 ^ m * Ctx.off j c) (2 ^ (m + j)) else some (h, 0)) =
        some (h.withNodes f, corr) ∧
      corr = (if v = .used then 0 else freeLeaves h.metadataNodes j (node 0 c) * 2 ^ m) ∧
      Writes j (node 0 c) h.metadataNodes f ∧ (f (node 0 c)).split = false ∧ Dim a f j (node 0 c) ∧
      (doActualFree = false → a ≠ none → ∀ i, Below j (node 0 c) i → i ≠ node 0 c → (f i).full = false) := by
    by_cases hu : v = .used
    · subst hu
      obtain ⟨_, h₂, h₃⟩ := Rep.used_iff.1 hrep
      exact ⟨h.metadataNodes, 0, by rw [h₂, Bool.and_false, if_neg Bool.false_ne_true]; rfl, by rw [if_pos rfl],
        Writes.refl _ _ _, h₂, h₃, fun h₁ h₂ => hact h₁ h₂ rfl⟩
    · obtain ⟨hal, hfree⟩ := hv.resolve_left hu
      have hs : (h.metadataNodes (node 0 c)).split = true := by
        cases v with
        | free => exact absurd rfl hfree
        | used => exact absurd rfl hu
        | split l r => exact hrep.split_bit.2 ⟨l, r, rfl⟩
      obtain ⟨f, hf, hwr, _, h₂, h₃⟩ := coalesceBlock_spec sh hK
      exact ⟨f, _, by rw [hal, hs, Bool.and_self, if_pos rfl, hf], by rw [if_neg hu], hwr, h₂, Clean.dim h₃,
        fun _ _ i hi hne => (isBlockNodeFree_iff.1 (h₃ i hi hne)).1⟩
  set h₁ : KmallocHeap := { h.withNodes f with memAllocated := subWord h.memAllocated (2 ^ (m + j) - corr) } with hh₁
  have same₁ : Same h h₁ := ⟨rfl, rfl, rfl, rfl, rfl, rfl, rfl, rfl, rfl, rfl⟩
  obtain ⟨nd, d, f', nb, hset, hat, hwr', hnear, hclo, hfr⟩ := setFreeUplevels_spec (sh.of_same same₁) hK
    (hctx.congr (fun i hi => (hwr.outside i hi).symm)) hsp
  set h₂ : KmallocHeap := { h₁.withNodes f' with nodeBefore := nb } with hh₂
  have same₂ : Same h₁ h₂ := ⟨rfl, rfl, rfl, rfl, rfl, rfl, rfl, rfl, rfl, rfl⟩
  have hbelow : ∀ i, Below j (node 0 c) i → i ≠ node 0 c → f' i = f i := fun i hi hne => by
    rw [hat i hi, Function.update_of_ne hne]; rfl
  obtain ⟨h', hrun, same₃, hmem, hcalls, hwr'', hnear', hrep'⟩ := releaseBlocks_spec doActualFree
    (sh.of_same (same₁.trans same₂)) hK hclo (fun i hi hne => by
      show (f' i).split = false ∧ ((f' i).full = true → (f' i).allocated = true ∧ _)
      rw [hbelow i hi hne]; exact hdim i hi hne) hfr
    (fun h₁ h₂ i hi hne => by show (f' i).full = false; rw [hbelow i hi hne]; exact hact' h₁ h₂ i hi hne)
  refine ⟨h', ?_, (same₁.trans same₂).trans same₃, by rw [hmem, ← hcorr]; rfl, hcalls, ?_,
    fun i hi ha => ?_, hrep'⟩
  · rw [internalKfree_eq (by rw [hnode]; exact hin _ (Below.self _ _)) (by rw [hnode]; exact hco), hnode]
    change (setFreeUplevels h₁ (node 0 c) (2 ^ (m + j))).bind _ = _
    rw [hset]
    exact hrun
  · exact ((hwr.mono (fun i hi => hK ▸ below_node hi)).trans hwr').trans hwr''
  · exact ((hnear' i hi ha).trans (hnear i hi ha)).trans (hwr.outside i hi)

end Usax.Kmalloc
