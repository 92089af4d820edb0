import Mathlib.Logic.Relation
import Usax.Kmalloc.Accounting
import Usax.Kmalloc.Expand

/-!
# Calls on a heap of either kind

Heaps that are linear-mapped or not, larger copies of them included, and the calls that keep them well-formed (`HeapRun`).

`HeapRun.kmalloc_null`: a call of `per_heap_kmalloc` that returns `NULL` because nothing is free leaves the heap as it was,
and one that returns `NULL` because `valloc_and_map` failed does not: the size of the block is taken off `mem_allocated`
although it was not added, and the allocation blocks that were not mapped stay full (`kmalloc_null_differs`).
`HeapRun.kmalloc_null_iff`: a linear-mapped heap returns `NULL` if and only if no block of the size is free.
-/

namespace Usax.Kmalloc

open Usax.Lib Usax.Lib.Buddy Common

variable {a : Option Nat} {m K D : Nat} {h h' : KmallocHeap} {f g : Nat → BlockNode}

/-! ## The system -/

/-- The block can be freed with the flags. -/
def CanFree (h : KmallocHeap) (flags : Nat) (b : Nat × Nat) : Prop :=
  Freeable h h.depth (if h.linearMapping then none else some 0) h.inUse (hasFlag flags flAllowSplit)
    (!hasFlag flags flNoActual) b

/-- A size that `kmalloc_heap_dup_expanded` accepts. A linear-mapped heap has its own metadata in use. -/
structure Expandable (h : KmallocHeap) (newSize : Nat) : Prop where
  pow : ∃ e < 31, newSize = 2 ^ e
  le : h.size ≤ newSize
  metadata : h.linearMapping = true → h.inUse ≠ []

theorem Shape.newSize {newSize : Nat} (sh : Shape h m K a) (he : Expandable h newSize) :
    ∃ D, newSize = 2 ^ (m + (K + D)) ∧ m + (K + D) < 31 := by
  obtain ⟨e, hlt, rfl⟩ := he.pow
  have hle := he.le
  rw [sh.size, Nat.pow_le_pow_iff_right (by omega)] at hle
  exact ⟨e - (m + K), by congr 1; omega, by omega⟩

theorem Shape.depth (sh : Shape h m K a) : h.depth = K := by
  rw [KmallocHeap.depth, sh.log2, sh.minBlockSize, Nat.log2_two_pow]
  omega

section System

variable [Machine]

/-- A free of one block, or of the blocks for the digits of a size. -/
structure KfreeLegal (h : KmallocHeap) (ptr userSize flags : Nat) : Prop where
  multi : hasFlag flags flMultiStep = true → ∃ y n, ptr = h.vaddr + h.minBlockSize * y ∧
    userSize = h.minBlockSize * n ∧ n < 2 ^ h.depth ∧ ∀ b ∈ runBlocks y n h.depth, CanFree h flags b
  one : hasFlag flags flMultiStep = false → ∃ l y, ptr = h.vaddr + h.minBlockSize * y ∧ CanFree h flags (l, y) ∧
    if userSize = 0 then (l, y) ∈ h.inUse
    else roundupNextPowerOf2 (max userSize h.minBlockSize) = h.minBlockSize * 2 ^ l

/-- The calls that keep a heap well-formed. -/
def Allowed (h : KmallocHeap) : HeapCall → Prop
  | .kmalloc size flags => KmallocLegal h size flags ∧ VallocOk h (!hasFlag flags flNoActual)
  | .kfree ptr userSize flags => KfreeLegal h ptr userSize flags

def CallStep (h h' : KmallocHeap) : Prop := ∃ c, Allowed h c ∧ h.call c = some h'

/-- The heaps that are reached by such calls and by copying them to a larger size. What `valloc_and_map` returns can change
at any time. -/
inductive HeapRun : KmallocHeap → Prop
  | create (a : Option Nat) {m K vaddr : Nat} (nodeBefore : BlockNode) (valloc : Nat → Bool) (small : m + K < 31)
      (aligned : ∀ A, a = some A → A ≤ K ∧ 2 ^ (m + A) ∣ vaddr) :
      HeapRun (kmallocCreateHeap vaddr (2 ^ (m + K)) (2 ^ m) (a.elim 0 (fun A => 2 ^ (m + A))) a.isNone nodeBefore valloc)
  | call {h h' : KmallocHeap} : HeapRun h → CallStep h h' → HeapRun h'
  | expand {h h' : KmallocHeap} {newSize : Nat} (nodeBefore : BlockNode) : HeapRun h → Expandable h newSize →
      kmallocHeapDupExpanded h newSize nodeBefore = some h' → HeapRun h'
  | valloc {h : KmallocHeap} (valloc : Nat → Bool) : HeapRun h → HeapRun { h with vallocAndMap := valloc }

/-- A well-formed heap whose counter is a machine word. -/
structure Kept (h : KmallocHeap) (m K : Nat) (a : Option Nat) : Prop where
  owns : Owns h m K a h.inUse
  counter : h.memAllocated < 2 ^ Machine.nbits

/-! ## Every run keeps the heap well-formed -/

theorem Kept.of_owns {ps : List (Nat × Nat)} (ho : Owns h m K a ps) (hc : h.memAllocated < 2 ^ Machine.nbits) :
    Kept h m K a :=
  ⟨ho.perm ho.inUse.symm, hc⟩

theorem Kept.freeable {flags : Nat} {b : Nat × Nat} (hk : Kept h m K a) (hb : CanFree h flags b) :
    Freeable h K a h.inUse (hasFlag flags flAllowSplit) (!hasFlag flags flNoActual) b := by
  unfold CanFree at hb
  rw [hk.owns.depth] at hb
  refine ⟨hb.block, hb.inUse, hb.whole, fun h₁ h₂ => hb.unmarked h₁ ?_⟩
  cases a with
  | none => exact absurd rfl h₂
  | some A => simp [(hk.owns.shape.paged A rfl).1]

/-- **One call**: it does not fail, and the heap stays well-formed. -/
theorem Kept.step (hk : Kept h m K a) {c : HeapCall} (hc : Allowed h c) : ∃ h', h.call c = some h' ∧ Kept h' m K a := by
  have hmin := hk.owns.shape.minBlockSize
  cases c with
  | kmalloc size flags =>
    obtain ⟨sub, hargs⟩ := hc.1.args hmin
    rcases perHeapKmalloc_owns hk.owns hargs hc.2 with
      ⟨-, hrun⟩ | ⟨k, -, -, ⟨-, sz, -, -, hrun⟩ | ⟨h', y, n, hrun, -, -, -, hal⟩⟩
    · exact ⟨h, by rw [KmallocHeap.call, hrun]; rfl, hk⟩
    · exact ⟨h, by rw [KmallocHeap.call, hrun]; rfl, hk⟩
    · exact ⟨h', by rw [KmallocHeap.call, hrun]; rfl, .of_owns hal.owns (hal.grows.lt hk.counter)⟩
  | kfree ptr userSize flags =>
    by_cases hf : hasFlag flags flMultiStep = true
    · obtain ⟨y, n, rfl, rfl, hn, hb⟩ := hc.multi hf
      rw [hk.owns.depth] at hn hb
      obtain ⟨h', hrun, ho, -, hsh⟩ := perHeapKfree_multi hk.owns hf hn fun b hb' => hk.freeable (hb b hb')
      exact ⟨h', by rw [KmallocHeap.call, hmin, hrun]; rfl, .of_owns ho (hsh.lt hk.counter)⟩
    · have hf : hasFlag flags flMultiStep = false := Bool.eq_false_iff.2 hf
      obtain ⟨l, y, rfl, hb, hsize⟩ := hc.one hf
      rw [hmin, ← pow_add] at hsize
      have hs : SizeFor m userSize h.inUse (l, y) := by
        unfold SizeFor
        split_ifs at hsize with h₀
        · exact Or.inr ⟨h₀, hsize⟩
        · exact Or.inl ⟨h₀, hsize⟩
      obtain ⟨h', hrun, ho, -, hsh⟩ := perHeapKfree_one hk.owns hf (hk.freeable hb) hs
      exact ⟨h', by rw [KmallocHeap.call, hmin, hrun]; rfl, .of_owns ho (hsh.lt hk.counter)⟩

theorem Kept.callStep (hk : Kept h m K a) (hs : CallStep h h') : Kept h' m K a := by
  obtain ⟨c, hc, hrun⟩ := hs
  obtain ⟨h₁, hrun₁, hk₁⟩ := hk.step hc
  obtain rfl := Option.some.inj (hrun₁.symm.trans hrun)
  exact hk₁

theorem Kept.expand {newSize : Nat} (nodeBefore : BlockNode) (hk : Kept h m K a) (he : Expandable h newSize) :
    ∃ h' K', kmallocHeapDupExpanded h newSize nodeBefore = some h' ∧ Kept h' m K' a := by
  obtain ⟨D, rfl, hs⟩ := hk.owns.shape.newSize he
  obtain ⟨h', hrun, ho, -, -, hmem⟩ := dupExpanded_owns nodeBefore hk.owns hs he.metadata
  exact ⟨h', K + D, hrun, .of_owns ho (by rw [hmem]; exact hk.counter)⟩

theorem HeapRun.kept (hr : HeapRun h) : ∃ m K a, Kept h m K a := by
  induction hr with
  | create a nodeBefore valloc small aligned =>
    exact ⟨_, _, a, .of_owns (owns_create a _ nodeBefore valloc small aligned) (by positivity)⟩
  | call _ hs ih =>
    obtain ⟨m, K, a, hk⟩ := ih
    exact ⟨m, K, a, hk.callStep hs⟩
  | expand nodeBefore _ he hrun ih =>
    obtain ⟨m, K, a, hk⟩ := ih
    obtain ⟨h₁, K', hrun₁, hk₁⟩ := hk.expand nodeBefore he
    obtain rfl := Option.some.inj (hrun₁.symm.trans hrun)
    exact ⟨m, K', a, hk₁⟩
  | valloc valloc _ ih =>
    obtain ⟨m, K, a, hk⟩ := ih
    have sh := hk.owns.shape
    exact ⟨m, K, a, ⟨⟨sh.size, sh.minBlockSize, sh.log2, sh.metadataSize, sh.small, sh.linear, sh.paged⟩, hk.owns.tree⟩,
      hk.counter⟩

end System

variable [Machine]

omit [Machine] in
/-- A new heap of 16 pages. -/
def sixteenPages (valloc : Nat → Bool) : KmallocHeap :=
  kmallocCreateHeap 0x100000 (2 ^ (12 + 4)) (2 ^ 12) (2 ^ (12 + 0)) false newNode valloc

omit [Machine] in
theorem sixteenPages_aligned : ∀ A, some 0 = some A → A ≤ 4 ∧ 2 ^ (12 + A) ∣ 0x100000 := by
  rintro _ ⟨⟩
  decide

theorem heapRun_sixteenPages (valloc : Nat → Bool) : HeapRun (sixteenPages valloc) :=
  .create (some 0) newNode valloc (by norm_num) sixteenPages_aligned

/-! ## Requests that fail -/

/-- Below node `n`, of level `k`, a node of level `j` that is reached through nodes that are not full is free. -/
def freeBelow (f : Nat → BlockNode) (j : Nat) : (k n : Nat) → Bool
  | 0, n => isBlockNodeFree (f n)
  | k + 1, n =>
    !(f n).full && if k + 1 ≤ j then isBlockNodeFree (f n) else freeBelow f j k (2 * n + 1) || freeBelow f j k (2 * n + 2)

/-- There is a free block for a request. -/
def RoomFor (h : KmallocHeap) (size : Nat) : Prop := size ≤ h.size ∧
  freeBelow h.metadataNodes (Nat.log2 (max (roundupNextPowerOf2 size) h.minBlockSize) - Nat.log2 h.minBlockSize)
    h.depth 0 = true

/-- The nodes and the counter are as they were, and what was mapped in between is unmapped. The latest event comes first. -/
def Restored (h h' : KmallocHeap) : Prop := h'.metadataNodes = h.metadataNodes ∧ h'.memAllocated = h.memAllocated ∧
  ∃ ev, h'.vmEvents = ev ++ h.vmEvents ∧ ∀ l₁ l₂ va n, ev = l₁ ++ .map va n :: l₂ → .unmap va n ∈ l₁

omit [Machine] in
theorem Restored.refl (h : KmallocHeap) : Restored h h := ⟨rfl, rfl, [], rfl, fun l₁ l₂ _ _ he => by cases l₁ <;> cases he⟩

omit [Machine] in
theorem Rep.freeBelow {j : Nat} : ∀ {k n : Nat} {u : Buddy}, Rep a f k n u → freeBelow f j k n = (find j k u).isSome
  | 0, n, u, hu => by
    rw [Kmalloc.freeBelow, find, Bool.eq_iff_iff, hu.isFree_iff]
    split_ifs <;> simp_all
  | k + 1, n, u, hu => by
    rw [Kmalloc.freeBelow, find, hu.full]
    cases hfull : u.isFull with
    | true => rfl
    | false =>
      obtain ⟨hl, hr⟩ := hu.halves hfull
      have hfree := hu.isFree_iff
      rw [hl.freeBelow, hr.freeBelow, if_neg Bool.false_ne_true, Bool.not_false, Bool.true_and]
      by_cases hk : k + 1 ≤ j
      · rw [if_pos hk, if_pos hk, Bool.eq_iff_iff, hfree]
        split_ifs <;> simp_all
      · rw [if_neg hk, if_neg hk]
        cases find j k u.halves.1 <;> simp

/-- What the loops over the metadata leave alone. -/
structure Counts (h h' : KmallocHeap) : Prop where
  mem : h'.memAllocated = h.memAllocated
  min : h'.minBlockSize = h.minBlockSize

namespace Counts

variable {n : Nat} {h₁ h₂ : KmallocHeap}

omit [Machine] in
theorem trans (e : Counts h h₁) (e' : Counts h₁ h₂) : Counts h h₂ := ⟨e'.mem.trans e.mem, e'.min.trans e.min⟩

omit [Machine] in
theorem setNode {b : BlockNode} (hrun : h₁.setNode n b = some h') (e : Counts h h₁) : Counts h h' := by
  unfold KmallocHeap.setNode at hrun
  split_ifs at hrun
  cases hrun
  exact ⟨e.mem, e.min⟩

omit [Machine] in
theorem modifyNode {p : BlockNode → BlockNode} (hrun : h.modifyNode n p = some h') : Counts h h' := by
  obtain ⟨b, -, hrun⟩ := Option.bind_eq_some_iff.mp hrun
  exact setNode hrun ⟨rfl, rfl⟩

omit [Machine] in
theorem clearFullLoop : ∀ {fuel : Nat} {n : Option Nat} {h : KmallocHeap}, clearFullLoop fuel h n = some h' → Counts h h'
  | _, none, _, hrun => by
    rw [Kmalloc.clearFullLoop] at hrun
    cases hrun
    exact ⟨rfl, rfl⟩
  | 0, some _, _, hrun => by cases hrun
  | fuel + 1, some n, h, hrun => by
    obtain ⟨h₁, hset, hrun⟩ := Option.bind_eq_some_iff.mp hrun
    exact (modifyNode hset).trans (clearFullLoop hrun)

omit [Machine] in
theorem coalesceLoop : ∀ {fuel : Nat} {h : KmallocHeap} {node n size : Nat} {r : KmallocHeap × Nat × Nat × Nat},
    coalesceLoop fuel h node n size = some r → Counts h r.1
  | 0, _, _, _, _, _, hrun => by cases hrun
  | fuel + 1, h, node, n, size, r, hrun => by
    obtain ⟨b, -, hrun⟩ := Option.bind_eq_some_iff.mp hrun
    split_ifs at hrun
    · cases hrun
      exact ⟨rfl, rfl⟩
    · obtain ⟨l, -, hrun⟩ := Option.bind_eq_some_iff.mp hrun
      obtain ⟨r', -, hrun⟩ := Option.bind_eq_some_iff.mp hrun
      split_ifs at hrun
      · obtain ⟨h₁, hset, hrun⟩ := Option.bind_eq_some_iff.mp hrun
        cases hrun
        exact modifyNode hset
      · obtain ⟨h₁, hset, hrun⟩ := Option.bind_eq_some_iff.mp hrun
        split at hrun
        · cases hrun
          exact modifyNode hset
        · exact (modifyNode hset).trans (coalesceLoop hrun)

omit [Machine] in
theorem setFreeUplevels {node size : Nat} {r : KmallocHeap × Nat × Nat} (hrun : setFreeUplevels h node size = some r) :
    Counts h r.1 := by
  obtain ⟨h₁, hset, hrun⟩ := Option.bind_eq_some_iff.mp hrun
  refine (modifyNode hset).trans ?_
  split at hrun
  · split_ifs at hrun
    · cases hrun
      exact ⟨rfl, rfl⟩
    · obtain ⟨b, -, hrun⟩ := Option.bind_eq_some_iff.mp hrun
      cases hrun
      exact ⟨rfl, rfl⟩
  · obtain ⟨⟨h₂, x⟩, hloop, hrun⟩ := Option.bind_eq_some_iff.mp hrun
    obtain ⟨h₃, hclear, hrun⟩ := Option.bind_eq_some_iff.mp hrun
    cases hrun
    exact (coalesceLoop hloop).trans (clearFullLoop hclear)

theorem freeAllocBlocks : ∀ {count : Nat} {h : KmallocHeap} {va : Nat}, freeAllocBlocks count h va = some h' → Counts h h'
  | 0, _, _, hrun => by
    cases hrun
    exact ⟨rfl, rfl⟩
  | count + 1, h, va, hrun => by
    obtain ⟨b, -, hrun⟩ := Option.bind_eq_some_iff.mp hrun
    dsimp only at hrun
    split_ifs at hrun
    · obtain ⟨h₁, hset, hrun⟩ := Option.bind_eq_some_iff.mp hrun
      have e : Counts h h₁ := setNode hset ⟨rfl, rfl⟩
      exact e.trans (freeAllocBlocks hrun)
    · obtain ⟨h₁, hset, hrun⟩ := Option.bind_eq_some_iff.mp hrun
      have e : Counts h h₁ := setNode hset ⟨rfl, rfl⟩
      exact e.trans (freeAllocBlocks hrun)
    · exact freeAllocBlocks hrun

theorem allocateBlocks : ∀ {count : Nat} {h : KmallocHeap} {size va : Nat} {b : Bool} {r : KmallocHeap × Bool},
    allocateBlocks count h size va b = some r → Counts h r.1
  | 0, _, _, _, _, _, hrun => by
    cases hrun
    exact ⟨rfl, rfl⟩
  | count + 1, h, size, va, failed, r, hrun => by
    -- the node is marked as full, and the loop goes on
    have hrest : ∀ {h₁ : KmallocHeap} {n : Nat} {failed : Bool} {p : BlockNode → BlockNode}, Counts h h₁ →
        (if size ≥ h₁.allocBlockSize then (h₁.modifyNode n p).bind fun h =>
          Kmalloc.allocateBlocks count h size (va + h.allocBlockSize) failed
        else (some h₁).bind fun h => Kmalloc.allocateBlocks count h size (va + h.allocBlockSize) failed) = some r →
        Counts h r.1 := by
      intro h₁ n failed p e hrun
      split_ifs at hrun
      · obtain ⟨h₂, hset, hrun⟩ := Option.bind_eq_some_iff.mp hrun
        exact (e.trans (modifyNode hset)).trans (allocateBlocks hrun)
      · exact e.trans (allocateBlocks hrun)
    obtain ⟨b, -, hrun⟩ := Option.bind_eq_some_iff.mp hrun
    dsimp only at hrun
    split_ifs at hrun
    · obtain ⟨h₁, hset, hrun⟩ := Option.bind_eq_some_iff.mp hrun
      exact hrest (setNode hset ⟨rfl, rfl⟩) hrun
    · obtain ⟨h₁, hset, hrun⟩ := Option.bind_eq_some_iff.mp hrun
      exact hrest (setNode hset ⟨rfl, rfl⟩) hrun
    · exact hrest ⟨rfl, rfl⟩ hrun

theorem actualAllocateNode {size node : Nat} {doActualAlloc : Bool} {r : KmallocHeap × Bool × Nat}
    (hrun : actualAllocateNode h size node doActualAlloc = some r) : Counts h r.1 := by
  obtain ⟨h₁, hset, hrun⟩ := Option.bind_eq_some_iff.mp hrun
  refine (modifyNode hset).trans ?_
  split_ifs at hrun
  · cases hrun
    exact ⟨rfl, rfl⟩
  · obtain ⟨⟨h₂, failed⟩, hloop, hrun⟩ := Option.bind_eq_some_iff.mp hrun
    cases hrun
    exact allocateBlocks hloop

omit [Machine] in
theorem markParents : ∀ {stack : List Nat} {h : KmallocHeap}, markParents h stack = some h' → Counts h h'
  | [], _, hrun => by
    cases hrun
    exact ⟨rfl, rfl⟩
  | nn :: stack, h, hrun => by
    obtain ⟨l, -, hrun⟩ := Option.bind_eq_some_iff.mp hrun
    obtain ⟨r, -, hrun⟩ := Option.bind_eq_some_iff.mp hrun
    dsimp only at hrun
    split_ifs at hrun
    · obtain ⟨h₁, hset, hrun⟩ := Option.bind_eq_some_iff.mp hrun
      exact (modifyNode hset).trans (markParents hrun)
    · exact markParents hrun

end Counts

theorem internalKfree_mem {ptr size : Nat} {doActualFree : Bool}
    (hrun : internalKfree h ptr size false doActualFree = some h') : h'.memAllocated = subWord h.memAllocated size := by
  obtain ⟨b, -, hrun⟩ := Option.bind_eq_some_iff.mp hrun
  simp only [Bool.false_and, Bool.false_eq_true, ↓reduceIte, Option.bind_some, Option.bind_eq_bind, Nat.sub_zero] at hrun
  obtain ⟨⟨h₁, x, big⟩, hup, hrun⟩ := Option.bind_eq_some_iff.mp hrun
  have hmem := (Counts.setFreeUplevels hup).mem
  split_ifs at hrun
  · cases hrun
    exact hmem
  · cases hrun
    exact hmem
  · exact (Counts.freeAllocBlocks hrun).mem.trans hmem

theorem internalKmalloc_none {j : Nat} {u : Buddy} {mark doActualAlloc : Bool} (sh : Shape h m K a)
    (hu : Rep a h.metadataNodes K 0 u) (hj : j ≤ K) (hfind : find j K u = none) :
    internalKmalloc h (2 ^ (m + j)) 0 (2 ^ (m + K)) mark doActualAlloc = some (h, none) := by
  have hsearch := search_spec (m := m) [] hj (show K - j < allocStackSize by have := sh.small; rw [allocStackSize]; omega)
    (fun i hi => sh.lt_of_below hi) hu
  rw [hfind] at hsearch
  have hne : ¬2 ^ (m + K) = 0 := by positivity
  simp only [internalKmalloc, hne, ↓reduceIte, Option.bind_eq_bind, Option.bind_some]
  rw [hsearch]
  rfl

/-- **A request that is taken back**: the size of the block is taken off the counter, to which it was not added. -/
theorem internalKmalloc_taken_back {j : Nat} {u : Buddy} {c : Ctx} {doActualAlloc : Bool} (sh : Shape h m K a)
    (hu : Rep a h.metadataNodes K 0 u) (hj : j ≤ K) (hfind : find j K u = some c)
    (hrun : internalKmalloc h (2 ^ (m + j)) 0 (2 ^ (m + K)) true doActualAlloc = some (h', none)) :
    h'.memAllocated = subWord h.memAllocated (2 ^ (m + j)) := by
  have hsearch := search_spec (m := m) [] hj (show K - j < allocStackSize by have := sh.small; rw [allocStackSize]; omega)
    (fun i hi => sh.lt_of_below hi) hu
  rw [hfind] at hsearch
  obtain ⟨f, hres, -⟩ := hsearch
  have hne : ¬2 ^ (m + K) = 0 := by positivity
  simp only [internalKmalloc, hne, ↓reduceIte, Option.bind_eq_bind, Option.bind_some] at hrun
  rw [hres, Option.bind_some] at hrun
  obtain ⟨⟨h₁, success, va⟩, hact, hrun⟩ := Option.bind_eq_some_iff.mp hrun
  obtain ⟨h₂, hmark, hrun⟩ := Option.bind_eq_some_iff.mp hrun
  have hcounts := (Counts.actualAllocateNode hact).trans (Counts.markParents hmark)
  split_ifs at hrun
  · obtain ⟨⟨h₃, sz⟩, hfree, hrun⟩ := Option.bind_eq_some_iff.mp hrun
    cases hrun
    have hmax : max (2 ^ (m + j)) h₂.minBlockSize = 2 ^ (m + j) := by
      rw [hcounts.min, show (h.withNodes f).minBlockSize = h.minBlockSize from rfl, sh.minBlockSize]
      exact max_eq_left (Nat.pow_le_pow_right (by omega) (by omega))
    have hpos : 2 ^ (m + j) ≠ 0 := by positivity
    have hflag : ∀ fl, hasFlag 0 fl = false := fun fl => by simp [hasFlag]
    simp only [perHeapKfreeUnsafe, hflag, Bool.not_false, ↓reduceIte, ne_eq, hpos, not_false_eq_true, hmax,
      Option.bind_eq_bind, Option.bind_some] at hfree
    have hsmall := sh.small
    rw [roundupNextPowerOf2_two_pow (by omega)] at hfree
    obtain ⟨h₄, hkfree, hret⟩ := Option.bind_eq_some_iff.mp hfree
    cases hret
    rw [internalKfree_mem hkfree, hcounts.mem]
    rfl
  · cases hrun
  · cases hrun

theorem subWord_ne {x e : Nat} (hx : x < 2 ^ Machine.nbits) (he : e < Machine.nbits) : subWord x (2 ^ e) ≠ x := by
  have hpos : 0 < 2 ^ e := by positivity
  have hlt : 2 ^ e < 2 ^ Machine.nbits := Nat.pow_lt_pow_right (by norm_num) he
  rw [subWord, Nat.mod_eq_of_lt hlt]
  by_cases hle : 2 ^ e ≤ x
  · rw [show x + (2 ^ Machine.nbits - 2 ^ e) = x - 2 ^ e + 2 ^ Machine.nbits by omega, Nat.add_mod_right,
      Nat.mod_eq_of_lt (by omega)]
    omega
  · rw [Nat.mod_eq_of_lt (by omega)]
    omega

theorem Shape.roomFor_iff {j size : Nat} {u : Buddy} (sh : Shape h m K a) (hu : Rep a h.metadataNodes K 0 u)
    (hsize : size ≤ h.size) (hj : max (roundupNextPowerOf2 size) (2 ^ m) = 2 ^ (m + j)) :
    RoomFor h size ↔ (find j K u).isSome = true := by
  rw [RoomFor, sh.minBlockSize, sh.depth, hj, Nat.log2_two_pow, Nat.log2_two_pow, Nat.add_sub_cancel_left, hu.freeBelow]
  exact and_iff_right hsize

/-- A search that fails makes the request fail. -/
theorem perHeapKmalloc_find_none {size flags j : Nat} {u : Buddy} (sh : Shape h m K a) (hu : Rep a h.metadataNodes K 0 u)
    (hsize : size ≤ h.size) (hj : j ≤ K) (hround : max (roundupNextPowerOf2 size) (2 ^ m) = 2 ^ (m + j))
    (hfind : find j K u = none) {r : KmallocHeap × Nat × Option Nat} (hrun : perHeapKmallocUnsafe h size flags = some r) :
    r.1 = h ∧ r.2.2 = none := by
  rw [perHeapKmallocUnsafe, if_neg (by omega), sh.minBlockSize, hround, sh.size] at hrun
  dsimp only at hrun
  split_ifs at hrun
  all_goals
    rw [internalKmalloc_none sh hu hj hfind] at hrun
    cases hrun
    exact ⟨rfl, rfl⟩

/-- **A request that returns `NULL`** in a heap that is reached by calls in which `valloc_and_map` did not fail: if no block
was free, then everything is as it was, and if a block was free, a request in one step leaves something changed. -/
theorem HeapRun.kmalloc_null {size flags sz : Nat} (hr : HeapRun h)
    (hrun : perHeapKmallocUnsafe h size flags = some (h', sz, none)) :
    (¬RoomFor h size → Restored h h') ∧ (hasFlag flags flMultiStep = false → Restored h h' → ¬RoomFor h size) := by
  obtain ⟨m, K, a, hk⟩ := hr.kept
  have sh := hk.owns.shape
  obtain ⟨u, hu, -, -⟩ := hk.owns.tree
  by_cases hsize : size > h.size
  · rw [perHeapKmallocUnsafe, if_pos hsize] at hrun
    cases hrun
    exact ⟨fun _ => .refl h, fun _ _ hroom => absurd hroom.1 (by omega)⟩
  have hle : size ≤ 2 ^ (m + K) := by rw [← sh.size]; omega
  obtain ⟨j, hj, hround, -⟩ := exists_roundedUpSize sh.small hle
  rw [sh.roomFor_iff hu (by omega) hround]
  cases hfind : find j K u with
  | none =>
    -- both searches come back with the heap as it was
    refine ⟨fun _ => ?_, fun _ _ => by simp⟩
    obtain rfl : h' = h := (perHeapKmalloc_find_none sh hu (by omega) hj hround hfind hrun).1
    exact .refl h'
  | some c =>
    refine ⟨fun hroom => absurd rfl hroom, fun hflag hrest => ?_⟩
    rw [perHeapKmallocUnsafe, if_neg hsize, sh.minBlockSize, hround, sh.size, hflag] at hrun
    obtain ⟨⟨h₁, addr⟩, hint, hrun⟩ := Option.bind_eq_some_iff.mp hrun
    cases addr with
    | none =>
      cases hrun
      have hsmall := sh.small
      have hbits := Machine.supported
      exact absurd ((internalKmalloc_taken_back sh hu hj hfind hint).symm.trans hrest.2.1)
        (subWord_ne hk.counter (by omega))
    | some addr =>
      dsimp only at hrun
      split_ifs at hrun
      · obtain ⟨h₂, -, hret⟩ := Option.bind_eq_some_iff.mp hrun
        cases hret
      · cases hrun

omit [Machine] in
/-- Half of a heap of 16 pages and a page of the other half are held, and half of the heap is asked for. -/
theorem HeapRun.kmalloc_null_halves : ∃ (_ : Machine) (h h' : KmallocHeap) (sz : Nat), HeapRun h ∧
    h.inUse = [(3, 0), (0, 8)] ∧ perHeapKmallocUnsafe h 0x8000 0 = some (h', sz, none) ∧ ¬RoomFor h 0x8000 ∧ Restored h h' := by
  let M := machine64
  have hcalls : (perHeapKmallocUnsafe (sixteenPages fun _ => true) 0x8000 0).bind (fun r =>
      (perHeapKmallocUnsafe { r.1 with vallocAndMap := fun _ => true } 0x1000 0).bind fun r' =>
      (perHeapKmallocUnsafe r'.1 0x8000 0).map fun r'' =>
        (r''.2.2, r'.1.inUse, [r'.1.minBlockSize, r'.1.depth], freeBelow r'.1.metadataNodes 3 4 0)) =
      some (none, [(3, 0), (0, 8)], [0x1000, 4], false) := by decide
  obtain ⟨⟨h₁, sz₁, ptr₁⟩, hrun₁, hcalls⟩ := Option.bind_eq_some_iff.1 hcalls
  obtain ⟨⟨h₂, sz₂, ptr₂⟩, hrun₂, hcalls⟩ := Option.bind_eq_some_iff.1 hcalls
  obtain ⟨⟨h₃, sz₃, ptr₃⟩, hrun₃, hval⟩ := Option.map_eq_some_iff.1 hcalls
  simp only [Prod.mk.injEq, List.cons.injEq, and_true] at hval
  obtain ⟨rfl, hinUse, ⟨hmin, hdepth⟩, hfree⟩ := hval
  have hl {h : KmallocHeap} (size : Nat) : KmallocLegal h size 0 := HeapState.kmallocLegal_zero _
  have hroom : ¬RoomFor h₂ 0x8000 := by
    rintro ⟨-, hroom⟩
    have hlevel : Nat.log2 (max (roundupNextPowerOf2 0x8000) 0x1000) - Nat.log2 0x1000 = 3 := by decide
    rw [hmin, hdepth, hlevel, hfree] at hroom
    cases hroom
  have hr : HeapRun h₂ := by
    have hr₁ : HeapRun h₁ := (heapRun_sixteenPages fun _ => true).call
      ⟨.kmalloc 0x8000 0, ⟨hl _, Or.inr (Or.inr fun _ => rfl)⟩, by rw [KmallocHeap.call, hrun₁]; rfl⟩
    exact (hr₁.valloc fun _ => true).call
      ⟨.kmalloc 0x1000 0, ⟨hl _, Or.inr (Or.inr fun _ => rfl)⟩, by rw [KmallocHeap.call, hrun₂]; rfl⟩
  exact ⟨M, h₂, h₃, sz₃, hr, hinUse, hrun₃, hroom, (HeapRun.kmalloc_null hr hrun₃).1 hroom⟩

omit [Machine] in
/-- The second page of four cannot be mapped: the counter wraps around, and the page's node stays full. -/
theorem kmalloc_null_differs : ∃ (_ : Machine) (h h' : KmallocHeap) (sz : Nat), HeapRun h ∧
    perHeapKmallocUnsafe h 0x4000 0 = some (h', sz, none) ∧ ¬Restored h h' ∧ h'.memAllocated = 2 ^ 64 - 0x4000 ∧
    (h.metadataNodes 16).full = false ∧ (h'.metadataNodes 16).full = true := by
  let M := machine64
  have hcall : (perHeapKmallocUnsafe (sixteenPages fun n => decide (n ≠ 1)) 0x4000 0).map
      (fun r => (r.2.2, r.1.memAllocated, (r.1.metadataNodes 16).full)) = some (none, 2 ^ 64 - 0x4000, true) := by
    decide
  obtain ⟨⟨h', sz, addr⟩, hrun, hres⟩ := Option.map_eq_some_iff.mp hcall
  obtain ⟨rfl, hmem, hnode⟩ : addr = none ∧ h'.memAllocated = 2 ^ 64 - 0x4000 ∧ (h'.metadataNodes 16).full = true := by
    simpa only [Prod.mk.injEq] using hres
  refine ⟨M, _, h', sz, heapRun_sixteenPages _, hrun, fun hrest => ?_, hmem, rfl, hnode⟩
  exact absurd (hmem.symm.trans hrest.2.1) (by decide)

/-! ## Requests to a linear-mapped heap -/

/-- A block of the heap, aligned to its size from the start of the heap, that no block in use meets. -/
def FreeBlockAt (h : KmallocHeap) (ptr size : Nat) : Prop :=
  h.vaddr ≤ ptr ∧ ptr + size ≤ h.vaddr + h.size ∧ size ∣ ptr - h.vaddr ∧
    ∀ p ∈ h.inUse, h.vaddr + h.minBlockSize * (p.2 + 2 ^ p.1) ≤ ptr ∨ ptr + size ≤ h.vaddr + h.minBlockSize * p.2

omit [Machine] in
theorem Shape.freeBlockAt_iff {k x : Nat} (sh : Shape h m K a) (hk : k ≤ K) :
    FreeBlockAt h (h.vaddr + 2 ^ m * x) (2 ^ (m + k)) ↔ IsBlock K (k, x) ∧ ∀ p ∈ h.inUse, Disj p (k, x) := by
  have hpos : 0 < 2 ^ m := by positivity
  have hend : h.vaddr + 2 ^ m * x + 2 ^ (m + k) = h.vaddr + 2 ^ m * (x + 2 ^ k) := by
    rw [pow_add, Nat.mul_add, Nat.add_assoc]
  have hle (y z : Nat) : h.vaddr + 2 ^ m * y ≤ h.vaddr + 2 ^ m * z ↔ y ≤ z := by
    rw [Nat.add_le_add_iff_left, Nat.mul_le_mul_left_iff hpos]
  have hdvd : 2 ^ (m + k) ∣ 2 ^ m * x ↔ 2 ^ k ∣ x := by
    rw [pow_add, Nat.mul_dvd_mul_iff_left hpos]
  unfold FreeBlockAt Disj
  rw [hend, sh.minBlockSize, sh.size, pow_add 2 m K, hle, Nat.add_sub_cancel_left, hdvd]
  simp only [hle]
  exact ⟨fun ⟨_, hin, hal, hd⟩ => ⟨⟨hk, hal, hin⟩, hd⟩, fun ⟨hb, hd⟩ => ⟨Nat.le_add_right _ _, hb.inside, hb.aligned, hd⟩⟩

omit [Machine] in
theorem Shape.exists_freeBlockAt {k : Nat} (sh : Shape h m K a) (hk : k ≤ K) :
    (∃ ptr, FreeBlockAt h ptr (2 ^ (m + k))) ↔ ∃ x, IsBlock K (k, x) ∧ ∀ p ∈ h.inUse, Disj p (k, x) := by
  refine ⟨fun ⟨ptr, hfree⟩ => ?_, fun ⟨x, hx⟩ => ⟨_, (sh.freeBlockAt_iff hk).mpr hx⟩⟩
  obtain ⟨q, hq⟩ := hfree.2.2.1
  obtain rfl : ptr = h.vaddr + 2 ^ m * (2 ^ k * q) := by
    rw [← Nat.mul_assoc, ← pow_add, ← hq]
    exact (Nat.add_sub_cancel' hfree.1).symm
  exact ⟨_, (sh.freeBlockAt_iff hk).mp hfree⟩

/-- **An allocation from a linear-mapped heap returns `NULL` if and only if no block of the rounded-up size is free**, whatever
the calls before it were, in one step or several, and whether the heap keeps its metadata in itself or not. -/
theorem HeapRun.kmalloc_null_iff {size flags : Nat} (hr : HeapRun h) (hlin : h.linearMapping = true)
    (hl : KmallocLegal h size flags) (hsize : size ≤ h.size) :
    ∃ h' sz res, perHeapKmallocUnsafe h size flags = some (h', sz, res) ∧
      (res = none ↔ ¬∃ ptr, FreeBlockAt h ptr (max (roundupNextPowerOf2 size) h.minBlockSize)) := by
  obtain ⟨m, K, a, hk⟩ := hr.kept
  have sh := hk.owns.shape
  obtain ⟨sub, hargs⟩ := hl.args sh.minBlockSize
  rw [sh.minBlockSize]
  rcases perHeapKmalloc_owns hk.owns hargs (Or.inl hlin) with
    ⟨hbig, -⟩ | ⟨k, hkK, hround, ⟨hno, sz, -, -, hrun⟩ | ⟨h', y, n, hrun, -⟩⟩
  · rw [sh.size] at hsize
    exact absurd hbig (by omega)
  · refine ⟨_, _, _, hrun, iff_of_true rfl ?_⟩
    rw [hround, sh.exists_freeBlockAt hkK]
    rintro ⟨x, hx, hd⟩
    exact hno (Or.inl hlin) x hx hd
  · refine ⟨_, _, _, hrun, iff_of_false nofun (not_not.mpr ?_)⟩
    rw [hround, sh.exists_freeBlockAt hkK]
    obtain ⟨u, hu, -, hperm⟩ := hk.owns.tree
    cases hfind : find k K u with
    | none => cases (perHeapKmalloc_find_none sh hu hsize hkK hround hfind hrun).2
    | some c =>
      exact ⟨_, isBlock_ctx (find_length hkK hfind), fun p hp => find_disj hkK hfind (hperm.symm.subset hp)⟩

omit [Machine] in
/-- Half of a linear-mapped heap of 16 pages and a page of the other half are held: there is no half of the heap left, but a
quarter. -/
theorem HeapRun.kmalloc_null_iff_halves : ∃ (_ : Machine) (h : KmallocHeap), HeapRun h ∧ h.linearMapping = true ∧
    h.inUse = [(3, 0), (0, 8)] ∧ ∀ size ∈ [0x8000, 0x4000], ∃ h' sz res, perHeapKmallocUnsafe h size 0 = some (h', sz, res) ∧
      (res = none ↔ ¬∃ ptr, FreeBlockAt h ptr (max (roundupNextPowerOf2 size) h.minBlockSize)) := by
  let M := machine64
  let start : KmallocHeap := kmallocCreateHeap 0x100000 (2 ^ (12 + 4)) (2 ^ 12) 0 true newNode (fun _ => true)
  have hcalls : (perHeapKmallocUnsafe start 0x8000 0).bind (fun r => (perHeapKmallocUnsafe r.1 0x1000 0).map fun r' =>
      (r.1.linearMapping, r'.1.linearMapping, r'.1.inUse, r'.1.size)) = some (true, true, [(3, 0), (0, 8)], 0x10000) := by
    decide
  obtain ⟨⟨h₁, sz₁, ptr₁⟩, hrun₁, hcalls⟩ := Option.bind_eq_some_iff.1 hcalls
  obtain ⟨⟨h₂, sz₂, ptr₂⟩, hrun₂, hval⟩ := Option.map_eq_some_iff.1 hcalls
  simp only [Prod.mk.injEq] at hval
  obtain ⟨hlin₁, hlin₂, hinUse, hsize⟩ := hval
  have hl {h : KmallocHeap} (size : Nat) : KmallocLegal h size 0 := HeapState.kmallocLegal_zero _
  have hr₀ : HeapRun start := .create none newNode (fun _ => true) (by norm_num) (by simp)
  have hr₁ : HeapRun h₁ := hr₀.call ⟨.kmalloc 0x8000 0, ⟨hl _, Or.inl rfl⟩, by rw [KmallocHeap.call, hrun₁]; rfl⟩
  have hr₂ : HeapRun h₂ := hr₁.call ⟨.kmalloc 0x1000 0, ⟨hl _, Or.inl hlin₁⟩, by rw [KmallocHeap.call, hrun₂]; rfl⟩
  refine ⟨M, h₂, hr₂, hlin₂, hinUse, fun size hmem => HeapRun.kmalloc_null_iff hr₂ hlin₂ (hl size) ?_⟩
  rw [hsize]
  simp only [List.mem_cons, List.not_mem_nil, or_false] at hmem
  omega

end Usax.Kmalloc
