import Usax.Kmalloc.FreeRuns
import Mathlib.Data.Nat.ModEq

/-!
# Runs of a linear-mapped heap

A heap that keeps its metadata in its own first block, and the blocks that its users hold. The users allocate, free a
block they hold with the flags that match its allocation, free sub-blocks of a split block one by one, or free what is
left in an aligned block with `KFREE_FL_ALLOW_SPLIT`. In every state that is reached this way:

- the blocks in use of the buddy tree are those of the metadata and of the blocks held (`Reachable.inv`);
- no legal call fails (`Inv.step`), and the blocks held are disjoint and as large as requested (`Reachable.live_blocks`).
-/

namespace Usax.Kmalloc

open Usax.Lib Usax.Lib.Buddy Common

/-! ## The system -/

/-- A block that is held: the pointer and the size that `per_heap_kmalloc` returned, and what it was called with. -/
structure LiveBlock where
  ptr : Nat
  size : Nat
  requested : Nat
  flags : Nat
deriving DecidableEq, Repr

/-- `sub_blocks_min_size` of the allocation. -/
def LiveBlock.subBlockSize (b : LiveBlock) : Nat := b.flags &&& flSubBlockMinSizeMask

/-- The sub-blocks of a split block, each a block that can be freed on its own. -/
def LiveBlock.subBlocks (b : LiveBlock) : List LiveBlock :=
  (List.range (b.size / b.subBlockSize)).map
    (fun i => ⟨b.ptr + i * b.subBlockSize, b.subBlockSize, b.subBlockSize, 0⟩)

/-- The block lies in the `size` bytes from `ptr` on. -/
def LiveBlock.Inside (ptr size : Nat) (b : LiveBlock) : Prop := ptr ≤ b.ptr ∧ b.ptr + b.size ≤ ptr + size

instance (ptr size : Nat) (b : LiveBlock) : Decidable (b.Inside ptr size) := inferInstanceAs (Decidable (_ ∧ _))

/-- The block lies beside the `size` bytes from `ptr` on. -/
def LiveBlock.Beside (ptr size : Nat) (b : LiveBlock) : Prop := b.ptr + b.size ≤ ptr ∨ ptr + size ≤ b.ptr

/-- A heap, the block of its metadata and the blocks that are held. -/
structure HeapState where
  heap : KmallocHeap
  metadata : LiveBlock
  live : List LiveBlock

/-- What the users do. `apart` is no call: it makes the sub-blocks of a split block blocks of their own. -/
inductive HeapOp where
  | kmalloc (size flags : Nat)
  | kfree (b : LiveBlock) (userSize flags : Nat)
  | apart (b : LiveBlock)
  | kfreeSplit (ptr userSize flags : Nat)

section System

variable [Machine]

def HeapState.exec (s : HeapState) : HeapOp → Option HeapState
  | .kmalloc size flags => do
    match ← perHeapKmallocUnsafe s.heap size flags with
    | (h, _, none) => return { s with heap := h }
    | (h, sz, some ptr) => return { s with heap := h, live := ⟨ptr, sz, size, flags⟩ :: s.live }
  | .kfree b userSize flags => do
    let (h, _) ← perHeapKfreeUnsafe s.heap b.ptr userSize flags
    return { s with heap := h, live := s.live.erase b }
  | .apart b => some { s with live := b.subBlocks ++ s.live.erase b }
  | .kfreeSplit ptr userSize flags => do
    let (h, sz) ← perHeapKfreeUnsafe s.heap ptr userSize flags
    return { s with heap := h, live := s.live.filter (fun b => !decide (b.Inside ptr sz)) }

/-- Any size, but with `KMALLOC_FL_MULTI_STEP` a multiple of the minimum block size; the sub-block size is 0 or a power
of 2 from the minimum block size on. -/
structure KmallocLegal (h : KmallocHeap) (size flags : Nat) : Prop where
  multiStep : hasFlag flags flMultiStep = true → size ≠ 0 ∧ h.minBlockSize ∣ size
  subBlock : flags &&& flSubBlockMinSizeMask = 0 ∨
    h.minBlockSize ≤ flags &&& flSubBlockMinSizeMask ∧ ∃ e, flags &&& flSubBlockMinSizeMask = 2 ^ e

/-- The flags and the size match those of the block's allocation: a multi-step free gets the size that the allocation
returned, any other one a size that is rounded up to it, or 0 if splitting is not allowed. -/
structure KfreeMatches (h : KmallocHeap) (b : LiveBlock) (userSize flags : Nat) : Prop where
  multiStep : hasFlag flags flMultiStep = hasFlag b.flags flMultiStep
  allowSplit : b.subBlockSize ≠ 0 → hasFlag flags flAllowSplit = true
  size : if hasFlag flags flMultiStep then userSize = b.size
    else if userSize = 0 then hasFlag flags flAllowSplit = false
    else roundupNextPowerOf2 (max userSize h.minBlockSize) = b.size

/-- A free of an aligned block with `KFREE_FL_ALLOW_SPLIT`: the blocks that are held lie inside of it or beside it, and
at least one lies inside. -/
structure KfreeSplitLegal (s : HeapState) (ptr userSize flags size : Nat) : Prop where
  multiStep : hasFlag flags flMultiStep = false
  allowSplit : hasFlag flags flAllowSplit = true
  ne_zero : userSize ≠ 0
  fits : userSize ≤ s.heap.size
  rounded : roundupNextPowerOf2 (max userSize s.heap.minBlockSize) = size
  low : s.heap.vaddr ≤ ptr
  high : ptr + size ≤ s.heap.vaddr + s.heap.size
  aligned : size ∣ ptr - s.heap.vaddr
  held : ∃ b ∈ s.live, b.Inside ptr size
  metadata : s.metadata.Beside ptr size
  apart : ∀ b ∈ s.live, b.Inside ptr size ∨ b.Beside ptr size

def HeapState.Legal (s : HeapState) : HeapOp → Prop
  | .kmalloc size flags => KmallocLegal s.heap size flags
  | .kfree b userSize flags => b ∈ s.live ∧ KfreeMatches s.heap b userSize flags
  | .apart b => b ∈ s.live ∧ b.subBlockSize ≠ 0 ∧ b.subBlockSize ∣ b.size
  | .kfreeSplit ptr userSize flags => ∃ size, KfreeSplitLegal s ptr userSize flags size

/-- The states that are reached from a heap that has just been set up. -/
inductive HeapState.Reachable : HeapState → Prop
  | init {m K vaddr sz ptr : Nat} {nodeBefore : BlockNode} {h : KmallocHeap} (small : m + K < 31)
      (setup : addHeapWithMetadata vaddr (2 ^ (m + K)) (2 ^ m) nodeBefore = some (h, sz, some ptr)) :
      Reachable ⟨h, ⟨ptr, sz, calculateHeapMetadataSize (2 ^ (m + K)) (2 ^ m), 0⟩, []⟩
  | step {s s' : HeapState} (op : HeapOp) : Reachable s → s.Legal op → s.exec op = some s' → Reachable s'

end System

/-! ## Where the blocks are -/

section Placement

variable (vaddr m K : Nat) (b : LiveBlock)

/-- The offset of the block, in minimum blocks. -/
def LiveBlock.start : Nat := (b.ptr - vaddr) / 2 ^ m

def LiveBlock.units : Nat := b.size / 2 ^ m

def LiveBlock.sub : Option Nat := if b.subBlockSize = 0 then none else some (Nat.log2 b.subBlockSize - m)

/-- The blocks of the buddy tree that the block is made of. -/
def LiveBlock.pieces : List (Nat × Nat) := runPieces (b.sub m) (b.start vaddr m) (b.units m) (K + 1)

/-- The block is a run of minimum blocks at the start of an aligned block, which it fills unless it was allocated in
several steps. -/
structure Placed : Prop where
  ptr : b.ptr = vaddr + 2 ^ m * b.start vaddr m
  size : b.size = 2 ^ m * b.units m
  sub : b.subBlockSize = subSize m (b.sub m)
  pos : 0 < b.units m
  block : ∃ k, IsBlock K (k, b.start vaddr m) ∧ b.units m ≤ 2 ^ k ∧
    (hasFlag b.flags flMultiStep = false → b.units m = 2 ^ k)
  requested : b.requested ≤ b.size

end Placement

variable {vaddr m K : Nat}

theorem LiveBlock.sub_eq {b : LiveBlock} {sub : Option Nat} (h : b.subBlockSize = subSize m sub) : b.sub m = sub := by
  rw [LiveBlock.sub, h]
  cases sub with
  | none => rfl
  | some l => simp [subSize, Nat.log2_two_pow]

theorem Placed.of_run {b : LiveBlock} {sub : Option Nat} {y n k : Nat} (hptr : b.ptr = vaddr + 2 ^ m * y)
    (hsize : b.size = 2 ^ m * n) (hsub : b.subBlockSize = subSize m sub) (hpos : 0 < n) (hk : IsBlock K (k, y))
    (hn : n ≤ 2 ^ k) (hone : hasFlag b.flags flMultiStep = false → n = 2 ^ k) (hreq : b.requested ≤ b.size) :
    Placed vaddr m K b ∧ b.pieces vaddr m K = runPieces sub y n (K + 1) := by
  have hpow : 0 < 2 ^ m := by positivity
  have hy : b.start vaddr m = y := by
    rw [LiveBlock.start, hptr, Nat.add_sub_cancel_left, Nat.mul_div_cancel_left _ hpow]
  have hu : b.units m = n := by rw [LiveBlock.units, hsize, Nat.mul_div_cancel_left _ hpow]
  have hs := LiveBlock.sub_eq hsub
  refine ⟨⟨by rw [hy, hptr], by rw [hu, hsize], by rw [hs, hsub], by rw [hu]; exact hpos, ?_, hreq⟩, ?_⟩
  · rw [hy, hu]; exact ⟨k, hk, hn, hone⟩
  · rw [LiveBlock.pieces, hs, hy, hu]

section

variable {b : LiveBlock}

theorem Placed.units_lt (h : Placed vaddr m K b) : b.units m < 2 ^ (K + 1) := by
  obtain ⟨k, hk, hn, _⟩ := h.block
  have := hk.inside
  have : 0 < 2 ^ K := by positivity
  rw [pow_succ]
  simp only at *
  omega

theorem Placed.cover (h : Placed vaddr m K b) {x : Nat} (h₁ : b.start vaddr m ≤ x)
    (h₂ : x < b.start vaddr m + b.units m) : ∃ p ∈ b.pieces vaddr m K, p.2 ≤ x ∧ x < p.2 + 2 ^ p.1 :=
  exists_mem_runPieces _ h.units_lt h₁ h₂

theorem Placed.bound {p : Nat × Nat} (hp : p ∈ b.pieces vaddr m K) :
    b.start vaddr m ≤ p.2 ∧ p.2 + 2 ^ p.1 ≤ b.start vaddr m + b.units m :=
  let ⟨_, _, _, h⟩ := mem_runPieces hp; h

theorem Placed.bytes (h : Placed vaddr m K b) : b.ptr + b.size = vaddr + 2 ^ m * (b.start vaddr m + b.units m) := by
  have h₁ := h.ptr
  have h₂ := h.size
  rw [Nat.mul_add]
  omega

theorem Placed.disjoint {b c : LiveBlock} (hb : Placed vaddr m K b) (hc : Placed vaddr m K c)
    (hd : ∀ p ∈ b.pieces vaddr m K, ∀ q ∈ c.pieces vaddr m K, Disj p q) :
    b.ptr + b.size ≤ c.ptr ∨ c.ptr + c.size ≤ b.ptr := by
  have hno : ∀ x, b.start vaddr m ≤ x → x < b.start vaddr m + b.units m → c.start vaddr m ≤ x →
      x < c.start vaddr m + c.units m → False := fun x h₁ h₂ h₃ h₄ => by
    obtain ⟨p, hp, hp₁, hp₂⟩ := hb.cover h₁ h₂
    obtain ⟨q, hq, hq₁, hq₂⟩ := hc.cover h₃ h₄
    rcases hd p hp q hq with h | h <;> omega
  have h₁ := hno (b.start vaddr m)
  have h₂ := hno (c.start vaddr m)
  have hbp := hb.pos
  have hcp := hc.pos
  rw [hb.bytes, hc.bytes, hb.ptr, hc.ptr]
  rcases Nat.le_total (b.start vaddr m) (c.start vaddr m) with hle | hle
  · exact Or.inl (Nat.add_le_add_left (Nat.mul_le_mul_left _ (by by_contra; exact h₂ hle (by omega) le_rfl (by omega))) _)
  · exact Or.inr (Nat.add_le_add_left (Nat.mul_le_mul_left _ (by by_contra; exact h₁ le_rfl (by omega) hle (by omega))) _)

theorem Placed.within {l y : Nat} (hb : Placed vaddr m K b) (hin : b.Inside (vaddr + 2 ^ m * y) (2 ^ (m + l)))
    {p : Nat × Nat} (hp : p ∈ b.pieces vaddr m K) : Within (l, y) p := by
  obtain ⟨h₁, h₂⟩ := hin
  rw [hb.bytes, pow_add, Nat.add_assoc, ← Nat.mul_add] at h₂
  rw [hb.ptr] at h₁
  have h₃ := Nat.le_of_mul_le_mul_left (Nat.le_of_add_le_add_left h₁) (show 0 < 2 ^ m by positivity)
  have h₄ := Nat.le_of_mul_le_mul_left (Nat.le_of_add_le_add_left h₂) (show 0 < 2 ^ m by positivity)
  obtain ⟨h₅, h₆⟩ := Placed.bound hp
  exact ⟨h₃.trans h₅, h₆.trans h₄⟩

theorem Placed.disj {l y : Nat} (hb : Placed vaddr m K b) (hout : b.Beside (vaddr + 2 ^ m * y) (2 ^ (m + l)))
    {p : Nat × Nat} (hp : p ∈ b.pieces vaddr m K) : Disj p (l, y) := by
  have hpos : 0 < 2 ^ m := by positivity
  obtain ⟨h₅, h₆⟩ := Placed.bound hp
  refine hout.imp (fun h => ?_) (fun h => ?_)
  · rw [hb.bytes] at h
    exact h₆.trans (Nat.le_of_mul_le_mul_left (Nat.le_of_add_le_add_left h) hpos)
  · rw [hb.ptr, pow_add, Nat.add_assoc, ← Nat.mul_add] at h
    exact (Nat.le_of_mul_le_mul_left (Nat.le_of_add_le_add_left h) hpos).trans h₅

theorem Placed.not_within {l y : Nat} (hb : Placed vaddr m K b) (hout : b.Beside (vaddr + 2 ^ m * y) (2 ^ (m + l)))
    {p : Nat × Nat} (hp : p ∈ b.pieces vaddr m K) : ¬Within (l, y) p := (hb.disj hout hp).not_within

end

theorem Placed.subBlocks {b : LiveBlock} (hb : Placed vaddr m K b) (h₀ : b.subBlockSize ≠ 0) (hd : b.subBlockSize ∣ b.size) :
    (∀ c ∈ b.subBlocks, Placed vaddr m K c) ∧
      b.subBlocks.flatMap (LiveBlock.pieces vaddr m K) = b.pieces vaddr m K := by
  obtain ⟨l, hl⟩ : ∃ l, b.sub m = some l := ⟨_, if_neg h₀⟩
  have hsub := hb.sub
  rw [hl, subSize] at hsub
  obtain ⟨k, hk, hn, _⟩ := hb.block
  have hpow : 0 < 2 ^ m := by positivity
  have hdn : 2 ^ l ∣ b.units m := by
    rw [hsub, hb.size, pow_add] at hd
    exact Nat.dvd_of_mul_dvd_mul_left hpow hd
  obtain ⟨c, hc⟩ := hdn
  have hlk : l ≤ k := by
    by_contra hlt
    have : 2 ^ k < 2 ^ l := Nat.pow_lt_pow_right (by omega) (by omega)
    have hpos := hb.pos
    have : 1 ≤ c := by
      by_contra h'
      rw [hc, show c = 0 by omega] at hpos
      simp at hpos
    have := Nat.mul_le_mul_left (2 ^ l) this
    omega
  have hcount : b.size / b.subBlockSize = c := by
    rw [hsub, hb.size, hc, pow_add, ← Nat.mul_assoc]
    exact Nat.mul_div_cancel_left _ (by positivity)
  have hone : ∀ i < c, Placed vaddr m K ⟨b.ptr + i * b.subBlockSize, b.subBlockSize, b.subBlockSize, 0⟩ ∧
      LiveBlock.pieces vaddr m K ⟨b.ptr + i * b.subBlockSize, b.subBlockSize, b.subBlockSize, 0⟩ =
        [(l, b.start vaddr m + i * 2 ^ l)] := fun i hi => by
    have hblk : IsBlock K (l, b.start vaddr m + i * 2 ^ l) := by
      refine ⟨by have := hk.level; simp only at *; omega, ?_, ?_⟩
      · exact Nat.dvd_add ((pow_dvd_pow 2 hlk).trans hk.aligned) (Nat.dvd_mul_left _ _)
      · have h₁ := hk.inside
        have h₂ := Nat.mul_le_mul_left (2 ^ l) (show i + 1 ≤ c by omega)
        rw [Nat.mul_add, Nat.mul_one, ← hc, Nat.mul_comm (2 ^ l) i] at h₂
        simp only at h₁ ⊢
        omega
    have h : Placed vaddr m K ⟨b.ptr + i * b.subBlockSize, b.subBlockSize, b.subBlockSize, 0⟩ ∧ _ =
        runPieces none (b.start vaddr m + i * 2 ^ l) (2 ^ l) (K + 1) :=
      Placed.of_run (by rw [hb.ptr, hsub, pow_add]; ring) (by rw [hsub, pow_add]) (by simp [LiveBlock.subBlockSize, subSize])
        (by positivity) hblk (le_refl _) (fun _ => rfl) (le_refl _)
    refine ⟨h.1, h.2.trans ?_⟩
    have := hblk.level
    rw [runPieces_two_pow none (by simp only at this; omega)]
    cases l <;> rfl
  refine ⟨fun d hd => ?_, ?_⟩
  · obtain ⟨i, hi, rfl⟩ := List.mem_map.1 hd
    exact (hone i (by rw [← hcount]; exact List.mem_range.1 hi)).1
  · have hgrid := runBlocks_evenly (o := b.start vaddr m) (Dvd.intro c hc.symm) (K + 1)
    rw [Nat.div_eq_of_lt hb.units_lt, Nat.zero_mul, Nat.add_zero, Nat.sub_zero, hc,
      Nat.mul_div_cancel_left _ (by positivity), ← hc] at hgrid
    rw [LiveBlock.pieces, runPieces, hl]
    refine Eq.trans ?_ hgrid.symm
    rw [LiveBlock.subBlocks, hcount, List.flatMap_map, grid, List.map_eq_flatMap]
    exact List.flatMap_congr (fun i hi => (hone i (List.mem_range.1 hi)).2)

theorem KmallocLegal.args {h : KmallocHeap} {size flags : Nat} (hl : KmallocLegal h size flags)
    (hmin : h.minBlockSize = 2 ^ m) : ∃ sub, AllocArgs m size flags sub := by
  obtain ⟨hm, hs⟩ := hl
  rw [hmin] at hm hs
  rcases hs with hs | ⟨hle, e, he⟩
  · exact ⟨none, fun h => (hm h).1, fun h => (hm h).2, hs⟩
  · rw [he, Nat.pow_le_pow_iff_right (by omega)] at hle
    exact ⟨some (e - m), fun h => (hm h).1, fun h => (hm h).2, by rw [he, subSize, show m + (e - m) = e by omega]⟩

theorem pieces_erase {s : HeapState} (vaddr m K : Nat) {b : LiveBlock} (hb : b ∈ s.live) :
    ((s.metadata :: s.live).flatMap (LiveBlock.pieces vaddr m K)).Perm
      (b.pieces vaddr m K ++ (s.metadata :: s.live.erase b).flatMap (LiveBlock.pieces vaddr m K)) := by
  have h := ((List.perm_cons_erase hb).cons s.metadata).trans (List.Perm.swap b s.metadata _)
  exact h.flatMap_right _

/-! ## The invariant -/

section Invariant

variable [Machine]

/-- The blocks in use of the buddy tree are those of the metadata and of the blocks held. -/
structure HeapState.Inv (m K : Nat) (s : HeapState) : Prop where
  owns : Owns s.heap m K none ((s.metadata :: s.live).flatMap (LiveBlock.pieces s.heap.vaddr m K))
  placed : ∀ b ∈ s.metadata :: s.live, Placed s.heap.vaddr m K b
  metadata : s.metadata.ptr = s.heap.vaddr ∧ s.heap.metadataSize ≤ s.metadata.size
  quiet : ∀ i, (s.heap.metadataNodes i).allocated = false ∧ (s.heap.metadataNodes i).allocFailed = false
  counter : s.heap.memAllocated < 2 ^ Machine.nbits

namespace HeapState

variable {s : HeapState}

theorem Inv.update (hi : s.Inv m K) {h : KmallocHeap} {live : List LiveBlock} (hfr : Frame K s.heap h)
    (ho : Owns h m K none ((s.metadata :: live).flatMap (LiveBlock.pieces s.heap.vaddr m K)))
    (hp : ∀ b ∈ live, Placed s.heap.vaddr m K b) (hm : h.memAllocated < 2 ^ Machine.nbits) :
    Inv m K { s with heap := h, live := live } where
  owns := by rw [hfr.vaddr]; exact ho
  placed b hb := by
    rw [hfr.vaddr]
    rcases List.mem_cons.1 hb with rfl | hb
    · exact hi.placed _ List.mem_cons_self
    · exact hp b hb
  metadata := by rw [hfr.vaddr, hfr.metadataSize]; exact hi.metadata
  quiet i := by
    obtain ⟨h₁, h₂⟩ := hfr.quiet (hi.owns.shape.linear rfl).1 i
    obtain ⟨h₃, h₄⟩ := hi.quiet i
    rw [h₃] at h₁
    rw [h₄] at h₂
    exact ⟨Bool.eq_false_iff.2 (fun h => by cases h₁ h), Bool.eq_false_iff.2 (fun h => by cases h₂ h)⟩
  counter := hm

theorem Inv.units_lt (hi : s.Inv m K) {b : LiveBlock} (hb : b ∈ s.live) : b.units m < 2 ^ K := by
  have hpb := hi.placed b (List.mem_cons_of_mem _ hb)
  have hpm := hi.placed _ List.mem_cons_self
  obtain ⟨k, hk, hn, _⟩ := hpb.block
  have hin := hk.inside
  have hpos := hpm.pos
  have hd := List.pairwise_append.1 hi.owns.disjoint
  rcases hpm.disjoint hpb (fun p hp q hq => hd.2.2 p hp q (List.mem_flatMap.2 ⟨b, hb, hq⟩)) with h | h
  · rw [hpm.bytes, hpb.ptr] at h
    have := Nat.le_of_mul_le_mul_left (Nat.le_of_add_le_add_left h) (show 0 < 2 ^ m by positivity)
    simp only at hin
    omega
  · rw [hpb.bytes, hi.metadata.1] at h
    have := Nat.mul_pos (show 0 < 2 ^ m by positivity) (show 0 < b.start s.heap.vaddr m + b.units m by
      have := hpb.pos; omega)
    omega

/-- **Allocations.** When one fails, no free block is as large as the rounded-up size. -/
theorem Inv.kmalloc (hi : s.Inv m K) {size flags : Nat} (hl : KmallocLegal s.heap size flags) :
    (∃ sz, perHeapKmallocUnsafe s.heap size flags = some (s.heap, sz, none) ∧
      (sz = size ∨ sz = max (roundupNextPowerOf2 size) (2 ^ m)) ∧
      ∀ k, max (roundupNextPowerOf2 size) (2 ^ m) = 2 ^ (m + k) → size ≤ 2 ^ (m + K) →
        NoFit K ((s.metadata :: s.live).flatMap (LiveBlock.pieces s.heap.vaddr m K)) k) ∨
    ∃ h sz ptr, perHeapKmallocUnsafe s.heap size flags = some (h, sz, some ptr) ∧ Frame K s.heap h ∧
      Inv m K { s with heap := h, live := ⟨ptr, sz, size, flags⟩ :: s.live } ∧
      Grows s.heap h (if !hasFlag flags flNoActual then sz else 0) := by
  obtain ⟨sub, hargs⟩ := hl.args hi.owns.shape.minBlockSize
  rcases perHeapKmalloc_owns hi.owns hargs (Or.inl (hi.owns.shape.linear rfl).1) with
    ⟨hbig, hrun⟩ | ⟨k, _, hround, ⟨hno, sz, hsz, _, hrun⟩ | ⟨h', y, n, hrun, hle, hone, _, hal⟩⟩
  · exact Or.inl ⟨size, hrun, Or.inl rfl, fun _ _ h => absurd hbig (by omega)⟩
  · refine Or.inl ⟨sz, hrun, by rw [hround]; exact hsz, fun k' hk' _ => ?_⟩
    rw [hround] at hk'
    have := Nat.pow_right_injective (le_refl 2) hk'
    rw [show k' = k by omega]
    exact hno (Or.inl (hi.owns.shape.linear rfl).1)
  · obtain ⟨hp, hpieces⟩ : Placed s.heap.vaddr m K ⟨s.heap.vaddr + 2 ^ m * y, 2 ^ m * n, size, flags⟩ ∧ _ =
        runPieces sub y n (K + 1) :=
      Placed.of_run rfl rfl hargs.subSize hal.pos hal.block hal.le hone hle
    refine Or.inr ⟨h', _, _, hrun, hal.frame, hi.update hal.frame ?_ ?_ (hal.grows.lt hi.counter), hal.grows⟩
    · refine hal.owns.perm ?_
      simp only [List.flatMap_cons, hpieces]
      rw [← List.append_assoc, ← List.append_assoc]
      exact List.perm_append_comm.append_right _
    · intro b hb
      rcases List.mem_cons.1 hb with rfl | hb
      · exact hp
      · exact hi.placed b (List.mem_cons_of_mem _ hb)

/-- **Frees of a block that is held.** -/
theorem Inv.kfree (hi : s.Inv m K) {b : LiveBlock} {userSize flags : Nat} (hb : b ∈ s.live)
    (hl : KfreeMatches s.heap b userSize flags) :
    ∃ h sz, perHeapKfreeUnsafe s.heap b.ptr userSize flags = some (h, sz) ∧ Frame K s.heap h ∧
      Inv m K { s with heap := h, live := s.live.erase b } ∧
      Shrinks s.heap h (2 ^ m * ((runBlocks (b.start s.heap.vaddr m) (b.units m) (K + 1)).map
        (countedUnits s.heap K)).sum) := by
  have hpb := hi.placed b (List.mem_cons_of_mem _ hb)
  obtain ⟨k, hk, hn, hone⟩ := hpb.block
  have hsize := hl.size
  rw [hi.owns.shape.minBlockSize, hpb.size] at hsize
  have hsub : b.subBlockSize = 0 → b.sub m = none := fun h₀ => if_pos h₀
  have hr : RunFree s.heap m K none (b.sub m) (b.start s.heap.vaddr m) (b.units m) k userSize flags := by
    refine ⟨hk, hn, ?_, fun hmulti => ?_, fun hmulti => ?_, fun _ _ _ h => absurd rfl h⟩
    · by_cases h₀ : b.subBlockSize = 0
      · exact Or.inl (hsub h₀)
      · exact Or.inr (hl.allowSplit h₀)
    · rw [if_pos hmulti] at hsize
      exact ⟨hsize, hi.units_lt hb⟩
    · have hu := hone (by rw [← hl.multiStep]; exact hmulti)
      rw [hmulti, if_neg Bool.false_ne_true, hu, ← pow_add] at hsize
      refine ⟨hu, ?_⟩
      by_cases h₀ : userSize = 0
      · rw [if_pos h₀] at hsize ⊢
        exact hsub (by_contra fun hc => by rw [hl.allowSplit hc] at hsize; cases hsize)
      · rw [if_neg h₀] at hsize ⊢
        exact hsize
  obtain ⟨h, sz, hrun, ho', hfr, hsh⟩ := perHeapKfree_run (hi.owns.perm (pieces_erase s.heap.vaddr m K hb)) hr
  refine ⟨h, sz, by rw [hpb.ptr]; exact hrun, hfr, hi.update hfr ho' ?_ (hsh.lt hi.counter), hsh⟩
  exact fun c hc => hi.placed c (List.mem_cons_of_mem _ (List.mem_of_mem_erase hc))

/-- **A split block falls apart.** -/
theorem Inv.apart (hi : s.Inv m K) {b : LiveBlock} (hb : b ∈ s.live) (h₀ : b.subBlockSize ≠ 0)
    (hd : b.subBlockSize ∣ b.size) : Inv m K { s with live := b.subBlocks ++ s.live.erase b } := by
  obtain ⟨hp, hpieces⟩ := (hi.placed b (List.mem_cons_of_mem _ hb)).subBlocks h₀ hd
  refine hi.update (Frame.refl K _) (hi.owns.perm ((pieces_erase _ m K hb).trans ?_)) (fun c hc => ?_) hi.counter
  · rw [← hpieces, List.flatMap_cons, List.flatMap_cons, List.flatMap_append, ← List.append_assoc, ← List.append_assoc]
    exact List.perm_append_comm.append_right _
  · rcases List.mem_append.1 hc with hc | hc
    · exact hp c hc
    · exact hi.placed c (List.mem_cons_of_mem _ (List.mem_of_mem_erase hc))

/-- **Frees of what is left in an aligned block.** -/
theorem Inv.kfreeSplit (hi : s.Inv m K) {ptr userSize flags size : Nat} (hl : KfreeSplitLegal s ptr userSize flags size) :
    ∃ h, perHeapKfreeUnsafe s.heap ptr userSize flags = some (h, size) ∧
      Inv m K { s with heap := h, live := s.live.filter (fun b => !decide (b.Inside ptr size)) } := by
  have sh := hi.owns.shape
  have hrnd := hl.rounded
  rw [sh.minBlockSize] at hrnd
  have hlow := hl.low
  have hpow : 0 < 2 ^ m := by positivity
  -- the freed bytes are a block of the buddy tree
  obtain ⟨e, _, hr, hle, _⟩ := exists_roundup (v := max userSize (2 ^ m)) (S := m + K) (by omega)
    (max_le (sh.size ▸ hl.fits) (Nat.pow_le_pow_right (by omega) (by omega))) (by have := sh.small; omega)
  have hme : m ≤ e := (Nat.pow_le_pow_iff_right (by omega)).1 ((le_max_right _ _).trans hle)
  obtain ⟨l, rfl⟩ := Nat.exists_eq_add_of_le hme
  obtain rfl : size = 2 ^ (m + l) := by rw [← hrnd, hr]
  obtain ⟨t, ht⟩ := hl.aligned
  obtain rfl : ptr = s.heap.vaddr + 2 ^ m * (2 ^ l * t) := by rw [← Nat.mul_assoc, ← pow_add, ← ht]; omega
  have hin : IsBlock K (l, 2 ^ l * t) := by
    have h₁ := hl.high
    rw [sh.size, pow_add, pow_add, Nat.add_assoc, ← Nat.mul_add] at h₁
    have h₂ : 2 ^ l * t + 2 ^ l ≤ 2 ^ K := Nat.le_of_mul_le_mul_left (Nat.le_of_add_le_add_left h₁) hpow
    have h₃ : 2 ^ l ≤ 2 ^ K := by omega
    exact ⟨(Nat.pow_le_pow_iff_right (by omega)).1 h₃, Nat.dvd_mul_right _ _, h₂⟩
  obtain ⟨b, hb, hbin⟩ := hl.held
  have hpb := hi.placed b (List.mem_cons_of_mem _ hb)
  obtain ⟨p, hp, _⟩ := hpb.cover (le_refl _) (by have := hpb.pos; omega)
  obtain ⟨h, hrun, ho', hfr, hsh⟩ := perHeapKfree_one hi.owns hl.multiStep
    ⟨hin, ⟨p, List.mem_flatMap.2 ⟨b, List.mem_cons_of_mem _ hb, hp⟩, hpb.within hbin hp⟩, Or.inr hl.allowSplit,
      fun _ h => absurd rfl h⟩ (Or.inl ⟨hl.ne_zero, hrnd⟩)
  refine ⟨h, hrun, hi.update hfr ?_ (fun c hc => hi.placed c (List.mem_cons_of_mem _ (List.mem_filter.1 hc).1))
    (hsh.lt hi.counter)⟩
  have hmd : outside [(l, 2 ^ l * t)] (s.metadata.pieces s.heap.vaddr m K) = s.metadata.pieces s.heap.vaddr m K :=
    outside_eq_self (fun p hp => (hi.placed _ List.mem_cons_self).not_within hl.metadata hp)
  rw [List.flatMap_cons, outside, List.filter_append] at ho'
  rw [List.flatMap_cons, ← hmd, ← outside_flatMap (b := (l, 2 ^ l * t)) (fun c hc hq p hp => ?_) (fun c hc hq p hp => ?_)]
  · exact ho'
  · have hpc := hi.placed c (List.mem_cons_of_mem _ hc)
    exact hpc.not_within ((hl.apart c hc).resolve_left (by simpa using hq)) hp
  · exact (hi.placed c (List.mem_cons_of_mem _ hc)).within (by simpa using hq) hp

/-- **One step**: a legal call does not fail, and keeps the invariant. -/
theorem Inv.step (hi : s.Inv m K) : ∀ {op : HeapOp}, s.Legal op → ∃ s', s.exec op = some s' ∧ s'.Inv m K
  | .kmalloc size flags, hl => by
    rcases hi.kmalloc hl with ⟨sz, hrun, _⟩ | ⟨h, sz, ptr, hrun, _, hi', _⟩
    · exact ⟨s, by rw [exec, hrun]; rfl, hi⟩
    · exact ⟨_, by rw [exec, hrun]; rfl, hi'⟩
  | .kfree b userSize flags, hl => by
    obtain ⟨h, sz, hrun, _, hi', _⟩ := hi.kfree hl.1 hl.2
    exact ⟨_, by rw [exec, hrun]; rfl, hi'⟩
  | .apart b, hl => ⟨_, rfl, hi.apart hl.1 hl.2.1 hl.2.2⟩
  | .kfreeSplit ptr userSize flags, ⟨size, hl⟩ => by
    obtain ⟨h, hrun, hi'⟩ := hi.kfreeSplit hl
    exact ⟨_, by rw [exec, hrun]; rfl, hi'⟩

theorem Inv.init {vaddr sz ptr : Nat} {nodeBefore : BlockNode} {h : KmallocHeap} (small : m + K < 31)
    (setup : addHeapWithMetadata vaddr (2 ^ (m + K)) (2 ^ m) nodeBefore = some (h, sz, some ptr)) :
    Inv m K ⟨h, ⟨ptr, sz, calculateHeapMetadataSize (2 ^ (m + K)) (2 ^ m), 0⟩, []⟩ := by
  rcases addHeapWithMetadata_spec vaddr nodeBefore small with ⟨_, h', sz', hrun⟩ | ⟨h', k, hrun, hle, _, hal⟩
  · rw [setup] at hrun
    cases hrun
  · rw [setup] at hrun
    cases hrun
    have hv : h.vaddr = vaddr := hal.frame.vaddr
    obtain ⟨hp, hpieces⟩ : Placed h.vaddr m K ⟨vaddr, 2 ^ m * 2 ^ k, calculateHeapMetadataSize (2 ^ (m + K)) (2 ^ m), 0⟩ ∧
        _ = runPieces none 0 (2 ^ k) (K + 1) :=
      Placed.of_run (by simpa using hv.symm) rfl (by simp [LiveBlock.subBlockSize, subSize]) hal.pos hal.block
        (le_refl _) (fun _ => rfl) hle
    refine ⟨?_, ?_, ⟨hv.symm, ?_⟩, fun i => ?_, hal.grows.lt (by simp [kmallocCreateHeap])⟩
    · rw [List.flatMap_cons, hpieces]
      exact hal.owns
    · simpa using hp
    · rw [show h.metadataSize = _ from hal.frame.metadataSize]
      exact hle
    · obtain ⟨h₁, h₂⟩ := hal.frame.quiet rfl i
      exact ⟨Bool.eq_false_iff.2 (fun h => by cases h₁ h), Bool.eq_false_iff.2 (fun h => by cases h₂ h)⟩

/-- **Every run keeps the invariant.** -/
theorem Reachable.inv (h : s.Reachable) : ∃ m K, s.Inv m K := by
  induction h with
  | init small setup => exact ⟨_, _, Inv.init small setup⟩
  | step _ _ hl hrun ih =>
    obtain ⟨m, K, hi⟩ := ih
    obtain ⟨s', hrun', hi'⟩ := hi.step hl
    rw [hrun] at hrun'
    cases hrun'
    exact ⟨m, K, hi'⟩

theorem Inv.disjoint (hi : s.Inv m K) :
    (s.metadata :: s.live).Pairwise (fun b c => b.ptr + b.size ≤ c.ptr ∨ c.ptr + c.size ≤ b.ptr) :=
  (List.pairwise_flatMap.1 hi.owns.disjoint).2.imp_of_mem
    (fun hb hc hbc => (hi.placed _ hb).disjoint (hi.placed _ hc) hbc)

theorem Inv.inside (hi : s.Inv m K) {b : LiveBlock} (hb : b ∈ s.live) :
    s.heap.vaddr ≤ b.ptr ∧ b.ptr + b.size ≤ s.heap.vaddr + s.heap.size ∧ b.requested ≤ b.size := by
  have hp := hi.placed b (List.mem_cons_of_mem _ hb)
  obtain ⟨k, hk, hn, _⟩ := hp.block
  have hin : b.start s.heap.vaddr m + 2 ^ k ≤ 2 ^ K := hk.inside
  refine ⟨by rw [hp.ptr]; omega, ?_, hp.requested⟩
  rw [hp.bytes, hi.owns.shape.size, pow_add]
  exact Nat.add_le_add_left (Nat.mul_le_mul_left _ (by omega)) _

/-- **The blocks that are held** are disjoint, inside of the heap, beside the metadata and as large as requested, and no
legal call fails. -/
theorem Reachable.live_blocks (h : s.Reachable) :
    s.metadata.ptr = s.heap.vaddr ∧ s.heap.metadataSize ≤ s.metadata.size ∧
    (s.metadata :: s.live).Pairwise (fun b c => b.ptr + b.size ≤ c.ptr ∨ c.ptr + c.size ≤ b.ptr) ∧
    (∀ b ∈ s.live, s.heap.vaddr ≤ b.ptr ∧ b.ptr + b.size ≤ s.heap.vaddr + s.heap.size ∧ b.requested ≤ b.size) ∧
    ∀ op, s.Legal op → ∃ s', s.exec op = some s' := by
  obtain ⟨m, K, hi⟩ := h.inv
  refine ⟨hi.metadata.1, hi.metadata.2, hi.disjoint, fun b hb => hi.inside hb, fun op hl => ?_⟩
  obtain ⟨s', hrun, _⟩ := hi.step hl
  exact ⟨s', hrun⟩

/-- A block of the heap, aligned to its size from the start of the heap, that is not in use. -/
def FreeBlock (s : HeapState) (ptr size : Nat) : Prop :=
  s.heap.vaddr ≤ ptr ∧ ptr + size ≤ s.heap.vaddr + s.heap.size ∧ size ∣ ptr - s.heap.vaddr ∧
    ∀ b ∈ s.metadata :: s.live, b.Beside ptr size

theorem Inv.not_freeBlock (hi : s.Inv m K) {k : Nat}
    (hno : NoFit K ((s.metadata :: s.live).flatMap (LiveBlock.pieces s.heap.vaddr m K)) k) (ptr : Nat) :
    ¬s.FreeBlock ptr (2 ^ (m + k)) := by
  rintro ⟨hlow, hhigh, ⟨q, hq⟩, hbeside⟩
  have hpos : 0 < 2 ^ m := by positivity
  obtain rfl : ptr = s.heap.vaddr + 2 ^ m * (2 ^ k * q) := by
    rw [← Nat.mul_assoc, ← pow_add]
    omega
  have hin : 2 ^ k * q + 2 ^ k ≤ 2 ^ K := by
    rw [hi.owns.shape.size, pow_add, pow_add, Nat.add_assoc, ← Nat.mul_add] at hhigh
    exact Nat.le_of_mul_le_mul_left (Nat.le_of_add_le_add_left hhigh) hpos
  have hk : k ≤ K := (Nat.pow_le_pow_iff_right (by omega)).mp ((Nat.le_add_left _ _).trans hin)
  refine hno (2 ^ k * q) ⟨hk, Nat.dvd_mul_right .., hin⟩ fun p hp => ?_
  obtain ⟨b, hb, hp⟩ := List.mem_flatMap.mp hp
  exact (hi.placed b hb).disj (hbeside b hb) hp

end HeapState

end Invariant

namespace HeapState

/-- A new heap of 64 KB with 2 KB blocks. -/
def sampleHeap [Machine] : Option HeapState :=
  (addHeapWithMetadata 0x100000 (2 ^ (11 + 5)) (2 ^ 11) newNode).map fun r =>
    ⟨r.1, ⟨0x100000, 2048, calculateHeapMetadataSize (2 ^ (11 + 5)) (2 ^ 11), 0⟩, []⟩

theorem Reachable.sample {s : HeapState} (hs : @sampleHeap machine64 = some s) : @Reachable machine64 s := by
  let _ := machine64
  have hset : (addHeapWithMetadata 0x100000 (2 ^ (11 + 5)) (2 ^ 11) newNode).map Prod.snd = some (2048, some 0x100000) := by
    decide
  obtain ⟨⟨h, _⟩, hset, rfl⟩ := Option.map_eq_some_iff.1 hset
  rw [sampleHeap, hset] at hs
  obtain rfl := Option.some.inj hs
  exact Reachable.init (by omega) hset

theorem kmallocLegal_zero [Machine] {h : KmallocHeap} (size : Nat) : KmallocLegal h size 0 :=
  ⟨by simp [hasFlag], Or.inl rfl⟩

/-- The heap with one page in use. -/
def pageHeap [Machine] : Option HeapState := sampleHeap.bind fun s => s.exec (.kmalloc 4096 0)

theorem Reachable.exists_page : ∃ s, @pageHeap machine64 = some s ∧ @Reachable machine64 s ∧
    s.live = [⟨0x101000, 4096, 4096, 0⟩] ∧ s.heap.vaddr = 0x100000 ∧ s.heap.size = 65536 ∧ s.heap.minBlockSize = 2048 ∧
    s.heap.heapLastByte = 0x10ffff := by
  let _ := machine64
  have hrun : pageHeap.map (fun s => (s.live, s.heap.vaddr, s.heap.size, s.heap.minBlockSize, s.heap.heapLastByte)) =
      some ([⟨0x101000, 4096, 4096, 0⟩], 0x100000, 65536, 2048, 0x10ffff) := by decide
  obtain ⟨s, hs, hval⟩ := Option.map_eq_some_iff.1 hrun
  obtain ⟨s₀, hs₀, hstep⟩ := Option.bind_eq_some_iff.1 hs
  simp only [Prod.mk.injEq] at hval
  exact ⟨s, hs, (Reachable.sample hs₀).step (.kmalloc 4096 0) (kmallocLegal_zero _) hstep, hval⟩

/-- The heap after two allocations. -/
theorem Reachable.live_blocks_two : ∃ (_ : Machine) (s : HeapState), s.Reachable ∧
    s.live = [⟨0x100800, 2048, 1000, 0⟩, ⟨0x101000, 4096, 3000, 0⟩] ∧
    (s.metadata :: s.live).Pairwise (fun b c => b.ptr + b.size ≤ c.ptr ∨ c.ptr + c.size ≤ b.ptr) := by
  let M := machine64
  have hrun : (sampleHeap.bind fun s => (s.exec (.kmalloc 3000 0)).bind fun s => s.exec (.kmalloc 1000 0)).map
      HeapState.live = some [⟨0x100800, 2048, 1000, 0⟩, ⟨0x101000, 4096, 3000, 0⟩] := by decide
  obtain ⟨s₂, hrun, hlive⟩ := Option.map_eq_some_iff.1 hrun
  obtain ⟨s, hs, hrun⟩ := Option.bind_eq_some_iff.1 hrun
  obtain ⟨s₁, hstep₁, hstep₂⟩ := Option.bind_eq_some_iff.1 hrun
  have hr := ((Reachable.sample hs).step (.kmalloc 3000 0) (kmallocLegal_zero _) hstep₁).step (.kmalloc 1000 0)
    (kmallocLegal_zero _) hstep₂
  exact ⟨M, s₂, hr, hlive, hr.live_blocks.2.2.1⟩

end HeapState

end Usax.Kmalloc
