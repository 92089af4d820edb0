import Usax.Kmalloc.Accounting
import Usax.Lib.Runs

/-!
# The small heaps

`kmalloc_small_heaps.c.h`: small chunks come from linear-mapped heaps of 32 KB, which are allocated from the main heaps.
All of the small heaps are in one list, those that are not full in a second one, and three counters are kept: of all
heaps, of those that are not full and of the empty ones. The nodes of the lists are given by their addresses; the two
allocations from the main heaps that the creation of a small heap makes are given by their results.

The main result is `SmallState.Reachable.bookkeeping`: the lists and the counters agree in every state that is reached by
chunks of up to half of a small heap that are counted by their heap. `SmallState.bookkeeping_fails` has runs with others.
-/

namespace Usax.Kmalloc

open Usax.Lib Usax.Lib.Buddy Common

/-! ## Data model -/

def smallHeapMbs : Nat := 32

def smallHeapSize : Nat := 32768

def smallHeapMdSize : Nat := calculateHeapMetadataSize smallHeapSize smallHeapMbs

def smallHeapMaxAlloc : Nat := smallHeapSize / 16 - 1

structure SmallHeapsStats where
  totCount : Int
  peakCount : Int
  notFullCount : Int
  peakNotFullCount : Int
  emptyCount : Int
  lifetimeCreatedHeapsCount : Int
deriving DecidableEq, Repr

/-- The static data of the file, and the node objects that are allocated (`nodes`). -/
structure SmallHeaps where
  heap : Nat → KmallocHeap
  smallHeapsList : List Nat
  availSmallHeapsList : List Nat
  shs : SmallHeapsStats
  nodes : List Nat

/-- What the main heaps return for the data of a small heap and for its node; `before` is the byte in front of the
data. -/
structure MainAlloc where
  heapData : Option Nat
  node : Option Nat
  before : BlockNode

namespace SmallHeaps

/-- `pos->heap = h`. -/
def setHeap (s : SmallHeaps) (pos : Nat) (h : KmallocHeap) : SmallHeaps :=
  { s with heap := Function.update s.heap pos h }

def addInAvailList (s : SmallHeaps) (node : Nat) : SmallHeaps :=
  let n := s.shs.notFullCount + 1
  { s with
    shs := { s.shs with notFullCount := n, peakNotFullCount := max s.shs.peakNotFullCount n }
    availSmallHeapsList := s.availSmallHeapsList ++ [node] }

def removeFromAvailList (s : SmallHeaps) (node : Nat) : SmallHeaps :=
  { s with
    shs := { s.shs with notFullCount := s.shs.notFullCount - 1 }
    availSmallHeapsList := s.availSmallHeapsList.erase node }

def registerSmallHeapNode (s : SmallHeaps) (node : Nat) : SmallHeaps :=
  let n := s.shs.totCount + 1
  addInAvailList
    { s with
      shs := { s.shs with totCount := n, peakCount := max s.shs.peakCount n }
      smallHeapsList := s.smallHeapsList ++ [node] } node

def unregisterSmallHeapNode (s : SmallHeaps) (node : Nat) : SmallHeaps :=
  let s := removeFromAvailList s node
  { s with
    shs := { s.shs with totCount := s.shs.totCount - 1 }
    smallHeapsList := s.smallHeapsList.erase node }

def destroySmallHeap (s : SmallHeaps) (node : Nat) : SmallHeaps :=
  let s := unregisterSmallHeapNode s node
  { s with nodes := s.nodes.erase node }

/-- The end of `alloc_new_small_heap_unsafe`: a node for a heap that has been created. -/
def withNewNode (s : SmallHeaps) (newNode : Nat) (h : KmallocHeap) : SmallHeaps :=
  registerSmallHeapNode
    { s.setHeap newNode h with
      nodes := newNode :: s.nodes
      shs := { s.shs with lifetimeCreatedHeapsCount := s.shs.lifetimeCreatedHeapsCount + 1 } } newNode

/-- The search of `small_heaps_kfree`: the first small heap with the address in its range. -/
def findSmallHeap (s : SmallHeaps) (vaddr : Nat) : Option Nat :=
  s.smallHeapsList.find? fun pos =>
    let hva := (s.heap pos).vaddr
    let hend := (s.heap pos).heapLastByte - (s.heap pos).minBlockSize + 1
    decide (hva ≤ vaddr ∧ vaddr ≤ hend)

variable [Machine]

/-- `alloc_new_small_heap_unsafe`. When the node cannot be allocated, the data is freed again. -/
def allocNewSmallHeap (s : SmallHeaps) (main : MainAlloc) : Option (SmallHeaps × Option Nat) :=
  match main.heapData, main.node with
  | some heapData, some newNode => do
    let (h, _, _) ← addHeapWithMetadata heapData smallHeapSize smallHeapMbs main.before
    return (s.withNewNode newNode h, some newNode)
  | _, _ => some (s, none)

/-- The loop of `small_heaps_kmalloc` over the heaps that are not full: the value left in `*size` and the pointer. -/
def kmallocFromAvail (s : SmallHeaps) (size flags : Nat) : List Nat → Option (SmallHeaps × Nat × Option Nat)
  | [] => some (s, size, none)
  | pos :: rest =>
    let h := s.heap pos
    if subWord h.size h.memAllocated < size then kmallocFromAvail s size flags rest
    else do
      let wasEmpty := decide (h.memAllocated = smallHeapMdSize)
      match ← perHeapKmallocUnsafe h size flags with
      | (h, size, some ret) =>
        let s := s.setHeap pos h
        let s := if wasEmpty then { s with shs := { s.shs with emptyCount := s.shs.emptyCount - 1 } } else s
        let s := if h.memAllocated = h.size then s.removeFromAvailList pos else s
        return (s, size, some ret)
      | (h, size, none) => kmallocFromAvail (s.setHeap pos h) size flags rest

def smallHeapsKmalloc (s : SmallHeaps) (size flags : Nat) (main : MainAlloc) :
    Option (SmallHeaps × Nat × Option Nat) := do
  match ← s.kmallocFromAvail size flags s.availSmallHeapsList with
  | (s, size, some ret) => return (s, size, some ret)
  | (s, size, none) =>
    match ← s.allocNewSmallHeap main with
    | (s, none) => return (s, size, none)
    | (s, some newNode) =>
      let (h, size, ret) ← perHeapKmallocUnsafe (s.heap newNode) size flags
      return (s.setHeap newNode h, size, ret)

/-- `small_heaps_kfree`, with `MAX_EMPTY_SMALL_HEAPS` as an argument: the value left in `*size`, and whether the heap was
found (`-ENOENT` otherwise). -/
def smallHeapsKfree (maxEmptySmallHeaps : Nat) (s : SmallHeaps) (ptr size flags : Nat) :
    Option (SmallHeaps × Nat × Bool) :=
  match s.findSmallHeap ptr with
  | none => some (s, size, false)
  | some node => do
    let wasFull := decide ((s.heap node).memAllocated = (s.heap node).size)
    let (h, size) ← perHeapKfreeUnsafe (s.heap node) ptr size flags
    let s := s.setHeap node h
    if wasFull then
      return (s.addInAvailList node, size, true)
    else if h.memAllocated = smallHeapMdSize then
      if maxEmptySmallHeaps ≠ 0 ∧ s.shs.emptyCount < maxEmptySmallHeaps then
        return ({ s with shs := { s.shs with emptyCount := s.shs.emptyCount + 1 } }, size, true)
      else
        return (s.destroySmallHeap node, size, true)
    else
      return (s, size, true)

def initial (h : KmallocHeap) : SmallHeaps := ⟨fun _ => h, [], [], ⟨0, 0, 0, 0, 0, 0⟩, []⟩

end SmallHeaps

/-! ## The system -/

/-- The small heaps, and the chunks that are held, by the heap they are from. -/
structure SmallState where
  sh : SmallHeaps
  held : Nat → List LiveBlock

/-- What the users do. `apart` is no call: it makes the sub-blocks of a split chunk chunks of their own. -/
inductive SmallOp where
  | kmalloc (size flags : Nat) (main : MainAlloc)
  | kfree (b : LiveBlock) (userSize flags : Nat)
  | apart (b : LiveBlock)

namespace SmallState

def setHeld (s : SmallState) (pos : Nat) (bs : List LiveBlock) : SmallState :=
  { s with held := Function.update s.held pos bs }

/-- The two main-heap allocations are beside those that are in use. -/
structure MainFresh (s : SmallState) (main : MainAlloc) : Prop where
  heapData : ∀ data, main.heapData = some data → ∀ pos ∈ s.sh.smallHeapsList,
    data + smallHeapSize ≤ (s.sh.heap pos).vaddr ∨ (s.sh.heap pos).vaddr + smallHeapSize ≤ data
  node : ∀ node, main.node = some node → node ∉ s.sh.nodes

/-- A size and flags that are legal for a small heap, without `KMALLOC_FL_NO_ACTUAL_ALLOC` and up to half of the heap. -/
structure SmallSize (size flags : Nat) : Prop where
  multiStep : hasFlag flags flMultiStep = true → size ≠ 0 ∧ smallHeapMbs ∣ size
  subBlock : flags &&& flSubBlockMinSizeMask = 0 ∨
    smallHeapMbs ≤ flags &&& flSubBlockMinSizeMask ∧ ∃ e, flags &&& flSubBlockMinSizeMask = 2 ^ e
  actual : hasFlag flags flNoActual = false
  half : size ≤ smallHeapSize / 2

/-- Those of them that `general_kmalloc` passes on to the small heaps. -/
structure SmallRequest (size flags : Nat) : Prop extends SmallSize size flags where
  small : size ≤ smallHeapMaxAlloc ∨
    flags &&& flSubBlockMinSizeMask ≠ 0 ∧ flags &&& flSubBlockMinSizeMask ≤ smallHeapMaxAlloc

variable [Machine]

/-- One step. The heap that a new chunk is from is the one that a free of it finds. -/
def exec (maxEmptySmallHeaps : Nat) (s : SmallState) : SmallOp → Option SmallState
  | .kmalloc size flags main => do
    match ← s.sh.smallHeapsKmalloc size flags main with
    | (sh, _, none) => return { s with sh := sh }
    | (sh, sz, some ptr) =>
      let pos ← sh.findSmallHeap ptr
      return { sh := sh, held := Function.update s.held pos (⟨ptr, sz, size, flags⟩ :: s.held pos) }
  | .kfree b userSize flags => do
    let pos ← s.sh.findSmallHeap b.ptr
    let (sh, _, _) ← s.sh.smallHeapsKfree maxEmptySmallHeaps b.ptr userSize flags
    return { sh := sh, held := Function.update s.held pos ((s.held pos).erase b) }
  | .apart b => do
    let pos ← s.sh.findSmallHeap b.ptr
    return s.setHeld pos (b.subBlocks ++ (s.held pos).erase b)

/-- Requests up to half of a small heap that map what they return, and frees of chunks that are held, with the matching
flags; a split chunk is freed at once only if its sub-blocks are minimum blocks. -/
def Exact (s : SmallState) : SmallOp → Prop
  | .kmalloc size flags main => SmallRequest size flags ∧ s.MainFresh main
  | .kfree b userSize flags => ∃ pos, b ∈ s.held pos ∧ KfreeMatches (s.sh.heap pos) b userSize flags ∧
      (b.subBlockSize = 0 ∨ b.subBlockSize = smallHeapMbs)
  | .apart b => ∃ pos, b ∈ s.held pos ∧ b.subBlockSize ≠ 0 ∧ b.subBlockSize ∣ b.size

/-- The states that are reached without any small heap at the start. -/
inductive Reachable (maxEmptySmallHeaps : Nat) : SmallState → Prop
  | initial (h : KmallocHeap) : Reachable maxEmptySmallHeaps ⟨SmallHeaps.initial h, fun _ => []⟩
  | step {s s' : SmallState} (op : SmallOp) : Reachable maxEmptySmallHeaps s → s.Exact op →
      s.exec maxEmptySmallHeaps op = some s' → Reachable maxEmptySmallHeaps s'

/-! ## One small heap -/

/-- A small heap whose metadata and chunks are what is in use, and are what is counted. -/
def NodeInv (h : KmallocHeap) (bs : List LiveBlock) : Prop :=
  HeapState.CountedInv 5 10 ⟨h, ⟨h.vaddr, smallHeapMdSize, smallHeapMdSize, 0⟩, bs⟩

end SmallState

theorem SmallState.NodeInv.not_noFit (v : Nat) {k : Nat} (hk : k ≤ 9) :
    ¬NoFit 10 ([(⟨v, smallHeapMdSize, smallHeapMdSize, 0⟩ : LiveBlock)].flatMap (LiveBlock.pieces v 5 10)) k := by
  have hpieces : LiveBlock.pieces v 5 10 ⟨v, smallHeapMdSize, smallHeapMdSize, 0⟩ = [(6, 0)] := by
    have hstart : LiveBlock.start v 5 ⟨v, smallHeapMdSize, smallHeapMdSize, 0⟩ = 0 := by simp [LiveBlock.start]
    have hunits : LiveBlock.units 5 ⟨v, smallHeapMdSize, smallHeapMdSize, 0⟩ = 2 ^ 6 := by
      simp [LiveBlock.units, smallHeapMdSize, calculateHeapMetadataSize, smallHeapSize, smallHeapMbs]
    have hsub : LiveBlock.sub 5 ⟨v, smallHeapMdSize, smallHeapMdSize, 0⟩ = none := by
      simp [LiveBlock.sub, LiveBlock.subBlockSize]
    rw [LiveBlock.pieces, hstart, hunits, hsub, runPieces_two_pow none (by omega)]
    rfl
  intro hno
  refine hno 512 ⟨by simp only; omega, pow_dvd_pow 2 hk, ?_⟩ (fun p hp => ?_)
  · have : 2 ^ k ≤ 2 ^ 9 := Nat.pow_le_pow_right (by omega) hk
    simp only
    omega
  · rw [List.flatMap_singleton, hpieces, List.mem_singleton] at hp
    subst hp
    exact Or.inl (by norm_num)

section Node

variable [Machine] {h : KmallocHeap} {bs : List LiveBlock}

open SmallState

namespace SmallState.NodeInv

theorem size_eq (hi : NodeInv h bs) : h.size = smallHeapSize := hi.owns.shape.size

theorem minBlockSize_eq (hi : NodeInv h bs) : h.minBlockSize = smallHeapMbs := hi.owns.shape.minBlockSize

theorem mem_eq (hi : NodeInv h bs) : h.memAllocated = smallHeapMdSize + (bs.map LiveBlock.size).sum := hi.bytes

theorem mem_le (hi : NodeInv h bs) : h.memAllocated ≤ smallHeapSize := by
  have := hi.bytes_le.1
  rw [hi.mem_eq]
  exact this

/-- A chunk has at least a minimum block, and at most half of the heap, since the metadata is at its start. -/
theorem chunk_size (hi : NodeInv h bs) {b : LiveBlock} (hb : b ∈ bs) :
    smallHeapMbs ≤ b.size ∧ b.size ≤ smallHeapSize / 2 := by
  have hpb : Placed h.vaddr 5 10 b := hi.placed b (List.mem_cons_of_mem _ hb)
  have hpm : Placed h.vaddr 5 10 ⟨h.vaddr, smallHeapMdSize, smallHeapMdSize, 0⟩ := hi.placed _ List.mem_cons_self
  obtain ⟨k, hk, hn, _⟩ := hpb.block
  have hpos := hpb.pos
  have hlevel : k ≤ 10 := hk.level
  have hin := hk.inside
  have hk9 : k ≤ 9 := by
    by_contra hc
    obtain rfl : k = 10 := by omega
    simp only at hin
    -- the block would be all of the heap
    have hd := List.pairwise_append.1 hi.owns.disjoint
    have hd := hpm.disjoint hpb (fun p hp q hq => hd.2.2 p hp q (List.mem_flatMap.2 ⟨b, hb, hq⟩))
    have hptr := hpb.ptr
    rw [show b.start h.vaddr 5 = 0 by omega, Nat.mul_zero, Nat.add_zero] at hptr
    have hsz := hpb.size
    simp only [smallHeapMdSize, calculateHeapMetadataSize, smallHeapSize, smallHeapMbs] at hd
    omega
  have hpow : 2 ^ k ≤ 2 ^ 9 := Nat.pow_le_pow_right (by omega) hk9
  have hsz := hpb.size
  simp only [smallHeapMbs, smallHeapSize]
  omega

theorem mem_eq_md_iff (hi : NodeInv h bs) : h.memAllocated = smallHeapMdSize ↔ bs = [] := by
  rw [hi.mem_eq]
  cases bs with
  | nil => simp
  | cons b bs =>
    have := (hi.chunk_size List.mem_cons_self).1
    simp only [List.map_cons, List.sum_cons, smallHeapMbs] at this ⊢
    refine iff_of_false (by omega) (by simp)

theorem chunk_range (hi : NodeInv h bs) {b : LiveBlock} (hb : b ∈ bs) :
    h.vaddr ≤ b.ptr ∧ b.ptr + b.size ≤ h.vaddr + smallHeapSize := by
  have hpb : Placed h.vaddr 5 10 b := hi.placed b (List.mem_cons_of_mem _ hb)
  obtain ⟨k, hk, hn, _⟩ := hpb.block
  have hin : b.start h.vaddr 5 + 2 ^ k ≤ 2 ^ 10 := hk.inside
  have h₁ : b.ptr = h.vaddr + 2 ^ 5 * b.start h.vaddr 5 := hpb.ptr
  have h₂ := hpb.size
  simp only [smallHeapSize]
  omega

theorem requested {ptr sz r r' flags : Nat} (hi : NodeInv h (⟨ptr, sz, r, flags⟩ :: bs)) (hr : r' ≤ sz) :
    NodeInv h (⟨ptr, sz, r', flags⟩ :: bs) where
  owns := hi.owns
  placed c hc := by
    rcases List.mem_cons.1 hc with rfl | hc
    · exact hi.placed _ List.mem_cons_self
    · rcases List.mem_cons.1 hc with rfl | hc
      · have hp := hi.placed ⟨ptr, sz, r, flags⟩ (by simp)
        exact ⟨hp.ptr, hp.size, hp.sub, hp.pos, hp.block, hr⟩
      · exact hi.placed c (by simp [hc])
  metadata := hi.metadata
  quiet := hi.quiet
  counter := hi.counter
  bytes := hi.bytes

/-- **Allocations from a small heap.** When one fails, `*size` may have been rounded up. -/
theorem kmalloc (hi : NodeInv h bs) {size flags : Nat} (hs : SmallSize size flags) :
    (∃ sz, perHeapKmallocUnsafe h size flags = some (h, sz, none) ∧ SmallSize sz flags ∧ size ≤ sz ∧
      ∃ k ≤ 9, NoFit 10 ((⟨h.vaddr, smallHeapMdSize, smallHeapMdSize, 0⟩ :: bs).flatMap (LiveBlock.pieces h.vaddr 5 10)) k) ∨
    ∃ h' sz ptr, perHeapKmallocUnsafe h size flags = some (h', sz, some ptr) ∧ size ≤ sz ∧ Same h h' ∧
      ∀ r ≤ sz, NodeInv h' (⟨ptr, sz, r, flags⟩ :: bs) := by
  have hl : KmallocLegal h size flags := by
    obtain ⟨h₁, h₂, _, _⟩ := hs
    rw [← hi.minBlockSize_eq] at h₁ h₂
    exact ⟨h₁, h₂⟩
  have hhalf : size ≤ 2 ^ (5 + 9) := hs.half
  obtain ⟨k, hk, hround, hle⟩ := exists_roundedUpSize (m := 5) (K := 9) (by omega) hhalf
  rcases HeapState.CountedInv.kmalloc hi hl hs.actual with ⟨sz, hrun, hsz, hno⟩ | ⟨h', sz, ptr, hrun, hfr, hi'⟩
  · refine Or.inl ⟨sz, hrun, ?_, ?_, k, hk, hno k hround (le_trans hhalf (by norm_num))⟩
    · rcases hsz with rfl | rfl
      · exact hs
      · rw [hround]
        exact ⟨fun _ => ⟨by positivity, Dvd.intro _ (pow_add 2 5 k).symm⟩, hs.subBlock, hs.actual,
          le_trans (Nat.pow_le_pow_right (by omega) (show 5 + k ≤ 14 by omega)) (by simp [smallHeapSize])⟩
    · rcases hsz with rfl | rfl
      · exact le_refl _
      · rw [hround]
        exact hle
  · have hv : h'.vaddr = h.vaddr := hfr.vaddr
    have hi' : NodeInv h' (⟨ptr, sz, size, flags⟩ :: bs) := by
      unfold NodeInv
      rw [hv]
      exact hi'
    have hreq : size ≤ sz := (hi'.placed ⟨ptr, sz, size, flags⟩ (by simp)).requested
    exact Or.inr ⟨h', sz, ptr, hrun, hreq, hfr.toSame, fun r hr => hi'.requested hr⟩

/-- **Frees into a small heap.** -/
theorem kfree (hi : NodeInv h bs) {b : LiveBlock} {userSize flags : Nat} (hb : b ∈ bs)
    (hl : KfreeMatches h b userSize flags) (hs : b.subBlockSize = 0 ∨ b.subBlockSize = smallHeapMbs) :
    ∃ h' sz, perHeapKfreeUnsafe h b.ptr userSize flags = some (h', sz) ∧ Same h h' ∧ NodeInv h' (bs.erase b) := by
  obtain ⟨h', sz, hrun, hfr, hi'⟩ := HeapState.CountedInv.kfree hi hb hl (by
    rw [hi.minBlockSize_eq]
    exact hs)
  have hv : h'.vaddr = h.vaddr := hfr.vaddr
  refine ⟨h', sz, hrun, hfr.toSame, ?_⟩
  unfold NodeInv
  rw [hv]
  exact hi'

theorem apart (hi : NodeInv h bs) {b : LiveBlock} (hb : b ∈ bs) (h₀ : b.subBlockSize ≠ 0)
    (hd : b.subBlockSize ∣ b.size) : NodeInv h (b.subBlocks ++ bs.erase b) := by
  have hsum : (b.subBlocks.map LiveBlock.size).sum = b.size := by
    obtain ⟨c, hc⟩ := hd
    have hpos : 0 < b.subBlockSize := by omega
    simp only [LiveBlock.subBlocks, List.map_map, Function.comp_def, List.map_const', List.length_range, List.sum_replicate]
    rw [hc, Nat.mul_div_cancel_left _ hpos, Nat.mul_comm]
    rfl
  refine ⟨hi.toInv.apart hb h₀ hd, ?_⟩
  have hperm := ((List.perm_cons_erase hb).map LiveBlock.size).sum_eq
  have hmem := hi.mem_eq
  show h.memAllocated = smallHeapMdSize + ((b.subBlocks ++ bs.erase b).map LiveBlock.size).sum
  rw [List.map_append, List.sum_append, hsum, hmem, hperm, List.map_cons, List.sum_cons]

/-- **A new small heap** holds its metadata only. -/
theorem new (data : Nat) (before : BlockNode) : ∃ h, addHeapWithMetadata data smallHeapSize smallHeapMbs before =
    some (h, smallHeapMdSize, some data) ∧ NodeInv h [] ∧ h.vaddr = data ∧ h.heapLastByte = data + smallHeapSize - 1 := by
  rcases addHeapWithMetadata_spec (m := 5) (K := 10) data before (by omega) with ⟨h₀, _⟩ | ⟨h, k, hrun, _, hround, hal⟩
  · cases h₀
  · have hk : k = 6 := by
      rw [roundupNextPowerOf2_two_pow (by omega), max_eq_left (by norm_num)] at hround
      have := Nat.pow_right_injective (le_refl 2) hround
      omega
    subst hk
    have hv : h.vaddr = data := hal.frame.vaddr
    have hi := HeapState.Inv.init (show 5 + 10 < 31 by omega) hrun
    have hmem : h.memAllocated = smallHeapMdSize := by
      have h32 := two_pow_32_le
      have hmod := hal.grows.mod
      have hlt := hal.grows.lt (by simp [kmallocCreateHeap])
      simp only [kmallocCreateHeap, if_true, Nat.zero_add] at hmod
      rw [Nat.mod_eq_of_lt hlt, Nat.mod_eq_of_lt (by omega)] at hmod
      exact hmod
    refine ⟨h, hrun, ⟨?_, hmem⟩, hv, hal.frame.heapLastByte⟩
    rw [hv]
    exact hi

end SmallState.NodeInv

end Node

/-! ## The lists and the counters -/

def RegionsApart (h h' : KmallocHeap) : Prop :=
  h.vaddr + smallHeapSize ≤ h'.vaddr ∨ h'.vaddr + smallHeapSize ≤ h.vaddr

theorem countP_of_eq_off {p q : Nat → Bool} {l : List Nat} {x : Nat} (hl : l.Nodup) (hx : x ∈ l)
    (h : ∀ y ∈ l, y ≠ x → p y = q y) :
    l.countP p + (if q x then 1 else 0) = l.countP q + if p x then 1 else 0 := by
  have hp := List.perm_cons_erase hx
  have hrest : (l.erase x).countP p = (l.erase x).countP q := by
    refine List.countP_congr (fun y hy => ?_)
    obtain ⟨hne, hy⟩ := (hl.mem_erase_iff).1 hy
    rw [h y hy hne]
  rw [hp.countP_eq p, hp.countP_eq q, List.countP_cons, List.countP_cons, hrest]
  omega

namespace SmallState

variable [Machine]

/-- The two lists and the three counters are right, and no chunk that is held is from a heap that is gone. -/
structure Inv (s : SmallState) : Prop where
  nodup : s.sh.smallHeapsList.Nodup
  nodes : s.sh.nodes.Perm s.sh.smallHeapsList
  availNodup : s.sh.availSmallHeapsList.Nodup
  avail : ∀ pos, pos ∈ s.sh.availSmallHeapsList ↔
    pos ∈ s.sh.smallHeapsList ∧ (s.sh.heap pos).memAllocated < (s.sh.heap pos).size
  totCount : s.sh.shs.totCount = s.sh.smallHeapsList.length
  notFullCount : s.sh.shs.notFullCount = s.sh.availSmallHeapsList.length
  emptyCount : s.sh.shs.emptyCount =
    s.sh.smallHeapsList.countP (fun pos => decide ((s.sh.heap pos).memAllocated = smallHeapMdSize))
  heaps : ∀ pos ∈ s.sh.smallHeapsList, NodeInv (s.sh.heap pos) (s.held pos)
  lastByte : ∀ pos ∈ s.sh.smallHeapsList, (s.sh.heap pos).heapLastByte = (s.sh.heap pos).vaddr + smallHeapSize - 1
  regions : s.sh.smallHeapsList.Pairwise (fun p q => RegionsApart (s.sh.heap p) (s.sh.heap q))
  gone : ∀ pos, pos ∉ s.sh.smallHeapsList → s.held pos = []

namespace Inv

variable {s : SmallState}

theorem mem_of_held (hi : s.Inv) {b : LiveBlock} {pos : Nat} (hb : b ∈ s.held pos) : pos ∈ s.sh.smallHeapsList := by
  by_contra hc
  rw [hi.gone pos hc] at hb
  cases hb

theorem find (hi : s.Inv) {b : LiveBlock} {pos : Nat} (hb : b ∈ s.held pos) :
    s.sh.findSmallHeap b.ptr = some pos := by
  have hpos := hi.mem_of_held hb
  have hn := hi.heaps pos hpos
  obtain ⟨h₁, h₂⟩ := hn.chunk_range hb
  have h₃ := (hn.chunk_size hb).1
  have hrange : ∀ q ∈ s.sh.smallHeapsList,
      ((s.sh.heap q).vaddr ≤ b.ptr ∧ b.ptr ≤ (s.sh.heap q).heapLastByte - (s.sh.heap q).minBlockSize + 1) ↔ q = pos := by
    intro q hq
    rw [hi.lastByte q hq, (hi.heaps q hq).minBlockSize_eq]
    simp only [smallHeapSize, smallHeapMbs] at *
    refine ⟨fun hr => ?_, fun e => by subst e; omega⟩
    by_contra hne
    have hsymm : Std.Symm (fun p q => RegionsApart (s.sh.heap p) (s.sh.heap q)) := ⟨fun _ _ h => Or.symm h⟩
    have hap := hi.regions.forall hq hpos hne
    simp only [RegionsApart, smallHeapSize] at hap
    omega
  unfold SmallHeaps.findSmallHeap
  rw [List.find?_eq_some_iff_append]
  obtain ⟨as, cs, hlist⟩ := List.append_of_mem hpos
  refine ⟨by simpa using (hrange pos hpos).2 rfl, as, cs, hlist, fun q hq => ?_⟩
  have hql : q ∈ s.sh.smallHeapsList := by rw [hlist]; exact List.mem_append_left _ hq
  have hne : q ≠ pos := fun e => by
    have := hi.nodup
    rw [hlist, List.nodup_append] at this
    exact this.2.2 q hq pos List.mem_cons_self e
  have hout := mt (hrange q hql).1 hne
  simp only [Bool.not_eq_true', decide_eq_false_iff_not]
  exact hout

theorem countP_update (hi : s.Inv) {pos : Nat} (hpos : pos ∈ s.sh.smallHeapsList) (h : KmallocHeap) :
    s.sh.smallHeapsList.countP
        (fun q => decide ((Function.update s.sh.heap pos h q).memAllocated = smallHeapMdSize)) +
      (if (s.sh.heap pos).memAllocated = smallHeapMdSize then 1 else 0) =
    s.sh.smallHeapsList.countP (fun q => decide ((s.sh.heap q).memAllocated = smallHeapMdSize)) +
      if h.memAllocated = smallHeapMdSize then 1 else 0 := by
  have := countP_of_eq_off (p := fun q => decide ((Function.update s.sh.heap pos h q).memAllocated = smallHeapMdSize))
    (q := fun q => decide ((s.sh.heap q).memAllocated = smallHeapMdSize)) hi.nodup hpos
    (fun y _ hne => by simp only [Function.update_of_ne hne])
  simpa using this

/-- **One heap changes**, and the list of the heaps that are not full and the counters with it. -/
theorem update (hi : s.Inv) {pos : Nat} (hpos : pos ∈ s.sh.smallHeapsList) {h : KmallocHeap} {bs : List LiveBlock}
    (hsame : Same (s.sh.heap pos) h) (hn : NodeInv h bs) {avail : List Nat} {shs : SmallHeapsStats}
    (hnodup : avail.Nodup)
    (havail : ∀ q, q ∈ avail ↔ if q = pos then h.memAllocated < h.size else q ∈ s.sh.availSmallHeapsList)
    (htot : shs.totCount = s.sh.shs.totCount) (hnot : shs.notFullCount = avail.length)
    (hempty : shs.emptyCount + (if (s.sh.heap pos).memAllocated = smallHeapMdSize then 1 else 0) =
      s.sh.shs.emptyCount + if h.memAllocated = smallHeapMdSize then 1 else 0) :
    Inv ⟨{ s.sh with heap := Function.update s.sh.heap pos h, availSmallHeapsList := avail, shs := shs },
      Function.update s.held pos bs⟩ := by
  have hv : ∀ q, (Function.update s.sh.heap pos h q).vaddr = (s.sh.heap q).vaddr := fun q => by
    by_cases hq : q = pos
    · rw [hq, Function.update_self, hsame.vaddr]
    · rw [Function.update_of_ne hq]
  refine ⟨hi.nodup, hi.nodes, hnodup, fun q => ?_, htot.trans hi.totCount, hnot, ?_, fun q hq => ?_, fun q hq => ?_, ?_,
    fun q hq => ?_⟩
  · rw [havail]
    by_cases hq : q = pos
    · simp [hq, hpos]
    · simp only [if_neg hq, Function.update_of_ne hq]
      exact hi.avail q
  · have hcount := congrArg (Nat.cast : Nat → Int) (hi.countP_update hpos h)
    push_cast at hcount
    have hold := hi.emptyCount
    simp only
    omega
  · by_cases he : q = pos
    · subst he
      simpa using hn
    · simpa only [Function.update_of_ne he] using hi.heaps q hq
  · simp only [hv]
    by_cases he : q = pos
    · subst he
      rw [Function.update_self, hsame.heapLastByte]
      exact hi.lastByte q hq
    · rw [Function.update_of_ne he]
      exact hi.lastByte q hq
  · refine hi.regions.imp (fun {p q} h => ?_)
    simp only [RegionsApart, hv] at h ⊢
    exact h
  · have hne : q ≠ pos := fun e => hq (e ▸ hpos)
    simp only [Function.update_of_ne hne]
    exact hi.gone q hq

theorem alloc (hi : s.Inv) {pos : Nat} (hpos : pos ∈ s.sh.availSmallHeapsList) {h : KmallocHeap} {b : LiveBlock}
    (hsame : Same (s.sh.heap pos) h) (hn : NodeInv h (b :: s.held pos)) :
    let sh := s.sh.setHeap pos h
    let sh := if decide ((s.sh.heap pos).memAllocated = smallHeapMdSize) then
      { sh with shs := { sh.shs with emptyCount := sh.shs.emptyCount - 1 } } else sh
    let sh := if h.memAllocated = h.size then sh.removeFromAvailList pos else sh
    Inv ⟨sh, Function.update s.held pos (b :: s.held pos)⟩ := by
  have hlist := ((hi.avail pos).1 hpos).1
  have hne : h.memAllocated ≠ smallHeapMdSize := fun e => by
    cases hn.mem_eq_md_iff.1 e
  have hle := hn.mem_le
  rw [← hn.size_eq] at hle
  have hnot := hi.notFullCount
  have hlen : (s.sh.availSmallHeapsList.erase pos).length + 1 = s.sh.availSmallHeapsList.length := by
    rw [List.length_erase_of_mem hpos]
    have := List.length_pos_of_mem hpos
    omega
  have hdec : s.sh.shs.notFullCount - 1 = ((s.sh.availSmallHeapsList.erase pos).length : Int) := by omega
  have hkeep : h.memAllocated ≠ h.size → ∀ q, q ∈ s.sh.availSmallHeapsList ↔
      if q = pos then h.memAllocated < h.size else q ∈ s.sh.availSmallHeapsList := fun hfull q => by
    split
    · rename_i hq
      exact iff_of_true (hq ▸ hpos) (by omega)
    · exact Iff.rfl
  have herase : h.memAllocated = h.size → ∀ q, q ∈ s.sh.availSmallHeapsList.erase pos ↔
      if q = pos then h.memAllocated < h.size else q ∈ s.sh.availSmallHeapsList := fun hfull q => by
    rw [hi.availNodup.mem_erase_iff]
    by_cases hq : q = pos <;> simp [hq, hfull]
  simp only
  by_cases hempty : (s.sh.heap pos).memAllocated = smallHeapMdSize
  · have hcount : s.sh.shs.emptyCount - 1 + (if (s.sh.heap pos).memAllocated = smallHeapMdSize then 1 else 0) =
        s.sh.shs.emptyCount + if h.memAllocated = smallHeapMdSize then 1 else 0 := by
      simp [hempty, hne]
    by_cases hfull : h.memAllocated = h.size
    · rw [if_pos hfull, if_pos (decide_eq_true hempty)]
      exact hi.update hlist hsame hn (hi.availNodup.erase pos) (herase hfull) rfl hdec hcount
    · rw [if_neg hfull, if_pos (decide_eq_true hempty)]
      exact hi.update hlist hsame hn hi.availNodup (hkeep hfull) rfl hnot hcount
  · have hcount : s.sh.shs.emptyCount + (if (s.sh.heap pos).memAllocated = smallHeapMdSize then 1 else 0) =
        s.sh.shs.emptyCount + if h.memAllocated = smallHeapMdSize then 1 else 0 := by
      simp [hempty, hne]
    have hdecide : ¬decide ((s.sh.heap pos).memAllocated = smallHeapMdSize) = true := by simpa using hempty
    by_cases hfull : h.memAllocated = h.size
    · rw [if_pos hfull, if_neg hdecide]
      exact hi.update hlist hsame hn (hi.availNodup.erase pos) (herase hfull) rfl hdec hcount
    · rw [if_neg hfull, if_neg hdecide]
      exact hi.update hlist hsame hn hi.availNodup (hkeep hfull) rfl hnot hcount

/-- **The loop over the heaps that are not full**: no heap has room and nothing but `*size` changes, or one has. -/
theorem kmallocFromAvail (hi : s.Inv) {orig flags : Nat} : ∀ {ids : List Nat} {size : Nat},
    (∀ pos ∈ ids, pos ∈ s.sh.availSmallHeapsList) → SmallSize size flags → orig ≤ size →
    (∃ sz, s.sh.kmallocFromAvail size flags ids = some (s.sh, sz, none) ∧ SmallSize sz flags ∧ orig ≤ sz) ∨
    ∃ sh sz ptr pos, s.sh.kmallocFromAvail size flags ids = some (sh, sz, some ptr) ∧
      Inv ⟨sh, Function.update s.held pos (⟨ptr, sz, orig, flags⟩ :: s.held pos)⟩
  | [], size, _, hs, ho => Or.inl ⟨size, rfl, hs, ho⟩
  | pos :: ids, size, hids, hs, ho => by
    have hpos := hids pos List.mem_cons_self
    have hrest : ∀ q ∈ ids, q ∈ s.sh.availSmallHeapsList := fun q hq => hids q (List.mem_cons_of_mem _ hq)
    have hn := hi.heaps pos ((hi.avail pos).1 hpos).1
    rw [SmallHeaps.kmallocFromAvail]
    simp only
    split
    · exact hi.kmallocFromAvail hrest hs ho
    · rcases hn.kmalloc hs with ⟨sz, hrun, hs', hle, _⟩ | ⟨h, sz, ptr, hrun, hle, hsame, hn'⟩
      · have hself : s.sh.setHeap pos (s.sh.heap pos) = s.sh := by
          simp [SmallHeaps.setHeap]
        simp only [hrun, Option.bind_eq_bind, Option.bind_some, hself]
        exact hi.kmallocFromAvail hrest hs' (ho.trans hle)
      · refine Or.inr ⟨_, sz, ptr, pos, ?_, hi.alloc hpos hsame (hn' orig (ho.trans hle))⟩
        simp only [hrun, Option.bind_eq_bind, Option.bind_some]
        rfl

/-- **A new heap** with a chunk in it. -/
theorem add (hi : s.Inv) {node : Nat} (hnew : node ∉ s.sh.nodes) {h : KmallocHeap} {bs : List LiveBlock}
    (hn : NodeInv h bs) (hbs : bs ≠ []) (hfull : h.memAllocated < h.size)
    (hlast : h.heapLastByte = h.vaddr + smallHeapSize - 1)
    (hregion : ∀ pos ∈ s.sh.smallHeapsList, RegionsApart (s.sh.heap pos) h) {shs : SmallHeapsStats}
    (htot : shs.totCount = s.sh.shs.totCount + 1) (hnot : shs.notFullCount = s.sh.shs.notFullCount + 1)
    (hempty : shs.emptyCount = s.sh.shs.emptyCount) :
    Inv ⟨⟨Function.update s.sh.heap node h, s.sh.smallHeapsList ++ [node], s.sh.availSmallHeapsList ++ [node], shs,
      node :: s.sh.nodes⟩, Function.update s.held node bs⟩ := by
  have hlist : node ∉ s.sh.smallHeapsList := fun hc => hnew (hi.nodes.symm.subset hc)
  have havail : node ∉ s.sh.availSmallHeapsList := fun hc => hlist ((hi.avail node).1 hc).1
  have hold : ∀ q ∈ s.sh.smallHeapsList, Function.update s.sh.heap node h q = s.sh.heap q := fun q hq =>
    Function.update_of_ne (fun e => hlist (by rw [← e]; exact hq)) _ _
  have hself := Function.update_self node h s.sh.heap
  refine ⟨?_, ?_, ?_, fun q => ?_, ?_, ?_, ?_, fun q hq => ?_, fun q hq => ?_, ?_, fun q hq => ?_⟩
  · exact (List.perm_append_singleton node _).nodup_iff.2 (List.nodup_cons.2 ⟨hlist, hi.nodup⟩)
  · exact (hi.nodes.cons node).trans (List.perm_append_singleton node _).symm
  · exact (List.perm_append_singleton node _).nodup_iff.2 (List.nodup_cons.2 ⟨havail, hi.availNodup⟩)
  · by_cases he : q = node
    · subst he
      simp [hfull]
    · simpa [he] using hi.avail q
  · simp [htot, hi.totCount]
  · simp [hnot, hi.notFullCount]
  · have hne : h.memAllocated ≠ smallHeapMdSize := mt hn.mem_eq_md_iff.1 hbs
    have hcount : s.sh.smallHeapsList.countP
        (fun q => decide ((Function.update s.sh.heap node h q).memAllocated = smallHeapMdSize)) =
        s.sh.smallHeapsList.countP (fun q => decide ((s.sh.heap q).memAllocated = smallHeapMdSize)) :=
      List.countP_congr (fun q hq => by rw [hold q hq])
    simp only [List.countP_append, hcount, hempty, hi.emptyCount]
    simp [hne]
  · rcases List.mem_append.1 hq with hq | hq
    · simp only [hold q hq, Function.update_of_ne (fun e : q = node => hlist (e ▸ hq))]
      exact hi.heaps q hq
    · obtain rfl := List.mem_singleton.1 hq
      simpa using hn
  · rcases List.mem_append.1 hq with hq | hq
    · simp only [hold q hq]
      exact hi.lastByte q hq
    · obtain rfl := List.mem_singleton.1 hq
      simpa using hlast
  · refine List.pairwise_append.2 ⟨hi.regions.imp_of_mem (fun {p q} hp hq h' => ?_), List.pairwise_singleton _ _,
      fun p hp q hq => ?_⟩
    · simp only [hold p hp, hold q hq]
      exact h'
    · obtain rfl := List.mem_singleton.1 hq
      simp only [hold p hp, hself]
      exact hregion p hp
  · simp only [List.mem_append, List.mem_singleton, not_or] at hq
    simp only [Function.update_of_ne hq.2]
    exact hi.gone q hq.1

/-- **`small_heaps_kmalloc`.** -/
theorem kmalloc (hi : s.Inv) {size flags : Nat} {main : MainAlloc} (hs : SmallSize size flags) (hm : s.MainFresh main) :
    (∃ sz, s.sh.smallHeapsKmalloc size flags main = some (s.sh, sz, none)) ∨
    ∃ sh sz ptr pos, s.sh.smallHeapsKmalloc size flags main = some (sh, sz, some ptr) ∧
      Inv ⟨sh, Function.update s.held pos (⟨ptr, sz, size, flags⟩ :: s.held pos)⟩ := by
  rcases hi.kmallocFromAvail (fun _ h => h) hs (le_refl size) with ⟨sz, hrun, hs', hle⟩ | ⟨sh, sz, ptr, pos, hrun, hi'⟩
  · rcases hd : main.heapData with _ | data
    · refine Or.inl ⟨sz, ?_⟩
      simp [SmallHeaps.smallHeapsKmalloc, hrun, SmallHeaps.allocNewSmallHeap, hd]
    rcases hnode : main.node with _ | node
    · refine Or.inl ⟨sz, ?_⟩
      simp [SmallHeaps.smallHeapsKmalloc, hrun, SmallHeaps.allocNewSmallHeap, hd, hnode]
    have hnew := hm.node node hnode
    obtain ⟨h₀, hadd, hn₀, hv₀, hlast₀⟩ := NodeInv.new data main.before
    rcases hn₀.kmalloc hs' with ⟨_, _, _, _, k, hk, hno⟩ | ⟨h, sz', ptr, hrun', hle', hsame, hn⟩
    · exact absurd hno (NodeInv.not_noFit _ hk)
    · have hn := hn size (hle.trans hle')
      have hgone : s.held node = [] := hi.gone node (fun hc => hnew (hi.nodes.symm.subset hc))
      have hv : h.vaddr = data := hsame.vaddr.trans hv₀
      have hmem := hn.mem_eq
      have hhalf := (hn.chunk_size List.mem_cons_self).2
      have hnewRun : s.sh.allocNewSmallHeap main = some ((s.sh.withNewNode node h₀), some node) := by
        simp only [SmallHeaps.allocNewSmallHeap, hd, hnode, hadd, Option.bind_eq_bind, Option.bind_some]
        rfl
      have hheap : (s.sh.withNewNode node h₀).heap node = h₀ := Function.update_self _ _ _
      have hupd : (s.sh.withNewNode node h₀).setHeap node h = s.sh.withNewNode node h := by
        show SmallHeaps.mk (Function.update (Function.update s.sh.heap node h₀) node h) _ _ _ _ = _
        rw [Function.update_idem]
        rfl
      refine Or.inr ⟨s.sh.withNewNode node h, sz', ptr, node, ?_, ?_⟩
      · simp only [SmallHeaps.smallHeapsKmalloc, hrun, hnewRun, Option.bind_eq_bind, Option.bind_some, hheap, hrun', hupd]
        rfl
      · rw [hgone]
        refine hi.add hnew hn (by simp) ?_ ?_ (fun pos hpos => ?_) rfl rfl rfl
        · rw [hmem, hn.size_eq]
          simp only [List.map_cons, List.map_nil, List.sum_cons, List.sum_nil, smallHeapMdSize, calculateHeapMetadataSize,
            smallHeapSize, smallHeapMbs] at hhalf ⊢
          omega
        · rw [hsame.heapLastByte, hlast₀, hv]
        · unfold RegionsApart
          rw [hv]
          exact (hm.heapData data hd pos hpos).symm
  · refine Or.inr ⟨sh, sz, ptr, pos, ?_, hi'⟩
    simp [SmallHeaps.smallHeapsKmalloc, hrun]

/-- **A heap that is not full and not counted as empty goes away.** -/
theorem remove (hi : s.Inv) {pos : Nat} (hpos : pos ∈ s.sh.availSmallHeapsList)
    (hne : (s.sh.heap pos).memAllocated ≠ smallHeapMdSize) (h : KmallocHeap) :
    Inv ⟨(s.sh.setHeap pos h).destroySmallHeap pos, Function.update s.held pos []⟩ := by
  have hlist := ((hi.avail pos).1 hpos).1
  have hmem : ∀ q, q ∈ s.sh.smallHeapsList.erase pos ↔ q ≠ pos ∧ q ∈ s.sh.smallHeapsList := fun q =>
    hi.nodup.mem_erase_iff
  have hheap : ∀ q ∈ s.sh.smallHeapsList.erase pos, Function.update s.sh.heap pos h q = s.sh.heap q := fun q hq =>
    Function.update_of_ne ((hmem q).1 hq).1 _ _
  have hlen₁ := List.length_pos_of_mem hlist
  have hlen₂ := List.length_pos_of_mem hpos
  have hlen₃ := List.length_erase_of_mem hlist
  have hlen₄ := List.length_erase_of_mem hpos
  refine ⟨hi.nodup.erase pos, hi.nodes.erase pos, hi.availNodup.erase pos, fun q => ?_, ?_, ?_, ?_, fun q hq => ?_,
    fun q hq => ?_, ?_, fun q hq => ?_⟩
  · show q ∈ s.sh.availSmallHeapsList.erase pos ↔ q ∈ s.sh.smallHeapsList.erase pos ∧
      (Function.update s.sh.heap pos h q).memAllocated < (Function.update s.sh.heap pos h q).size
    rw [hi.availNodup.mem_erase_iff, hmem, hi.avail q]
    by_cases he : q = pos
    · simp [he]
    · rw [Function.update_of_ne he, and_assoc]
  · show s.sh.shs.totCount - 1 = ((s.sh.smallHeapsList.erase pos).length : Int)
    have := hi.totCount
    omega
  · show s.sh.shs.notFullCount - 1 = ((s.sh.availSmallHeapsList.erase pos).length : Int)
    have := hi.notFullCount
    omega
  · show s.sh.shs.emptyCount = (((s.sh.smallHeapsList.erase pos).countP
      (fun q => decide ((Function.update s.sh.heap pos h q).memAllocated = smallHeapMdSize)) : Nat) : Int)
    rw [List.countP_congr (fun q hq => by rw [hheap q hq]), hi.emptyCount,
      (List.perm_cons_erase hlist).countP_eq, List.countP_cons_of_neg (by simpa using hne)]
  · show NodeInv (Function.update s.sh.heap pos h q) (Function.update s.held pos [] q)
    rw [hheap q hq, Function.update_of_ne ((hmem q).1 hq).1]
    exact hi.heaps q ((hmem q).1 hq).2
  · show (Function.update s.sh.heap pos h q).heapLastByte = (Function.update s.sh.heap pos h q).vaddr + smallHeapSize - 1
    rw [hheap q hq]
    exact hi.lastByte q ((hmem q).1 hq).2
  · refine (hi.regions.sublist List.erase_sublist).imp_of_mem (fun {p q} hp hq h' => ?_)
    show RegionsApart (Function.update s.sh.heap pos h p) (Function.update s.sh.heap pos h q)
    rw [hheap p hp, hheap q hq]
    exact h'
  · show Function.update s.held pos [] q = []
    by_cases he : q = pos
    · rw [he, Function.update_self]
    · rw [Function.update_of_ne he]
      exact hi.gone q (fun hc => hq ((hmem q).2 ⟨he, hc⟩))

/-- **`small_heaps_kfree`** of a chunk that is held. -/
theorem kfree (hi : s.Inv) (maxEmpty : Nat) {pos : Nat} {b : LiveBlock} {userSize flags : Nat} (hb : b ∈ s.held pos)
    (hl : KfreeMatches (s.sh.heap pos) b userSize flags) (hs : b.subBlockSize = 0 ∨ b.subBlockSize = smallHeapMbs) :
    ∃ sh sz, s.sh.smallHeapsKfree maxEmpty b.ptr userSize flags = some (sh, sz, true) ∧
      Inv ⟨sh, Function.update s.held pos ((s.held pos).erase b)⟩ := by
  have hpos := hi.mem_of_held hb
  have hn := hi.heaps pos hpos
  obtain ⟨h, sz, hrun, hsame, hn'⟩ := hn.kfree hb hl hs
  have hhalf := hn.chunk_size hb
  have hsum := ((List.perm_cons_erase hb).map LiveBlock.size).sum_eq
  rw [List.map_cons, List.sum_cons] at hsum
  have hmem := hn.mem_eq
  have hmem' := hn'.mem_eq
  have hle := hn.mem_le
  have hne : (s.sh.heap pos).memAllocated ≠ smallHeapMdSize := fun e => by
    rw [hn.mem_eq_md_iff.1 e] at hb
    cases hb
  have hlt : h.memAllocated < h.size := by
    rw [hn'.size_eq]
    simp only [smallHeapMbs] at hhalf
    omega
  simp only [SmallHeaps.smallHeapsKfree, hi.find hb, hrun, Option.bind_eq_bind, Option.bind_some]
  by_cases hfull : (s.sh.heap pos).memAllocated = (s.sh.heap pos).size
  · -- a full heap had more chunks than this one
    have hne' : h.memAllocated ≠ smallHeapMdSize := by
      rw [hn.size_eq] at hfull
      simp only [smallHeapMdSize, calculateHeapMetadataSize, smallHeapSize, smallHeapMbs] at *
      omega
    have hnot : pos ∉ s.sh.availSmallHeapsList := fun hc => by
      have := ((hi.avail pos).1 hc).2
      omega
    rw [if_pos (decide_eq_true hfull)]
    refine ⟨_, sz, rfl, ?_⟩
    refine hi.update hpos hsame hn' ?_ (fun q => ?_) rfl ?_ ?_
    · exact (List.perm_append_singleton pos _).nodup_iff.2 (List.nodup_cons.2 ⟨hnot, hi.availNodup⟩)
    · by_cases he : q = pos
      · simp [he, hlt]
      · simp [he, SmallHeaps.setHeap]
    · simp [SmallHeaps.setHeap, hi.notFullCount]
    · simp [hne, hne', SmallHeaps.setHeap]
  · have havail : pos ∈ s.sh.availSmallHeapsList := (hi.avail pos).2 ⟨hpos, by rw [hn.size_eq] at hfull ⊢; omega⟩
    have hkeep : ∀ q, q ∈ s.sh.availSmallHeapsList ↔
        if q = pos then h.memAllocated < h.size else q ∈ s.sh.availSmallHeapsList := fun q => by
      by_cases he : q = pos
      · simp [he, hlt, havail]
      · simp [he]
    rw [if_neg (by simpa using hfull)]
    by_cases hempty : h.memAllocated = smallHeapMdSize
    · rw [if_pos hempty]
      split
      · exact ⟨_, sz, rfl, hi.update hpos hsame hn' hi.availNodup hkeep rfl hi.notFullCount
          (by simp [hne, hempty, SmallHeaps.setHeap])⟩
      · refine ⟨_, sz, rfl, ?_⟩
        rw [hn'.mem_eq_md_iff.1 hempty]
        exact hi.remove havail hne h
    · rw [if_neg hempty]
      exact ⟨_, sz, rfl, hi.update hpos hsame hn' hi.availNodup hkeep rfl hi.notFullCount (by simp [hne, hempty])⟩

theorem apart (hi : s.Inv) {pos : Nat} {b : LiveBlock} (hb : b ∈ s.held pos) (h₀ : b.subBlockSize ≠ 0)
    (hd : b.subBlockSize ∣ b.size) : (s.setHeld pos (b.subBlocks ++ (s.held pos).erase b)).Inv := by
  have hpos := hi.mem_of_held hb
  refine ⟨hi.nodup, hi.nodes, hi.availNodup, hi.avail, hi.totCount, hi.notFullCount, hi.emptyCount, fun q hq => ?_,
    hi.lastByte, hi.regions, fun q hq => ?_⟩
  · show NodeInv (s.sh.heap q) (Function.update s.held pos _ q)
    by_cases he : q = pos
    · rw [he, Function.update_self]
      exact (hi.heaps pos hpos).apart hb h₀ hd
    · rw [Function.update_of_ne he]
      exact hi.heaps q hq
  · show Function.update s.held pos _ q = []
    rw [Function.update_of_ne (fun e : q = pos => hq (e ▸ hpos))]
    exact hi.gone q hq

/-- **One step**: a call that meets the condition does not fail, and keeps the invariant. -/
theorem step (hi : s.Inv) (maxEmpty : Nat) {op : SmallOp} (he : s.Exact op) :
    ∃ s', s.exec maxEmpty op = some s' ∧ s'.Inv := by
  cases op with
  | kmalloc size flags main =>
    rcases hi.kmalloc he.1.toSmallSize he.2 with ⟨sz, hrun⟩ | ⟨sh, sz, ptr, pos, hrun, hi'⟩
    · exact ⟨s, by simp [exec, hrun], hi⟩
    · have hfind : sh.findSmallHeap ptr = some pos :=
        hi'.find (b := ⟨ptr, sz, size, flags⟩) (show _ ∈ Function.update s.held pos _ pos by simp)
      exact ⟨_, by simp [exec, hrun, hfind], hi'⟩
  | kfree b userSize flags =>
    obtain ⟨pos, hb, hl, hs⟩ := he
    obtain ⟨sh, sz, hrun, hi'⟩ := hi.kfree maxEmpty hb hl hs
    exact ⟨_, by simp [exec, hi.find hb, hrun], hi'⟩
  | apart b =>
    obtain ⟨pos, hb, h₀, hd⟩ := he
    exact ⟨_, by simp [exec, hi.find hb], hi.apart hb h₀ hd⟩

end Inv

theorem Reachable.inv {maxEmpty : Nat} {s : SmallState} (hr : Reachable maxEmpty s) : s.Inv := by
  induction hr with
  | initial h =>
    exact ⟨List.nodup_nil, List.Perm.nil, List.nodup_nil, by simp [SmallHeaps.initial], rfl, rfl, rfl,
      by simp [SmallHeaps.initial], by simp [SmallHeaps.initial], List.Pairwise.nil, fun _ _ => rfl⟩
  | step op _ he hrun ih =>
    obtain ⟨s', hrun', hi'⟩ := ih.step maxEmpty he
    rw [hrun] at hrun'
    cases hrun'
    exact hi'

/-- **The bookkeeping of the small heaps**: every small heap is in the list once, it is in the list of those that are not
full when it is not, the counters count, and no heap is gone that a chunk is held from. -/
theorem Reachable.bookkeeping {maxEmpty : Nat} {s : SmallState} (hr : Reachable maxEmpty s) :
    (s.sh.smallHeapsList.Nodup ∧ ∀ pos, pos ∈ s.sh.nodes ↔ pos ∈ s.sh.smallHeapsList) ∧
    (s.sh.availSmallHeapsList.Nodup ∧ ∀ pos, pos ∈ s.sh.availSmallHeapsList ↔
      pos ∈ s.sh.smallHeapsList ∧ (s.sh.heap pos).memAllocated < (s.sh.heap pos).size) ∧
    s.sh.shs.totCount = s.sh.smallHeapsList.length ∧
    s.sh.shs.notFullCount =
      s.sh.smallHeapsList.countP (fun pos => decide ((s.sh.heap pos).memAllocated < (s.sh.heap pos).size)) ∧
    s.sh.shs.emptyCount =
      s.sh.smallHeapsList.countP (fun pos => decide ((s.sh.heap pos).memAllocated = smallHeapMdSize)) ∧
    (∀ pos, s.held pos ≠ [] → pos ∈ s.sh.smallHeapsList) ∧
    ∀ op, s.Exact op → ∃ s', s.exec maxEmpty op = some s' := by
  have hi := hr.inv
  refine ⟨⟨hi.nodup, fun pos => hi.nodes.mem_iff⟩, ⟨hi.availNodup, hi.avail⟩, hi.totCount, ?_, hi.emptyCount,
    fun pos hpos => by_contra fun hc => hpos (hi.gone pos hc), fun op he => ?_⟩
  · -- both lists have the heaps that are not full, once each
    have hperm : s.sh.availSmallHeapsList.Perm (s.sh.smallHeapsList.filter
        (fun pos => decide ((s.sh.heap pos).memAllocated < (s.sh.heap pos).size))) := by
      rw [List.perm_ext_iff_of_nodup hi.availNodup (hi.nodup.filter _)]
      intro pos
      rw [hi.avail, List.mem_filter, decide_eq_true_eq]
    rw [hi.notFullCount, hperm.length_eq, List.countP_eq_length_filter]
  · obtain ⟨s', hrun, _⟩ := hi.step maxEmpty he
    exact ⟨s', hrun⟩

end SmallState

namespace SmallState

/-- Two chunks in a new small heap. -/
theorem Reachable.bookkeeping_two : ∃ (_ : Machine) (s : SmallState), Reachable 1 s ∧
    s.held 1 = [⟨0x8880, 64, 50, 0⟩, ⟨0x8800, 128, 100, 0⟩] ∧ 1 ∈ s.sh.smallHeapsList := by
  refine ⟨machine64, ?_⟩
  let M := machine64
  let h := kmallocCreateHeap 0 smallHeapSize smallHeapMbs 0 true newNode (fun _ => true)
  let main : MainAlloc := ⟨some 0x8000, some 1, newNode⟩
  let full : MainAlloc := ⟨none, none, newNode⟩
  have hrun : ((exec 1 ⟨SmallHeaps.initial h, fun _ => []⟩ (.kmalloc 100 0 main)).bind fun s =>
      s.exec 1 (.kmalloc 50 0 full)).map (fun s => s.held 1) = some [⟨0x8880, 64, 50, 0⟩, ⟨0x8800, 128, 100, 0⟩] := by
    decide
  obtain ⟨s₂, hrun, hheld⟩ := Option.map_eq_some_iff.1 hrun
  obtain ⟨s₁, hrun₁, hrun₂⟩ := Option.bind_eq_some_iff.1 hrun
  have hsize₁ : SmallRequest 100 0 := ⟨⟨by decide, Or.inl (by decide), by decide, by decide⟩, by decide⟩
  have hsize₂ : SmallRequest 50 0 := ⟨⟨by decide, Or.inl (by decide), by decide, by decide⟩, by decide⟩
  have hmain : MainFresh ⟨SmallHeaps.initial h, fun _ => []⟩ main :=
    ⟨by simp [SmallHeaps.initial], by simp [SmallHeaps.initial]⟩
  have hfull : s₁.MainFresh full := ⟨by simp [full], by simp [full]⟩
  have hr : Reachable 1 s₂ := ((Reachable.initial h).step (.kmalloc 100 0 main) ⟨hsize₁, hmain⟩ hrun₁).step
    (.kmalloc 50 0 full) ⟨hsize₂, hfull⟩ hrun₂
  exact ⟨s₂, hr, hheld, hr.bookkeeping.2.2.2.2.2.1 1 (by rw [hheld]; simp)⟩

/-- Three runs in which the bookkeeping is off. A request for more than half of a small heap gets a new heap, does not fit
and leaves the heap empty: the counter of the empty heaps is 0. A chunk with `KMALLOC_FL_NO_ACTUAL_ALLOC` is not counted
by its heap: the free of the other chunk destroys the heap, with the first one held, and an empty heap is taken off that
was never counted. Chunks that were split into blocks of 64 bytes are not subtracted when they are freed at once: no
chunk is held, and the heap is in the list of those that are not full with all its bytes counted as allocated. -/
theorem bookkeeping_fails : ∃ (_ : Machine) (h : KmallocHeap),
    ((Lib.execs (exec 1) ⟨SmallHeaps.initial h, fun _ => []⟩ [.kmalloc 20000 32 ⟨some 0x8000, some 1, newNode⟩]).map
        (fun s => (s.sh.smallHeapsList, (s.sh.heap 1).memAllocated, s.sh.shs.emptyCount)) =
      some ([1], smallHeapMdSize, 0)) ∧
    ((Lib.execs (exec 0) ⟨SmallHeaps.initial h, fun _ => []⟩
        [.kmalloc 100 flNoActual ⟨some 0x8000, some 1, newNode⟩, .kmalloc 100 0 ⟨none, none, newNode⟩,
          .kfree ⟨0x8880, 128, 100, 0⟩ 100 0]).map
        (fun s => (s.sh.smallHeapsList, s.held 1, s.sh.shs.emptyCount)) =
      some ([], [⟨0x8800, 128, 100, flNoActual⟩], -1)) ∧
    ((Lib.execs (exec 1) ⟨SmallHeaps.initial h, fun _ => []⟩
        [.kmalloc 16384 64 ⟨some 0x8000, some 1, newNode⟩, .kfree ⟨0xc000, 16384, 16384, 64⟩ 16384 flAllowSplit,
          .kmalloc 8192 64 ⟨none, none, newNode⟩, .kfree ⟨0xa000, 8192, 8192, 64⟩ 8192 flAllowSplit,
          .kmalloc 4096 64 ⟨none, none, newNode⟩, .kfree ⟨0x9000, 4096, 4096, 64⟩ 4096 flAllowSplit,
          .kmalloc 2048 64 ⟨none, none, newNode⟩, .kfree ⟨0x8800, 2048, 2048, 64⟩ 2048 flAllowSplit]).map
        (fun s => (s.sh.availSmallHeapsList, s.held 1, (s.sh.heap 1).memAllocated)) =
      some ([1], [], smallHeapSize)) :=
  ⟨machine64, @kmallocCreateHeap machine64 0 smallHeapSize smallHeapMbs 0 true newNode (fun _ => true),
    by decide +kernel, by decide +kernel, by decide +kernel⟩

end SmallState

end Usax.Kmalloc
