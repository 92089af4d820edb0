import Usax.Kmalloc.SmallHeaps

/-!
# The main heaps

`main_heaps_kfree` of `general_kmalloc.c.h` finds the heap of a chunk by its range. The memory of a small heap is itself a chunk
of a main heap, so every address in a small heap is in the range of a main heap too.
-/

namespace Usax.Kmalloc

open Usax.Lib Usax.Lib.Buddy Common

/-! ## Data model -/

/-- The small heaps, and the main heaps in the order in which they are searched, with the chunks that are held. -/
structure GeneralState where
  small : SmallState
  main : List HeapState

/-- `IN_RANGE_INC(vaddr, hva, hend)` in `main_heaps_kfree`. -/
def KmallocHeap.inRange (vaddr : Nat) (h : KmallocHeap) : Bool :=
  decide (h.vaddr ≤ vaddr ∧ vaddr ≤ h.heapLastByte - h.minBlockSize + 1)

section

variable [Machine]

/-- `main_heaps_kfree`, with whether a heap was found (`-ENOENT` otherwise). -/
def mainHeapsKfree (heaps : List KmallocHeap) (ptr size flags : Nat) : Option (List KmallocHeap × Bool) :=
  match heaps.findIdx? (KmallocHeap.inRange ptr) with
  | none => some (heaps, false)
  | some i => do
    let (h, _) ← perHeapKfreeUnsafe (← heaps[i]?) ptr size flags
    return (heaps.set i h, true)

namespace GeneralState

variable (g : GeneralState)

/-- Small heaps and main heaps that are in use, the main ones beside each other, and the memory of each small heap a chunk
of a main heap. -/
structure Ok : Prop where
  small : ∃ n, g.small.Reachable n
  main : ∀ (i : Nat) (M : HeapState), g.main[i]? = some M → M.Reachable ∧
    M.heap.minBlockSize = smallHeapMaxAlloc + 1 ∧ M.heap.heapLastByte = M.heap.vaddr + M.heap.size - 1
  apart : ∀ (i j : Nat) (M N : HeapState), g.main[i]? = some M → g.main[j]? = some N → i ≠ j →
    M.heap.vaddr + M.heap.size ≤ N.heap.vaddr ∨ N.heap.vaddr + N.heap.size ≤ M.heap.vaddr
  backed : ∀ pos ∈ g.small.sh.smallHeapsList, ∃ (i : Nat) (M : HeapState),
    g.main[i]? = some M ∧ ∃ c ∈ M.live, c.ptr = (g.small.sh.heap pos).vaddr ∧ smallHeapSize ≤ c.size

end GeneralState

end

/-! ## Where a chunk is freed -/

section

variable [Machine] {g : GeneralState} {i : Nat} {b : LiveBlock} {M : HeapState}

namespace GeneralState

theorem Ok.findIdx (hg : g.Ok) (hM : g.main[i]? = some M) (hb : b ∈ M.live) :
    (g.main.map HeapState.heap).findIdx? (KmallocHeap.inRange b.ptr) = some i := by
  obtain ⟨hr, hmbs, hlast⟩ := hg.main i M hM
  obtain ⟨m, K, hM'⟩ := hr.inv
  have hp := hM'.placed b (List.mem_cons_of_mem _ hb)
  obtain ⟨hlo, hhi, -⟩ := hM'.inside hb
  have hmin : M.heap.minBlockSize ≤ b.size := by
    rw [hM'.owns.shape.minBlockSize, hp.size]
    exact Nat.le_mul_of_pos_right _ hp.pos
  obtain ⟨hlt, hget⟩ := List.getElem?_eq_some_iff.mp hM
  rw [List.findIdx?_eq_some_iff_getElem]
  refine ⟨by rwa [List.length_map], ?_, fun j hj => ?_⟩
  · rw [List.getElem_map, hget, KmallocHeap.inRange, hlast, decide_eq_true_eq]
    omega
  · have hj' : j < g.main.length := by omega
    have hN := List.getElem?_eq_getElem hj'
    obtain ⟨hrN, hmbsN, hlastN⟩ := hg.main j _ hN
    obtain ⟨m', K', hN'⟩ := hrN.inv
    have hminN : (g.main[j]).heap.minBlockSize ≤ (g.main[j]).heap.size := by
      rw [hN'.owns.shape.minBlockSize, hN'.owns.shape.size]
      exact Nat.pow_le_pow_right (by omega) (by omega)
    have := hg.apart i j M _ hM hN (by omega)
    rw [List.getElem_map, KmallocHeap.inRange, hlastN, decide_eq_true_eq]
    simp only [smallHeapMaxAlloc, smallHeapSize] at hmbsN
    omega

end GeneralState

end

end Usax.Kmalloc
