import Usax.Kmalloc.Accounting

/-!
# Allocations that leave no trace

A heap after some allocations and the frees of all of their blocks has the metadata nodes and the counter that it had before:
for plain calls, in whatever order the blocks are freed, and for a multi-step allocation. The loop of a multi-step free does
not look at the digit of the heap's own size, so a block of this size is not freed at all.
-/

namespace Usax.Kmalloc

open Usax.Lib Usax.Lib.Buddy Common

variable {m K : Nat}

section Plain

variable [Machine]

namespace HeapState

variable {s : HeapState}

/-- Plain calls of `per_heap_kmalloc`, none of which fails: the heap and the blocks. -/
def plainAllocs (h : KmallocHeap) : List Nat → Option (KmallocHeap × List LiveBlock)
  | [] => some (h, [])
  | size :: sizes => do
    match ← perHeapKmallocUnsafe h size 0 with
    | (_, _, none) => none
    | (h, sz, some ptr) =>
      let (h, bs) ← plainAllocs h sizes
      return (h, ⟨ptr, sz, size, 0⟩ :: bs)

/-- Plain calls of `per_heap_kfree`, each for a block and with a size. -/
def plainFrees (h : KmallocHeap) : List (LiveBlock × Nat) → Option KmallocHeap
  | [] => some h
  | (b, userSize) :: frees => do
    let (h, _) ← perHeapKfreeUnsafe h b.ptr userSize 0
    plainFrees h frees

theorem Inv.perm {h : KmallocHeap} {b : LiveBlock} {live live' : List LiveBlock} (hs : Inv m K ⟨h, b, live⟩)
    (hp : live.Perm live') : Inv m K ⟨h, b, live'⟩ where
  owns := hs.owns.perm ((hp.cons _).flatMap_right _)
  placed b hb := hs.placed b ((hp.cons _).mem_iff.2 hb)
  metadata := hs.metadata
  quiet := hs.quiet
  counter := hs.counter

theorem Inv.plainAllocs : ∀ {sizes : List Nat} {s : HeapState} {h : KmallocHeap} {bs : List LiveBlock}, s.Inv m K →
    plainAllocs s.heap sizes = some (h, bs) → Inv m K { s with heap := h, live := bs ++ s.live } ∧
      Frame K s.heap h ∧ Grows s.heap h (bs.map LiveBlock.size).sum ∧ ∀ b ∈ bs, b.flags = 0
  | [], s, h, bs, hi, hrun => by
    cases hrun
    exact ⟨hi, Frame.refl K _, Grows.refl _, fun b hb => absurd hb List.not_mem_nil⟩
  | size :: sizes, s, h, bs, hi, hrun => by
    rw [HeapState.plainAllocs] at hrun
    have hl : KmallocLegal s.heap size 0 := ⟨by simp [hasFlag], Or.inl rfl⟩
    rcases hi.kmalloc hl with ⟨sz, hone, _⟩ | ⟨h₁, sz, ptr, hone, hfr, hi', hgr⟩
    · rw [hone] at hrun
      cases hrun
    · simp only [hone, Option.bind_eq_bind, Option.bind_some, Option.bind_eq_some_iff] at hrun
      obtain ⟨⟨h₂, bs'⟩, hrest, heq⟩ := hrun
      cases heq
      obtain ⟨hi₂, hfr₂, hgr₂, hfl⟩ := hi'.plainAllocs hrest
      have hgr : Grows s.heap h₁ sz := by simpa [hasFlag] using hgr
      refine ⟨hi₂.perm List.perm_middle, hfr.trans hfr₂, ?_, ?_⟩
      · simpa using hgr.trans hgr₂
      · simpa using hfl

theorem Inv.plainFrees : ∀ {frees : List (LiveBlock × Nat)} {h : KmallocHeap} {bs rest : List LiveBlock},
    Inv m K { s with heap := h, live := bs ++ rest } → (frees.map Prod.fst).Perm bs → (∀ b ∈ bs, b.flags = 0) →
    (∀ x ∈ frees, KfreeMatches h x.1 x.2 0) →
    ∃ h', plainFrees h frees = some h' ∧ Inv m K { s with heap := h', live := rest } ∧ Frame K h h' ∧
      Shrinks h h' (bs.map LiveBlock.size).sum
  | [], h, bs, rest, hi, hp, _, _ => by
    obtain rfl : bs = [] := hp.symm.eq_nil
    exact ⟨h, rfl, hi, Frame.refl K h, by simp, id⟩
  | (b, userSize) :: frees, h, bs, rest, hi, hp, hf, hl => by
    have hb : b ∈ bs := hp.subset List.mem_cons_self
    have hsub : b.subBlockSize = 0 := by rw [LiveBlock.subBlockSize, hf b hb, Nat.zero_and]
    obtain ⟨h₁, sz, hrun, hfr, hi₁, hsh⟩ := hi.kfree_size (List.mem_append_left _ hb) (hl _ List.mem_cons_self) (Or.inl hsub)
    rw [List.erase_append_left _ hb] at hi₁
    have hl₁ : ∀ x ∈ frees, KfreeMatches h₁ x.1 x.2 0 := fun x hx => by
      obtain ⟨h₁, h₂, h₃⟩ := hl x (List.mem_cons_of_mem _ hx)
      exact ⟨h₁, h₂, by rw [hfr.minBlockSize]; exact h₃⟩
    obtain ⟨h₂, hrun₂, hi₂, hfr₂, hsh₂⟩ := Inv.plainFrees hi₁ (List.cons_perm_iff_perm_erase.1 hp).2
      (fun c hc => hf c (List.mem_of_mem_erase hc)) hl₁
    refine ⟨h₂, by rw [HeapState.plainFrees, hrun]; exact hrun₂, hi₂, hfr.trans hfr₂, ?_⟩
    have hsum : (bs.map LiveBlock.size).sum = b.size + ((bs.erase b).map LiveBlock.size).sum :=
      ((List.perm_cons_erase hb).map LiveBlock.size).sum_eq.trans (by simp)
    rw [hsum]
    exact hsh.trans hsh₂

theorem Inv.nodes_eq {h : KmallocHeap} (hi : s.Inv m K) (hi' : Inv m K { s with heap := h }) (hfr : Frame K s.heap h) :
    h.metadataNodes = s.heap.metadataNodes := by
  funext i
  by_cases hin : Below K 0 i
  · have ho' := hi'.owns
    simp only [hfr.vaddr] at ho'
    obtain ⟨h₁, h₂⟩ := ho'.bits_unique hi.owns i hin
    obtain ⟨h₃, h₄⟩ := hi.quiet i
    obtain ⟨h₅, h₆⟩ := hi'.quiet i
    simp only at h₅ h₆
    cases hn : h.metadataNodes i
    cases hn' : s.heap.metadataNodes i
    simp_all
  · exact hfr.outside i hin

theorem Inv.restored (hi : s.Inv m K) {h h' : KmallocHeap} {n : Nat} (hfr : Frame K s.heap h) (hgr : Grows s.heap h n)
    (hfr' : Frame K h h') (hsh : Shrinks h h' n) (hi' : Inv m K { s with heap := h' }) :
    h'.metadataNodes = s.heap.metadataNodes ∧ h'.memAllocated = s.heap.memAllocated := by
  refine ⟨hi.nodes_eq hi' (hfr.trans hfr'), ?_⟩
  have h₁ := hsh.mod.trans hgr.mod
  have h₂ := Nat.ModEq.add_right_cancel' _ h₁
  rwa [Nat.ModEq, Nat.mod_eq_of_lt hi'.counter, Nat.mod_eq_of_lt hi.counter] at h₂

/-- **Plain allocations leave no trace** once all of their blocks are freed, in whatever order. -/
theorem Reachable.plain_roundtrip (hr : s.Reachable) {sizes : List Nat} {h : KmallocHeap} {bs : List LiveBlock}
    (hal : plainAllocs s.heap sizes = some (h, bs)) {frees : List (LiveBlock × Nat)} (hp : (frees.map Prod.fst).Perm bs)
    (hl : ∀ x ∈ frees, KfreeMatches h x.1 x.2 0) :
    ∃ h', plainFrees h frees = some h' ∧ h'.metadataNodes = s.heap.metadataNodes ∧
      h'.memAllocated = s.heap.memAllocated := by
  obtain ⟨m, K, hi⟩ := hr.inv
  obtain ⟨hi₁, hfr₁, hgr, hf⟩ := hi.plainAllocs hal
  obtain ⟨h', hrun, hi₂, hfr₂, hsh⟩ := Inv.plainFrees hi₁ hp hf hl
  exact ⟨h', hrun, hi.restored hfr₁ hgr hfr₂ hsh hi₂⟩

/-- **The metadata does not tell what happened before**: on two heaps that were set up alike and in which the same blocks are
held, the nodes are the same, in whatever order the blocks came there. -/
theorem Reachable.nodes_of_live {s' : HeapState} (hr : s.Reachable) (hr' : s'.Reachable)
    (hvaddr : s'.heap.vaddr = s.heap.vaddr) (hsize : s'.heap.size = s.heap.size)
    (hmin : s'.heap.minBlockSize = s.heap.minBlockSize) (hmetadata : s'.metadata = s.metadata)
    (hlive : s'.live.Perm s.live) {i : Nat} (hlt : i + 1 < s.heap.metadataSize) :
    s'.heap.metadataNodes i = s.heap.metadataNodes i := by
  obtain ⟨m, K, hi⟩ := hr.inv
  obtain ⟨m', K', hi'⟩ := hr'.inv
  obtain rfl : m' = m := by
    rw [hi.owns.shape.minBlockSize, hi'.owns.shape.minBlockSize] at hmin
    exact Nat.pow_right_injective (le_refl 2) hmin
  obtain rfl : K' = K := by
    rw [hi.owns.shape.size, hi'.owns.shape.size] at hsize
    exact Nat.add_left_cancel (Nat.pow_right_injective (le_refl 2) hsize)
  have ho' := (hi'.perm hlive).owns
  simp only [hvaddr, hmetadata] at ho'
  rw [hi.owns.shape.metadataSize] at hlt
  have hbelow : Below K' 0 i := by
    have hlog : Nat.log 2 (i + 1) < K' + 1 := Nat.log_lt_of_lt_pow (by omega) hlt
    refine .of_half (Nat.le_of_lt_succ hlog) (Nat.div_eq_of_lt_le ?_ ?_)
    · simpa using Nat.pow_log_le_self 2 (Nat.succ_ne_zero i)
    · simpa [Nat.pow_succ, Nat.mul_comm] using Nat.lt_pow_succ_log_self Nat.one_lt_two (i + 1)
  obtain ⟨h₁, h₂⟩ := ho'.bits_unique hi.owns i hbelow
  obtain ⟨h₃, h₄⟩ := hi.quiet i
  obtain ⟨h₅, h₆⟩ := hi'.quiet i
  cases hn : s'.heap.metadataNodes i
  cases hn' : s.heap.metadataNodes i
  simp_all

theorem Inv.aligned (hi : s.Inv m K) {b : LiveBlock} (hb : b ∈ s.live) (hone : hasFlag b.flags flMultiStep = false) :
    ∃ k ≤ K, b.size = 2 ^ (m + k) ∧ b.size ∣ b.ptr - s.heap.vaddr := by
  have hp := hi.placed b (List.mem_cons_of_mem _ hb)
  obtain ⟨k, hk, -, hu⟩ := hp.block
  have hsize : b.size = 2 ^ (m + k) := by rw [hp.size, hu hone, pow_add]
  refine ⟨k, hk.level, hsize, ?_⟩
  rw [hsize, hp.ptr, Nat.add_sub_cancel_left, pow_add]
  exact Nat.mul_dvd_mul_left _ hk.aligned

/-- **Natural alignment**, on which `aligned_kmalloc` relies. -/
theorem Reachable.aligned_of_dvd (hr : s.Reachable) {b : LiveBlock} (hb : b ∈ s.live)
    (hone : hasFlag b.flags flMultiStep = false) {align : Nat} (hsize : align ∣ b.size) (hvaddr : align ∣ s.heap.vaddr) :
    align ∣ b.ptr := by
  obtain ⟨m, K, hi⟩ := hr.inv
  obtain ⟨k, -, -, hdvd⟩ := hi.aligned hb hone
  exact (Nat.dvd_sub_iff_left (hi.inside hb).1 hvaddr).mp (hsize.trans hdvd)

/-- **Memory that is freed can be allocated again**, for any request that is not larger than the block. -/
theorem Reachable.kmalloc_of_kfree (hr : s.Reachable) {b : LiveBlock} {userSize flags size kmallocFlags : Nat}
    (hb : b ∈ s.live) (hfree : KfreeMatches s.heap b userSize flags) (hone : hasFlag b.flags flMultiStep = false)
    (hl : KmallocLegal s.heap size kmallocFlags) (hle : size ≤ b.size) :
    ∃ h sz h' sz' ptr, perHeapKfreeUnsafe s.heap b.ptr userSize flags = some (h, sz) ∧
      perHeapKmallocUnsafe h size kmallocFlags = some (h', sz', some ptr) := by
  obtain ⟨m, K, hi⟩ := hr.inv
  obtain ⟨h, sz, hrun, hfr, hi', -⟩ := hi.kfree hb hfree
  have hl' : KmallocLegal h size kmallocFlags := ⟨by rw [hfr.minBlockSize]; exact hl.1, by rw [hfr.minBlockSize]; exact hl.2⟩
  rcases hi'.kmalloc hl' with ⟨_, -, -, hno⟩ | ⟨h', sz', ptr, hrun', -⟩
  · exfalso
    obtain ⟨k, hk, hsize, hdvd⟩ := hi.aligned hb hone
    -- in a heap that is all of the freed block, the request is rounded up to no more than the block
    have hsmall : m + k < 31 := by have := hi.owns.shape.small; omega
    obtain ⟨j, hj, hround, -⟩ := exists_roundedUpSize hsmall (hsize ▸ hle)
    have hjk : 2 ^ (m + j) ∣ b.size := hsize ▸ Nat.pow_dvd_pow 2 (by omega)
    have hjle : 2 ^ (m + j) ≤ b.size := hsize ▸ Nat.pow_le_pow_right (by omega) (by omega)
    have hfits : size ≤ 2 ^ (m + K) := (hsize ▸ hle).trans (Nat.pow_le_pow_right (by omega) (by omega))
    obtain ⟨hlow, hhigh, -⟩ := hi.inside hb
    have hbeside := ((((List.perm_cons_erase hb).cons s.metadata).trans (List.Perm.swap b s.metadata _)).pairwise_iff
      fun h => h.symm).mp hi.disjoint
    refine hi'.not_freeBlock (hno j hround hfits) b.ptr ⟨?_, ?_, ?_, fun c hc => ?_⟩
    · rwa [hfr.vaddr]
    · rw [hfr.vaddr, hfr.size]
      omega
    · rw [hfr.vaddr]
      exact hjk.trans hdvd
    · have := (List.pairwise_cons.mp hbeside).1 c hc
      rw [LiveBlock.Beside]
      omega
  · exact ⟨h, sz, h', sz', ptr, hrun, hrun'⟩

end HeapState

end Plain

namespace HeapState

/-- Two allocations from a heap of 64 KB, freed in the order in which they were made. -/
theorem Reachable.plain_roundtrip_two : ∃ (_ : Machine) (s : HeapState) (h : KmallocHeap), s.Reachable ∧
    plainAllocs s.heap [3000, 100] = some (h, [⟨0x101000, 4096, 3000, 0⟩, ⟨0x100800, 2048, 100, 0⟩]) ∧
    ∃ h', plainFrees h [(⟨0x101000, 4096, 3000, 0⟩, 3000), (⟨0x100800, 2048, 100, 0⟩, 0)] = some h' ∧
      h'.metadataNodes = s.heap.metadataNodes ∧ h'.memAllocated = s.heap.memAllocated := by
  let M := machine64
  have hal : (sampleHeap.bind fun s => (plainAllocs s.heap [3000, 100]).map fun r => (r.1.minBlockSize, r.2)) =
      some (2048, [⟨0x101000, 4096, 3000, 0⟩, ⟨0x100800, 2048, 100, 0⟩]) := by decide
  obtain ⟨s, hs, hal⟩ := Option.bind_eq_some_iff.1 hal
  obtain ⟨⟨h, bs⟩, hal, heq⟩ := Option.map_eq_some_iff.1 hal
  obtain ⟨hmin, rfl⟩ := Prod.mk.inj heq
  have hr := Reachable.sample hs
  refine ⟨M, s, h, hr, hal, hr.plain_roundtrip hal (List.Perm.refl _) ?_⟩
  intro x hx
  rcases List.mem_pair.1 hx with rfl | rfl
  · exact ⟨rfl, by decide, by rw [show h.minBlockSize = 2048 from hmin]; decide⟩
  · exact ⟨rfl, by decide, by rw [show h.minBlockSize = 2048 from hmin]; decide⟩

/-- A page is allocated from a heap of 64 KB, and from another one after a smaller block that is freed again. -/
theorem Reachable.nodes_of_live_freed : ∃ (_ : Machine) (s₁ s₂ t₁ t₂ : HeapState), s₁.Reachable ∧ s₂.Reachable ∧
    (s₁.live = [⟨0x101000, 4096, 4096, 0⟩] ∧ t₁.exec (.kmalloc 4096 0) = some s₁ ∧ t₁.live = []) ∧
    (s₂.live = [⟨0x101000, 4096, 4096, 0⟩] ∧ t₂.exec (.kfree ⟨0x100800, 2048, 100, 0⟩ 0 0) = some s₂ ∧
      t₂.live = [⟨0x101000, 4096, 4096, 0⟩, ⟨0x100800, 2048, 100, 0⟩]) ∧
    ∀ i < 62, s₂.heap.metadataNodes i = s₁.heap.metadataNodes i := by
  let M := machine64
  let shows (s : HeapState) := (s.live, s.metadata, [s.heap.vaddr, s.heap.size, s.heap.minBlockSize, s.heap.metadataSize])
  have hrun₁ : (sampleHeap.bind fun t => (t.exec (.kmalloc 4096 0)).map fun s => (shows s, t.live)) =
      some (([⟨0x101000, 4096, 4096, 0⟩], ⟨0x100000, 2048, 64, 0⟩, [0x100000, 65536, 2048, 64]), []) := by decide
  have hrun₂ : (sampleHeap.bind fun r => (r.exec (.kmalloc 100 0)).bind fun s => (s.exec (.kmalloc 4096 0)).bind fun t =>
      (t.exec (.kfree ⟨0x100800, 2048, 100, 0⟩ 0 0)).map fun s => (shows s, t.live)) =
      some (([⟨0x101000, 4096, 4096, 0⟩], ⟨0x100000, 2048, 64, 0⟩, [0x100000, 65536, 2048, 64]),
        [⟨0x101000, 4096, 4096, 0⟩, ⟨0x100800, 2048, 100, 0⟩]) := by decide
  obtain ⟨t₁, ht₁, hrun₁⟩ := Option.bind_eq_some_iff.1 hrun₁
  obtain ⟨s₁, hstep₁, hval₁⟩ := Option.map_eq_some_iff.1 hrun₁
  obtain ⟨r, hr, hrun₂⟩ := Option.bind_eq_some_iff.1 hrun₂
  obtain ⟨s, hstep, hrun₂⟩ := Option.bind_eq_some_iff.1 hrun₂
  obtain ⟨t, hstep', hrun₂⟩ := Option.bind_eq_some_iff.1 hrun₂
  obtain ⟨s₂, hstep₂, hval₂⟩ := Option.map_eq_some_iff.1 hrun₂
  simp only [shows, Prod.mk.injEq, List.cons.injEq, and_true] at hval₁ hval₂
  obtain ⟨⟨hlive₁, hmeta₁, hvaddr₁, hsize₁, hmin₁, hnodes₁⟩, hnew⟩ := hval₁
  obtain ⟨⟨hlive₂, hmeta₂, hvaddr₂, hsize₂, hmin₂, -⟩, hlive⟩ := hval₂
  have hr₁ := (Reachable.sample ht₁).step (.kmalloc 4096 0) (kmallocLegal_zero _) hstep₁
  have hr₂ := (((Reachable.sample hr).step (.kmalloc 100 0) (kmallocLegal_zero _) hstep).step (.kmalloc 4096 0)
      (kmallocLegal_zero _) hstep').step
    (.kfree ⟨0x100800, 2048, 100, 0⟩ 0 0) ⟨by simp [hlive], rfl, by decide, by simp [hasFlag, flMultiStep]⟩ hstep₂
  refine ⟨M, s₁, s₂, t₁, t, hr₁, hr₂, ⟨hlive₁, hstep₁, hnew⟩, ⟨hlive₂, hstep₂, hlive⟩, fun i hi => ?_⟩
  exact hr₁.nodes_of_live hr₂ (hvaddr₂.trans hvaddr₁.symm) (hsize₂.trans hsize₁.symm) (hmin₂.trans hmin₁.symm)
    (hmeta₂.trans hmeta₁.symm) (by rw [hlive₁, hlive₂]) (by rw [hnodes₁]; omega)

theorem Reachable.aligned_of_dvd_page : ∃ (_ : Machine) (s : HeapState), s.Reachable ∧ 4096 ∣ s.heap.vaddr ∧
    ∃ b ∈ s.live, 4096 ∣ b.ptr := by
  let M := machine64
  obtain ⟨s, -, hr, hlive, hvaddr, -⟩ := exists_page
  have hb : (⟨0x101000, 4096, 4096, 0⟩ : LiveBlock) ∈ s.live := hlive ▸ List.mem_singleton_self _
  have hdvd : 4096 ∣ s.heap.vaddr := hvaddr ▸ by decide
  exact ⟨M, s, hr, hdvd, _, hb, hr.aligned_of_dvd hb rfl (by decide) hdvd⟩

theorem Reachable.kmalloc_of_kfree_page : ∃ (_ : Machine) (s : HeapState) (h h' : KmallocHeap) (sz sz' ptr : Nat),
    s.Reachable ∧ perHeapKfreeUnsafe s.heap 0x101000 4096 0 = some (h, sz) ∧
      perHeapKmallocUnsafe h 3000 0 = some (h', sz', some ptr) := by
  let M := machine64
  obtain ⟨s, -, hr, hlive, -, -, hmin, -⟩ := exists_page
  have hb : (⟨0x101000, 4096, 4096, 0⟩ : LiveBlock) ∈ s.live := hlive ▸ List.mem_singleton_self _
  have hround : roundupNextPowerOf2 4096 = 4096 := by
    simpa using @roundupNextPowerOf2_two_pow M 12 (by decide)
  have hfree : KfreeMatches s.heap ⟨0x101000, 4096, 4096, 0⟩ 4096 0 :=
    ⟨rfl, by decide, by rw [if_neg (by decide), if_neg (by decide), hmin, max_eq_left (by decide), hround]⟩
  have hl : KmallocLegal s.heap 3000 0 := kmallocLegal_zero _
  obtain ⟨h, sz, h', sz', ptr, hrun⟩ := hr.kmalloc_of_kfree hb hfree rfl hl (by decide)
  exact ⟨M, s, h, h', sz, sz', ptr, hr, hrun⟩

end HeapState

end Usax.Kmalloc
