import Usax.Kmalloc.General

/-!
# The accelerator

`kmalloc_accelerator.c.h`, for elements that are too large for the small heaps, such as the pages of
`pdir_deep_clone`: elements are handed out one by one from chunks of `elem_count` elements, and those that are left are
freed at the end. A chunk comes from the first main heap that has one (`main_heaps_kmalloc`), so the chunks of an
accelerator can lie in different heaps.
-/

namespace Usax.Kmalloc

open Usax.Lib Usax.Lib.Buddy Common

/-! ## Data model -/

def flDma : Nat := 0x20000000

/-- `struct kmalloc_acc`; a `buf` of 0 is `NULL`. -/
structure KmallocAcc where
  elemSize : Nat
  elemCount : Nat
  currElem : Nat
  buf : Nat

def kmallocCreateAccelerator (elemSize elemC : Nat) : KmallocAcc := ⟨elemSize, elemC, elemC, 0⟩

/-- What `kmalloc_create_accelerator` asks for, for large elements. -/
structure AccArgs (elemSize elemC : Nat) : Prop where
  pow : ∃ b c, elemSize = 2 ^ b ∧ elemC = 2 ^ c
  large : smallHeapMaxAlloc < elemSize
  mask : elemSize ≤ flSubBlockMinSizeMask
  fits : elemSize * elemC < 2 ^ 32

/-- Element `i` of the current chunk. -/
def KmallocAcc.elem (a : KmallocAcc) (i : Nat) : LiveBlock := ⟨a.buf + i * a.elemSize, a.elemSize, a.elemSize, 0⟩

/-- The elements of the current chunk that are left. -/
def KmallocAcc.left (a : KmallocAcc) : List LiveBlock :=
  (List.range' a.currElem (a.elemCount - a.currElem)).map a.elem

section

variable [Machine] (dma : Nat → Bool)

/-- A turn of the loop of `main_heaps_kmalloc`. The field `dma` of the heap at an address is given by `dma`. -/
def tryHeap (h : KmallocHeap) (size flags : Nat) : Option (KmallocHeap × Nat × Option Nat) :=
  if h.size < size ∨ subWord h.size h.memAllocated < size ∨ dma h.vaddr ≠ hasFlag flags flDma then
    some (h, size, none)
  else perHeapKmallocUnsafe h size flags

/-- `main_heaps_kmalloc`, with `*size`. -/
def mainHeapsKmalloc : List KmallocHeap → Nat → Nat → Option (List KmallocHeap × Nat × Option Nat)
  | [], size, _ => some ([], size, none)
  | h :: hs, size, flags => do
    let (h, size, res) ← tryHeap dma h size flags
    if res.isSome then
      return (h :: hs, size, res)
    let (hs, size, res) ← mainHeapsKmalloc hs size flags
    return (h :: hs, size, res)

/-- `general_kmalloc` of what is too large for the small heaps. -/
def generalKmalloc (heaps : List KmallocHeap) (size flags : Nat) : Option (List KmallocHeap × Nat × Option Nat) := do
  let (heaps, size, res) ← mainHeapsKmalloc dma heaps size flags
  if res = none ∧ hasFlag flags flDma = false then
    mainHeapsKmalloc dma heaps size (flags ||| flDma)
  else
    return (heaps, size, res)

def kmallocAcceleratorGetElem (a : KmallocAcc) (heaps : List KmallocHeap) :
    Option (KmallocAcc × List KmallocHeap × Option Nat) := do
  if a.currElem = a.elemCount then
    let (heaps, _, buf) ← generalKmalloc dma heaps (a.elemSize * a.elemCount % 2 ^ 32) a.elemSize
    return buf.elim ({ a with buf := 0 }, heaps, none) fun p => ({ a with buf := p, currElem := 1 }, heaps, some p)
  else
    return ({ a with currElem := a.currElem + 1 }, heaps, some (a.buf + a.elemSize * a.currElem))

/-- A turn of the loop of `kmalloc_destroy_accelerator`: `general_kfree`, which goes to the main heaps by the size. -/
def freeElem (a : KmallocAcc) (heaps : List KmallocHeap) (i : Nat) : Option (List KmallocHeap) := do
  let (heaps, found) ← mainHeapsKfree heaps (a.buf + i * a.elemSize) a.elemSize flAllowSplit
  if found then some heaps else none

def kmallocDestroyAccelerator (a : KmallocAcc) (heaps : List KmallocHeap) : Option (List KmallocHeap) :=
  (List.range' a.currElem (a.elemCount - a.currElem)).foldlM (freeElem a) heaps

/-- Calls of `kmalloc_accelerator_get_elem`, with the elements that they returned. -/
def getElems : Nat → KmallocAcc → List KmallocHeap → Option (KmallocAcc × List KmallocHeap × List Nat)
  | 0, a, heaps => some (a, heaps, [])
  | n + 1, a, heaps => do
    let (a, heaps, elems) ← getElems n a heaps
    let (a, heaps, res) ← kmallocAcceleratorGetElem dma a heaps
    return (a, heaps, res.toList ++ elems)

end

/-! ## The main heaps -/

/-- The heaps themselves, and what is held in them. -/
def heapsOf (main : List HeapState) : List KmallocHeap := main.map HeapState.heap

@[inherit_doc heapsOf] def heldIn (main : List HeapState) : List LiveBlock := main.flatMap HeapState.live

@[simp] theorem heapsOf_cons (M : HeapState) (main : List HeapState) : heapsOf (M :: main) = M.heap :: heapsOf main := rfl

theorem heldIn_set {main : List HeapState} {i : Nat} {M M' : HeapState} {new : List LiveBlock} (hM : main[i]? = some M)
    (h : M'.live.Perm (new ++ M.live)) : (heldIn (main.set i M')).Perm (new ++ heldIn main) := by
  induction main generalizing i with
  | nil => cases hM
  | cons N main ih =>
    cases i with
    | zero =>
      obtain rfl : N = M := Option.some.inj hM
      simpa [heldIn] using h.append_right (heldIn main)
    | succ i => exact ((ih hM).append_left N.live).trans (by simpa [heldIn] using List.perm_append_comm_assoc ..)

section

variable [Machine] {main : List HeapState} {M : HeapState} {i flags : Nat} (dma : Nat → Bool)

/-- Main heaps that are in use, whatever there is in small heaps. -/
def MainOk (main : List HeapState) : Prop := ∀ h, GeneralState.Ok ⟨⟨SmallHeaps.initial h, fun _ => []⟩, main⟩

theorem MainOk.set (hok : MainOk main) (hM : main[i]? = some M) {M' : HeapState} (hr : M'.Reachable)
    (hs : Same M.heap M'.heap) : MainOk (main.set i M') := by
  have hget : ∀ {j : Nat} {N : HeapState}, (main.set i M')[j]? = some N →
      ∃ N₀ : HeapState, main[j]? = some N₀ ∧ Same N₀.heap N.heap ∧ (N₀.Reachable → N.Reachable) := by
    intro j N hN
    by_cases hij : i = j
    · subst hij
      rw [List.getElem?_set_self (List.getElem?_eq_some_iff.mp hM).1] at hN
      cases hN
      exact ⟨M, hM, hs, fun _ => hr⟩
    · exact ⟨N, by rwa [List.getElem?_set_ne hij] at hN, Same.refl _, id⟩
  intro h
  refine ⟨⟨0, .initial h⟩, fun j N hN => ?_, fun j k N N' hN hN' hjk => ?_, fun _ h => by cases h⟩
  · obtain ⟨N₀, h₀, hs, hr⟩ := hget hN
    obtain ⟨h₁, h₂, h₃⟩ := (hok h).main j N₀ h₀
    rw [hs.minBlockSize, hs.heapLastByte, hs.vaddr, hs.size]
    exact ⟨hr h₁, h₂, h₃⟩
  · obtain ⟨_, h₀, hs, -⟩ := hget hN
    obtain ⟨_, h₀', hs', -⟩ := hget hN'
    rw [hs.vaddr, hs.size, hs'.vaddr, hs'.size]
    exact (hok h).apart j k _ _ h₀ h₀' hjk

variable {b c : Nat}

/-- A heap before and after the elements of a chunk at `ptr` are held. -/
structure Gives (size count ptr : Nat) (M M' : HeapState) : Prop where
  same : Same M.heap M'.heap
  reachable : M'.Reachable
  live : M'.live = (KmallocAcc.mk size count 0 ptr).left ++ M.live

/-- The result of an allocation of `count` elements: `NULL`, or a chunk of one of the heaps. -/
def Returns (main : List HeapState) (size count : Nat) (res : Option (List KmallocHeap × Nat × Option Nat)) : Prop :=
  res = some (heapsOf main, size * count, none) ∨
  ∃ i M M' ptr, res = some (heapsOf (main.set i M'), size * count, some ptr) ∧ main[i]? = some M ∧ Gives size count ptr M M'

section

variable (hbc : b + c < 32) (hone : hasFlag flags flMultiStep = false) (hsub : flags &&& flSubBlockMinSizeMask = 2 ^ b)
include hbc hone hsub

theorem tryHeap_spec (hr : M.Reachable) (hmin : M.heap.minBlockSize ≤ 2 ^ b) :
    tryHeap dma M.heap (2 ^ b * 2 ^ c) flags = some (M.heap, 2 ^ b * 2 ^ c, none) ∨
    ∃ M' ptr, tryHeap dma M.heap (2 ^ b * 2 ^ c) flags = some (M'.heap, 2 ^ b * 2 ^ c, some ptr) ∧
      Gives (2 ^ b) (2 ^ c) ptr M M' := by
  rw [tryHeap, ← pow_add]
  split
  · exact Or.inl rfl
  have hl : KmallocLegal M.heap (2 ^ (b + c)) flags :=
    ⟨fun h => absurd (h.symm.trans hone) (by decide), Or.inr (by rw [hsub]; exact ⟨hmin, b, rfl⟩)⟩
  obtain ⟨m, K, hi⟩ := hr.inv
  -- a power of 2 is not rounded up
  have hround : max (roundupNextPowerOf2 (2 ^ (b + c))) (2 ^ m) = 2 ^ (b + c) := by
    rw [roundupNextPowerOf2_two_pow hbc]
    rw [hi.owns.shape.minBlockSize] at hmin
    exact max_eq_left (hmin.trans (Nat.pow_le_pow_right (by omega) (by omega)))
  obtain ⟨sub, hargs⟩ := hl.args hi.owns.shape.minBlockSize
  rcases perHeapKmalloc_owns hi.owns hargs (Or.inl (hi.owns.shape.linear rfl).1) with
    ⟨-, hrun⟩ | ⟨k, -, hk, ⟨-, sz, hsz, -, hrun⟩ | ⟨h, y, n, hrun, -, hn, -, hal⟩⟩
  · exact Or.inl hrun
  · obtain rfl : sz = 2 ^ (b + c) := hsz.elim id fun h => by rw [h, ← hk, hround]
    exact Or.inl hrun
  · rw [hn hone, ← pow_add, ← hk, hround] at hrun
    have h₁ := hr.step (.kmalloc (2 ^ (b + c)) flags) hl (by rw [HeapState.exec, hrun]; rfl)
    have h₂ := h₁.step (.apart ⟨_, 2 ^ (b + c), 2 ^ (b + c), flags⟩)
      ⟨List.mem_cons_self, by rw [LiveBlock.subBlockSize, hsub]; positivity,
        by rw [LiveBlock.subBlockSize, hsub]; exact Nat.pow_dvd_pow 2 (by omega)⟩ rfl
    rw [List.erase_cons_head] at h₂
    have hdiv : 2 ^ (b + c) / 2 ^ b = 2 ^ c := by rw [pow_add, Nat.mul_div_cancel_left _ (by positivity)]
    refine Or.inr ⟨_, _, hrun, hal.frame.toSame, h₂, ?_⟩
    simp only [LiveBlock.subBlocks, LiveBlock.subBlockSize, hsub, hdiv, List.range_eq_range']
    rfl

theorem mainHeapsKmalloc_spec (hmain : ∀ M ∈ main, M.Reachable ∧ M.heap.minBlockSize ≤ 2 ^ b) :
    Returns main (2 ^ b) (2 ^ c) (mainHeapsKmalloc dma (heapsOf main) (2 ^ b * 2 ^ c) flags) := by
  induction main with
  | nil => exact Or.inl rfl
  | cons N main ih =>
    obtain ⟨hr, hmin⟩ := hmain N List.mem_cons_self
    rw [heapsOf_cons, mainHeapsKmalloc]
    rcases tryHeap_spec dma hbc hone hsub hr hmin with hrun | ⟨M', ptr, hrun, hg⟩
    · rcases ih fun M hM => hmain M (List.mem_cons_of_mem _ hM) with ih | ⟨i, M, M', ptr, ih, hrest⟩
      · exact Or.inl (by simp [hrun, ih])
      · exact Or.inr ⟨i + 1, M, M', ptr, by simp [hrun, ih], hrest⟩
    · exact Or.inr ⟨0, N, M', ptr, by simp [hrun], rfl, hg⟩

end

variable {size count curr buf : Nat} {held : List LiveBlock}

section

variable (ha : AccArgs size count)
include ha

theorem AccArgs.generalKmalloc (hok : MainOk main) :
    Returns main size count (Kmalloc.generalKmalloc dma (heapsOf main) (size * count) size) := by
  obtain ⟨⟨b, c, rfl, rfl⟩, hlarge, hmask, hfits⟩ := ha
  rw [← pow_add] at hfits
  have hbc : b + c < 32 := (Nat.pow_lt_pow_iff_right (by omega)).mp hfits
  have hlt : b < 27 := (Nat.pow_lt_pow_iff_right (by omega)).mp (show 2 ^ b < 2 ^ 27 by
    rw [flSubBlockMinSizeMask] at hmask; omega)
  obtain ⟨⟨hdma, hone, hsub⟩, hone', hsub'⟩ : (hasFlag (2 ^ b) flDma = false ∧ hasFlag (2 ^ b) flMultiStep = false ∧
      2 ^ b &&& flSubBlockMinSizeMask = 2 ^ b) ∧ hasFlag (2 ^ b ||| flDma) flMultiStep = false ∧
      (2 ^ b ||| flDma) &&& flSubBlockMinSizeMask = 2 ^ b := by
    clear * - hlt
    interval_cases b <;> decide
  have hmain : ∀ M ∈ main, M.Reachable ∧ M.heap.minBlockSize ≤ 2 ^ b := by
    intro M hM
    obtain ⟨j, hj⟩ := List.getElem?_of_mem hM
    obtain ⟨hr, hmbs, -⟩ := (hok M.heap).main j M hj
    exact ⟨hr, by rw [hmbs]; exact hlarge⟩
  rw [Kmalloc.generalKmalloc]
  rcases mainHeapsKmalloc_spec dma hbc hone hsub hmain with h | ⟨i, M, M', ptr, h, hrest⟩
  · -- a second call, for the heaps with `dma`
    simp only [h, hdma, and_self, if_true, Option.bind_eq_bind, Option.bind_some]
    exact mainHeapsKmalloc_spec dma hbc hone' hsub' hmain
  · exact Or.inr ⟨i, M, M', ptr, by simp [h], hrest⟩

theorem AccArgs.kfree (hok : MainOk main) {b : LiveBlock} (hb : b ∈ heldIn main) (hsize : b.size = size)
    (hflags : b.flags = 0) : ∃ main', mainHeapsKfree (heapsOf main) b.ptr size flAllowSplit = some (heapsOf main', true) ∧
      MainOk main' ∧ (heldIn main).Perm (b :: heldIn main') := by
  obtain ⟨M, hmem, hb⟩ := List.mem_flatMap.mp hb
  obtain ⟨i, hM⟩ := List.getElem?_of_mem hmem
  obtain ⟨hr, hmbs, -⟩ := (hok M.heap).main i M hM
  have hl : KfreeMatches M.heap b size flAllowSplit := by
    refine ⟨by rw [hflags]; rfl, fun _ => rfl, ?_⟩
    obtain ⟨⟨e, _, rfl, _⟩, hlarge, hmask, -⟩ := ha
    have he : e < 32 := (Nat.pow_lt_pow_iff_right (by omega)).mp (show 2 ^ e < 2 ^ 32 by
      rw [flSubBlockMinSizeMask] at hmask; omega)
    rw [if_neg (by decide), if_neg (by omega), hmbs, max_eq_left hlarge, roundupNextPowerOf2_two_pow he, hsize]
  obtain ⟨m, K, hi⟩ := hr.inv
  obtain ⟨h, sz, hrun, hfr, -⟩ := hi.kfree hb hl
  have hr' := hr.step (.kfree b size flAllowSplit) ⟨hb, hl⟩ (by rw [HeapState.exec, hrun]; rfl)
  refine ⟨_, ?_, hok.set hM hr' hfr.toSame, ?_⟩
  · rw [mainHeapsKfree, show (heapsOf main).findIdx? _ = _ from (hok M.heap).findIdx hM hb]
    simp [heapsOf, hM, hrun, List.map_set]
  · -- with the block, the heaps are those before
    obtain ⟨hlt, hget⟩ := List.getElem?_eq_some_iff.mp hM
    have hself : main.set i M = main := by rw [← hget, List.set_getElem_self]
    have hback : (heldIn ((main.set i { M with heap := h, live := M.live.erase b }).set i M)).Perm ([b] ++ _) :=
      heldIn_set (List.getElem?_set_self hlt) (List.perm_cons_erase hb)
    rwa [List.set_set, hself] at hback

/-! ## The elements -/

omit [Machine] ha in
theorem KmallocAcc.left_eq (h : curr < count) : (KmallocAcc.mk size count curr buf).left =
    ⟨buf + size * curr, size, size, 0⟩ :: (KmallocAcc.mk size count (curr + 1) buf).left := by
  obtain ⟨k, rfl⟩ := Nat.exists_eq_add_of_lt h
  simp only [left, show curr + k + 1 - curr = k + 1 by omega, show curr + k + 1 - (curr + 1) = k by omega,
    List.range'_succ, List.map_cons, elem, Nat.mul_comm]
  rfl

/-- The state of an accelerator; next to the elements that it has left, `held` is held. -/
structure Serves (size count curr buf : Nat) (main : List HeapState) (held : List LiveBlock) : Prop where
  le : curr ≤ count
  ok : MainOk main
  held_eq : (heldIn main).Perm ((KmallocAcc.mk size count curr buf).left ++ held)

omit ha in
theorem Serves.next (hs : Serves size count curr buf main held) (h : curr < count) :
    Serves size count (curr + 1) buf main (⟨buf + size * curr, size, size, 0⟩ :: held) :=
  ⟨h, hs.ok, hs.held_eq.trans (by rw [KmallocAcc.left_eq h]; exact List.perm_middle.symm)⟩

/-- **One call.** -/
theorem Serves.getElem (hs : Serves size count curr buf main held) :
    ∃ curr' buf' main' res, kmallocAcceleratorGetElem dma ⟨size, count, curr, buf⟩ (heapsOf main) =
        some (⟨size, count, curr', buf'⟩, heapsOf main', res) ∧
      Serves size count curr' buf' main' (res.toList.map (fun p => ⟨p, size, size, 0⟩) ++ held) := by
  rw [kmallocAcceleratorGetElem]
  by_cases hc : curr = count
  · subst hc
    have hheld : (heldIn main).Perm held := by simpa [KmallocAcc.left] using hs.held_eq
    rw [if_pos rfl, Nat.mod_eq_of_lt ha.fits]
    rcases ha.generalKmalloc dma hs.ok with h | ⟨i, M, M', ptr, h, hM, hg⟩
    · rw [h]
      exact ⟨curr, 0, main, none, rfl, le_refl _, hs.ok, by simpa [KmallocAcc.left] using hheld⟩
    · rw [h]
      have hpos : 0 < curr := by
        obtain ⟨_, c, _, rfl⟩ := ha.pow
        positivity
      have hnew : Serves size curr 0 ptr (main.set i M') held := ⟨Nat.zero_le _, hs.ok.set hM hg.reachable hg.same,
        (heldIn_set hM (.of_eq hg.live)).trans (hheld.append_left _)⟩
      exact ⟨1, ptr, _, some ptr, rfl, by simpa using hnew.next hpos⟩
  · rw [if_neg hc]
    exact ⟨_, _, _, _, rfl, hs.next (lt_of_le_of_ne hs.le hc)⟩

theorem Serves.getElems (hs : Serves size count curr buf main held) (n : Nat) :
    ∃ curr' buf' main' elems, Kmalloc.getElems dma n ⟨size, count, curr, buf⟩ (heapsOf main) =
        some (⟨size, count, curr', buf'⟩, heapsOf main', elems) ∧
      Serves size count curr' buf' main' (elems.map (fun p => ⟨p, size, size, 0⟩) ++ held) := by
  induction n with
  | zero => exact ⟨curr, buf, main, [], rfl, hs⟩
  | succ n ih =>
    obtain ⟨curr₁, buf₁, main₁, elems, hrun, hs₁⟩ := ih
    obtain ⟨curr₂, buf₂, main₂, res, hget, hs₂⟩ := hs₁.getElem dma ha
    refine ⟨curr₂, buf₂, main₂, res.toList ++ elems, by simp [Kmalloc.getElems, hrun, hget], ?_⟩
    rwa [List.map_append, List.append_assoc]

theorem AccArgs.destroy (l : List Nat) (hok : MainOk main)
    (hheld : (heldIn main).Perm (l.map (KmallocAcc.elem ⟨size, count, curr, buf⟩) ++ held)) :
    ∃ main', l.foldlM (freeElem ⟨size, count, curr, buf⟩) (heapsOf main) = some (heapsOf main') ∧
      MainOk main' ∧ (heldIn main').Perm held := by
  induction l generalizing main with
  | nil => exact ⟨main, rfl, hok, hheld⟩
  | cons i l ih =>
    obtain ⟨main₁, hrun, hok₁, hperm⟩ := ha.kfree hok (hheld.mem_iff.mpr List.mem_cons_self) rfl rfl
    obtain ⟨main', hrest, h⟩ := ih hok₁ (List.Perm.cons_inv (hperm.symm.trans hheld))
    have hfree : freeElem ⟨size, count, curr, buf⟩ (heapsOf main) i = some (heapsOf main₁) := by
      rw [freeElem, show mainHeapsKfree _ (buf + i * size) _ _ = _ from hrun]
      rfl
    exact ⟨main', by rw [List.foldlM_cons, hfree]; exact hrest, h⟩

end

/-- **The accelerator loses no block and frees none that is in use**: after any number of calls, and with what was left
freed, the blocks that are held are those before and the elements that were handed out, and the heaps are as they should
be. So the elements are disjoint, from one another and from everything else (`Reachable.live_blocks`). -/
theorem accelerator_conserves {g : GeneralState} (hg : g.Ok) {elemSize elemC : Nat} (ha : AccArgs elemSize elemC)
    (n : Nat) :
    ∃ a heaps elems main, getElems dma n (kmallocCreateAccelerator elemSize elemC) (heapsOf g.main) =
        some (a, heaps, elems) ∧
      kmallocDestroyAccelerator a heaps = some (heapsOf main) ∧ GeneralState.Ok { g with main := main } ∧
      (heldIn main).Perm (elems.map (fun p => ⟨p, elemSize, elemSize, 0⟩) ++ heldIn g.main) := by
  have hok : MainOk g.main := fun h => ⟨⟨0, .initial h⟩, hg.main, hg.apart, fun _ h => by cases h⟩
  have hs : Serves elemSize elemC elemC 0 g.main (heldIn g.main) := ⟨le_refl _, hok, by simp [KmallocAcc.left]⟩
  obtain ⟨curr, buf, main₁, elems, hrun, hs₁⟩ := hs.getElems dma ha n
  obtain ⟨main, hfree, hok', hperm⟩ := ha.destroy _ hs₁.ok hs₁.held_eq
  have hmain := hok' (g.small.sh.heap 0)
  refine ⟨_, _, elems, main, hrun, hfree, ⟨hg.small, hmain.main, hmain.apart, fun pos hpos => ?_⟩, hperm⟩
  -- the memory of a small heap is held in some heap, as before
  obtain ⟨i, M, hM, c, hc, hrest⟩ := hg.backed pos hpos
  have hmem : c ∈ heldIn main := hperm.mem_iff.mpr
    (List.mem_append_right _ (List.mem_flatMap.mpr ⟨M, List.mem_of_getElem? hM, hc⟩))
  obtain ⟨N, hN, hc⟩ := List.mem_flatMap.mp hmem
  obtain ⟨j, hj⟩ := List.getElem?_of_mem hN
  exact ⟨j, N, hj, c, hc, hrest⟩

end

/-- Five pages from a heap of 64 KB, in chunks of four: the fifth one comes from a second chunk, the rest of which is
freed. -/
theorem accelerator_conserves_pages : ∃ (_ : Machine) (g : GeneralState), g.Ok ∧ AccArgs 4096 4 ∧
    ∃ (a : KmallocAcc) (heaps : List KmallocHeap) (main : List HeapState),
      getElems (fun _ => false) 5 (kmallocCreateAccelerator 4096 4) (heapsOf g.main) =
        some (a, heaps, [0x108000, 0x107000, 0x106000, 0x105000, 0x104000]) ∧
      kmallocDestroyAccelerator a heaps = some (heapsOf main) ∧ GeneralState.Ok { g with main := main } ∧
      (heldIn main).Perm ([0x108000, 0x107000, 0x106000, 0x105000, 0x104000, 0x101000].map fun p =>
        ⟨p, 4096, 4096, 0⟩) := by
  let _ := machine64
  obtain ⟨M, hM, hr, hlive, hva, hsize, hmbs, hlast⟩ := HeapState.Reachable.exists_page
  let g : GeneralState := ⟨⟨SmallHeaps.initial M.heap, fun _ => []⟩, [M]⟩
  have hok : g.Ok := by
    refine ⟨⟨0, .initial _⟩, fun i N hN => ?_, fun i j N N' hN hN' hij => ?_, fun _ h => by cases h⟩
    · obtain ⟨rfl, rfl⟩ : i = 0 ∧ M = N := by simpa [g] using List.getElem?_eq_some_iff.mp hN
      exact ⟨hr, hmbs, by rw [hlast, hva, hsize]⟩
    · have hi := (List.getElem?_eq_some_iff.mp hN).1
      have hj := (List.getElem?_eq_some_iff.mp hN').1
      simp only [g, List.length_singleton] at hi hj
      omega
  have ha : AccArgs 4096 4 := ⟨⟨12, 2, rfl, rfl⟩, by decide, by decide, by decide⟩
  have helems : (HeapState.pageHeap.bind fun M =>
      getElems (fun _ => false) 5 (kmallocCreateAccelerator 4096 4) [M.heap]).map (fun r => r.2.2) =
      some [0x108000, 0x107000, 0x106000, 0x105000, 0x104000] := by decide
  obtain ⟨a, heaps, elems, main, hrun, hfree, hok', hperm⟩ := accelerator_conserves (fun _ => false) hok ha 5
  rw [hM, Option.bind_some, show getElems _ 5 _ [M.heap] = _ from hrun, Option.map_some] at helems
  obtain rfl := Option.some.inj helems
  exact ⟨_, g, hok, ha, a, heaps, main, hrun, hfree, hok', by simpa [g, heldIn, hlive] using hperm⟩

end Usax.Kmalloc
