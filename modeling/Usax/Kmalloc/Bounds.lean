import Usax.Kmalloc.Blocks

/-!
# The indices of the metadata nodes

Every access of the allocator is to a node of the array, whatever the nodes hold and whichever calls of `valloc_and_map`
fail: only the shape of the heap matters. A run is `Inside` the array if it has a result, which no index beyond the end
allows, and if it neither reads nor changes the byte in front of the array.

The exception is the block that is the whole heap: to free it, also when its allocation fails, `set_free_uplevels` looks at
`nodes[-1]`. Besides, the sizes of multi-step calls have to be made of minimum blocks.
-/

namespace Usax.Kmalloc

open Usax.Lib Common

variable {a : Option Nat} {m K : Nat} {h : KmallocHeap}

/-- The heap with another byte in front of the array. -/
def KmallocHeap.withBefore (h : KmallocHeap) (b : BlockNode) : KmallocHeap := { h with nodeBefore := b }

/-- The run stays in the array: it has a result, and does not depend on the byte in front of it. -/
def Inside (h : KmallocHeap) (run : KmallocHeap → Option KmallocHeap) : Prop :=
  ∃ h', Same h h' ∧ ∀ b, run (h.withBefore b) = some (h'.withBefore b)

/-- The same for a run with a result of which something holds. -/
def InsideWith {β : Type} (h : KmallocHeap) (run : KmallocHeap → Option (KmallocHeap × β)) (P : β → Prop) : Prop :=
  ∃ h' r, Same h h' ∧ P r ∧ ∀ b, run (h.withBefore b) = some (h'.withBefore b, r)

theorem same_withNodes (h : KmallocHeap) (f : Nat → BlockNode) : Same h (h.withNodes f) :=
  ⟨rfl, rfl, rfl, rfl, rfl, rfl, rfl, rfl, rfl, rfl⟩

theorem Shape.withBefore (sh : Shape h m K a) (b : BlockNode) : Shape (h.withBefore b) m K a :=
  sh.of_same ⟨rfl, rfl, rfl, rfl, rfl, rfl, rfl, rfl, rfl, rfl⟩

/-! ## Nodes and rows -/

/-- The node is in the row of the blocks of level `l`. -/
def InLevel (K l n : Nat) : Prop := l ≤ K ∧ 2 ^ (K - l) ≤ n + 1 ∧ n + 1 < 2 ^ (K - l + 1)

theorem InLevel.lt {l n : Nat} (hn : InLevel K l n) : n + 1 < 2 ^ (K + 1) :=
  hn.2.2.trans_le (Nat.pow_le_pow_right (by omega) (by have := hn.1; omega))

theorem InLevel.lt_metadataSize (sh : Shape h m K a) {l n : Nat} (hn : InLevel K l n) : n < h.metadataSize := by
  have := hn.lt
  rw [sh.metadataSize]
  omega

theorem inLevel_root : InLevel K K 0 := by
  refine ⟨le_rfl, ?_, ?_⟩ <;> simp

theorem InLevel.child {l n : Nat} (hn : InLevel K (l + 1) n) :
    InLevel K l (nodeLeft n) ∧ InLevel K l (nodeRight n) := by
  obtain ⟨hl, hlo, hhi⟩ := hn
  have hrow : K - l = K - (l + 1) + 1 := by omega
  have h₁ : 2 ^ (K - (l + 1) + 1) = 2 * 2 ^ (K - (l + 1)) := by ring
  have h₂ : 2 ^ (K - (l + 1) + 1 + 1) = 2 * 2 ^ (K - (l + 1) + 1) := by ring
  unfold InLevel nodeLeft nodeRight
  rw [hrow]
  omega

theorem InLevel.ne_zero {l n : Nat} (hn : InLevel K l n) (hl : l < K) : n ≠ 0 := by
  rintro rfl
  have htwo : 2 ^ 1 ≤ 2 ^ (K - l) := Nat.pow_le_pow_right (by omega) (by omega)
  have := hn.2.1
  omega

section
variable [Machine]

theorem inLevel_ptrToNode (sh : Shape h m K a) {l ptr : Nat} (hl : l ≤ K) (hptr : ptr - h.vaddr < 2 ^ (m + K)) :
    InLevel K l (ptrToNode h ptr (2 ^ (m + l))) := by
  have hsmall := sh.small
  have hpos : (ptr - h.vaddr) / 2 ^ (m + l) < 2 ^ (K - l) := by
    rw [Nat.div_lt_iff_lt_mul (by positivity), ← pow_add]
    rwa [show K - l + (m + l) = m + K by omega]
  have hone : 0 < 2 ^ (K - l) := by positivity
  have htwice : 2 ^ (K - l + 1) = 2 * 2 ^ (K - l) := by ring
  simp only [ptrToNode, log2ForPowerOf2_two_pow (show m + l < 32 by omega), sh.log2, Nat.shiftRight_eq_div_pow]
  rw [show m + K - (m + l) = K - l by omega]
  generalize (ptr - h.vaddr) / 2 ^ (m + l) = p at *
  refine ⟨hl, ?_, ?_⟩ <;> omega

theorem nodeToPtr_inside (sh : Shape h m K a) {l n : Nat} (hn : InLevel K l n) :
    h.vaddr ≤ nodeToPtr h n (2 ^ (m + l)) ∧ nodeToPtr h n (2 ^ (m + l)) + 2 ^ (m + l) ≤ h.vaddr + 2 ^ (m + K) := by
  obtain ⟨hl, hlo, hhi⟩ := hn
  have hsmall := sh.small
  have htwice : 2 ^ (K - l + 1) = 2 * 2 ^ (K - l) := by ring
  simp only [nodeToPtr, log2ForPowerOf2_two_pow (show m + l < 32 by omega), sh.log2, Nat.shiftLeft_eq]
  rw [show m + K - (m + l) = K - l by omega]
  have hrow : (n - (2 ^ (K - l) - 1) + 1) * 2 ^ (m + l) ≤ 2 ^ (K - l) * 2 ^ (m + l) := Nat.mul_le_mul_right _ (by omega)
  rw [← pow_add, show K - l + (m + l) = m + K by omega, Nat.add_mul, Nat.one_mul] at hrow
  refine ⟨?_, ?_⟩ <;> omega

end

/-! ## Single nodes -/

theorem node?_withBefore {n : Nat} (hn : n < h.metadataSize) (b : BlockNode) :
    (h.withBefore b).node? n = some (h.metadataNodes n) := if_pos hn

theorem setNode_inside {n : Nat} (hn : n < h.metadataSize) (x : BlockNode) : Inside h fun h => h.setNode n x :=
  ⟨h.withNodes (Function.update h.metadataNodes n x), same_withNodes h _, fun _ => if_pos hn⟩

theorem modifyNode_inside {n : Nat} (hn : n < h.metadataSize) (p : BlockNode → BlockNode) :
    Inside h fun h => h.modifyNode n p :=
  ⟨h.withNodes (Function.update h.metadataNodes n (p (h.metadataNodes n))), same_withNodes h _,
    fun b => KmallocHeap.modifyNode_eq (h := h.withBefore b) hn p⟩

theorem mapRow_inside {n count : Nat} (hn : n + count ≤ h.metadataSize) (p : BlockNode → BlockNode) :
    Inside h fun h => h.mapRow n count p :=
  ⟨h.withNodes fun i => if n ≤ i ∧ i < n + count then p (h.metadataNodes i) else h.metadataNodes i, same_withNodes h _,
    fun _ => if_pos hn⟩

/-! ## Going up -/

theorem nodeParent_lt {fuel n p : Nat} (hp : nodeParent n = some p) (hn : n + 1 < 2 ^ (fuel + 1)) :
    p + 1 < 2 ^ fuel ∧ p < n ∧ 2 * p + 2 ≤ n + 1 := by
  unfold nodeParent at hp
  split_ifs at hp with hzero
  obtain rfl := Option.some.inj hp
  rw [pow_succ] at hn
  omega

theorem clearFullLoop_inside (fuel : Nat) {n : Nat} (hfuel : n + 1 < 2 ^ fuel) (hn : n < h.metadataSize) :
    Inside h fun h => clearFullLoop fuel h (some n) := by
  induction fuel generalizing h n with
  | zero => simp at hfuel
  | succ fuel ih =>
    obtain ⟨h₁, hs₁, hrun₁⟩ := modifyNode_inside hn (fun b => { b with full := false })
    cases hp : nodeParent n with
    | none => exact ⟨h₁, hs₁, fun b => by simp only [clearFullLoop, hrun₁, hp, Option.bind_eq_bind, Option.bind_some]⟩
    | some p =>
      obtain ⟨hp₁, hp₂, -⟩ := nodeParent_lt hp hfuel
      obtain ⟨h₂, hs₂, hrun₂⟩ := ih hp₁ (by rw [hs₁.metadataSize]; omega)
      exact ⟨h₂, hs₁.trans hs₂, fun b => by
        simp only [clearFullLoop, hrun₁, hp, Option.bind_eq_bind, Option.bind_some, hrun₂]⟩

theorem coalesceLoop_inside (fuel : Nat) {n : Nat} (hfuel : n + 1 < 2 ^ fuel) (hn : 2 * n + 2 < h.metadataSize)
    (node currSize : Nat) : InsideWith h (fun h => coalesceLoop fuel h node n currSize) fun r => r.2.1 ≤ n := by
  induction fuel generalizing h n node currSize with
  | zero => simp at hfuel
  | succ fuel ih =>
    have hrun (b : BlockNode) : coalesceLoop (fuel + 1) (h.withBefore b) node n currSize =
        if isBlockNodeFree (h.metadataNodes n) then some (h.withBefore b, node, n, currSize)
        else if !isBlockNodeFree (h.metadataNodes (nodeLeft n)) || !isBlockNodeFree (h.metadataNodes (nodeRight n)) then
          ((h.withBefore b).modifyNode n fun b =>
            { b with full := (h.metadataNodes (nodeLeft n)).full && (h.metadataNodes (nodeRight n)).full }).bind
              fun h => some (h, node, n, currSize >>> 1)
        else ((h.withBefore b).modifyNode n BlockNode.clear).bind fun h =>
          (nodeParent n).elim (some (h, n, n, currSize)) fun p => coalesceLoop fuel h n p (currSize <<< 1) := by
      have hleft := node?_withBefore (show nodeLeft n < h.metadataSize by unfold nodeLeft; omega) b
      have hright := node?_withBefore (show nodeRight n < h.metadataSize by unfold nodeRight; omega) b
      rw [coalesceLoop, node?_withBefore (by omega), Option.bind_eq_bind, Option.bind_some]
      split_ifs with hfree hboth
      · rfl
      · simp only [hleft, hright, Option.bind_eq_bind, Option.bind_some, if_pos hboth]
        rfl
      · simp only [hleft, hright, Option.bind_eq_bind, Option.bind_some, if_neg hboth]
        cases nodeParent n <;> rfl
    unfold InsideWith
    simp only [hrun]
    split_ifs with hfree hboth
    · exact ⟨h, _, .refl h, le_rfl, fun b => rfl⟩
    · obtain ⟨h₁, hs₁, hrun₁⟩ := modifyNode_inside (show n < h.metadataSize by omega) fun b =>
        { b with full := (h.metadataNodes (nodeLeft n)).full && (h.metadataNodes (nodeRight n)).full }
      exact ⟨h₁, (node, n, currSize >>> 1), hs₁, le_rfl, fun b => by simp only [hrun₁, Option.bind_some]⟩
    · obtain ⟨h₁, hs₁, hrun₁⟩ := modifyNode_inside (show n < h.metadataSize by omega) BlockNode.clear
      cases hp : nodeParent n with
      | none => exact ⟨h₁, (n, n, currSize), hs₁, le_rfl, fun b => by simp only [hrun₁, Option.bind_some, Option.elim_none]⟩
      | some p =>
        obtain ⟨hp₁, hp₂, -⟩ := nodeParent_lt hp hfuel
        obtain ⟨h₂, r, hs₂, hr, hrun₂⟩ := ih hp₁ (by rw [hs₁.metadataSize]; omega) n (currSize <<< 1)
        exact ⟨h₂, r, hs₁.trans hs₂, by omega, fun b => by simp only [hrun₁, Option.bind_some, Option.elim_some, hrun₂]⟩

/-- **`set_free_uplevels`**, but for the root. -/
theorem setFreeUplevels_inside (sh : Shape h m K a) {node : Nat} (hne : node ≠ 0) (hn : node + 1 < 2 ^ (K + 1)) (size : Nat) :
    InsideWith h (fun h => setFreeUplevels h node size) fun _ => True := by
  obtain ⟨h₁, hs₁, hrun₁⟩ := modifyNode_inside (h := h) (n := node) (by rw [sh.metadataSize]; omega)
    (fun b => { b with full := false })
  have sh₁ := sh.of_same hs₁
  have hp : nodeParent node = some ((node - 1) / 2) := if_neg hne
  obtain ⟨hp₁, hp₂, hp₃⟩ := nodeParent_lt hp hn
  have hfuel : 2 ^ (K + 1) ≤ 2 ^ (m + K + 1) := Nat.pow_le_pow_right (by omega) (by omega)
  obtain ⟨h₂, ⟨biggest, n, currSize⟩, hs₂, hle, hrun₂⟩ := coalesceLoop_inside (h := h₁) (n := (node - 1) / 2) (m + K + 1)
    (by omega) (by rw [sh₁.metadataSize]; omega) node (size <<< 1)
  have sh₂ := sh₁.of_same hs₂
  have hle' : n ≤ (node - 1) / 2 := hle
  obtain ⟨h₃, hs₃, hrun₃⟩ := clearFullLoop_inside (h := h₂) (n := n) (m + K + 1) (by omega) (by rw [sh₂.metadataSize]; omega)
  refine ⟨h₃, (biggest, currSize), (hs₁.trans hs₂).trans hs₃, trivial, fun b => ?_⟩
  have hlog₁ := (sh₁.withBefore b).log2
  have hlog₂ := (sh₂.withBefore b).log2
  simp only [setFreeUplevels, hrun₁, hp, Option.bind_eq_bind, Option.bind_some, hlog₁, hrun₂, hlog₂, hrun₃]
  rfl

/-! ## Rows -/

/-- `count` nodes from `n` on are in the row of level `l`, or before it. -/
def RowBound (K l n count : Nat) : Prop := l ≤ K ∧ n + count + 1 ≤ 2 ^ (K - l + 1)

theorem RowBound.of_inLevel {l n : Nat} (hn : InLevel K l n) : RowBound K l n 1 := ⟨hn.1, by have := hn.2.2; omega⟩

theorem RowBound.le_metadataSize (sh : Shape h m K a) {l n count : Nat} (hr : RowBound K l n count) :
    n + count ≤ h.metadataSize := by
  have hle : 2 ^ (K - l + 1) ≤ 2 ^ (K + 1) := Nat.pow_le_pow_right (by omega) (by omega)
  have := hr.2
  rw [sh.metadataSize]
  omega

theorem RowBound.down {l n count : Nat} (hr : RowBound K (l + 1) n count) : RowBound K l (nodeLeft n) (count <<< 1) := by
  obtain ⟨hl, hle⟩ := hr
  have hrow : 2 ^ (K - l + 1) = 2 * 2 ^ (K - (l + 1) + 1) := by
    rw [show K - l + 1 = K - (l + 1) + 1 + 1 by omega]
    ring
  rw [RowBound, nodeLeft, Nat.shiftLeft_eq, hrow]
  omega

theorem half_block (m l : Nat) : 2 ^ (m + (l + 1)) >>> 1 = 2 ^ (m + l) := half_two_pow (m + l)

theorem coalesceRows_inside (sh : Shape h m K a) (l : Nat) {fuel n count : Nat} (hfuel : l + 2 ≤ fuel)
    (hr : RowBound K l n count) (free : Nat) :
    InsideWith h (fun h => coalesceRows fuel h (2 ^ (m + l)) n count free) fun _ => True := by
  induction l generalizing h fuel n count free with
  | zero =>
    obtain ⟨fuel, rfl⟩ := Nat.exists_eq_add_of_le' hfuel
    obtain ⟨h₁, hs₁, hrun₁⟩ := mapRow_inside (hr.le_metadataSize sh) BlockNode.clear
    have hlow : 2 ^ (m + 0) >>> 1 < 2 ^ m := by
      rw [Nat.shiftRight_eq_div_pow, Nat.add_zero]
      exact Nat.div_lt_self (by positivity) (by omega)
    refine ⟨h₁, free + countFree h n count * 2 ^ (m + 0), hs₁, trivial, fun b => ?_⟩
    have hmin : (h.withBefore b).minBlockSize = 2 ^ (m + 0) := sh.minBlockSize
    have hmin₁ : (h₁.withBefore b).minBlockSize = 2 ^ m := (sh.of_same hs₁).minBlockSize
    have hlow₁ : 2 ^ (m + 0) >>> 1 < (h₁.withBefore b).minBlockSize := by rwa [hmin₁]
    beta_reduce
    rw [coalesceRows, hmin, if_neg (lt_irrefl _), if_neg (lt_irrefl _)]
    simp only [hrun₁, Option.bind_eq_bind, Option.bind_some]
    rw [coalesceRows, if_pos hlow₁]
    rfl
  | succ l ih =>
    obtain ⟨fuel, rfl⟩ : ∃ k, fuel = k + 1 := ⟨fuel - 1, by omega⟩
    obtain ⟨h₁, hs₁, hrun₁⟩ := mapRow_inside (hr.le_metadataSize sh)
      (if 2 ^ (m + (l + 1)) ≠ h.allocBlockSize then fun _ => newNode else BlockNode.clear)
    have hfuel' : l + 2 ≤ fuel := by omega
    obtain ⟨h₂, r, hs₂, -, hrun₂⟩ := ih (sh.of_same hs₁) hfuel' hr.down free
    have hgt : 2 ^ m < 2 ^ (m + (l + 1)) := Nat.pow_lt_pow_right (by omega) (by omega)
    refine ⟨h₂, r, hs₁.trans hs₂, trivial, fun b => ?_⟩
    have hmin := (sh.withBefore b).minBlockSize
    have halloc : (h.withBefore b).allocBlockSize = h.allocBlockSize := rfl
    beta_reduce
    rw [coalesceRows, hmin, if_neg (by omega), if_pos hgt, halloc, half_block]
    simp only [hrun₁, Option.bind_eq_bind, Option.bind_some, hrun₂]

section
variable [Machine]

/-- **`internal_kmalloc_coalesce_block`**. -/
theorem coalesceBlock_inside (sh : Shape h m K a) {l ptr : Nat} (hl : l ≤ K) (hptr : ptr - h.vaddr < 2 ^ (m + K)) :
    InsideWith h (fun h => internalKmallocCoalesceBlock h ptr (2 ^ (m + l))) fun _ => True := by
  have hn := inLevel_ptrToNode sh hl hptr
  obtain ⟨h₁, free, hs₁, -, hrun₁⟩ := coalesceRows_inside sh l (show l + 2 ≤ m + K + 2 by omega) (.of_inLevel hn) 0
  obtain ⟨h₂, hs₂, hrun₂⟩ := modifyNode_inside (hn.lt_metadataSize (sh.of_same hs₁)) (fun b => { b with full := true })
  refine ⟨h₂, free, hs₁.trans hs₂, trivial, fun b => ?_⟩
  have hlog := (sh.withBefore b).log2
  have hnode : ptrToNode (h.withBefore b) ptr (2 ^ (m + l)) = ptrToNode h ptr (2 ^ (m + l)) := rfl
  simp only [internalKmallocCoalesceBlock, hlog, hnode, hrun₁, Option.bind_eq_bind, Option.bind_some, hrun₂]
  rfl

end

/-! ## Allocation blocks -/

/-- A block of level `l` at the address is in the heap. -/
def BlockInside (h : KmallocHeap) (m K l ptr : Nat) : Prop := h.vaddr ≤ ptr ∧ ptr + 2 ^ (m + l) ≤ h.vaddr + 2 ^ (m + K)

theorem BlockInside.of_same {h' : KmallocHeap} {l ptr : Nat} (hin : BlockInside h m K l ptr) (hs : Same h h') :
    BlockInside h' m K l ptr := by
  rwa [BlockInside, hs.vaddr]

theorem BlockInside.lt {l ptr : Nat} (hin : BlockInside h m K l ptr) : ptr - h.vaddr < 2 ^ (m + K) := by
  have hpos : 0 < 2 ^ (m + l) := by positivity
  obtain ⟨hlo, hhi⟩ := hin
  omega

/-- The allocation blocks from `va` on are in the heap. -/
def BlocksInside (h : KmallocHeap) (m K A va count : Nat) : Prop :=
  h.vaddr ≤ va ∧ va + count * 2 ^ (m + A) ≤ h.vaddr + 2 ^ (m + K)

theorem BlocksInside.next {A va count : Nat} (hb : BlocksInside h m K A va (count + 1)) :
    BlocksInside h m K A (va + 2 ^ (m + A)) count := by
  obtain ⟨hlo, hhi⟩ := hb
  rw [Nat.add_mul, Nat.one_mul] at hhi
  exact ⟨hlo.trans (Nat.le_add_right _ _), by omega⟩

theorem BlocksInside.lt {A va count : Nat} (hb : BlocksInside h m K A va (count + 1)) : va - h.vaddr < 2 ^ (m + K) := by
  obtain ⟨hlo, hhi⟩ := hb
  have hpos : 0 < 2 ^ (m + A) := by positivity
  rw [Nat.add_mul, Nat.one_mul] at hhi
  omega

theorem BlocksInside.of_same {h' : KmallocHeap} {A va count : Nat} (hb : BlocksInside h m K A va count) (hs : Same h h') :
    BlocksInside h' m K A va count := by
  rwa [BlocksInside, hs.vaddr]

theorem blocksInside {A l ptr : Nat} (sh : Shape h m K (some A)) (hin : BlockInside h m K l ptr) :
    BlocksInside h m K A (ptr / h.allocBlockSize * h.allocBlockSize) (1 + ((2 ^ (m + l) - 1) >>> h.allocBlockSizeLog2)) := by
  obtain ⟨hptr, hend⟩ := hin
  obtain ⟨-, hsize, hlog, hA, hdvd⟩ := sh.paged A rfl
  rw [hsize, hlog, Nat.shiftRight_eq_div_pow]
  have hpos : 0 < 2 ^ (m + A) := by positivity
  have hfloor : ptr / 2 ^ (m + A) * 2 ^ (m + A) ≤ ptr := Nat.div_mul_le_self _ _
  refine ⟨?_, ?_⟩
  · obtain ⟨q, hq⟩ := hdvd
    rw [hq, Nat.mul_comm]
    refine Nat.mul_le_mul_right _ ((Nat.le_div_iff_mul_le hpos).mpr ?_)
    rw [Nat.mul_comm, ← hq]
    exact hptr
  · by_cases hlA : A ≤ l
    · -- whole allocation blocks
      have hcount : (1 + (2 ^ (m + l) - 1) / 2 ^ (m + A)) * 2 ^ (m + A) = 2 ^ (m + l) := by
        have hpow : 2 ^ (m + l) = 2 ^ (l - A) * 2 ^ (m + A) := by
          rw [← pow_add]
          congr 1
          omega
        have hone : 0 < 2 ^ (l - A) := by positivity
        have hdiv : (2 ^ (m + l) - 1) / 2 ^ (m + A) = 2 ^ (l - A) - 1 := by
          have hlo : (2 ^ (l - A) - 1) * 2 ^ (m + A) = 2 ^ (m + l) - 2 ^ (m + A) := by
            rw [Nat.sub_mul, Nat.one_mul, ← hpow]
          have hhi : (2 ^ (l - A) - 1 + 1) * 2 ^ (m + A) = 2 ^ (m + l) := by
            rw [Nat.sub_add_cancel hone, ← hpow]
          have hpos' : 0 < 2 ^ (m + l) := by positivity
          exact Nat.div_eq_of_lt_le (by omega) (by omega)
        rw [hdiv, hpow]
        congr 1
        omega
      omega
    · -- a part of one
      have hone : (2 ^ (m + l) - 1) / 2 ^ (m + A) = 0 := by
        have hlt : 2 ^ (m + l) < 2 ^ (m + A) := Nat.pow_lt_pow_right (by omega) (by omega)
        exact Nat.div_eq_of_lt (by omega)
      have hdvd' : 2 ^ (m + A) ∣ h.vaddr + 2 ^ (m + K) := Nat.dvd_add hdvd (Nat.pow_dvd_pow 2 (by omega))
      obtain ⟨q, hq⟩ := hdvd'
      rw [hone, hq]
      have hpos' : 0 < 2 ^ (m + l) := by positivity
      have hlt : ptr / 2 ^ (m + A) < q := by
        rw [Nat.div_lt_iff_lt_mul hpos, Nat.mul_comm, ← hq]
        omega
      calc ptr / 2 ^ (m + A) * 2 ^ (m + A) + (1 + 0) * 2 ^ (m + A)
          = (ptr / 2 ^ (m + A) + 1) * 2 ^ (m + A) := by ring
        _ ≤ q * 2 ^ (m + A) := Nat.mul_le_mul_right _ hlt
        _ = 2 ^ (m + A) * q := Nat.mul_comm _ _

/-- `calculate_block_size` from a node on: it ends with the size of a block. -/
theorem blockSizeLoop_inside (sh : Shape h m K a) (l : Nat) {fuel n : Nat} (hfuel : l + 1 ≤ fuel) (hn : InLevel K l n)
    (vaddr va : Nat) : ∃ l' ≤ l, ∀ b, blockSizeLoop fuel (h.withBefore b) vaddr n va (2 ^ (m + l)) = some (2 ^ (m + l')) := by
  induction l generalizing fuel n va with
  | zero =>
    obtain ⟨fuel, rfl⟩ := Nat.exists_eq_add_of_le' hfuel
    refine ⟨0, le_rfl, fun b => ?_⟩
    have hmin : ¬ 2 ^ (m + 0) > (h.withBefore b).minBlockSize := by
      rw [(sh.withBefore b).minBlockSize]
      exact lt_irrefl _
    rw [Nat.zero_add, blockSizeLoop, if_neg hmin]
  | succ l ih =>
    obtain ⟨fuel, rfl⟩ : ∃ k, fuel = k + 1 := ⟨fuel - 1, by omega⟩
    have hgt (b : BlockNode) : 2 ^ (m + (l + 1)) > (h.withBefore b).minBlockSize := by
      rw [(sh.withBefore b).minBlockSize]
      exact Nat.pow_lt_pow_right (by omega) (by omega)
    by_cases hsplit : (h.metadataNodes n).split = true
    · obtain ⟨hleft, hright⟩ := hn.child
      have hfuel' : l + 1 ≤ fuel := by omega
      by_cases hva : vaddr ≥ va + 2 ^ (m + l)
      · obtain ⟨l', hl', hrun⟩ := ih hfuel' hright (va + 2 ^ (m + l))
        refine ⟨l', by omega, fun b => ?_⟩
        simp only [blockSizeLoop, if_pos (hgt b), node?_withBefore (hn.lt_metadataSize sh), Option.bind_eq_bind,
          Option.bind_some, hsplit, Bool.not_true, Bool.false_eq_true, if_false, half_block, if_pos hva, hrun]
      · obtain ⟨l', hl', hrun⟩ := ih hfuel' hleft va
        refine ⟨l', by omega, fun b => ?_⟩
        simp only [blockSizeLoop, if_pos (hgt b), node?_withBefore (hn.lt_metadataSize sh), Option.bind_eq_bind,
          Option.bind_some, hsplit, Bool.not_true, Bool.false_eq_true, if_false, half_block, if_neg hva, hrun]
    · refine ⟨l + 1, le_rfl, fun b => ?_⟩
      simp only [blockSizeLoop, if_pos (hgt b), node?_withBefore (hn.lt_metadataSize sh), Option.bind_eq_bind,
        Option.bind_some, hsplit, Bool.not_false, if_true]
      rfl

theorem mod_two_pow_succ (n i : Nat) : n % 2 ^ (i + 1) = n % 2 ^ i + if n.testBit i then 2 ^ i else 0 := by
  rw [Nat.mod_pow_succ, Nat.testBit_eq_decide_div_mod_eq]
  rcases Nat.mod_two_eq_zero_or_one (n / 2 ^ i) with hbit | hbit <;> simp [hbit]

theorem le_of_testBit {n i : Nat} (hdvd : 2 ^ m ∣ n) (hbit : n.testBit i = true) : m ≤ i := by
  obtain ⟨q, rfl⟩ := hdvd
  rw [Nat.testBit_two_pow_mul, Bool.and_eq_true, decide_eq_true_eq] at hbit
  exact hbit.1

section
variable [Machine]

theorem freeAllocBlocks_round {va size : Nat} (count : Nat) (hsize : h.allocBlockSize = size)
    (hn : ptrToNode h va h.allocBlockSize < h.metadataSize) : ∃ h₁, Same h h₁ ∧
      ∀ b, freeAllocBlocks (count + 1) (h.withBefore b) va = freeAllocBlocks count (h₁.withBefore b) (va + size) := by
  have hrest {h₁ : KmallocHeap} (hs : Same h h₁) (b : BlockNode) :
      freeAllocBlocks count (h₁.withBefore b) (va + (h₁.withBefore b).allocBlockSize) =
        freeAllocBlocks count (h₁.withBefore b) (va + size) := by
    rw [show (h₁.withBefore b).allocBlockSize = size from hs.allocBlockSize.trans hsize]
  have hnode (b : BlockNode) : (h.withBefore b).node? (ptrToNode (h.withBefore b) va (h.withBefore b).allocBlockSize) =
    some (h.metadataNodes (ptrToNode h va h.allocBlockSize)) := node?_withBefore hn b
  by_cases hal : (h.metadataNodes (ptrToNode h va h.allocBlockSize)).allocated = true
  · let e : KmallocHeap := { h with vmEvents := .unmap va (h.allocBlockSize / pageSize) :: h.vmEvents }
    have hse : Same h e := ⟨rfl, rfl, rfl, rfl, rfl, rfl, rfl, rfl, rfl, rfl⟩
    obtain ⟨h₁, hs₁, hrun₁⟩ := setNode_inside (h := e) hn newNode
    refine ⟨h₁, hse.trans hs₁, fun b => Eq.trans ?_ (hrest (hse.trans hs₁) b)⟩
    simp only [freeAllocBlocks, hnode, Option.bind_eq_bind, Option.bind_some]
    rw [if_pos hal]
    exact congrArg (Option.bind · fun h => freeAllocBlocks count h (va + h.allocBlockSize)) (hrun₁ b)
  · by_cases hfail : (h.metadataNodes (ptrToNode h va h.allocBlockSize)).allocFailed = true
    · obtain ⟨h₁, hs₁, hrun₁⟩ := setNode_inside hn
        { h.metadataNodes (ptrToNode h va h.allocBlockSize) with allocFailed := false }
      refine ⟨h₁, hs₁, fun b => Eq.trans ?_ (hrest hs₁ b)⟩
      simp only [freeAllocBlocks, hnode, Option.bind_eq_bind, Option.bind_some]
      rw [if_neg hal, if_pos hfail]
      exact congrArg (Option.bind · fun h => freeAllocBlocks count h (va + h.allocBlockSize)) (hrun₁ b)
    · refine ⟨h, .refl h, fun b => Eq.trans ?_ (hrest (.refl h) b)⟩
      simp only [freeAllocBlocks, hnode, Option.bind_eq_bind, Option.bind_some]
      rw [if_neg hal, if_neg hfail]

theorem freeAllocBlocks_inside {A : Nat} (count : Nat) {va : Nat} (sh : Shape h m K (some A))
    (hb : BlocksInside h m K A va count) : Inside h fun h => freeAllocBlocks count h va := by
  induction count generalizing h va with
  | zero => exact ⟨h, .refl h, fun _ => rfl⟩
  | succ count ih =>
    obtain ⟨-, hsize, -, hA, -⟩ := sh.paged A rfl
    have hn := (inLevel_ptrToNode sh hA hb.lt).lt_metadataSize sh
    rw [← hsize] at hn
    obtain ⟨h₁, hs₁, hrun₁⟩ := freeAllocBlocks_round count hsize hn
    obtain ⟨h₂, hs₂, hrun₂⟩ := ih (sh.of_same hs₁) (hb.next.of_same hs₁)
    exact ⟨h₂, hs₁.trans hs₂, fun b => (hrun₁ b).trans (hrun₂ b)⟩

/-! ## Freeing -/

/-- **`internal_kfree`** of any block but the whole heap. -/
theorem internalKfree_inside (sh : Shape h m K a) {l ptr : Nat} (hl : l < K) (hin : BlockInside h m K l ptr)
    (allowSplit doActualFree : Bool) : Inside h fun h => internalKfree h ptr (2 ^ (m + l)) allowSplit doActualFree := by
  have hnode := inLevel_ptrToNode sh hl.le hin.lt
  have hn := hnode.lt_metadataSize sh
  have hfirst : InsideWith h (fun h' => if allowSplit && (h.metadataNodes (ptrToNode h ptr (2 ^ (m + l)))).split then
      internalKmallocCoalesceBlock h' ptr (2 ^ (m + l)) else some (h', 0)) fun _ => True := by
    by_cases hsplit : (allowSplit && (h.metadataNodes (ptrToNode h ptr (2 ^ (m + l)))).split) = true
    · simp only [if_pos hsplit]
      exact coalesceBlock_inside sh hl.le hin.lt
    · simp only [if_neg hsplit]
      exact ⟨h, 0, .refl h, trivial, fun _ => rfl⟩
  obtain ⟨h₁, corr, hs₁, -, hrun₁⟩ := hfirst
  let e : KmallocHeap := { h₁ with memAllocated := subWord h₁.memAllocated (2 ^ (m + l) - corr) }
  have hse : Same h₁ e := ⟨rfl, rfl, rfl, rfl, rfl, rfl, rfl, rfl, rfl, rfl⟩
  have she : Shape e m K a := (sh.of_same hs₁).of_same hse
  obtain ⟨h₂, ⟨biggest, size⟩, hs₂, -, hrun₂⟩ := setFreeUplevels_inside she (hnode.ne_zero hl) hnode.lt (2 ^ (m + l))
  have hsame : Same h h₂ := (hs₁.trans hse).trans hs₂
  have sh₂ := sh.of_same hsame
  -- up to the allocation blocks
  have hrun (b : BlockNode) : internalKfree (h.withBefore b) ptr (2 ^ (m + l)) allowSplit doActualFree =
      if size < h₂.allocBlockSize then some (h₂.withBefore b)
      else if h₂.linearMapping || !doActualFree then some (h₂.withBefore b)
      else freeAllocBlocks (1 + ((2 ^ (m + l) - 1) >>> h₂.allocBlockSizeLog2)) (h₂.withBefore b)
        (ptr / h₂.allocBlockSize * h₂.allocBlockSize) := by
    have hread : (h.withBefore b).node? (ptrToNode (h.withBefore b) ptr (2 ^ (m + l))) = _ := node?_withBefore hn b
    have hup : setFreeUplevels { h₁.withBefore b with
        memAllocated := subWord (h₁.withBefore b).memAllocated (2 ^ (m + l) - corr) }
          (ptrToNode (h.withBefore b) ptr (2 ^ (m + l))) (2 ^ (m + l)) = some (h₂.withBefore b, biggest, size) := hrun₂ b
    have hcoal := hrun₁ b
    beta_reduce at hcoal
    simp only [internalKfree, hread, Option.bind_eq_bind, Option.bind_some]
    by_cases hsplit : (allowSplit && (h.metadataNodes (ptrToNode h ptr (2 ^ (m + l)))).split) = true
    · rw [if_pos hsplit] at hcoal ⊢
      rw [hcoal, Option.bind_some]
      refine Eq.trans (congrArg (Option.bind · _) hup) ?_
      rfl
    · rw [if_neg hsplit] at hcoal ⊢
      obtain ⟨heq, rfl⟩ := Prod.mk.inj (Option.some.inj hcoal)
      rw [← heq] at hup
      refine Eq.trans (congrArg (Option.bind · _) hup) ?_
      rfl
  unfold Inside
  simp only [hrun]
  split_ifs with hsmall hlinear
  · exact ⟨h₂, hsame, fun _ => rfl⟩
  · exact ⟨h₂, hsame, fun _ => rfl⟩
  · cases a with
    | none => exact absurd (by simp [(sh₂.linear rfl).1]) hlinear
    | some A =>
      obtain ⟨h₃, hs₃, hrun₃⟩ := freeAllocBlocks_inside _ sh₂ (blocksInside sh₂ (hin.of_same hsame))
      exact ⟨h₃, hsame.trans hs₃, hrun₃⟩

theorem multiFreeLoop_inside (i : Nat) (sh : Shape h m K a) {ptr size tot : Nat} (hi : i ≤ m + K) (hdvd : 2 ^ m ∣ size)
    (hptr : h.vaddr ≤ ptr) (hend : ptr + size ≤ h.vaddr + 2 ^ (m + K)) (htot : tot + size % 2 ^ i ≤ size)
    (allowSplit doActualFree : Bool) : Inside h fun h => multiFreeLoop i h ptr size tot allowSplit doActualFree := by
  induction i generalizing h tot with
  | zero => exact ⟨h, .refl h, fun _ => rfl⟩
  | succ i ih =>
    have hmod := mod_two_pow_succ size i
    by_cases hlt : tot < size
    · by_cases hbit : size.testBit i = true
      · obtain ⟨l, rfl⟩ := Nat.exists_eq_add_of_le (le_of_testBit hdvd hbit)
        rw [if_pos hbit] at hmod
        have hin : BlockInside h m K l (ptr + tot) := ⟨by omega, by omega⟩
        obtain ⟨h₁, hs₁, hrun₁⟩ := internalKfree_inside sh (show l < K by omega) hin allowSplit doActualFree
        obtain ⟨h₂, hs₂, hrun₂⟩ := ih (sh.of_same hs₁) (by omega) (by rwa [hs₁.vaddr])
          (by rwa [hs₁.vaddr]) (show tot + 2 ^ (m + l) + size % 2 ^ (m + l) ≤ size by omega)
        refine ⟨h₂, hs₁.trans hs₂, fun b => ?_⟩
        simp only [multiFreeLoop, if_pos hlt, if_pos hbit, hrun₁, Option.bind_eq_bind, Option.bind_some, hrun₂]
      · rw [if_neg hbit, Nat.add_zero] at hmod
        obtain ⟨h₂, hs₂, hrun₂⟩ := ih sh (by omega) hptr hend (show tot + size % 2 ^ i ≤ size by omega)
        exact ⟨h₂, hs₂, fun b => by simp only [multiFreeLoop, if_pos hlt, if_neg hbit, hrun₂]⟩
    · exact ⟨h, .refl h, fun b => by simp only [multiFreeLoop, if_neg hlt]⟩

def freedSize (h : KmallocHeap) (ptr userSize : Nat) : Option Nat :=
  if userSize ≠ 0 then some (roundupNextPowerOf2 (max userSize h.minBlockSize)) else calculateBlockSize h ptr

/-- **`per_heap_kfree`** of one block. -/
theorem kfreeOne_inside (sh : Shape h m K a) {ptr userSize flags l : Nat} (hflag : hasFlag flags flMultiStep = false)
    (hsize : ∀ b, freedSize (h.withBefore b) ptr userSize = some (2 ^ (m + l))) (hl : l < K) (hin : BlockInside h m K l ptr) :
    InsideWith h (fun h => perHeapKfreeUnsafe h ptr userSize flags) fun _ => True := by
  obtain ⟨h₁, hs₁, hrun₁⟩ := internalKfree_inside sh hl hin (hasFlag flags flAllowSplit) (!hasFlag flags flNoActual)
  refine ⟨h₁, 2 ^ (m + l), hs₁, trivial, fun b => ?_⟩
  have hrun : perHeapKfreeUnsafe (h.withBefore b) ptr userSize flags = (freedSize (h.withBefore b) ptr userSize).bind
      fun size => (internalKfree (h.withBefore b) ptr size (hasFlag flags flAllowSplit) (!hasFlag flags flNoActual)).bind
        fun h => some (h, size) := by
    simp only [perHeapKfreeUnsafe, hflag, Bool.not_false, if_true, freedSize, Option.bind_eq_bind]
    by_cases hzero : userSize ≠ 0
    · rw [if_pos hzero, if_pos hzero]
      rfl
    · rw [if_neg hzero, if_neg hzero]
      rfl
  simp only [hrun, hsize, Option.bind_some, hrun₁]

theorem freedSize_block (sh : Shape h m K a) {l : Nat} (hl : l ≤ K) (ptr : Nat) (b : BlockNode) :
    freedSize (h.withBefore b) ptr (2 ^ (m + l)) = some (2 ^ (m + l)) := by
  have hpos : 2 ^ (m + l) ≠ 0 := by positivity
  have hmax : max (2 ^ (m + l)) (2 ^ m) = 2 ^ (m + l) := max_eq_left (Nat.pow_le_pow_right (by omega) (by omega))
  rw [freedSize, if_pos hpos, (sh.withBefore b).minBlockSize, hmax,
    roundupNextPowerOf2_two_pow (by have := sh.small; omega)]

/-! ## Allocating -/

theorem allocateBlocks_round {va size : Nat} (nodeSize count : Nat) (failed : Bool) (hsize : h.allocBlockSize = size)
    (hn : ptrToNode h va h.allocBlockSize < h.metadataSize) :
    ∃ h₁ failed', Same h h₁ ∧ ((∀ i, h.vallocAndMap i = true) → failed' = failed) ∧
      ∀ b, allocateBlocks (count + 1) (h.withBefore b) nodeSize va failed =
        allocateBlocks count (h₁.withBefore b) nodeSize (va + size) failed' := by
  -- the end of a round
  have hlast (e : KmallocHeap) (hse : Same h e) (failed' : Bool) : ∃ h₁, Same h h₁ ∧ ∀ b,
      (if nodeSize ≥ (e.withBefore b).allocBlockSize then
        ((e.withBefore b).modifyNode (ptrToNode h va h.allocBlockSize) fun b => { b with full := true }).bind fun h =>
          allocateBlocks count h nodeSize (va + h.allocBlockSize) failed'
      else allocateBlocks count (e.withBefore b) nodeSize (va + (e.withBefore b).allocBlockSize) failed') =
        allocateBlocks count (h₁.withBefore b) nodeSize (va + size) failed' := by
    have hsize' {h₁ : KmallocHeap} (hs : Same h h₁) (b : BlockNode) : (h₁.withBefore b).allocBlockSize = size :=
      hs.allocBlockSize.trans hsize
    by_cases hbig : nodeSize ≥ size
    · obtain ⟨h₁, hs₁, hrun₁⟩ := modifyNode_inside (h := e) (by rwa [hse.metadataSize]) (fun b => { b with full := true })
      refine ⟨h₁, hse.trans hs₁, fun b => ?_⟩
      simp only [hsize' hse, if_pos hbig, hrun₁, Option.bind_some, hsize' (hse.trans hs₁)]
    · exact ⟨e, hse, fun b => by simp only [hsize' hse, if_neg hbig]⟩
  have hnode (b : BlockNode) : (h.withBefore b).node? (ptrToNode (h.withBefore b) va (h.withBefore b).allocBlockSize) =
    some (h.metadataNodes (ptrToNode h va h.allocBlockSize)) := node?_withBefore hn b
  by_cases hal : (h.metadataNodes (ptrToNode h va h.allocBlockSize)).allocated = true
  · obtain ⟨h₁, hs₁, hrun₁⟩ := hlast h (.refl h) failed
    refine ⟨h₁, failed, hs₁, fun _ => rfl, fun b => Eq.trans ?_ (hrun₁ b)⟩
    simp only [allocateBlocks, hnode, Option.bind_eq_bind, Option.bind_some]
    rw [if_neg (by rw [hal]; decide)]
    rfl
  · by_cases hok : h.vallocAndMap h.vallocCalls = true
    · let e : KmallocHeap := { h with
        vallocCalls := h.vallocCalls + 1, vmEvents := .map va (h.allocBlockSize / pageSize) :: h.vmEvents }
      have hse : Same h e := ⟨rfl, rfl, rfl, rfl, rfl, rfl, rfl, rfl, rfl, rfl⟩
      obtain ⟨e', hse', hset⟩ := setNode_inside (h := e) hn
        { h.metadataNodes (ptrToNode h va h.allocBlockSize) with allocated := true }
      obtain ⟨h₁, hs₁, hrun₁⟩ := hlast e' (hse.trans hse') failed
      refine ⟨h₁, failed, hs₁, fun _ => rfl, fun b => Eq.trans ?_ (hrun₁ b)⟩
      simp only [allocateBlocks, hnode, Option.bind_eq_bind, Option.bind_some]
      rw [if_pos (by simpa using hal),
        if_pos (show (h.withBefore b).vallocAndMap (h.withBefore b).vallocCalls = true from hok)]
      exact congrArg (Option.bind · _) (hset b)
    · let e : KmallocHeap := { h with vallocCalls := h.vallocCalls + 1 }
      have hse : Same h e := ⟨rfl, rfl, rfl, rfl, rfl, rfl, rfl, rfl, rfl, rfl⟩
      obtain ⟨e', hse', hset⟩ := setNode_inside (h := e) hn
        { h.metadataNodes (ptrToNode h va h.allocBlockSize) with allocFailed := true }
      obtain ⟨h₁, hs₁, hrun₁⟩ := hlast e' (hse.trans hse') true
      refine ⟨h₁, true, hs₁, fun hv => absurd (hv _) hok, fun b => Eq.trans ?_ (hrun₁ b)⟩
      simp only [allocateBlocks, hnode, Option.bind_eq_bind, Option.bind_some]
      rw [if_pos (by simpa using hal),
        if_neg (show ¬ (h.withBefore b).vallocAndMap (h.withBefore b).vallocCalls = true from hok)]
      exact congrArg (Option.bind · _) (hset b)

theorem allocateBlocks_inside {A : Nat} (nodeSize count : Nat) {va : Nat} (failed : Bool) (sh : Shape h m K (some A))
    (hb : BlocksInside h m K A va count) :
    InsideWith h (fun h => allocateBlocks count h nodeSize va failed) fun r =>
      (∀ i, h.vallocAndMap i = true) → r = failed := by
  induction count generalizing h va failed with
  | zero => exact ⟨h, failed, .refl h, fun _ => rfl, fun _ => rfl⟩
  | succ count ih =>
    obtain ⟨-, hsize, -, hA, -⟩ := sh.paged A rfl
    have hn := (inLevel_ptrToNode sh hA hb.lt).lt_metadataSize sh
    rw [← hsize] at hn
    obtain ⟨h₁, failed', hs₁, hf₁, hrun₁⟩ := allocateBlocks_round nodeSize count failed hsize hn
    obtain ⟨h₂, r, hs₂, hr, hrun₂⟩ := ih failed' (sh.of_same hs₁) (hb.next.of_same hs₁)
    refine ⟨h₂, r, hs₁.trans hs₂, fun hv => ?_, fun b => (hrun₁ b).trans (hrun₂ b)⟩
    exact (hr (by rwa [hs₁.vallocAndMap])).trans (hf₁ hv)

/-- **`actual_allocate_node`**: it succeeds if nothing has to be mapped, or everything can be. -/
theorem actualAllocateNode_inside (sh : Shape h m K a) {l n : Nat} (hn : InLevel K l n) (doActualAlloc : Bool) :
    InsideWith h (fun h => actualAllocateNode h (2 ^ (m + l)) n doActualAlloc) fun r =>
      r.2 = nodeToPtr h n (2 ^ (m + l)) ∧
        (h.linearMapping = true ∨ doActualAlloc = false ∨ (∀ i, h.vallocAndMap i = true) → r.1 = true) := by
  obtain ⟨h₁, hs₁, hrun₁⟩ := modifyNode_inside (hn.lt_metadataSize sh) (fun b => { b with full := true })
  have sh₁ := sh.of_same hs₁
  have hptr : nodeToPtr h₁ n (2 ^ (m + l)) = nodeToPtr h n (2 ^ (m + l)) := by
    simp only [nodeToPtr, hs₁.heapDataSizeLog2, hs₁.vaddr]
  have hrun (b : BlockNode) : actualAllocateNode (h.withBefore b) (2 ^ (m + l)) n doActualAlloc =
      if h₁.linearMapping || !doActualAlloc then some (h₁.withBefore b, true, nodeToPtr h n (2 ^ (m + l)))
      else (allocateBlocks (1 + ((2 ^ (m + l) - 1) >>> h₁.allocBlockSizeLog2)) (h₁.withBefore b) (2 ^ (m + l))
        (nodeToPtr h n (2 ^ (m + l)) / h₁.allocBlockSize * h₁.allocBlockSize) false).bind fun r =>
          some (r.1, !r.2, nodeToPtr h n (2 ^ (m + l))) := by
    simp only [actualAllocateNode, hrun₁, Option.bind_eq_bind, Option.bind_some]
    rw [← hptr]
    rfl
  unfold InsideWith
  simp only [hrun]
  by_cases hskip : (h₁.linearMapping || !doActualAlloc) = true
  · simp only [if_pos hskip]
    exact ⟨h₁, _, hs₁, ⟨rfl, fun _ => rfl⟩, fun _ => rfl⟩
  · simp only [if_neg hskip]
    cases a with
    | none => exact absurd (by simp [(sh₁.linear rfl).1]) hskip
    | some A =>
      have hin : BlockInside h m K l (nodeToPtr h n (2 ^ (m + l))) := nodeToPtr_inside sh hn
      have hblocks := blocksInside sh₁ (hin.of_same hs₁)
      obtain ⟨h₂, failed, hs₂, hf, hrun₂⟩ := allocateBlocks_inside (2 ^ (m + l)) _ false sh₁ hblocks
      refine ⟨h₂, (!failed, nodeToPtr h n (2 ^ (m + l))), hs₁.trans hs₂, ⟨rfl, fun hok => ?_⟩, fun b => ?_⟩
      · rcases hok with hok | hok | hok
        · exact absurd (by simp [hs₁.linearMapping, hok]) hskip
        · exact absurd (by simp [hok]) hskip
        · simp [hf (by rwa [hs₁.vallocAndMap])]
      · simp only [hrun₂, Option.bind_some]

/-! ## Looking for a block -/

/-- The result with another byte in front of the array. -/
def SearchResult.withBefore (b : BlockNode) : SearchResult → SearchResult
  | .null h => .null (h.withBefore b)
  | .found h node nodeSize stack => .found (h.withBefore b) node nodeSize stack

/-- What a search ends with: a node of a row for the size, and a stack of inner nodes. -/
def SearchInside (h : KmallocHeap) (m K j : Nat) : SearchResult → Prop
  | .null h' => Same h h'
  | .found h' node nodeSize stack => Same h h' ∧ nodeSize = 2 ^ (m + j) ∧ InLevel K j node ∧
      ∀ s ∈ stack, 2 * s + 2 < h.metadataSize

omit [Machine] in
theorem SearchInside.of_same {h' : KmallocHeap} {j : Nat} {res : SearchResult} (hin : SearchInside h' m K j res)
    (hs : Same h h') : SearchInside h m K j res := by
  cases res with
  | null h₁ => exact hs.trans hin
  | found h₁ node nodeSize stack =>
    obtain ⟨hs₁, hsize, hnode, hst⟩ := hin
    rw [hs.metadataSize] at hst
    exact ⟨hs.trans hs₁, hsize, hnode, hst⟩

omit [Machine] in
theorem InLevel.below (sh : Shape h m K a) {l n i : Nat} (hn : InLevel K l n) (hi : Below l n i) : i < h.metadataSize := by
  have hlt := hi.lt
  have hrow : (n + 2) * 2 ^ l ≤ 2 ^ (K - l + 1) * 2 ^ l := Nat.mul_le_mul_right _ hn.2.2
  rw [← pow_add, show K - l + 1 + l = K + 1 by have := hn.1; omega] at hrow
  rw [sh.metadataSize]
  omega

omit [Machine] in
theorem search_leaf {j n : Nat} {stack : List Nat} (sh : Shape h m K a) (hn : InLevel K j n)
    (hstack : ∀ s ∈ stack, 2 * s + 2 < h.metadataSize) (slots : Nat) :
    ∃ res, SearchInside h m K j res ∧
      ∀ b, search (2 ^ (m + j)) (slots + 1) (h.withBefore b) (2 ^ (m + j)) n stack = some (res.withBefore b) := by
  have hself (b : BlockNode) : search (2 ^ (m + j)) (slots + 1) (h.withBefore b) (2 ^ (m + j)) n stack =
      if isBlockNodeFree (h.metadataNodes n) then some (.found (h.withBefore b) n (2 ^ (m + j)) stack)
      else some (.null (h.withBefore b)) := search_self (h := h.withBefore b) (hn.lt_metadataSize sh)
  by_cases hfree : isBlockNodeFree (h.metadataNodes n) = true
  · exact ⟨.found h n (2 ^ (m + j)) stack, ⟨.refl h, rfl, hn, hstack⟩, fun b => (hself b).trans (if_pos hfree)⟩
  · exact ⟨.null h, .refl h, fun b => (hself b).trans (if_neg hfree)⟩

omit [Machine] in
theorem search_inside (k : Nat) {j slots n : Nat} {stack : List Nat} (sh : Shape h m K a) (hj : j ≤ k) (hslots : k < slots)
    (hn : InLevel K k n) (hstack : ∀ s ∈ stack, 2 * s + 2 < h.metadataSize) :
    ∃ res, SearchInside h m K j res ∧
      ∀ b, search (2 ^ (m + j)) slots (h.withBefore b) (2 ^ (m + k)) n stack = some (res.withBefore b) := by
  induction k generalizing h slots n stack with
  | zero =>
    obtain ⟨slots, rfl⟩ := Nat.exists_eq_add_of_lt hslots
    obtain rfl : j = 0 := Nat.le_zero.mp hj
    exact search_leaf sh hn hstack _
  | succ k ih =>
    obtain ⟨slots, rfl⟩ : ∃ i, slots = i + 1 := ⟨slots - 1, by omega⟩
    rcases Nat.eq_or_lt_of_le hj with rfl | hlt
    · exact search_leaf sh hn hstack _
    have hmem := hn.lt_metadataSize sh
    by_cases hfull : (h.metadataNodes n).full = true
    · exact ⟨.null h, .refl h, fun b => search_full (h := h.withBefore b) hmem hfull⟩
    have hfull' : (h.metadataNodes n).full = false := by simpa using hfull
    -- the heap with the node split
    obtain ⟨h', hs', hsplit⟩ : ∃ h', Same h h' ∧ ∀ b, h'.withBefore b = if (h.metadataNodes n).split then h.withBefore b
        else (h.withBefore b).withNodes (Function.update h.metadataNodes n { h.metadataNodes n with split := true }) := by
      by_cases hsp : (h.metadataNodes n).split = true
      · exact ⟨h, .refl h, fun b => (if_pos hsp).symm⟩
      · exact ⟨h.withNodes _, same_withNodes h _, fun b => (if_neg hsp).symm⟩
    have sh' := sh.of_same hs'
    have hdown (b : BlockNode) : search (2 ^ (m + j)) (slots + 1) (h.withBefore b) (2 ^ (m + (k + 1))) n stack =
        (if !(h'.metadataNodes (2 * n + 1)).full then
          search (2 ^ (m + j)) slots (h'.withBefore b) (2 ^ (m + k)) (2 * n + 1) (n :: stack)
        else some (.null (h'.withBefore b))).bind (searchRight (2 ^ (m + j)) slots (2 ^ (m + k)) n stack) :=
      search_succ (h := h.withBefore b) (Nat.le_of_lt_succ hlt) (fun i hi => hn.below sh hi) hfull' (hsplit b)
    obtain ⟨hleft, hright⟩ := hn.child
    have hlast : 2 * n + 2 < h.metadataSize := hright.lt_metadataSize sh
    have hstack' : ∀ s ∈ n :: stack, 2 * s + 2 < h'.metadataSize := by
      intro s hs
      rw [hs'.metadataSize]
      rcases List.mem_cons.mp hs with rfl | hs
      · exact hlast
      · exact hstack s hs
    have hslots' : k < slots := by omega
    have hjk : j ≤ k := Nat.le_of_lt_succ hlt
    -- the call for the left child, if it is made
    obtain ⟨left, hin, hrun⟩ : ∃ res, SearchInside h' m K j res ∧ ∀ b,
        (if !(h'.metadataNodes (2 * n + 1)).full then
          search (2 ^ (m + j)) slots (h'.withBefore b) (2 ^ (m + k)) (2 * n + 1) (n :: stack)
        else some (.null (h'.withBefore b))) = some (res.withBefore b) := by
      by_cases hl : (!(h'.metadataNodes (2 * n + 1)).full) = true
      · simp only [if_pos hl]
        exact ih sh' hjk hslots' hleft hstack'
      · simp only [if_neg hl]
        exact ⟨.null h', .refl h', fun _ => rfl⟩
    simp only [hdown, hrun, Option.bind_some]
    cases left with
    | found h₁ node nodeSize stack₁ =>
      exact ⟨.found h₁ node nodeSize stack₁, hin.of_same hs', fun _ => rfl⟩
    | null h₁ =>
      have hs₁ : Same h h₁ := hs'.trans hin
      have hr : 2 * n + 2 < h₁.metadataSize := by rwa [hs₁.metadataSize]
      have hright₁ (b : BlockNode) : searchRight (2 ^ (m + j)) slots (2 ^ (m + k)) n stack (.null (h₁.withBefore b)) =
          if !(h₁.metadataNodes (2 * n + 2)).full then
            search (2 ^ (m + j)) slots (h₁.withBefore b) (2 ^ (m + k)) (2 * n + 2) (n :: stack)
          else some (.null (h₁.withBefore b)) := by
        rw [searchRight, node?_withBefore hr, Option.bind_some]
      simp only [SearchResult.withBefore, hright₁]
      by_cases hl : (!(h₁.metadataNodes (2 * n + 2)).full) = true
      · simp only [if_pos hl]
        obtain ⟨res, hin₂, hrun₂⟩ := ih (sh.of_same hs₁) hjk hslots' hright
          (by rwa [hs'.metadataSize, ← hs₁.metadataSize] at hstack')
        exact ⟨res, hin₂.of_same hs₁, hrun₂⟩
      · simp only [if_neg hl]
        exact ⟨.null h₁, hs₁, fun _ => rfl⟩

omit [Machine] in
theorem markParents_inside (stack : List Nat) (hstack : ∀ s ∈ stack, 2 * s + 2 < h.metadataSize) :
    Inside h fun h => markParents h stack := by
  induction stack generalizing h with
  | nil => exact ⟨h, .refl h, fun _ => rfl⟩
  | cons s stack ih =>
    have hs := hstack s List.mem_cons_self
    have hrest : ∀ i ∈ stack, 2 * i + 2 < h.metadataSize := fun i hi => hstack i (List.mem_cons_of_mem s hi)
    have hl (b : BlockNode) := node?_withBefore (h := h) (n := nodeLeft s) (by unfold nodeLeft; omega) b
    have hr (b : BlockNode) := node?_withBefore (h := h) (n := nodeRight s) hs b
    by_cases hboth : ((h.metadataNodes (nodeLeft s)).full && (h.metadataNodes (nodeRight s)).full) = true
    · obtain ⟨h₁, hs₁, hrun₁⟩ := modifyNode_inside (h := h) (n := s) (by omega) (fun b => { b with full := true })
      obtain ⟨h₂, hs₂, hrun₂⟩ := ih (by rwa [hs₁.metadataSize])
      refine ⟨h₂, hs₁.trans hs₂, fun b => ?_⟩
      simp only [markParents, hl, hr, Option.bind_eq_bind, Option.bind_some, if_pos hboth, hrun₁, hrun₂]
    · obtain ⟨h₂, hs₂, hrun₂⟩ := ih hrest
      refine ⟨h₂, hs₂, fun b => ?_⟩
      simp only [markParents, hl, hr, Option.bind_eq_bind, Option.bind_some, if_neg hboth, hrun₂]

theorem allocateFound_inside (sh : Shape h m K a) {j n : Nat} (hn : InLevel K j n) (mark doActualAlloc : Bool) :
    InsideWith h (fun h => if mark then actualAllocateNode h (2 ^ (m + j)) n doActualAlloc
        else some (h, true, nodeToPtr h n (2 ^ (m + j)))) fun r =>
      r.2 = nodeToPtr h n (2 ^ (m + j)) ∧ (mark = false ∨ h.linearMapping = true ∨ doActualAlloc = false ∨
        (∀ i, h.vallocAndMap i = true) → r.1 = true) := by
  cases mark with
  | false => exact ⟨h, (true, nodeToPtr h n (2 ^ (m + j))), .refl h, ⟨rfl, fun _ => rfl⟩, fun _ => rfl⟩
  | true =>
    obtain ⟨h₁, r, hs₁, hr, hrun⟩ := actualAllocateNode_inside sh hn doActualAlloc
    exact ⟨h₁, r, hs₁, ⟨hr.1, fun hok => hr.2 (hok.resolve_left (by decide))⟩, hrun⟩

/-- **`internal_kmalloc`**, unless the mapping of the whole heap fails: what it returns is a block in the heap. -/
theorem internalKmalloc_inside (sh : Shape h m K a) {j k start : Nat} (hj : j ≤ k) (hstart : InLevel K k start)
    (mark doActualAlloc : Bool) (hroot : j < K ∨ mark = false ∨ h.linearMapping = true ∨ doActualAlloc = false ∨
      ∀ i, h.vallocAndMap i = true) :
    InsideWith h (fun h => internalKmalloc h (2 ^ (m + j)) start (2 ^ (m + k)) mark doActualAlloc) fun r =>
      ∀ v, r = some v → BlockInside h m K j v := by
  have hsmall := sh.small
  have hsize : ¬ 2 ^ (m + k) = 0 := by positivity
  have hslots : k < allocStackSize := by
    have := hstart.1
    unfold allocStackSize
    omega
  obtain ⟨res, hin, hsearch⟩ := search_inside k sh hj hslots hstart (fun s (hs : s ∈ []) => absurd hs (by simp))
  cases res with
  | null h₁ =>
    refine ⟨h₁, none, hin, nofun, fun b => ?_⟩
    simp only [internalKmalloc, if_neg hsize, hsearch, SearchResult.withBefore, Option.bind_eq_bind, Option.bind_some]
    rfl
  | found h₁ node nodeSize stack =>
    obtain ⟨hs₁, rfl, hnode, hstack⟩ := hin
    have sh₁ := sh.of_same hs₁
    obtain ⟨h₂, ⟨success, vaddr⟩, hs₂, ⟨hvaddr, hok⟩, hrun₂⟩ := allocateFound_inside sh₁ hnode mark doActualAlloc
    have hs₁₂ := hs₁.trans hs₂
    obtain ⟨h₃, hs₃, hrun₃⟩ := markParents_inside (h := h₂) stack (by rwa [hs₁₂.metadataSize])
    have hs := hs₁₂.trans hs₃
    have sh₃ := sh.of_same hs
    have hblock : BlockInside h m K j vaddr := by
      have hptr : vaddr = nodeToPtr h₁ node (2 ^ (m + j)) := hvaddr
      rw [hptr, BlockInside, ← hs₁.vaddr]
      exact nodeToPtr_inside sh₁ hnode
    -- up to the outcome of the allocation
    have hrun (b : BlockNode) : internalKmalloc (h.withBefore b) (2 ^ (m + j)) start (2 ^ (m + k)) mark doActualAlloc =
        if !success then (perHeapKfreeUnsafe (h₃.withBefore b) vaddr (2 ^ (m + j)) 0).bind fun r => some (r.1, none)
        else some (if doActualAlloc then
          { h₃.withBefore b with memAllocated := addWord (h₃.withBefore b).memAllocated (2 ^ (m + j)) }
          else h₃.withBefore b, some vaddr) := by
      have hal := hrun₂ b
      beta_reduce at hal
      simp only [internalKmalloc, if_neg hsize, hsearch, SearchResult.withBefore, Option.bind_eq_bind, Option.bind_some]
      cases mark with
      | false =>
        obtain ⟨heq, hpair⟩ := Prod.mk.inj (Option.some.inj hal)
        obtain ⟨rfl, rfl⟩ := Prod.mk.inj hpair
        rw [if_neg Bool.false_ne_true, heq]
        simp only [hrun₃, Option.bind_some]
        rfl
      | true =>
        rw [if_pos rfl] at hal
        simp only [if_true, hal, Option.bind_some, hrun₃]
        rfl
    unfold InsideWith
    simp only [hrun]
    cases success with
    | true =>
      simp only [Bool.not_true, Bool.false_eq_true, if_false]
      refine ⟨if doActualAlloc then { h₃ with memAllocated := addWord h₃.memAllocated (2 ^ (m + j)) } else h₃, some vaddr,
        ?_, fun v hv => ?_, fun b => ?_⟩
      · split_ifs
        · exact hs.trans ⟨rfl, rfl, rfl, rfl, rfl, rfl, rfl, rfl, rfl, rfl⟩
        · exact hs
      · obtain rfl := Option.some.inj hv
        exact hblock
      · cases doActualAlloc <;> rfl
    | false =>
      -- only the mapping can fail, and not that of the whole heap
      have hj' : j < K := hroot.resolve_right fun h => by
        rw [hs₁.linearMapping, hs₁.vallocAndMap] at hok
        exact Bool.false_ne_true (hok h)
      obtain ⟨h₄, r, hs₄, -, hrun₄⟩ := kfreeOne_inside sh₃ (show hasFlag 0 flMultiStep = false by decide)
        (freedSize_block sh₃ hj'.le vaddr) hj' (hblock.of_same hs)
      refine ⟨h₄, none, hs.trans hs₄, nofun, fun b => ?_⟩
      simp only [Bool.not_false, if_true, hrun₄, Option.bind_some]

/-! ## Splitting a block -/

omit [Machine] in
theorem splitRows_inside (sh : Shape h m K a) (l : Nat) {fuel n count leaf : Nat} (hfuel : l + 1 ≤ fuel)
    (hr : RowBound K l n count) (hleaf : 2 ^ m ≤ leaf) :
    InsideWith h (fun h => splitRows fuel h leaf (2 ^ (m + l)) n count) fun r =>
      ∃ l', RowBound K l' r.2.1 r.2.2 := by
  induction l generalizing h fuel n count with
  | zero =>
    obtain ⟨fuel, rfl⟩ := Nat.exists_eq_add_of_le' hfuel
    have hle : ¬ 2 ^ (m + 0) > leaf := not_lt.mpr hleaf
    exact ⟨h, (2 ^ (m + 0), n, count), .refl h, ⟨0, hr⟩, fun b => by simp only [splitRows, if_neg hle]⟩
  | succ l ih =>
    obtain ⟨fuel, rfl⟩ : ∃ k, fuel = k + 1 := ⟨fuel - 1, by omega⟩
    have hfuel' : l + 1 ≤ fuel := by omega
    by_cases hgt : 2 ^ (m + (l + 1)) > leaf
    · obtain ⟨h₁, hs₁, hrun₁⟩ := mapRow_inside (hr.le_metadataSize sh) (if 2 ^ (m + (l + 1)) ≠ h.allocBlockSize
        then fun _ => splitFullNode else fun b => { b with split := true, full := true })
      obtain ⟨h₂, r, hs₂, hrow, hrun₂⟩ := ih (sh.of_same hs₁) hfuel' hr.down
      refine ⟨h₂, r, hs₁.trans hs₂, hrow, fun b => ?_⟩
      have halloc : (h.withBefore b).allocBlockSize = h.allocBlockSize := rfl
      simp only [splitRows, if_pos hgt, halloc, hrun₁, Option.bind_eq_bind, Option.bind_some, half_block, hrun₂]
    · exact ⟨h, (2 ^ (m + (l + 1)), n, count), .refl h, ⟨l + 1, hr⟩, fun b => by simp only [splitRows, if_neg hgt]⟩

/-- **`internal_kmalloc_split_block`**. -/
theorem splitBlock_inside (sh : Shape h m K a) {l ptr leaf : Nat} (hl : l ≤ K) (hin : BlockInside h m K l ptr)
    (hleaf : 2 ^ m ≤ leaf) : Inside h fun h => internalKmallocSplitBlock h ptr (2 ^ (m + l)) leaf := by
  have hn := inLevel_ptrToNode sh hl hin.lt
  obtain ⟨h₁, ⟨s, n, count⟩, hs₁, ⟨l', hrow⟩, hrun₁⟩ :=
    splitRows_inside sh l (show l + 1 ≤ m + K + 1 by omega) (.of_inLevel hn) hleaf
  obtain ⟨h₂, hs₂, hrun₂⟩ := mapRow_inside (hrow.le_metadataSize (sh.of_same hs₁))
    (if s ≠ h₁.allocBlockSize then fun _ => fullNode else fun b => { b with full := true, split := false })
  refine ⟨h₂, hs₁.trans hs₂, fun b => ?_⟩
  have hlog := (sh.withBefore b).log2
  have hnode : ptrToNode (h.withBefore b) ptr (2 ^ (m + l)) = ptrToNode h ptr (2 ^ (m + l)) := rfl
  have halloc : (h₁.withBefore b).allocBlockSize = h₁.allocBlockSize := rfl
  simp only [internalKmallocSplitBlock, hlog, hnode, hrun₁, Option.bind_eq_bind, Option.bind_some, halloc, hrun₂]

/-! ## Multi-step allocations -/

omit [Machine] in
theorem div_two_pow_succ (n i : Nat) :
    n / 2 ^ i * 2 ^ i = n / 2 ^ (i + 1) * 2 ^ (i + 1) + if n.testBit i then 2 ^ i else 0 := by
  have h₁ := mod_two_pow_succ n i
  have h₂ := Nat.div_add_mod' n (2 ^ i)
  have h₃ := Nat.div_add_mod' n (2 ^ (i + 1))
  omega

theorem rollback_inside (fuel : Nat) (sh : Shape h m K a) {j bigBlock desired : Nat} (hfuel : m + K ≤ j + fuel)
    (hdvd : 2 ^ m ∣ desired) (hlt : desired < 2 ^ (m + K)) (hlo : h.vaddr ≤ bigBlock)
    (hhi : bigBlock + desired ≤ h.vaddr + 2 ^ (m + K)) (doSplit doActualAlloc : Bool) :
    Inside h fun h => rollback fuel h j bigBlock desired (desired / 2 ^ j * 2 ^ j) doSplit doActualAlloc := by
  induction fuel generalizing h j with
  | zero =>
    have hzero : desired / 2 ^ j = 0 := Nat.div_eq_of_lt (hlt.trans_le (Nat.pow_le_pow_right (by omega) (by omega)))
    exact ⟨h, .refl h, fun b => by simp [rollback, hzero]⟩
  | succ fuel ih =>
    have hstep := div_two_pow_succ desired j
    by_cases hpos : desired / 2 ^ j * 2 ^ j > 0
    · by_cases hbit : desired.testBit j = true
      · obtain ⟨l, rfl⟩ := Nat.exists_eq_add_of_le (le_of_testBit hdvd hbit)
        have hle := Nat.div_mul_le_self desired (2 ^ (m + l))
        have hl : l < K := by
          have := (Nat.pow_lt_pow_iff_right (a := 2) (by omega)).1 ((Nat.ge_two_pow_of_testBit hbit).trans_lt hlt)
          omega
        rw [if_pos hbit] at hstep
        have hin : BlockInside h m K l (bigBlock + (desired / 2 ^ (m + l) * 2 ^ (m + l) - 2 ^ (m + l))) :=
          ⟨by omega, by omega⟩
        obtain ⟨h₁, hs₁, hrun₁⟩ := internalKfree_inside sh hl hin doSplit doActualAlloc
        obtain ⟨h₂, hs₂, hrun₂⟩ := ih (sh.of_same hs₁) (show m + K ≤ m + l + 1 + fuel by omega) (by rwa [hs₁.vaddr])
          (by rwa [hs₁.vaddr])
        refine ⟨h₂, hs₁.trans hs₂, fun b => ?_⟩
        have hrest : desired / 2 ^ (m + l) * 2 ^ (m + l) - 2 ^ (m + l) =
            desired / 2 ^ (m + l + 1) * 2 ^ (m + l + 1) := by omega
        rw [hrest] at hrun₁
        simp only [rollback, if_pos hpos, if_pos hbit, hrest, hrun₁, Option.bind_eq_bind, Option.bind_some, hrun₂]
      · obtain ⟨h₁, hs₁, hrun₁⟩ := ih sh (show m + K ≤ j + 1 + fuel by omega) hlo hhi
        rw [if_neg hbit, Nat.add_zero] at hstep
        refine ⟨h₁, hs₁, fun b => ?_⟩
        simp only [rollback, if_pos hpos, if_neg hbit]
        rw [hstep]
        exact hrun₁ b
    · exact ⟨h, .refl h, fun b => by simp only [rollback, if_neg hpos]⟩

theorem splitIf_inside (sh : Shape h m K a) {l ptr sub : Nat} (hl : l ≤ K) (hin : BlockInside h m K l ptr)
    (hsub : sub = 0 ∨ 2 ^ m ≤ sub) :
    Inside h fun h => if decide (sub ≠ 0) = true then internalKmallocSplitBlock h ptr (2 ^ (m + l)) sub else some h := by
  by_cases hzero : decide (sub ≠ 0) = true
  · simp only [if_pos hzero]
    exact splitBlock_inside sh hl hin (hsub.resolve_left (of_decide_eq_true hzero))
  · simp only [if_neg hzero]
    exact ⟨h, .refl h, fun _ => rfl⟩

theorem multiAllocLoop_inside (i : Nat) (sh : Shape h m K a) {k bigBlock bigBlockNode desired sub : Nat} (hi : i ≤ m + K)
    (hnode : InLevel K k bigBlockNode) (hle : desired ≤ 2 ^ (m + k)) (hdvd : 2 ^ m ∣ desired) (hlt : desired < 2 ^ (m + K))
    (hlo : h.vaddr ≤ bigBlock) (hhi : bigBlock + desired ≤ h.vaddr + 2 ^ (m + K)) (hsub : sub = 0 ∨ 2 ^ m ≤ sub)
    (doActualAlloc : Bool) :
    InsideWith h (fun h => multiAllocLoop i h bigBlock bigBlockNode (2 ^ (m + k)) desired (desired / 2 ^ i * 2 ^ i) sub
      doActualAlloc) fun _ => True := by
  induction i generalizing h with
  | zero => exact ⟨h, some _, .refl h, trivial, fun _ => rfl⟩
  | succ i ih =>
    have hstep := div_two_pow_succ desired i
    by_cases htot : desired / 2 ^ (i + 1) * 2 ^ (i + 1) < desired
    · by_cases hbit : desired.testBit i = true
      · rw [if_pos hbit] at hstep
        obtain ⟨l, rfl⟩ := Nat.exists_eq_add_of_le (le_of_testBit hdvd hbit)
        have hlk : l ≤ k := by
          have := (Nat.pow_le_pow_iff_right (a := 2) (by omega)).1 ((Nat.ge_two_pow_of_testBit hbit).trans hle)
          omega
        have hl : l < K := by omega
        obtain ⟨h₁, addr, hs₁, haddr, hrun₁⟩ := internalKmalloc_inside sh hlk hnode true doActualAlloc (.inl hl)
        have sh₁ := sh.of_same hs₁
        cases addr with
        | none =>
          obtain ⟨h₂, hs₂, hrun₂⟩ := rollback_inside (m + K) sh₁ (show m + K ≤ m + l + 1 + (m + K) by omega) hdvd hlt
            (show h₁.vaddr ≤ bigBlock by rwa [hs₁.vaddr]) (by rwa [hs₁.vaddr]) (decide (sub ≠ 0)) doActualAlloc
          refine ⟨h₂, none, hs₁.trans hs₂, trivial, fun b => ?_⟩
          have hlog := (sh₁.withBefore b).log2
          simp only [multiAllocLoop, if_pos htot, if_pos hbit, hrun₁, Option.bind_eq_bind, Option.bind_some, hlog, hrun₂]
          rfl
        | some addr =>
          obtain ⟨h₂, hs₂, hrun₂⟩ := splitIf_inside sh₁ hl.le ((haddr addr rfl).of_same hs₁) hsub
          have hs := hs₁.trans hs₂
          obtain ⟨h₃, r, hs₃, -, hrun₃⟩ := ih (sh.of_same hs) (by omega) (by rwa [hs.vaddr]) (by rwa [hs.vaddr])
          refine ⟨h₃, r, hs.trans hs₃, trivial, fun b => ?_⟩
          rw [hstep] at hrun₃
          have hsplit := hrun₂ b
          simp only [multiAllocLoop, if_pos htot, if_pos hbit, hrun₁, Option.bind_eq_bind, Option.bind_some]
          split_ifs at hsplit ⊢
          · simp only [hsplit, Option.bind_some, hrun₃]
          · rw [Option.some.inj hsplit]
            exact hrun₃ b
      · obtain ⟨h₁, r, hs₁, -, hrun₁⟩ := ih sh (by omega) hlo hhi
        rw [if_neg hbit, Nat.add_zero] at hstep
        refine ⟨h₁, r, hs₁, trivial, fun b => ?_⟩
        simp only [multiAllocLoop, if_pos htot, if_neg hbit]
        rw [← hstep]
        exact hrun₁ b
    · refine ⟨h, some (desired / 2 ^ (i + 1) * 2 ^ (i + 1)), .refl h, trivial, fun b => ?_⟩
      simp only [multiAllocLoop, if_neg htot]

/-! ## The calls -/

/-- The arguments of `per_heap_kmalloc` for which the accesses stay inside. A multi-step allocation asks for whole minimum
blocks; an allocation of the whole heap cannot fail once it has begun. -/
structure KmallocArgs (h : KmallocHeap) (size flags : Nat) : Prop where
  multiStep : hasFlag flags flMultiStep = true → h.minBlockSize ∣ size
  subBlock : flags &&& flSubBlockMinSizeMask = 0 ∨ h.minBlockSize ≤ flags &&& flSubBlockMinSizeMask
  whole : max (roundupNextPowerOf2 size) h.minBlockSize = h.size → hasFlag flags flMultiStep = false ∨ size = h.size →
    h.linearMapping = true ∨ hasFlag flags flNoActual = true ∨ ∀ i, h.vallocAndMap i = true

section
variable {size flags j : Nat} (sh : Shape h m K a) (hargs : KmallocArgs h size flags) (hj : j ≤ K)
  (hround : max (roundupNextPowerOf2 size) (2 ^ m) = 2 ^ (m + j)) (hle : size ≤ 2 ^ (m + j))
include sh hargs hj hround hle

theorem KmallocArgs.root (hone : (!hasFlag flags flMultiStep || decide (2 ^ (m + j) - size < 2 ^ m)) = true) :
    j < K ∨ true = false ∨ h.linearMapping = true ∨ (!hasFlag flags flNoActual) = false ∨
      ∀ i, h.vallocAndMap i = true := by
  rcases Nat.lt_or_eq_of_le hj with hlt | rfl
  · exact .inl hlt
  have hwhole := hargs.whole
  rw [sh.minBlockSize, sh.size] at hwhole
  have hcase : hasFlag flags flMultiStep = false ∨ size = 2 ^ (m + j) := by
    cases hflag : hasFlag flags flMultiStep with
    | false => exact .inl rfl
    | true =>
      simp only [hflag, Bool.not_true, Bool.false_or, decide_eq_true_eq] at hone
      have hdvd : 2 ^ m ∣ 2 ^ (m + j) - size :=
        Nat.dvd_sub (pow_dvd_pow 2 (by omega)) (sh.minBlockSize ▸ hargs.multiStep hflag)
      have := Nat.eq_zero_of_dvd_of_lt hdvd hone
      exact .inr (by omega)
  exact .inr (.inr ((hwhole hround hcase).imp_right (.imp_left fun h => by rw [h]; rfl)))

theorem kmallocOne_inside (hbig : ¬ size > 2 ^ (m + K))
    (hone : (!hasFlag flags flMultiStep || decide (2 ^ (m + j) - size < 2 ^ m)) = true) :
    InsideWith h (fun h => perHeapKmallocUnsafe h size flags) fun _ => True := by
  have hmin (b : BlockNode) := (sh.withBefore b).minBlockSize
  have hsize (b : BlockNode) := (sh.withBefore b).size
  have hsub := sh.minBlockSize ▸ hargs.subBlock
  obtain ⟨h₁, addr, hs₁, haddr, hrun₁⟩ := internalKmalloc_inside sh hj inLevel_root true (!hasFlag flags flNoActual)
    (hargs.root sh hj hround hle hone)
  cases addr with
  | none =>
    refine ⟨h₁, (2 ^ (m + j), none), hs₁, trivial, fun b => ?_⟩
    simp only [perHeapKmallocUnsafe, hmin, hround, hsize, if_neg hbig, if_pos hone, hrun₁, Option.bind_eq_bind,
      Option.bind_some]
    rfl
  | some addr =>
    obtain ⟨h₂, hs₂, hrun₂⟩ := splitIf_inside (sh.of_same hs₁) hj ((haddr addr rfl).of_same hs₁) hsub
    refine ⟨h₂, (2 ^ (m + j), some addr), hs₁.trans hs₂, trivial, fun b => ?_⟩
    have hsplit := hrun₂ b
    simp only [perHeapKmallocUnsafe, hmin, hround, hsize, if_neg hbig, if_pos hone, hrun₁, Option.bind_eq_bind,
      Option.bind_some]
    split_ifs at hsplit ⊢
    · simp only [hsplit, Option.bind_some]
      rfl
    · rw [Option.some.inj hsplit]
      rfl

theorem kmallocMulti_inside (hbig : ¬ size > 2 ^ (m + K))
    (hone : ¬ (!hasFlag flags flMultiStep || decide (2 ^ (m + j) - size < 2 ^ m)) = true) :
    InsideWith h (fun h => perHeapKmallocUnsafe h size flags) fun _ => True := by
  have hmin (b : BlockNode) := (sh.withBefore b).minBlockSize
  have hsize (b : BlockNode) := (sh.withBefore b).size
  have hsub := sh.minBlockSize ▸ hargs.subBlock
  obtain ⟨h₁, big, hs₁, hblock, hrun₁⟩ := internalKmalloc_inside sh hj inLevel_root false false (.inr (.inl rfl))
  have sh₁ := sh.of_same hs₁
  cases big with
  | none =>
    refine ⟨h₁, (size, none), hs₁, trivial, fun b => ?_⟩
    simp only [perHeapKmallocUnsafe, hmin, hround, hsize, if_neg hbig, if_neg hone, hrun₁, Option.bind_eq_bind,
      Option.bind_some]
    rfl
  | some big =>
    obtain ⟨hmulti, hgap⟩ : hasFlag flags flMultiStep = true ∧ 2 ^ m ≤ 2 ^ (m + j) - size := by simpa using hone
    have hin := (hblock big rfl).of_same hs₁
    have hnode := inLevel_ptrToNode sh₁ hj hin.lt
    obtain ⟨hlo, hhi⟩ := hin
    have hpos : 0 < 2 ^ m := by positivity
    have hjK : 2 ^ (m + j) ≤ 2 ^ (m + K) := Nat.pow_le_pow_right (by omega) (by omega)
    have hlt : size < 2 ^ (m + K) := by omega
    have hdvd : 2 ^ m ∣ size := sh.minBlockSize ▸ hargs.multiStep hmulti
    obtain ⟨h₂, tot, hs₂, -, hrun₂⟩ := multiAllocLoop_inside (m + K) sh₁ le_rfl hnode hle hdvd hlt hlo
      (show big + size ≤ h₁.vaddr + 2 ^ (m + K) by omega) hsub (!hasFlag flags flNoActual)
    have hzero : size / 2 ^ (m + K) * 2 ^ (m + K) = 0 := by rw [Nat.div_eq_of_lt hlt, Nat.zero_mul]
    simp only [hzero] at hrun₂
    refine ⟨h₂, tot.elim (size, none) fun tot => (tot, some big), hs₁.trans hs₂, trivial, fun b => ?_⟩
    have hlog := (sh₁.withBefore b).log2
    have hnode' : ptrToNode (h₁.withBefore b) big (2 ^ (m + j)) = ptrToNode h₁ big (2 ^ (m + j)) := rfl
    simp only [perHeapKmallocUnsafe, hmin, hround, hsize, if_neg hbig, if_neg hone, hrun₁, Option.bind_eq_bind,
      Option.bind_some, hlog, hnode', hrun₂]
    cases tot <;> rfl

end

theorem kmalloc_inside (sh : Shape h m K a) {size flags : Nat} (hargs : KmallocArgs h size flags) :
    InsideWith h (fun h => perHeapKmallocUnsafe h size flags) fun _ => True := by
  by_cases hbig : size > 2 ^ (m + K)
  · refine ⟨h, (size, none), .refl h, trivial, fun b => ?_⟩
    simp only [perHeapKmallocUnsafe, (sh.withBefore b).size, if_pos hbig]
    rfl
  obtain ⟨j, hj, hround, hle⟩ := exists_roundedUpSize sh.small (not_lt.1 hbig)
  by_cases hone : (!hasFlag flags flMultiStep || decide (2 ^ (m + j) - size < 2 ^ m)) = true
  · exact kmallocOne_inside sh hargs hj hround hle hbig hone
  · exact kmallocMulti_inside sh hargs hj hround hle hbig hone

/-- The arguments of `per_heap_kfree` for which the accesses stay inside: the block is in the heap, and it is not the
whole heap. -/
structure KfreeArgs (h : KmallocHeap) (ptr userSize flags : Nat) : Prop where
  start : h.vaddr ≤ ptr
  fits : userSize ≤ h.size
  multiStep : hasFlag flags flMultiStep = true → h.minBlockSize ∣ userSize ∧ ptr + userSize ≤ h.vaddr + h.size
  one : hasFlag flags flMultiStep = false → ∀ size, freedSize h ptr userSize = some size →
    size ≠ h.size ∧ ptr + size ≤ h.vaddr + h.size

theorem freedSize_inside (sh : Shape h m K a) {userSize : Nat} (hfits : userSize ≤ 2 ^ (m + K)) (ptr : Nat) :
    ∃ l ≤ K, ∀ b, freedSize (h.withBefore b) ptr userSize = some (2 ^ (m + l)) := by
  have hsmall := sh.small
  unfold freedSize
  by_cases hzero : userSize ≠ 0
  · have hpos : 0 < 2 ^ m := by positivity
    have hmax : max userSize (2 ^ m) ≤ 2 ^ (m + K) := max_le hfits (Nat.pow_le_pow_right (by omega) (by omega))
    obtain ⟨e, he, hr, hle, -⟩ := exists_roundup (show 0 < max userSize (2 ^ m) by omega) hmax (by omega)
    have hme : m ≤ e := (Nat.pow_le_pow_iff_right (a := 2) (by omega)).1 ((le_max_right _ _).trans hle)
    obtain ⟨l, rfl⟩ := Nat.exists_eq_add_of_le hme
    refine ⟨l, by omega, fun b => ?_⟩
    rw [if_pos hzero, (sh.withBefore b).minBlockSize, hr]
  · obtain ⟨l, hl, hrun⟩ := blockSizeLoop_inside sh K (show K + 1 ≤ m + K + 1 by omega) inLevel_root ptr h.vaddr
    refine ⟨l, hl, fun b => ?_⟩
    rw [if_neg hzero, calculateBlockSize, (sh.withBefore b).log2,
      (sh.withBefore b).size]
    exact hrun b

theorem kfree_inside (sh : Shape h m K a) {ptr userSize flags : Nat} (hargs : KfreeArgs h ptr userSize flags) :
    InsideWith h (fun h => perHeapKfreeUnsafe h ptr userSize flags) fun _ => True := by
  cases hflag : hasFlag flags flMultiStep with
  | false =>
    obtain ⟨l, hl, hsize⟩ := freedSize_inside sh (sh.size ▸ hargs.fits) ptr
    obtain ⟨hne, hend⟩ := hargs.one hflag (2 ^ (m + l)) (hsize h.nodeBefore)
    rw [sh.size] at hne hend
    have hlt : l < K := lt_of_le_of_ne hl fun h => hne (by rw [h])
    exact kfreeOne_inside sh hflag hsize hlt ⟨hargs.start, hend⟩
  | true =>
    obtain ⟨hdvd, hend⟩ := hargs.multiStep hflag
    rw [sh.minBlockSize] at hdvd
    rw [sh.size] at hend
    have htot : 0 + userSize % 2 ^ (m + K) ≤ userSize := by
      rw [Nat.zero_add]
      exact Nat.mod_le _ _
    obtain ⟨h₁, hs₁, hrun₁⟩ := multiFreeLoop_inside (m + K) sh le_rfl hdvd hargs.start hend htot
      (hasFlag flags flAllowSplit) (!hasFlag flags flNoActual)
    refine ⟨h₁, userSize, hs₁, trivial, fun b => ?_⟩
    have hlog := (sh.withBefore b).log2
    simp only [perHeapKfreeUnsafe, hflag, hlog, hrun₁, Option.bind_eq_bind, Option.bind_some]
    rfl

/-! ## Runs -/

/-- The heaps that are reached by such calls from one with the parameters of a new heap, linear-mapped or not, whatever its
nodes and its counter are. What `valloc_and_map` returns can change at any time. -/
inductive BoundedRun : KmallocHeap → Prop
  | create (a : Option Nat) {m K vaddr : Nat} (nodeBefore : BlockNode) (valloc : Nat → Bool) (nodes : Nat → BlockNode)
      (mem : Nat) (small : m + K < 31) (aligned : ∀ A, a = some A → A ≤ K ∧ 2 ^ (m + A) ∣ vaddr) :
      BoundedRun { kmallocCreateHeap vaddr (2 ^ (m + K)) (2 ^ m) (a.elim 0 (fun A => 2 ^ (m + A))) a.isNone nodeBefore valloc
        with metadataNodes := nodes, memAllocated := mem }
  | kmalloc {h h' : KmallocHeap} {size flags : Nat} {r : Nat × Option Nat} : BoundedRun h → KmallocArgs h size flags →
      perHeapKmallocUnsafe h size flags = some (h', r) → BoundedRun h'
  | kfree {h h' : KmallocHeap} {ptr userSize flags r : Nat} : BoundedRun h → KfreeArgs h ptr userSize flags →
      perHeapKfreeUnsafe h ptr userSize flags = some (h', r) → BoundedRun h'
  | valloc {h : KmallocHeap} (valloc : Nat → Bool) : BoundedRun h → BoundedRun { h with vallocAndMap := valloc }

omit [Machine] in
theorem InsideWith.shape {β : Type} {run : KmallocHeap → Option (KmallocHeap × β)} {P : β → Prop} {h' : KmallocHeap} {r : β}
    (hin : InsideWith h run P) (sh : Shape h m K a) (hrun : run h = some (h', r)) : Shape h' m K a := by
  obtain ⟨h₁, r₁, hs₁, -, hrun₁⟩ := hin
  have heq := (hrun₁ h.nodeBefore).symm.trans hrun
  obtain ⟨rfl, -⟩ := Prod.mk.inj (Option.some.inj heq)
  exact (sh.of_same hs₁).withBefore _

theorem BoundedRun.shape (hr : BoundedRun h) : ∃ m K a, Shape h m K a := by
  induction hr with
  | create a nodeBefore valloc nodes mem small aligned =>
    exact ⟨_, _, a, (owns_create a _ nodeBefore valloc small aligned).shape.of_same
      ⟨rfl, rfl, rfl, rfl, rfl, rfl, rfl, rfl, rfl, rfl⟩⟩
  | kmalloc _ hargs hrun ih =>
    obtain ⟨m, K, a, sh⟩ := ih
    exact ⟨m, K, a, (kmalloc_inside sh hargs).shape sh hrun⟩
  | kfree _ hargs hrun ih =>
    obtain ⟨m, K, a, sh⟩ := ih
    exact ⟨m, K, a, (kfree_inside sh hargs).shape sh hrun⟩
  | valloc valloc _ ih =>
    obtain ⟨m, K, a, sh⟩ := ih
    exact ⟨m, K, a, sh.size, sh.minBlockSize, sh.log2, sh.metadataSize, sh.small, sh.linear, sh.paged⟩

/-- **The accesses of both calls**, in every heap that is reached: the indices are those of nodes of the array. -/
theorem BoundedRun.accesses_inside (hr : BoundedRun h) :
    (∀ size flags, KmallocArgs h size flags → InsideWith h (fun h => perHeapKmallocUnsafe h size flags) fun _ => True) ∧
    ∀ ptr userSize flags, KfreeArgs h ptr userSize flags →
      InsideWith h (fun h => perHeapKfreeUnsafe h ptr userSize flags) fun _ => True := by
  obtain ⟨m, K, a, sh⟩ := hr.shape
  exact ⟨fun size flags hargs => kmalloc_inside sh hargs, fun ptr userSize flags hargs => kfree_inside sh hargs⟩

end

/-- A request of 100 bytes on a heap of 64 KB, and a free of its first 32. -/
theorem BoundedRun.accesses_inside_first : ∃ (_ : Machine) (h : KmallocHeap), BoundedRun h ∧ KmallocArgs h 100 0 ∧
    KfreeArgs h 0x100000 32 0 ∧ InsideWith h (fun h => perHeapKmallocUnsafe h 100 0) (fun _ => True) ∧
    InsideWith h (fun h => perHeapKfreeUnsafe h 0x100000 32 0) fun _ => True := by
  let M := machine32
  let h := kmallocCreateHeap 0x100000 (2 ^ (5 + 11)) (2 ^ 5) 0 true fullNode fun _ => true
  have hr : BoundedRun h := .create none fullNode (fun _ => true) h.metadataNodes 0 (by norm_num) nofun
  have hk : KmallocArgs h 100 0 := ⟨by decide, by decide, fun _ _ => .inl rfl⟩
  have hf : KfreeArgs h 0x100000 32 0 := by
    refine ⟨by decide, by decide, by decide, fun _ size hsize => ?_⟩
    obtain rfl : 32 = size := Option.some.inj (Eq.trans (by decide) hsize)
    decide
  exact ⟨M, h, hr, hk, hf, hr.accesses_inside.1 100 0 hk, hr.accesses_inside.2 0x100000 32 0 hf⟩

/-- **The whole heap**: the byte in front of the array changes when it is freed, and when its memory cannot be mapped. A
multi-step request of 69 bytes, with minimum blocks of 32, goes beyond the array. -/
theorem kfree_whole_heap : ∃ _ : Machine,
    (let h := kmallocCreateHeap 0x100000 65536 32 0 true fullNode fun _ => true
      ∃ h₁ h₂, perHeapKmallocUnsafe h 65536 0 = some (h₁, 65536, some 0x100000) ∧ h₁.nodeBefore.full = true ∧
        perHeapKfreeUnsafe h₁ 0x100000 65536 0 = some (h₂, 65536) ∧ h₂.nodeBefore.full = false) ∧
    (let h := kmallocCreateHeap 0x100000 65536 4096 4096 false fullNode fun _ => false
      ∃ h₁, perHeapKmallocUnsafe h 65536 0 = some (h₁, 65536, none) ∧ h₁.nodeBefore.full = false) ∧
    perHeapKmallocUnsafe (kmallocCreateHeap 0x100000 65536 32 0 true newNode fun _ => true) 69 flMultiStep = none := by
  let M := machine32
  refine ⟨M, ?_, ?_, by decide⟩
  · let h := kmallocCreateHeap 0x100000 65536 32 0 true fullNode fun _ => true
    have hfree : ((perHeapKmallocUnsafe h 65536 0).bind fun r => (perHeapKfreeUnsafe r.1 0x100000 65536 0).map
        fun r' => (r.2, r.1.nodeBefore.full, r'.2, r'.1.nodeBefore.full)) =
        some ((65536, some 0x100000), true, 65536, false) := by decide
    obtain ⟨⟨h₁, r₁⟩, hrun₁, hrest⟩ := Option.bind_eq_some_iff.1 hfree
    obtain ⟨⟨h₂, r₂⟩, hrun₂, heq⟩ := Option.map_eq_some_iff.1 hrest
    simp only [Prod.mk.injEq] at heq
    obtain ⟨rfl, hbefore, rfl, hafter⟩ := heq
    exact ⟨h₁, h₂, hrun₁, hbefore, hrun₂, hafter⟩
  · let h := kmallocCreateHeap 0x100000 65536 4096 4096 false fullNode fun _ => false
    have hfail : (perHeapKmallocUnsafe h 65536 0).map (fun r => (r.2, r.1.nodeBefore.full)) = some ((65536, none), false) := by
      decide
    obtain ⟨⟨h₁, r₁⟩, hrun₁, heq⟩ := Option.map_eq_some_iff.1 hfail
    simp only [Prod.mk.injEq] at heq
    obtain ⟨rfl, hafter⟩ := heq
    exact ⟨h₁, hrun₁, hafter⟩

end Usax.Kmalloc
