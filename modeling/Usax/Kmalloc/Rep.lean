import Usax.Kmalloc.Defs
import Usax.Lib.HeapIndex
import Usax.Lib.Buddy

/-!
# What the metadata nodes mean

`Rep a f k n u`: below node `n`, at height `k`, the metadata nodes `f` describe the buddy tree `u`. Only the `split` and
`full` bits count. Below a free block all of them are clear; below a block in use nothing is split, and a node is full
only if it is an allocation block (level `a`) that has been allocated: `actual_allocate_node` marks those. `RepCtx` is
the same for a tree with a hole.

- `Rep` and `RepCtx` do not see changes elsewhere (`Rep.congr`, `RepCtx.congr`);
- a tree is a context and the tree in its hole (`RepCtx.plug`, `Rep.descend`);
- `Shape` are the fields of a heap that no operation changes, and with it `ptr_to_node` and `node_to_ptr` convert between
  the address and the node of a block (`ptrToNode_off`, `nodeToPtr_node`).
-/

namespace Usax.Kmalloc

open Usax.Lib Usax.Lib.Buddy Common

/-! ## Trees -/

section Trees

variable (a : Option Nat) (f : Nat → BlockNode)

/-- Nothing is split strictly below `n` and nothing is full but allocated allocation blocks. -/
def Dim (k n : Nat) : Prop := ∀ i, Below k n i → i ≠ n → (f i).split = false ∧
  ((f i).full = true → (f i).allocated = true ∧ ∃ A < k, a = some A ∧ InRow (k - A) n i)

/-- Nothing is split or full below. -/
def Clean (k n : Nat) : Prop := ∀ m, Below k n m → isBlockNodeFree (f m) = true

/-- The nodes below `n` describe the buddy tree `u`. -/
def Rep : Nat → Nat → Buddy → Prop
  | k, n, .free => Clean f k n
  | k, n, .used => (f n).full = true ∧ (f n).split = false ∧ Dim a f k n
  | 0, _, .split _ _ => False
  | k + 1, n, .split l r => (f n).split = true ∧ (f n).full = (l.isFull && r.isFull) ∧
      Rep k (2 * n + 1) l ∧ Rep k (2 * n + 2) r

/-- The index of the hole of a context whose root has index `r`. -/
def node (r : Nat) : Ctx → Nat
  | [] => r
  | fr :: c => child (node r c) fr.1

/-- The indices of the ancestors of the hole, innermost first. -/
def ancestors (r : Nat) : Ctx → List Nat
  | [] => []
  | _ :: c => node r c :: ancestors r c

/-- The nodes around the hole of level `j` describe the context; their `full` bits are those of the context filled with
`v`. -/
def RepCtx (r : Nat) : Ctx → Nat → Buddy → Prop
  | [], _, _ => True
  | fr :: c, j, v => (f (node r c)).split = true ∧ (f (node r c)).full = (fill fr v).isFull ∧
      Rep a f j (child (node r c) !fr.1) fr.2 ∧ RepCtx r c (j + 1) (fill fr v)

end Trees

variable {a : Option Nat} {f g : Nat → BlockNode} {r : Nat}

theorem isBlockNodeFree_iff {b : BlockNode} : isBlockNodeFree b = true ↔ b.full = false ∧ b.split = false := by
  obtain ⟨s, fl, _, _⟩ := b
  cases s <;> cases fl <;> simp [isBlockNodeFree]

theorem Clean.left {k n : Nat} (h : Clean f (k + 1) n) : Clean f k (2 * n + 1) := fun m hm => h m (Or.inr (Or.inl hm))

theorem Clean.right {k n : Nat} (h : Clean f (k + 1) n) : Clean f k (2 * n + 2) := fun m hm => h m (Or.inr (Or.inr hm))

theorem Clean.root {k n : Nat} (h : Clean f k n) : (f n).full = false ∧ (f n).split = false :=
  isBlockNodeFree_iff.1 (h n (Below.self k n))

theorem Clean.dim {k n : Nat} (h : ∀ i, Below k n i → i ≠ n → isBlockNodeFree (f i) = true) : Dim a f k n :=
  fun i hi hne => ⟨(isBlockNodeFree_iff.1 (h i hi hne)).2, fun hf => by
    rw [(isBlockNodeFree_iff.1 (h i hi hne)).1] at hf; cases hf⟩

theorem Dim.congr {k n : Nat} (h : Dim a f k n) (e : ∀ i, Below k n i → f i = g i) : Dim a g k n :=
  fun i hi hne => by rw [← e i hi]; exact h i hi hne

theorem Rep.free_iff {k n : Nat} : Rep a f k n .free ↔ Clean f k n := by cases k <;> exact Iff.rfl

theorem Rep.used_iff {k n : Nat} : Rep a f k n .used ↔ (f n).full = true ∧ (f n).split = false ∧ Dim a f k n := by
  cases k <;> exact Iff.rfl

theorem Rep.used_bits {k n : Nat} (h : Rep a f k n .used) : (f n).full = true ∧ (f n).split = false :=
  ⟨(Rep.used_iff.1 h).1, (Rep.used_iff.1 h).2.1⟩

theorem Rep.congr : ∀ {k n : Nat} {u : Buddy}, Rep a f k n u → (∀ m, Below k n m → f m = g m) → Rep a g k n u
  | k, n, .free, h, e => by
    rw [Rep.free_iff] at h ⊢
    intro m hm
    rw [← e m hm]; exact h m hm
  | k, n, .used, h, e => by
    rw [Rep.used_iff] at h ⊢
    rw [← e n (Below.self k n)]
    exact ⟨h.1, h.2.1, h.2.2.congr e⟩
  | k + 1, n, .split l r, h, e => by
    simp only [Rep, ← e n (Or.inl rfl)]
    exact ⟨h.1, h.2.1, h.2.2.1.congr (fun m hm => e m (Or.inr (Or.inl hm))),
      h.2.2.2.congr (fun m hm => e m (Or.inr (Or.inr hm)))⟩

/-- `Rep` looks at the `split` and `full` bits only, and at the `allocated` bits of full nodes. -/
theorem Rep.congr_bits : ∀ {k n : Nat} {u : Buddy}, Rep a f k n u →
    (∀ i, Below k n i → (g i).split = (f i).split ∧ (g i).full = (f i).full ∧
      ((f i).full = true → (f i).allocated = true → (g i).allocated = true)) → Rep a g k n u
  | k, n, .free, h, e => by
    rw [Rep.free_iff] at h ⊢
    intro m hm
    obtain ⟨h₁, h₂, _⟩ := e m hm
    rw [isBlockNodeFree_iff, h₁, h₂]
    exact isBlockNodeFree_iff.1 (h m hm)
  | k, n, .used, h, e => by
    rw [Rep.used_iff] at h ⊢
    obtain ⟨h₁, h₂, _⟩ := e n (Below.self k n)
    refine ⟨h₂ ▸ h.1, h₁ ▸ h.2.1, fun i hi hne => ?_⟩
    obtain ⟨h₁, h₂, h₃⟩ := e i hi
    obtain ⟨d₁, d₂⟩ := h.2.2 i hi hne
    exact ⟨h₁ ▸ d₁, fun hf => ⟨h₃ (h₂ ▸ hf) (d₂ (h₂ ▸ hf)).1, (d₂ (h₂ ▸ hf)).2⟩⟩
  | k + 1, n, .split l r, h, e => by
    obtain ⟨h₁, h₂, _⟩ := e n (Or.inl rfl)
    exact ⟨h₁ ▸ h.1, h₂ ▸ h.2.1, h.2.2.1.congr_bits (fun m hm => e m (Or.inr (Or.inl hm))),
      h.2.2.2.congr_bits (fun m hm => e m (Or.inr (Or.inr hm)))⟩

theorem Rep.bits_unique : ∀ {k n : Nat} {u : Buddy}, Rep none f k n u → Rep none g k n u → ∀ i, Below k n i →
    (f i).split = (g i).split ∧ (f i).full = (g i).full
  | k, n, .free, h, h', i, hi => by
    rw [Rep.free_iff] at h h'
    obtain ⟨h₁, h₂⟩ := isBlockNodeFree_iff.1 (h i hi)
    obtain ⟨h₃, h₄⟩ := isBlockNodeFree_iff.1 (h' i hi)
    rw [h₁, h₂, h₃, h₄]
    exact ⟨rfl, rfl⟩
  | k, n, .used, h, h', i, hi => by
    rw [Rep.used_iff] at h h'
    by_cases hin : i = n
    · rw [hin, h.1, h.2.1, h'.1, h'.2.1]
      exact ⟨rfl, rfl⟩
    · have hf : ∀ {e : Nat → BlockNode}, Dim none e k n → (e i).split = false ∧ (e i).full = false := fun hd =>
        ⟨(hd i hi hin).1, Bool.eq_false_iff.2 fun hfull => by
          obtain ⟨_, _, _, h, _⟩ := (hd i hi hin).2 hfull
          cases h⟩
      rw [(hf h.2.2).1, (hf h.2.2).2, (hf h'.2.2).1, (hf h'.2.2).2]
      exact ⟨rfl, rfl⟩
  | k + 1, n, .split l r, h, h', i, hi => by
    rcases hi with rfl | hi | hi
    · rw [h.1, h.2.1, h'.1, h'.2.1]
      exact ⟨rfl, rfl⟩
    · exact h.2.2.1.bits_unique h'.2.2.1 i hi
    · exact h.2.2.2.bits_unique h'.2.2.2 i hi

theorem Rep.full : ∀ {k n : Nat} {u : Buddy}, Rep a f k n u → (f n).full = u.isFull
  | _, _, .free, h => (Rep.free_iff.1 h).root.1
  | _, _, .used, h => h.used_bits.1
  | _ + 1, _, .split _ _, h => h.2.1

theorem Rep.split_bit : ∀ {k n : Nat} {u : Buddy}, Rep a f k n u → ((f n).split = true ↔ ∃ l r, u = .split l r)
  | _, _, .free, h => by simp [(Rep.free_iff.1 h).root.2]
  | _, _, .used, h => by simp [h.used_bits.2]
  | _ + 1, _, .split _ _, h => by simp [h.1]

theorem Rep.isFree_iff {k n : Nat} {u : Buddy} (h : Rep a f k n u) : isBlockNodeFree (f n) = true ↔ u = .free := by
  rw [isBlockNodeFree_iff]
  cases u with
  | free => simp [(Rep.free_iff.1 h).root]
  | used => simp [h.used_bits]
  | split l r => simp [h.split_bit.2 ⟨l, r, rfl⟩]

theorem Rep.fits : ∀ {k n : Nat} {u : Buddy}, Rep a f k n u → Buddy.Fits k u
  | k, _, .free, _ => by cases k <;> trivial
  | k, _, .used, _ => by cases k <;> trivial
  | _ + 1, _, .split _ _, h => ⟨h.2.2.1.fits, h.2.2.2.fits⟩

theorem Rep.halves {k n : Nat} {u : Buddy} (h : Rep a f (k + 1) n u) (hu : u.isFull = false) :
    Rep a f k (2 * n + 1) u.halves.1 ∧ Rep a f k (2 * n + 2) u.halves.2 := by
  cases u with
  | free => exact ⟨Rep.free_iff.2 (Rep.free_iff.1 h).left, Rep.free_iff.2 (Rep.free_iff.1 h).right⟩
  | used => cases hu
  | split l r => exact h.2.2

/-! ## Contexts -/

theorem below_node : ∀ {c : Ctx} {j m : Nat}, Below j (node r c) m → Below (j + c.length) r m
  | [], _, _, h => h
  | fr :: c, j, m, h => by
    rw [show j + (fr :: c).length = j + 1 + c.length by simp; omega]
    exact below_node h.of_child

theorem RepCtx.congr : ∀ {c : Ctx} {j : Nat} {v : Buddy}, RepCtx a f r c j v →
    (∀ m, ¬Below j (node r c) m → f m = g m) → RepCtx a g r c j v
  | [], _, _, _, _ => trivial
  | fr :: c, j, v, h, e => by
    have hp : f (node r c) = g (node r c) := e _ (fun hb => hb.ne_parent rfl)
    refine ⟨by rw [← hp]; exact h.1, by rw [← hp]; exact h.2.1, ?_, ?_⟩
    · exact h.2.2.1.congr (fun m hm => e m (fun hb => hb.sibling hm))
    · exact h.2.2.2.congr (fun m hm => e m (fun hb => hm hb.of_child))

theorem RepCtx.swap : ∀ {c : Ctx} {j : Nat} {v w : Buddy}, RepCtx a f r c j v → v.isFull = w.isFull →
    RepCtx a f r c j w
  | [], _, _, _, _, _ => trivial
  | fr :: c, j, v, w, h, e => by
    have e' : (fill fr v).isFull = (fill fr w).isFull := by rw [isFull_fill, isFull_fill, e]
    exact ⟨h.1, by rw [← e']; exact h.2.1, h.2.2.1, h.2.2.2.swap e'⟩

theorem RepCtx.fits : ∀ {c : Ctx} {j : Nat} {v : Buddy}, RepCtx a f r c j v → Ctx.Fits j c
  | [], _, _, _ => trivial
  | _ :: _, _, _, h => ⟨h.2.2.1.fits, h.2.2.2.fits⟩

theorem rep_fill {k n : Nat} {fr : Bool × Buddy} {v : Buddy} : Rep a f (k + 1) n (fill fr v) ↔
    (f n).split = true ∧ (f n).full = (fill fr v).isFull ∧ Rep a f k (child n !fr.1) fr.2 ∧
      Rep a f k (child n fr.1) v := by
  obtain ⟨b, s⟩ := fr
  cases b
  · simp only [fill, Bool.false_eq_true, ↓reduceIte, Rep, isFull, Bool.not_false, child_true, child_false]
    tauto
  · simp only [fill, ↓reduceIte, Rep, isFull, Bool.not_true, child_true, child_false]

theorem RepCtx.plug : ∀ {c : Ctx} {j : Nat} {v : Buddy}, RepCtx a f r c j v → Rep a f j (node r c) v →
    Rep a f (j + c.length) r (Buddy.plug c v)
  | [], _, _, _, h => h
  | fr :: c, j, v, hc, h => by
    rw [show j + (fr :: c).length = j + 1 + c.length by simp; omega]
    exact hc.2.2.2.plug (rep_fill.2 ⟨hc.1, hc.2.1, hc.2.2.1, h⟩)

theorem Rep.descend : ∀ {c : Ctx} {j : Nat} {v : Buddy}, Rep a f (j + c.length) r (Buddy.plug c v) →
    RepCtx a f r c j v ∧ Rep a f j (node r c) v
  | [], _, _, h => ⟨trivial, h⟩
  | fr :: c, j, v, h => by
    rw [show j + (fr :: c).length = j + 1 + c.length by simp; omega] at h
    obtain ⟨hc, h'⟩ := Rep.descend (c := c) h
    obtain ⟨h₁, h₂, h₃, h₄⟩ := rep_fill.1 h'
    exact ⟨⟨h₁, h₂, h₃, hc⟩, h₄⟩

theorem node_append (c d : Ctx) : node r (c ++ d) = node (node r d) c := by
  induction c with
  | nil => rfl
  | cons fr c ih => simp only [List.cons_append, node, ih]

theorem ancestors_append (c d : Ctx) : ancestors r (c ++ d) = ancestors (node r d) c ++ ancestors r d := by
  induction c with
  | nil => rfl
  | cons fr c ih => simp only [List.cons_append, ancestors, ih, node_append]

theorem RepCtx.append : ∀ {c d : Ctx} {j : Nat} {v : Buddy}, RepCtx a f (node r d) c j v →
    RepCtx a f r d (j + c.length) (Buddy.plug c v) → RepCtx a f r (c ++ d) j v
  | [], _, _, _, _, hd => hd
  | fr :: c, d, j, v, hc, hd => by
    simp only [List.cons_append, RepCtx, node_append]
    refine ⟨hc.1, hc.2.1, hc.2.2.1, hc.2.2.2.append ?_⟩
    rw [show j + 1 + c.length = j + (fr :: c).length by simp; omega]
    exact hd

theorem RepCtx.of_append : ∀ {c d : Ctx} {j : Nat} {v : Buddy}, RepCtx a f r (c ++ d) j v →
    RepCtx a f (node r d) c j v ∧ RepCtx a f r d (j + c.length) (Buddy.plug c v)
  | [], _, _, _, h => ⟨trivial, h⟩
  | fr :: c, d, j, v, h => by
    simp only [List.cons_append, RepCtx, node_append] at h
    obtain ⟨h₁, h₂⟩ := h.2.2.2.of_append
    refine ⟨⟨h.1, h.2.1, h.2.2.1, h₁⟩, ?_⟩
    rw [show j + (fr :: c).length = j + 1 + c.length by simp; omega]
    exact h₂

/-! ## Addresses and nodes -/

/-- The number of the hole in its row. -/
def pos : Ctx → Nat
  | [] => 0
  | fr :: c => 2 * pos c + fr.1.toNat

theorem node_eq : ∀ c : Ctx, node 0 c + 1 = 2 ^ c.length + pos c
  | [] => rfl
  | fr :: c => by
    have := node_eq c
    simp only [node, child, pos, List.length_cons, pow_succ]
    omega

theorem off_eq : ∀ (j : Nat) (c : Ctx), Ctx.off j c = pos c * 2 ^ j
  | _, [] => by simp [Ctx.off, pos]
  | j, fr :: c => by
    obtain ⟨b, s⟩ := fr
    simp only [Ctx.off, off_eq (j + 1) c, pos, pow_succ]
    cases b <;> simp <;> ring

/-- The fields of a heap that no operation changes: `2 ^ (m + K)` bytes in blocks of at least `2 ^ m`, linear-mapped, or
with allocation blocks of level `A`. -/
structure Shape (h : KmallocHeap) (m K : Nat) (a : Option Nat) : Prop where
  size : h.size = 2 ^ (m + K)
  minBlockSize : h.minBlockSize = 2 ^ m
  log2 : h.heapDataSizeLog2 = m + K
  metadataSize : h.metadataSize = 2 ^ (K + 1)
  small : m + K < 31
  linear : a = none → h.linearMapping = true ∧ h.allocBlockSize = 0
  paged : ∀ A, a = some A → h.linearMapping = false ∧ h.allocBlockSize = 2 ^ (m + A) ∧
    h.allocBlockSizeLog2 = m + A ∧ A ≤ K ∧ 2 ^ (m + A) ∣ h.vaddr

section Addresses

variable [Machine] {h : KmallocHeap} {m K : Nat}

theorem ptrToNode_off (sh : Shape h m K a) {j : Nat} {c : Ctx} (hj : j + c.length = K) :
    ptrToNode h (h.vaddr + 2 ^ m * Ctx.off j c) (2 ^ (m + j)) = node 0 c := by
  have h₁ := node_eq c
  have hpos : 0 < 2 ^ c.length := by positivity
  simp only [ptrToNode, log2ForPowerOf2_two_pow (show m + j < 32 by have := sh.small; omega), sh.log2]
  rw [show m + K - (m + j) = c.length by omega, Nat.add_sub_cancel_left, off_eq, Nat.shiftRight_eq_div_pow,
    show 2 ^ m * (pos c * 2 ^ j) = pos c * 2 ^ (m + j) by rw [pow_add]; ring,
    Nat.mul_div_cancel _ (by positivity)]
  omega

theorem nodeToPtr_node (sh : Shape h m K a) {j : Nat} {c : Ctx} (hj : j + c.length = K) :
    nodeToPtr h (node 0 c) (2 ^ (m + j)) = h.vaddr + 2 ^ m * Ctx.off j c := by
  have h₁ := node_eq c
  have hpos : 0 < 2 ^ c.length := by positivity
  simp only [nodeToPtr, log2ForPowerOf2_two_pow (show m + j < 32 by have := sh.small; omega), sh.log2]
  rw [show m + K - (m + j) = c.length by omega, Nat.shiftLeft_eq, off_eq,
    show node 0 c - (2 ^ c.length - 1) = pos c by omega, pow_add]
  ring

end Addresses

/-! ## Reads and writes of the metadata -/

namespace KmallocHeap

def withNodes (h : KmallocHeap) (f : Nat → BlockNode) : KmallocHeap := { h with metadataNodes := f }

@[simp] theorem withNodes_nodes (h : KmallocHeap) (f : Nat → BlockNode) : (h.withNodes f).metadataNodes = f := rfl

@[simp] theorem withNodes_withNodes (h : KmallocHeap) (f g : Nat → BlockNode) :
    (h.withNodes f).withNodes g = h.withNodes g := rfl

@[simp] theorem withNodes_metadataSize (h : KmallocHeap) (f : Nat → BlockNode) :
    (h.withNodes f).metadataSize = h.metadataSize := rfl

@[simp] theorem withNodes_log2 (h : KmallocHeap) (f : Nat → BlockNode) :
    (h.withNodes f).heapDataSizeLog2 = h.heapDataSizeLog2 := rfl

@[simp] theorem withNodes_linearMapping (h : KmallocHeap) (f : Nat → BlockNode) :
    (h.withNodes f).linearMapping = h.linearMapping := rfl

@[simp] theorem withNodes_allocBlockSize (h : KmallocHeap) (f : Nat → BlockNode) :
    (h.withNodes f).allocBlockSize = h.allocBlockSize := rfl

@[simp] theorem withNodes_allocBlockSizeLog2 (h : KmallocHeap) (f : Nat → BlockNode) :
    (h.withNodes f).allocBlockSizeLog2 = h.allocBlockSizeLog2 := rfl

@[simp] theorem withNodes_self (h : KmallocHeap) : h.withNodes h.metadataNodes = h := rfl

theorem node?_eq {h : KmallocHeap} {n : Nat} (hn : n < h.metadataSize) : h.node? n = some (h.metadataNodes n) :=
  if_pos hn

theorem setNode_eq {h : KmallocHeap} {n : Nat} (hn : n < h.metadataSize) (b : BlockNode) :
    h.setNode n b = some (h.withNodes (Function.update h.metadataNodes n b)) := if_pos hn

theorem modifyNode_eq {h : KmallocHeap} {n : Nat} (hn : n < h.metadataSize) (p : BlockNode → BlockNode) :
    h.modifyNode n p = some (h.withNodes (Function.update h.metadataNodes n (p (h.metadataNodes n)))) := by
  simp only [modifyNode, node?_eq hn, Option.bind_eq_bind, Option.bind_some, setNode_eq hn]

theorem modifyNode_withNodes {h : KmallocHeap} {n : Nat} (hn : n < h.metadataSize) (f : Nat → BlockNode)
    (p : BlockNode → BlockNode) :
    (h.withNodes f).modifyNode n p = some (h.withNodes (Function.update f n (p (f n)))) :=
  modifyNode_eq (h := h.withNodes f) hn p

end KmallocHeap

/-- The fields that no operation changes are the same. -/
structure Same (h h' : KmallocHeap) : Prop where
  vaddr : h'.vaddr = h.vaddr
  size : h'.size = h.size
  minBlockSize : h'.minBlockSize = h.minBlockSize
  allocBlockSize : h'.allocBlockSize = h.allocBlockSize
  vallocAndMap : h'.vallocAndMap = h.vallocAndMap
  heapDataSizeLog2 : h'.heapDataSizeLog2 = h.heapDataSizeLog2
  allocBlockSizeLog2 : h'.allocBlockSizeLog2 = h.allocBlockSizeLog2
  metadataSize : h'.metadataSize = h.metadataSize
  heapLastByte : h'.heapLastByte = h.heapLastByte
  linearMapping : h'.linearMapping = h.linearMapping

theorem Same.refl (h : KmallocHeap) : Same h h := ⟨rfl, rfl, rfl, rfl, rfl, rfl, rfl, rfl, rfl, rfl⟩

theorem Same.trans {h₁ h₂ h₃ : KmallocHeap} (e : Same h₁ h₂) (e' : Same h₂ h₃) : Same h₁ h₃ :=
  ⟨e'.1.trans e.1, e'.2.trans e.2, e'.3.trans e.3, e'.4.trans e.4, e'.5.trans e.5, e'.6.trans e.6, e'.7.trans e.7,
    e'.8.trans e.8, e'.9.trans e.9, e'.10.trans e.10⟩

theorem Shape.of_same {h h' : KmallocHeap} {m K : Nat} (sh : Shape h m K a) (e : Same h h') : Shape h' m K a where
  size := e.size.trans sh.size
  minBlockSize := e.minBlockSize.trans sh.minBlockSize
  log2 := e.heapDataSizeLog2.trans sh.log2
  metadataSize := e.metadataSize.trans sh.metadataSize
  small := sh.small
  linear ha := by rw [e.linearMapping, e.allocBlockSize]; exact sh.linear ha
  paged A ha := by
    rw [e.linearMapping, e.allocBlockSize, e.allocBlockSizeLog2, e.vaddr]; exact sh.paged A ha

theorem Shape.withNodes {h : KmallocHeap} {m K : Nat} (sh : Shape h m K a) (f : Nat → BlockNode) :
    Shape (h.withNodes f) m K a :=
  ⟨sh.size, sh.minBlockSize, sh.log2, sh.metadataSize, sh.small, sh.linear, sh.paged⟩

theorem Shape.lt_of_below {h : KmallocHeap} {m K n : Nat} (sh : Shape h m K a) (hn : Below K 0 n) :
    n < h.metadataSize := by
  have := hn.lt
  rw [sh.metadataSize, pow_succ]
  omega

/-- What a loop over the metadata may do: change nodes below `n` only, and set no `allocated` or `alloc_failed` bit. -/
structure Writes (k n : Nat) (f g : Nat → BlockNode) : Prop where
  outside : ∀ i, ¬Below k n i → g i = f i
  allocated : ∀ i, (g i).allocated = true → (f i).allocated = true
  allocFailed : ∀ i, (g i).allocFailed = true → (f i).allocFailed = true

theorem Writes.refl (k n : Nat) (f : Nat → BlockNode) : Writes k n f f := ⟨fun _ _ => rfl, fun _ => id, fun _ => id⟩

theorem Writes.trans {k n : Nat} {f g e : Nat → BlockNode} (h : Writes k n f g) (h' : Writes k n g e) :
    Writes k n f e :=
  ⟨fun i hi => (h'.outside i hi).trans (h.outside i hi), fun i hi => h.allocated i (h'.allocated i hi),
    fun i hi => h.allocFailed i (h'.allocFailed i hi)⟩

theorem Writes.mono {k n k' n' : Nat} {f g : Nat → BlockNode} (h : Writes k n f g)
    (hb : ∀ i, Below k n i → Below k' n' i) : Writes k' n' f g :=
  ⟨fun i hi => h.outside i (fun hi' => hi (hb i hi')), h.allocated, h.allocFailed⟩

theorem Writes.update {k n i : Nat} {f : Nat → BlockNode} {b : BlockNode} (hi : Below k n i)
    (ha : b.allocated = true → (f i).allocated = true) (hf : b.allocFailed = true → (f i).allocFailed = true) :
    Writes k n f (Function.update f i b) := by
  refine ⟨fun m hm => Function.update_of_ne (fun (e : m = i) => hm (e ▸ hi)) _ _, fun m hm => ?_, fun m hm => ?_⟩
  · by_cases e : m = i
    · subst e; rw [Function.update_self] at hm; exact ha hm
    · rwa [Function.update_of_ne e] at hm
  · by_cases e : m = i
    · subst e; rw [Function.update_self] at hm; exact hf hm
    · rwa [Function.update_of_ne e] at hm

end Usax.Kmalloc
