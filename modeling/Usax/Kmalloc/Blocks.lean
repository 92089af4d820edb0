import Usax.Kmalloc.Alloc
import Usax.Lib.BinaryRun

/-!
# A heap as a set of blocks in use

`Owns h m K a ps`: the heap `h` is well-formed and its blocks in use are `ps`, as levels and offsets in units of the
minimum block size. On this level

- `internal_kfree` takes the blocks inside of the freed one away (`internalKfree_owns`);
- `per_heap_kmalloc_unsafe` adds the blocks of a run, one for each binary digit of the returned size, each of them cut
  into sub-blocks when that is asked for (`perHeapKmalloc_owns`);
- `per_heap_kfree_unsafe` takes the blocks of a run away (`perHeapKfree_owns`).
-/

namespace Usax.Kmalloc

open Usax.Lib Usax.Lib.Buddy Common

variable {a : Option Nat} {m K j : Nat}

/-- The heap is well-formed, and its blocks in use are `ps`. A linear-mapped heap is coalesced; a heap that is not may
have been expanded, and the blocks around what was free then stay split. -/
structure Owns (h : KmallocHeap) (m K : Nat) (a : Option Nat) (ps : List (Nat × Nat)) : Prop where
  shape : Shape h m K a
  tree : ∃ u, Rep a h.metadataNodes K 0 u ∧ (h.linearMapping = true → Buddy.Canon u) ∧ (pieces K 0 u).Perm ps

theorem Owns.perm {h : KmallocHeap} {ps qs : List (Nat × Nat)} (ho : Owns h m K a ps) (hp : ps.Perm qs) :
    Owns h m K a qs :=
  ⟨ho.shape, let ⟨u, h₁, h₂, h₃⟩ := ho.tree; ⟨u, h₁, h₂, h₃.trans hp⟩⟩

theorem Owns.disjoint {h : KmallocHeap} {ps : List (Nat × Nat)} (ho : Owns h m K a ps) : ps.Pairwise Disj := by
  obtain ⟨u, _, _, h₃⟩ := ho.tree
  exact (h₃.pairwise_iff (fun h => h.symm)).1 (pieces_disjoint K 0 u)

/-- What every operation leaves alone. On a linear-mapped heap no `allocated` or `alloc_failed` bit is set. -/
structure Frame (K : Nat) (h h' : KmallocHeap) : Prop extends Same h h' where
  outside : ∀ i, ¬Below K 0 i → h'.metadataNodes i = h.metadataNodes i
  quiet : h.linearMapping = true → ∀ i, ((h'.metadataNodes i).allocated = true → (h.metadataNodes i).allocated = true) ∧
    ((h'.metadataNodes i).allocFailed = true → (h.metadataNodes i).allocFailed = true)

theorem Frame.refl (K : Nat) (h : KmallocHeap) : Frame K h h := ⟨Same.refl h, fun _ _ => rfl, fun _ _ => ⟨id, id⟩⟩

theorem Writes.frame {h : KmallocHeap} {f : Nat → BlockNode} (hw : Writes K 0 h.metadataNodes f) :
    Frame K h (h.withNodes f) where
  toSame := ⟨rfl, rfl, rfl, rfl, rfl, rfl, rfl, rfl, rfl, rfl⟩
  outside := hw.outside
  quiet _ i := ⟨hw.allocated i, hw.allocFailed i⟩

theorem Frame.trans {h₁ h₂ h₃ : KmallocHeap} (e : Frame K h₁ h₂) (e' : Frame K h₂ h₃) : Frame K h₁ h₃ where
  toSame := e.toSame.trans e'.toSame
  outside i hi := (e'.outside i hi).trans (e.outside i hi)
  quiet hl i := by
    obtain ⟨h₁, h₂⟩ := e.quiet hl i
    obtain ⟨h₃, h₄⟩ := e'.quiet (e.linearMapping.trans hl) i
    exact ⟨fun h => h₁ (h₃ h), fun h => h₂ (h₄ h)⟩

section Counter

variable [Machine]

/-- The counter goes up by `n`, as a machine word. -/
structure Grows (h h' : KmallocHeap) (n : Nat) : Prop where
  mod : h'.memAllocated % 2 ^ Machine.nbits = (h.memAllocated + n) % 2 ^ Machine.nbits
  lt : h.memAllocated < 2 ^ Machine.nbits → h'.memAllocated < 2 ^ Machine.nbits

theorem Grows.refl (h : KmallocHeap) : Grows h h 0 := ⟨rfl, id⟩

theorem Grows.trans {h₁ h₂ h₃ : KmallocHeap} {n k : Nat} (e : Grows h₁ h₂ n) (e' : Grows h₂ h₃ k) :
    Grows h₁ h₃ (n + k) :=
  ⟨by rw [e'.mod, ← Nat.mod_add_mod, e.mod, Nat.mod_add_mod, Nat.add_assoc], fun h => e'.lt (e.lt h)⟩

theorem Grows.of_eq {h h' : KmallocHeap} {doActualAlloc : Bool} {n : Nat}
    (e : h'.memAllocated = if doActualAlloc then addWord h.memAllocated n else h.memAllocated) :
    Grows h h' (if doActualAlloc then n else 0) := by
  cases doActualAlloc with
  | true => exact ⟨by rw [e]; exact addWord_mod _ _, fun _ => by rw [e]; exact addWord_lt _ _⟩
  | false => exact ⟨by rw [e]; rfl, fun h => by rw [e]; exact h⟩

end Counter

/-! ## Freeing a block -/

/-- The node of the block of level `l` at offset `y`. -/
def blockNode (K l y : Nat) : Nat := 2 ^ (K - l) - 1 + y / 2 ^ l

theorem node_eq_blockNode {c : Ctx} (hK : j + c.length = K) : node 0 c = blockNode K j (Ctx.off j c) := by
  have h := node_eq c
  have hpos : 0 < 2 ^ c.length := by positivity
  rw [blockNode, off_eq, Nat.mul_div_cancel _ (by positivity), show K - j = c.length by omega]
  omega

/-- A block of the heap: its level and its offset. -/
structure IsBlock (K : Nat) (b : Nat × Nat) : Prop where
  level : b.1 ≤ K
  aligned : 2 ^ b.1 ∣ b.2
  inside : b.2 + 2 ^ b.1 ≤ 2 ^ K

theorem isBlock_ctx {c : Ctx} (hK : j + c.length = K) : IsBlock K (j, Ctx.off j c) :=
  ⟨by simp only; omega, off_dvd j c, hK ▸ off_add_le j c⟩

theorem IsBlock.halves {l y : Nat} (h : IsBlock K (l + 1, y)) : IsBlock K (l, y) ∧ IsBlock K (l, y + 2 ^ l) ∧
    blockNode K l y = 2 * blockNode K (l + 1) y + 1 ∧ blockNode K l (y + 2 ^ l) = 2 * blockNode K (l + 1) y + 2 := by
  obtain ⟨h₁, h₂, h₃⟩ := h
  simp only at h₁ h₂ h₃
  obtain ⟨t, rfl⟩ := h₂
  have e : 2 ^ (l + 1) = 2 ^ l * 2 := pow_succ 2 l
  have hpos : 0 < 2 ^ l := by positivity
  have hd : 2 ^ l ∣ 2 ^ (l + 1) * t := Dvd.dvd.mul_right (Nat.pow_dvd_pow 2 (Nat.le_succ l)) t
  have e₁ : 2 ^ (l + 1) * t / 2 ^ l = 2 * t := by
    rw [e, Nat.mul_assoc, Nat.mul_div_cancel_left _ hpos]
  have e₂ : (2 ^ (l + 1) * t + 2 ^ l) / 2 ^ l = 2 * t + 1 := by
    rw [Nat.add_div_right _ hpos, e₁]
  have e₃ : 2 ^ (l + 1) * t / 2 ^ (l + 1) = t := Nat.mul_div_cancel_left _ (by positivity)
  have e₄ : 2 ^ (K - l) = 2 * 2 ^ (K - (l + 1)) := by
    rw [show K - l = K - (l + 1) + 1 by omega, pow_succ, Nat.mul_comm]
  have hp : 0 < 2 ^ (K - (l + 1)) := by positivity
  refine ⟨⟨by simp only; omega, hd, by simp only; omega⟩, ⟨by simp only; omega, Nat.dvd_add hd (dvd_refl _), by simp only; omega⟩,
    ?_, ?_⟩ <;> simp only [blockNode, e₁, e₂, e₃] <;> omega

theorem below_blockNode : ∀ {l y i : Nat}, IsBlock K (l, y) → Below l (blockNode K l y) i →
    ∃ b, i = blockNode K b.1 b.2 ∧ IsBlock K b ∧ Within (l, y) b
  | 0, y, i, hb, h => ⟨(0, y), h, hb, le_refl _, le_refl _⟩
  | l + 1, y, i, hb, h => by
    obtain ⟨hl, hr, e₁, e₂⟩ := hb.halves
    have e : 2 ^ (l + 1) = 2 ^ l + 2 ^ l := by ring
    have hpos : 0 < 2 ^ l := by positivity
    rcases h with rfl | h | h
    · exact ⟨(l + 1, y), rfl, hb, le_refl _, le_refl _⟩
    · obtain ⟨b, h₁, h₂, h₃⟩ := below_blockNode hl (e₁ ▸ h)
      exact ⟨b, h₁, h₂, h₃.1, h₃.2.trans (by simp only; omega)⟩
    · obtain ⟨b, h₁, h₂, h₃⟩ := below_blockNode hr (e₂ ▸ h)
      exact ⟨b, h₁, h₂, le_trans (by simp only; omega) h₃.1, h₃.2.trans (by simp only; omega)⟩

theorem blockNode_inj {b b' : Nat × Nat} (hb : IsBlock K b) (hb' : IsBlock K b')
    (h : blockNode K b.1 b.2 = blockNode K b'.1 b'.2) : b = b' := by
  obtain ⟨l, y⟩ := b
  obtain ⟨l', y'⟩ := b'
  obtain ⟨h₁, h₂, h₃⟩ := hb
  obtain ⟨h₁', h₂', h₃'⟩ := hb'
  simp only [blockNode] at h h₁ h₂ h₃ h₁' h₂' h₃'
  obtain ⟨t, rfl⟩ := h₂
  obtain ⟨t', rfl⟩ := h₂'
  have key : ∀ {l t : Nat}, l ≤ K → 2 ^ l * t + 2 ^ l ≤ 2 ^ K → t < 2 ^ (K - l) := by
    intro l t hl hle
    rw [show 2 ^ K = 2 ^ l * 2 ^ (K - l) by rw [← pow_add]; congr 1; omega, ← Nat.mul_succ] at hle
    exact Nat.le_of_mul_le_mul_left hle (by positivity)
  have ht := key h₁ h₃
  have ht' := key h₁' h₃'
  rw [Nat.mul_div_cancel_left _ (by positivity), Nat.mul_div_cancel_left _ (by positivity)] at h
  have hpos : 0 < 2 ^ (K - l) := by positivity
  have hpos' : 0 < 2 ^ (K - l') := by positivity
  have hlev : K - l = K - l' := by
    have e : ∀ {s s' : Nat}, s < s' → 2 ^ s + 2 ^ s ≤ 2 ^ s' := by
      intro s s' hs
      calc 2 ^ s + 2 ^ s = 2 ^ (s + 1) := by ring
        _ ≤ 2 ^ s' := Nat.pow_le_pow_right (by omega) hs
    rcases Nat.lt_trichotomy (K - l) (K - l') with hlt | heq | hlt
    · have := e hlt; omega
    · exact heq
    · have := e hlt; omega
  have hl : l = l' := by omega
  subst hl
  rw [show t = t' by omega]

theorem mem_ancestors : ∀ {c : Ctx} {j i : Nat}, j + c.length = K → i ∈ ancestors 0 c →
    ∃ b, i = blockNode K b.1 b.2 ∧ IsBlock K b ∧ Within b (j, Ctx.off j c)
  | fr :: c, j, i, hK, h => by
    have hK' : j + 1 + c.length = K := by rw [List.length_cons] at hK; omega
    have e : 2 ^ (j + 1) = 2 ^ j + 2 ^ j := by ring
    have hpos : 0 < 2 ^ j := by positivity
    have hw : Within (j + 1, Ctx.off (j + 1) c) (j, Ctx.off j (fr :: c)) := by
      simp only [Within, Ctx.off]
      split <;> omega
    rcases List.mem_cons.mp h with rfl | h
    · exact ⟨(j + 1, Ctx.off (j + 1) c), node_eq_blockNode hK', isBlock_ctx hK', hw⟩
    · obtain ⟨b, h₁, h₂, h₃⟩ := mem_ancestors hK' h
      exact ⟨b, h₁, h₂, h₃.1.trans hw.1, hw.2.trans h₃.2⟩

theorem Near.block {c : Ctx} {f g : Nat → BlockNode} (h : Near c j f g) (hK : j + c.length = K) {b : Nat × Nat}
    (hb : IsBlock K b) (hd : Disj b (j, Ctx.off j c)) {i : Nat} (hi : Below b.1 (blockNode K b.1 b.2) i) : g i = f i := by
  obtain ⟨b₁, rfl, hb₁, hw₁⟩ := below_blockNode hb hi
  have hpos : 0 < 2 ^ b₁.1 := by positivity
  have hposj : 0 < 2 ^ j := by positivity
  simp only [Within] at hw₁
  refine h _ (fun hbel => ?_) (fun ha => ?_)
  · rw [node_eq_blockNode hK] at hbel
    obtain ⟨b₂, he, hb₂, hw₂⟩ := below_blockNode (isBlock_ctx hK) hbel
    have := blockNode_inj hb₁ hb₂ he
    subst this
    simp only [Within] at hw₂
    rcases hd with hd | hd <;> simp only at hd <;> omega
  · obtain ⟨b₂, he, hb₂, hw₂⟩ := mem_ancestors hK ha
    have := blockNode_inj hb₁ hb₂ he
    subst this
    simp only [Within] at hw₂
    rcases hd with hd | hd <;> simp only at hd <;> omega

/-- A block in use, or a block cut into blocks in use of level `l`. -/
def cut : Option Nat → Nat → Buddy
  | none, _ => .used
  | some l, j => evenly (j - l)

/-- `sub_blocks_min_size`. -/
def subSize (m : Nat) : Option Nat → Nat
  | none => 0
  | some l => 2 ^ (m + l)

theorem cut_spec (sub : Option Nat) (j : Nat) : (cut sub j).isFull = true ∧ cut sub j ≠ .free ∧
    Buddy.Canon (cut sub j) ∧ Buddy.Fits j (cut sub j) := by
  cases sub with
  | none => exact ⟨rfl, by simp [cut], trivial, by cases j <;> trivial⟩
  | some l => exact ⟨isFull_evenly _, evenly_ne_free _, canon_evenly _, fits_evenly (by omega)⟩

theorem canon_cut {k : Nat} {u : Buddy} {c : Ctx} (sub : Option Nat) (hj : j ≤ k) (hu : Buddy.Canon u)
    (hfind : find j k u = some c) : Buddy.Canon (plug c (cut sub j)) :=
  canon_plug (cut_spec sub j).2.2.1 (find_canon hj hu hfind) (cut_spec sub j).2.1

theorem VallocOk.of_same {h h' : KmallocHeap} {doActualAlloc : Bool} (hv : VallocOk h doActualAlloc) (e : Same h h') :
    VallocOk h' doActualAlloc := by
  unfold VallocOk
  rw [e.linearMapping, e.vallocAndMap]
  exact hv

/-- The pieces of a run, each block cut into sub-blocks when that is asked for. -/
def runPieces (sub : Option Nat) (o n i : Nat) : List (Nat × Nat) :=
  (runBlocks o n i).flatMap (fun b => pieces b.1 b.2 (cut sub b.1))

theorem runPieces_shift (sub : Option Nat) (o n i : Nat) :
    runPieces sub o n i = (runPieces sub 0 n i).map (fun p => (p.1, o + p.2)) := by
  rw [runPieces, runPieces, runBlocks_shift, List.flatMap_map, List.map_flatMap]
  congr 1
  funext b
  rw [pieces_shift b.1 (o + b.2), pieces_shift b.1 b.2, List.map_map]
  simp [Function.comp_def, Nat.add_assoc]

theorem runPieces_two_pow (sub : Option Nat) {o l i : Nat} (h : l < i) :
    runPieces sub o (2 ^ l) i = pieces l o (cut sub l) := by
  rw [runPieces, runBlocks_two_pow h]; simp

theorem exists_mem_runPieces (sub : Option Nat) {o n i x : Nat} (hn : n < 2 ^ i) (h₁ : o ≤ x) (h₂ : x < o + n) :
    ∃ p ∈ runPieces sub o n i, p.2 ≤ x ∧ x < p.2 + 2 ^ p.1 := by
  obtain ⟨b, hb, hl, hr⟩ := exists_mem_runBlocks (i := i) (by rw [Nat.div_eq_of_lt hn]; omega) h₂
  obtain ⟨hfull, _, _, hfits⟩ := cut_spec sub b.1
  obtain ⟨p, hp, hx⟩ := exists_piece_of_isFull hfits hfull x hl hr
  exact ⟨p, List.mem_flatMap.2 ⟨b, hb, hp⟩, hx⟩

theorem mem_runPieces {sub : Option Nat} {o n i : Nat} {p : Nat × Nat} (hp : p ∈ runPieces sub o n i) :
    ∃ b ∈ runBlocks o n i, Within b p ∧ o ≤ p.2 ∧ p.2 + 2 ^ p.1 ≤ o + n := by
  obtain ⟨b, hb, hp⟩ := List.mem_flatMap.1 hp
  obtain ⟨h₁, h₂, _⟩ := mem_runBlocks hb
  obtain ⟨h₃, h₄, _⟩ := pieces_bound hp
  exact ⟨b, hb, ⟨h₃, h₄⟩, by omega, by omega⟩

theorem total_runPieces (sub : Option Nat) (y n i : Nat) : total (runPieces sub y n i) = total (runBlocks y n i) := by
  have hcut : ∀ b : Nat × Nat, total (pieces b.1 b.2 (cut sub b.1)) = 2 ^ b.1 := fun b => by
    cases sub with
    | none => cases h : b.1 <;> simp [cut, pieces]
    | some l => exact total_evenly _ (by omega)
  rw [runPieces]
  induction runBlocks y n i with
  | nil => rfl
  | cons b bs ih => rw [List.flatMap_cons, total_append, hcut, ih, total_cons]

/-- The pieces are the units up to `t`. -/
structure UpTo (t : Nat) (ps : List (Nat × Nat)) : Prop where
  cover : ∀ x < t, ∃ p ∈ ps, p.2 ≤ x ∧ x < p.2 + 2 ^ p.1
  bound : ∀ p ∈ ps, p.2 + 2 ^ p.1 ≤ t

theorem UpTo.perm {t : Nat} {ps qs : List (Nat × Nat)} (h : UpTo t ps) (hp : ps.Perm qs) : UpTo t qs :=
  ⟨fun x hx => let ⟨p, h₁, h₂⟩ := h.cover x hx; ⟨p, hp.subset h₁, h₂⟩, fun p hp' => h.bound p (hp.symm.subset hp')⟩

theorem UpTo.append {t i : Nat} {v : Buddy} {ps : List (Nat × Nat)} (h : UpTo t ps) (hv : v.isFull = true)
    (hf : Buddy.Fits i v) : UpTo (t + 2 ^ i) (pieces i t v ++ ps) := by
  refine ⟨fun x hx => ?_, fun p hp => ?_⟩
  · by_cases hlt : x < t
    · obtain ⟨p, h₁, h₂⟩ := h.cover x hlt
      exact ⟨p, List.mem_append_right _ h₁, h₂⟩
    · obtain ⟨p, h₁, h₂⟩ := exists_piece_of_isFull hf hv x (by omega) hx
      exact ⟨p, List.mem_append_left _ h₁, h₂⟩
  · rcases List.mem_append.mp hp with hp | hp
    · exact (pieces_bound hp).2.1
    · exact (h.bound p hp).trans (Nat.le_add_right _ _)

theorem UpTo.find {t i k : Nat} {u : Buddy} (h : UpTo t (pieces k 0 u)) (hf : Buddy.Fits k u) (hc : Buddy.Canon u)
    (hik : i ≤ k) (hd : 2 ^ i ∣ t) (ht : t + 2 ^ i ≤ 2 ^ k) : ∃ c, find i k u = some c ∧ Ctx.off i c = t := by
  obtain ⟨c, hc', hle⟩ := find_complete (o := 0) (x := t) hik hf hc (by simpa using hd) (Nat.zero_le _) (by omega)
    (fun p hp => Or.inl (h.bound p hp))
  refine ⟨c, hc', le_antisymm (by omega) ?_⟩
  by_contra hlt
  obtain ⟨p, hp, h₁, h₂⟩ := h.cover (Ctx.off i c) (by omega)
  have hpos : 0 < 2 ^ i := by positivity
  rcases find_disj hik hc' hp with h | h <;> simp only at h <;> omega

/-- The block of level `j` at `y` is the first one that meets no block in use. -/
structure FirstFit (K : Nat) (ps : List (Nat × Nat)) (j y : Nat) : Prop where
  block : IsBlock K (j, y)
  first : ∀ x, IsBlock K (j, x) → (∀ p ∈ ps, Disj p (j, x)) → y ≤ x

/-- Every block of level `j` meets a block in use. -/
def NoFit (K : Nat) (ps : List (Nat × Nat)) (j : Nat) : Prop := ∀ x, IsBlock K (j, x) → ¬∀ p ∈ ps, Disj p (j, x)

/-- What `find` finds in a coalesced tree is the first fit, and it finds one if there is one. It finds a unit in any
tree. -/
theorem find_fit {u : Buddy} {ps : List (Nat × Nat)} (hf : Buddy.Fits K u) (hp : (pieces K 0 u).Perm ps) (hj : j ≤ K) :
    match find j K u with
    | none => Buddy.Canon u ∨ j = 0 → NoFit K ps j
    | some c => IsBlock K (j, Ctx.off j c) ∧ (Buddy.Canon u → FirstFit K ps j (Ctx.off j c)) := by
  have hcomplete : Buddy.Canon u → ∀ x, IsBlock K (j, x) → (∀ p ∈ ps, Disj p (j, x)) →
      ∃ c, find j K u = some c ∧ 0 + Ctx.off j c ≤ x :=
    fun hc x hx hd => find_complete hj hf hc (by simpa using hx.aligned) (Nat.zero_le _) (by simpa using hx.inside)
      (fun p hp' => hd p (hp.subset hp'))
  cases hfind : find j K u with
  | none =>
    rintro (hc | rfl) x hx hd
    · obtain ⟨c, hc', _⟩ := hcomplete hc x hx hd
      rw [hfind] at hc'
      cases hc'
    · have hin := hx.inside
      simp only [pow_zero] at hin
      obtain ⟨p, hp', h₁, h₂⟩ := exists_piece_of_isFull hf (isFull_of_find_zero hf hfind) x (Nat.zero_le _) (by omega)
      rcases hd p (hp.subset hp') with h | h <;> simp only [pow_zero] at h <;> omega
  | some c =>
    have hblock : IsBlock K (j, Ctx.off j c) := isBlock_ctx (find_length hj hfind)
    refine ⟨hblock, fun hc => ⟨hblock, fun x hx hd => ?_⟩⟩
    obtain ⟨c', hc', hle⟩ := hcomplete hc x hx hd
    rw [hfind] at hc'
    cases hc'
    omega

theorem Owns.node_bits {h : KmallocHeap} {ps : List (Nat × Nat)} {l y : Nat} (ho : Owns h m K a ps) (hp : (l, y) ∈ ps) :
    (h.metadataNodes (blockNode K l y)).full = true ∧ (h.metadataNodes (blockNode K l y)).split = false := by
  obtain ⟨u, hrep, _, hperm⟩ := ho.tree
  obtain ⟨c, rfl, rfl, hoff⟩ := exists_ctx_of_mem [] (hperm.symm.subset hp)
  rw [List.append_nil] at hoff
  rw [← hoff, ← node_eq_blockNode rfl]
  exact hrep.descend.2.used_bits

theorem Owns.bits_unique {h h' : KmallocHeap} {ps : List (Nat × Nat)} (ho : Owns h m K none ps) (ho' : Owns h' m K none ps)
    (i : Nat) (hi : Below K 0 i) : (h.metadataNodes i).split = (h'.metadataNodes i).split ∧
      (h.metadataNodes i).full = (h'.metadataNodes i).full := by
  obtain ⟨u, hrep, hcan, hperm⟩ := ho.tree
  obtain ⟨u', hrep', hcan', hperm'⟩ := ho'.tree
  have hu : u = u' := Canon.ext hrep.fits hrep'.fits (hcan (ho.shape.linear rfl).1) (hcan' (ho'.shape.linear rfl).1) (fun _ => (hperm.trans hperm'.symm).mem_iff)
  subst hu
  exact hrep.bits_unique hrep' i hi

variable [Machine]

/-- **Freeing a block** takes the blocks in use inside of it away. -/
theorem internalKfree_owns {h : KmallocHeap} {l y : Nat} {xs rest : List (Nat × Nat)} {allowSplit doActualFree : Bool}
    (ho : Owns h m K a (xs ++ rest)) (hl : l ≤ K) (hy : 2 ^ l ∣ y) (hne : xs ≠ []) (hx : ∀ p ∈ xs, Within (l, y) p)
    (hr : ∀ p ∈ rest, ¬Within (l, y) p) (hs : xs = [(l, y)] ∨ allowSplit = true)
    (hact : doActualFree = false → a ≠ none → (h.metadataNodes (blockNode K l y)).split = false →
      ∀ i, Below l (blockNode K l y) i → i ≠ blockNode K l y → (h.metadataNodes i).full = false) :
    ∃ h', internalKfree h (h.vaddr + 2 ^ m * y) (2 ^ (m + l)) allowSplit doActualFree = some h' ∧ Owns h' m K a rest ∧
      Frame K h h' ∧ h'.memAllocated = subWord h.memAllocated (2 ^ (m + l) -
        if (h.metadataNodes (blockNode K l y)).split then freeLeaves h.metadataNodes l (blockNode K l y) * 2 ^ m else 0) ∧
      ∀ b, IsBlock K b → Disj b (l, y) → ∀ i, Below b.1 (blockNode K b.1 b.2) i →
        h'.metadataNodes i = h.metadataNodes i := by
  have sh := ho.shape
  obtain ⟨u, hrep, hcan, hperm⟩ := ho.tree
  obtain ⟨p, hp⟩ := List.exists_mem_of_ne_nil xs hne
  have hpl : p.1 ≤ l := by
    have := hx p hp
    simp only [Within] at this
    exact (Nat.pow_le_pow_iff_right (by omega : 1 < 2)).1 (by omega)
  obtain ⟨c, v, rfl, hK, rfl⟩ :=
    exists_ctx_of_within (hperm.symm.subset (List.mem_append_left _ hp)) hpl hl hy (hx p hp)
  rw [← hK] at hperm hrep
  obtain ⟨hctx, hv⟩ := hrep.descend
  obtain ⟨hxs, hrest⟩ := perm_of_within hperm hx hr
  have hfits := hctx.fits
  have hvs : v = .used ∨ allowSplit = true ∧ v ≠ .free := by
    rcases hs with rfl | hs
    · exact Or.inl (eq_used_of_mem (hxs.symm.subset List.mem_cons_self))
    · refine Or.inr ⟨hs, fun hf => hne ?_⟩
      subst hf
      have : pieces l (Ctx.off l c) Buddy.free = [] := by cases l <;> rfl
      rw [this] at hxs
      exact hxs.nil_eq.symm
  have hsplit : (h.metadataNodes (node 0 c)).split = true ↔ v ≠ .used := by
    rw [hv.split_bit]
    constructor
    · rintro ⟨_, _, rfl⟩; simp
    · intro hu
      cases v with
      | free => rcases hvs with h | h <;> simp at h
      | used => exact absurd rfl hu
      | split l r => exact ⟨l, r, rfl⟩
  rw [← node_eq_blockNode hK] at hact ⊢
  obtain ⟨h', hrun, hsame, hmem, hcalls, hwr, hnear, hrep'⟩ := internalKfree_spec allowSplit
    doActualFree sh hK hctx hv hvs (fun h₁ h₂ h₃ => hact h₁ h₂ (by
      rw [Bool.eq_false_iff]; exact fun e => (hsplit.1 e) h₃))
  refine ⟨h', hrun, ⟨sh.of_same hsame, close c .free, hrep',
    fun hl => canon_close trivial (hcan (hsame.linearMapping ▸ hl)).of_plug.2, ?_⟩,
    ⟨hsame, hwr.outside, fun _ i => ⟨hwr.allocated i, hwr.allocFailed i⟩⟩, ?_, fun b hb hd i hi => hnear.block hK hb hd hi⟩
  · have hfree : pieces l (Ctx.off l c) Buddy.free = [] := by cases l <;> rfl
    have := pieces_close l c .free
    rw [hK, hfree, List.nil_append] at this
    exact this.trans hrest
  · rw [hmem]
    by_cases hu : v = .used
    · rw [if_pos hu, if_neg (by rw [hsplit]; exact fun e => e hu)]
    · rw [if_neg hu, if_pos (hsplit.2 hu)]

/-! ## Allocating a block -/

theorem splitIf_spec {h : KmallocHeap} {c : Ctx} (sub : Option Nat) (sh : Shape h m K a) (hK : j + c.length = K)
    (hrep : Rep a h.metadataNodes j (node 0 c) .used) :
    ∃ f, (if decide (subSize m sub ≠ 0) then
        internalKmallocSplitBlock h (h.vaddr + 2 ^ m * Ctx.off j c) (2 ^ (m + j)) (subSize m sub) else some h) =
        some (h.withNodes f) ∧
      Rep a f j (node 0 c) (cut sub j) ∧ Writes j (node 0 c) h.metadataNodes f := by
  cases sub with
  | none => exact ⟨h.metadataNodes, rfl, hrep, Writes.refl _ _ _⟩
  | some l =>
    obtain ⟨f, hf, hf'⟩ := splitBlock_spec sh hK hrep l
    refine ⟨f, ?_, hf'⟩
    have : subSize m (some l) ≠ 0 := by simp [subSize]
    rw [if_pos (by simpa using this)]
    exact hf

/-- A block that allocations are made in: the way to it is split, and it is not full. -/
structure Big (h : KmallocHeap) (m K : Nat) (a : Option Nat) (d : Ctx) (k : Nat) (u : Buddy) : Prop where
  shape : Shape h m K a
  len : k + d.length = K
  ctx : RepCtx a h.metadataNodes 0 d k u
  rep : Rep a h.metadataNodes k (node 0 d) u

theorem Big.alloc {h : KmallocHeap} {d : Ctx} {k : Nat} {u : Buddy} {doActualAlloc : Bool} (hb : Big h m K a d k u)
    (hv : VallocOk h doActualAlloc) (sub : Option Nat) (hj : j ≤ k) {c : Ctx} (hfind : find j k u = some c)
    (hfull : d = [] ∨ (plug c (cut sub j)).isFull = false) :
    ∃ h₁ h', internalKmalloc h (2 ^ (m + j)) (node 0 d) (2 ^ (m + k)) true doActualAlloc =
        some (h₁, some (h.vaddr + 2 ^ m * (Ctx.off j c + Ctx.off k d))) ∧
      (if decide (subSize m sub ≠ 0) then internalKmallocSplitBlock h₁ (h.vaddr + 2 ^ m * (Ctx.off j c + Ctx.off k d))
        (2 ^ (m + j)) (subSize m sub) else some h₁) = some h' ∧
      Big h' m K a d k (plug c (cut sub j)) ∧ Frame K h h' ∧ Grows h h' (if doActualAlloc then 2 ^ (m + j) else 0) := by
  have hspec := internalKmalloc_spec hb.shape hb.len hb.ctx hb.rep hj hv
  rw [hfind] at hspec
  obtain ⟨h₁, hrun, hsame, hmem, hrep, hctx, hout, hwr, hfail⟩ := hspec
  have hlen := find_length hj hfind
  have hlen' : j + (c ++ d).length = K := by rw [List.length_append]; have := hb.len; omega
  rw [off_append, hlen] at hrun
  have hcut := cut_spec sub j
  rw [← hlen] at hrep
  obtain ⟨hc₁, hused⟩ := hrep.descend
  rw [← node_append] at hused
  obtain ⟨f, hsplit, hrep', hwr'⟩ := splitIf_spec sub (hb.shape.of_same hsame) hlen' hused
  rw [off_append, hlen, hsame.vaddr] at hsplit
  rw [node_append] at hrep' hwr'
  have hbelow : ∀ i, Below j (node (node 0 d) c) i → Below k (node 0 d) i := fun i hi => hlen ▸ below_node hi
  have hK : ∀ i, Below j (node (node 0 d) c) i → Below K 0 i := fun i hi => hb.len ▸ below_node (hbelow i hi)
  have hnotfull : u.isFull = false := by
    rw [Bool.eq_false_iff]; intro e; rw [find_full e] at hfind; cases hfind
  refine ⟨h₁, h₁.withNodes f, hrun, hsplit, ⟨(hb.shape.of_same hsame).withNodes f, hb.len, ?_, ?_⟩,
    ⟨hsame.trans ⟨rfl, rfl, rfl, rfl, rfl, rfl, rfl, rfl, rfl, rfl⟩, fun i hi => ?_, fun hl i => ?_⟩, Grows.of_eq hmem⟩
  · rcases hfull with rfl | hfull
    · trivial
    · exact (hctx.swap (hnotfull.trans hfull.symm)).congr (fun i hi => (hwr'.outside i (fun h => hi (hbelow i h))).symm)
  · rw [← hlen]
    exact ((hc₁.swap (by rw [hcut.1]; rfl)).congr (fun i hi => (hwr'.outside i hi).symm)).plug hrep'
  · exact (hwr'.outside i (fun h => hi (hK i h))).trans (hout i hi)
  · exact ⟨fun h => (hwr (Or.inl hl)).allocated i (hwr'.allocated i h), fun h => hfail i (hwr'.allocFailed i h)⟩

theorem Owns.alloc {h : KmallocHeap} {ps : List (Nat × Nat)} {doActualAlloc : Bool} (ho : Owns h m K a ps)
    (hv : VallocOk h doActualAlloc) (sub : Option Nat) (hj : j ≤ K) :
    ((h.linearMapping = true ∨ j = 0 → NoFit K ps j) ∧
      internalKmalloc h (2 ^ (m + j)) 0 (2 ^ (m + K)) true doActualAlloc = some (h, none)) ∨
    ∃ h₁ h' y, internalKmalloc h (2 ^ (m + j)) 0 (2 ^ (m + K)) true doActualAlloc = some (h₁, some (h.vaddr + 2 ^ m * y)) ∧
      (if decide (subSize m sub ≠ 0) then internalKmallocSplitBlock h₁ (h.vaddr + 2 ^ m * y)
        (2 ^ (m + j)) (subSize m sub) else some h₁) = some h' ∧
      Owns h' m K a (pieces j y (cut sub j) ++ ps) ∧ IsBlock K (j, y) ∧
      (h.linearMapping = true → FirstFit K ps j y) ∧ Frame K h h' ∧
      Grows h h' (if doActualAlloc then 2 ^ (m + j) else 0) := by
  obtain ⟨u, hrep, hcan, hperm⟩ := ho.tree
  have hbig : Big h m K a [] K u := ⟨ho.shape, rfl, trivial, hrep⟩
  have hfit := find_fit hrep.fits hperm hj
  cases hfind : find j K u with
  | none =>
    rw [hfind] at hfit
    have := internalKmalloc_spec hbig.shape hbig.len hbig.ctx hbig.rep hj hv
    rw [hfind] at this
    exact Or.inl ⟨fun hl => hfit (hl.imp_left hcan), this⟩
  | some c =>
    rw [hfind] at hfit
    obtain ⟨h₁, h', hrun, hsplit, hb', hfr, hmem⟩ := hbig.alloc hv sub hj hfind (Or.inl rfl)
    exact Or.inr ⟨h₁, h', Ctx.off j c, hrun, hsplit,
      ⟨hb'.shape, _, hb'.rep, fun hl => canon_cut sub hj (hcan (hfr.linearMapping ▸ hl)) hfind,
        (pieces_find hj hfind).trans (hperm.append_left _)⟩,
      hfit.1, fun hl => hfit.2 (hcan hl), hfr, hmem⟩

/-! ## Multi-step allocations -/

theorem multiAllocLoop_done : ∀ {i : Nat} {h : KmallocHeap} {bb bn r tot sub : Nat} {doActualAlloc : Bool},
    multiAllocLoop i h bb bn r tot tot sub doActualAlloc = some (h, some tot)
  | 0, _, _, _, _, _, _, _ => rfl
  | _ + 1, _, _, _, _, _, _, _ => by rw [multiAllocLoop, if_neg (lt_irrefl _)]

theorem multiAllocLoop_skip {i : Nat} {h : KmallocHeap} {bb bn r desired tot sub : Nat} {doActualAlloc : Bool}
    (ht : tot < desired) (hb : desired.testBit i = false) :
    multiAllocLoop (i + 1) h bb bn r desired tot sub doActualAlloc =
      multiAllocLoop i h bb bn r desired tot sub doActualAlloc := by
  rw [multiAllocLoop, if_pos ht, hb, if_neg Bool.false_ne_true]

theorem multiAllocLoop_bit {i : Nat} {h h₁ h' : KmallocHeap} {bb bn r desired tot sub addr : Nat} {doActualAlloc : Bool}
    (ht : tot < desired) (hb : desired.testBit i = true)
    (hrun : internalKmalloc h (2 ^ i) bn r true doActualAlloc = some (h₁, some addr))
    (hsplit : (if decide (sub ≠ 0) then internalKmallocSplitBlock h₁ addr (2 ^ i) sub else some h₁) = some h') :
    multiAllocLoop (i + 1) h bb bn r desired tot sub doActualAlloc =
      multiAllocLoop i h' bb bn r desired (tot + 2 ^ i) sub doActualAlloc := by
  rw [multiAllocLoop, if_pos ht, hb, if_pos rfl]
  simp only [hrun, Option.bind_eq_bind, Option.bind_some]
  by_cases hs : decide (sub ≠ 0) = true
  · rw [if_pos hs] at hsplit
    rw [if_pos hs, hsplit]
    rfl
  · rw [if_neg hs] at hsplit
    rw [if_neg hs, Option.some.inj hsplit]

/-- What the multi-step loop does to the big block, from digit `i` of the size on. -/
def LoopDone (h h' : KmallocHeap) (m K : Nat) (a : Option Nat) (d : Ctx) (k n i : Nat) (sub : Option Nat)
    (doActualAlloc : Bool) (u : Buddy) : Prop :=
  ∃ u', Big h' m K a d k u' ∧ Buddy.Canon u' ∧ (pieces k 0 u').Perm (runPieces sub 0 n i ++ pieces k 0 u) ∧ UpTo n (pieces k 0 u') ∧
    Frame K h h' ∧ Grows h h' (if doActualAlloc then 2 ^ m * (n - n / 2 ^ i * 2 ^ i) else 0)

/-- **The multi-step loop** of `per_heap_kmalloc_unsafe` fills the big block from the left. -/
theorem multiAllocLoop_spec {d : Ctx} {k n : Nat} (sub : Option Nat) {doActualAlloc : Bool} (hn : n < 2 ^ k) :
    ∀ {i : Nat} {h : KmallocHeap} {u : Buddy}, Big h m K a d k u → Buddy.Canon u → VallocOk h doActualAlloc →
    UpTo (n / 2 ^ i * 2 ^ i) (pieces k 0 u) →
    ∃ h', multiAllocLoop (m + i) h (h.vaddr + 2 ^ m * Ctx.off k d) (node 0 d) (2 ^ (m + k)) (2 ^ m * n)
        (2 ^ m * (n / 2 ^ i * 2 ^ i)) (subSize m sub) doActualAlloc = some (h', some (2 ^ m * n)) ∧
      LoopDone h h' m K a d k n i sub doActualAlloc u := by
  have hdone : ∀ {i : Nat} {h : KmallocHeap} {u : Buddy}, n / 2 ^ i * 2 ^ i = n → Big h m K a d k u → Buddy.Canon u →
      UpTo (n / 2 ^ i * 2 ^ i) (pieces k 0 u) →
      ∃ h', multiAllocLoop (m + i) h (h.vaddr + 2 ^ m * Ctx.off k d) (node 0 d) (2 ^ (m + k)) (2 ^ m * n)
          (2 ^ m * (n / 2 ^ i * 2 ^ i)) (subSize m sub) doActualAlloc = some (h', some (2 ^ m * n)) ∧
        LoopDone h h' m K a d k n i sub doActualAlloc u := by
    intro i h u hi hb hcan hup
    refine ⟨h, by rw [hi]; exact multiAllocLoop_done, u, hb, hcan, ?_, hi ▸ hup, Frame.refl K h, ?_⟩
    · rw [runPieces, runBlocks_eq_nil hi]; exact List.Perm.refl _
    · rw [hi, Nat.sub_self, Nat.mul_zero, ite_self]; exact Grows.refl h
  intro i
  induction i with
  | zero => exact fun hb hcan _ hup => hdone (by simp) hb hcan hup
  | succ i ih =>
    intro h u hb hcan hv hup
    by_cases hi : n / 2 ^ (i + 1) * 2 ^ (i + 1) = n
    · exact hdone hi hb hcan hup
    have hlt : n / 2 ^ (i + 1) * 2 ^ (i + 1) < n := lt_of_le_of_ne (high_le _ _) hi
    have hlt' : 2 ^ m * (n / 2 ^ (i + 1) * 2 ^ (i + 1)) < 2 ^ m * n := Nat.mul_lt_mul_of_pos_left hlt (by positivity)
    have htest : (2 ^ m * n).testBit (m + i) = n.testBit i := by simp [Nat.testBit_two_pow_mul]
    have hs := high_succ n i
    rw [← Nat.add_assoc]
    cases hbit : n.testBit i with
    | false =>
      rw [hbit, if_neg Bool.false_ne_true, Nat.add_zero] at hs
      obtain ⟨h', hloop, hdone'⟩ := ih hb hcan hv (hs ▸ hup)
      refine ⟨h', ?_, ?_⟩
      · rw [multiAllocLoop_skip hlt' (htest.trans hbit), ← hs]; exact hloop
      · rw [LoopDone, runPieces, runBlocks, hbit, if_neg Bool.false_ne_true, ← hs]; exact hdone'
    | true =>
      rw [hbit, if_pos rfl] at hs
      have hle := high_le n i
      have hik : i ≤ k := by
        by_contra hc
        have : 2 ^ k < 2 ^ i := Nat.pow_lt_pow_right (by omega) (by omega)
        omega
      -- the block goes right behind what is there already
      obtain ⟨c, hfind, hoff⟩ := hup.find hb.rep.fits hcan hik
        (Dvd.dvd.mul_left (Nat.pow_dvd_pow 2 (Nat.le_succ i)) _) (by omega)
      have hcut := cut_spec sub i
      have hperm := pieces_find (w := cut sub i) hik hfind
      rw [hoff] at hperm
      have hup' : UpTo (n / 2 ^ i * 2 ^ i) (pieces k 0 (plug c (cut sub i))) := by
        rw [hs]; exact (hup.append hcut.1 hcut.2.2.2).perm hperm.symm
      have hnotfull : (plug c (cut sub i)).isFull = false := by
        by_contra hfull
        have hlen := find_length hik hfind
        have hfits : Buddy.Fits k (plug c (cut sub i)) :=
          hlen ▸ fits_plug.2 ⟨hcut.2.2.2, find_fits hik hb.rep.fits hfind⟩
        obtain ⟨p, hp, _, h₂⟩ := exists_piece_of_isFull (o := 0) hfits (by simpa using hfull) n (Nat.zero_le _) (by omega)
        have := hup'.bound p hp
        omega
      obtain ⟨h₁, h₂, hrun, hsplit, hb₂, hfr, hgr⟩ := hb.alloc hv sub hik hfind (Or.inr hnotfull)
      obtain ⟨h', hloop, u', hb', hcan', hperm', hup'', hfr', hgr'⟩ := ih hb₂ (canon_cut sub hik hcan hfind) (hv.of_same hfr.toSame) hup'
      refine ⟨h', ?_, u', hb', hcan', ?_, hup'', hfr.trans hfr', ?_⟩
      · rw [multiAllocLoop_bit hlt' (htest.trans hbit) hrun hsplit, show 2 ^ m * (n / 2 ^ (i + 1) * 2 ^ (i + 1)) +
          2 ^ (m + i) = 2 ^ m * (n / 2 ^ i * 2 ^ i) by rw [hs, pow_add]; ring, ← hfr.vaddr]
        exact hloop
      · rw [runPieces, runBlocks, hbit, if_pos rfl, List.flatMap_cons, Nat.zero_add]
        refine hperm'.trans ((hperm.append_left _).trans ?_)
        rw [← List.append_assoc]
        exact List.perm_append_comm.append_right _
      · have := hgr.trans hgr'
        cases doActualAlloc with
        | false => exact this
        | true =>
          rw [if_pos rfl, if_pos rfl, pow_add, ← Nat.mul_add] at this
          rw [if_pos rfl]
          rw [show 2 ^ i + (n - n / 2 ^ i * 2 ^ i) = n - n / 2 ^ (i + 1) * 2 ^ (i + 1) by omega] at this
          exact this

/-! ## `per_heap_kmalloc_unsafe` -/

theorem exists_roundedUpSize {size : Nat} (hs : m + K < 31) (h₁ : size ≤ 2 ^ (m + K)) :
    ∃ j ≤ K, max (roundupNextPowerOf2 size) (2 ^ m) = 2 ^ (m + j) ∧ size ≤ 2 ^ (m + j) := by
  by_cases h₀ : size = 0
  · exact ⟨0, Nat.zero_le _, by rw [h₀, roundupNextPowerOf2_zero]; simp, by simp [h₀]⟩
  obtain ⟨e, he, hr, hle, _⟩ := exists_roundup (Nat.pos_of_ne_zero h₀) h₁ (by omega)
  rw [hr]
  by_cases hem : e ≤ m
  · have : 2 ^ e ≤ 2 ^ m := Nat.pow_le_pow_right (by omega) hem
    exact ⟨0, Nat.zero_le _, by rw [max_eq_right this, Nat.add_zero], by rw [Nat.add_zero]; omega⟩
  · have : 2 ^ m ≤ 2 ^ e := Nat.pow_le_pow_right (by omega) (by omega)
    exact ⟨e - m, by omega, by rw [max_eq_left this, show m + (e - m) = e by omega],
      by rw [show m + (e - m) = e by omega]; exact hle⟩

/-- What a successful allocation of `n` units at `y` is, in a free block of level `k`: the first one, if the heap is
linear-mapped. -/
structure Allocated (h h' : KmallocHeap) (m K : Nat) (a : Option Nat) (ps : List (Nat × Nat)) (sub : Option Nat)
    (doActualAlloc : Bool) (k y n : Nat) : Prop where
  owns : Owns h' m K a (runPieces sub y n (K + 1) ++ ps)
  pos : 0 < n
  le : n ≤ 2 ^ k
  block : IsBlock K (k, y)
  fit : h.linearMapping = true → FirstFit K ps k y
  frame : Frame K h h'
  grows : Grows h h' (if doActualAlloc then 2 ^ m * n else 0)

/-- The flags and the size that `per_heap_kmalloc_unsafe` can be called with: a size that is not 0, and for a multi-step
allocation a multiple of the minimum block size; a sub-block size that is a power of 2, of the minimum block size at
least. -/
structure AllocArgs (m size flags : Nat) (sub : Option Nat) : Prop where
  ne_zero : hasFlag flags flMultiStep = true → size ≠ 0
  dvd : hasFlag flags flMultiStep = true → 2 ^ m ∣ size
  subSize : flags &&& flSubBlockMinSizeMask = subSize m sub

/-- **`per_heap_kmalloc_unsafe`** changes nothing and returns `NULL` when there is no free block that is large enough,
and adds a run of at least the requested size when there is one. -/
theorem perHeapKmalloc_owns {h : KmallocHeap} {ps : List (Nat × Nat)} {size flags : Nat} {sub : Option Nat}
    (ho : Owns h m K a ps) (hargs : AllocArgs m size flags sub) (hv : VallocOk h (!hasFlag flags flNoActual)) :
    (2 ^ (m + K) < size ∧ perHeapKmallocUnsafe h size flags = some (h, size, none)) ∨
    ∃ k ≤ K, max (roundupNextPowerOf2 size) (2 ^ m) = 2 ^ (m + k) ∧
      (((h.linearMapping = true ∨ k = 0 → NoFit K ps k) ∧ ∃ sz, (sz = size ∨ sz = 2 ^ (m + k)) ∧
        (hasFlag flags flMultiStep = true → sz = size) ∧ perHeapKmallocUnsafe h size flags = some (h, sz, none)) ∨
      ∃ h' y n, perHeapKmallocUnsafe h size flags = some (h', 2 ^ m * n, some (h.vaddr + 2 ^ m * y)) ∧
        size ≤ 2 ^ m * n ∧ (hasFlag flags flMultiStep = false → n = 2 ^ k) ∧
        (hasFlag flags flMultiStep = true → 2 ^ m * n = size) ∧ Allocated h h' m K a ps sub (!hasFlag flags flNoActual) k y n) := by
  have sh := ho.shape
  rw [perHeapKmallocUnsafe, hargs.subSize, sh.size, sh.minBlockSize]
  by_cases hbig : size > 2 ^ (m + K)
  · exact Or.inl ⟨hbig, by simp only [hbig, ↓reduceIte]; rfl⟩
  obtain ⟨j, hj, hround, hle⟩ := exists_roundedUpSize sh.small (not_lt.1 hbig)
  refine Or.inr ⟨j, hj, hround, ?_⟩
  simp only [hbig, ↓reduceIte, hround]
  by_cases hone : (!hasFlag flags flMultiStep || decide (2 ^ (m + j) - size < 2 ^ m)) = true
  · -- one block
    rw [if_pos hone]
    have hexact : hasFlag flags flMultiStep = true → 2 ^ (m + j) = size := by
      intro hmulti
      obtain ⟨n, hn⟩ := hargs.dvd hmulti
      have hlt : 2 ^ (m + j) - size < 2 ^ m := by simpa [hmulti] using hone
      rw [pow_add, hn] at hlt hle
      rw [pow_add, hn]
      by_contra hne
      have hlt' : n < 2 ^ j := by
        by_contra hc
        exact hne (le_antisymm (Nat.mul_le_mul_left _ (not_lt.1 hc)) hle)
      have := Nat.mul_le_mul_left (2 ^ m) hlt'
      rw [Nat.mul_succ] at this
      omega
    rcases ho.alloc hv sub hj with ⟨hno, hrun⟩ | ⟨h₁, h', y, hrun, hsplit, ho', hbl, hfit, hfr, hgr⟩
    · exact Or.inl ⟨hno, 2 ^ (m + j), Or.inr rfl, hexact, by rw [hrun]; rfl⟩
    · refine Or.inr ⟨h', y, 2 ^ j, ?_, by rw [← pow_add]; exact hle, fun _ => rfl,
        fun hmulti => by rw [← pow_add]; exact hexact hmulti,
        by rw [runPieces_two_pow sub (by omega)]; exact ho', by positivity, le_refl _, hbl, hfit, hfr,
        by rw [← pow_add]; exact hgr⟩
      rw [hrun]
      simp only [Option.bind_eq_bind, Option.bind_some]
      by_cases hs : decide (subSize m sub ≠ 0) = true
      · rw [if_pos hs] at hsplit
        rw [if_pos hs, hsplit, pow_add]
        rfl
      · rw [if_neg hs] at hsplit
        rw [if_neg hs, Option.some.inj hsplit, pow_add]
        rfl
  · -- several blocks in the first free block that is large enough
    rw [if_neg hone]
    have hmulti : hasFlag flags flMultiStep = true := by simp at hone; exact hone.1
    have hroom : 2 ^ m ≤ 2 ^ (m + j) - size := by simp at hone; omega
    obtain ⟨n, hn⟩ := hargs.dvd hmulti
    have hpos : 0 < n := by
      by_contra h₀
      exact hargs.ne_zero hmulti (by rw [hn, show n = 0 by omega, Nat.mul_zero])
    have hlt : n < 2 ^ j := by
      by_contra hc
      have := Nat.mul_le_mul_left (2 ^ m) (show 2 ^ j ≤ n by omega)
      have hp : 0 < 2 ^ m := by positivity
      rw [← pow_add] at this
      omega
    obtain ⟨u, hrep, hcan, hperm⟩ := ho.tree
    have hfit := find_fit hrep.fits hperm hj
    have hfindspec := internalKmalloc_find (j := j) sh hrep hj
    cases hfind : find j K u with
    | none =>
      rw [hfind] at hfindspec hfit
      exact Or.inl ⟨fun hl => hfit (hl.imp_left hcan), size, Or.inl rfl, fun _ => rfl, by rw [hfindspec]; rfl⟩
    | some d =>
      rw [hfind] at hfindspec hfit
      obtain ⟨f, hrun, hctx, hfree, hwr⟩ := hfindspec
      have hlen := find_length hj hfind
      have hlt' : n < 2 ^ K := lt_of_lt_of_le hlt (Nat.pow_le_pow_right (by omega) hj)
      have hzero : n / 2 ^ K * 2 ^ K = 0 := by rw [Nat.div_eq_of_lt hlt', Nat.zero_mul]
      have hnil : pieces j 0 Buddy.free = [] := by cases j <;> rfl
      have hbig : Big (h.withNodes f) m K a d j .free := ⟨sh.withNodes f, hlen, hctx, hfree⟩
      obtain ⟨h', hloop, u', hb', hcan', hperm', hup', hfr', hgr'⟩ := multiAllocLoop_spec sub hlt (i := K) hbig trivial
        (hv.of_same ⟨rfl, rfl, rfl, rfl, rfl, rfl, rfl, rfl, rfl, rfl⟩)
        ⟨fun x hx => by omega, fun p hp => by rw [hnil] at hp; cases hp⟩
      have hne : u' ≠ .free := fun he => by
        obtain ⟨p, hp, _⟩ := hup'.cover 0 hpos
        rw [he, hnil] at hp
        cases hp
      have hrep' := hb'.ctx.plug hb'.rep
      rw [hlen] at hrep'
      rw [hzero, Nat.sub_zero] at hgr'
      rw [hnil, List.append_nil] at hperm'
      have hpieces : (pieces K 0 (plug d u')).Perm (runPieces sub (Ctx.off j d) n (K + 1) ++ ps) := by
        refine (pieces_find hj hfind).trans ?_
        rw [pieces_shift j (Ctx.off j d), runPieces_shift, runPieces, runBlocks_add hlt' 1]
        exact (hperm'.map _).append hperm
      refine Or.inr ⟨h', Ctx.off j d, n, ?_, le_of_eq hn, fun h₀ => (by rw [hmulti] at h₀; cases h₀),
        fun _ => hn.symm,
        ⟨hb'.shape, _, hrep', fun hl => canon_plug hcan' (find_canon hj (hcan (hfr'.linearMapping ▸ hl)) hfind) hne,
          hpieces⟩, hpos, hlt.le, hfit.1, fun hl => hfit.2 (hcan hl), hwr.frame.trans hfr', ⟨hgr'.mod, hgr'.lt⟩⟩
      have hnode : ptrToNode (h.withNodes f) (h.vaddr + 2 ^ m * Ctx.off j d) (2 ^ (m + j)) = node 0 d :=
        ptrToNode_off (sh.withNodes f) hlen
      rw [hzero, Nat.mul_zero] at hloop
      rw [hrun, hn]
      simp only [Option.bind_eq_bind, Option.bind_some, hnode, KmallocHeap.withNodes_log2, sh.log2]
      rw [show multiAllocLoop _ _ (h.vaddr + _) _ _ _ _ _ _ = _ from hloop]
      rfl

/-! ## Setting a heap up -/

theorem owns_create (a : Option Nat) {m K : Nat} (vaddr : Nat) (nodeBefore : BlockNode) (valloc : Nat → Bool) (hs : m + K < 31)
    (ha : ∀ A, a = some A → A ≤ K ∧ 2 ^ (m + A) ∣ vaddr) :
    Owns (kmallocCreateHeap vaddr (2 ^ (m + K)) (2 ^ m) (a.elim 0 (fun A => 2 ^ (m + A))) a.isNone nodeBefore valloc)
      m K a [] := by
  refine ⟨⟨rfl, rfl, log2ForPowerOf2_two_pow (by omega), ?_, hs, ?_, ?_⟩, .free, ?_, fun _ => trivial, ?_⟩
  · show 2 * 2 ^ (m + K) / 2 ^ m = 2 ^ (K + 1)
    rw [pow_add, show 2 * (2 ^ m * 2 ^ K) = 2 ^ m * 2 ^ (K + 1) by ring, Nat.mul_div_cancel_left _ (by positivity)]
  · rintro rfl
    exact ⟨rfl, rfl⟩
  · rintro A rfl
    obtain ⟨hA, hd⟩ := ha A rfl
    exact ⟨rfl, rfl, log2ForPowerOf2_two_pow (by omega), hA, hd⟩
  · rw [Rep.free_iff]
    exact fun _ _ => rfl
  · cases K <;> exact List.Perm.nil

/-- **A heap with its metadata**: the metadata block is the first block of the heap. It does not fit into a heap whose
minimum block is one byte. -/
theorem addHeapWithMetadata_spec {m K : Nat} (vaddr : Nat) (nodeBefore : BlockNode) (hs : m + K < 31) :
    (m = 0 ∧ ∃ h sz, addHeapWithMetadata vaddr (2 ^ (m + K)) (2 ^ m) nodeBefore = some (h, sz, none)) ∨
    ∃ h k, addHeapWithMetadata vaddr (2 ^ (m + K)) (2 ^ m) nodeBefore = some (h, 2 ^ m * 2 ^ k, some vaddr) ∧
      calculateHeapMetadataSize (2 ^ (m + K)) (2 ^ m) ≤ 2 ^ m * 2 ^ k ∧
      max (roundupNextPowerOf2 (2 ^ (K + 1))) (2 ^ m) = 2 ^ (m + k) ∧
      Allocated (kmallocCreateHeap vaddr (2 ^ (m + K)) (2 ^ m) 0 true nodeBefore (fun _ => true)) h m K none [] none true
        k 0 (2 ^ k) := by
  have ho := owns_create none vaddr nodeBefore (fun _ => true) hs (by simp)
  have hmd : calculateHeapMetadataSize (2 ^ (m + K)) (2 ^ m) = 2 ^ (K + 1) := ho.shape.metadataSize
  rw [addHeapWithMetadata, hmd]
  have hargs : AllocArgs m (2 ^ (K + 1)) 0 none := ⟨by simp [hasFlag], by simp [hasFlag], by simp [subSize]⟩
  rcases perHeapKmalloc_owns ho hargs (Or.inl rfl) with ⟨hbig, hrun⟩ | ⟨k, hk, hround, hno | ⟨h', y, n, hrun, hle, hone, _, hal⟩⟩
  · refine Or.inl ⟨?_, _, _, hrun⟩
    have := (Nat.pow_lt_pow_iff_right (show 1 < 2 by omega)).1 hbig
    omega
  · -- every block is free
    exact absurd (fun p hp => absurd hp List.not_mem_nil) (hno.1 (Or.inl rfl) 0 ⟨hk, Nat.dvd_zero _, by
      rw [Nat.zero_add]; exact Nat.pow_le_pow_right (by omega) hk⟩)
  · have hn := hone (by simp [hasFlag])
    have hy : y = 0 := Nat.le_zero.1 ((hal.fit rfl).first 0 ⟨hk, Nat.dvd_zero _, by
      rw [Nat.zero_add]; exact Nat.pow_le_pow_right (by omega) hk⟩ (fun p hp => absurd hp List.not_mem_nil))
    subst hn hy
    exact Or.inr ⟨h', k, hrun, hle, hround, hal⟩

end Usax.Kmalloc
