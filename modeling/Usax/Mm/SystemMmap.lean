import Mathlib

/-!
# Overlapping memory regions

`handle_overlapping_regions` of `system_mmap.c` looks at neighbouring regions of the table until no two of them overlap. An
overlap is resolved for the stricter type: the other region is removed, shortened or split in two. The table has room for
`MAX_MEM_REGIONS` regions; `append_mem_region` panics when it is full.

Every overlap makes the sum of the lengths smaller, or removes an empty region (`handleRegionOverlap_spec`), so the loops end,
unless an empty region lies in one of a weaker type: a region that begins where an empty one of a stricter type is is moved to
the place where it is already.
-/

namespace Usax.Mm.SystemMmap

/-! ## Data model -/

structure MemRegion where
  addr : Nat
  len : Nat
  type : Nat
  extra : Nat
deriving DecidableEq, Repr

def maxMemRegions : Nat := 512

def MemRegion.end_ (r : MemRegion) : Nat := (r.addr + r.len) % 2 ^ 64

def appendMemRegion (regions : List MemRegion) (r : MemRegion) : Option (List MemRegion) :=
  if regions.length ≥ maxMemRegions then none else some (regions ++ [r])

/-- The inner loop of `insertion_sort_generic`, on the sorted elements in reverse. -/
def insertSorted (r : MemRegion) : List MemRegion → List MemRegion
  | [] => [r]
  | x :: xs => if x.addr > r.addr then x :: insertSorted r xs else r :: x :: xs

def sortMemRegions (regions : List MemRegion) : List MemRegion :=
  (regions.foldl (fun sorted r => insertSorted r sorted) []).reverse

/-- `remove_mem_region_by_swap_with_last`. -/
def removeBySwap (regions : List MemRegion) (i : Nat) : List MemRegion :=
  match regions.getLast? with
  | none => []
  | some last => (regions.set i last).dropLast

/-! ## The loops -/

/-- `handle_region_overlap` for regions `r1` and `r2`, with indexes `i` and `j`, of which `r1` does not start later. -/
def overlap (regions : List MemRegion) (i j : Nat) (r1 r2 : MemRegion) : Option (List MemRegion × Bool) :=
  let s1 := r1.addr
  let s2 := r2.addr
  let e1 := r1.end_
  let e2 := r2.end_
  if s2 ≥ e1 then some (regions, false)
  else if s1 ≤ s2 ∧ e2 ≤ e1 then
    if r1.type ≥ r2.type then some (removeBySwap regions j, true)
    else if s1 = s2 ∧ e1 = e2 then some (removeBySwap regions i, true)
    else if s1 = s2 then some (regions.set i { r1 with addr := e2, len := e1 - e2 }, true)
    else if e1 = e2 then some (regions.set i { r1 with len := s2 - s1 }, true)
    else
      (appendMemRegion (regions.set i { r1 with len := s2 - s1 }) { r1 with addr := e2, len := e1 - e2 }).map (·, true)
  else if r1.type ≥ r2.type then some (regions.set j { r2 with addr := e1, len := e2 - e1 }, true)
  else if s1 = s2 then some (removeBySwap regions i, true)
  else some (regions.set i { r1 with len := s2 - s1 }, true)

/-- `handle_region_overlap`; `none` is the panic. -/
def handleRegionOverlap (regions : List MemRegion) (i j : Nat) : Option (List MemRegion × Bool) :=
  match regions[i]?, regions[j]? with
  | some r1, some r2 =>
    if i = j then some (regions, false)
    else if r2.addr < r1.addr then overlap regions j i r2 r1
    else overlap regions i j r1 r2
  | _, _ => some (regions, false)

/-- What a loop ends with: it is still running, the kernel panicked, or a result. -/
abbrev Outcome (α : Type) := Option (Option α)

/-- The inner loop of `handle_overlapping_regions`, from index `i` on. -/
def overlapPass : Nat → List MemRegion → Nat → Bool → Outcome (List MemRegion × Bool)
  | 0, _, _, _ => none
  | fuel + 1, regions, i, anyOverlap =>
    if i + 1 < regions.length then
      match handleRegionOverlap regions i (i + 1) with
      | none => some none
      | some (regions, b) => overlapPass fuel regions (i + 1) (anyOverlap || b)
    else some (some (regions, anyOverlap))

def handleOverlappingRegions : Nat → List MemRegion → Outcome (List MemRegion)
  | 0, _ => none
  | fuel + 1, regions =>
    match overlapPass fuel regions 0 false with
    | none => none
    | some none => some none
    | some (some (regions, anyOverlap)) =>
      if anyOverlap then handleOverlappingRegions fuel (sortMemRegions regions)
      else some (some (sortMemRegions regions))

def Terminates (regions : List MemRegion) : Prop :=
  ∃ m, ∀ fuel, m ≤ fuel → (handleOverlappingRegions fuel regions).isSome = true

/-! ## The sum of the lengths -/

/-- The length of a region; an empty one counts too. -/
def MemRegion.weight (r : MemRegion) : Nat := max r.len 1

def total (regions : List MemRegion) : Nat := (regions.map MemRegion.weight).sum

/-- The region is a part of the other one, of the same type, and if it is empty it is that one. -/
structure PartOf (r s : MemRegion) : Prop where
  type : r.type = s.type
  addr : s.addr ≤ r.addr
  last : r.addr + r.len ≤ s.addr + s.len
  empty : r.len = 0 → r = s

/-- No end wraps around, and no empty region lies in a region of a weaker type. -/
structure Calm (regions : List MemRegion) : Prop where
  noWrap : ∀ r ∈ regions, r.addr + r.len < 2 ^ 64
  empty : ∀ r ∈ regions, ∀ e ∈ regions, e.len = 0 → r.type < e.type → e.addr < r.addr ∨ r.addr + r.len ≤ e.addr

theorem PartOf.refl (r : MemRegion) : PartOf r r := ⟨rfl, Nat.le_refl _, Nat.le_refl _, fun _ => rfl⟩

theorem Calm.parts {regions regions' : List MemRegion} (h : Calm regions) (hp : ∀ r ∈ regions', ∃ s ∈ regions, PartOf r s) :
    Calm regions' where
  noWrap r hr := by
    obtain ⟨s, hs, hrs⟩ := hp r hr
    exact hrs.last.trans_lt (h.noWrap s hs)
  empty r hr e he hempty htype := by
    obtain ⟨s, hs, hrs⟩ := hp r hr
    obtain ⟨e', he', hee⟩ := hp e he
    obtain rfl := hee.empty hempty
    have haddr := hrs.addr
    have hlast := hrs.last
    have := h.empty s hs e he' hempty (by rwa [← hrs.type])
    omega

variable {regions : List MemRegion} {r r1 r2 : MemRegion} {i j : Nat}

theorem total_append (xs ys : List MemRegion) : total (xs ++ ys) = total xs + total ys := by
  simp [total]

theorem total_perm {xs ys : List MemRegion} (h : xs.Perm ys) : total xs = total ys := (h.map _).sum_eq

theorem total_set : ∀ {regions : List MemRegion} {i : Nat}, regions[i]? = some r →
    total (regions.set i r1) + r.weight = total regions + r1.weight
  | [], _, h => by simp at h
  | x :: xs, 0, h => by
    cases h
    simp [total]
    omega
  | x :: xs, i + 1, h => by
    have ih : total (xs.set i r1) + r.weight = total xs + r1.weight := total_set h
    simp only [total, List.set_cons_succ, List.map_cons, List.sum_cons] at ih ⊢
    omega

theorem parts_set (h : regions[i]? = some r) (hr : PartOf r1 r) : ∀ x ∈ regions.set i r1, ∃ y ∈ regions, PartOf x y :=
  fun x hx => (List.mem_or_eq_of_mem_set hx).elim (fun hx => ⟨x, hx, .refl x⟩)
    fun hx => ⟨r, List.mem_of_getElem? h, hx ▸ hr⟩

theorem perm_set_cons : ∀ {xs : List MemRegion} {i : Nat}, xs[i]? = some r → (r :: xs.set i r1).Perm (r1 :: xs)
  | [], _, h => by simp at h
  | x :: xs, 0, h => by
    cases h
    exact List.Perm.swap _ _ _
  | x :: xs, i + 1, h => by
    have ih : (r :: xs.set i r1).Perm (r1 :: xs) := perm_set_cons h
    exact ((List.Perm.swap _ _ _).trans (ih.cons x)).trans (List.Perm.swap _ _ _)

theorem removeBySwap_perm (h : regions[i]? = some r) : (r :: removeBySwap regions i).Perm regions := by
  rcases List.eq_nil_or_concat regions with rfl | ⟨xs, last, rfl⟩
  · simp at h
  rw [removeBySwap, List.concat_eq_append, List.getLast?_append]
  simp only [List.getLast?_singleton, Option.some_or]
  rw [List.concat_eq_append] at h
  rcases Nat.lt_or_ge i xs.length with hi | hi
  · rw [List.getElem?_append_left hi] at h
    rw [List.set_append_left i last hi, List.dropLast_concat]
    exact (perm_set_cons h).trans (List.perm_append_singleton last xs).symm
  · rw [List.getElem?_append_right hi] at h
    have hi₀ : i - xs.length = 0 := by
      by_contra hne
      rw [List.getElem?_eq_none (by simp; omega)] at h
      cases h
    rw [hi₀] at h
    cases h
    rw [List.set_append_right i r hi, hi₀, List.set_cons_zero, List.dropLast_concat]
    exact (List.perm_append_singleton r xs).symm

theorem insertSorted_perm : ∀ xs : List MemRegion, (insertSorted r xs).Perm (r :: xs)
  | [] => List.Perm.refl _
  | x :: xs => by
    rw [insertSorted]
    split
    · exact ((insertSorted_perm xs).cons x).trans (List.Perm.swap _ _ _)
    · exact List.Perm.refl _

theorem sortMemRegions_perm (regions : List MemRegion) : (sortMemRegions regions).Perm regions := by
  have h : ∀ xs acc : List MemRegion, (xs.foldl (fun sorted r => insertSorted r sorted) acc).Perm (xs ++ acc) := by
    intro xs
    induction xs with
    | nil => exact fun acc => List.Perm.refl _
    | cons x xs ih =>
      intro acc
      refine (ih _).trans (((insertSorted_perm acc).append_left xs).trans ?_)
      exact List.perm_middle
  have := h regions []
  rw [List.append_nil] at this
  exact (List.reverse_perm _).trans this

/-! ## Termination -/

/-- What is known of the table after an overlap was handled. -/
structure Resolved (regions regions' : List MemRegion) : Prop where
  calm : Calm regions'
  total : total regions' < total regions
  length : regions'.length ≤ regions.length + 1

theorem resolved_remove (hc : Calm regions) (h : regions[i]? = some r) : Resolved regions (removeBySwap regions i) := by
  have hp := removeBySwap_perm h
  have ht := total_perm hp
  have hr : 0 < r.weight := Nat.lt_of_lt_of_le Nat.one_pos (Nat.le_max_right _ _)
  have hcons : total (r :: removeBySwap regions i) = r.weight + total (removeBySwap regions i) := by simp [total]
  refine ⟨hc.parts fun x hx => ⟨x, hp.subset (List.mem_cons_of_mem _ hx), .refl x⟩, by omega, ?_⟩
  have := hp.length_eq
  rw [List.length_cons] at this
  omega

theorem resolved_set (hc : Calm regions) (h : regions[i]? = some r) (hr : PartOf r1 r) (hpos : 0 < r1.len)
    (hlt : r1.len < r.len) : Resolved regions (regions.set i r1) := by
  have ht : total (regions.set i r1) + r.weight = total regions + r1.weight := total_set h
  unfold MemRegion.weight at ht
  exact ⟨hc.parts (parts_set h hr), by omega, by simp⟩

/-- A region that is split in two by one that lies within it and is not empty. -/
theorem resolved_split {r' : MemRegion} (hc : Calm regions) (h : regions[i]? = some r) (hr : PartOf r1 r) (hr' : PartOf r' r)
    (hpos : 0 < r1.len) (hpos' : 0 < r'.len) (hlt : r1.len + r'.len < r.len) :
    Resolved regions (regions.set i r1 ++ [r']) := by
  have ht : total (regions.set i r1) + r.weight = total regions + r1.weight := total_set h
  refine ⟨hc.parts fun x hx => ?_, ?_, by simp⟩
  · rcases List.mem_append.mp hx with hx | hx
    · exact parts_set h hr x hx
    · rw [List.mem_singleton.mp hx]
      exact ⟨r, List.mem_of_getElem? h, hr'⟩
  · have hone : total [r'] = r'.weight := by simp [total]
    rw [total_append, hone]
    unfold MemRegion.weight at ht ⊢
    omega

/-- **One overlap** makes the sum of the lengths smaller. -/
theorem overlap_spec (hc : Calm regions) (h1 : regions[i]? = some r1) (h2 : regions[j]? = some r2)
    (hle : r1.addr ≤ r2.addr) : overlap regions i j r1 r2 = none ∨ overlap regions i j r1 r2 = some (regions, false) ∨
      ∃ regions', overlap regions i j r1 r2 = some (regions', true) ∧ Resolved regions regions' := by
  have w1 := hc.noWrap r1 (List.mem_of_getElem? h1)
  have w2 := hc.noWrap r2 (List.mem_of_getElem? h2)
  have e1 : r1.end_ = r1.addr + r1.len := Nat.mod_eq_of_lt w1
  have e2 : r2.end_ = r2.addr + r2.len := Nat.mod_eq_of_lt w2
  -- an empty region that lies in the first one is not stricter, and it is removed
  have hpos (hlt : r2.addr < r1.addr + r1.len) (htype : r1.type < r2.type) : 0 < r2.len := by
    refine Nat.pos_of_ne_zero fun hempty => ?_
    have := hc.empty r1 (List.mem_of_getElem? h1) r2 (List.mem_of_getElem? h2) hempty htype
    omega
  unfold overlap
  dsimp only
  rw [e1, e2]
  split_ifs with c1 c2 c3 c4 c5 c6 c7 c8
  · exact Or.inr (Or.inl rfl)
  · exact Or.inr (Or.inr ⟨_, rfl, resolved_remove hc h2⟩)
  · exact Or.inr (Or.inr ⟨_, rfl, resolved_remove hc h1⟩)
  · have hp := hpos (by omega) (by omega)
    refine Or.inr (Or.inr ⟨_, rfl, resolved_set hc h1 ⟨rfl, ?_, ?_, fun h => ?_⟩ ?_ ?_⟩) <;> dsimp only at * <;> omega
  · have hp := hpos (by omega) (by omega)
    refine Or.inr (Or.inr ⟨_, rfl, resolved_set hc h1 ⟨rfl, ?_, ?_, fun h => ?_⟩ ?_ ?_⟩) <;> dsimp only at * <;> omega
  · -- the region is split in two
    have hp := hpos (by omega) (by omega)
    unfold appendMemRegion
    split_ifs
    · exact Or.inl rfl
    · refine Or.inr (Or.inr ⟨_, rfl, resolved_split hc h1 ⟨rfl, ?_, ?_, fun h => ?_⟩ ⟨rfl, ?_, ?_, fun h => ?_⟩ ?_ ?_ ?_⟩) <;>
        dsimp only at * <;> omega
  · refine Or.inr (Or.inr ⟨_, rfl, resolved_set hc h2 ⟨rfl, ?_, ?_, fun h => ?_⟩ ?_ ?_⟩) <;> dsimp only at * <;> omega
  · exact Or.inr (Or.inr ⟨_, rfl, resolved_remove hc h1⟩)
  · refine Or.inr (Or.inr ⟨_, rfl, resolved_set hc h1 ⟨rfl, ?_, ?_, fun h => ?_⟩ ?_ ?_⟩) <;> dsimp only at * <;> omega

/-- **`handle_region_overlap`** panics, finds no overlap, or makes the sum of the lengths smaller. -/
theorem handleRegionOverlap_spec (hc : Calm regions) (i j : Nat) :
    handleRegionOverlap regions i j = none ∨ handleRegionOverlap regions i j = some (regions, false) ∨
      ∃ regions', handleRegionOverlap regions i j = some (regions', true) ∧ Resolved regions regions' := by
  unfold handleRegionOverlap
  split
  · rename_i r1 r2 h1 h2
    split_ifs with hij hlt
    · exact Or.inr (Or.inl rfl)
    · exact overlap_spec hc h2 h1 (by omega)
    · exact overlap_spec hc h1 h2 (by omega)
  · exact Or.inr (Or.inl rfl)

/-- **The inner loop** ends; if there was an overlap the sum of the lengths is smaller. -/
theorem overlapPass_spec : ∀ {fuel : Nat} {regions : List MemRegion} {i : Nat} {b : Bool}, Calm regions →
    2 * total regions + (regions.length - i) < fuel →
    overlapPass fuel regions i b = some none ∨
    ∃ regions' b', overlapPass fuel regions i b = some (some (regions', b')) ∧ Calm regions' ∧
      total regions' ≤ total regions ∧ (b = false → b' = true → total regions' < total regions)
  | 0, _, _, _, _, hf => absurd hf (Nat.not_lt_zero _)
  | fuel + 1, regions, i, b, hs, hf => by
    rw [overlapPass]
    split_ifs with hi
    · rcases handleRegionOverlap_spec hs i (i + 1) with h | h | ⟨regions', h, hres⟩
      · exact Or.inl (by rw [h])
      · rw [h]
        dsimp only
        rw [Bool.or_false]
        exact overlapPass_spec hs (by omega)
      · rw [h]
        dsimp only
        have htot := hres.total
        have hlen := hres.length
        have hfuel : 2 * total regions' + (regions'.length - (i + 1)) < fuel := by omega
        rcases overlapPass_spec (b := b || true) hres.calm hfuel with hp | ⟨l, b', hp, hsl, hle, -⟩
        · exact Or.inl hp
        · exact Or.inr ⟨l, b', hp, hsl, by omega, fun _ _ => by omega⟩
    · refine Or.inr ⟨regions, b, rfl, hs, Nat.le_refl _, ?_⟩
      rintro rfl ⟨⟩

theorem length_le_total (regions : List MemRegion) : regions.length ≤ total regions := by
  have h := List.length_le_sum_of_one_le (regions.map MemRegion.weight) fun n hn => by
    obtain ⟨x, -, rfl⟩ := List.mem_map.mp hn
    exact Nat.le_max_right _ _
  rwa [List.length_map] at h

/-- The outer loop ends within a number of steps that the sum of the lengths gives. -/
theorem handleOverlappingRegions_isSome : ∀ {fuel : Nat} {regions : List MemRegion}, Calm regions →
    4 * total regions + 2 ≤ fuel → (handleOverlappingRegions fuel regions).isSome = true
  | 0, _, _, hf => absurd hf (by omega)
  | fuel + 1, regions, hs, hf => by
    have hlen := length_le_total regions
    rw [handleOverlappingRegions]
    rcases overlapPass_spec (b := false) (i := 0) hs (show 2 * total regions + (regions.length - 0) < fuel by omega) with
      h | ⟨regions', b, h, hs', -, hlt⟩
    · rw [h]
      rfl
    · rw [h]
      dsimp only
      split_ifs with hb
      · -- another round, on the sorted table
        have hp := sortMemRegions_perm regions'
        have hlt := hlt rfl hb
        have ht := total_perm hp
        exact handleOverlappingRegions_isSome (hs'.parts fun x hx => ⟨x, hp.subset hx, .refl x⟩) (by omega)
      · rfl

/-- A reserved page inside of a region of available memory, an empty available region in it, and an empty reserved one behind
them. -/
def calmRegions : List MemRegion := [⟨0x1000, 0x4000, 1, 0⟩, ⟨0x2000, 0x1000, 2, 0⟩, ⟨0x2000, 0, 1, 0⟩, ⟨0x5000, 0, 2, 0⟩]

/-- A page of available memory and an empty reserved region at its start. -/
def emptyReserved : List MemRegion := [⟨0x1000, 0x1000, 1, 0⟩, ⟨0x1000, 0, 2, 0⟩]

theorem handleRegionOverlap_emptyReserved : handleRegionOverlap emptyReserved 0 1 = some (emptyReserved, true) := by
  decide

theorem overlapPass_emptyReserved (fuel : Nat) : overlapPass fuel emptyReserved 0 false = none ∨
    overlapPass fuel emptyReserved 0 false = some (some (emptyReserved, true)) := by
  match fuel with
  | 0 => exact Or.inl rfl
  | 1 => exact Or.inl (by decide)
  | fuel + 2 =>
    refine Or.inr ?_
    rw [overlapPass, if_pos (by decide), handleRegionOverlap_emptyReserved]
    dsimp only
    rw [overlapPass, if_neg (by decide)]
    rfl

theorem handleOverlappingRegions_emptyReserved : ∀ fuel : Nat, handleOverlappingRegions fuel emptyReserved = none
  | 0 => rfl
  | fuel + 1 => by
    rw [handleOverlappingRegions]
    rcases overlapPass_emptyReserved fuel with h | h
    · rw [h]
    · rw [h]
      dsimp only
      rw [if_pos rfl, show sortMemRegions emptyReserved = emptyReserved by decide]
      exact handleOverlappingRegions_emptyReserved fuel

end Usax.Mm.SystemMmap
