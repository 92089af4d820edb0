import Usax.Kmalloc.Rep

/-!
# Looking for a free block

`search` does on the metadata nodes what `find` does on the buddy tree (`search_spec`): when there is no
free block it changes nothing, and when there is one it splits the free blocks around it. `markParents` then makes the
`full` bits of the ancestors those of the filled tree (`markParents_spec`).
-/

namespace Usax.Kmalloc

open Usax.Lib Usax.Lib.Buddy Common

variable {a : Option Nat} {m j : Nat}

theorem half_two_pow (k : Nat) : 2 ^ (k + 1) >>> 1 = 2 ^ k := by
  rw [Nat.shiftRight_eq_div_pow, pow_succ]
  simp

/-- What `search` ends with when it finds the hole of `c`, started at node `r`. -/
def Found (a : Option Nat) (m j k r : Nat) (h : KmallocHeap) (c : Ctx) (stack : List Nat)
    (res : Option SearchResult) : Prop :=
  ∃ f', res = some (.found (h.withNodes f') (node r c) (2 ^ (m + j)) (ancestors r c ++ stack)) ∧
    Writes k r h.metadataNodes f' ∧ RepCtx a f' r c j .free ∧ Rep a f' j (node r c) .free

theorem Found.up {k r : Nat} {h : KmallocHeap} {f : Nat → BlockNode} {c : Ctx} {b : Bool} {s : Buddy}
    {stack : List Nat} {res : Option SearchResult} (hfd : Found a m j k (child r b) (h.withNodes f) c (r :: stack) res)
    (hw : Writes (k + 1) r h.metadataNodes f) (hk : j + c.length = k) (hsp : (f r).split = true)
    (hfull : (f r).full = false) (hs : Rep a f k (child r !b) s) :
    Found a m j (k + 1) r h (c ++ [(b, s)]) stack res := by
  obtain ⟨f', hres, hw', hctx, hrep⟩ := hfd
  have hr : f' r = f r := hw'.outside r (fun hb => hb.ne_parent rfl)
  have hnf : (Buddy.plug c .free).isFull = false := isFull_plug_of_not rfl
  refine ⟨f', ?_, hw.trans (hw'.mono (fun i hi => hi.of_child)), ?_, by rw [node_append]; exact hrep⟩
  · rw [hres, node_append, ancestors_append]
    simp [node, ancestors]
  · refine RepCtx.append hctx ⟨by rw [show node r [] = r from rfl, hr]; exact hsp, ?_, ?_, trivial⟩
    · rw [show node r [] = r from rfl, hr, hfull, isFull_fill, hnf]; rfl
    · rw [hk]
      exact hs.congr (fun i hi => (hw'.outside i (fun hb => hb.sibling hi)).symm)

/-- What a call does after the one on its left child has returned. -/
def searchRight (size slots half r : Nat) (stack : List Nat) : SearchResult → Option SearchResult
  | .found h node nodeSize stack => some (.found h node nodeSize stack)
  | .null h => (h.node? (2 * r + 2)).bind fun right =>
      if !right.full then search size slots h half (2 * r + 2) (r :: stack) else some (.null h)

theorem search_succ {k slots r : Nat} {h h' : KmallocHeap} {stack : List Nat} (hj : j ≤ k)
    (hin : ∀ i, Below (k + 1) r i → i < h.metadataSize) (hfull : (h.metadataNodes r).full = false)
    (hh : h' = if (h.metadataNodes r).split then h
      else h.withNodes (Function.update h.metadataNodes r { h.metadataNodes r with split := true })) :
    search (2 ^ (m + j)) (slots + 1) h (2 ^ (m + (k + 1))) r stack =
      (if !(h'.metadataNodes (2 * r + 1)).full then
        search (2 ^ (m + j)) slots h' (2 ^ (m + k)) (2 * r + 1) (r :: stack) else some (.null h')).bind
      (searchRight (2 ^ (m + j)) slots (2 ^ (m + k)) r stack) := by
  have h₁ : r < h.metadataSize := hin r (Below.self _ _)
  have h₂ : 2 * r + 1 < h'.metadataSize := by
    rw [hh]; split <;> exact hin _ (Or.inr (Or.inl (Below.self _ _)))
  have hlt : ¬2 ^ (m + k) < 2 ^ (m + j) := not_lt.2 (Nat.pow_le_pow_right (by omega) (by omega))
  rw [search, KmallocHeap.node?_eq h₁]
  simp only [Option.bind_eq_bind, Option.bind_some, hfull, Bool.false_eq_true, ↓reduceIte, ← Nat.add_assoc,
    half_two_pow, hlt, nodeLeft, nodeRight]
  -- the `split` bit is written only when it is not set yet; from there both ways run alike
  cases hs : (h.metadataNodes r).split with
  | true =>
    rw [hs, if_pos rfl] at hh
    subst hh
    simp only [Bool.not_true, Bool.false_eq_true, ↓reduceIte, KmallocHeap.node?_eq h₂, Option.bind_some]
    cases (h'.metadataNodes (2 * r + 1)).full <;> rfl
  | false =>
    simp only [hs, Bool.false_eq_true, ↓reduceIte, hfull] at hh
    simp only [Bool.not_false, ↓reduceIte, KmallocHeap.setNode_eq h₁, Option.bind_some]
    rw [← hh, KmallocHeap.node?_eq h₂, Option.bind_some]
    cases (h'.metadataNodes (2 * r + 1)).full <;> rfl

theorem search_self {slots r : Nat} {h : KmallocHeap} {stack : List Nat} (hr : r < h.metadataSize) :
    search (2 ^ (m + j)) (slots + 1) h (2 ^ (m + j)) r stack =
      if isBlockNodeFree (h.metadataNodes r) then some (.found h r (2 ^ (m + j)) stack) else some (.null h) := by
  have hlt : 2 ^ (m + j) >>> 1 < 2 ^ (m + j) := by
    rw [Nat.shiftRight_eq_div_pow]
    exact Nat.div_lt_self (by positivity) (by decide)
  rw [search, KmallocHeap.node?_eq hr]
  simp only [Option.bind_eq_bind, Option.bind_some, hlt, isBlockNodeFree, ↓reduceIte]
  obtain ⟨s, f, al, fa⟩ := h.metadataNodes r
  cases f <;> cases s <;> rfl

theorem search_full {size slots r : Nat} {h : KmallocHeap} {nodeSize : Nat} {stack : List Nat}
    (hr : r < h.metadataSize) (hf : (h.metadataNodes r).full = true) :
    search size (slots + 1) h nodeSize r stack = some (.null h) := by
  rw [search, KmallocHeap.node?_eq hr]
  simp only [Option.bind_eq_bind, Option.bind_some, hf, ↓reduceIte]
  rfl

/-- **`search` is `find`**: nothing changes when there is no free block, and otherwise the free block that `find` finds
is found, with everything around it split. -/
theorem search_spec : ∀ {k slots r : Nat} {h : KmallocHeap} {u : Buddy} (stack : List Nat), j ≤ k → k - j < slots →
    (∀ i, Below k r i → i < h.metadataSize) → Rep a h.metadataNodes k r u →
    match find j k u with
    | none => search (2 ^ (m + j)) slots h (2 ^ (m + k)) r stack = some (.null h)
    | some c => Found a m j k r h c stack (search (2 ^ (m + j)) slots h (2 ^ (m + k)) r stack) := by
  intro k
  induction k with
  | zero =>
    intro slots r h u stack hj hs hin hrep
    obtain ⟨slots, rfl⟩ : ∃ n, slots = n + 1 := ⟨slots - 1, by omega⟩
    have hj : j = 0 := by omega
    subst hj
    rw [find_self, search_self (hin r (Below.self _ _))]
    by_cases hu : u = .free
    · subst hu
      simp only [↓reduceIte, hrep.isFree_iff.2]
      exact ⟨_, rfl, Writes.refl _ _ _, trivial, hrep⟩
    · have hb : isBlockNodeFree (h.metadataNodes r) = false := by
        rw [Bool.eq_false_iff]; exact fun e => hu (hrep.isFree_iff.1 e)
      simp only [hu, ↓reduceIte, hb, Bool.false_eq_true]
  | succ k ih =>
    intro slots r h u stack hj hs hin hrep
    obtain ⟨slots, rfl⟩ : ∃ n, slots = n + 1 := ⟨slots - 1, by omega⟩
    have hr : r < h.metadataSize := hin r (Below.self _ _)
    rcases Nat.lt_or_eq_of_le hj with hj | rfl
    · by_cases hfull : u.isFull = true
      · rw [find_full hfull]
        exact search_full hr (by rw [hrep.full, hfull])
      · have hfull : u.isFull = false := by simpa using hfull
        have hnf : (h.metadataNodes r).full = false := by rw [hrep.full, hfull]
        rw [find_succ (by omega) hfull, search_succ (by omega) hin hnf rfl]
        -- after the node is split, both of its halves are as before
        obtain ⟨f, hf, hsp, hff, hw⟩ : ∃ f, (if (h.metadataNodes r).split then h else h.withNodes
            (Function.update h.metadataNodes r { h.metadataNodes r with split := true })) = h.withNodes f ∧
            (f r).split = true ∧ (f r).full = false ∧ (Writes 0 r h.metadataNodes f) := by
          cases hs : (h.metadataNodes r).split with
          | true => exact ⟨_, rfl, hs, hnf, Writes.refl _ _ _⟩
          | false => exact ⟨_, rfl, by simp, by simp [hnf], Writes.update rfl id id⟩
        have hout : ∀ b i, Below k (child r b) i → h.metadataNodes i = f i :=
          fun b i hi => (hw.outside i (fun e => hi.ne_parent e)).symm
        have hw' : Writes (k + 1) r h.metadataNodes f := hw.mono (fun i hi => Or.inl hi)
        obtain ⟨hl, hr'⟩ := hrep.halves hfull
        have hl : Rep a f k (child r false) u.halves.1 := hl.congr (hout false)
        have hr' : Rep a f k (child r true) u.halves.2 := hr'.congr (hout true)
        have hinl : ∀ i, Below k (2 * r + 1) i → i < (h.withNodes f).metadataSize :=
          fun i hi => hin i (Or.inr (Or.inl hi))
        have hinr : ∀ i, Below k (2 * r + 2) i → i < (h.withNodes f).metadataSize :=
          fun i hi => hin i (Or.inr (Or.inr hi))
        have ihl := ih (r :: stack) (by omega) (show k - j < slots by omega) hinl hl
        have ihr := ih (r :: stack) (by omega) (show k - j < slots by omega) hinr hr'
        have hfl : (f (2 * r + 1)).full = u.halves.1.isFull := hl.full
        have hfr : (f (2 * r + 2)).full = u.halves.2.isFull := hr'.full
        rw [hf]
        simp only [KmallocHeap.withNodes_nodes, hfl]
        cases hfind : find j k u.halves.1 with
        | some c =>
          rw [hfind] at ihl
          have hnl : u.halves.1.isFull = false := by
            rw [Bool.eq_false_iff]; intro e; rw [find_full e] at hfind; cases hfind
          simp only [hnl, Bool.not_false, ↓reduceIte]
          obtain ⟨f', hres, hrest⟩ := Found.up (b := false) ihl hw' (find_length (by omega) hfind) hsp hff hr'
          refine ⟨f', ?_, hrest⟩
          rw [hres]
          rfl
        | none =>
          rw [hfind] at ihl
          -- the left half is not free, so the node was split before and nothing has changed so far
          have hh : h.withNodes f = h := by
            cases hs : (h.metadataNodes r).split with
            | true => rw [hs] at hf; simpa using hf.symm
            | false =>
              exfalso
              have : u = .free := by
                cases u with
                | free => rfl
                | used => cases hfull
                | split l r => rw [hrep.split_bit.2 ⟨l, r, rfl⟩] at hs; cases hs
              subst this
              obtain ⟨c, hc, _⟩ := find_free j (show j ≤ k by omega)
              rw [show find j k (halves Buddy.free).1 = find j k .free from rfl, hc] at hfind
              cases hfind
          have hleft : (if (!u.halves.1.isFull) = true then
              search (2 ^ (m + j)) slots (h.withNodes f) (2 ^ (m + k)) (2 * r + 1) (r :: stack)
              else some (.null (h.withNodes f))) = some (.null (h.withNodes f)) := by
            split
            · exact ihl
            · rfl
          rw [hleft]
          simp only [Option.bind_some, searchRight, KmallocHeap.node?_eq (hinr _ (Below.self _ _)),
            KmallocHeap.withNodes_nodes, hfr]
          cases hfind' : find j k u.halves.2 with
          | some c =>
            rw [hfind'] at ihr
            have hnr : u.halves.2.isFull = false := by
              rw [Bool.eq_false_iff]; intro e; rw [find_full e] at hfind'; cases hfind'
            simp only [hnr, Bool.not_false, ↓reduceIte, Option.map_some]
            exact Found.up (b := true) ihr hw' (find_length (by omega) hfind') hsp hff hl
          | none =>
            rw [hfind'] at ihr
            simp only [Option.map_none]
            split
            · rw [← hh]; exact ihr
            · rw [hh]
    · rw [find_self, search_self hr]
      by_cases hu : u = .free
      · subst hu
        simp only [↓reduceIte, hrep.isFree_iff.2]
        exact ⟨_, rfl, Writes.refl _ _ _, trivial, hrep⟩
      · have hb : isBlockNodeFree (h.metadataNodes r) = false := by
          rw [Bool.eq_false_iff]; exact fun e => hu (hrep.isFree_iff.1 e)
        simp only [hu, ↓reduceIte, hb, Bool.false_eq_true]

/-- **`markParents`**: once the hole is filled with `w`, the `full` bits around it become those of the filled tree. -/
theorem markParents_spec {r : Nat} : ∀ {c : Ctx} {j : Nat} {v w : Buddy} {h : KmallocHeap},
    RepCtx a h.metadataNodes r c j v → v.isFull = false → (h.metadataNodes (node r c)).full = w.isFull →
    (∀ i, Below (j + c.length) r i → i < h.metadataSize) →
    ∃ f, markParents h (ancestors r c) = some (h.withNodes f) ∧ RepCtx a f r c j w ∧
      (∀ i, Below j (node r c) i → f i = h.metadataNodes i) ∧ Writes (j + c.length) r h.metadataNodes f
  | [], _, _, _, h, _, _, _, _ => ⟨h.metadataNodes, rfl, trivial, fun _ _ => rfl, Writes.refl _ _ _⟩
  | fr :: c, j, v, w, h, hctx, hv, hw, hin => by
    rw [show j + (fr :: c).length = j + 1 + c.length by simp; omega] at hin ⊢
    have hlt : ∀ i, Below (j + 1) (node r c) i → i < h.metadataSize := fun i hi => hin i (below_node hi)
    have hboth : ((h.metadataNodes (2 * node r c + 1)).full && (h.metadataNodes (2 * node r c + 2)).full) =
        (fill fr w).isFull := by
      have hs : (h.metadataNodes (child (node r c) !fr.1)).full = fr.2.isFull := hctx.2.2.1.full
      rw [isFull_fill, ← hs, ← hw]
      obtain ⟨b, s⟩ := fr
      cases b
      · rfl
      · exact Bool.and_comm _ _
    -- the parent gets the `full` bit of the filled block
    obtain ⟨f, hstep, hp, hsp, hout, hwr⟩ : ∃ f, (if (fill fr w).isFull = true then
          h.modifyNode (node r c) (fun b => { b with full := true }) else some h) = some (h.withNodes f) ∧
        (f (node r c)).full = (fill fr w).isFull ∧ (f (node r c)).split = true ∧
        (∀ i, i ≠ node r c → f i = h.metadataNodes i) ∧ Writes (j + 1) (node r c) h.metadataNodes f := by
      cases hf : (fill fr w).isFull with
      | true =>
        exact ⟨Function.update h.metadataNodes (node r c) { h.metadataNodes (node r c) with full := true },
          by rw [if_pos rfl, KmallocHeap.modifyNode_eq (hlt _ (Below.self _ _))], by simp, by simpa using hctx.1,
          fun i hi => Function.update_of_ne hi _ _, Writes.update (Below.self _ _) id id⟩
      | false =>
        refine ⟨h.metadataNodes, if_neg Bool.false_ne_true, ?_, hctx.1, fun _ _ => rfl, Writes.refl _ _ _⟩
        rw [hctx.2.1, isFull_fill, hv]; rfl
    have hctx' : RepCtx a f r c (j + 1) (fill fr v) :=
      hctx.2.2.2.congr (fun i hi => (hout i (fun e => hi (e ▸ Below.self _ _))).symm)
    obtain ⟨f', hrun, hc', hin', hwr'⟩ := markParents_spec (h := h.withNodes f) (w := fill fr w) hctx'
      (by rw [isFull_fill, hv]; rfl) hp hin
    refine ⟨f', ?_, ⟨?_, ?_, ?_, hc'⟩, fun i hi => ?_, (hwr.mono (fun i hi => below_node hi)).trans hwr'⟩
    · rw [ancestors, markParents]
      simp only [nodeLeft, nodeRight, KmallocHeap.node?_eq (hlt _ (Or.inr (Or.inl (Below.self _ _)))),
        KmallocHeap.node?_eq (hlt _ (Or.inr (Or.inr (Below.self _ _)))), Option.bind_eq_bind, Option.bind_some, hboth]
      cases hf : (fill fr w).isFull with
      | true =>
        rw [hf, if_pos rfl] at hstep
        rw [if_pos rfl, hstep, Option.bind_some]
        exact hrun
      | false =>
        rw [hf, if_neg Bool.false_ne_true] at hstep
        rw [if_neg Bool.false_ne_true, Option.some.inj hstep]
        exact hrun
    · rw [hin' _ (Below.self _ _)]; exact hsp
    · rw [hin' _ (Below.self _ _)]; exact hp
    · refine hctx.2.2.1.congr (fun i hi => ?_)
      rw [hin' i hi.of_child]
      exact (hout i (fun e => hi.ne_parent e)).symm
    · rw [hin' i hi.of_child]
      exact hout i (fun e => hi.ne_parent e)

end Usax.Kmalloc
