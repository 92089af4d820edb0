import Mathlib.Data.List.Perm.Subperm
import Usax.Bintree.Avl

/-!
# Visits in order

`bintree_in_order_visit_internal` and the iterator (`bintree_in_order_visit_start`, `bintree_in_order_visit_next`) simulate a
recursion with the macros of `norec.h`: a stack of calls, each with its argument and the label to which it returns. A call
that returns leaves its label above the stack, from where the caller reads it, and so does an iterator that is suspended.
The label above the stack is also written when the last entry of the array is taken: then it is out of bounds, for an
iterator in `ctx->stack_size`.

What is still to be visited is a function of the stack (`rest`), and every pass of the loop keeps it (`pass_spec`).
The main result is `Reachable.visits`: the iterator returns the objects in order, as the callback is called, exactly if the
tree is lower than the stack.
-/

namespace Usax.Bintree

open Usax.Bintree.Tree

variable {α : Type} {rev : Bool} {x : α} {h : Nat} {t l r : Tree α}

/-! ## The loop -/

/-- The labels: after the call that starts, after the call for the first child, after the visit, and after the call for the
second child. -/
inductive Label
  | start | afterFirst | afterVisit | afterSecond
deriving DecidableEq, Repr

/-- `struct explicit_stack_elem1`: the label, and the object that is the argument with `left_obj` and `right_obj`, the other
way around in reverse. -/
structure Call (α : Type) where
  retAddr : Label
  obj : α
  first : Tree α
  second : Tree α

/-- The stack, the latest call first, and `ret_addr` of the entry above it. -/
structure Walk (α : Type) where
  stack : List (Call α)
  above : Option Label

inductive Pass (α : Type)
  | again (w : Walk α)
  | visit (x : α) (w : Walk α)
  | overflow
  | done

/-- `SIMULATE_CALL1`. -/
def simulateCall (rev : Bool) (retAddr : Label) (stack : List (Call α)) : Tree α → Pass α
  | .nil => .done
  | .node x _ l r =>
    if stack.length + 1 < maxTreeHeight then
      .again ⟨⟨retAddr, x, if rev then r else l, if rev then l else r⟩ :: stack, none⟩
    else .overflow

/-- One pass of the loop. The label of the call that starts is not jumped to: the stack is empty then. -/
def pass (rev : Bool) (w : Walk α) : Pass α :=
  match w.stack with
  | [] => .done
  | e :: stack =>
    match w.above with
    | none =>
      match e.first with
      | .nil => .visit e.obj ⟨w.stack, some .afterVisit⟩
      | t => simulateCall rev .afterFirst w.stack t
    | some .afterFirst => .visit e.obj ⟨w.stack, some .afterVisit⟩
    | some .afterVisit =>
      match e.second with
      | .nil => .again ⟨stack, some e.retAddr⟩
      | t => simulateCall rev .afterSecond w.stack t
    | some .afterSecond => .again ⟨stack, some e.retAddr⟩
    | some .start => .again ⟨stack, some e.retAddr⟩

/-! ## The callers -/

def startCall (rev : Bool) : Tree α → Walk α
  | .nil => ⟨[], none⟩
  | .node x _ l r => ⟨[⟨.start, x, if rev then r else l, if rev then l else r⟩], none⟩

/-- The loop of `bintree_in_order_visit_internal`: the objects that the callback was called with, and the code it returned
last. Out of bounds of its own stack there is no result. -/
def visitLoop (rev : Bool) (cb : α → Int) : Nat → Walk α → Option (List α × Int)
  | 0, _ => none
  | fuel + 1, w =>
    match pass rev w with
    | .again w => visitLoop rev cb fuel w
    | .visit x w => if cb x ≠ 0 then some ([x], cb x) else (visitLoop rev cb fuel w).map fun p => (x :: p.1, p.2)
    | .overflow => none
    | .done => some ([], 0)

/-- `bintree_in_order_visit_internal`. -/
def inOrderVisit (rev : Bool) (cb : α → Int) (fuel : Nat) (t : Tree α) : Option (List α × Int) :=
  visitLoop rev cb fuel (startCall rev t)

structure WalkCtx (α : Type) where
  walk : Walk α
  obj : Tree α
  reverse : Bool
  nextCalled : Bool

/-- `bintree_in_order_visit_start_internal`. -/
def visitStart (t : Tree α) (reverse : Bool) : WalkCtx α := ⟨⟨[], none⟩, t, reverse, false⟩

/-- The loop of `bintree_in_order_visit_next`. Out of bounds `stack_size` is set to 0. -/
def nextLoop (rev : Bool) : Nat → Walk α → Option (Walk α × Option α)
  | 0, _ => none
  | fuel + 1, w =>
    match pass rev w with
    | .again w => nextLoop rev fuel w
    | .visit x w => some (w, some x)
    | .overflow => some (⟨[], none⟩, none)
    | .done => some (w, none)

def visitNext (fuel : Nat) (ctx : WalkCtx α) : Option (WalkCtx α × Option α) :=
  (nextLoop ctx.reverse fuel (if ctx.nextCalled then ctx.walk else startCall ctx.reverse ctx.obj)).map fun p =>
    ({ ctx with walk := p.1, nextCalled := true }, p.2)

/-- What some calls of `bintree_in_order_visit_next` return. -/
def nexts (fuel : Nat) : Nat → WalkCtx α → Option (List (Option α))
  | 0, _ => some []
  | k + 1, ctx => do
    let (ctx, x) ← visitNext fuel ctx
    return x :: (← nexts fuel k ctx)

/-! ## What is still to be visited -/

def ordered (rev : Bool) (t : Tree α) : List α := if rev then t.toList.reverse else t.toList

theorem ordered_node : ordered rev (node x h l r) =
    ordered rev (if rev then r else l) ++ x :: ordered rev (if rev then l else r) := by
  cases rev <;> simp [ordered, toList]

@[simp] theorem ordered_nil : ordered rev (nil : Tree α) = [] := by
  cases rev <;> rfl

def Call.rest (rev : Bool) (e : Call α) : Option Label → List α
  | none => ordered rev e.first ++ e.obj :: ordered rev e.second
  | some .afterFirst => e.obj :: ordered rev e.second
  | some .afterVisit => ordered rev e.second
  | some .afterSecond => []
  | some .start => []

def rest (rev : Bool) : List (Call α) → Option Label → List α
  | [], _ => []
  | e :: stack, above => e.rest rev above ++ rest rev stack (some e.retAddr)

/-- A bound of the passes that a call still needs. -/
def Call.work (e : Call α) : Option Label → Nat
  | none => 4 * (e.first.toList.length + e.second.toList.length) + 4
  | some .afterFirst => 4 * e.second.toList.length + 3
  | some .afterVisit => 4 * e.second.toList.length + 2
  | some .afterSecond => 1
  | some .start => 1

def work : List (Call α) → Option Label → Nat
  | [], _ => 0
  | e :: stack, above => e.work above + work stack (some e.retAddr)

/-- The children of a call and the calls below it do not fill the stack. -/
def Low : List (Call α) → Prop
  | [] => True
  | e :: stack => max e.first.levels e.second.levels + stack.length + 1 < maxTreeHeight ∧ Low stack

theorem simulateCall_spec (rev : Bool) (retAddr : Label) {e : Call α} {stack : List (Call α)} (ht : t ≠ .nil)
    (hlow : Low (e :: stack)) (hle : t.levels ≤ max e.first.levels e.second.levels) :
    ∃ e', simulateCall rev retAddr (e :: stack) t = .again ⟨e' :: e :: stack, none⟩ ∧ e'.retAddr = retAddr ∧
      e'.rest rev none = ordered rev t ∧ e'.work none = 4 * t.toList.length ∧ Low (e' :: e :: stack) := by
  cases t with
  | nil => exact absurd rfl ht
  | node x h l r =>
    have hlev : (node x h l r).levels = max l.levels r.levels + 1 := rfl
    have hlow₁ := hlow.1
    have hroom : (e :: stack).length + 1 < maxTreeHeight := by
      rw [List.length_cons]
      omega
    rw [simulateCall, if_pos hroom]
    refine ⟨_, rfl, rfl, ordered_node.symm, ?_, ?_, hlow⟩
    · cases rev <;> simp [Call.work, toList] <;> omega
    · have : max (if rev then r else l).levels (if rev then l else r).levels = max l.levels r.levels := by
        cases rev <;> simp [Nat.max_comm]
      rw [this, List.length_cons]
      omega

def PassOk (rev : Bool) (w : Walk α) : Pass α → Prop
  | .again w' => Low w'.stack ∧ rest rev w'.stack w'.above = rest rev w.stack w.above ∧
      work w'.stack w'.above < work w.stack w.above
  | .visit x w' => Low w'.stack ∧ rest rev w.stack w.above = x :: rest rev w'.stack w'.above ∧
      work w'.stack w'.above < work w.stack w.above
  | .overflow => False
  | .done => w.stack = []

/-- **One pass** visits the next object or goes on with the same rest. -/
theorem pass_spec {w : Walk α} (hlow : Low w.stack) : PassOk rev w (pass rev w) := by
  obtain ⟨stack, above⟩ := w
  cases stack with
  | nil => rfl
  | cons e stack =>
    unfold pass
    cases above with
    | none =>
      dsimp only
      cases hfirst : e.first with
      | nil => exact ⟨hlow, by simp [rest, Call.rest, hfirst], by simp [work, Call.work]; omega⟩
      | node x h l r =>
        obtain ⟨e', hcall, hret, hrest, hwork, hlow'⟩ := simulateCall_spec rev .afterFirst (t := e.first)
          (by rw [hfirst]; exact nofun) hlow (le_max_left _ _)
        rw [hfirst] at hcall
        dsimp only
        rw [hcall]
        refine ⟨hlow', ?_, ?_⟩
        · rw [rest, hrest, hret, rest, rest, Call.rest, Call.rest, List.append_assoc]
        · rw [work, hwork, hret, work, work, Call.work, Call.work]
          omega
    | some label =>
      cases label with
      | start => exact ⟨hlow.2, rfl, by simp [work, Call.work]⟩
      | afterSecond => exact ⟨hlow.2, rfl, by simp [work, Call.work]⟩
      | afterFirst => exact ⟨hlow, rfl, by simp [work, Call.work]⟩
      | afterVisit =>
        dsimp only
        cases hsecond : e.second with
        | nil => exact ⟨hlow.2, by simp [rest, Call.rest, hsecond], by simp [work, Call.work]⟩
        | node x h l r =>
          obtain ⟨e', hcall, hret, hrest, hwork, hlow'⟩ := simulateCall_spec rev .afterSecond (t := e.second)
            (by rw [hsecond]; exact nofun) hlow (le_max_right _ _)
          rw [hsecond] at hcall
          dsimp only
          rw [hcall]
          refine ⟨hlow', ?_, ?_⟩
          · rw [rest, hrest, hret, rest, rest, Call.rest, Call.rest, List.nil_append]
          · rw [work, hwork, hret, work, work, Call.work, Call.work]
            omega

/-! ## Whole visits -/

variable (rev) in
/-- **One call of the iterator** returns the first object of the rest, if there is one. -/
theorem nextLoop_spec : ∀ {fuel : Nat} {w : Walk α}, Low w.stack → work w.stack w.above < fuel →
    ∃ w', nextLoop rev fuel w = some (w', (rest rev w.stack w.above).head?) ∧ Low w'.stack ∧
      rest rev w'.stack w'.above = (rest rev w.stack w.above).tail ∧ work w'.stack w'.above ≤ work w.stack w.above
  | 0, _, _, hwork => absurd hwork (Nat.not_lt_zero _)
  | fuel + 1, w, hlow, hwork => by
    have hp : PassOk rev w (pass rev w) := pass_spec hlow
    rw [nextLoop]
    split <;> rename_i hpass <;> rw [hpass] at hp
    · obtain ⟨hlow', hrest, hlt⟩ := hp
      obtain ⟨w', hrun, h₁, h₂, h₃⟩ := nextLoop_spec hlow' (show _ < fuel by omega)
      rw [hrest] at hrun h₂
      exact ⟨w', hrun, h₁, h₂, by omega⟩
    · obtain ⟨hlow', hrest, hlt⟩ := hp
      exact ⟨_, by rw [hrest]; rfl, hlow', by rw [hrest]; rfl, by omega⟩
    · exact hp.elim
    · have hnil : rest rev w.stack w.above = [] := by
        rw [show w.stack = [] from hp]
        rfl
      exact ⟨w, by rw [hnil]; rfl, hlow, by rw [hnil]; rfl, le_refl _⟩

def visited (cb : α → Int) : List α → List α × Int
  | [] => ([], 0)
  | x :: xs => if cb x ≠ 0 then ([x], cb x) else (x :: (visited cb xs).1, (visited cb xs).2)

/-- **The loop with a callback** goes through the rest until the callback returns an error. -/
theorem visitLoop_spec {cb : α → Int} : ∀ {fuel : Nat} {w : Walk α}, Low w.stack → work w.stack w.above < fuel →
    visitLoop rev cb fuel w = some (visited cb (rest rev w.stack w.above))
  | 0, _, _, hwork => absurd hwork (Nat.not_lt_zero _)
  | fuel + 1, w, hlow, hwork => by
    have hp : PassOk rev w (pass rev w) := pass_spec hlow
    rw [visitLoop]
    split <;> rename_i hpass <;> rw [hpass] at hp
    · obtain ⟨hlow', hrest, hlt⟩ := hp
      rw [visitLoop_spec hlow' (by omega), hrest]
    · obtain ⟨hlow', hrest, hlt⟩ := hp
      rw [visitLoop_spec hlow' (by omega), hrest, visited]
      split_ifs <;> rfl
    · exact hp.elim
    · rw [show w.stack = [] from hp]
      rfl

theorem nexts_spec {fuel : Nat} : ∀ (k : Nat) {ctx : WalkCtx α}, ctx.nextCalled = true → Low ctx.walk.stack →
    work ctx.walk.stack ctx.walk.above < fuel →
    nexts fuel k ctx = some ((List.range k).map fun i => (rest ctx.reverse ctx.walk.stack ctx.walk.above)[i]?)
  | 0, _, _, _, _ => rfl
  | k + 1, ctx, hc, hlow, hwork => by
    obtain ⟨w', hrun, hlow', hrest, hle⟩ := nextLoop_spec ctx.reverse hlow hwork
    have hlt : work w'.stack w'.above < fuel := by omega
    have ih : nexts fuel k { ctx with walk := w', nextCalled := true } = some _ := nexts_spec k rfl hlow' hlt
    rw [nexts, visitNext, if_pos hc, hrun, Option.map_some]
    simp only [Option.bind_eq_bind, Option.bind_some, ih, hrest, List.range_succ_eq_map, List.map_cons, List.map_map]
    cases rest ctx.reverse ctx.walk.stack ctx.walk.above <;> rfl

theorem startCall_spec (rev : Bool) (ht : t.levels < maxTreeHeight) : Low (startCall rev t).stack ∧
    rest rev (startCall rev t).stack (startCall rev t).above = ordered rev t ∧
    work (startCall rev t).stack (startCall rev t).above = 4 * t.toList.length := by
  cases t with
  | nil => exact ⟨trivial, ordered_nil.symm, rfl⟩
  | node x h l r =>
    have hlev : (node x h l r).levels = max l.levels r.levels + 1 := rfl
    refine ⟨⟨?_, trivial⟩, ?_, ?_⟩
    · cases rev <;> simp <;> omega
    · rw [ordered_node]
      simp [startCall, rest, Call.rest]
    · cases rev <;> simp [startCall, work, Call.work, toList] <;> omega

/-- The iterator returns the objects in order and then `NULL`, and the callback is called with them in the same order. -/
def VisitsInOrder (t : Tree α) (rev : Bool) : Prop :=
  (∀ k, ∃ m, ∀ fuel, m ≤ fuel →
    nexts fuel k (visitStart t rev) = some ((List.range k).map fun i => (ordered rev t)[i]?)) ∧
  ∀ cb, ∃ m, ∀ fuel, m ≤ fuel → inOrderVisit rev cb fuel t = some (visited cb (ordered rev t))

/-- **A tree that is lower than the stack.** -/
theorem visitsInOrder (ht : t.levels < maxTreeHeight) : VisitsInOrder t rev := by
  obtain ⟨hlow, hrest, hwork⟩ := startCall_spec rev ht
  refine ⟨fun k => ⟨4 * t.toList.length + 1, fun fuel hfuel => ?_⟩,
    fun cb => ⟨4 * t.toList.length + 1, fun fuel hfuel => ?_⟩⟩
  · cases k with
    | zero => rfl
    | succ k =>
      -- the first call starts the walk, as if it had been started before
      have hsame : nexts fuel (k + 1) (visitStart t rev) = nexts fuel (k + 1) ⟨startCall rev t, t, rev, true⟩ := rfl
      rw [hsame, nexts_spec (k + 1) rfl hlow (by rw [hwork]; omega), hrest]
  · rw [inOrderVisit, visitLoop_spec hlow (by rw [hwork]; omega), hrest]

/-! ## Trees that are too high -/

def upTo : Nat → Tree α → List α
  | 0, _ => []
  | _, .nil => []
  | n + 1, .node x _ l r => upTo n l ++ x :: upTo n r

theorem length_upTo_le : ∀ (n : Nat) (t : Tree α), (upTo n t).length ≤ t.toList.length
  | 0, _ => Nat.zero_le _
  | _ + 1, .nil => Nat.zero_le _
  | n + 1, .node x h l r => by
    have hl := length_upTo_le n l
    have hr := length_upTo_le n r
    simp only [upTo, toList, List.length_append, List.length_cons]
    omega

theorem length_upTo_lt : ∀ {n : Nat} {t : Tree α}, n < t.levels → (upTo n t).length < t.toList.length
  | _, .nil, hn => absurd hn (Nat.not_lt_zero _)
  | 0, .node x h l r, _ => by
    simp only [upTo, toList, List.length_nil, List.length_append, List.length_cons]
    omega
  | n + 1, .node x h l r, hn => by
    have hn' : n + 1 < max l.levels r.levels + 1 := hn
    have hl := length_upTo_le n l
    have hr := length_upTo_le n r
    simp only [upTo, toList, List.length_append, List.length_cons]
    rcases Nat.lt_or_ge n l.levels with hlt | hge
    · have := length_upTo_lt hlt
      omega
    · have := length_upTo_lt (show n < r.levels by omega)
      omega

/-- The calls are for objects of `s`, and so are the calls that can follow. -/
def Within (s : List α) : List (Call α) → Prop
  | [] => True
  | e :: stack => e.obj ∈ s ∧ (∀ y ∈ upTo (maxTreeHeight - 1 - (stack.length + 1)) e.first, y ∈ s) ∧
      (∀ y ∈ upTo (maxTreeHeight - 1 - (stack.length + 1)) e.second, y ∈ s) ∧ Within s stack

def PassWithin (s : List α) : Pass α → Prop
  | .again w => Within s w.stack
  | .visit x w => x ∈ s ∧ Within s w.stack
  | .overflow => True
  | .done => True

theorem simulateCall_within {s : List α} {retAddr : Label} {stack : List (Call α)} (hw : Within s stack)
    (ht : ∀ y ∈ upTo (maxTreeHeight - 1 - stack.length) t, y ∈ s) : PassWithin s (simulateCall rev retAddr stack t) := by
  cases t with
  | nil => trivial
  | node x h l r =>
    rw [simulateCall]
    split
    · rename_i hroom
      rw [show maxTreeHeight - 1 - stack.length = maxTreeHeight - 1 - (stack.length + 1) + 1 by omega] at ht
      have hx : x ∈ s := ht x (by simp [upTo])
      have hl : ∀ y ∈ upTo (maxTreeHeight - 1 - (stack.length + 1)) l, y ∈ s := fun y hy => ht y (by simp [upTo, hy])
      have hr : ∀ y ∈ upTo (maxTreeHeight - 1 - (stack.length + 1)) r, y ∈ s := fun y hy => ht y (by simp [upTo, hy])
      cases rev
      · exact ⟨hx, hl, hr, hw⟩
      · exact ⟨hx, hr, hl, hw⟩
    · trivial

theorem pass_within {s : List α} {w : Walk α} (hw : Within s w.stack) : PassWithin s (pass rev w) := by
  obtain ⟨stack, above⟩ := w
  cases stack with
  | nil => trivial
  | cons e stack =>
    obtain ⟨hobj, hfirst, hsecond, hstack⟩ := id hw
    unfold pass
    cases above with
    | none =>
      dsimp only
      split
      · exact ⟨hobj, hw⟩
      · exact simulateCall_within hw hfirst
    | some label =>
      cases label with
      | start => exact hstack
      | afterSecond => exact hstack
      | afterFirst => exact ⟨hobj, hw⟩
      | afterVisit =>
        dsimp only
        split
        · exact hstack
        · exact simulateCall_within hw hsecond

theorem nextLoop_within {s : List α} : ∀ {fuel : Nat} {w : Walk α} {r : Walk α × Option α}, Within s w.stack →
    nextLoop rev fuel w = some r → Within s r.1.stack ∧ ∀ x, r.2 = some x → x ∈ s
  | 0, _, _, _, hrun => by cases hrun
  | fuel + 1, w, r, hw, hrun => by
    have hp : PassWithin s (pass rev w) := pass_within hw
    rw [nextLoop] at hrun
    split at hrun <;> rename_i hpass <;> rw [hpass] at hp
    · exact nextLoop_within hp hrun
    · cases hrun
      refine ⟨hp.2, ?_⟩
      rintro _ ⟨⟩
      exact hp.1
    · cases hrun
      exact ⟨trivial, nofun⟩
    · cases hrun
      exact ⟨hw, nofun⟩

theorem nexts_within {s : List α} {fuel : Nat} : ∀ {k : Nat} {ctx : WalkCtx α} {xs : List (Option α)},
    Within s (if ctx.nextCalled then ctx.walk else startCall ctx.reverse ctx.obj).stack → nexts fuel k ctx = some xs →
    ∀ x, some x ∈ xs → x ∈ s
  | 0, _, _, _, hrun => by
    cases hrun
    simp
  | k + 1, ctx, xs, hw, hrun => by
    obtain ⟨⟨ctx', o⟩, hnext, hrun⟩ := Option.bind_eq_some_iff.mp hrun
    obtain ⟨ys, hys, hret⟩ := Option.bind_eq_some_iff.mp hrun
    obtain ⟨⟨w, o'⟩, hloop, heq⟩ := Option.map_eq_some_iff.mp hnext
    obtain ⟨hw', ho⟩ := nextLoop_within hw hloop
    cases heq
    cases hret
    intro x hx
    rcases List.mem_cons.mp hx with hx | hx
    · exact ho x hx.symm
    · exact nexts_within (by simpa using hw') hys x hx

/-- **A tree that is as high as the stack**: an object below the stack is not visited. -/
theorem not_visitsInOrder (hn : t.toList.Nodup) (ht : maxTreeHeight ≤ t.levels) : ¬VisitsInOrder t rev := by
  intro hv
  obtain ⟨m, hm⟩ := hv.1 t.toList.length
  have hrun := hm m (le_refl m)
  have hstart : Within (upTo (maxTreeHeight - 1) t) (startCall rev t).stack := by
    cases t with
    | nil => trivial
    | node x h l r =>
      rw [show maxTreeHeight - 1 = maxTreeHeight - 1 - 1 + 1 from rfl, upTo]
      generalize hs : upTo (maxTreeHeight - 1 - 1) l ++ x :: upTo (maxTreeHeight - 1 - 1) r = s
      have hx : x ∈ s := by simp [← hs]
      have hl : ∀ y ∈ upTo (maxTreeHeight - 1 - 1) l, y ∈ s := fun y hy => by simp [← hs, hy]
      have hr : ∀ y ∈ upTo (maxTreeHeight - 1 - 1) r, y ∈ s := fun y hy => by simp [← hs, hy]
      cases rev
      · exact ⟨hx, hl, hr, trivial⟩
      · exact ⟨hx, hr, hl, trivial⟩
  have hsub : t.toList ⊆ upTo (maxTreeHeight - 1) t := by
    intro y hy
    have hy' : y ∈ ordered rev t := by cases rev <;> simpa [ordered] using hy
    obtain ⟨i, hi, rfl⟩ := List.mem_iff_getElem.mp hy'
    refine nexts_within hstart hrun _ (List.mem_map.mpr ⟨i, ?_, List.getElem?_eq_getElem hi⟩)
    have : (ordered rev t).length = t.toList.length := by cases rev <;> simp [ordered]
    exact List.mem_range.mpr (this ▸ hi)
  have hle := (List.subperm_of_subset hn hsub).length_le
  have hlt := length_upTo_lt (show maxTreeHeight - 1 < t.levels by rw [maxTreeHeight] at ht ⊢; omega)
  omega

/-- **The visits of a tree**: its objects are sorted, and the iterator returns them in order or in reverse, each once and
then `NULL`, as the callback is called, exactly if the tree is lower than the stack. -/
theorem Reachable.visits {cmp : α → α → Int} (ho : TotalOrder cmp) (hr : Reachable cmp t) :
    t.toList.Pairwise (cmp · · < 0) ∧ ∀ rev, VisitsInOrder t rev ↔ t.levels < maxTreeHeight := by
  have hk := hr.ok ho
  refine ⟨hk.sorted, fun rev => ⟨fun hv => ?_, visitsInOrder⟩⟩
  exact not_le.mp fun hge => not_visitsInOrder (hk.nodup ho) hge hv

theorem Reachable.visits_sampleTree : sampleTree.toList = [1, 3, 4, 5] ∧ VisitsInOrder sampleTree false ∧
    VisitsInOrder sampleTree true :=
  have hvisits := (Reachable.visits intCmp_totalOrder reachable_sampleTree).2
  ⟨rfl, (hvisits false).2 (by decide), (hvisits true).2 (by decide)⟩

/-- A tree of integers that is as high as the stack. -/
theorem visits_cut_short : ∃ t : Tree Int, Reachable intCmp t ∧ ¬VisitsInOrder t false ∧ ¬VisitsInOrder t true := by
  obtain ⟨t, hr, -, hlev⟩ := exists_high
  have hn : t.toList.Nodup := (hr.ok intCmp_totalOrder).nodup intCmp_totalOrder
  exact ⟨t, hr, not_visitsInOrder hn hlev, not_visitsInOrder hn hlev⟩

end Usax.Bintree
