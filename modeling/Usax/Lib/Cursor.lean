import Mathlib.Data.List.Nodup

/-!
# Cursors in a list

The elements of a list are known by their keys, and a cursor is the key of the element it stands at, or nothing at the end.
`Cursor.rest` has the elements from the cursor on. Adding an element at the end of the list, taking out another element and
taking out the element at the cursor, after it has moved on (`next`), do to it what they do to a list (`rest_append`,
`rest_remove`, `rest_remove_next`).
-/

namespace Usax.Lib.Cursor

variable {α κ : Type}

/-- The cursor stands at an element, or at the end. -/
def Valid (key : α → κ) (l : List α) (p : Option κ) : Prop := ∀ a ∈ p, ∃ x ∈ l, key x = a

section

variable {key : α → κ} {l : List α} {p : Option κ}

theorem valid_head {m : List α} (h : ∀ x ∈ m, x ∈ l) : Valid key l (m.head?.map key) := by
  intro a ha
  obtain ⟨x, hx, rfl⟩ := Option.map_eq_some_iff.mp ha
  exact ⟨x, h x (List.mem_of_head? hx), rfl⟩

theorem valid_append (h : Valid key l p) (m : List α) : Valid key (l ++ m) p := fun a ha => by
  obtain ⟨x, hx, hxa⟩ := h a ha
  exact ⟨x, List.mem_append_left m hx, hxa⟩

theorem exists_split {a : κ} (h : ∃ x ∈ l, key x = a) : ∃ l₁ x l₂, l = l₁ ++ x :: l₂ ∧ key x = a := by
  obtain ⟨x, hx, rfl⟩ := h
  obtain ⟨l₁, l₂, rfl⟩ := List.append_of_mem hx
  exact ⟨l₁, x, l₂, rfl, rfl⟩

end

variable [DecidableEq κ] (key : α → κ)

/-- The elements from the cursor on. -/
def rest (l : List α) : Option κ → List α
  | none => []
  | some a => l.dropWhile fun x => key x ≠ a

/-- The cursor at the element after the one with the key. -/
def next (l : List α) (a : κ) : Option κ := (rest key l (some a)).tail.head?.map key

/-- The list without the element with the key. -/
def remove (l : List α) (a : κ) : List α := l.filter fun x => key x ≠ a

variable {key} {l l₁ l₂ : List α} {x : α} {a b : κ} {p : Option κ}

theorem rest_cons_self : rest key (x :: l) (some (key x)) = x :: l := by
  simp [rest]

theorem rest_cons_of_ne (h : key x ≠ a) : rest key (x :: l) (some a) = rest key l (some a) := by
  simp [rest, h]

theorem rest_split : ∀ {l₁ : List α}, ((l₁ ++ x :: l₂).map key).Nodup → rest key (l₁ ++ x :: l₂) (some (key x)) = x :: l₂
  | [], _ => rest_cons_self
  | y :: l₁, h => by
    rw [List.cons_append, List.map_cons, List.nodup_cons] at h
    have hne : key y ≠ key x := fun he => h.1 (he ▸ List.mem_map_of_mem (by simp))
    rw [List.cons_append, rest_cons_of_ne hne]
    exact rest_split h.2

theorem rest_isSuffix : ∀ p : Option κ, rest key l p <:+ l
  | none => List.nil_suffix
  | some _ => List.dropWhile_suffix _

theorem rest_head : rest key l (l.head?.map key) = l := by
  cases l with
  | nil => rfl
  | cons x l => exact rest_cons_self

theorem rest_suffix (h : ((l₁ ++ l₂).map key).Nodup) : rest key (l₁ ++ l₂) (l₂.head?.map key) = l₂ := by
  cases l₂ with
  | nil => rfl
  | cons x l₂ => exact rest_split h

theorem valid_next (l : List α) (a : κ) : Valid key l (next key l a) :=
  valid_head fun _ hx => (rest_isSuffix (some a)).subset (List.mem_of_mem_tail hx)

theorem rest_append : ∀ {l : List α}, (∃ x ∈ l, key x = a) → ∀ m, rest key (l ++ m) (some a) = rest key l (some a) ++ m
  | [], h, _ => by simp at h
  | x :: l, h, m => by
    by_cases hx : key x = a
    · subst hx
      rw [List.cons_append, rest_cons_self, rest_cons_self, List.cons_append]
    · rw [List.cons_append, rest_cons_of_ne hx, rest_cons_of_ne hx]
      exact rest_append (by simpa [hx] using h) m

theorem nodup_remove (h : (l.map key).Nodup) (a : κ) : ((remove key l a).map key).Nodup :=
  h.sublist (List.filter_sublist.map key)

theorem mem_remove : x ∈ remove key l a ↔ x ∈ l ∧ key x ≠ a := by
  simp [remove]

theorem valid_remove (h : Valid key l p) (hp : p ≠ some b) : Valid key (remove key l b) p := fun a ha => by
  obtain ⟨x, hx, rfl⟩ := h a ha
  exact ⟨x, mem_remove.mpr ⟨hx, fun he => hp (he ▸ ha)⟩, rfl⟩

theorem rest_remove (h : (l.map key).Nodup) (ha : ∃ x ∈ l, key x = a) (hab : a ≠ b) :
    rest key (remove key l b) (some a) = remove key (rest key l (some a)) b := by
  obtain ⟨l₁, x, l₂, rfl, rfl⟩ := exists_split ha
  have hn := nodup_remove h b
  rw [rest_split h]
  unfold remove at hn ⊢
  rw [List.filter_append, List.filter_cons_of_pos (by simpa using hab)] at hn ⊢
  exact rest_split hn

theorem rest_remove_next (h : (l.map key).Nodup) (ha : ∃ x ∈ l, key x = a) :
    rest key (remove key l a) (next key l a) = remove key (rest key l (some a)) a ∧
      Valid key (remove key l a) (next key l a) := by
  obtain ⟨l₁, x, l₂, rfl, rfl⟩ := exists_split ha
  have hn := nodup_remove h (key x)
  have hl₂ : remove key l₂ (key x) = l₂ := by
    rw [List.map_append, List.map_cons, List.nodup_append, List.nodup_cons] at h
    refine List.filter_eq_self.mpr fun y hy => decide_eq_true fun he => ?_
    exact h.2.1.1 (he ▸ List.mem_map_of_mem hy)
  have hsplit : remove key (l₁ ++ x :: l₂) (key x) = remove key l₁ (key x) ++ l₂ := by
    unfold remove at hl₂ ⊢
    rw [List.filter_append, List.filter_cons_of_neg (by simp), hl₂]
  unfold next
  rw [rest_split h, List.tail_cons]
  rw [hsplit] at hn ⊢
  constructor
  · rw [rest_suffix hn]
    unfold remove at hl₂ ⊢
    rw [List.filter_cons_of_neg (by simp), hl₂]
  · exact valid_head fun y hy => List.mem_append_right _ hy

end Usax.Lib.Cursor
