import Mathlib

/-!
# Windows of a circle of slots

A ring buffer keeps a queue in the slots of a circle: the elements are in the `n` slots from `r` on (`window`). Elements are
added behind the window (`window_put`) and taken from its front (`window_eq_append`) or from its end (`window_succ`). A write or
a read that does not wrap around moves many slots at once.
-/

namespace Usax.Lib.Ring

variable {α : Type*} {slot : Nat → α} {data : List α} {m r n k off i : Nat}

/-- The `n` slots from `r` on, in a circle of `m` slots. -/
def window (slot : Nat → α) (m r n : Nat) : List α := (List.range n).map fun i => slot ((r + i) % m)

/-- The slots from `off` on have the elements of `data`. -/
def put (slot : Nat → α) (off : Nat) (data : List α) : Nat → α := fun i =>
  if off ≤ i then (data[i - off]?).getD (slot i) else slot i

@[simp] theorem length_window : (window slot m r n).length = n := by simp [window]

theorem put_inside (h : i < data.length) : put slot off data (off + i) = data[i] := by
  simp [put, h]

theorem put_outside (h : i < off ∨ off + data.length ≤ i) : put slot off data i = slot i := by
  unfold put
  split
  · rw [List.getElem?_eq_none (by omega)]
    rfl
  · rfl

theorem end_cases (hr : r < m) (hn : n ≤ m) :
    r + n < m ∧ (r + n) % m = r + n ∨ m ≤ r + n ∧ (r + n) % m = r + n - m := by
  rcases Nat.lt_or_ge (r + n) m with hlt | hge
  · exact .inl ⟨hlt, Nat.mod_eq_of_lt hlt⟩
  · exact .inr ⟨hge, by rw [Nat.mod_eq_sub_mod hge, Nat.mod_eq_of_lt (by omega)]⟩

theorem window_put (hr : r < m) (hfit : n + data.length ≤ m) (hwrap : (r + n) % m + data.length ≤ m) :
    window (put slot ((r + n) % m) data) m r (n + data.length) = window slot m r n ++ data := by
  have hend := end_cases hr (Nat.le_of_add_right_le hfit)
  refine List.ext_getElem (by simp) fun i hi _ => ?_
  have hi : i < n + data.length := by simpa using hi
  rw [List.getElem_append]
  simp only [window, List.getElem_map, List.getElem_range, List.length_map, List.length_range]
  have hslot := end_cases hr (by omega : i ≤ m)
  split
  · next hlt =>
    -- the old elements are outside of the write
    exact put_outside (by omega)
  · next hge =>
    rw [show (r + i) % m = (r + n) % m + (i - n) by omega]
    exact put_inside (by omega)

theorem window_eq_append (hk : k ≤ n) (hwrap : r + k ≤ m) :
    window slot m r n = ((List.range k).map fun i => slot (r + i)) ++ window slot m ((r + k) % m) (n - k) := by
  rcases Nat.eq_zero_or_pos k with rfl | hpos
  · simp [window]
  refine List.ext_getElem (by simp; omega) fun i hi _ => ?_
  have hi : i < n := by simpa using hi
  rw [List.getElem_append]
  simp only [window, List.getElem_map, List.getElem_range, List.length_map, List.length_range]
  split
  · next hlt => rw [Nat.mod_eq_of_lt (by omega)]
  · next hge =>
    rw [Nat.mod_add_mod]
    congr 2
    omega

theorem window_succ : window slot m r (n + 1) = window slot m r n ++ [slot ((r + n) % m)] := by
  simp [window, List.range_succ]

end Usax.Lib.Ring
