import Mathlib.Tactic.Ring
import Mathlib.Tactic.Linarith

/-!
# Indices of a binary heap

An array laid out as a binary heap keeps the children of index `n` at `2 n + 1` and `2 n + 2`. `Below k n m` says that
`m` is an index of the tree of height `k` rooted at `n`. The two subtrees of a node share no index
(`Below.disjoint`); they consist of rows, which are disjoint (`below_iff_inRow`, `InRow.unique`) and contiguous
(`inRow_iff_range`).
-/

namespace Usax.Lib

/-- `m` is an index of the tree of height `k` below `n`. -/
def Below : Nat → Nat → Nat → Prop
  | 0, n, m => m = n
  | k + 1, n, m => m = n ∨ Below k (2 * n + 1) m ∨ Below k (2 * n + 2) m

theorem Below.self : ∀ (k n : Nat), Below k n n
  | 0, _ => rfl
  | _ + 1, _ => Or.inl rfl

theorem Below.half : ∀ {k n m : Nat}, Below k n m → ∃ d ≤ k, (m + 1) / 2 ^ d = n + 1
  | 0, _, _, h => ⟨0, le_refl _, by rw [show _ = _ from h]; simp⟩
  | k + 1, n, m, h => by
    rcases h with rfl | h | h
    · exact ⟨0, by omega, by simp⟩
    · obtain ⟨d, hd, he⟩ := Below.half h
      exact ⟨d + 1, by omega, by rw [pow_succ, ← Nat.div_div_eq_div_mul, he]; omega⟩
    · obtain ⟨d, hd, he⟩ := Below.half h
      exact ⟨d + 1, by omega, by rw [pow_succ, ← Nat.div_div_eq_div_mul, he]; omega⟩

theorem Below.of_half : ∀ {d k n m : Nat}, d ≤ k → (m + 1) / 2 ^ d = n + 1 → Below k n m
  | 0, k, n, m, _, h => by
    have : m = n := by simpa using h
    rw [this]; exact Below.self k n
  | d + 1, 0, _, _, hd, _ => by omega
  | d + 1, k + 1, n, m, hd, h => by
    rw [pow_succ, ← Nat.div_div_eq_div_mul] at h
    rcases (show (m + 1) / 2 ^ d = (2 * n + 1) + 1 ∨ (m + 1) / 2 ^ d = (2 * n + 2) + 1 by omega) with h | h
    · exact Or.inr (Or.inl (Below.of_half (by omega) h))
    · exact Or.inr (Or.inr (Below.of_half (by omega) h))

theorem Below.le {k n m : Nat} (h : Below k n m) : n ≤ m := by
  obtain ⟨d, _, he⟩ := h.half
  have := Nat.div_le_self (m + 1) (2 ^ d)
  omega

theorem half_ne {m a b d e : Nat} (ha : (m + 1) / 2 ^ d = a) (hb : (m + 1) / 2 ^ e = b) (hab : a < b)
    (hba : b < 2 * a) : False := by
  rcases Nat.lt_or_ge d e with h | h
  · obtain ⟨i, rfl⟩ := Nat.exists_eq_add_of_lt h
    rw [show d + i + 1 = d + (i + 1) by omega, pow_add, ← Nat.div_div_eq_div_mul, ha] at hb
    have := Nat.div_le_self a (2 ^ (i + 1))
    omega
  · obtain ⟨i, rfl⟩ := Nat.exists_eq_add_of_le h
    rw [pow_add, ← Nat.div_div_eq_div_mul, hb] at ha
    cases i with
    | zero => simp at ha; omega
    | succ i =>
      have h1 : b / 2 ^ (i + 1) ≤ b / 2 := by
        rw [pow_succ, Nat.mul_comm, ← Nat.div_div_eq_div_mul]
        exact Nat.div_le_self _ _
      omega

theorem Below.disjoint {j k n m : Nat} (hl : Below j (2 * n + 1) m) (hr : Below k (2 * n + 2) m) : False := by
  obtain ⟨d, _, hd⟩ := hl.half
  obtain ⟨e, _, he⟩ := hr.half
  exact half_ne hd he (by omega) (by omega)

theorem Below.lt {k n m : Nat} (h : Below k n m) : m + 1 < (n + 2) * 2 ^ k := by
  obtain ⟨d, hd, he⟩ := h.half
  have h₁ : m + 1 < (n + 2) * 2 ^ d := (Nat.div_lt_iff_lt_mul (by positivity)).1 (by omega)
  exact lt_of_lt_of_le h₁ (Nat.mul_le_mul_left _ (Nat.pow_le_pow_right (by omega) hd))

def child (n : Nat) (right : Bool) : Nat := 2 * n + 1 + right.toNat

@[simp] theorem child_false (n : Nat) : child n false = 2 * n + 1 := rfl

@[simp] theorem child_true (n : Nat) : child n true = 2 * n + 2 := rfl

theorem Below.of_child {k n m : Nat} {b : Bool} (h : Below k (child n b) m) : Below (k + 1) n m := by
  cases b
  · exact Or.inr (Or.inl h)
  · exact Or.inr (Or.inr h)

theorem Below.ne_parent {k n m : Nat} {b : Bool} (h : Below k (child n b) m) : m ≠ n := by
  have := h.le
  unfold child at this
  omega

theorem Below.sibling {j k n m : Nat} {b : Bool} (h : Below j (child n b) m) (h' : Below k (child n !b) m) :
    False := by
  cases b
  · exact h.disjoint h'
  · exact Below.disjoint h' h

theorem Below.cases {k n m : Nat} (b : Bool) (h : Below (k + 1) n m) :
    m = n ∨ Below k (child n b) m ∨ Below k (child n !b) m := by
  rcases h with h | h | h
  · exact Or.inl h
  · cases b
    · exact Or.inr (Or.inl h)
    · exact Or.inr (Or.inr h)
  · cases b
    · exact Or.inr (Or.inr h)
    · exact Or.inr (Or.inl h)

/-- `m` is in the row `d` levels below `n`. -/
def InRow (d n m : Nat) : Prop := (n + 1) * 2 ^ d ≤ m + 1 ∧ m + 1 < (n + 2) * 2 ^ d

theorem inRow_iff {d n m : Nat} : InRow d n m ↔ (m + 1) / 2 ^ d = n + 1 := by
  have hpos : 0 < 2 ^ d := by positivity
  unfold InRow
  constructor
  · rintro ⟨h₁, h₂⟩
    have := (Nat.le_div_iff_mul_le hpos).2 h₁
    have := (Nat.div_lt_iff_lt_mul hpos).2 h₂
    omega
  · intro h
    exact ⟨(Nat.le_div_iff_mul_le hpos).1 (by omega), (Nat.div_lt_iff_lt_mul hpos).1 (by omega)⟩

theorem inRow_zero {n m : Nat} : InRow 0 n m ↔ m = n := by
  rw [inRow_iff]; simp

theorem inRow_succ {d n m : Nat} : InRow (d + 1) n m ↔ InRow d (2 * n + 1) m ∨ InRow d (2 * n + 2) m := by
  simp only [inRow_iff, pow_succ, ← Nat.div_div_eq_div_mul]
  omega

theorem below_iff_inRow {k n m : Nat} : Below k n m ↔ ∃ d ≤ k, InRow d n m := by
  simp only [inRow_iff]
  exact ⟨Below.half, fun ⟨_, hd, h⟩ => Below.of_half hd h⟩

theorem InRow.trans {d e n i m : Nat} (h : InRow d n i) (h' : InRow e i m) : InRow (d + e) n m := by
  rw [inRow_iff] at h h' ⊢
  rw [Nat.add_comm d e, pow_add, ← Nat.div_div_eq_div_mul, h', h]

theorem InRow.unique {d e n m : Nat} (h : InRow d n m) (h' : InRow e n m) : d = e := by
  rw [inRow_iff] at h h'
  by_contra hne
  have key : ∀ {a b : Nat}, (m + 1) / 2 ^ a = n + 1 → (m + 1) / 2 ^ b = n + 1 → a < b → False := by
    intro a b ha hb hab
    obtain ⟨i, rfl⟩ := Nat.exists_eq_add_of_lt hab
    rw [show a + i + 1 = a + (i + 1) by omega, pow_add, ← Nat.div_div_eq_div_mul, ha] at hb
    have : (n + 1) / 2 ^ (i + 1) < n + 1 := Nat.div_lt_self (by omega) (Nat.one_lt_two_pow (by omega))
    omega
  rcases Nat.lt_or_gt_of_ne hne with h₁ | h₁
  · exact key h h' h₁
  · exact key h' h h₁

/-- The first index in the row `d` levels below `n`. -/
def firstInRow (d n : Nat) : Nat := (n + 1) * 2 ^ d - 1

theorem firstInRow_add_one (d n : Nat) : firstInRow d n + 1 = (n + 1) * 2 ^ d := by
  have : 0 < (n + 1) * 2 ^ d := by positivity
  unfold firstInRow
  omega

@[simp] theorem firstInRow_zero (n : Nat) : firstInRow 0 n = n := by simp [firstInRow]

theorem firstInRow_succ (d n : Nat) : firstInRow (d + 1) n = 2 * firstInRow d n + 1 := by
  have h₁ := firstInRow_add_one d n
  have h₂ := firstInRow_add_one (d + 1) n
  rw [pow_succ, ← Nat.mul_assoc] at h₂
  omega

theorem firstInRow_left (s p : Nat) : 2 * (firstInRow s 0 + p) + 1 = firstInRow (s + 1) 0 + 2 * p := by
  rw [firstInRow_succ]
  omega

theorem firstInRow_right (s p : Nat) : 2 * (firstInRow s 0 + p) + 2 = firstInRow (s + 1) 0 + (2 * p + 1) := by
  rw [firstInRow_succ]
  omega

theorem inRow_iff_range {d n m : Nat} : InRow d n m ↔ firstInRow d n ≤ m ∧ m < firstInRow d n + 2 ^ d := by
  have h := firstInRow_add_one d n
  unfold InRow
  rw [show (n + 2) * 2 ^ d = (n + 1) * 2 ^ d + 2 ^ d by ring]
  omega

theorem firstInRow_children (d n : Nat) : firstInRow d (2 * n + 1) = firstInRow (d + 1) n ∧
    firstInRow d (2 * n + 2) = firstInRow (d + 1) n + 2 ^ d := by
  have h₁ := firstInRow_add_one d (2 * n + 1)
  have h₂ := firstInRow_add_one d (2 * n + 2)
  have h₃ := firstInRow_add_one (d + 1) n
  rw [show (n + 1) * 2 ^ (d + 1) = (2 * n + 1 + 1) * 2 ^ d by ring] at h₃
  rw [show (2 * n + 2 + 1) * 2 ^ d = (2 * n + 1 + 1) * 2 ^ d + 2 ^ d by ring] at h₂
  omega

end Usax.Lib
