import Usax.Lib.Buddy

/-!
# Runs cut into blocks by their binary digits

A run of `n` units at `o` is cut into one block for each digit `1` of `n`, the largest first. The blocks lie side by
side and make up the run (`mem_runBlocks`, `total_runBlocks`, `exists_mem_runBlocks`); when `o` is aligned to a power of
two that is at least `n`, each of them is aligned (`dvd_of_mem_runBlocks`). Cut further into blocks of one level, the run is
a row of such blocks (`runBlocks_evenly`).
-/

namespace Usax.Lib

namespace Buddy

/-- The blocks for the digits of `n` below `i`. -/
def runBlocks (o n : Nat) : Nat → List (Nat × Nat)
  | 0 => []
  | i + 1 =>
    if n.testBit i then (i, o + n / 2 ^ (i + 1) * 2 ^ (i + 1)) :: runBlocks o n i else runBlocks o n i

variable {o n : Nat}

theorem high_succ (n i : Nat) :
    n / 2 ^ i * 2 ^ i = n / 2 ^ (i + 1) * 2 ^ (i + 1) + if n.testBit i then 2 ^ i else 0 := by
  have h : n / 2 ^ i = 2 * (n / 2 ^ (i + 1)) + if n.testBit i then 1 else 0 := by
    have h₁ : n / 2 ^ (i + 1) = n / 2 ^ i / 2 := by rw [pow_succ, Nat.div_div_eq_div_mul]
    have h₂ : n.testBit i = decide (n / 2 ^ i % 2 = 1) := Nat.testBit_eq_decide_div_mod_eq
    rw [h₁, h₂]
    simp only [decide_eq_true_eq]
    split <;> omega
  conv_lhs => rw [h]
  rw [pow_succ]
  split <;> ring

theorem high_le (n i : Nat) : n / 2 ^ i * 2 ^ i ≤ n := Nat.div_mul_le_self n (2 ^ i)

theorem mem_runBlocks : ∀ {i : Nat} {b : Nat × Nat}, b ∈ runBlocks o n i →
    o + n / 2 ^ i * 2 ^ i ≤ b.2 ∧ b.2 + 2 ^ b.1 ≤ o + n ∧ b.1 < i ∧ b.2 = o + n / 2 ^ (b.1 + 1) * 2 ^ (b.1 + 1)
  | i + 1, b, h => by
    have hs := high_succ n i
    have hle := high_le n i
    have hpos : 0 < 2 ^ i := by positivity
    rw [runBlocks] at h
    split at h
    · rename_i ht
      rw [if_pos ht] at hs
      rcases List.mem_cons.mp h with rfl | h
      · exact ⟨le_refl _, by simp only; omega, by simp, rfl⟩
      · obtain ⟨h₁, h₂, h₃, h₄⟩ := mem_runBlocks h
        exact ⟨by omega, h₂, by omega, h₄⟩
    · rename_i ht
      rw [if_neg ht] at hs
      obtain ⟨h₁, h₂, h₃, h₄⟩ := mem_runBlocks h
      exact ⟨by omega, h₂, by omega, h₄⟩

theorem runBlocks_shift : ∀ i : Nat, runBlocks o n i = (runBlocks 0 n i).map (fun b => (b.1, o + b.2))
  | 0 => rfl
  | i + 1 => by
    rw [runBlocks, runBlocks, runBlocks_shift i]
    split <;> simp

theorem total_runBlocks : ∀ i : Nat, total (runBlocks o n i) = n - n / 2 ^ i * 2 ^ i
  | 0 => by simp [runBlocks]
  | i + 1 => by
    have hs := high_succ n i
    have hle := high_le n i
    have hpos : 0 < 2 ^ i := by positivity
    rw [runBlocks]
    split
    · rename_i ht
      rw [if_pos ht] at hs
      rw [total_cons, total_runBlocks i]
      simp only
      omega
    · rename_i ht
      rw [if_neg ht] at hs
      rw [total_runBlocks i]
      omega

theorem exists_mem_runBlocks : ∀ {i x : Nat}, o + n / 2 ^ i * 2 ^ i ≤ x → x < o + n →
    ∃ b ∈ runBlocks o n i, b.2 ≤ x ∧ x < b.2 + 2 ^ b.1
  | 0, x, h₁, h₂ => by simp at h₁; omega
  | i + 1, x, h₁, h₂ => by
    have hs := high_succ n i
    rw [runBlocks]
    split
    · rename_i ht
      rw [if_pos ht] at hs
      by_cases hx : x < o + n / 2 ^ i * 2 ^ i
      · exact ⟨_, List.mem_cons_self, h₁, by simp only; omega⟩
      · obtain ⟨b, hb, h⟩ := exists_mem_runBlocks (i := i) (by omega) h₂
        exact ⟨b, List.mem_cons_of_mem _ hb, h⟩
    · rename_i ht
      rw [if_neg ht] at hs
      exact exists_mem_runBlocks (by omega) h₂

theorem runBlocks_disjoint : ∀ i : Nat, (runBlocks o n i).Pairwise Disj
  | 0 => List.Pairwise.nil
  | i + 1 => by
    rw [runBlocks]
    split
    · rename_i ht
      refine List.Pairwise.cons (fun b hb => Or.inl ?_) (runBlocks_disjoint i)
      have hs := high_succ n i
      rw [if_pos ht] at hs
      have := (mem_runBlocks hb).1
      simp only
      omega
    · exact runBlocks_disjoint i

theorem dvd_of_mem_runBlocks {i k : Nat} (ho : 2 ^ k ∣ o) (hn : n < 2 ^ (k + 1)) {b : Nat × Nat} (hb : b ∈ runBlocks o n i) :
    2 ^ b.1 ∣ b.2 := by
  obtain ⟨h₁, h₂, h₃, h₄⟩ := mem_runBlocks hb
  have hk : b.1 ≤ k := by
    by_contra hc
    have : 2 ^ (k + 1) ≤ 2 ^ b.1 := Nat.pow_le_pow_right (by omega) (by omega)
    omega
  rw [h₄]
  refine Nat.dvd_add (dvd_trans (Nat.pow_dvd_pow 2 hk) ho) ?_
  exact Dvd.dvd.mul_left (Nat.pow_dvd_pow 2 (Nat.le_succ _)) _

theorem runBlocks_eq_nil {i : Nat} (h : n / 2 ^ i * 2 ^ i = n) : runBlocks o n i = [] := by
  rw [List.eq_nil_iff_forall_not_mem]
  intro b hb
  obtain ⟨h₁, h₂, _⟩ := mem_runBlocks hb
  have : 0 < 2 ^ b.1 := by positivity
  omega

theorem runBlocks_add {i : Nat} (h : n < 2 ^ i) : ∀ e : Nat, runBlocks o n (i + e) = runBlocks o n i
  | 0 => rfl
  | e + 1 => by
    have : n.testBit (i + e) = false :=
      Nat.testBit_lt_two_pow (lt_of_lt_of_le h (Nat.pow_le_pow_right (by omega) (Nat.le_add_right _ _)))
    rw [← Nat.add_assoc, runBlocks, this, if_neg Bool.false_ne_true, runBlocks_add h e]

theorem runBlocks_two_pow {l i : Nat} (h : l < i) : runBlocks o (2 ^ l) i = [(l, o)] := by
  obtain ⟨e, rfl⟩ := Nat.exists_eq_add_of_lt h
  have hlt : 2 ^ l < 2 ^ (l + 1) := Nat.pow_lt_pow_right (by omega) (by omega)
  rw [show l + e + 1 = l + 1 + e by omega, runBlocks_add hlt, runBlocks, if_pos (by simp),
    Nat.div_eq_of_lt hlt, Nat.zero_mul, Nat.add_zero, runBlocks_eq_nil (by simp)]

/-! ## Runs cut into blocks of one level -/

/-- `c` blocks of level `l`, one after the other. -/
def grid (l o c : Nat) : List (Nat × Nat) := (List.range c).map (fun i => (l, o + i * 2 ^ l))

theorem grid_add (l o c d : Nat) : grid l o (c + d) = grid l o c ++ grid l (o + c * 2 ^ l) d := by
  rw [grid, List.range_add, List.map_append, List.map_map]
  congr 1
  refine List.map_congr_left (fun i _ => ?_)
  simp only [Function.comp_apply, Prod.mk.injEq, true_and]
  ring

theorem pieces_evenly (l : Nat) : ∀ (d o : Nat), pieces (l + d) o (evenly d) = grid l o (2 ^ d)
  | 0, o => by cases l <;> simp [evenly, pieces, grid]
  | d + 1, o => by
    rw [← Nat.add_assoc, evenly, pieces, pieces_evenly l d, pieces_evenly l d, pow_succ, Nat.mul_two, grid_add,
      ← pow_add, Nat.add_comm d l]

theorem runBlocks_evenly {l : Nat} (hl : 2 ^ l ∣ n) : ∀ i : Nat,
    (runBlocks o n i).flatMap (fun b => pieces b.1 b.2 (evenly (b.1 - l))) =
      grid l (o + n / 2 ^ i * 2 ^ i) ((n - n / 2 ^ i * 2 ^ i) / 2 ^ l)
  | 0 => by simp [runBlocks, grid]
  | i + 1 => by
    have hs := high_succ n i
    have hle := high_le n i
    have ih := runBlocks_evenly hl i
    rw [runBlocks]
    cases hbit : n.testBit i with
    | false =>
      simp only [hbit, Bool.false_eq_true, ↓reduceIte, Nat.add_zero] at hs ⊢
      rw [ih, hs]
    | true =>
      simp only [hbit, ↓reduceIte, List.flatMap_cons] at hs ⊢
      have hli : l ≤ i := by
        by_contra hc
        obtain ⟨t, rfl⟩ := hl
        rw [Nat.testBit_two_pow_mul] at hbit
        simp [show ¬i ≥ l by omega] at hbit
      have he : n - n / 2 ^ (i + 1) * 2 ^ (i + 1) = (n - n / 2 ^ i * 2 ^ i) + 2 ^ l * 2 ^ (i - l) := by
        have hpow : 2 ^ l * 2 ^ (i - l) = 2 ^ i := by rw [← pow_add, show l + (i - l) = i by omega]
        omega
      have hp := pieces_evenly l (i - l) (o + n / 2 ^ (i + 1) * 2 ^ (i + 1))
      rw [show l + (i - l) = i by omega] at hp
      rw [hp, ih, he, Nat.add_mul_div_left _ _ (by positivity), Nat.add_comm _ (2 ^ (i - l)), grid_add, ← pow_add,
        show i - l + l = i by omega, Nat.add_assoc, ← hs]

end Buddy

end Usax.Lib
