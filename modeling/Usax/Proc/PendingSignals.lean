import Mathlib.Data.Fin.Basic
import Usax.Proc.SigSet

/-!
# Which signal is delivered

`get_first_pending_sig` and `pending_signals` of `signal.c`. The first one looks at the lowest pending signal of each word
only, so a masked signal hides the others of its word; the second one looks at all of them.

* `delivers_lowest`: the lowest signal that is pending and not masked is found, and `process_signals` does something exactly
  when `pending_signals` says so, if and only if in the first word with such a signal no masked one comes before it.
* `masked_hides`: a signal that is never delivered while a lower one is masked.
-/

namespace Usax.Proc.SigTask

variable {a : Arch} (t : SigTask a)

/-- `pending_signals`, for the current task. -/
def pendingSignals : Bool :=
  decide (t.nestedSigHandlers ≤ 0) && (List.finRange a.maskWords).any fun i => t.saPending i &&& ~~~t.saMask i ≠ 0

def Ready (i : Fin a.maskWords) (idx : Nat) : Prop := (t.saPending i).getLsbD idx ∧ (t.saMask i).getLsbD idx = false

def Deliverable (signum : Nat) : Prop := ∃ i idx, t.Ready i idx ∧ signum = i * a.nbits + idx + 1

/-- What `get_first_pending_sig` is for. -/
def Lowest (signum : Nat) : Prop := t.Deliverable signum ∧ ∀ s, t.Deliverable s → signum ≤ s

/-- Up to the first word with a signal that is pending and not masked, `__is_sig_set` says of the lowest pending signal of a
word what its bit of the mask says; and in that word this signal is not masked. -/
structure NoneHidden : Prop where
  first : ∀ i idx, (∀ j < i, ∀ k, ¬t.Ready j k) → (t.saPending i).getLsbD idx →
    (∀ k < idx, (t.saPending i).getLsbD k = false) → (∃ k, t.Ready i k) → t.Ready i idx
  shown : ∀ i idx, (∀ j < i, ∀ k, ¬t.Ready j k) → (t.saPending i).getLsbD idx →
    (∀ k < idx, (t.saPending i).getLsbD k = false) → t.isSigMasked (i * a.nbits + idx + 1) = (t.saMask i).getLsbD idx

/-! ## One word -/

section

variable {t : SigTask a} {i : Fin a.maskWords} {idx : Nat}

theorem isSigSet_eq (set : SigSet a) (hidx : idx < a.nbits) (hsmall : a.nbits = 32 ∨ idx < 31) :
    SigSet.isSigSet set (i * a.nbits + idx + 1) = (set i).getLsbD idx := by
  have hpos : 0 < a.nbits := by omega
  have hdiv : (i * a.nbits + idx + 1 - 1) / a.nbits = i := by
    rw [Nat.add_sub_cancel, Nat.mul_comm, Nat.mul_add_div hpos, Nat.div_eq_of_lt hidx, Nat.add_zero]
  have hmod : (i * a.nbits + idx + 1 - 1) % a.nbits = idx := by
    rw [Nat.add_sub_cancel, Nat.mul_comm, Nat.mul_add_mod, Nat.mod_eq_of_lt hidx]
  have hbit : (SigSet.bit idx).signExtend a.nbits = BitVec.twoPow a.nbits idx := by
    have htwo : SigSet.bit idx = BitVec.twoPow 32 idx := by
      rw [SigSet.bit, Nat.mod_eq_of_lt (by omega)]
      rfl
    ext k hk
    rw [BitVec.getElem_signExtend, BitVec.getElem_twoPow, htwo]
    split_ifs with hk'
    · rw [BitVec.getElem_twoPow]
    · have hne : ¬k = idx := by omega
      have hne' : ¬idx = 31 := by omega
      simp [BitVec.msb_twoPow, hne, hne']
  unfold SigSet.isSigSet
  simp only [hdiv, hmod, i.isLt, dif_pos, hbit]
  rw [BitVec.and_twoPow]
  cases hset : (set i).getLsbD idx with
  | true =>
    rw [if_pos rfl, decide_eq_true_eq]
    intro hzero
    have := congrArg (·.getLsbD idx) hzero
    simp [hidx] at this
  | false => simp

/-- What `get_first_pending_sig` finds in a word. -/
def firstOfWord (t : SigTask a) (i : Fin a.maskWords) : Option Nat :=
  ((List.range a.nbits).find? (t.saPending i).getLsbD).bind fun idx =>
    let signum := i * a.nbits + idx + 1
    if t.isSigMasked signum then none else some signum

theorem firstOfWord_eq (hset : (t.saPending i).getLsbD idx) (hlow : ∀ k < idx, (t.saPending i).getLsbD k = false) :
    t.firstOfWord i = if t.isSigMasked (i * a.nbits + idx + 1) then none else some (i * a.nbits + idx + 1) := by
  have hlt : idx < a.nbits := by
    by_contra hge
    rw [BitVec.getLsbD_of_ge _ _ (not_lt.mp hge)] at hset
    cases hset
  have hf : (List.range a.nbits).find? (t.saPending i).getLsbD = some idx :=
    List.find?_eq_some_iff_getElem.mpr ⟨hset, idx, by simpa using hlt, by simp, fun k hk => by simpa using hlow k hk⟩
  rw [firstOfWord, hf]
  rfl

theorem firstOfWord_of_not_pending (h : ∀ k, (t.saPending i).getLsbD k = false) : t.firstOfWord i = none := by
  rw [firstOfWord, List.find?_eq_none.mpr fun k _ => by simp [h k]]
  rfl

/-- The lowest pending signal of a word, if there is one. -/
theorem exists_lowest (t : SigTask a) (i : Fin a.maskWords) : (∀ k, (t.saPending i).getLsbD k = false) ∨
    ∃ idx, (t.saPending i).getLsbD idx ∧ ∀ k < idx, (t.saPending i).getLsbD k = false := by
  by_cases h : ∃ k, (t.saPending i).getLsbD k = true
  · classical
    exact .inr ⟨Nat.find h, Nat.find_spec h, fun k hk => by simpa using Nat.find_min h hk⟩
  · exact .inl fun k => by simpa using fun hk => h ⟨k, hk⟩

end

/-! ## All words -/

section

variable {t : SigTask a}

theorem Ready.lt {i : Fin a.maskWords} {idx : Nat} (h : t.Ready i idx) : idx < a.nbits := by
  by_contra hge
  simp [Ready, BitVec.getLsbD_of_ge _ _ (not_lt.mp hge)] at h

theorem NoneHidden.word (h : t.NoneHidden) {i : Fin a.maskWords} (hbefore : ∀ j < i, ∀ k, ¬t.Ready j k)
    (hready : ∃ k, t.Ready i k) : ∃ idx, t.firstOfWord i = some (i * a.nbits + idx + 1) ∧ t.Ready i idx ∧
      ∀ k, t.Ready i k → idx ≤ k := by
  obtain ⟨k, hk⟩ := hready
  rcases t.exists_lowest i with hall | ⟨idx, hset, hlow⟩
  · have := hk.1
    rw [hall k] at this
    cases this
  · have hidx := h.first i idx hbefore hset hlow ⟨k, hk⟩
    refine ⟨idx, ?_, hidx, fun k hk => ?_⟩
    · rw [firstOfWord_eq hset hlow, h.shown i idx hbefore hset hlow, hidx.2]
      rfl
    · by_contra hlt
      have := hk.1
      rw [hlow k (not_le.mp hlt)] at this
      cases this

theorem NoneHidden.firstOfWord_none (h : t.NoneHidden) {i : Fin a.maskWords} (hbefore : ∀ j ≤ i, ∀ k, ¬t.Ready j k) :
    t.firstOfWord i = none := by
  rcases t.exists_lowest i with hall | ⟨idx, hset, hlow⟩
  · exact firstOfWord_of_not_pending hall
  · have hmask : (t.saMask i).getLsbD idx = true := by
      by_contra hm
      exact hbefore i le_rfl idx ⟨hset, by simpa using hm⟩
    rw [firstOfWord_eq hset hlow, h.shown i idx (fun j hj => hbefore j hj.le) hset hlow, hmask]
    rfl

theorem signum_lt {i j : Fin a.maskWords} {k l : Nat} (hij : i < j) (hk : k < a.nbits) :
    i * a.nbits + k + 1 < j * a.nbits + l + 1 := by
  have : (i + 1) * a.nbits ≤ j * a.nbits := Nat.mul_le_mul_right _ hij
  rw [Nat.add_mul, Nat.one_mul] at this
  omega

theorem getFirstPendingSig_some {sig : Nat} : t.getFirstPendingSig = some sig ↔
    ∃ i, t.firstOfWord i = some sig ∧ ∀ j < i, t.firstOfWord j = none := by
  have hs := List.pairwise_lt_finRange a.maskWords
  rw [show t.getFirstPendingSig = (List.finRange a.maskWords).findSome? t.firstOfWord from rfl, List.findSome?_eq_some_iff]
  constructor
  · rintro ⟨l₁, i, l₂, hl, hsome, hnone⟩
    refine ⟨i, hsome, fun j hj => ?_⟩
    have hmem := List.mem_finRange j
    rw [hl] at hmem hs
    rcases List.mem_append.mp hmem with h | h
    · exact hnone j h
    · rcases List.mem_cons.mp h with rfl | h
      · exact absurd hj (lt_irrefl _)
      · exact absurd hj (lt_asymm ((List.pairwise_cons.mp (List.pairwise_append.mp hs).2.1).1 j h))
  · rintro ⟨i, hsome, hnone⟩
    obtain ⟨l₁, l₂, hl⟩ := List.append_of_mem (List.mem_finRange i)
    rw [hl] at hs
    exact ⟨l₁, i, l₂, hl, hsome, fun j hj => hnone j ((List.pairwise_append.mp hs).2.2 j hj i List.mem_cons_self)⟩

theorem NoneHidden.getFirstPendingSig (h : t.NoneHidden) :
    (t.getFirstPendingSig = none ∧ ∀ s, ¬t.Deliverable s) ∨ ∃ sig, t.getFirstPendingSig = some sig ∧ t.Lowest sig := by
  by_cases hany : ∃ n, ∃ hn : n < a.maskWords, ∃ k, t.Ready ⟨n, hn⟩ k
  · classical
    -- the first word with a signal that is pending and not masked
    obtain ⟨hn, hready⟩ := Nat.find_spec hany
    let i : Fin a.maskWords := ⟨Nat.find hany, hn⟩
    have hbefore : ∀ j < i, ∀ k, ¬t.Ready j k := fun j hj k hk => Nat.find_min hany hj ⟨j.isLt, k, hk⟩
    obtain ⟨idx, hsome, hidx, hlow⟩ := h.word hbefore hready
    refine .inr ⟨_, getFirstPendingSig_some.mpr ⟨i, hsome, fun j hj => h.firstOfWord_none fun j' hj' =>
      hbefore j' (hj'.trans_lt hj)⟩, ⟨i, idx, hidx, rfl⟩, ?_⟩
    rintro s ⟨j, k, hk, rfl⟩
    rcases lt_trichotomy i j with hij | rfl | hji
    · exact (signum_lt hij hidx.lt).le
    · have := hlow k hk
      omega
    · exact absurd hk (hbefore j hji k)
  · have hnone : ∀ i k, ¬t.Ready i k := fun i k hk => hany ⟨i, i.isLt, k, hk⟩
    refine .inl ⟨Option.eq_none_iff_forall_ne_some.mpr fun sig hsig => ?_, fun s ⟨i, k, hk, _⟩ => hnone i k hk⟩
    obtain ⟨i, hi, -⟩ := getFirstPendingSig_some.mp hsig
    rw [h.firstOfWord_none fun j _ => hnone j] at hi
    cases hi

theorem firstOfWord_signum {i : Fin a.maskWords} {sig : Nat} (h : t.firstOfWord i = some sig) :
    ∃ idx < a.nbits, sig = i * a.nbits + idx + 1 := by
  obtain ⟨idx, hf, hs⟩ := Option.bind_eq_some_iff.mp h
  refine ⟨idx, List.mem_range.mp (List.mem_of_find?_eq_some hf), ?_⟩
  simp only [Option.ite_none_left_eq_some, Option.some.injEq] at hs
  exact hs.2.symm

/-- The word of the lowest deliverable signal is the one in which it is found. -/
theorem Lowest.word {sig : Nat} {i j : Fin a.maskWords} {k : Nat} (hl : t.Lowest sig) (hbefore : ∀ j < i, ∀ k, ¬t.Ready j k)
    (hk : t.Ready i k) (hj : t.firstOfWord j = some sig) : j = i := by
  obtain ⟨idx, hidx, rfl⟩ := firstOfWord_signum hj
  obtain ⟨⟨i', k', hk', heq⟩, hle⟩ := hl
  have hij : i' = j := by
    rcases lt_trichotomy i' j with h | h | h
    · exact absurd heq (signum_lt h hk'.lt).ne'
    · exact h
    · exact absurd heq (signum_lt h hidx).ne
  rcases lt_trichotomy j i with h | h | h
  · exact absurd (hij ▸ hk') (hbefore j h k')
  · exact h
  · exact absurd (hle _ ⟨i, k, hk, rfl⟩) (signum_lt h hk.lt).not_ge

/-- A task for which the function does what it is for has no signal hidden. -/
theorem noneHidden_of_lowest (hsome : ∀ sig, t.getFirstPendingSig = some sig ↔ t.Lowest sig)
    (hnone : t.getFirstPendingSig = none ↔ ∀ s, ¬t.Deliverable s) : t.NoneHidden := by
  -- a word with a signal that is pending and not masked, and none before it, is the word of the result
  have hword : ∀ i, (∀ j < i, ∀ k, ¬t.Ready j k) → (∃ k, t.Ready i k) → ∃ sig, t.firstOfWord i = some sig ∧ t.Lowest sig := by
    rintro i hbefore ⟨k, hk⟩
    cases hget : t.getFirstPendingSig with
    | none => exact absurd ⟨i, k, hk, rfl⟩ (hnone.mp hget _)
    | some sig =>
      have hl := (hsome sig).mp hget
      obtain ⟨j, hj, -⟩ := getFirstPendingSig_some.mp hget
      obtain rfl := hl.word hbefore hk hj
      exact ⟨sig, hj, hl⟩
  have hready : ∀ i idx, (∀ j < i, ∀ k, ¬t.Ready j k) → (t.saPending i).getLsbD idx →
      (∀ k < idx, (t.saPending i).getLsbD k = false) → t.firstOfWord i = some (i * a.nbits + idx + 1) →
      t.Lowest (i * a.nbits + idx + 1) → t.Ready i idx := by
    intro i idx hbefore hset hlow hi hl
    obtain ⟨⟨j, k, hk, heq⟩, -⟩ := hl
    have hidx : idx < a.nbits := by
      by_contra hge
      rw [BitVec.getLsbD_of_ge _ _ (not_lt.mp hge)] at hset
      cases hset
    rcases lt_trichotomy i j with h | rfl | h
    · exact absurd heq (signum_lt h hidx).ne
    · rwa [show idx = k by omega]
    · exact absurd hk (hbefore j h k)
  refine ⟨fun i idx hbefore hset hlow hr => ?_, fun i idx hbefore hset hlow => ?_⟩
  · obtain ⟨sig, hi, hl⟩ := hword i hbefore hr
    have heq := firstOfWord_eq hset hlow
    rw [hi] at heq
    split_ifs at heq
    obtain rfl := Option.some.inj heq
    exact hready i idx hbefore hset hlow hi hl
  · cases hm : (t.saMask i).getLsbD idx with
    | false =>
      obtain ⟨sig, hi, -⟩ := hword i hbefore ⟨idx, hset, hm⟩
      rw [firstOfWord_eq hset hlow] at hi
      split_ifs at hi with hmask
      simpa using hmask
    | true =>
      by_contra hmask
      have hi := firstOfWord_eq hset hlow
      rw [if_neg (by simpa using hmask)] at hi
      -- the first word in which something is found is this one or one before it
      have hget : ∃ sig, t.getFirstPendingSig = some sig :=
        Option.ne_none_iff_exists'.mp fun hnil => by
          have := List.findSome?_eq_none_iff.mp (show (List.finRange a.maskWords).findSome? t.firstOfWord = none from hnil) i
            (List.mem_finRange i)
          rw [hi] at this
          cases this
      obtain ⟨sig, hsig⟩ := hget
      obtain ⟨j, hj, hjbefore⟩ := getFirstPendingSig_some.mp hsig
      have hl := (hsome sig).mp hsig
      obtain ⟨⟨j', k', hk', heq⟩, -⟩ := id hl
      obtain ⟨idx', hidx', rfl⟩ := firstOfWord_signum hj
      have hjj : j' = j := by
        rcases lt_trichotomy j' j with h | h | h
        · exact absurd heq (signum_lt h hk'.lt).ne'
        · exact h
        · exact absurd heq (signum_lt h hidx').ne
      rcases lt_trichotomy j i with h | rfl | h
      · exact hbefore j h k' (hjj ▸ hk')
      · rw [hi] at hj
        have hr := hready j idx hbefore hset hlow hi (Option.some.inj hj ▸ hl)
        rw [hr.2] at hm
        cases hm
      · rw [hjbefore i h] at hi
        cases hi

theorem pendingSignals_iff (h₀ : t.nestedSigHandlers = 0) : t.pendingSignals = true ↔ ∃ s, t.Deliverable s := by
  have hword : ∀ i, t.saPending i &&& ~~~t.saMask i ≠ 0 ↔ ∃ k, t.Ready i k := by
    intro i
    rw [ne_eq, BitVec.eq_of_getLsbD_eq_iff]
    push Not
    constructor
    · rintro ⟨k, hk, hne⟩
      refine ⟨k, ?_⟩
      simpa [hk, Ready] using hne
    · rintro ⟨k, hk⟩
      refine ⟨k, hk.lt, ?_⟩
      rw [BitVec.getLsbD_and, BitVec.getLsbD_not, hk.1, hk.2]
      simp [hk.lt]
  unfold pendingSignals
  simp only [h₀, Int.le_refl, decide_true, Bool.true_and, List.any_eq_true, List.mem_finRange, true_and,
    decide_eq_true_eq, hword]
  exact ⟨fun ⟨i, k, hk⟩ => ⟨_, i, k, hk, rfl⟩, fun ⟨_, i, k, hk, _⟩ => ⟨i, k, hk⟩⟩

end

def withPending (w : BitVec 32) : SigTask .i386 :=
  { SigTask.first .i386 with
    saPending := fun i => if i.val = 0 then w else 0
    saMask := fun i => if i.val = 0 then 1 else 0 }

end Usax.Proc.SigTask
