import Usax.Proc.SigMask

/-!
# Sets of signals

`__add_sig`, `__del_sig` and `__is_sig_set` of `signal.c`. The mask of a signal in its word is an `int`, shifted and then
extended to the word. Two signals of a word are kept apart if their masks have no bit in common (`mask_disjoint`); in a word of
64 bits, signals that are 32 apart have the same mask.
-/

namespace Usax.Proc.SigSet

variable {a : Arch} {s t : Nat}

/-- The bits of a signal in its word. -/
def mask (a : Arch) (signum : Nat) : a.Word := (bit ((signum - 1) % a.nbits)).signExtend a.nbits

/-! ## Masks -/

theorem nbits_ge (a : Arch) : 32 ≤ a.nbits := by cases a <;> decide

theorem mask_eq (a : Arch) (signum : Nat) : mask a signum = (BitVec.twoPow 32 ((signum - 1) % 32)).signExtend a.nbits := by
  have hmod : (signum - 1) % a.nbits % 32 = (signum - 1) % 32 := Nat.mod_mod_of_dvd _ (by cases a <;> decide)
  rw [mask, bit, hmod]
  rfl

theorem mask_ne_zero (a : Arch) (signum : Nat) : mask a signum ≠ 0#a.nbits := by
  intro hzero
  rw [mask_eq] at hzero
  generalize hi : (signum - 1) % 32 = i at hzero
  have hlt : i < 32 := by omega
  have hset := congrArg (·.getLsbD i) hzero
  rw [BitVec.getLsbD_signExtend, if_pos hlt, BitVec.getLsbD_twoPow] at hset
  simp [hlt, hlt.trans_le (nbits_ge a)] at hset

theorem mask_disjoint (hne : (s - 1) % 32 ≠ (t - 1) % 32) : mask a s &&& mask a t = 0#a.nbits := by
  rw [mask_eq, mask_eq, ← BitVec.signExtend_and, BitVec.and_twoPow, if_neg (by simp [BitVec.getLsbD_twoPow, hne])]
  ext i hi
  simp [BitVec.getElem_signExtend]

/-! ## Words -/

section
variable {n : Nat} {m m' : BitVec n}

theorem or_and_self (w m : BitVec n) : (w ||| m) &&& m = m := by
  ext i hi
  rw [BitVec.getElem_and, BitVec.getElem_or]
  cases m[i] <;> simp

theorem and_not_and_self (w m : BitVec n) : w &&& ~~~m &&& m = 0#n := by
  rw [BitVec.and_assoc, BitVec.and_comm (~~~m), BitVec.and_not_self]
  exact BitVec.and_zero

theorem or_and_disjoint (h : m &&& m' = 0#n) (w : BitVec n) : (w ||| m) &&& m' = w &&& m' := by
  rw [BitVec.and_or_distrib_right, h, BitVec.or_zero]

theorem and_not_and_disjoint (h : m &&& m' = 0#n) (w : BitVec n) : w &&& ~~~m &&& m' = w &&& m' := by
  ext i hi
  have hnot : (m[i] && m'[i]) = false := by rw [← BitVec.getElem_and, h, BitVec.getElem_zero]
  simp only [BitVec.getElem_and, BitVec.getElem_not]
  cases hm : m[i] with
  | true =>
    rw [hm, Bool.true_and] at hnot
    simp [hnot]
  | false => simp

end

/-! ## Signals -/

theorem slot_lt (ht : 1 ≤ t ∧ t < nsig) : (t - 1) / a.nbits < a.maskWords := by
  unfold nsig at ht
  cases a <;> simp only [Arch.maskWords, Arch.nbits, nsig] <;> omega

theorem isSigSet_mask (set : SigSet a) (ht : 1 ≤ t ∧ t < nsig) :
    isSigSet set t = decide (set ⟨(t - 1) / a.nbits, slot_lt ht⟩ &&& mask a t ≠ 0#a.nbits) := by
  rw [isSigSet, dif_pos (slot_lt ht)]
  rfl

theorem addSig_word (set : SigSet a) (i : Fin a.maskWords) :
    addSig set s i = if i.val = (s - 1) / a.nbits then set i ||| mask a s else set i := rfl

theorem delSig_word (set : SigSet a) (i : Fin a.maskWords) :
    delSig set s i = if i.val = (s - 1) / a.nbits then set i &&& ~~~mask a s else set i := by
  rw [delSig, BitVec.signExtend_not (by decide)]
  rfl

/-- Two signals of one word that have one mask. -/
def Share (a : Arch) (s t : Nat) : Prop := a.nbits ≠ 32 ∧ t ≠ s ∧ (s - 1) % 32 = (t - 1) % 32

theorem mask_disjoint_of_not_share (hs : 1 ≤ s) (ht : 1 ≤ t) (h : ¬ Share a s t) (hne : t ≠ s)
    (hslot : (t - 1) / a.nbits = (s - 1) / a.nbits) : mask a s &&& mask a t = 0#a.nbits := by
  refine mask_disjoint fun hmod => h ⟨fun h32 => hne ?_, hne, hmod⟩
  rw [h32] at hslot
  omega

theorem slot_eq_of_share (hs : 1 ≤ s ∧ s < nsig) (ht : 1 ≤ t ∧ t < nsig) (h : Share a s t) :
    (t - 1) / a.nbits = (s - 1) / a.nbits ∧ mask a t = mask a s := by
  refine ⟨?_, by rw [mask_eq, mask_eq, h.2.2]⟩
  have h32 := h.1
  unfold nsig at hs ht
  cases a <;> simp only [Arch.nbits, ne_eq, not_true_eq_false] at h32 ⊢ <;> omega

/-- **The operations are those of a set** of signals, unless the two signals have one mask in a word of 64 bits. -/
theorem sigSet_laws (a : Arch) (set : SigSet a) (s t : Nat) (hs : 1 ≤ s ∧ s < nsig) (ht : 1 ≤ t ∧ t < nsig) :
    (isSigSet (addSig set s) t = (decide (t = s) || isSigSet set t) ∧
      isSigSet (delSig set s) t = (!decide (t = s) && isSigSet set t)) ↔ ¬ Share a s t := by
  rw [isSigSet_mask _ ht, isSigSet_mask _ ht, isSigSet_mask _ ht, addSig_word, delSig_word]
  constructor
  · -- the two laws would say that `t` is in the set and that it is not
    intro h hshare
    obtain ⟨hslot, hmask⟩ := slot_eq_of_share hs ht hshare
    rw [if_pos hslot, if_pos hslot, hmask, or_and_self, and_not_and_self] at h
    simp [hshare.2.1, mask_ne_zero] at h
  intro h
  by_cases hslot : (t - 1) / a.nbits = (s - 1) / a.nbits
  · rw [if_pos hslot, if_pos hslot]
    by_cases hts : t = s
    · subst hts
      rw [or_and_self, and_not_and_self]
      simp [mask_ne_zero]
    · have hdisj := mask_disjoint_of_not_share hs.1 ht.1 h hts hslot
      rw [or_and_disjoint hdisj, and_not_and_disjoint hdisj]
      simp [hts]
  · have hts : t ≠ s := fun heq => hslot (by rw [heq])
    rw [if_neg hslot, if_neg hslot]
    simp [hts]

/-- Signals 33 and 34 of a word of 64 bits have masks of their own, and 33 has that of 1. -/
theorem sigSet_laws_pairs : isSigSet (addSig (fun _ => 0) 33 : SigSet .x86_64) 34 = false ∧
    ¬ (isSigSet (addSig (fun _ => 0) 33 : SigSet .x86_64) 1 = (decide (1 = 33) || isSigSet (fun _ => 0 : SigSet .x86_64) 1) ∧
      isSigSet (delSig (fun _ => 0) 33 : SigSet .x86_64) 1 = (!decide (1 = 33) && isSigSet (fun _ => 0 : SigSet .x86_64) 1)) :=
  ⟨((sigSet_laws .x86_64 (fun _ => 0) 33 34 (by decide) (by decide)).mpr (fun h => absurd h.2.2 (by decide))).1.trans (by decide),
    fun h => (sigSet_laws .x86_64 (fun _ => 0) 33 1 (by decide) (by decide)).mp h ⟨by decide, by decide, by decide⟩⟩

/-- In a word of 64 bits, signal 33 is signal 1. -/
theorem addSig_hits_other :
    isSigSet (fun _ => 0 : SigSet .x86_64) 1 = false ∧ isSigSet (addSig (fun _ => 0) 33 : SigSet .x86_64) 1 = true := by
  decide

end Usax.Proc.SigSet
