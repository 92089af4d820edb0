import Mathlib.Data.List.GetD
import Mathlib.Data.List.TakeDrop
import Usax.Common.Snprintk

/-!
# The reads of the format

`vsnprintk` once more, with the cursor in the format as a position: every character of it is read through `charAt`, which
fails behind the terminator. A sequence is followed up to where it ends (`SeqEnd`), and then written as in `Snprintk`.

- `scan_same`: a sequence ends in the item that `Snprintk` finds in the rest of the format;
- `vsnprintk_reads_inside`: the character behind the terminator is read exactly if the text of the format goes there.
-/

namespace Usax.Common.FormatReads

open Usax.Lib

/-- Why a run has no result: a read behind the terminator, or it is not at its end yet. -/
inductive Stop
  | outside | running
deriving DecidableEq, Repr

/-- `fmt[i]`, the terminator included. -/
def charAt (fmt : List UInt8) (i : Nat) : Except Stop UInt8 :=
  if i < fmt.length then .ok (fmt.getD i 0) else if i = fmt.length then .ok 0 else .error .outside

/-- How a sequence ends, with the position of its last character. -/
inductive SeqEnd
  | char (c : UInt8) (i : Nat)
  | param (st : SeqState) (c : UInt8) (i : Nat) (args : List VaArg)
  | unknown (st : SeqState) (c : UInt8) (i : Nat) (args : List VaArg)
  | truncated

section
variable (long : IntType) (fmt : List UInt8)

/-- `usax_strtol` from the position on: the value, and the position behind it. -/
def strtolAt (i : Nat) : Int × Nat :=
  let r := usaxStrtol long 10 (fmt.drop i)
  (int r.value, fmt.length - r.endptr.length)

/-- `process_seq` from `process_next_char_in_seq` on, up to what it writes. -/
def scan : Nat → Nat → List VaArg → SeqState → Except Stop SeqEnd
  | 0, _, _, _ => .error .running
  | fuel + 1, i, args, st =>
    (charAt fmt i).bind fun c =>
    if c = 0 then .ok .truncated
    else if isParam c then .ok (.param st c i args)
    else if c = 48 then scan fuel (i + 1) args { st with zeroLpad := true }
    else if 49 ≤ c ∧ c ≤ 57 then
      scan fuel (strtolAt long fmt i).2 args { st with lpad := (strtolAt long fmt i).1 }
    else if c = 42 then
      let v := int (nextInt args).1
      scan fuel (i + 1) (nextInt args).2 (if v < 0 then { st with lpad := 0, rpad := int (-v) } else { st with lpad := v })
    else if c = 45 then
      (charAt fmt (i + 1)).bind fun d =>
      if d ≠ 42 then scan fuel (strtolAt long fmt (i + 1)).2 args { st with rpad := (strtolAt long fmt (i + 1)).1 }
      else
        let v := int (nextInt args).1
        scan fuel (i + 2) (nextInt args).2 { st with rpad := if v < 0 then int (-v) else v }
    else if c = 46 then
      (charAt fmt (i + 1)).bind fun d =>
      if d ≠ 42 then scan fuel (strtolAt long fmt (i + 1)).2 args { st with precision := (strtolAt long fmt (i + 1)).1 }
      else scan fuel (i + 2) (nextInt args).2 { st with precision := max 0 (int (nextInt args).1) }
    else if c = 35 then
      if st.hashSign then
        (charAt fmt (i + 1)).bind fun d =>
        if d = 0 then .ok (.unknown st d (i + 1) args) else scan fuel (i + 1) args st
      else
        (charAt fmt (i - 1)).bind fun b =>
        if b ≠ 37 then .ok (.unknown st c i args)
        else
          (charAt fmt (i + 1)).bind fun d =>
          if d = 0 then .ok (.unknown st c i args) else scan fuel (i + 1) args { st with hashSign := true }
    else if c = 122 ∨ c = 116 ∨ c = 106 ∨ c = 113 ∨ c = 76 then
      if st.width ≠ .default then .ok (.unknown st c i args)
      else scan fuel (i + 1) args { st with width := if c = 122 ∨ c = 116 then .long else .longLong }
    else if c = 108 ∨ c = 104 then
      match doubleMod (c = 108) st.width with
      | none => .ok (.unknown st c i args)
      | some width => scan fuel (i + 1) args { st with width := width }
    else .ok (.unknown st c i args)

/-- `process_seq`, up to what it writes. -/
def processSeq (fuel i : Nat) (args : List VaArg) : Except Stop SeqEnd :=
  (charAt fmt i).bind fun c =>
  if c = 37 ∨ c ≥ 128 then .ok (.char c i) else scan long fmt fuel i args resetState

/-- The loop of `vsnprintk`. -/
def vsnprintk : Nat → Nat → List VaArg → Out UInt8 → Except Stop (Out UInt8)
  | 0, _, _, _ => .error .running
  | fuel + 1, i, args, o =>
    (charAt fmt i).bind fun fmtX =>
    if fmtX = 0 then .ok o
    else if fmtX ≠ 37 then
      let r := put fmtX o
      if r.2 then vsnprintk fuel (i + 1) args r.1 else .ok r.1
    else
      (processSeq long fmt fuel (i + 1) args).bind fun e =>
      match e with
      | .char c j =>
        let r := put c o
        if r.2 then vsnprintk fuel (j + 1) args r.1 else .ok r.1
      | .param st c j args =>
        let p := paramStr long st c args
        let r := writeStr st p.1 p.2.1 o
        if r.2 then vsnprintk fuel (j + 1) p.2.2 r.1 else .ok r.1
      | .unknown st c j args =>
        let r := writeUnknown long st c o
        if r.2 then vsnprintk fuel (j + 1) args r.1 else .ok r.1
      | .truncated => .ok o

end

/-! ## The characters of a sequence -/

section
variable {fmt : List UInt8} {i : Nat}

theorem charAt_of_le (h : i ≤ fmt.length) : charAt fmt i = .ok (fmt.getD i 0) := by
  unfold charAt
  split_ifs with hlt heq
  · rfl
  · rw [List.getD_eq_default _ _ heq.ge]
  · omega

theorem charAt_bind {α : Type} (h : i ≤ fmt.length) (f : UInt8 → Except Stop α) :
    (charAt fmt i).bind f = f (fmt.getD i 0) := by
  rw [charAt_of_le h]
  rfl

theorem drop_eq_getD_cons (h : i < fmt.length) : fmt.drop i = fmt.getD i 0 :: fmt.drop (i + 1) := by
  rw [List.drop_eq_getElem_cons h, List.getD_eq_getElem _ _ h]

theorem getD_eq_zero_iff (hnul : ∀ c ∈ fmt, c ≠ 0) : fmt.getD i 0 = 0 ↔ fmt.length ≤ i := by
  constructor
  · intro h
    by_contra hlt
    rw [List.getD_eq_getElem _ _ (not_le.mp hlt)] at h
    exact hnul _ (List.getElem_mem _) h
  · exact List.getD_eq_default _ _

theorem head_drop_eq_star : (fmt.drop i).head? = some 42 ↔ fmt.getD i 0 = 42 := by
  rw [List.head?_drop, List.getD_eq_getElem?_getD]
  cases fmt[i]? <;> simp

theorem usaxStrtol_split (long : IntType) (str : List UInt8) :
    ∃ ds, str = ds ++ (usaxStrtol long 10 str).endptr ∧ (37 : UInt8) ∉ ds := by
  have hminus : ∃ ds, str = ds ++ skipMinus long str ∧ (37 : UInt8) ∉ ds := by
    unfold skipMinus hasMinus
    split_ifs with h
    · cases str with
      | nil => exact ⟨[], rfl, by simp⟩
      | cons c str =>
        obtain rfl : c = 45 := by simpa using (Bool.and_eq_true_iff.mp h).2
        exact ⟨[45], rfl, by decide⟩
    · exact ⟨[], rfl, by simp⟩
  obtain ⟨ds, heq, hds⟩ := hminus
  rw [usaxStrtol_eq]
  split_ifs
  · exact ⟨ds, heq, hds⟩
  all_goals
    refine ⟨ds ++ (skipMinus long str).takeWhile (isValidDigit · 10), ?_, fun hx => ?_⟩
    · rw [List.append_assoc, afterDigits, List.takeWhile_append_dropWhile]
      exact heq
    · obtain hx | hx := List.mem_append.mp hx
      · exact hds hx
      · exact absurd (List.all_eq_true.mp List.all_takeWhile _ hx) (by decide)

theorem drop_strtolAt (long : IntType) (hi : i ≤ fmt.length) :
    (strtolAt long fmt i).2 ≤ fmt.length ∧ i ≤ (strtolAt long fmt i).2 ∧
    fmt.drop (strtolAt long fmt i).2 = (usaxStrtol long 10 (fmt.drop i)).endptr ∧
    (fmt.getD ((strtolAt long fmt i).2 - 1) 0 = 37 → (strtolAt long fmt i).2 = i ∧ fmt.getD (i - 1) 0 = 37) := by
  obtain ⟨ds, heq, hds⟩ := usaxStrtol_split long (fmt.drop i)
  have hfmt : fmt = fmt.take i ++ ds ++ (usaxStrtol long 10 (fmt.drop i)).endptr := by
    rw [List.append_assoc, ← heq, List.take_append_drop]
  have hpos : (strtolAt long fmt i).2 = i + ds.length := by
    have hlen := congrArg List.length hfmt
    rw [List.length_append, List.length_append, List.length_take, min_eq_left hi] at hlen
    show fmt.length - _ = _
    omega
  refine ⟨Nat.sub_le _ _, by omega, ?_, fun h => ?_⟩
  · rw [hpos, ← List.drop_drop]
    generalize (usaxStrtol long 10 (fmt.drop i)).endptr = e at heq
    rw [heq, List.drop_left]
  · rw [hpos] at h ⊢
    rcases List.eq_nil_or_concat ds with rfl | ⟨ds, d, rfl⟩
    · exact ⟨rfl, h⟩
    · -- the character before the new position is a digit or a minus
      exfalso
      have hd : fmt.getD (i + (ds ++ [d]).length - 1) 0 = d := by
        have hdrop := congrArg (·.getD ds.length 0) heq
        simp only [List.getD_eq_getElem?_getD, List.getElem?_drop] at hdrop ⊢
        rw [show i + (ds ++ [d]).length - 1 = i + ds.length by simp, hdrop]
        simp
      rw [List.concat_eq_append] at hds h
      refine hds ?_
      rw [← h, hd]
      simp

/-! ## The sequences -/

/-- What a scan has found, as an item with the rest of the format. -/
def itemOf (long : IntType) (fmt : List UInt8) : SeqEnd → Item
  | .char c i => .char c (fmt.drop (i + 1)) []
  | .param st c i args =>
    let p := paramStr long st c args
    .param st p.1 p.2.1 (fmt.drop (i + 1)) p.2.2
  | .unknown st c i args => if i < fmt.length then .unknown st c (fmt.drop (i + 1)) args else .unknownEnd st
  | .truncated => .truncated

/-- The position is in the format, from `k` on; only an unknown sequence can be at the terminator, with that as its
character. -/
def InFormat (fmt : List UInt8) (k : Nat) : SeqEnd → Prop
  | .char _ _ => False
  | .param _ _ i _ => k ≤ i ∧ i < fmt.length
  | .unknown _ c i _ => k ≤ i ∧ (i < fmt.length ∨ i = fmt.length ∧ c = 0)
  | .truncated => True

/-- The scan by positions and the one of the rest of the format have found the same. -/
def Same (long : IntType) (fmt : List UInt8) (k : Nat) : Except Stop SeqEnd → Item → Prop
  | .error stop, it => stop = .running ∧ it = .hang
  | .ok e, it => it = itemOf long fmt e ∧ InFormat fmt k e

variable {long : IntType} {k : Nat}

theorem Same.mono {k' : Nat} (hk : k ≤ k') :
    ∀ {e : Except Stop SeqEnd} {it : Item}, Same long fmt k' e it → Same long fmt k e it
  | .error _, _, h => h
  | .ok (.char _ _), _, h => h
  | .ok (.param _ _ _ _), _, h => ⟨h.1, hk.trans h.2.1, h.2.2⟩
  | .ok (.unknown _ _ _ _), _, h => ⟨h.1, hk.trans h.2.1, h.2.2⟩
  | .ok .truncated, _, h => h

theorem same_ite {p q : Prop} [Decidable p] [Decidable q] {a b : Except Stop SeqEnd} {x y : Item} (hpq : p ↔ q)
    (ht : p → Same long fmt k a x) (hf : ¬ p → Same long fmt k b y) :
    Same long fmt k (if p then a else b) (if q then x else y) := by
  by_cases h : p
  · rw [if_pos h, if_pos (hpq.mp h)]
    exact ht h
  · rw [if_neg h, if_neg (mt hpq.mpr h)]
    exact hf h

/-- A width that is refused is read forever. -/
theorem scan_stuck (hc : 49 ≤ fmt.getD i 0 ∧ fmt.getD i 0 ≤ 57) (hi : i ≤ fmt.length) (hstuck : (strtolAt long fmt i).2 = i)
    (fuel : Nat) (args : List VaArg) (st : SeqState) : scan long fmt fuel i args st = .error .running := by
  induction fuel generalizing st with
  | zero => rfl
  | succ fuel ih =>
    rw [scan, charAt_bind hi, hstuck]
    generalize fmt.getD i 0 = c at hc ⊢
    have hzero : c ≠ 0 ∧ c ≠ 48 := by
      constructor <;> (rintro rfl; exact absurd hc.1 (by decide))
    have hparam : ¬ isParam c = true := by
      intro h
      simp only [isParam, List.mem_cons, List.not_mem_nil, or_false, decide_eq_true_eq] at h
      obtain rfl | rfl | rfl | rfl | rfl | rfl | rfl | rfl | rfl := h <;> exact absurd hc.2 (by decide)
    rw [if_neg hzero.1, if_neg hparam, if_neg hzero.2, if_pos hc]
    exact ih _

theorem scan_same (hnul : ∀ c ∈ fmt, c ≠ 0) (fuel i : Nat) (args : List VaArg) (st : SeqState) {first : Bool}
    (hi : i ≤ fmt.length) (hfirst : first = decide (fmt.getD (i - 1) 0 = 37)) :
    Same long fmt i (scan long fmt fuel i args st) (scanSeq long fuel first (fmt.drop i) args st) := by
  induction fuel generalizing i args st first with
  | zero => exact ⟨rfl, rfl⟩
  | succ fuel ih =>
    rw [scan, charAt_bind hi]
    rcases hi.eq_or_lt with rfl | hlt
    · rw [List.getD_eq_default _ _ le_rfl, if_pos rfl, List.drop_length]
      exact ⟨rfl, trivial⟩
    rw [drop_eq_getD_cons hlt, scanSeq]
    have hzero : fmt.getD i 0 ≠ 0 := fun h => absurd ((getD_eq_zero_iff hnul).mp h) (by omega)
    rw [if_neg hzero]
    -- the next character, behind one that is no percent sign
    have hnext (st' : SeqState) (args' : List VaArg) (hc : fmt.getD i 0 ≠ 37) :
        Same long fmt i (scan long fmt fuel (i + 1) args' st') (scanSeq long fuel false (fmt.drop (i + 1)) args' st') :=
      (ih (i + 1) args' st' hlt (by simpa using hc)).mono (by omega)
    have hnum (f : Int → SeqState) (hc : fmt.getD i 0 ≠ 37) (stStar : SeqState) :
        Same long fmt i
          ((charAt fmt (i + 1)).bind fun d =>
            if d ≠ 42 then scan long fmt fuel (strtolAt long fmt (i + 1)).2 args (f (strtolAt long fmt (i + 1)).1)
            else scan long fmt fuel (i + 2) (nextInt args).2 stStar)
          (if (fmt.drop (i + 1)).head? = some 42 then
            scanSeq long fuel false (fmt.drop (i + 1)).tail (nextInt args).2 stStar
          else scanSeq long fuel false (usaxStrtol long 10 (fmt.drop (i + 1))).endptr args
            (f (int (usaxStrtol long 10 (fmt.drop (i + 1))).value))) := by
      obtain ⟨hle, hge, hdrop, hprev⟩ := drop_strtolAt long (i := i + 1) hlt
      rw [charAt_bind hlt, ← ite_not, ← hdrop]
      refine same_ite (not_not.trans head_drop_eq_star.symm) (fun hstar => ?_) fun _ => ?_
      · have hstar : fmt.getD (i + 1) 0 = 42 := not_not.mp hstar
        have hlt' : i + 1 < fmt.length := by
          by_contra hge
          rw [List.getD_eq_default _ _ (not_lt.mp hge)] at hstar
          exact absurd hstar (by decide)
        rw [List.tail_drop]
        refine (ih (i + 2) _ _ hlt' (Eq.symm (decide_eq_false ?_))).mono (by omega)
        show fmt.getD (i + 1) 0 ≠ 37
        rw [hstar]
        decide
      · refine (ih _ _ _ hle (Eq.symm (decide_eq_false fun h => hc ?_))).mono (by omega)
        simpa using (hprev h).2
    have hpercent {c : UInt8} (h : fmt.getD i 0 = c) (hc : c ≠ 37) : fmt.getD i 0 ≠ 37 := h ▸ hc
    refine same_ite Iff.rfl (fun _ => ⟨rfl, le_rfl, hlt⟩) fun _ =>
      same_ite Iff.rfl (fun h => hnext _ _ (hpercent h (by decide))) fun _ => ?_
    by_cases hdig : 49 ≤ fmt.getD i 0 ∧ fmt.getD i 0 ≤ 57
    · obtain ⟨hle, hge, hdrop, hprev⟩ := drop_strtolAt long hi
      rw [if_pos hdig, if_pos hdig, ← drop_eq_getD_cons hlt]
      dsimp only
      rw [← hdrop]
      split_ifs with hstuck
      · have hsame : (strtolAt long fmt i).2 = i := by
          have hlen := congrArg List.length hstuck
          simp only [List.length_drop] at hlen
          omega
        rw [hsame, scan_stuck hdig hi hsame]
        exact ⟨rfl, rfl⟩
      · refine (ih _ _ _ hle (Eq.symm (decide_eq_false fun h => hstuck ?_))).mono hge
        rw [(hprev h).1]
    rw [if_neg hdig, if_neg hdig]
    refine same_ite Iff.rfl (fun h => ?_) fun _ => same_ite Iff.rfl (fun h => ?_) fun _ =>
      same_ite Iff.rfl (fun h => ?_) fun _ => same_ite Iff.rfl (fun h => ?_) fun _ => same_ite Iff.rfl (fun h => ?_) fun _ =>
      same_ite Iff.rfl (fun h => ?_) fun _ => ⟨(if_pos hlt).symm, le_rfl, .inl hlt⟩
    · exact hnext _ _ (hpercent h (by decide))
    · exact hnum (fun v => { st with rpad := v }) (hpercent h (by decide)) _
    · exact hnum (fun v => { st with precision := v }) (hpercent h (by decide)) _
    · have hc := hpercent h (by decide)
      have hend : fmt.getD (i + 1) 0 = 0 ↔ fmt.drop (i + 1) = [] := by rw [getD_eq_zero_iff hnul, List.drop_eq_nil_iff]
      refine same_ite Iff.rfl (fun _ => ?_) fun _ => ?_
      · rw [charAt_bind hlt]
        refine same_ite hend (fun h0 => ?_) fun _ => hnext _ _ hc
        have hlen := (getD_eq_zero_iff hnul).mp h0
        exact ⟨(if_neg (not_lt.mpr hlen)).symm, Nat.le_succ i, .inr ⟨le_antisymm hlt hlen, h0⟩⟩
      · rw [charAt_bind ((Nat.sub_le i 1).trans hi), hfirst]
        by_cases hb : fmt.getD (i - 1) 0 = 37
        · rw [if_neg (not_not.mpr hb), charAt_bind hlt]
          have hfirst' : fmt.drop (i + 1) = [] ↔ decide (fmt.getD (i - 1) 0 = 37) = false ∨ fmt.drop (i + 1) = [] := by
            simp only [hb, decide_true, Bool.true_eq_false, false_or]
          exact same_ite (hend.trans hfirst') (fun _ => ⟨(if_pos hlt).symm, le_rfl, .inl hlt⟩) fun _ => hnext _ _ hc
        · rw [if_pos hb, if_pos (.inl (decide_eq_false hb))]
          exact ⟨(if_pos hlt).symm, le_rfl, .inl hlt⟩
    · have hc : fmt.getD i 0 ≠ 37 := by
        obtain h | h | h | h | h := h <;> rw [h] <;> decide
      exact same_ite Iff.rfl (fun _ => ⟨(if_pos hlt).symm, le_rfl, .inl hlt⟩) fun _ => hnext _ _ hc
    · have hc : fmt.getD i 0 ≠ 37 := by
        obtain h | h := h <;> rw [h] <;> decide
      cases doubleMod (decide (fmt.getD i 0 = 108)) st.width with
      | none => exact ⟨(if_pos hlt).symm, le_rfl, .inl hlt⟩
      | some width => exact hnext _ _ hc

/-- More rounds than characters find nothing else. -/
theorem scanSeq_fuel {fuel fuel' : Nat} {first : Bool} (l : List UInt8) (args : List VaArg) (st : SeqState)
    (h : l.length < fuel) (h' : l.length < fuel') : scanSeq long fuel first l args st = scanSeq long fuel' first l args st := by
  induction fuel generalizing fuel' first l args st with
  | zero => omega
  | succ fuel ih =>
    obtain ⟨fuel', rfl⟩ : ∃ n, fuel' = n + 1 := ⟨fuel' - 1, by omega⟩
    cases l with
    | nil => rfl
    | cons c l =>
      have hlen (str : List UInt8) : (usaxStrtol long 10 str).endptr.length ≤ str.length ∧
          ((usaxStrtol long 10 str).endptr ≠ str → (usaxStrtol long 10 str).endptr.length < str.length) := by
        obtain ⟨ds, heq, -⟩ := usaxStrtol_split long str
        generalize (usaxStrtol long 10 str).endptr = e at heq
        subst heq
        cases ds
        · simp
        · simp
          omega
      simp only [List.length_cons] at h h'
      have hnext {st : SeqState} {args : List VaArg} {l' : List UInt8} (hl : l'.length ≤ l.length) :
          scanSeq long fuel false l' args st = scanSeq long fuel' false l' args st := ih l' args st (by omega) (by omega)
      have htail : l.tail.length ≤ l.length := by simp
      have hdigits (st : SeqState) : (if (usaxStrtol long 10 (c :: l)).endptr = c :: l then .hang
          else scanSeq long fuel false (usaxStrtol long 10 (c :: l)).endptr args st) =
          if (usaxStrtol long 10 (c :: l)).endptr = c :: l then .hang
          else scanSeq long fuel' false (usaxStrtol long 10 (c :: l)).endptr args st := by
        split_ifs with hsame
        · rfl
        · exact hnext (Nat.le_of_lt_succ ((hlen (c :: l)).2 hsame))
      unfold scanSeq
      simp only [hnext le_rfl, hnext (hlen l).1, hnext htail, hdigits]

/-! ## The whole format -/

/-- The run reads behind the terminator exactly if the text goes there. -/
def ReadsLike (t : Except Unprintable (List UInt8)) (r : Except Stop (Out UInt8)) : Prop :=
  r = .error .outside ↔ t = .error .behind

theorem readsLike_cut {w : Out UInt8 × Bool} {a : List UInt8} {o : Out UInt8} (hw : w = emit a o)
    {k : Nat → Except Unprintable (List UInt8)} {rest : Out UInt8 → Except Stop (Out UInt8)}
    (hrest : ∀ o' : Out UInt8, o'.buf.length < o'.cap → ReadsLike (k (o'.cap - o'.buf.length)) (rest o')) :
    ReadsLike (cut (o.cap - o.buf.length) a k) (if w.2 then rest w.1 else .ok w.1) := by
  subst hw
  have hlen : (o.buf ++ a).length = o.buf.length + a.length := List.length_append
  by_cases hroom : (o.buf ++ a).length < o.cap
  · have hnext := hrest { o with buf := o.buf ++ a } hroom
    rw [emit_of_room hroom, if_pos rfl, cut, if_neg (by omega)]
    rw [show o.cap - (o.buf ++ a).length = o.cap - o.buf.length - a.length by omega] at hnext
    refine Iff.trans hnext ?_
    cases k (o.cap - o.buf.length - a.length) <;> simp [Except.map]
  · have hfull : (emit a o).2 = false := decide_eq_false hroom
    rw [hfull, cut, if_pos (by omega)]
    simp [ReadsLike]

theorem readsLike_full {w : Out UInt8 × Bool} (hw : w.2 = false) {rest : Except Stop (Out UInt8)} :
    ReadsLike (.error .overrun) (if w.2 then rest else .ok w.1) := by
  rw [hw]
  simp [ReadsLike]

theorem vsnprintk_readsLike (hnul : ∀ c ∈ fmt, c ≠ 0) (fuel : Nat) (i : Nat) (hi : i ≤ fmt.length) (fuel' : Nat)
    (hfuel' : fmt.length - i ≤ fuel') (hfuel : fmt.length - i + 2 ≤ fuel) (args : List VaArg) (o : Out UInt8)
    (ho : o.buf.length < o.cap) :
    ReadsLike (textLoop long fuel' (o.cap - o.buf.length) (fmt.drop i) args) (vsnprintk long fmt fuel i args o) := by
  induction fuel generalizing i fuel' args o with
  | zero => omega
  | succ fuel ih =>
    rw [vsnprintk, charAt_bind hi]
    rcases hi.eq_or_lt with rfl | hlt
    · rw [List.getD_eq_default _ _ le_rfl, if_pos rfl, List.drop_length, textLoop]
      simp [ReadsLike]
    obtain ⟨fuel', rfl⟩ : ∃ n, fuel' = n + 1 := ⟨fuel' - 1, by omega⟩
    have hzero : fmt.getD i 0 ≠ 0 := fun h => absurd ((getD_eq_zero_iff hnul).mp h) (by omega)
    have hitem (j : Nat) (hj : i ≤ j) (hj' : j < fmt.length) (args : List VaArg) (o' : Out UInt8)
        (ho' : o'.buf.length < o'.cap) :
        ReadsLike (textLoop long fuel' (o'.cap - o'.buf.length) (fmt.drop (j + 1)) args)
          (vsnprintk long fmt fuel (j + 1) args o') :=
      ih (j + 1) hj' fuel' (by omega) (by omega) args o' ho'
    rw [if_neg hzero, drop_eq_getD_cons hlt, textLoop]
    by_cases hc : fmt.getD i 0 ≠ 37
    · rw [if_pos hc, nextItem.eq_def, if_pos hc]
      exact readsLike_cut (emits_put _ o ho) (hitem i le_rfl hlt args)
    rw [if_neg hc, nextItem.eq_def, if_neg hc, processSeq, charAt_bind hlt]
    -- what the sequence ends in
    have hseq := @scan_same fmt long hnul fuel (i + 1) args resetState true hlt
      (Eq.symm (decide_eq_true (not_not.mp hc)))
    have hlong : (fmt.drop (i + 1)).length < fuel := by
      rw [List.length_drop]
      omega
    rw [scanSeq_fuel _ _ _ hlong (Nat.lt_succ_self _)] at hseq
    rcases Nat.eq_or_lt_of_le hlt with hend | hlt'
    · obtain ⟨fuel, rfl⟩ : ∃ n, fuel = n + 1 := ⟨fuel - 1, by omega⟩
      have hdrop : fmt.drop (i + 1) = [] := List.drop_eq_nil_of_le hend.ge
      rw [hdrop, List.getD_eq_default _ _ hend.ge, if_neg (by decide), scan, charAt_bind hlt,
        List.getD_eq_default _ _ hend.ge, if_pos rfl]
      simp [ReadsLike, Except.bind]
    rw [drop_eq_getD_cons hlt'] at hseq ⊢
    dsimp only
    by_cases hd : fmt.getD (i + 1) 0 = 37 ∨ fmt.getD (i + 1) 0 ≥ 128
    · rw [if_pos hd, if_pos hd]
      exact readsLike_cut (emits_put _ o ho) (hitem (i + 1) (by omega) hlt' args)
    rw [if_neg hd, if_neg hd]
    cases hres : scan long fmt fuel (i + 1) args resetState with
    | error stop =>
      rw [hres] at hseq
      obtain ⟨rfl, hhang⟩ := hseq
      rw [hhang]
      simp [ReadsLike, Except.bind]
    | ok e =>
      rw [hres] at hseq
      obtain ⟨hit, hin⟩ := hseq
      rw [hit]
      cases e with
      | char c j => exact absurd hin id
      | param st c j args => exact readsLike_cut (emits_writeStr _ _ _ o ho) (hitem j (Nat.le_of_succ_le hin.1) hin.2 _)
      | truncated => simp [ReadsLike, itemOf, Except.bind]
      | unknown st c j args =>
        have hcases := writeUnknown_cases long st c ho
        obtain ⟨hj, hlt | ⟨rfl, rfl⟩⟩ := hin
        · simp only [itemOf, if_pos hlt]
          by_cases hend : EndsInWidth long st (o.cap - o.buf.length)
          · rw [if_pos hend] at hcases ⊢
            exact readsLike_full hcases.1
          · rw [if_neg hend] at hcases ⊢
            exact readsLike_cut hcases (hitem j (Nat.le_of_succ_le hj) hlt args)
        · simp only [itemOf, lt_irrefl, if_false]
          by_cases hend : EndsInWidth long st (o.cap - o.buf.length)
          · rw [if_pos hend] at hcases ⊢
            exact readsLike_full hcases.1
          · rw [if_neg hend] at hcases ⊢
            refine @readsLike_cut _ _ _ hcases (fun _ => .error .behind) _ fun o' _ => ?_
            -- the character behind the terminator
            obtain ⟨fuel, rfl⟩ : ∃ n, fuel = n + 1 := ⟨fuel - 1, by omega⟩
            exact iff_of_true (by simp [vsnprintk, charAt, Except.bind]) rfl

end

end Usax.Common.FormatReads
