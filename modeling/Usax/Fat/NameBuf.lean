import Usax.Fat.Walk

/-!
# The buffer for long names

`fat_handle_long_dir_entry` appends the characters of a long entry to `lname_buf` without a look at its size; only another
checksum, or a file, starts the name again. `BufFits` says of the entries of a directory that no row of long entries has more
characters than the buffer, and that there is room for the NUL behind the name of a file. That is what a walk needs to stay in
the buffer, whatever the callback does (`walkSlots_within`, `bufFits_of_walkSlots`).
-/

namespace Usax.Fat

variable {σ : Type} {cb : σ → Nat → Option (List UInt8) → σ × Bool} {ctx : LongNameCtx} {arg : σ} {l : List Slot}
  {stale : List FatEntry}

/-- The text of the long entries stays in the buffer; `stale` has those since the last file. -/
inductive BufFits : List FatEntry → List Slot → Prop
  | done {stale : List FatEntry} {l : List Slot} : Ends l → RowsFit stale → BufFits stale l
  | long {stale : List FatEntry} {off : Nat} {e : FatEntry} {l : List Slot} : e.isLongNameEntry = true →
      BufFits (stale ++ [e]) l → BufFits stale ((off, e) :: l)
  | skip {stale : List FatEntry} {off : Nat} {e : FatEntry} {l : List Slot} : e.isLongNameEntry = false → e.skipped = true →
      BufFits stale l → BufFits stale ((off, e) :: l)
  | file {stale : List FatEntry} {off : Nat} {e : FatEntry} {l : List Slot} : e.live = true → RowsFit stale →
      (∀ n ∈ nameAt e.checksum stale, n.length < lnameBufSize) → BufFits [] l → BufFits stale ((off, e) :: l)

def noting (cb : σ → Nat → Option (List UInt8) → σ × Bool) (arg : σ × List (List UInt8)) (off : Nat)
    (name : Option (List UInt8)) : (σ × List (List UInt8)) × Bool :=
  (((cb arg.1 off name).1, arg.2 ++ name.toList), (cb arg.1 off name).2)

/-- Nothing was written after the end of the buffer, and the names that the callback was given have their NUL in it. -/
def Within (ctx : LongNameCtx) (names : List (List UInt8)) : Prop :=
  ctx.fault = false ∧ ∀ n ∈ names, n.length < lnameBufSize

theorem fresh_after_file (hc : ctx.Fresh) (stale : List FatEntry) (e : FatEntry) :
    ((ctx.after stale).nameOf e).1.clear.Fresh ↔
      RowsFit stale ∧ ∀ n ∈ nameAt e.checksum stale, n.length < lnameBufSize := by
  obtain ⟨-, hfault⟩ := hc.nameOf stale e
  have hfit := (hc.after stale).2.2.2.2
  have hany : (nameAt e.checksum stale).any (fun n => decide (lnameBufSize ≤ n.length)) = false ↔
      ∀ n ∈ nameAt e.checksum stale, n.length < lnameBufSize := by
    cases nameAt e.checksum stale <;> simp
  constructor
  · intro h
    have h : ((ctx.after stale).nameOf e).1.fault = false := h.fault
    rw [hfault, Bool.or_eq_false_iff] at h
    exact ⟨hfit.mp h.1, hany.mp h.2⟩
  · rintro ⟨hrows, hn⟩
    refine ⟨rfl, rfl, ?_⟩
    show ((ctx.after stale).nameOf e).1.fault = false
    rw [hfault, hfit.mpr hrows, hany.mpr hn]
    rfl

theorem walkSlots_within (h : BufFits stale l) (hc : ctx.Fresh) (arg : σ) {names : List (List UInt8)}
    (hn : ∀ n ∈ names, n.length < lnameBufSize) :
    Within (walkSlots (noting cb) l (ctx.after stale, (arg, names))).1.1
      (walkSlots (noting cb) l (ctx.after stale, (arg, names))).1.2.2 := by
  induction h generalizing ctx arg names with
  | done hend hfit =>
    rw [walkSlots_ends hend]
    exact ⟨(hc.after _).2.2.2.2.mpr hfit, hn⟩
  | long hl _ ih =>
    rw [walkSlots_long hl]
    have := ih hc arg hn
    rwa [← LongNameCtx.after_append] at this
  | skip hl hs _ ih =>
    rw [walkSlots_skip hl hs]
    exact ih hc arg hn
  | @file stale off e l hlive hfit hname _ ih =>
    have hfresh := (fresh_after_file hc stale e).mpr ⟨hfit, hname⟩
    have hnames : ∀ n ∈ names ++ ((ctx.after stale).nameOf e).2.toList, n.length < lnameBufSize := by
      rw [(hc.nameOf stale e).1]
      exact List.forall_mem_append.mpr ⟨hn, fun n h => hname n (Option.mem_toList.mp h)⟩
    rw [walkSlots_live hlive]
    split_ifs with hstop
    · exact ⟨hfresh.fault, hnames⟩
    · exact ih hfresh _ hnames

theorem bufFits_of_walkSlots (hc : ctx.Fresh) (hgo : ∀ arg off name, (cb arg off name).2 = false) (arg : σ)
    (hf : (walkSlots cb l (ctx.after stale, arg)).1.1.fault = false) : BufFits stale l := by
  induction l generalizing ctx arg stale with
  | nil => exact .done (fun _ hs => nomatch hs) ((hc.after stale).2.2.2.2.mp hf)
  | cons s l ih =>
    obtain ⟨off, e⟩ := s
    by_cases hl : e.isLongNameEntry = true
    · rw [walkSlots_long hl] at hf
      exact .long hl (ih hc arg (by rwa [← LongNameCtx.after_append]))
    by_cases hs : e.skipped = true
    · rw [walkSlots_skip (Bool.eq_false_iff.mpr hl) hs] at hf
      exact .skip (Bool.eq_false_iff.mpr hl) hs (ih hc arg hf)
    by_cases hlast : e.last = true
    · have hends : Ends ((off, e) :: l) := fun s hs' => by
        obtain rfl := Option.some.inj hs'
        exact ⟨Bool.eq_false_iff.mpr hs, hlast⟩
      rw [walkSlots_ends hends] at hf
      exact .done hends ((hc.after stale).2.2.2.2.mp hf)
    · have hlive := live_iff.mpr ⟨Bool.eq_false_iff.mpr hs, Bool.eq_false_iff.mpr hlast⟩
      rw [walkSlots_live hlive, hgo, if_neg Bool.false_ne_true] at hf
      have hfresh : ((ctx.after stale).nameOf e).1.clear.Fresh := by
        refine ⟨rfl, rfl, Bool.eq_false_iff.mpr fun ht => ?_⟩
        exact absurd (walkSlots_fault cb l ht _) (by rw [hf]; decide)
      obtain ⟨hfit, hname⟩ := (fresh_after_file hc stale e).mp hfresh
      exact .file hlive hfit hname (ih hfresh _ hf)

variable {v : FatVol} {ft : FatType} {cluster size fuel : Nat} {area walked : List Slot}

/-- **The long names stay in their buffer** in a walk with any callback, and have their NUL in it, if and only if the text of
the long entries before each file fits. This is so for a pass over any entries, and for the walk of a directory. -/
theorem lname_buf_within (hd : IsDir v ft cluster size area walked) (hf : size ≤ fuel) :
    (∀ l : List Slot, BufFits [] l ↔ ∀ (σ : Type) (cb : σ → Nat → Option (List UInt8) → σ × Bool) (arg : σ),
      Within (walkSlots (noting cb) l (.init, (arg, []))).1.1 (walkSlots (noting cb) l (.init, (arg, []))).1.2.2) ∧
    (BufFits [] walked ↔ ∀ (σ : Type) (cb : σ → Nat → Option (List UInt8) → σ × Bool) (arg : σ), ∃ ctx arg' names,
      fatWalk (fun _ => v) (noting cb) ft fuel cluster true (arg, []) = some (some ctx, (arg', names)) ∧
        Within ctx names) := by
  have hfresh : LongNameCtx.init.Fresh := ⟨rfl, rfl, rfl⟩
  have hpass : ∀ l : List Slot, BufFits [] l ↔ ∀ (σ : Type) (cb : σ → Nat → Option (List UInt8) → σ × Bool) (arg : σ),
      Within (walkSlots (noting cb) l (.init, (arg, []))).1.1 (walkSlots (noting cb) l (.init, (arg, []))).1.2.2 := fun l => by
    refine ⟨fun h σ cb arg => walkSlots_within h hfresh arg (fun n hn => nomatch hn), fun h => ?_⟩
    refine bufFits_of_walkSlots hfresh ?_ ((), []) (h Unit (fun _ _ _ => ((), false)) ()).1
    exact fun _ _ _ => rfl
  refine ⟨hpass, (hpass walked).trans (forall₃_congr fun σ cb arg => ?_)⟩
  rw [hd.fatWalk_eq hf]
  constructor
  · exact fun h => ⟨_, _, _, rfl, h⟩
  · rintro ⟨ctx, arg', names, he, h⟩
    simp only [Option.some.injEq, Prod.mk.injEq] at he
    obtain ⟨rfl, he⟩ := he
    rwa [he]

/-- A file after long entries with one checksum and 13 characters each. -/
def longRow (n : Nat) : FatVol := rootVol (List.replicate n (longOf 1 65 (List.replicate 13 97)) ++ [fileEntry 65])

/-- Three long entries have 39 characters. -/
theorem lname_buf_within_row : ∃ ctx names, fatWalk (fun _ => longRow 3) (noting fun _ _ _ => ((), false)) .fat16 1 0 true
    ((), []) = some (some ctx, ((), names)) ∧ Within ctx names ∧ names.map List.length = [39] := by
  have hwalk : (fatWalk (fun _ => longRow 3) (noting fun _ _ _ => ((), false)) .fat16 1 0 true ((), [])).map
      (fun r => r.2.2.map List.length) = some [39] := by decide +kernel
  have hin : (walkSlots (noting fun _ _ _ => ((), false)) ((longRow 3).slots 10752 32)
      (LongNameCtx.init.after [], ((), []))).1.1.fault = false := by decide +kernel
  have hfit : BufFits [] ((longRow 3).slots 10752 32) :=
    bufFits_of_walkSlots ⟨rfl, rfl, rfl⟩ (fun _ _ _ => rfl) ((), []) hin
  obtain ⟨ctx, arg', names, h, hw⟩ := (lname_buf_within (v := longRow 3) .root16 (Nat.le_refl 1)).2.mp hfit Unit
    (fun _ _ _ => ((), false)) ()
  rw [h] at hwalk
  exact ⟨ctx, names, h, hw, Option.some.inj hwalk⟩

/-- **Twenty long entries with one checksum** have 260 characters. -/
theorem lname_buf_overflows :
    (fatWalk (fun _ => longRow 20) (noting fun _ _ _ => ((), false)) .fat16 1 0 true ((), [])).map
        (fun r => (r.1.map LongNameCtx.fault, r.2.2.map List.length)) = some (some true, [260]) := by decide +kernel

end Usax.Fat
