import Usax.Fat.LongName

/-!
# The files that a walk reports

`Clean` says of the entries of a directory what has to hold for `fat_walk` to report its files with their names. A walk of
such entries calls the callback for the files, one after the other, until it answers that the walk is over
(`walkSlots_of_clean`). If the walk reports the files with their names, the entries are clean (`clean_of_walkSlots`): after each
file the context is as at the start, so that each file has a condition of its own.

The root directory of a FAT16 volume is not a chain of clusters: `fat_walk` goes over as many entries as a cluster has, which
may be less or more than the root directory has (`IsDir`). `fat_walk_exact` has both kinds of directories.
-/

namespace Usax.Fat

variable {σ : Type} {cb : σ → Nat → Option (List UInt8) → σ × Bool} {ctx : LongNameCtx} {arg : σ} {off : Nat} {e : FatEntry}
  {l own : List Slot} {fs : List DirFile} {stale : List FatEntry}

/-! ## One entry -/

/-- The callback for some files, until it answers that the walk is over. -/
def feed (cb : σ → Nat → Option (List UInt8) → σ × Bool) : List (Nat × Option (List UInt8)) → σ → σ
  | [], arg => arg
  | (off, name) :: rs, arg => if (cb arg off name).2 then (cb arg off name).1 else feed cb rs (cb arg off name).1

theorem walkSlots_long (h : e.isLongNameEntry = true) :
    walkSlots cb ((off, e) :: l) (ctx, arg) = walkSlots cb l (fatHandleLongDirEntry ctx e, arg) := if_pos h

theorem walkSlots_longs (h : ∀ s ∈ own, s.2.isLongNameEntry = true) (ctx : LongNameCtx) :
    walkSlots cb (own ++ l) (ctx, arg) = walkSlots cb l (ctx.after (own.map Prod.snd), arg) := by
  induction own generalizing ctx with
  | nil => rfl
  | cons s own ih =>
    obtain ⟨hs, h⟩ := List.forall_mem_cons.mp h
    rw [List.cons_append, walkSlots_long hs]
    exact ih h _

theorem walkSlots_skip (hl : e.isLongNameEntry = false) (h : e.skipped = true) :
    walkSlots cb ((off, e) :: l) (ctx, arg) = walkSlots cb l (ctx, arg) := by
  have hs : e.volumeId = true ∨ e.available = true := by simpa [FatEntry.skipped, hl] using h
  simp [walkSlots, hl, hs]

theorem walkSlots_live (h : e.live = true) :
    walkSlots cb ((off, e) :: l) (ctx, arg) =
      if (cb arg off (ctx.nameOf e).2).2 then (((ctx.nameOf e).1.clear, (cb arg off (ctx.nameOf e).2).1), true)
      else walkSlots cb l ((ctx.nameOf e).1.clear, (cb arg off (ctx.nameOf e).2).1) := by
  simp only [FatEntry.live, Bool.and_eq_true, Bool.not_eq_eq_eq_not, Bool.not_true] at h
  obtain ⟨⟨⟨h₁, h₂⟩, h₃⟩, h₄⟩ := h
  simp [walkSlots, h₁, h₂, h₃, h₄]

theorem walkSlots_ends (h : Ends l) : (walkSlots cb l (ctx, arg)).1 = (ctx, arg) := by
  cases l with
  | nil => rfl
  | cons s l =>
    obtain ⟨hs, hlast⟩ := h s rfl
    simp only [FatEntry.skipped, Bool.or_eq_false_iff] at hs
    obtain ⟨⟨h₁, h₂⟩, h₃⟩ := hs
    simp [walkSlots, h₁, h₂, h₃, hlast]

/-! ## Clean directories -/

/-- The slots hold the files, and `fat_walk` finds their names; `stale` has the long entries since the last file. No row of
long entries of one checksum is too long for the buffer. Before a file without a long name there is no row with its checksum
that spells something. Before the own entries of a file with a long name there is no row with its checksum that has anything to
say, and the name has no space and no exclamation mark. -/
inductive Clean : List FatEntry → List Slot → List DirFile → Prop
  | done {stale : List FatEntry} {l : List Slot} : Ends l → RowsFit stale → Clean stale l []
  | long {stale : List FatEntry} {off : Nat} {e : FatEntry} {l : List Slot} {fs : List DirFile} :
      e.isLongNameEntry = true → Clean (stale ++ [e]) l fs → Clean stale ((off, e) :: l) fs
  | skip {stale : List FatEntry} {off : Nat} {e : FatEntry} {l : List Slot} {fs : List DirFile} :
      e.isLongNameEntry = false → e.skipped = true → Clean stale l fs → Clean stale ((off, e) :: l) fs
  | short {stale : List FatEntry} {f : DirFile} {l : List Slot} {fs : List DirFile} : f.lname = none → f.entry.live = true →
      RowsFit stale → ¬ Spells (row f.entry.checksum stale) → Clean [] l fs → Clean stale ((f.off, f.entry) :: l) (f :: fs)
  | named {stale : List FatEntry} {own : List Slot} {f : DirFile} {n : LongName} {l : List Slot} {fs : List DirFile} :
      f.lname = some n → f.entry.live = true → own.map Prod.snd = n.longEntries f.entry.checksum → RowsFit stale →
      (∀ x ∈ row f.entry.checksum stale, x.chars = some []) → (∀ ch ∈ n.chars, ch ≠ 32 ∧ ch ≠ 33) → Clean [] l fs →
      Clean stale (own ++ (f.off, f.entry) :: l) (f :: fs)

/-- What is reported of a file. -/
def DirFile.report (f : DirFile) : Nat × Option (List UInt8) := (f.off, f.lname.map LongName.chars)

theorem isLong_skipped (h : e.isLongNameEntry = true) : e.skipped = true := by simp [FatEntry.skipped, h]

theorem isLong_of_own {c : UInt8} {n : LongName} (h : own.map Prod.snd = n.longEntries c) :
    ∀ s ∈ own, s.2.isLongNameEntry = true := fun _ hs =>
  (LongName.mem_longEntries (h ▸ List.mem_map_of_mem hs)).1

theorem isLong_of_longEntries {f : DirFile} (h : own.map Prod.snd = f.longEntries) :
    ∀ s ∈ own, s.2.isLongNameEntry = true := by
  unfold DirFile.longEntries at h
  cases hn : f.lname with
  | none =>
    rw [hn] at h
    exact List.map_eq_nil_iff.mp h ▸ fun _ hs => nomatch hs
  | some n =>
    rw [hn] at h
    exact isLong_of_own h

theorem LongNameCtx.after_append (ctx : LongNameCtx) (l r : List FatEntry) : (ctx.after l).after r = ctx.after (l ++ r) :=
  List.foldl_append.symm

theorem rowsFit_own {n : LongName} {c : UInt8} (hfit : RowsFit stale) (hrow : ∀ x ∈ row c stale, x.chars = some [])
    (hch : ∀ ch ∈ n.chars, ch ≠ 32 ∧ ch ≠ 33) : RowsFit (stale ++ n.longEntries c) := by
  intro p hp c'
  rcases List.prefix_or_prefix_of_prefix hp (List.prefix_append stale _) with hp' | ⟨r, rfl⟩
  · exact hfit p hp' c'
  · have hr : r <+: n.longEntries c := (List.prefix_append_right_inj stale).mp hp
    rcases List.eq_nil_or_concat' r with rfl | ⟨r', x, rfl⟩
    · exact hfit _ (by simp) c'
    · by_cases hcc : c = c'
      · subst hcc
        have hall : ∀ y ∈ row c stale ++ (r' ++ [x]), y.Plain := List.forall_mem_append.mpr
          ⟨fun x hx => ⟨[], hrow x hx, by simp⟩, fun x hx => (n.plain_longEntries c).mpr hch x (hr.subset hx)⟩
        rw [row_append fun x hx => (LongName.mem_longEntries (hr.subset hx)).2.1, rowText]
        rcases foldl_rowStep (row c stale ++ (r' ++ [x])) [] with ⟨-, ht⟩ | ⟨hn, -⟩
        · have hnil := (flatMap_eq_nil_of_plain fun x hx => ⟨[], hrow x hx, by simp⟩).mpr hrow
          have hpre : ((r' ++ [x]).flatMap fun x => (x.chars.getD []).reverse).length ≤ n.chars.length := by
            obtain ⟨t, ht⟩ := hr
            rw [← n.chars.length_reverse, ← n.flatMap_longEntries c, ← ht, List.flatMap_append]
            simp
          rw [ht, List.nil_append, List.flatMap_append, hnil, List.nil_append]
          exact Nat.le_trans hpre (Nat.le_trans n.length_le (by decide))
        · exact absurd hall hn
      · have hx : x.ldirChksum = c := (LongName.mem_longEntries (hr.subset (by simp))).2.1
        rw [← List.append_assoc, row_concat_of_ne (hx ▸ hcc)]
        exact Nat.zero_le _

theorem walkSlots_file (cb : σ → Nat → Option (List UInt8) → σ × Bool) (l : List Slot) (hc : ctx.Fresh)
    {pre : List FatEntry} {f : DirFile} (hlive : f.entry.live = true) (hfit : RowsFit pre)
    (hname : nameAt f.entry.checksum pre = f.lname.map LongName.chars) (arg : σ) : ∃ ctx' : LongNameCtx, ctx'.Fresh ∧
      walkSlots cb ((f.off, f.entry) :: l) (ctx.after pre, arg) =
        if (cb arg f.report.1 f.report.2).2 then ((ctx', (cb arg f.report.1 f.report.2).1), true)
        else walkSlots cb l (ctx', (cb arg f.report.1 f.report.2).1) := by
  obtain ⟨hn, hfault⟩ := hc.nameOf pre f.entry
  refine ⟨((ctx.after pre).nameOf f.entry).1.clear, ⟨rfl, rfl, ?_⟩, ?_⟩
  · have hshort : (f.lname.map LongName.chars).any (fun n => lnameBufSize ≤ n.length) = false := by
      cases f.lname with
      | none => rfl
      | some n =>
        have := n.length_le
        exact decide_eq_false (by unfold lnameBufSize; omega)
    show ((ctx.after pre).nameOf f.entry).1.fault = false
    rw [hfault, hname, hshort, (hc.after pre).2.2.2.2.mpr hfit]
    rfl
  · rw [walkSlots_live hlive, hn, hname]
    rfl

theorem walkSlots_of_clean (cb : σ → Nat → Option (List UInt8) → σ × Bool) (h : Clean stale l fs) (hc : ctx.Fresh)
    (arg : σ) :
    (walkSlots cb l (ctx.after stale, arg)).1.2 = feed cb (fs.map DirFile.report) arg ∧
      (walkSlots cb l (ctx.after stale, arg)).1.1.fault = false := by
  have atFile : ∀ {pre : List FatEntry} {f : DirFile} {l : List Slot} {fs : List DirFile} {ctx : LongNameCtx} {arg : σ},
      ctx.Fresh → f.entry.live = true → RowsFit pre → nameAt f.entry.checksum pre = f.lname.map LongName.chars →
      (∀ {ctx : LongNameCtx}, ctx.Fresh → ∀ arg, (walkSlots cb l (ctx, arg)).1.2 = feed cb (fs.map DirFile.report) arg ∧
        (walkSlots cb l (ctx, arg)).1.1.fault = false) →
      (walkSlots cb ((f.off, f.entry) :: l) (ctx.after pre, arg)).1.2 = feed cb ((f :: fs).map DirFile.report) arg ∧
        (walkSlots cb ((f.off, f.entry) :: l) (ctx.after pre, arg)).1.1.fault = false := by
    intro pre f l fs ctx arg hc hlive hfit hname ih
    obtain ⟨ctx', hc', hw⟩ := walkSlots_file cb l hc hlive hfit hname arg
    rw [hw, List.map_cons]
    unfold feed
    split_ifs with hstop
    · exact ⟨rfl, hc'.fault⟩
    · exact ih hc' _
  induction h generalizing ctx arg with
  | done hend hfit =>
    rw [walkSlots_ends hend]
    exact ⟨rfl, (hc.after _).2.2.2.2.mpr hfit⟩
  | long hl _ ih =>
    rw [walkSlots_long hl]
    have := ih hc arg
    rwa [← LongNameCtx.after_append] at this
  | skip hl hs _ ih =>
    rw [walkSlots_skip hl hs]
    exact ih hc arg
  | short hn hlive hfit hsp _ ih =>
    refine atFile hc hlive hfit ?_ ih
    rw [hn, nameAt_eq_none.mpr hsp]
    rfl
  | named hn hlive hown hfit hrow hch _ ih =>
    rw [walkSlots_longs (isLong_of_own hown), hown, LongNameCtx.after_append]
    refine atFile hc hlive (rowsFit_own hfit hrow hch) ?_ ih
    rw [hn, nameAt_longEntries.mpr ⟨hrow, hch⟩]
    rfl

/-! ## Reports -/

/-- A callback that takes down what it is called for. -/
def record (arg : List (Nat × Option (List UInt8))) (off : Nat) (name : Option (List UInt8)) :
    List (Nat × Option (List UInt8)) × Bool := (arg ++ [(off, name)], false)

theorem feed_record (rs arg : List (Nat × Option (List UInt8))) : feed record rs arg = arg ++ rs := by
  induction rs generalizing arg with
  | nil => simp [feed]
  | cons r rs ih => simp [feed, record, ih]

/-- The entries of files that a walk comes to. -/
def lives : List Slot → List Slot
  | [] => []
  | s :: l => if s.2.skipped then lives l else if s.2.last then [] else s :: lives l

theorem live_iff : e.live = true ↔ e.skipped = false ∧ e.last = false := by
  simp [FatEntry.live, FatEntry.skipped, and_assoc]

theorem walkSlots_fault (cb : σ → Nat → Option (List UInt8) → σ × Bool) (l : List Slot) (hf : ctx.fault = true) (arg : σ) :
    (walkSlots cb l (ctx, arg)).1.1.fault = true := by
  induction l generalizing ctx arg with
  | nil => exact hf
  | cons s l ih =>
    obtain ⟨off, e⟩ := s
    have hlong : (fatHandleLongDirEntry ctx e).fault = true := by
      rw [fatHandleLongDirEntry_eq (fun _ => hf) e rfl]
      simp [hf]
    have hname : (ctx.nameOf e).1.clear.fault = true := by
      show (ctx.nameOf e).1.fault = true
      unfold LongNameCtx.nameOf finalizeLongName
      split_ifs <;> simp [hf]
    simp only [walkSlots]
    split_ifs
    · exact ih hlong arg
    · exact ih hf arg
    · exact hf
    · exact hname
    · exact ih hname _

theorem walkSlots_record (l : List Slot) (ctx : LongNameCtx) : ∃ out : List (Nat × Option (List UInt8)),
    out.length = (lives l).length ∧ ∀ arg, (walkSlots record l (ctx, arg)).1.2 = arg ++ out := by
  induction l generalizing ctx with
  | nil => exact ⟨[], rfl, fun arg => (List.append_nil arg).symm⟩
  | cons s l ih =>
    obtain ⟨off, e⟩ := s
    unfold lives
    by_cases hl : e.isLongNameEntry = true
    · have hs := isLong_skipped hl
      simp only [hs, if_true, walkSlots_long hl]
      exact ih (fatHandleLongDirEntry ctx e)
    · by_cases hs : e.skipped = true
      · simp only [hs, if_true, walkSlots_skip (Bool.eq_false_iff.mpr hl) hs]
        exact ih ctx
      · simp only [hs, Bool.false_eq_true, if_false]
        by_cases hlast : e.last = true
        · have hends : Ends ((off, e) :: l) := fun s hs' => by
            obtain rfl := Option.some.inj hs'
            exact ⟨Bool.eq_false_iff.mpr hs, hlast⟩
          simp only [hlast, if_true, walkSlots_ends hends]
          exact ⟨[], rfl, fun arg => (List.append_nil arg).symm⟩
        · have hlive := live_iff.mpr ⟨Bool.eq_false_iff.mpr hs, Bool.eq_false_iff.mpr hlast⟩
          obtain ⟨out, hlen, hout⟩ := ih (ctx.nameOf e).1.clear
          simp only [hlast, Bool.false_eq_true, if_false, walkSlots_live hlive, record]
          refine ⟨(off, (ctx.nameOf e).2) :: out, by simp [hlen], fun arg => ?_⟩
          rw [hout, List.append_assoc, List.singleton_append]

theorem clean_of_walkSlots (h : Holds l fs) (hc : ctx.Fresh) (arg : List (Nat × Option (List UInt8)))
    (hr : (walkSlots record l (ctx.after stale, arg)).1.2 = arg ++ fs.map DirFile.report)
    (hf : (walkSlots record l (ctx.after stale, arg)).1.1.fault = false) : Clean stale l fs := by
  induction h generalizing ctx arg stale with
  | done hend =>
    rw [walkSlots_ends hend] at hf
    exact .done hend ((hc.after stale).2.2.2.2.mp hf)
  | @skip off e l fs hs _ ih =>
    by_cases hl : e.isLongNameEntry = true
    · rw [walkSlots_long hl] at hr hf
      have hafter : fatHandleLongDirEntry (ctx.after stale) e = ctx.after (stale ++ [e]) := ctx.after_append stale [e]
      rw [hafter] at hr hf
      exact .long hl (ih hc arg hr hf)
    · rw [walkSlots_skip (Bool.eq_false_iff.mpr hl) hs] at hr hf
      exact .skip (Bool.eq_false_iff.mpr hl) hs (ih hc arg hr hf)
  | @file own l f fs hlive hown _ ih =>
    rw [walkSlots_longs (isLong_of_longEntries hown), hown, LongNameCtx.after_append, walkSlots_live hlive] at hr hf
    obtain ⟨hname, hfault⟩ := hc.nameOf (stale ++ f.longEntries) f.entry
    -- the walk goes on after the file, and reports what it reports from there on
    obtain ⟨out, -, hout⟩ := walkSlots_record l ((ctx.after (stale ++ f.longEntries)).nameOf f.entry).1.clear
    simp only [record, Bool.false_eq_true, if_false] at hr hf
    have hcut := hr
    rw [hout, List.append_assoc, List.append_cancel_left_eq, List.map_cons, List.singleton_append, List.cons.injEq] at hcut
    have hn : nameAt f.entry.checksum (stale ++ f.longEntries) = f.lname.map LongName.chars :=
      hname ▸ congrArg Prod.snd hcut.1
    have hfresh : ((ctx.after (stale ++ f.longEntries)).nameOf f.entry).1.clear.Fresh := by
      refine ⟨rfl, rfl, Bool.eq_false_iff.mpr fun ht => ?_⟩
      exact absurd (walkSlots_fault record l ht _) (by rw [hf]; decide)
    have hfit : RowsFit (stale ++ f.longEntries) := by
      have hno : (_ || _) = false := hfault.symm.trans hfresh.fault
      exact (hc.after _).2.2.2.2.mp (Bool.or_eq_false_iff.mp hno).1
    have hclean : Clean [] l fs := by
      refine ih hfresh (arg ++ [(f.off, ((ctx.after (stale ++ f.longEntries)).nameOf f.entry).2)]) (hr.trans ?_) hf
      rw [List.append_assoc, List.singleton_append, List.map_cons, hcut.1]
    have hfit' : RowsFit stale := fun p hp => hfit p (hp.trans (List.prefix_append _ _))
    unfold DirFile.longEntries at hn hown
    cases hl : f.lname with
    | none =>
      rw [hl, Option.elim_none] at hn hown
      rw [List.append_nil] at hn
      obtain rfl := List.map_eq_nil_iff.mp hown
      exact .short hl hlive hfit' (nameAt_eq_none.mp hn) hclean
    | some n =>
      rw [hl] at hn hown
      obtain ⟨hrow, hch⟩ := nameAt_longEntries.mp hn
      exact .named hl hlive hown hfit' hrow hch hclean

/-! ## Parts of directories -/

theorem lives_longs (h : ∀ s ∈ own, s.2.isLongNameEntry = true) (l : List Slot) : lives (own ++ l) = lives l := by
  induction own with
  | nil => rfl
  | cons s own ih =>
    obtain ⟨hs, h⟩ := List.forall_mem_cons.mp h
    rw [List.cons_append, lives, if_pos (isLong_skipped hs), ih h]

theorem holds_nil (h : lives l = []) : Holds l [] := by
  induction l with
  | nil => exact .done fun s hs => nomatch hs
  | cons s l ih =>
    unfold lives at h
    split_ifs at h with hs hlast
    · exact .skip hs (ih h)
    · refine .done fun s' hs' => ?_
      obtain rfl := Option.some.inj hs'
      exact ⟨Bool.eq_false_iff.mpr hs, hlast⟩

theorem Holds.take (h : Holds l fs) (n : Nat) (hn : (lives (l.take n)).length = fs.length) : Holds (l.take n) fs := by
  induction h generalizing n with
  | @done l hend =>
    refine .done fun s hs => hend s ?_
    cases n with
    | zero => cases hs
    | succ n => cases l <;> exact hs
  | @skip off e l fs hs _ ih =>
    cases n with
    | zero =>
      obtain rfl := List.eq_nil_of_length_eq_zero hn.symm
      exact .done fun s hs => nomatch hs
    | succ n =>
      rw [List.take_succ_cons, lives, if_pos hs] at hn
      exact .skip hs (ih n hn)
  | @file own l f fs hlive hown _ ih =>
    have hlongs := isLong_of_longEntries hown
    obtain ⟨hsk, hlast⟩ := live_iff.mp hlive
    by_cases hle : n ≤ own.length
    · rw [List.take_append_of_le_length hle, ← List.append_nil (own.take n),
        lives_longs fun s hs => hlongs s (List.mem_of_mem_take hs)] at hn
      cases hn
    · obtain ⟨m, rfl⟩ : ∃ m, n = own.length + (m + 1) := ⟨n - own.length - 1, by omega⟩
      rw [List.take_length_add_append, List.take_succ_cons] at hn ⊢
      rw [lives_longs hlongs, lives, if_neg (by simp [hsk]), if_neg (by simp [hlast])] at hn
      exact .file hlive hown (ih m (by simpa using hn))

theorem Holds.append (h : Holds l fs) (x : List Slot) (hn : (lives (l ++ x)).length = fs.length) : Holds (l ++ x) fs := by
  induction h with
  | @done l hend =>
    exact holds_nil (List.eq_nil_of_length_eq_zero hn)
  | @skip off e l fs hs _ ih =>
    rw [List.cons_append, lives, if_pos hs] at hn
    exact .skip hs (ih hn)
  | @file own l f fs hlive hown _ ih =>
    obtain ⟨hsk, hlast⟩ := live_iff.mp hlive
    rw [List.append_assoc, lives_longs (isLong_of_longEntries hown), List.cons_append, lives, if_neg (by simp [hsk]),
      if_neg (by simp [hlast])] at hn
    rw [List.append_assoc, List.cons_append]
    exact .file hlive hown (ih (by simpa using hn))

theorem FatVol.slots_add (v : FatVol) (off n m : Nat) : v.slots off (n + m) = v.slots off n ++ v.slots (off + 32 * n) m := by
  simp only [slots, List.range_add, List.map_append, List.map_map]
  congr 1
  refine List.map_congr_left fun i _ => ?_
  simp only [Function.comp_apply, Nat.mul_add, Nat.add_assoc]

/-! ## Directories -/

/-- The directory of a cluster: how many clusters it has, its entries, and the entries that `fat_walk` goes over. The root
directory of a FAT16 volume has `BPB_RootEntCnt` entries. -/
inductive IsDir (v : FatVol) : FatType → Nat → Nat → List Slot → List Slot → Prop
  | chain {ft : FatType} {c : Nat} {cs : List Nat} : Chain v ft c cs →
      IsDir v ft c cs.length (v.chainSlots cs) (v.chainSlots cs)
  | root32 {cs : List Nat} : Chain v .fat32 v.hdr.rootClus cs →
      IsDir v .fat32 0 cs.length (v.chainSlots cs) (v.chainSlots cs)
  | root16 : IsDir v .fat16 0 1 (v.slots (v.hdr.getRootdir .fat16).1 v.hdr.rootEntCnt)
      (v.slots (v.hdr.getRootdir .fat16).1 v.hdr.getDirEntriesPerCluster)

variable {v : FatVol} {ft : FatType} {cluster size fuel : Nat} {area walked : List Slot}

theorem IsDir.fatWalk_eq (h : IsDir v ft cluster size area walked) (hf : size ≤ fuel) (arg : σ) :
    fatWalk (fun _ => v) cb ft fuel cluster true arg =
      some (some (walkSlots cb walked (.init, arg)).1.1, (walkSlots cb walked (.init, arg)).1.2) := by
  have ne_zero : ∀ {ft c cs}, Chain v ft c cs → c ≠ 0 := fun h => by cases h <;> assumption
  cases h with
  | chain hc =>
    simp only [fatWalk, if_neg (ne_zero hc), if_true]
    exact walkChain_eq cb hc hf ..
  | root32 hc =>
    simp only [fatWalk, if_true]
    exact walkChain_eq cb hc hf ..
  | root16 =>
    obtain ⟨fuel, rfl⟩ : ∃ n, fuel = n + 1 := ⟨fuel - 1, by omega⟩
    simp only [fatWalk, if_true]
    exact walkChain_root cb v .fat16 fuel ..

theorem IsDir.holds_walked (h : IsDir v ft cluster size area walked) (hh : Holds area fs)
    (hn : (lives walked).length = fs.length) : Holds walked fs := by
  cases h with
  | chain | root32 => exact hh
  | root16 =>
    rcases Nat.le_total v.hdr.getDirEntriesPerCluster v.hdr.rootEntCnt with hle | hle
    · obtain ⟨m, hm⟩ := Nat.exists_eq_add_of_le hle
      have htake : v.slots (v.hdr.getRootdir .fat16).1 v.hdr.getDirEntriesPerCluster =
          (v.slots (v.hdr.getRootdir .fat16).1 v.hdr.rootEntCnt).take v.hdr.getDirEntriesPerCluster := by
        rw [hm, FatVol.slots_add, List.take_left' (by simp [FatVol.slots])]
      rw [htake] at hn ⊢
      exact hh.take _ hn
    · obtain ⟨m, hm⟩ := Nat.exists_eq_add_of_le hle
      rw [hm, FatVol.slots_add] at hn ⊢
      exact hh.append _ hn

/-- **`fat_walk` reports the files of a directory** exactly, in order and with their long names, if and only if the entries that
it goes over hold these files and are clean. -/
theorem fat_walk_exact (hd : IsDir v ft cluster size area walked) (hf : size ≤ fuel) (hh : Holds area fs) :
    (∃ ctx, fatWalk (fun _ => v) record ft fuel cluster true [] = some (some ctx, fs.map DirFile.report) ∧
      ctx.fault = false) ↔ Clean [] walked fs := by
  have hfresh : LongNameCtx.init.Fresh := ⟨rfl, rfl, rfl⟩
  rw [hd.fatWalk_eq hf]
  constructor
  · rintro ⟨ctx, hw, hfault⟩
    simp only [Option.some.injEq, Prod.mk.injEq] at hw
    obtain ⟨rfl, hr⟩ := hw
    obtain ⟨out, hlen, hout⟩ := walkSlots_record walked .init
    have hn : (lives walked).length = fs.length := by
      rw [← hlen, ← List.length_map (f := DirFile.report), ← hr, hout, List.nil_append]
    exact clean_of_walkSlots (hd.holds_walked hh hn) hfresh [] hr hfault
  · intro hclean
    obtain ⟨hr, hfault⟩ := walkSlots_of_clean record hclean hfresh []
    refine ⟨_, ?_, hfault⟩
    rw [feed_record, List.nil_append] at hr
    exact congrArg some (Prod.ext rfl hr)

theorem ends_slots (h : v.dentry off = ⟨Vector.replicate 32 0⟩) : ∀ n, Ends (v.slots off n)
  | 0 => fun _ hs => nomatch hs
  | n + 1 => fun s hs => by
    rw [FatVol.slots_succ, List.head?_cons, h] at hs
    obtain rfl := Option.some.inj hs
    exact (by decide : FatEntry.skipped ⟨Vector.replicate 32 0⟩ = false ∧ FatEntry.last ⟨Vector.replicate 32 0⟩ = true)

/-- The entry of a file with a short name of one letter. -/
def fileEntry (c : UInt8) : FatEntry :=
  ⟨#v[c, 32, 32, 32, 32, 32, 32, 32, 32, 32, 32, 0x20, 0, 0, 0, 0, 0, 0, 0, 0, 0, 0, 0, 0, 0, 0, 0, 0, 0, 0, 0, 0]⟩

/-- A FAT16 volume of 5000 clusters with some entries in its root directory, which has 32. -/
def rootVol (es : List FatEntry) : FatVol where
  hdr := ⟨512, 2, 1, 1, 32, 10023, 0, 20, 0, 0⟩
  mem off := ((es.map fun e => e.bytes.toList).getD ((off - 10752) / 32) []).getD ((off - 10752) % 32) 0

/-- A long entry of a file with a short name of one letter. -/
def longOf (ord c : UInt8) (cs : List UInt8) : FatEntry := longEntry ord (fileEntry c).checksum (nameUnits cs)

/-- `new`. -/
def newName : LongName := ⟨[110, 101, 119], by decide, by decide, List.all_eq_true.mp (by decide)⟩

/-- The long entry of `old`, as a deleted one. -/
def deletedOld (c : UInt8) : FatEntry := longOf 0xE5 c [111, 108, 100]

/-- A file with the long name `new` after a deleted one with the long name `old`, which had the short name of `c`. -/
def afterDeleted (c : UInt8) : List FatEntry := [deletedOld c, fileEntry 0xE5, longOf 0x41 65 newName.chars, fileEntry 65]

def newFile : DirFile := ⟨10848, fileEntry 65, some newName⟩

theorem holds_afterDeleted {c : UInt8} (hslots : (rootVol (afterDeleted c)).slots 10752 4 =
      [(10752, deletedOld c), (10784, fileEntry 0xE5), (10816, longOf 0x41 65 newName.chars), (10848, fileEntry 65)])
    (hend : (rootVol (afterDeleted c)).dentry 10880 = ⟨Vector.replicate 32 0⟩) :
    Holds ((rootVol (afterDeleted c)).slots 10752 32) [newFile] := by
  rw [show 32 = 4 + 28 from rfl, FatVol.slots_add, hslots]
  refine .skip (isLong_skipped (isLongNameEntry_longEntry ..)) (.skip (by decide) ?_)
  change Holds ([(10816, longOf 0x41 65 newName.chars)] ++ (newFile.off, newFile.entry) :: _) _
  exact .file (by decide) (by decide +kernel) (.done (ends_slots hend 28))

theorem fat_walk_exact_root : Holds ((rootVol (afterDeleted 66)).slots 10752 32) [newFile] ∧
    Clean [] ((rootVol (afterDeleted 66)).slots 10752 32) [newFile] := by
  have hh := @holds_afterDeleted 66 (by decide +kernel) (by decide +kernel)
  have hw : (fatWalk (fun _ => rootVol (afterDeleted 66)) record .fat16 1 0 true []).map
      (fun r => (r.1.map LongNameCtx.fault, r.2)) = some (some false, [(10848, some [110, 101, 119])]) := by decide +kernel
  obtain ⟨⟨ctx, out⟩, hw, hv⟩ := Option.map_eq_some_iff.mp hw
  simp only [Prod.mk.injEq] at hv
  obtain ⟨ctx, rfl, hf⟩ := Option.map_eq_some_iff.mp hv.1
  obtain rfl := hv.2
  exact ⟨hh, (fat_walk_exact .root16 (Nat.le_refl 1) hh).mp ⟨ctx, hw, hf⟩⟩

/-! ## The gaps -/

/-- `hi!`. -/
def bangName : LongName := ⟨[104, 105, 33], by decide, by decide, List.all_eq_true.mp (by decide)⟩

/-- A file with that name. -/
def bangFile : DirFile := ⟨10784, fileEntry 65, some bangName⟩

/-- **Names that are not those of the files**: the name of a deleted file with the same short name is added to the name of the
new one, and a name with an exclamation mark is not reported. -/
theorem stale_name :
    Holds ((rootVol (afterDeleted 65)).slots 10752 32) [newFile] ∧
    (fatWalk (fun _ => rootVol (afterDeleted 65)) record .fat16 1 0 true []).map Prod.snd =
      some [(10848, some [110, 101, 119, 111, 108, 100])] ∧
    Holds ((rootVol [longOf 0x41 65 bangName.chars, fileEntry 65]).slots 10752 32) [bangFile] ∧
    (fatWalk (fun _ => rootVol [longOf 0x41 65 bangName.chars, fileEntry 65]) record .fat16 1 0 true []).map Prod.snd =
      some [(10784, none)] := by
  refine ⟨@holds_afterDeleted 65 (by decide +kernel) (by decide +kernel), by decide +kernel, ?_, by decide +kernel⟩
  have hslots : (rootVol [longOf 0x41 65 bangName.chars, fileEntry 65]).slots 10752 2 =
      [(10752, longOf 0x41 65 bangName.chars), (10784, fileEntry 65)] := by decide +kernel
  rw [show 32 = 2 + 30 from rfl, FatVol.slots_add, hslots]
  change Holds ([(10752, longOf 0x41 65 bangName.chars)] ++ (bangFile.off, bangFile.entry) :: _) _
  exact .file (by decide) (by decide +kernel) (.done (ends_slots (by decide +kernel) 30))

end Usax.Fat
