import Mathlib.Tactic
import Usax.Common.Strtol

/-!
# The correction of the system clock

`clock_multi_second_resync` of `datetime.c`. A drift is a number of seconds, positive if the system clock is ahead of the
hardware clock. It is worked off by ticks that are a tenth shorter or longer, and a drift that comes back changes the duration
of all ticks.
-/

namespace Usax.Common

/-- `TS_SCALE` and `BILLION`: nanoseconds in a second. -/
def tsScale : Nat := 1000 * 1000 * 1000

/-- The variables of the clock, with the static ones of the function. -/
structure ClockState where
  timeNs : Nat
  tickDuration : Nat
  tickAdjVal : Int
  tickAdjTicksRem : Int
  lastResyncTimeNs : Nat
  lastDriftValue : Int
deriving DecidableEq, Repr

namespace ClockState

-- `TIMER_HZ`
variable (hz : Nat)

def ticksGap (s : ClockState) : Nat :=
  (((s.timeNs : Int) - s.lastResyncTimeNs) % 2 ^ 64).toNat / (tsScale / hz)

def driftPerTick (s : ClockState) (drift : Int) : Nat :=
  ((drift % 2 ^ 64) * tsScale % 2 ^ 64).toNat / s.ticksGap hz

/-- The correction of `__tick_duration`; `none` for a division by zero. -/
def adjustTickDuration (s : ClockState) (drift : Int) : Option ClockState :=
  if s.ticksGap hz = 0 then none
  else
    let step := s.driftPerTick hz drift / 4 * 3
    some { s with tickDuration := (((s.tickDuration : Int) - step) % 2 ^ 32).toNat }

def Recurs (s : ClockState) (drift : Int) : Prop := s.lastResyncTimeNs ≠ 0 ∧ (drift > 0 ↔ s.lastDriftValue > 0)

instance (s : ClockState) (drift : Int) : Decidable (s.Recurs drift) := inferInstanceAs (Decidable (_ ∧ _))

/-- The adjustment of the next ticks, and what is kept for the next time. -/
def planAdjustment (drift : Int) (s : ClockState) : ClockState :=
  let absDrift := if drift > 0 then drift else IntType.s32.wrap (-drift)
  { s with
    tickAdjVal := Int.tdiv ((tsScale / hz : Nat) : Int) (if drift > 0 then -10 else 10)
    tickAdjTicksRem := IntType.s32.wrap (absDrift * hz * 10)
    lastResyncTimeNs := s.timeNs
    lastDriftValue := drift }

def multiSecondResync (s : ClockState) (drift : Int) : Option ClockState :=
  (if s.Recurs drift then s.adjustTickDuration hz drift else some s).map (planAdjustment hz drift)

end ClockState

open ClockState

/-- The ticks that have passed since the last correction. -/
def elapsed (hz : Nat) (s : ClockState) : Nat := (s.timeNs - s.lastResyncTimeNs) / (tsScale / hz)

/-- Three quarters of the drift for each of `n` ticks, as the unsigned numbers of the machine: a negative drift is a number
near `2 ^ 64`. -/
def change (n : Nat) (drift : Int) : Nat := (drift * tsScale % 2 ^ 64).toNat / n / 4 * 3 % 2 ^ 32

/-- The drifts that are corrected as they should be: the number of ticks is in the range of `int`; if a drift comes back, at
least one tick has passed, and the duration of a tick is neither taken below 0 nor changed in the wrong direction or too much. -/
def Correctable (hz : Nat) (s : ClockState) (drift : Int) : Prop :=
  |drift| * hz * 10 < 2 ^ 31 ∧ (s.Recurs drift → 0 < elapsed hz s ∧
    if 0 < drift then change (elapsed hz s) drift ≤ s.tickDuration
    else change (elapsed hz s) drift = 0 ∨ s.tickDuration < change (elapsed hz s) drift ∧
      (2 ^ 32 - change (elapsed hz s) drift : Int) * elapsed hz s ≤ -drift * tsScale)

instance (hz : Nat) (s : ClockState) (drift : Int) : Decidable (Correctable hz s drift) :=
  inferInstanceAs (Decidable (_ ∧ (_ → _)))

/-- The adjustments sum to the drift with the opposite sign up to one of them; a drift that comes back makes the ticks shorter
if the clock is ahead and longer if it is behind, by at most the drift for each tick that has passed. -/
structure Corrects (hz : Nat) (s : ClockState) (drift : Int) (s' : ClockState) : Prop where
  sum : |s'.tickAdjVal * s'.tickAdjTicksRem + drift * tsScale| ≤ |s'.tickAdjVal|
  same : ¬ s.Recurs drift → s'.tickDuration = s.tickDuration
  ahead : s.Recurs drift → 0 < drift → s'.tickDuration ≤ s.tickDuration ∧
    ((s.tickDuration : Int) - s'.tickDuration) * elapsed hz s ≤ drift * tsScale
  behind : s.Recurs drift → drift ≤ 0 → s.tickDuration ≤ s'.tickDuration ∧
    ((s'.tickDuration : Int) - s.tickDuration) * elapsed hz s ≤ -drift * tsScale

section
variable {hz : Nat} {s : ClockState} {drift : Int}

theorem ticksGap_eq (htime : s.lastResyncTimeNs ≤ s.timeNs ∧ s.timeNs < 2 ^ 64) : s.ticksGap hz = elapsed hz s := by
  have hgap : (((s.timeNs : Int) - s.lastResyncTimeNs) % 2 ^ 64).toNat = s.timeNs - s.lastResyncTimeNs := by omega
  rw [ticksGap, hgap, elapsed]

theorem driftPerTick_eq (htime : s.lastResyncTimeNs ≤ s.timeNs ∧ s.timeNs < 2 ^ 64) :
    s.driftPerTick hz drift / 4 * 3 % 2 ^ 32 = change (elapsed hz s) drift := by
  rw [driftPerTick, ticksGap_eq htime, Int.mul_emod, Int.emod_emod_of_dvd _ dvd_rfl, ← Int.mul_emod, change]

/-- The new duration: the change is taken off, modulo `2 ^ 32`. -/
theorem tickDuration_adjusted (htick : s.tickDuration < 2 ^ 32) (step : Nat) :
    (((s.tickDuration : Int) - step) % 2 ^ 32).toNat =
      if step % 2 ^ 32 ≤ s.tickDuration then s.tickDuration - step % 2 ^ 32 else s.tickDuration + (2 ^ 32 - step % 2 ^ 32) := by
  split_ifs <;> omega

theorem change_mul_le (n : Nat) (hpos : 0 < drift) (hlt : drift < 2 ^ 31) :
    ((change n drift : Nat) : Int) * n ≤ drift * tsScale := by
  have hu64 : drift * tsScale % 2 ^ 64 = drift * tsScale := by
    unfold tsScale
    omega
  have hle : change n drift * n ≤ (drift * tsScale).toNat := by
    rw [change, hu64]
    refine le_trans (Nat.mul_le_mul_right n ?_) (Nat.div_mul_le_self (drift * tsScale).toNat n)
    exact (Nat.mod_le _ _).trans (by omega)
  have hcast : (((drift * tsScale).toNat : Nat) : Int) = drift * tsScale := by
    unfold tsScale
    omega
  rw [← hcast]
  exact_mod_cast hle

theorem hz_pos (hhz : 10 * hz ∣ tsScale) : 0 < hz := by
  by_contra h
  have h0 : hz = 0 := by omega
  simp [h0, tsScale] at hhz

theorem abs_drift_lt (hhz : 0 < hz) (hlt : |drift| * hz * 10 < 2 ^ 31) : |drift| < 2 ^ 31 := by
  have h1 : (1 : Int) ≤ hz := by exact_mod_cast hhz
  have h2 : 0 ≤ |drift| := abs_nonneg drift
  nlinarith

theorem wrap_s32_of_abs_lt {x : Int} (hx : |x| < 2 ^ 31) : IntType.s32.wrap x = x := by
  rw [abs_lt] at hx
  refine IntType.wrap_of_fits ((IntType.fits_signed rfl).mpr ?_)
  simp only [IntType.s32]
  constructor <;> omega

theorem adjustments_sum (hhz : 10 * hz ∣ tsScale) (hlt : |drift| * hz * 10 < 2 ^ 31) :
    Int.tdiv ((tsScale / hz : Nat) : Int) (if drift > 0 then -10 else 10)
      * IntType.s32.wrap ((if drift > 0 then drift else IntType.s32.wrap (-drift)) * hz * 10) = -(drift * tsScale) := by
  have hhz0 := hz_pos hhz
  obtain ⟨k, hk⟩ := hhz
  have htick : tsScale / hz = 10 * k := by
    rw [hk, show 10 * hz * k = hz * (10 * k) by ring, Nat.mul_div_cancel_left _ hhz0]
  have hneg : IntType.s32.wrap (-drift) = -drift :=
    wrap_s32_of_abs_lt (by rw [abs_neg]; exact abs_drift_lt hhz0 hlt)
  have hnonneg : (0 : Int) ≤ hz * 10 := by positivity
  have hticks : ∀ x : Int, |x| = |drift| → IntType.s32.wrap (x * hz * 10) = x * hz * 10 := by
    intro x hx
    refine wrap_s32_of_abs_lt ?_
    rw [mul_assoc, abs_mul, hx, abs_of_nonneg hnonneg, ← mul_assoc]
    exact hlt
  have hscale : (tsScale : Int) = 10 * hz * k := by exact_mod_cast hk
  rw [htick, hneg, hscale]
  split_ifs with hpos
  · rw [hticks drift rfl, show ((10 * k : Nat) : Int).tdiv (-10) = -k by
      rw [Int.tdiv_neg, Int.tdiv_eq_ediv_of_nonneg (by positivity)]
      omega]
    ring
  · rw [hticks (-drift) (abs_neg drift), show ((10 * k : Nat) : Int).tdiv 10 = k by
      rw [Int.tdiv_eq_ediv_of_nonneg (by positivity)]
      omega]
    ring

/-- Too many ticks for an `int` do not sum to the drift. -/
theorem ticks_lt_of_sum (hhz : 10 * hz ∣ tsScale)
    (h : |(planAdjustment hz drift s).tickAdjVal * (planAdjustment hz drift s).tickAdjTicksRem + drift * tsScale| ≤
      |(planAdjustment hz drift s).tickAdjVal|) : |drift| * hz * 10 < 2 ^ 31 := by
  obtain ⟨k, hk⟩ := id hhz
  have hhz0 := hz_pos hhz
  have hk0 : 0 < k := Nat.pos_of_ne_zero fun h0 => by simp [h0, tsScale] at hk
  have htick : tsScale / hz = 10 * k := by
    rw [hk, show 10 * hz * k = hz * (10 * k) by ring, Nat.mul_div_cancel_left _ hhz0]
  have hscale : (tsScale : Int) = 10 * hz * k := by exact_mod_cast hk
  -- the number of ticks and what `int` makes of it
  set x := if drift > 0 then drift else IntType.s32.wrap (-drift) with hx
  have hwrap : IntType.s32.wrap (x * hz * 10) < 2 ^ 31 := by
    simp only [IntType.wrap, IntType.minVal, IntType.s32, if_true]
    omega
  have hcong : IntType.s32.wrap (x * hz * 10) ≡ |drift| * hz * 10 [ZMOD 2 ^ 32] := by
    refine (IntType.s32.wrap_modEq _).trans ((Int.ModEq.mul_right _ ?_).mul_right _)
    rw [hx]
    split_ifs with hpos
    · rw [abs_of_pos hpos]
    · rw [abs_of_nonpos (not_lt.mp hpos)]
      exact IntType.s32.wrap_modEq _
  have hone : |IntType.s32.wrap (x * hz * 10) - |drift| * hz * 10| ≤ 1 := by
    have hk' : (0 : Int) < k := by exact_mod_cast hk0
    simp only [planAdjustment, htick, hscale, ← hx] at h
    refine le_of_mul_le_mul_left ?_ hk'
    rw [mul_one]
    split_ifs at h with hpos
    · rw [show ((10 * k : Nat) : Int).tdiv (-10) = -k by
        rw [Int.tdiv_neg, Int.tdiv_eq_ediv_of_nonneg (by positivity)]
        omega, abs_neg, abs_of_pos hk', show -(k : Int) * IntType.s32.wrap (x * hz * 10) + drift * (10 * hz * k) =
          -(k * (IntType.s32.wrap (x * hz * 10) - drift * hz * 10)) by ring, abs_neg, abs_mul, abs_of_pos hk'] at h
      rwa [abs_of_pos hpos]
    · rw [show ((10 * k : Nat) : Int).tdiv 10 = k by
        rw [Int.tdiv_eq_ediv_of_nonneg (by positivity)]
        omega, abs_of_pos hk', show (k : Int) * IntType.s32.wrap (x * hz * 10) + drift * (10 * hz * k) =
          k * (IntType.s32.wrap (x * hz * 10) - -drift * hz * 10) by ring, abs_mul, abs_of_pos hk'] at h
      rwa [abs_of_nonpos (not_lt.mp hpos)]
  obtain ⟨q, hq⟩ := hcong.symm.dvd
  rw [hq, abs_le] at hone
  omega

end

/-- Ticks of 4 ms, some time after a drift of `last` seconds was seen. -/
def clockAfter (gapNs : Nat) (last : Int) : ClockState := ⟨1000000000 + gapNs, 4000000, 0, 0, 1000000000, last⟩

end Usax.Common
