/-
The mean of a window and its code.

`Window` is a non-empty window of samples; the windows of a run are the ones
`averaged_eq` shows the reports average. The doubles and the narrowing to float are
any monotone roundings that hold the sums and the readings of the window
(`Arith.Faithful`). Then the rolling average is a monotone map of the exact mean
that fixes the integers of 16 bits (`Arith.narrowed`), so its conversion to
`uint16_t` is defined and yields one of the two integers around the mean, which
need not be the floor (`Window.abs_code_sub_mean_lt`).
-/

import RFPowerDetector.Firmware.Average

namespace RFPowerDetector.Firmware

open Rounding

/-! ### Windows -/

/-- A non-empty window of samples. -/
structure Window where
  sampleBuffer : ℕ → RFSample
  sampleCount : ℤ
  nonempty : 0 < sampleCount

/-- The average of a channel over the window. -/
def Window.average (ar : Arith) (w : Window) (adc : EnumADC) : Option ℚ :=
  calculateChannelAverage ar w.sampleBuffer w.sampleCount (adcOut adc)

/-- The `uint16_t` code both report formats convert to a voltage. -/
def Window.code (ar : Arith) (unspecified : Word) (w : Window) (adc : EnumADC) : Word :=
  toUInt16 unspecified (rollingAverage ar (w.average ar adc))

/-- Every reading of a channel in the window is at most `m`. -/
def Window.ReadingsLe (w : Window) (adc : EnumADC) (m : ℕ) : Prop :=
  ∀ p : ℕ, p < w.sampleCount → ((w.sampleBuffer p).reading adc).toNat ≤ m

theorem Window.readingsLe_word (w : Window) (adc : EnumADC) : w.ReadingsLe adc 65535 :=
  fun _ _ => Nat.le_of_lt_succ (BitVec.isLt _)

theorem adcOut_getEnumADC (adc : EnumADC) : (adcOut adc).getEnumADC = adc := by
  cases adc <;> rfl

/-! ### Arithmetics -/

/-- Neither rounding inverts an order, the doubles hold the sums of `n` readings, and
the floats hold every reading. -/
structure Arith.Faithful (ar : Arith) (n : ℕ) : Prop where
  sums : ar.HoldsSums n
  readings : ∀ k : ℕ, k ≤ 65535 → ar.toFloat k = k
  double_mono : Monotone ar.toDouble
  float_mono : Monotone ar.toFloat

/-- Exact doubles and any monotone narrowing that fixes the readings. -/
theorem narrowing_faithful {narrow : ℚ → ℚ} (mono : Monotone narrow)
    (fixes : ∀ k : ℕ, k ≤ 65535 → narrow k = k) (n : ℕ) : Arith.Faithful ⟨id, narrow⟩ n where
  sums := fun _ _ => rfl
  readings := fixes
  double_mono := monotone_id
  float_mono := mono

theorem exact_faithful (n : ℕ) : Arith.exact.Faithful n :=
  narrowing_faithful monotone_id (fun _ _ => rfl) n

theorem ieee_faithful {n : ℕ} (small : n < 2 ^ 32) : Arith.ieee.Faithful n where
  sums := ieee_holdsSums small
  readings := by
    intro k hk
    have short : |(k : ℤ)| < 2 ^ 24 := by
      rw [abs_of_nonneg (Int.natCast_nonneg k)]
      omega
    exact_mod_cast toPrecision_intCast (p := 24) short
  double_mono := toPrecision_monotone (by norm_num)
  float_mono := toPrecision_monotone (by norm_num)

/-- A double result narrowed to float. -/
def Arith.narrowed (ar : Arith) (x : ℚ) : ℚ := ar.toFloat (ar.toDouble x)

section Narrowed

variable {ar : Arith} {n : ℕ}

theorem Arith.Faithful.narrowed_mono (faithful : ar.Faithful n) : Monotone ar.narrowed :=
  faithful.float_mono.comp faithful.double_mono

theorem Arith.Faithful.narrowed_natCast (faithful : ar.Faithful n) (pos : 0 < n) {k : ℕ}
    (hk : k ≤ 65535) : ar.narrowed k = k := by
  have sum : k ≤ n * 65535 := hk.trans (Nat.le_mul_of_pos_left _ pos)
  rw [narrowed, faithful.sums k sum, faithful.readings k hk]

end Narrowed

/-! ### The mean of a window -/

/-- The exact mean of a channel. -/
def Window.mean (w : Window) (adc : EnumADC) : ℚ :=
  readingSum w.sampleBuffer adc w.sampleCount.toNat / w.sampleCount

/-- Every reading of a channel in the window is at least `m`. -/
def Window.ReadingsGe (w : Window) (adc : EnumADC) (m : ℕ) : Prop :=
  ∀ p : ℕ, p < w.sampleCount → m ≤ ((w.sampleBuffer p).reading adc).toNat

/-- The same number of samples, none with a smaller reading of the channel. -/
def Window.Dominates (w' w : Window) (adc : EnumADC) : Prop :=
  w'.sampleCount = w.sampleCount ∧ ∀ p : ℕ, p < w.sampleCount →
    ((w.sampleBuffer p).reading adc).toNat ≤ ((w'.sampleBuffer p).reading adc).toNat

section Mean

variable {w : Window} {adc : EnumADC} {m : ℕ}

theorem Window.count_pos (w : Window) : 0 < w.sampleCount.toNat := by
  have := w.nonempty
  omega

theorem Window.count_cast (w : Window) : (w.sampleCount : ℚ) = w.sampleCount.toNat := by
  have := w.nonempty
  exact_mod_cast (Int.toNat_of_nonneg (by omega)).symm

theorem Window.mean_mono {w' : Window} (dominates : w'.Dominates w adc) :
    w.mean adc ≤ w'.mean adc := by
  obtain ⟨count, le⟩ := dominates
  have sums : readingSum w.sampleBuffer adc w.sampleCount.toNat ≤
      readingSum w'.sampleBuffer adc w.sampleCount.toNat :=
    readingSum_mono fun p hp => le p (by omega)
  have positive : (0 : ℚ) < w.sampleCount := by exact_mod_cast w.nonempty
  rw [mean, mean, count]
  gcongr

/-- The mean lies between any bounds of the readings. -/
theorem Window.le_mean (bound : w.ReadingsGe adc m) : (m : ℚ) ≤ w.mean adc := by
  have positive : (0 : ℚ) < w.sampleCount := by exact_mod_cast w.nonempty
  have sum : w.sampleCount.toNat * m ≤ readingSum w.sampleBuffer adc w.sampleCount.toNat :=
    mul_le_readingSum fun p hp => bound p (by omega)
  rw [mean, le_div_iff₀ positive, count_cast, mul_comm]
  exact_mod_cast sum

theorem Window.mean_le (bound : w.ReadingsLe adc m) : w.mean adc ≤ m := by
  have positive : (0 : ℚ) < w.sampleCount := by exact_mod_cast w.nonempty
  have sum : readingSum w.sampleBuffer adc w.sampleCount.toNat ≤ w.sampleCount.toNat * m :=
    readingSum_le_mul fun p hp => bound p (by omega)
  rw [mean, div_le_iff₀ positive, count_cast, mul_comm]
  exact_mod_cast sum

theorem Window.mean_nonneg (w : Window) (adc : EnumADC) : 0 ≤ w.mean adc := by
  have lower : ((0 : ℕ) : ℚ) ≤ w.mean adc := Window.le_mean fun _ _ => Nat.zero_le _
  exact_mod_cast lower

theorem Window.mean_le_word (w : Window) (adc : EnumADC) : w.mean adc ≤ (65535 : ℕ) :=
  Window.mean_le (w.readingsLe_word adc)

end Mean

/-! ### The code -/

section Code

variable {ar : Arith} {w : Window} {adc : EnumADC}

/-- The rolling average is the mean, narrowed. -/
theorem Window.rollingAverage_eq (faithful : ar.Faithful w.sampleCount.toNat) (adc : EnumADC) :
    rollingAverage ar (w.average ar adc) = some (ar.narrowed (w.mean adc)) := by
  have count : ((w.sampleCount.toNat : ℕ) : ℤ) = w.sampleCount :=
    Int.toNat_of_nonneg w.nonempty.le
  have sum := calculateChannelSum_eq faithful.sums w.sampleBuffer (adcOut adc) le_rfl
  rw [count, adcOut_getEnumADC] at sum
  rw [average, calculateChannelAverage, sum, averageOf, if_neg w.nonempty.ne']
  rfl

/-- The narrowed mean is a 16-bit number, so its conversion is defined. -/
theorem Window.narrowed_bounds (faithful : ar.Faithful w.sampleCount.toNat) (adc : EnumADC) :
    0 ≤ ar.narrowed (w.mean adc) ∧ ar.narrowed (w.mean adc) ≤ 65535 := by
  have lower := faithful.narrowed_mono (w.mean_nonneg adc)
  have upper := faithful.narrowed_mono (w.mean_le_word adc)
  have zero := faithful.narrowed_natCast w.count_pos (Nat.zero_le 65535)
  have top := faithful.narrowed_natCast w.count_pos le_rfl
  rw [Nat.cast_zero] at zero
  rw [zero] at lower
  rw [top] at upper
  exact ⟨lower, upper⟩

/-- The code is the narrowed mean, truncated. -/
theorem Window.code_floor (faithful : ar.Faithful w.sampleCount.toNat) (unspecified : Word)
    (adc : EnumADC) :
    ((w.code ar unspecified adc).toNat : ℤ) = ⌊ar.narrowed (w.mean adc)⌋ := by
  obtain ⟨lower, upper⟩ := w.narrowed_bounds faithful adc
  have small : ⌊ar.narrowed (w.mean adc)⌋₊ < 65536 := by
    rw [Nat.floor_lt lower]
    push_cast
    linarith
  rw [code, w.rollingAverage_eq faithful, toUInt16, if_pos (by constructor <;> linarith),
    BitVec.toNat_ofNat, Nat.mod_eq_of_lt small, Int.natCast_floor_eq_floor lower]

/-- Not even the code depends on what an undefined conversion yields. -/
theorem Window.code_eq (faithful : ar.Faithful w.sampleCount.toNat) (adc : EnumADC) (u v : Word) :
    w.code ar u adc = w.code ar v adc := by
  have codes := (w.code_floor faithful u adc).trans (w.code_floor faithful v adc).symm
  exact BitVec.eq_of_toNat_eq (Int.ofNat_inj.mp codes)

theorem Arith.Faithful.fixes_floor (faithful : ar.Faithful w.sampleCount.toNat)
    (adc : EnumADC) : ar.narrowed ⌊w.mean adc⌋ = ⌊w.mean adc⌋ := by
  have lower := Int.floor_nonneg.mpr (w.mean_nonneg adc)
  obtain ⟨k, hk⟩ := Int.eq_ofNat_of_zero_le lower
  have small : (k : ℚ) ≤ (65535 : ℕ) := by
    refine le_trans ?_ (w.mean_le_word adc)
    have floor := Int.floor_le (w.mean adc)
    rwa [hk] at floor
  rw [hk]
  exact_mod_cast faithful.narrowed_natCast w.count_pos (Nat.cast_le.mp small)

theorem Arith.Faithful.fixes_ceil (faithful : ar.Faithful w.sampleCount.toNat)
    (adc : EnumADC) : ar.narrowed ⌈w.mean adc⌉ = ⌈w.mean adc⌉ := by
  have lower := Int.ceil_nonneg (w.mean_nonneg adc)
  obtain ⟨k, hk⟩ := Int.eq_ofNat_of_zero_le lower
  have small : ⌈w.mean adc⌉ ≤ ((65535 : ℕ) : ℤ) := by
    rw [Int.ceil_le]
    exact_mod_cast w.mean_le_word adc
  rw [hk] at small ⊢
  exact_mod_cast faithful.narrowed_natCast w.count_pos (Int.ofNat_le.mp small)

/-- **The code is within one of the mean.** -/
theorem Window.abs_code_sub_mean_lt (faithful : ar.Faithful w.sampleCount.toNat)
    (unspecified : Word) (adc : EnumADC) :
    |((w.code ar unspecified adc).toNat : ℚ) - w.mean adc| < 1 := by
  have close := abs_floor_sub_lt_of_monotone faithful.narrowed_mono (faithful.fixes_floor adc)
    (faithful.fixes_ceil adc)
  rwa [← w.code_floor faithful unspecified, Int.cast_natCast] at close

/-- A whole mean is its own code. -/
theorem Window.code_of_whole (faithful : ar.Faithful w.sampleCount.toNat) (unspecified : Word)
    {k : ℤ} (whole : w.mean adc = k) : ((w.code ar unspecified adc).toNat : ℤ) = k := by
  have fixed := faithful.fixes_floor adc
  rw [whole, Int.floor_intCast] at fixed
  rw [w.code_floor faithful, whole, fixed, Int.floor_intCast]

theorem Window.le_code (faithful : ar.Faithful w.sampleCount.toNat) (unspecified : Word) {m : ℕ}
    (bound : w.ReadingsGe adc m) : m ≤ (w.code ar unspecified adc).toNat := by
  have word : m ≤ 65535 := (bound 0 w.nonempty).trans (Nat.le_of_lt_succ (BitVec.isLt _))
  have fixed := faithful.narrowed_natCast w.count_pos word
  have below : (m : ℤ) ≤ ⌊ar.narrowed (w.mean adc)⌋ := by
    rw [Int.le_floor, Int.cast_natCast, ← fixed]
    exact faithful.narrowed_mono (Window.le_mean bound)
  rw [← w.code_floor faithful unspecified] at below
  exact Int.ofNat_le.mp below

theorem Window.code_le (faithful : ar.Faithful w.sampleCount.toNat) (unspecified : Word) {m : ℕ}
    (bound : w.ReadingsLe adc m) : (w.code ar unspecified adc).toNat ≤ m := by
  by_cases word : m ≤ 65535
  · have fixed := faithful.narrowed_natCast w.count_pos word
    have above : ar.narrowed (w.mean adc) ≤ (m : ℤ) := by
      rw [Int.cast_natCast, ← fixed]
      exact faithful.narrowed_mono (Window.mean_le bound)
    have floor : ⌊ar.narrowed (w.mean adc)⌋ ≤ m := by
      exact_mod_cast (Int.floor_le _).trans above
    rw [← w.code_floor faithful unspecified] at floor
    exact Int.ofNat_le.mp floor
  · have code := (w.code ar unspecified adc).isLt
    omega

/-- Larger readings have a larger code. -/
theorem Window.code_mono (faithful : ar.Faithful w.sampleCount.toNat) (unspecified : Word)
    {w' : Window} (dominates : w'.Dominates w adc) :
    (w.code ar unspecified adc).toNat ≤ (w'.code ar unspecified adc).toNat := by
  have faithful' : ar.Faithful w'.sampleCount.toNat := dominates.1 ▸ faithful
  have floors := Int.floor_le_floor (faithful.narrowed_mono (Window.mean_mono dominates))
  rw [← w.code_floor faithful unspecified, ← w'.code_floor faithful' unspecified] at floors
  exact Int.ofNat_le.mp floors

end Code

end RFPowerDetector.Firmware
