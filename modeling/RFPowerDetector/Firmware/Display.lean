/-
The accuracy of a displayed value: from the code of a window to its dBm value.

* `displaysMean`: what the code and its dBm value say of the exact mean, in every
  faithful arithmetic.
* `ieee_csvDbm_close`: the same for the value the board's own arithmetic computes.
-/

import RFPowerDetector.Firmware.Accuracy

namespace RFPowerDetector.Firmware

open Rounding

/-! ### The dBm value -/

/-- The affine map from a mean to dBm. -/
def affineDbm (m : ℚ) : ℚ := m / adcMaxBitValue * adcMaxVoltage / dbmSlope + dbmIntercept

theorem codeDbm_affine (code : Word) : codeDbm .exact code = affineDbm code.toNat := rfl

/-- A code off by less than one is a dBm value off by less than one step. -/
theorem abs_affineDbm_sub_lt {q m : ℚ} (close : |q - m| < 1) :
    |affineDbm q - affineDbm m| < adcMaxVoltage / (16383 * dbmSlope) := by
  have slope := dbmSlope_pos
  have reference : adcMaxVoltage = 5 := rfl
  have scale : adcMaxBitValue = 16383 := by norm_num [adcMaxBitValue, adcBits]
  have step : affineDbm q - affineDbm m = (q - m) * (adcMaxVoltage / (16383 * dbmSlope)) := by
    rw [affineDbm, affineDbm, scale]
    field_simp
    ring
  have positive : 0 < adcMaxVoltage / (16383 * dbmSlope) := by
    rw [reference]
    positivity
  rw [step, abs_mul, abs_of_pos positive]
  exact mul_lt_of_lt_one_left positive close

/-- No rounding of the dBm expression inverts an order. -/
theorem Arith.Faithful.codeDbm_mono {ar : Arith} {n : ℕ} (faithful : ar.Faithful n)
    {code code' : Word} (le : code.toNat ≤ code'.toNat) : codeDbm ar code ≤ codeDbm ar code' := by
  have codes : (code.toNat : ℚ) ≤ code'.toNat := Nat.cast_le.mpr le
  have scale : 0 ≤ adcMaxBitValue := by norm_num [adcMaxBitValue, adcBits]
  have reference : 0 ≤ adcMaxVoltage := by norm_num [adcMaxVoltage]
  have slope : 0 ≤ ar.toDouble dbmSlope := by
    have zero := faithful.sums 0 (Nat.zero_le _)
    rw [Nat.cast_zero] at zero
    exact zero.symm.le.trans (faithful.double_mono dbmSlope_pos.le)
  have voltage : getVoltageFromADC ar code ≤ getVoltageFromADC ar code' := by
    apply faithful.float_mono
    apply faithful.double_mono
    refine mul_le_mul_of_nonneg_right ?_ reference
    apply faithful.double_mono
    exact div_le_div_of_nonneg_right codes scale
  apply faithful.float_mono
  refine add_le_add_left ?_ dbmIntercept
  apply faithful.float_mono
  apply faithful.double_mono
  exact div_le_div_of_nonneg_right voltage slope

/-! ### What is displayed -/

/-- What the code of a channel and its dBm value say of the channel's mean. -/
structure DisplaysMean (ar : Arith) (unspecified : Word) (w : Window) (adc : EnumADC) : Prop where
  /-- the conversion to `uint16_t` is defined, and truncates -/
  inRange : ∃ x, rollingAverage ar (w.average ar adc) = some x ∧ 0 ≤ x ∧ x ≤ 65535 ∧
    ((w.code ar unspecified adc).toNat : ℤ) = ⌊x⌋
  /-- at least the smallest reading -/
  smallest : ∀ m, w.ReadingsGe adc m → m ≤ (w.code ar unspecified adc).toNat
  /-- at most the largest reading -/
  largest : ∀ m, w.ReadingsLe adc m → (w.code ar unspecified adc).toNat ≤ m
  close : |((w.code ar unspecified adc).toNat : ℚ) - w.mean adc| < 1
  whole : ∀ k : ℤ, w.mean adc = k → ((w.code ar unspecified adc).toNat : ℤ) = k
  dbm : |codeDbm .exact (w.code ar unspecified adc) - affineDbm (w.mean adc)| <
    adcMaxVoltage / (16383 * dbmSlope)
  /-- larger readings have a larger dBm value, also in the arithmetic's own roundings -/
  monotone : ∀ w' : Window, w'.Dominates w adc →
    codeDbm .exact (w.code ar unspecified adc) ≤ codeDbm .exact (w'.code ar unspecified adc) ∧
      csvDbm ar unspecified (rollingAverage ar (w.average ar adc)) ≤
        csvDbm ar unspecified (rollingAverage ar (w'.average ar adc))

/-- **The accuracy of a displayed value**, for every non-empty window, every channel
and every faithful arithmetic. -/
theorem displaysMean {ar : Arith} {w : Window} (faithful : ar.Faithful w.sampleCount.toNat)
    (unspecified : Word) (adc : EnumADC) : DisplaysMean ar unspecified w adc where
  inRange := by
    obtain ⟨lower, upper⟩ := w.narrowed_bounds faithful adc
    exact ⟨_, w.rollingAverage_eq faithful adc, lower, upper, w.code_floor faithful _ _⟩
  smallest := fun m bound => Window.le_code faithful unspecified bound
  largest := fun m bound => Window.code_le faithful unspecified bound
  close := w.abs_code_sub_mean_lt faithful unspecified adc
  whole := fun k whole => Window.code_of_whole faithful unspecified whole
  dbm := by
    rw [codeDbm_affine]
    exact abs_affineDbm_sub_lt (w.abs_code_sub_mean_lt faithful unspecified adc)
  monotone := by
    intro w' dominates
    have codes := Window.code_mono faithful unspecified dominates
    exact ⟨(exact_faithful 0).codeDbm_mono codes, faithful.codeDbm_mono codes⟩

/-- Three readings at the top of the range, with a mean that is not whole. -/
def topWindow : Window :=
  ⟨fun p => .ofArray (fun _ => if p = 0 then 65534 else 65535) 0, 3, by decide⟩

/-- The board's arithmetic truncates their mean. -/
theorem displaysMean_topWindow :
    DisplaysMean .ieee 0 topWindow .adcA ∧ topWindow.code .ieee 0 .adcA = 65534 ∧
      topWindow.mean .adcA = 196604 / 3 :=
  ⟨displaysMean (ieee_faithful (by decide)) 0 .adcA, by decide +kernel, by decide +kernel⟩

/-- The value the board's own arithmetic computes, for every count of the type
`long`. -/
theorem ieee_csvDbm_close {w : Window} (small : w.sampleCount.toNat < 2 ^ 32)
    (unspecified : Word) (adc : EnumADC) :
    |csvDbm .ieee unspecified (rollingAverage .ieee (w.average .ieee adc)) -
        affineDbm (w.mean adc)| < adcMaxVoltage / (16383 * dbmSlope) + 7 / 100000 := by
  have rounding := ieee_accurate.close (w.code .ieee unspecified adc)
  have truncation :=
    abs_affineDbm_sub_lt (w.abs_code_sub_mean_lt (ieee_faithful small) unspecified adc)
  rw [← codeDbm_affine] at truncation
  calc |csvDbm .ieee unspecified (rollingAverage .ieee (w.average .ieee adc)) -
        affineDbm (w.mean adc)|
      ≤ |codeDbm .ieee (w.code .ieee unspecified adc) -
            codeDbm .exact (w.code .ieee unspecified adc)| +
          |codeDbm .exact (w.code .ieee unspecified adc) - affineDbm (w.mean adc)| :=
        abs_sub_le _ _ _
    _ < adcMaxVoltage / (16383 * dbmSlope) + 7 / 100000 := by linarith

end RFPowerDetector.Firmware
