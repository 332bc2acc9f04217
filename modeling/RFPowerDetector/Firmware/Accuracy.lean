/-
The error of the dBm expression in the board's arithmetic.

`codeDbm .ieee` differs from `codeDbm .exact` by the roundings of the voltage, of
the quotient by the slope and of the final sum; `ieee_accurate` bounds the sum of
their errors over all 65536 codes. `printed_eq_intercept_iff` is what a reader of
the two decimals needs: the noise floor is printed for code 0 and for no other,
since code 1 lies 0.0059 above it.
-/

import Mathlib.Tactic.GCongr
import RFPowerDetector.Firmware.Scale

namespace RFPowerDetector.Firmware

open Rounding

/-- An arithmetic that keeps zero, and whose dBm values are within `ε` of the exact
ones and exact for code 0. -/
structure Arith.Accurate (ar : Arith) (ε : ℚ) : Prop where
  double_zero : ar.toDouble 0 = 0
  float_zero : ar.toFloat 0 = 0
  zero : codeDbm ar 0 = dbmIntercept
  close : ∀ code, |codeDbm ar code - codeDbm .exact code| ≤ ε

theorem codeDbm_exact (code : Word) :
    codeDbm .exact code = code.toNat / 16383 * 5 / dbmSlope + dbmIntercept := by
  rw [codeDbm, dbmValue_exact, getVoltageFromADC_exact]

theorem exact_accurate : Arith.exact.Accurate 0 where
  double_zero := rfl
  float_zero := rfl
  zero := by
    have code : (0 : Word).toNat = 0 := rfl
    rw [codeDbm_exact, code]
    norm_num
  close code := by simp

/-- The voltage of a code: three roundings. -/
theorem getVoltageFromADC_near (code : Word) :
    Near (6 / 10 ^ 8) (getVoltageFromADC .ieee code) (code.toNat / 16383 * 5) := by
  have quotient := ((Near.refl ((code.toNat : ℚ) / 16383)).toPrecision 53).mul_const 5
  have voltage := (quotient.toPrecision 53).toPrecision 24
  have scale : adcMaxBitValue = 16383 := by norm_num [adcMaxBitValue, adcBits]
  have reference : adcMaxVoltage = 5 := rfl
  rw [getVoltageFromADC, scale, reference]
  exact voltage.mono (by norm_num)

theorem dbmSlope_near : Near (1 / 2 ^ 53) (toPrecision 53 dbmSlope) dbmSlope :=
  ((Near.refl dbmSlope).toPrecision 53).mono (by norm_num)

/-- The level above the intercept: the voltage divided by the slope. -/
theorem level_near (code : Word) :
    Near (12 / 10 ^ 8)
      (toPrecision 24 (toPrecision 53
        (getVoltageFromADC .ieee code / toPrecision 53 dbmSlope)))
      (code.toNat / 16383 * 5 / dbmSlope) := by
  have quotient := (getVoltageFromADC_near code).div dbmSlope_near dbmSlope_pos (by norm_num)
  exact ((quotient.toPrecision 53).toPrecision 24).mono (by norm_num)

theorem level_bounds (code : Word) :
    0 ≤ (code.toNat : ℚ) / 16383 * 5 / dbmSlope ∧
      (code.toNat : ℚ) / 16383 * 5 / dbmSlope ≤ 388 := by
  have small : (code.toNat : ℚ) ≤ 65535 := by exact_mod_cast Nat.le_of_lt_succ code.isLt
  have slope := dbmSlope_pos
  constructor
  · positivity
  · rw [div_le_iff₀ slope, dbmSlope]
    linarith

/-- **The error of the board's arithmetic** in the dBm value of a code. -/
theorem ieee_accurate : Arith.ieee.Accurate (7 / 100000) where
  double_zero := toPrecision_zero 53
  float_zero := toPrecision_zero 24
  zero := by
    have voltage : getVoltageFromADC .ieee 0 = 0 := by
      simp [getVoltageFromADC, Arith.ieee]
    have sum : toPrecision 24 dbmIntercept = dbmIntercept := by
      exact_mod_cast toPrecision_intCast (p := 24) (n := -59) (by norm_num)
    rw [codeDbm, dbmValue, voltage]
    simp [Arith.ieee, sum]
  close code := by
    obtain ⟨lower, upper⟩ := level_bounds code
    have level := level_near code
    rw [Near, abs_of_nonneg lower] at level
    let level' := toPrecision 24 (toPrecision 53
      (getVoltageFromADC .ieee code / toPrecision 53 dbmSlope))
    have dbm : codeDbm .ieee code = toPrecision 24 (level' + dbmIntercept) := rfl
    have intercept : dbmIntercept = -59 := rfl
    have own := abs_toPrecision_sub_le 24 (level' + dbmIntercept)
    have close : |level' - code.toNat / 16383 * 5 / dbmSlope| ≤ 12 / 10 ^ 8 * 388 :=
      level.trans (by gcongr)
    obtain ⟨below, above⟩ := abs_le.mp close
    have size : |level' + dbmIntercept| ≤ 330 := by
      rw [abs_le, intercept]
      constructor <;> linarith
    have rounding : |level' + dbmIntercept| / 2 ^ 24 ≤ 330 / 2 ^ 24 := by gcongr
    obtain ⟨down, up⟩ := abs_le.mp (own.trans rounding)
    rw [codeDbm_exact, dbm, abs_le]
    constructor <;> linarith

/-- A channel that reads zero throughout a window has code 0. -/
theorem Window.code_of_silent {ar : Arith} {ε : ℚ} (accurate : ar.Accurate ε) {w : Window}
    {adc : EnumADC} (silent : w.ReadingsLe adc 0) (unspecified : Word) :
    w.code ar unspecified adc = 0 := by
  have sums : ∀ i : ℕ, (i : ℤ) ≤ w.sampleCount →
      calculateChannelSum ar w.sampleBuffer i (adcOut adc) = 0 := by
    intro i inside
    induction i with
    | zero => rfl
    | succ i ih =>
        have reading : (w.sampleBuffer i).getValue adc = 0 := by
          rw [RFSample.getValue, Nat.le_zero.mp (silent i (by omega)), Nat.cast_zero]
        rw [Nat.cast_add, Nat.cast_one, calculateChannelSum_succ, ih (by omega), addSample,
          adcOut_getEnumADC, reading, zero_add, accurate.double_zero]
  obtain ⟨n, hn⟩ := Int.eq_ofNat_of_zero_le w.nonempty.le
  rw [code, average, calculateChannelAverage, averageOf, if_neg w.nonempty.ne', hn,
    sums n hn.ge, zero_div, accurate.double_zero, rollingAverage, Option.map_some,
    accurate.float_zero, toUInt16, if_pos (by norm_num), Nat.floor_zero]
  rfl

/-! ### Two decimals -/

/-- The number that printing with two decimals denotes. -/
def printedValue (x : ℚ) : ℚ := (roundAway (x * 10 ^ 2) : ℚ) / 10 ^ 2

theorem abs_printedValue_sub_le (x : ℚ) : |printedValue x - x| ≤ 5 / 1000 := by
  have rounded := abs_roundAway_mul_div_sub_le (s := 10 ^ 2) (by norm_num) x
  rw [printedValue]
  linarith

/-- A value more than half a hundredth above the intercept does not print as it. -/
theorem printedValue_ne_intercept {x : ℚ} (above : dbmIntercept + 5 / 1000 < x) :
    printedValue x ≠ dbmIntercept := by
  intro equal
  have close := abs_printedValue_sub_le x
  rw [equal, abs_sub_comm, abs_of_pos (by linarith)] at close
  linarith

section Printed

variable {ar : Arith} {ε : ℚ}

/-- The printed value is within half a hundredth of the computed one. -/
theorem Arith.Accurate.printed_close (accurate : ar.Accurate ε) (code : Word) :
    |printedValue (codeDbm ar code) - codeDbm .exact code| ≤ 5 / 1000 + ε :=
  (abs_sub_le _ _ _).trans (add_le_add (abs_printedValue_sub_le _) (accurate.close code))

/-- The noise floor is printed for code 0 only. -/
theorem Arith.Accurate.printed_eq_intercept_iff (accurate : ar.Accurate ε) (small : ε < 9 / 10000)
    (code : Word) : printedValue (codeDbm ar code) = dbmIntercept ↔ code = 0 := by
  constructor
  · intro equal
    by_contra nonzero
    have positive : code.toNat ≠ 0 := fun h => nonzero (BitVec.eq_of_toNat_eq h)
    have one : (1 : ℚ) ≤ code.toNat := by exact_mod_cast Nat.one_le_iff_ne_zero.mpr positive
    -- code 1 is 0.0059 above the intercept
    have exact_above : dbmIntercept + 59 / 10000 ≤ codeDbm .exact code := by
      have step : (1 : ℚ) / 16383 * 5 / dbmSlope ≤ code.toNat / 16383 * 5 / dbmSlope := by
        have slope := dbmSlope_pos
        gcongr
      have value : (59 : ℚ) / 10000 ≤ 1 / 16383 * 5 / dbmSlope := by norm_num [dbmSlope]
      rw [codeDbm_exact]
      linarith
    have near := (abs_le.mp (accurate.close code)).1
    exact printedValue_ne_intercept (by linarith) equal
  · rintro rfl
    rw [accurate.zero, printedValue]
    have rounded : roundAway (dbmIntercept * 10 ^ 2) = -5900 := by decide +kernel
    rw [rounded]
    norm_num [dbmIntercept]

end Printed

end RFPowerDetector.Firmware
