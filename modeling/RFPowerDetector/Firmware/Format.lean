/-
Formatted values read back (`getFormattedString`, `src/main.cpp`), over exact
rational arithmetic.

A reader who knows the unit strips it, takes an `m` in front of it for the milli
prefix and reads the rest as a numeral (`readFormatted`).

* `readFormatted_eq`: what the reader gets is the value rounded to a whole number of
  millivolts below one volt, and to hundredths from one volt on.
* `formatted_spec`: the error of each form, the order of the denoted values, and
  where the form and the denoted value disagree about one volt. The form is chosen
  before the value is rounded, so the values from 0.9995 up to 1 print as
  `1000.00mV`.
-/

import RFPowerDetector.Firmware.Convert

namespace RFPowerDetector.Firmware

open Rounding

/-! ### Reading -/

/-- With the milli prefix, or in the unit itself. -/
inductive Form where
  | milli | unit
  deriving DecidableEq, Repr

/-- The form of a formatted value, and the value it denotes in the unit. -/
def readFormatted (measureUnit t : Text) : Option (Form × ℚ) :=
  if measureUnit.isSuffixOf t then
    let number := t.take (t.length - measureUnit.length)
    if number.getLast? = some 'm' then
      (Numeral.parse number.dropLast).map fun x => (.milli, x / 1000)
    else (Numeral.parse number).map fun x => (.unit, x)
  else none

/-- The value the formatted text denotes. -/
def denotedValue (valueInput : ℚ) : ℚ :=
  if valueInput < 1 then (roundAway (valueInput * 1000) : ℚ) / 1000
  else (roundAway (valueInput * 100) : ℚ) / 100

section Reading

variable {measureUnit : Text} {x : ℚ}

theorem printFloat_some (x : ℚ) : printFloat (some x) = Numeral.fixedPoint 2 x := rfl

/-- A printed number does not end in the prefix. -/
theorem getLast?_printFloat_ne (x : ℚ) : (printFloat (some x)).getLast? ≠ some 'm' := by
  intro last
  have numeral := Numeral.isNumeralChar_of_mem_fixedPoint (List.mem_of_getLast? last)
  cases numeral

/-- Printing a whole number and reading it back. -/
theorem parse_printFloat_intCast (n : ℤ) :
    Numeral.parse (printFloat (some (n : ℚ))) = some (n : ℚ) := by
  have whole : (n : ℚ) * 10 ^ 2 = ((n * 100 : ℤ) : ℚ) := by
    push_cast
    ring
  rw [printFloat_some, Numeral.parse_fixedPoint, whole, roundAway_intCast]
  congr 1
  push_cast
  ring

/-- Printing a number of hundredths and reading it back. -/
theorem parse_printFloat_hundredths (n : ℤ) :
    Numeral.parse (printFloat (some ((n : ℚ) / 100))) = some ((n : ℚ) / 100) := by
  have whole : (n : ℚ) / 100 * 10 ^ 2 = n := by ring
  rw [printFloat_some, Numeral.parse_fixedPoint, whole, roundAway_intCast]
  norm_num

theorem readFormatted_milli (number : Text) :
    readFormatted measureUnit (number ++ "m".toList ++ measureUnit) =
      (Numeral.parse number).map fun x => (.milli, x / 1000) := by
  have suffix : measureUnit.isSuffixOf (number ++ "m".toList ++ measureUnit) = true :=
    List.isSuffixOf_iff_suffix.mpr (List.suffix_append _ _)
  have stripped : (number ++ "m".toList ++ measureUnit).take
      ((number ++ "m".toList ++ measureUnit).length - measureUnit.length) =
        number ++ ['m'] := by
    rw [List.length_append, Nat.add_sub_cancel]
    exact List.take_left
  simp only [readFormatted, suffix, stripped, if_true]
  rw [if_pos List.getLast?_concat, List.dropLast_concat]

theorem readFormatted_unit {number : Text} (unprefixed : number.getLast? ≠ some 'm') :
    readFormatted measureUnit (number ++ measureUnit) =
      (Numeral.parse number).map fun x => (.unit, x) := by
  have suffix : measureUnit.isSuffixOf (number ++ measureUnit) = true :=
    List.isSuffixOf_iff_suffix.mpr (List.suffix_append _ _)
  have stripped : (number ++ measureUnit).take
      ((number ++ measureUnit).length - measureUnit.length) = number := by
    rw [List.length_append, Nat.add_sub_cancel]
    exact List.take_left
  simp only [readFormatted, suffix, stripped, if_true]
  rw [if_neg unprefixed]

/-- **Reading a formatted value back.** -/
theorem readFormatted_eq (valueInput : ℚ) (measureUnit : Text) :
    readFormatted measureUnit (getFormattedString .exact valueInput measureUnit) =
      some (if valueInput < 1 then .milli else .unit, denotedValue valueInput) := by
  unfold getFormattedString denotedValue
  split
  · rw [Arith.exact_toDouble, readFormatted_milli, parse_printFloat_intCast, Option.map_some]
  · rw [Arith.exact_toDouble, Arith.exact_toDouble,
      readFormatted_unit (getLast?_printFloat_ne _), parse_printFloat_hundredths,
      Option.map_some]

end Reading

/-! ### The denoted value -/

section Denoted

variable {v v' : ℚ}

theorem denotedValue_milli (below : v < 1) : denotedValue v = (roundAway (v * 1000) : ℚ) / 1000 :=
  if_pos below

theorem denotedValue_unit (above : 1 ≤ v) : denotedValue v = (roundAway (v * 100) : ℚ) / 100 :=
  if_neg (not_lt.mpr above)

theorem abs_denotedValue_milli_sub_le (below : v < 1) : |denotedValue v - v| ≤ 5 / 10000 := by
  have rounded := abs_roundAway_mul_div_sub_le (s := 1000) (by norm_num) v
  rw [denotedValue_milli below]
  linarith

theorem abs_denotedValue_unit_sub_le (above : 1 ≤ v) : |denotedValue v - v| ≤ 5 / 1000 := by
  have rounded := abs_roundAway_mul_div_sub_le (s := 100) (by norm_num) v
  rw [denotedValue_unit above]
  linarith

/-- The millivolt form denotes at most one volt: a value just below it rounds to it. -/
theorem denotedValue_lt_one_iff (below : v < 1) :
    denotedValue v < 1 ↔ v < 9995 / 10000 := by
  have rounds := roundAway_lt_iff (n := 1000) (by norm_num) (x := v * 1000)
  have scaled : denotedValue v < 1 ↔ roundAway (v * 1000) < (1000 : ℕ) := by
    rw [denotedValue_milli below, div_lt_one (by norm_num)]
    exact_mod_cast Iff.rfl
  rw [scaled, rounds]
  push_cast
  constructor <;> intro less <;> linarith

theorem denotedValue_le_one (below : v < 1) : denotedValue v ≤ 1 := by
  have le : v * 1000 ≤ (1000 : ℤ) := by
    push_cast
    linarith
  have rounded := roundAway_monotone le
  rw [roundAway_intCast] at rounded
  rw [denotedValue_milli below, div_le_one (by norm_num)]
  exact_mod_cast rounded

/-- The volt form denotes at least one volt. -/
theorem one_le_denotedValue (above : 1 ≤ v) : 1 ≤ denotedValue v := by
  have le : ((100 : ℤ) : ℚ) ≤ v * 100 := by
    push_cast
    linarith
  have rounded := roundAway_monotone le
  rw [roundAway_intCast] at rounded
  rw [denotedValue_unit above, one_le_div (by norm_num)]
  exact_mod_cast rounded

/-- A value just below one volt prints as a thousand millivolts. -/
theorem getFormattedString_thousand (lower : 9995 / 10000 ≤ v) (below : v < 1)
    (measureUnit : Text) :
    getFormattedString .exact v measureUnit = "1000.00m".toList ++ measureUnit := by
  have one : denotedValue v = 1 :=
    le_antisymm (denotedValue_le_one below)
      (not_lt.mp (mt (denotedValue_lt_one_iff below).mp (not_lt.mpr lower)))
  have thousand : roundAway (v * 1000) = 1000 := by
    rw [denotedValue_milli below, div_eq_one_iff_eq (by norm_num)] at one
    exact_mod_cast one
  have digits : printFloat (some ((1000 : ℤ) : ℚ)) = "1000.00".toList := by decide +kernel
  rw [getFormattedString, if_pos below, Arith.exact_toDouble, thousand, digits]
  rfl

/-- Denoted values keep the order, across the two forms too. -/
theorem denotedValue_monotone : Monotone denotedValue := by
  intro v v' le
  rcases lt_or_ge v' 1 with below' | above'
  · rw [denotedValue_milli (le.trans_lt below'), denotedValue_milli below']
    gcongr
    apply roundAway_monotone
    gcongr
  rcases lt_or_ge v 1 with below | above
  · exact (denotedValue_le_one below).trans (one_le_denotedValue above')
  · rw [denotedValue_unit above, denotedValue_unit above']
    gcongr
    apply roundAway_monotone
    gcongr

end Denoted

/-- **Formatted values.** For every value and unit, the formatted text reads back as
a form and a value. The form is milli exactly below one; the value is within 0.0005
in that form and within 0.005 in the other; it keeps the order of the inputs; and
the form is milli exactly where the value read is below one, unless the input lies
from 0.9995 up to 1, which prints as a thousand of the milli unit. -/
theorem formatted_spec (valueInput : ℚ) (measureUnit : Text) :
    ∃ form x,
      readFormatted measureUnit (getFormattedString .exact valueInput measureUnit) =
        some (form, x) ∧
      (form = .milli ↔ valueInput < 1) ∧
      (form = .milli → |x - valueInput| ≤ 5 / 10000) ∧
      (form = .unit → |x - valueInput| ≤ 5 / 1000) ∧
      ((form = .milli ↔ x < 1) ↔ ¬ (9995 / 10000 ≤ valueInput ∧ valueInput < 1)) ∧
      (9995 / 10000 ≤ valueInput → valueInput < 1 →
        getFormattedString .exact valueInput measureUnit = "1000.00m".toList ++ measureUnit) ∧
      ∀ larger, valueInput ≤ larger → ∃ form' x',
        readFormatted measureUnit (getFormattedString .exact larger measureUnit) =
          some (form', x') ∧ x ≤ x' := by
  have order (larger : ℚ) (le : valueInput ≤ larger) : ∃ form' x',
      readFormatted measureUnit (getFormattedString .exact larger measureUnit) =
        some (form', x') ∧ denotedValue valueInput ≤ x' :=
    ⟨_, _, readFormatted_eq larger measureUnit, denotedValue_monotone le⟩
  have thousand (lower : 9995 / 10000 ≤ valueInput) (below : valueInput < 1) :=
    getFormattedString_thousand lower below measureUnit
  refine ⟨_, _, readFormatted_eq valueInput measureUnit, ?_⟩
  rcases lt_or_ge valueInput 1 with below | above
  · have close := abs_denotedValue_milli_sub_le below
    have boundary := denotedValue_lt_one_iff below
    rw [if_pos below]
    refine ⟨iff_of_true rfl below, fun _ => close, fun unit => ?_, ?_, thousand, order⟩
    · cases unit
    · rw [boundary]
      constructor
      · rintro same ⟨lower, -⟩
        exact absurd (same.mp rfl) (not_lt.mpr lower)
      · intro outside
        exact ⟨fun _ => not_le.mp fun lower => outside ⟨lower, below⟩, fun _ => rfl⟩
  · have close := abs_denotedValue_unit_sub_le above
    have volt := one_le_denotedValue above
    have other : Form.unit ≠ .milli := Form.noConfusion
    rw [if_neg (not_lt.mpr above)]
    refine ⟨iff_of_false other (not_lt.mpr above), fun milli => absurd milli other,
      fun _ => close, ?_, thousand, order⟩
    refine iff_of_true (iff_of_false other (not_lt.mpr volt)) ?_
    rintro ⟨-, below⟩
    exact absurd below (not_lt.mpr above)

/-- One value that rounds to a thousand millivolts. -/
theorem formatted_thousand_milli :
    getFormattedString .exact (9996 / 10000) "V".toList = "1000.00mV".toList ∧
      ¬ ∀ (valueInput : ℚ) (measureUnit : Text) (form : Form) (x : ℚ), 0 ≤ valueInput →
        readFormatted measureUnit (getFormattedString .exact valueInput measureUnit) =
          some (form, x) →
        (form = .milli ↔ x < 1) := by
  have thousand : roundAway ((9996 : ℚ) / 10000 * 1000) = 1000 := by decide +kernel
  have below : ((9996 : ℚ) / 10000) < 1 := by norm_num
  constructor
  · decide +kernel
  · intro normalised
    have read := readFormatted_eq (9996 / 10000) "V".toList
    rw [if_pos below, denotedValue_milli below, thousand] at read
    have less := (normalised _ _ _ _ (by norm_num) read).mp rfl
    norm_num at less

end RFPowerDetector.Firmware
