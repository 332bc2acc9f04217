/-
Constants and enumerations of the firmware (`src/defs.h`), and the arithmetic
its numeric code is stated over.

A `double` or `float` is a rational, and not-a-number is the missing value of
an `Option`. `Arith` says how the result of a double operation and of a
narrowing to float is rounded: `Arith.exact` does not round, `Arith.ieee` rounds
to the nearest 53-bit and 24-bit significand as the board's FPU does away from
overflow and underflow.
-/

import RFPowerDetector.Library.Rounding

namespace RFPowerDetector.Firmware

/-- `uint8_t` -/
abbrev Byte := BitVec 8

/-- `uint16_t` -/
abbrev Word := BitVec 16

/-- Characters sent over the USB serial port. -/
abbrev Text := List Char

/-! ### Pins -/

def adcOutACsPin : Byte := 10
def adcOutBCsPin : Byte := 9
def adcOutNCsPin : Byte := 8
def adcOutPCsPin : Byte := 7

/-- The Teensy's LED pin, which `toggleLED` drives. -/
def ledBuiltin : Byte := 13

/-! ### ADC details -/

def adcBits : ℕ := 14

/-- `ADC_MAX_BIT_VALUE`: `pow(2, ADC_BITS) - 1`. -/
def adcMaxBitValue : ℚ := 2 ^ adcBits - 1

def adcMaxVoltage : ℚ := 5

/-- `RF_INVALID_VALUE` -/
def rfInvalidValue : Word := 65535

inductive EnumADC where
  | adcA | adcB | adcN | adcP
  deriving DecidableEq, Repr

/-! ### Buffer capacity -/

def ramMaximum : ℚ := 8000000

/-- `RF_BUFFER_LENGTH`. `SAMPLE_DATA_SIZE` is the text `(4 * 8) + 2`, which the
preprocessor puts after the division unparenthesised, so the `2` is added to
the quotient and not to the divisor. -/
def rfBufferLength : ℕ := ⌊ramMaximum / (4 * 8) + 2⌋₊

theorem rfBufferLength_eq : rfBufferLength = 250002 := by
  norm_num [rfBufferLength, ramMaximum]

/-! ### Calculations -/

def dbmSlope : ℚ := 516 / 10000
def dbmIntercept : ℚ := -59

theorem dbmSlope_pos : 0 < dbmSlope := by norm_num [dbmSlope]

/-- `getOffsetVoltage`'s field, as the constructor's literal. -/
def defaultOffsetVoltage : ℚ := 25 / 1000

/-- How a double operation and a narrowing to float round their result. -/
structure Arith where
  toDouble : ℚ → ℚ
  toFloat : ℚ → ℚ

/-- Exact rational arithmetic. -/
def Arith.exact : Arith := ⟨id, id⟩

/-- Binary64 and binary32 significands. -/
def Arith.ieee : Arith := ⟨Rounding.toPrecision 53, Rounding.toPrecision 24⟩

@[simp] theorem Arith.exact_toDouble (x : ℚ) : Arith.exact.toDouble x = x := rfl
@[simp] theorem Arith.exact_toFloat (x : ℚ) : Arith.exact.toFloat x = x := rfl

end RFPowerDetector.Firmware
