/-
From a channel average to the printed report values (`src/main.cpp`):
`getVoltageFromADC`, the dBm expression both report formats share,
`printChannelAverage` and `getFormattedString`.

The conversion of a float to `uint16_t` truncates; the language leaves it open
for not-a-number and for a value outside the type's range, so `toUInt16` takes
the word such a conversion yields as an argument.
-/

import RFPowerDetector.Firmware.Sample
import RFPowerDetector.Library.Numeral

namespace RFPowerDetector.Firmware

open Rounding

/-! ### Printing -/

/-- `Serial.print` and `String` of a float or double: two decimals, or `nan`. -/
def printFloat : Option ℚ → Text
  | none => "nan".toList
  | some x => Numeral.fixedPoint 2 x

/-- `Serial.print` and `String` of a signed integer. -/
def signedText (n : ℤ) : Text :=
  (if n < 0 then ['-'] else []) ++ unsignedText n.natAbs

/-- `println` appends a carriage return and a line feed. -/
def println (t : Text) : Text := t ++ ['\r', '\n']

/-! ### Conversions -/

/-- `(uint16_t) x`. -/
def toUInt16 (unspecified : Word) : Option ℚ → Word
  | none => unspecified
  | some x => if -1 < x ∧ x < 65536 then BitVec.ofNat 16 ⌊x⌋₊ else unspecified

/-- Converts the ADC reading to a voltage. -/
def getVoltageFromADC (ar : Arith) (adcReading : Word) : ℚ :=
  ar.toFloat (ar.toDouble (ar.toDouble ((adcReading.toNat : ℚ) / adcMaxBitValue) * adcMaxVoltage))

/-- `(float)(voltageValue / DBM_SLOPE) + DBM_INTERCEPT`. -/
def dbmValue (ar : Arith) (voltageValue : ℚ) : ℚ :=
  ar.toFloat (ar.toFloat (ar.toDouble (voltageValue / ar.toDouble dbmSlope)) + dbmIntercept)

/-- `directRollingAverage = calculateChannelAverage(...)`: the double narrowed
to float. -/
def rollingAverage (ar : Arith) (average : Option ℚ) : Option ℚ := average.map ar.toFloat

/-! ### CSV mode -/

/-- The dBm value of a `uint16_t` code. -/
def codeDbm (ar : Arith) (code : Word) : ℚ := dbmValue ar (getVoltageFromADC ar code)

/-- The dBm value of a channel in CSV mode. -/
def csvDbm (ar : Arith) (unspecified : Word) (directRollingAverage : Option ℚ) : ℚ :=
  codeDbm ar (toUInt16 unspecified directRollingAverage)

/-- The prints of one channel in CSV mode. -/
def csvPrints (ar : Arith) (unspecified : Word) (directRollingAverage : Option ℚ) : List Text :=
  [printFloat (some (csvDbm ar unspecified directRollingAverage)), ", ".toList]

/-! ### Text mode -/

/-- `voltageValue` of `printChannelAverage`: on channel A only, the offset is
added. -/
def channelVoltage (ar : Arith) (unspecified : Word) (sampleAverage : Option ℚ)
    (selectedADC : RFInputADC) : ℚ :=
  let voltageValue := getVoltageFromADC ar (toUInt16 unspecified sampleAverage)
  if selectedADC.getEnumADC = .adcA then
    ar.toFloat (ar.toFloat (voltageValue * 1) + selectedADC.getOffsetVoltage ar)
  else voltageValue

/-- Formats a value with a SI unit: millivolts below one volt. -/
def getFormattedString (ar : Arith) (valueInput : ℚ) (measureUnit : Text) : Text :=
  if valueInput < 1 then
    printFloat (some (roundAway (ar.toDouble (valueInput * 1000)))) ++ "m".toList ++ measureUnit
  else
    printFloat (some (ar.toDouble (roundAway (ar.toDouble (valueInput * 100)) / 100))) ++
      measureUnit

/-- The dBm value of a channel in text mode. -/
def textDbm (ar : Arith) (unspecified : Word) (sampleAverage : Option ℚ)
    (selectedADC : RFInputADC) : ℚ :=
  dbmValue ar (channelVoltage ar unspecified sampleAverage selectedADC)

/-- The prints of `printChannelAverage`, in order. -/
def printChannelAverage (ar : Arith) (unspecified : Word) (sampleAverage : Option ℚ)
    (selectedADC : RFInputADC) : List Text :=
  [selectedADC.toString ++ ": ".toList,
    printFloat sampleAverage,
    ", ".toList,
    getFormattedString ar (channelVoltage ar unspecified sampleAverage selectedADC) "V".toList,
    ", ".toList,
    printFloat (some (textDbm ar unspecified sampleAverage selectedADC)),
    "dBm".toList,
    println []]

end RFPowerDetector.Firmware
