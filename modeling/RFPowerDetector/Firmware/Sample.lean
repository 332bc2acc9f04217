/-
Samples, ADC channels and channel averages (`src/RFSample.cpp`,
`src/RFInputADC.cpp`, `src/dataHelper.cpp`).

`getValue` returns the 16-bit reading as a float, which holds every such integer
exactly. The averages take the buffer as a function of the index: the memory
from `adcSampleBuffer` on, one `RFSample` a cell.
-/

import RFPowerDetector.Firmware.Defs

namespace RFPowerDetector.Firmware

/-! ### `RFSample` -/

structure RFSample where
  sampleValueA : Word
  sampleValueB : Word
  sampleValueN : Word
  sampleValueP : Word
  timestamp : BitVec 32
  deriving DecidableEq, Repr

/-- The constructor from the array of channel values. -/
def RFSample.ofArray (sampleArray : EnumADC → Word) (acquireTime : BitVec 32) : RFSample where
  sampleValueA := sampleArray .adcA
  sampleValueB := sampleArray .adcB
  sampleValueN := sampleArray .adcN
  sampleValueP := sampleArray .adcP
  timestamp := acquireTime

/-- The default constructor: invalid values. -/
def RFSample.invalid : RFSample where
  sampleValueA := rfInvalidValue
  sampleValueB := rfInvalidValue
  sampleValueN := rfInvalidValue
  sampleValueP := rfInvalidValue
  timestamp := 0

/-- The stored reading of a channel. -/
def RFSample.reading (s : RFSample) : EnumADC → Word
  | .adcA => s.sampleValueA
  | .adcB => s.sampleValueB
  | .adcN => s.sampleValueN
  | .adcP => s.sampleValueP

/-- `getValue`: the reading as a float. -/
def RFSample.getValue (s : RFSample) (adc : EnumADC) : ℚ := (s.reading adc).toNat

@[simp] theorem RFSample.reading_ofArray (sampleArray : EnumADC → Word) (t : BitVec 32)
    (adc : EnumADC) : (RFSample.ofArray sampleArray t).reading adc = sampleArray adc := by
  cases adc <;> rfl

/-- An unsigned integer in decimal. -/
def unsignedText (n : ℕ) : Text := Nat.toDigits 10 n

/-- Values in [A, B, N, P] order after the timestamp. -/
def RFSample.toString (s : RFSample) : Text :=
  unsignedText s.timestamp.toNat ++ ": ".toList ++
    unsignedText s.sampleValueA.toNat ++ ", ".toList ++
    unsignedText s.sampleValueB.toNat ++ ", ".toList ++
    unsignedText s.sampleValueN.toNat ++ ", ".toList ++
    unsignedText s.sampleValueP.toNat

/-! ### `RFInputADC` -/

structure RFInputADC where
  csp : Byte
  adcReference : EnumADC
  adcName : Text
  isEnabled : Bool
  offsetVoltage : ℚ
  deriving DecidableEq

/-- The constructor: enabled, with the default offset. -/
def RFInputADC.new (chipSelectPin : Byte) (reference : EnumADC) (channelName : Text) :
    RFInputADC where
  csp := chipSelectPin
  adcReference := reference
  adcName := channelName
  isEnabled := true
  offsetVoltage := defaultOffsetVoltage

def RFInputADC.setEnabled (adc : RFInputADC) (stateEnable : Bool) : RFInputADC :=
  { adc with isEnabled := stateEnable }

def RFInputADC.getSelectPin (adc : RFInputADC) : Byte := adc.csp
def RFInputADC.getEnumADC (adc : RFInputADC) : EnumADC := adc.adcReference
def RFInputADC.getEnabled (adc : RFInputADC) : Bool := adc.isEnabled

/-- The offset literal, narrowed to the float field. -/
def RFInputADC.getOffsetVoltage (ar : Arith) (adc : RFInputADC) : ℚ :=
  ar.toFloat adc.offsetVoltage

def RFInputADC.toString (adc : RFInputADC) : Text := "ADC Channel ".toList ++ adc.adcName

/-- The four global ADC objects, `adcOutA` to `adcOutP`. -/
def adcOut : EnumADC → RFInputADC
  | .adcA => .new adcOutACsPin .adcA "A".toList
  | .adcB => .new adcOutBCsPin .adcB "B".toList
  | .adcN => .new adcOutNCsPin .adcN "N".toList
  | .adcP => .new adcOutPCsPin .adcP "P".toList

/-- The channels in the order of `rfAdcList`. -/
def adcOrder : List EnumADC := [.adcA, .adcB, .adcN, .adcP]

/-- `rfAdcList` once `setEnabled` has been called with the given flags. -/
def rfAdcList (enabled : EnumADC → Bool) : List RFInputADC :=
  adcOrder.map fun adc => (adcOut adc).setEnabled (enabled adc)

/-- The chip-select pin of a channel. -/
def selectPin (adc : EnumADC) : Byte := (adcOut adc).getSelectPin

theorem selectPin_injective : Function.Injective selectPin := by
  intro a b h
  cases a <;> cases b <;> first | rfl | exact absurd h (by decide)

theorem mem_adcOrder (adc : EnumADC) : adc ∈ adcOrder := by
  cases adc <;> decide

/-! ### Channel averages -/

/-- One iteration of the summing loop. -/
def addSample (ar : Arith) (sampleBuffer : ℕ → RFSample) (adcEnum : EnumADC) (channelSum : ℚ)
    (bufferPosition : ℕ) : ℚ :=
  ar.toDouble (channelSum + (sampleBuffer bufferPosition).getValue adcEnum)

def calculateChannelSum (ar : Arith) (sampleBuffer : ℕ → RFSample) (sampleCount : ℤ)
    (selectedADC : RFInputADC) : ℚ :=
  (List.range sampleCount.toNat).foldl (addSample ar sampleBuffer selectedADC.getEnumADC) 0

/-- The quotient of the sum and the count: `0 / 0`, not a number, for a count of
zero. -/
def averageOf (ar : Arith) (channelSum : ℚ) (sampleCount : ℤ) : Option ℚ :=
  if sampleCount = 0 then none else some (ar.toDouble (channelSum / sampleCount))

def calculateChannelAverage (ar : Arith) (sampleBuffer : ℕ → RFSample) (sampleCount : ℤ)
    (selectedADC : RFInputADC) : Option ℚ :=
  averageOf ar (calculateChannelSum ar sampleBuffer sampleCount selectedADC) sampleCount

/-- The sum one position further. -/
theorem calculateChannelSum_succ (ar : Arith) (sampleBuffer : ℕ → RFSample) (i : ℕ)
    (selectedADC : RFInputADC) :
    calculateChannelSum ar sampleBuffer ((i : ℤ) + 1) selectedADC =
      addSample ar sampleBuffer selectedADC.getEnumADC
        (calculateChannelSum ar sampleBuffer i selectedADC) i := by
  have next : ((i : ℤ) + 1).toNat = i + 1 := by omega
  simp only [calculateChannelSum, next, Int.toNat_natCast, List.range_succ, List.foldl_append,
    List.foldl_cons, List.foldl_nil]

/-- A sum depends on the positions below its count only. -/
theorem calculateChannelSum_congr {ar : Arith} {sampleBuffer other : ℕ → RFSample}
    {sampleCount : ℤ} (same : ∀ p : ℕ, p < sampleCount → sampleBuffer p = other p)
    (selectedADC : RFInputADC) :
    calculateChannelSum ar sampleBuffer sampleCount selectedADC =
      calculateChannelSum ar other sampleCount selectedADC := by
  refine List.foldl_ext _ _ _ fun channelSum p hp => ?_
  have inside := List.mem_range.mp hp
  rw [addSample, addSample, same p (by omega)]

end RFPowerDetector.Firmware
