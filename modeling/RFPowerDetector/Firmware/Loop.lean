/-
The firmware as a machine (`src/main.cpp`): `setup`, the `fastMeasure`
interrupt, and the steps of `loop`.

An action is either one `fastMeasure` interrupt, atomic with respect to `loop`,
or one step of `loop`. The interrupt carries what the outside answers during the
call: the bytes on the SPI bus and the clock. A step of `loop` carries the
answers of the libraries it may ask: whether a `Metro` timer fires, the number
`random` draws, the word an undefined conversion to `uint16_t` yields, the byte
waiting on the serial port. Every read of `rfSampleBufferLength` or of a buffer
entry, every iteration of a summing loop, every print and every timer check is
a step of its own, so interrupts fall between any two of them.

`printing` holds the prints the current statement still has to make; while it is
nonempty, a step makes the first of them. The buffer is the memory from
`adcSampleBuffer` on, one `RFSample` a cell: the array is its first
`rfBufferLength` cells, and whether an access stays inside it is a property of
the events, not of the memory.
-/

import Mathlib.Logic.Function.Basic
import RFPowerDetector.Firmware.Convert
import RFPowerDetector.Firmware.Measure
import RFPowerDetector.Library.Machine

namespace RFPowerDetector.Firmware

open Transition

/-! ### State -/

/-- `booleanRXKey`: CSV reports while true, text reports while false. -/
inductive Mode where
  | csv | text
  deriving DecidableEq, Repr

/-- Where `loop` stands. -/
inductive Pc where
  /-- `blinkTimer.check()` -/
  | blinkTimer
  /-- `serialOutputTimer.check()` -/
  | serialTimer
  /-- the argument `(long) rfSampleBufferLength` of the header -/
  | headerCount
  /-- `sampleBuffer[0].toString()` in the header -/
  | headerStart
  /-- `random(rfSampleBufferLength)` -/
  | randomFrame
  /-- the argument `adcSampleBuffer[selectedRandomFrame]` -/
  | frame (selectedRandomFrame : ℕ)
  /-- the channel loop of a report, before the first of `rest` -/
  | channels (mode : Mode) (rest : List RFInputADC)
  /-- the summing loop of `calculateChannelSum`, before `bufferPosition` -/
  | summing (mode : Mode) (selectedADC : RFInputADC) (rest : List RFInputADC)
      (sampleCount : ℤ) (bufferPosition : ℕ) (channelSum : ℚ)
  /-- `rfSampleBufferLength = 0` -/
  | reset
  /-- `Serial.available()` and `Serial.read()` -/
  | serialInput
  deriving DecidableEq

structure State where
  enabled : EnumADC → Bool
  scan : Scan
  rfSampleBufferLength : BitVec 32
  rfSampleMicroseconds : BitVec 32
  adcSampleBuffer : ℕ → RFSample
  directRollingAverage : Option ℚ
  voltageValue : ℚ
  booleanRXKey : Bool
  incomingData : ℤ
  adcSumA : ℤ
  pc : Pc
  printing : List Text

/-! ### The interrupt -/

/-- What the outside answers during one call of `fastMeasure`: the bytes of its
transfers, the time at which it may reset the microsecond counter and the time at
which it reads it. -/
structure Interrupt where
  miso : ℕ → Byte
  resetTime : ℕ
  readTime : ℕ

/-- `micros()`: the time since start-up modulo 2^32. -/
def micros (time : ℕ) : BitVec 32 := BitVec.ofNat 32 time

/-- One call of `fastMeasure`: where it stores, what it stores, its transfers. -/
structure Call where
  index : ℕ
  sample : RFSample
  transfers : List Transfer

/-- The scan a call makes. -/
def callScan (s : State) (i : Interrupt) : Scan :=
  scanChannels i.miso (rfAdcList s.enabled) { s.scan with transfers := [] }

/-- The start value of the `elapsedMicros` counter after the call's test of the
length: assigning 0 stores `micros() - 0`. -/
def callStart (s : State) (i : Interrupt) : BitVec 32 :=
  if s.rfSampleBufferLength = 0 then micros i.resetTime - 0 else s.rfSampleMicroseconds

/-- The sample a call stores. -/
def callSample (s : State) (i : Interrupt) : RFSample :=
  .ofArray (callScan s i).fastSampleArray (micros i.readTime - callStart s i)

def fastMeasure (s : State) (i : Interrupt) : State × Call :=
  ({ s with
      scan := callScan s i
      rfSampleMicroseconds := callStart s i
      adcSampleBuffer :=
        Function.update s.adcSampleBuffer s.rfSampleBufferLength.toNat (callSample s i)
      rfSampleBufferLength := s.rfSampleBufferLength + 1 },
    ⟨s.rfSampleBufferLength.toNat, callSample s i, (callScan s i).transfers⟩)

/-! ### The steps of `loop` -/

/-- What the libraries answer to a step of `loop`. -/
structure Answers where
  timerFires : Bool
  randomDraw : ℕ
  unspecified : Word
  incoming : Option Byte

/-- `random(howBig)`: below `howBig`, and 0 for 0. -/
def random (draw howBig : ℕ) : ℕ := if howBig = 0 then 0 else draw % howBig

inductive Event where
  /-- a `fastMeasure` interrupt -/
  | sampled (call : Call)
  /-- a step that touches neither the length, the buffer nor the serial port -/
  | silent
  /-- the serial timer fired and a report begins -/
  | reportStarted (mode : Mode)
  | printed (text : Text)
  /-- the length read for the header -/
  | headerCounted (sampleCount : ℤ)
  /-- entry 0 read for the header -/
  | startRead (sample : RFSample)
  /-- the length read for `random`, and the frame drawn -/
  | frameSelected (selectedRandomFrame : ℕ)
  | frameRead (selectedRandomFrame : ℕ) (sample : RFSample)
  /-- the length read for a call of `calculateChannelAverage` -/
  | averageCalled (mode : Mode) (adc : EnumADC) (sampleCount : ℤ)
  /-- one iteration of the summing loop -/
  | averageRead (adc : EnumADC) (bufferPosition : ℕ)
  /-- `calculateChannelAverage` returned; the word its conversion to `uint16_t`
  yields if that is undefined -/
  | averaged (mode : Mode) (selectedADC : RFInputADC) (average : Option ℚ) (unspecified : Word)
  /-- the end of the channel loop -/
  | channelsDone (mode : Mode)
  /-- `rfSampleBufferLength = 0` -/
  | reset
  | inputRead (incoming : Byte)

/-- What the build of the board fixes: the enabled flags `setup` passes, the
content of the buffer memory when `setup` returns, the arithmetic. -/
structure Board where
  enabled : EnumADC → Bool
  memory : ℕ → RFSample
  arith : Arith

/-- The flags of the source: channels A and B are on. -/
def sourceEnabled : EnumADC → Bool
  | .adcA | .adcB => true
  | .adcN | .adcP => false

/-- `toggleLED` -/
def toggleLED (pins : Pins) : Pins :=
  digitalWrite pins ledBuiltin (if digitalRead pins ledBuiltin = .high then .low else .high)

/-- The header's first two prints. -/
def headerPrints (sampleCount : ℤ) : List Text := ["Samples: ".toList, signedText sampleCount]

/-- The header's print of the start sample. -/
def startPrint (sample : RFSample) : Text := " Start: ".toList ++ sample.toString

/-- The prints of `adcBufferPrintFrame`. -/
def framePrints (selectedFrame : ℕ) (selectedSample : RFSample) : List Text :=
  ["Buffer Frame ".toList ++ unsignedText selectedFrame, ": ".toList,
    println selectedSample.toString, println []]

/-- `loop`'s step at the program counter, once the pending prints are made. -/
def loopStep (ar : Arith) (s : State) (w : Answers) : State × Event :=
  match s.pc with
  | .blinkTimer =>
      if w.timerFires then
        ({ s with scan := { s.scan with pins := toggleLED s.scan.pins }, pc := .serialTimer }, .silent)
      else ({ s with pc := .serialTimer }, .silent)
  | .serialTimer =>
      if w.timerFires then
        if s.booleanRXKey then
          ({ s with pc := .channels .csv (rfAdcList s.enabled) }, .reportStarted .csv)
        else
          ({ s with printing := List.replicate 11 (println []), pc := .headerCount },
            .reportStarted .text)
      else ({ s with pc := .serialInput }, .silent)
  | .headerCount =>
      ({ s with printing := headerPrints s.rfSampleBufferLength.toInt, pc := .headerStart },
        .headerCounted s.rfSampleBufferLength.toInt)
  | .headerStart =>
      ({ s with printing := [startPrint (s.adcSampleBuffer 0), println []], pc := .randomFrame },
        .startRead (s.adcSampleBuffer 0))
  | .randomFrame =>
      ({ s with pc := .frame (random w.randomDraw s.rfSampleBufferLength.toNat) },
        .frameSelected (random w.randomDraw s.rfSampleBufferLength.toNat))
  | .frame k =>
      ({ s with
          printing := framePrints k (s.adcSampleBuffer k)
          pc := .channels .text (rfAdcList s.enabled) },
        .frameRead k (s.adcSampleBuffer k))
  | .channels .csv [] =>
      ({ s with printing := [println ['\n']], pc := .reset }, .channelsDone .csv)
  | .channels .text [] => ({ s with pc := .reset }, .channelsDone .text)
  | .channels .text (selectedADC :: rest) =>
      if selectedADC.getEnabled then
        ({ s with pc := .summing .text selectedADC rest s.rfSampleBufferLength.toInt 0 0 },
          .averageCalled .text selectedADC.getEnumADC s.rfSampleBufferLength.toInt)
      else ({ s with pc := .channels .text rest }, .silent)
  | .channels .csv (selectedADC :: rest) =>
      ({ s with pc := .summing .csv selectedADC rest s.rfSampleBufferLength.toInt 0 0 },
        .averageCalled .csv selectedADC.getEnumADC s.rfSampleBufferLength.toInt)
  | .summing mode selectedADC rest sampleCount bufferPosition channelSum =>
      if (bufferPosition : ℤ) < sampleCount then
        ({ s with
            pc := .summing mode selectedADC rest sampleCount (bufferPosition + 1)
              (addSample ar s.adcSampleBuffer selectedADC.getEnumADC channelSum bufferPosition) },
          .averageRead selectedADC.getEnumADC bufferPosition)
      else
        let average := averageOf ar channelSum sampleCount
        let directRollingAverage := rollingAverage ar average
        match mode with
        | .csv =>
            ({ s with
                directRollingAverage
                voltageValue := getVoltageFromADC ar (toUInt16 w.unspecified directRollingAverage)
                printing := csvPrints ar w.unspecified directRollingAverage
                pc := .channels .csv rest },
              .averaged .csv selectedADC average w.unspecified)
        | .text =>
            ({ s with
                directRollingAverage
                printing := printChannelAverage ar w.unspecified directRollingAverage selectedADC
                pc := .channels .text rest },
              .averaged .text selectedADC average w.unspecified)
  | .reset => ({ s with rfSampleBufferLength := 0, adcSumA := 0, pc := .serialInput }, .reset)
  | .serialInput =>
      match w.incoming with
      | none => ({ s with pc := .blinkTimer }, .silent)
      | some byte =>
          ({ s with
              incomingData := byte.toNat
              booleanRXKey := if byte = 77 then !s.booleanRXKey else s.booleanRXKey
              pc := .blinkTimer },
            .inputRead byte)

/-! ### The machine -/

inductive Action where
  | fastMeasure (i : Interrupt)
  | loop (w : Answers)

def Action.isInterrupt : Action → Bool
  | .fastMeasure _ => true
  | .loop _ => false

def step (ar : Arith) (s : State) : Action → State × Event
  | .fastMeasure i => ((fastMeasure s i).1, .sampled (fastMeasure s i).2)
  | .loop w =>
      match s.printing with
      | text :: printing => ({ s with printing }, .printed text)
      | [] => loopStep ar s w

/-- The chip-select pins after `setup`: outputs, in the order of the source. -/
def setupPins : Pins :=
  [EnumADC.adcA, .adcB, .adcN, .adcP].foldl (fun pins adc => pinMode pins (selectPin adc))
    fun _ => none

/-- The state when `setup` returns. -/
def setup (b : Board) : State where
  enabled := b.enabled
  scan := ⟨setupPins, 0, 0, 0, 0, fun _ => 0, []⟩
  rfSampleBufferLength := 0
  rfSampleMicroseconds := 0
  adcSampleBuffer := b.memory
  directRollingAverage := some 0
  voltageValue := 0
  booleanRXKey := true
  incomingData := 0
  adcSumA := 0
  pc := .blinkTimer
  printing := []

/-- The firmware of a board. -/
def firmware (b : Board) : Machine State Action Event := ⟨setup b, step b.arith⟩

end RFPowerDetector.Firmware
