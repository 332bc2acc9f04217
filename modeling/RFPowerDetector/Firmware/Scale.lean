/-
The scale of a reading, over exact rational arithmetic.

* `fullScale_iff`: readings, voltages and CSV values stay in the range of a
  14-bit converter exactly when every channel's first byte is below 128:
  `getADCMeasure` shifts two bytes once and keeps 15 bits.
* `formats_agree_iff`: text and CSV mode compute the same dBm value for every
  channel but A, to which only text mode adds the offset voltage.
-/

import RFPowerDetector.Firmware.Mean

namespace RFPowerDetector.Firmware

open Transition

/-! ### Voltages -/

/-- The voltage of a channel. -/
def Window.voltage (ar : Arith) (unspecified : Word) (w : Window) (adc : EnumADC) : ℚ :=
  getVoltageFromADC ar (w.code ar unspecified adc)

theorem getVoltageFromADC_exact (code : Word) :
    getVoltageFromADC .exact code = code.toNat / 16383 * 5 := by
  norm_num [getVoltageFromADC, adcMaxBitValue, adcBits, adcMaxVoltage]

theorem dbmValue_exact (voltageValue : ℚ) :
    dbmValue .exact voltageValue = voltageValue / dbmSlope + dbmIntercept := rfl

/-! ### Full scale -/

/-- The window of a history that has taken a sample since the last reset. -/
def windowOf (h : List Event) (some : 0 < windowCount h) : Window where
  sampleBuffer := windowBuffer h
  sampleCount := windowCount h
  nonempty := Nat.cast_pos.mpr some

/-- Readings, voltages and CSV values are in the range of a 14-bit converter. -/
structure FullScale (h : List Event) : Prop where
  readings : ∀ call ∈ windowCalls h, ∀ adc, (call.sample.reading adc).toNat ≤ 2 ^ adcBits - 1
  voltages : ∀ some unspecified adc,
    0 ≤ (windowOf h some).voltage .exact unspecified adc ∧
      (windowOf h some).voltage .exact unspecified adc ≤ adcMaxVoltage
  levels : ∀ some unspecified adc,
    dbmIntercept ≤
        csvDbm .exact unspecified (rollingAverage .exact ((windowOf h some).average .exact adc)) ∧
      csvDbm .exact unspecified (rollingAverage .exact ((windowOf h some).average .exact adc)) ≤
        dbmIntercept + adcMaxVoltage / dbmSlope

/-- The first byte of every channel's transfers is below 128. -/
def HighBitClear (call : Call) : Prop :=
  ∀ adc, ∀ t ∈ (transfersFor adc call.transfers).head?, t.byte.toNat < 128

theorem windowBuffer_mem {h : List Event} {p : ℕ} (hp : p < windowCount h) :
    ∃ call ∈ windowCalls h, windowBuffer h p = call.sample := by
  have inside : p < (windowCalls h).length := (length_windowCalls h).symm ▸ hp
  refine ⟨(windowCalls h)[p], List.getElem_mem inside, ?_⟩
  simp [windowBuffer, List.getElem?_eq_getElem inside]

/-- A 15-bit value is a 14-bit value exactly when its first byte is below 128. -/
theorem assemble_le_iff (biggerByte smallerByte : Byte) :
    (assemble biggerByte smallerByte).toNat ≤ 2 ^ adcBits - 1 ↔ biggerByte.toNat < 128 := by
  have bigger := biggerByte.isLt
  have smaller := smallerByte.isLt
  rw [assemble_toNat, adcBits]
  omega

theorem Measured.reading_le_iff {enabled : EnumADC → Bool} {call : Call} {adc : EnumADC}
    (measured : Measured enabled call adc) :
    (call.sample.reading adc).toNat ≤ 2 ^ adcBits - 1 ↔
      ∀ t ∈ (transfersFor adc call.transfers).head?, t.byte.toNat < 128 := by
  cases on : enabled adc with
  | true =>
      obtain ⟨t₁, t₂, transfers, -, -, value⟩ := measured.on on
      have reading : (call.sample.reading adc).toNat = (assemble t₁.byte t₂.byte).toNat :=
        Nat.cast_injective value
      simp [transfers, reading, assemble_le_iff]
  | false =>
      obtain ⟨transfers, value⟩ := measured.off on
      have reading : (call.sample.reading adc).toNat = 0 := Nat.cast_injective value
      simp [transfers, reading]

/-- The voltage of a window of 14-bit readings. -/
theorem Window.voltage_bounds {w : Window} {adc : EnumADC} (bound : w.ReadingsLe adc 16383)
    (unspecified : Word) :
    0 ≤ w.voltage .exact unspecified adc ∧ w.voltage .exact unspecified adc ≤ adcMaxVoltage := by
  have code := Window.code_le (exact_faithful _) unspecified bound
  have upper : ((w.code .exact unspecified adc).toNat : ℚ) ≤ 16383 := by exact_mod_cast code
  rw [voltage, getVoltageFromADC_exact, adcMaxVoltage]
  constructor
  · positivity
  · linarith

/-- **Full scale.** At every moment of every run, the readings of the window, its
voltages and its CSV values are in the range of a 14-bit converter if and only if
every call of the window received a first byte below 128 from every channel. -/
theorem fullScale_iff (b : Board) (as : List Action) :
    FullScale (history b as) ↔ ∀ call ∈ windowCalls (history b as), HighBitClear call := by
  have measured : ∀ call ∈ windowCalls (history b as), ∀ adc, Measured b.enabled call adc :=
    fun call hcall => measured_of_mem (run_history b as) call (mem_calls_of_windowCalls hcall)
  have readings : (∀ call ∈ windowCalls (history b as), ∀ adc,
      (call.sample.reading adc).toNat ≤ 2 ^ adcBits - 1) ↔
      ∀ call ∈ windowCalls (history b as), HighBitClear call :=
    forall₂_congr fun call hcall => forall_congr' fun adc => (measured call hcall adc).reading_le_iff
  constructor
  · intro full
    exact readings.mp full.readings
  · intro clear
    have small := readings.mpr clear
    have bound (some) (adc : EnumADC) : (windowOf (history b as) some).ReadingsLe adc 16383 := by
      intro p hp
      obtain ⟨call, hcall, sample⟩ := windowBuffer_mem (Nat.cast_lt.mp hp)
      show ((windowBuffer (history b as) p).reading adc).toNat ≤ 16383
      rw [sample]
      exact small call hcall adc
    refine ⟨small, fun some u adc => Window.voltage_bounds (bound some adc) u, fun some u adc => ?_⟩
    obtain ⟨lower, upper⟩ := Window.voltage_bounds (bound some adc) u
    have slope := dbmSlope_pos
    have level : csvDbm .exact u (rollingAverage .exact ((windowOf _ some).average .exact adc)) =
        (windowOf _ some).voltage .exact u adc / dbmSlope + dbmIntercept := rfl
    have scaled : (windowOf _ some).voltage .exact u adc / dbmSlope ≤ adcMaxVoltage / dbmSlope := by
      gcongr
    have positive : 0 ≤ (windowOf _ some).voltage .exact u adc / dbmSlope := by positivity
    rw [level]
    constructor <;> linarith

/-- An interrupt whose bus answers `0xFF` throughout. -/
def saturated : Interrupt := ⟨fun _ => 255, 0, 0⟩

/-- A saturated channel reads 32767. -/
theorem saturated_above_full_scale :
    ¬ ∀ (b : Board) (as : List Action), FullScale (history b as) := by
  intro claim
  have small := (claim sourceBoard [.fastMeasure saturated]).readings _ List.mem_cons_self .adcA
  exact absurd small (by decide)

/-! ### The two report formats -/

/-- Both formats convert the same code; only channel A's text adds the offset. -/
theorem textDbm_eq (w : Window) (adc : EnumADC) (u : Word) :
    textDbm .exact u (rollingAverage .exact (w.average .exact adc)) (adcOut adc) =
      dbmValue .exact
        (w.voltage .exact u adc + if adc = .adcA then defaultOffsetVoltage else 0) := by
  have offset : (adcOut adc).getOffsetVoltage .exact = defaultOffsetVoltage := by
    cases adc <;> rfl
  rw [textDbm, channelVoltage, adcOut_getEnumADC, offset]
  split
  · rw [Arith.exact_toFloat, Arith.exact_toFloat, mul_one]
    rfl
  · rw [add_zero]
    rfl

theorem csvDbm_eq (w : Window) (adc : EnumADC) (u v : Word) :
    csvDbm .exact v (rollingAverage .exact (w.average .exact adc)) =
      dbmValue .exact (w.voltage .exact u adc) := by
  rw [Window.voltage, w.code_eq (exact_faithful _) adc u v]
  rfl

/-- The offset is worth more than 0 dB. -/
theorem offset_pos : (0 : ℚ) < defaultOffsetVoltage / dbmSlope := by
  norm_num [defaultOffsetVoltage, dbmSlope]

/-- **The two formats.** For every non-empty window, text mode and CSV mode compute
the same dBm value of a channel if and only if it is not channel A. -/
theorem formats_agree_iff (w : Window) (adc : EnumADC) (u v : Word) :
    textDbm .exact u (rollingAverage .exact (w.average .exact adc)) (adcOut adc) =
        csvDbm .exact v (rollingAverage .exact (w.average .exact adc)) ↔
      adc ≠ .adcA := by
  rw [textDbm_eq, csvDbm_eq w adc u v, dbmValue_exact, dbmValue_exact]
  by_cases isA : adc = .adcA
  · have offset := offset_pos
    rw [if_pos isA, add_div]
    refine iff_of_false (fun equal => ?_) (not_not_intro isA)
    linarith
  · rw [if_neg isA, add_zero]
    exact iff_of_true rfl isA

/-- A window of one sample that reads zero everywhere. -/
def zeroWindow : Window := ⟨fun _ => .ofArray (fun _ => 0) 0, 1, Int.one_pos⟩

/-- Channel A at 0 V: `-59` in CSV mode, the offset more in text mode. -/
theorem formats_differ_on_channel_a :
    ¬ ∀ (w : Window) (adc : EnumADC) (u v : Word),
      textDbm .exact u (rollingAverage .exact (w.average .exact adc)) (adcOut adc) =
        csvDbm .exact v (rollingAverage .exact (w.average .exact adc)) := by
  intro claim
  have equal := claim zeroWindow .adcA 0 0
  rw [textDbm_eq, csvDbm_eq zeroWindow .adcA 0 0, dbmValue_exact, dbmValue_exact, if_pos rfl,
    add_div] at equal
  have offset := offset_pos
  linarith

end RFPowerDetector.Firmware
