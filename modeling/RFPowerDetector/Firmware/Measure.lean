/-
One scan of the ADC channels over SPI (`getADCMeasure` and the channel loop of
`fastMeasure`, `src/main.cpp`).

A pin is an output with a level, or not an output. `pinMode` makes it an output
at LOW until the first `digitalWrite`, and `digitalWrite` sets the named pin
only. `miso n` is the byte the bus returns for the `n`-th `SPI1.transfer` of the
call; each transfer is recorded with the pin levels at that moment and the pin
of the `getADCMeasure` call that performs it.

Three lemmas say what a scan does: the reading it stores for every channel
(`scanChannels_reading`), the two transfers it makes for each enabled channel
(`scanChannels_transfersFor`), and the pins it leaves (`scanChannels_pins`).
-/

import RFPowerDetector.Firmware.Sample

namespace RFPowerDetector.Firmware

inductive Level where
  | low | high
  deriving DecidableEq, Repr

/-- The output level of each pin; `none` for a pin that is not an output. -/
abbrev Pins := Byte → Option Level

/-- `pinMode(pin, OUTPUT)` -/
def pinMode (pins : Pins) (pin : Byte) : Pins := Function.update pins pin (some .low)

def digitalWrite (pins : Pins) (pin : Byte) (level : Level) : Pins :=
  Function.update pins pin (some level)

def digitalRead (pins : Pins) (pin : Byte) : Level := (pins pin).getD .low

/-- One `SPI1.transfer`: the chip select its caller drives, the pin levels while
it runs, the byte it returns. -/
structure Transfer where
  adcCSPin : Byte
  pins : Pins
  byte : Byte

/-- The globals a scan works on, and the transfers it has made. -/
structure Scan where
  pins : Pins
  biggerByte : Byte
  smallerByte : Byte
  calculatedValue : Word
  fastSampleValue : Word
  fastSampleArray : EnumADC → Word
  transfers : List Transfer

/-- The word the two bytes of a reading are put together to. -/
def assemble (biggerByte smallerByte : Byte) : Word :=
  (biggerByte.setWidth 16 <<< 8 ||| smallerByte.setWidth 16) >>> 1

theorem assemble_toNat (biggerByte smallerByte : Byte) :
    (assemble biggerByte smallerByte).toNat =
      (256 * biggerByte.toNat + smallerByte.toNat) / 2 := by
  have bigger := biggerByte.isLt
  have smaller := smallerByte.isLt
  have joined : biggerByte.toNat <<< 8 ||| smallerByte.toNat =
      256 * biggerByte.toNat + smallerByte.toNat := by
    rw [← Nat.shiftLeft_add_eq_or_of_lt smaller, Nat.shiftLeft_eq]
    omega
  have small : biggerByte.toNat <<< 8 < 65536 := by
    rw [Nat.shiftLeft_eq]
    omega
  simp only [assemble, BitVec.toNat_ushiftRight, BitVec.toNat_or, BitVec.toNat_shiftLeft,
    BitVec.toNat_setWidth]
  rw [Nat.mod_eq_of_lt (a := biggerByte.toNat) (by omega),
    Nat.mod_eq_of_lt (a := smallerByte.toNat) (by omega), Nat.mod_eq_of_lt small, joined,
    Nat.shiftRight_eq_div_pow]

section Measure

variable (miso : ℕ → Byte)

/-- `SPI1.transfer(ADC_SPI_TRANSFER_BYTE)` inside `getADCMeasure(adcCSPin)`. -/
def Scan.transfer (adcCSPin : Byte) (c : Scan) : Byte × Scan :=
  (miso c.transfers.length,
    { c with transfers := c.transfers ++ [⟨adcCSPin, c.pins, miso c.transfers.length⟩] })

def getADCMeasure (adcCSPin : Byte) (c : Scan) : Word × Scan :=
  let c := { c with pins := digitalWrite c.pins adcCSPin .low }
  let (biggerByte, c) := c.transfer miso adcCSPin
  let c := { c with biggerByte }
  let (smallerByte, c) := c.transfer miso adcCSPin
  let c := { c with smallerByte }
  let c := { c with pins := digitalWrite c.pins adcCSPin .high }
  let c := { c with calculatedValue := c.biggerByte.setWidth 16 }
  let c := { c with calculatedValue := c.calculatedValue <<< 8 }
  let c := { c with calculatedValue := c.calculatedValue ||| c.smallerByte.setWidth 16 }
  let c := { c with calculatedValue := c.calculatedValue >>> 1 }
  (c.calculatedValue, c)

/-- One iteration of the channel loop of `fastMeasure`. -/
def measureChannel (c : Scan) (selectedADC : RFInputADC) : Scan :=
  let c := { c with fastSampleValue := 0 }
  let c :=
    if selectedADC.getEnabled then
      let (value, c) := getADCMeasure miso selectedADC.getSelectPin c
      { c with fastSampleValue := value }
    else c
  { c with
    fastSampleArray := Function.update c.fastSampleArray selectedADC.getEnumADC c.fastSampleValue }

/-- The channel loop of `fastMeasure`. -/
def scanChannels (adcList : List RFInputADC) (c : Scan) : Scan :=
  adcList.foldl (measureChannel miso) c

end Measure

/-! ### What one channel does -/

section Channel

variable (miso : ℕ → Byte)

/-- The two transfers of `getADCMeasure(pin)` from the scan `c`. -/
def readTransfers (pin : Byte) (c : Scan) : List Transfer :=
  [⟨pin, digitalWrite c.pins pin .low, miso c.transfers.length⟩,
    ⟨pin, digitalWrite c.pins pin .low, miso (c.transfers.length + 1)⟩]

theorem getADCMeasure_value (pin : Byte) (c : Scan) :
    (getADCMeasure miso pin c).1 =
      assemble (miso c.transfers.length) (miso (c.transfers.length + 1)) := by
  simp [getADCMeasure, Scan.transfer, assemble]

@[simp] theorem getADCMeasure_transfers (pin : Byte) (c : Scan) :
    (getADCMeasure miso pin c).2.transfers = c.transfers ++ readTransfers miso pin c := by
  simp [getADCMeasure, Scan.transfer, readTransfers]

@[simp] theorem getADCMeasure_pins (pin : Byte) (c : Scan) :
    (getADCMeasure miso pin c).2.pins = Function.update c.pins pin (some .high) := by
  simp [getADCMeasure, Scan.transfer, digitalWrite]

@[simp] theorem getADCMeasure_fastSampleArray (pin : Byte) (c : Scan) :
    (getADCMeasure miso pin c).2.fastSampleArray = c.fastSampleArray := rfl

variable (enabled : EnumADC → Bool)

/-- A channel of `rfAdcList`. -/
def channel (adc : EnumADC) : RFInputADC := (adcOut adc).setEnabled (enabled adc)

theorem rfAdcList_eq : rfAdcList enabled = adcOrder.map (channel enabled) := rfl

@[simp] theorem channel_getEnumADC (adc : EnumADC) : (channel enabled adc).getEnumADC = adc := by
  cases adc <;> rfl

@[simp] theorem channel_getEnabled (adc : EnumADC) :
    (channel enabled adc).getEnabled = enabled adc := rfl

@[simp] theorem channel_getSelectPin (adc : EnumADC) :
    (channel enabled adc).getSelectPin = selectPin adc := by
  cases adc <;> rfl

theorem measureChannel_enabled {adc : EnumADC} (on : enabled adc = true) (c : Scan) :
    (measureChannel miso c (channel enabled adc)).pins =
        Function.update c.pins (selectPin adc) (some .high) ∧
      (measureChannel miso c (channel enabled adc)).transfers =
        c.transfers ++ readTransfers miso (selectPin adc) c ∧
      (measureChannel miso c (channel enabled adc)).fastSampleArray =
        Function.update c.fastSampleArray adc
          (assemble (miso c.transfers.length) (miso (c.transfers.length + 1))) := by
  simp [measureChannel, on, getADCMeasure_value, readTransfers]

theorem measureChannel_disabled {adc : EnumADC} (off : enabled adc = false) (c : Scan) :
    (measureChannel miso c (channel enabled adc)).pins = c.pins ∧
      (measureChannel miso c (channel enabled adc)).transfers = c.transfers ∧
      (measureChannel miso c (channel enabled adc)).fastSampleArray =
        Function.update c.fastSampleArray adc 0 := by
  simp [measureChannel, off]

/-! ### What a scan does -/

/-- Scan the given channels. -/
def scan (adcs : List EnumADC) (c : Scan) : Scan :=
  scanChannels miso (adcs.map (channel enabled)) c

@[simp] theorem scan_nil (c : Scan) : scan miso enabled [] c = c := rfl

@[simp] theorem scan_cons (adc : EnumADC) (adcs : List EnumADC) (c : Scan) :
    scan miso enabled (adc :: adcs) c =
      scan miso enabled adcs (measureChannel miso c (channel enabled adc)) := rfl

theorem scan_append (as bs : List EnumADC) (c : Scan) :
    scan miso enabled (as ++ bs) c = scan miso enabled bs (scan miso enabled as c) := by
  simp [scan, scanChannels, List.foldl_append]

/-- The transfers of a list made for a channel. -/
def transfersFor (adc : EnumADC) (ts : List Transfer) : List Transfer :=
  ts.filter fun t => t.adcCSPin = selectPin adc

@[simp] theorem transfersFor_append (adc : EnumADC) (as bs : List Transfer) :
    transfersFor adc (as ++ bs) = transfersFor adc as ++ transfersFor adc bs :=
  List.filter_append _ _

theorem transfersFor_readTransfers (adc other : EnumADC) (c : Scan) :
    transfersFor adc (readTransfers miso (selectPin other) c) =
      if other = adc then readTransfers miso (selectPin other) c else [] := by
  by_cases same : other = adc
  · subst same
    simp [transfersFor, readTransfers]
  · have different : selectPin other ≠ selectPin adc := fun h => same (selectPin_injective h)
    simp [transfersFor, readTransfers, same, different]

/-- Measuring another channel leaves a channel's value and transfers alone. -/
theorem measureChannel_other {adc other : EnumADC} (ne : other ≠ adc) (c : Scan) :
    (measureChannel miso c (channel enabled other)).fastSampleArray adc = c.fastSampleArray adc ∧
      transfersFor adc (measureChannel miso c (channel enabled other)).transfers =
        transfersFor adc c.transfers := by
  cases on : enabled other with
  | true =>
      obtain ⟨-, transfers, array⟩ := measureChannel_enabled miso enabled on c
      rw [transfers, array, Function.update_of_ne ne.symm, transfersFor_append,
        transfersFor_readTransfers, if_neg ne, List.append_nil]
      exact ⟨rfl, rfl⟩
  | false =>
      obtain ⟨-, transfers, array⟩ := measureChannel_disabled miso enabled on c
      rw [transfers, array, Function.update_of_ne ne.symm]
      exact ⟨rfl, rfl⟩

/-- The frame of a scan: a channel it does not visit. -/
theorem scan_unvisited {adc : EnumADC} {adcs : List EnumADC} (out : adc ∉ adcs) (c : Scan) :
    (scan miso enabled adcs c).fastSampleArray adc = c.fastSampleArray adc ∧
      transfersFor adc (scan miso enabled adcs c).transfers = transfersFor adc c.transfers := by
  induction adcs generalizing c with
  | nil => exact ⟨rfl, rfl⟩
  | cons other adcs ih =>
      have ne : other ≠ adc := fun h => out (h ▸ List.mem_cons_self)
      obtain ⟨array, transfers⟩ := measureChannel_other miso enabled ne c
      obtain ⟨array', transfers'⟩ :=
        ih (fun h => out (List.mem_cons_of_mem _ h)) (measureChannel miso c (channel enabled other))
      rw [scan_cons, array', transfers']
      exact ⟨array, transfers⟩

/-- What a scan does for a channel it visits once, between the channels `as` and
`bs`: it stores the assembled reading, or 0 for a disabled channel, and the
channel's transfers are the two of its reading. -/
theorem scan_visited {adc : EnumADC} {as bs : List EnumADC} (ha : adc ∉ as) (hb : adc ∉ bs)
    (c : Scan) :
    (scan miso enabled (as ++ adc :: bs) c).fastSampleArray adc =
        (if enabled adc then
          assemble (miso (scan miso enabled as c).transfers.length)
            (miso ((scan miso enabled as c).transfers.length + 1))
        else 0) ∧
      transfersFor adc (scan miso enabled (as ++ adc :: bs) c).transfers =
        transfersFor adc c.transfers ++
          (if enabled adc then
            readTransfers miso (selectPin adc) (scan miso enabled as c) else []) := by
  rw [scan_append, scan_cons]
  obtain ⟨-, transfersA⟩ := scan_unvisited miso enabled ha c
  set c₁ := scan miso enabled as c with hc₁
  obtain ⟨arrayB, transfersB⟩ :=
    scan_unvisited miso enabled hb (measureChannel miso c₁ (channel enabled adc))
  rw [arrayB, transfersB]
  cases on : enabled adc with
  | true =>
      obtain ⟨-, transfers, array⟩ := measureChannel_enabled miso enabled on c₁
      rw [transfers, array, Function.update_self, transfersFor_append, transfersA,
        transfersFor_readTransfers, if_pos rfl, if_pos rfl, if_pos rfl]
      exact ⟨rfl, rfl⟩
  | false =>
      obtain ⟨-, transfers, array⟩ := measureChannel_disabled miso enabled on c₁
      rw [transfers, array, Function.update_self, transfersA]
      simp

/-- A scan drives the pin of every enabled channel it visits HIGH, and leaves
the other channels' pins as they were. -/
theorem scan_pins (adcs : List EnumADC) (c : Scan) (adc : EnumADC) :
    (scan miso enabled adcs c).pins (selectPin adc) =
      if adc ∈ adcs ∧ enabled adc then some .high else c.pins (selectPin adc) := by
  induction adcs generalizing c with
  | nil => simp
  | cons first adcs ih =>
      rw [scan_cons, ih]
      cases on : enabled first with
      | true =>
          rw [(measureChannel_enabled miso enabled on c).1]
          by_cases same : adc = first
          · subst same; simp [on]
          · have ne : selectPin adc ≠ selectPin first := fun h => same (selectPin_injective h)
            simp [same, Function.update_of_ne ne]
      | false =>
          rw [(measureChannel_disabled miso enabled on c).1]
          by_cases same : adc = first
          · subst same; simp [on]
          · simp [same]

/-- Each enabled channel makes two transfers. -/
theorem length_scan_transfers (adcs : List EnumADC) (c : Scan) :
    (scan miso enabled adcs c).transfers.length =
      c.transfers.length + 2 * adcs.countP enabled := by
  induction adcs generalizing c with
  | nil => simp
  | cons adc adcs ih =>
      rw [scan_cons, ih]
      cases on : enabled adc with
      | true =>
          rw [(measureChannel_enabled miso enabled on c).2.1]
          simp [readTransfers, on]
          omega
      | false =>
          rw [(measureChannel_disabled miso enabled on c).2.1]
          simp [on]

end Channel

/-! ### A whole scan -/

/-- The channels `rfAdcList` has before a channel, and those after it. -/
def channelsBefore (adc : EnumADC) : List EnumADC := adcOrder.takeWhile fun a => a ≠ adc
def channelsAfter (adc : EnumADC) : List EnumADC := (adcOrder.dropWhile fun a => a ≠ adc).tail

theorem adcOrder_split (adc : EnumADC) :
    adcOrder = channelsBefore adc ++ adc :: channelsAfter adc := by
  cases adc <;> rfl

theorem notMem_channelsBefore (adc : EnumADC) : adc ∉ channelsBefore adc := by
  cases adc <;> decide

theorem notMem_channelsAfter (adc : EnumADC) : adc ∉ channelsAfter adc := by
  cases adc <;> decide

/-- The number, within the call, of the first of the two transfers that read a
channel. -/
def firstTransfer (enabled : EnumADC → Bool) (adc : EnumADC) : ℕ :=
  2 * (channelsBefore adc).countP enabled

section Whole

variable (miso : ℕ → Byte) (enabled : EnumADC → Bool)

/-- **What a call of `fastMeasure` measures.** The reading of an enabled channel
is assembled from the two transfers of its own `getADCMeasure`, a disabled
channel reads 0. -/
theorem scanChannels_reading {c : Scan} (fresh : c.transfers = []) (adc : EnumADC) :
    (scanChannels miso (rfAdcList enabled) c).fastSampleArray adc =
      if enabled adc then
        assemble (miso (firstTransfer enabled adc)) (miso (firstTransfer enabled adc + 1))
      else 0 := by
  have visited := (scan_visited miso enabled (notMem_channelsBefore adc)
    (notMem_channelsAfter adc) c).1
  rw [← adcOrder_split, length_scan_transfers, fresh] at visited
  simpa [firstTransfer, scan, rfAdcList_eq] using visited

/-- The transfers a call makes for a channel: two for an enabled one, made from
the scan state its predecessors left, none for a disabled one. -/
theorem scanChannels_transfersFor {c : Scan} (fresh : c.transfers = []) (adc : EnumADC) :
    transfersFor adc (scanChannels miso (rfAdcList enabled) c).transfers =
      if enabled adc then
        readTransfers miso (selectPin adc) (scan miso enabled (channelsBefore adc) c)
      else [] := by
  have visited := (scan_visited miso enabled (notMem_channelsBefore adc)
    (notMem_channelsAfter adc) c).2
  rw [← adcOrder_split, fresh] at visited
  simpa [scan, rfAdcList_eq, transfersFor] using visited

/-- A call drives every enabled channel's pin HIGH and leaves the others'. -/
theorem scanChannels_pins (c : Scan) (adc : EnumADC) :
    (scanChannels miso (rfAdcList enabled) c).pins (selectPin adc) =
      if enabled adc then some .high else c.pins (selectPin adc) := by
  have visited := scan_pins miso enabled adcOrder c adc
  simpa [mem_adcOrder, scan, rfAdcList_eq] using visited

end Whole

end RFPowerDetector.Firmware
