/-
The serial stream read back.

A reader that knows the two report formats takes the stream apart into lines and each
line into its data: the count and the start sample of a header, the number and the
sample of a frame, the average, the voltage and the dBm value of a channel, the four
values of a CSV line.

* `readLine_text`: every line reads back. Counts, frame numbers and samples come back
  exactly, averages and dBm values as printed, to two decimals.
* `readStream_run`: what a run has sent reads as the lines of its transcript, whatever
  mix of reports it is.
-/

import RFPowerDetector.Firmware.Format
import RFPowerDetector.Host.Transcript
import RFPowerDetector.Library.Reader

namespace RFPowerDetector.Host

open Firmware Split Rounding Reading

/-! ### The data of a line -/

/-- What a line says. -/
inductive LineData where
  | startingSetup
  | setupSuccessful
  | blank
  | header (sampleCount : ℤ) (start : RFSample)
  | frame (selectedFrame : ℕ) (selectedSample : RFSample)
  /-- the average, the voltage with its form, the dBm value -/
  | channel (adc : EnumADC) (average : Option ℚ) (voltage : Form × ℚ) (dbm : ℚ)
  | csv (dbm : EnumADC → ℚ)

/-- The voltage `getFormattedString` shows. -/
def shownVoltage (ar : Arith) (valueInput : ℚ) : Form × ℚ :=
  if valueInput < 1 then (.milli, printedValue (roundAway (ar.toDouble (valueInput * 1000))) / 1000)
  else (.unit, printedValue (ar.toDouble (roundAway (ar.toDouble (valueInput * 100)) / 100)))

def Line.data (ar : Arith) : Line → LineData
  | .startingSetup => .startingSetup
  | .setupSuccessful => .setupSuccessful
  | .blank => .blank
  | .header sampleCount start => .header sampleCount start
  | .frame selectedFrame selectedSample => .frame selectedFrame selectedSample
  | .channel adc sampleAverage unspecified =>
      .channel adc (sampleAverage.map printedValue)
        (shownVoltage ar (channelVoltage ar unspecified sampleAverage (adcOut adc)))
        (printedValue (textDbm ar unspecified sampleAverage (adcOut adc)))
  | .csv codes => .csv fun adc => printedValue (codeDbm ar (codes adc))

/-! ### Readers -/

/-- `RFSample.toString` -/
def sampleReader : Reader Char RFSample := do
  let timestamp ← natural
  literal [':', ' ']
  let a ← natural
  literal [',', ' ']
  let b ← natural
  literal [',', ' ']
  let n ← natural
  literal [',', ' ']
  let p ← natural
  pure ⟨.ofNat 16 a, .ofNat 16 b, .ofNat 16 n, .ofNat 16 p, .ofNat 32 timestamp⟩

/-- A float as `Serial.print` shows it. -/
def floatReader : Reader Char (Option ℚ) := do
  let missing ← optional ['n', 'a', 'n']
  if missing then pure none
  else do
    let x ← numeral
    pure (some x)

/-- A voltage as `getFormattedString` shows it. -/
def voltageReader : Reader Char (Form × ℚ) := do
  let x ← numeral
  let milli ← optional ['m']
  literal ['V']
  pure (if milli then (.milli, x / 1000) else (.unit, x))

def nameReader : Reader Char EnumADC :=
  symbol fun
    | 'A' => some .adcA
    | 'B' => some .adcB
    | 'N' => some .adcN
    | 'P' => some .adcP
    | _ => none

def headerReader : Reader Char LineData := do
  literal "Samples: ".toList
  let sampleCount ← integer
  literal (' ' :: "Start: ".toList)
  let start ← sampleReader
  pure (.header sampleCount start)

def frameReader : Reader Char LineData := do
  literal "Buffer Frame ".toList
  let selectedFrame ← natural
  literal [':', ' ']
  let selectedSample ← sampleReader
  pure (.frame selectedFrame selectedSample)

def channelReader : Reader Char LineData := do
  literal "ADC Channel ".toList
  let adc ← nameReader
  literal [':', ' ']
  let average ← floatReader
  literal [',', ' ']
  let voltage ← voltageReader
  literal [',', ' ']
  let dbm ← numeral
  literal ['d', 'B', 'm']
  pure (.channel adc average voltage dbm)

def csvReader : Reader Char LineData := do
  let a ← numeral
  literal [',', ' ']
  let b ← numeral
  literal [',', ' ']
  let n ← numeral
  literal [',', ' ']
  let p ← numeral
  literal [',', ' ', '\n']
  pure (.csv fun
    | .adcA => a
    | .adcB => b
    | .adcN => n
    | .adcP => p)

/-- Read a line by its first characters. -/
def readLine : Text → Option LineData
  | [] => some .blank
  | 'A' :: t => whole channelReader ('A' :: t)
  | 'B' :: t => whole frameReader ('B' :: t)
  | 'S' :: 'a' :: t => whole headerReader ('S' :: 'a' :: t)
  | 'S' :: 't' :: t =>
      if 't' :: t = "tarting Setup".toList then some .startingSetup else none
  | 'S' :: 'e' :: t =>
      if 'e' :: t = "etup successful".toList then some .setupSuccessful else none
  | t => whole csvReader t

/-! ### Printed values -/

section Values

theorem numeral_printFloat (x : ℚ) :
    ∀ c ∈ printFloat (some x), Numeral.isNumeralChar c = true :=
  fun _ hc => Numeral.isNumeralChar_of_mem_fixedPoint hc

theorem reads_printFloat (x : ℚ) :
    Reads Numeral.isNumeralChar numeral (printFloat (some x)) (printedValue x) :=
  reads_numeral (numeral_printFloat x) (Numeral.parse_fixedPoint 2 x)

theorem reads_unsignedText (n : ℕ) : Reads Char.isDigit natural (unsignedText n) n :=
  reads_natural n

theorem reads_signedText (n : ℤ) : Reads Char.isDigit integer (signedText n) n :=
  reads_integer n

theorem reads_sample (s : RFSample) : Reads Char.isDigit sampleReader s.toString s := by
  have colon : ": ".toList = [':', ' '] := rfl
  have comma : ", ".toList = [',', ' '] := rfl
  have last : Reads Char.isDigit (do
      let p ← natural
      pure (⟨.ofNat 16 s.sampleValueA.toNat, .ofNat 16 s.sampleValueB.toNat,
        .ofNat 16 s.sampleValueN.toNat, .ofNat 16 p, .ofNat 32 s.timestamp.toNat⟩ : RFSample))
      (unsignedText s.sampleValueP.toNat) s := by
    have read := (reads_unsignedText s.sampleValueP.toNat).map (g := fun p =>
      (⟨.ofNat 16 s.sampleValueA.toNat, .ofNat 16 s.sampleValueB.toNat,
        .ofNat 16 s.sampleValueN.toNat, .ofNat 16 p, .ofNat 32 s.timestamp.toNat⟩ : RFSample))
    simpa only [BitVec.ofNat_toNat, BitVec.setWidth_eq] using read
  rw [RFSample.toString, colon, comma]
  simp only [List.append_assoc]
  refine (reads_unsignedText _).closed rfl ?_
  refine (reads_unsignedText _).closed rfl ?_
  refine (reads_unsignedText _).closed rfl ?_
  exact (reads_unsignedText _).closed rfl last

/-- A printed number begins with one of its characters. -/
theorem printFloat_cons (x : ℚ) :
    ∃ c t, printFloat (some x) = c :: t ∧ Numeral.isNumeralChar c = true := by
  have numeral := numeral_printFloat x
  cases split : printFloat (some x) with
  | nil =>
      have point : '.' ∈ printFloat (some x) := by
        rw [printFloat, Numeral.fixedPoint]
        simp
      rw [split] at point
      cases point
  | cons c t =>
      rw [split] at numeral
      exact ⟨c, t, rfl, numeral c List.mem_cons_self⟩

theorem reads_float (x : Option ℚ) :
    Reads Numeral.isNumeralChar floatReader (printFloat x) (x.map printedValue) := by
  cases x with
  | none => exact (reads_present ['n', 'a', 'n']).bind (reads_pure none)
  | some x =>
      obtain ⟨c, t, split, own⟩ := printFloat_cons x
      have ne : 'n' ≠ c := by
        rintro rfl
        cases own
      have read := (reads_printFloat x).map (g := some)
      rw [split] at read ⊢
      exact Reads.absent read ne

theorem reads_voltage (ar : Arith) (valueInput : ℚ) :
    ReadsAny voltageReader (getFormattedString ar valueInput "V".toList)
      (shownVoltage ar valueInput) := by
  have unit : "V".toList = ['V'] := rfl
  have milli : "m".toList = ['m'] := rfl
  unfold getFormattedString shownVoltage
  rw [unit, milli]
  split
  · rw [List.append_assoc]
    refine (reads_printFloat _).bind (u := ['V']) rfl ?_
    refine ReadsAny.bind (reads_present ['m']) ?_
    exact ReadsAny.bind (u := []) (reads_literal ['V']) (reads_pure _)
  · refine (reads_printFloat _).bind (u := []) rfl (Reads.absent ?_ (by decide))
    exact ReadsAny.bind (u := []) (reads_literal ['V']) (reads_pure _)

theorem reads_name (adc : EnumADC) : ReadsAny nameReader (adcOut adc).adcName adc := by
  cases adc <;> exact reads_symbol rfl

end Values

/-! ### Lines -/

section Lines

variable (ar : Arith)

theorem reads_header (sampleCount : ℤ) (start : RFSample) :
    Reads Char.isDigit headerReader ((Line.header sampleCount start).text ar)
      (.header sampleCount start) := by
  have text : (Line.header sampleCount start).text ar =
      "Samples: ".toList ++ (signedText sampleCount ++
        ((' ' :: "Start: ".toList) ++ start.toString)) := by
    unfold Line.text headerPrints startPrint
    simp only [List.flatten_cons, List.flatten_nil, List.append_nil, List.append_assoc]
    rfl
  rw [text]
  exact ReadsAny.bind (reads_literal _) ((reads_signedText _).closed rfl (reads_sample start).map)

theorem reads_frame (selectedFrame : ℕ) (selectedSample : RFSample) :
    Reads Char.isDigit frameReader ((Line.frame selectedFrame selectedSample).text ar)
      (.frame selectedFrame selectedSample) := by
  have colon : ": ".toList = [':', ' '] := rfl
  unfold Line.text
  rw [colon]
  simp only [List.append_assoc]
  exact ReadsAny.bind (reads_literal _)
    ((reads_unsignedText _).closed rfl (reads_sample selectedSample).map)

theorem reads_channel (adc : EnumADC) (sampleAverage : Option ℚ) (unspecified : Word) :
    ReadsAny channelReader ((Line.channel adc sampleAverage unspecified).text ar)
      ((Line.channel adc sampleAverage unspecified).data ar) := by
  have colon : ": ".toList = [':', ' '] := rfl
  have comma : ", ".toList = [',', ' '] := rfl
  have level : "dBm".toList = ['d', 'B', 'm'] := rfl
  unfold Line.text printChannelAverage RFInputADC.toString
  rw [colon, comma, level]
  simp only [List.dropLast_cons_cons, List.dropLast_singleton, List.flatten_cons,
    List.flatten_nil, List.append_nil, List.append_assoc]
  refine ReadsAny.bind (reads_literal _) (ReadsAny.bind (reads_name adc) ?_)
  refine ReadsAny.bind (reads_literal _) ((reads_float _).closed rfl ?_)
  refine ReadsAny.bind (reads_voltage ar _) (ReadsAny.bind (reads_literal _) ?_)
  exact (reads_printFloat _).closed (u := []) rfl (reads_pure _)

theorem reads_csv (codes : EnumADC → Word) :
    ReadsAny csvReader ((Line.csv codes).text ar) ((Line.csv codes).data ar) := by
  have comma : ", ".toList = [',', ' '] := rfl
  have data : (Line.csv codes).data ar = .csv fun
      | .adcA => printedValue (codeDbm ar (codes .adcA))
      | .adcB => printedValue (codeDbm ar (codes .adcB))
      | .adcN => printedValue (codeDbm ar (codes .adcN))
      | .adcP => printedValue (codeDbm ar (codes .adcP)) := by
    refine congrArg LineData.csv (funext fun adc => ?_)
    cases adc <;> rfl
  unfold Line.text adcOrder
  rw [data, comma]
  simp only [List.flatMap_cons, List.flatMap_nil, List.append_nil, List.append_assoc]
  refine (reads_printFloat _).closed rfl ((reads_printFloat _).closed rfl ?_)
  refine (reads_printFloat _).closed rfl ?_
  exact (reads_printFloat _).closed (u := []) rfl (reads_pure _)

/-- A line that begins like a number is read as a CSV line. -/
theorem readLine_numeral {c : Char} (own : Numeral.isNumeralChar c = true) (t : Text) :
    readLine (c :: t) = whole csvReader (c :: t) := by
  unfold readLine
  split <;> first | rfl | (rename_i same; cases same <;> cases own)

/-- **Every line reads back.** -/
theorem readLine_text (line : Line) : readLine (line.text ar) = some (line.data ar) := by
  cases line with
  | startingSetup => rfl
  | setupSuccessful => rfl
  | blank => rfl
  | header sampleCount start => exact (reads_header ar sampleCount start).whole
  | frame selectedFrame selectedSample => exact (reads_frame ar selectedFrame selectedSample).whole
  | channel adc sampleAverage unspecified =>
      exact (reads_channel ar adc sampleAverage unspecified).whole
  | csv codes =>
      obtain ⟨c, t, split, own⟩ := printFloat_cons (codeDbm ar (codes .adcA))
      have read := (reads_csv ar codes).whole
      have text : ∃ u, (Line.csv codes).text ar = c :: u := by
        unfold Line.text adcOrder
        simp only [List.flatMap_cons, split, List.cons_append]
        exact ⟨_, rfl⟩
      obtain ⟨u, text⟩ := text
      rw [text] at read ⊢
      rw [readLine_numeral own, read]

end Lines

/-! ### Streams -/

/-- Read the complete lines of a stream. -/
def readStream (t : Text) : List (Option LineData) :=
  (splitPair '\r' '\n' t).dropLast.map readLine

/-- The data of lines, as the reader gets it. -/
def lineData (ar : Arith) (lines : List Line) : List (Option LineData) :=
  lines.map fun line => some (line.data ar)

theorem return_notMem_unfinished (ar : Arith) (u : Unfinished) : '\r' ∉ u.text ar := by
  cases u with
  | none => exact List.not_mem_nil
  | header sampleCount =>
      unfold Unfinished.text headerPrints
      simp only [List.flatten_cons, List.flatten_nil, List.append_nil, List.mem_append, not_or]
      exact ⟨by decide, notMem_signedText rfl _⟩
  | csv finished codes =>
      unfold Unfinished.text
      simp only [List.mem_flatMap, List.mem_append, not_exists, not_and, not_or]
      exact fun adc _ => ⟨notMem_printFloat rfl _, by decide⟩

theorem readLines (ar : Arith) (lines : List Line) :
    (lines.map (Line.text ar)).map readLine = lineData ar lines := by
  rw [List.map_map, lineData]
  exact List.map_congr_left fun line _ => readLine_text ar line

section Run

variable {b : Board} {h : List Event} {s : State}

theorem return_notMem_lines (ar : Arith) (lines : List Line) :
    ∀ text ∈ lines.map (Line.text ar), '\r' ∉ text := by
  intro text htext
  obtain ⟨line, -, rfl⟩ := List.mem_map.mp htext
  exact return_notMem_text ar line

/-- What has been sent and what is pending. -/
theorem read_ordered (run : (firmware b).Run h s) :
    readStream (sent h ++ s.printing.flatten) =
      lineData b.arith (transcript b.arith h).lines := by
  rw [sent_lines run, readStream, lineStream,
    splitPair_lines (return_notMem_lines _ _) (return_notMem_unfinished _ _),
    List.dropLast_concat, readLines]

/-- What has been sent. -/
theorem read_sent (run : (firmware b).Run h s) :
    readStream (sent h) <+: lineData b.arith (transcript b.arith h).lines := by
  rw [readStream, ← readLines]
  refine List.IsPrefix.map readLine (splitPair_received (return_notMem_lines _ _)
    (return_notMem_unfinished b.arith (transcript b.arith h).unfinished) ?_)
  rw [← lineStream, ← sent_lines run]
  exact List.prefix_append _ _

end Run

/-- **A run reads back.** What a run has sent and has pending reads as the lines of its
transcript, and what it has sent so far reads as the first of them. -/
theorem readStream_run (b : Board) (as : List Action) :
    readStream (sent (history b as) ++ (finalState b as).printing.flatten) =
        lineData b.arith (transcript b.arith (history b as)).lines ∧
      readStream (sent (history b as)) <+:
        lineData b.arith (transcript b.arith (history b as)).lines :=
  ⟨read_ordered (run_history b as), read_sent (run_history b as)⟩

end RFPowerDetector.Host
