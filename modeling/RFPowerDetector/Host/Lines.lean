/-
The lines the firmware sends, and what the plotter's splitter makes of them.

A `Line` is one line of the serial stream with the data it was printed from:
`setup`'s two lines, the blank lines, header, frame and channel lines of a text
report, and the line of a CSV report. `println` closes each of them with CR LF,
so the plotter, which reads up to the CR, sees the LF of the line before in
front. `body_eq` joins a line from its `fields`, so the plotter's splitter finds
these again, and `values` are the fields as numbers: four numbers and a blank for
a CSV line (`values_csv`), a text and the three last readings of a sample for
header and frame (`values_readings`), and no number otherwise. `plotter_lines`
says which lines of a stream the plotter reads.
-/

import RFPowerDetector.Firmware.Accuracy
import RFPowerDetector.Host.Plotter

namespace RFPowerDetector.Host

open Firmware Split Rounding

/-! ### Lines -/

inductive Line where
  | startingSetup
  | setupSuccessful
  | blank
  | header (sampleCount : ℤ) (start : RFSample)
  | frame (selectedFrame : ℕ) (selectedSample : RFSample)
  | channel (adc : EnumADC) (sampleAverage : Option ℚ) (unspecified : Word)
  /-- the `uint16_t` codes of the four channels -/
  | csv (codes : EnumADC → Word)

/-- The characters of a line before its CR LF. -/
def Line.text (ar : Arith) : Line → Text
  | .startingSetup => "Starting Setup".toList
  | .setupSuccessful => "Setup successful".toList
  | .blank => []
  | .header sampleCount start => (headerPrints sampleCount).flatten ++ startPrint start
  | .frame selectedFrame selectedSample =>
      "Buffer Frame ".toList ++ unsignedText selectedFrame ++ ": ".toList ++
        selectedSample.toString
  | .channel adc sampleAverage unspecified =>
      (printChannelAverage ar unspecified sampleAverage (adcOut adc)).dropLast.flatten
  | .csv codes =>
      (adcOrder.flatMap fun adc =>
        printFloat (some (codeDbm ar (codes adc))) ++ ", ".toList) ++ ['\n']

/-- The dBm value a line carries for a channel. -/
def Line.dbm? (ar : Arith) : Line → EnumADC → Option ℚ
  | .csv codes, adc => some (printedValue (codeDbm ar (codes adc)))
  | .channel a sampleAverage unspecified, adc =>
      if a = adc then
        some (printedValue (textDbm ar unspecified sampleAverage (adcOut a)))
      else none
  | _, _ => none

/-- A CSV line. -/
def Line.isCsv : Line → Bool
  | .csv _ => true
  | _ => false

/-- A line with the channel values of a sample. -/
def Line.hasReadings : Line → Bool
  | .header _ _ | .frame _ _ => true
  | _ => false

/-- The line as the plotter reads it: after the LF of the line before. -/
def Line.body (ar : Arith) (line : Line) : List Char := '\n' :: line.text ar

/-- The fields of a line as numbers. -/
def Line.values (ar : Arith) (line : Line) : List (Option ℚ) :=
  (splitPair ',' ' ' (line.body ar)).map str2double

/-- The fields of a sample: the text in front takes up channel A's value. -/
def sampleFields (start : Text) (sample : RFSample) : List Text :=
  [start ++ (unsignedText sample.timestamp.toNat ++ ": ".toList ++
      unsignedText sample.sampleValueA.toNat),
    unsignedText sample.sampleValueB.toNat,
    unsignedText sample.sampleValueN.toNat,
    unsignedText sample.sampleValueP.toNat]

/-- The fields of a line. -/
def Line.fields (ar : Arith) : Line → List Text
  | .header sampleCount start =>
      sampleFields ('\n' :: "Samples: ".toList ++ signedText sampleCount ++ " Start: ".toList) start
  | .frame selectedFrame selectedSample =>
      sampleFields ('\n' :: "Buffer Frame ".toList ++ unsignedText selectedFrame ++ ": ".toList)
        selectedSample
  | .channel adc sampleAverage unspecified =>
      ['\n' :: (adcOut adc).toString ++ ": ".toList ++ printFloat sampleAverage,
        getFormattedString ar (channelVoltage ar unspecified sampleAverage (adcOut adc)) "V".toList,
        printFloat (some (textDbm ar unspecified sampleAverage (adcOut adc))) ++ "dBm".toList]
  | .csv codes =>
      ['\n' :: printFloat (some (codeDbm ar (codes .adcA))),
        printFloat (some (codeDbm ar (codes .adcB))),
        printFloat (some (codeDbm ar (codes .adcN))),
        printFloat (some (codeDbm ar (codes .adcP))),
        ['\n']]
  | line => [line.body ar]

/-! ### `str2double` -/

theorem numeral_unsignedText (n : ℕ) : ∀ c ∈ unsignedText n, Numeral.isNumeralChar c = true := by
  intro c hc
  simp [Numeral.isNumeralChar, Numeral.isDigit_of_mem_toDigits hc]

theorem str2double_pad {left t : List Char} (hl : ∀ c ∈ left, isSpace c = true)
    (ht : ∀ c ∈ t, Numeral.isNumeralChar c = true) :
    str2double (left ++ t) = Numeral.parse t := by
  have solid : ∀ c ∈ t, isSpace c = false := by
    intro c hc
    by_contra space
    have numeral := ht c hc
    simp only [isSpace, Bool.not_eq_false, Bool.or_eq_true, beq_iff_eq] at space
    rcases space with ((rfl | rfl) | rfl) | rfl <;> exact absurd numeral (by decide)
  have trimmed : Numeral.trim isSpace (left ++ t ++ []) = t := Numeral.trim_pad hl nofun solid
  rw [List.append_nil] at trimmed
  rw [str2double, trimmed]

/-- A field with a letter is not a number. -/
theorem str2double_text {t : List Char} {c : Char} (hc : c ∈ t) (solid : isSpace c = false)
    (foreign : Numeral.isNumeralChar c = false) : str2double t = none :=
  Numeral.parse_eq_none_of_mem (Numeral.mem_trim hc solid) foreign

theorem str2double_printFloat {left : List Char} (hl : ∀ c ∈ left, isSpace c = true) (x : ℚ) :
    str2double (left ++ printFloat (some x)) = some (printedValue x) := by
  have numeral : ∀ c ∈ printFloat (some x), Numeral.isNumeralChar c = true :=
    fun c hc => Numeral.isNumeralChar_of_mem_fixedPoint hc
  rw [str2double_pad hl numeral]
  exact Numeral.parse_fixedPoint 2 x

theorem str2double_unsignedText (n : ℕ) : str2double (unsignedText n) = some (n : ℚ) := by
  have parsed : str2double ([] ++ unsignedText n) = Numeral.parse (unsignedText n) :=
    str2double_pad nofun (numeral_unsignedText n)
  exact parsed.trans (Numeral.parse_toDigits n)

/-! ### Separators -/

/-- The plotter's separators: the comma of the fields and the CR of the lines. -/
def isSeparator (c : Char) : Bool := c == ',' || c == '\r'

section Separators

variable {c : Char} (separator : isSeparator c = true)

include separator

theorem notMem_literal {t : Text} (plain : t.all (fun d => !isSeparator d) = true) : c ∉ t := by
  intro hc
  have other := List.all_eq_true.mp plain c hc
  rw [separator] at other
  cases other

theorem notMem_numeral {t : Text} (numeral : ∀ d ∈ t, Numeral.isNumeralChar d = true) : c ∉ t := by
  intro hc
  have own := numeral c hc
  simp only [isSeparator, Bool.or_eq_true, beq_iff_eq] at separator
  rcases separator with rfl | rfl <;> exact absurd own (by decide)

theorem notMem_unsignedText (n : ℕ) : c ∉ unsignedText n :=
  notMem_numeral separator (numeral_unsignedText n)

theorem notMem_signedText (n : ℤ) : c ∉ signedText n := by
  apply notMem_numeral separator
  intro d hd
  rcases List.mem_append.mp hd with sign | digit
  · split at sign
    · rw [List.mem_singleton.mp sign]
      rfl
    · cases sign
  · exact numeral_unsignedText _ d digit

theorem notMem_printFloat (x : Option ℚ) : c ∉ printFloat x := by
  cases x with
  | none => exact notMem_literal separator rfl
  | some x => exact notMem_numeral separator fun d hd => Numeral.isNumeralChar_of_mem_fixedPoint hd

theorem notMem_getFormattedString (ar : Arith) (valueInput : ℚ) :
    c ∉ getFormattedString ar valueInput "V".toList := by
  unfold getFormattedString
  split
  · rw [List.mem_append, List.mem_append, not_or, not_or]
    exact ⟨⟨notMem_printFloat separator _, notMem_literal separator rfl⟩,
      notMem_literal separator rfl⟩
  · rw [List.mem_append, not_or]
    exact ⟨notMem_printFloat separator _, notMem_literal separator rfl⟩

theorem notMem_adcOut (adc : EnumADC) : c ∉ (adcOut adc).toString := by
  cases adc <;> exact notMem_literal separator rfl

end Separators

/-- A printed sample is on one line. -/
theorem return_notMem_toString (sample : RFSample) : '\r' ∉ sample.toString := by
  have value (n : ℕ) : '\r' ∉ unsignedText n := notMem_unsignedText rfl n
  have colon : '\r' ∉ ": ".toList := by decide
  have comma : '\r' ∉ ", ".toList := by decide
  simp only [RFSample.toString, List.mem_append, not_or]
  exact ⟨⟨⟨⟨⟨⟨⟨⟨value _, colon⟩, value _⟩, comma⟩, value _⟩, comma⟩, value _⟩, comma⟩, value _⟩

/-- No line contains a carriage return of its own. -/
theorem return_notMem_text (ar : Arith) (line : Line) : '\r' ∉ line.text ar := by
  have printed (x : Option ℚ) : '\r' ∉ printFloat x := notMem_printFloat rfl x
  cases line with
  | startingSetup => exact notMem_literal rfl rfl
  | setupSuccessful => exact notMem_literal rfl rfl
  | blank => exact List.not_mem_nil
  | header sampleCount start =>
      unfold Line.text headerPrints startPrint
      simp only [List.flatten_cons, List.flatten_nil, List.append_nil, List.mem_append, not_or]
      exact ⟨⟨by decide, notMem_signedText rfl _⟩, by decide, return_notMem_toString _⟩
  | frame selectedFrame selectedSample =>
      unfold Line.text
      simp only [List.mem_append, not_or]
      exact ⟨⟨⟨by decide, notMem_unsignedText rfl _⟩, by decide⟩, return_notMem_toString _⟩
  | channel adc sampleAverage unspecified =>
      unfold Line.text printChannelAverage
      simp only [List.dropLast_cons_cons, List.dropLast_singleton, List.flatten_cons,
        List.flatten_nil, List.append_nil, List.mem_append, not_or]
      exact ⟨⟨notMem_adcOut rfl _, by decide⟩, printed _, by decide,
        notMem_getFormattedString rfl _ _, by decide, printed _, by decide⟩
  | csv codes =>
      unfold Line.text
      simp only [List.mem_append, List.mem_flatMap, not_or, not_exists, not_and]
      exact ⟨fun adc _ => ⟨printed _, by decide⟩, by decide⟩

/-! ### Fields -/

theorem comma_notMem_sampleFields {start : Text} (free : ',' ∉ start) (sample : RFSample) :
    ∀ field ∈ sampleFields start sample, ',' ∉ field := by
  have value (n : ℕ) : ',' ∉ unsignedText n := notMem_unsignedText rfl n
  simp only [sampleFields, List.forall_mem_cons, List.mem_append, not_or]
  exact ⟨⟨free, ⟨value _, by decide⟩, value _⟩, value _, value _, value _, nofun⟩

/-- No field contains a comma. -/
theorem comma_notMem_fields (ar : Arith) (line : Line) : ∀ field ∈ line.fields ar, ',' ∉ field := by
  have printed (x : Option ℚ) : ',' ∉ printFloat x := notMem_printFloat rfl x
  cases line with
  | startingSetup => exact List.forall_mem_singleton.mpr (notMem_literal rfl rfl)
  | setupSuccessful => exact List.forall_mem_singleton.mpr (notMem_literal rfl rfl)
  | blank => exact List.forall_mem_singleton.mpr (notMem_literal rfl rfl)
  | header sampleCount start =>
      apply comma_notMem_sampleFields
      simp only [List.mem_append, not_or]
      exact ⟨⟨by decide, notMem_signedText rfl _⟩, by decide⟩
  | frame selectedFrame selectedSample =>
      apply comma_notMem_sampleFields
      simp only [List.mem_append, not_or]
      exact ⟨⟨by decide, notMem_unsignedText rfl _⟩, by decide⟩
  | channel adc sampleAverage unspecified =>
      unfold Line.fields
      simp only [List.forall_mem_cons]
      simp only [List.mem_append, List.mem_cons, not_or]
      exact ⟨⟨⟨⟨by decide, notMem_adcOut rfl _⟩, by decide⟩, printed _⟩,
        notMem_getFormattedString rfl _ _, ⟨printed _, by decide⟩, nofun⟩
  | csv codes =>
      unfold Line.fields
      simp only [List.forall_mem_cons]
      simp only [List.mem_cons, not_or]
      exact ⟨⟨by decide, printed _⟩, printed _, printed _, printed _, by decide, nofun⟩

/-- A line is its fields, joined. -/
theorem body_eq (ar : Arith) (line : Line) :
    line.body ar = ", ".toList.intercalate (line.fields ar) := by
  cases line with
  | startingSetup => exact List.intercalate_singleton.symm
  | setupSuccessful => exact List.intercalate_singleton.symm
  | blank => exact List.intercalate_singleton.symm
  | header sampleCount start =>
      unfold Line.body Line.text Line.fields headerPrints startPrint sampleFields RFSample.toString
      simp only [List.intercalate_cons_cons, List.intercalate_singleton, List.flatten_cons,
        List.flatten_nil, List.append_nil, List.append_assoc, List.cons_append]
  | frame selectedFrame selectedSample =>
      unfold Line.body Line.text Line.fields sampleFields RFSample.toString
      simp only [List.intercalate_cons_cons, List.intercalate_singleton, List.append_assoc,
        List.cons_append]
  | channel adc sampleAverage unspecified =>
      unfold Line.body Line.text Line.fields printChannelAverage
      simp only [List.intercalate_cons_cons, List.intercalate_singleton, List.dropLast_cons_cons,
        List.dropLast_singleton, List.flatten_cons, List.flatten_nil, List.append_nil,
        List.append_assoc, List.cons_append]
  | csv codes =>
      unfold Line.body Line.text Line.fields adcOrder
      simp only [List.intercalate_cons_cons, List.intercalate_singleton, List.flatMap_cons,
        List.flatMap_nil, List.append_nil, List.append_assoc, List.cons_append]

/-- The plotter splits a line into its fields. -/
theorem values_eq (ar : Arith) (line : Line) : line.values ar = (line.fields ar).map str2double := by
  have nonempty : line.fields ar ≠ [] := by cases line <;> exact List.cons_ne_nil _ _
  have separator : ", ".toList = [',', ' '] := rfl
  rw [Line.values, body_eq, separator,
    splitPair_intercalate nonempty (comma_notMem_fields ar line)]

/-! ### Numbers -/

/-- A CSV line has four numbers and a blank fifth field. -/
theorem values_csv (ar : Arith) (codes : EnumADC → Word) :
    (Line.csv codes).values ar =
      (adcOrder.map fun adc => some (printedValue (codeDbm ar (codes adc)))) ++ [none] := by
  have first (x : ℚ) : str2double ('\n' :: printFloat (some x)) = some (printedValue x) :=
    str2double_printFloat (List.forall_mem_singleton.mpr rfl) x
  have later (x : ℚ) : str2double (printFloat (some x)) = some (printedValue x) :=
    str2double_printFloat (List.forall_mem_nil _) x
  have blank : str2double ['\n'] = none := rfl
  rw [values_eq]
  simp only [Line.fields, adcOrder, List.map_cons, List.map_nil, first, later, blank,
    List.cons_append, List.nil_append]

/-- A text and a sample: the text takes up channel A's value, the other three are
numbers. -/
theorem values_sample {start : Text} {c : Char} (hc : c ∈ start) (solid : isSpace c = false)
    (foreign : Numeral.isNumeralChar c = false) (sample : RFSample) :
    (sampleFields start sample).map str2double =
      [none, some ((sample.reading .adcB).toNat : ℚ), some ((sample.reading .adcN).toNat : ℚ),
        some ((sample.reading .adcP).toNat : ℚ)] := by
  have text := str2double_text (List.mem_append_left
    (unsignedText sample.timestamp.toNat ++ ": ".toList ++ unsignedText sample.sampleValueA.toNat)
    hc) solid foreign
  simp only [sampleFields, List.map_cons, List.map_nil, text, str2double_unsignedText]
  rfl

/-- The lines with a sample carry three of its readings as numbers. -/
theorem values_readings (ar : Arith) {line : Line} (readings : line.hasReadings = true) :
    ∃ sample : RFSample, line.values ar =
      [none, some ((sample.reading .adcB).toNat : ℚ), some ((sample.reading .adcN).toNat : ℚ),
        some ((sample.reading .adcP).toNat : ℚ)] := by
  rw [values_eq]
  cases line with
  | header sampleCount start =>
      exact ⟨start, values_sample (c := 'S') (by simp) (by decide) (by decide) start⟩
  | frame selectedFrame selectedSample =>
      exact ⟨selectedSample,
        values_sample (c := 'B') (by simp) (by decide) (by decide) selectedSample⟩
  | _ => cases readings

/-- A channel line has three fields, none of them a number. -/
theorem values_channel (ar : Arith) (adc : EnumADC) (sampleAverage : Option ℚ)
    (unspecified : Word) :
    (Line.channel adc sampleAverage unspecified).values ar = [none, none, none] := by
  have name : 'C' ∈ (adcOut adc).toString := by cases adc <;> decide
  have unit (valueInput : ℚ) : 'V' ∈ getFormattedString ar valueInput "V".toList := by
    unfold getFormattedString
    split <;> exact List.mem_append_right _ (by decide)
  have nameText := str2double_text (List.mem_cons_of_mem '\n' (List.mem_append_left
    (printFloat sampleAverage) (List.mem_append_left ": ".toList name))) (by decide) (by decide)
  have voltageText (valueInput : ℚ) := str2double_text (unit valueInput) (by decide) (by decide)
  have levelText (x : ℚ) : str2double (printFloat (some x) ++ "dBm".toList) = none :=
    str2double_text (c := 'B') (List.mem_append_right _ (by decide)) (by decide) (by decide)
  rw [values_eq]
  exact congrArg₂ _ nameText (congrArg₂ _ (voltageText _) (congrArg₂ _ (levelText _) rfl))

/-- Only CSV, header and frame lines carry numbers. -/
theorem values_of_no_numbers (ar : Arith) {line : Line} (csv : line.isCsv = false)
    (readings : line.hasReadings = false) : ∀ v ∈ line.values ar, v = none := by
  cases line with
  | startingSetup =>
      rw [values_eq]
      exact List.forall_mem_singleton.mpr rfl
  | setupSuccessful =>
      rw [values_eq]
      exact List.forall_mem_singleton.mpr rfl
  | blank =>
      rw [values_eq]
      exact List.forall_mem_singleton.mpr rfl
  | header sampleCount start => cases readings
  | frame selectedFrame selectedSample => cases readings
  | channel adc sampleAverage unspecified =>
      rw [values_channel]
      simp
  | csv codes => cases csv

/-! ### Streams of lines -/

/-- The stream of a sequence of lines. -/
def lineStream (ar : Arith) (lines : List Line) : List Char :=
  (lines.map (Line.text ar)).flatMap (· ++ ['\r', '\n'])

/-- The lines the plotter reads when it starts at a byte offset. -/
def laterLines (ar : Arith) (lines : List Line) (offset : ℕ) : List Line :=
  lines.drop (((lineStream ar lines).take offset).count '\r' + 1)

/-- The iterations on a stream of lines. -/
theorem plotter_lines (ar : Arith) (lines : List Line) (offset : ℕ) :
    rfDBPlotter ((lineStream ar lines).drop offset) =
      iterations ⟨none, 1⟩ ((laterLines ar lines offset).map (Line.body ar)) := by
  have free : ∀ text ∈ lines.map (Line.text ar), '\r' ∉ text := by
    intro text htext
    obtain ⟨line, -, rfl⟩ := List.mem_map.mp htext
    exact return_notMem_text ar line
  have joined := records_lines_drop '\n' (by decide) free offset
  have stream : lineStream ar lines =
      (lines.map (Line.text ar)).flatMap fun line => line ++ ['\r', '\n'] := rfl
  rw [rfDBPlotter, plotter, stream, joined, ← stream, ← List.map_drop, List.map_map]
  rfl

end RFPowerDetector.Host
