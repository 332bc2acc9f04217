/-
From CSV reports to `dataList`, and back.

`Columns` says that the columns of `dataList` are the CSV lines read so far;
one more CSV line adds one more column (`store_csv`). With the line structure of
the stream this gives `plotter_columns`: wherever in a stream of CSV reports the
plotter starts, the later reports are the columns. `csv_roundTrip` is the result
for the board's arithmetic, `csv_roundTrip_exact` for exact arithmetic, where the
printed value is within half a hundredth of the computed one.
-/

import RFPowerDetector.Host.Lines

namespace RFPowerDetector.Host

open Firmware Split

/-! ### Columns -/

/-- The row of a channel. -/
def row : EnumADC → ℕ
  | .adcA => 1
  | .adcB => 2
  | .adcN => 3
  | .adcP => 4

/-- The columns of `dataList` are the channel codes of the given lines, and it has
a row for each channel. -/
structure Columns (ar : Arith) (codes : List (EnumADC → Word)) (dataList : Option (DataList ℚ)) :
    Prop where
  undefined : dataList = none ↔ codes = []
  rows : (entries dataList).rows = if codes = [] then 0 else 4
  cols : (entries dataList).cols = codes.length
  cells : ∀ k c, codes[k]? = some c → ∀ adc,
    (entries dataList).cell (row adc) (k + 1) = marked (printedValue (codeDbm ar (c adc)))

theorem columns_nil (ar : Arith) : Columns ar [] none :=
  ⟨iff_of_true rfl rfl, rfl, rfl, fun _ _ h => by cases h⟩

theorem row_injective : Function.Injective row := by
  intro a b h
  cases a <;> cases b <;> first | rfl | exact absurd h (by decide)

/-- An iteration whose line stores something. -/
theorem iterate_line {ar : Arith} {line : Line} {p : Plotter ℚ} {dataList : DataList ℚ}
    (stored : storeValues p.readR 1 p.dataList (line.values ar) = some dataList) :
    iterate p (line.body ar) = some ⟨some dataList, p.readR + 1⟩ := by
  have nonempty : line.body ar ≠ [] := List.cons_ne_nil _ _
  have fields : storeFields p.readR 1 p.dataList (splitPair ',' ' ' (line.body ar)) =
      some dataList := by
    rw [storeFields_eq]
    exact stored
  rw [iterate, if_neg nonempty, fields]
  rfl

/-- A CSV line stores its four channels in the current column. -/
theorem storeValues_csv (ar : Arith) (codes : EnumADC → Word) (readR : ℕ)
    (dataList : Option (DataList ℚ)) :
    ∃ stored, storeValues readR 1 dataList ((Line.csv codes).values ar) = some stored ∧
      stored.rows = max (entries dataList).rows 4 ∧
      stored.cols = max (entries dataList).cols readR ∧
      (∀ adc, stored.cell (row adc) readR = marked (printedValue (codeDbm ar (codes adc)))) ∧
      ∀ i k, k ≠ readR → stored.cell i k = (entries dataList).cell i k := by
  rw [values_csv]
  refine ⟨_, rfl, ?_, ?_, ?_, ?_⟩
  · simp only [assign, Option.getD_some, entries]
    omega
  · simp only [assign, Option.getD_some, entries]
    omega
  · intro adc
    cases adc <;> simp [assign, row]
  · intro i k other
    simp [assign, entries, other]

/-- One more CSV line is one more column. -/
theorem store_csv {ar : Arith} {codes : List (EnumADC → Word)} {dataList : Option (DataList ℚ)}
    (columns : Columns ar codes dataList) (c : EnumADC → Word) :
    ∃ stored, storeValues (codes.length + 1) 1 dataList ((Line.csv c).values ar) = some stored ∧
      Columns ar (codes ++ [c]) (some stored) := by
  obtain ⟨stored, eq, rows, cols, new, old⟩ :=
    storeValues_csv ar c (codes.length + 1) dataList
  refine ⟨stored, eq, ?_, ?_, ?_, ?_⟩
  · simp
  · show stored.rows = _
    rw [rows, columns.rows]
    split <;> simp
  · show stored.cols = _
    rw [cols, columns.cols, List.length_append, List.length_singleton]
    omega
  · intro k c' hk adc
    show stored.cell _ _ = _
    by_cases last : k = codes.length
    · subst last
      rw [List.getElem?_concat_length, Option.some.injEq] at hk
      rw [← hk]
      exact new adc
    · rw [old _ _ (by omega)]
      have bound : k < (codes ++ [c]).length := (List.getElem?_eq_some_iff.mp hk).1
      rw [List.length_append, List.length_singleton] at bound
      rw [List.getElem?_append_left (by omega)] at hk
      exact columns.cells k c' hk adc

/-- Reading CSV lines from the start. -/
theorem after_csv (ar : Arith) (codes : List (EnumADC → Word)) :
    ∃ dataList, after ⟨none, 1⟩ (codes.map fun c => (Line.csv c).body ar) =
        some ⟨dataList, codes.length + 1⟩ ∧ Columns ar codes dataList := by
  induction codes using List.reverseRecOn with
  | nil => exact ⟨none, rfl, columns_nil ar⟩
  | append_singleton codes c ih =>
      obtain ⟨dataList, reached, columns⟩ := ih
      obtain ⟨stored, eq, next⟩ := store_csv columns c
      refine ⟨some stored, ?_, next⟩
      rw [List.map_append, List.map_singleton, after_concat, reached, Option.bind_some,
        iterate_line eq, List.length_append, List.length_singleton]

/-! ### Reports -/

/-- A CSV report: for every channel the window its average is taken over, and the
word an undefined conversion of it would yield. -/
structure CsvReport where
  windows : EnumADC → Window
  unspecified : EnumADC → Word

/-- The `uint16_t` code of a channel. -/
def CsvReport.code (ar : Arith) (r : CsvReport) (adc : EnumADC) : Word :=
  (r.windows adc).code ar (r.unspecified adc) adc

/-- What `loop` prints for the report. -/
def CsvReport.text (ar : Arith) (r : CsvReport) : Text :=
  (adcOrder.flatMap fun adc =>
    (csvPrints ar (r.unspecified adc)
      (rollingAverage ar ((r.windows adc).average ar adc))).flatten) ++ println ['\n']

/-- The stream of a sequence of CSV reports. -/
def csvStream (ar : Arith) (reports : List CsvReport) : List Char :=
  reports.flatMap (CsvReport.text ar)

/-- The reports the plotter reads when it starts at a byte offset: those after the
one that ends with the carriage return it skips to. -/
def laterReports (ar : Arith) (reports : List CsvReport) (offset : ℕ) : List CsvReport :=
  reports.drop (((csvStream ar reports).take offset).count '\r' + 1)

theorem CsvReport.text_eq (ar : Arith) (r : CsvReport) :
    r.text ar = (Line.csv (r.code ar)).text ar ++ ['\r', '\n'] := by
  unfold CsvReport.text Line.text
  rw [println, List.append_assoc]
  congr 1

theorem csvStream_eq (ar : Arith) (reports : List CsvReport) :
    csvStream ar reports = lineStream ar (reports.map fun r => .csv (r.code ar)) := by
  rw [csvStream, lineStream, List.map_map, List.flatMap_map]
  exact List.flatMap_congr fun r _ => r.text_eq ar

theorem laterLines_csv (ar : Arith) (reports : List CsvReport) (offset : ℕ) :
    laterLines ar (reports.map fun r => .csv (r.code ar)) offset =
      (laterReports ar reports offset).map fun r => .csv (r.code ar) := by
  rw [laterLines, ← csvStream_eq, ← List.map_drop]
  rfl

/-- **The columns of a CSV stream.** Wherever the plotter starts, after its
`n + 1`-th iteration the columns of `dataList` are the first `n + 1` later reports. -/
theorem plotter_columns (ar : Arith) (reports : List CsvReport) (offset n : ℕ) :
    ∃ dataList, Columns ar (((laterReports ar reports offset).take (n + 1)).map (CsvReport.code ar))
        dataList ∧
      (rfDBPlotter ((csvStream ar reports).drop offset))[n]? =
        if n < (laterReports ar reports offset).length then some ⟨dataList, n + 2⟩ else none := by
  obtain ⟨dataList, reached, columns⟩ :=
    after_csv ar (((laterReports ar reports offset).take (n + 1)).map (CsvReport.code ar))
  refine ⟨dataList, columns, ?_⟩
  rw [csvStream_eq, plotter_lines, laterLines_csv, iterations_getElem?, List.length_map,
    List.length_map]
  split
  · rename_i inside
    have length : ((laterReports ar reports offset).take (n + 1)).length = n + 1 := by
      rw [List.length_take]
      omega
    rw [List.map_map, List.length_map, length] at reached
    rw [← List.map_take, ← List.map_take, List.map_map]
    exact reached
  · rfl

/-! ### The round trip -/

/-- After every iteration `dataList` has four rows and a column for each report
read, a cell is NaN exactly for code 0, and so for a channel that reads zero
throughout, and any other cell is the printed value, within `tolerance` of the
exact one. -/
def RoundTrip (ar : Arith) (tolerance : ℚ) (reports : List CsvReport) (offset : ℕ) : Prop :=
  (rfDBPlotter ((csvStream ar reports).drop offset)).length =
      (laterReports ar reports offset).length ∧
    ∀ n, n < (laterReports ar reports offset).length →
      ∃ p dataList, (rfDBPlotter ((csvStream ar reports).drop offset))[n]? = some p ∧
        p.dataList = some dataList ∧ dataList.rows = 4 ∧ dataList.cols = n + 1 ∧
        ∀ k r, k ≤ n → (laterReports ar reports offset)[k]? = some r → ∀ adc,
          (dataList.cell (row adc) (k + 1) = none ↔ r.code ar adc = 0) ∧
          ((r.windows adc).ReadingsLe adc 0 → dataList.cell (row adc) (k + 1) = none) ∧
          ∀ x, dataList.cell (row adc) (k + 1) = some x →
            x = printedValue (codeDbm ar (r.code ar adc)) ∧
              |x - codeDbm .exact (r.code ar adc)| ≤ tolerance

theorem length_rfDBPlotter (ar : Arith) (reports : List CsvReport) (offset : ℕ) :
    (rfDBPlotter ((csvStream ar reports).drop offset)).length =
      (laterReports ar reports offset).length := by
  have defined (n : ℕ) : n < (rfDBPlotter ((csvStream ar reports).drop offset)).length ↔
      n < (laterReports ar reports offset).length := by
    obtain ⟨dataList, -, reached⟩ := plotter_columns ar reports offset n
    by_cases inside : n < (laterReports ar reports offset).length
    · rw [if_pos inside] at reached
      exact iff_of_true (List.getElem?_eq_some_iff.mp reached).1 inside
    · rw [if_neg inside] at reached
      exact iff_of_false (List.getElem?_eq_none_iff.mp reached).not_gt inside
  have lower := defined (laterReports ar reports offset).length
  have upper := defined (rfDBPlotter ((csvStream ar reports).drop offset)).length
  omega

theorem marked_eq_none_iff {ar : Arith} {ε : ℚ} (accurate : ar.Accurate ε) (small : ε < 9 / 10000)
    (code : Word) : marked (printedValue (codeDbm ar code)) = none ↔ code = 0 := by
  rw [← accurate.printed_eq_intercept_iff small code, marked]
  have floor : (Octave.noiseFloor : ℚ) = dbmIntercept := rfl
  rw [floor]
  split
  · rename_i equal
    exact iff_of_true rfl equal
  · rename_i other
    exact iff_of_false (Option.some_ne_none _) other

/-- The round trip in an accurate arithmetic. -/
theorem roundTrip_of_accurate {ar : Arith} {ε : ℚ} (accurate : ar.Accurate ε)
    (small : ε < 9 / 10000) (reports : List CsvReport) (offset : ℕ) :
    RoundTrip ar (5 / 1000 + ε) reports offset := by
  refine ⟨length_rfDBPlotter ar reports offset, fun n inside => ?_⟩
  obtain ⟨dataList, columns, reached⟩ := plotter_columns ar reports offset n
  rw [if_pos inside] at reached
  have length : (((laterReports ar reports offset).take (n + 1)).map (CsvReport.code ar)).length =
      n + 1 := by
    rw [List.length_map, List.length_take]
    omega
  have some_codes : ((laterReports ar reports offset).take (n + 1)).map (CsvReport.code ar) ≠ [] := by
    rw [← List.length_pos_iff, length]
    omega
  cases dataList with
  | none => exact absurd (columns.undefined.mp rfl) some_codes
  | some stored =>
      have rows := columns.rows
      have cols := columns.cols
      rw [if_neg some_codes] at rows
      rw [length] at cols
      refine ⟨_, stored, reached, rfl, rows, cols, fun k r hk hr adc => ?_⟩
      have code : (((laterReports ar reports offset).take (n + 1)).map (CsvReport.code ar))[k]? =
          some (r.code ar) := by
        rw [List.getElem?_map, List.getElem?_take_of_lt (by omega), hr]
        rfl
      have cell : stored.cell (row adc) (k + 1) = marked (printedValue (codeDbm ar (r.code ar adc))) :=
        columns.cells k _ code adc
      have nan := marked_eq_none_iff accurate small (r.code ar adc)
      rw [cell]
      refine ⟨nan, fun silent => nan.mpr (Window.code_of_silent accurate silent _), fun x hx => ?_⟩
      have value : printedValue (codeDbm ar (r.code ar adc)) = x := by
        rw [marked] at hx
        split at hx
        · cases hx
        · exact Option.some.inj hx
      rw [← value]
      exact ⟨rfl, accurate.printed_close (r.code ar adc)⟩

/-- With exact arithmetic the printed value is within half a hundredth. -/
theorem csv_roundTrip_exact (reports : List CsvReport) (offset : ℕ) :
    RoundTrip .exact (5 / 1000) reports offset := by
  have exact := roundTrip_of_accurate exact_accurate (by norm_num) reports offset
  rwa [add_zero] at exact

/-- **The round trip of a CSV stream** in the board's arithmetic. -/
theorem csv_roundTrip (reports : List CsvReport) (offset : ℕ) :
    RoundTrip .ieee (507 / 100000) reports offset := by
  have ieee := roundTrip_of_accurate ieee_accurate (by norm_num) reports offset
  have tolerance : (5 : ℚ) / 1000 + 7 / 100000 = 507 / 100000 := by norm_num
  rwa [tolerance] at ieee

/-- A report whose channels all read `code` in a single sample. -/
def constantReport (code : Word) : CsvReport where
  windows _ := ⟨fun _ => .ofArray (fun _ => code) 0, 1, Int.one_pos⟩
  unspecified _ := 0

/-- Code 82 prints as `-58.51`; the exact value is below `-58.515`. -/
theorem code_82_beyond_half_hundredth :
    ¬ ∀ (reports : List CsvReport) (offset : ℕ), RoundTrip .ieee (5 / 1000) reports offset := by
  intro claim
  have code : (constantReport 82).code .ieee .adcA = 82 := by decide +kernel
  have printed : printedValue (codeDbm .ieee 82) = -5851 / 100 := by decide +kernel
  obtain ⟨-, iterations⟩ := claim [constantReport 0, constantReport 82] 0
  have later : laterReports .ieee [constantReport 0, constantReport 82] 0 = [constantReport 82] := by
    rw [laterReports, List.take_zero]
    rfl
  rw [later] at iterations
  obtain ⟨p, dataList, -, -, -, -, cells⟩ := iterations 0 Nat.one_pos
  obtain ⟨nan, -, value⟩ := cells 0 _ le_rfl rfl .adcA
  rw [code] at nan value
  cases cell : dataList.cell (row .adcA) 1 with
  | none => exact absurd (nan.mp cell) (by decide)
  | some x =>
      obtain ⟨rfl, close⟩ := value x cell
      have toNat : (82 : Word).toNat = 82 := rfl
      rw [printed, codeDbm_exact, toNat] at close
      norm_num [dbmSlope, dbmIntercept, abs_le] at close

end RFPowerDetector.Host
