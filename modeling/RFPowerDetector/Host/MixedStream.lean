/-
Mixed streams: what the plotter makes of lines that are not CSV reports.

`SoundCells` says that every cell with a number holds a dBm value printed for its
channel in its line. A header or frame line breaks it at once: three of its
fields are readings. A line without a number leaves its column unassigned, and
the next CSV line fills that column with zeros. `neverInvents_iff` says that
these are the only ways: the plotter is sound exactly on streams whose CSV lines
all come first, apart from streams whose first line stops the script.
-/

import RFPowerDetector.Host.CsvStream

namespace RFPowerDetector.Host

open Firmware Split

/-! ### Streams of lines -/

/-- A line without a numeric field. -/
def Line.numberless (line : Line) : Bool := !line.isCsv && !line.hasReadings

/-- Every cell with a number holds a dBm value that was printed for the channel of
its row in the line of its column. -/
def SoundCells (ar : Arith) (read : List Line) (dataList : DataList ℚ) : Prop :=
  ∀ i k x, 1 ≤ i → i ≤ dataList.rows → 1 ≤ k → k ≤ dataList.cols → dataList.cell i k = some x →
    ∃ line adc, read[k - 1]? = some line ∧ row adc = i ∧ line.dbm? ar adc = some x

/-- After every iteration the cells are sound for the lines read so far. -/
def NeverInvents (ar : Arith) (lines : List Line) (offset : ℕ) : Prop :=
  ∀ n p dataList, (rfDBPlotter ((lineStream ar lines).drop offset))[n]? = some p →
    p.dataList = some dataList →
    SoundCells ar ((laterLines ar lines offset).take (n + 1)) dataList

/-- The first line has no number, or all CSV lines come before all lines without a
number and there is no header or frame line. -/
def Quiet (lines : List Line) : Prop :=
  (∃ line rest, lines = line :: rest ∧ line.numberless = true) ∨
    ∃ csvs silents, lines = csvs ++ silents ∧ (∀ line ∈ csvs, line.isCsv = true) ∧
      ∀ line ∈ silents, line.numberless = true

/-! ### One line -/

section Line

variable {ar : Arith}

/-- A line without a number leaves `dataList` as it is, and stops the script if
there is none. -/
theorem iterate_numberless {line : Line} (silent : line.numberless = true) (p : Plotter ℚ) :
    iterate p (line.body ar) = p.dataList.map fun dataList => ⟨some dataList, p.readR + 1⟩ := by
  simp only [Line.numberless, Bool.and_eq_true, Bool.not_eq_true'] at silent
  have nonempty : line.body ar ≠ [] := List.cons_ne_nil _ _
  have kept : storeFields p.readR 1 p.dataList (splitPair ',' ' ' (line.body ar)) = p.dataList := by
    rw [storeFields_eq]
    exact storeValues_none (values_of_no_numbers ar silent.1 silent.2) 1 p.dataList
  rw [iterate, if_neg nonempty, kept]

/-- Three numbers after a text are stored in the rows of B, N and P. -/
theorem storeValues_readings (readR : ℕ) (dataList : Option (DataList ℚ)) (b n q : ℚ) :
    ∃ stored, storeValues readR 1 dataList [none, some b, some n, some q] = some stored ∧
      2 ≤ stored.rows ∧ readR ≤ stored.cols ∧ stored.cell 2 readR = marked b := by
  refine ⟨_, rfl, ?_, ?_, ?_⟩
  · simp only [assign, Option.getD_some]
    omega
  · simp only [assign, Option.getD_some]
    omega
  · simp [assign]

/-- A header or frame line stores a reading in channel B's row. -/
theorem iterate_readings (ar : Arith) {line : Line} (readings : line.hasReadings = true)
    (p : Plotter ℚ) :
    ∃ dataList x, iterate p (line.body ar) = some ⟨some dataList, p.readR + 1⟩ ∧
      2 ≤ dataList.rows ∧ p.readR ≤ dataList.cols ∧ dataList.cell 2 p.readR = some x := by
  have reading_kept (w : Word) : marked (w.toNat : ℚ) = some (w.toNat : ℚ) := by
    have above : (w.toNat : ℚ) ≠ Octave.noiseFloor := by
      have nonneg : (0 : ℚ) ≤ w.toNat := Nat.cast_nonneg _
      intro equal
      rw [equal] at nonneg
      exact absurd nonneg (by norm_num [Octave.noiseFloor, noiseFloor])
    rw [marked, if_neg above]
  obtain ⟨sample, values⟩ := values_readings ar readings
  obtain ⟨stored, eq, rows, cols, cell⟩ := storeValues_readings p.readR p.dataList
    (sample.reading .adcB).toNat (sample.reading .adcN).toNat (sample.reading .adcP).toNat
  rw [← values] at eq
  exact ⟨stored, _, iterate_line eq, rows, cols, cell.trans (reading_kept _)⟩

end Line

/-! ### CSV lines, then lines without a number -/

section Quiet

variable {ar : Arith}

/-- CSV lines, then lines without a number: the columns are the CSV lines. -/
theorem after_quiet (ar : Arith) (codes : List (EnumADC → Word)) {silents : List Line}
    (silent : ∀ line ∈ silents, line.numberless = true) (first : codes = [] → silents = []) :
    ∃ dataList, after ⟨none, 1⟩ ((codes.map Line.csv ++ silents).map (Line.body ar)) =
        some ⟨dataList, codes.length + silents.length + 1⟩ ∧ Columns ar codes dataList := by
  induction silents using List.reverseRecOn with
  | nil =>
      obtain ⟨dataList, reached, columns⟩ := after_csv ar codes
      refine ⟨dataList, ?_, columns⟩
      rw [List.append_nil, List.map_map]
      exact reached
  | append_singleton silents line ih =>
      have some_codes : codes ≠ [] := fun none => absurd (first none) (by simp)
      obtain ⟨dataList, reached, columns⟩ := ih
        (fun l hl => silent l (List.mem_append_left _ hl)) (fun none => absurd none some_codes)
      have quiet : line.numberless = true := silent line (by simp)
      refine ⟨dataList, ?_, columns⟩
      rw [← List.append_assoc, List.map_append, List.map_singleton, after_concat, reached,
        Option.bind_some, iterate_numberless quiet, List.length_append, List.length_singleton]
      cases dataList with
      | none => exact absurd (columns.undefined.mp rfl) some_codes
      | some dataList => rfl

/-- The channel of a row of a four-row matrix. -/
theorem exists_row {i : ℕ} (lower : 1 ≤ i) (upper : i ≤ 4) : ∃ adc, row adc = i := by
  interval_cases i
  exacts [⟨.adcA, rfl⟩, ⟨.adcB, rfl⟩, ⟨.adcN, rfl⟩, ⟨.adcP, rfl⟩]

theorem Columns.sound {codes : List (EnumADC → Word)} {dataList : DataList ℚ}
    (columns : Columns ar codes (some dataList)) (silents : List Line) :
    SoundCells ar (codes.map Line.csv ++ silents) dataList := by
  intro i k x hi rows hk cols cell
  have some_codes : codes ≠ [] := fun none => by cases columns.undefined.mpr none
  have four : dataList.rows = 4 := columns.rows.trans (if_neg some_codes)
  have width : dataList.cols = codes.length := columns.cols
  obtain ⟨adc, rfl⟩ := exists_row hi (four ▸ rows)
  obtain ⟨k, rfl⟩ : ∃ k', k = k' + 1 := ⟨k - 1, by omega⟩
  have inside : k < codes.length := by omega
  have stored : dataList.cell (row adc) (k + 1) =
      marked (printedValue (codeDbm ar (codes[k] adc))) :=
    columns.cells k _ (List.getElem?_eq_getElem inside) adc
  refine ⟨.csv codes[k], adc, ?_, rfl, ?_⟩
  · rw [Nat.add_sub_cancel, List.getElem?_append_left (by simpa using inside), List.getElem?_map,
      List.getElem?_eq_getElem inside]
    rfl
  · rw [cell, marked] at stored
    split at stored
    · cases stored
    · exact stored.symm

theorem exists_codes {csvs : List Line} (csv : ∀ line ∈ csvs, line.isCsv = true) :
    ∃ codes : List (EnumADC → Word), csvs = codes.map Line.csv := by
  induction csvs with
  | nil => exact ⟨[], rfl⟩
  | cons line csvs ih =>
      obtain ⟨codes, rfl⟩ := ih fun l hl => csv l (List.mem_cons_of_mem _ hl)
      have own := csv line List.mem_cons_self
      cases line with
      | csv c => exact ⟨c :: codes, rfl⟩
      | _ => cases own

/-- A silent first line stops the script. -/
theorem after_numberless_first {line : Line} (silent : line.numberless = true) (rest : List Line) :
    after (⟨none, 1⟩ : Plotter ℚ) ((line :: rest).map (Line.body ar)) = none := by
  rw [List.map_cons, after, List.foldlM_cons, iterate_numberless silent]
  rfl

/-- The cells after reading the lines are sound, if the script gets there. -/
def SoundAfter (ar : Arith) (lines : List Line) : Prop :=
  ∀ p dataList, after ⟨none, 1⟩ (lines.map (Line.body ar)) = some p →
    p.dataList = some dataList → SoundCells ar lines dataList

theorem Quiet.of_prefix {pre lines : List Line} (quiet : Quiet lines) (le : pre <+: lines) :
    Quiet pre := by
  rcases quiet with ⟨line, rest, rfl, silent⟩ | ⟨csvs, silents, rfl, csv, silent⟩
  · cases pre with
    | nil => exact .inr ⟨[], [], rfl, nofun, nofun⟩
    | cons first pre =>
        obtain ⟨rfl, -⟩ := List.cons_prefix_cons.mp le
        exact .inl ⟨first, pre, rfl, silent⟩
  · right
    rw [List.prefix_iff_eq_take, List.take_append] at le
    exact ⟨_, _, le, fun l hl => csv l (List.mem_of_mem_take hl),
      fun l hl => silent l (List.mem_of_mem_take hl)⟩

theorem Quiet.sound {lines : List Line} (quiet : Quiet lines) : SoundAfter ar lines := by
  intro p dataList reached held
  rcases quiet with ⟨line, rest, rfl, first⟩ | ⟨csvs, silents, rfl, csv, silent⟩
  · rw [after_numberless_first first] at reached
    cases reached
  · obtain ⟨codes, rfl⟩ := exists_codes csv
    by_cases stops : codes = [] ∧ silents ≠ []
    · obtain ⟨rfl, some_silents⟩ := stops
      obtain ⟨line, rest, rfl⟩ := List.exists_cons_of_ne_nil some_silents
      rw [List.map_nil, List.nil_append,
        after_numberless_first (silent line List.mem_cons_self)] at reached
      cases reached
    · obtain ⟨stored, quietly, columns⟩ := after_quiet ar codes silent
        fun none => by_contra fun some_silents => stops ⟨none, some_silents⟩
      cases quietly.symm.trans reached
      obtain rfl : stored = some dataList := held
      exact columns.sound silents

/-- A line that carries a dBm value for two channels is a CSV line. -/
theorem Line.isCsv_of_two {line : Line} {x y : ℚ} (a : line.dbm? ar .adcA = some x)
    (b : line.dbm? ar .adcB = some y) : line.isCsv = true := by
  cases line with
  | csv codes => rfl
  | channel adc sampleAverage unspecified =>
      simp only [Line.dbm?, Option.ite_none_right_eq_some] at a b
      cases a.1.symm.trans b.1
  | _ => cases a

theorem Line.dbm?_of_readings {line : Line} (readings : line.hasReadings = true)
    (adc : EnumADC) : line.dbm? ar adc = none := by
  cases line with
  | header _ _ => rfl
  | frame _ _ => rfl
  | _ => cases readings

/-- A header or frame line puts a reading into channel B's row. -/
theorem readings_unsound {lines : List Line} {line : Line} {p : Plotter ℚ}
    (reached : after ⟨none, 1⟩ (lines.map (Line.body ar)) = some p)
    (count : p.readR = lines.length + 1) (readings : line.hasReadings = true) :
    ¬ SoundAfter ar (lines ++ [line]) := by
  intro sound
  obtain ⟨dataList, x, step, rows, cols, cell⟩ := iterate_readings ar readings p
  have next : after ⟨none, 1⟩ ((lines ++ [line]).map (Line.body ar)) =
      some ⟨some dataList, p.readR + 1⟩ := by
    rw [List.map_append, List.map_singleton, after_concat, reached, Option.bind_some, step]
  obtain ⟨read, adc, hread, -, carried⟩ := sound _ dataList next rfl 2 p.readR x (by omega) rows
    (by omega) cols cell
  rw [count, Nat.add_sub_cancel, List.getElem?_concat_length, Option.some.injEq] at hread
  rw [← hread, Line.dbm?_of_readings readings] at carried
  cases carried

/-- A CSV line after a line without a number fills the column of that line with
zeros. -/
theorem gap_unsound {codes : List (EnumADC → Word)} {silents : List Line}
    (some_codes : codes ≠ []) (some_silents : silents ≠ [])
    (silent : ∀ line ∈ silents, line.numberless = true) (c : EnumADC → Word) :
    ¬ SoundAfter ar (codes.map Line.csv ++ silents ++ [.csv c]) := by
  intro sound
  obtain ⟨before, reached, columns⟩ := after_quiet ar codes silent
    fun none => absurd none some_codes
  obtain ⟨stored, eq, rows, cols, -, old⟩ :=
    storeValues_csv ar c (codes.length + silents.length + 1) before
  have next : after ⟨none, 1⟩ ((codes.map Line.csv ++ silents ++ [Line.csv c]).map (Line.body ar)) =
      some ⟨some stored, codes.length + silents.length + 2⟩ := by
    rw [List.map_append, List.map_singleton, after_concat, reached, Option.bind_some,
      iterate_line eq]
  obtain ⟨gap, rest, rfl⟩ := List.exists_cons_of_ne_nil some_silents
  -- the column of the first silent line was never assigned
  have zero (i : ℕ) : stored.cell i (codes.length + 1) = some 0 := by
    rw [old _ _ (by simp), (entries before).zero_outside]
    rw [columns.cols]
    omega
  have width : codes.length + 1 ≤ stored.cols := by
    rw [cols]
    omega
  have height : 4 ≤ stored.rows := by
    rw [rows]
    omega
  have carried (adc : EnumADC) : gap.dbm? ar adc = some 0 := by
    have low : 1 ≤ row adc := by cases adc <;> decide
    have high : row adc ≤ 4 := by cases adc <;> decide
    obtain ⟨read, a, hread, same, value⟩ := sound _ stored next rfl (row adc) (codes.length + 1) 0
      low (high.trans height) (by omega) width (zero _)
    obtain rfl := row_injective same
    have isGap : read = gap := by
      rw [Nat.add_sub_cancel, List.append_assoc, List.getElem?_append_right (by simp)] at hread
      simpa using hread.symm
    rwa [isGap] at value
  have csv := Line.isCsv_of_two (carried .adcA) (carried .adcB)
  have numberless := silent gap List.mem_cons_self
  simp [Line.numberless, csv] at numberless

/-- A stream whose prefixes are all sound is quiet. -/
theorem quiet_of_sound {lines : List Line} (sound : ∀ pre, pre <+: lines → SoundAfter ar pre) :
    Quiet lines := by
  induction lines using List.reverseRecOn with
  | nil => exact .inr ⟨[], [], rfl, nofun, nofun⟩
  | append_singleton lines line ih =>
      have whole : SoundAfter ar (lines ++ [line]) := sound _ (List.prefix_refl _)
      rcases ih fun pre le => sound pre (le.trans (List.prefix_append _ _)) with
        ⟨first, rest, rfl, silent⟩ | ⟨csvs, silents, rfl, csv, silent⟩
      · exact .inl ⟨first, rest ++ [line], rfl, silent⟩
      obtain ⟨codes, rfl⟩ := exists_codes csv
      by_cases stops : codes = [] ∧ silents ≠ []
      · obtain ⟨rfl, some_silents⟩ := stops
        obtain ⟨first, rest, rfl⟩ := List.exists_cons_of_ne_nil some_silents
        exact .inl ⟨first, rest ++ [line], rfl, silent first List.mem_cons_self⟩
      have first (none : codes = []) : silents = [] :=
        by_contra fun some_silents => stops ⟨none, some_silents⟩
      obtain ⟨before, reached, -⟩ := after_quiet ar codes silent first
      have count : codes.length + silents.length + 1 = (codes.map Line.csv ++ silents).length + 1 := by
        rw [List.length_append, List.length_map]
      cases line with
      | header sampleCount start => exact absurd whole (readings_unsound reached count rfl)
      | frame selectedFrame sample => exact absurd whole (readings_unsound reached count rfl)
      | csv c =>
          by_cases some_silents : silents = []
          · subst some_silents
            refine .inr ⟨codes.map Line.csv ++ [.csv c], [], by simp, fun l hl => ?_, nofun⟩
            rcases List.mem_append.mp hl with hl | hl
            · exact csv l hl
            · rw [List.mem_singleton.mp hl]
              rfl
          · have some_codes : codes ≠ [] := fun none => some_silents (first none)
            exact absurd whole (gap_unsound some_codes some_silents silent c)
      | _ =>
          refine .inr ⟨codes.map Line.csv, silents ++ [_], List.append_assoc _ _ _, csv, ?_⟩
          intro l hl
          rcases List.mem_append.mp hl with hl | hl
          · exact silent l hl
          · rw [List.mem_singleton.mp hl]
            rfl

end Quiet

/-! ### The plotter -/

theorem neverInvents_iff_prefixes (ar : Arith) (lines : List Line) (offset : ℕ) :
    NeverInvents ar lines offset ↔
      ∀ pre, pre <+: laterLines ar lines offset → SoundAfter ar pre := by
  have states (n : ℕ) : (rfDBPlotter ((lineStream ar lines).drop offset))[n]? =
      if n < (laterLines ar lines offset).length then
        after ⟨none, 1⟩ (((laterLines ar lines offset).take (n + 1)).map (Line.body ar))
      else none := by
    rw [plotter_lines, iterations_getElem?, List.length_map, List.map_take]
  constructor
  · intro sound pre le p dataList reached held
    have taken := List.prefix_iff_eq_take.mp le
    have bound := le.length_le
    cases length : pre.length with
    | zero =>
        rw [List.eq_nil_of_length_eq_zero length] at reached
        cases reached
        cases held
    | succ n =>
        rw [length] at taken bound
        have state := states n
        rw [if_pos (by omega), ← taken, reached] at state
        rw [taken]
        exact sound n p dataList state held
  · intro sound n p dataList state held
    rw [states] at state
    split at state
    · exact sound _ (List.take_prefix _ _) p dataList state held
    · cases state

/-- **The plotter never invents a measurement** if and only if the first line it
reads has no number, or the lines it reads are CSV lines and then lines without a
number. -/
theorem neverInvents_iff (ar : Arith) (lines : List Line) (offset : ℕ) :
    NeverInvents ar lines offset ↔ Quiet (laterLines ar lines offset) := by
  rw [neverInvents_iff_prefixes]
  constructor
  · exact quiet_of_sound
  · intro quiet pre le
    exact (quiet.of_prefix le).sound

/-- The readings of a sample on the source's board: 7 on the enabled channels. -/
def sevens (adc : EnumADC) : Word := if sourceEnabled adc then 7 else 0

/-- Two CSV reports and the beginning of a text report, up to its header, on such
samples. -/
def modeSwitch : List Line :=
  [.csv sevens, .csv sevens] ++ List.replicate 11 .blank ++ [.header 1 (.ofArray sevens 0)]

/-- The header's reading of channel B becomes a cell of `dataList`. -/
theorem header_reading_stored :
    ¬ ∀ (ar : Arith) (lines : List Line) (offset : ℕ), NeverInvents ar lines offset := by
  intro claim
  have evaluated : ((rfDBPlotter ((lineStream .ieee modeSwitch).drop 0))[12]?.bind
      Plotter.dataList).map (fun d => (d.rows, d.cols, d.cell 2 13)) = some (4, 13, some 7) := by
    decide +kernel
  obtain ⟨dataList, held, cells⟩ := Option.map_eq_some_iff.mp evaluated
  obtain ⟨p, state, held⟩ := Option.bind_eq_some_iff.mp held
  simp only [Prod.mk.injEq] at cells
  obtain ⟨rows, cols, cell⟩ := cells
  obtain ⟨line, adc, read, -, carried⟩ := claim .ieee modeSwitch 0 12 p dataList state held 2 13 7
    (by decide) (by omega) (by decide) (by omega) cell
  have isHeader : .header 1 (.ofArray sevens 0) = line := Option.some.inj read
  rw [← isHeader] at carried
  cases carried

end RFPowerDetector.Host
