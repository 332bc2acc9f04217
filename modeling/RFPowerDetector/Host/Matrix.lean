/-
What the plotter makes of any stream.

`number α lines i k` is the number in field `i` of line `k`, both counted from 0, as
`str2double` reads it. Whatever the port delivers, the script stops at the first line
without characters, and at once if the first line has no number (`Survives`). As long as
it runs, `dataList` holds the numbers of the lines read, the noise floor as NaN and zeros
where there is no number, and is as large as the numbers make it (`Represents`).
`plotter_spec` says this of every stream, every iteration and every `str2double`,
`plotter_lines_read` what it means for the firmware's lines.
-/

import Mathlib.Data.Rat.Floor
import RFPowerDetector.Host.MixedStream

namespace RFPowerDetector.Host

open Firmware Split

/-! ### Numbers of a line -/

section Numbers

variable (α : Type) [Octave α]

/-- The fields of a line as numbers. -/
def lineValues (dataIn : List Char) : List (Option α) :=
  (splitPair ',' ' ' dataIn).map Octave.str2double

/-- The number in field `i` of line `k`. -/
def number (lines : List (List Char)) (i k : ℕ) : Option α :=
  lines[k]?.bind fun dataIn => (lineValues α dataIn)[i]?.join

/-- The script does not stop at the lines: each has characters, and the first a number. -/
def Survives (lines : List (List Char)) : Prop :=
  (∀ dataIn ∈ lines, dataIn ≠ []) ∧ (lines ≠ [] → ∃ i, number α lines i 0 ≠ none)

variable {α} {lines : List (List Char)} {dataIn : List Char}

theorem number_concat (lines : List (List Char)) (dataIn : List Char) (i k : ℕ) :
    number α (lines ++ [dataIn]) i k =
      if k = lines.length then (lineValues α dataIn)[i]?.join else number α lines i k := by
  rw [number, number]
  rcases lt_trichotomy k lines.length with before | rfl | past
  · rw [if_neg before.ne, List.getElem?_append_left before]
  · rw [if_pos rfl, List.getElem?_concat_length]
    rfl
  · rw [if_neg past.ne', List.getElem?_eq_none (by simp; omega),
      List.getElem?_eq_none (by omega)]

theorem number_past {i k : ℕ} (past : lines.length ≤ k) :
    number α lines i k = none := by
  rw [number, List.getElem?_eq_none past]
  rfl

theorem number_append_left {k : ℕ} (inside : k < lines.length) (i : ℕ) :
    number α (lines ++ [dataIn]) i k = number α lines i k := by
  rw [number_concat, if_neg inside.ne]

/-- The numbers of the lines and of one more. -/
theorem forall_number_concat {P : ℕ → ℕ → Prop} :
    (∀ i k, number α (lines ++ [dataIn]) i k ≠ none → P i k) ↔
      (∀ i k, number α lines i k ≠ none → P i k) ∧
        ∀ i : ℕ, (lineValues α dataIn)[i]?.join ≠ none → P i lines.length := by
  constructor
  · refine fun all => ⟨fun i k pos => ?_, fun i pos => ?_⟩
    · refine all i k ?_
      have inside : k ≠ lines.length := by
        rintro rfl
        exact pos (number_past le_rfl)
      rwa [number_concat, if_neg inside]
    · refine all i lines.length ?_
      rwa [number_concat, if_pos rfl]
  · rintro ⟨old, new⟩ i k pos
    rw [number_concat] at pos
    split at pos
    · rename_i last
      rw [last]
      exact new i pos
    · exact old i k pos

/-- One more line does not stop the script. -/
theorem survives_concat :
    Survives α (lines ++ [dataIn]) ↔
      Survives α lines ∧ dataIn ≠ [] ∧ ∃ i k, number α (lines ++ [dataIn]) i k ≠ none := by
  constructor
  · rintro ⟨solid, first⟩
    obtain ⟨i, pos⟩ := first (by simp)
    refine ⟨⟨fun l hl => solid l (List.mem_append_left _ hl), fun ne => ⟨i, ?_⟩⟩,
      solid dataIn (by simp), i, 0, pos⟩
    rwa [number_append_left (List.length_pos_iff.mpr ne)] at pos
  · rintro ⟨⟨solid, first⟩, blank, i, k, pos⟩
    refine ⟨?_, fun _ => ?_⟩
    · intro l hl
      rcases List.mem_append.mp hl with old | new
      · exact solid l old
      · rwa [List.mem_singleton.mp new]
    · rcases List.eq_nil_or_concat lines with rfl | ⟨init, last, rfl⟩
      · have only : k = 0 := by
          by_contra past
          have length : ([] ++ [dataIn]).length ≤ k := Nat.one_le_iff_ne_zero.mpr past
          exact pos (number_past length)
        exact ⟨i, only ▸ pos⟩
      · obtain ⟨i', pos'⟩ := first (by simp)
        refine ⟨i', ?_⟩
        rwa [number_append_left (by simp)]

theorem Survives.take (survives : Survives α lines) (n : ℕ) :
    Survives α (lines.take n) := by
  refine ⟨fun l hl => survives.1 l (List.mem_of_mem_take hl), fun ne => ?_⟩
  have whole : lines ≠ [] := by
    rintro rfl
    exact ne List.take_nil
  have some_taken : 0 < n := by
    refine Nat.pos_of_ne_zero ?_
    rintro rfl
    exact ne List.take_zero
  obtain ⟨i, pos⟩ := survives.2 whole
  refine ⟨i, ?_⟩
  rwa [number, List.getElem?_take_of_lt some_taken]

end Numbers

/-! ### Storing one line -/

section Store

variable {α : Type} [Zero α] [DecidableEq α] [Octave α] (k : ℕ)

/-- The cells after storing the values of line `k` from field `c` on. -/
theorem storeValues_cell (values : List (Option α)) (c : ℕ) (dataList : Option (DataList α))
    (i j : ℕ) :
    (entries (storeValues (k + 1) (c + 1) dataList values)).cell (i + 1) (j + 1) =
      if j = k ∧ c ≤ i then
        values[i - c]?.join.elim ((entries dataList).cell (i + 1) (j + 1)) marked
      else (entries dataList).cell (i + 1) (j + 1) := by
  induction values generalizing c dataList with
  | nil => simp [storeValues]
  | cons v values ih =>
      have field (here : i = c) : (v :: values)[i - c]? = some v := by simp [here]
      have later (past : c + 1 ≤ i) : (v :: values)[i - c]? = values[i - (c + 1)]? := by
        rw [show i - c = (i - (c + 1)) + 1 by omega, List.getElem?_cons_succ]
      cases v with
      | none =>
          rw [storeValues, ih]
          rcases lt_trichotomy i c with before | here | past
          · rw [if_neg (by omega), if_neg (by omega)]
          · rw [if_neg (by omega), field here]
            split <;> rfl
          · simp only [later past, show c + 1 ≤ i from past, show c ≤ i by omega]
      | some x =>
          rw [storeValues, ih]
          have cell : (entries (some (assign dataList (c + 1) (k + 1) (marked x)))).cell (i + 1)
              (j + 1) = if i = c ∧ j = k then marked x
                else (entries dataList).cell (i + 1) (j + 1) := by
            simp only [entries, assign, Option.getD_some, Nat.add_right_cancel_iff]
          rw [cell]
          rcases lt_trichotomy i c with before | here | past
          · rw [if_neg (by omega), if_neg (by omega), if_neg (by omega)]
          · rw [if_neg (by omega), field here]
            by_cases column : j = k
            · rw [if_pos ⟨here, column⟩, if_pos ⟨column, here.ge⟩]
              rfl
            · rw [if_neg (by omega), if_neg (by omega)]
          · rw [if_neg (by omega : ¬ (i = c ∧ j = k))]
            simp only [later past, show c + 1 ≤ i from past, show c ≤ i by omega]

theorem storeValues_rows (values : List (Option α)) (c : ℕ) (dataList : Option (DataList α)) (n : ℕ) :
    (entries (storeValues (k + 1) (c + 1) dataList values)).rows ≤ n ↔
      (entries dataList).rows ≤ n ∧ ∀ i, values[i]?.join ≠ none → c + i < n := by
  induction values generalizing c dataList with
  | nil => simp [storeValues]
  | cons v values ih =>
      cases v with
      | none =>
          rw [storeValues, ih]
          refine and_congr_right fun _ => ⟨fun below i => ?_, fun below i pos => ?_⟩
          · cases i with
            | zero => exact fun pos => absurd rfl pos
            | succ i =>
                intro pos
                have := below i pos
                omega
          · have := below (i + 1) pos
            omega
      | some x =>
          rw [storeValues, ih]
          have rows : (entries (some (assign dataList (c + 1) (k + 1) (marked x)))).rows =
              max (entries dataList).rows (c + 1) := rfl
          rw [rows, max_le_iff, and_assoc]
          refine and_congr_right fun _ => ⟨?_, fun below => ⟨?_, ?_⟩⟩
          · rintro ⟨own, below⟩ i pos
            cases i with
            | zero => omega
            | succ i =>
                have := below i pos
                omega
          · have := below 0 (by simp)
            omega
          · intro i pos
            have := below (i + 1) pos
            omega

theorem storeValues_cols (values : List (Option α)) (c : ℕ) (dataList : Option (DataList α)) (n : ℕ) :
    (entries (storeValues (k + 1) (c + 1) dataList values)).cols ≤ n ↔
      (entries dataList).cols ≤ n ∧ ∀ i : ℕ, values[i]?.join ≠ none → k < n := by
  induction values generalizing c dataList with
  | nil => simp [storeValues]
  | cons v values ih =>
      cases v with
      | none =>
          rw [storeValues, ih]
          refine and_congr_right fun _ => ⟨fun below i => ?_, fun below i pos => below (i + 1) pos⟩
          cases i with
          | zero => exact fun pos => absurd rfl pos
          | succ i => exact below i
      | some x =>
          rw [storeValues, ih]
          have cols : (entries (some (assign dataList (c + 1) (k + 1) (marked x)))).cols =
              max (entries dataList).cols (k + 1) := rfl
          rw [cols, max_le_iff, and_assoc]
          refine and_congr_right fun _ => ⟨?_, fun below => ⟨?_, ?_⟩⟩
          · rintro ⟨own, -⟩ _ _
            exact own
          · exact below 0 (by simp)
          · exact fun i pos => below (i + 1) pos

theorem storeValues_eq_none (values : List (Option α)) (c : ℕ) (dataList : Option (DataList α)) :
    storeValues (k + 1) (c + 1) dataList values = none ↔
      dataList = none ∧ ∀ i : ℕ, values[i]?.join = none := by
  induction values generalizing c dataList with
  | nil => simp [storeValues]
  | cons v values ih =>
      cases v with
      | none =>
          rw [storeValues, ih]
          refine and_congr_right fun _ => ⟨fun missing i => ?_, fun missing i => missing (i + 1)⟩
          cases i with
          | zero => rfl
          | succ i => exact missing i
      | some x =>
          rw [storeValues, ih]
          exact iff_of_false (fun missing => absurd missing.1 (Option.some_ne_none _))
            fun missing => absurd (missing.2 0) (Option.some_ne_none x)

end Store

/-! ### Reading lines -/

section Lines

variable {α : Type} [Zero α] [DecidableEq α] [Octave α]

/-- `dataList` holds the numbers of the lines, and is as large as they make it. -/
structure Represents (lines : List (List Char)) (p : Plotter α) : Prop where
  readR : p.readR = lines.length + 1
  cells : ∀ i k, (entries p.dataList).cell (i + 1) (k + 1) =
    (number α lines i k).elim (some 0) marked
  rows : ∀ n, (entries p.dataList).rows ≤ n ↔ ∀ i k, number α lines i k ≠ none → i < n
  cols : ∀ n, (entries p.dataList).cols ≤ n ↔ ∀ i k, number α lines i k ≠ none → k < n
  undefined : p.dataList = none ↔ ∀ i k, number α lines i k = none

theorem represents_nil : Represents [] (⟨none, 1⟩ : Plotter α) where
  readR := rfl
  cells _ _ := rfl
  rows _ := iff_of_true (Nat.zero_le _) fun _ _ pos => absurd rfl pos
  cols _ := iff_of_true (Nat.zero_le _) fun _ _ pos => absurd rfl pos
  undefined := iff_of_true rfl fun _ _ => rfl

variable {lines : List (List Char)} {p : Plotter α} {dataIn : List Char}

theorem storeFields_line (represents : Represents lines p) :
    storeFields p.readR 1 p.dataList (splitPair ',' ' ' dataIn) =
      storeValues (lines.length + 1) (0 + 1) p.dataList (lineValues α dataIn) := by
  rw [storeFields_eq, represents.readR]
  rfl

/-- Storing one more line. -/
theorem Represents.store (represents : Represents lines p) :
    Represents (lines ++ [dataIn])
      ⟨storeValues (lines.length + 1) (0 + 1) p.dataList (lineValues α dataIn), p.readR + 1⟩ where
  readR := by rw [represents.readR, List.length_append, List.length_singleton]
  cells i k := by
    rw [storeValues_cell, number_concat, represents.cells]
    by_cases last : k = lines.length
    · rw [if_pos ⟨last, Nat.zero_le i⟩, if_pos last, number_past last.ge, Nat.sub_zero]
      cases (lineValues α dataIn)[i]?.join <;> rfl
    · rw [if_neg fun here => last here.1, if_neg last]
  rows n := by
    rw [storeValues_rows, represents.rows, forall_number_concat]
    simp only [Nat.zero_add]
  cols n := by
    rw [storeValues_cols, represents.cols, forall_number_concat]
  undefined := by
    rw [storeValues_eq_none, represents.undefined]
    constructor
    · rintro ⟨old, new⟩ i k
      rw [number_concat]
      split
      · exact new i
      · exact old i k
    · intro all
      refine ⟨fun i k => ?_, fun i => ?_⟩
      · by_cases past : lines.length ≤ k
        · exact number_past past
        · have value := all i k
          rwa [number_concat, if_neg (by omega)] at value
      · have value := all i lines.length
        rwa [number_concat, if_pos rfl] at value

/-- An iteration goes through when the line has characters and some line read has a
number. -/
theorem iterate_represents (represents : Represents lines p) :
    (dataIn ≠ [] ∧ (∃ i k, number α (lines ++ [dataIn]) i k ≠ none) →
        ∃ p', iterate p dataIn = some p') ∧
      ∀ p', iterate p dataIn = some p' →
        dataIn ≠ [] ∧ (∃ i k, number α (lines ++ [dataIn]) i k ≠ none) ∧
          Represents (lines ++ [dataIn]) p' := by
  have stored : Represents (lines ++ [dataIn]) _ := represents.store
  have undefined := stored.undefined
  rw [iterate, storeFields_line represents]
  by_cases blank : dataIn = []
  · rw [if_pos blank]
    constructor
    · rintro ⟨pos, -⟩
      exact absurd blank pos
    · rintro _ ⟨⟩
  · rw [if_neg blank]
    cases value : storeValues (lines.length + 1) (0 + 1) p.dataList (lineValues α dataIn) with
    | none =>
        have missing := undefined.mp value
        constructor
        · rintro ⟨-, i, k, pos⟩
          exact absurd (missing i k) pos
        · rintro _ ⟨⟩
    | some dataList =>
        rw [value] at stored
        refine ⟨fun _ => ⟨_, rfl⟩, ?_⟩
        rintro _ ⟨⟩
        refine ⟨blank, ?_, stored⟩
        by_contra missing
        have none_left := undefined.mpr fun i k => by_contra fun pos => missing ⟨i, k, pos⟩
        cases none_left.symm.trans value

/-- The script gets through lines exactly when they let it, and then holds them. -/
theorem after_represents (lines : List (List Char)) :
    (Survives α lines → ∃ p : Plotter α, after ⟨none, 1⟩ lines = some p) ∧
      ∀ p : Plotter α, after ⟨none, 1⟩ lines = some p → Survives α lines ∧ Represents lines p := by
  induction lines using List.reverseRecOn with
  | nil =>
      refine ⟨fun _ => ⟨_, rfl⟩, ?_⟩
      rintro _ ⟨⟩
      refine ⟨⟨?_, fun ne => absurd rfl ne⟩, represents_nil⟩
      rintro _ ⟨⟩
  | append_singleton lines dataIn ih =>
      obtain ⟨reaches, holds⟩ := ih
      rw [after_concat, survives_concat]
      constructor
      · rintro ⟨survives, more⟩
        obtain ⟨p, reached⟩ := reaches survives
        rw [reached]
        exact (iterate_represents (holds p reached).2).1 more
      · intro p' reached
        obtain ⟨p, before, step⟩ := Option.bind_eq_some_iff.mp reached
        obtain ⟨survives, represents⟩ := holds p before
        obtain ⟨blank, some_number, now⟩ := (iterate_represents represents).2 p' step
        exact ⟨⟨survives, blank, some_number⟩, now⟩

end Lines

/-! ### The plot -/

/-- Octave's range `base : inc : limit`. -/
def colon (base inc limit : ℚ) : List ℚ :=
  (List.range (⌊(limit - base) / inc⌋ + 1).toNat).map fun j : ℕ => base + j * inc

def dataSampleInterval : ℚ := 1 / 4

section Plot

variable {α : Type} [Zero α]

/-- `xData`, without its last element. -/
def xData (dataList : DataList α) : List ℚ :=
  (colon 0 dataSampleInterval (dataList.cols * dataSampleInterval)).dropLast

/-- `dataList(channelPosition, :)` -/
def yData (dataList : DataList α) (channelPosition : ℕ) : List (Option α) :=
  (List.range dataList.cols).map fun k => dataList.cell channelPosition (k + 1)

/-- Column `k`, counted from 0, is drawn at `k` quarters of a second. -/
theorem xData_eq (dataList : DataList α) :
    xData dataList = (List.range dataList.cols).map fun k : ℕ => (k : ℚ) / 4 := by
  have steps : ((dataList.cols : ℚ) * dataSampleInterval - 0) / dataSampleInterval =
      (dataList.cols : ℤ) := by
    rw [dataSampleInterval]
    push_cast
    ring
  have count : ((dataList.cols : ℤ) + 1).toNat = dataList.cols + 1 := by omega
  rw [xData, colon, steps, Int.floor_intCast, count, List.range_succ, List.map_append,
    List.map_singleton, List.dropLast_concat]
  refine List.map_congr_left fun k _ => ?_
  rw [dataSampleInterval]
  ring

variable [DecidableEq α] [Octave α]

/-- **The plotter on any stream.** The `n`-th iteration is completed exactly when there
is an `n`-th line and the lines up to it let the script survive; `dataList` then holds
their numbers, and each channel is drawn with one time for each of its columns. -/
theorem plotter_spec (stream : List Char) (n : ℕ) :
    ((∃ p : Plotter α, (plotter stream)[n]? = some p) ↔
        n < (records '\r' [] (afterFirst '\r' stream)).length ∧
          Survives α ((records '\r' [] (afterFirst '\r' stream)).take (n + 1))) ∧
      ∀ p : Plotter α, (plotter stream)[n]? = some p →
        Represents ((records '\r' [] (afterFirst '\r' stream)).take (n + 1)) p ∧
          ∃ dataList, p.dataList = some dataList ∧
            ∀ channelPosition, (xData dataList).length = (yData dataList channelPosition).length := by
  set lines := records '\r' [] (afterFirst '\r' stream)
  obtain ⟨reaches, holds⟩ := after_represents (α := α) (lines.take (n + 1))
  rw [plotter, iterations_getElem?]
  by_cases inside : n < lines.length
  · rw [if_pos inside]
    refine ⟨⟨?_, fun lines => reaches lines.2⟩, fun p reached => ?_⟩
    · rintro ⟨p, reached⟩
      exact ⟨inside, (holds p reached).1⟩
    obtain ⟨survives, represents⟩ := holds p reached
    refine ⟨represents, ?_⟩
    cases defined : p.dataList with
    | none =>
        obtain ⟨i, pos⟩ := survives.2 (by
          intro empty
          have length := congrArg List.length empty
          rw [List.length_take, List.length_nil] at length
          omega)
        exact absurd (represents.undefined.mp defined i 0) pos
    | some dataList =>
        refine ⟨dataList, rfl, fun channelPosition => ?_⟩
        rw [xData_eq, yData, List.length_map, List.length_map]
  · rw [if_neg inside]
    refine ⟨⟨?_, fun within => absurd within.1 inside⟩, ?_⟩
    · rintro ⟨_, ⟨⟩⟩
    · rintro _ ⟨⟩

/-- Lines that let the script survive are all read. -/
theorem length_iterations {lines : List (List Char)} (survives : Survives α lines) :
    (iterations (⟨none, 1⟩ : Plotter α) lines).length = lines.length := by
  have ends (n : ℕ) : (iterations (⟨none, 1⟩ : Plotter α) lines).length ≤ n ↔ lines.length ≤ n := by
    rw [← List.getElem?_eq_none_iff, iterations_getElem?]
    by_cases inside : n < lines.length
    · obtain ⟨p, reached⟩ := (after_represents _).1 (survives.take (n + 1))
      rw [if_pos inside, reached]
      exact iff_of_false (Option.some_ne_none p) (not_le.mpr inside)
    · rw [if_neg inside]
      exact iff_of_true rfl (not_lt.mp inside)
  exact le_antisymm ((ends _).mpr le_rfl) ((ends _).mp le_rfl)

end Plot

/-! ### The firmware's lines -/

/-- A line has a number unless it is one of those without. -/
theorem exists_number_iff (ar : Arith) (line : Line) :
    (∃ i : ℕ, (line.values ar)[i]?.join ≠ none) ↔ line.numberless = false := by
  constructor
  · rintro ⟨i, pos⟩
    by_contra silent
    rw [Bool.not_eq_false, Line.numberless, Bool.and_eq_true, Bool.not_eq_true',
      Bool.not_eq_true'] at silent
    refine pos ?_
    cases value : (line.values ar)[i]? with
    | none => rfl
    | some v => rw [values_of_no_numbers ar silent.1 silent.2 v (List.mem_of_getElem? value)]; rfl
  · intro speaks
    rw [Line.numberless] at speaks
    cases csv : line.isCsv with
    | true =>
        cases line with
        | csv codes =>
            refine ⟨0, ?_⟩
            rw [values_csv]
            exact Option.some_ne_none _
        | _ => cases csv
    | false =>
        rw [csv] at speaks
        have readings : line.hasReadings = true := by simpa using speaks
        obtain ⟨sample, values⟩ := values_readings ar readings
        refine ⟨1, ?_⟩
        rw [values]
        exact Option.some_ne_none _

/-- The script survives lines whose first has a number. -/
theorem survives_lines {ar : Arith} {first : Line} {rest : List Line} :
    Survives ℚ ((first :: rest).map (Line.body ar)) ↔ first.numberless = false := by
  rw [← exists_number_iff ar first]
  constructor
  · intro survives
    exact survives.2 (List.cons_ne_nil _ _)
  · intro speaks
    refine ⟨fun l hl => ?_, fun _ => speaks⟩
    obtain ⟨line, -, rfl⟩ := List.mem_map.mp hl
    exact List.cons_ne_nil _ _

/-- **The plotter on the firmware's lines.** Wherever the plotter starts in a stream of
lines, it either reads every later line or stops at the first: it stops there when that
line has no number, as every line of a text report but the header and the frame. -/
theorem plotter_lines_read (ar : Arith) (lines : List Line) (offset : ℕ) :
    (rfDBPlotter ((lineStream ar lines).drop offset)).length =
      if (laterLines ar lines offset).head?.any Line.numberless then 0
      else (laterLines ar lines offset).length := by
  rw [plotter_lines]
  cases laterLines ar lines offset with
  | nil => rfl
  | cons first rest =>
      cases silent : first.numberless with
      | true =>
          have stops : iterate (⟨none, 1⟩ : Plotter ℚ) (first.body ar) = none :=
            iterate_numberless silent _
          rw [List.map_cons, iterations, stops]
          simp [silent]
      | false =>
          rw [length_iterations (survives_lines.mpr silent), List.length_map]
          simp [silent]

end RFPowerDetector.Host
