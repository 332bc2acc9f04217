/-
The host's plotter (`RF_dBPlotter.m`): its read loop, without the drawing.

The serial port is the list of the characters it delivers; a read waits for the
next one, so the script stands still at the end of the list. `dataList` does not
exist before the first assignment, and reading its size then stops the script, as
does a line without characters. A matrix is total: the entries outside its bounds
are the zeros that an assignment past its end would fill in.

The script is written for any numbers and any `str2double`. `rfDBPlotter` is its
instance for rationals in plain decimals, the only numbers the firmware prints.

`storeFields_eq` reduces a line to its fields as numbers (`storeValues`), and
`iterations_getElem?` the state after an iteration to the lines read so far
(`after`).
-/

import Mathlib.Algebra.Order.Ring.Rat
import RFPowerDetector.Library.Numeral
import RFPowerDetector.Library.Split

namespace RFPowerDetector.Host

open Split

/-! ### Octave's values -/

/-- White space `str2double` ignores at the ends of a field. -/
def isSpace (c : Char) : Bool := c == ' ' || c == '\t' || c == '\n' || c == '\r'

/-- What the script takes from Octave's numbers: `str2double`, missing for NaN, and the
value of `noiseFloor`. -/
class Octave (α : Type) where
  str2double : List Char → Option α
  noiseFloor : α

/-- `str2double` on plain decimals: a sign, digits, and a point with digits. What else
Octave reads as a number (exponents, `Inf`, `NA`, complex numbers, commas between
thousands) is text here. -/
def str2double (field : List Char) : Option ℚ := Numeral.parse (Numeral.trim isSpace field)

/-- The value stored as NaN. -/
def noiseFloor : ℚ := -59

instance : Octave ℚ := ⟨str2double, noiseFloor⟩

section Script

variable {α : Type} [Zero α]

/-- A matrix, rows and columns counted from 1, NaN as a missing value. -/
structure DataList (α : Type) [Zero α] where
  rows : ℕ
  cols : ℕ
  cell : ℕ → ℕ → Option α
  zero_outside : ∀ i k, ¬ (i ≤ rows ∧ k ≤ cols) → cell i k = some 0

/-- The matrix before anything is assigned. -/
def DataList.empty : DataList α := ⟨0, 0, fun _ _ => some 0, fun _ _ _ => rfl⟩

/-- The entries of `dataList`, or of the empty matrix. -/
def entries (dataList : Option (DataList α)) : DataList α := dataList.getD .empty

/-- `dataList(r, c) = value`: the matrix grows to hold the entry. -/
def assign (dataList : Option (DataList α)) (r c : ℕ) (value : Option α) : DataList α where
  rows := max (dataList.getD .empty).rows r
  cols := max (dataList.getD .empty).cols c
  cell i k := if i = r ∧ k = c then value else (dataList.getD .empty).cell i k
  zero_outside i k outside := by
    rw [if_neg (by omega), (dataList.getD .empty).zero_outside i k (by omega)]

theorem assign_assign (dataList : Option (DataList α)) (r c : ℕ) (v w : Option α) :
    assign (some (assign dataList r c v)) r c w = assign dataList r c w := by
  simp only [assign, Option.getD_some, max_assoc, max_self, DataList.mk.injEq, true_and]
  funext i k
  split <;> rfl

/-! ### The script -/

variable [DecidableEq α] [Octave α]

/-- One field of a line: numeric fields are stored, and the noise floor is then
reset to NaN. -/
def storeField (readR channelPosition : ℕ) (dataList : Option (DataList α))
    (field : List Char) : Option (DataList α) :=
  match Octave.str2double field with
  | none => dataList
  | some x =>
      let stored := assign dataList channelPosition readR (some x)
      if stored.cell channelPosition readR = some Octave.noiseFloor then
        some (assign (some stored) channelPosition readR none)
      else some stored

/-- The fields of a line from `channelPosition` on. -/
def storeFields (readR : ℕ) : ℕ → Option (DataList α) → List (List Char) → Option (DataList α)
  | _, dataList, [] => dataList
  | channelPosition, dataList, field :: fields =>
      storeFields readR (channelPosition + 1)
        (storeField readR channelPosition dataList field) fields

structure Plotter (α : Type) [Zero α] where
  dataList : Option (DataList α)
  readR : ℕ

/-- One iteration of the read loop with the line `dataIn`; `none` if the script
stops with an error. -/
def iterate (p : Plotter α) (dataIn : List Char) : Option (Plotter α) :=
  if dataIn = [] then none
  else
    (storeFields p.readR 1 p.dataList (splitPair ',' ' ' dataIn)).map fun dataList =>
      ⟨some dataList, p.readR + 1⟩

/-- The states after the iterations the script completes. -/
def iterations (p : Plotter α) : List (List Char) → List (Plotter α)
  | [] => []
  | dataIn :: lines =>
      match iterate p dataIn with
      | none => []
      | some p' => p' :: iterations p' lines

/-- The script on a stream: skip to the first carriage return, then read lines. -/
def plotter (stream : List Char) : List (Plotter α) :=
  iterations ⟨none, 1⟩ (records '\r' [] (afterFirst '\r' stream))

/-- The script on numbers in plain decimals. -/
def rfDBPlotter (stream : List Char) : List (Plotter ℚ) := plotter stream

/-! ### What a line stores -/

/-- The value kept of a number. -/
def marked (x : α) : Option α := if x = Octave.noiseFloor then none else some x

theorem storeField_none {readR channelPosition : ℕ} {dataList : Option (DataList α)}
    {field : List Char} (text : (Octave.str2double field : Option α) = none) :
    storeField readR channelPosition dataList field = dataList := by
  rw [storeField, text]

theorem storeField_some {readR channelPosition : ℕ} {dataList : Option (DataList α)}
    {field : List Char} {x : α} (number : Octave.str2double field = some x) :
    storeField readR channelPosition dataList field =
      some (assign dataList channelPosition readR (marked x)) := by
  have kept : (assign dataList channelPosition readR (some x)).cell channelPosition readR =
      some x := if_pos ⟨rfl, rfl⟩
  simp only [storeField, number, kept, Option.some.injEq, marked]
  split
  · rw [assign_assign]
  · rfl

/-- Storing the fields of a line, as numbers. -/
def storeValues (readR : ℕ) : ℕ → Option (DataList α) → List (Option α) → Option (DataList α)
  | _, dataList, [] => dataList
  | channelPosition, dataList, none :: values =>
      storeValues readR (channelPosition + 1) dataList values
  | channelPosition, dataList, some x :: values =>
      storeValues readR (channelPosition + 1)
        (some (assign dataList channelPosition readR (marked x))) values

theorem storeFields_eq (readR channelPosition : ℕ) (dataList : Option (DataList α))
    (fields : List (List Char)) :
    storeFields readR channelPosition dataList fields =
      storeValues readR channelPosition dataList (fields.map Octave.str2double) := by
  induction fields generalizing channelPosition dataList with
  | nil => rfl
  | cons field fields ih =>
      rw [storeFields, ih, List.map_cons]
      cases value : (Octave.str2double field : Option α) with
      | none => rw [storeField_none value, storeValues]
      | some x => rw [storeField_some value, storeValues]

/-- A line without a number stores nothing. -/
theorem storeValues_none {readR : ℕ} {values : List (Option α)} (text : ∀ v ∈ values, v = none)
    (channelPosition : ℕ) (dataList : Option (DataList α)) :
    storeValues readR channelPosition dataList values = dataList := by
  induction values generalizing channelPosition with
  | nil => rfl
  | cons v values ih =>
      obtain rfl := text v List.mem_cons_self
      rw [storeValues]
      exact ih (fun v hv => text v (List.mem_cons_of_mem _ hv)) _

/-! ### Iterations -/

/-- The state after reading lines, if the script has not stopped. -/
def after (p : Plotter α) (lines : List (List Char)) : Option (Plotter α) :=
  lines.foldlM iterate p

theorem after_append (p : Plotter α) (lines more : List (List Char)) :
    after p (lines ++ more) = (after p lines).bind (after · more) :=
  List.foldlM_append

theorem after_concat (p : Plotter α) (lines : List (List Char)) (dataIn : List Char) :
    after p (lines ++ [dataIn]) = (after p lines).bind (iterate · dataIn) := by
  rw [after_append]
  congr 1
  funext p'
  rw [after, List.foldlM_cons]
  cases iterate p' dataIn <;> rfl

/-- The state after the `n`-th iteration is the one after the first `n` lines. -/
theorem iterations_getElem? (p : Plotter α) (lines : List (List Char)) (n : ℕ) :
    (iterations p lines)[n]? = if n < lines.length then after p (lines.take (n + 1)) else none := by
  induction lines generalizing p n with
  | nil => rfl
  | cons dataIn lines ih =>
      rw [iterations, List.take_succ_cons, after, List.foldlM_cons]
      cases iterate p dataIn with
      | none => simp
      | some p' =>
          cases n with
          | zero => simp
          | succ n =>
              rw [List.getElem?_cons_succ, ih]
              simp only [List.length_cons, Nat.add_lt_add_iff_right]
              rfl

end Script

end RFPowerDetector.Host
