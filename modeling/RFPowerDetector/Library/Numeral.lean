/-
Decimal numerals as lists of characters: printing a rational with a fixed number
of decimals, and reading a numeral back.

`fixedPoint d x` prints `x` rounded to `d` decimals, halves away from zero, with
a minus sign for a negative `x` (so a small negative number prints as `-0.00`).
`parse` reads an optional sign, digits and an optional fraction, and rejects
every other text. `parse_fixedPoint` is the round trip, `parse_eq_none_of_mem`
the rejection of a text with a foreign character.
-/

import Mathlib.Data.List.TakeWhile
import Mathlib.Tactic.IntervalCases
import RFPowerDetector.Library.Rounding

namespace Numeral

open Rounding

/-- The last `d` decimal digits of `m`, leading zeros included. -/
def padded : ℕ → ℕ → List Char
  | 0, _ => []
  | d + 1, m => padded d (m / 10) ++ [(m % 10).digitChar]

/-- `x` with `d` decimals: sign, integer part, point, fraction. -/
def fixedPoint (d : ℕ) (x : ℚ) : List Char :=
  let n := roundHalfUp (|x| * 10 ^ d)
  (if x < 0 then ['-'] else []) ++
    (Nat.toDigits 10 (n / 10 ^ d) ++ '.' :: padded d (n % 10 ^ d))

/-- Digits, then optionally a point and digits; at least one digit in all. -/
def parseUnsigned (t : List Char) : Option ℚ :=
  match t.dropWhile Char.isDigit with
  | [] => if t = [] then none else some (Nat.ofDigitChars 10 t 0 : ℚ)
  | '.' :: fraction =>
      if fraction.all Char.isDigit ∧ (t.takeWhile Char.isDigit ≠ [] ∨ fraction ≠ []) then
        some ((Nat.ofDigitChars 10 (t.takeWhile Char.isDigit) 0 : ℚ) +
          (Nat.ofDigitChars 10 fraction 0 : ℚ) / 10 ^ fraction.length)
      else none
  | _ => none

/-- An optional sign and an unsigned numeral. -/
def parse : List Char → Option ℚ
  | '-' :: t => (parseUnsigned t).map fun x => -x
  | '+' :: t => parseUnsigned t
  | t => parseUnsigned t

/-- Remove the leading and trailing characters that satisfy `p`. -/
def trim (p : Char → Bool) (t : List Char) : List Char :=
  ((t.dropWhile p).reverse.dropWhile p).reverse

/-! ### Digits -/

theorem isDigit_of_mem_toDigits {n : ℕ} {c : Char} (hc : c ∈ Nat.toDigits 10 n) :
    c.isDigit = true :=
  Nat.isDigit_of_mem_toDigits (by decide) (by decide) hc

theorem isDigit_digitChar {k : ℕ} (hk : k < 10) : k.digitChar.isDigit = true := by
  interval_cases k <;> rfl

theorem isDigit_of_mem_padded {d m : ℕ} {c : Char} (hc : c ∈ padded d m) :
    c.isDigit = true := by
  induction d generalizing m with
  | zero => simp [padded] at hc
  | succ d ih =>
      rcases List.mem_append.mp hc with hc | hc
      · exact ih hc
      · rw [List.mem_singleton.mp hc]
        exact isDigit_digitChar (Nat.mod_lt _ (by decide))

@[simp] theorem length_padded (d m : ℕ) : (padded d m).length = d := by
  induction d generalizing m with
  | zero => rfl
  | succ d ih => simp [padded, ih]

/-- Padded digits denote the number they print. -/
theorem ofDigitChars_padded {d m : ℕ} (hm : m < 10 ^ d) :
    Nat.ofDigitChars 10 (padded d m) 0 = m := by
  induction d generalizing m with
  | zero => simp_all [padded]
  | succ d ih =>
      have quotient : m / 10 < 10 ^ d := by
        rw [pow_succ] at hm; omega
      rw [padded, Nat.ofDigitChars_append, ih quotient,
        Nat.ofDigitChars_cons_digitChar_of_lt_ten (Nat.mod_lt _ (by decide)),
        Nat.ofDigitChars_nil]
      omega

/-! ### Round trip -/

/-- Splitting a numeral at its point. -/
theorem parseUnsigned_point {whole fraction : List Char}
    (hw : ∀ c ∈ whole, c.isDigit = true) (hf : ∀ c ∈ fraction, c.isDigit = true)
    (hne : whole ≠ []) :
    parseUnsigned (whole ++ '.' :: fraction) =
      some ((Nat.ofDigitChars 10 whole 0 : ℚ) +
        (Nat.ofDigitChars 10 fraction 0 : ℚ) / 10 ^ fraction.length) := by
  have point : ('.' : Char).isDigit = false := rfl
  have taken : (whole ++ '.' :: fraction).takeWhile Char.isDigit = whole := by
    rw [List.takeWhile_append_of_pos hw]; simp [point]
  have dropped : (whole ++ '.' :: fraction).dropWhile Char.isDigit = '.' :: fraction := by
    rw [List.dropWhile_append_of_pos hw]; simp [point]
  have digits : fraction.all Char.isDigit = true := List.all_eq_true.mpr hf
  simp only [parseUnsigned, dropped, taken]
  rw [if_pos ⟨digits, Or.inl hne⟩]

/-- Without a sign in front, a numeral is an unsigned one. -/
theorem parse_of_isDigit {t : List Char} (ht : ∀ c, t.head? = some c → c.isDigit = true) :
    parse t = parseUnsigned t := by
  unfold parse
  split
  · exact absurd (ht '-' rfl) (by decide)
  · exact absurd (ht '+' rfl) (by decide)
  · rfl

/-- The digits of a natural number read back as the number. -/
theorem parse_toDigits (n : ℕ) : parse (Nat.toDigits 10 n) = some (n : ℚ) := by
  have digits : ∀ c ∈ Nat.toDigits 10 n, c.isDigit = true := fun c => isDigit_of_mem_toDigits
  have dropped : (Nat.toDigits 10 n).dropWhile Char.isDigit = [] :=
    List.dropWhile_eq_nil_iff.mpr digits
  rw [parse_of_isDigit fun c hc => digits c (List.mem_of_mem_head? hc), parseUnsigned, dropped]
  simp only [Nat.toDigits_ne_nil, if_false, Nat.ofDigitChars_ten_toDigits]

/-- Printing to `d` decimals and reading back yields the rounded number. -/
theorem parse_fixedPoint (d : ℕ) (x : ℚ) :
    parse (fixedPoint d x) = some ((roundAway (x * 10 ^ d) : ℚ) / 10 ^ d) := by
  have scale : (0 : ℚ) < 10 ^ d := by positivity
  have magnitude (n : ℕ) :
      parseUnsigned (Nat.toDigits 10 (n / 10 ^ d) ++ '.' :: padded d (n % 10 ^ d)) =
        some ((n : ℚ) / 10 ^ d) := by
    rw [parseUnsigned_point (fun c => isDigit_of_mem_toDigits) (fun c => isDigit_of_mem_padded)
      Nat.toDigits_ne_nil, Nat.ofDigitChars_ten_toDigits,
      ofDigitChars_padded (Nat.mod_lt _ (by positivity)), length_padded]
    have split : (n : ℚ) = 10 ^ d * ((n / 10 ^ d : ℕ) : ℚ) + ((n % 10 ^ d : ℕ) : ℚ) := by
      exact_mod_cast (Nat.div_add_mod n (10 ^ d)).symm
    congr 1
    rw [split, add_div, mul_div_cancel_left₀ _ scale.ne']
  by_cases hx : x < 0
  · have negative : x * 10 ^ d < 0 := mul_neg_of_neg_of_pos hx scale
    simp only [fixedPoint, if_pos hx, List.singleton_append, parse, magnitude, roundAway,
      if_pos negative, abs_of_neg hx, Option.map_some]
    push_cast
    rw [neg_mul, neg_div]
  · have positive : ¬ x * 10 ^ d < 0 := not_lt.mpr (mul_nonneg (not_lt.mp hx) scale.le)
    simp only [fixedPoint, if_neg hx, List.nil_append, roundAway, if_neg positive,
      abs_of_nonneg (not_lt.mp hx)]
    rw [parse_of_isDigit, magnitude]
    · push_cast; rfl
    · intro c hc
      obtain ⟨e, ds, he⟩ := List.exists_cons_of_ne_nil
        (Nat.toDigits_ne_nil (n := roundHalfUp (x * 10 ^ d) / 10 ^ d) (b := 10))
      rw [he] at hc
      have head : e = c := by simpa using hc
      subst head
      exact isDigit_of_mem_toDigits (by rw [he]; exact List.mem_cons_self)

/-! ### Rejection -/

/-- The characters a numeral may contain. -/
def isNumeralChar (c : Char) : Bool := c.isDigit || c == '.' || c == '-' || c == '+'

theorem parseUnsigned_eq_none_of_mem {t : List Char} {c : Char} (hc : c ∈ t)
    (digit : c.isDigit = false) (point : c ≠ '.') : parseUnsigned t = none := by
  have kept : c ∈ t.dropWhile Char.isDigit := by
    rw [← List.takeWhile_append_dropWhile (p := Char.isDigit) (l := t)] at hc
    rcases List.mem_append.mp hc with hc | hc
    · exact absurd (List.mem_takeWhile_imp hc) (by simp [digit])
    · exact hc
  unfold parseUnsigned
  split
  · rename_i empty
    simp [empty] at kept
  · rename_i fraction rest
    rw [rest] at kept
    have inFraction : c ∈ fraction := (List.mem_cons.mp kept).resolve_left point
    rw [if_neg]
    rintro ⟨all, -⟩
    exact absurd (List.all_eq_true.mp all c inFraction) (by simp [digit])
  · rfl

/-- A text with a character foreign to numerals is not a number. -/
theorem parse_eq_none_of_mem {t : List Char} {c : Char} (hc : c ∈ t)
    (foreign : isNumeralChar c = false) : parse t = none := by
  simp only [isNumeralChar, Bool.or_eq_false_iff, beq_eq_false_iff_ne] at foreign
  obtain ⟨⟨⟨digit, point⟩, minus⟩, plus⟩ := foreign
  unfold parse
  split
  · rw [parseUnsigned_eq_none_of_mem ((List.mem_cons.mp hc).resolve_left minus) digit point]
    rfl
  · exact parseUnsigned_eq_none_of_mem ((List.mem_cons.mp hc).resolve_left plus) digit point
  · exact parseUnsigned_eq_none_of_mem hc digit point

theorem isNumeralChar_of_mem_fixedPoint {d : ℕ} {x : ℚ} {c : Char} (hc : c ∈ fixedPoint d x) :
    isNumeralChar c = true := by
  simp only [fixedPoint, List.mem_append, List.mem_cons] at hc
  rcases hc with hc | hc | rfl | hc
  · split_ifs at hc
    · rw [List.mem_singleton.mp hc]; rfl
    · simp at hc
  · simp [isNumeralChar, isDigit_of_mem_toDigits hc]
  · rfl
  · simp [isNumeralChar, isDigit_of_mem_padded hc]

/-! ### Trimming -/

section Trim

variable {p : Char → Bool}

/-- Trimming removes exactly the padding around a text free of padding. -/
theorem trim_pad {left right t : List Char} (hl : ∀ c ∈ left, p c = true)
    (hr : ∀ c ∈ right, p c = true) (ht : ∀ c ∈ t, p c = false) :
    trim p (left ++ t ++ right) = t := by
  have keep (u : List Char) (hu : ∀ c ∈ u, p c = false) : u.dropWhile p = u := by
    cases u with
    | nil => rfl
    | cons c u => simp [hu c List.mem_cons_self]
  have all (u : List Char) (hu : ∀ c ∈ u, p c = true) : u.dropWhile p = [] :=
    List.dropWhile_eq_nil_iff.mpr hu
  cases t with
  | nil => simp [trim, List.dropWhile_append_of_pos hl, all right hr]
  | cons c u =>
      have first : (c :: u ++ right).dropWhile p = c :: u ++ right := by
        simp [ht c List.mem_cons_self]
      rw [trim, List.append_assoc, List.dropWhile_append_of_pos hl, first, List.reverse_append,
        List.dropWhile_append_of_pos fun e he => hr e (List.mem_reverse.mp he),
        keep _ fun e he => ht e (List.mem_reverse.mp he), List.reverse_reverse]

/-- A character that is not padding survives trimming. -/
theorem mem_trim {t : List Char} {c : Char} (hc : c ∈ t) (keep : p c = false) : c ∈ trim p t := by
  have survives (u : List Char) (hu : c ∈ u) : c ∈ u.dropWhile p := by
    rw [← List.takeWhile_append_dropWhile (p := p) (l := u)] at hu
    rcases List.mem_append.mp hu with hu | hu
    · exact absurd (List.mem_takeWhile_imp hu) (by simp [keep])
    · exact hu
  exact List.mem_reverse.mpr (survives _ (List.mem_reverse.mpr (survives _ hc)))

end Trim

end Numeral
