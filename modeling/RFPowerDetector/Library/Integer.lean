/-
Integers of a fixed width, as C++ computes with them.

`IntType` is a width and a signedness, `t.Value` an integer of its range. A conversion
keeps an integer modulo `2 ^ width` (`convert_modEq`) and depends on nothing else
(`convert_congr`). An operation is computed in the promoted type, which is `int` for the
narrower ones; there an unsigned type reduces the result, and a signed type that cannot
hold it leaves it undefined (`compute`).

A sum accumulated in a variable is reduced, or undefined, at every step. If it is defined
at all, it is the exact sum, converted once (`foldlM_eq_convert`).
-/

import Mathlib.Algebra.BigOperators.Group.List.Basic
import Mathlib.Algebra.Order.Ring.Int
import Mathlib.Data.Int.ModEq
import Mathlib.Tactic.Linarith

namespace CInteger

/-- An integer type. -/
structure IntType where
  width : ℕ
  signed : Bool
  positive : 0 < width

namespace IntType

variable (t : IntType)

/-- The least value of the type. -/
def lo : ℤ := if t.signed then -2 ^ (t.width - 1) else 0

/-- One more than the greatest. -/
def hi : ℤ := t.lo + 2 ^ t.width

/-- A value of the type. -/
abbrev Value : Type := {x : ℤ // t.lo ≤ x ∧ x < t.hi}

/-- `int`, to which narrower types are promoted. -/
def int : IntType := ⟨32, true, by decide⟩

def promote : IntType := if t.width < int.width then int else t

/-- A conversion to the type. -/
def convert (x : ℤ) : t.Value :=
  ⟨t.lo + (x - t.lo) % 2 ^ t.width,
    le_add_of_nonneg_right (Int.emod_nonneg _ (by positivity)),
    add_lt_add_of_le_of_lt le_rfl (Int.emod_lt_of_pos _ (by positivity))⟩

/-- The result of an operation of the type; `none` if it is undefined. -/
def compute (x : ℤ) : Option t.Value :=
  if inside : t.lo ≤ x ∧ x < t.hi then some ⟨x, inside⟩
  else if t.signed then none
  else some (t.convert x)

/-- `value += x`, where `x` is of the promoted type. -/
def addAssign (value : t.Value) (x : ℤ) : Option t.Value :=
  (t.promote.compute (value.val + x)).map fun sum => t.convert sum.val

/-- `x / n`, of the promoted type, as a value of the type. -/
def divide (x n : ℤ) : Option t.Value :=
  (t.promote.compute (Int.tdiv x n)).map fun quotient => t.convert quotient.val

theorem lo_le_zero : t.lo ≤ 0 := by
  rw [lo]
  split
  · exact neg_nonpos.mpr (by positivity)
  · exact le_rfl

theorem zero_lt_hi : 0 < t.hi := by
  have half : (2 : ℤ) ^ t.width = 2 * 2 ^ (t.width - 1) := by
    rw [← pow_succ', Nat.sub_add_cancel t.positive]
  have positive : (0 : ℤ) < 2 ^ (t.width - 1) := by positivity
  rw [hi, lo, half]
  split <;> linarith

instance : Zero t.Value := ⟨⟨0, t.lo_le_zero, t.zero_lt_hi⟩⟩

/-! ### Conversions -/

section Conversions

variable {t} {x y : ℤ}

theorem convert_modEq (x : ℤ) : (t.convert x : ℤ) ≡ x [ZMOD 2 ^ t.width] := by
  have shifted : (x - t.lo) % 2 ^ t.width ≡ x - t.lo [ZMOD 2 ^ t.width] := Int.mod_modEq _ _
  have back := shifted.add_left t.lo
  rwa [add_sub_cancel] at back

theorem convert_congr (same : x ≡ y [ZMOD 2 ^ t.width]) : t.convert x = t.convert y :=
  Subtype.ext (congrArg (t.lo + ·) (same.sub_right t.lo))

theorem convert_val (value : t.Value) : t.convert value = value := by
  obtain ⟨x, least, greatest⟩ := value
  refine Subtype.ext ?_
  rw [hi] at greatest
  show t.lo + (x - t.lo) % 2 ^ t.width = x
  rw [Int.emod_eq_of_lt (by linarith) (by linarith)]
  exact add_sub_cancel t.lo x

/-- Adding to a converted value. -/
theorem convert_add (x y : ℤ) : t.convert (t.convert x + y) = t.convert (x + y) :=
  convert_congr ((convert_modEq x).add_right y)

end Conversions

/-! ### Operations -/

section Operations

variable {t} {x : ℤ}

theorem width_le_promote : t.width ≤ t.promote.width := by
  rw [promote]
  split
  case isTrue narrow => exact narrow.le
  case isFalse => exact le_rfl

/-- What is defined is right modulo the width. -/
theorem compute_modEq {r : t.Value} (defined : r ∈ t.compute x) :
    (r : ℤ) ≡ x [ZMOD 2 ^ t.width] := by
  rw [compute] at defined
  split at defined
  · cases defined
    rfl
  · split at defined
    · cases defined
    · cases defined
      exact convert_modEq x

/-- A result of the promoted type is right modulo the width of the type itself. -/
theorem promote_modEq {r : t.promote.Value} (defined : r ∈ t.promote.compute x) :
    (r : ℤ) ≡ x [ZMOD 2 ^ t.width] :=
  (compute_modEq defined).of_dvd (pow_dvd_pow 2 width_le_promote)

theorem addAssign_eq {value r : t.Value} (defined : r ∈ t.addAssign value x) :
    r = t.convert (value + x) := by
  obtain ⟨sum, computed, rfl⟩ := Option.map_eq_some_iff.mp defined
  exact convert_congr (promote_modEq computed)

/-- **A loop of additions**, each to a variable of the type: where it is defined, it ends
with the exact sum, converted. -/
theorem foldlM_eq_convert {β : Type} {step : t.Value → β → Option t.Value} {f : β → ℤ}
    (each : ∀ value x r, r ∈ step value x → r = t.convert (value + f x)) {xs : List β}
    {value r : t.Value} (defined : r ∈ xs.foldlM step value) :
    r = t.convert (value + (xs.map f).sum) := by
  induction xs generalizing value with
  | nil =>
      cases defined
      rw [List.map_nil, List.sum_nil, add_zero, convert_val]
  | cons x xs ih =>
      rw [List.foldlM_cons] at defined
      obtain ⟨next, first, rest⟩ := Option.bind_eq_some_iff.mp defined
      rw [ih rest, each _ _ _ first, convert_add, List.map_cons, List.sum_cons, add_assoc]

/-! ### Overflow -/

/-- Adding two values of the type is always defined: they are narrower than `int`, or the
promoted type is unsigned. -/
def AddsDefined (t : IntType) : Prop := t.width ≤ 16 ∨ 32 ≤ t.width ∧ t.signed = false

instance (t : IntType) : Decidable t.AddsDefined := inferInstanceAs (Decidable (_ ∨ _))

theorem compute_isSome_of_unsigned (unsigned : t.signed = false) : (t.compute x).isSome := by
  rw [compute]
  split
  · rfl
  · rw [unsigned]
    rfl

theorem compute_isSome_of_inside (inside : t.lo ≤ x ∧ x < t.hi) : (t.compute x).isSome := by
  rw [compute, dif_pos inside]
  rfl

theorem promote_isSome (adds : t.AddsDefined) (value other : t.Value) :
    (t.promote.compute (value.val + other.val)).isSome := by
  rcases adds with narrow | ⟨wide, unsigned⟩
  · have promoted : t.promote = int := if_pos (narrow.trans_lt (by decide))
    have width : (2 : ℤ) ^ t.width ≤ 2 ^ 16 := pow_le_pow_right₀ (by norm_num) narrow
    have half : (2 : ℤ) ^ (t.width - 1) ≤ 2 ^ 15 := pow_le_pow_right₀ (by norm_num) (by omega)
    have least : -2 ^ 15 ≤ t.lo := by
      rw [lo]
      split <;> linarith
    have greatest : t.hi ≤ 2 ^ 16 := by
      have := t.lo_le_zero
      rw [hi]
      linarith
    obtain ⟨x, above, below⟩ := value
    obtain ⟨y, above', below'⟩ := other
    have intLo : int.lo = -2 ^ 31 := rfl
    have intHi : int.hi = 2 ^ 31 := rfl
    rw [promoted]
    refine compute_isSome_of_inside ⟨?_, ?_⟩
    · rw [intLo]
      show _ ≤ x + y
      linarith
    · rw [intHi]
      show x + y < _
      linarith
  · have promoted : t.promote = t := if_neg (not_lt.mpr wide)
    rw [promoted]
    exact compute_isSome_of_unsigned unsigned

theorem foldlM_addAssign_isSome (adds : t.AddsDefined) (xs : List t.Value) (value : t.Value) :
    (xs.foldlM (fun value x : t.Value => t.addAssign value x.val) value).isSome := by
  induction xs generalizing value with
  | nil => rfl
  | cons x xs ih =>
      obtain ⟨sum, computed⟩ := Option.isSome_iff_exists.mp (promote_isSome adds value x)
      rw [List.foldlM_cons, addAssign, computed]
      exact ih _

end Operations

end IntType

end CInteger
