/-
Rounding of rationals: to an integer, and to a binary significand of `p` bits.

`roundTiesEven` is the nearest integer, ties to even. `toPrecision p` rounds to
the nearest rational with a `p`-bit significand: it scales the argument into
`[2 ^ (p - 1), 2 ^ p)`, rounds to an integer and scales back. The exponent is
unbounded, so this is a binary floating-point format away from its overflow and
underflow ranges. `roundAway` is the nearest integer, halves away from zero.

A nearest-integer map is monotone however it breaks ties (`monotone_of_nearest`),
and from it so is `toPrecision` (`toPrecision_monotone`).
-/

import Mathlib.Data.Int.ConditionallyCompleteOrder
import Mathlib.Data.Int.Log
import Mathlib.Algebra.Order.Round
import Mathlib.Order.Monotone.Odd
import Mathlib.Algebra.Order.Field.Power
import Mathlib.Algebra.Order.Field.Rat
import Mathlib.Data.Rat.Floor
import Mathlib.Tactic.Linarith
import Mathlib.Tactic.Positivity
import Mathlib.Tactic.FieldSimp
import Mathlib.Tactic.Ring

namespace Rounding

/-! ### Nearest-integer maps -/

section Nearest

variable {f : ℚ → ℤ}

/-- A nearest-integer map never inverts an order, whatever it does with ties. -/
theorem monotone_of_nearest (nearest : ∀ x, |(f x : ℚ) - x| ≤ 1 / 2) : Monotone f := by
  intro x y le
  by_contra inverted
  have step : (f y : ℚ) + 1 ≤ f x := by exact_mod_cast Int.add_one_le_iff.mpr (not_le.mp inverted)
  have above := (abs_le.mp (nearest x)).2
  have below := (abs_le.mp (nearest y)).1
  have tie : x = y := by linarith
  subst tie
  exact inverted le_rfl

/-- A nearest-integer map fixes the integers. -/
theorem intCast_of_nearest (nearest : ∀ x, |(f x : ℚ) - x| ≤ 1 / 2) (n : ℤ) : f n = n := by
  have close : |((f n - n : ℤ) : ℚ)| < 1 := by
    push_cast
    exact (nearest n).trans_lt (by norm_num)
  have none : |f n - n| < 1 := by exact_mod_cast close
  exact sub_eq_zero.mp (Int.abs_lt_one_iff.mp none)

end Nearest

/-! ### To a binary precision -/

/-- The nearest integer, ties to even. -/
def roundTiesEven (x : ℚ) : ℤ :=
  if x - ⌊x⌋ < 1 / 2 then ⌊x⌋
  else if 1 / 2 < x - ⌊x⌋ then ⌊x⌋ + 1
  else if ⌊x⌋ % 2 = 0 then ⌊x⌋ else ⌊x⌋ + 1

theorem abs_roundTiesEven_sub_le (x : ℚ) : |(roundTiesEven x : ℚ) - x| ≤ 1 / 2 := by
  have lower := Int.floor_le x
  have upper := Int.lt_floor_add_one x
  unfold roundTiesEven
  split_ifs <;> push_cast <;> rw [abs_le] <;> constructor <;> linarith

@[simp] theorem roundTiesEven_intCast (n : ℤ) : roundTiesEven n = n := by
  simp [roundTiesEven]

/-- The exponent of the last significand bit of `x` at precision `p`. -/
def lastBit (p : ℕ) (x : ℚ) : ℤ := Int.log 2 |x| + 1 - p

/-- `x` rounded to the nearest rational with a `p`-bit significand. -/
def toPrecision (p : ℕ) (x : ℚ) : ℚ :=
  if x = 0 then 0 else roundTiesEven (x / 2 ^ lastBit p x) * 2 ^ lastBit p x

@[simp] theorem toPrecision_zero (p : ℕ) : toPrecision p 0 = 0 := by
  simp [toPrecision]

/-- One unit in the last place is at most `2 ^ (1 - p)` of the argument. -/
theorem two_zpow_lastBit_le {p : ℕ} {x : ℚ} (hx : x ≠ 0) :
    (2 : ℚ) ^ lastBit p x ≤ |x| * 2 / 2 ^ p := by
  have base : ((2 : ℕ) : ℚ) ^ Int.log 2 |x| ≤ |x| :=
    Int.zpow_log_le_self (by norm_num) (abs_pos.mpr hx)
  have split : (2 : ℚ) ^ lastBit p x = 2 ^ Int.log 2 |x| * 2 / 2 ^ p := by
    rw [lastBit, zpow_sub₀ two_ne_zero, zpow_add₀ two_ne_zero, zpow_one, zpow_natCast]
  rw [split]
  push_cast at base
  gcongr

/-- **The relative error of one rounding** is at most half a unit in the last
place. -/
theorem abs_toPrecision_sub_le (p : ℕ) (x : ℚ) : |toPrecision p x - x| ≤ |x| / 2 ^ p := by
  by_cases hx : x = 0
  · simp [hx]
  have ulp : (0 : ℚ) < 2 ^ lastBit p x := by positivity
  have scaled : toPrecision p x - x =
      (roundTiesEven (x / 2 ^ lastBit p x) - x / 2 ^ lastBit p x) * 2 ^ lastBit p x := by
    rw [toPrecision, if_neg hx, sub_mul, div_mul_cancel₀ _ ulp.ne']
  calc |toPrecision p x - x|
      = |roundTiesEven (x / 2 ^ lastBit p x) - x / 2 ^ lastBit p x| * 2 ^ lastBit p x := by
        rw [scaled, abs_mul, abs_of_pos ulp]
    _ ≤ 1 / 2 * (|x| * 2 / 2 ^ p) := by
        gcongr
        · exact abs_roundTiesEven_sub_le _
        · exact two_zpow_lastBit_le hx
    _ = |x| / 2 ^ p := by ring

/-- An integer of at most `p` bits is exact at precision `p`. -/
theorem toPrecision_intCast {p : ℕ} {n : ℤ} (hn : |n| < 2 ^ p) : toPrecision p n = n := by
  by_cases h0 : n = 0
  · simp [h0]
  have hn' : |(n : ℚ)| < (2 : ℕ) ^ (p : ℤ) := by
    rw [zpow_natCast]; exact_mod_cast hn
  have small : Int.log 2 |(n : ℚ)| < p :=
    (Int.lt_zpow_iff_log_lt (by norm_num) (by positivity)).mp hn'
  obtain ⟨k, hk⟩ : ∃ k : ℕ, lastBit p n = -k :=
    ⟨(-lastBit p n).toNat, by unfold lastBit; omega⟩
  have whole : (n : ℚ) / 2 ^ lastBit p (n : ℚ) = ((n * 2 ^ k : ℤ) : ℚ) := by
    rw [hk, zpow_neg, zpow_natCast]; push_cast; field_simp
  rw [toPrecision, if_neg (by exact_mod_cast h0), whole, roundTiesEven_intCast, hk, zpow_neg,
    zpow_natCast]
  push_cast
  field_simp

/-! ### Order -/

theorem roundTiesEven_monotone : Monotone roundTiesEven :=
  monotone_of_nearest abs_roundTiesEven_sub_le

theorem roundTiesEven_neg (x : ℚ) : roundTiesEven (-x) = -roundTiesEven x := by
  have lower := Int.floor_le x
  have upper := Int.lt_floor_add_one x
  by_cases whole : x = ⌊x⌋
  · rw [whole, ← Int.cast_neg, roundTiesEven_intCast, roundTiesEven_intCast]
  have strict : (⌊x⌋ : ℚ) < x := lt_of_le_of_ne lower (Ne.symm whole)
  have floor : ⌊-x⌋ = -⌊x⌋ - 1 := by
    rw [Int.floor_eq_iff]
    push_cast
    constructor <;> linarith
  unfold roundTiesEven
  rw [floor]
  push_cast
  split_ifs <;> first | omega | (exfalso; linarith)

theorem toPrecision_neg (p : ℕ) (x : ℚ) : toPrecision p (-x) = -toPrecision p x := by
  simp only [toPrecision, lastBit, abs_neg, neg_eq_zero, neg_div, roundTiesEven_neg]
  split <;> simp

/-- A positive number is rounded inside its binade. -/
theorem toPrecision_mem_binade {p : ℕ} (bits : 1 ≤ p) {x : ℚ} (hx : 0 < x) :
    2 ^ Int.log 2 x ≤ toPrecision p x ∧ toPrecision p x ≤ 2 ^ (Int.log 2 x + 1) := by
  have ulp : (0 : ℚ) < 2 ^ lastBit p x := by positivity
  have magnitude : |x| = x := abs_of_pos hx
  have lower : ((2 : ℕ) : ℚ) ^ Int.log 2 x ≤ x := Int.zpow_log_le_self (by norm_num) hx
  have upper : x < ((2 : ℕ) : ℚ) ^ (Int.log 2 x + 1) := Int.lt_zpow_succ_log_self (by norm_num) x
  have bottom : (2 : ℚ) ^ Int.log 2 x = ((2 ^ (p - 1) : ℕ) : ℤ) * 2 ^ lastBit p x := by
    push_cast
    rw [lastBit, magnitude, ← zpow_natCast, ← zpow_add₀ two_ne_zero]
    congr 1
    omega
  have top : (2 : ℚ) ^ (Int.log 2 x + 1) = ((2 ^ p : ℕ) : ℤ) * 2 ^ lastBit p x := by
    push_cast
    rw [lastBit, magnitude, ← zpow_natCast, ← zpow_add₀ two_ne_zero]
    congr 1
    omega
  push_cast at lower upper
  rw [toPrecision, if_neg hx.ne', bottom, top]
  constructor
  · gcongr
    rw [← roundTiesEven_intCast ((2 ^ (p - 1) : ℕ) : ℤ)]
    apply roundTiesEven_monotone
    rw [le_div_iff₀ ulp, ← bottom]
    exact lower
  · gcongr
    rw [← roundTiesEven_intCast ((2 ^ p : ℕ) : ℤ)]
    apply roundTiesEven_monotone
    rw [div_le_iff₀ ulp, ← top]
    exact upper.le

/-- **Rounding to a binary precision never inverts an order.** -/
theorem toPrecision_monotone {p : ℕ} (bits : 1 ≤ p) : Monotone (toPrecision p) := by
  refine monotone_of_odd_of_monotoneOn_nonneg (toPrecision_neg p) ?_
  intro x hx y hy le
  rcases (Set.mem_Ici.mp hx).eq_or_lt with zero | positive
  · subst zero
    rw [toPrecision_zero]
    rcases (Set.mem_Ici.mp hy).eq_or_lt with zero | positive
    · rw [← zero, toPrecision_zero]
    · have power : (0 : ℚ) ≤ 2 ^ Int.log 2 y := by positivity
      exact power.trans (toPrecision_mem_binade bits positive).1
  have positive' := positive.trans_le le
  have logs : Int.log 2 x ≤ Int.log 2 y := Int.log_mono_right positive le
  rcases logs.eq_or_lt with same | next
  · have ulp : lastBit p x = lastBit p y := by
      rw [lastBit, lastBit, abs_of_pos positive, abs_of_pos positive', same]
    rw [toPrecision, toPrecision, if_neg positive.ne', if_neg positive'.ne', ulp]
    gcongr
    apply roundTiesEven_monotone
    gcongr
  · calc toPrecision p x ≤ 2 ^ (Int.log 2 x + 1) := (toPrecision_mem_binade bits positive).2
      _ ≤ 2 ^ Int.log 2 y := zpow_le_zpow_right₀ (by norm_num) next
      _ ≤ toPrecision p y := (toPrecision_mem_binade bits positive').1

section Truncation

variable {f : ℚ → ℚ} {x : ℚ}

/-- Truncating after a monotone map that fixes the integers around its argument
yields one of the two. -/
theorem floor_mem_of_monotone (mono : Monotone f) (below : f ⌊x⌋ = ⌊x⌋) (above : f ⌈x⌉ = ⌈x⌉) :
    ⌊x⌋ ≤ ⌊f x⌋ ∧ ⌊f x⌋ ≤ ⌈x⌉ := by
  constructor
  · rw [Int.le_floor, ← below]
    exact mono (Int.floor_le x)
  · have upper := (mono (Int.le_ceil x)).trans_eq above
    exact_mod_cast (Int.floor_le (f x)).trans upper

/-- Such a truncation is off by less than one. -/
theorem abs_floor_sub_lt_of_monotone (mono : Monotone f) (below : f ⌊x⌋ = ⌊x⌋)
    (above : f ⌈x⌉ = ⌈x⌉) : |(⌊f x⌋ : ℚ) - x| < 1 := by
  obtain ⟨lower, upper⟩ := floor_mem_of_monotone mono below above
  have lower' : (⌊x⌋ : ℚ) ≤ ⌊f x⌋ := by exact_mod_cast lower
  have upper' : (⌊f x⌋ : ℚ) ≤ ⌈x⌉ := by exact_mod_cast upper
  have floor := Int.lt_floor_add_one x
  have ceil := Int.ceil_lt_add_one x
  rw [abs_lt]
  constructor <;> linarith

end Truncation

/-! ### Relative errors -/

/-- `y` is `x` up to a relative error of `δ`. -/
def Near (δ y x : ℚ) : Prop := |y - x| ≤ δ * |x|

theorem Near.refl (x : ℚ) : Near 0 x x := by
  simp [Near]

theorem Near.mono {δ ε y x : ℚ} (near : Near δ y x) (le : δ ≤ ε) : Near ε y x :=
  le_trans near (mul_le_mul_of_nonneg_right le (abs_nonneg x))

theorem Near.abs_le_mul {δ y x : ℚ} (near : Near δ y x) : |y| ≤ (1 + δ) * |x| := by
  have triangle := abs_sub_abs_le_abs_sub y x
  unfold Near at near
  linarith

theorem Near.mul_const {δ y x : ℚ} (near : Near δ y x) (c : ℚ) : Near δ (y * c) (x * c) := by
  unfold Near at near ⊢
  rw [← sub_mul, abs_mul, abs_mul, ← mul_assoc]
  exact mul_le_mul_of_nonneg_right near (abs_nonneg c)

/-- Rounding adds its own relative error. -/
theorem Near.toPrecision {δ y x : ℚ} (near : Near δ y x) (p : ℕ) :
    Near (δ + (1 + δ) / 2 ^ p) (toPrecision p y) x := by
  have own := abs_toPrecision_sub_le p y
  have size : |y| / 2 ^ p ≤ (1 + δ) * |x| / 2 ^ p := by
    gcongr
    exact near.abs_le_mul
  calc |Rounding.toPrecision p y - x|
      ≤ |Rounding.toPrecision p y - y| + |y - x| := abs_sub_le _ _ _
    _ ≤ (1 + δ) * |x| / 2 ^ p + δ * |x| := add_le_add (own.trans size) near
    _ = (δ + (1 + δ) / 2 ^ p) * |x| := by ring

/-- A quotient whose divisor is off by at most a half of itself. -/
theorem Near.div {δ ε y x s t : ℚ} (near : Near δ y x) (divisor : Near ε s t) (positive : 0 < t)
    (small : ε ≤ 1 / 2) : Near (δ + 2 * (1 + δ) * ε) (y / s) (x / t) := by
  unfold Near at divisor
  rw [abs_of_pos positive] at divisor
  obtain ⟨lower, upper⟩ := abs_le.mp divisor
  have half : ε * t ≤ 1 / 2 * t := mul_le_mul_of_nonneg_right small positive.le
  have s_pos : 0 < s := by linarith
  have nonneg : 0 ≤ ε := nonneg_of_mul_nonneg_left ((abs_nonneg _).trans divisor) positive
  have swap : y / s - y / t = y / t * ((t - s) / s) := by
    field_simp
  have ratio : |(t - s) / s| ≤ 2 * ε := by
    rw [abs_div, abs_of_pos s_pos, div_le_iff₀ s_pos, abs_sub_comm]
    nlinarith
  have first : |y / s - y / t| ≤ (1 + δ) * |x| / t * (2 * ε) := by
    have size : |y| / t ≤ (1 + δ) * |x| / t := by
      gcongr
      exact near.abs_le_mul
    have size_nonneg : 0 ≤ |y| / t := by positivity
    rw [swap, abs_mul, abs_div, abs_of_pos positive]
    exact mul_le_mul size ratio (abs_nonneg _) (size_nonneg.trans size)
  have second : |y / t - x / t| ≤ δ * |x| / t := by
    rw [← sub_div, abs_div, abs_of_pos positive]
    gcongr
    exact near
  calc |y / s - x / t|
      ≤ |y / s - y / t| + |y / t - x / t| := abs_sub_le _ _ _
    _ ≤ (1 + δ) * |x| / t * (2 * ε) + δ * |x| / t := add_le_add first second
    _ = (δ + 2 * (1 + δ) * ε) * |x / t| := by
        rw [abs_div, abs_of_pos positive]
        ring

/-! ### Halves away from zero -/

/-- The nearest natural number to a nonnegative rational, halves up. -/
def roundHalfUp (x : ℚ) : ℕ := ⌊x + 1 / 2⌋₊

theorem abs_roundHalfUp_sub_le {x : ℚ} (hx : 0 ≤ x) : |(roundHalfUp x : ℚ) - x| ≤ 1 / 2 := by
  have lower := Nat.floor_le (a := x + 1 / 2) (by linarith)
  have upper := Nat.lt_floor_add_one (x + 1 / 2)
  rw [roundHalfUp, abs_le]
  constructor <;> linarith

/-- The nearest integer, halves away from zero. -/
def roundAway (x : ℚ) : ℤ := if x < 0 then -(roundHalfUp (-x) : ℤ) else roundHalfUp x

theorem abs_roundAway_sub_le (x : ℚ) : |(roundAway x : ℚ) - x| ≤ 1 / 2 := by
  unfold roundAway
  split_ifs with h
  · have := abs_roundHalfUp_sub_le (x := -x) (by linarith)
    push_cast
    rwa [← abs_neg, neg_sub, sub_neg_eq_add, add_comm, ← sub_neg_eq_add]
  · exact abs_roundHalfUp_sub_le (not_lt.mp h)

/-- Rounding to a multiple of `1 / s`. -/
theorem abs_roundAway_mul_div_sub_le {s : ℚ} (hs : 0 < s) (x : ℚ) :
    |(roundAway (x * s) : ℚ) / s - x| ≤ 1 / 2 / s := by
  have rounded := abs_roundAway_sub_le (x * s)
  have scaled : (roundAway (x * s) : ℚ) / s - x = ((roundAway (x * s) : ℚ) - x * s) / s := by
    rw [sub_div, mul_div_cancel_right₀ _ hs.ne']
  rw [scaled, abs_div, abs_of_pos hs]
  gcongr

/-- What rounds below a positive integer. -/
theorem roundAway_lt_iff {n : ℕ} (hn : 0 < n) {x : ℚ} :
    roundAway x < n ↔ x < n - 1 / 2 := by
  have one : (1 : ℚ) ≤ n := by exact_mod_cast hn
  unfold roundAway
  split_ifs with negative
  · refine iff_of_true ?_ (by linarith)
    omega
  · have nonneg : 0 ≤ x + 1 / 2 := by linarith
    rw [roundHalfUp, Int.ofNat_lt, Nat.floor_lt nonneg]
    constructor <;> intro below <;> linarith

theorem roundAway_monotone : Monotone roundAway := monotone_of_nearest abs_roundAway_sub_le

@[simp] theorem roundAway_intCast (n : ℤ) : roundAway n = n :=
  intCast_of_nearest abs_roundAway_sub_le n

end Rounding
