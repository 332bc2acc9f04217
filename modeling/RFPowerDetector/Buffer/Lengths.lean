/-
The lengths of the array mode's entries.

Two values of a row hold the length, and `sizeof(T)` of them are joined: what `write`
stores reads back when `T` is a byte or the length is below 256. What `push_front` stores
keeps the upper byte where it was, and reads back below 256 only.
-/

import RFPowerDetector.Buffer.Rows

namespace RFPowerDetector.Buffer

open Circular Memory

variable {w : ℕ}

/-- `T` is `uint8_t`, or wider. -/
def Unsigned (w : ℕ) : Prop := w = 8 ∨ 16 ≤ w

theorem Unsigned.pow_le (unsigned : Unsigned w) : 2 ^ 8 ≤ 2 ^ w :=
  Nat.pow_le_pow_right Nat.two_pos (by rcases unsigned with rfl | wide <;> omega)

/-- The lower byte of a length. -/
theorem lower_toNat (unsigned : Unsigned w) (length : BitVec 16) :
    ((length &&& 0xFF).setWidth w).toNat = length.toNat % 256 := by
  have byte : (0xFF : BitVec 16).toNat = 2 ^ 8 - 1 := rfl
  have small : length.toNat % 2 ^ 8 < 2 ^ 8 := Nat.mod_lt _ (Nat.two_pow_pos 8)
  rw [BitVec.toNat_setWidth, BitVec.toNat_and, byte, Nat.and_two_pow_sub_one_eq_mod]
  exact Nat.mod_eq_of_lt (small.trans_le unsigned.pow_le)

/-- The upper byte, as `write` stores it. -/
theorem upper_toNat (unsigned : Unsigned w) (length : BitVec 16) :
    ((length >>> 8).setWidth w).toNat = length.toNat / 256 := by
  have small : length.toNat / 2 ^ 8 < 2 ^ 8 := Nat.div_lt_of_lt_mul length.isLt
  rw [BitVec.toNat_setWidth, BitVec.toNat_ushiftRight, Nat.shiftRight_eq_div_pow]
  exact Nat.mod_eq_of_lt (small.trans_le unsigned.pow_le)

/-- Only the lower value counts when the upper is shifted out. -/
theorem joined_toNat {upper lower : BitVec w} (wide : 16 ≤ w) :
    (joined upper lower).toNat = lower.toNat % 2 ^ 16 := by
  obtain ⟨k, power⟩ : 2 ^ 16 ∣ 2 ^ w := Nat.pow_dvd_pow 2 wide
  rw [joined, BitVec.toNat_ofNat, ← Nat.shiftLeft_add_eq_or_of_lt lower.isLt,
    Nat.shiftLeft_eq, power, Nat.mul_left_comm, Nat.add_comm, Nat.add_mul_mod_self_left]

theorem joined_byte (upper lower : BitVec 8) :
    (joined upper lower).toNat = upper.toNat * 256 + lower.toNat := by
  have := upper.isLt
  have := lower.isLt
  rw [joined, BitVec.toNat_ofNat, ← Nat.shiftLeft_add_eq_or_of_lt lower.isLt, Nat.shiftLeft_eq]
  omega

/-- A length that `write` stores reads back exactly when it fits the two values. -/
theorem joined_written_iff (unsigned : Unsigned w) (length : BitVec 16) :
    joined ((length >>> 8).setWidth w) ((length &&& 0xFF).setWidth w) = length ↔
      length < 256 ∨ w = 8 := by
  have bound : (256 : BitVec 16).toNat = 256 := rfl
  have lower := lower_toNat unsigned length
  have upper := upper_toNat unsigned length
  rw [← BitVec.toNat_inj, BitVec.lt_def, bound]
  rcases unsigned with rfl | wide
  · rw [joined_byte, upper, lower]
    exact iff_of_true (Nat.div_add_mod' _ _) (.inr rfl)
  · rw [joined_toNat wide, lower]
    omega

/-- One that `push_front` stores reads back exactly when it is a byte. -/
theorem joined_pushed_iff (unsigned : Unsigned w) (length : BitVec 16) :
    joined ((length &&& 0xFF00).setWidth w) ((length &&& 0xFF).setWidth w) = length ↔
      length < 256 := by
  have bound : (256 : BitVec 16).toNat = 256 := rfl
  have lower := lower_toNat unsigned length
  rw [← BitVec.toNat_inj, BitVec.lt_def, bound]
  rcases unsigned with rfl | wide
  · -- the upper byte is cut off with the width
    have low : ∀ i < 8, (0xFF00 : BitVec 16).getLsbD i = false := by decide
    have upper : (length &&& (0xFF00 : BitVec 16)).setWidth 8 = 0 := by
      ext i hi
      rw [BitVec.getElem_setWidth, BitVec.getLsbD_and, low i hi, Bool.and_false,
        BitVec.ofNat_eq_ofNat, BitVec.getElem_zero]
    have zero : (0 : BitVec 8).toNat = 0 := rfl
    rw [joined_byte, upper, lower, zero]
    omega
  · rw [joined_toNat wide, lower]
    omega

/-- Below 256 the two layouts are one. -/
theorem pushedRow_eq (buffer : ℕ → BitVec w) {length : BitVec 16} (small : length < 256) :
    pushedRow buffer length = writtenRow buffer length := by
  have bound : (256 : BitVec 16).toNat = 256 := rfl
  rw [BitVec.lt_def, bound] at small
  have mask : (0xFF00 : BitVec 16).toNat = 255 <<< 8 := rfl
  have upper : length &&& (0xFF00 : BitVec 16) = length >>> 8 := by
    apply BitVec.eq_of_toNat_eq
    rw [BitVec.toNat_and, mask, BitVec.toNat_ushiftRight, Nat.shiftRight_eq_div_pow,
      Nat.div_eq_of_lt small, Nat.and_comm]
    apply Nat.eq_of_testBit_eq
    intro i
    rw [Nat.testBit_and, Nat.testBit_shiftLeft, Nat.zero_testBit]
    rcases lt_or_ge i 8 with low | high
    · rw [decide_eq_false (not_le.mpr low), Bool.false_and, Bool.false_and]
    · have cleared : length.toNat.testBit i = false :=
        Nat.testBit_lt_two_pow (small.trans_le (Nat.pow_le_pow_right Nat.two_pos high))
      rw [cleared, Bool.and_false]
  rw [pushedRow, writtenRow, upper]

namespace ArrayBuffer

variable {size : BitVec 16} {multi : ℕ} {b : ArrayBuffer w size multi}

theorem getD_row (x : BitVec 16) {k : ℕ} (inside : k < multi + 2) :
    (b.row x).getD k 0 = b.cabuf (rowStart size multi x + k) := by
  rw [List.getD_eq_getElem?_getD]
  exact congrArg (Option.getD · 0) (getElem?_load inside)

theorem lengthAt_eq (x : BitVec 16) :
    b.lengthAt x = joined ((b.row x).getD 0 0) ((b.row x).getD 1 0) := by
  rw [getD_row x (Nat.zero_lt_succ _), getD_row x (Nat.succ_lt_succ (Nat.zero_lt_succ _))]
  rfl

end ArrayBuffer

/-- **Lengths.** In every buffer that holds a queue, `length_back` returns the length of the
entry just written exactly when it is below 256 or `T` is a byte, and `length_front` that of
the entry just pushed in front exactly when it is below 256. -/
theorem lengths_iff {size : BitVec 16} {multi : ℕ} {b : ArrayBuffer w size multi}
    {q : BoundedQueue (List (BitVec w)) size.toNat} (unsigned : Unsigned w) (masked : Masked size)
    (represents : Represents b.rows q) (buffer : ℕ → BitVec w) {length : BitVec 16}
    (fits : length.toNat ≤ multi) :
    ((b.write buffer length).lengthBack = length ↔ length < 256 ∨ w = 8) ∧
      ((b.pushFront buffer length).lengthFront = length ↔ length < 256) := by
  constructor
  · have after := represents.writeRow masked buffer fits
    have last := BoundedQueue.getLast?_append (q := q) masked.pos
      (overwrite (b.row b.tail) (writtenRow buffer length))
    have nonempty := List.ne_nil_of_mem (List.mem_of_mem_getLast? last)
    have row := Option.some.inj ((after.backRow masked nonempty).symm.trans last)
    rw [ArrayBuffer.lengthBack, ArrayBuffer.lengthAt_eq, row]
    exact joined_written_iff unsigned length
  · have after := represents.pushFrontRow masked buffer fits
    have first := BoundedQueue.head?_prepend (q := q) masked.pos
      (overwrite (b.row (counter size (b.head - 1))) (pushedRow buffer length))
    have nonempty := List.ne_nil_of_mem (List.mem_of_mem_head? first)
    have row := Option.some.inj ((after.frontRow masked nonempty).symm.trans first)
    rw [ArrayBuffer.lengthFront, ArrayBuffer.lengthAt_eq, row]
    exact joined_pushed_iff unsigned length

/-- A record of 300 bytes pushed in front is said to be shorter. -/
theorem lengths_iff_long :
    ((ArrayBuffer.declared fun _ => 0 : ArrayBuffer 8 4 300).pushFront (fun _ => 0)
      300).lengthFront ≠ 300 :=
  have unsigned : Unsigned 8 := .inl rfl
  have masked : Masked 4 := ⟨2, rfl⟩
  have start : Represents (ArrayBuffer.declared fun _ => 0 : ArrayBuffer 8 4 300).rows .empty :=
    represents_declared masked _
  have fits : (300 : BitVec 16).toNat ≤ 300 := le_rfl
  mt (lengths_iff unsigned masked start (fun _ => 0) fits).2.mp (by decide)

end RFPowerDetector.Buffer
