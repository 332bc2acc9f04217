/-
For which sizes the masks of the circular buffer are right: the powers of two.

Where `_size` is none, `_size - 1` has a zero bit below others. The counter of that bit
is less than `_size` and selects the slot 0 again, so an entry is overwritten before the
buffer is full.
-/

import RFPowerDetector.Buffer.Bulk

namespace RFPowerDetector.Buffer

open Circular

/-- The lowest zero bit of a number, which is below others unless the number is one less
than a power of two. -/
theorem exists_lowest_zero {m : ℕ} (gap : ¬(m + 1).isPowerOfTwo) :
    ∃ z, (∀ j < z, m.testBit j = true) ∧ m.testBit z = false ∧ 2 ^ z ≤ m := by
  have some_zero : ∃ z, m.testBit z = false := ⟨m, Nat.testBit_lt_two_pow Nat.lt_two_pow_self⟩
  have ones : ∀ j < Nat.find some_zero, m.testBit j = true := fun j hj => by
    simpa using Nat.find_min some_zero hj
  refine ⟨Nat.find some_zero, ones, Nat.find_spec some_zero, ?_⟩
  by_contra below
  rw [not_le] at below
  -- without higher bits, the number is all ones
  have all : m = 2 ^ Nat.find some_zero - 1 := by
    apply Nat.eq_of_testBit_eq
    intro j
    rw [Nat.testBit_two_pow_sub_one]
    rcases lt_or_ge j (Nat.find some_zero) with low | high
    · rw [ones j low, decide_eq_true low]
    · rw [decide_eq_false (not_lt.mpr high)]
      exact Nat.testBit_lt_two_pow (below.trans_le (Nat.pow_le_pow_right Nat.two_pos high))
  have pos := Nat.two_pow_pos (Nat.find some_zero)
  exact gap ⟨Nat.find some_zero, by omega⟩

/-- A mask of ones keeps what it covers. -/
theorem and_eq_self {t mask z : ℕ} (covered : t < 2 ^ z) (ones : ∀ j < z, mask.testBit j = true) :
    t &&& mask = t := by
  apply Nat.eq_of_testBit_eq
  intro j
  rw [Nat.testBit_and]
  rcases lt_or_ge j z with low | high
  · rw [ones j low, Bool.and_true]
  · rw [Nat.testBit_lt_two_pow (covered.trans_le (Nat.pow_le_pow_right Nat.two_pos high)),
      Bool.false_and]

variable {α : Type} {size : BitVec 16}

section Gap

variable {z : ℕ} (ones : ∀ j < z, (size.toNat - 1).testBit j = true)
  (zero : (size.toNat - 1).testBit z = false) (less : 2 ^ z ≤ size.toNat - 1)
include less

theorem toNat_sub_one : (size - 1).toNat = size.toNat - 1 := by
  have one : (1 : BitVec 16).toNat = 1 := rfl
  have pos := Nat.two_pow_pos z
  have lt := size.isLt
  rw [BitVec.toNat_sub, one]
  omega

theorem tail_ne_full {b : CircularBuffer α size} (head : b.head = 0)
    (tail : b.tail.toNat ≤ 2 ^ z) : b.tail ≠ b.head ^^^ size := by
  have pos := Nat.two_pow_pos z
  intro eq
  rw [head, show (0 : BitVec 16) ^^^ size = size from BitVec.zero_xor] at eq
  rw [eq] at tail
  omega

include ones

/-- Below the gap, counters are what they count. -/
theorem counter_of_le {x : BitVec 16} (le : x.toNat ≤ 2 ^ z) : (counter size x).toNat = x.toNat := by
  have one : (1 : BitVec 16).toNat = 1 := rfl
  have two : (2 : BitVec 16).toNat = 2 := rfl
  have lt := size.isLt
  have pos := Nat.two_pow_pos z
  have mask : (2 * size - 1).toNat = (2 * (size.toNat - 1) + 1) % 2 ^ 16 := by
    rw [BitVec.toNat_sub, BitVec.toNat_mul, one, two]
    omega
  have bound : 2 ^ z < 2 ^ 16 := by omega
  have small : z < 16 := (Nat.pow_lt_pow_iff_right Nat.one_lt_two).mp bound
  rw [counter, BitVec.toNat_and, mask]
  refine and_eq_self (z := z + 1) (le.trans_lt (Nat.pow_lt_pow_right Nat.one_lt_two z.lt_succ_self)) ?_
  intro j hj
  rw [Nat.testBit_mod_two_pow, decide_eq_true (by omega), Bool.true_and]
  cases j with
  | zero => rw [Nat.testBit_zero, decide_eq_true (by omega)]
  | succ j =>
      rw [Nat.testBit_succ, show (2 * (size.toNat - 1) + 1) / 2 = size.toNat - 1 by omega]
      exact ones j (by omega)

/-- Up to the gap, writes only count. -/
theorem write_below (cbuf : ℕ → α) (xs : List α) (le : xs.length ≤ 2 ^ z) :
    (xs.foldl CircularBuffer.write (.declared cbuf : CircularBuffer α size)).head = 0 ∧
      (xs.foldl CircularBuffer.write (.declared cbuf : CircularBuffer α size)).tail.toNat =
        xs.length := by
  induction xs using List.reverseRecOn with
  | nil => exact ⟨rfl, rfl⟩
  | append_singleton xs x ih =>
      rw [List.length_append, List.length_singleton] at le ⊢
      obtain ⟨head, tail⟩ := ih (by omega)
      have one : (1 : BitVec 16).toNat = 1 := rfl
      have lt := size.isLt
      rw [List.foldl_append, List.foldl_cons, List.foldl_nil]
      set b := xs.foldl CircularBuffer.write (.declared cbuf : CircularBuffer α size)
      have next : (b.tail + 1).toNat = xs.length + 1 := by
        rw [BitVec.toNat_add, one, tail]
        exact Nat.mod_eq_of_lt (by omega)
      have notFull := tail_ne_full less head (by omega)
      refine ⟨(if_neg notFull).trans head, ?_⟩
      exact (counter_of_le ones less (by rw [next]; exact le)).trans next

include zero

/-- The write at the gap goes to slot 0. -/
theorem write_at (cbuf : ℕ → α) (xs : List α) (length : xs.length = 2 ^ z) (x : α) :
    ((xs.foldl CircularBuffer.write (.declared cbuf : CircularBuffer α size)).write x).read.1 =
      x := by
  obtain ⟨head, tail⟩ := write_below ones less cbuf xs length.le
  set b := xs.foldl CircularBuffer.write (.declared cbuf : CircularBuffer α size)
  have stays : (b.write x).head = 0 :=
    (if_neg (tail_ne_full less head (by omega))).trans head
  have first : slot size b.tail = 0 := by
    rw [slot, BitVec.toNat_and, toNat_sub_one less, tail, length]
    apply Nat.eq_of_testBit_eq
    intro j
    rw [Nat.testBit_and, Nat.testBit_two_pow, Nat.zero_testBit]
    by_cases own : z = j
    · rw [← own, zero, Bool.and_false]
    · rw [decide_eq_false own, Bool.false_and]
  have origin : slot size 0 = 0 := by
    rw [slot, show (0 : BitVec 16) &&& (size - 1) = 0 from BitVec.zero_and]
    rfl
  have value : (b.write x).read.1 = (b.write x).cbuf (slot size (b.write x).head) := rfl
  have array : (b.write x).cbuf = Function.update b.cbuf (slot size b.tail) x := rfl
  rw [value, stays, origin, array, first, Function.update_self]

end Gap

/-- **First in, first out** for every list that fits holds exactly where the size is a power
of two. -/
theorem fifo_iff [Nontrivial α] (pos : size ≠ 0) (cbuf : ℕ → α) :
    (∀ xs : List α, xs.length ≤ size.toNat →
      ((xs.foldl CircularBuffer.write (.declared cbuf : CircularBuffer α size)).reads
        xs.length).1 = xs) ↔ Masked size := by
  constructor
  · intro fifo
    by_contra unmasked
    have positive : 0 < size.toNat :=
      Nat.pos_of_ne_zero fun zero => pos (BitVec.eq_of_toNat_eq zero)
    have gap : ¬(size.toNat - 1 + 1).isPowerOfTwo := by
      rwa [Nat.sub_add_cancel positive]
    obtain ⟨z, ones, zero, less⟩ := exists_lowest_zero gap
    obtain ⟨first, last, differ⟩ := exists_pair_ne α
    have full := fifo (List.replicate (2 ^ z) first ++ [last]) (by simp; omega)
    have overwritten := write_at ones zero less cbuf (List.replicate (2 ^ z) first)
      List.length_replicate last
    obtain ⟨n, count⟩ : ∃ n, 2 ^ z = n + 1 := ⟨2 ^ z - 1, by have := Nat.two_pow_pos z; omega⟩
    rw [List.length_append, List.length_singleton, CircularBuffer.reads, List.foldl_append,
      List.foldl_cons, List.foldl_nil, overwritten, count, List.replicate_succ,
      List.cons_append] at full
    exact differ (List.cons.inj full).1.symm
  · intro masked xs fits
    have stored := (represents_declared masked cbuf).foldl_write masked xs
    have all : ((BoundedQueue.empty : BoundedQueue α size.toNat).append xs).entries = xs :=
      BoundedQueue.entries_append_of_le (by rwa [show (BoundedQueue.empty : BoundedQueue α
        size.toNat).entries.length = 0 from rfl, Nat.zero_add])
    have taken := (stored.reads masked (n := xs.length) (by rw [all])).1
    rwa [all, List.take_length] at taken

/-- Three is no size for the masks. -/
theorem fifo_iff_three :
    ¬∀ xs : List Bool, xs.length ≤ 3 →
      ((xs.foldl CircularBuffer.write (.declared fun _ => false : CircularBuffer Bool 3)).reads
        xs.length).1 = xs :=
  have unmasked : ¬Masked 3 := show ¬(3 : ℕ).isPowerOfTwo by decide
  mt (fifo_iff (show (3 : BitVec 16) ≠ 0 by decide) _).mp unmasked

end RFPowerDetector.Buffer
