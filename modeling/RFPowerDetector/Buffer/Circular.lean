/-
The circular buffer of `circular_buffer.h`, without its array mode.

`_size` is a parameter of the class, as in the template. `head` and `tail` count
modulo `2 * _size` and index the array modulo `_size`, both by masks; `head ^ _size`
is the counter `_size` ahead. All of this is arithmetic on `uint16_t`, but for
`_size - tail`, which is computed as an `int` and may be negative.

A pointer argument is the function of its elements. A function that fills the
caller's buffer returns what it puts there.

The queue is for any `T`. The statistics are for integers: `T` is promoted, divided
towards zero and assigned back as in C++, and a signed overflow leaves no result. For a
floating-point `T` nothing is said of them.
-/

import Mathlib.Data.List.Sort
import Mathlib.Data.Nat.Bitwise
import Mathlib.Order.Defs.LinearOrder
import RFPowerDetector.Library.Integer
import RFPowerDetector.Library.Memory
import RFPowerDetector.Library.Ring

namespace RFPowerDetector.Buffer

open CInteger Memory

/-- `Circular_Buffer<T, _size>`. -/
@[ext]
structure CircularBuffer (α : Type) (size : BitVec 16) where
  head : BitVec 16
  tail : BitVec 16
  available : BitVec 16
  cbuf : ℕ → α

/-- `x & (_size-1)`, an index of the array. -/
def slot (size x : BitVec 16) : ℕ := (x &&& (size - 1)).toNat

/-- `x & (2*_size-1)`, a counter. -/
def counter (size x : BitVec 16) : BitVec 16 := x &&& (2 * size - 1)

namespace CircularBuffer

variable {α : Type} {size : BitVec 16}

/-- The buffer as declared: its array is not initialised. -/
def declared (cbuf : ℕ → α) : CircularBuffer α size := ⟨0, 0, 0, cbuf⟩

def clear (b : CircularBuffer α size) : CircularBuffer α size :=
  { b with head := 0, tail := 0, available := 0 }

/-- `write(value)`, also `push_back(value)`. -/
def write (b : CircularBuffer α size) (value : α) : CircularBuffer α size where
  available := if b.available < size then b.available + 1 else b.available
  cbuf := Function.update b.cbuf (slot size b.tail) value
  head := if b.tail = b.head ^^^ size then counter size (b.head + 1) else b.head
  tail := counter size (b.tail + 1)

/-- `push_front(value)`: the full buffer keeps its `tail`. -/
def pushFront (b : CircularBuffer α size) (value : α) : CircularBuffer α size where
  head := counter size (b.head - 1)
  cbuf := Function.update b.cbuf (slot size (counter size (b.head - 1))) value
  available := if b.available < size then b.available + 1 else b.available
  tail := b.tail

/-- `read()`, also `pop_front()`: an empty buffer moves its `head`, too. -/
def read (b : CircularBuffer α size) : α × CircularBuffer α size :=
  (b.cbuf (slot size b.head),
    { b with
      available := if b.available ≠ 0 then b.available - 1 else b.available
      head := counter size (b.head + 1) })

/-- `pop_back()`: the returned index is one less than the new `tail`. -/
def popBack [IntCast α] (b : CircularBuffer α size) : α × CircularBuffer α size :=
  if b.available ≠ 0 then
    (b.cbuf (slot size (counter size (b.tail - 1) - 1)),
      { b with available := b.available - 1, tail := counter size (b.tail - 1) })
  else ((-1 : ℤ), b)

def peek [Zero α] (b : CircularBuffer α size) (pos : BitVec 16) : α :=
  if size < pos then 0 else b.cbuf (slot size (b.head + pos))

/-- `write(buffer, length)`: `_available` takes the length first, and each `write` of
the loop adds one more. -/
def writeBuffer (b : CircularBuffer α size) (buffer : ℕ → α) (length : BitVec 16) :
    CircularBuffer α size :=
  let counted : CircularBuffer α size :=
    { b with available := if size ≤ b.available + length then size else b.available + length }
  if (length.toNat : ℤ) < size.toNat - b.tail.toNat then
    { counted with
      cbuf := store b.cbuf b.tail.toNat (load buffer 0 length.toNat)
      tail := counter size (b.tail + length) }
  else (load buffer 0 length.toNat).foldl write counted

/-- `push_front(buffer, length)`: the loop runs from `length-1`, computed as a
`uint16_t`, down to 1. -/
def pushFrontBuffer (b : CircularBuffer α size) (buffer : ℕ → α) (length : BitVec 16) :
    CircularBuffer α size :=
  pushFront ((load buffer 1 (length - 1).toNat).foldr (fun x b => b.pushFront x) b) (buffer 0)

/-- `n` calls of `read()` in a loop. -/
def reads : ℕ → CircularBuffer α size → List α × CircularBuffer α size
  | 0, b => ([], b)
  | n + 1, b => (b.read.1 :: (reads n b.read.2).1, (reads n b.read.2).2)

/-- The `_count` of `peekBytes` and `readBytes`. -/
def count (b : CircularBuffer α size) (length : BitVec 16) : BitVec 16 :=
  if b.available < length then b.available else length

/-- `peekBytes(buffer, length)`: the block is copied from index 0. -/
def peekBytes [Zero α] (b : CircularBuffer α size) (length : BitVec 16) : List α :=
  if ((b.count length).toNat : ℤ) < size.toNat - b.head.toNat then
    load b.cbuf 0 (b.count length).toNat
  else (List.range (b.count length).toNat).map fun i => b.peek (BitVec.ofNat 16 i)

/-- `readBytes(buffer, length)`: the block is copied from index 0, and `_available`
drops by `length`. -/
def readBytes (b : CircularBuffer α size) (length : BitVec 16) :
    List α × CircularBuffer α size :=
  if ((b.count length).toNat : ℤ) < size.toNat - b.head.toNat then
    (load b.cbuf 0 (b.count length).toNat,
      { b with
        available := b.available - length
        head := counter size (b.head + b.count length) })
  else b.reads (b.count length).toNat

/-! ### Statistics -/

/-- The loop that copies the entries into an array. -/
def copied (b : CircularBuffer α size) : List α :=
  (List.range b.available.toNat).map fun i => b.cbuf (slot size (b.head + BitVec.ofNat 16 i))

/-- The loop that copies an array back, from the `i`-th entry on. -/
def copyBack (b : CircularBuffer α size) : ℕ → List α → CircularBuffer α size
  | _, [] => b
  | i, x :: xs =>
      copyBack
        { b with cbuf := Function.update b.cbuf (slot size (b.head + BitVec.ofNat 16 i)) x }
        (i + 1) xs

section Integers

variable {t : IntType}

def sum (b : CircularBuffer t.Value size) : Option t.Value :=
  if b.available = 0 then some 0
  else b.copied.foldlM (fun value x : t.Value => t.addAssign value x.val) 0

def average (b : CircularBuffer t.Value size) : Option t.Value :=
  if b.available = 0 then some 0
  else b.sum.bind fun sum => t.divide sum.val b.available.toNat

/-- `(x - _mean) * (x - _mean)` -/
def squaredDeviation (mean x : t.Value) : Option t.promote.Value :=
  (t.promote.compute (x.val - mean.val)).bind fun deviation =>
    t.promote.compute (deviation.val * deviation.val)

def variance (b : CircularBuffer t.Value size) : Option t.Value :=
  if b.available = 0 then some 0
  else
    b.average.bind fun mean =>
      (b.copied.foldlM (fun value x : t.Value =>
          (squaredDeviation mean x).bind fun square => t.addAssign value square.val) 0).bind
        fun value : t.Value => t.divide value.val b.available.toNat

/-- The end of `median`, on the array as it is. -/
def middle (b : CircularBuffer t.Value size) : Option t.Value :=
  let half := b.available / 2
  if b.available % 2 = 0 then
    (t.promote.compute ((b.cbuf (slot size (b.head + (half - 1)))).val +
        (b.cbuf (slot size (b.head + half))).val)).bind fun sum => t.divide sum.val 2
  else some (b.cbuf (slot size (b.head + half)))

end Integers

section Order

variable [LinearOrder α]

/-- `std::sort` of the copied entries. -/
def sorted (b : CircularBuffer α size) : List α := b.copied.insertionSort (· ≤ ·)

def sortAscending (b : CircularBuffer α size) : CircularBuffer α size :=
  if b.available = 0 then b else b.copyBack 0 b.sorted

def sortDescending (b : CircularBuffer α size) : CircularBuffer α size :=
  if b.available = 0 then b
  else b.sortAscending.copyBack 0 b.sortAscending.copied.reverse

def min [Zero α] (b : CircularBuffer α size) : α :=
  if b.available = 0 then 0 else b.sorted.getD 0 0

def max [Zero α] (b : CircularBuffer α size) : α :=
  if b.available = 0 then 0 else b.sorted.getD (b.available - 1).toNat 0

end Order

/-- `median(override)`: without `override`, only a copy is sorted, and dropped. -/
def median {t : IntType} (b : CircularBuffer t.Value size) (override : Bool) :
    Option t.Value × CircularBuffer t.Value size :=
  if b.available = 0 then (some 0, b)
  else if override then (b.sortAscending.middle, b.sortAscending)
  else (b.middle, b)

end CircularBuffer

/-! ### Masks -/

/-- Below `2 ^ (k + 1)`, flipping the bit `k` is going `2 ^ k` ahead. -/
theorem add_two_pow_mod {k x : ℕ} (lt : x < 2 ^ (k + 1)) :
    (x + 2 ^ k) % 2 ^ (k + 1) = x ^^^ 2 ^ k := by
  apply Nat.eq_of_testBit_eq
  intro j
  rw [Nat.testBit_mod_two_pow, Nat.testBit_xor, Nat.testBit_two_pow, Nat.add_comm x]
  rcases lt_trichotomy j k with below | rfl | above
  · rw [Nat.testBit_two_pow_add_gt below, decide_eq_true (below.trans k.lt_succ_self),
      decide_eq_false below.ne', Bool.true_and, Bool.xor_false]
  · rw [Nat.testBit_two_pow_add_eq, decide_eq_true j.lt_succ_self, decide_eq_true rfl,
      Bool.true_and, Bool.xor_true]
  · have zero : x.testBit j = false :=
      Nat.testBit_lt_two_pow (lt.trans_le (Nat.pow_le_pow_right Nat.two_pos above))
    rw [zero, decide_eq_false (by omega), decide_eq_false above.ne, Bool.false_and, Bool.xor_false]

/-- `_size` is a power of two, as the masks expect. -/
def Masked (size : BitVec 16) : Prop := size.toNat.isPowerOfTwo

section Masked

variable {size : BitVec 16}

theorem Masked.exponent (masked : Masked size) : ∃ k ≤ 15, size.toNat = 2 ^ k := by
  obtain ⟨k, power⟩ := masked
  refine ⟨k, ?_, power⟩
  have lt := size.isLt
  rw [power] at lt
  exact Nat.le_of_lt_succ ((Nat.pow_lt_pow_iff_right (by decide)).mp lt)

theorem Masked.pos (masked : Masked size) : 0 < size.toNat := by
  obtain ⟨k, power⟩ := masked
  rw [power]
  exact Nat.two_pow_pos k

/-- Counting modulo `2 ^ 16` is compatible with the counters. -/
theorem Masked.dvd (masked : Masked size) : 2 * size.toNat ∣ 2 ^ 16 := by
  obtain ⟨k, le, power⟩ := masked.exponent
  rw [power, ← pow_succ']
  exact Nat.pow_dvd_pow 2 (Nat.succ_le_succ le)

theorem slot_eq (masked : Masked size) (x : BitVec 16) : slot size x = x.toNat % size.toNat := by
  obtain ⟨k, -, power⟩ := masked.exponent
  have mask : (size - 1).toNat = 2 ^ k - 1 := by
    have one : (1 : BitVec 16).toNat = 1 := rfl
    have lt := size.isLt
    have pos := masked.pos
    rw [BitVec.toNat_sub, one, ← power]
    omega
  rw [slot, BitVec.toNat_and, mask, Nat.and_two_pow_sub_one_eq_mod, power]

theorem counter_eq (masked : Masked size) (x : BitVec 16) :
    (counter size x).toNat = x.toNat % (2 * size.toNat) := by
  obtain ⟨k, le, power⟩ := masked.exponent
  have mask : (2 * size - 1).toNat = 2 ^ (k + 1) - 1 := by
    have one : (1 : BitVec 16).toNat = 1 := rfl
    have two : (2 : BitVec 16).toNat = 2 := rfl
    have bound := Nat.pow_le_pow_right Nat.two_pos le
    have pos := masked.pos
    rw [BitVec.toNat_sub, BitVec.toNat_mul, one, two, pow_succ' 2 k, ← power]
    rw [← power] at bound
    omega
  rw [counter, BitVec.toNat_and, mask, Nat.and_two_pow_sub_one_eq_mod, power, pow_succ']

theorem counter_add (masked : Masked size) (x y : BitVec 16) :
    (counter size (x + y)).toNat = (x.toNat + y.toNat) % (2 * size.toNat) := by
  rw [counter_eq masked, BitVec.toNat_add, Nat.mod_mod_of_dvd _ masked.dvd]

theorem slot_add (masked : Masked size) (x y : BitVec 16) :
    slot size (x + y) = (x.toNat + y.toNat) % size.toNat := by
  rw [slot_eq masked, BitVec.toNat_add,
    Nat.mod_mod_of_dvd _ ((Nat.dvd_mul_left _ 2).trans masked.dvd)]

theorem counter_sub (masked : Masked size) (x y : BitVec 16) (le : y.toNat ≤ 2 * size.toNat) :
    (counter size (x - y)).toNat = (x.toNat + (2 * size.toNat - y.toNat)) % (2 * size.toNat) := by
  obtain ⟨c, whole⟩ := masked.dvd
  have pos := masked.pos
  obtain ⟨c, rfl⟩ : ∃ d, c = d + 1 := by
    refine ⟨c - 1, (Nat.succ_pred_eq_of_pos (Nat.pos_of_ne_zero ?_)).symm⟩
    rintro rfl
    omega
  rw [Nat.mul_succ] at whole
  rw [counter_eq masked, BitVec.toNat_sub, Nat.mod_mod_of_dvd _ masked.dvd, whole,
    show 2 * size.toNat * c + 2 * size.toNat - y.toNat + x.toNat =
      x.toNat + (2 * size.toNat - y.toNat) + 2 * size.toNat * c by omega, Nat.add_mul_mod_self_left]

/-- `tail == (head ^ _size)`: the tail is `_size` ahead. -/
theorem eq_xor_iff (masked : Masked size) {head tail : BitVec 16}
    (lt : head.toNat < 2 * size.toNat) :
    tail = head ^^^ size ↔ tail.toNat = (head.toNat + size.toNat) % (2 * size.toNat) := by
  obtain ⟨k, -, power⟩ := masked.exponent
  rw [← BitVec.toNat_inj, BitVec.toNat_xor]
  rw [power, ← pow_succ'] at lt ⊢
  rw [add_two_pow_mod lt]

/-- Counters that agree select one slot. -/
theorem mod_size_congr (size : BitVec 16) (n : ℕ) :
    n % (2 * size.toNat) % size.toNat = n % size.toNat :=
  Nat.mod_mod_of_dvd n (Nat.dvd_mul_left _ 2)

end Masked

end RFPowerDetector.Buffer
