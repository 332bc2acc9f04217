/-
The bulk operations of the circular buffer against the loops they stand for.

A bulk write is the loop of its single writes exactly when `WritesAgree` (its block
copy knows no overflow, its loop counts each entry twice); a bulk read is right exactly
when `ReadsAgree` (its block copy starts at index 0 and takes the whole length off the
count).
-/

import Mathlib.Data.Int.ModEq
import RFPowerDetector.Buffer.Queue

namespace RFPowerDetector.Buffer

open Circular Memory

variable {α : Type} {size : BitVec 16} {b : CircularBuffer α size}
  {q : BoundedQueue α size.toNat}

/-! ### Writes -/

theorem Represents.foldl_write (masked : Masked size) (represents : Represents b q) (xs : List α) :
    Represents (xs.foldl CircularBuffer.write b) (q.append xs) := by
  rw [← BoundedQueue.foldl_append]
  induction xs generalizing b q with
  | nil => exact represents
  | cons x xs ih => exact ih (represents.write masked x)

theorem available_write (le : b.available.toNat ≤ size.toNat) (value : α) :
    (b.write value).available.toNat = min (b.available.toNat + 1) size.toNat := by
  have one : (1 : BitVec 16).toNat = 1 := rfl
  have lt := size.isLt
  have available : (b.write value).available =
      if b.available < size then b.available + 1 else b.available := rfl
  rw [available]
  split
  case isTrue room =>
      rw [BitVec.lt_def] at room
      rw [BitVec.toNat_add, one]
      omega
  case isFalse full =>
      rw [BitVec.lt_def] at full
      omega

/-- Writes count up to the size of the buffer. -/
theorem available_foldl_write (le : b.available.toNat ≤ size.toNat) (xs : List α) :
    (xs.foldl CircularBuffer.write b).available.toNat =
      min (b.available.toNat + xs.length) size.toNat := by
  induction xs generalizing b with
  | nil => exact (min_eq_left le).symm
  | cons x xs ih =>
      have counted := available_write le x
      rw [List.foldl_cons, ih (by omega), counted, List.length_cons]
      omega

/-- Nothing but the count depends on the count. -/
theorem foldl_write_recount (b : CircularBuffer α size) (available : BitVec 16) (xs : List α) :
    ∃ available' : BitVec 16,
      xs.foldl CircularBuffer.write { b with available := available } =
        ({ xs.foldl CircularBuffer.write b with available := available' } :
          CircularBuffer α size) := by
  induction xs generalizing b available with
  | nil => exact ⟨available, rfl⟩
  | cons x xs ih => exact ih (b.write x) _

/-- Writes that neither reach the end of the array nor fill the buffer are a block. -/
theorem Represents.foldl_write_block (masked : Masked size) (represents : Represents b q)
    (xs : List α) (block : xs.length + b.tail.toNat < size.toNat)
    (room : q.entries.length + xs.length ≤ size.toNat) :
    xs.foldl CircularBuffer.write b =
      { b with
        cbuf := store b.cbuf b.tail.toNat xs
        tail := counter size (b.tail + BitVec.ofNat 16 xs.length)
        available := b.available + BitVec.ofNat 16 xs.length } := by
  induction xs generalizing b q with
  | nil =>
      have tail : counter size b.tail = b.tail := by
        rw [← BitVec.toNat_inj, counter_eq masked]
        exact Nat.mod_eq_of_lt (represents.tail_lt masked)
      have none_more : BitVec.ofNat 16 ([] : List α).length = 0#16 := rfl
      rw [store_nil, none_more, BitVec.add_zero, BitVec.add_zero, tail, List.foldl_nil]
  | cons x xs ih =>
      rw [List.length_cons] at block room
      have one : (1 : BitVec 16).toNat = 1 := rfl
      have notFull : b.tail ≠ b.head ^^^ size := fun eq => by
        have := (represents.full masked).mp eq
        omega
      have tail : (counter size (b.tail + 1)).toNat = b.tail.toNat + 1 := by
        rw [counter_add masked, one]
        exact Nat.mod_eq_of_lt (by omega)
      have index : slot size b.tail = b.tail.toNat := by
        rw [slot_eq masked]
        exact Nat.mod_eq_of_lt (by omega)
      have written : b.write x =
          { b with
            available := b.available + 1
            cbuf := Function.update b.cbuf b.tail.toNat x
            tail := counter size (b.tail + 1) } := by
        rw [CircularBuffer.write, if_neg notFull, if_pos (represents.room.mpr (by omega)), index]
      have appended : (q.append [x]).entries.length = q.entries.length + 1 := by
        rw [BoundedQueue.entries_append_of_le (by rw [List.length_singleton]; omega),
          List.length_append, List.length_singleton]
      have position : (b.write x).tail = counter size (b.tail + 1) := rfl
      rw [List.foldl_cons, ih (represents.write masked x) (by rw [position, tail]; omega)
        (by rw [appended]; omega), written]
      have count : BitVec.ofNat 16 (x :: xs).length = 1 + BitVec.ofNat 16 xs.length := by
        rw [List.length_cons, Nat.add_comm, BitVec.ofNat_add]
        rfl
      have next : (b.tail + 1).toNat = b.tail.toNat + 1 := by
        have lt := size.isLt
        rw [BitVec.toNat_add, one]
        exact Nat.mod_eq_of_lt (by omega)
      congr 1
      · rw [← BitVec.toNat_inj, counter_add masked, tail, count, ← BitVec.add_assoc,
          counter_add masked, next]
      · rw [count, BitVec.add_assoc]
      · rw [store_cons, tail]

/-- The condition of a bulk write: a block copy may fill the buffer, not pass it, and the
loop must find or fill it, as it counts each entry twice. -/
def WritesAgree (b : CircularBuffer α size) (length : BitVec 16) : Prop :=
  if length.toNat + b.tail.toNat < size.toNat then
    b.available.toNat + length.toNat ≤ size.toNat
  else length.toNat = 0 ∨ size.toNat ≤ b.available.toNat + length.toNat

instance (b : CircularBuffer α size) (length : BitVec 16) : Decidable (WritesAgree b length) :=
  inferInstanceAs (Decidable (if length.toNat + b.tail.toNat < size.toNat then
    b.available.toNat + length.toNat ≤ size.toNat
    else length.toNat = 0 ∨ size.toNat ≤ b.available.toNat + length.toNat))

/-- The count a bulk write starts with. -/
theorem counted_toNat (b : CircularBuffer α size) (length : BitVec 16) :
    (if size ≤ b.available + length then size else b.available + length).toNat =
      min ((b.available.toNat + length.toNat) % 2 ^ 16) size.toNat := by
  split
  case isTrue beyond =>
      rw [BitVec.le_def, BitVec.toNat_add] at beyond
      exact (min_eq_right beyond).symm
  case isFalse within =>
      rw [BitVec.le_def, BitVec.toNat_add, not_le] at within
      rw [BitVec.toNat_add]
      exact (min_eq_left within.le).symm

theorem writeBuffer_block (buffer : ℕ → α) {length : BitVec 16}
    (block : length.toNat + b.tail.toNat < size.toNat) :
    b.writeBuffer buffer length =
      { b with
        available := if size ≤ b.available + length then size else b.available + length
        cbuf := store b.cbuf b.tail.toNat (load buffer 0 length.toNat)
        tail := counter size (b.tail + length) } :=
  if_pos (by omega)

theorem writeBuffer_loop (buffer : ℕ → α) {length : BitVec 16}
    (loop : ¬length.toNat + b.tail.toNat < size.toNat) :
    b.writeBuffer buffer length =
      (load buffer 0 length.toNat).foldl CircularBuffer.write
        { b with
          available := if size ≤ b.available + length then size else b.available + length } :=
  if_neg (by omega)

theorem available_writeBuffer_loop (buffer : ℕ → α) {length : BitVec 16}
    (loop : ¬length.toNat + b.tail.toNat < size.toNat) :
    (b.writeBuffer buffer length).available.toNat =
      min (min ((b.available.toNat + length.toNat) % 2 ^ 16) size.toNat + length.toNat)
        size.toNat := by
  have counted := counted_toNat b length
  rw [writeBuffer_loop buffer loop, available_foldl_write, counted, length_load]
  rw [counted]
  exact min_le_right _ _

namespace Represents

/-- A bulk write under its condition is the loop of single writes. -/
theorem writeBuffer_eq (masked : Masked size) (represents : Represents b q) (buffer : ℕ → α)
    {length : BitVec 16} (agree : WritesAgree b length) :
    b.writeBuffer buffer length =
      (load buffer 0 length.toNat).foldl CircularBuffer.write b := by
  have le := represents.available_le
  rw [WritesAgree] at agree
  split at agree
  case isTrue block =>
      have counted : (if size ≤ b.available + length then size else b.available + length) =
          b.available + length := by
        have exact := counted_toNat b length
        have lt := size.isLt
        rw [← BitVec.toNat_inj, exact, BitVec.toNat_add]
        omega
      have whole : BitVec.ofNat 16 (load buffer 0 length.toNat).length = length := by
        rw [length_load, BitVec.ofNat_toNat, BitVec.setWidth_eq]
      rw [writeBuffer_block buffer block, counted, represents.foldl_write_block masked, whole]
      · rwa [length_load]
      · rw [length_load, ← represents.available_eq]
        exact agree
  case isFalse loop =>
      obtain ⟨available', same⟩ := foldl_write_recount b
        (if size ≤ b.available + length then size else b.available + length)
        (load buffer 0 length.toNat)
      rw [← writeBuffer_loop buffer loop] at same
      have counted := available_writeBuffer_loop buffer loop
      have plain := available_foldl_write le (load buffer 0 length.toNat)
      rw [length_load] at plain
      rw [same] at counted ⊢
      have equal : available' =
          ((load buffer 0 length.toNat).foldl CircularBuffer.write b).available := by
        rw [← BitVec.toNat_inj, plain]
        refine counted.trans ?_
        obtain ⟨k, small, power⟩ := masked.exponent
        have bound := Nat.pow_le_pow_right Nat.two_pos small
        rw [← power] at bound
        have lt := length.isLt
        omega
      rw [equal]

/-- A bulk write that holds the longer queue met its condition. -/
theorem writesAgree (masked : Masked size) (represents : Represents b q) (buffer : ℕ → α)
    {length : BitVec 16}
    (after : Represents (b.writeBuffer buffer length) (q.append (load buffer 0 length.toNat))) :
    WritesAgree b length := by
  have le := represents.available_le
  have available := represents.available_eq
  have appended : (q.append (load buffer 0 length.toNat)).entries.length =
      min (b.available.toNat + length.toNat) size.toNat := by
    rw [BoundedQueue.entries_append, List.rtake, List.length_drop, List.length_append, length_load,
      available]
    omega
  rw [WritesAgree]
  split
  case isTrue block =>
      -- past the full buffer, the tail would not be `_size` ahead of the head
      by_contra beyond
      have tail := after.tail_eq
      rw [writeBuffer_block buffer block, counter_add masked, represents.tail_eq, Nat.mod_add_mod,
        Nat.add_assoc, ← available, appended, min_eq_right (by omega)] at tail
      exact slot_ne (by omega) (by omega) tail.symm
  case isFalse loop =>
      by_contra agree
      have counted := after.available_eq
      rw [available_writeBuffer_loop buffer loop, appended] at counted
      have lt := size.isLt
      omega

/-- A bulk write appends its elements exactly under its condition. -/
theorem writeBuffer_iff (masked : Masked size) (represents : Represents b q) (buffer : ℕ → α)
    (length : BitVec 16) :
    Represents (b.writeBuffer buffer length) (q.append (load buffer 0 length.toNat)) ↔
      WritesAgree b length := by
  refine ⟨represents.writesAgree masked buffer, fun agree => ?_⟩
  rw [represents.writeBuffer_eq masked buffer agree]
  exact represents.foldl_write masked _

end Represents

/-- **The block copy against the loop.** A bulk write is the loop of its single writes
exactly under its condition. -/
theorem writeBuffer_eq_iff (masked : Masked size) (represents : Represents b q)
    (buffer : ℕ → α) (length : BitVec 16) :
    b.writeBuffer buffer length = (load buffer 0 length.toNat).foldl CircularBuffer.write b ↔
      WritesAgree b length := by
  refine ⟨fun same => represents.writesAgree masked buffer ?_, represents.writeBuffer_eq masked buffer⟩
  rw [same]
  exact represents.foldl_write masked _

/-- A block into the declared buffer. -/
theorem writeBuffer_eq_iff_three :
    (.declared fun _ => 0 : CircularBuffer ℕ 4).writeBuffer id 3 =
      (load id 0 3).foldl CircularBuffer.write (.declared fun _ => 0) :=
  (writeBuffer_eq_iff ⟨2, rfl⟩ (represents_declared ⟨2, rfl⟩ _) id 3).mpr (by decide)

/-! ### Reads -/

/-- The condition of a bulk read: a block copy takes no more than there is, and finds the
entries at index 0, too. -/
def ReadsAgree (b : CircularBuffer α size) (length : BitVec 16) : Prop :=
  (b.count length).toNat + b.head.toNat < size.toNat →
    length.toNat ≤ b.available.toNat ∧
      ∀ i < (b.count length).toNat, b.cbuf i = b.cbuf (b.head.toNat + i)

/-- The condition of a bulk peek. -/
def PeeksAgree (b : CircularBuffer α size) (length : BitVec 16) : Prop :=
  (b.count length).toNat + b.head.toNat < size.toNat →
    ∀ i < (b.count length).toNat, b.cbuf i = b.cbuf (b.head.toNat + i)

theorem count_toNat (b : CircularBuffer α size) (length : BitVec 16) :
    (b.count length).toNat = min b.available.toNat length.toNat := by
  rw [CircularBuffer.count]
  split
  case isTrue less =>
      rw [BitVec.lt_def] at less
      exact (min_eq_left less.le).symm
  case isFalse enough =>
      rw [BitVec.lt_def, not_lt] at enough
      exact (min_eq_right enough).symm

/-- Entries that do not pass the end of the array are a block. -/
theorem entries_eq_load {N head n : ℕ} {slots : ℕ → α} (fits : head + n ≤ N) :
    entries N slots head n = load slots head n := by
  refine List.map_congr_left fun i hi => ?_
  have inside := List.mem_range.mp hi
  rw [Nat.mod_eq_of_lt (by omega)]

theorem load_eq_load_iff {m : ℕ → α} {a c n : ℕ} :
    load m a n = load m c n ↔ ∀ i < n, m (a + i) = m (c + i) := by
  rw [load, load, List.map_inj_left]
  exact forall_congr' fun i => by rw [List.mem_range]

namespace Represents

/-- The first entries, as many as a bulk read counts. -/
theorem take_count (represents : Represents b q) (length : BitVec 16) :
    q.entries.take (b.count length).toNat = q.entries.take length.toNat := by
  rw [count_toNat, represents.available_eq, min_comm, ← List.take_take, List.take_length]

theorem popFront_count (represents : Represents b q) (length : BitVec 16) :
    q.popFront (b.count length).toNat = q.popFront length.toNat := by
  ext1
  rw [count_toNat, represents.available_eq, BoundedQueue.entries_popFront,
    BoundedQueue.entries_popFront]
  rcases le_total q.entries.length length.toNat with beyond | within
  · rw [min_eq_left beyond, List.drop_length, List.drop_of_length_le beyond]
  · rw [min_eq_right within]

/-- Single reads take the oldest entries in their order. -/
theorem reads (masked : Masked size) (represents : Represents b q) {n : ℕ}
    (enough : n ≤ q.entries.length) :
    (b.reads n).1 = q.entries.take n ∧ Represents (b.reads n).2 (q.popFront n) := by
  induction n generalizing b q with
  | zero => exact ⟨rfl, represents⟩
  | succ n ih =>
      have nonempty : q.entries ≠ [] := List.length_pos_iff.mp (by omega)
      obtain ⟨first, next⟩ := represents.read masked nonempty
      have rest : n ≤ (q.popFront 1).entries.length := by
        rw [BoundedQueue.entries_popFront, List.length_drop]
        omega
      obtain ⟨values, after⟩ := ih next rest
      refine ⟨?_, ?_⟩
      · rw [CircularBuffer.reads, values]
        conv_rhs => rw [first, List.take_succ_cons]
      · have later : (q.popFront 1).popFront n = q.popFront (n + 1) := by
          ext1
          rw [BoundedQueue.entries_popFront, BoundedQueue.entries_popFront,
            BoundedQueue.entries_popFront, List.drop_drop, Nat.add_comm]
        rw [← later]
        exact after

/-- The first `n` entries, where they do not pass the end of the array. -/
theorem take_eq_load (represents : Represents b q) {n : ℕ} (enough : n ≤ q.entries.length)
    (block : n + b.head.toNat < size.toNat) : q.entries.take n = load b.cbuf b.head.toNat n := by
  rw [← entries_eq_load (by omega : b.head.toNat + n ≤ size.toNat)]
  conv_lhs => rw [← represents.entries_eq]
  exact take_entries enough

/-- A block is taken at once as by single reads. -/
theorem skip (masked : Masked size) (represents : Represents b q) {length : BitVec 16}
    (enough : length.toNat ≤ q.entries.length) :
    Represents
      { b with available := b.available - length, head := counter size (b.head + length) }
      (q.popFront length.toNat) := by
  have pos := masked.pos
  have left : (q.popFront length.toNat).entries.length = q.entries.length - length.toNat := by
    rw [BoundedQueue.entries_popFront, List.length_drop]
  refine ⟨⟨?_, ?_, ?_⟩, ?_⟩
  · rw [counter_eq masked]
    exact Nat.mod_lt _ (by omega)
  · have lt := b.available.isLt
    rw [left, BitVec.toNat_sub, represents.available_eq]
    rw [represents.available_eq] at lt
    omega
  · have same : (counter size (b.head + length)).toNat % size.toNat =
        (b.head.toNat + length.toNat) % size.toNat := by
      rw [counter_add masked, mod_size_congr]
    rw [left, entries_congr same, ← drop_entries enough, represents.entries_eq,
      BoundedQueue.entries_popFront]
  · rw [left, counter_add masked, Nat.mod_add_mod, represents.tail_eq, Nat.add_assoc,
      Nat.add_sub_cancel' enough]

/-- **Bulk reads.** A bulk read returns the oldest entries and removes them exactly under
its condition. -/
theorem readBytes_iff (masked : Masked size) (represents : Represents b q)
    (length : BitVec 16) :
    (b.readBytes length).1 = q.entries.take length.toNat ∧
        Represents (b.readBytes length).2 (q.popFront length.toNat) ↔ ReadsAgree b length := by
  have available := represents.available_eq
  have counted := count_toNat b length
  have enough : (b.count length).toNat ≤ q.entries.length := by omega
  by_cases block : (b.count length).toNat + b.head.toNat < size.toNat
  · rw [CircularBuffer.readBytes, if_pos (by omega), ReadsAgree, imp_iff_right block,
      ← represents.take_count, represents.take_eq_load enough block, load_eq_load_iff]
    simp only [Nat.zero_add]
    rw [and_comm, and_congr_left]
    rintro -
    constructor
    · intro after
      by_contra less
      have none_left := after.available_eq
      rw [BoundedQueue.entries_popFront, List.length_drop, BitVec.toNat_sub] at none_left
      have lt := length.isLt
      omega
    · intro within
      have whole : b.count length = length :=
        BitVec.eq_of_toNat_eq (by rw [counted, min_eq_right within])
      rw [whole]
      exact represents.skip masked (within.trans_eq available)
  · rw [CircularBuffer.readBytes, if_neg (by omega), ← represents.take_count,
      ← represents.popFront_count]
    exact iff_of_true (represents.reads masked enough) fun less => absurd less block

/-- A peek at an entry. -/
theorem peek [Zero α] (masked : Masked size) (represents : Represents b q) {pos : BitVec 16}
    (inside : pos.toNat < q.entries.length) : q.entries[pos.toNat]? = some (b.peek pos) := by
  have le := q.bounded
  conv_lhs => rw [← represents.entries_eq, getElem?_entries inside]
  rw [CircularBuffer.peek, if_neg (by rw [BitVec.lt_def]; omega), slot_add masked]

/-- A bulk peek shows the oldest entries exactly under its condition. -/
theorem peekBytes_iff [Zero α] (masked : Masked size) (represents : Represents b q)
    (length : BitVec 16) :
    b.peekBytes length = q.entries.take length.toNat ↔ PeeksAgree b length := by
  have available := represents.available_eq
  have counted := count_toNat b length
  have enough : (b.count length).toNat ≤ q.entries.length := by omega
  rw [← represents.take_count]
  by_cases block : (b.count length).toNat + b.head.toNat < size.toNat
  · rw [CircularBuffer.peekBytes, if_pos (by omega), PeeksAgree, imp_iff_right block,
      represents.take_eq_load enough block, load_eq_load_iff]
    simp only [Nat.zero_add]
  · rw [CircularBuffer.peekBytes, if_neg (by omega)]
    refine iff_of_true (List.ext_getElem? fun i => ?_) fun less => absurd less block
    rcases lt_or_ge i (b.count length).toNat with inside | past
    · have word : (BitVec.ofNat 16 i).toNat = i :=
        Nat.mod_eq_of_lt (inside.trans (b.count length).isLt)
      have shown : q.entries[(BitVec.ofNat 16 i).toNat]? = some (b.peek (BitVec.ofNat 16 i)) :=
        represents.peek masked (by omega)
      rw [word] at shown
      rw [List.getElem?_take_of_lt inside, shown, List.getElem?_map, List.getElem?_range inside]
      rfl
    · rw [List.getElem?_eq_none (by simpa using past),
        List.getElem?_eq_none (by rw [List.length_take]; omega)]

end Represents

/-! ### Pushes in front -/

/-- How many entries `push_front(buffer, length)` pushes. -/
def pushed (length : BitVec 16) : ℕ := if length = 0 then 2 ^ 16 else length.toNat

theorem pushFrontBuffer_eq (b : CircularBuffer α size) (buffer : ℕ → α) (length : BitVec 16) :
    b.pushFrontBuffer buffer length =
      (load buffer 0 (pushed length)).foldr (fun x b => b.pushFront x) b := by
  have one : (1 : BitVec 16).toNat = 1 := rfl
  have count : pushed length = (length - 1).toNat + 1 := by
    rw [pushed, BitVec.toNat_sub, one]
    split
    case isTrue zero => rw [zero]; rfl
    case isFalse nonzero =>
        have lt := length.isLt
        have pos : 0 < length.toNat :=
          Nat.pos_of_ne_zero fun zero => nonzero (BitVec.eq_of_toNat_eq zero)
        omega
  rw [count, load, List.range_succ_eq_map, List.map_cons, List.map_map, List.foldr_cons,
    CircularBuffer.pushFrontBuffer, load, Nat.zero_add]
  congr 2
  refine List.map_congr_left fun i _ => ?_
  rw [Function.comp, Nat.zero_add, Nat.add_comm]

/-- Pushes in front show their values and the entries behind them, and go back by as many
counters. The tail stays. -/
theorem Shows.pushes (masked : Masked size) (shows : Shows b q) (xs : List α) :
    Shows (xs.foldr (fun x b => b.pushFront x) b) (q.prepend xs) ∧
      ((xs.foldr (fun x b => b.pushFront x) b).head.toNat + xs.length) % (2 * size.toNat) =
        b.head.toNat ∧
      (xs.foldr (fun x b => b.pushFront x) b).tail = b.tail := by
  induction xs with
  | nil =>
      rw [BoundedQueue.prepend_nil]
      exact ⟨shows, Nat.mod_eq_of_lt shows.head_lt, rfl⟩
  | cons x xs ih =>
      obtain ⟨shown, head, tail⟩ := ih
      have pos := masked.pos
      have next := shown.pushFront masked x
      rw [BoundedQueue.prepend_prepend, List.singleton_append] at next
      have onward (n : ℕ) : n + (2 * size.toNat - 1) + (xs.length + 1) =
          n + xs.length + 2 * size.toNat := by omega
      refine ⟨next, ?_, tail⟩
      rw [List.foldr_cons, Shows.head_pushFront masked, List.length_cons, Nat.mod_add_mod, onward,
        Nat.add_mod_right]
      exact head

/-- The condition of pushes in front: they fit, or what does not goes round the counters a
whole number of times. -/
def PushesAgree (b : CircularBuffer α size) (n : ℕ) : Prop :=
  b.available.toNat + n ≤ size.toNat ∨ 2 * size.toNat ∣ b.available.toNat + n - size.toNat

/-- **Pushes in front** show the right entries in any case, and leave a buffer that holds
them exactly under their condition. -/
theorem Represents.pushes_iff (masked : Masked size) (represents : Represents b q) (xs : List α) :
    Shows (xs.foldr (fun x b => b.pushFront x) b) (q.prepend xs) ∧
      (Represents (xs.foldr (fun x b => b.pushFront x) b) (q.prepend xs) ↔
        PushesAgree b xs.length) := by
  obtain ⟨shows, head, tail⟩ := represents.toShows.pushes masked xs
  refine ⟨shows, ?_⟩
  have length : (q.prepend xs).entries.length = min size.toNat (xs.length + q.entries.length) := by
    rw [BoundedQueue.entries_prepend, List.length_take, List.length_append]
  have ends : Represents (xs.foldr (fun x b => b.pushFront x) b) (q.prepend xs) ↔
      b.tail.toNat = ((xs.foldr (fun x b => b.pushFront x) b).head.toNat +
        min size.toNat (xs.length + q.entries.length)) % (2 * size.toNat) := by
    rw [← length, ← tail]
    exact ⟨fun after => after.tail_eq, fun place => ⟨shows, place⟩⟩
  rw [ends, represents.tail_eq, ← head, Nat.mod_add_mod, Nat.add_assoc, PushesAgree,
    represents.available_eq]
  rcases le_or_gt (xs.length + q.entries.length) size.toNat with fits | beyond
  · rw [min_eq_right fits]
    exact iff_of_true rfl (.inl (by omega))
  · rw [min_eq_left beyond.le, or_iff_right (by omega)]
    have differ := Nat.modEq_iff_dvd' (n := 2 * size.toNat) (Nat.add_le_add_left beyond.le
      (xs.foldr (fun x b => b.pushFront x) b).head.toNat)
    rw [Nat.add_sub_add_left, Nat.add_comm xs.length] at differ
    rw [Nat.add_comm xs.length, ← differ]
    exact eq_comm

theorem Represents.pushFront (masked : Masked size) (represents : Represents b q)
    (room : q.entries.length < size.toNat) (value : α) :
    Represents (b.pushFront value) (q.prepend [value]) := by
  refine (represents.pushes_iff masked [value]).2.mpr (.inl ?_)
  rw [represents.available_eq, List.length_singleton]
  exact room

end RFPowerDetector.Buffer
