/-
The rows of the array mode, as the entries of a queue.

`rows` reads the flat array row by row, so that each call is a call of the other mode on
whole rows: a store writes over the beginning of a row and leaves the rest of it. What is
true of the queue of rows holds for whatever they contain.
-/

import RFPowerDetector.Buffer.ArrayMode
import RFPowerDetector.Buffer.Runs

namespace RFPowerDetector.Buffer

open Circular Memory

variable {w : ℕ} {size : BitVec 16} {multi : ℕ}

/-- A row after a store at its beginning. -/
def overwrite (row values : List (BitVec w)) : List (BitVec w) :=
  values ++ row.drop values.length

theorem length_writtenRow (buffer : ℕ → BitVec w) (length : BitVec 16) :
    (writtenRow buffer length).length = length.toNat + 2 := by
  rw [writtenRow, List.length_append, length_load, Nat.add_comm]
  rfl

theorem length_pushedRow (buffer : ℕ → BitVec w) (length : BitVec 16) :
    (pushedRow buffer length).length = length.toNat + 2 := by
  rw [pushedRow, List.length_append, length_load, Nat.add_comm]
  rfl

namespace ArrayBuffer

/-- The rows, in the place of the other mode's array. -/
def rows (b : ArrayBuffer w size multi) : CircularBuffer (List (BitVec w)) size :=
  ⟨b.head, b.tail, b.available, fun i => load b.cabuf (i * (multi + 2)) (multi + 2)⟩

@[simp] theorem rows_head (b : ArrayBuffer w size multi) : b.rows.head = b.head := rfl

@[simp] theorem rows_tail (b : ArrayBuffer w size multi) : b.rows.tail = b.tail := rfl

@[simp] theorem rows_available (b : ArrayBuffer w size multi) :
    b.rows.available = b.available := rfl

/-- The row of a counter. -/
def row (b : ArrayBuffer w size multi) (x : BitVec 16) : List (BitVec w) :=
  b.rows.cbuf (slot size x)

@[simp] theorem length_row (b : ArrayBuffer w size multi) (x : BitVec 16) :
    (b.row x).length = multi + 2 :=
  length_load ..

variable {b : ArrayBuffer w size multi}

/-- A store into a row changes this one only. -/
theorem rows_storeRow (x : BitVec 16) {values : List (BitVec w)}
    (fits : values.length ≤ multi + 2) :
    (b.storeRow x values).rows.cbuf =
      Function.update b.rows.cbuf (slot size x) (overwrite (b.row x) values) := by
  funext i
  by_cases own : i = slot size x
  · subst own
    rw [Function.update_self]
    exact load_store b.cabuf _ fits
  · rw [Function.update_of_ne own]
    refine load_store_apart b.cabuf ?_
    rcases Nat.lt_or_gt_of_ne own with below | above
    · have := Nat.mul_le_mul_right (multi + 2) below
      rw [Nat.succ_mul] at this
      exact .inl this
    · have := Nat.mul_le_mul_right (multi + 2) above
      rw [Nat.succ_mul] at this
      exact .inr ((Nat.add_le_add_left fits _).trans this)

/-- The values of an entry, read from its row. -/
theorem loadEntry_eq (x : BitVec 16) {length : BitVec 16} (fits : length.toNat ≤ multi) :
    b.loadEntry x length = ((b.row x).drop 2).take length.toNat :=
  (drop_take_load b.cabuf _ (by omega)).symm

theorem rows_write (buffer : ℕ → BitVec w) {length : BitVec 16} (fits : length.toNat ≤ multi) :
    (b.write buffer length).rows =
      b.rows.write (overwrite (b.row b.tail) (writtenRow buffer length)) :=
  CircularBuffer.ext rfl rfl rfl
    (rows_storeRow b.tail (by rw [length_writtenRow]; exact Nat.add_le_add_right fits 2))

theorem rows_moveRows (masked : Masked size) {i : ℕ} (inside : i < size.toNat) :
    (b.moveRows i).rows =
      ⟨b.head, b.tail, b.available, moveUp size.toNat b.head.toNat i b.rows.cbuf⟩ := by
  induction i generalizing b with
  | zero => rfl
  | succ i ih =>
      have lt := size.isLt
      have index {j : ℕ} (small : j < size.toNat) :
          slot size (b.head + BitVec.ofNat 16 j) = (b.head.toNat + j) % size.toNat := by
        rw [slot_add masked, BitVec.toNat_ofNat, Nat.mod_eq_of_lt (small.trans lt)]
      have apart : slot size (b.head + BitVec.ofNat 16 (i + 1)) ≠ slot size b.head := by
        have differ : (b.head.toNat + 0) % size.toNat ≠ (b.head.toNat + (i + 1)) % size.toNat :=
          slot_ne i.succ_pos (by omega)
        rw [index inside, slot_eq masked]
        exact differ.symm
      have whole : (load b.cabuf (rowStart size multi (b.head + BitVec.ofNat 16 i))
          (multi + 2)).length = multi + 2 := length_load ..
      have moved := rows_storeRow (b := b) (b.head + BitVec.ofNat 16 (i + 1)) whole.le
      rw [overwrite, whole, List.drop_of_length_le (length_row ..).le, List.append_nil,
        index inside] at moved
      have source : load b.cabuf (rowStart size multi (b.head + BitVec.ofNat 16 i)) (multi + 2) =
          b.rows.cbuf ((b.head.toNat + i) % size.toNat) := by
        rw [← index (by omega)]
        rfl
      rw [moveRows, if_neg apart, ih (by omega), moveUp, moved, source]
      rfl

end ArrayBuffer

namespace Represents

open ArrayBuffer

variable {b : ArrayBuffer w size multi} {q : BoundedQueue (List (BitVec w)) size.toNat}

/-- The rows of the entries. -/
theorem row (masked : Masked size) (represents : Represents b.rows q) {i : ℕ}
    (inside : i < q.entries.length) :
    q.entries[i]? = some (b.row (b.head + BitVec.ofNat 16 i)) := by
  conv_lhs => rw [← represents.entries_eq, getElem?_entries inside]
  rw [ArrayBuffer.row, slot_add masked, represents.word inside]
  rfl

theorem frontRow (masked : Masked size) (represents : Represents b.rows q)
    (nonempty : q.entries ≠ []) : q.entries.head? = some (b.row b.head) := by
  have first := represents.row masked (List.length_pos_iff.mpr nonempty)
  rwa [BitVec.add_zero, ← List.head?_eq_getElem?] at first

/-- Counted from the head, the newest entry is where it is. -/
theorem backRow (masked : Masked size) (represents : Represents b.rows q)
    (nonempty : q.entries ≠ []) :
    q.entries.getLast? = some (b.row (b.head + b.available - 1)) := by
  have count : b.available.toNat = q.entries.length := represents.available_eq
  have positive := List.length_pos_iff.mpr nonempty
  have last := represents.row masked (Nat.sub_lt positive Nat.one_pos)
  have place : b.head + BitVec.ofNat 16 (q.entries.length - 1) = b.head + b.available - 1 := by
    rw [← count] at positive ⊢
    bv_omega
  rwa [place, ← List.getLast?_eq_getElem?] at last

theorem writeRow (masked : Masked size) (represents : Represents b.rows q)
    (buffer : ℕ → BitVec w) {length : BitVec 16} (fits : length.toNat ≤ multi) :
    Represents (b.write buffer length).rows
      (q.append [overwrite (b.row b.tail) (writtenRow buffer length)]) := by
  rw [rows_write buffer fits]
  exact represents.write masked _

/-- A push in front of a full buffer drops the newest entry first. -/
theorem pushFrontRow (masked : Masked size) (represents : Represents b.rows q)
    (buffer : ℕ → BitVec w) {length : BitVec 16} (fits : length.toNat ≤ multi) :
    Represents (b.pushFront buffer length).rows
      (q.prepend
        [overwrite (b.row (counter size (b.head - 1))) (pushedRow buffer length)]) := by
  have pos := masked.pos
  have whole : (pushedRow buffer length).length ≤ multi + 2 := by
    rw [length_pushedRow]
    exact Nat.add_le_add_right fits 2
  have stored := rows_storeRow (b := b) (counter size (b.head - 1)) whole
  generalize overwrite (b.row (counter size (b.head - 1))) (pushedRow buffer length) = new
    at stored ⊢
  rcases Nat.lt_or_eq_of_le q.bounded with room | full
  · have notFull : b.tail ≠ b.head ^^^ size := fun eq => room.ne ((represents.full masked).mp eq)
    have same : (b.pushFront buffer length).rows = b.rows.pushFront new :=
      CircularBuffer.ext rfl (if_neg notFull) rfl stored
    rw [same]
    exact represents.pushFront masked room new
  · have isFull : b.tail = b.head ^^^ size := (represents.full masked).mpr full
    have dropped := represents.dropBack masked (by omega)
    have one : (1 : BitVec 16).toNat = 1 := rfl
    have count : b.available.toNat = size.toNat := represents.available_eq.trans full
    have available : b.available = size := BitVec.eq_of_toNat_eq count
    have below : b.available - 1 < size := by
      rw [BitVec.lt_def, BitVec.toNat_sub, one, count]
      have := size.isLt
      omega
    have same : (b.pushFront buffer length).rows = CircularBuffer.pushFront
        { b.rows with available := b.available - 1, tail := counter size (b.tail - 1) } new := by
      refine CircularBuffer.ext rfl (if_pos isFull) ?_ stored
      have kept : (b.pushFront buffer length).available = b.available :=
        if_neg (by rw [available]; exact BitVec.lt_irrefl _)
      refine kept.trans (Eq.symm ?_)
      exact (if_pos below).trans (BitVec.sub_add_cancel _ _)
    have length : q.popBack.entries.length = size.toNat - 1 := by
      rw [BoundedQueue.entries_popBack, List.length_dropLast, full]
    have prepended : q.popBack.prepend [new] = q.prepend [new] := by
      ext1
      rw [BoundedQueue.entries_prepend, BoundedQueue.entries_prepend, List.singleton_append,
        List.singleton_append, List.take_cons pos, List.take_cons pos,
        List.take_of_length_le length.le, BoundedQueue.entries_popBack, List.dropLast_eq_take, full]
    rw [same, ← prepended]
    exact dropped.pushFront masked (by omega) new

theorem readRow (masked : Masked size) (represents : Represents b.rows q)
    (nonempty : q.entries ≠ []) : Represents b.read.rows (q.popFront 1) :=
  (represents.read masked nonempty).2

theorem popBackRow (masked : Masked size) (represents : Represents b.rows q)
    (nonempty : q.entries ≠ []) (length : BitVec 16) :
    Represents (b.popBack length).2.rows q.popBack := by
  have dropped := represents.dropBack masked (List.length_pos_iff.mpr nonempty)
  have taken : b.available ≠ 0 := mt represents.empty_iff.mp nonempty
  have same : (b.popBack length).2.rows =
      { b.rows with available := b.available - 1, tail := counter size (b.tail - 1) } :=
    CircularBuffer.ext rfl rfl (if_pos taken) rfl
  rw [same]
  exact dropped

/-- A store into the row of an entry replaces the entry. -/
theorem storeRow (masked : Masked size) (represents : Represents b.rows q) {i : ℕ}
    (inside : i < q.entries.length) {values : List (BitVec w)}
    (fits : values.length ≤ multi + 2) :
    Represents (b.storeRow (b.head + BitVec.ofNat 16 i) values).rows
      (q.replace (q.entries.set i (overwrite (b.row (b.head + BitVec.ofNat 16 i)) values))
        List.length_set) := by
  have stored := rows_storeRow (b := b) (b.head + BitVec.ofNat 16 i) fits
  generalize overwrite (b.row (b.head + BitVec.ofNat 16 i)) values = new at stored ⊢
  have length : (q.replace (q.entries.set i new) List.length_set).entries.length =
      q.entries.length := List.length_set
  refine ⟨⟨represents.head_lt, ?_, ?_⟩, ?_⟩
  · rw [length]
    exact represents.available_eq
  · rw [length, stored, slot_add masked, represents.word inside]
    exact (entries_set inside q.bounded new).trans
      (congrArg (fun entries => entries.set i new) represents.entries_eq)
  · rw [length]
    exact represents.tail_eq

end Represents

end RFPowerDetector.Buffer
