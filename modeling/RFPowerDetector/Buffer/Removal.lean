/-
`remove(pos)` in the array mode.

The row `pos` lies `rowIndex` rows behind the head. Those before it move up by one, and
the head goes ahead: an entry is erased, and the others stay in order. The call does not
ask whether the row is in use.
-/

import RFPowerDetector.Buffer.Rows

namespace RFPowerDetector.Buffer

open Circular Memory

variable {w : ℕ} {size : BitVec 16} {multi : ℕ}

/-- How far the row `pos` is behind the one of the head. -/
def rowIndex (size head pos : BitVec 16) : ℕ :=
  (pos.toNat + (size.toNat - head.toNat % size.toNat)) % size.toNat

theorem rowIndex_lt (masked : Masked size) (head pos : BitVec 16) :
    rowIndex size head pos < size.toNat :=
  Nat.mod_lt _ masked.pos

theorem slot_rowIndex (masked : Masked size) (head : BitVec 16) {pos : BitVec 16}
    (within : pos < size) :
    slot size (head + BitVec.ofNat 16 (rowIndex size head pos)) = pos.toNat := by
  have lt := size.isLt
  have positive := masked.pos
  have onward : head.toNat % size.toNat + (pos.toNat + (size.toNat - head.toNat % size.toNat)) =
      pos.toNat + size.toNat := by
    have := Nat.mod_lt head.toNat positive
    omega
  rw [slot_add masked, BitVec.toNat_ofNat,
    Nat.mod_eq_of_lt ((rowIndex_lt masked head pos).trans lt), rowIndex, Nat.add_mod_mod,
    ← Nat.mod_add_mod, onward, Nat.add_mod_right]
  exact Nat.mod_eq_of_lt within

/-- The index of the row of an entry. -/
theorem rowIndex_entry (masked : Masked size) (head : BitVec 16) {j : ℕ} (hj : j < size.toNat) :
    (head + BitVec.ofNat 16 j) &&& (size - 1) < size ∧
      rowIndex size head ((head + BitVec.ofNat 16 j) &&& (size - 1)) = j := by
  have lt := size.isLt
  have place : ((head + BitVec.ofNat 16 j) &&& (size - 1)).toNat =
      (head.toNat + j) % size.toNat := by
    have slot := slot_add masked head (BitVec.ofNat 16 j)
    rwa [BitVec.toNat_ofNat, Nat.mod_eq_of_lt (hj.trans lt)] at slot
  have around : head.toNat + j + (size.toNat - head.toNat % size.toNat) =
      j + size.toNat * (head.toNat / size.toNat + 1) := by
    have below := Nat.mod_lt head.toNat masked.pos
    have split := Nat.div_add_mod head.toNat size.toNat
    rw [Nat.mul_add, Nat.mul_one]
    omega
  refine ⟨?_, ?_⟩
  · rw [BitVec.lt_def, place]
    exact Nat.mod_lt _ masked.pos
  · rw [rowIndex, place, Nat.mod_add_mod, around, Nat.add_mul_mod_self_left]
    exact Nat.mod_eq_of_lt hj

/-- The search of `remove` finds the index. -/
theorem find_rowIndex (masked : Masked size) (head : BitVec 16) {pos : BitVec 16}
    (within : pos < size) :
    ((List.range size.toNat).find? fun i =>
      slot size (head + BitVec.ofNat 16 i) = pos.toNat) = some (rowIndex size head pos) := by
  have lt := size.isLt
  have below := rowIndex_lt masked head pos
  have place := slot_rowIndex masked head within
  refine List.find?_range_eq_some.mpr ⟨decide_eq_true place, List.mem_range.mpr below, ?_⟩
  intro j hj
  have apart : (head.toNat + j) % size.toNat ≠
      (head.toNat + rowIndex size head pos) % size.toNat :=
    slot_ne hj (Nat.lt_add_left j below)
  rw [Bool.not_eq_true', decide_eq_false_iff_not, ← place, slot_add masked, slot_add masked,
    BitVec.toNat_ofNat, BitVec.toNat_ofNat, Nat.mod_eq_of_lt ((hj.trans below).trans lt),
    Nat.mod_eq_of_lt (below.trans lt)]
  exact apart

namespace ArrayBuffer

variable {b : ArrayBuffer w size multi}

theorem remove_outside {pos : BitVec 16} (outside : size ≤ pos) : b.remove pos = (false, b) :=
  if_pos outside

/-- The rows after a removal. -/
theorem rows_remove (masked : Masked size) {pos : BitVec 16} (within : pos < size) :
    (b.remove pos).1 = true ∧ (b.remove pos).2.rows =
      ⟨counter size (b.head + 1), b.tail, b.available - 1,
        moveUp size.toNat b.head.toNat (rowIndex size b.head pos) b.rows.cbuf⟩ := by
  have inside : ¬size ≤ pos := BitVec.not_le.mpr within
  have moved := rows_moveRows (b := b) masked (rowIndex_lt masked b.head pos)
  have head : (b.moveRows (rowIndex size b.head pos)).head = b.head :=
    congrArg CircularBuffer.head moved
  have tail : (b.moveRows (rowIndex size b.head pos)).tail = b.tail :=
    congrArg CircularBuffer.tail moved
  have available : (b.moveRows (rowIndex size b.head pos)).available = b.available :=
    congrArg CircularBuffer.available moved
  have slots := congrArg CircularBuffer.cbuf moved
  rw [remove, if_neg inside, find_rowIndex masked b.head within]
  refine ⟨rfl, CircularBuffer.ext ?_ tail ?_ slots⟩
  · exact congrArg (fun c => counter size (c + 1)) head
  · exact congrArg (· - 1) available

end ArrayBuffer

namespace Represents

variable {b : ArrayBuffer w size multi} {q : BoundedQueue (List (BitVec w)) size.toNat}
  {pos : BitVec 16}

/-- The counters after a removal fit a queue with one entry less. -/
theorem of_moved (masked : Masked size) (represents : Represents b.rows q)
    {q' : BoundedQueue (List (BitVec w)) size.toNat} {slots : ℕ → List (BitVec w)}
    (nonempty : 0 < q.entries.length) (fewer : q'.entries.length = q.entries.length - 1)
    (moved : entries size.toNat slots (b.head.toNat + 1) (q.entries.length - 1) = q'.entries) :
    Represents ⟨counter size (b.head + 1), b.tail, b.available - 1, slots⟩ q' := by
  have one : (1 : BitVec 16).toNat = 1 := rfl
  have positive := masked.pos
  have available : b.available.toNat = q.entries.length := represents.available_eq
  refine ⟨⟨?_, ?_, ?_⟩, ?_⟩
  · rw [counter_eq masked]
    exact Nat.mod_lt _ (by omega)
  · have lt := b.available.isLt
    rw [BitVec.toNat_sub, one, fewer]
    omega
  · rw [entries_head_succ masked, fewer]
    exact moved
  · have tail : b.tail.toNat = (b.head.toNat + q.entries.length) % (2 * size.toNat) :=
      represents.tail_eq
    rw [counter_add masked, Nat.mod_add_mod, fewer, one, tail, Nat.add_assoc,
      Nat.add_sub_cancel' nonempty]

/-- The row of an entry: the entry is erased. -/
theorem remove (masked : Masked size) (represents : Represents b.rows q) (within : pos < size)
    (used : rowIndex size b.head pos < q.entries.length) :
    Represents (b.remove pos).2.rows (q.eraseIdx (rowIndex size b.head pos)) := by
  rw [(ArrayBuffer.rows_remove masked within).2]
  refine represents.of_moved masked (Nat.zero_lt_of_lt used) ?_ ?_
  · rw [BoundedQueue.entries_eraseIdx, List.length_eraseIdx_of_lt used]
  · have shown := represents.entries_eq
    rw [ArrayBuffer.rows_head] at shown
    rw [entries_moveUp used q.bounded, shown, BoundedQueue.entries_eraseIdx]

/-- A free row: the newest entry is dropped. -/
theorem remove_free (masked : Masked size) (represents : Represents b.rows q)
    (within : pos < size) (free : q.entries.length ≤ rowIndex size b.head pos)
    (nonempty : q.entries ≠ []) : Represents (b.remove pos).2.rows q.popBack := by
  rw [(ArrayBuffer.rows_remove masked within).2]
  refine represents.of_moved masked (List.length_pos_iff.mpr nonempty) ?_ ?_
  · rw [BoundedQueue.entries_popBack, List.length_dropLast]
  · rw [entries_moveUp_free free (rowIndex_lt masked b.head pos), BoundedQueue.entries_popBack]
    exact congrArg List.dropLast represents.entries_eq

/-- Every removal lowers the count, that of the empty buffer to 65535. -/
theorem available_remove (masked : Masked size) (represents : Represents b.rows q)
    (within : pos < size) :
    (b.remove pos).2.available.toNat = (q.entries.length + 65535) % 65536 := by
  have one : (1 : BitVec 16).toNat = 1 := rfl
  have available : (b.remove pos).2.available = b.available - 1 :=
    congrArg CircularBuffer.available (ArrayBuffer.rows_remove masked within).2
  have count : b.available.toNat = q.entries.length := represents.available_eq
  rw [available, BitVec.toNat_sub, one, count, Nat.add_comm]

end Represents

/-- **Removal by row.** An index beyond the array is refused. Any other is said to be
removed: the entry is, and the order of the others is kept, exactly when the row is in use;
a free row costs the newest entry, and the empty buffer counts 65535 entries. -/
theorem remove_spec {b : ArrayBuffer w size multi}
    {q : BoundedQueue (List (BitVec w)) size.toNat} (masked : Masked size)
    (represents : Represents b.rows q) (pos : BitVec 16) :
    ((b.remove pos).1 = true ↔ pos < size) ∧ (size ≤ pos → (b.remove pos).2 = b) ∧
      (pos < size →
        (Represents (b.remove pos).2.rows (q.eraseIdx (rowIndex size b.head pos)) ↔
            rowIndex size b.head pos < q.entries.length) ∧
          (q.entries.length ≤ rowIndex size b.head pos →
            (q.entries ≠ [] → Represents (b.remove pos).2.rows q.popBack) ∧
              (q.entries = [] → (b.remove pos).2.available = 65535))) := by
  refine ⟨?_, fun outside => congrArg Prod.snd (ArrayBuffer.remove_outside outside), ?_⟩
  · by_cases within : pos < size
    · exact iff_of_true (ArrayBuffer.rows_remove masked within).1 within
    · rw [ArrayBuffer.remove_outside (BitVec.not_lt.mp within)]
      exact iff_of_false Bool.false_ne_true within
  · intro within
    have count := represents.available_remove masked within
    have bounded := q.bounded
    have small := size.isLt
    refine ⟨⟨?_, represents.remove masked within⟩, fun free => ⟨?_, ?_⟩⟩
    · intro erased
      by_contra free
      have same : (q.eraseIdx (rowIndex size b.head pos)).entries = q.entries :=
        List.eraseIdx_of_length_le (not_lt.mp free)
      have kept := erased.available_eq
      rw [same, ArrayBuffer.rows_available, count] at kept
      omega
    · exact represents.remove_free masked within free
    · intro empty
      rw [empty] at count
      exact BitVec.eq_of_toNat_eq count

/-- Three entries of one byte, and the removal of the row of the second. -/
theorem remove_spec_three :
    ∃ q : BoundedQueue (List (BitVec 8)) (4 : BitVec 16).toNat, q.entries = [[0, 1, 7], [0, 1, 5]] ∧
      Represents (((((ArrayBuffer.declared fun _ => 0 : ArrayBuffer 8 4 1).write (fun _ => 7) 1).write
        (fun _ => 9) 1).write (fun _ => 5) 1).remove 1).2.rows q := by
  have masked : Masked 4 := ⟨2, rfl⟩
  have start : Represents (ArrayBuffer.declared fun _ => 0 : ArrayBuffer 8 4 1).rows .empty :=
    represents_declared masked _
  have fits : (1 : BitVec 16).toNat ≤ 1 := le_rfl
  have third := ((start.writeRow masked (fun _ => 7) fits).writeRow masked (fun _ => 9)
    fits).writeRow masked (fun _ => 5) fits
  obtain ⟨-, -, erased⟩ := remove_spec masked third 1
  obtain ⟨inUse, -⟩ := erased (by decide)
  exact ⟨_, by decide +kernel, inUse.mpr (by decide +kernel)⟩

end RFPowerDetector.Buffer
