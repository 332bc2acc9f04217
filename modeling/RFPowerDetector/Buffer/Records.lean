/-
The array mode under any sequence of calls, against a bounded queue of records.

A record is the list of an entry's values. It lies in its row behind its length, and what
the row held before is behind it (`Laid`, `entryOf`). `arrays` makes the calls of the
buffer, `records` what they are for. The buffer follows the queue as long as its calls are
`Proper`: records fit their rows and their lengths the two values, and no call asks an
empty queue for an entry or an entry for more values than it has.
-/

import RFPowerDetector.Buffer.Lengths
import RFPowerDetector.Buffer.Removal

namespace RFPowerDetector.Buffer

open Circular Memory Transition

variable {w : ℕ} {size : BitVec 16} {multi : ℕ}

/-! ### Records in rows -/

/-- The values of a row's entry: as many as its length says. -/
def entryOf (row : List (BitVec w)) : List (BitVec w) :=
  (row.drop 2).take (joined (row.getD 0 0) (row.getD 1 0)).toNat

/-- The row begins with a record that fits it, and whose length reads back. -/
def Laid (multi : ℕ) (row : List (BitVec w)) : Prop :=
  ∃ (buffer : ℕ → BitVec w) (length : BitVec 16), length.toNat ≤ multi ∧
    (length < 256 ∨ w = 8) ∧ writtenRow buffer length <+: row

theorem entryOf_written (unsigned : Unsigned w) (buffer : ℕ → BitVec w) {length : BitVec 16}
    (reads : length < 256 ∨ w = 8) (rest : List (BitVec w)) :
    entryOf (writtenRow buffer length ++ rest) = load buffer 0 length.toNat := by
  have header := (joined_written_iff unsigned length).mpr reads
  change (load buffer 0 length.toNat ++ rest).take
    (joined ((length >>> 8).setWidth w) ((length &&& 0xFF).setWidth w)).toNat = _
  rw [header, List.take_left' (length_load ..)]

theorem laid_overwrite (buffer : ℕ → BitVec w) {length : BitVec 16}
    (fits : length.toNat ≤ multi) (reads : length < 256 ∨ w = 8) (row : List (BitVec w)) :
    Laid multi (overwrite row (writtenRow buffer length)) :=
  ⟨buffer, length, fits, reads, List.prefix_append _ _⟩

namespace Laid

variable {row : List (BitVec w)}

/-- The length of the record is the one in the row. -/
theorem joined_eq (unsigned : Unsigned w) (laid : Laid multi row) :
    joined (row.getD 0 0) (row.getD 1 0) = BitVec.ofNat 16 (entryOf row).length := by
  obtain ⟨buffer, length, -, reads, rest, rfl⟩ := laid
  rw [entryOf_written unsigned buffer reads, length_load, BitVec.ofNat_toNat, BitVec.setWidth_eq]
  exact (joined_written_iff unsigned length).mpr reads

/-- Below 256 the upper value is 0. -/
theorem or_eq (unsigned : Unsigned w) (laid : Laid multi row)
    (small : (entryOf row).length < 256) :
    (row.getD 0 0 ||| row.getD 1 0).toNat = (entryOf row).length := by
  obtain ⟨buffer, length, -, reads, rest, rfl⟩ := laid
  rw [entryOf_written unsigned buffer reads, length_load] at small ⊢
  change ((length >>> 8).setWidth w ||| (length &&& 0xFF).setWidth w).toNat = _
  rw [BitVec.toNat_or, upper_toNat unsigned, lower_toNat unsigned, Nat.div_eq_of_lt small,
    Nat.zero_or, Nat.mod_eq_of_lt small]

end Laid

namespace ArrayBuffer

variable {b : ArrayBuffer w size multi}

/-- The values of an entry in the array. -/
theorem getElem?_entryOf {x : BitVec 16} {p : ℕ} (inside : p < (entryOf (b.row x)).length) :
    (entryOf (b.row x))[p]? = some (b.cabuf (rowStart size multi x + (p + 2))) := by
  rw [entryOf, List.length_take, List.length_drop, length_row, lt_min_iff] at inside
  rw [entryOf, List.getElem?_take_of_lt inside.1, List.getElem?_drop, Nat.add_comm 2]
  exact getElem?_load (by omega)

/-- The beginning of an entry. -/
theorem loadEntry_entryOf {x length : BitVec 16}
    (within : length.toNat ≤ (entryOf (b.row x)).length) :
    b.loadEntry x length = (entryOf (b.row x)).take length.toNat := by
  have bound := within
  rw [entryOf, List.length_take, List.length_drop, length_row, le_min_iff] at bound
  rw [loadEntry_eq x (by omega), entryOf, List.take_take, min_eq_left bound.1]

end ArrayBuffer

/-! ### The queue of records -/

/-- The entry has the values of the buffer at the positions. -/
def Agree (buffer : ℕ → BitVec w) (positions : List ℕ) (entry : List (BitVec w)) : Bool :=
  decide (∀ p ∈ positions, entry[p]? = some (buffer p))

/-- The buffer holds the records. -/
def Holds (b : ArrayBuffer w size multi) (q : BoundedQueue (List (BitVec w)) size.toNat) : Prop :=
  ∃ rows : BoundedQueue (List (BitVec w)) size.toNat,
    Represents b.rows rows ∧ (∀ row ∈ rows.entries, Laid multi row) ∧ q = rows.map entryOf

theorem holds_declared (masked : Masked size) (cabuf : ℕ → BitVec w) :
    Holds (.declared cabuf : ArrayBuffer w size multi) .empty :=
  ⟨.empty, represents_declared masked _, List.forall_mem_nil _, rfl⟩

theorem holds_clear (masked : Masked size) (b : ArrayBuffer w size multi) :
    Holds b.clear .empty :=
  ⟨.empty, represents_clear masked b.rows, List.forall_mem_nil _, rfl⟩

namespace Holds

variable {b : ArrayBuffer w size multi} {q : BoundedQueue (List (BitVec w)) size.toNat}

theorem available_eq (holds : Holds b q) : b.available.toNat = q.entries.length := by
  obtain ⟨rows, represents, -, rfl⟩ := holds
  rw [BoundedQueue.entries_map, List.length_map]
  exact represents.available_eq

/-- Each record lies in the row of its index. -/
theorem entry (masked : Masked size) (holds : Holds b q) {i : ℕ} (inside : i < q.entries.length) :
    Laid multi (b.row (b.head + BitVec.ofNat 16 i)) ∧
      q.entries[i]? = some (entryOf (b.row (b.head + BitVec.ofNat 16 i))) := by
  obtain ⟨rows, represents, laid, rfl⟩ := holds
  rw [BoundedQueue.entries_map, List.length_map] at inside
  have row := represents.row masked inside
  refine ⟨laid _ (List.mem_of_getElem? row), ?_⟩
  rw [BoundedQueue.entries_map, List.getElem?_map, row]
  rfl

theorem head? (masked : Masked size) (holds : Holds b q) (nonempty : q.entries ≠ []) :
    Laid multi (b.row b.head) ∧ q.entries.head? = some (entryOf (b.row b.head)) := by
  obtain ⟨rows, represents, laid, rfl⟩ := holds
  have first := represents.frontRow masked (mt List.map_eq_nil_iff.mpr nonempty)
  refine ⟨laid _ (List.mem_of_mem_head? first), ?_⟩
  rw [BoundedQueue.entries_map, List.head?_map, first]
  rfl

theorem getLast? (masked : Masked size) (holds : Holds b q) (nonempty : q.entries ≠ []) :
    q.entries.getLast? = some (entryOf (b.row (b.tail - 1))) := by
  obtain ⟨rows, represents, -, rfl⟩ := holds
  rw [BoundedQueue.entries_map] at nonempty ⊢
  have last := represents.getLast? masked
    (List.length_pos_iff.mpr (mt List.map_eq_nil_iff.mpr nonempty))
  rw [List.getLast?_map, last]
  rfl

/-- `length_back` looks for the newest record where it is. -/
theorem back (masked : Masked size) (holds : Holds b q) (nonempty : q.entries ≠ []) :
    Laid multi (b.row (b.head + b.available - 1)) ∧
      q.entries.getLast? = some (entryOf (b.row (b.head + b.available - 1))) := by
  obtain ⟨rows, represents, laid, rfl⟩ := holds
  have last := represents.backRow masked (mt List.map_eq_nil_iff.mpr nonempty)
  refine ⟨laid _ (List.mem_of_mem_getLast? last), ?_⟩
  rw [BoundedQueue.entries_map, List.getLast?_map, last]
  rfl

/-! ### Calls -/

theorem write (unsigned : Unsigned w) (masked : Masked size) (holds : Holds b q)
    (buffer : ℕ → BitVec w) {length : BitVec 16} (fits : length.toNat ≤ multi)
    (reads : length < 256 ∨ w = 8) :
    Holds (b.write buffer length) (q.append [load buffer 0 length.toNat]) := by
  obtain ⟨rows, represents, laid, rfl⟩ := holds
  refine ⟨_, represents.writeRow masked buffer fits, ?_, ?_⟩
  · intro row mem
    rcases List.mem_append.mp (List.mem_of_mem_drop mem) with old | new
    · exact laid row old
    · rw [List.mem_singleton.mp new]
      exact laid_overwrite buffer fits reads _
  · rw [BoundedQueue.map_append, List.map_singleton, overwrite,
      entryOf_written unsigned buffer reads]

theorem pushFront (unsigned : Unsigned w) (masked : Masked size) (holds : Holds b q)
    (buffer : ℕ → BitVec w) {length : BitVec 16} (fits : length.toNat ≤ multi)
    (small : length < 256) :
    Holds (b.pushFront buffer length) (q.prepend [load buffer 0 length.toNat]) := by
  obtain ⟨rows, represents, laid, rfl⟩ := holds
  refine ⟨_, represents.pushFrontRow masked buffer fits, ?_, ?_⟩
  · intro row mem
    rcases List.mem_append.mp (List.mem_of_mem_take mem) with new | old
    · rw [List.mem_singleton.mp new, pushedRow_eq buffer small]
      exact laid_overwrite buffer fits (.inl small) _
    · exact laid row old
  · rw [BoundedQueue.map_prepend, List.map_singleton, pushedRow_eq buffer small, overwrite,
      entryOf_written unsigned buffer (.inl small)]

theorem read (masked : Masked size) (holds : Holds b q) (nonempty : q.entries ≠ []) :
    Holds b.read (q.popFront 1) := by
  obtain ⟨rows, represents, laid, rfl⟩ := holds
  refine ⟨_, represents.readRow masked (mt List.map_eq_nil_iff.mpr nonempty), ?_,
    (BoundedQueue.map_popFront ..).symm⟩
  exact fun row mem => laid row (List.mem_of_mem_drop mem)

theorem popBack (masked : Masked size) (holds : Holds b q) (nonempty : q.entries ≠ [])
    (length : BitVec 16) : Holds (b.popBack length).2 q.popBack := by
  obtain ⟨rows, represents, laid, rfl⟩ := holds
  refine ⟨_, represents.popBackRow masked (mt List.map_eq_nil_iff.mpr nonempty) length, ?_,
    (BoundedQueue.map_popBack ..).symm⟩
  exact fun row mem => laid row (List.dropLast_subset _ mem)

/-- The row of a record is removed. -/
theorem remove (masked : Masked size) (holds : Holds b q) {j : ℕ} (hj : j < q.entries.length) :
    Holds (b.remove ((b.head + BitVec.ofNat 16 j) &&& (size - 1))).2 (q.eraseIdx j) := by
  obtain ⟨rows, represents, laid, rfl⟩ := holds
  rw [BoundedQueue.entries_map, List.length_map] at hj
  obtain ⟨within, index⟩ := rowIndex_entry masked b.head (hj.trans_le rows.bounded)
  have removed := represents.remove masked within (by rwa [index])
  rw [index] at removed
  refine ⟨_, removed, ?_, (BoundedQueue.map_eraseIdx ..).symm⟩
  exact fun row mem => laid row (List.mem_of_mem_eraseIdx mem)

/-- A record is stored in the place of another. -/
theorem store (unsigned : Unsigned w) (masked : Masked size) (holds : Holds b q)
    {j : ℕ} (hj : j < q.entries.length) (buffer : ℕ → BitVec w) {length : BitVec 16}
    (fits : length.toNat ≤ multi) (small : length < 256) :
    Holds (b.storeRow (b.head + BitVec.ofNat 16 j) (pushedRow buffer length))
      (q.replace (q.entries.set j (load buffer 0 length.toNat)) List.length_set) := by
  obtain ⟨rows, represents, laid, rfl⟩ := holds
  rw [BoundedQueue.entries_map, List.length_map] at hj
  have whole : (pushedRow buffer length).length ≤ multi + 2 := by
    rw [length_pushedRow]
    exact Nat.add_le_add_right fits 2
  refine ⟨_, represents.storeRow masked hj whole, ?_, ?_⟩
  · intro row mem
    rcases List.mem_or_eq_of_mem_set mem with old | rfl
    · exact laid row old
    · rw [pushedRow_eq buffer small]
      exact laid_overwrite buffer fits (.inl small) _
  · ext1
    change (rows.entries.map entryOf).set j _ = (rows.entries.set j _).map entryOf
    rw [List.map_set, pushedRow_eq buffer small, overwrite,
      entryOf_written unsigned buffer (.inl small)]

/-- The first record that agrees is found. -/
theorem found (masked : Masked size) (holds : Holds b q) (buffer : ℕ → BitVec w)
    {positions : List ℕ} (inside : ∀ entry ∈ q.entries, ∀ p ∈ positions, p < entry.length) :
    b.found buffer positions = q.entries.findIdx? (Agree buffer positions) := by
  have count := holds.available_eq
  have each (j : ℕ) (hj : j < q.entries.length) :
      decide (b.Agrees buffer positions (b.head + BitVec.ofNat 16 j)) =
        Agree buffer positions q.entries[j] := by
    have here := (holds.entry masked hj).2
    rw [List.getElem?_eq_getElem hj] at here
    have within := inside _ (List.getElem_mem hj)
    rw [Option.some.inj here] at within ⊢
    refine decide_eq_decide.mpr (forall₂_congr fun p mem => ?_)
    rw [ArrayBuffer.getElem?_entryOf (within p mem), Option.some_inj]
  ext i
  rw [ArrayBuffer.found, List.find?_range_eq_some, List.findIdx?_eq_some_iff_getElem,
    List.mem_range, count]
  constructor
  · rintro ⟨agrees, hi, before⟩
    refine ⟨hi, (each i hi).symm.trans agrees, fun j hj => ?_⟩
    rw [← each j (hj.trans hi), Bool.not_eq_true, ← Bool.not_eq_true']
    exact before j hj
  · rintro ⟨hi, agrees, before⟩
    refine ⟨(each i hi).trans agrees, hi, fun j hj => ?_⟩
    rw [each j (hj.trans hi), Bool.not_eq_true']
    exact Bool.not_eq_true _ ▸ before j hj

/-- Whether a record is the beginning of the buffer. -/
theorem isEqual (unsigned : Unsigned w) (masked : Masked size) (holds : Holds b q)
    (buffer : ℕ → BitVec w) (small : ∀ entry ∈ q.entries, entry.length < 256) :
    b.isEqual buffer = q.entries.any fun entry => entry = load buffer 0 entry.length := by
  have count := holds.available_eq
  have each (j : ℕ) (hj : j < q.entries.length) :
      ((List.range (b.cabuf (ArrayBuffer.rowStart size multi (b.head + BitVec.ofNat 16 j)) |||
          b.cabuf (ArrayBuffer.rowStart size multi (b.head + BitVec.ofNat 16 j) + 1)).toNat).all
        fun k => b.cabuf (ArrayBuffer.rowStart size multi (b.head + BitVec.ofNat 16 j) + (k + 2)) ==
          buffer k) = true ↔ q.entries[j] = load buffer 0 q.entries[j].length := by
    obtain ⟨laid, here⟩ := holds.entry masked hj
    rw [List.getElem?_eq_getElem hj] at here
    have short := small _ (List.getElem_mem hj)
    rw [Option.some.inj here] at short ⊢
    have length := laid.or_eq unsigned short
    rw [ArrayBuffer.getD_row _ (Nat.zero_lt_succ _),
      ArrayBuffer.getD_row _ (Nat.succ_lt_succ (Nat.zero_lt_succ _)), Nat.add_zero] at length
    rw [length, List.all_eq_true, eq_comm, load_eq_iff]
    refine forall_congr' fun k => ?_
    rw [List.mem_range, Nat.zero_add, beq_iff_eq]
    refine imp_congr_right fun hk => ?_
    rw [ArrayBuffer.getElem?_entryOf hk, Option.some_inj]
  rw [Bool.eq_iff_iff, ArrayBuffer.isEqual, List.any_eq_true, List.any_eq_true, count]
  constructor
  · rintro ⟨j, mem, equal⟩
    have hj := List.mem_range.mp mem
    exact ⟨_, List.getElem_mem hj, decide_eq_true ((each j hj).mp equal)⟩
  · rintro ⟨entry, mem, equal⟩
    obtain ⟨j, hj, rfl⟩ := List.getElem_of_mem mem
    exact ⟨j, List.mem_range.mpr hj, (each j hj).mpr (of_decide_eq_true equal)⟩

end Holds

/-! ### Runs -/

/-- A call of the array mode's user. -/
inductive ArrayOp (w : ℕ) where
  | write (buffer : ℕ → BitVec w) (length : BitVec 16)
  | pushFront (buffer : ℕ → BitVec w) (length : BitVec 16)
  | read
  | readBytes (length : BitVec 16)
  | popBack (length : BitVec 16)
  | peekFront (length : BitVec 16) (entry : BitVec 32)
  | lengthFront
  | lengthBack
  | find (buffer : ℕ → BitVec w) (length : BitVec 16) (positions : List ℕ)
  | findRemove (buffer : ℕ → BitVec w) (positions : List ℕ)
  | replace (buffer : ℕ → BitVec w) (length : BitVec 16) (positions : List ℕ)
  | isEqual (buffer : ℕ → BitVec w)
  | clear

/-- What a call gives its user. -/
inductive Answer (w : ℕ) where
  | done
  | values (values : List (BitVec w))
  | length (length : BitVec 16)
  | search (values : Option (List (BitVec w)))
  | outcome (success : Bool)

/-- The buffer, and the answers of its calls. -/
def arrays (w : ℕ) (size : BitVec 16) (multi : ℕ) (cabuf : ℕ → BitVec w) :
    Machine (ArrayBuffer w size multi) (ArrayOp w) (Answer w) where
  init := .declared cabuf
  step b
    | .write buffer length => (b.write buffer length, .done)
    | .pushFront buffer length => (b.pushFront buffer length, .done)
    | .read => (b.read, .done)
    | .readBytes length => ((b.readBytes length).2, .values (b.readBytes length).1)
    | .popBack length => ((b.popBack length).2, .values (b.popBack length).1)
    | .peekFront length entry => (b, .values (b.peekFront length entry))
    | .lengthFront => (b, .length b.lengthFront)
    | .lengthBack => (b, .length b.lengthBack)
    | .find buffer length positions => (b, .search (b.find buffer length positions))
    | .findRemove buffer positions =>
        ((b.findRemove buffer positions).2, .outcome (b.findRemove buffer positions).1)
    | .replace buffer length positions =>
        ((b.replace buffer length positions).2, .outcome (b.replace buffer length positions).1)
    | .isEqual buffer => (b, .outcome (b.isEqual buffer))
    | .clear => (b.clear, .done)

/-- The queue of the last `N` records. -/
def records (w N : ℕ) :
    Machine (BoundedQueue (List (BitVec w)) N) (ArrayOp w) (Answer w) where
  init := .empty
  step q
    | .write buffer length => (q.append [load buffer 0 length.toNat], .done)
    | .pushFront buffer length => (q.prepend [load buffer 0 length.toNat], .done)
    | .read => (q.popFront 1, .done)
    | .readBytes length =>
        (q.popFront 1, .values ((q.entries.head?.getD []).take length.toNat))
    | .popBack length => (q.popBack, .values ((q.entries.getLast?.getD []).take length.toNat))
    | .peekFront length entry =>
        (q, .values ((q.entries[entry.toNat]?.getD []).take length.toNat))
    | .lengthFront => (q, .length (BitVec.ofNat 16 (q.entries.head?.getD []).length))
    | .lengthBack => (q, .length (BitVec.ofNat 16 (q.entries.getLast?.getD []).length))
    | .find buffer length positions =>
        (q, .search ((q.entries.find? (Agree buffer positions)).map (·.take length.toNat)))
    | .findRemove buffer positions =>
        match q.entries.findIdx? (Agree buffer positions) with
        | some j => (q.eraseIdx j, .outcome true)
        | none => (q, .outcome false)
    | .replace buffer length positions =>
        match q.entries.findIdx? (Agree buffer positions) with
        | some j =>
            (q.replace (q.entries.set j (load buffer 0 length.toNat)) List.length_set,
              .outcome true)
        | none => (q, .outcome false)
    | .isEqual buffer =>
        (q, .outcome (q.entries.any fun entry => entry = load buffer 0 entry.length))
    | .clear => (.empty, .done)

/-- The condition of a call: a record fits its row, and its length what is kept of it; an
entry that is asked for is there, with as many values as are asked for. -/
def Proper (multi : ℕ) {N : ℕ} (q : BoundedQueue (List (BitVec w)) N) : ArrayOp w → Prop
  | .write _ length => length.toNat ≤ multi ∧ (length < 256 ∨ w = 8)
  | .pushFront _ length => length.toNat ≤ multi ∧ length < 256
  | .read | .lengthFront | .lengthBack => q.entries ≠ []
  | .readBytes length => ∃ entry ∈ q.entries.head?, length.toNat ≤ entry.length
  | .popBack length => ∃ entry ∈ q.entries.getLast?, length.toNat ≤ entry.length
  | .peekFront length i => ∃ entry ∈ q.entries[i.toNat]?, length.toNat ≤ entry.length
  | .find buffer length positions =>
      (∀ entry ∈ q.entries, ∀ p ∈ positions, p < entry.length) ∧
        ∀ entry ∈ q.entries, Agree buffer positions entry → length.toNat ≤ entry.length
  | .findRemove _ positions => ∀ entry ∈ q.entries, ∀ p ∈ positions, p < entry.length
  | .replace _ length positions =>
      (∀ entry ∈ q.entries, ∀ p ∈ positions, p < entry.length) ∧ length.toNat ≤ multi ∧
        length < 256
  | .isEqual _ => ∀ entry ∈ q.entries, entry.length < 256
  | .clear => True

section Runs

variable {b : ArrayBuffer w size multi} {q : BoundedQueue (List (BitVec w)) size.toNat}

/-- A proper call keeps the buffer and the queue together. -/
theorem Holds.step (unsigned : Unsigned w) (masked : Masked size) (holds : Holds b q)
    (cabuf : ℕ → BitVec w) (op : ArrayOp w) (proper : Proper multi q op) :
    Holds ((arrays w size multi cabuf).step b op).1 ((records w size.toNat).step q op).1 ∧
      ((arrays w size multi cabuf).step b op).2 = ((records w size.toNat).step q op).2 := by
  cases op with
  | write buffer length =>
      exact ⟨holds.write unsigned masked buffer proper.1 proper.2, rfl⟩
  | pushFront buffer length =>
      exact ⟨holds.pushFront unsigned masked buffer proper.1 proper.2, rfl⟩
  | read => exact ⟨holds.read masked proper, rfl⟩
  | readBytes length =>
      obtain ⟨entry, first, within⟩ := proper
      have nonempty : q.entries ≠ [] := List.ne_nil_of_mem (List.mem_of_mem_head? first)
      have here := (holds.head? masked nonempty).2
      have same := Option.some.inj (first.symm.trans here)
      subst same
      have values := ArrayBuffer.loadEntry_entryOf within
      refine ⟨holds.read masked nonempty, congrArg Answer.values ?_⟩
      rw [here]
      exact values
  | popBack length =>
      obtain ⟨entry, last, within⟩ := proper
      have nonempty : q.entries ≠ [] := List.ne_nil_of_mem (List.mem_of_mem_getLast? last)
      have here := holds.getLast? masked nonempty
      have same := Option.some.inj (last.symm.trans here)
      subst same
      have values := ArrayBuffer.loadEntry_entryOf within
      refine ⟨holds.popBack masked nonempty length, congrArg Answer.values ?_⟩
      rw [here]
      exact values
  | peekFront length i =>
      obtain ⟨entry, mem, within⟩ := proper
      obtain ⟨inside, -⟩ := List.getElem?_eq_some_iff.mp mem
      have here := (holds.entry masked inside).2
      have same := Option.some.inj (mem.symm.trans here)
      subst same
      have values := ArrayBuffer.loadEntry_entryOf within
      refine ⟨holds, congrArg Answer.values ?_⟩
      rw [here]
      exact values
  | lengthFront =>
      obtain ⟨laid, here⟩ := holds.head? masked proper
      refine ⟨holds, congrArg Answer.length ?_⟩
      rw [here, ArrayBuffer.lengthFront, ArrayBuffer.lengthAt_eq]
      exact laid.joined_eq unsigned
  | lengthBack =>
      obtain ⟨laid, here⟩ := holds.back masked proper
      refine ⟨holds, congrArg Answer.length ?_⟩
      rw [here, ArrayBuffer.lengthBack, ArrayBuffer.lengthAt_eq]
      exact laid.joined_eq unsigned
  | find buffer length positions =>
      obtain ⟨inside, within⟩ := proper
      refine ⟨holds, congrArg Answer.search ?_⟩
      rw [ArrayBuffer.find, holds.found masked buffer inside, List.find?_eq_bind_findIdx?_getElem?]
      cases first : q.entries.findIdx? (Agree buffer positions) with
      | none => rfl
      | some j =>
          obtain ⟨hj, agrees, -⟩ := List.findIdx?_eq_some_iff_getElem.mp first
          have here := (holds.entry masked hj).2
          have within := within _ (List.getElem_mem hj) agrees
          rw [Option.some.inj ((List.getElem?_eq_getElem hj).symm.trans here)] at within
          rw [Option.map_some, Option.bind_some, here, Option.map_some,
            ArrayBuffer.loadEntry_entryOf within]
  | findRemove buffer positions =>
      have search := holds.found masked buffer proper
      cases first : q.entries.findIdx? (Agree buffer positions) with
      | none =>
          simp only [arrays, records, ArrayBuffer.findRemove, search, first]
          exact ⟨holds, trivial⟩
      | some j =>
          obtain ⟨hj, -, -⟩ := List.findIdx?_eq_some_iff_getElem.mp first
          simp only [arrays, records, ArrayBuffer.findRemove, search, first]
          exact ⟨holds.remove masked hj, trivial⟩
  | replace buffer length positions =>
      obtain ⟨inside, fits, small⟩ := proper
      have search := holds.found masked buffer inside
      cases first : q.entries.findIdx? (Agree buffer positions) with
      | none =>
          simp only [arrays, records, ArrayBuffer.replace, search, first]
          exact ⟨holds, trivial⟩
      | some j =>
          obtain ⟨hj, -, -⟩ := List.findIdx?_eq_some_iff_getElem.mp first
          simp only [arrays, records, ArrayBuffer.replace, search, first]
          exact ⟨holds.store unsigned masked hj buffer fits small, trivial⟩
  | isEqual buffer =>
      exact ⟨holds, congrArg Answer.outcome (holds.isEqual unsigned masked buffer proper)⟩
  | clear => exact ⟨holds_clear masked b, rfl⟩

/-- **The array mode is a queue of records.** Over any calls that are proper, buffer and
queue give the same answers, and the buffer holds the queue's records. -/
theorem arrays_refine (unsigned : Unsigned w) (masked : Masked size) (cabuf : ℕ → BitVec w)
    (ops : List (ArrayOp w))
    (proper : (records w size.toNat).Allowed (Proper multi) ops .empty) :
    ((arrays w size multi cabuf).exec ops ([], .declared cabuf)).1 =
        ((records w size.toNat).exec ops ([], .empty)).1 ∧
      Holds ((arrays w size multi cabuf).exec ops ([], .declared cabuf)).2
        ((records w size.toNat).exec ops ([], .empty)).2 := by
  have start : Holds (.declared cabuf : ArrayBuffer w size multi) .empty :=
    holds_declared masked cabuf
  have lockstep := Machine.lockstep_of_allowed (m := arrays w size multi cabuf)
    (n := records w size.toNat) (R := Holds)
    (fun op holds proper => holds.step unsigned masked cabuf op proper) ops start proper
  exact lockstep.exec start []

/-- A record in front of another. -/
theorem arrays_refine_two :
    ((arrays 8 4 3 fun _ => 0).exec
      [.write (fun i => BitVec.ofNat 8 i) 3, .pushFront (fun _ => 9) 2, .lengthFront, .readBytes 2,
        .lengthBack] ([], .declared fun _ => 0)).1 =
      [.length 3, .values [9, 9], .length 2, .done, .done] :=
  have unsigned : Unsigned 8 := .inl rfl
  have masked : Masked 4 := ⟨2, rfl⟩
  let calls : List (ArrayOp 8) :=
    [.write (fun i => BitVec.ofNat 8 i) 3, .pushFront (fun _ => 9) 2, .lengthFront, .readBytes 2,
      .lengthBack]
  have proper : (records 8 (4 : BitVec 16).toNat).Allowed (Proper 3) calls .empty :=
    ⟨⟨le_rfl, .inr rfl⟩, ⟨by decide, by decide⟩, List.cons_ne_nil _ _, ⟨[9, 9], rfl, le_rfl⟩,
      List.cons_ne_nil _ _, trivial⟩
  (arrays_refine unsigned masked (fun _ => 0) calls proper).1.trans rfl

end Runs

end RFPowerDetector.Buffer
