/-
The circular buffer refines a bounded queue that drops its oldest entries.

`Shows b q` says that the entries from the head on are those of `q`; `Represents b q`,
that the tail agrees with them, too. Each operation keeps it under its own condition: a
push in front of a full buffer shows the right entries and leaves the tail behind.
-/

import RFPowerDetector.Buffer.Circular
import RFPowerDetector.Library.Machine

namespace RFPowerDetector.Buffer

open Circular Memory

variable {α : Type} {size : BitVec 16}

/-- The buffer shows the entries of the queue. -/
structure Shows (b : CircularBuffer α size) (q : BoundedQueue α size.toNat) : Prop where
  head_lt : b.head.toNat < 2 * size.toNat
  available_eq : b.available.toNat = q.entries.length
  entries_eq : entries size.toNat b.cbuf b.head.toNat q.entries.length = q.entries

/-- The buffer holds the queue: its tail, too, is where the entries end. -/
structure Represents (b : CircularBuffer α size) (q : BoundedQueue α size.toNat) : Prop
    extends Shows b q where
  tail_eq : b.tail.toNat = (b.head.toNat + q.entries.length) % (2 * size.toNat)

namespace Shows

variable {b : CircularBuffer α size} {q : BoundedQueue α size.toNat}

theorem available_le (shows : Shows b q) : b.available.toNat ≤ size.toNat := by
  rw [shows.available_eq]
  exact q.bounded

theorem room (shows : Shows b q) :
    b.available < size ↔ q.entries.length < size.toNat := by
  rw [BitVec.lt_def, shows.available_eq]

theorem available_succ (shows : Shows b q) (room : q.entries.length < size.toNat) :
    (b.available + 1).toNat = q.entries.length + 1 := by
  have one : (1 : BitVec 16).toNat = 1 := rfl
  have lt := size.isLt
  rw [BitVec.toNat_add, one, shows.available_eq]
  omega

end Shows

/-- Going ahead by one moves the entries on. -/
theorem entries_head_succ (masked : Masked size) (cbuf : ℕ → α) (head : BitVec 16) (n : ℕ) :
    entries size.toNat cbuf (counter size (head + 1)).toNat n =
      entries size.toNat cbuf (head.toNat + 1) n := by
  refine entries_congr ?_
  rw [counter_add masked, mod_size_congr]
  rfl

namespace Represents

variable {b : CircularBuffer α size} {q : BoundedQueue α size.toNat}

theorem tail_lt (masked : Masked size) (represents : Represents b q) :
    b.tail.toNat < 2 * size.toNat := by
  have pos := masked.pos
  rw [represents.tail_eq]
  exact Nat.mod_lt _ (by omega)

/-- The slot of the tail is the one behind the last entry. -/
theorem slot_tail (masked : Masked size) (represents : Represents b q) :
    slot size b.tail = (b.head.toNat + q.entries.length) % size.toNat := by
  rw [slot_eq masked, represents.tail_eq, mod_size_congr]

theorem full (masked : Masked size) (represents : Represents b q) :
    b.tail = b.head ^^^ size ↔ q.entries.length = size.toNat := by
  rw [eq_xor_iff masked represents.head_lt, represents.tail_eq, full_iff masked.pos q.bounded]

/-- The tail counts on by one. -/
theorem tail_succ (masked : Masked size) (represents : Represents b q) :
    (counter size (b.tail + 1)).toNat =
      (b.head.toNat + q.entries.length + 1) % (2 * size.toNat) := by
  rw [counter_add masked, represents.tail_eq, Nat.mod_add_mod]
  rfl

end Represents

theorem represents_clear (masked : Masked size) (b : CircularBuffer α size) :
    Represents b.clear .empty where
  head_lt := Nat.mul_pos Nat.two_pos masked.pos
  available_eq := rfl
  entries_eq := rfl
  tail_eq := (Nat.zero_mod _).symm

theorem represents_declared (masked : Masked size) (cbuf : ℕ → α) :
    Represents (.declared cbuf : CircularBuffer α size) .empty where
  head_lt := Nat.mul_pos Nat.two_pos masked.pos
  available_eq := rfl
  entries_eq := rfl
  tail_eq := (Nat.zero_mod _).symm

namespace Represents

variable {b : CircularBuffer α size} {q : BoundedQueue α size.toNat}

/-! ### Single entries -/

/-- A write appends, and a full buffer drops its oldest entry. -/
theorem write (masked : Masked size) (represents : Represents b q) (value : α) :
    Represents (b.write value) (q.append [value]) := by
  have pos := masked.pos
  rcases Nat.lt_or_eq_of_le q.bounded with room | full
  · have notFull : b.tail ≠ b.head ^^^ size :=
      fun eq => room.ne ((represents.full masked).mp eq)
    have appended : (q.append [value]).entries = q.entries ++ [value] :=
      BoundedQueue.entries_append_of_le room
    have length : (q.append [value]).entries.length = q.entries.length + 1 := by
      rw [appended, List.length_append, List.length_singleton]
    have head : (b.write value).head = b.head := if_neg notFull
    refine ⟨⟨?_, ?_, ?_⟩, ?_⟩
    · rw [head]
      exact represents.head_lt
    · have available : (b.write value).available = b.available + 1 :=
        if_pos (represents.room.mpr room)
      rw [available, represents.available_succ room, length]
    · rw [head, length, CircularBuffer.write, represents.slot_tail masked,
        Circular.entries_append room, represents.entries_eq, appended]
    · rw [head, length]
      exact represents.tail_succ masked
  · have appended : (q.append [value]).entries = q.entries.tail ++ [value] :=
      BoundedQueue.entries_append_full full pos value
    have length : (q.append [value]).entries.length = size.toNat := by
      rw [appended, List.length_append, List.length_tail, List.length_singleton, full]
      omega
    have head : (b.write value).head = counter size (b.head + 1) :=
      if_pos ((represents.full masked).mpr full)
    refine ⟨⟨?_, ?_, ?_⟩, ?_⟩
    · rw [head, counter_eq masked]
      exact Nat.mod_lt _ (by omega)
    · have available : (b.write value).available = b.available :=
        if_neg fun lt => (represents.room.mp lt).ne full
      rw [available, represents.available_eq, length, full]
    · have whole := represents.entries_eq
      rw [full] at whole
      rw [head, length, entries_head_succ masked, CircularBuffer.write,
        represents.slot_tail masked, full, entries_overwrite pos, appended, whole]
    · rw [head, length, counter_add masked, Nat.mod_add_mod, CircularBuffer.write,
        represents.tail_succ masked, full]
      exact congrArg (· % _) (Nat.add_right_comm _ _ _)

/-- A read of a nonempty buffer takes its oldest entry. -/
theorem read (masked : Masked size) (represents : Represents b q) (nonempty : q.entries ≠ []) :
    q.entries = b.read.1 :: (q.popFront 1).entries ∧ Represents b.read.2 (q.popFront 1) := by
  have positive := List.length_pos_iff.mpr nonempty
  have pos := masked.pos
  obtain ⟨n, length⟩ : ∃ n, q.entries.length = n + 1 := ⟨q.entries.length - 1, by omega⟩
  have popped : (q.popFront 1).entries.length = n := by
    rw [BoundedQueue.entries_popFront, List.length_drop, length, Nat.add_sub_cancel]
  have split := represents.entries_eq
  rw [length, entries_succ'] at split
  have rest : (q.popFront 1).entries = entries size.toNat b.cbuf (b.head.toNat + 1) n := by
    rw [BoundedQueue.entries_popFront, List.drop_one, ← split, List.tail_cons]
  have taken : b.available ≠ 0 := by
    intro zero
    have := represents.available_eq
    rw [zero, length] at this
    cases this
  refine ⟨?_, ⟨?_, ?_, ?_⟩, ?_⟩
  · rw [rest, ← split, CircularBuffer.read, slot_eq masked]
  · rw [CircularBuffer.read, counter_eq masked]
    exact Nat.mod_lt _ (by omega)
  · have one : (1 : BitVec 16).toNat = 1 := rfl
    have available : b.read.2.available = b.available - 1 := if_pos taken
    rw [available, BitVec.toNat_sub, one, represents.available_eq, popped, length]
    have lt := size.isLt
    have := q.bounded
    omega
  · rw [popped, CircularBuffer.read, entries_head_succ masked, rest]
  · rw [popped, CircularBuffer.read, counter_add masked, Nat.mod_add_mod, represents.tail_eq, length]
    exact congrArg (· % _) (Nat.add_right_comm _ n 1)

/-- The tail counts back by one. -/
theorem tail_pred (masked : Masked size) (represents : Represents b q)
    (nonempty : 0 < q.entries.length) :
    (counter size (b.tail - 1)).toNat =
      (b.head.toNat + (q.entries.length - 1)) % (2 * size.toNat) := by
  have pos := masked.pos
  have one : (1 : BitVec 16).toNat = 1 := rfl
  rw [counter_sub masked _ _ (by omega), one, represents.tail_eq, Nat.mod_add_mod,
    show b.head.toNat + q.entries.length + (2 * size.toNat - 1) =
      b.head.toNat + (q.entries.length - 1) + 2 * size.toNat by omega, Nat.add_mod_right]

/-- The newest entry lies before the tail. -/
theorem getLast? (masked : Masked size) (represents : Represents b q)
    (nonempty : 0 < q.entries.length) :
    q.entries.getLast? = some (b.cbuf (slot size (b.tail - 1))) := by
  have index : slot size (b.tail - 1) =
      (b.head.toNat + (q.entries.length - 1)) % size.toNat := by
    rw [slot_eq masked, ← mod_size_congr, ← counter_eq masked, represents.tail_pred masked nonempty,
      mod_size_congr]
  rw [List.getLast?_eq_getElem?, index]
  conv_lhs => rw [← represents.entries_eq, getElem?_entries (by rw [length_entries]; omega)]
  rw [length_entries]

/-- Counting the tail back drops the newest entry. -/
theorem dropBack (masked : Masked size) (represents : Represents b q)
    (nonempty : 0 < q.entries.length) :
    Represents { b with available := b.available - 1, tail := counter size (b.tail - 1) }
      q.popBack := by
  have one : (1 : BitVec 16).toNat = 1 := rfl
  have length : q.popBack.entries.length = q.entries.length - 1 := by
    rw [BoundedQueue.entries_popBack, List.length_dropLast]
  refine ⟨⟨represents.head_lt, ?_, ?_⟩, ?_⟩
  · rw [length, BitVec.toNat_sub, one, represents.available_eq]
    have := b.available.isLt
    rw [represents.available_eq] at this
    omega
  · rw [length, BoundedQueue.entries_popBack, ← dropLast_entries, represents.entries_eq]
  · rw [length]
    exact represents.tail_pred masked nonempty

/-- `pop_back` removes the newest entry, if any. -/
theorem popBack [IntCast α] (masked : Masked size) (represents : Represents b q) :
    Represents b.popBack.2 q.popBack := by
  by_cases empty : b.available = 0
  · have none_left : q.entries = [] := by
      have length := represents.available_eq
      rw [empty] at length
      exact List.length_eq_zero_iff.mp length.symm
    have same : q.popBack = q := by
      ext1
      rw [BoundedQueue.entries_popBack, none_left, List.dropLast_nil]
    rw [same, CircularBuffer.popBack, if_neg (not_not_intro empty)]
    exact represents
  · have nonempty : 0 < q.entries.length := by
      rw [← represents.available_eq]
      exact Nat.pos_of_ne_zero fun zero => empty (BitVec.eq_of_toNat_eq zero)
    rw [CircularBuffer.popBack, if_pos empty]
    exact represents.dropBack masked nonempty

end Represents

/-! ### Pushes in front -/

namespace Shows

variable {b : CircularBuffer α size} {q : BoundedQueue α size.toNat}

theorem head_pushFront (masked : Masked size) (b : CircularBuffer α size) (value : α) :
    (b.pushFront value).head.toNat =
      (b.head.toNat + (2 * size.toNat - 1)) % (2 * size.toNat) := by
  have one : (1 : BitVec 16).toNat = 1 := rfl
  have pos := masked.pos
  have before := counter_sub masked b.head 1 (by omega)
  rwa [one] at before

/-- A push in front shows the value and the entries behind it, as many as fit. -/
theorem pushFront (masked : Masked size) (shows : Shows b q) (value : α) :
    Shows (b.pushFront value) (q.prepend [value]) := by
  have pos := masked.pos
  have prepended : (q.prepend [value]).entries = value :: q.entries.take (size.toNat - 1) := by
    rw [BoundedQueue.entries_prepend, List.singleton_append]
    exact List.take_cons pos
  have length : (q.prepend [value]).entries.length =
      min q.entries.length (size.toNat - 1) + 1 := by
    rw [prepended, List.length_cons, List.length_take, min_comm]
  have behind : ((b.pushFront value).head.toNat + 1) % size.toNat = b.head.toNat % size.toNat := by
    rw [head_pushFront masked, ← mod_size_congr, Nat.mod_add_mod,
      show b.head.toNat + (2 * size.toNat - 1) + 1 = b.head.toNat + 2 * size.toNat by omega,
      Nat.add_mod_right, mod_size_congr]
  refine ⟨?_, ?_, ?_⟩
  · rw [head_pushFront masked]
    exact Nat.mod_lt _ (by omega)
  · have available : (b.pushFront value).available =
        if b.available < size then b.available + 1 else b.available := rfl
    rw [available, length]
    split
    case isTrue room =>
        have room := shows.room.mp room
        rw [shows.available_succ room]
        omega
    case isFalse full =>
        have full := mt shows.room.mpr full
        have le := q.bounded
        rw [shows.available_eq]
        omega
  · have array : (b.pushFront value).cbuf =
        Function.update b.cbuf ((b.pushFront value).head.toNat % size.toNat) value := by
      rw [CircularBuffer.pushFront, slot_eq masked]
    rw [length, array, Circular.entries_prepend (by omega), prepended, entries_congr behind,
      ← take_entries (min_le_left _ _), shows.entries_eq, min_comm, ← List.take_take,
      List.take_length]

end Shows

end RFPowerDetector.Buffer
