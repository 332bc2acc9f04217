/-
The circular buffer under any sequence of calls, against the bounded queue.

`ring` makes the calls of the buffer, `queue` what they are for: the queue of the last
`_size` entries. `Sound` is the condition, call by call, on the state before it. The two
stay in lockstep exactly as long as the calls meet it: calls that never do harm on their
own (a read of the empty buffer, a push in front of the full one, a block copy that
overruns) move one counter and not the other.
-/

import RFPowerDetector.Buffer.Bulk
import RFPowerDetector.Buffer.Statistics
import RFPowerDetector.Library.Machine

namespace RFPowerDetector.Buffer

open Circular Memory Transition

/-- A call of the buffer's user. -/
inductive Op (α : Type) where
  | write (value : α)
  | pushFront (value : α)
  | read
  | popBack
  | peek (pos : BitVec 16)
  | writeBuffer (buffer : ℕ → α) (length : BitVec 16)
  | pushFrontBuffer (buffer : ℕ → α) (length : BitVec 16)
  | readBytes (length : BitVec 16)
  | peekBytes (length : BitVec 16)
  | sortAscending
  | sortDescending
  | clear

section Machines

variable {α : Type} [LinearOrder α] [Zero α] [IntCast α]

/-- The buffer, and the values its calls return. -/
def ring (size : BitVec 16) (cbuf : ℕ → α) :
    Machine (CircularBuffer α size) (Op α) (List α) where
  init := .declared cbuf
  step b
    | .write value => (b.write value, [])
    | .pushFront value => (b.pushFront value, [])
    | .read => (b.read.2, [b.read.1])
    | .popBack => (b.popBack.2, [b.popBack.1])
    | .peek pos => (b, [b.peek pos])
    | .writeBuffer buffer length => (b.writeBuffer buffer length, [])
    | .pushFrontBuffer buffer length => (b.pushFrontBuffer buffer length, [])
    | .readBytes length => ((b.readBytes length).2, (b.readBytes length).1)
    | .peekBytes length => (b, b.peekBytes length)
    | .sortAscending => (b.sortAscending, [])
    | .sortDescending => (b.sortDescending, [])
    | .clear => (b.clear, [])

/-- The queue of the last `N` entries. -/
def queue (N : ℕ) : Machine (BoundedQueue α N) (Op α) (List α) where
  init := .empty
  step q
    | .write value => (q.append [value], [])
    | .pushFront value => (q.prepend [value], [])
    | .read => (q.popFront 1, q.entries.take 1)
    | .popBack => (q.popBack, [q.entries.getLast?.getD ((-1 : ℤ) : α)])
    | .peek pos => (q, q.entries[pos.toNat]?.toList)
    | .writeBuffer buffer length => (q.append (load buffer 0 length.toNat), [])
    | .pushFrontBuffer buffer length => (q.prepend (load buffer 0 (pushed length)), [])
    | .readBytes length => (q.popFront length.toNat, q.entries.take length.toNat)
    | .peekBytes length => (q, q.entries.take length.toNat)
    | .sortAscending => (q.sort, [])
    | .sortDescending => (q.sort.reverse, [])
    | .clear => (.empty, [])

end Machines

variable {α : Type} {size : BitVec 16} {b : CircularBuffer α size}
  {q : BoundedQueue α size.toNat}

/-- The condition of a call. `pop_back` is right when the slot before the newest entry
happens to hold the same value. -/
def Sound (b : CircularBuffer α size) : Op α → Prop
  | .write _ | .sortAscending | .sortDescending | .clear => True
  | .pushFront _ => b.available < size
  | .read => b.available ≠ 0
  | .popBack => b.available ≠ 0 →
      b.cbuf (slot size (counter size (b.tail - 1) - 1)) = b.cbuf (slot size (b.tail - 1))
  | .peek pos => pos < b.available
  | .writeBuffer _ length => WritesAgree b length
  | .pushFrontBuffer _ length => PushesAgree b (pushed length)
  | .readBytes length => ReadsAgree b length
  | .peekBytes length => PeeksAgree b length

namespace Represents

variable [LinearOrder α] [Zero α] [IntCast α]

/-- A call keeps the buffer and the queue together exactly under its condition. -/
theorem step_iff (masked : Masked size) (represents : Represents b q) (cbuf : ℕ → α) (op : Op α) :
    Represents ((ring size cbuf).step b op).1 ((queue size.toNat).step q op).1 ∧
        ((ring size cbuf).step b op).2 = ((queue size.toNat).step q op).2 ↔ Sound b op := by
  have empty_iff := represents.empty_iff
  cases op with
  | write value => exact iff_of_true ⟨represents.write masked value, rfl⟩ trivial
  | pushFront value =>
      refine (and_iff_left rfl).trans ((represents.pushes_iff masked [value]).2.trans ?_)
      rw [Sound, PushesAgree, List.length_singleton, BitVec.lt_def]
      refine or_iff_left_of_imp fun divides => ?_
      have pos := masked.pos
      have le := represents.available_le
      by_contra full
      have := Nat.le_of_dvd (by omega) divides
      omega
  | read =>
      constructor
      · rintro ⟨-, same⟩ zero
        have none_left := empty_iff.mp zero
        have taken : [b.read.1] = q.entries.take 1 := same
        rw [none_left] at taken
        cases taken
      · intro nonempty
        obtain ⟨first, next⟩ := represents.read masked (mt empty_iff.mpr nonempty)
        refine ⟨next, ?_⟩
        change [b.read.1] = q.entries.take 1
        rw [first]
        rfl
  | popBack =>
      have next := represents.popBack masked
      refine (and_iff_right next).trans ?_
      change [b.popBack.1] = [q.entries.getLast?.getD ((-1 : ℤ) : α)] ↔ _
      rw [List.cons_eq_cons, and_iff_left rfl, Sound]
      by_cases zero : b.available = 0
      · rw [empty_iff.mp zero, CircularBuffer.popBack, if_neg (not_not_intro zero)]
        exact iff_of_true rfl fun nonzero => absurd zero nonzero
      · have nonempty := List.length_pos_iff.mpr (mt empty_iff.mpr zero)
        rw [represents.getLast? masked nonempty, CircularBuffer.popBack, if_pos zero,
          imp_iff_right zero]
        rfl
  | peek pos =>
      refine (and_iff_right represents).trans ?_
      change [b.peek pos] = q.entries[pos.toNat]?.toList ↔ pos < b.available
      rw [BitVec.lt_def, represents.available_eq]
      constructor
      · intro shown
        by_contra past
        rw [List.getElem?_eq_none (not_lt.mp past)] at shown
        cases shown
      · intro inside
        rw [represents.peek masked inside]
        rfl
  | writeBuffer buffer length =>
      exact (and_iff_left rfl).trans (represents.writeBuffer_iff masked buffer length)
  | pushFrontBuffer buffer length =>
      have pushes := (represents.pushes_iff masked (load buffer 0 (pushed length))).2
      rw [← pushFrontBuffer_eq, length_load] at pushes
      exact (and_iff_left rfl).trans pushes
  | readBytes length => exact and_comm.trans (represents.readBytes_iff masked length)
  | peekBytes length =>
      exact (and_iff_right represents).trans (represents.peekBytes_iff masked length)
  | sortAscending => exact iff_of_true ⟨represents.sortAscending masked, rfl⟩ trivial
  | sortDescending => exact iff_of_true ⟨represents.sortDescending masked, rfl⟩ trivial
  | clear => exact iff_of_true ⟨represents_clear masked b, rfl⟩ trivial

end Represents

section Runs

variable [LinearOrder α] [Zero α] [IntCast α]

/-- **The buffer is the queue.** Over any calls, buffer and queue stay in lockstep exactly
as long as each call meets its condition; then they return the same values, and the buffer
holds the queue. -/
theorem run_refines (masked : Masked size) (cbuf : ℕ → α) (ops : List (Op α)) :
    ((ring size cbuf).Lockstep (queue size.toNat) Represents ops (.declared cbuf) .empty ↔
        (ring size cbuf).Allowed Sound ops (.declared cbuf)) ∧
      ((ring size cbuf).Allowed Sound ops (.declared cbuf) →
        ((ring size cbuf).exec ops ([], .declared cbuf)).1 =
            ((queue size.toNat).exec ops ([], .empty)).1 ∧
          Represents ((ring size cbuf).exec ops ([], .declared cbuf)).2
            ((queue size.toNat).exec ops ([], .empty)).2) := by
  have start := represents_declared masked cbuf
  have iff := Machine.lockstep_iff (m := ring size cbuf) (n := queue size.toNat) (R := Represents)
    (fun op represents => represents.step_iff masked cbuf op) ops start
  exact ⟨iff, fun allowed => (iff.mpr allowed).exec start []⟩

/-- A full buffer of four drops the oldest of five entries. -/
theorem run_refines_five :
    ((ring 4 fun _ => 0).exec [.write 1, .write 2, .write 3, .write 4, .write (5 : ℤ), .read]
      ([], .declared fun _ => 0)).1 = [[2], [], [], [], [], []] :=
  have masked : Masked 4 := ⟨2, rfl⟩
  have nonempty : (4 : BitVec 16) ≠ 0 := by decide
  let calls : List (Op ℤ) := [.write 1, .write 2, .write 3, .write 4, .write 5, .read]
  ((run_refines masked (fun _ => 0) calls).2
    ⟨trivial, trivial, trivial, trivial, trivial, nonempty, trivial⟩).1.trans rfl

end Runs

end RFPowerDetector.Buffer
