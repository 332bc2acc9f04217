/-
The circular buffer stays in its array.

`patch` exchanges the memory outside the array. Every call commutes with it, whatever
the size and the counters are: it neither reads nor writes out there.
-/

import RFPowerDetector.Buffer.Runs

namespace RFPowerDetector.Buffer

open Memory Transition

variable {α : Type} {size : BitVec 16} {b : CircularBuffer α size} {m : ℕ → α}

/-- The mask of the index keeps it in the array. -/
theorem slot_lt (pos : size ≠ 0) (x : BitVec 16) : slot size x < size.toNat := by
  have one : (1 : BitVec 16).toNat = 1 := rfl
  have lt := size.isLt
  have positive : 0 < size.toNat := Nat.pos_of_ne_zero fun zero => pos (BitVec.eq_of_toNat_eq zero)
  have mask : slot size x ≤ (size - 1).toNat := by
    rw [slot, BitVec.toNat_and]
    exact Nat.and_le_right
  rw [BitVec.toNat_sub, one] at mask
  omega

namespace CircularBuffer

/-- The buffer with `m` around its array. -/
def patch (b : CircularBuffer α size) (m : ℕ → α) : CircularBuffer α size :=
  { b with cbuf := fun p => if p < size.toNat then b.cbuf p else m p }

@[simp] theorem head_patch : (b.patch m).head = b.head := rfl

@[simp] theorem tail_patch : (b.patch m).tail = b.tail := rfl

@[simp] theorem available_patch : (b.patch m).available = b.available := rfl

@[simp] theorem count_patch (length : BitVec 16) : (b.patch m).count length = b.count length := rfl

theorem cbuf_patch {p : ℕ} (inside : p < size.toNat) : (b.patch m).cbuf p = b.cbuf p :=
  if_pos inside

theorem cbuf_patch_slot (pos : size ≠ 0) (x : BitVec 16) :
    (b.patch m).cbuf (slot size x) = b.cbuf (slot size x) :=
  cbuf_patch (slot_lt pos x)

theorem patch_self (b : CircularBuffer α size) : b.patch b.cbuf = b := by
  have same : (b.patch b.cbuf).cbuf = b.cbuf := funext fun p => ite_self _
  ext1
  · rfl
  · rfl
  · rfl
  · exact same

/-- A store into a slot does not reach the patch. -/
theorem update_patch (pos : size ≠ 0) (x : BitVec 16) (value : α) :
    Function.update (b.patch m).cbuf (slot size x) value =
      fun p => if p < size.toNat then Function.update b.cbuf (slot size x) value p else m p := by
  funext p
  by_cases own : p = slot size x
  · subst own
    rw [Function.update_self, if_pos (slot_lt pos x), Function.update_self]
  · rw [Function.update_of_ne own, Function.update_of_ne own]
    rfl

theorem load_patch {a n : ℕ} (inside : a + n ≤ size.toNat) :
    load (b.patch m).cbuf a n = load b.cbuf a n := by
  refine List.map_congr_left fun i hi => cbuf_patch ?_
  have := List.mem_range.mp hi
  omega

theorem store_patch {a : ℕ} {xs : List α} (inside : a + xs.length ≤ size.toNat) :
    store (b.patch m).cbuf a xs =
      fun p => if p < size.toNat then store b.cbuf a xs p else m p := by
  funext p
  by_cases own : a ≤ p ∧ p < a + xs.length
  · obtain ⟨i, rfl⟩ := Nat.exists_eq_add_of_le own.1
    have stored : i < xs.length := by omega
    rw [store_inside _ _ stored, if_pos (by omega), store_inside _ _ stored]
  · rw [store_outside _ (by omega), store_outside _ (by omega)]
    rfl

section Calls

variable (pos : size ≠ 0)
include pos

theorem write_patch (value : α) : (b.patch m).write value = (b.write value).patch m := by
  ext1
  · rfl
  · rfl
  · rfl
  · exact update_patch pos b.tail value

theorem pushFront_patch (value : α) :
    (b.patch m).pushFront value = (b.pushFront value).patch m := by
  ext1
  · rfl
  · rfl
  · rfl
  · exact update_patch pos _ value

theorem read_patch : (b.patch m).read = (b.read.1, b.read.2.patch m) :=
  congrArg (fun value => (value, b.read.2.patch m)) (cbuf_patch_slot pos b.head)

theorem popBack_patch [IntCast α] : (b.patch m).popBack = (b.popBack.1, b.popBack.2.patch m) := by
  rw [popBack, popBack, available_patch, tail_patch, cbuf_patch_slot pos]
  split <;> rfl

theorem peek_patch [Zero α] (i : BitVec 16) : (b.patch m).peek i = b.peek i := by
  rw [peek, peek]
  split
  · rfl
  · exact cbuf_patch_slot pos _

theorem foldl_write_patch (xs : List α) :
    xs.foldl write (b.patch m) = (xs.foldl write b).patch m := by
  induction xs generalizing b with
  | nil => rfl
  | cons x xs ih => rw [List.foldl_cons, write_patch pos, ih, List.foldl_cons]

theorem writeBuffer_patch (buffer : ℕ → α) (length : BitVec 16) :
    (b.patch m).writeBuffer buffer length = (b.writeBuffer buffer length).patch m := by
  by_cases block : length.toNat + b.tail.toNat < size.toNat
  · rw [writeBuffer_block buffer block, writeBuffer_block (b := b.patch m) buffer block]
    ext1
    · rfl
    · rfl
    · rfl
    · exact store_patch (by rw [length_load, Nat.add_comm]; exact block.le)
  · rw [writeBuffer_loop buffer block, writeBuffer_loop (b := b.patch m) buffer block,
      ← foldl_write_patch pos]
    rfl

theorem pushFrontBuffer_patch (buffer : ℕ → α) (length : BitVec 16) :
    (b.patch m).pushFrontBuffer buffer length = (b.pushFrontBuffer buffer length).patch m := by
  rw [pushFrontBuffer_eq, pushFrontBuffer_eq]
  induction load buffer 0 (pushed length) with
  | nil => rfl
  | cons x xs ih => rw [List.foldr_cons, ih, pushFront_patch pos, List.foldr_cons]

theorem reads_patch (n : ℕ) : (b.patch m).reads n = ((b.reads n).1, (b.reads n).2.patch m) := by
  induction n generalizing b with
  | zero => rfl
  | succ n ih => rw [reads, read_patch pos, ih, reads]

theorem readBytes_patch (length : BitVec 16) :
    (b.patch m).readBytes length = ((b.readBytes length).1, (b.readBytes length).2.patch m) := by
  rw [readBytes, readBytes, count_patch, head_patch]
  split
  case isTrue block =>
      rw [load_patch (by omega)]
      rfl
  case isFalse => exact reads_patch pos _

theorem peekBytes_patch [Zero α] (length : BitVec 16) :
    (b.patch m).peekBytes length = b.peekBytes length := by
  rw [peekBytes, peekBytes, count_patch, head_patch]
  split
  case isTrue block => exact load_patch (by omega)
  case isFalse => exact List.map_congr_left fun i _ => peek_patch pos _

theorem copied_patch : (b.patch m).copied = b.copied :=
  List.map_congr_left fun _ _ => cbuf_patch_slot pos _

theorem copyBack_patch (i : ℕ) (xs : List α) :
    (b.patch m).copyBack i xs = (b.copyBack i xs).patch m := by
  induction xs generalizing b i with
  | nil => rfl
  | cons x xs ih =>
      rw [copyBack, copyBack, ← ih]
      exact congrArg (fun cbuf => ({ b with cbuf := cbuf } : CircularBuffer α size).copyBack _ xs)
        (update_patch pos _ x)

theorem sortAscending_patch [LinearOrder α] :
    (b.patch m).sortAscending = b.sortAscending.patch m := by
  rw [sortAscending, sortAscending, sorted, copied_patch pos, copyBack_patch pos]
  exact (apply_ite (fun b : CircularBuffer α size => b.patch m) _ _ _).symm

theorem sortDescending_patch [LinearOrder α] :
    (b.patch m).sortDescending = b.sortDescending.patch m := by
  rw [sortDescending, sortDescending, sortAscending_patch pos, copied_patch pos,
    copyBack_patch pos]
  exact (apply_ite (fun b : CircularBuffer α size => b.patch m) _ _ _).symm

end Calls

end CircularBuffer

section Runs

variable [LinearOrder α] [Zero α] [IntCast α]

/-- A call does not see the patch. -/
theorem step_patch (pos : size ≠ 0) (cbuf : ℕ → α) (op : Op α) :
    (ring size cbuf).step (b.patch m) op =
      (((ring size cbuf).step b op).1.patch m, ((ring size cbuf).step b op).2) := by
  cases op with
  | write value => exact congrArg (·, []) (CircularBuffer.write_patch pos value)
  | pushFront value => exact congrArg (·, []) (CircularBuffer.pushFront_patch pos value)
  | read => exact congrArg (fun r => (r.2, [r.1])) (CircularBuffer.read_patch pos)
  | popBack =>
      exact congrArg (fun r : α × CircularBuffer α size => (r.2, [r.1]))
        (CircularBuffer.popBack_patch pos)
  | peek i => exact congrArg (fun v => (b.patch m, [v])) (CircularBuffer.peek_patch pos i)
  | writeBuffer buffer length =>
      exact congrArg (·, []) (CircularBuffer.writeBuffer_patch pos buffer length)
  | pushFrontBuffer buffer length =>
      exact congrArg (·, []) (CircularBuffer.pushFrontBuffer_patch pos buffer length)
  | readBytes length =>
      exact congrArg (fun r : List α × CircularBuffer α size => (r.2, r.1))
        (CircularBuffer.readBytes_patch pos length)
  | peekBytes length =>
      exact congrArg (fun v => (b.patch m, v)) (CircularBuffer.peekBytes_patch pos length)
  | sortAscending => exact congrArg (·, []) (CircularBuffer.sortAscending_patch pos)
  | sortDescending => exact congrArg (·, []) (CircularBuffer.sortDescending_patch pos)
  | clear => rfl

theorem exec_patch (pos : size ≠ 0) (cbuf : ℕ → α) (ops : List (Op α)) (h : List (List α)) :
    (ring size cbuf).exec ops (h, b.patch m) =
      (((ring size cbuf).exec ops (h, b)).1, ((ring size cbuf).exec ops (h, b)).2.patch m) := by
  induction ops generalizing h b with
  | nil => rfl
  | cons op ops ih => rw [Machine.exec, step_patch pos, ih, Machine.exec]

theorem exec_ring (cbuf cbuf' : ℕ → α) (ops : List (Op α)) (c : List (List α) × CircularBuffer α size) :
    (ring size cbuf).exec ops c = (ring size cbuf').exec ops c := by
  induction ops generalizing c with
  | nil => rfl
  | cons op ops ih => exact ih _

/-- **The buffer stays in its array.** For every size, and over any calls, also those that
break the counters, what is returned depends on the array only, and nothing outside it
changes. -/
theorem run_inside (pos : size ≠ 0) (cbuf cbuf' : ℕ → α)
    (same : ∀ p < size.toNat, cbuf p = cbuf' p) (ops : List (Op α)) :
    ((ring size cbuf).exec ops ([], .declared cbuf)).1 =
        ((ring size cbuf').exec ops ([], .declared cbuf')).1 ∧
      ∀ p ≥ size.toNat, ((ring size cbuf).exec ops ([], .declared cbuf)).2.cbuf p = cbuf p := by
  have patched : (.declared cbuf' : CircularBuffer α size) =
      (.declared cbuf : CircularBuffer α size).patch cbuf' := by
    refine congrArg _ (funext fun p => ?_)
    by_cases inside : p < size.toNat
    · exact (same p inside).symm.trans (if_pos inside).symm
    · exact (if_neg inside).symm
  constructor
  · rw [exec_ring cbuf' cbuf, patched, exec_patch pos]
  · intro p outside
    have own := exec_patch (b := .declared cbuf) (m := cbuf) pos cbuf ops []
    rw [show (CircularBuffer.declared cbuf : CircularBuffer α size).patch cbuf = .declared cbuf from
      CircularBuffer.patch_self _] at own
    rw [own]
    exact if_neg (not_lt.mpr outside)

/-- Zeros in an array of three values, and nines behind it. -/
def fenced (p : ℕ) : ℤ := if p < 3 then 0 else 9

/-- Stores before the head and round the end, and reads of more than is there. -/
def overrun : List (Op ℤ) :=
  [.write 1, .pushFront 2, .writeBuffer (fun i => i + 3) 5, .peek 1, .readBytes 4, .popBack]

/-- The nines are neither read nor changed. -/
theorem run_inside_overrun :
    ((ring 3 fenced).exec overrun ([], .declared fenced)).1 =
        ((ring 3 fun _ => 0).exec overrun ([], .declared fun _ => 0)).1 ∧
      ((ring 3 fenced).exec overrun ([], .declared fenced)).2.cbuf 3 = 9 := by
  have same : ∀ p < (3 : BitVec 16).toNat, fenced p = 0 := fun p inside => if_pos inside
  obtain ⟨returned, around⟩ := run_inside (by decide) fenced (fun _ => 0) same overrun
  exact ⟨returned, around 3 le_rfl⟩

end Runs

end RFPowerDetector.Buffer
