/-
The statistics of the circular buffer, and its sorts.

A sort replaces the entries by the sorted ones. The statistics of integers depend on the
entries only, and, but for the median without `override`, not on their order: that one
takes the middle of the entries as they came. Where a signed overflow leaves a sum
undefined in one order, it may be defined in another; where both are defined, they agree.
-/

import Mathlib.Algebra.BigOperators.Group.List.Basic
import RFPowerDetector.Buffer.Queue

namespace RFPowerDetector.Buffer

open CInteger Circular

variable {α : Type} {size : BitVec 16} {b b' : CircularBuffer α size}
  {q q' : BoundedQueue α size.toNat}

namespace Shows

theorem word (shows : Shows b q) {i : ℕ} (inside : i < q.entries.length) :
    (BitVec.ofNat 16 i).toNat = i := by
  have lt := b.available.isLt
  rw [shows.available_eq] at lt
  exact Nat.mod_eq_of_lt (inside.trans lt)

theorem empty_iff (shows : Shows b q) : b.available = 0 ↔ q.entries = [] := by
  rw [← List.length_eq_zero_iff, ← shows.available_eq, ← BitVec.toNat_inj]
  rfl

/-- The entries, copied into an array. -/
theorem copied (masked : Masked size) (shows : Shows b q) : b.copied = q.entries := by
  rw [← shows.entries_eq, CircularBuffer.copied, shows.available_eq, entries]
  refine List.map_congr_left fun i hi => ?_
  rw [slot_add masked, shows.word (List.mem_range.mp hi)]

/-- An array copied back replaces the entries from the `i`-th on. -/
theorem copyBack (masked : Masked size) (shows : Shows b q) {i : ℕ} {xs : List α}
    (fits : i + xs.length = q.entries.length) (replaced : q'.entries = q.entries.take i ++ xs) :
    Shows (b.copyBack i xs) q' := by
  induction xs generalizing b q i with
  | nil =>
      have all : q.entries.length ≤ i := fits.ge
      have same : q' = q := by
        ext1
        rw [replaced, List.append_nil, List.take_of_length_le all]
      rwa [same]
  | cons x xs ih =>
      rw [List.length_cons] at fits
      have inside : i < q.entries.length := by omega
      let stored : BoundedQueue α size.toNat := q.replace (q.entries.set i x) List.length_set
      have entries : stored.entries = q.entries.set i x := rfl
      have length : stored.entries.length = q.entries.length := List.length_set
      have one : Shows
          { b with cbuf := Function.update b.cbuf (slot size (b.head + BitVec.ofNat 16 i)) x }
          stored := by
        refine ⟨shows.head_lt, ?_, ?_⟩
        · rw [length]
          exact shows.available_eq
        · rw [length, slot_add masked, shows.word inside, entries_set inside q.bounded,
            shows.entries_eq, entries]
      refine ih one (by rw [length]; omega) ?_
      rw [replaced, entries, List.take_set, List.take_succ_eq_append_getElem inside,
        List.set_append_right _ _ (by rw [List.length_take]; omega), List.length_take,
        min_eq_left inside.le, Nat.sub_self, List.append_assoc]
      rfl

end Shows

/-- Copying back touches the array only. -/
theorem copyBack_counters (b : CircularBuffer α size) (i : ℕ) (xs : List α) :
    (b.copyBack i xs).head = b.head ∧ (b.copyBack i xs).tail = b.tail := by
  induction xs generalizing b i with
  | nil => exact ⟨rfl, rfl⟩
  | cons x xs ih => exact ih _ (i + 1)

section Sorts

variable [LinearOrder α]

theorem Shows.sorted (masked : Masked size) (shows : Shows b q) :
    b.sorted = q.sort.entries := by
  rw [CircularBuffer.sorted, shows.copied masked]
  rfl

theorem length_sort (q : BoundedQueue α size.toNat) :
    q.sort.entries.length = q.entries.length :=
  List.length_insertionSort _ _

theorem Shows.sortAscending (masked : Masked size) (shows : Shows b q) :
    Shows b.sortAscending q.sort := by
  rw [CircularBuffer.sortAscending]
  split
  case isTrue empty =>
      have same : q.sort = q := by
        ext1
        change q.entries.insertionSort (· ≤ ·) = q.entries
        rw [shows.empty_iff.mp empty, List.insertionSort_nil]
      rwa [same]
  case isFalse =>
      rw [shows.sorted masked]
      exact shows.copyBack masked (by rw [length_sort, Nat.zero_add]) rfl

theorem sortAscending_counters (b : CircularBuffer α size) :
    b.sortAscending.head = b.head ∧ b.sortAscending.tail = b.tail := by
  rw [CircularBuffer.sortAscending]
  split
  case isTrue => exact ⟨rfl, rfl⟩
  case isFalse => exact copyBack_counters b 0 _

theorem Represents.sortAscending (masked : Masked size) (represents : Represents b q) :
    Represents b.sortAscending q.sort := by
  obtain ⟨head, tail⟩ := sortAscending_counters b
  refine ⟨represents.toShows.sortAscending masked, ?_⟩
  rw [head, tail, length_sort]
  exact represents.tail_eq

theorem Represents.sortDescending (masked : Masked size) (represents : Represents b q) :
    Represents b.sortDescending q.sort.reverse := by
  have ascending := represents.sortAscending masked
  have length : q.sort.reverse.entries.length = q.sort.entries.length := List.length_reverse
  rw [CircularBuffer.sortDescending]
  split
  case isTrue empty =>
      have same : q.sort.reverse = q := by
        ext1
        change (q.entries.insertionSort (· ≤ ·)).reverse = q.entries
        rw [represents.empty_iff.mp empty, List.insertionSort_nil, List.reverse_nil]
      rwa [same]
  case isFalse =>
      obtain ⟨head, tail⟩ := copyBack_counters b.sortAscending 0 b.sortAscending.copied.reverse
      rw [ascending.copied masked] at head tail ⊢
      refine ⟨ascending.toShows.copyBack masked (by rw [List.length_reverse, Nat.zero_add]) rfl, ?_⟩
      rw [head, tail, length]
      exact ascending.tail_eq

end Sorts

/-! ### Statistics of the entries -/

theorem Shows.getD [Zero α] (masked : Masked size) (shows : Shows b q)
    {i : BitVec 16} (inside : i.toNat < q.entries.length) :
    b.cbuf (slot size (b.head + i)) = q.entries.getD i.toNat 0 := by
  rw [List.getD, slot_add masked]
  conv_rhs => rw [← shows.entries_eq, getElem?_entries inside]
  rfl

/-- The least entry and the greatest one. -/
theorem Shows.extremes [Zero α] [LinearOrder α] (masked : Masked size)
    (shows : Shows b q) (nonempty : q.entries ≠ []) :
    b.min ∈ q.entries ∧ b.max ∈ q.entries ∧ ∀ x ∈ q.entries, b.min ≤ x ∧ x ≤ b.max := by
  have counted : b.available ≠ 0 := mt shows.empty_iff.mp nonempty
  have perm : q.sort.entries.Perm q.entries := List.perm_insertionSort _ _
  have ordered : q.sort.entries.Pairwise (· ≤ ·) := List.pairwise_insertionSort _ _
  have length := perm.length_eq
  have positive := List.length_pos_iff.mpr nonempty
  have one : (1 : BitVec 16).toNat = 1 := rfl
  have last : (b.available - 1).toNat = q.sort.entries.length - 1 := by
    have lt := b.available.isLt
    have available := shows.available_eq
    rw [BitVec.toNat_sub, one]
    omega
  have first : 0 < q.sort.entries.length := by omega
  have final : q.sort.entries.length - 1 < q.sort.entries.length := by omega
  have least : b.min = q.sort.entries[0] := by
    rw [CircularBuffer.min, if_neg counted, shows.sorted masked,
      List.getD_eq_getElem _ _ first]
  have greatest : b.max = q.sort.entries[q.sort.entries.length - 1] := by
    rw [CircularBuffer.max, if_neg counted, shows.sorted masked, last,
      List.getD_eq_getElem _ _ final]
  refine ⟨?_, ?_, fun x mem => ?_⟩
  · rw [least]
    exact perm.mem_iff.mp (List.getElem_mem first)
  · rw [greatest]
    exact perm.mem_iff.mp (List.getElem_mem final)
  · obtain ⟨i, inside, rfl⟩ := List.getElem_of_mem (perm.mem_iff.mpr mem)
    rw [List.pairwise_iff_getElem] at ordered
    rw [least, greatest]
    constructor
    · rcases Nat.eq_zero_or_pos i with rfl | later
      · exact le_rfl
      · exact ordered 0 i first inside later
    · rcases Nat.lt_or_eq_of_le (Nat.le_pred_of_lt inside) with earlier | equal
      · exact ordered i _ inside final earlier
      · exact le_of_eq (by congr 1)

section Integers

variable {t : IntType} {b b' : CircularBuffer t.Value size}
  {q q' : BoundedQueue t.Value size.toNat}

/-- The middle of a list, as `median` takes it. -/
def middleOf (xs : List t.Value) : Option t.Value :=
  if xs.length % 2 = 0 then
    (t.promote.compute ((xs.getD (xs.length / 2 - 1) 0).val +
        (xs.getD (xs.length / 2) 0).val)).bind fun sum => t.divide sum.val 2
  else some (xs.getD (xs.length / 2) 0)

theorem Shows.middle (masked : Masked size) (shows : Shows b q) (nonempty : b.available ≠ 0) :
    b.middle = middleOf q.entries := by
  have length := shows.available_eq
  have positive : 0 < b.available.toNat :=
    Nat.pos_of_ne_zero fun zero => nonempty (BitVec.eq_of_toNat_eq zero)
  have half : (b.available / 2).toNat = q.entries.length / 2 := by
    rw [← length]
    exact BitVec.toNat_udiv
  have parity : b.available % 2 = 0 ↔ q.entries.length % 2 = 0 := by
    rw [← length, ← BitVec.toNat_inj, BitVec.toNat_umod]
    rfl
  have upper := shows.getD masked (i := b.available / 2) (by omega)
  rw [half] at upper
  rw [CircularBuffer.middle, middleOf]
  by_cases even : b.available % 2 = 0
  · have evenLength := parity.mp even
    have one : (1 : BitVec 16).toNat = 1 := rfl
    have before : (b.available / 2 - 1).toNat = q.entries.length / 2 - 1 := by
      have lt := (b.available / 2).isLt
      rw [BitVec.toNat_sub, one, half]
      rw [half] at lt
      omega
    have lower := shows.getD masked (i := b.available / 2 - 1) (by omega)
    rw [before] at lower
    rw [if_pos even, if_pos evenLength, upper, lower]
  · rw [if_neg even, if_neg (mt parity.mpr even), upper]

/-- **The medians.** With `override` it is the middle of the sorted entries, and they stay
sorted; without, it is the middle of the entries as they came. -/
theorem Shows.median (masked : Masked size) (shows : Shows b q)
    (nonempty : q.entries ≠ []) :
    ((b.median true).1 = middleOf q.sort.entries ∧ Shows (b.median true).2 q.sort) ∧
      (b.median false).1 = middleOf q.entries ∧ (b.median false).2 = b := by
  have counted : b.available ≠ 0 := mt shows.empty_iff.mp nonempty
  have ascending := shows.sortAscending masked
  have stillCounted : b.sortAscending.available ≠ 0 := by
    refine mt ascending.empty_iff.mp fun none_left => nonempty ?_
    have length := length_sort q
    rw [none_left] at length
    exact List.length_eq_zero_iff.mp length.symm
  rw [CircularBuffer.median, if_neg counted, if_pos rfl, CircularBuffer.median, if_neg counted,
    if_neg Bool.false_ne_true]
  exact ⟨⟨ascending.middle masked stillCounted, ascending⟩, shows.middle masked counted, rfl⟩

/-! ### Sums -/

/-- Two results agree unless one of them is undefined. -/
def ResultsAgree (x y : Option t.Value) : Prop := ∀ v ∈ x, ∀ w ∈ y, v = w

theorem ResultsAgree.refl (x : Option t.Value) : ResultsAgree x x := fun _ hv _ hw =>
  Option.some.inj (hv.symm.trans hw)

theorem ResultsAgree.bind {x y : Option t.Value} {f g : t.Value → Option t.Value}
    (agree : ResultsAgree x y) (each : ∀ v, ResultsAgree (f v) (g v)) :
    ResultsAgree (x.bind f) (y.bind g) := by
  intro v hv w hw
  obtain ⟨v', left, hv⟩ := Option.bind_eq_some_iff.mp hv
  obtain ⟨w', right, hw⟩ := Option.bind_eq_some_iff.mp hw
  obtain rfl := agree v' left w' right
  exact each v' v hv w hw

/-- Loops that add up the same summands in different orders. -/
theorem ResultsAgree.foldlM {step : t.Value → t.Value → Option t.Value} {f : t.Value → ℤ}
    (each : ∀ value x r, r ∈ step value x → r = t.convert (value + f x)) {xs ys : List t.Value}
    (perm : xs.Perm ys) : ResultsAgree (xs.foldlM step 0) (ys.foldlM step 0) := by
  intro v hv w hw
  rw [IntType.foldlM_eq_convert each hv, IntType.foldlM_eq_convert each hw,
    (perm.map f).sum_eq]

/-- One step of the loop of `variance`. -/
theorem addSquare_eq {mean value x v : t.Value}
    (defined : v ∈ (CircularBuffer.squaredDeviation mean x).bind
      fun square => t.addAssign value square.val) :
    v = t.convert (value.val + (x.val - mean.val) * (x.val - mean.val)) := by
  obtain ⟨square, squared, added⟩ := Option.bind_eq_some_iff.mp defined
  obtain ⟨deviation, subtracted, multiplied⟩ := Option.bind_eq_some_iff.mp squared
  have difference := IntType.promote_modEq subtracted
  have product := (IntType.promote_modEq multiplied).trans (difference.mul difference)
  rw [IntType.addAssign_eq added]
  exact IntType.convert_congr (product.add_left _)

section Sums

variable (available : b.available = b'.available) (copies : b.copied.Perm b'.copied)

include available copies

theorem sum_agree : ResultsAgree b.sum b'.sum := by
  rw [CircularBuffer.sum, CircularBuffer.sum, available]
  split
  case isTrue => exact .refl _
  case isFalse => exact .foldlM (f := Subtype.val) (fun _ _ _ => IntType.addAssign_eq) copies

theorem average_agree : ResultsAgree b.average b'.average := by
  rw [CircularBuffer.average, CircularBuffer.average, available]
  split
  case isTrue => exact .refl _
  case isFalse => exact (sum_agree available copies).bind fun _ => .refl _

theorem variance_agree : ResultsAgree b.variance b'.variance := by
  rw [CircularBuffer.variance, CircularBuffer.variance, available]
  split
  case isTrue => exact .refl _
  case isFalse =>
    refine (average_agree available copies).bind fun mean => ?_
    refine ResultsAgree.bind ?_ fun _ => .refl _
    exact .foldlM (f := fun x : t.Value => (x.val - mean.val) * (x.val - mean.val))
      (fun _ _ _ => addSquare_eq) copies

/-- Where no addition overflows, both sums are defined. -/
theorem sum_eq_of_addsDefined (adds : t.AddsDefined) : b.sum = b'.sum := by
  have agree := sum_agree available copies
  have defined (c : CircularBuffer t.Value size) : c.sum.isSome := by
    rw [CircularBuffer.sum]
    split
    case isTrue => rfl
    case isFalse => exact IntType.foldlM_addAssign_isSome adds _ _
  obtain ⟨v, hv⟩ := Option.isSome_iff_exists.mp (defined b)
  obtain ⟨w, hw⟩ := Option.isSome_iff_exists.mp (defined b')
  rw [hv, hw, agree v hv w hw]

end Sums

/-- `uint16_t` -/
def uint16 : IntType := ⟨16, false, by decide⟩

/-- Two entries in both orders. -/
def written (first second : uint16.Value) : CircularBuffer uint16.Value 4 :=
  ((CircularBuffer.declared fun _ => 0).write first).write second

/-- Division truncates: the average of -1 and -2 as `int` is -1. -/
example : (((CircularBuffer.declared fun _ => 0).write (⟨-1, by decide⟩ : IntType.int.Value)).write
    ⟨-2, by decide⟩ : CircularBuffer IntType.int.Value 4).average = some ⟨-1, by decide⟩ := by
  decide

end Integers

end RFPowerDetector.Buffer
