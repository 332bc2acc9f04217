/-
Bounded queues, and rings of slots that hold them.

A `BoundedQueue` has at most `N` entries: a push at one end of a full queue drops an
entry at the other. Appending entry by entry is appending the list (`foldl_append`).

`entries N slots head n` reads `n` entries from a ring of `N` slots, from the counter
`head` on. The lemmas say what a store into one slot does to them: at the counter
behind the last entry it appends (`entries_append`), at the counter before the first
it prepends (`entries_prepend`), at an entry it replaces that one (`entries_set`), and
elsewhere it does nothing (`entries_update_of_ne`).

A ring whose counters run modulo `2 * N` tells full from empty (`full_iff`).
-/

import Mathlib.Data.List.DropRight
import Mathlib.Data.List.InsertIdx
import Mathlib.Data.List.Sort
import Mathlib.Logic.Function.Basic

namespace Circular

variable {α : Type}

/-! ### Bounded queues -/

/-- A queue of at most `N` entries, oldest first. -/
@[ext]
structure BoundedQueue (α : Type) (N : ℕ) where
  entries : List α
  bounded : entries.length ≤ N

theorem length_rtake_le (N : ℕ) (xs : List α) : (xs.rtake N).length ≤ N := by
  rw [List.rtake, List.length_drop]
  omega

/-- The last `N` of a list are those of its last `N` and what follows. -/
theorem rtake_rtake_append (N : ℕ) (xs ys : List α) :
    (xs.rtake N ++ ys).rtake N = (xs ++ ys).rtake N := by
  simp only [List.rtake, List.length_append, List.length_drop, List.drop_append, List.drop_drop]
  rcases le_total xs.length N with within | beyond
  · rw [Nat.sub_eq_zero_of_le within, Nat.sub_zero, Nat.zero_add]
  · congr 2 <;> omega

theorem rtake_of_length_le {N : ℕ} {xs : List α} (le : xs.length ≤ N) : xs.rtake N = xs := by
  rw [List.rtake, Nat.sub_eq_zero_of_le le, List.drop_zero]

namespace BoundedQueue

variable {N : ℕ}

def empty : BoundedQueue α N := ⟨[], Nat.zero_le N⟩

/-- Append, dropping the oldest entries that have no room. -/
def append (q : BoundedQueue α N) (xs : List α) : BoundedQueue α N :=
  ⟨(q.entries ++ xs).rtake N, length_rtake_le N _⟩

/-- Prepend, dropping the newest entries that have no room. -/
def prepend (q : BoundedQueue α N) (xs : List α) : BoundedQueue α N :=
  ⟨(xs ++ q.entries).take N, List.length_take_le N _⟩

def popFront (q : BoundedQueue α N) (n : ℕ) : BoundedQueue α N :=
  ⟨q.entries.drop n, by rw [List.length_drop]; exact (Nat.sub_le _ _).trans q.bounded⟩

def popBack (q : BoundedQueue α N) : BoundedQueue α N :=
  ⟨q.entries.dropLast, by rw [List.length_dropLast]; exact (Nat.sub_le _ _).trans q.bounded⟩

/-- Replace the entries by as many others. -/
def replace (q : BoundedQueue α N) (xs : List α) (same : xs.length = q.entries.length) :
    BoundedQueue α N :=
  ⟨xs, same.trans_le q.bounded⟩

def eraseIdx (q : BoundedQueue α N) (i : ℕ) : BoundedQueue α N :=
  ⟨q.entries.eraseIdx i, (List.length_eraseIdx_le ..).trans q.bounded⟩

def sort [LinearOrder α] (q : BoundedQueue α N) : BoundedQueue α N :=
  q.replace (q.entries.insertionSort (· ≤ ·)) (List.length_insertionSort _ _)

def reverse (q : BoundedQueue α N) : BoundedQueue α N :=
  q.replace q.entries.reverse List.length_reverse

def map {β : Type} (f : α → β) (q : BoundedQueue α N) : BoundedQueue β N :=
  ⟨q.entries.map f, (List.length_map f).trans_le q.bounded⟩

variable (q : BoundedQueue α N)

@[simp] theorem entries_append (xs : List α) :
    (q.append xs).entries = (q.entries ++ xs).rtake N := rfl

@[simp] theorem entries_prepend (xs : List α) :
    (q.prepend xs).entries = (xs ++ q.entries).take N := rfl

@[simp] theorem entries_popFront (n : ℕ) : (q.popFront n).entries = q.entries.drop n := rfl

@[simp] theorem entries_eraseIdx (i : ℕ) : (q.eraseIdx i).entries = q.entries.eraseIdx i := rfl

@[simp] theorem entries_popBack : q.popBack.entries = q.entries.dropLast := rfl

@[simp] theorem entries_map {β : Type} (f : α → β) :
    (q.map f).entries = q.entries.map f := rfl

theorem append_nil : q.append [] = q := by
  ext1
  rw [entries_append, List.append_nil, rtake_of_length_le q.bounded]

theorem append_append (xs ys : List α) : (q.append xs).append ys = q.append (xs ++ ys) := by
  ext1
  rw [entries_append, entries_append, entries_append, rtake_rtake_append, List.append_assoc]

theorem prepend_nil : q.prepend [] = q := by
  ext1
  exact List.take_of_length_le q.bounded

theorem prepend_prepend (xs ys : List α) : (q.prepend ys).prepend xs = q.prepend (xs ++ ys) := by
  ext1
  rw [entries_prepend, entries_prepend, entries_prepend, List.append_assoc, List.take_append,
    List.take_take, min_eq_left (Nat.sub_le _ _)]
  exact List.take_append.symm

/-- Entries appended one by one. -/
theorem foldl_append (xs : List α) : xs.foldl (fun q x => q.append [x]) q = q.append xs := by
  induction xs generalizing q with
  | nil => exact (append_nil q).symm
  | cons x xs ih => rw [List.foldl_cons, ih, append_append, List.singleton_append]

section Map

variable {β : Type} (f : α → β)

theorem map_append (xs : List α) : (q.append xs).map f = (q.map f).append (xs.map f) := by
  ext1
  rw [entries_map, entries_append, List.rtake, List.map_drop, entries_append, entries_map,
    ← List.map_append, List.rtake, List.length_map]

theorem map_prepend (xs : List α) : (q.prepend xs).map f = (q.map f).prepend (xs.map f) := by
  ext1
  rw [entries_map, entries_prepend, List.map_take, List.map_append, entries_prepend, entries_map]

theorem map_popFront (n : ℕ) : (q.popFront n).map f = (q.map f).popFront n :=
  BoundedQueue.ext List.map_drop

theorem map_popBack : q.popBack.map f = (q.map f).popBack :=
  BoundedQueue.ext List.map_dropLast

theorem map_eraseIdx (i : ℕ) : (q.eraseIdx i).map f = (q.map f).eraseIdx i :=
  BoundedQueue.ext (List.eraseIdx_map ..).symm

end Map

variable {q}

theorem entries_append_of_le {xs : List α} (room : q.entries.length + xs.length ≤ N) :
    (q.append xs).entries = q.entries ++ xs :=
  rtake_of_length_le (by rwa [List.length_append])

theorem entries_append_full (full : q.entries.length = N) (pos : 0 < N) (x : α) :
    (q.append [x]).entries = q.entries.tail ++ [x] := by
  have nonempty : q.entries ≠ [] := by
    intro empty
    rw [empty, List.length_nil] at full
    omega
  rw [entries_append, List.rtake, List.length_append, List.length_singleton, full,
    Nat.add_sub_cancel_left, List.drop_one, List.tail_append_of_ne_nil nonempty]

theorem getLast?_append (pos : 0 < N) (x : α) : (q.append [x]).entries.getLast? = some x := by
  rcases Nat.lt_or_eq_of_le q.bounded with room | full
  · rw [entries_append_of_le room, List.getLast?_concat]
  · rw [entries_append_full full pos, List.getLast?_concat]

theorem head?_prepend (pos : 0 < N) (x : α) : (q.prepend [x]).entries.head? = some x := by
  rw [entries_prepend, List.singleton_append, List.take_cons pos, List.head?_cons]

end BoundedQueue

/-! ### Rings of slots -/

section Ring

variable {N head n p : ℕ} {slots : ℕ → α}

/-- The `n` entries of a ring from the counter `head` on. -/
def entries (N : ℕ) (slots : ℕ → α) (head n : ℕ) : List α :=
  (List.range n).map fun i => slots ((head + i) % N)

@[simp] theorem length_entries (N : ℕ) (slots : ℕ → α) (head n : ℕ) :
    (entries N slots head n).length = n := by
  simp [entries]

theorem getElem?_entries {i : ℕ} (inside : i < n) :
    (entries N slots head n)[i]? = some (slots ((head + i) % N)) := by
  simp [entries, inside]

theorem entries_succ (N : ℕ) (slots : ℕ → α) (head n : ℕ) :
    entries N slots head (n + 1) = entries N slots head n ++ [slots ((head + n) % N)] := by
  rw [entries, List.range_succ, List.map_append]
  rfl

theorem entries_succ' (N : ℕ) (slots : ℕ → α) (head n : ℕ) :
    entries N slots head (n + 1) = slots (head % N) :: entries N slots (head + 1) n := by
  rw [entries, List.range_succ_eq_map, List.map_cons, List.map_map, Nat.add_zero, entries]
  congr 2
  funext i
  rw [Function.comp, Nat.succ_eq_add_one, Nat.add_right_comm, Nat.add_assoc]

/-- Only the slot of the first counter matters. -/
theorem entries_congr {head' : ℕ} (same : head % N = head' % N) :
    entries N slots head n = entries N slots head' n := by
  refine List.map_congr_left fun i _ => ?_
  rw [Nat.add_mod, same, ← Nat.add_mod]

/-- Distinct entries lie in distinct slots. -/
theorem slot_ne {i j : ℕ} (less : i < j) (inside : j < i + N) :
    (head + i) % N ≠ (head + j) % N := by
  intro same
  have divides : N ∣ head + j - (head + i) :=
    Nat.dvd_of_mod_eq_zero (Nat.sub_mod_eq_zero_of_mod_eq same.symm)
  rw [Nat.add_sub_add_left] at divides
  have := Nat.le_of_dvd (by omega) divides
  omega

theorem entries_update_of_ne {x : α} (apart : ∀ i < n, (head + i) % N ≠ p) :
    entries N (Function.update slots p x) head n = entries N slots head n := by
  refine List.map_congr_left fun i hi => ?_
  exact Function.update_of_ne (apart i (List.mem_range.mp hi)) x slots

theorem entries_append (room : n < N) (x : α) :
    entries N (Function.update slots ((head + n) % N) x) head (n + 1) =
      entries N slots head n ++ [x] := by
  rw [entries_succ, Function.update_self, entries_update_of_ne]
  exact fun i hi => slot_ne hi (by omega)

theorem entries_prepend (room : n < N) (x : α) :
    entries N (Function.update slots (head % N) x) head (n + 1) =
      x :: entries N slots (head + 1) n := by
  rw [entries_succ', Function.update_self, entries_update_of_ne]
  intro i hi
  rw [Nat.add_assoc]
  have later : 0 < 1 + i := by omega
  exact (slot_ne later (by omega)).symm

/-- In a full ring, the counter behind the last entry is the slot of the first. -/
theorem entries_overwrite (pos : 0 < N) (x : α) :
    entries N (Function.update slots ((head + N) % N) x) (head + 1) N =
      (entries N slots head N).tail ++ [x] := by
  obtain ⟨n, rfl⟩ : ∃ n, N = n + 1 := ⟨N - 1, by omega⟩
  rw [show head + (n + 1) = head + 1 + n by omega, entries_append n.lt_succ_self,
    entries_succ' _ _ head, List.tail_cons]

theorem entries_set {i : ℕ} (inside : i < n) (within : n ≤ N) (x : α) :
    entries N (Function.update slots ((head + i) % N) x) head n =
      (entries N slots head n).set i x := by
  apply List.ext_getElem?
  intro j
  rw [List.getElem?_set, length_entries, if_pos inside]
  rcases lt_or_ge j n with hj | past
  · rw [getElem?_entries hj]
    split
    case isTrue same => rw [same, Function.update_self]
    case isFalse differs =>
        rw [getElem?_entries hj]
        refine congrArg some (Function.update_of_ne ?_ x slots)
        rcases Nat.lt_or_gt_of_ne differs with less | greater
        · exact (slot_ne less (by omega)).symm
        · exact slot_ne greater (by omega)
  · rw [if_neg (by omega), List.getElem?_eq_none (by rwa [length_entries]),
      List.getElem?_eq_none (by rwa [length_entries])]

theorem take_entries {k : ℕ} (within : k ≤ n) :
    (entries N slots head n).take k = entries N slots head k := by
  rw [entries, ← List.map_take, List.take_range, Nat.min_eq_left within, entries]

theorem drop_entries {k : ℕ} (within : k ≤ n) :
    (entries N slots head n).drop k = entries N slots (head + k) (n - k) := by
  induction k generalizing head n with
  | zero => rfl
  | succ k ih =>
      obtain ⟨n, rfl⟩ : ∃ m, n = m + 1 := ⟨n - 1, by omega⟩
      rw [entries_succ', List.drop_succ_cons, ih (by omega), Nat.add_right_comm, Nat.add_assoc,
        Nat.add_sub_add_right]

theorem dropLast_entries : (entries N slots head n).dropLast = entries N slots head (n - 1) := by
  cases n with
  | zero => rfl
  | succ n => rw [entries_succ, List.dropLast_concat, Nat.add_sub_cancel]

/-- The entries before the `i`-th move up by one, into its place. -/
def moveUp (N head : ℕ) : ℕ → (ℕ → α) → ℕ → α
  | 0, slots => slots
  | i + 1, slots =>
      moveUp N head i (Function.update slots ((head + (i + 1)) % N) (slots ((head + i) % N)))

/-- An entry that its successor replaces may as well be erased after it. -/
theorem eraseIdx_set_succ {xs : List α} {i : ℕ} (inside : i + 1 < xs.length) :
    (xs.set (i + 1) xs[i]).eraseIdx i = xs.eraseIdx (i + 1) := by
  induction xs generalizing i with
  | nil => cases inside
  | cons x xs ih =>
      cases i with
      | zero =>
          obtain ⟨y, ys, rfl⟩ := List.exists_cons_of_length_pos (Nat.lt_of_succ_lt_succ inside)
          rfl
      | succ i =>
          have rest := ih (Nat.lt_of_succ_lt_succ inside)
          rw [List.set_cons_succ, List.eraseIdx_cons_succ, List.eraseIdx_cons_succ,
            List.getElem_cons_succ, rest]

/-- After the move, the entries behind the first slot are the others. -/
theorem entries_moveUp {i : ℕ} (inside : i < n) (within : n ≤ N) :
    entries N (moveUp N head i slots) (head + 1) (n - 1) = (entries N slots head n).eraseIdx i := by
  induction i generalizing slots with
  | zero =>
      obtain ⟨n, rfl⟩ : ∃ m, n = m + 1 := ⟨n - 1, by omega⟩
      rw [entries_succ', List.eraseIdx_zero, List.tail_cons, moveUp, Nat.add_sub_cancel]
  | succ i ih =>
      have before : i < n := by omega
      have here : i < (entries N slots head n).length := by rwa [length_entries]
      have entry : (entries N slots head n)[i] = slots ((head + i) % N) :=
        Option.some.inj ((List.getElem?_eq_getElem here).symm.trans (getElem?_entries before))
      rw [moveUp, ih before, entries_set inside within, ← entry,
        eraseIdx_set_succ (by rwa [length_entries])]

/-- Moved into a free slot, the entries lose the newest. -/
theorem entries_moveUp_free {i : ℕ} (free : n ≤ i) (inside : i < N) :
    entries N (moveUp N head i slots) (head + 1) (n - 1) = (entries N slots head n).dropLast := by
  have moved : entries N (moveUp N head i slots) (head + 1) i = entries N slots head i := by
    have all : entries N (moveUp N head i slots) (head + 1) (i + 1 - 1) =
        (entries N slots head (i + 1)).eraseIdx i :=
      entries_moveUp i.lt_succ_self inside
    rwa [Nat.add_sub_cancel, List.eraseIdx_eq_take_drop_succ, take_entries i.le_succ,
      List.drop_of_length_le (length_entries ..).le, List.append_nil] at all
  rw [dropLast_entries, ← take_entries (by omega : n - 1 ≤ i), moved, take_entries (by omega)]

/-- With counters modulo `2 * N`, the end is `N` ahead of the head in a full ring only. -/
theorem full_iff (pos : 0 < N) (within : n ≤ N) :
    (head + n) % (2 * N) = (head + N) % (2 * N) ↔ n = N := by
  constructor
  · intro same
    by_contra differs
    exact slot_ne (by omega) (by omega) same
  · rintro rfl
    rfl

end Ring

end Circular
