/-
Lists as records closed by a terminator, and as fields separated by a pair.

`records sep` are the complete records of a list, each closed by `sep`; a last,
unclosed record is not among them. A reader that joins late first skips past the
next terminator (`afterFirst`); `records_afterFirst_drop` says which records it
then reads, wherever it joins. `splitPair a b` splits at every `a` followed by
`b`, leftmost first; the same pair closes the lines of a stream (`splitPair_lines`), and
what has been received of it holds the first of them (`splitPair_received`).
-/

import Mathlib.Data.List.Basic
import Mathlib.Data.List.Count

namespace Split

variable {α : Type} [DecidableEq α]

/-! ### Records closed by a terminator -/

/-- The complete records of a list, the first of them begun by `acc`. -/
def records (sep : α) : List α → List α → List (List α)
  | _, [] => []
  | acc, x :: xs => if x = sep then acc :: records sep [] xs else records sep (acc ++ [x]) xs

/-- What follows the first terminator. -/
def afterFirst (sep : α) : List α → List α
  | [] => []
  | x :: xs => if x = sep then xs else afterFirst sep xs

section Records

variable {sep : α}

theorem records_append {xs : List α} (free : sep ∉ xs) (acc ys : List α) :
    records sep acc (xs ++ ys) = records sep (acc ++ xs) ys := by
  induction xs generalizing acc with
  | nil => simp
  | cons x xs ih =>
      obtain ⟨ne, free⟩ := List.ne_and_not_mem_of_not_mem_cons free
      rw [List.cons_append, records, if_neg ne.symm, ih free, List.append_assoc,
        List.singleton_append]

theorem records_terminator (acc ys : List α) :
    records sep acc (sep :: ys) = acc :: records sep [] ys := by
  rw [records, if_pos rfl]

/-- Skipping past the first terminator loses the first record. -/
theorem records_afterFirst (acc xs : List α) :
    records sep [] (afterFirst sep xs) = (records sep acc xs).tail := by
  induction xs generalizing acc with
  | nil => rfl
  | cons x xs ih =>
      rw [afterFirst, records]
      split
      · rfl
      · exact ih _

/-- A reader that joins `j` elements later loses as many records as it has
missed terminators. -/
theorem records_afterFirst_drop (j : ℕ) (xs : List α) :
    records sep [] (afterFirst sep (xs.drop j)) =
      (records sep [] (afterFirst sep xs)).drop ((xs.take j).count sep) := by
  induction j generalizing xs with
  | zero => simp
  | succ j ih =>
      cases xs with
      | nil => simp [afterFirst, records]
      | cons x xs =>
          rw [List.drop_succ_cons, List.take_succ_cons, ih, afterFirst]
          split
          · rename_i terminator
            rw [terminator, List.count_cons_self, records_afterFirst [], ← List.drop_one,
              List.drop_drop, Nat.add_comm]
          · rename_i other
            rw [List.count_cons_of_ne other]

theorem records_line {filler : α} (ne : filler ≠ sep) {line : List α} (free : sep ∉ line)
    (acc ys : List α) :
    records sep acc ((line ++ [sep, filler]) ++ ys) = (acc ++ line) :: records sep [filler] ys := by
  have split : (line ++ [sep, filler]) ++ ys = line ++ sep :: filler :: ys := by simp
  rw [split, records_append free, records_terminator]
  congr 1
  rw [records, if_neg ne, List.nil_append]

/-- Lines closed by a terminator and a filler: the filler opens the next record. -/
theorem records_lines {filler : α} (ne : filler ≠ sep) {lines : List (List α)}
    (free : ∀ line ∈ lines, sep ∉ line) :
    records sep [filler] (lines.flatMap fun line => line ++ [sep, filler]) =
      lines.map (filler :: ·) := by
  induction lines with
  | nil => rfl
  | cons line rest ih =>
      have rest_free := fun l hl => free l (List.mem_cons_of_mem _ hl)
      rw [List.flatMap_cons, records_line ne (free line List.mem_cons_self), ih rest_free]
      rfl

/-- The reader of lines that joins `j` elements late reads the lines after the one
it joined in. -/
theorem records_lines_drop (filler : α) (ne : filler ≠ sep) {lines : List (List α)}
    (free : ∀ line ∈ lines, sep ∉ line) (j : ℕ) :
    records sep [] (afterFirst sep ((lines.flatMap fun line => line ++ [sep, filler]).drop j)) =
      (lines.drop
        (((lines.flatMap fun line => line ++ [sep, filler]).take j).count sep + 1)).map
        (filler :: ·) := by
  have all : records sep [] (afterFirst sep (lines.flatMap fun line => line ++ [sep, filler])) =
      (lines.drop 1).map (filler :: ·) := by
    cases lines with
    | nil => rfl
    | cons line rest =>
        rw [List.flatMap_cons, records_afterFirst [], records_line ne (free line List.mem_cons_self),
          List.tail_cons, records_lines ne fun l hl => free l (List.mem_cons_of_mem _ hl)]
        rfl
  rw [records_afterFirst_drop, all, ← List.map_drop, List.drop_drop, Nat.add_comm]

end Records

/-! ### Fields separated by a pair -/

/-- Split at every `a` followed by `b`. -/
def splitPair (a b : α) : List α → List (List α)
  | [] => [[]]
  | [x] => [[x]]
  | x :: y :: xs =>
      if x = a ∧ y = b then [] :: splitPair a b xs
      else (splitPair a b (y :: xs)).modifyHead (x :: ·)

section Fields

variable {a b : α}

theorem splitPair_cons_of_ne {x : α} (ne : x ≠ a) {xs : List α} (hne : xs ≠ []) :
    splitPair a b (x :: xs) = (splitPair a b xs).modifyHead (x :: ·) := by
  cases xs with
  | nil => exact absurd rfl hne
  | cons y xs => rw [splitPair, if_neg fun h => ne h.1]

/-- A list without `a` is one field. -/
theorem splitPair_of_free {xs : List α} (free : a ∉ xs) : splitPair a b xs = [xs] := by
  induction xs with
  | nil => rfl
  | cons x xs ih =>
      obtain ⟨ne, free⟩ := List.ne_and_not_mem_of_not_mem_cons free
      cases xs with
      | nil => rfl
      | cons y xs => rw [splitPair_cons_of_ne ne.symm (List.cons_ne_nil _ _), ih free]; rfl

/-- A field without `a`, its separator and the rest. -/
theorem splitPair_append {xs : List α} (free : a ∉ xs) (ys : List α) :
    splitPair a b (xs ++ a :: b :: ys) = xs :: splitPair a b ys := by
  induction xs with
  | nil => rw [List.nil_append, splitPair, if_pos ⟨rfl, rfl⟩]
  | cons x xs ih =>
      obtain ⟨ne, free⟩ := List.ne_and_not_mem_of_not_mem_cons free
      rw [List.cons_append, splitPair_cons_of_ne ne.symm (by simp), ih free]
      rfl

/-- Joined fields without `a` are split where they were joined. -/
theorem splitPair_intercalate {fields : List (List α)} (ne : fields ≠ [])
    (free : ∀ field ∈ fields, a ∉ field) : splitPair a b ([a, b].intercalate fields) = fields := by
  induction fields with
  | nil => exact absurd rfl ne
  | cons field rest ih =>
      have own : a ∉ field := free field List.mem_cons_self
      cases rest with
      | nil => rw [List.intercalate_singleton, splitPair_of_free own]
      | cons next rest =>
          rw [List.intercalate_cons_cons, List.append_assoc, List.cons_append,
            List.singleton_append, splitPair_append own,
            ih (List.cons_ne_nil _ _) fun f hf => free f (List.mem_cons_of_mem _ hf)]

theorem splitPair_ne_nil (xs : List α) : splitPair a b xs ≠ [] := by
  induction xs using splitPair.induct (a := a) (b := b) with
  | case1 => exact List.cons_ne_nil _ _
  | case2 x => exact List.cons_ne_nil _ _
  | case3 x y xs pair ih =>
      rw [splitPair, if_pos pair]
      exact List.cons_ne_nil _ _
  | case4 x y xs other ih =>
      rw [splitPair, if_neg other]
      simpa using ih

/-! ### Lines closed by a pair -/

/-- Complete lines, and the text after them. -/
theorem splitPair_lines {lines : List (List α)} {tail : List α}
    (free : ∀ line ∈ lines, a ∉ line) (last : a ∉ tail) :
    splitPair a b ((lines.flatMap fun line => line ++ [a, b]) ++ tail) = lines ++ [tail] := by
  induction lines with
  | nil => exact splitPair_of_free last
  | cons line rest ih =>
      rw [List.flatMap_cons, List.append_assoc, List.append_assoc, List.cons_append,
        List.singleton_append, splitPair_append (free line List.mem_cons_self),
        ih fun l hl => free l (List.mem_cons_of_mem _ hl)]
      rfl

/-- A line cut before its pair is complete is one field. -/
theorem splitPair_of_cut {line xs : List α} (free : a ∉ line) (cut : xs <+: line ++ [a]) :
    splitPair a b xs = [xs] := by
  rcases List.prefix_concat_iff.mp cut with rfl | inside
  · clear cut
    induction line with
    | nil => rfl
    | cons x line ih =>
        obtain ⟨ne, free⟩ := List.ne_and_not_mem_of_not_mem_cons free
        rw [List.cons_append, splitPair_cons_of_ne ne.symm (by simp), ih free]
        rfl
  · exact splitPair_of_free fun mem => free (inside.subset mem)

/-- What has been received of a stream of lines holds its first lines. -/
theorem splitPair_received {lines : List (List α)} {tail xs : List α}
    (free : ∀ line ∈ lines, a ∉ line) (last : a ∉ tail)
    (received : xs <+: (lines.flatMap fun line => line ++ [a, b]) ++ tail) :
    (splitPair a b xs).dropLast <+: lines := by
  induction lines generalizing xs with
  | nil =>
      rw [splitPair_of_free fun mem => last (received.subset mem)]
      exact List.nil_prefix
  | cons line rest ih =>
      have own : a ∉ line := free line List.mem_cons_self
      rw [List.flatMap_cons, List.append_assoc] at received
      have whole : line ++ [a, b] = (line ++ [a]) ++ [b] := by simp
      rcases List.prefix_or_prefix_of_prefix received (List.prefix_append _ _) with cut | ⟨ys, rfl⟩
      · rw [whole] at cut
        rcases List.prefix_concat_iff.mp cut with rfl | cut
        · have closed : line ++ [a] ++ [b] = line ++ a :: b :: [] := by simp
          rw [closed, splitPair_append own]
          exact ⟨rest, rfl⟩
        · rw [splitPair_of_cut own cut]
          exact List.nil_prefix
      · have later := (List.prefix_append_right_inj _).mp received
        have rest_free := ih (fun l hl => free l (List.mem_cons_of_mem _ hl)) later
        have split : line ++ [a, b] ++ ys = line ++ a :: b :: ys := by simp
        rw [split, splitPair_append own, List.dropLast_cons_of_ne_nil (splitPair_ne_nil ys)]
        exact List.cons_prefix_cons.mpr ⟨rfl, rest_free⟩

end Fields

end Split
