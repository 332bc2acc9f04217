/-
Readers of texts, and what it takes to read back what was printed.

A reader takes a value off the front of a list of symbols and leaves the rest, or
fails. `Reads stop r t a` says that `r` gets `a` from `t` in front of whatever does not
go on with a symbol of `stop`: a reader of numerals needs to know that the text after a
numeral is not a digit, a reader of a fixed word does not. The rules combine these facts
as the reader combines its parts, so a round trip is proved along the printed text.
-/

import Mathlib.Data.List.TakeWhile
import RFPowerDetector.Library.Numeral

namespace Reading

/-- A reader of lists of `σ`. -/
abbrev Reader (σ : Type) := StateT (List σ) Option

variable {σ α β : Type}

/-- Read a fixed word. -/
def literal [DecidableEq σ] (word : List σ) : Reader σ Unit := fun t =>
  if word.isPrefixOf t then some ((), t.drop word.length) else none

/-- Read as long as `p` holds, and interpret what was read. -/
def run (p : σ → Bool) (interpret : List σ → Option α) : Reader σ α := fun t =>
  (interpret (t.takeWhile p)).map fun a => (a, t.dropWhile p)

/-- Read one symbol. -/
def symbol (interpret : σ → Option α) : Reader σ α
  | [] => none
  | c :: t => (interpret c).map fun a => (a, t)

/-- Read a fixed word if it is there. -/
def optional [DecidableEq σ] (word : List σ) : Reader σ Bool := fun t =>
  if word.isPrefixOf t then some (true, t.drop word.length) else some (false, t)

/-- The value of a whole text. -/
def whole (r : Reader σ α) (t : List σ) : Option α :=
  match r t with
  | some (a, []) => some a
  | _ => none

/-- The text does not go on with a symbol of `stop`. -/
def Stops (stop : σ → Bool) (t : List σ) : Prop := ∀ c, t.head? = some c → stop c = false

theorem stops_nil (stop : σ → Bool) : Stops stop [] := nofun

theorem stops_cons {stop : σ → Bool} {c : σ} (other : stop c = false) (t : List σ) :
    Stops stop (c :: t) := by
  rintro _ ⟨⟩
  exact other

/-- The reader gets `a` from `t`, in front of a text that does not go on with `stop`. -/
def Reads (stop : σ → Bool) (r : Reader σ α) (t : List σ) (a : α) : Prop :=
  ∀ rest, Stops stop rest → r (t ++ rest) = some (a, rest)

/-- The reader gets `a` from `t` in front of any text. -/
abbrev ReadsAny (r : Reader σ α) (t : List σ) (a : α) : Prop := Reads (fun _ => false) r t a

section Rules

variable {stop : σ → Bool} {r : Reader σ α} {t u : List σ} {a : α} {b : β}

theorem Reads.whole (reads : Reads stop r t a) : whole r t = some a := by
  have all := reads [] (stops_nil stop)
  rw [List.append_nil] at all
  rw [Reading.whole, all]

theorem reads_pure (a : α) : Reads stop (pure a : Reader σ α) [] a := fun _ _ => rfl

theorem reads_literal [DecidableEq σ] (word : List σ) : ReadsAny (literal word) word () := by
  intro rest _
  have front : word.isPrefixOf (word ++ rest) = true :=
    List.isPrefixOf_iff_prefix.mpr (List.prefix_append _ _)
  rw [literal, if_pos front, List.drop_left]

/-- Reading on after a reader that does not mind what follows. -/
theorem ReadsAny.bind {f : α → Reader σ β} (first : ReadsAny r t a) (next : Reads stop (f a) u b) :
    Reads stop (r >>= f) (t ++ u) b := by
  intro rest stops
  have read := first (u ++ rest) fun _ _ => rfl
  show (r (t ++ u ++ rest)).bind (fun p => f p.1 p.2) = _
  rw [List.append_assoc, read]
  exact next rest stops

/-- Reading on after a reader that must see its text end. -/
theorem Reads.bind {stop' : σ → Bool} {f : α → Reader σ β} {c : σ} (first : Reads stop r t a)
    (other : stop c = false) (next : Reads stop' (f a) (c :: u) b) :
    Reads stop' (r >>= f) (t ++ c :: u) b := by
  intro rest stops
  have read := first (c :: u ++ rest) (stops_cons other _)
  show (r (t ++ c :: u ++ rest)).bind (fun p => f p.1 p.2) = _
  rw [List.append_assoc, read]
  exact next rest stops

/-- The last reader of a text. -/
theorem Reads.map {g : α → β} (last : Reads stop r t a) :
    Reads stop (r >>= fun a => pure (g a)) t (g a) := by
  intro rest stops
  show (r (t ++ rest)).bind (fun p => (pure (g p.1) : Reader σ β) p.2) = _
  rw [last rest stops]
  rfl

/-- A value closed by a fixed word that ends it. -/
theorem Reads.closed [DecidableEq σ] {stop' : σ → Bool} {f : α → Reader σ β} {c : σ}
    {word : List σ} (first : Reads stop r t a) (other : stop c = false)
    (next : Reads stop' (f a) u b) :
    Reads stop' (do
      let a ← r
      literal (c :: word)
      f a) (t ++ (c :: word ++ u)) b :=
  first.bind other (ReadsAny.bind (reads_literal (c :: word)) next)

theorem reads_run {interpret : List σ → Option α} (all : ∀ c ∈ t, stop c = true)
    (value : interpret t = some a) : Reads stop (run stop interpret) t a := by
  intro rest stops
  have taken : (t ++ rest).takeWhile stop = t := by
    rw [List.takeWhile_append_of_pos all]
    cases rest with
    | nil => simp
    | cons c rest => simp [stops c rfl]
  have dropped : (t ++ rest).dropWhile stop = rest := by
    rw [List.dropWhile_append_of_pos all]
    cases rest with
    | nil => rfl
    | cons c rest => simp [stops c rfl]
  rw [run, taken, dropped, value]
  rfl

theorem reads_symbol {interpret : σ → Option α} {c : σ} (value : interpret c = some a) :
    ReadsAny (symbol interpret) [c] a := by
  intro rest _
  show (interpret c).map _ = _
  rw [value]
  rfl

theorem reads_present [DecidableEq σ] (word : List σ) : ReadsAny (optional word) word true := by
  intro rest _
  have front : word.isPrefixOf (word ++ rest) = true :=
    List.isPrefixOf_iff_prefix.mpr (List.prefix_append _ _)
  rw [optional, if_pos front, List.drop_left]

/-- Reading on where an optional word is not: the text begins differently. -/
theorem Reads.absent [DecidableEq σ] {f : Bool → Reader σ β} {word : List σ} {c d : σ}
    (next : Reads stop (f false) (d :: u) b) (ne : c ≠ d) :
    Reads stop (optional (c :: word) >>= f) (d :: u) b := by
  intro rest stops
  have missing : (c :: word).isPrefixOf (d :: u ++ rest) = false := by
    show ((c == d) && word.isPrefixOf (u ++ rest)) = false
    rw [beq_eq_false_iff_ne.mpr ne, Bool.false_and]
  show (optional (c :: word) (d :: u ++ rest)).bind (fun p => f p.1 p.2) = _
  rw [optional, missing]
  exact next rest stops

end Rules

/-! ### Numerals -/

/-- A numeral: the longest run of its characters. -/
def numeral : Reader Char ℚ := run Numeral.isNumeralChar Numeral.parse

def natural : Reader Char ℕ :=
  run Char.isDigit fun t => if t = [] then none else some (Nat.ofDigitChars 10 t 0)

def integer : Reader Char ℤ := do
  let negative ← optional ['-']
  let n ← natural
  pure (if negative then -(n : ℤ) else n)

theorem reads_numeral {t : List Char} {x : ℚ}
    (own : ∀ c ∈ t, Numeral.isNumeralChar c = true) (value : Numeral.parse t = some x) :
    Reads Numeral.isNumeralChar numeral t x :=
  reads_run own value

theorem reads_natural (n : ℕ) : Reads Char.isDigit natural (Nat.toDigits 10 n) n := by
  apply reads_run fun c => Numeral.isDigit_of_mem_toDigits
  rw [if_neg Nat.toDigits_ne_nil, Nat.ofDigitChars_ten_toDigits]

/-- The sign of a negative number, and the digits. -/
theorem reads_integer (n : ℤ) :
    Reads Char.isDigit integer ((if n < 0 then ['-'] else []) ++ Nat.toDigits 10 n.natAbs) n := by
  have digits := reads_natural n.natAbs
  split
  · rename_i negative
    have read : Reads Char.isDigit integer (['-'] ++ Nat.toDigits 10 n.natAbs)
        (if (true : Bool) then -(n.natAbs : ℤ) else n.natAbs) :=
      (reads_present ['-']).bind digits.map
    have value : -(n.natAbs : ℤ) = n := by omega
    rwa [if_pos rfl, value] at read
  · rename_i positive
    obtain ⟨c, u, split⟩ :=
      List.exists_cons_of_ne_nil (Nat.toDigits_ne_nil (b := 10) (n := n.natAbs))
    have first : c ∈ Nat.toDigits 10 n.natAbs := split ▸ List.mem_cons_self
    have ne : '-' ≠ c := by
      rintro rfl
      cases Numeral.isDigit_of_mem_toDigits first
    rw [split] at digits
    have read : Reads Char.isDigit integer (c :: u)
        (if (false : Bool) then -(n.natAbs : ℤ) else n.natAbs) :=
      Reads.absent digits.map ne
    have value : (n.natAbs : ℤ) = n := by omega
    rw [if_neg Bool.false_ne_true, value] at read
    rwa [List.nil_append, split]

end Reading
