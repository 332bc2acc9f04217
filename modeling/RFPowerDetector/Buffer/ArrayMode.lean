/-
The array mode of `circular_buffer.h`: `multi` is not zero, and an entry is an array.

The rows of `_cabuf` lie one behind the other, `multi + 2` values each: two for the
length, then those of the entry. `T` is an unsigned integer of `w` bits. The counters
are those of the other mode, with which the class shares them.

What a function fills the caller's buffer with is what it returns. In `find`,
`findRemove` and `replace` the positions are a list: a case of their `switch` that does
not match falls through to one that begins with the same comparisons, and fails again.
-/

import RFPowerDetector.Buffer.Circular

namespace RFPowerDetector.Buffer

open Memory

/-- `Circular_Buffer<T, _size, multi>`. -/
@[ext]
structure ArrayBuffer (w : ℕ) (size : BitVec 16) (multi : ℕ) where
  head : BitVec 16
  tail : BitVec 16
  available : BitVec 16
  cabuf : ℕ → BitVec w

variable {w : ℕ}

/-- The values of a row that `write` stores: the length, then the entry. -/
def writtenRow (buffer : ℕ → BitVec w) (length : BitVec 16) : List (BitVec w) :=
  [(length >>> 8).setWidth w, (length &&& 0xFF).setWidth w] ++ load buffer 0 length.toNat

/-- Those that `push_front` and `replace` store: the upper byte stays in its place. -/
def pushedRow (buffer : ℕ → BitVec w) (length : BitVec 16) : List (BitVec w) :=
  [(length &&& 0xFF00).setWidth w, (length &&& 0xFF).setWidth w] ++ load buffer 0 length.toNat

/-- `((int) upper << 8*sizeof(T)) | (int) lower`, returned as a `uint16_t`. -/
def joined (upper lower : BitVec w) : BitVec 16 :=
  BitVec.ofNat 16 (upper.toNat <<< w ||| lower.toNat)

namespace ArrayBuffer

variable {size : BitVec 16} {multi : ℕ}

def declared (cabuf : ℕ → BitVec w) : ArrayBuffer w size multi := ⟨0, 0, 0, cabuf⟩

def clear (b : ArrayBuffer w size multi) : ArrayBuffer w size multi :=
  { b with head := 0, tail := 0, available := 0 }

/-- Where the row of a counter begins. -/
def rowStart (size : BitVec 16) (multi : ℕ) (x : BitVec 16) : ℕ := slot size x * (multi + 2)

/-- Store into the row of a counter. -/
def storeRow (b : ArrayBuffer w size multi) (x : BitVec 16) (values : List (BitVec w)) :
    ArrayBuffer w size multi :=
  { b with cabuf := store b.cabuf (rowStart size multi x) values }

/-- `length` values of the entry of a counter. -/
def loadEntry (b : ArrayBuffer w size multi) (x length : BitVec 16) : List (BitVec w) :=
  load b.cabuf (rowStart size multi x + 2) length.toNat

/-- `write(buffer, length)`, also `push_back(buffer, length)`. -/
def write (b : ArrayBuffer w size multi) (buffer : ℕ → BitVec w) (length : BitVec 16) :
    ArrayBuffer w size multi :=
  { b.storeRow b.tail (writtenRow buffer length) with
    head := if b.tail = b.head ^^^ size then counter size (b.head + 1) else b.head
    tail := counter size (b.tail + 1)
    available := if b.available < size then b.available + 1 else b.available }

/-- `push_front(buffer, length)`: the full buffer moves its `tail`, too. -/
def pushFront (b : ArrayBuffer w size multi) (buffer : ℕ → BitVec w) (length : BitVec 16) :
    ArrayBuffer w size multi :=
  { b.storeRow (counter size (b.head - 1)) (pushedRow buffer length) with
    tail := if b.tail = b.head ^^^ size then counter size (b.tail - 1) else b.tail
    head := counter size (b.head - 1)
    available := if b.available < size then b.available + 1 else b.available }

/-- `read()` drops the oldest entry. -/
def read (b : ArrayBuffer w size multi) : ArrayBuffer w size multi :=
  { b with
    head := counter size (b.head + 1)
    available := if b.available ≠ 0 then b.available - 1 else b.available }

/-- `readBytes(buffer, length)`, also `pop_front(buffer, length)`. -/
def readBytes (b : ArrayBuffer w size multi) (length : BitVec 16) :
    List (BitVec w) × ArrayBuffer w size multi :=
  (b.loadEntry b.head length, b.read)

/-- `pop_back(buffer, length)`: an empty buffer moves its `tail`, too. -/
def popBack (b : ArrayBuffer w size multi) (length : BitVec 16) :
    List (BitVec w) × ArrayBuffer w size multi :=
  (b.loadEntry (b.tail - 1) length,
    { b with
      tail := counter size (b.tail - 1)
      available := if b.available ≠ 0 then b.available - 1 else b.available })

/-- `peek_front(buffer, length, entry)`. -/
def peekFront (b : ArrayBuffer w size multi) (length : BitVec 16) (entry : BitVec 32) :
    List (BitVec w) :=
  b.loadEntry (b.head + entry.setWidth 16) length

/-- The length of the entry of a counter, as `length_front` and `length_back` read it. -/
def lengthAt (b : ArrayBuffer w size multi) (x : BitVec 16) : BitVec 16 :=
  joined (b.cabuf (rowStart size multi x)) (b.cabuf (rowStart size multi x + 1))

def lengthFront (b : ArrayBuffer w size multi) : BitVec 16 := b.lengthAt b.head

def lengthBack (b : ArrayBuffer w size multi) : BitVec 16 :=
  b.lengthAt (b.head + b.available - 1)

/-- The entry of a counter agrees with the buffer at the positions. -/
def Agrees (b : ArrayBuffer w size multi) (buffer : ℕ → BitVec w) (positions : List ℕ)
    (x : BitVec 16) : Prop :=
  ∀ p ∈ positions, b.cabuf (rowStart size multi x + (p + 2)) = buffer p

instance (b : ArrayBuffer w size multi) (buffer : ℕ → BitVec w) (positions : List ℕ)
    (x : BitVec 16) : Decidable (b.Agrees buffer positions x) :=
  inferInstanceAs (Decidable (∀ p ∈ positions, _))

/-- The loop over the entries, up to the first that agrees. -/
def found (b : ArrayBuffer w size multi) (buffer : ℕ → BitVec w) (positions : List ℕ) :
    Option ℕ :=
  (List.range b.available.toNat).find? fun j =>
    b.Agrees buffer positions (b.head + BitVec.ofNat 16 j)

/-- `find(buffer, length, pos1, ...)`: whether there is one, and `length` of its values. -/
def find (b : ArrayBuffer w size multi) (buffer : ℕ → BitVec w) (length : BitVec 16)
    (positions : List ℕ) : Option (List (BitVec w)) :=
  (b.found buffer positions).map fun j => b.loadEntry (b.head + BitVec.ofNat 16 j) length

/-- `replace(buffer, length, pos1, ...)`. -/
def replace (b : ArrayBuffer w size multi) (buffer : ℕ → BitVec w) (length : BitVec 16)
    (positions : List ℕ) : Bool × ArrayBuffer w size multi :=
  match b.found buffer positions with
  | some j => (true, b.storeRow (b.head + BitVec.ofNat 16 j) (pushedRow buffer length))
  | none => (false, b)

/-- `isEqual(buffer)`: the length is read as `[0] | [1]`. -/
def isEqual (b : ArrayBuffer w size multi) (buffer : ℕ → BitVec w) : Bool :=
  (List.range b.available.toNat).any fun j =>
    let start := rowStart size multi (b.head + BitVec.ofNat 16 j)
    (List.range (b.cabuf start ||| b.cabuf (start + 1)).toNat).all fun k =>
      b.cabuf (start + (k + 2)) == buffer k

/-- The loop of `remove`: the rows before `find_area` move up by one. -/
def moveRows (b : ArrayBuffer w size multi) : ℕ → ArrayBuffer w size multi
  | 0 => b
  | findArea + 1 =>
      let here := b.head + BitVec.ofNat 16 (findArea + 1)
      let below := b.head + BitVec.ofNat 16 findArea
      if slot size here = slot size b.head then b
      else
        moveRows (b.storeRow here (load b.cabuf (rowStart size multi below) (multi + 2)))
          findArea

/-- `remove(pos)`, with the index of a row. -/
def remove (b : ArrayBuffer w size multi) (pos : BitVec 16) :
    Bool × ArrayBuffer w size multi :=
  if size ≤ pos then (false, b)
  else
    match (List.range size.toNat).find? fun i =>
        slot size (b.head + BitVec.ofNat 16 i) = pos.toNat with
    | none => (false, b)
    | some findArea =>
        let moved := b.moveRows findArea
        (true, { moved with
          head := counter size (moved.head + 1)
          available := moved.available - 1 })

/-- `findRemove(buffer, length, pos1, ...)`. -/
def findRemove (b : ArrayBuffer w size multi) (buffer : ℕ → BitVec w) (positions : List ℕ) :
    Bool × ArrayBuffer w size multi :=
  match b.found buffer positions with
  | some j => (true, (b.remove ((b.head + BitVec.ofNat 16 j) &&& (size - 1))).2)
  | none => (false, b)

end ArrayBuffer

end RFPowerDetector.Buffer
