/-
`FILLARRAY` (`src/defs.h`) and the fill of the sample buffer in `setup`
(`src/main.cpp`).

The macro stores an element at the start of an array and lets `memcpy` copy the
array onto itself one element further. The ranges overlap by all but one element,
so the result depends on the width of the chunks `memcpy` copies.

* `fillArray_iff`: the array is filled exactly when every byte that a chunk loads
  before the copy has written it holds the element's byte already.
* `fillArray_always_iff`: that is so for every previous content exactly when the
  chunks are no wider than an element or the array has at most two elements.
* `samplesAt_fillArray`: with such chunks `setup` fills the sample buffer with the
  invalid sample, as the board of the source assumes.
-/

import RFPowerDetector.Firmware.Window
import RFPowerDetector.Library.Memory

namespace RFPowerDetector.Firmware

open Memory

/-! ### The macro -/

section Fill

variable {β : Type}

/-- `FILLARRAY(a, x)` on an array of `arrayLength` elements of the size of `x`. -/
def fillArray (copyWidth a arrayLength : ℕ) (x : List β) (m : ℕ → β) : ℕ → β :=
  memcpy copyWidth (a + x.length) a (arrayLength * x.length - x.length) (store m a x)

/-- Every element of the array is `x`, and no byte outside it has changed. -/
structure Filled (a arrayLength : ℕ) (x : List β) (m m' : ℕ → β) : Prop where
  elements : ∀ j, j < arrayLength → load m' (a + j * x.length) x.length = x
  frame : ∀ q, q < a ∨ a + arrayLength * x.length ≤ q → m' q = m q

/-- The bytes that a chunk loads before the copy has written them: those at an offset
of at least an element's size into a chunk. They hold the element's bytes. -/
def HoldsAhead (copyWidth a arrayLength : ℕ) (x : List β) (m : ℕ → β) : Prop :=
  ∀ p, p < (arrayLength - 1) * x.length → x.length ≤ p % copyWidth →
    x[p % x.length]? = some (m (a + p))

variable {w a n p q : ℕ} {x : List β} {m m' : ℕ → β}

/-- The elements of an array, byte by byte. -/
theorem elements_iff (nonempty : x ≠ []) :
    (∀ j, j < n → load m' (a + j * x.length) x.length = x) ↔
      ∀ p, p < n * x.length → x[p % x.length]? = some (m' (a + p)) := by
  have size : 0 < x.length := List.length_pos_iff.mpr nonempty
  constructor
  · intro elements p hp
    have element := elements (p / x.length) ((Nat.div_lt_iff_lt_mul size).mpr hp)
    have byte := load_eq_iff.mp element (p % x.length) (Nat.mod_lt p size)
    rwa [Nat.add_assoc, Nat.mul_comm, Nat.div_add_mod] at byte
  · intro bytes j hj
    refine load_eq_iff.mpr fun r hr => ?_
    have place : j * x.length + r < n * x.length := by
      have next : (j + 1) * x.length ≤ n * x.length := Nat.mul_le_mul_right _ hj
      rw [Nat.succ_mul] at next
      omega
    have byte := bytes (j * x.length + r) place
    rwa [Nat.mul_comm, Nat.mul_add_mod, Nat.mod_eq_of_lt hr, Nat.mul_comm, ← Nat.add_assoc] at byte

theorem fillArray_frame (m : ℕ → β) (pos : 0 < n)
    (outside : q < a ∨ a + n * x.length ≤ q) : fillArray w a n x m q = m q := by
  have first : x.length ≤ n * x.length := Nat.le_mul_of_pos_left _ pos
  rw [fillArray, memcpy_frame _ (by omega), store_outside _ (by omega)]

/-- The element the macro assigns. -/
theorem fillArray_first (m : ℕ → β) (hp : p < x.length) :
    x[p]? = some (fillArray w a n x m (a + p)) := by
  rw [fillArray, memcpy_frame _ (by omega), store_inside m a hp, List.getElem?_eq_getElem hp]

/-- A byte its chunk loads before the copy has written it is the array's old byte. -/
theorem fillArray_stale (m : ℕ → β) (hw : 0 < w) (hp : p < n * x.length - x.length)
    (ahead : x.length ≤ p % w) : fillArray w a n x m (a + x.length + p) = m (a + p) := by
  have beyond := ahead.trans (Nat.mod_le p w)
  rw [fillArray, memcpy_overlap _ a x.length hw hp, if_pos ahead, store_outside _ (by omega)]

/-- Any other byte is the final byte one element below. -/
theorem fillArray_fresh (m : ℕ → β) (hw : 0 < w) (hp : p < n * x.length - x.length)
    (behind : p % w < x.length) :
    fillArray w a n x m (a + x.length + p) = fillArray w a n x m (a + p) := by
  rw [fillArray, memcpy_overlap _ a x.length hw hp, if_neg (not_le.mpr behind)]

/-- The bytes of one copy are the bytes of the element: by induction on the offset,
each is the byte one element below it, or was there before. -/
theorem HoldsAhead.bytes (holds : HoldsAhead w a n x m) (hw : 0 < w) (nonempty : x ≠ []) (p : ℕ)
    (hp : p < n * x.length) : x[p % x.length]? = some (fillArray w a n x m (a + p)) := by
  have size : 0 < x.length := List.length_pos_iff.mpr nonempty
  induction p using Nat.strong_induction_on with
  | h p ih =>
      rcases lt_or_ge p x.length with first | later
      · rw [Nat.mod_eq_of_lt first]
        exact fillArray_first m first
      · obtain ⟨r, rfl⟩ := Nat.exists_eq_add_of_le later
        have copied : r < n * x.length - x.length := by omega
        rw [Nat.add_mod_left, ← Nat.add_assoc]
        rcases lt_or_ge (r % w) x.length with behind | ahead
        · rw [fillArray_fresh m hw copied behind]
          exact ih r (by omega) (by omega)
        · rw [fillArray_stale m hw copied ahead]
          exact holds r (by rwa [Nat.sub_mul, Nat.one_mul]) ahead

theorem HoldsAhead.filled (holds : HoldsAhead w a n x m) (hw : 0 < w) (pos : 0 < n)
    (nonempty : x ≠ []) : Filled a n x m (fillArray w a n x m) where
  elements := (elements_iff nonempty).mpr (holds.bytes hw nonempty)
  frame := fun _ outside => fillArray_frame m pos outside

/-- A filled array held those bytes before. -/
theorem Filled.holdsAhead (filled : Filled a n x m (fillArray w a n x m)) (hw : 0 < w)
    (nonempty : x ≠ []) : HoldsAhead w a n x m := by
  intro p hp ahead
  rw [Nat.sub_mul, Nat.one_mul] at hp
  have byte := (elements_iff nonempty).mp filled.elements (x.length + p) (by omega)
  rwa [Nat.add_mod_left, ← Nat.add_assoc, fillArray_stale m hw hp ahead] at byte

/-- No byte is loaded ahead by chunks no wider than an element, nor in the copy of a
single element. -/
theorem holdsAhead_of_le (hw : 0 < w) (narrow : w ≤ x.length ∨ n ≤ 2) :
    HoldsAhead w a n x m := by
  intro p hp ahead
  exfalso
  rcases narrow with narrow | short
  · have inChunk := Nat.mod_lt p hw
    omega
  · have one : (n - 1) * x.length ≤ 1 * x.length := Nat.mul_le_mul_right _ (by omega)
    have low := Nat.mod_le p w
    omega

/-- **When the macro always fills**, whatever the array held. -/
theorem fillArray_always_iff [Nontrivial β] (hw : 0 < w) (pos : 0 < n) (nonempty : x ≠ [])
    (a : ℕ) :
    (∀ m : ℕ → β, Filled a n x m (fillArray w a n x m)) ↔ w ≤ x.length ∨ n ≤ 2 := by
  have size : 0 < x.length := List.length_pos_iff.mpr nonempty
  constructor
  · intro always
    by_contra wide
    rw [not_or, not_le, not_le] at wide
    obtain ⟨first, hfirst⟩ : ∃ b, x[0]? = some b := ⟨_, List.getElem?_eq_getElem size⟩
    obtain ⟨other, differs⟩ := exists_ne first
    have holds := (always fun _ => other).holdsAhead hw nonempty
    -- the first byte of the second element is loaded with the whole first one
    have copied : x.length < (n - 1) * x.length := by
      have two : 2 * x.length ≤ (n - 1) * x.length := Nat.mul_le_mul_right _ (by omega)
      omega
    have byte := holds x.length copied (Nat.mod_eq_of_lt wide.1).ge
    rw [Nat.mod_self, hfirst] at byte
    exact differs (Option.some.inj byte).symm
  · intro narrow m
    have holds : HoldsAhead w a n x m := holdsAhead_of_le hw narrow
    exact holds.filled hw pos nonempty

/-- Three elements of two bytes, by chunks of three. -/
theorem fillArray_always_iff_three :
    ¬∀ m : ℕ → Bool, Filled 0 3 [true, false] m (fillArray 3 0 3 [true, false] m) :=
  mt (fillArray_always_iff (by decide) (by decide) (List.cons_ne_nil _ _) 0).mp (by decide)

end Fill

/-! ### The sample buffer -/

/-- An `RFSample` in memory: four 16-bit values and a 32-bit one, in the order of
the fields. -/
def RFSample.bytes (s : RFSample) : List Byte :=
  littleEndian 2 s.sampleValueA.toNat ++ littleEndian 2 s.sampleValueB.toNat ++
    littleEndian 2 s.sampleValueN.toNat ++ littleEndian 2 s.sampleValueP.toNat ++
    littleEndian 4 s.timestamp.toNat

def RFSample.ofBytes (bytes : List Byte) : RFSample where
  sampleValueA := BitVec.ofNat 16 (ofLittleEndian (bytes.take 2))
  sampleValueB := BitVec.ofNat 16 (ofLittleEndian ((bytes.drop 2).take 2))
  sampleValueN := BitVec.ofNat 16 (ofLittleEndian ((bytes.drop 4).take 2))
  sampleValueP := BitVec.ofNat 16 (ofLittleEndian ((bytes.drop 6).take 2))
  timestamp := BitVec.ofNat 32 (ofLittleEndian ((bytes.drop 8).take 4))

/-- `sizeof(RFSample)` -/
@[simp] theorem RFSample.length_bytes (s : RFSample) : s.bytes.length = 12 := by
  simp [bytes]

theorem ofNat_ofLittleEndian_littleEndian {k : ℕ} (v : BitVec (8 * k)) :
    BitVec.ofNat (8 * k) (ofLittleEndian (littleEndian k v.toNat)) = v := by
  have fits : v.toNat < 256 ^ k := by
    have bits := v.isLt
    rwa [pow_mul] at bits
  rw [ofLittleEndian_littleEndian fits, BitVec.ofNat_toNat, BitVec.setWidth_eq]

/-- A stored sample reads back. -/
theorem RFSample.ofBytes_bytes (s : RFSample) : ofBytes s.bytes = s := by
  have word (v : Word) := ofNat_ofLittleEndian_littleEndian (k := 2) v
  have stamp := ofNat_ofLittleEndian_littleEndian (k := 4) s.timestamp
  have fields : ofBytes s.bytes =
      ⟨BitVec.ofNat 16 (ofLittleEndian (littleEndian 2 s.sampleValueA.toNat)),
        BitVec.ofNat 16 (ofLittleEndian (littleEndian 2 s.sampleValueB.toNat)),
        BitVec.ofNat 16 (ofLittleEndian (littleEndian 2 s.sampleValueN.toNat)),
        BitVec.ofNat 16 (ofLittleEndian (littleEndian 2 s.sampleValueP.toNat)),
        BitVec.ofNat 32 (ofLittleEndian (littleEndian 4 s.timestamp.toNat))⟩ := rfl
  rw [fields, word, word, word, word, stamp]

/-- The samples in memory from the address `a` on. -/
def samplesAt (a : ℕ) (m : ℕ → Byte) (p : ℕ) : RFSample :=
  .ofBytes (load m (a + p * 12) 12)

/-- A filled array reads back as its element. -/
theorem Filled.samplesAt {a n : ℕ} {s : RFSample} {m m' : ℕ → Byte}
    (filled : Filled a n s.bytes m m') {p : ℕ} (hp : p < n) : samplesAt a m' p = s := by
  have element := filled.elements p hp
  rw [RFSample.length_bytes] at element
  rw [Firmware.samplesAt, element, RFSample.ofBytes_bytes]

/-- **The fill of `setup`**: by chunks of at most a sample's size, every entry of the
sample buffer becomes the invalid sample, as on the board of the source. -/
theorem samplesAt_fillArray {w : ℕ} (hw : 0 < w) (narrow : w ≤ 12) (a : ℕ) (m : ℕ → Byte) {p : ℕ}
    (hp : p < rfBufferLength) :
    samplesAt a (fillArray w a rfBufferLength RFSample.invalid.bytes m) p =
      sourceBoard.memory p := by
  have holds : HoldsAhead w a rfBufferLength RFSample.invalid.bytes m :=
    holdsAhead_of_le hw (.inl narrow)
  exact (holds.filled hw (by omega) (List.cons_ne_nil _ _)).samplesAt hp

/-- The fill of the declared buffer by words. -/
theorem samplesAt_fillArray_words :
    samplesAt 0 (fillArray 4 0 rfBufferLength RFSample.invalid.bytes fun _ => 0) 2 =
      sourceBoard.memory 2 :=
  samplesAt_fillArray (by decide) (by decide) 0 _ (by rw [rfBufferLength_eq]; decide)

end RFPowerDetector.Firmware
