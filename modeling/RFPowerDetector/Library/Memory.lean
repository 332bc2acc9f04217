/-
Byte memories, and copies by ascending chunks.

A memory is a function from addresses to bytes of any type. `memcpy w` copies `n`
bytes in ascending chunks of `w`, the last one possibly shorter, each loaded
completely before it is stored; on ranges that overlap its result depends on `w`.

`memcpy_overlap` is the case of a destination `s` bytes above the source: each
copied byte is the final byte `s` below it, unless its own chunk loaded that byte
before any chunk had written it. `memcpy_frame` is the frame of a copy.

Numbers are stored little-endian (`ofLittleEndian_littleEndian`).
-/

import Mathlib.Data.List.Basic
import Mathlib.Data.List.GetD
import Mathlib.Logic.Function.Basic
import Mathlib.Tactic.Ring

namespace Memory

/-! ### Loads and stores -/

section Bytes

variable {β : Type}

/-- The `n` bytes from the address `a` on. -/
def load (m : ℕ → β) (a n : ℕ) : List β := (List.range n).map fun p => m (a + p)

/-- Store the bytes from the address `a` on. -/
def store (m : ℕ → β) (a : ℕ) (bytes : List β) (q : ℕ) : β :=
  if a ≤ q then bytes.getD (q - a) (m q) else m q

variable {m m' : ℕ → β} {a n p q : ℕ} {bytes : List β}

@[simp] theorem length_load (m : ℕ → β) (a n : ℕ) : (load m a n).length = n := by
  simp [load]

theorem getElem_load (hp : p < (load m a n).length) : (load m a n)[p] = m (a + p) := by
  simp [load]

theorem getElem?_load (hp : p < n) : (load m a n)[p]? = some (m (a + p)) := by
  simp [load, hp]

/-- A load yields given bytes exactly when each of them stands at its place. -/
theorem load_eq_iff : load m a bytes.length = bytes ↔
    ∀ p, p < bytes.length → bytes[p]? = some (m (a + p)) := by
  constructor
  · intro equal p hp
    have byte := getElem?_load (m := m) (a := a) hp
    rwa [equal] at byte
  · intro each
    apply List.ext_getElem?
    intro p
    rcases lt_or_ge p bytes.length with inside | outside
    · rw [each p inside, getElem?_load inside]
    · rw [List.getElem?_eq_none outside, List.getElem?_eq_none (by rwa [length_load])]

theorem store_inside (m : ℕ → β) (a : ℕ) (hp : p < bytes.length) :
    store m a bytes (a + p) = bytes[p] := by
  rw [store, if_pos (Nat.le_add_right a p), Nat.add_sub_cancel_left, List.getD_eq_getElem _ _ hp]

theorem store_outside (m : ℕ → β) (outside : q < a ∨ a + bytes.length ≤ q) :
    store m a bytes q = m q := by
  unfold store
  split
  · exact List.getD_eq_default _ _ (by omega)
  · rfl

theorem store_apart (m : ℕ → β) (apart : ∀ i < bytes.length, q ≠ a + i) :
    store m a bytes q = m q := by
  refine store_outside m ?_
  by_contra inside
  exact apart (q - a) (by omega) (by omega)

/-- A store as seen from an offset. -/
theorem store_add (m : ℕ → β) (b a : ℕ) (bytes : List β) (q : ℕ) :
    store m (b + a) bytes (b + q) = store (fun i => m (b + i)) a bytes q := by
  simp only [store, Nat.add_le_add_iff_left, Nat.add_sub_add_left]

theorem store_nil (m : ℕ → β) (a : ℕ) : store m a [] = m := by
  funext q
  exact store_outside m (by rw [List.length_nil]; omega)

/-- A store byte by byte. -/
theorem store_cons (m : ℕ → β) (a : ℕ) (x : β) (bytes : List β) :
    store m a (x :: bytes) = store (Function.update m a x) (a + 1) bytes := by
  funext q
  rcases lt_trichotomy q a with below | rfl | above
  · rw [store_outside m (.inl below), store_outside _ (.inl (by omega)),
      Function.update_of_ne below.ne]
  · have first : 0 < (x :: bytes).length := Nat.zero_lt_succ _
    rw [store_outside _ (.inl q.lt_succ_self), Function.update_self]
    exact store_inside m q first
  · obtain ⟨p, rfl⟩ : ∃ p, q = a + (p + 1) := ⟨q - a - 1, by omega⟩
    rcases lt_or_ge p bytes.length with inside | past
    · have later : p + 1 < (x :: bytes).length := Nat.succ_lt_succ inside
      rw [store_inside m a later, List.getElem_cons_succ, ← Nat.add_assoc, Nat.add_right_comm,
        store_inside _ _ inside]
    · rw [store_outside m (.inr (by rw [List.length_cons]; omega)),
        store_outside _ (.inr (by omega)), Function.update_of_ne above.ne']

/-- A store elsewhere does not change what is loaded. -/
theorem load_store_apart (m : ℕ → β) {a' : ℕ} (apart : a' + n ≤ a ∨ a + bytes.length ≤ a') :
    load (store m a bytes) a' n = load m a' n := by
  refine List.map_congr_left fun p hp => store_outside m ?_
  have := List.mem_range.mp hp
  omega

/-- What is loaded from where a store begins. -/
theorem load_store (m : ℕ → β) (a : ℕ) (within : bytes.length ≤ n) :
    load (store m a bytes) a n = bytes ++ (load m a n).drop bytes.length := by
  apply List.ext_getElem?
  intro p
  rcases lt_or_ge p bytes.length with inside | past
  · rw [getElem?_load (by omega), store_inside m a inside, List.getElem?_append_left inside,
      List.getElem?_eq_getElem inside]
  · rw [List.getElem?_append_right past, List.getElem?_drop, Nat.add_sub_cancel' past]
    rcases lt_or_ge p n with read | unread
    · rw [getElem?_load read, getElem?_load read, store_outside m (.inr (by omega))]
    · rw [List.getElem?_eq_none (by rwa [length_load]), List.getElem?_eq_none (by rwa [length_load])]

theorem take_load (m : ℕ → β) (a n k : ℕ) : (load m a n).take k = load m a (min k n) := by
  rw [load, ← List.map_take, List.take_range]
  rfl

/-- A byte stored behind what is loaded. -/
theorem load_update_succ (m : ℕ → β) (a n : ℕ) (x : β) :
    load (Function.update m (a + n) x) a (n + 1) = load m a n ++ [x] := by
  rw [load, List.range_succ, List.map_append, List.map_singleton, Function.update_self]
  congr 1
  refine List.map_congr_left fun p hp => Function.update_of_ne ?_ _ _
  have := List.mem_range.mp hp
  omega

/-- Part of a load. -/
theorem drop_take_load (m : ℕ → β) (a : ℕ) {k l : ℕ} (within : k + l ≤ n) :
    ((load m a n).drop k).take l = load m (a + k) l := by
  apply List.ext_getElem?
  intro p
  rw [List.getElem?_take, List.getElem?_drop]
  split
  case isTrue inside =>
      rw [getElem?_load (by omega), getElem?_load inside, Nat.add_assoc]
  case isFalse past => rw [List.getElem?_eq_none (by rwa [length_load, ← not_lt])]

/-! ### Copies by chunks -/

/-- Load chunk `k` of a copy of `n` bytes, then store it. -/
def copyChunk (w dst src n : ℕ) (m : ℕ → β) (k : ℕ) : ℕ → β :=
  store m (dst + k * w) (load m (src + k * w) (min w (n - k * w)))

/-- The memory after the first `k` chunks. -/
def copyChunks (w dst src n : ℕ) (m : ℕ → β) (k : ℕ) : ℕ → β :=
  (List.range k).foldl (copyChunk w dst src n) m

def memcpy (w dst src n : ℕ) (m : ℕ → β) : ℕ → β :=
  copyChunks w dst src n m ((n + w - 1) / w)

variable {w dst src s k : ℕ}

theorem copyChunks_succ (w dst src n : ℕ) (m : ℕ → β) (k : ℕ) :
    copyChunks w dst src n m (k + 1) =
      copyChunk w dst src n (copyChunks w dst src n m k) k := by
  rw [copyChunks, List.range_succ, List.foldl_append]
  rfl

/-- A chunk stores what its own load found. -/
theorem copyChunk_inside (m : ℕ → β) (hp : p < min w (n - k * w)) :
    copyChunk w dst src n m k (dst + (k * w + p)) = m (src + (k * w + p)) := by
  have inside : p < (load m (src + k * w) (min w (n - k * w))).length := by
    rwa [length_load]
  rw [copyChunk, ← Nat.add_assoc, store_inside m _ inside, getElem_load, Nat.add_assoc]

theorem copyChunk_outside (m : ℕ → β)
    (outside : q < dst + k * w ∨ dst + k * w + min w (n - k * w) ≤ q) :
    copyChunk w dst src n m k q = m q := by
  refine store_outside m ?_
  rwa [length_load]

/-- The frame of the first chunks: they write their own part of the destination. -/
theorem copyChunks_frame (m : ℕ → β) (k : ℕ) (outside : q < dst ∨ dst + min (k * w) n ≤ q) :
    copyChunks w dst src n m k q = m q := by
  induction k with
  | zero => rfl
  | succ k ih =>
      rw [Nat.succ_mul] at outside
      rw [copyChunks_succ, copyChunk_outside _ (by omega), ih (by omega)]

/-- Later chunks keep what earlier ones have written. -/
theorem copyChunks_stable (m : ℕ → β) {k' : ℕ} (le : k ≤ k') (written : q < dst + k * w) :
    copyChunks w dst src n m k' q = copyChunks w dst src n m k q := by
  induction k', le using Nat.le_induction with
  | base => rfl
  | succ j le ih =>
      have later : k * w ≤ j * w := Nat.mul_le_mul_right w le
      rw [copyChunks_succ, copyChunk_outside _ (Or.inl (by omega)), ih]

/-- **The frame of a copy.** -/
theorem memcpy_frame (m : ℕ → β) (outside : q < dst ∨ dst + n ≤ q) :
    memcpy w dst src n m q = m q :=
  copyChunks_frame m _ (by omega)

/-- The chunk of a byte is one of the chunks of the copy. -/
theorem chunk_lt (hw : 0 < w) (hp : p < n) : p / w < (n + w - 1) / w := by
  have start := Nat.div_mul_le_self p w
  have next : (p / w + 1) * w ≤ n + w - 1 := by
    rw [Nat.succ_mul]
    omega
  exact (Nat.le_div_iff_mul_le hw).mpr next

/-- **A copy onto an overlapping destination above its source.** The byte at offset
`p` was loaded by its chunk as it was before the copy, where the chunk starts at
most `p - s`, and as the copy leaves it otherwise. -/
theorem memcpy_overlap (m : ℕ → β) (src s : ℕ) (hw : 0 < w) (hp : p < n) :
    memcpy w (src + s) src n m (src + s + p) =
      if s ≤ p % w then m (src + p) else memcpy w (src + s) src n m (src + p) := by
  have place : p = p / w * w + p % w := by
    rw [Nat.mul_comm]
    exact (Nat.div_add_mod p w).symm
  have inChunk := Nat.mod_lt p hw
  have chunk := chunk_lt hw hp
  -- the byte at the time its chunk was loaded
  have loaded : memcpy w (src + s) src n m (src + s + p) =
      copyChunks w (src + s) src n m (p / w) (src + p) := by
    have byte : copyChunk w (src + s) src n (copyChunks w (src + s) src n m (p / w)) (p / w)
        (src + s + (p / w * w + p % w)) =
          copyChunks w (src + s) src n m (p / w) (src + (p / w * w + p % w)) :=
      copyChunk_inside _ (by omega)
    rw [← place, ← copyChunks_succ] at byte
    rw [memcpy, copyChunks_stable m chunk (by rw [Nat.succ_mul]; omega), byte]
  rw [loaded]
  split
  · exact copyChunks_frame m _ (by omega)
  · exact (copyChunks_stable m chunk.le (by omega)).symm

end Bytes

/-! ### Little-endian numbers -/

/-- The `k` low bytes of a number, lowest first. -/
def littleEndian : ℕ → ℕ → List (BitVec 8)
  | 0, _ => []
  | k + 1, v => BitVec.ofNat 8 v :: littleEndian k (v / 256)

def ofLittleEndian : List (BitVec 8) → ℕ
  | [] => 0
  | b :: bytes => b.toNat + 256 * ofLittleEndian bytes

@[simp] theorem length_littleEndian (k v : ℕ) : (littleEndian k v).length = k := by
  induction k generalizing v with
  | zero => rfl
  | succ k ih => rw [littleEndian, List.length_cons, ih]

/-- A number that fits its bytes reads back. -/
theorem ofLittleEndian_littleEndian {k v : ℕ} (fits : v < 256 ^ k) :
    ofLittleEndian (littleEndian k v) = v := by
  induction k generalizing v with
  | zero =>
      rw [pow_zero] at fits
      exact (Nat.lt_one_iff.mp fits).symm
  | succ k ih =>
      have rest : v / 256 < 256 ^ k := by
        rw [pow_succ] at fits
        omega
      rw [littleEndian, ofLittleEndian, ih rest, BitVec.toNat_ofNat]
      omega

end Memory
