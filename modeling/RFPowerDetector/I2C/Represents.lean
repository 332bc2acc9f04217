/-
How the driver with the register slave stands for the device.

Memory holds the registers and the register last addressed, the two buffers are where the
device's next frame goes and comes from (`Aimed`), and the driver's state and indices are as
far as the frame (`Follows`). Registers lie apart from each other and from the slave's own
buffer, and the bytes of a frame lie in order (`address_add`). What does not move data keeps
`Represents`; the other flags are in the modules on frames.
-/

import RFPowerDetector.I2C.Device

namespace RFPowerDetector.I2C

open Firmware Memory Transition

variable {l : Layout} {p : Port GotRegNum} {d : Device}

/-! ### Addresses -/

namespace Layout

theorem room_le (l : Layout) (r : ℕ) : l.room r ≤ l.mutableBufferSize - r := by
  unfold room
  split
  · exact Nat.mod_le _ _
  · exact Nat.zero_le _

theorem room_lt (l : Layout) (r : ℕ) : l.room r < 256 := by
  unfold room
  split
  · exact Nat.mod_lt _ (by decide)
  · decide

theorem address_mutable {r : ℕ} (inside : r < l.mutableBufferSize) :
    l.address r = l.mutableBuffer + r := if_pos inside

/-- The bytes of a register and the ones behind it lie in order. -/
theorem address_add (l : Layout) {r i : ℕ} (within : i < l.reach r) :
    r + i < l.size ∧ l.address (r + i) = l.address r + i := by
  unfold reach at within
  unfold size at within ⊢
  split at within
  case isTrue inside =>
      have bound := Nat.mod_le (l.mutableBufferSize - r) 256
      rw [address_mutable inside, address_mutable (by omega)]
      omega
  case isFalse outside =>
      rw [address, address, if_neg outside, if_neg (by omega)]
      omega

theorem room_le_reach (l : Layout) (r : ℕ) : l.room r ≤ l.reach r := by
  unfold room reach
  split
  · exact le_rfl
  · exact Nat.zero_le _

/-- No register lies in the slave's own buffer. -/
theorem rx_ne_address (l : Layout) {i r : ℕ} (own : i < writeBufferLength) (inside : r < l.size) :
    l.rxBuffer + i ≠ l.address r := by
  unfold size at inside
  unfold address
  split
  case isTrue h => exact l.rx_ne_mutable i own r h
  case isFalse h => exact l.rx_ne_readOnly i own _ (by omega)

/-- Registers lie apart. -/
theorem address_inj (l : Layout) {r s : ℕ} (inside : r < l.size) (inside' : s < l.size)
    (same : l.address r = l.address s) : r = s := by
  unfold size at inside inside'
  unfold address at same
  split at same <;> split at same
  case isTrue.isTrue => omega
  case isTrue.isFalse h h' =>
      exact absurd same (l.mutable_ne_readOnly r h _ (by omega))
  case isFalse.isTrue h h' =>
      exact absurd same.symm (l.mutable_ne_readOnly s h' _ (by omega))
  case isFalse.isFalse => omega

end Layout

/-! ### The relation -/

namespace Device

/-- Where the next frame of data goes. -/
def writeBuffer (l : Layout) (d : Device) : ℕ :=
  if d.selected ∧ d.register.toNat < l.mutableBufferSize then l.address d.register.toNat
  else l.rxBuffer

theorem writeBuffer_waiting (waiting : d.selected = false) : d.writeBuffer l = l.rxBuffer := by
  simp [writeBuffer, waiting]

theorem writeRoom_waiting (waiting : d.selected = false) :
    d.writeRoom l = writeBufferLength := by
  simp [writeRoom, waiting]

theorem readRoom_waiting (waiting : d.selected = false) : d.readRoom l = 0 := by
  simp [readRoom, waiting]

end Device

/-- Memory holds the registers, and the buffers are where the next frame goes or comes from. -/
structure Aimed (l : Layout) (p : Port GotRegNum) (d : Device) : Prop where
  selected : p.client = d.selected
  register : p.memory l.rxBuffer = d.register
  file : ∀ r < l.size, p.memory (l.address r) = d.file r
  rxBuffer : p.slave.rxBuffer.buffer = d.writeBuffer l
  rxSize : p.slave.rxBuffer.size = d.writeRoom l
  txBuffer : 0 < d.readRoom l → p.slave.txBuffer.buffer = l.address d.register.toNat
  txSize : p.slave.txBuffer.size = d.readRoom l

/-- The driver is as far as the frame. -/
def Follows (l : Layout) (p : Port GotRegNum) (d : Device) : Frame → Prop
  | .idle => p.slave.state = .idle
  | .writing _ rest =>
      p.slave.state = (if 0 < d.writeRoom l then .receiving else .idle) ∧
        p.slave.rxBuffer.nextIndex = min (rest.length + 1) (d.writeRoom l) ∧
        (d.selected = false → load p.memory (l.rxBuffer + 1) (min rest.length 8) = rest.take 8)
  | .reading further =>
      p.slave.state = .transmitting ∧
        p.slave.txBuffer.nextIndex = min (further + 1) (d.readRoom l)

structure Represents (l : Layout) (p : Port GotRegNum) (d : Device) : Prop extends
    Aimed l p d where
  error : p.slave.error = d.error
  trailing : p.slave.trailingByteSent = (d.trailing || d.overread l)
  frame : Follows l p d d.frame

namespace Represents

/-- The next frame has a register number first. -/
theorem wait (register : p.memory l.rxBuffer = d.register)
    (file : ∀ r < l.size, p.memory (l.address r) = d.file r) (error : p.slave.error = d.error)
    (trailing : p.slave.trailingByteSent = d.trailing) :
    Represents l ((waitForRegNum l p).setState .idle) { d with frame := .idle, selected := false }
    where
  selected := rfl
  register := register
  file := file
  error := error
  trailing := trailing.trans (Bool.or_false _).symm
  rxBuffer := rfl
  rxSize := rfl
  txBuffer opened := absurd opened (Nat.lt_irrefl 0)
  txSize := rfl
  frame := rfl

theorem addressed (related : Represents l p d) (address : BitVec 16) :
    Represents l { p with slave := { p.slave with addressCalled := address } } d where
  __ := related
  frame := by
    have same := related.frame
    cases h : d.frame <;> rw [h] at same <;> exact same

theorem stored (related : Represents l p d) {a : ℕ}
    (apart : ∀ i < writeBufferLength, a ≠ l.rxBuffer + i) (data : Byte) :
    Represents l { p with memory := Function.update p.memory a data }
      { d with file := fun r => if l.address r = a then data else d.file r } where
  __ := related
  register := by
    rw [← related.register]
    exact Function.update_of_ne (apart 0 (by decide)).symm _ _
  file r inside := by
    simp only [Function.update_apply, related.file r inside]
  frame := by
    have same := related.frame
    cases h : d.frame with
    | idle => rwa [h] at same
    | reading further => rwa [h] at same
    | writing first rest =>
        rw [h] at same
        refine ⟨same.1, same.2.1, fun waiting => ?_⟩
        rw [← same.2.2 waiting]
        refine List.map_congr_left fun i mem => Function.update_of_ne ?_ _ _
        have bound := List.mem_range.mp mem
        rw [Nat.add_assoc]
        exact (apart _ (by rw [writeBufferLength]; omega)).symm

theorem bitError (related : Represents l p d) :
    Represents l (((p.setState .aborted).setError .bitError).setState .idle)
      { d with frame := .idle, error := .bitError, trailing := d.trailing || d.overread l } :=
  { related with
    error := rfl
    trailing := related.trailing.trans (Bool.or_false _).symm
    frame := rfl }

end Represents

end RFPowerDetector.I2C
