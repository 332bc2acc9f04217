/-
The register slave refines a device with numbered registers.

The driver sees flags, byte counts and pointers; the `Device` sees frames and register
numbers: a frame of one byte selects a register, the next frame writes or reads from it on,
and a frame of several bytes writes at once. An interrupt is the sequence of its flags
(`interruptServiceRoutine_eq`), so that it does not matter which flags one interrupt finds
together. Between flags the application may store anywhere but in the slave's own buffer.

`Framed` is what the hardware promises of the flags: the first byte of a frame of data, and
only this one, is marked, and a frame does not mix data with requests.
-/

import RFPowerDetector.I2C.Slave

namespace RFPowerDetector.I2C

open Firmware Memory Transition

/-! ### Flags one by one -/

/-- A flag of an interrupt, or a store of the application. -/
inductive Event where
  | addressed (address : BitVec 16)
  | frameEnd
  | received (startOfFrame : Bool) (data : Byte)
  | requested
  | bitError
  | stored (a : ℕ) (data : Byte)

/-- The flags of an interrupt, in the order the routine looks at them. -/
def Interrupt.events (i : Interrupt) : List Event :=
  (i.addressValid.map Event.addressed).toList ++ (if i.frameEnd then [Event.frameEnd] else []) ++
    (i.received.map fun r => Event.received r.1 r.2).toList ++
    (if i.requested then [Event.requested] else []) ++ (if i.bitError then [Event.bitError] else [])

section Driver

variable {κ β : Type} (c : Callbacks κ β)

/-- The branch of a flag. -/
def handle (p : Port κ) : Event → Port κ × List (Output β)
  | .addressed address => ({ p with slave := { p.slave with addressCalled := address } }, [])
  | .frameEnd => endOfFrame c p
  | .received startOfFrame data => (receiveData startOfFrame data p, [])
  | .requested => transmitData c p
  | .bitError => abortTransfer c p
  | .stored a data => ({ p with memory := Function.update p.memory a data }, [])

/-- The driver, flag by flag. -/
def driver (start : Port κ) : Machine (Port κ) Event (List (Output β)) := ⟨start, handle c⟩

/-- An interrupt is the sequence of its flags. -/
theorem interruptServiceRoutine_eq (start : Port κ) (i : Interrupt) (p : Port κ) :
    interruptServiceRoutine c i p = (driver c start).perform i.events p := by
  obtain ⟨addressValid, frameEnd, received, requested, bitError⟩ := i
  cases addressValid <;> cases frameEnd <;> cases received <;> cases requested <;>
    cases bitError <;>
    simp [interruptServiceRoutine, Interrupt.events, Machine.perform_cons, driver, handle]

/-- An interrupt, or a store of the application. -/
inductive Action where
  | interrupt (i : Interrupt)
  | store (a : ℕ) (data : Byte)

def Action.events : Action → List Event
  | .interrupt i => i.events
  | .store a data => [.stored a data]

/-- The driver, interrupt by interrupt. -/
def serviced (start : Port κ) : Machine (Port κ) Action (List (Output β)) where
  init := start
  step p
    | .interrupt i => interruptServiceRoutine c i p
    | .store a data => ({ p with memory := Function.update p.memory a data }, [])

/-- A run of interrupts does what their flags do one by one. -/
theorem serviced_perform (start p : Port κ) (actions : List Action) :
    (serviced c start).perform actions p =
      (driver c start).perform (actions.flatMap Action.events) p := by
  refine Machine.perform_batches ?_ actions p
  intro p a
  cases a with
  | interrupt i => exact interruptServiceRoutine_eq c start i p
  | store a data => rfl

end Driver

/-! ### The device -/

/-- A frame as far as it has come: a first byte and the rest, or a request and further ones. -/
inductive Frame where
  | idle
  | writing (first : Byte) (rest : List Byte)
  | reading (further : ℕ)

/-- A device whose registers have numbers. `register` is the one last addressed, `selected`
says that the next frame is for it. `trailing` is left of a read that a bit error cut. -/
structure Device where
  register : Byte
  selected : Bool
  file : ℕ → Byte
  frame : Frame
  error : I2CError
  trailing : Bool

namespace Layout

variable (l : Layout)

def size : ℕ := l.mutableBufferSize + l.readOnlyBufferSize

/-- Where a register lies. -/
def address (r : ℕ) : ℕ :=
  if r < l.mutableBufferSize then l.mutableBuffer + r
  else l.readOnlyBuffer + (r - l.mutableBufferSize)

/-- How many bytes can be written from a register on. -/
def room (r : ℕ) : ℕ := if r < l.mutableBufferSize then (l.mutableBufferSize - r) % 256 else 0

/-- How many bytes can be read from a register on. -/
def reach (r : ℕ) : ℕ :=
  if r < l.mutableBufferSize then (l.mutableBufferSize - r) % 256 else l.size - r

end Layout

namespace Device

variable (l : Layout) (d : Device)

/-- How many bytes of the next frame of data are kept. -/
def writeRoom : ℕ := if d.selected then l.room d.register.toNat else writeBufferLength

/-- How many bytes the next request can have. -/
def readRoom : ℕ := if d.selected then l.reach d.register.toNat else 0

/-- More than the byte that the master's hardware always asks for too much. -/
def overread : Bool :=
  match d.frame with
  | .reading further => decide (0 < d.readRoom l ∧ d.readRoom l < further + 1)
  | _ => false

/-- A first byte: a register number, or the first byte for a register. -/
def receiveFirst (data : Byte) : Device :=
  let begun := { d with frame := .writing data [], error := .ok }
  if d.selected then
    if 0 < d.writeRoom l then
      { begun with file := Function.update d.file d.register.toNat data }
    else begun
  else { begun with register := data }

/-- A further byte. -/
def receiveNext (first : Byte) (rest : List Byte) (data : Byte) : Device :=
  let place := rest.length + 1
  let error := if 0 < d.writeRoom l ∧ d.writeRoom l ≤ place then .bufferOverflow else d.error
  let received := { d with frame := .writing first (rest ++ [data]), error := error }
  if d.selected ∧ place < d.writeRoom l then
    { received with file := Function.update d.file (d.register.toNat + place) data }
  else received

/-- The end of a frame of data. -/
def endWriting (rest : List Byte) : Device × List (Output RegisterCall) :=
  let ended := { d with frame := .idle }
  if d.selected then
    if 0 < d.writeRoom l then
      ({ ended with selected := false },
        [.called (.afterWrite d.register (min (rest.length + 1) (d.writeRoom l)))])
    else (ended, [])
  else if rest = [] then ({ ended with selected := true }, [])
  else
    let kept := rest.take (writeBufferLength - 1)
    ({ ended with
        file := store d.file d.register.toNat (kept.take (l.room d.register.toNat)) },
      [.called (.afterWrite d.register kept.length)])

/-- The byte that the request after `count` others gets. -/
def readAt (count : ℕ) : Byte :=
  if count < d.readRoom l then d.file (d.register.toNat + count) else 0

/-- The request after `count` others asks for too much. -/
def underflows (count : ℕ) : Prop :=
  d.readRoom l = 0 ∨ d.readRoom l < count ∨ d.readRoom l = count ∧ d.trailing = true

instance (count : ℕ) : Decidable (d.underflows l count) :=
  inferInstanceAs (Decidable (_ ∨ _ ∨ _))

/-- The answer to the request that follows `count` others. -/
def answer (count : ℕ) : Device × List (Output RegisterCall) :=
  let error :=
    if d.underflows l count then .bufferUnderflow else if count = 0 then .ok else d.error
  ({ d with frame := .reading count, error := error }, [.sent (d.readAt l count)])

def step (d : Device) : Event → Device × List (Output RegisterCall)
  | .addressed _ => (d, [])
  | .frameEnd =>
      match d.frame with
      | .idle => (d, [])
      | .writing _ rest => d.endWriting l rest
      | .reading _ =>
          ({ d with frame := .idle, selected := false, trailing := false },
            [.called (.afterRead d.register)])
  | .received _ data =>
      match d.frame with
      | .writing first rest => (d.receiveNext l first rest data, [])
      | _ => (d.receiveFirst l data, [])
  | .requested =>
      match d.frame with
      | .reading further => d.answer l (further + 1)
      | _ => d.answer l 0
  | .bitError =>
      ({ d with frame := .idle, error := .bitError, trailing := d.trailing || d.overread l }, [])
  | .stored a data =>
      ({ d with file := fun r => if l.address r = a then data else d.file r }, [])

/-- What the hardware promises of a flag, and the application of a store: the first byte of a
frame is marked and no other, a frame does not mix data with requests, and the slave's own
buffer is left alone. -/
def Framed (d : Device) : Event → Prop
  | .received startOfFrame _ =>
      match d.frame with
      | .idle => startOfFrame = true
      | .writing _ _ => startOfFrame = false
      | .reading _ => False
  | .requested =>
      match d.frame with
      | .writing _ _ => False
      | _ => True
  | .stored a _ => ∀ i < writeBufferLength, a ≠ l.rxBuffer + i
  | _ => True

instance (d : Device) (e : Event) : Decidable (d.Framed l e) :=
  match e with
  | .received startOfFrame _ =>
      match frame : d.frame with
      | .idle => decidable_of_iff (startOfFrame = true) (by simp [Framed, frame])
      | .writing _ _ => decidable_of_iff (startOfFrame = false) (by simp [Framed, frame])
      | .reading _ => isFalse (by simp [Framed, frame])
  | .requested =>
      match frame : d.frame with
      | .writing _ _ => isFalse (by simp [Framed, frame])
      | .idle | .reading _ => isTrue (by simp [Framed, frame])
  | .stored a _ => inferInstanceAs (Decidable (∀ i < writeBufferLength, a ≠ l.rxBuffer + i))
  | .addressed _ | .frameEnd | .bitError => isTrue trivial

/-- The device after `listen`, with the registers that memory holds. -/
def listening (memory : ℕ → Byte) : Device where
  register := 0
  selected := false
  file r := memory (l.address r)
  frame := .idle
  error := .ok
  trailing := false

end Device

/-- The device as a machine. -/
def device (l : Layout) (start : Device) : Machine Device Event (List (Output RegisterCall)) :=
  ⟨start, Device.step l⟩

end RFPowerDetector.I2C
