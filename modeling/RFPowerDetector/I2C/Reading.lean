/-
Frames of requests.

A request is answered with the next byte of the register's reach, and past it with zeros.
The first of these is the byte that the hardware always asks for too much; a second one in
the frame is an underflow, and so is the first one after a read that a bit error cut.
-/

import RFPowerDetector.I2C.Represents

namespace RFPowerDetector.I2C

open Firmware Memory Transition

variable {l : Layout} {p : Port GotRegNum} {d : Device}

/-! ### Requests -/

/-- Where the bytes lie that requests are answered with. -/
theorem Device.address_add_readRoom (d : Device) {i : ℕ} (within : i < d.readRoom l) :
    d.register.toNat + i < l.size ∧
      l.address (d.register.toNat + i) = l.address d.register.toNat + i := by
  unfold Device.readRoom at within
  split at within
  · exact l.address_add within
  · exact absurd within (Nat.not_lt_zero i)

/-- A driver that has answered a request. -/
theorem Aimed.transmitting (aimed : Aimed l p d) {count : ℕ} {txBuffer : I2CBuffer}
    {error : I2CError} {trailing : Bool} (buffer : txBuffer.buffer = p.slave.txBuffer.buffer)
    (size : txBuffer.size = p.slave.txBuffer.size) (state : p.slave.state = .transmitting)
    (index : txBuffer.nextIndex = min (count + 1) (d.readRoom l))
    (error' : error = (d.answer l count).1.error)
    (trailing' : trailing = (d.trailing || decide (0 < d.readRoom l ∧ d.readRoom l < count + 1))) :
    Represents l
      { p with
        slave := { p.slave with
          txBuffer := txBuffer, error := error, trailingByteSent := trailing } }
      (d.answer l count).1 :=
  { aimed with
    txBuffer := fun reached => buffer.trans (aimed.txBuffer reached)
    txSize := size.trans aimed.txSize
    error := error'
    trailing := trailing'
    frame := ⟨state, index⟩ }

/-- The answer to a request that follows `count` others. -/
theorem Aimed.answer (aimed : Aimed l p d) (startOfFrame : Bool) {count : ℕ}
    (place : (if startOfFrame then p.slave.txBuffer.reset else p.slave.txBuffer).nextIndex =
      min count (d.readRoom l))
    (error : p.slave.error = if count = 0 then .ok else d.error)
    (trailing : p.slave.trailingByteSent =
      (d.trailing || decide (0 < d.readRoom l ∧ d.readRoom l < count)))
    (state : p.slave.state = .transmitting) :
    Represents l (answerRequest startOfFrame p).1 (d.answer l count).1 ∧
      [.sent (answerRequest startOfFrame p).2] = (d.answer l count).2 := by
  have size : (if startOfFrame then p.slave.txBuffer.reset else p.slave.txBuffer).size =
      p.slave.txBuffer.size := by
    split <;> rfl
  have buffer : (if startOfFrame then p.slave.txBuffer.reset else p.slave.txBuffer).buffer =
      p.slave.txBuffer.buffer := by
    split <;> rfl
  generalize h : (if startOfFrame then p.slave.txBuffer.reset else p.slave.txBuffer) = tx at *
  have available : tx.hasDataAvailable ↔ count < d.readRoom l := by
    rw [I2CBuffer.hasDataAvailable, size, aimed.txSize]
    omega
  unfold answerRequest
  simp only [h]
  split
  case isFalse closed =>
      rw [I2CBuffer.initialised, aimed.txSize, Nat.pos_iff_ne_zero, not_not] at closed
      have start := p.slave.txBuffer.within
      rw [aimed.txSize] at start
      refine ⟨aimed.transmitting rfl rfl state (by omega) ?_ ?_, ?_⟩
      · simp [Device.answer, Device.underflows, Device.readAt, closed]
      · simp [trailing, closed]
      · simp [Device.answer, Device.underflows, Device.readAt, closed]
  case isTrue opened =>
      rw [I2CBuffer.initialised, aimed.txSize] at opened
      simp only [opened, true_and] at trailing
      split
      case isTrue within =>
          have byte : p.memory (tx.buffer + tx.nextIndex) = d.file (d.register.toNat + count) := by
            have within := available.mp within
            obtain ⟨inside, address⟩ := d.address_add_readRoom within
            rw [← aimed.file _ inside, address, buffer, aimed.txBuffer opened, place,
              min_eq_left within.le]
          rw [available] at within
          refine ⟨aimed.transmitting buffer size state ?_ ?_ ?_, ?_⟩
          · change tx.nextIndex + 1 = _
            omega
          · simp [Device.answer, Device.underflows, Device.readAt, error, within.not_gt, within.ne',
              opened.ne']
          · rw [trailing, decide_eq_false (by omega), decide_eq_false (by omega)]
          · simp [Device.answer, Device.underflows, Device.readAt, within, I2CBuffer.read, byte]
      case isFalse past =>
          rw [available, not_lt] at past
          -- the flag is up when the byte that is always asked for too much has been sent
          split
          case isTrue sent =>
              have again : d.readRoom l < count ∨ d.readRoom l = count ∧ d.trailing = true := by
                rw [trailing, Bool.or_eq_true, decide_eq_true_eq] at sent
                rcases past.lt_or_eq with less | same
                · exact .inl less
                · exact .inr ⟨same, sent.resolve_right fun less => less.ne same⟩
              refine ⟨aimed.transmitting buffer size state (by omega) ?_ ?_, ?_⟩
              · simp [Device.answer, Device.underflows, Device.readAt, again]
              · rw [sent, decide_eq_true ⟨opened, by omega⟩, Bool.or_true]
              · simp [Device.answer, Device.underflows, Device.readAt, past.not_gt]
          case isFalse unsent =>
              have first : ¬ d.readRoom l < count ∧ d.trailing = false := by
                rw [trailing, Bool.or_eq_true, decide_eq_true_eq, not_or] at unsent
                exact ⟨unsent.2, Bool.eq_false_of_not_eq_true unsent.1⟩
              refine ⟨aimed.transmitting buffer size state (by omega) ?_ ?_, ?_⟩
              · simp [Device.answer, Device.underflows, Device.readAt, error, first, opened.ne']
              · rw [decide_eq_true ⟨opened, by omega⟩, Bool.or_true]
              · simp [Device.answer, Device.underflows, Device.readAt, past.not_gt]

namespace Represents

theorem requested (related : Represents l p d) (framed : d.Framed l .requested) :
    Represents l (transmitData (registerSlave l) p).1 (d.step l .requested).1 ∧
      (transmitData (registerSlave l) p).2 = (d.step l .requested).2 := by
  have same := related.frame
  have trailing := related.trailing
  unfold Device.overread at trailing
  cases frame : d.frame with
  | idle =>
      rw [frame] at same trailing
      have begin : p.slave.state.finished = true := by
        rw [show p.slave.state = .idle from same]
        rfl
      have step : d.step l .requested = d.answer l 0 := by simp [Device.step, frame]
      have begun : Aimed l ((p.setError .ok).setState .transmitting) d := { related with }
      simp only [transmitData, begin, step]
      exact begun.answer true (Nat.zero_min _).symm rfl
        (trailing.trans (by simp)) rfl
  | writing first rest => simp [Device.Framed, frame] at framed
  | reading further =>
      rw [frame] at same trailing
      obtain ⟨state, place⟩ := same
      have busy : p.slave.state.finished = false := by
        rw [state]
        rfl
      have step : d.step l .requested = d.answer l (further + 1) := by simp [Device.step, frame]
      simp only [transmitData, busy, step]
      exact related.answer false place related.error trailing state

end Represents

end RFPowerDetector.I2C
