/-
The register slave refines the device with numbered registers.

Every flag keeps `Represents`, and the driver sends and reports what the device does
(`Represents.handle`). `serviced_refines` says so for whole runs, in whatever groups the
interrupts find the flags.
-/

import RFPowerDetector.I2C.Reading
import RFPowerDetector.I2C.Writing

namespace RFPowerDetector.I2C

open Firmware Memory Transition

variable {l : Layout} {p : Port GotRegNum} {d : Device}

namespace Represents

theorem frameEnd (related : Represents l p d) :
    Represents l (endOfFrame (registerSlave l) p).1 (d.step l .frameEnd).1 ∧
      (endOfFrame (registerSlave l) p).2 = (d.step l .frameEnd).2 := by
  have same := related.frame
  have trailing := related.trailing
  unfold Device.overread at trailing
  cases frame : d.frame with
  | idle =>
      rw [frame] at same
      have state : p.slave.state = .idle := same
      have step : d.step l .frameEnd = (d, []) := by simp [Device.step, frame]
      simp only [endOfFrame, state, step]
      exact ⟨{ related with frame := by rw [frame]; rfl }, trivial⟩
  | reading further =>
      rw [frame] at same
      have state : p.slave.state = .transmitting := same.1
      have waited : Represents l
          ((waitForRegNum l { p with slave := { p.slave with trailingByteSent := false } }).setState
            .idle)
          { d with frame := .idle, selected := false, trailing := false } :=
        wait (d := { d with trailing := false }) related.register related.file related.error rfl
      simp only [endOfFrame, state, Device.step, frame]
      refine ⟨waited, ?_⟩
      rw [← related.register]
      rfl
  | writing first rest =>
      rw [frame] at same trailing
      rw [Bool.or_false] at trailing
      have step : d.step l .frameEnd = d.endWriting l rest := by simp [Device.step, frame]
      rw [step]
      exact related.endWriting trailing same

/-- **One flag.** The driver does what the device does. -/
theorem handle (related : Represents l p d) (e : Event) (framed : d.Framed l e) :
    Represents l (handle (registerSlave l) p e).1 (d.step l e).1 ∧
      (handle (registerSlave l) p e).2 = (d.step l e).2 := by
  cases e with
  | addressed address => exact ⟨related.addressed address, rfl⟩
  | frameEnd => exact related.frameEnd
  | received startOfFrame data =>
      unfold Device.Framed at framed
      cases frame : d.frame with
      | idle =>
          rw [frame] at framed
          subst framed
          have step : d.step l (.received true data) = (d.receiveFirst l data, []) := by
            simp [Device.step, frame]
          rw [step]
          exact ⟨related.receiveFirst frame data, rfl⟩
      | writing first rest =>
          rw [frame] at framed
          subst framed
          have step : d.step l (.received false data) = (d.receiveNext l first rest data, []) := by
            simp [Device.step, frame]
          rw [step]
          exact ⟨related.receiveNext frame data, rfl⟩
      | reading further =>
          rw [frame] at framed
          exact framed.elim
  | requested => exact related.requested framed
  | bitError => exact ⟨related.bitError, rfl⟩
  | stored a data => exact ⟨related.stored framed data, rfl⟩

end Represents

/-! ### Runs -/

theorem represents_listening (l : Layout) (memory : ℕ → Byte) :
    Represents l (listening l memory) (.listening l memory) where
  selected := rfl
  register := by
    have first : 0 < (List.replicate writeBufferLength (0 : Byte)).length := by decide
    exact store_inside memory l.rxBuffer first
  file r inside := by
    refine store_apart _ fun i own => ?_
    rw [List.length_replicate] at own
    exact (l.rx_ne_address own inside).symm
  rxBuffer := rfl
  rxSize := rfl
  txBuffer opened := absurd opened (Nat.lt_irrefl 0)
  txSize := rfl
  error := rfl
  trailing := rfl
  frame := rfl

/-- From any state that represents a device, the driver follows it. -/
theorem driver_refines (events : List Event) {start : Port GotRegNum} {start' : Device}
    (related : Represents l p d)
    (framed : (device l start').Allowed (Device.Framed l) events d) :
    Represents l ((driver (registerSlave l) start).perform events p).1
        ((device l start').perform events d).1 ∧
      ((driver (registerSlave l) start).perform events p).2 =
        ((device l start').perform events d).2 := by
  have lockstep : (driver (registerSlave l) start).Lockstep (device l start') (Represents l)
      events p d := by
    refine Machine.lockstep_of_allowed ?_ _ related framed
    intro p d e related allowed
    exact related.handle e allowed
  exact lockstep.perform related

/-- **Refinement.** In every run of interrupts and application stores whose flags are framed,
in whatever groups interrupts find them, the driver with the register slave sends and
reports what the device with numbered registers does, and represents it in the end. -/
theorem serviced_refines (l : Layout) (memory : ℕ → Byte) (actions : List Action)
    (framed : (device l (.listening l memory)).Allowed (Device.Framed l)
      (actions.flatMap Action.events) (.listening l memory)) :
    Represents l
        ((serviced (registerSlave l) (listening l memory)).perform actions
          (listening l memory)).1
        ((device l (.listening l memory)).perform (actions.flatMap Action.events)
          (.listening l memory)).1 ∧
      ((serviced (registerSlave l) (listening l memory)).perform actions
          (listening l memory)).2 =
        ((device l (.listening l memory)).perform (actions.flatMap Action.events)
          (.listening l memory)).2 := by
  rw [serviced_perform]
  exact driver_refines _ (represents_listening l memory) framed

/-- Two registers to write and two to read only. -/
def Layout.small : Layout where
  rxBuffer := 0
  mutableBuffer := 16
  mutableBufferSize := 2
  readOnlyBuffer := 32
  readOnlyBufferSize := 2
  rx_ne_mutable := by decide
  rx_ne_readOnly := by decide
  mutable_ne_readOnly := by decide

/-- Register 1 is written and read, and one interrupt finds a repeated START with a request. -/
theorem serviced_refines_small : ((serviced (registerSlave .small)
      (listening .small fun _ => 0)).perform
      [.interrupt ⟨.some 0x2D, false, .some (true, 1), false, false⟩,
        .interrupt ⟨.none, false, .some (false, 0xAB), false, false⟩,
        .interrupt ⟨.none, true, .some (true, 1), false, false⟩,
        .interrupt ⟨.none, true, .none, true, false⟩,
        .interrupt ⟨.none, false, .none, true, false⟩,
        .interrupt ⟨.none, true, .none, false, false⟩]
      (listening .small fun _ => 0)).2 =
    [.called (.afterWrite 1 1), .sent 0xAB, .sent 0, .called (.afterRead 1)] :=
  (serviced_refines .small (fun _ => 0) _ (by decide)).2.trans (by decide)

end RFPowerDetector.I2C
