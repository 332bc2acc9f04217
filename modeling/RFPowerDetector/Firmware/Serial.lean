/-
The serial port of a run.

A statement of `loop` orders its prints when it takes its step (`Event.prints`),
and later steps make them one by one. `sent_eq` says that nothing is lost or
reordered on the way: what has been sent and what is still pending are together
what has been ordered.
-/

import RFPowerDetector.Firmware.Window

namespace RFPowerDetector.Firmware

open Transition

/-- The prints the statement of an event orders. -/
def Event.prints (ar : Arith) : Event → List Text
  | .reportStarted .text => List.replicate 11 (println [])
  | .headerCounted sampleCount => headerPrints sampleCount
  | .startRead sample => [startPrint sample, println []]
  | .frameRead selectedFrame selectedSample => framePrints selectedFrame selectedSample
  | .averaged .csv _ average unspecified => csvPrints ar unspecified (rollingAverage ar average)
  | .averaged .text selectedADC average unspecified =>
      printChannelAverage ar unspecified (rollingAverage ar average) selectedADC
  | .channelsDone .csv => [println ['\n']]
  | _ => []

/-- The characters an event puts on the port. -/
def Event.output : Event → Text
  | .printed text => text
  | _ => []

/-- The characters a history has sent. -/
def sent : List Event → Text
  | [] => []
  | e :: h => sent h ++ e.output

/-- The characters a history has ordered. -/
def ordered (ar : Arith) : List Event → Text
  | [] => []
  | e :: h => ordered ar h ++ (e.prints ar).flatten

theorem loopStep_prints (ar : Arith) {s : State} (w : Answers) (idle : s.printing = []) :
    (loopStep ar s w).2.output = [] ∧
      (loopStep ar s w).1.printing = (loopStep ar s w).2.prints ar := by
  unfold loopStep
  split <;> (try split) <;> (try split) <;> first | exact ⟨rfl, rfl⟩ | exact ⟨rfl, idle⟩

/-- A `loop` step sends a pending print, or orders prints when none is pending. -/
theorem loop_prints (ar : Arith) (s : State) (w : Answers) :
    (step ar s (.loop w)).2.output ++ (step ar s (.loop w)).1.printing.flatten =
      s.printing.flatten ++ ((step ar s (.loop w)).2.prints ar).flatten := by
  simp only [step]
  split
  · rename_i text printing pending
    rw [pending]
    exact (List.append_nil _).symm
  · rename_i idle
    obtain ⟨output, printing⟩ := loopStep_prints ar w idle
    rw [output, printing, idle]
    rfl

/-- **What has been sent and what is pending are what has been ordered.** -/
theorem sent_eq {b : Board} {h : List Event} {s : State} (run : (firmware b).Run h s) :
    sent h ++ s.printing.flatten = ordered b.arith h := by
  refine Machine.Run.invariant (I := fun h s => sent h ++ s.printing.flatten = ordered b.arith h)
    rfl ?_ run
  intro h s a _ ih
  cases a with
  | fastMeasure i =>
      show (sent h ++ []) ++ s.printing.flatten = ordered b.arith h ++ []
      rw [List.append_nil, List.append_nil, ih]
  | loop w =>
      rw [sent, ordered, ← ih, List.append_assoc, List.append_assoc]
      exact congrArg _ (loop_prints b.arith s w)

end RFPowerDetector.Firmware
