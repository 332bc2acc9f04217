/-
What one step of the firmware can do, said once.

`loop_frame` is the frame of a `loop` step: the flags, the buffer and the
chip-select pins never change, and the length changes only at the reset.
`Control` lists every move of the program counter together with the event of the
step and the test that guards it; `loop_control` says a `loop` step is one of
them. Every invariant of runs is derived from these two and from `fastMeasure`'s
own definition.
-/

import RFPowerDetector.Firmware.Loop

namespace RFPowerDetector.Firmware

open Transition

/-! ### Runs of a board -/

/-- The events of the actions from `setup` on, newest first. -/
def history (b : Board) (as : List Action) : List Event :=
  ((firmware b).exec as ([], setup b)).1

/-- The state after the actions. -/
def finalState (b : Board) (as : List Action) : State :=
  ((firmware b).exec as ([], setup b)).2

theorem run_history (b : Board) (as : List Action) :
    (firmware b).Run (history b as) (finalState b as) :=
  (firmware b).run_exec as

theorem length_exec (b : Board) (as : List Action) (c : List Event × State) :
    ((firmware b).exec as c).1.length = c.1.length + as.length := by
  induction as generalizing c with
  | nil => rfl
  | cons a as ih =>
      rw [Machine.exec, ih, List.length_cons, List.length_cons]
      omega

theorem length_history (b : Board) (as : List Action) : (history b as).length = as.length := by
  rw [history, length_exec, List.length_nil, Nat.zero_add]

/-! ### Events -/

/-- `rfSampleBufferLength = 0` -/
def isReset : Event → Bool
  | .reset => true
  | _ => false

/-- The call of an interrupt. -/
def Event.call? : Event → Option Call
  | .sampled call => some call
  | _ => none

/-- The calls of `fastMeasure` in a history, newest first. -/
def calls (h : List Event) : List Call := h.filterMap Event.call?

/-- The events since the last reset, newest first. -/
def window (h : List Event) : List Event := since isReset h

/-- The number of samples taken since the last reset. -/
def windowCount (h : List Event) : ℕ := (calls (window h)).length

/-- The number of samples taken up to the last reset. -/
def windowBase (h : List Event) : ℕ := (calls (before isReset h)).length

theorem isReset_eq_false {e : Event} : isReset e = false ↔ e ≠ .reset := by
  cases e <;> simp [isReset]

theorem calls_cons {e : Event} (none : e.call? = none) (h : List Event) :
    calls (e :: h) = calls h :=
  List.filterMap_cons_none none

theorem ne_reset_of_all {h : List Event} (quiet : h.all (fun e => !isReset e) = true) :
    ∀ e ∈ h, e ≠ .reset := by
  intro e he
  have other := List.all_eq_true.mp quiet e he
  exact isReset_eq_false.mp (by simpa using other)

theorem window_cons {e : Event} (he : e ≠ .reset) (h : List Event) :
    window (e :: h) = e :: window h :=
  since_cons_other (isReset_eq_false.mpr he) h

@[simp] theorem windowCount_nil : windowCount [] = 0 := rfl

@[simp] theorem windowCount_sampled (call : Call) (h : List Event) :
    windowCount (.sampled call :: h) = windowCount h + 1 := rfl

theorem windowCount_cons {e : Event} (he : e ≠ .reset) (none : e.call? = none) (h : List Event) :
    windowCount (e :: h) = windowCount h := by
  rw [windowCount, window_cons he, calls_cons none]
  rfl

theorem windowBase_cons {e : Event} (he : e ≠ .reset) (h : List Event) :
    windowBase (e :: h) = windowBase h := by
  rw [windowBase, before_cons_other (isReset_eq_false.mpr he)]
  rfl

@[simp] theorem windowBase_sampled (call : Call) (h : List Event) :
    windowBase (.sampled call :: h) = windowBase h := rfl

@[simp] theorem windowBase_reset (h : List Event) :
    windowBase (.reset :: h) = (calls h).length := rfl

/-- All calls are those up to the last reset and those since. -/
theorem length_calls (h : List Event) : (calls h).length = windowBase h + windowCount h := by
  have split : calls h = calls (window h) ++ calls (before isReset h) := by
    rw [calls, calls, calls, ← List.filterMap_append, window, since_append_before]
  rw [split, List.length_append, windowBase, windowCount, Nat.add_comm]

/-! ### The frame of a `loop` step -/

theorem selectPin_ne_ledBuiltin (adc : EnumADC) : selectPin adc ≠ ledBuiltin := by
  cases adc <;> decide

theorem toggleLED_selectPin (pins : Pins) (adc : EnumADC) :
    toggleLED pins (selectPin adc) = pins (selectPin adc) :=
  Function.update_of_ne (selectPin_ne_ledBuiltin adc) _ _

/-- What every `loop` step keeps, and what it does to the length. -/
structure LoopFrame (s s' : State) (e : Event) : Prop where
  enabled : s'.enabled = s.enabled
  buffer : s'.adcSampleBuffer = s.adcSampleBuffer
  micros : s'.rfSampleMicroseconds = s.rfSampleMicroseconds
  pins : ∀ adc, s'.scan.pins (selectPin adc) = s.scan.pins (selectPin adc)
  length : s'.rfSampleBufferLength = if isReset e then 0 else s.rfSampleBufferLength
  call : e.call? = none

theorem loopStep_frame (ar : Arith) (s : State) (w : Answers) :
    LoopFrame s (loopStep ar s w).1 (loopStep ar s w).2 := by
  unfold loopStep
  split <;> (try split) <;> (try split) <;>
    exact ⟨rfl, rfl, rfl, fun adc => by first | rfl | exact toggleLED_selectPin _ adc, rfl, rfl⟩

theorem loop_frame (ar : Arith) (s : State) (w : Answers) :
    LoopFrame s (step ar s (.loop w)).1 (step ar s (.loop w)).2 := by
  simp only [step]
  split
  · exact ⟨rfl, rfl, rfl, fun _ => rfl, rfl, rfl⟩
  · exact loopStep_frame ar s w

/-! ### The moves of the program counter -/

/-- `Control ar s pc e`: a `loop` step from `s` may go to `pc` with the event `e`. -/
inductive Control (ar : Arith) (s : State) : Pc → Event → Prop where
  | printed (text : Text) : s.printing ≠ [] → Control ar s s.pc (.printed text)
  | blinked : s.pc = .blinkTimer → Control ar s .serialTimer .silent
  | idle : s.pc = .serialTimer → Control ar s .serialInput .silent
  | csvReport : s.pc = .serialTimer → s.booleanRXKey = true →
      Control ar s (.channels .csv (rfAdcList s.enabled)) (.reportStarted .csv)
  | textReport : s.pc = .serialTimer → s.booleanRXKey = false →
      Control ar s .headerCount (.reportStarted .text)
  | headerCounted : s.pc = .headerCount →
      Control ar s .headerStart (.headerCounted s.rfSampleBufferLength.toInt)
  | startRead : s.pc = .headerStart →
      Control ar s .randomFrame (.startRead (s.adcSampleBuffer 0))
  | frameSelected (draw : ℕ) : s.pc = .randomFrame →
      Control ar s (.frame (random draw s.rfSampleBufferLength.toNat))
        (.frameSelected (random draw s.rfSampleBufferLength.toNat))
  | frameRead (k : ℕ) : s.pc = .frame k →
      Control ar s (.channels .text (rfAdcList s.enabled)) (.frameRead k (s.adcSampleBuffer k))
  | channelsDone (mode : Mode) : s.pc = .channels mode [] → Control ar s .reset (.channelsDone mode)
  | skipped {adc : RFInputADC} {rest : List RFInputADC} :
      s.pc = .channels .text (adc :: rest) → adc.getEnabled = false →
      Control ar s (.channels .text rest) .silent
  | averageCalled {mode : Mode} {adc : RFInputADC} {rest : List RFInputADC} :
      s.pc = .channels mode (adc :: rest) → (mode = .text → adc.getEnabled = true) →
      Control ar s (.summing mode adc rest s.rfSampleBufferLength.toInt 0 0)
        (.averageCalled mode adc.getEnumADC s.rfSampleBufferLength.toInt)
  | averageRead {mode : Mode} {adc : RFInputADC} {rest : List RFInputADC} {n : ℤ} {i : ℕ}
      {sum : ℚ} :
      s.pc = .summing mode adc rest n i sum → (i : ℤ) < n →
      Control ar s (.summing mode adc rest n (i + 1)
          (addSample ar s.adcSampleBuffer adc.getEnumADC sum i))
        (.averageRead adc.getEnumADC i)
  | averaged {mode : Mode} {adc : RFInputADC} {rest : List RFInputADC} {n : ℤ} {i : ℕ} {sum : ℚ}
      (unspecified : Word) :
      s.pc = .summing mode adc rest n i sum → ¬ (i : ℤ) < n →
      Control ar s (.channels mode rest)
        (.averaged mode adc (averageOf ar sum n) unspecified)
  | reset : s.pc = .reset → Control ar s .serialInput .reset
  | noInput : s.pc = .serialInput → Control ar s .blinkTimer .silent
  | inputRead (byte : Byte) : s.pc = .serialInput → Control ar s .blinkTimer (.inputRead byte)

theorem loopStep_control (ar : Arith) (s : State) (w : Answers) :
    Control ar s (loopStep ar s w).1.pc (loopStep ar s w).2 := by
  unfold loopStep
  split
  case h_1 pc => split <;> exact .blinked pc
  case h_2 pc =>
    split
    · split
      · rename_i key
        exact .csvReport pc key
      · rename_i key
        exact .textReport pc (Bool.eq_false_iff.mpr key)
    · exact .idle pc
  case h_3 pc => exact .headerCounted pc
  case h_4 pc => exact .startRead pc
  case h_5 pc => exact .frameSelected w.randomDraw pc
  case h_6 k pc => exact .frameRead k pc
  case h_7 pc => exact .channelsDone .csv pc
  case h_8 pc => exact .channelsDone .text pc
  case h_9 adc rest pc =>
    split
    · rename_i on
      exact .averageCalled pc fun _ => on
    · rename_i off
      exact .skipped pc (Bool.eq_false_iff.mpr off)
  case h_10 adc rest pc => exact .averageCalled pc nofun
  case h_11 mode adc rest n i sum pc =>
    split
    · rename_i more
      exact .averageRead pc more
    · rename_i done
      cases mode with
      | csv => exact .averaged _ pc done
      | text => exact .averaged _ pc done
  case h_12 pc => exact .reset pc
  case h_13 pc =>
    split
    · exact .noInput pc
    · exact .inputRead _ pc

/-- **Every `loop` step is one of the moves of `Control`.** -/
theorem loop_control (ar : Arith) (s : State) (w : Answers) :
    Control ar s (step ar s (.loop w)).1.pc (step ar s (.loop w)).2 := by
  simp only [step]
  split
  · rename_i text printing pending
    exact .printed text (by simp [pending])
  · exact loopStep_control ar s w

end RFPowerDetector.Firmware
