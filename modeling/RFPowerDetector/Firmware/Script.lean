/-
The script of a report.

A report passes its milestones in one order: its start, in text mode the header
and the random frame, the call and the return of `calculateChannelAverage` for
each channel it prints, the end of the channel loop, the reset. `script` lists
them, `remaining` is the part still ahead when `loop` stands at a program counter.

* `run_script`: the milestones of a run, with those ahead, are the scripts of the
  reports begun, one complete report after the other. Interrupts fall anywhere and
  change nothing of it.
* `mode_parity`: a report is in CSV mode exactly when `loop` has read an even number
  of `M` before it, and no byte is read while a report is under way.
-/

import Mathlib.Algebra.Group.Nat.Even
import RFPowerDetector.Firmware.Window

namespace RFPowerDetector.Firmware

open Transition

/-! ### Milestones -/

/-- What a report does that others can see, without the data. -/
inductive Milestone where
  | started (mode : Mode)
  | headerCounted
  | startRead
  | frameSelected
  | frameRead
  | averageCalled (mode : Mode) (adc : EnumADC)
  | averaged (mode : Mode) (adc : EnumADC)
  | channelsDone (mode : Mode)
  | reset
  deriving DecidableEq, Repr

def Event.milestone? : Event → Option Milestone
  | .reportStarted mode => some (.started mode)
  | .headerCounted _ => some .headerCounted
  | .startRead _ => some .startRead
  | .frameSelected _ => some .frameSelected
  | .frameRead _ _ => some .frameRead
  | .averageCalled mode adc _ => some (.averageCalled mode adc)
  | .averaged mode selectedADC _ _ => some (.averaged mode selectedADC.getEnumADC)
  | .channelsDone mode => some (.channelsDone mode)
  | .reset => some .reset
  | .sampled _ | .silent | .printed _ | .averageRead _ _ | .inputRead _ => none

/-- The mode of a report that begins. -/
def Event.startedMode? : Event → Option Mode
  | .reportStarted mode => some mode
  | _ => none

/-- The milestones of a history, in the order they were passed. -/
def milestones (h : List Event) : List Milestone := (h.filterMap Event.milestone?).reverse

/-- The modes of the reports begun, in their order. -/
def reportModes (h : List Event) : List Mode := (h.filterMap Event.startedMode?).reverse

theorem milestones_cons {e : Event} {m : Milestone} (passes : e.milestone? = some m)
    (h : List Event) : milestones (e :: h) = milestones h ++ [m] := by
  rw [milestones, List.filterMap_cons_some passes, List.reverse_cons]
  rfl

theorem milestones_cons_none {e : Event} (none : e.milestone? = none) (h : List Event) :
    milestones (e :: h) = milestones h := by
  rw [milestones, List.filterMap_cons_none none]
  rfl

theorem reportModes_started (mode : Mode) (h : List Event) :
    reportModes (.reportStarted mode :: h) = reportModes h ++ [mode] :=
  List.reverse_cons

theorem reportModes_cons_none {e : Event} (none : e.startedMode? = none) (h : List Event) :
    reportModes (e :: h) = reportModes h := by
  rw [reportModes, List.filterMap_cons_none none]
  rfl

/-! ### The script -/

/-- A text report prints the enabled channels, a CSV report all four. -/
def channelScript (mode : Mode) (selectedADC : RFInputADC) : List Milestone :=
  if mode = .text ∧ selectedADC.getEnabled = false then []
  else [.averageCalled mode selectedADC.getEnumADC, .averaged mode selectedADC.getEnumADC]

/-- The channel loop over the channels, and the reset. -/
def channelsScript (mode : Mode) (channels : List RFInputADC) : List Milestone :=
  channels.flatMap (channelScript mode) ++ [.channelsDone mode, .reset]

def script (enabled : EnumADC → Bool) : Mode → List Milestone
  | .csv => .started .csv :: channelsScript .csv (rfAdcList enabled)
  | .text =>
      [.started .text, .headerCounted, .startRead, .frameSelected, .frameRead] ++
        channelsScript .text (rfAdcList enabled)

/-- The milestones ahead of a program counter. -/
def remaining (enabled : EnumADC → Bool) : Pc → List Milestone
  | .headerCount =>
      [.headerCounted, .startRead, .frameSelected, .frameRead] ++
        channelsScript .text (rfAdcList enabled)
  | .headerStart =>
      [.startRead, .frameSelected, .frameRead] ++ channelsScript .text (rfAdcList enabled)
  | .randomFrame => [.frameSelected, .frameRead] ++ channelsScript .text (rfAdcList enabled)
  | .frame _ => .frameRead :: channelsScript .text (rfAdcList enabled)
  | .channels mode rest => channelsScript mode rest
  | .summing mode selectedADC rest _ _ _ =>
      .averaged mode selectedADC.getEnumADC :: channelsScript mode rest
  | .reset => [.reset]
  | .blinkTimer | .serialTimer | .serialInput => []

theorem channelsScript_skipped {selectedADC : RFInputADC} (off : selectedADC.getEnabled = false)
    (rest : List RFInputADC) :
    channelsScript .text (selectedADC :: rest) = channelsScript .text rest := by
  simp [channelsScript, channelScript, off]

theorem channelsScript_called {mode : Mode} {selectedADC : RFInputADC}
    (on : mode = .text → selectedADC.getEnabled = true) (rest : List RFInputADC) :
    channelsScript mode (selectedADC :: rest) =
      .averageCalled mode selectedADC.getEnumADC :: .averaged mode selectedADC.getEnumADC ::
        channelsScript mode rest := by
  have shown : ¬ (mode = .text ∧ selectedADC.getEnabled = false) := by
    rintro ⟨text, off⟩
    rw [on text] at off
    cases off
  rw [channelsScript, List.flatMap_cons, channelScript, if_neg shown]
  rfl

/-! ### A run follows its script -/

section Runs

variable {b : Board} {h : List Event} {s : State}

/-- What the milestones passed and those ahead say of the reports begun. -/
def OnScript (b : Board) (h : List Event) (pc : Pc) : Prop :=
  milestones h ++ remaining b.enabled pc = (reportModes h).flatMap (script b.enabled)

/-- A step that passes no milestone. -/
theorem OnScript.quiet {pc pc' : Pc} {e : Event} (on : OnScript b h pc)
    (passes : e.milestone? = none) (starts : e.startedMode? = none)
    (ahead : remaining b.enabled pc' = remaining b.enabled pc) : OnScript b (e :: h) pc' := by
  rw [OnScript, milestones_cons_none passes, reportModes_cons_none starts, ahead]
  exact on

/-- A step that passes the milestone next on the script. -/
theorem OnScript.pass {pc pc' : Pc} {e : Event} {m : Milestone} (on : OnScript b h pc)
    (passes : e.milestone? = some m) (starts : e.startedMode? = none)
    (ahead : remaining b.enabled pc = m :: remaining b.enabled pc') : OnScript b (e :: h) pc' := by
  rw [OnScript, milestones_cons passes, reportModes_cons_none starts, List.append_assoc,
    List.singleton_append, ← ahead]
  exact on

/-- A step that begins a report where none is under way. -/
theorem OnScript.start {pc pc' : Pc} {mode : Mode} (on : OnScript b h pc)
    (idle : remaining b.enabled pc = [])
    (ahead : script b.enabled mode = .started mode :: remaining b.enabled pc') :
    OnScript b (.reportStarted mode :: h) pc' := by
  rw [OnScript, idle, List.append_nil] at on
  rw [OnScript, milestones_cons rfl, reportModes_started, List.flatMap_append, ← on,
    List.flatMap_singleton, ahead, List.append_assoc, List.singleton_append]

theorem run_onScript (run : (firmware b).Run h s) : OnScript b h s.pc := by
  refine run_invariant (I := fun h s => OnScript b h s.pc) rfl ?_ ?_ run
  · intro h s i _ ih
    exact ih.quiet rfl rfl rfl
  · intro h s s' e earlier ih _ control
    have flags := enabled_eq earlier
    generalize s'.pc = pc' at control
    cases control with
    | printed text _ => exact ih.quiet rfl rfl rfl
    | csvReport pc _ =>
        rw [pc] at ih
        rw [flags]
        exact ih.start rfl rfl
    | textReport pc _ =>
        rw [pc] at ih
        exact ih.start rfl rfl
    | headerCounted pc | startRead pc | frameSelected _ pc =>
        rw [pc] at ih
        exact ih.pass rfl rfl rfl
    | frameRead k pc =>
        rw [pc] at ih
        rw [flags]
        exact ih.pass rfl rfl rfl
    | channelsDone mode pc | reset pc =>
        rw [pc] at ih
        exact ih.pass rfl rfl rfl
    | skipped pc off =>
        rw [pc] at ih
        exact ih.quiet rfl rfl (channelsScript_skipped off _).symm
    | averageCalled pc on =>
        rw [pc] at ih
        exact ih.pass rfl rfl (channelsScript_called on _)
    | averageRead pc _ =>
        rw [pc] at ih
        exact ih.quiet rfl rfl rfl
    | averaged _ pc _ =>
        rw [pc] at ih
        exact ih.pass rfl rfl rfl
    | blinked pc | idle pc | noInput pc | inputRead _ pc =>
        rw [pc] at ih
        exact ih.quiet rfl rfl rfl

end Runs

/-- **A run follows its script.** Under every schedule, the milestones passed and
those ahead of the program counter are together the scripts of the reports begun:
each report passes its milestones in order, visits its channels once each, resets
once, and ends before the next one begins. -/
theorem run_script (b : Board) (as : List Action) :
    milestones (history b as) ++ remaining b.enabled (finalState b as).pc =
      (reportModes (history b as)).flatMap (script b.enabled) :=
  run_onScript (run_history b as)

/-! ### The mode of a report -/

/-- An `M` from the host. -/
def Event.isKeyPress : Event → Bool
  | .inputRead byte => byte = 77
  | _ => false

/-- The number of `M` that `loop` has read. -/
def keyPresses (h : List Event) : ℕ := h.countP Event.isKeyPress

theorem loopStep_booleanRXKey (ar : Arith) (s : State) (w : Answers) :
    (loopStep ar s w).1.booleanRXKey =
      (s.booleanRXKey ^^ (loopStep ar s w).2.isKeyPress) := by
  have kept : s.booleanRXKey = (s.booleanRXKey ^^ false) := (Bool.xor_false _).symm
  unfold loopStep
  split
  case h_13 =>
    split
    · exact kept
    · rename_i byte _
      show (if byte = 77 then !s.booleanRXKey else s.booleanRXKey) =
        (s.booleanRXKey ^^ decide (byte = 77))
      by_cases key : byte = 77
      · rw [if_pos key, decide_eq_true key, Bool.xor_true]
      · rw [if_neg key, decide_eq_false key, Bool.xor_false]
  all_goals (try split) <;> (try split) <;> exact kept

/-- A step turns the mode over exactly when it reads an `M`. -/
theorem step_booleanRXKey (ar : Arith) (s : State) (a : Action) :
    (step ar s a).1.booleanRXKey = (s.booleanRXKey ^^ (step ar s a).2.isKeyPress) := by
  cases a with
  | fastMeasure i => exact (Bool.xor_false _).symm
  | loop w =>
      simp only [step]
      split
      · exact (Bool.xor_false _).symm
      · exact loopStep_booleanRXKey ar s w

section Mode

variable {b : Board} {h : List Event} {s : State}

/-- The board starts in CSV mode, and every `M` turns the mode over. -/
theorem run_booleanRXKey (run : (firmware b).Run h s) :
    s.booleanRXKey = true ↔ Even (keyPresses h) := by
  refine Machine.Run.invariant
    (I := fun h s => s.booleanRXKey = true ↔ Even (keyPresses h)) ?_ ?_ run
  · exact iff_of_true rfl Even.zero
  · intro h s a _ ih
    have turned : ((firmware b).step s a).1.booleanRXKey =
        (s.booleanRXKey ^^ ((firmware b).step s a).2.isKeyPress) := step_booleanRXKey b.arith s a
    rw [turned, keyPresses, List.countP_cons]
    cases ((firmware b).step s a).2.isKeyPress with
    | false =>
        rw [Bool.xor_false]
        exact ih
    | true =>
        rw [Bool.xor_true, if_pos rfl, Nat.even_add_one, Bool.not_eq_true', ← Bool.not_eq_true]
        exact not_congr ih

/-- The start of a report reads the mode. -/
theorem reportStarted_mode {mode : Mode} (run : (firmware b).Run (.reportStarted mode :: h) s) :
    mode = .csv ↔ Even (keyPresses h) := by
  obtain ⟨s', before, ⟨i, impossible⟩ | ⟨-, control⟩⟩ := last_step run
  · cases impossible
  · rw [← run_booleanRXKey before]
    generalize s.pc = pc at control
    cases control with
    | csvReport _ key => exact iff_of_true rfl key
    | textReport _ key =>
        rw [key]
        exact iff_of_false Mode.noConfusion Bool.false_ne_true

/-- A byte is read where no report is under way. -/
theorem inputRead_between {byte : Byte} (run : (firmware b).Run (.inputRead byte :: h) s) :
    milestones h = (reportModes h).flatMap (script b.enabled) := by
  obtain ⟨s', before, ⟨i, impossible⟩ | ⟨-, control⟩⟩ := last_step run
  · cases impossible
  · have on := run_onScript before
    generalize s.pc = pc at control
    cases control with
    | inputRead _ pc =>
        rw [OnScript, pc] at on
        exact (List.append_nil _).symm.trans on

end Mode

/-- **The mode of a report** is CSV exactly when `loop` has read an even number of `M`
before its start, and a byte is read between complete reports only: no `M` reaches the
report it falls into. -/
theorem mode_parity (b : Board) (as : List Action) :
    (∀ mode g, .reportStarted mode :: g <:+ history b as →
        (mode = .csv ↔ Even (keyPresses g))) ∧
      ∀ byte g, .inputRead byte :: g <:+ history b as →
        milestones g = (reportModes g).flatMap (script b.enabled) := by
  have run := run_history b as
  constructor
  · intro mode g suffix
    obtain ⟨s, atStart⟩ := run.suffix suffix
    exact reportStarted_mode atStart
  · intro byte g suffix
    obtain ⟨s, atByte⟩ := run.suffix suffix
    exact inputRead_between atByte

end RFPowerDetector.Firmware
