/-
How long a report takes.

Reports are not cut short: once begun, a report ends with its reset after a number
of `loop` steps that only the counts it reads decide. `stepsLeft` is what a state
still has to do, `loop_stepsLeft` says every step of a report does one of it, and a
count adds the positions it makes the summing loop visit.

* `report_steps`: a CSV report takes 19 steps and a text report 29 and 9 for each
  enabled channel, and one step for each sample its counts cover.
* `report_completes`: under every schedule, `loop` resets within 65 steps and four
  times the largest count, however the interrupts fall.
-/

import RFPowerDetector.Firmware.Average
import RFPowerDetector.Firmware.Script
import RFPowerDetector.Firmware.Serial

namespace RFPowerDetector.Firmware

open Transition

/-! ### Moves with their prints -/

/-- A `loop` step sends a pending print and stands still, or moves and orders the
prints of its event. -/
theorem loop_moves (ar : Arith) (s : State) (w : Answers) :
    (∃ text printing, s.printing = text :: printing ∧
        (step ar s (.loop w)).1 = { s with printing } ∧
        (step ar s (.loop w)).2 = .printed text) ∨
      s.printing = [] ∧
        (step ar s (.loop w)).1.printing = (step ar s (.loop w)).2.prints ar ∧
        Control ar s (step ar s (.loop w)).1.pc (step ar s (.loop w)).2 := by
  simp only [step]
  split
  · rename_i text printing pending
    exact .inl ⟨text, printing, pending, rfl, rfl⟩
  · rename_i idle
    exact .inr ⟨idle, (loopStep_prints ar w idle).2, loopStep_control ar s w⟩

/-! ### What a state still has to do -/

/-- The prints of a channel. -/
def channelPrints : Mode → ℕ
  | .csv => 2
  | .text => 8

/-- The steps of a channel whose count is `M`: the read of the count, the iterations
of the summing loop and its end, the prints. -/
def channelSteps (M : ℕ) (mode : Mode) (selectedADC : RFInputADC) : ℕ :=
  if mode = .text ∧ selectedADC.getEnabled = false then 1 else M + 2 + channelPrints mode

/-- The steps of the channel loop, and the reset. -/
def channelsSteps (M : ℕ) (mode : Mode) (channels : List RFInputADC) : ℕ :=
  (channels.map (channelSteps M mode)).sum +
    match mode with
    | .csv => 3
    | .text => 2

/-- The steps ahead of a program counter, if every count still to be read is `M`. -/
def pcSteps (M : ℕ) (enabled : EnumADC → Bool) : Pc → ℕ
  | .headerCount => 12 + channelsSteps M .text (rfAdcList enabled)
  | .headerStart => 9 + channelsSteps M .text (rfAdcList enabled)
  | .randomFrame => 6 + channelsSteps M .text (rfAdcList enabled)
  | .frame _ => 5 + channelsSteps M .text (rfAdcList enabled)
  | .channels mode rest => channelsSteps M mode rest
  | .summing mode _ rest sampleCount bufferPosition _ =>
      (sampleCount.toNat - bufferPosition) + 1 + channelPrints mode + channelsSteps M mode rest
  | .reset => 1
  | .blinkTimer | .serialTimer | .serialInput => 0

def stepsLeft (M : ℕ) (s : State) : ℕ := s.printing.length + pcSteps M s.enabled s.pc

/-- A report is under way. -/
def inReport : Pc → Bool
  | .blinkTimer | .serialTimer | .serialInput => false
  | _ => true

/-- The positions a count makes the summing loop visit. -/
def Event.positions : Event → ℕ
  | .averageCalled _ _ sampleCount => sampleCount.toNat
  | _ => 0

/-- What the steps ahead reserved for a count. -/
def Event.reserved (M : ℕ) : Event → ℕ
  | .averageCalled _ _ _ => M
  | _ => 0

section Steps

variable {M : ℕ} {s : State}

theorem channelsSteps_skipped {selectedADC : RFInputADC} (off : selectedADC.getEnabled = false)
    (rest : List RFInputADC) :
    channelsSteps M .text (selectedADC :: rest) = channelsSteps M .text rest + 1 := by
  rw [channelsSteps, channelsSteps, List.map_cons, List.sum_cons, channelSteps,
    if_pos ⟨rfl, off⟩]
  omega

theorem channelsSteps_called {mode : Mode} {selectedADC : RFInputADC}
    (on : mode = .text → selectedADC.getEnabled = true) (rest : List RFInputADC) :
    channelsSteps M mode (selectedADC :: rest) =
      channelsSteps M mode rest + (M + 2 + channelPrints mode) := by
  have shown : ¬ (mode = .text ∧ selectedADC.getEnabled = false) := by
    rintro ⟨text, off⟩
    rw [on text] at off
    cases off
  unfold channelsSteps
  rw [List.map_cons, List.sum_cons, channelSteps, if_neg shown]
  omega

theorem length_printChannel (ar : Arith) (mode : Mode) (selectedADC : RFInputADC)
    (average : Option ℚ) (unspecified : Word) :
    (Event.prints ar (.averaged mode selectedADC average unspecified)).length =
      channelPrints mode := by
  cases mode <;> rfl

/-- A report always has a step ahead. -/
theorem stepsLeft_pos (report : inReport s.pc = true) : 0 < stepsLeft M s := by
  rw [stepsLeft]
  generalize s.pc = pc at report
  cases pc with
  | channels mode rest => cases mode <;> simp [pcSteps, channelsSteps]
  | blinkTimer | serialTimer | serialInput => cases report
  | _ => simp only [pcSteps]; omega

/-- **A step of a report does one of the steps ahead**, and a count replaces what
was reserved for it. -/
theorem loop_stepsLeft (ar : Arith) (w : Answers) (report : inReport s.pc = true) :
    stepsLeft M (step ar s (.loop w)).1 + 1 + (step ar s (.loop w)).2.reserved M =
      stepsLeft M s + (step ar s (.loop w)).2.positions := by
  have flags := (loop_frame ar s w).enabled
  rcases loop_moves ar s w with ⟨text, printing, pending, state, event⟩ | ⟨idle, prints, control⟩
  · rw [state, event, stepsLeft, stepsLeft, pending, List.length_cons]
    simp only [Event.reserved, Event.positions]
    omega
  · rw [stepsLeft, stepsLeft, flags, idle, prints]
    generalize (step ar s (.loop w)).1.pc = pc' at control
    generalize (step ar s (.loop w)).2 = e at control
    cases control with
    | printed text pending => exact absurd idle pending
    | blinked pc | idle pc | csvReport pc _ | textReport pc _ | noInput pc | inputRead _ pc =>
        rw [pc] at report
        cases report
    | headerCounted pc | startRead pc | frameSelected _ pc | frameRead _ pc =>
        rw [pc]
        simp only [pcSteps, Event.prints, Event.reserved, Event.positions, headerPrints,
          framePrints, List.length_cons, List.length_nil]
        omega
    | reset pc =>
        rw [pc]
        rfl
    | channelsDone mode pc =>
        rw [pc]
        cases mode <;> rfl
    | skipped pc off =>
        rw [pc, pcSteps, pcSteps, channelsSteps_skipped off]
        simp only [Event.prints, Event.reserved, Event.positions, List.length_nil]
        omega
    | averageCalled pc on =>
        rw [pc, pcSteps, pcSteps, channelsSteps_called on]
        simp only [Event.prints, Event.reserved, Event.positions, List.length_nil]
        omega
    | averageRead pc more =>
        rw [pc]
        simp only [pcSteps, Event.prints, Event.reserved, Event.positions, List.length_nil]
        omega
    | averaged u pc done =>
        rw [pc, length_printChannel]
        simp only [pcSteps, Event.reserved, Event.positions, List.length_nil]
        omega

end Steps

/-! ### The steps of a report -/

/-- The steps of a report whose counts are all `M`. -/
def reportSteps (M : ℕ) (enabled : EnumADC → Bool) : Mode → ℕ
  | .csv => 4 * M + 19
  | .text => (M + 9) * adcOrder.countP enabled + 29

theorem sum_channelSteps_text (M : ℕ) (enabled : EnumADC → Bool) (adcs : List EnumADC) :
    ((adcs.map (channel enabled)).map (channelSteps M .text)).sum =
      (M + 9) * adcs.countP enabled + adcs.length := by
  induction adcs with
  | nil => rfl
  | cons adc adcs ih =>
      rw [List.map_cons, List.map_cons, List.sum_cons, ih, List.countP_cons, List.length_cons,
        channelSteps, channel_getEnabled]
      cases enabled adc with
      | false =>
          rw [if_pos ⟨rfl, rfl⟩, if_neg Bool.false_ne_true]
          simp only [Nat.add_zero]
          omega
      | true =>
          rw [if_neg (fun off => Bool.noConfusion off.2), if_pos rfl, Nat.mul_succ]
          simp only [channelPrints]
          omega

theorem channelsSteps_text (M : ℕ) (enabled : EnumADC → Bool) :
    channelsSteps M .text (rfAdcList enabled) = (M + 9) * adcOrder.countP enabled + 6 := by
  rw [channelsSteps, rfAdcList_eq, sum_channelSteps_text]
  rfl

theorem channelsSteps_csv (M : ℕ) (enabled : EnumADC → Bool) :
    channelsSteps M .csv (rfAdcList enabled) = 4 * M + 19 := by
  simp [channelsSteps, rfAdcList, adcOrder, channelSteps, channelPrints]
  omega

theorem reportSteps_le (M : ℕ) (enabled : EnumADC → Bool) (mode : Mode) :
    reportSteps M enabled mode ≤ 4 * M + 65 := by
  have four : adcOrder.countP enabled ≤ 4 := List.countP_le_length
  cases mode with
  | csv =>
      rw [reportSteps]
      omega
  | text =>
      have most : (M + 9) * adcOrder.countP enabled ≤ (M + 9) * 4 := Nat.mul_le_mul_left _ four
      rw [reportSteps]
      omega

/-- The start of a report. -/
def isStart : Event → Bool
  | .reportStarted _ => true
  | _ => false

/-- The events of the report under way, newest first. -/
def reportEvents (h : List Event) : List Event := since isStart h

/-- The number of `loop` steps among the events. -/
def loopEvents (h : List Event) : ℕ := h.countP fun e => e.call?.isNone

/-- The positions the counts among the events cover. -/
def positions (h : List Event) : ℕ := (h.map Event.positions).sum

/-- What was reserved for the counts among the events. -/
def reserved (M : ℕ) (h : List Event) : ℕ := (h.map (Event.reserved M)).sum

theorem loopEvents_sampled (call : Call) (h : List Event) :
    loopEvents (.sampled call :: h) = loopEvents h := rfl

theorem loopEvents_cons {e : Event} (call : e.call? = none) (h : List Event) :
    loopEvents (e :: h) = loopEvents h + 1 :=
  List.countP_cons_of_pos (by rw [call]; rfl)

theorem positions_cons (e : Event) (h : List Event) :
    positions (e :: h) = e.positions + positions h := List.sum_cons

theorem reserved_cons (M : ℕ) (e : Event) (h : List Event) :
    reserved M (e :: h) = e.reserved M + reserved M h := List.sum_cons

section Runs

variable {b : Board} {h : List Event} {s : State}

theorem isStart_eq_false_of_inReport {ar : Arith} {pc : Pc} {e : Event}
    (report : inReport s.pc = true) (control : Control ar s pc e) : isStart e = false := by
  cases control with
  | csvReport before _ | textReport before _ =>
      rw [before] at report
      cases report
  | _ => rfl

/-- A `loop` step that enters a report begins it. -/
theorem loop_enters {ar : Arith} {w : Answers} (outside : inReport s.pc = false)
    (inside : inReport (step ar s (.loop w)).1.pc = true) (M : ℕ) :
    ∃ mode, (step ar s (.loop w)).2 = .reportStarted mode ∧
      stepsLeft M (step ar s (.loop w)).1 = reportSteps M s.enabled mode := by
  have flags := (loop_frame ar s w).enabled
  rcases loop_moves ar s w with ⟨text, printing, pending, state, event⟩ | ⟨idle, prints, control⟩
  · rw [state, outside] at inside
    cases inside
  · rw [stepsLeft, flags, prints]
    generalize (step ar s (.loop w)).1.pc = pc' at control inside
    generalize (step ar s (.loop w)).2 = e at control
    cases control with
    | csvReport pc _ =>
        refine ⟨.csv, rfl, ?_⟩
        rw [pcSteps, channelsSteps_csv]
        exact Nat.zero_add _
    | textReport pc _ =>
        refine ⟨.text, rfl, ?_⟩
        rw [pcSteps, channelsSteps_text, reportSteps]
        simp only [Event.prints, List.length_replicate]
        omega
    | printed text pending => exact absurd idle pending
    | blinked _ | idle _ | noInput _ | inputRead _ _ | reset _ => cases inside
    | headerCounted pc | startRead pc | frameSelected _ pc | frameRead _ pc | channelsDone _ pc
    | skipped pc _ | averageCalled pc _ | averageRead pc _ | averaged _ pc _ =>
        rw [pc] at outside
        cases outside

/-- What a report has done and what is ahead make up its steps. -/
def OnTime (M : ℕ) (b : Board) (h : List Event) (s : State) : Prop :=
  ∃ mode, (reportModes h).getLast? = some mode ∧
    loopEvents (reportEvents h) + stepsLeft M s + reserved M (reportEvents h) =
      reportSteps M b.enabled mode + positions (reportEvents h)

theorem reportEvents_cons {e : Event} (other : isStart e = false) (h : List Event) :
    reportEvents (e :: h) = e :: reportEvents h :=
  since_cons_other other h

theorem OnTime.interrupt {M : ℕ} (onTime : OnTime M b h s) (i : Interrupt) :
    OnTime M b (.sampled (fastMeasure s i).2 :: h) (fastMeasure s i).1 := by
  obtain ⟨mode, last, steps⟩ := onTime
  refine ⟨mode, last, ?_⟩
  rw [reportEvents_cons rfl, loopEvents_sampled, reserved_cons, positions_cons]
  simp only [Event.reserved, Event.positions, Nat.zero_add]
  exact steps

theorem startedMode_none {e : Event} (other : isStart e = false) : e.startedMode? = none := by
  cases e with
  | reportStarted mode => cases other
  | _ => rfl

/-- **Every step of a report counts**, whichever interrupts fall between. -/
theorem run_onTime (M : ℕ) (run : (firmware b).Run h s) :
    inReport s.pc = true → OnTime M b h s := by
  induction run with
  | start => exact nofun
  | @step h s a earlier ih =>
      cases a with
      | fastMeasure i =>
          intro report
          exact (ih report).interrupt i
      | loop w =>
          intro report
          have flags := enabled_eq earlier
          have call := (loop_frame b.arith s w).call
          show OnTime M b ((step b.arith s (.loop w)).2 :: h) (step b.arith s (.loop w)).1
          cases inside : inReport s.pc with
          | false =>
              obtain ⟨mode, started, steps⟩ := loop_enters inside report M
              refine ⟨mode, ?_, ?_⟩
              · rw [started, reportModes_started, List.getLast?_concat]
              · rw [steps, started, flags]
                exact Nat.zero_add _
          | true =>
              obtain ⟨mode, last, steps⟩ := ih inside
              have other := isStart_eq_false_of_inReport inside (loop_control b.arith s w)
              have done := loop_stepsLeft (M := M) b.arith w inside
              refine ⟨mode, ?_, ?_⟩
              · rw [reportModes_cons_none (startedMode_none other)]
                exact last
              · rw [reportEvents_cons other, loopEvents_cons call, reserved_cons, positions_cons]
                omega

/-- The reset is the last of the steps ahead. -/
theorem stepsLeft_of_reset (run : (firmware b).Run (.reset :: h) s) :
    ∃ s', (firmware b).Run h s' ∧ inReport s'.pc = true ∧ stepsLeft 0 s' = 1 := by
  obtain ⟨s', a, before, moved⟩ := run.last
  refine ⟨s', before, ?_⟩
  cases a with
  | fastMeasure i => cases moved
  | loop w =>
      have event : (step b.arith s' (.loop w)).2 = .reset := congrArg Prod.snd moved
      rcases loop_moves b.arith s' w with ⟨text, printing, -, -, other⟩ | ⟨idle, -, control⟩
      · rw [event] at other
        cases other
      · rw [event] at control
        generalize (step b.arith s' (.loop w)).1.pc = pc' at control
        cases control with
        | reset pc =>
            rw [stepsLeft, idle, pc]
            exact ⟨rfl, rfl⟩

theorem reserved_zero (h : List Event) : reserved 0 h = 0 := by
  induction h with
  | nil => rfl
  | cons e h ih =>
      rw [reserved_cons, ih]
      cases e <;> rfl

/-- A count is below 2^31, and inside a window that fits at most its capacity. -/
theorem positions_le {e : Event} (run : (firmware b).Run (e :: h) s) :
    e.positions ≤ 2147483647 ∧ (Fits h → e.positions ≤ rfBufferLength) := by
  obtain ⟨s', before, ⟨i, rfl⟩ | ⟨-, control⟩⟩ := last_step run
  · exact ⟨Nat.zero_le _, fun _ => Nat.zero_le _⟩
  · generalize s.pc = pc at control
    cases control with
    | averageCalled _ _ =>
        have small := BitVec.toInt_lt (x := s'.rfSampleBufferLength)
        simp only [Event.positions]
        refine ⟨by omega, fun fits => ?_⟩
        have capacity := fits.now
        rw [length_toInt before fits.now, Int.toNat_natCast]
        exact capacity
    | _ => exact ⟨Nat.zero_le _, fun _ => Nat.zero_le _⟩

end Runs

/-- **The steps of a report.** Under every schedule, a report from its start to its
reset takes 19 steps in CSV mode and 29 and 9 for each enabled channel in text mode,
and one for each position its counts make the summing loops visit. -/
theorem report_steps (b : Board) (as : List Action) {g : List Event}
    (done : .reset :: g <:+ history b as) :
    ∃ mode, (reportModes g).getLast? = some mode ∧
      loopEvents (reportEvents (.reset :: g)) =
        (match mode with
          | .csv => 19
          | .text => 9 * adcOrder.countP b.enabled + 29) + positions (reportEvents g) := by
  obtain ⟨s, atReset⟩ := (run_history b as).suffix done
  obtain ⟨s', before, report, one⟩ := stepsLeft_of_reset atReset
  obtain ⟨mode, last, steps⟩ := run_onTime 0 before report
  refine ⟨mode, last, ?_⟩
  rw [reportEvents_cons rfl, loopEvents_cons rfl]
  rw [one, reserved_zero, Nat.add_zero] at steps
  rw [steps]
  cases mode with
  | csv => rfl
  | text => rw [reportSteps]

/-- Two samples, an `M`, and a text report in whose first sum a third sample comes. -/
def textRun : List Action :=
  twoSamples ++ List.replicate 3 (.loop keyAnswers) ++ loops 26 ++
    .fastMeasure (risingInterrupt 31) :: loops 28

/-- The first channel's count is two, the second's three. -/
theorem report_steps_textRun :
    loopEvents (reportEvents (history sourceBoard textRun)) = 9 * 2 + 29 + (2 + 3) := by
  have done : (history sourceBoard textRun).head? = some .reset := by
    obtain ⟨e, head, reset⟩ := (Option.any_eq_true isReset (history sourceBoard textRun).head?).mp
      (by decide +kernel)
    cases e with
    | reset => exact head
    | _ => cases reset
  have whole := List.cons_head?_tail done
  have text : (reportModes (history sourceBoard textRun).tail).getLast? = some .text := by
    decide +kernel
  have visited : positions (reportEvents (history sourceBoard textRun).tail) = 2 + 3 := by
    decide +kernel
  obtain ⟨mode, last, steps⟩ := report_steps sourceBoard textRun ⟨[], whole⟩
  obtain rfl := Option.some.inj (text.symm.trans last)
  rw [whole, visited] at steps
  exact steps

/-! ### Completion -/

theorem history_append (b : Board) (as bs : List Action) :
    history b (as ++ bs) =
      ((firmware b).exec bs ([], finalState b as)).1 ++ history b as := by
  rw [history, Machine.exec_exec, ← Prod.mk.eta (p := (firmware b).exec as ([], setup b)),
    Machine.exec_append]
  rfl

/-- A move of a report resets or stays in the report. -/
theorem inReport_of_control {ar : Arith} {s : State} {pc : Pc} {e : Event}
    (report : inReport s.pc = true) (control : Control ar s pc e) :
    isReset e = true ∨ inReport pc = true := by
  cases control with
  | printed text _ => exact .inr report
  | reset _ => exact .inl rfl
  | blinked before | idle before | noInput before | inputRead _ before =>
      rw [before] at report
      cases report
  | _ => exact .inr rfl

/-- A step of a report is its reset, or leaves the report under way with fewer steps
ahead. -/
theorem step_in_report {ar : Arith} {M : ℕ} {s : State} (report : inReport s.pc = true)
    (a : Action) (small : (step ar s a).2.positions ≤ M) :
    isReset (step ar s a).2 = true ∨
      inReport (step ar s a).1.pc = true ∧
        stepsLeft M (step ar s a).1 + (if !a.isInterrupt then 1 else 0) ≤ stepsLeft M s := by
  cases a with
  | fastMeasure i => exact .inr ⟨report, le_rfl⟩
  | loop w =>
      have done := loop_stepsLeft (M := M) ar w report
      have covered : (step ar s (.loop w)).2.positions ≤ (step ar s (.loop w)).2.reserved M := by
        revert small
        cases (step ar s (.loop w)).2 with
        | averageCalled _ _ _ => exact id
        | _ => exact fun _ => le_rfl
      have lower : stepsLeft M (step ar s (.loop w)).1 + 1 ≤ stepsLeft M s := by omega
      rcases inReport_of_control report (loop_control ar s w) with reset | stays
      · exact .inl reset
      · exact .inr ⟨stays, lower⟩

theorem positions_le_reserved {M : ℕ} {h : List Event} (small : ∀ e ∈ h, e.positions ≤ M) :
    positions h ≤ reserved M h := by
  induction h with
  | nil => exact le_rfl
  | cons e h ih =>
      obtain ⟨now, earlier⟩ := List.forall_mem_cons.mp small
      have rest := ih earlier
      rw [positions_cons, reserved_cons]
      cases e with
      | averageCalled _ _ _ => exact Nat.add_le_add now rest
      | _ => exact Nat.add_le_add le_rfl rest

/-- At every moment of a report, the steps ahead are bounded by the largest count. -/
theorem stepsLeft_le {b : Board} {M : ℕ} {h : List Event} {s : State}
    (run : (firmware b).Run h s) (small : ∀ e ∈ h, e.positions ≤ M)
    (report : inReport s.pc = true) : stepsLeft M s ≤ 4 * M + 65 := by
  obtain ⟨mode, -, steps⟩ := run_onTime M run report
  have most := reportSteps_le M b.enabled mode
  have covered := positions_le_reserved (h := reportEvents h)
    fun e he => small e ((List.takeWhile_sublist _).subset he)
  omega

/-- A report under way resets within four times the largest count and 65 steps. -/
theorem reset_within (b : Board) (as bs : List Action) (M : ℕ)
    (report : inReport (finalState b as).pc = true)
    (small : ∀ e ∈ history b (as ++ bs), e.positions ≤ M) (enough : 4 * M + 65 ≤ loopSteps bs) :
    .reset ∈ ((firmware b).exec bs ([], finalState b as)).1 := by
  have split := history_append b as bs
  have before : ∀ e ∈ history b as, e.positions ≤ M := by
    intro e he
    refine small e ?_
    rw [split]
    exact List.mem_append_right _ he
  have bound := stepsLeft_le (run_history b as) before report
  have all : Always (fun g => ∀ e ∈ g, e.positions ≤ M)
      ((firmware b).exec bs (history b as, finalState b as)).1 := by
    rw [Machine.exec_append, ← split]
    exact fun g suffix e he => small e (suffix.subset he)
  obtain ⟨e, mem, reset⟩ := Machine.exec_responds (m := firmware b)
    (J := fun _ s => inReport s.pc = true) isReset (stepsLeft M) (fun a => !a.isInterrupt)
    (fun report => stepsLeft_pos report)
    (fun a report small => step_in_report report a (small _ List.mem_cons_self)) bs report
    (bound.trans enough) all
  cases e with
  | reset => exact mem
  | _ => cases reset

theorem positions_le_of_mem {b : Board} {h : List Event} {s : State}
    (run : (firmware b).Run h s) :
    (∀ e ∈ h, e.positions ≤ 2147483647) ∧ (Fits h → ∀ e ∈ h, e.positions ≤ rfBufferLength) := by
  constructor
  · intro e he
    obtain ⟨g, suffix⟩ := suffix_of_mem he
    obtain ⟨s', moment⟩ := run.suffix suffix
    exact (positions_le moment).1
  · intro fits e he
    obtain ⟨g, suffix⟩ := suffix_of_mem he
    obtain ⟨s', moment⟩ := run.suffix suffix
    exact (positions_le moment).2 (Fits.tail (fits.suffix suffix))

/-- **A report completes.** From any moment of a report, however the interrupts fall
between the steps of `loop`, the reset comes after at most 65 steps and four for
each sample the largest count can cover: the capacity of the buffer where the
windows fit, and the range of the count in any case. -/
theorem report_completes (b : Board) (as bs : List Action)
    (report : inReport (finalState b as).pc = true) :
    ∃ new, history b (as ++ bs) = new ++ history b as ∧
      (4 * 2147483647 + 65 ≤ loopSteps bs → .reset ∈ new) ∧
      (Fits (history b (as ++ bs)) → 4 * rfBufferLength + 65 ≤ loopSteps bs → .reset ∈ new) := by
  obtain ⟨always, inArray⟩ := positions_le_of_mem (run_history b (as ++ bs))
  refine ⟨_, history_append b as bs, ?_, ?_⟩
  · exact reset_within b as bs _ report always
  · exact fun fits => reset_within b as bs _ report (inArray fits)

/-- A pass of `loop` and then an interrupt, many times. -/
def passes (n : ℕ) : List Action :=
  (List.replicate n [.loop dueAnswers, .fastMeasure quietInterrupt]).flatten

theorem loopSteps_passes (n : ℕ) : loopSteps (passes n) = n := by
  rw [loopSteps, passes, List.countP_flatten, List.map_replicate, List.sum_replicate]
  exact Nat.mul_one n

/-- A text report in the sum of its first channel, and an interrupt after every step
from there on. -/
theorem report_completes_textRun :
    ∃ new, history sourceBoard (textRun.take 32 ++ passes 8589934653) =
        new ++ history sourceBoard (textRun.take 32) ∧ .reset ∈ new := by
  obtain ⟨new, split, completes, -⟩ :=
    report_completes sourceBoard (textRun.take 32) (passes 8589934653) rfl
  exact ⟨new, split, completes (loopSteps_passes _).ge⟩

end RFPowerDetector.Firmware
