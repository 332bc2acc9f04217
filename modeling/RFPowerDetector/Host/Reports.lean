/-
The reports on the serial stream.

`Host.Transcript` says which characters a run sends; this module says what they are.

* `stream_grammar`: the lines of a run are those of whole reports, one after the other:
  a CSV report is one line, a text report eleven blank lines, a header, a frame, a blank
  line and a line for each enabled channel, in their order.
* `stream_reports`: whoever reads the stream back gets, line by line, the counts, samples
  and averages of the window at the moment that completed the line.
-/

import RFPowerDetector.Firmware.Average
import RFPowerDetector.Firmware.Script
import RFPowerDetector.Firmware.Stored
import RFPowerDetector.Host.ReadBack

namespace RFPowerDetector.Host

open Firmware Transition

/-! ### Kinds of lines -/

inductive LineKind where
  | setup
  | blank
  | header
  | frame
  | channel (adc : EnumADC)
  | csv
  deriving DecidableEq, Repr

def Line.kind : Line → LineKind
  | .startingSetup | .setupSuccessful => .setup
  | .blank => .blank
  | .header _ _ => .header
  | .frame _ _ => .frame
  | .channel adc _ _ => .channel adc
  | .csv _ => .csv

/-- The lines complete when a milestone is passed. -/
def lineKinds : Milestone → List LineKind
  | .started .text => List.replicate 11 .blank
  | .startRead => [.header]
  | .frameRead => [.frame, .blank]
  | .averaged .text adc => [.channel adc]
  | .channelsDone .csv => [.csv]
  | _ => []

/-- The lines of a report. -/
def reportLines (enabled : EnumADC → Bool) : Mode → List LineKind
  | .csv => [.csv]
  | .text =>
      List.replicate 11 .blank ++ [.header, .frame, .blank] ++
        (adcOrder.filter enabled).map .channel

/-- The lines an event completes. -/
def eventKinds (e : Event) : List LineKind := e.milestone?.elim [] lineKinds

theorem lineKinds_milestones (e : Event) (h : List Event) :
    (milestones (e :: h)).flatMap lineKinds = (milestones h).flatMap lineKinds ++ eventKinds e := by
  cases passes : e.milestone? with
  | none => rw [milestones_cons_none passes, eventKinds, passes, Option.elim_none, List.append_nil]
  | some m =>
      rw [milestones_cons passes, List.flatMap_append, List.flatMap_singleton, eventKinds, passes,
        Option.elim_some]

theorem eventKinds_of_addsNothing {e : Event} (nothing : addsNothing e = true) :
    eventKinds e = [] := by
  cases e with
  | reportStarted | headerCounted | startRead | frameRead | averaged => cases nothing
  | channelsDone mode =>
      cases mode with
      | csv => cases nothing
      | text => rfl
  | _ => rfl

section Runs

variable {b : Board} {h : List Event} {s : State}

/-- The lines of a history are those its milestones complete. -/
def OfKinds (ar : Arith) (h : List Event) : Prop :=
  (transcript ar h).lines.map Line.kind = (milestones h).flatMap lineKinds

theorem OfKinds.quiet {ar : Arith} {e : Event} (kinds : OfKinds ar h)
    (nothing : addsNothing e = true) : OfKinds ar (e :: h) := by
  rw [OfKinds, lineKinds_milestones, eventKinds_of_addsNothing nothing, List.append_nil, ← kinds]
  exact congrArg (fun t => t.lines.map Line.kind) (Transcript.next_of_addsNothing ar _ nothing)

/-- An event that completes lines of its kinds. -/
theorem OfKinds.complete {ar : Arith} {e : Event} {lines : List Line} {u : Unfinished}
    (kinds : OfKinds ar h) (before : transcript ar h = ⟨lines, u⟩) (more : List Line)
    (u' : Unfinished) (after : Transcript.next ar ⟨lines, u⟩ e = ⟨lines ++ more, u'⟩)
    (own : more.map Line.kind = eventKinds e) : OfKinds ar (e :: h) := by
  rw [OfKinds, before] at kinds
  rw [OfKinds, lineKinds_milestones, ← kinds, transcript, before, after, List.map_append, own]

theorem run_ofKinds (run : (firmware b).Run h s) : OfKinds b.arith h := by
  refine run_invariant (I := fun h _ => OfKinds b.arith h) rfl ?_ ?_ run
  · intro h s i _ ih
    exact ih.quiet rfl
  · intro h s s' e earlier ih _ control
    have begun := (run_transcript earlier).begun
    obtain ⟨lines, u, held⟩ : ∃ lines u, transcript b.arith h = ⟨lines, u⟩ := ⟨_, _, rfl⟩
    rw [held] at begun
    generalize s'.pc = pc' at control
    cases control with
    | csvReport pc _ =>
        rw [pc] at begun
        obtain rfl : u = .none := begun
        exact ih.complete held [] (.csv [] fun _ => 0) (by rw [List.append_nil]; rfl) rfl
    | textReport pc _ =>
        rw [pc] at begun
        obtain rfl : u = .none := begun
        exact ih.complete held (List.replicate 11 .blank) .none rfl rfl
    | headerCounted pc =>
        rw [pc] at begun
        obtain rfl : u = .none := begun
        exact ih.complete held [] (.header _) (by rw [List.append_nil]; rfl) rfl
    | startRead pc =>
        rw [pc] at begun
        obtain ⟨sampleCount, rfl⟩ := begun
        exact ih.complete held [.header sampleCount _] .none rfl rfl
    | frameRead k pc =>
        rw [pc] at begun
        obtain rfl : u = .none := begun
        exact ih.complete held [.frame k _, .blank] .none rfl rfl
    | channelsDone mode pc =>
        cases mode with
        | text => exact ih.quiet rfl
        | csv =>
            rw [pc] at begun
            obtain ⟨finished, codes, rfl, -⟩ := begun
            exact ih.complete held [.csv codes] .none rfl rfl
    | @averaged mode selectedADC rest n i sum unspecified pc _ =>
        rw [pc] at begun
        cases mode with
        | text =>
            obtain rfl : u = .none := begun
            exact ih.complete held [.channel selectedADC.getEnumADC _ _] .none rfl rfl
        | csv =>
            obtain ⟨finished, codes, rfl, -⟩ := begun
            exact ih.complete held [] (.csv _ _) (by rw [List.append_nil]; rfl) rfl
    | printed _ _ | averageCalled _ _ | averageRead _ _ | skipped _ _ | blinked _ | idle _
    | frameSelected _ _ | reset _ | noInput _ | inputRead _ _ => exact ih.quiet rfl

end Runs

theorem lineKinds_channels (enabled : EnumADC → Bool) (adcs : List EnumADC) :
    ((adcs.map (channel enabled)).flatMap (channelScript .text)).flatMap lineKinds =
      (adcs.filter enabled).map .channel := by
  induction adcs with
  | nil => rfl
  | cons adc adcs ih =>
      rw [List.map_cons, List.flatMap_cons, List.flatMap_append, ih, channelScript,
        channel_getEnabled, channel_getEnumADC]
      cases on : enabled adc with
      | false =>
          rw [if_pos ⟨rfl, rfl⟩, List.filter_cons_of_neg (by rw [on]; exact Bool.false_ne_true)]
          rfl
      | true =>
          rw [if_neg (fun off => Bool.noConfusion off.2), List.filter_cons_of_pos on]
          rfl

/-- A report's script completes its lines. -/
theorem lineKinds_script (enabled : EnumADC → Bool) (mode : Mode) :
    (script enabled mode).flatMap lineKinds = reportLines enabled mode := by
  cases mode with
  | csv => rfl
  | text =>
      rw [script, channelsScript, rfAdcList_eq, List.flatMap_append, List.flatMap_append,
        lineKinds_channels]
      exact congrArg _ (List.append_nil _)

/-- **The grammar of the stream.** Under every schedule, the lines a run has sent or
ordered, with those the report under way still completes, are the lines of the reports
begun, report after report. -/
theorem stream_grammar (b : Board) (as : List Action) :
    (transcript b.arith (history b as)).lines.map Line.kind ++
        (remaining b.enabled (finalState b as).pc).flatMap lineKinds =
      (reportModes (history b as)).flatMap (reportLines b.enabled) := by
  have run := run_history b as
  have kinds : _ = (milestones (history b as)).flatMap lineKinds := run_ofKinds run
  have scripts : milestones (history b as) ++ remaining b.enabled (finalState b as).pc =
      (reportModes (history b as)).flatMap (script b.enabled) := run_onScript run
  rw [kinds, ← List.flatMap_append, scripts, List.flatMap_assoc]
  exact List.flatMap_congr fun mode _ => lineKinds_script b.enabled mode

/-! ### End to end -/

/-- The average over the first `n` samples of the window of a moment, as `loop` keeps it. -/
def windowAverage (g : List Event) (adc : EnumADC) (n : ℕ) : Option ℚ :=
  rollingAverage .ieee (averageOf .ieee (readingSum (windowBuffer g) adc n) n)

/-- A channel was averaged in the window of a moment: its call counted `n` samples, at
least one, and returned their average, whose undefined conversion yields `unspecified`. -/
structure AveragedOver (mode : Mode) (g : List Event) (adc : EnumADC) (n : ℕ)
    (unspecified : Word) : Prop where
  counted : CountedBy g (.averageCalled mode adc n) n
  nonempty : 0 < n
  returned : Averaged .ieee g mode adc (windowAverage g adc n) unspecified

/-- The line completed at a moment tells of the window there: a count read in it, its first
sample, one of its samples, averages over its first samples. -/
inductive Line.FromWindow : List Event → Line → Prop where
  | opened (g : List Event) : FromWindow (.reportStarted .text :: g) .blank
  | header {sampleCount : ℕ} {start : RFSample} {g : List Event} :
      CountedBy g (.headerCounted sampleCount) sampleCount → OfWindow g 0 start →
      FromWindow (.startRead start :: g) (.header sampleCount start)
  | frame {selectedFrame : ℕ} {selectedSample : RFSample} {g : List Event} :
      OfWindow g selectedFrame selectedSample →
      FromWindow (.frameRead selectedFrame selectedSample :: g)
        (.frame selectedFrame selectedSample)
  | closed (selectedFrame : ℕ) (selectedSample : RFSample) (g : List Event) :
      FromWindow (.frameRead selectedFrame selectedSample :: g) .blank
  | channel {selectedADC : RFInputADC} {average : Option ℚ} {unspecified : Word} {n : ℕ}
      {g : List Event} :
      AveragedOver .text (.averaged .text selectedADC average unspecified :: g)
        selectedADC.getEnumADC n unspecified →
      rollingAverage .ieee average = windowAverage g selectedADC.getEnumADC n →
      FromWindow (.averaged .text selectedADC average unspecified :: g)
        (.channel selectedADC.getEnumADC (windowAverage g selectedADC.getEnumADC n) unspecified)
  | csv {codes : EnumADC → Word} {g : List Event} :
      (∀ adc, ∃ n unspecified, AveragedOver .csv g adc n unspecified ∧
        codes adc = toUInt16 unspecified (windowAverage g adc n)) →
      FromWindow (.channelsDone .csv :: g) (.csv codes)

section Windows

variable {b : Board} {h : List Event} {s : State}

/-- An average of the window is the exact one over the samples its call counted. -/
theorem Averaged.averagedOver (ieee : b.arith = .ieee) (run : (firmware b).Run h s)
    (fits : Fits h) (sampled : SampledBeforeUse h) {mode : Mode} {adc : EnumADC}
    {shown : Option ℚ} {unspecified : Word}
    (averaged : Averaged b.arith h mode adc shown unspecified) :
    ∃ n, AveragedOver mode h adc n unspecified ∧ shown = windowAverage h adc n := by
  obtain ⟨n, counted, value⟩ := averaged.counted run fits
  have inside : n ≤ windowCount h := counted.le rfl Event.noConfusion
  have capacity := fits.now
  rw [rfBufferLength_eq] at capacity
  have exact : shown = windowAverage h adc n := by
    rw [value, ieee, windowAverage, calculateChannelAverage,
      calculateChannelSum_eq (ieee_holdsSums (by omega)) _ _ le_rfl, adcOut_getEnumADC]
  have positive := (nonemptyReports_of_sampled run fits sampled).averages _ _ _ counted.mem
  refine ⟨n, ⟨counted, by exact_mod_cast positive, ?_⟩, exact⟩
  rw [← exact, ← ieee]
  exact averaged

/-- The header's count. -/
theorem headerCounted_counted {sampleCount : ℤ} (run : (firmware b).Run h s) (fits : Fits h)
    (mem : .headerCounted sampleCount ∈ window h) :
    ∃ n : ℕ, sampleCount = n ∧ CountedBy h (.headerCounted n) n := by
  obtain ⟨mid, earlier, rfl, same⟩ := split_window mem
  have moment := List.suffix_append mid (.headerCounted sampleCount :: earlier)
  obtain ⟨s', atCount⟩ := run.suffix moment
  obtain rfl : sampleCount = windowCount earlier :=
    count_eq atCount (Fits.tail (fits.suffix moment)) rfl
  exact ⟨windowCount earlier, rfl, mid, earlier, rfl, same, rfl⟩

theorem fromWindow_of_saidAt (ieee : b.arith = .ieee) {moment : List Event} {line : Line}
    (run : (firmware b).Run moment s) (fits : Fits moment) (sampled : SampledBeforeUse moment)
    (said : Line.SaidAt b.arith moment line) : Line.FromWindow moment line := by
  obtain ⟨s', before⟩ : ∃ s', (firmware b).Run moment.tail s' := run.suffix (List.tail_suffix _)
  cases said with
  | opened g => exact .opened g
  | header counted =>
      obtain ⟨n, rfl, counted'⟩ := headerCounted_counted before fits.tail counted
      exact .header counted' (startRead_ofWindow run fits.tail sampled)
  | frame k sample g => exact .frame (frameRead_ofWindow run fits.tail sampled.2)
  | closed k sample g => exact .closed k sample g
  | channel selectedADC average unspecified g =>
      obtain ⟨n, averaged, value⟩ := Averaged.averagedOver ieee run fits sampled
        ⟨selectedADC, average, List.mem_cons_self, rfl, rfl⟩
      have same : windowAverage (.averaged .text selectedADC average unspecified :: g)
          selectedADC.getEnumADC n = windowAverage g selectedADC.getEnumADC n := rfl
      rw [same] at value
      rw [value]
      exact .channel averaged (ieee ▸ value)
  | csv said =>
      refine .csv fun adc => ?_
      obtain ⟨shown, unspecified, averaged, code⟩ := said adc
      obtain ⟨n, averagedOver, rfl⟩ := averaged.averagedOver ieee before fits.tail sampled.2
      exact ⟨n, unspecified, averagedOver, code⟩

end Windows

/-- **End to end.** In every run whose windows fit and are not empty when a report first
uses them, the characters sent and pending read back as the lines of the run, and each
tells of the window of the moment that completed it. -/
theorem stream_reports (b : Board) (ieee : b.arith = .ieee) (as : List Action)
    (fits : Fits (history b as)) (sampled : SampledBeforeUse (history b as)) :
    ∃ lines, readStream (sent (history b as) ++ (finalState b as).printing.flatten) =
        lineData .ieee lines ∧
      List.Forall₂ Line.FromWindow (lineMoments (history b as)) lines := by
  have run := run_history b as
  refine ⟨(transcript b.arith (history b as)).lines, ?_, ?_⟩
  · rw [read_ordered run, ieee]
  · have said := (List.forall₂_and_left _ _).mpr
      ⟨fun _ => suffix_of_lineMoments (h := history b as), (run_said run).lines⟩
    refine said.imp fun moment line at_ => ?_
    obtain ⟨s, atMoment⟩ := run.suffix at_.1
    exact fromWindow_of_saidAt ieee atMoment (fits.suffix at_.1) (sampled.suffix at_.1) at_.2

/-- The stream of a CSV report, and of a text report with two channels. -/
theorem stream_reports_twoReports :
    ∃ lines, lines.length = 17 ∧
      readStream (sent (history sourceBoard twoReports) ++
        (finalState sourceBoard twoReports).printing.flatten) = lineData .ieee lines ∧
      List.Forall₂ Line.FromWindow (lineMoments (history sourceBoard twoReports)) lines := by
  have completed : (lineMoments (history sourceBoard twoReports)).length = 17 := by
    decide +kernel
  obtain ⟨lines, data, moments⟩ :=
    stream_reports sourceBoard rfl twoReports fits_twoReports sampled_twoReports
  exact ⟨lines, moments.length_eq.symm.trans completed, data, moments⟩

end RFPowerDetector.Host
