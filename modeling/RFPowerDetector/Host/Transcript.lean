/-
The lines of a run.

`transcript` reads a history as lines: those its events have completed and the
one they have begun. A run orders exactly the characters of its transcript
(`run_transcript`), so the port carries a stream of lines (`sent_lines`), and the
lines say what the events that completed them found, in their order (`run_said`).
In CSV mode each line is the report of its moment over that moment's window
(`run_csvReports`), which the plotter reads back (`csvRun_roundTrip`).
-/

import RFPowerDetector.Firmware.EmptyWindow
import RFPowerDetector.Firmware.Script
import RFPowerDetector.Firmware.Serial
import RFPowerDetector.Host.CsvStream

namespace RFPowerDetector.Host

open Firmware Transition

/-! ### The lines of a history -/

/-- A line that has been begun. -/
inductive Unfinished where
  | none
  | header (sampleCount : ℤ)
  /-- the channels printed so far, and their codes -/
  | csv (finished : List EnumADC) (codes : EnumADC → Word)

def Unfinished.text (ar : Arith) : Unfinished → Text
  | .none => []
  | .header sampleCount => (headerPrints sampleCount).flatten
  | .csv finished codes =>
      finished.flatMap fun adc => printFloat (some (codeDbm ar (codes adc))) ++ ", ".toList

structure Transcript where
  lines : List Line
  unfinished : Unfinished

def Transcript.text (ar : Arith) (t : Transcript) : Text :=
  lineStream ar t.lines ++ t.unfinished.text ar

/-- What an event adds to the lines. -/
def Transcript.next (ar : Arith) : Transcript → Event → Transcript
  | ⟨lines, .none⟩, .reportStarted .csv => ⟨lines, .csv [] fun _ => 0⟩
  | ⟨lines, .none⟩, .reportStarted .text => ⟨lines ++ List.replicate 11 .blank, .none⟩
  | ⟨lines, .none⟩, .headerCounted sampleCount => ⟨lines, .header sampleCount⟩
  | ⟨lines, .header sampleCount⟩, .startRead sample =>
      ⟨lines ++ [.header sampleCount sample], .none⟩
  | ⟨lines, .none⟩, .frameRead selectedFrame selectedSample =>
      ⟨lines ++ [.frame selectedFrame selectedSample, .blank], .none⟩
  | ⟨lines, .none⟩, .averaged .text selectedADC average unspecified =>
      ⟨lines ++ [.channel selectedADC.getEnumADC (rollingAverage ar average) unspecified], .none⟩
  | ⟨lines, .csv finished codes⟩, .averaged .csv selectedADC average unspecified =>
      ⟨lines, .csv (finished ++ [selectedADC.getEnumADC])
        (Function.update codes selectedADC.getEnumADC
          (toUInt16 unspecified (rollingAverage ar average)))⟩
  | ⟨lines, .csv _ codes⟩, .channelsDone .csv => ⟨lines ++ [.csv codes], .none⟩
  | t, _ => t

def transcript (ar : Arith) : List Event → Transcript
  | [] => ⟨[], .none⟩
  | e :: h => (transcript ar h).next ar e

/-- The events that add nothing to the lines. -/
def addsNothing : Event → Bool
  | .reportStarted _ | .headerCounted _ | .startRead _ | .frameRead .. | .averaged ..
  | .channelsDone .csv => false
  | _ => true

theorem Transcript.next_of_addsNothing (ar : Arith) (t : Transcript) {e : Event}
    (nothing : addsNothing e = true) : t.next ar e = t := by
  obtain ⟨lines, u⟩ := t
  cases e with
  | reportStarted | headerCounted | startRead | frameRead | averaged => cases nothing
  | channelsDone mode =>
      cases mode with
      | csv => cases nothing
      | text => cases u <;> rfl
  | _ => cases u <;> rfl

theorem prints_of_addsNothing (ar : Arith) {e : Event} (nothing : addsNothing e = true) :
    e.prints ar = [] := by
  cases e with
  | reportStarted | headerCounted | startRead | frameRead | averaged => cases nothing
  | channelsDone mode =>
      cases mode with
      | csv => cases nothing
      | text => rfl
  | _ => rfl

theorem lineStream_append (ar : Arith) (xs ys : List Line) :
    lineStream ar (xs ++ ys) = lineStream ar xs ++ lineStream ar ys := by
  rw [lineStream, List.map_append, List.flatMap_append]
  rfl

theorem lineStream_singleton (ar : Arith) (line : Line) :
    lineStream ar [line] = println (line.text ar) :=
  List.append_nil _

/-! ### The prints of a line -/

theorem print_header (ar : Arith) (sampleCount : ℤ) (start : RFSample) :
    lineStream ar [.header sampleCount start] =
      (headerPrints sampleCount).flatten ++ [startPrint start, println []].flatten := by
  rw [lineStream_singleton]
  unfold Line.text println
  simp only [List.flatten_cons, List.flatten_nil, List.append_nil, List.nil_append,
    List.append_assoc]

theorem print_frame (ar : Arith) (selectedFrame : ℕ) (selectedSample : RFSample) :
    lineStream ar [.frame selectedFrame selectedSample, .blank] =
      (framePrints selectedFrame selectedSample).flatten := by
  have split : [Line.frame selectedFrame selectedSample, .blank] =
      [.frame selectedFrame selectedSample] ++ [.blank] := rfl
  rw [split, lineStream_append, lineStream_singleton, lineStream_singleton]
  unfold Line.text framePrints println
  simp only [List.flatten_cons, List.flatten_nil, List.append_nil, List.nil_append,
    List.append_assoc]

theorem print_channel (ar : Arith) (adc : EnumADC) (sampleAverage : Option ℚ)
    (unspecified : Word) :
    lineStream ar [.channel adc sampleAverage unspecified] =
      (printChannelAverage ar unspecified sampleAverage (adcOut adc)).flatten := by
  rw [lineStream_singleton]
  unfold Line.text printChannelAverage println
  simp only [List.dropLast_cons_cons, List.dropLast_singleton, List.flatten_cons,
    List.flatten_nil, List.append_nil, List.nil_append, List.append_assoc]

theorem print_csv (ar : Arith) (codes : EnumADC → Word) :
    lineStream ar [.csv codes] = (Unfinished.csv adcOrder codes).text ar ++ println ['\n'] := by
  rw [lineStream_singleton]
  exact List.append_assoc _ _ _

/-- One more channel of a CSV line. -/
theorem Unfinished.text_update {ar : Arith} {finished : List EnumADC} {adc : EnumADC}
    (fresh : adc ∉ finished) (codes : EnumADC → Word) (code : Word) :
    (Unfinished.csv (finished ++ [adc]) (Function.update codes adc code)).text ar =
      (Unfinished.csv finished codes).text ar ++
        (printFloat (some (codeDbm ar code)) ++ ", ".toList) := by
  have old : ∀ a ∈ finished, Function.update codes adc code a = codes a :=
    fun a ha => Function.update_of_ne (ne_of_mem_of_not_mem ha fresh) _ _
  rw [Unfinished.text, Unfinished.text, List.flatMap_append, List.flatMap_singleton,
    Function.update_self]
  refine congrArg (· ++ _) (List.flatMap_congr fun a ha => ?_)
  rw [old a ha]

/-- The flag does not show in what `printChannelAverage` prints. -/
theorem printChannelAverage_listed {ar : Arith} {enabled : EnumADC → Bool}
    {selectedADC : RFInputADC} (listed : selectedADC ∈ rfAdcList enabled) (unspecified : Word)
    (sampleAverage : Option ℚ) :
    printChannelAverage ar unspecified sampleAverage selectedADC =
      printChannelAverage ar unspecified sampleAverage (adcOut selectedADC.getEnumADC) := by
  obtain ⟨adc, -, rfl⟩ := List.mem_map.mp listed
  have own : ((adcOut adc).setEnabled (enabled adc)).getEnumADC = adc := adcOut_getEnumADC adc
  rw [own]
  rfl

/-! ### The transcript of a run -/

/-- The channels a report has still to visit. -/
def listed : Pc → List RFInputADC
  | .channels _ rest => rest
  | .summing _ selectedADC rest _ _ _ => selectedADC :: rest
  | _ => []

/-- The line begun at a place of `loop`. -/
def Begun : Pc → Unfinished → Prop
  | .headerStart, u => ∃ sampleCount, u = .header sampleCount
  | .channels .csv rest, u =>
      ∃ finished codes, u = .csv finished codes ∧
        finished ++ rest.map RFInputADC.getEnumADC = adcOrder
  | .summing .csv selectedADC rest _ _ _, u =>
      ∃ finished codes, u = .csv finished codes ∧
        finished ++ (selectedADC :: rest).map RFInputADC.getEnumADC = adcOrder
  | _, u => u = .none

/-- A history orders its transcript, whose last line is the one begun at the
program counter. -/
structure Transcribed (ar : Arith) (h : List Event) (pc : Pc) : Prop where
  text : ordered ar h = (transcript ar h).text ar
  begun : Begun pc (transcript ar h).unfinished

section Runs

variable {b : Board} {h : List Event} {s : State}

theorem run_listed (run : (firmware b).Run h s) : listed s.pc <:+ rfAdcList b.enabled := by
  refine run_invariant (I := fun _ s => listed s.pc <:+ rfAdcList b.enabled)
    List.nil_suffix ?_ ?_ run
  · intro h s i _ ih
    exact ih
  · intro h s s' e earlier ih _ control
    have flags := enabled_eq earlier
    generalize s'.pc = pc at control
    cases control with
    | printed text _ => exact ih
    | csvReport _ _ | frameRead _ _ =>
        rw [flags]
        exact List.suffix_rfl
    | averageCalled before _ | averageRead before _ =>
        rw [before] at ih
        exact ih
    | skipped before _ | averaged _ before _ =>
        rw [before] at ih
        exact (List.suffix_cons _ _).trans ih
    | _ => exact List.nil_suffix

/-- An event that adds nothing to the lines orders nothing. -/
theorem Transcribed.quiet {ar : Arith} {pc pc' : Pc} {e : Event}
    (transcribed : Transcribed ar h pc) (nothing : addsNothing e = true)
    (same : ∀ u, Begun pc u → Begun pc' u) : Transcribed ar (e :: h) pc' := by
  have lines : transcript ar (e :: h) = transcript ar h :=
    Transcript.next_of_addsNothing ar _ nothing
  refine ⟨?_, ?_⟩
  · rw [ordered, prints_of_addsNothing ar nothing, lines, transcribed.text]
    exact List.append_nil _
  · rw [lines]
    exact same _ transcribed.begun

/-- An event that orders what it adds to the transcript. -/
theorem Transcribed.order {ar : Arith} {pc pc' : Pc} {e : Event} {lines : List Line}
    {u : Unfinished} (transcribed : Transcribed ar h pc) (before : transcript ar h = ⟨lines, u⟩)
    (more : List Line) (u' : Unfinished)
    (after : Transcript.next ar ⟨lines, u⟩ e = ⟨lines ++ more, u'⟩)
    (prints : u.text ar ++ (e.prints ar).flatten = lineStream ar more ++ u'.text ar)
    (begun : Begun pc' u') : Transcribed ar (e :: h) pc' := by
  refine ⟨?_, ?_⟩
  · rw [ordered, transcribed.text, transcript, before, after, Transcript.text, Transcript.text,
      List.append_assoc, prints, lineStream_append, List.append_assoc]
  · rw [transcript, before, after]
    exact begun

/-- **A run orders the lines of its transcript.** -/
theorem run_transcript (run : (firmware b).Run h s) : Transcribed b.arith h s.pc := by
  refine run_invariant (I := fun h s => Transcribed b.arith h s.pc) ⟨rfl, rfl⟩ ?_ ?_ run
  · intro h s i _ ih
    exact ih.quiet rfl fun _ => id
  · intro h s s' e earlier ih _ control
    have members := run_listed earlier
    have begun := ih.begun
    obtain ⟨lines, u, held⟩ : ∃ lines u, transcript b.arith h = ⟨lines, u⟩ := ⟨_, _, rfl⟩
    rw [held] at begun
    generalize s'.pc = pc' at control
    cases control with
    | printed text _ => exact ih.quiet rfl fun _ => id
    | csvReport pc _ =>
        rw [pc] at begun
        obtain rfl : u = .none := begun
        exact ih.order held [] (.csv [] fun _ => 0) (by rw [List.append_nil]; rfl) rfl
          ⟨[], _, rfl, rfAdcList_getEnumADC _⟩
    | textReport pc _ =>
        rw [pc] at begun
        obtain rfl : u = .none := begun
        exact ih.order held (List.replicate 11 .blank) .none rfl rfl rfl
    | headerCounted pc =>
        rw [pc] at begun
        obtain rfl : u = .none := begun
        exact ih.order held [] (.header _) (by rw [List.append_nil]; rfl) rfl ⟨_, rfl⟩
    | startRead pc =>
        rw [pc] at begun
        obtain ⟨sampleCount, rfl⟩ := begun
        refine ih.order held [.header sampleCount _] .none rfl ?_ rfl
        rw [print_header]
        exact (List.append_nil _).symm
    | frameRead k pc =>
        rw [pc] at begun
        obtain rfl : u = .none := begun
        refine ih.order held [.frame k _, .blank] .none rfl ?_ rfl
        rw [print_frame]
        exact (List.append_nil _).symm
    | channelsDone mode pc =>
        cases mode with
        | text =>
            apply ih.quiet rfl
            rw [pc]
            exact fun _ => id
        | csv =>
            rw [pc] at begun
            obtain ⟨finished, codes, rfl, all⟩ := begun
            rw [List.map_nil, List.append_nil] at all
            subst all
            refine ih.order held [.csv codes] .none rfl ?_ rfl
            rw [print_csv]
            exact (List.append_nil _).symm
    | @averaged mode selectedADC rest n i sum unspecified pc _ =>
        rw [pc] at begun members
        have inList : selectedADC ∈ rfAdcList b.enabled := members.subset List.mem_cons_self
        cases mode with
        | text =>
            obtain rfl : u = .none := begun
            refine ih.order held [.channel selectedADC.getEnumADC _ _] .none rfl ?_ rfl
            rw [print_channel, ← printChannelAverage_listed inList]
            exact (List.append_nil _).symm
        | csv =>
            obtain ⟨finished, codes, rfl, all⟩ := begun
            have fresh : selectedADC.getEnumADC ∉ finished := by
              have nodup : (finished ++ (selectedADC :: rest).map RFInputADC.getEnumADC).Nodup := by
                rw [all]
                decide
              exact fun mem => List.disjoint_of_nodup_append nodup mem List.mem_cons_self
            refine ih.order held [] (.csv _ _) (by rw [List.append_nil]; rfl) ?_ ⟨_, _, rfl, ?_⟩
            · rw [Unfinished.text_update fresh]
              rfl
            · rw [List.append_assoc]
              exact all
    | @averageCalled mode _ _ pc _ | @averageRead mode _ _ _ _ _ pc _ =>
        apply ih.quiet rfl
        rw [pc]
        cases mode <;> exact fun _ => id
    | skipped pc _ | blinked pc | idle pc | frameSelected _ pc | reset pc | noInput pc
    | inputRead _ pc =>
        apply ih.quiet rfl
        rw [pc]
        exact fun _ => id

/-- What a run has sent and what is pending are its lines and the one begun. -/
theorem sent_lines (run : (firmware b).Run h s) :
    sent h ++ s.printing.flatten =
      lineStream b.arith (transcript b.arith h).lines ++
        (transcript b.arith h).unfinished.text b.arith := by
  rw [sent_eq run]
  exact (run_transcript run).text

end Runs

/-! ### What the lines say -/

/-- The number of lines an event completes. -/
def lineCount : Event → ℕ
  | .reportStarted .text => 11
  | .startRead _ => 1
  | .frameRead .. => 2
  | .averaged .text .. => 1
  | .channelsDone .csv => 1
  | _ => 0

/-- For each line of a history the moment that completed it, in the order of the lines. -/
def lineMoments : List Event → List (List Event)
  | [] => []
  | e :: h => lineMoments h ++ List.replicate (lineCount e) (e :: h)

theorem suffix_of_lineMoments {g h : List Event} (mem : g ∈ lineMoments h) : g <:+ h := by
  induction h with
  | nil => cases mem
  | cons e h ih =>
      rcases List.mem_append.mp mem with old | now
      · exact (ih old).trans (List.suffix_cons e h)
      · rw [List.eq_of_mem_replicate now]

/-- A channel was averaged in the window: `loop` keeps what was returned as `shown`, and
its conversion yields `unspecified` if it is undefined. -/
def Averaged (ar : Arith) (g : List Event) (mode : Mode) (adc : EnumADC) (shown : Option ℚ)
    (unspecified : Word) : Prop :=
  ∃ selectedADC average, .averaged mode selectedADC average unspecified ∈ window g ∧
    selectedADC.getEnumADC = adc ∧ shown = rollingAverage ar average

/-- The line completed at a moment says what the event there and the window found. -/
inductive Line.SaidAt (ar : Arith) : List Event → Line → Prop where
  | opened (g : List Event) : SaidAt ar (.reportStarted .text :: g) .blank
  | header {sampleCount : ℤ} {start : RFSample} {g : List Event} :
      .headerCounted sampleCount ∈ window g →
      SaidAt ar (.startRead start :: g) (.header sampleCount start)
  | frame (selectedFrame : ℕ) (selectedSample : RFSample) (g : List Event) :
      SaidAt ar (.frameRead selectedFrame selectedSample :: g) (.frame selectedFrame selectedSample)
  | closed (selectedFrame : ℕ) (selectedSample : RFSample) (g : List Event) :
      SaidAt ar (.frameRead selectedFrame selectedSample :: g) .blank
  | channel (selectedADC : RFInputADC) (average : Option ℚ) (unspecified : Word)
      (g : List Event) :
      SaidAt ar (.averaged .text selectedADC average unspecified :: g)
        (.channel selectedADC.getEnumADC (rollingAverage ar average) unspecified)
  | csv {codes : EnumADC → Word} {g : List Event} :
      (∀ adc, ∃ shown unspecified,
        Averaged ar g .csv adc shown unspecified ∧ codes adc = toUInt16 unspecified shown) →
      SaidAt ar (.channelsDone .csv :: g) (.csv codes)

theorem saidAt_opened (ar : Arith) (g : List Event) (n : ℕ) :
    List.Forall₂ (Line.SaidAt ar) (List.replicate n (.reportStarted .text :: g))
      (List.replicate n .blank) := by
  induction n with
  | zero => exact .nil
  | succ n ih => exact .cons (.opened g) ih

/-- What has been printed of a line says what the window found. -/
def Unfinished.Said (ar : Arith) (g : List Event) : Unfinished → Prop
  | .none => True
  | .header sampleCount => .headerCounted sampleCount ∈ window g
  | .csv finished codes => ∀ adc ∈ finished, ∃ shown unspecified,
      Averaged ar g .csv adc shown unspecified ∧ codes adc = toUInt16 unspecified shown

/-- The lines of a history, one by one, and the one begun say what its events found. -/
structure Said (ar : Arith) (h : List Event) : Prop where
  lines : List.Forall₂ (Line.SaidAt ar) (lineMoments h) (transcript ar h).lines
  unfinished : (transcript ar h).unfinished.Said ar h

section Said

variable {ar : Arith} {h : List Event}

theorem Averaged.cons {mode : Mode} {adc : EnumADC} {shown : Option ℚ} {unspecified : Word}
    (averaged : Averaged ar h mode adc shown unspecified) {e : Event} (he : e ≠ .reset) :
    Averaged ar (e :: h) mode adc shown unspecified := by
  obtain ⟨selectedADC, average, mem, rest⟩ := averaged
  refine ⟨selectedADC, average, ?_, rest⟩
  rw [window_cons he]
  exact List.mem_cons_of_mem _ mem

theorem Unfinished.Said.cons {u : Unfinished} (said : u.Said ar h) {e : Event}
    (he : e ≠ .reset) : u.Said ar (e :: h) := by
  cases u with
  | none => trivial
  | header sampleCount =>
      show _ ∈ window (e :: h)
      rw [window_cons he]
      exact List.mem_cons_of_mem _ said
  | csv finished codes =>
      intro adc mem
      obtain ⟨shown, unspecified, averaged, code⟩ := said adc mem
      exact ⟨shown, unspecified, averaged.cons he, code⟩

/-- An event that adds nothing to the lines. -/
theorem Said.quiet {e : Event} (said : Said ar h) (nothing : addsNothing e = true)
    (count : lineCount e = 0) (he : e ≠ .reset) : Said ar (e :: h) := by
  have same : transcript ar (e :: h) = transcript ar h :=
    Transcript.next_of_addsNothing ar _ nothing
  refine ⟨?_, ?_⟩
  · rw [lineMoments, count, same]
    simpa using said.lines
  · rw [same]
    exact said.unfinished.cons he

/-- An event that completes lines that say what it found. -/
theorem Said.complete {e : Event} {lines : List Line} {u : Unfinished} (said : Said ar h)
    (before : transcript ar h = ⟨lines, u⟩) (more : List Line) (u' : Unfinished)
    (after : Transcript.next ar ⟨lines, u⟩ e = ⟨lines ++ more, u'⟩)
    (own : List.Forall₂ (Line.SaidAt ar) (List.replicate (lineCount e) (e :: h)) more)
    (begun : u'.Said ar (e :: h)) : Said ar (e :: h) := by
  have next : transcript ar (e :: h) = ⟨lines ++ more, u'⟩ := by
    rw [transcript, before, after]
  have old := said.lines
  rw [before] at old
  refine ⟨?_, ?_⟩
  · rw [next]
    exact List.rel_append old own
  · rw [next]
    exact begun

end Said

section Runs

variable {b : Board} {h : List Event} {s : State}

/-- **The lines of a run say what its events found**, line by line. -/
theorem run_said (run : (firmware b).Run h s) : Said b.arith h := by
  refine run_invariant (I := fun h _ => Said b.arith h) ⟨.nil, trivial⟩ ?_ ?_ run
  · intro h s i _ ih
    exact ih.quiet rfl rfl nofun
  · intro h s s' e earlier ih _ control
    have begun := (run_transcript earlier).begun
    have said := ih.unfinished
    obtain ⟨lines, u, held⟩ : ∃ lines u, transcript b.arith h = ⟨lines, u⟩ := ⟨_, _, rfl⟩
    rw [held] at begun said
    generalize s'.pc = pc' at control
    cases control with
    | csvReport pc _ =>
        rw [pc] at begun
        obtain rfl : u = .none := begun
        exact ih.complete held [] (.csv [] fun _ => 0) (by rw [List.append_nil]; rfl) .nil nofun
    | textReport pc _ =>
        rw [pc] at begun
        obtain rfl : u = .none := begun
        exact ih.complete held (List.replicate 11 .blank) .none rfl (saidAt_opened _ h 11) trivial
    | headerCounted pc =>
        rw [pc] at begun
        obtain rfl : u = .none := begun
        exact ih.complete held [] (.header _) (by rw [List.append_nil]; rfl) .nil
          List.mem_cons_self
    | startRead pc =>
        rw [pc] at begun
        obtain ⟨sampleCount, rfl⟩ := begun
        exact ih.complete held [.header sampleCount _] .none rfl (.cons (.header said) .nil) trivial
    | frameRead k pc =>
        rw [pc] at begun
        obtain rfl : u = .none := begun
        exact ih.complete held [.frame k _, .blank] .none rfl
          (.cons (.frame k _ h) (.cons (.closed k _ h) .nil)) trivial
    | channelsDone mode pc =>
        cases mode with
        | text => exact ih.quiet rfl rfl nofun
        | csv =>
            rw [pc] at begun
            obtain ⟨finished, codes, rfl, all⟩ := begun
            rw [List.map_nil, List.append_nil] at all
            subst all
            exact ih.complete held [.csv codes] .none rfl
              (.cons (.csv fun adc => said adc (mem_adcOrder adc)) .nil) trivial
    | @averaged mode selectedADC rest n i sum unspecified pc _ =>
        rw [pc] at begun
        cases mode with
        | text =>
            obtain rfl : u = .none := begun
            exact ih.complete held [.channel selectedADC.getEnumADC _ _] .none rfl
              (.cons (.channel selectedADC _ _ h) .nil) trivial
        | csv =>
            obtain ⟨finished, codes, rfl, -⟩ := begun
            refine ih.complete held [] (.csv _ _) (by rw [List.append_nil]; rfl) .nil ?_
            intro adc mem
            by_cases now : adc = selectedADC.getEnumADC
            · subst now
              exact ⟨_, unspecified, ⟨selectedADC, _, List.mem_cons_self, rfl, rfl⟩,
                Function.update_self _ _ _⟩
            · have earlier : adc ∈ finished := (List.mem_append.mp mem).resolve_right
                fun last => now (List.mem_singleton.mp last)
              obtain ⟨shown, u, averaged, code⟩ := said adc earlier
              exact ⟨shown, u, averaged.cons nofun, (Function.update_of_ne now _ _).trans code⟩
    | reset pc =>
        rw [pc] at begun
        obtain rfl : u = .none := begun
        exact ih.complete held [] .none (by rw [List.append_nil]; rfl) .nil trivial
    | printed _ _ | averageCalled _ _ | averageRead _ _ | skipped _ _ | blinked _ | idle _
    | frameSelected _ _ | noInput _ | inputRead _ _ => exact ih.quiet rfl rfl nofun

/-- `calculateChannelAverage` uses the channel of its argument only. -/
theorem calculateChannelAverage_adcOut (ar : Arith) (sampleBuffer : ℕ → RFSample)
    (sampleCount : ℤ) (selectedADC : RFInputADC) :
    calculateChannelAverage ar sampleBuffer sampleCount selectedADC =
      calculateChannelAverage ar sampleBuffer sampleCount (adcOut selectedADC.getEnumADC) := by
  rw [calculateChannelAverage, calculateChannelAverage, calculateChannelSum, calculateChannelSum,
    adcOut_getEnumADC]

/-- An average of the window is that of the samples its call counted. -/
theorem Averaged.counted {mode : Mode} {adc : EnumADC} {shown : Option ℚ} {unspecified : Word}
    (run : (firmware b).Run h s) (fits : Fits h)
    (averaged : Averaged b.arith h mode adc shown unspecified) :
    ∃ n : ℕ, CountedBy h (.averageCalled mode adc n) n ∧
      shown = rollingAverage b.arith
        (calculateChannelAverage b.arith (windowBuffer h) n (adcOut adc)) := by
  obtain ⟨selectedADC, average, mem, rfl, rfl⟩ := averaged
  obtain ⟨later, g, rfl, quiet⟩ := split_window mem
  obtain ⟨s', atReturn⟩ := run.suffix (List.suffix_append later _)
  have fitsReturn : Fits g := Fits.tail (fits.suffix (List.suffix_append later _))
  obtain ⟨mid, earlier, split, same, value⟩ := averaged_eq atReturn fitsReturn
  have counted : CountedBy g (.averageCalled mode selectedADC.getEnumADC (windowCount earlier))
      (windowCount earlier) := ⟨mid, earlier, split, same, rfl⟩
  -- the events after the return are of the same window
  have after : ∀ e ∈ later ++ [.averaged mode selectedADC average unspecified], e ≠ .reset := by
    intro e he
    rcases List.mem_append.mp he with he | he
    · exact quiet e he
    · rw [List.mem_singleton.mp he]
      exact Event.noConfusion
  refine ⟨windowCount earlier, ?_, ?_⟩
  · simpa using counted.append after
  · refine congrArg _ (value.trans ?_)
    rw [calculateChannelAverage_adcOut]
    refine congrArg (averageOf b.arith · _) (calculateChannelSum_congr (fun p hp => ?_) _)
    have inside := counted.le rfl Event.noConfusion
    rw [← windowBuffer_append after g (p := p) (by omega), List.append_assoc]
    rfl

/-! ### Runs in CSV mode -/

/-- A place that no text report leads to. -/
def CsvPlace : Pc → Prop
  | .headerCount | .headerStart | .randomFrame | .frame _ => False
  | .channels mode _ | .summing mode .. => mode = .csv
  | _ => True

theorem run_csvPlace (run : (firmware b).Run h s) (csv : .reportStarted .text ∉ h) :
    CsvPlace s.pc := by
  refine run_invariant (I := fun h s => .reportStarted .text ∉ h → CsvPlace s.pc)
    (fun _ => trivial) ?_ ?_ run csv
  · intro h s i _ ih csv
    exact ih (List.not_mem_of_not_mem_cons csv)
  · intro h s s' e _ ih _ control csv
    obtain ⟨other, csv⟩ := List.ne_and_not_mem_of_not_mem_cons csv
    have place := ih csv
    generalize s'.pc = pc' at control
    cases control with
    | printed text _ => exact place
    | csvReport _ _ => rfl
    | textReport _ _ => exact absurd rfl other
    | averageCalled pc _ | averageRead pc _ | averaged _ pc _ | skipped pc _ =>
        rw [pc] at place
        exact place
    | headerCounted pc | startRead pc | frameSelected _ pc | frameRead _ pc =>
        rw [pc] at place
        exact place.elim
    | _ => trivial

/-- The events of a text report that complete a line. -/
def Event.ofText : Event → Bool
  | .startRead _ | .frameRead .. | .averaged .text .. => true
  | _ => false

/-- They come from places that no CSV report leads to. -/
theorem not_ofText {e : Event} (run : (firmware b).Run (e :: h) s)
    (csv : .reportStarted .text ∉ h) (text : Event.ofText e = true) : False := by
  obtain ⟨s', before, ⟨i, rfl⟩ | ⟨-, control⟩⟩ := last_step run
  · cases text
  · have place := run_csvPlace before csv
    generalize s.pc = pc at control
    cases control with
    | startRead pc | frameRead _ pc =>
        rw [pc] at place
        exact place
    | @averaged mode _ _ _ _ _ _ pc _ =>
        rw [pc] at place
        obtain rfl : mode = .csv := place
        cases text
    | _ => cases text

/-- The report of a moment: each channel's window is the moment's, as far as the count of
its call, and its undefined conversion yields what it did there. -/
def CsvReport.At (moment : List Event) (r : CsvReport) : Prop :=
  ∃ g, moment = .channelsDone .csv :: g ∧
    ∀ adc, (r.windows adc).sampleBuffer = windowBuffer g ∧
      (∃ n : ℕ, (r.windows adc).sampleCount = n ∧ CountedBy g (.averageCalled .csv adc n) n) ∧
      ∃ selectedADC average, .averaged .csv selectedADC average (r.unspecified adc) ∈ window g ∧
        selectedADC.getEnumADC = adc

/-- A line that a CSV report completes is the report of its moment. -/
theorem csvReport_of_said {codes : EnumADC → Word}
    (run : (firmware b).Run h s) (fits : Fits h) (sampled : SampledBeforeUse h)
    (said : ∀ adc, ∃ shown unspecified,
      Averaged b.arith h .csv adc shown unspecified ∧ codes adc = toUInt16 unspecified shown) :
    ∃ r : CsvReport, CsvReport.At (.channelsDone .csv :: h) r ∧ codes = r.code b.arith := by
  choose shown unspecified averaged code using said
  choose n counted value using fun adc => (averaged adc).counted run fits
  have positive (adc : EnumADC) : 0 < (n adc : ℤ) :=
    (nonemptyReports_of_sampled run fits sampled).averages _ _ _ (counted adc).mem
  refine ⟨⟨fun adc => ⟨windowBuffer h, n adc, positive adc⟩, unspecified⟩, ⟨h, rfl, fun adc => ?_⟩,
    funext fun adc => ?_⟩
  · obtain ⟨selectedADC, average, mem, own, -⟩ := averaged adc
    exact ⟨rfl, ⟨n adc, rfl, counted adc⟩, selectedADC, average, mem, own⟩
  · rw [code, value]
    rfl

/-- In a run in CSV mode a line completed is a report. -/
theorem csvReport_of_saidAt {moment : List Event} {line : Line} (run : (firmware b).Run h s)
    (fits : Fits h) (sampled : SampledBeforeUse h) (csv : .reportStarted .text ∉ h)
    (suffix : moment <:+ h) (said : Line.SaidAt b.arith moment line) :
    ∃ r : CsvReport, CsvReport.At moment r ∧ line = .csv (r.code b.arith) := by
  have csvMoment : .reportStarted .text ∉ moment := fun mem => csv (suffix.subset mem)
  obtain ⟨s', atMoment⟩ := run.suffix suffix
  cases said with
  | opened g => exact absurd List.mem_cons_self csvMoment
  | csv said =>
      obtain ⟨s'', before, -⟩ := last_step atMoment
      obtain ⟨r, report, rfl⟩ := csvReport_of_said before (Fits.tail (fits.suffix suffix))
        (sampled.suffix suffix).2 said
      exact ⟨r, report, rfl⟩
  | header _ | frame _ _ _ | closed _ _ _ | channel _ _ _ _ =>
      exact (not_ofText atMoment (List.not_mem_of_not_mem_cons csvMoment) rfl).elim

theorem exists_reports {ar : Arith} {moments : List (List Event)} {lines : List Line}
    (each : List.Forall₂ (fun moment line =>
      ∃ r : CsvReport, CsvReport.At moment r ∧ line = .csv (r.code ar)) moments lines) :
    ∃ reports : List CsvReport, List.Forall₂ CsvReport.At moments reports ∧
      lines = reports.map fun r => .csv (r.code ar) := by
  induction each with
  | nil => exact ⟨[], .nil, rfl⟩
  | cons first _ ih =>
      obtain ⟨r, report, rfl⟩ := first
      obtain ⟨reports, rest, rfl⟩ := ih
      exact ⟨r :: reports, .cons report rest, rfl⟩

/-- **The lines of a run in CSV mode are the reports of their moments.** -/
theorem run_csvReports (run : (firmware b).Run h s) (fits : Fits h) (sampled : SampledBeforeUse h)
    (csv : .reportStarted .text ∉ h) :
    ∃ reports : List CsvReport, List.Forall₂ CsvReport.At (lineMoments h) reports ∧
      (transcript b.arith h).lines = reports.map fun r => .csv (r.code b.arith) := by
  have said := (List.forall₂_and_left _ _).mpr
    ⟨fun _ => suffix_of_lineMoments (h := h), (run_said run).lines⟩
  exact exists_reports (said.imp fun _ _ line =>
    csvReport_of_saidAt run fits sampled csv line.1 line.2)

end Runs

/-- **End to end.** A run in CSV mode sends, for every report completed, the report over
the window of its moment, and a line begun; the plotter reads the reports back. -/
theorem csvRun_roundTrip (b : Board) {ε : ℚ} (accurate : b.arith.Accurate ε)
    (small : ε < 9 / 10000) (as : List Action) (fits : Fits (history b as))
    (sampled : SampledBeforeUse (history b as)) (csv : .reportStarted .text ∉ history b as) :
    ∃ reports : List CsvReport,
      List.Forall₂ CsvReport.At (lineMoments (history b as)) reports ∧
        sent (history b as) ++ (finalState b as).printing.flatten =
          csvStream b.arith reports ++
            (transcript b.arith (history b as)).unfinished.text b.arith ∧
        ∀ offset, RoundTrip b.arith (5 / 1000 + ε) reports offset := by
  have run := run_history b as
  obtain ⟨reports, moments, lines⟩ := run_csvReports run fits sampled csv
  refine ⟨reports, moments, ?_, fun offset => roundTrip_of_accurate accurate small reports offset⟩
  rw [sent_lines run, lines, csvStream_eq]

/-- Two interrupts with different samples, and two CSV reports with a third between them. -/
def csvReportRun : List Action :=
  .fastMeasure (steadyInterrupt 2) :: .fastMeasure (steadyInterrupt 4) :: loops 30 ++
    .fastMeasure (steadyInterrupt 6) :: loops 25

/-- The board's arithmetic on two reports. -/
theorem csvRun_roundTrip_csvReportRun :
    ∃ reports : List CsvReport, reports.length = 2 ∧
      List.Forall₂ CsvReport.At (lineMoments (history sourceBoard csvReportRun)) reports ∧
        sent (history sourceBoard csvReportRun) ++
            (finalState sourceBoard csvReportRun).printing.flatten =
          csvStream .ieee reports ++
            (transcript .ieee (history sourceBoard csvReportRun)).unfinished.text .ieee ∧
        ∀ offset, RoundTrip .ieee (5 / 1000 + 7 / 100000) reports offset := by
  have fits : Fits (history sourceBoard csvReportRun) := by
    apply fits_history
    rw [rfBufferLength_eq]
    decide +kernel
  have sampled : SampledBeforeUse (history sourceBoard csvReportRun) := by decide +kernel
  have modes : (history sourceBoard csvReportRun).filterMap Event.startedMode? = [.csv, .csv] := by
    decide +kernel
  have csv : .reportStarted .text ∉ history sourceBoard csvReportRun := by
    intro mem
    have started : .text ∈ (history sourceBoard csvReportRun).filterMap Event.startedMode? :=
      List.mem_filterMap.mpr ⟨_, mem, rfl⟩
    rw [modes] at started
    exact absurd started (by decide)
  have completed : (lineMoments (history sourceBoard csvReportRun)).length = 2 := by
    decide +kernel
  obtain ⟨reports, moments, stream⟩ := csvRun_roundTrip sourceBoard ieee_accurate (by norm_num)
    csvReportRun fits sampled csv
  exact ⟨reports, moments.length_eq.symm.trans completed, moments, stream⟩

end RFPowerDetector.Host
