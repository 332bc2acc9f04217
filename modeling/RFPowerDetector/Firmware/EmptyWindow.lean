/-
Empty windows.

Nothing between a reset and the next report's first division tests the length.
`Opened` says at which places of `loop` a sample of the window has been used;
`run_opened` keeps it non-empty from the first use of each report on, provided
an interrupt comes before that use. `nonempty_iff` says that this is exactly what
the averages, the start sample and the random frame need.
-/

import RFPowerDetector.Firmware.Inclusion
import RFPowerDetector.Firmware.Stored

namespace RFPowerDetector.Firmware

open Transition

/-! ### Reports and their first use of the window -/

/-- A sample read at a position is the one the current window has there. -/
structure OfWindow (h : List Event) (i : ℕ) (sample : RFSample) : Prop where
  inside : i < windowCount h
  sample : sample = windowBuffer h i

/-- Every average has a count above zero and is a number, the start sample that
is printed is the first of the current window, and the random frame is one of it. -/
structure NonemptyReports (h : List Event) : Prop where
  averages : ∀ mode adc n, .averageCalled mode adc n ∈ h → 0 < n
  numbers : ∀ mode adc average u, .averaged mode adc average u ∈ h → average ≠ none
  start : ∀ sample g, .startRead sample :: g <:+ h → OfWindow g 0 sample
  frame : ∀ k sample g, .frameRead k sample :: g <:+ h → OfWindow g k sample

/-- The event with which a report first uses the window: the start sample of a
text report, channel A's count of a CSV report. -/
def Event.opensWindow : Event → Bool
  | .startRead _ => true
  | .averageCalled .csv .adcA _ => true
  | _ => false

/-- Before every report's first use of the window, an interrupt has come since
the last reset. -/
def SampledBeforeUse : List Event → Prop
  | [] => True
  | e :: h => (e.opensWindow = true → 0 < windowCount h) ∧ SampledBeforeUse h

instance decidableSampledBeforeUse : DecidablePred SampledBeforeUse
  | [] => inferInstanceAs (Decidable True)
  | e :: h =>
      have := decidableSampledBeforeUse h
      inferInstanceAs (Decidable ((e.opensWindow = true → 0 < windowCount h) ∧ SampledBeforeUse h))

/-- A run whose second report follows its first at once. -/
def secondReport : List Action := .fastMeasure quietInterrupt :: loops 29

/-- The second report averages an empty window. -/
theorem second_report_empty :
    ¬ ∀ (b : Board) (as : List Action), NonemptyReports (history b as) := by
  intro claim
  have called : .averageCalled .csv .adcA 0 ∈ history sourceBoard secondReport :=
    List.mem_of_getElem? (i := 0) rfl
  exact absurd ((claim sourceBoard secondReport).averages _ _ _ called) (by decide)

theorem SampledBeforeUse.suffix {g h : List Event} (sampled : SampledBeforeUse h)
    (suffix : g <:+ h) : SampledBeforeUse g := by
  induction h with
  | nil => exact List.suffix_nil.mp suffix ▸ sampled
  | cons e h ih =>
      rcases List.suffix_cons_iff.mp suffix with rfl | suffix
      · exact sampled
      · exact ih sampled.2 suffix

/-- Where a report has used the window, the window is not empty. -/
def Opened (h : List Event) : Pc → Prop
  | .channels .csv rest => rest.map RFInputADC.getEnumADC = adcOrder ∨ 0 < windowCount h
  | .channels .text _ | .randomFrame | .frame _ | .summing .. => 0 < windowCount h
  | _ => True

theorem Opened.mono {g h : List Event} {pc : Pc} (opened : Opened h pc)
    (le : windowCount h ≤ windowCount g) : Opened g pc := by
  cases pc with
  | channels mode rest =>
      cases mode with
      | csv => exact opened.imp id fun some => some.trans_le le
      | text => exact Nat.lt_of_lt_of_le opened le
  | randomFrame => exact Nat.lt_of_lt_of_le opened le
  | frame k => exact Nat.lt_of_lt_of_le opened le
  | summing => exact Nat.lt_of_lt_of_le opened le
  | _ => trivial

section Nonempty

variable {b : Board} {h : List Event} {s : State}

theorem run_opened (run : (firmware b).Run h s) (sampled : SampledBeforeUse h) :
    Opened h s.pc := by
  refine window_invariant (I := fun h s => SampledBeforeUse h → Opened h s.pc) (fun _ => trivial)
    ?_ ?_ ?_ run sampled
  · intro h s i _ ih sampled
    exact (ih sampled.2).mono (Nat.le_succ _)
  · intro h s s' _ _ _ control _
    generalize s'.pc = pc' at control
    cases control
    trivial
  · intro h s s' e _ ih he frame control sampled
    have old := ih sampled.2
    have same : windowCount h ≤ windowCount (e :: h) := (windowCount_cons he frame.call h).ge
    generalize s'.pc = pc' at control
    cases control with
    | printed text _ => exact old.mono same
    | csvReport _ _ => exact .inl (rfAdcList_getEnumADC _)
    | startRead _ => exact (sampled.1 rfl).trans_le same
    | frameSelected _ pc | frameRead _ pc | skipped pc _ | averageRead pc _ =>
        rw [pc] at old
        exact Nat.lt_of_lt_of_le old same
    | @averageCalled mode adc rest pc _ =>
        rw [pc] at old
        refine Nat.lt_of_lt_of_le ?_ same
        cases mode with
        | text => exact old
        | csv =>
            rcases old with first | some
            · have isA : adc.getEnumADC = .adcA := (List.cons.inj first).1
              exact sampled.1 (by rw [isA]; rfl)
            · exact some
    | @averaged mode adc rest n i sum _ pc _ =>
        rw [pc] at old
        cases mode with
        | csv => exact .inr (Nat.lt_of_lt_of_le old same)
        | text => exact Nat.lt_of_lt_of_le old same
    | _ => trivial

/-- A count read after an interrupt of the window is above zero. -/
theorem averageCalled_pos {mode : Mode} {adc : EnumADC} {n : ℤ}
    (run : (firmware b).Run (.averageCalled mode adc n :: h) s) (fits : Fits h)
    (sampled : SampledBeforeUse (.averageCalled mode adc n :: h)) : 0 < n := by
  have opened := run_opened run sampled
  have count := count_eq run fits rfl
  obtain ⟨s', -, ⟨i, impossible⟩ | ⟨-, control⟩⟩ := last_step run
  · cases impossible
  · generalize s.pc = pc at control opened
    cases control with
    | averageCalled _ _ =>
        have some : 0 < windowCount h := opened
        omega

/-- The start sample read after an interrupt of the window is its first. -/
theorem startRead_ofWindow {sample : RFSample}
    (run : (firmware b).Run (.startRead sample :: h) s) (fits : Fits h)
    (sampled : SampledBeforeUse (.startRead sample :: h)) : OfWindow h 0 sample := by
  have nonempty : 0 < windowCount h := sampled.1 rfl
  obtain ⟨s', earlier, ⟨i, impossible⟩ | ⟨-, control⟩⟩ := last_step run
  · cases impossible
  · generalize s.pc = pc at control
    cases control with
    | startRead _ => exact ⟨nonempty, buffer_eq earlier fits nonempty⟩

/-- The frame read after an interrupt of the window is one of the window. -/
theorem frameRead_ofWindow {k : ℕ} {sample : RFSample}
    (run : (firmware b).Run (.frameRead k sample :: h) s) (fits : Fits h)
    (sampled : SampledBeforeUse h) : OfWindow h k sample := by
  obtain ⟨s', earlier, ⟨i, impossible⟩ | ⟨-, control⟩⟩ := last_step run
  · cases impossible
  · have opened := run_opened earlier sampled
    have counts := countsInWindow earlier fits
    generalize s.pc = pc at control
    cases control with
    | frameRead _ pc =>
        rw [pc] at opened counts
        simp only [Opened, CountsInWindow] at opened counts
        have inside : k < windowCount h := by omega
        exact ⟨inside, buffer_eq earlier fits inside⟩

theorem averageOf_ne_none (ar : Arith) (channelSum : ℚ) {n : ℤ} (pos : 0 < n) :
    averageOf ar channelSum n ≠ none := by
  rw [averageOf, if_neg pos.ne']
  exact nofun

theorem nonemptyReports_of_sampled (run : (firmware b).Run h s) (fits : Fits h)
    (sampled : SampledBeforeUse h) : NonemptyReports h := by
  have averages : ∀ mode adc n, .averageCalled mode adc n ∈ h → 0 < n := by
    intro mode adc n mem
    obtain ⟨g, suffix⟩ := suffix_of_mem mem
    obtain ⟨s', atCall⟩ := run.suffix suffix
    exact averageCalled_pos atCall (Fits.tail (fits.suffix suffix)) (sampled.suffix suffix)
  refine ⟨averages, ?_, ?_, ?_⟩
  · intro mode adc average u mem
    obtain ⟨g, suffix⟩ := suffix_of_mem mem
    obtain ⟨s', atAverage⟩ := run.suffix suffix
    obtain ⟨mid, earlier, rfl, -, rfl⟩ := averaged_eq atAverage (Fits.tail (fits.suffix suffix))
    refine averageOf_ne_none _ _ (averages mode adc.getEnumADC _ ?_)
    exact suffix.subset (List.mem_cons_of_mem _ (List.mem_append_right _ List.mem_cons_self))
  · intro sample g suffix
    obtain ⟨s', atRead⟩ := run.suffix suffix
    exact startRead_ofWindow atRead (Fits.tail (fits.suffix suffix)) (sampled.suffix suffix)
  · intro k sample g suffix
    obtain ⟨s', atRead⟩ := run.suffix suffix
    exact frameRead_ofWindow atRead (Fits.tail (fits.suffix suffix)) (sampled.suffix suffix).2

theorem sampled_of_nonemptyReports (run : (firmware b).Run h s) (fits : Fits h)
    (nonempty : NonemptyReports h) : SampledBeforeUse h := by
  induction h generalizing s with
  | nil => trivial
  | cons e h ih =>
      obtain ⟨s', earlier, -⟩ := last_step run
      have tail : NonemptyReports h :=
        ⟨fun mode adc n mem => nonempty.averages mode adc n (List.mem_cons_of_mem _ mem),
          fun mode adc avg u mem => nonempty.numbers mode adc avg u (List.mem_cons_of_mem _ mem),
          fun sample g suffix => nonempty.start sample g (suffix.trans (List.suffix_cons _ _)),
          fun k sample g suffix => nonempty.frame k sample g (suffix.trans (List.suffix_cons _ _))⟩
      refine ⟨fun opens => ?_, ih earlier fits.tail tail⟩
      cases e with
      | startRead sample => exact (nonempty.start sample h List.suffix_rfl).inside
      | averageCalled mode adc n =>
          have pos := nonempty.averages mode adc n List.mem_cons_self
          have count := count_eq run fits.tail rfl
          omega
      | _ => cases opens

end Nonempty

/-- **No report on an empty window.** In a run whose windows fit the buffer,
every average is a number over a positive count and every printed sample is of
the current window, if and only if every report first uses the window after an
interrupt has come since the last reset. -/
theorem nonempty_iff (b : Board) (as : List Action) (fits : Fits (history b as)) :
    NonemptyReports (history b as) ↔ SampledBeforeUse (history b as) :=
  ⟨sampled_of_nonemptyReports (run_history b as) fits,
    nonemptyReports_of_sampled (run_history b as) fits⟩

/-- A CSV report on two samples, an `M`, and a text report on two more. -/
def twoReports : List Action :=
  .fastMeasure (steadyInterrupt 2) :: .fastMeasure (steadyInterrupt 4) :: loops 29 ++
    .loop keyAnswers :: .fastMeasure (steadyInterrupt 6) :: .fastMeasure (steadyInterrupt 8) ::
      List.replicate 53 (.loop ⟨true, 1, 0, none⟩)

theorem fits_twoReports : Fits (history sourceBoard twoReports) := by
  apply fits_history
  rw [rfBufferLength_eq]
  decide

theorem sampled_twoReports : SampledBeforeUse (history sourceBoard twoReports) := by
  decide +kernel

set_option maxRecDepth 2000 in
/-- The frame drawn in the text report is the second sample of its window. -/
theorem nonempty_twoReports :
    NonemptyReports (history sourceBoard twoReports) ∧
      ∃ sample g, .frameRead 1 sample :: g <:+ history sourceBoard twoReports ∧
        sample = windowBuffer g 1 ∧ windowCount g = 2 := by
  have nonempty := (nonempty_iff sourceBoard twoReports fits_twoReports).mpr sampled_twoReports
  refine ⟨nonempty, ?_⟩
  obtain ⟨sample, moment⟩ : ∃ sample, .frameRead 1 sample ::
      (history sourceBoard twoReports).drop 33 <:+ history sourceBoard twoReports :=
    ⟨_, (history sourceBoard twoReports).take 32, rfl⟩
  exact ⟨sample, _, moment, (nonempty.frame 1 sample _ moment).sample, rfl⟩

end RFPowerDetector.Firmware
