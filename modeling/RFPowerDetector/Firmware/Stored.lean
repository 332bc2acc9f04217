/-
What the buffer holds between windows, and what a text report prints of it.

A reset sets the length to 0 and clears nothing, so the entries of the last window stay
until interrupts overwrite them.

* `buffer_stored`: every entry is the sample last stored at its index, or what the
  memory held at the start; no entry mixes two samples.
* `printed_samples`: where the windows fit, the start sample and the random frame of a
  text report are of the last window that has samples: the current one, or the one
  before if the report is on an empty window.
-/

import RFPowerDetector.Firmware.Window

namespace RFPowerDetector.Firmware

open Transition

/-! ### The sample last stored -/

/-- The last call that stored at an index. -/
def latestCall (p : ℕ) (h : List Event) : Option Call := (calls h).find? fun call => call.index = p

/-- What the history leaves at an index. -/
def stored (b : Board) (h : List Event) (p : ℕ) : RFSample :=
  ((latestCall p h).map Call.sample).getD (b.memory p)

theorem stored_sampled (b : Board) (call : Call) (h : List Event) :
    stored b (.sampled call :: h) = Function.update (stored b h) call.index call.sample := by
  funext p
  have all : calls (.sampled call :: h) = call :: calls h := rfl
  by_cases own : call.index = p
  · subst own
    rw [Function.update_self, stored, latestCall, all, List.find?_cons_of_pos (by simp)]
    rfl
  · rw [Function.update_of_ne (Ne.symm own), stored, latestCall, all,
      List.find?_cons_of_neg (by simpa using own)]
    rfl

theorem stored_cons {e : Event} (call : e.call? = none) (b : Board) (h : List Event) :
    stored b (e :: h) = stored b h := by
  funext p
  rw [stored, latestCall, calls_cons call]
  rfl

theorem run_stored {b : Board} {h : List Event} {s : State} (run : (firmware b).Run h s) :
    s.adcSampleBuffer = stored b h := by
  refine run_invariant (I := fun h s => s.adcSampleBuffer = stored b h) rfl ?_ ?_ run
  · intro h s i _ ih
    rw [stored_sampled, ← ih]
    rfl
  · intro h s s' e _ ih frame _
    rw [stored_cons frame.call, frame.buffer, ih]

/-- **The buffer is a store.** Under every schedule and for every index, inside the array
or not, an entry is the whole sample of the last call that stored there. -/
theorem buffer_stored (b : Board) (as : List Action) (p : ℕ) :
    (finalState b as).adcSampleBuffer p = b.memory p ∧
        (∀ call ∈ calls (history b as), call.index ≠ p) ∨
      ∃ later call earlier, calls (history b as) = later ++ call :: earlier ∧
        call.index = p ∧ (∀ c ∈ later, c.index ≠ p) ∧
        (finalState b as).adcSampleBuffer p = call.sample := by
  rw [run_stored (run_history b as), stored, latestCall]
  cases found : (calls (history b as)).find? fun call => call.index = p with
  | none =>
      refine .inl ⟨rfl, fun call hcall => ?_⟩
      simpa using List.find?_eq_none.mp found call hcall
  | some call =>
      obtain ⟨own, later, earlier, split, others⟩ := List.find?_eq_some_iff_append.mp found
      refine .inr ⟨later, call, earlier, split, by simpa using own, fun c hc => ?_, rfl⟩
      simpa using others c hc

/-! ### The last window with samples -/

/-- The calls of the last window that has any, in the order they were made. -/
def lastWindow : List Event → List Call
  | [] => []
  | .sampled call :: h => if windowCount h = 0 then [call] else lastWindow h ++ [call]
  | _ :: h => lastWindow h

theorem lastWindow_cons {e : Event} (call : e.call? = none) (h : List Event) :
    lastWindow (e :: h) = lastWindow h := by
  cases e with
  | sampled call' => cases call
  | _ => rfl

/-- The samples of the last window that has any, by position. -/
def lastSample (b : Board) (h : List Event) (p : ℕ) : RFSample :=
  ((lastWindow h).map Call.sample).getD p (b.memory p)

/-- The buffer shows the last window that has samples. -/
structure Shows (b : Board) (h : List Event) (s : State) : Prop where
  /-- the current window, if it has samples -/
  current : windowCount h ≠ 0 → (lastWindow h).length = windowCount h
  samples : (List.range (lastWindow h).length).map s.adcSampleBuffer =
    (lastWindow h).map Call.sample
  /-- nothing has been stored yet -/
  untouched : lastWindow h = [] → s.adcSampleBuffer = b.memory

theorem map_range_update {α : Type} (f : ℕ → α) (n : ℕ) (x : α) :
    (List.range (n + 1)).map (Function.update f n x) = (List.range n).map f ++ [x] := by
  rw [List.range_succ, List.map_append, List.map_singleton, Function.update_self]
  refine congrArg (· ++ [x]) (List.map_congr_left fun k hk => ?_)
  exact Function.update_of_ne (List.mem_range.mp hk).ne _ _

section Runs

variable {b : Board} {h : List Event} {s : State}

theorem run_shows (run : (firmware b).Run h s) (fits : Fits h) : Shows b h s := by
  refine window_invariant (I := fun h s => Fits h → Shows b h s) ?_ ?_ ?_ ?_ run fits
  · exact fun _ => ⟨fun pos => absurd rfl pos, rfl, fun _ => rfl⟩
  · intro h s i earlier ih fits
    obtain ⟨current, samples, -⟩ := ih fits.tail
    have index := length_toNat earlier fits.tail.now
    have buffer : (fastMeasure s i).1.adcSampleBuffer =
        Function.update s.adcSampleBuffer (windowCount h) (callSample s i) := by
      rw [← index]
      rfl
    by_cases first : windowCount h = 0
    · have window : lastWindow (.sampled (fastMeasure s i).2 :: h) = [(fastMeasure s i).2] :=
        if_pos first
      refine ⟨fun _ => ?_, ?_, fun empty => ?_⟩
      · rw [window, windowCount_sampled, first]
        rfl
      · rw [window, buffer, first]
        exact map_range_update _ 0 _
      · rw [window] at empty
        cases empty
    · have window : lastWindow (.sampled (fastMeasure s i).2 :: h) =
          lastWindow h ++ [(fastMeasure s i).2] := if_neg first
      refine ⟨fun _ => ?_, ?_, fun empty => ?_⟩
      · rw [window, windowCount_sampled, List.length_append, current first]
        rfl
      · rw [current first] at samples
        rw [window, List.length_append, current first, buffer, List.map_append, ← samples]
        exact map_range_update _ _ _
      · rw [window] at empty
        exact absurd empty (by simp)
  · intro h s s' _ ih frame _ fits
    obtain ⟨-, samples, untouched⟩ := ih fits.tail
    exact ⟨fun pos => absurd rfl pos, frame.buffer ▸ samples, frame.buffer ▸ untouched⟩
  · intro h s s' e _ ih he frame _ fits
    obtain ⟨current, samples, untouched⟩ := ih fits.tail
    have window := lastWindow_cons frame.call h
    refine ⟨?_, ?_, ?_⟩
    · rw [window, windowCount_cons he frame.call]
      exact current
    · rw [window, frame.buffer]
      exact samples
    · rw [window, frame.buffer]
      exact untouched

/-- Inside the last window with samples, and at position 0 before there is any, the
buffer shows its sample. -/
theorem Shows.sample (shows' : Shows b h s) {p : ℕ} (inside : p < max 1 (windowCount h)) :
    s.adcSampleBuffer p = lastSample b h p := by
  rw [lastSample]
  cases window : lastWindow h with
  | nil => rw [shows'.untouched window]; rfl
  | cons call rest =>
      have within : p < (lastWindow h).length := by
        by_cases pos : windowCount h = 0
        · rw [window, List.length_cons]
          omega
        · rw [shows'.current pos]
          omega
      have entry := congrArg (fun samples => samples[p]?) shows'.samples
      rw [← window, List.getD_eq_getElem?_getD, ← entry]
      simp [within]

/-- The start sample of a header. -/
theorem startRead_eq {sample : RFSample} (run : (firmware b).Run (.startRead sample :: h) s)
    (fits : Fits h) : sample = lastSample b h 0 := by
  obtain ⟨s', before, ⟨i, impossible⟩ | ⟨-, control⟩⟩ := last_step run
  · cases impossible
  · have shows' := run_shows before fits
    generalize s.pc = pc at control
    cases control with
    | startRead _ => exact shows'.sample (by omega)

/-- The frame drawn, and its sample. -/
theorem frameRead_eq {k : ℕ} {sample : RFSample}
    (run : (firmware b).Run (.frameRead k sample :: h) s) (fits : Fits h) :
    k < max 1 (windowCount h) ∧ sample = lastSample b h k := by
  obtain ⟨s', before, ⟨i, impossible⟩ | ⟨-, control⟩⟩ := last_step run
  · cases impossible
  · have shows' := run_shows before fits
    have counts := countsInWindow before fits
    generalize s.pc = pc at control
    cases control with
    | frameRead k pc =>
        rw [pc] at counts
        exact ⟨counts, shows'.sample counts⟩

end Runs

/-- **The samples a text report prints.** Where the windows fit, the start sample is the
first sample of the last window that has any, and the frame drawn is one of that window's
samples; before the first sample of the run, both show the buffer as it was filled. -/
theorem printed_samples (b : Board) (as : List Action) (fits : Fits (history b as)) :
    (∀ sample g, .startRead sample :: g <:+ history b as → sample = lastSample b g 0) ∧
      ∀ k sample g, .frameRead k sample :: g <:+ history b as →
        k < max 1 (windowCount g) ∧ sample = lastSample b g k := by
  have run := run_history b as
  constructor
  · intro sample g suffix
    obtain ⟨s, atRead⟩ := run.suffix suffix
    exact startRead_eq atRead (Fits.tail (fits.suffix suffix))
  · intro k sample g suffix
    obtain ⟨s, atRead⟩ := run.suffix suffix
    exact frameRead_eq atRead (Fits.tail (fits.suffix suffix))

/-- An interrupt, a pass of `loop` that reads an `M`, and a text report up to its start
sample. -/
def textReport : List Action :=
  .fastMeasure quietInterrupt :: List.replicate 3 (.loop keyAnswers) ++
    List.replicate 17 (.loop ⟨true, 0, 0, none⟩)

theorem fits_textReport : Fits (history sourceBoard textReport) := by
  apply fits_history
  rw [rfBufferLength_eq]
  decide

/-- The start sample of a text report on one sample. -/
theorem printed_samples_textReport :
    (finalState sourceBoard textReport).adcSampleBuffer 0 =
      lastSample sourceBoard (history sourceBoard textReport).tail 0 :=
  (printed_samples sourceBoard textReport fits_textReport).1 _ _ ⟨[], rfl⟩

end RFPowerDetector.Firmware
