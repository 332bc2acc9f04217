/-
The timestamps of a window (`fastMeasure`, `src/main.cpp`; the constructor of
`RFSample`).

`rfSampleMicroseconds` is an `elapsedMicros`: assigning 0 stores `micros() - 0`,
reading it yields `micros()` minus the stored value, modulo 2^32. The first call
of a window resets it, since only that call finds the length 0. The value passes
through a signed `long` and an unsigned one, which hold the same 32 bits.

The clock may wrap anywhere: `resetTime` and `readTime` are true times, of which
`micros` shows the lower 32 bits. `window_timestamps` reads each timestamp of the
buffer prefix back as a true elapsed time, from the interrupts of the window.
-/

import RFPowerDetector.Firmware.Window

namespace RFPowerDetector.Firmware

open Transition

/-! ### The interrupts of a window -/

def Action.interrupt? : Action → Option Interrupt
  | .fastMeasure i => some i
  | .loop _ => none

/-- The actions of a run beside its events, newest first. -/
def record (b : Board) (as : List Action) : List (Action × Event) :=
  ((firmware b).recording.exec as ([], setup b)).1

/-- The interrupts since the last reset, in the order they fell. -/
def interruptsSince (h : List (Action × Event)) : List Interrupt :=
  ((since (fun ae => isReset ae.2) h).filterMap fun ae => ae.1.interrupt?).reverse

def windowInterrupts (b : Board) (as : List Action) : List Interrupt :=
  interruptsSince (record b as)

/-- The times at which interrupts read the clock, in order. -/
def clockReadings (interrupts : List Interrupt) : List ℕ :=
  interrupts.flatMap fun i => [i.resetTime, i.readTime]

/-- The true times from the reset in the first interrupt to each reading. -/
def elapsedTimes : List Interrupt → List ℕ
  | [] => []
  | first :: rest => (first :: rest).map fun i => i.readTime - first.resetTime

section Recorded

variable {b : Board} {h : List (Action × Event)} {s : State}

theorem interruptsSince_sampled (i : Interrupt) (call : Call) (h : List (Action × Event)) :
    interruptsSince ((.fastMeasure i, .sampled call) :: h) = interruptsSince h ++ [i] := by
  simp [interruptsSince, since, isReset, Action.interrupt?]

theorem interruptsSince_loop {e : Event} (he : e ≠ .reset) (w : Answers)
    (h : List (Action × Event)) :
    interruptsSince ((.loop w, e) :: h) = interruptsSince h := by
  simp [interruptsSince, since, isReset_eq_false.mpr he, Action.interrupt?]

theorem interruptsSince_reset (w : Answers) (h : List (Action × Event)) :
    interruptsSince ((.loop w, .reset) :: h) = [] := by
  simp [interruptsSince, since, isReset]

/-- The invariant rule of recorded runs, the reset apart. -/
theorem recorded_invariant {I : List (Action × Event) → State → Prop} (initial : I [] (setup b))
    (interrupt : ∀ {h s} i, (firmware b).recording.Run h s → I h s →
      I ((.fastMeasure i, .sampled (fastMeasure s i).2) :: h) (fastMeasure s i).1)
    (reset : ∀ {h s s'} w, (firmware b).recording.Run h s → I h s → I ((.loop w, .reset) :: h) s')
    (loop : ∀ {h s s' e} w, (firmware b).recording.Run h s → I h s → e ≠ .reset →
      LoopFrame s s' e → I ((.loop w, e) :: h) s')
    (run : (firmware b).recording.Run h s) : I h s := by
  refine Machine.Run.invariant initial (fun {h s} a earlier ih => ?_) run
  cases a with
  | fastMeasure i => exact interrupt i earlier ih
  | loop w =>
      by_cases he : (step b.arith s (.loop w)).2 = .reset
      · have opened : I ((.loop w, .reset) :: h) (step b.arith s (.loop w)).1 :=
          reset w earlier ih
        rw [← he] at opened
        exact opened
      · exact loop w earlier ih he (loop_frame _ _ w)

/-- One interrupt for each sample of the window. -/
theorem length_interruptsSince (run : (firmware b).recording.Run h s) :
    (interruptsSince h).length = windowCount (h.map Prod.snd) := by
  refine recorded_invariant
    (I := fun h _ => (interruptsSince h).length = windowCount (h.map Prod.snd)) rfl ?_ ?_ ?_ run
  · intro h s i _ ih
    rw [interruptsSince_sampled, List.length_append, ih]
    rfl
  · intro h s s' w _ _
    rw [interruptsSince_reset]
    rfl
  · intro h s s' e w _ ih he frame
    rw [interruptsSince_loop he, ih, List.map_cons, windowCount_cons he frame.call]

/-! ### The counter and the stored timestamps -/

/-- In 32 bits: the counter was reset in the window's first interrupt, and each
stored timestamp is the clock at its own reading minus the clock at that reset. -/
def Stamped (h : List (Action × Event)) (s : State) : Prop :=
  ∀ first ∈ (interruptsSince h).head?,
    s.rfSampleMicroseconds = micros first.resetTime ∧
      (windowCalls (h.map Prod.snd)).map (fun call => call.sample.timestamp) =
        (interruptsSince h).map fun i => micros i.readTime - micros first.resetTime

theorem timestamp_fastMeasure (s : State) (i : Interrupt) :
    (fastMeasure s i).2.sample.timestamp = micros i.readTime - callStart s i := rfl

/-- An interrupt resets the counter exactly when it finds the window empty. -/
theorem Stamped.interrupt (stamped : Stamped h s)
    (counted : (interruptsSince h).length = s.rfSampleBufferLength.toNat)
    (calls : (windowCalls (h.map Prod.snd)).length = (interruptsSince h).length) (i : Interrupt) :
    Stamped ((.fastMeasure i, .sampled (fastMeasure s i).2) :: h) (fastMeasure s i).1 := by
  intro first hfirst
  rw [interruptsSince_sampled] at hfirst ⊢
  rw [List.map_cons, windowCalls_sampled, List.map_append, List.map_append]
  cases window : interruptsSince h with
  | nil =>
      rw [window] at hfirst counted calls
      cases hfirst
      have empty : s.rfSampleBufferLength = 0 := BitVec.eq_of_toNat_eq counted.symm
      have start : callStart s i = micros i.resetTime := by
        rw [callStart, if_pos empty]
        exact BitVec.sub_zero _
      rw [List.eq_nil_of_length_eq_zero calls, List.map_singleton, timestamp_fastMeasure, start]
      exact ⟨start, rfl⟩
  | cons first rest =>
      rw [window] at hfirst counted
      cases hfirst
      obtain ⟨counter, stamps⟩ := stamped first (by rw [window]; rfl)
      have occupied : s.rfSampleBufferLength ≠ 0 := by
        intro empty
        rw [empty] at counted
        cases counted
      have start : callStart s i = micros first.resetTime := by
        rw [callStart, if_neg occupied, counter]
      rw [List.map_singleton, timestamp_fastMeasure, start, stamps, window]
      exact ⟨start, rfl⟩

/-- **The window's stamps.** -/
theorem run_stamped (run : (firmware b).recording.Run h s)
    (fits : windowCount (h.map Prod.snd) ≤ rfBufferLength) : Stamped h s := by
  refine recorded_invariant
    (I := fun h s => windowCount (h.map Prod.snd) ≤ rfBufferLength → Stamped h s)
    ?_ ?_ ?_ ?_ run fits
  · intro _ first none
    cases none
  · intro h s i earlier ih fits
    rw [List.map_cons, windowCount_sampled] at fits
    have fits' := Nat.le_of_succ_le fits
    have counted := length_interruptsSince earlier
    refine (ih fits').interrupt ?_ ?_ i
    · rw [counted, length_toNat earlier.of_recording fits']
    · rw [counted, length_windowCalls]
  · intro h s s' w _ _ _ first none
    rw [interruptsSince_reset] at none
    cases none
  · intro h s s' e w _ ih he frame fits
    rw [List.map_cons, windowCount_cons he frame.call] at fits
    intro first hfirst
    rw [interruptsSince_loop he] at hfirst ⊢
    obtain ⟨counter, stamps⟩ := ih fits first hfirst
    rw [List.map_cons, windowCalls_cons he frame.call, frame.micros]
    exact ⟨counter, stamps⟩

end Recorded

/-! ### True times -/

/-- A difference of two clock readings less than 2^32 apart, whatever wraps between. -/
theorem micros_sub_toNat {start now : ℕ} (le : start ≤ now) (short : now - start < 2 ^ 32) :
    (micros now - micros start).toNat = now - start := by
  rw [micros, micros, BitVec.toNat_sub, BitVec.toNat_ofNat, BitVec.toNat_ofNat]
  omega

section Times

variable {is : List Interrupt}

/-- On a clock that never runs back, elapsed times are ordered. -/
theorem elapsedTimes_pairwise (clock : (clockReadings is).Pairwise (· ≤ ·)) :
    (elapsedTimes is).Pairwise (· ≤ ·) := by
  have readings : (is.map Interrupt.readTime).Pairwise (· ≤ ·) := by
    refine clock.sublist ?_
    induction is with
    | nil => exact .slnil
    | cons i is ih =>
        have later := ih (clock.sublist (List.sublist_append_right _ _))
        exact (later.cons_cons _).cons _
  cases is with
  | nil => exact .nil
  | cons first rest =>
      rw [elapsedTimes, List.pairwise_map]
      rw [List.pairwise_map] at readings
      exact readings.imp fun le => Nat.sub_le_sub_right le _

/-- The first reset precedes every reading. -/
theorem resetTime_le {first : Interrupt} {rest : List Interrupt}
    (clock : (clockReadings (first :: rest)).Pairwise (· ≤ ·)) {i : Interrupt}
    (hi : i ∈ first :: rest) : first.resetTime ≤ i.readTime := by
  have later := (List.pairwise_cons.mp clock).1
  apply later
  rcases List.mem_cons.mp hi with rfl | hi
  · exact List.mem_cons_self
  · refine List.mem_cons_of_mem _ ?_
    exact List.mem_flatMap.mpr ⟨i, hi, List.mem_cons_of_mem _ List.mem_cons_self⟩

end Times

/-- The timestamps of the buffer prefix. -/
def storedTimestamps (s : State) : List ℕ :=
  (List.range s.rfSampleBufferLength.toNat).map fun p => (s.adcSampleBuffer p).timestamp.toNat

/-- The record of a run is its history with the actions. -/
theorem record_spec (b : Board) (as : List Action) :
    (firmware b).recording.Run (record b as) (finalState b as) ∧
      (record b as).map Prod.snd = history b as ∧
      (record b as).map Prod.fst = as.reverse := by
  have run := (firmware b).recording.run_exec as
  have projected := Machine.recording_exec (m := firmware b) as [] (setup b)
  have actions := Machine.recording_actions (m := firmware b) as [] (setup b)
  have states := congrArg Prod.snd projected
  have events := congrArg Prod.fst projected
  rw [List.map_nil, List.append_nil] at actions
  refine ⟨?_, events, actions⟩
  rw [finalState]
  exact states ▸ run

/-- The interrupts of the window are among those of the run, in their order. -/
theorem windowInterrupts_sublist (b : Board) (as : List Action) :
    (windowInterrupts b as).Sublist (as.filterMap Action.interrupt?) := by
  have actions := (record_spec b as).2.2
  have all : ((record b as).filterMap fun ae => ae.1.interrupt?).reverse =
      as.filterMap Action.interrupt? := by
    have newest := congrArg (List.filterMap Action.interrupt?) actions
    rw [List.filterMap_map, List.filterMap_reverse] at newest
    exact (congrArg List.reverse newest).trans (List.reverse_reverse _)
  have segment := (List.takeWhile_sublist (fun ae : Action × Event => !isReset ae.2)
    (l := record b as)).filterMap fun ae => ae.1.interrupt?
  rw [← all]
  exact segment.reverse

/-- **The timestamps of a window.** On a clock that never runs back, wherever it
wraps: while the window holds at most `rfBufferLength` samples and has lasted less
than 2^32 microseconds, the timestamps of the buffer prefix are the true times
elapsed from the reset in the window's first interrupt, in order. -/
theorem window_timestamps (b : Board) (as : List Action)
    (clock : (clockReadings (as.filterMap Action.interrupt?)).Pairwise (· ≤ ·))
    (fits : windowCount (history b as) ≤ rfBufferLength)
    (short : ∀ t ∈ elapsedTimes (windowInterrupts b as), t < 2 ^ 32) :
    storedTimestamps (finalState b as) = elapsedTimes (windowInterrupts b as) ∧
      (storedTimestamps (finalState b as)).Pairwise (· ≤ ·) := by
  obtain ⟨recorded, events, -⟩ := record_spec b as
  have run := run_history b as
  have clock' : (clockReadings (windowInterrupts b as)).Pairwise (· ≤ ·) :=
    clock.sublist ((windowInterrupts_sublist b as).flatMap _)
  have counted : (windowInterrupts b as).length = windowCount (history b as) := by
    rw [← events]
    exact length_interruptsSince recorded
  have stamped := run_stamped recorded (by rw [events]; exact fits)
  have stored : storedTimestamps (finalState b as) =
      ((windowCalls (history b as)).map fun call => call.sample.timestamp).map BitVec.toNat := by
    have samples := congrArg (List.map fun sample => sample.timestamp.toNat) (prefix_eq run fits)
    rw [List.map_map, List.map_map] at samples
    rw [storedTimestamps, length_toNat run fits, List.map_map]
    exact samples
  have equal : storedTimestamps (finalState b as) = elapsedTimes (windowInterrupts b as) := by
    cases window : windowInterrupts b as with
    | nil =>
        have none : windowCount (history b as) = 0 := by
          rw [← counted, window, List.length_nil]
        rw [storedTimestamps, length_toNat run fits, none]
        rfl
    | cons first rest =>
        have opened : interruptsSince (record b as) = first :: rest := window
        obtain ⟨-, stamps⟩ := stamped first (by rw [opened]; rfl)
        rw [events, opened] at stamps
        rw [window] at clock' short
        rw [stored, stamps, List.map_map, elapsedTimes]
        refine List.map_congr_left fun i hi => ?_
        exact micros_sub_toNat (resetTime_le clock' hi)
          (short _ (List.mem_map.mpr ⟨i, hi, rfl⟩))
  refine ⟨equal, ?_⟩
  rw [equal]
  exact elapsedTimes_pairwise clock'

/-- Two interrupts around a wrap of the clock. -/
def wrappingInterrupts : List Action :=
  [.fastMeasure ⟨fun _ => 0, 2 ^ 32 - 3, 2 ^ 32 - 1⟩, .fastMeasure ⟨fun _ => 0, 2 ^ 32, 2 ^ 32 + 4⟩]

theorem window_timestamps_wrapping :
    storedTimestamps (finalState sourceBoard wrappingInterrupts) = [2, 7] := by
  have count : windowCount (history sourceBoard wrappingInterrupts) = 2 := rfl
  have times : elapsedTimes (windowInterrupts sourceBoard wrappingInterrupts) = [2, 7] := rfl
  refine (window_timestamps sourceBoard wrappingInterrupts ?_ ?_ ?_).1.trans times
  · decide
  · rw [count, rfBufferLength_eq]
    norm_num
  · rw [times]
    decide

end RFPowerDetector.Firmware
