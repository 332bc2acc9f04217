/-
The window: the samples taken since the last reset, and the buffer prefix that
holds them.

* `store_in_bounds_iff`: in a run, every buffer access stays inside the array
  exactly when no window of the run holds more samples than the array.
  `fastMeasure` stores without comparing the length with the capacity, so the
  schedule decides (`overrun_out_of_bounds`).
* `window_represents`: while a window fits, the length is its number of calls,
  the buffer prefix is their samples in order, and each reading is the value
  assembled from the two bytes of its own channel's transfers, or 0.
-/

import Mathlib.Tactic.NormNum
import RFPowerDetector.Firmware.Control

namespace RFPowerDetector.Firmware

open Transition

/-! ### Invariants of runs -/

/-- The invariant rule of the firmware: the interrupt by its definition, a
`loop` step by its frame and its move. -/
theorem run_invariant {b : Board} {I : List Event → State → Prop} (initial : I [] (setup b))
    (interrupt : ∀ {h s} i, (firmware b).Run h s → I h s →
      I (.sampled (fastMeasure s i).2 :: h) (fastMeasure s i).1)
    (loop : ∀ {h s s' e}, (firmware b).Run h s → I h s → LoopFrame s s' e →
      Control b.arith s s'.pc e →
      I (e :: h) s')
    {h : List Event} {s : State} (run : (firmware b).Run h s) : I h s := by
  refine Machine.Run.invariant initial (fun a earlier ih => ?_) run
  cases a with
  | fastMeasure i => exact interrupt i earlier ih
  | loop w => exact loop earlier ih (loop_frame _ _ w) (loop_control _ _ w)

/-- The invariant rule for the current window: the reset, which opens an empty one,
apart from the other `loop` steps, which add nothing to it. -/
theorem window_invariant {b : Board} {I : List Event → State → Prop} (initial : I [] (setup b))
    (interrupt : ∀ {h s} i, (firmware b).Run h s → I h s →
      I (.sampled (fastMeasure s i).2 :: h) (fastMeasure s i).1)
    (reset : ∀ {h s s'}, (firmware b).Run h s → I h s → LoopFrame s s' .reset →
      Control b.arith s s'.pc .reset → I (.reset :: h) s')
    (loop : ∀ {h s s' e}, (firmware b).Run h s → I h s → e ≠ .reset → LoopFrame s s' e →
      Control b.arith s s'.pc e → I (e :: h) s')
    {h : List Event} {s : State} (run : (firmware b).Run h s) : I h s := by
  refine run_invariant initial interrupt (fun {h s s' e} earlier ih frame control => ?_) run
  by_cases he : e = .reset
  · subst he
    exact reset earlier ih frame control
  · exact loop earlier ih he frame control

section Runs

variable {b : Board} {h : List Event} {s : State}

/-- The last step of a run was an interrupt or a move of `loop`. -/
theorem last_step {e : Event} (run : (firmware b).Run (e :: h) s) :
    ∃ s', (firmware b).Run h s' ∧
      ((∃ i, e = .sampled (fastMeasure s' i).2) ∨ LoopFrame s' s e ∧ Control b.arith s' s.pc e) := by
  obtain ⟨s', a, earlier, moved⟩ := run.last
  refine ⟨s', earlier, ?_⟩
  cases a with
  | fastMeasure i =>
      left
      cases moved
      exact ⟨i, rfl⟩
  | loop w =>
      right
      have frame := loop_frame b.arith s' w
      have control := loop_control b.arith s' w
      have same : step b.arith s' (.loop w) = (s, e) := moved
      rw [same] at frame control
      exact ⟨frame, control⟩

/-- A member of a history splits it at a moment. -/
theorem suffix_of_mem {e : Event} (mem : e ∈ h) : ∃ g, e :: g <:+ h := by
  obtain ⟨later, g, rfl⟩ := List.append_of_mem mem
  exact ⟨g, List.suffix_append later _⟩

theorem enabled_eq (run : (firmware b).Run h s) : s.enabled = b.enabled := by
  refine run_invariant (I := fun _ s => s.enabled = b.enabled) rfl ?_ ?_ run
  · intro h s i _ ih
    exact ih
  · intro h s s' e _ ih frame _
    rw [frame.enabled, ih]

/-- What `fastMeasure` establishes of its call holds of every call of a run. -/
theorem run_calls {P : Call → Prop}
    (each : ∀ s i, s.enabled = b.enabled → P (fastMeasure s i).2) (run : (firmware b).Run h s) :
    ∀ call ∈ calls h, P call := by
  refine run_invariant (I := fun h _ => ∀ call ∈ calls h, P call) nofun ?_ ?_ run
  · intro h s i earlier ih call hcall
    rcases List.mem_cons.mp hcall with rfl | hcall
    · exact each s i (enabled_eq earlier)
    · exact ih call hcall
  · intro h s s' e _ ih frame _
    rw [calls_cons frame.call]
    exact ih

/-- The length counts the samples of the window, modulo 2^32. -/
theorem length_eq (run : (firmware b).Run h s) :
    s.rfSampleBufferLength = BitVec.ofNat 32 (windowCount h) := by
  refine window_invariant
    (I := fun h s => s.rfSampleBufferLength = BitVec.ofNat 32 (windowCount h)) rfl ?_ ?_ ?_ run
  · intro h s i _ ih
    rw [windowCount_sampled]
    show s.rfSampleBufferLength + 1 = _
    rw [ih, BitVec.ofNat_add]
    rfl
  · intro h s s' _ _ frame _
    exact frame.length
  · intro h s s' e _ ih he frame _
    rw [frame.length, windowCount_cons he frame.call, isReset_eq_false.mpr he, ih]
    rfl

/-- Every window of the history fits the array. -/
def Fits : List Event → Prop := Always fun g => windowCount g ≤ rfBufferLength

theorem Fits.tail {e : Event} (fits : Fits (e :: h)) : Fits h := (always_cons.mp fits).2

/-- A run of at most as many steps as the array has entries fits. -/
theorem fits_history {as : List Action} (short : as.length ≤ rfBufferLength) :
    Fits (history b as) := by
  intro g suffix
  have inWindow : (calls (window g)).length ≤ (window g).length := List.length_filterMap_le _ _
  have inHistory : (window g).length ≤ g.length := (List.takeWhile_sublist _).length_le
  have earlier := suffix.length_le
  rw [length_history] at earlier
  rw [windowCount]
  omega

theorem length_toNat (run : (firmware b).Run h s) (fits : windowCount h ≤ rfBufferLength) :
    s.rfSampleBufferLength.toNat = windowCount h := by
  rw [rfBufferLength_eq] at fits
  rw [length_eq run, BitVec.toNat_ofNat]
  omega

theorem length_toInt (run : (firmware b).Run h s) (fits : windowCount h ≤ rfBufferLength) :
    s.rfSampleBufferLength.toInt = windowCount h := by
  have natural := length_toNat run fits
  rw [rfBufferLength_eq] at fits
  rw [BitVec.toInt_eq_toNat_of_lt (by omega), natural]

/-! ### Bounds of the buffer accesses -/

/-- The buffer entry an event reads or stores. -/
def Event.bufferIndex : Event → Option ℕ
  | .sampled call => some call.index
  | .startRead _ => some 0
  | .frameRead k _ => some k
  | .averageRead _ i => some i
  | _ => none

/-- Every entry the history reads or stores lies inside the array. -/
def InBounds (h : List Event) : Prop :=
  ∀ e ∈ h, ∀ i, e.bufferIndex = some i → i < rfBufferLength

/-- The counts the program counter holds are counts of the window. -/
def CountsInWindow (h : List Event) : Pc → Prop
  | .frame k => k < max 1 (windowCount h)
  | .summing _ _ _ n _ _ => n ≤ windowCount h
  | _ => True

theorem CountsInWindow.mono {g : List Event} {pc : Pc} (counts : CountsInWindow h pc)
    (le : windowCount h ≤ windowCount g) : CountsInWindow g pc := by
  cases pc with
  | frame k =>
      simp only [CountsInWindow] at counts ⊢
      omega
  | summing mode adc rest n i sum =>
      simp only [CountsInWindow] at counts ⊢
      omega
  | _ => trivial

theorem random_lt (draw n : ℕ) : random draw n < max 1 n := by
  unfold random
  split
  · omega
  · have := Nat.mod_lt draw (Nat.pos_of_ne_zero ‹_›)
    omega

/-- Program counters hold window counts as long as every window fits. -/
theorem countsInWindow (run : (firmware b).Run h s) (fits : Fits h) : CountsInWindow h s.pc := by
  refine window_invariant (I := fun h s => Fits h → CountsInWindow h s.pc) (fun _ => trivial)
    ?_ ?_ ?_ run fits
  · intro h s i _ ih fits
    exact (ih fits.tail).mono (Nat.le_succ _)
  · intro h s s' _ _ _ control _
    generalize s'.pc = pc at control
    cases control
    trivial
  · intro h s s' e earlier ih he frame control fits
    have fits' := fits.tail
    have old := ih fits'
    have same := windowCount_cons he frame.call h
    have toNat := length_toNat earlier fits'.now
    have toInt := length_toInt earlier fits'.now
    generalize s'.pc = pc at control
    cases control with
    | printed text _ => exact old.mono same.ge
    | frameSelected draw _ =>
        simp only [CountsInWindow, toNat]
        exact random_lt _ _
    | averageCalled _ _ =>
        simp only [CountsInWindow, toInt]
        exact le_rfl
    | averageRead pc _ =>
        rw [pc] at old
        simp only [CountsInWindow, same] at old ⊢
        exact old
    | _ => trivial

/-- Where every window fits, every access is inside the array. -/
theorem inBounds_of_fits (run : (firmware b).Run h s) (fits : Fits h) : InBounds h := by
  refine run_invariant (I := fun h _ => Fits h → InBounds h) (fun _ => by simp [InBounds])
    ?_ ?_ run fits
  · intro h s i earlier ih fits
    obtain ⟨now, fits'⟩ := always_cons.mp fits
    rw [windowCount_sampled] at now
    intro e he
    rcases List.mem_cons.mp he with rfl | he
    · rintro _ ⟨⟩
      show s.rfSampleBufferLength.toNat < _
      rw [length_toNat earlier fits'.now]
      exact now
    · exact ih fits' e he
  · intro h s s' e earlier ih frame control fits
    have fits' := fits.tail
    have counts := countsInWindow earlier fits'
    have cap := fits'.now
    have capacity : 0 < rfBufferLength := by rw [rfBufferLength_eq]; norm_num
    intro e' he'
    rcases List.mem_cons.mp he' with rfl | he'
    · intro i hi
      generalize s'.pc = pc at control
      cases control with
      | startRead _ => cases hi; exact capacity
      | frameRead k pc =>
          cases hi
          rw [pc] at counts
          simp only [CountsInWindow] at counts
          omega
      | averageRead pc more =>
          cases hi
          rw [pc] at counts
          simp only [CountsInWindow] at counts
          omega
      | _ => cases hi
    · exact ih fits' e' he'

/-- Where every store is inside the array, every window fits: the sample that
would make a window too large is stored one past the end. -/
theorem fits_of_inBounds (run : (firmware b).Run h s) (bounds : InBounds h) : Fits h := by
  refine window_invariant (I := fun h _ => InBounds h → Fits h)
    (fun _ => always_nil.mpr (Nat.zero_le _)) ?_ ?_ ?_ run bounds
  · intro h s i earlier ih bounds
    have fits' := ih fun e he => bounds e (List.mem_cons_of_mem _ he)
    have stored : s.rfSampleBufferLength.toNat < rfBufferLength :=
      bounds _ List.mem_cons_self _ rfl
    rw [length_toNat earlier fits'.now] at stored
    exact always_cons.mpr ⟨stored, fits'⟩
  · intro h s s' _ ih _ _ bounds
    have fits' := ih fun e he => bounds e (List.mem_cons_of_mem _ he)
    exact always_cons.mpr ⟨Nat.zero_le _, fits'⟩
  · intro h s s' e _ ih he frame _ bounds
    have fits' := ih fun e he => bounds e (List.mem_cons_of_mem _ he)
    refine always_cons.mpr ⟨?_, fits'⟩
    rw [windowCount_cons he frame.call]
    exact fits'.now

end Runs

/-- **The bound of the buffer accesses.** In a run of the firmware every buffer
access stays inside the array if and only if no window holds more than
`rfBufferLength` samples. -/
theorem store_in_bounds_iff (b : Board) (as : List Action) :
    InBounds (history b as) ↔ Fits (history b as) :=
  ⟨fits_of_inBounds (run_history b as), inBounds_of_fits (run_history b as)⟩

/-- An interrupt whose bus answers zeros at time zero. -/
def quietInterrupt : Interrupt := ⟨fun _ => 0, 0, 0⟩

/-- An interrupt whose bus answers one byte throughout. -/
def steadyInterrupt (byte : Byte) : Interrupt := ⟨fun _ => byte, 0, 0⟩

/-- Answers at which no timer fires and an `M` waits on the serial port. -/
def keyAnswers : Answers := ⟨false, 0, 0, some 77⟩

/-- The board as the source configures it, its buffer filled with invalid
samples. -/
def sourceBoard : Board := ⟨sourceEnabled, fun _ => .invalid, .ieee⟩

theorem windowCount_interrupts (b : Board) (i : Interrupt) (n : ℕ) (c : List Event × State) :
    windowCount ((firmware b).exec (List.replicate n (.fastMeasure i)) c).1 =
      windowCount c.1 + n := by
  induction n generalizing c with
  | zero => rfl
  | succ n ih =>
      rw [List.replicate_succ, Machine.exec, ih]
      show windowCount (.sampled _ :: c.1) + n = _
      rw [windowCount_sampled]
      omega

/-- While `loop` stays blocked, one interrupt more than the array has entries
stores past its end. -/
theorem overrun_out_of_bounds :
    ¬ ∀ (b : Board) (as : List Action), InBounds (history b as) := by
  intro claim
  let as := List.replicate (rfBufferLength + 1) (Action.fastMeasure quietInterrupt)
  have fits := (fits_of_inBounds (run_history sourceBoard as) (claim sourceBoard as)).now
  have count : windowCount (history sourceBoard as) = rfBufferLength + 1 := by
    rw [history, windowCount_interrupts, windowCount_nil, Nat.zero_add]
  omega

/-! ### The window and the buffer prefix -/

/-- The calls of the window, in the order they were made. -/
def windowCalls (h : List Event) : List Call := (calls (window h)).reverse

@[simp] theorem length_windowCalls (h : List Event) : (windowCalls h).length = windowCount h := by
  simp [windowCalls, windowCount]

theorem windowCalls_sampled (call : Call) (h : List Event) :
    windowCalls (.sampled call :: h) = windowCalls h ++ [call] := by
  simp [windowCalls, window_cons, calls, Event.call?]

theorem windowCalls_cons {e : Event} (he : e ≠ .reset) (none : e.call? = none) (h : List Event) :
    windowCalls (e :: h) = windowCalls h := by
  rw [windowCalls, window_cons he, calls_cons none]
  rfl

/-- What a call measured on a channel: an enabled channel's reading is assembled
from the two bytes returned while its own pin was selected, a disabled channel
has no transfer and reads 0. -/
structure Measured (enabled : EnumADC → Bool) (call : Call) (adc : EnumADC) : Prop where
  on : enabled adc = true → ∃ t₁ t₂, transfersFor adc call.transfers = [t₁, t₂] ∧
    t₁.pins (selectPin adc) = some .low ∧ t₂.pins (selectPin adc) = some .low ∧
    call.sample.getValue adc = (assemble t₁.byte t₂.byte).toNat
  off : enabled adc = false →
    transfersFor adc call.transfers = [] ∧ call.sample.getValue adc = 0
  valid : call.sample.reading adc ≠ rfInvalidValue

/-- The reading a call stores for a channel. -/
theorem fastMeasure_reading (s : State) (i : Interrupt) (adc : EnumADC) :
    (fastMeasure s i).2.sample.reading adc =
      if s.enabled adc then
        assemble (i.miso (firstTransfer s.enabled adc)) (i.miso (firstTransfer s.enabled adc + 1))
      else 0 := by
  simp only [fastMeasure, callSample, callScan, RFSample.reading_ofArray]
  exact scanChannels_reading i.miso s.enabled rfl adc

theorem assemble_ne_rfInvalidValue (biggerByte smallerByte : Byte) :
    assemble biggerByte smallerByte ≠ rfInvalidValue := by
  intro h
  have value := congrArg BitVec.toNat h
  rw [assemble_toNat] at value
  have bigger := biggerByte.isLt
  have smaller := smallerByte.isLt
  simp [rfInvalidValue] at value
  omega

theorem fastMeasure_measured (s : State) (i : Interrupt) (adc : EnumADC) :
    Measured s.enabled (fastMeasure s i).2 adc := by
  have reading := fastMeasure_reading s i adc
  have transfers : transfersFor adc (fastMeasure s i).2.transfers = _ :=
    scanChannels_transfersFor i.miso s.enabled rfl adc
  refine ⟨fun on => ?_, fun off => ?_, ?_⟩
  · rw [if_pos on] at reading transfers
    refine ⟨_, _, transfers, by simp [digitalWrite], by simp [digitalWrite], ?_⟩
    rw [RFSample.getValue, reading]
    simp [length_scan_transfers, firstTransfer]
  · rw [if_neg (by simp [off])] at reading transfers
    exact ⟨transfers, by simp [RFSample.getValue, reading]⟩
  · rw [reading]
    split
    · exact assemble_ne_rfInvalidValue _ _
    · decide

section Prefix

variable {b : Board} {h : List Event} {s : State}

/-- Every call of a run measured the board's channels. -/
theorem measured_of_mem (run : (firmware b).Run h s) :
    ∀ call ∈ calls h, ∀ adc, Measured b.enabled call adc := by
  refine run_calls (P := fun call => ∀ adc, Measured b.enabled call adc) ?_ run
  intro s i flags adc
  rw [← flags]
  exact fastMeasure_measured s i adc

/-- The buffer prefix holds the samples of the window in order. -/
theorem prefix_eq (run : (firmware b).Run h s) (fits : windowCount h ≤ rfBufferLength) :
    (List.range (windowCount h)).map s.adcSampleBuffer = (windowCalls h).map Call.sample := by
  refine window_invariant (I := fun h s => windowCount h ≤ rfBufferLength →
    (List.range (windowCount h)).map s.adcSampleBuffer = (windowCalls h).map Call.sample)
    (fun _ => rfl) ?_ ?_ ?_ run fits
  · intro h s i earlier ih fits
    rw [windowCount_sampled] at fits ⊢
    have fits' : windowCount h ≤ rfBufferLength := Nat.le_of_succ_le fits
    have below : ∀ k ∈ List.range (windowCount h),
        (fastMeasure s i).1.adcSampleBuffer k = s.adcSampleBuffer k := by
      intro k hk
      refine Function.update_of_ne ?_ _ _
      rw [length_toNat earlier fits']
      exact (List.mem_range.mp hk).ne
    have stored : (fastMeasure s i).1.adcSampleBuffer (windowCount h) = callSample s i := by
      rw [← length_toNat earlier fits']
      exact Function.update_self _ _ _
    rw [List.range_succ, List.map_append, List.map_congr_left below, ih fits', windowCalls_sampled,
      List.map_append, List.map_singleton, stored]
    rfl
  · intro h s s' _ _ _ _ _
    rfl
  · intro h s s' e _ ih he frame _ fits
    rw [windowCount_cons he frame.call] at fits ⊢
    rw [windowCalls_cons he frame.call, frame.buffer]
    exact ih fits

end Prefix

theorem mem_calls_of_windowCalls {h : List Event} {call : Call} (mem : call ∈ windowCalls h) :
    call ∈ calls h := by
  have inWindow : call ∈ calls (window h) := List.mem_reverse.mp mem
  have sub : (window h).Sublist h := List.takeWhile_sublist _
  exact (sub.filterMap Event.call?).subset inWindow

/-- **The window and the buffer.** While at most `rfBufferLength` samples have
been taken since the last reset, the length is their number, the buffer prefix
is exactly their samples in the order of the calls, and every one of them holds
what its own call measured on every channel. -/
theorem window_represents (b : Board) (as : List Action)
    (fits : windowCount (history b as) ≤ rfBufferLength) :
    (finalState b as).rfSampleBufferLength.toNat = windowCount (history b as) ∧
      (List.range (finalState b as).rfSampleBufferLength.toNat).map
          (finalState b as).adcSampleBuffer =
        (windowCalls (history b as)).map Call.sample ∧
      ∀ call ∈ windowCalls (history b as), ∀ adc, Measured b.enabled call adc := by
  have run := run_history b as
  have length := length_toNat run fits
  refine ⟨length, ?_, ?_⟩
  · rw [length]
    exact prefix_eq run fits
  · intro call hcall
    exact measured_of_mem run call (mem_calls_of_windowCalls hcall)

/-- An interrupt whose bus answers the bytes from `first` on. -/
def risingInterrupt (first : ℕ) : Interrupt := ⟨fun n => BitVec.ofNat 8 (first + n), 0, 0⟩

/-- Two interrupts on the source's board, whose channels N and P are off. -/
def twoSamples : List Action :=
  [.fastMeasure (risingInterrupt 1), .fastMeasure (risingInterrupt 16)]

/-- Each sample has the readings of its own bytes. -/
theorem window_represents_two :
    (finalState sourceBoard twoSamples).rfSampleBufferLength.toNat = 2 ∧
      ((List.range 2).map (finalState sourceBoard twoSamples).adcSampleBuffer).map
          (fun sample => adcOrder.map sample.getValue) =
        [[129, 386, 0, 0], [2056, 2313, 0, 0]] := by
  have fits : windowCount (history sourceBoard twoSamples) ≤ rfBufferLength := by
    rw [rfBufferLength_eq]
    decide
  obtain ⟨length, samples, -⟩ := window_represents sourceBoard twoSamples fits
  have two : windowCount (history sourceBoard twoSamples) = 2 := rfl
  rw [length, two] at samples
  refine ⟨length.trans two, ?_⟩
  rw [samples]
  decide +kernel

end RFPowerDetector.Firmware
