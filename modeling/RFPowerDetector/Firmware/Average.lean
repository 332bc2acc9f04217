/-
The sum of a channel while interrupts preempt it (`calculateChannelSum`,
`src/dataHelper.cpp`).

A call reads the length once and then one buffer entry an iteration; interrupts
between the iterations store at or beyond that length, and no reset can fall
inside the call, since `loop` makes it.

* `InCall.exec`: whatever the interrupts, the call computes the sum of the buffer
  as it was when the length was read.
* `calculateChannelSum_eq`: that sum is the integer sum of the readings in every
  arithmetic whose doubles hold the integers up to it, so its value does not
  depend on the order of the entries (`readingSum_perm`).
* `preempted_sum_exact`: both together, for the board's doubles.
-/

import Mathlib.Algebra.Order.BigOperators.Group.List
import RFPowerDetector.Firmware.Report

namespace RFPowerDetector.Firmware

open Transition

/-! ### Exact sums -/

/-- The sum of the first `i` readings of a channel. -/
def readingSum (sampleBuffer : ℕ → RFSample) (adc : EnumADC) (i : ℕ) : ℕ :=
  ((List.range i).map fun p => ((sampleBuffer p).reading adc).toNat).sum

/-- The doubles hold every sum of `n` readings. -/
def Arith.HoldsSums (ar : Arith) (n : ℕ) : Prop :=
  ∀ k : ℕ, k ≤ n * 65535 → ar.toDouble k = k

section Sums

variable {sampleBuffer other : ℕ → RFSample} {adc : EnumADC} {i n : ℕ}

theorem readingSum_succ (sampleBuffer : ℕ → RFSample) (adc : EnumADC) (i : ℕ) :
    readingSum sampleBuffer adc (i + 1) =
      readingSum sampleBuffer adc i + ((sampleBuffer i).reading adc).toNat :=
  List.sum_range_succ _ _

theorem readingSum_le_mul {m : ℕ}
    (bound : ∀ p, p < i → ((sampleBuffer p).reading adc).toNat ≤ m) :
    readingSum sampleBuffer adc i ≤ i * m := by
  have each := List.sum_le_card_nsmul
    ((List.range i).map fun p => ((sampleBuffer p).reading adc).toNat) m ?_
  · simpa [readingSum] using each
  · intro x hx
    obtain ⟨p, hp, rfl⟩ := List.mem_map.mp hx
    exact bound p (List.mem_range.mp hp)

theorem mul_le_readingSum {m : ℕ}
    (bound : ∀ p, p < i → m ≤ ((sampleBuffer p).reading adc).toNat) :
    i * m ≤ readingSum sampleBuffer adc i := by
  have each := List.card_nsmul_le_sum
    ((List.range i).map fun p => ((sampleBuffer p).reading adc).toNat) m ?_
  · simpa [readingSum] using each
  · intro x hx
    obtain ⟨p, hp, rfl⟩ := List.mem_map.mp hx
    exact bound p (List.mem_range.mp hp)

/-- Larger readings have a larger sum. -/
theorem readingSum_mono
    (le : ∀ p, p < i → ((sampleBuffer p).reading adc).toNat ≤ ((other p).reading adc).toNat) :
    readingSum sampleBuffer adc i ≤ readingSum other adc i := by
  refine List.sum_le_sum fun p hp => ?_
  exact le p (List.mem_range.mp hp)

theorem readingSum_le (sampleBuffer : ℕ → RFSample) (adc : EnumADC) (i : ℕ) :
    readingSum sampleBuffer adc i ≤ i * 65535 :=
  readingSum_le_mul fun _ _ => Nat.le_of_lt_succ (BitVec.isLt _)

/-- The sums of a buffer that fits the array are integers of at most 53 bits. -/
theorem readingSum_lt (sampleBuffer : ℕ → RFSample) (adc : EnumADC) (inside : i ≤ rfBufferLength) :
    readingSum sampleBuffer adc i < 2 ^ 53 := by
  have bound := readingSum_le sampleBuffer adc i
  rw [rfBufferLength_eq] at inside
  omega

/-- The order of the entries does not matter to their sum. -/
theorem readingSum_perm
    (perm : ((List.range n).map other).Perm ((List.range n).map sampleBuffer)) (adc : EnumADC) :
    readingSum other adc n = readingSum sampleBuffer adc n := by
  have sums (buffer : ℕ → RFSample) : readingSum buffer adc n =
      (((List.range n).map buffer).map fun sample => (sample.reading adc).toNat).sum := by
    rw [List.map_map, readingSum]
    rfl
  rw [sums, sums]
  exact (perm.map _).sum_eq

/-- In an arithmetic that holds the sums of `n` readings, no addition of the loop
rounds. -/
theorem addSample_readingSum {ar : Arith} (holds : ar.HoldsSums n)
    (sampleBuffer : ℕ → RFSample) (adc : EnumADC) (inside : i < n) :
    addSample ar sampleBuffer adc (readingSum sampleBuffer adc i) i =
      readingSum sampleBuffer adc (i + 1) := by
  have bound := readingSum_le sampleBuffer adc (i + 1)
  have next : (readingSum sampleBuffer adc i : ℚ) + (sampleBuffer i).getValue adc =
      (readingSum sampleBuffer adc (i + 1) : ℕ) := by
    rw [readingSum_succ, Nat.cast_add]
    rfl
  rw [addSample, next]
  exact holds _ (bound.trans (by omega))

/-- **The sum is exact.** -/
theorem calculateChannelSum_eq {ar : Arith} (holds : ar.HoldsSums n)
    (sampleBuffer : ℕ → RFSample) (selectedADC : RFInputADC) (inside : i ≤ n) :
    calculateChannelSum ar sampleBuffer i selectedADC =
      readingSum sampleBuffer selectedADC.getEnumADC i := by
  induction i with
  | zero => exact Nat.cast_zero.symm
  | succ i ih =>
      rw [Nat.cast_add, Nat.cast_one, calculateChannelSum_succ, ih (Nat.le_of_succ_le inside)]
      exact addSample_readingSum holds _ _ inside

/-- Every count of the type `long` has sums of fewer than 53 bits. -/
theorem ieee_holdsSums (small : n < 2 ^ 32) : Arith.ieee.HoldsSums n := by
  intro k hk
  have short : |(k : ℤ)| < 2 ^ 53 := by
    rw [abs_of_nonneg (Int.natCast_nonneg k)]
    omega
  exact_mod_cast Rounding.toPrecision_intCast (p := 53) short

end Sums

/-! ### A preempted call -/

/-- The number of interrupts among the actions. -/
def interrupts (as : List Action) : ℕ := as.countP Action.isInterrupt

/-- The number of steps of `loop` among the actions. -/
def loopSteps (as : List Action) : ℕ := as.countP fun a => !a.isInterrupt

@[simp] theorem interrupts_fastMeasure (i : Interrupt) (as : List Action) :
    interrupts (.fastMeasure i :: as) = interrupts as + 1 :=
  List.countP_cons_of_pos rfl

@[simp] theorem interrupts_loop (w : Answers) (as : List Action) :
    interrupts (.loop w :: as) = interrupts as :=
  List.countP_cons_of_neg Bool.false_ne_true

@[simp] theorem loopSteps_fastMeasure (i : Interrupt) (as : List Action) :
    loopSteps (.fastMeasure i :: as) = loopSteps as :=
  List.countP_cons_of_neg Bool.false_ne_true

@[simp] theorem loopSteps_loop (w : Answers) (as : List Action) :
    loopSteps (.loop w :: as) = loopSteps as + 1 :=
  List.countP_cons_of_pos rfl

/-- `loop` is about to call `calculateChannelAverage` for a channel, at a length of `n`. -/
structure AtCall (mode : Mode) (selectedADC : RFInputADC) (rest : List RFInputADC) (n : ℕ)
    (s : State) : Prop where
  pc : s.pc = .channels mode (selectedADC :: rest)
  selected : mode = .text → selectedADC.getEnabled = true
  printed : s.printing = []
  length : s.rfSampleBufferLength.toNat = n

/-- The call has made `i` iterations and `k` interrupts have fallen into it; the
buffer was `snapshot` when it read the length `n`. -/
structure InCall (ar : Arith) (snapshot : ℕ → RFSample) (mode : Mode) (selectedADC : RFInputADC)
    (rest : List RFInputADC) (n i k : ℕ) (s : State) : Prop where
  pc : s.pc = .summing mode selectedADC rest n i (calculateChannelSum ar snapshot i selectedADC)
  printed : s.printing = []
  length : s.rfSampleBufferLength.toNat = n + k
  entries : ∀ p, p < n → s.adcSampleBuffer p = snapshot p

section Call

variable {ar : Arith} {snapshot : ℕ → RFSample} {mode : Mode} {selectedADC : RFInputADC}
  {rest : List RFInputADC} {n i k : ℕ} {s : State}

theorem AtCall.call (standing : AtCall mode selectedADC rest n s) (inside : n ≤ rfBufferLength)
    (ar : Arith) (w : Answers) :
    InCall ar s.adcSampleBuffer mode selectedADC rest n 0 0 (step ar s (.loop w)).1 := by
  have count : s.rfSampleBufferLength.toInt = n := by
    rw [rfBufferLength_eq] at inside
    rw [BitVec.toInt_eq_toNat_of_lt (by have := standing.length; omega), standing.length]
  have moved : (step ar s (.loop w)).1 =
      { s with pc := .summing mode selectedADC rest n 0 0 } := by
    cases mode with
    | csv => simp [step, standing.printed, loopStep, standing.pc, count]
    | text => simp [step, standing.printed, loopStep, standing.pc, count, standing.selected rfl]
  rw [moved]
  exact ⟨rfl, standing.printed, standing.length, fun _ _ => rfl⟩

/-- An interrupt stores at or beyond the length the call has read. -/
theorem InCall.interrupt (inCall : InCall ar snapshot mode selectedADC rest n i k s)
    (room : n + k < rfBufferLength) (j : Interrupt) :
    InCall ar snapshot mode selectedADC rest n i (k + 1) (fastMeasure s j).1 where
  pc := inCall.pc
  printed := inCall.printed
  length := by
    have length := inCall.length
    rw [rfBufferLength_eq] at room
    show (s.rfSampleBufferLength + 1).toNat = n + (k + 1)
    rw [BitVec.toNat_add, length]
    show (n + k + 1) % 2 ^ 32 = _
    omega
  entries := by
    intro p hp
    have length := inCall.length
    exact (Function.update_of_ne (by omega) _ _).trans (inCall.entries p hp)

/-- One iteration: it reads an entry below the length the call has read. -/
theorem InCall.iterate (inCall : InCall ar snapshot mode selectedADC rest n i k s)
    (more : i < n) (w : Answers) :
    InCall ar snapshot mode selectedADC rest n (i + 1) k (step ar s (.loop w)).1 := by
  have entry := inCall.entries i more
  have moved : (step ar s (.loop w)).1 =
      { s with
        pc := .summing mode selectedADC rest n (i + 1)
          (calculateChannelSum ar snapshot ((i : ℤ) + 1) selectedADC) } := by
    simp [step, inCall.printed, loopStep, inCall.pc, more, calculateChannelSum_succ, addSample,
      entry]
  rw [moved]
  exact ⟨by rw [Nat.cast_add, Nat.cast_one], inCall.printed, inCall.length, inCall.entries⟩

/-- After the last iteration the call returns its sum to the average. -/
theorem InCall.returns (inCall : InCall ar snapshot mode selectedADC rest n n k s) (w : Answers) :
    (step ar s (.loop w)).2 = .averaged mode selectedADC
      (calculateChannelAverage ar snapshot n selectedADC) w.unspecified := by
  cases mode <;>
    simp [step, inCall.printed, loopStep, inCall.pc, calculateChannelAverage]

/-- **The loop under preemption** computes the sum of the snapshot. -/
theorem InCall.exec {b : Board} (as : List Action) (h : List Event)
    (inCall : InCall b.arith snapshot mode selectedADC rest n i k s)
    (inside : i + loopSteps as ≤ n) (room : n + (k + interrupts as) ≤ rfBufferLength) :
    InCall b.arith snapshot mode selectedADC rest n (i + loopSteps as) (k + interrupts as)
      ((firmware b).exec as (h, s)).2 := by
  induction as generalizing h s i k with
  | nil => exact inCall
  | cons a as ih =>
      cases a with
      | fastMeasure j =>
          rw [interrupts_fastMeasure] at room ⊢
          rw [loopSteps_fastMeasure] at inside ⊢
          have next := inCall.interrupt (by omega) j
          have later := ih (.sampled (fastMeasure s j).2 :: h) next inside (by omega)
          rwa [Nat.add_assoc, Nat.add_comm 1] at later
      | loop w =>
          rw [interrupts_loop] at room ⊢
          rw [loopSteps_loop] at inside ⊢
          have next := inCall.iterate (by omega) w
          have later := ih ((step b.arith s (.loop w)).2 :: h) next (by omega) room
          rwa [Nat.add_assoc, Nat.add_comm 1] at later

end Call

/-- **Averaging under preemption.** From any state in which `loop` is about to call
`calculateChannelAverage` for a channel at a length of `n`, under any
interrupts that leave the window inside the array: after `i` iterations the loop
holds the exact sum of the first `i` readings of the buffer as it was at the call,
an integer below `2 ^ 53` that no addition has rounded; after `n` iterations the
call returns the average of the exact sum of all `n`; and every order of those
entries has that sum. -/
theorem preempted_sum_exact (b : Board) (ieee : b.arith = .ieee) (h : List Event) {s : State}
    {mode : Mode} {selectedADC : RFInputADC} {rest : List RFInputADC} {n : ℕ}
    (call : AtCall mode selectedADC rest n s) (w : Answers) (as : List Action)
    (inside : loopSteps as ≤ n) (room : n + interrupts as ≤ rfBufferLength) :
    ((firmware b).exec (.loop w :: as) (h, s)).2.pc =
        .summing mode selectedADC rest n (loopSteps as)
          (readingSum s.adcSampleBuffer selectedADC.getEnumADC (loopSteps as)) ∧
      readingSum s.adcSampleBuffer selectedADC.getEnumADC (loopSteps as) < 2 ^ 53 ∧
      (∀ i, i < n →
        addSample .ieee s.adcSampleBuffer selectedADC.getEnumADC
            (readingSum s.adcSampleBuffer selectedADC.getEnumADC i) i =
          readingSum s.adcSampleBuffer selectedADC.getEnumADC i +
            (s.adcSampleBuffer i).getValue selectedADC.getEnumADC) ∧
      (loopSteps as = n → ∀ w',
        (step b.arith ((firmware b).exec (.loop w :: as) (h, s)).2 (.loop w')).2 =
          .averaged mode selectedADC
            (averageOf .ieee (readingSum s.adcSampleBuffer selectedADC.getEnumADC n) n)
            w'.unspecified) ∧
      ∀ other : ℕ → RFSample,
        ((List.range n).map other).Perm ((List.range n).map s.adcSampleBuffer) →
        calculateChannelSum .ieee other n selectedADC =
          readingSum s.adcSampleBuffer selectedADC.getEnumADC n := by
  have capacity : n < 2 ^ 32 := by
    rw [rfBufferLength_eq] at room
    omega
  have holds := ieee_holdsSums capacity
  have started := call.call (by omega) b.arith w
  have inCall := started.exec as ((step b.arith s (.loop w)).2 :: h) (by omega) (by omega)
  rw [Nat.zero_add, Nat.zero_add] at inCall
  have sum (i : ℕ) (hi : i ≤ n) :
      calculateChannelSum b.arith s.adcSampleBuffer i selectedADC =
        readingSum s.adcSampleBuffer selectedADC.getEnumADC i := by
    rw [ieee]
    exact calculateChannelSum_eq holds _ _ hi
  refine ⟨?_, readingSum_lt _ _ (by omega), ?_, ?_, ?_⟩
  · rw [← sum _ inside]
    exact inCall.pc
  · intro i hi
    rw [addSample_readingSum holds _ _ hi, readingSum_succ, Nat.cast_add]
    rfl
  · intro all w'
    rw [all] at inCall
    have returned := inCall.returns w'
    rw [calculateChannelAverage, sum n le_rfl] at returned
    exact returned.trans (by rw [ieee])
  · intro other perm
    rw [calculateChannelSum_eq holds _ _ le_rfl, readingSum_perm perm]

/-- A state about to average channel A over two samples that read 1. -/
def atCallTwo : State :=
  { setup sourceBoard with
    rfSampleBufferLength := 2
    adcSampleBuffer := fun _ => .ofArray (fun _ => 1) 0
    pc := .channels .csv [adcOut .adcA] }

/-- An interrupt before, between and after the two iterations. -/
theorem preempted_sum_exact_two :
    ((firmware sourceBoard).exec
        [.loop dueAnswers, .fastMeasure quietInterrupt, .loop dueAnswers,
          .fastMeasure quietInterrupt, .loop dueAnswers, .fastMeasure quietInterrupt]
        ([], atCallTwo)).2.pc =
      .summing .csv (adcOut .adcA) [] 2 2 (2 : ℕ) :=
  (preempted_sum_exact sourceBoard rfl [] (s := atCallTwo) ⟨rfl, by simp, rfl, rfl⟩ dueAnswers
    [.fastMeasure quietInterrupt, .loop dueAnswers, .fastMeasure quietInterrupt, .loop dueAnswers,
      .fastMeasure quietInterrupt] (by decide) (by rw [rfBufferLength_eq]; decide)).1

end RFPowerDetector.Firmware
