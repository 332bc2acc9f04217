/-
Chip selects: which of the four active-low select pins are LOW during a transfer
and between two calls of `fastMeasure`.

`setup` makes the pins outputs, which puts them at LOW, and never drives them
HIGH; only the end of a channel's own `getADCMeasure` does. `pins_eq` gives the
level of every select pin in every state of a run, `transfer_levels` the levels
at every transfer. From them, `chipSelect_exclusive_iff`: as soon as a call reads
an ADC the other devices are selected with it.
-/

import RFPowerDetector.Firmware.Window

namespace RFPowerDetector.Firmware

open Transition

/-! ### Levels in every state -/

section Levels

variable {b : Board} {h : List Event} {s : State}

theorem setup_pins (b : Board) (adc : EnumADC) :
    (setup b).scan.pins (selectPin adc) = some .low := by
  cases adc <;> rfl

/-- A select pin is HIGH exactly when its channel is enabled and a call has been
made; otherwise it is still LOW from `setup`. -/
theorem pins_eq (run : (firmware b).Run h s) (adc : EnumADC) :
    s.scan.pins (selectPin adc) =
      some (if b.enabled adc = true ∧ calls h ≠ [] then .high else .low) := by
  refine run_invariant (I := fun h s => s.scan.pins (selectPin adc) =
    some (if b.enabled adc = true ∧ calls h ≠ [] then .high else .low)) ?_ ?_ ?_ run
  · simpa [calls] using setup_pins b adc
  · intro h s i earlier ih
    have driven : (fastMeasure s i).1.scan.pins (selectPin adc) =
        if s.enabled adc then some .high else s.scan.pins (selectPin adc) :=
      scanChannels_pins i.miso s.enabled _ adc
    rw [driven, enabled_eq earlier, ih]
    by_cases on : b.enabled adc = true
    · simp [on, calls, Event.call?]
    · simp [on]
  · intro h s s' e _ ih frame _
    rw [frame.pins, ih, calls_cons frame.call]

/-- The levels during a transfer of a call: the channel being read is LOW, and
another one is HIGH exactly when it is enabled and has been read before, in an
earlier call or earlier in this one. -/
theorem transfer_levels {i : Interrupt} (run : (firmware b).Run h s) {adc : EnumADC}
    {t : Transfer} (ht : t ∈ transfersFor adc (fastMeasure s i).2.transfers) (other : EnumADC) :
    t.pins (selectPin other) =
      some (if other ≠ adc ∧ b.enabled other = true ∧ (calls h ≠ [] ∨ other ∈ channelsBefore adc)
        then .high else .low) := by
  have transfers : transfersFor adc (fastMeasure s i).2.transfers = _ :=
    scanChannels_transfersFor i.miso s.enabled rfl adc
  rw [transfers, enabled_eq run] at ht
  split at ht
  case isFalse => simp at ht
  have levels : t.pins = digitalWrite
      (scan i.miso b.enabled (channelsBefore adc) { s.scan with transfers := [] }).pins
      (selectPin adc) .low := by
    simp only [readTransfers, List.mem_cons, List.not_mem_nil, or_false] at ht
    rcases ht with rfl | rfl <;> rfl
  rw [levels, digitalWrite]
  by_cases same : other = adc
  · subst same
    simp
  · have ne : selectPin other ≠ selectPin adc := fun h => same (selectPin_injective h)
    rw [Function.update_of_ne ne, scan_pins, pins_eq run]
    by_cases on : b.enabled other = true
    · by_cases seen : other ∈ channelsBefore adc <;> by_cases called : calls h = [] <;>
        simp [same, on, seen, called]
    · simp [on]

/-- No channel enabled, no transfer. -/
theorem transfers_eq_nil (run : (firmware b).Run h s) (off : ∀ adc, b.enabled adc = false) :
    ∀ call ∈ calls h, call.transfers = [] := by
  refine run_calls (P := fun call => call.transfers = []) ?_ run
  intro s i flags
  have count : adcOrder.countP s.enabled = 0 := by
    rw [flags]
    exact List.countP_eq_zero.mpr fun adc _ => by simp [off adc]
  have length := length_scan_transfers i.miso s.enabled adcOrder { s.scan with transfers := [] }
  rw [count] at length
  exact List.eq_nil_of_length_eq_zero length

end Levels

/-! ### Exclusivity -/

/-- During the transfer the pin of the ADC being read is LOW and the other three
are HIGH. -/
def Exclusive (t : Transfer) : Prop :=
  ∀ adc, t.pins (selectPin adc) = some (if selectPin adc = t.adcCSPin then .low else .high)

/-- Between two calls all four select pins are HIGH. -/
def DeselectedBetween (b : Board) (as : List Action) : Prop :=
  ∀ earlier later, as = earlier ++ later → calls (history b earlier) ≠ [] →
    (∃ i, .fastMeasure i ∈ later) →
    ∀ adc, (finalState b earlier).scan.pins (selectPin adc) = some .high

/-- Chip-select exclusivity of a run. -/
def ChipSelectExclusive (b : Board) (as : List Action) : Prop :=
  (∀ call ∈ calls (history b as), ∀ t ∈ call.transfers, Exclusive t) ∧ DeselectedBetween b as

theorem length_calls_exec (b : Board) (as : List Action) (c : List Event × State) :
    (calls ((firmware b).exec as c).1).length =
      (calls c.1).length + as.countP Action.isInterrupt := by
  induction as generalizing c with
  | nil => rfl
  | cons a as ih =>
      rw [Machine.exec, ih]
      cases a with
      | fastMeasure i =>
          have counted : (Action.fastMeasure i :: as).countP Action.isInterrupt =
              as.countP Action.isInterrupt + 1 := List.countP_cons_of_pos rfl
          show (calls c.1).length + 1 + _ = _
          omega
      | loop w =>
          have kept : calls ((step b.arith c.2 (.loop w)).2 :: c.1) = calls c.1 :=
            calls_cons (loop_frame b.arith c.2 w).call c.1
          have counted : (Action.loop w :: as).countP Action.isInterrupt =
              as.countP Action.isInterrupt :=
            List.countP_cons_of_neg (by simp [Action.isInterrupt])
          rw [counted, ← kept]
          rfl

theorem length_calls_history (b : Board) (as : List Action) :
    (calls (history b as)).length = as.countP Action.isInterrupt := by
  simpa [history, calls] using length_calls_exec b as ([], setup b)

/-- In the first call, the transfers of the first enabled channel run while every
other select pin is LOW. -/
theorem first_call_not_exclusive {b : Board} {h : List Event} {s : State}
    (run : (firmware b).Run h s) (called : calls h ≠ []) (adc other : EnumADC)
    (on : b.enabled adc = true) (first : ∀ a ∈ channelsBefore adc, b.enabled a = false)
    (ne : other ≠ adc) : ∃ call ∈ calls h, ∃ t ∈ call.transfers, ¬ Exclusive t := by
  refine run_invariant (I := fun h _ => calls h ≠ [] →
    ∃ call ∈ calls h, ∃ t ∈ call.transfers, ¬ Exclusive t) (fun h => absurd rfl h) ?_ ?_ run called
  · intro h s i earlier ih _
    by_cases none : calls h = []
    · refine ⟨_, List.mem_cons_self, ?_⟩
      have transfers : transfersFor adc (fastMeasure s i).2.transfers = _ :=
        scanChannels_transfersFor i.miso s.enabled rfl adc
      rw [enabled_eq earlier, if_pos on] at transfers
      obtain ⟨t, ht⟩ : ∃ t, t ∈ transfersFor adc (fastMeasure s i).2.transfers := by
        rw [transfers]; exact ⟨_, List.mem_cons_self⟩
      obtain ⟨mem, pin⟩ := List.mem_filter.mp ht
      refine ⟨t, mem, fun exclusive => ?_⟩
      have low : t.pins (selectPin other) = some .low := by
        rw [transfer_levels earlier ht]
        have notSeen : ¬ (b.enabled other = true ∧ other ∈ channelsBefore adc) :=
          fun ⟨onOther, seen⟩ => by simp [first other seen] at onOther
        simp only [none, ne_eq, not_true_eq_false, false_or]
        rw [if_neg fun h => notSeen h.2]
      have high := exclusive other
      have pinNe : selectPin other ≠ t.adcCSPin := by
        rw [of_decide_eq_true pin]
        exact fun h => ne (selectPin_injective h)
      rw [if_neg pinNe, low] at high
      exact absurd high (by simp)
    · obtain ⟨call, hcall, bad⟩ := ih none
      exact ⟨call, List.mem_cons_of_mem _ hcall, bad⟩
  · intro h s s' e _ ih frame _ called
    rw [calls_cons frame.call] at called ⊢
    exact ih called

/-- A run that calls `fastMeasure` with some channel enabled has a transfer during
which another device is selected. -/
theorem not_exclusive_of_enabled {b : Board} {h : List Event} {s : State}
    (run : (firmware b).Run h s) (called : calls h ≠ []) (adc : EnumADC)
    (on : b.enabled adc = true) : ∃ call ∈ calls h, ∃ t ∈ call.transfers, ¬ Exclusive t := by
  by_cases onA : b.enabled .adcA = true
  · exact first_call_not_exclusive run called .adcA .adcB onA
      (by simp [channelsBefore, adcOrder]) (by decide)
  by_cases onB : b.enabled .adcB = true
  · exact first_call_not_exclusive run called .adcB .adcA onB
      (by simpa [channelsBefore, adcOrder] using onA) (by decide)
  by_cases onN : b.enabled .adcN = true
  · exact first_call_not_exclusive run called .adcN .adcA onN
      (by simpa [channelsBefore, adcOrder] using And.intro onA onB) (by decide)
  · have onP : b.enabled .adcP = true := by cases adc <;> simp_all
    exact first_call_not_exclusive run called .adcP .adcA onP
      (by simpa [channelsBefore, adcOrder] using And.intro onA (And.intro onB onN)) (by decide)

/-- The last of several calls is preceded by a moment between two calls. -/
theorem exists_between (b : Board) (as : List Action) (two : 2 ≤ as.countP Action.isInterrupt) :
    ∃ earlier later, as = earlier ++ later ∧ calls (history b earlier) ≠ [] ∧
      ∃ i, .fastMeasure i ∈ later := by
  induction as using List.reverseRecOn with
  | nil => simp at two
  | append_singleton as a ih =>
      cases a with
      | fastMeasure i =>
          refine ⟨as, [.fastMeasure i], rfl, fun none => ?_, i, List.mem_singleton_self _⟩
          have zero := length_calls_history b as
          rw [none] at zero
          simp [Action.isInterrupt, ← zero] at two
      | loop w =>
          obtain ⟨earlier, later, rfl, called, i, hi⟩ := ih (by simpa [Action.isInterrupt] using two)
          exact ⟨earlier, later ++ [.loop w], by simp, called, i, List.mem_append_left _ hi⟩

/-- **Exclusivity of the chip selects.** It holds of a run only before the first
call of `fastMeasure`, or, when all four ADCs are disabled, before the second. -/
theorem chipSelect_exclusive_iff (b : Board) (as : List Action) :
    ChipSelectExclusive b as ↔
      as.countP Action.isInterrupt = 0 ∨
        (as.countP Action.isInterrupt = 1 ∧ ∀ adc, b.enabled adc = false) := by
  have run := run_history b as
  have count := length_calls_history b as
  constructor
  · rintro ⟨exclusive, deselected⟩
    by_cases none : calls (history b as) = []
    · left
      rw [← count, none]
      rfl
    · have off : ∀ adc, b.enabled adc = false := by
        intro adc
        by_contra on
        obtain ⟨call, hcall, t, ht, bad⟩ :=
          not_exclusive_of_enabled run none adc (Bool.not_eq_false _ ▸ on)
        exact bad (exclusive call hcall t ht)
      right
      refine ⟨?_, off⟩
      have some : (calls (history b as)).length ≠ 0 := by simpa using none
      by_contra more
      obtain ⟨earlier, later, split, called, again⟩ := exists_between b as (by omega)
      have high := deselected earlier later split called again .adcA
      rw [pins_eq (run_history b earlier)] at high
      simp [off] at high
  · intro few
    have noCallPair : DeselectedBetween b as := by
      rintro earlier later rfl called ⟨i, hi⟩
      have one : 0 < earlier.countP Action.isInterrupt := by
        rw [← length_calls_history b earlier]
        exact List.length_pos_iff.mpr called
      have another : 0 < later.countP Action.isInterrupt :=
        List.countP_pos_iff.mpr ⟨_, hi, rfl⟩
      rw [List.countP_append] at few
      omega
    rcases few with zero | ⟨-, off⟩
    · rw [zero] at count
      exact ⟨by simp [List.eq_nil_of_length_eq_zero count], noCallPair⟩
    · refine ⟨fun call hcall t ht => ?_, noCallPair⟩
      rw [transfers_eq_nil run off call hcall] at ht
      simp at ht

/-- One interrupt on the source's board: channel A is read while B, N and P are
selected. -/
theorem first_read_shared_bus :
    ¬ ∀ (b : Board) (as : List Action), ChipSelectExclusive b as := by
  intro claim
  have run := run_history sourceBoard [.fastMeasure quietInterrupt]
  obtain ⟨call, hcall, t, ht, bad⟩ := not_exclusive_of_enabled run
    (List.cons_ne_nil _ _) .adcA rfl
  exact bad ((claim sourceBoard _).1 call hcall t ht)

end RFPowerDetector.Firmware
