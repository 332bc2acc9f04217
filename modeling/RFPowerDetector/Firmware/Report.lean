/-
Reports: which samples a report's channel averages are computed from.

Every read of the length, for the header or for a channel, is the number of
samples the window holds at that moment (`count_eq`). `status` says how far the
report is with a channel when `loop` stands at a given place; `run_progress`
shows that the window's events agree with it, so that an average is
`calculateChannelAverage` of the prefix of the window that its count was read
for (`averaged_eq`).
-/

import RFPowerDetector.Firmware.Window

namespace RFPowerDetector.Firmware

open Transition

/-! ### Counts -/

/-- The length an event reads for the header or for a channel average. -/
def Event.count? : Event → Option ℤ
  | .headerCounted n => some n
  | .averageCalled _ _ n => some n
  | _ => none

section Counts

variable {b : Board} {h : List Event} {s : State}

/-- A count is the number of samples in the window at the moment it is read. -/
theorem count_eq {e : Event} {n : ℤ} (run : (firmware b).Run (e :: h) s) (fits : Fits h)
    (count : e.count? = some n) : n = windowCount h := by
  obtain ⟨s', earlier, ⟨i, rfl⟩ | ⟨-, control⟩⟩ := last_step run
  · cases count
  · have toInt := length_toInt earlier fits.now
    generalize s.pc = pc at control
    cases control <;> cases count <;> exact toInt

/-- A summing loop reads a position inside the window. -/
theorem averageRead_lt {adc : EnumADC} {p : ℕ} (run : (firmware b).Run (.averageRead adc p :: h) s)
    (fits : Fits h) : p < windowCount h := by
  obtain ⟨s', earlier, ⟨i, impossible⟩ | ⟨-, control⟩⟩ := last_step run
  · cases impossible
  · have counts := countsInWindow earlier fits
    generalize s.pc = pc at control
    cases control with
    | averageRead pc more =>
        rw [pc] at counts
        simp only [CountsInWindow] at counts
        omega

end Counts

/-! ### Progress of a report -/

/-- The events of a channel's `calculateChannelAverage`: the read of its count
and the iterations of its summing loop. -/
def Event.averages (adc : EnumADC) : Event → Bool
  | .averageCalled _ a _ => a = adc
  | .averageRead a _ => a = adc
  | _ => false

/-- The events of the window that average a channel, newest first. -/
def averagingOf (adc : EnumADC) (h : List Event) : List Event :=
  (window h).filter (Event.averages adc)

/-- A call of `calculateChannelAverage` with the count `n` after `i` iterations. -/
def averaging (mode : Mode) (adc : EnumADC) (n : ℤ) : ℕ → List Event
  | 0 => [.averageCalled mode adc n]
  | i + 1 => .averageRead adc i :: averaging mode adc n i

theorem averageCalled_mem_averaging (mode : Mode) (adc : EnumADC) (n : ℤ) (i : ℕ) :
    .averageCalled mode adc n ∈ averaging mode adc n i := by
  induction i with
  | zero => exact List.mem_singleton_self _
  | succ i ih => exact List.mem_cons_of_mem _ ih

/-- How far a report is with a channel. -/
inductive Status where
  | fresh
  | active (mode : Mode) (n : ℤ) (i : ℕ)
  | settled

/-- What the averaging events of the window are at a status: none, those of a
call under way, or those of a complete call (none, if the channel was skipped). -/
def Status.Holds (adc : EnumADC) (events : List Event) : Status → Prop
  | .fresh => events = []
  | .active mode n i => events = averaging mode adc n i ∧ i ≤ n.toNat
  | .settled => events = [] ∨ ∃ mode n, events = averaging mode adc n n.toNat

/-- The status of a channel when `loop` stands at a program counter. -/
def status (adc : EnumADC) : Pc → Status
  | .channels _ rest => if adc ∈ rest.map RFInputADC.getEnumADC then .fresh else .settled
  | .summing mode selectedADC rest n i _ =>
      if adc = selectedADC.getEnumADC then .active mode n i
      else if adc ∈ rest.map RFInputADC.getEnumADC then .fresh else .settled
  | .reset => .settled
  | _ => .fresh

/-- The channels the report has not finished. -/
def pending : Pc → List EnumADC
  | .channels _ rest => rest.map RFInputADC.getEnumADC
  | .summing _ selectedADC rest _ _ _ =>
      selectedADC.getEnumADC :: rest.map RFInputADC.getEnumADC
  | _ => []

theorem rfAdcList_getEnumADC (enabled : EnumADC → Bool) :
    (rfAdcList enabled).map RFInputADC.getEnumADC = adcOrder := by
  simp [rfAdcList, adcOrder, adcOut, RFInputADC.setEnabled, RFInputADC.getEnumADC, RFInputADC.new]

/-- Events of other channels, and events that average none, keep a channel's list. -/
theorem averagingOf_cons_other {adc : EnumADC} {e : Event} (he : e ≠ .reset)
    (other : e.averages adc = false) (h : List Event) :
    averagingOf adc (e :: h) = averagingOf adc h := by
  rw [averagingOf, window_cons he, List.filter_cons_of_neg (by simp [other])]
  rfl

theorem averagingOf_cons_own {adc : EnumADC} {e : Event} (own : e.averages adc = true)
    (h : List Event) : averagingOf adc (e :: h) = e :: averagingOf adc h := by
  have he : e ≠ .reset := by
    rintro rfl
    cases own
  rw [averagingOf, window_cons he, List.filter_cons_of_pos own]
  rfl

theorem averagingOf_averageCalled (adc a : EnumADC) (mode : Mode) (n : ℤ) (h : List Event) :
    averagingOf adc (.averageCalled mode a n :: h) =
      if a = adc then .averageCalled mode a n :: averagingOf adc h else averagingOf adc h := by
  split
  · rename_i same
    exact averagingOf_cons_own (by simp [Event.averages, same]) h
  · rename_i other
    exact averagingOf_cons_other (by simp) (by simp [Event.averages, other]) h

theorem averagingOf_averageRead (adc a : EnumADC) (i : ℕ) (h : List Event) :
    averagingOf adc (.averageRead a i :: h) =
      if a = adc then .averageRead a i :: averagingOf adc h else averagingOf adc h := by
  split
  · rename_i same
    exact averagingOf_cons_own (by simp [Event.averages, same]) h
  · rename_i other
    exact averagingOf_cons_other (by simp) (by simp [Event.averages, other]) h

section Progress

variable {b : Board} {h : List Event} {s : State}

/-- The window's averaging events of every channel agree with the status the
program counter gives it. -/
structure Progress (h : List Event) (pc : Pc) : Prop where
  nodup : (pending pc).Nodup
  holds : ∀ adc, (status adc pc).Holds adc (averagingOf adc h)

/-- An event that averages no channel keeps what the window says. -/
theorem Progress.other {pc : Pc} {e : Event} (progress : Progress h pc) (he : e ≠ .reset)
    (other : ∀ adc, e.averages adc = false) : Progress (e :: h) pc :=
  ⟨progress.nodup, fun adc => averagingOf_cons_other he (other adc) h ▸ progress.holds adc⟩

/-- Program counters with the same pending channels and statuses. -/
theorem Progress.move {pc pc' : Pc} (progress : Progress h pc) (nodup : (pending pc').Nodup)
    (same : ∀ adc, status adc pc' = status adc pc) : Progress h pc' :=
  ⟨nodup, fun adc => same adc ▸ progress.holds adc⟩

theorem run_progress (run : (firmware b).Run h s) : Progress h s.pc := by
  refine run_invariant (I := fun h s => Progress h s.pc) ⟨List.nodup_nil, fun _ => rfl⟩ ?_ ?_ run
  · intro h s i _ ih
    exact ih.other nofun fun _ => rfl
  · intro h s s' e _ ih frame control
    generalize s'.pc = pc' at control
    cases control with
    | printed text _ => exact ih.other nofun fun _ => rfl
    | reset _ => exact ⟨List.nodup_nil, fun _ => rfl⟩
    | csvReport pc _ =>
        rw [pc] at ih
        refine (ih.move ?_ fun adc => ?_).other nofun fun _ => rfl
        · rw [pending, rfAdcList_getEnumADC]; decide
        · rw [status, rfAdcList_getEnumADC, if_pos (mem_adcOrder adc)]; rfl
    | frameRead k pc =>
        rw [pc] at ih
        refine (ih.move ?_ fun adc => ?_).other nofun fun _ => rfl
        · rw [pending, rfAdcList_getEnumADC]; decide
        · rw [status, rfAdcList_getEnumADC, if_pos (mem_adcOrder adc)]; rfl
    | channelsDone mode pc =>
        rw [pc] at ih
        exact Progress.other ⟨List.nodup_nil, ih.holds⟩ nofun fun _ => rfl
    | @skipped adc rest pc _ =>
        rw [pc] at ih
        obtain ⟨unseen, nodup⟩ := List.nodup_cons.mp ih.nodup
        refine Progress.other ⟨nodup, fun a => ?_⟩ nofun fun _ => rfl
        have old := ih.holds a
        by_cases same : a = adc.getEnumADC
        · subst same
          simp only [status, List.map_cons, List.mem_cons, true_or, if_true] at old
          rw [status, if_neg unseen]
          exact .inl old
        · simpa only [status, List.map_cons, List.mem_cons, same, false_or] using old
    | @averageCalled mode adc rest pc _ =>
        rw [pc] at ih
        refine ⟨ih.nodup, fun a => ?_⟩
        have old := ih.holds a
        by_cases same : a = adc.getEnumADC
        · subst same
          simp only [status, List.map_cons, List.mem_cons, true_or, if_true, Status.Holds] at old
          rw [averagingOf_averageCalled, if_pos rfl, old, status, if_pos rfl]
          exact ⟨rfl, Nat.zero_le _⟩
        · rw [averagingOf_averageCalled, if_neg (Ne.symm same), status, if_neg same]
          simpa only [status, List.map_cons, List.mem_cons, same, false_or] using old
    | @averageRead mode adc rest n i sum pc more =>
        rw [pc] at ih
        refine ⟨ih.nodup, fun a => ?_⟩
        have old := ih.holds a
        by_cases same : a = adc.getEnumADC
        · subst same
          rw [status, if_pos rfl] at old ⊢
          obtain ⟨events, -⟩ := old
          rw [averagingOf_averageRead, if_pos rfl, events]
          exact ⟨rfl, by omega⟩
        · rw [averagingOf_averageRead, if_neg (Ne.symm same)]
          rw [status, if_neg same] at old ⊢
          exact old
    | @averaged mode adc rest n i sum _ pc done =>
        rw [pc] at ih
        obtain ⟨unseen, nodup⟩ := List.nodup_cons.mp ih.nodup
        refine Progress.other ⟨nodup, fun a => ?_⟩ nofun fun _ => rfl
        have old := ih.holds a
        by_cases same : a = adc.getEnumADC
        · subst same
          rw [status, if_pos rfl] at old
          obtain ⟨events, le⟩ := old
          have all : i = n.toNat := by omega
          rw [status, if_neg unseen]
          exact .inr ⟨mode, n, all ▸ events⟩
        · rw [status, if_neg same] at old
          exact old
    | textReport pc _ =>
        rw [pc] at ih
        exact Progress.other ⟨List.nodup_nil, ih.holds⟩ nofun fun _ => rfl
    | _ =>
        rename_i pc
        rw [pc] at ih
        exact Progress.other ⟨List.nodup_nil, ih.holds⟩ nofun fun _ => rfl

end Progress

/-! ### Averages -/

/-- The samples of the window, by position. -/
def windowBuffer (h : List Event) (p : ℕ) : RFSample :=
  ((windowCalls h).map Call.sample).getD p .invalid

section Averages

variable {b : Board} {h : List Event} {s : State}

/-- Inside the window the buffer holds the window's samples. -/
theorem buffer_eq (run : (firmware b).Run h s) (fits : Fits h) {p : ℕ} (hp : p < windowCount h) :
    s.adcSampleBuffer p = windowBuffer h p := by
  rw [windowBuffer, ← prefix_eq run fits.now]
  simp [hp]

/-- The sum a program counter holds is the sum of the entries before its position. -/
def SumSoFar (ar : Arith) (s : State) : Prop :=
  ∀ mode selectedADC rest n i sum, s.pc = .summing mode selectedADC rest n i sum →
    sum = calculateChannelSum ar s.adcSampleBuffer i selectedADC

theorem run_sumSoFar (run : (firmware b).Run h s) (fits : Fits h) : SumSoFar b.arith s := by
  refine run_invariant (I := fun h s => Fits h → SumSoFar b.arith s)
    (fun _ _ _ _ _ _ _ pc => by cases pc) ?_ ?_ run fits
  · intro h s i earlier ih fits mode adc rest n p sum pc
    have old := ih fits.tail mode adc rest n p sum pc
    have counts := countsInWindow earlier fits.tail
    have active := (run_progress earlier).holds adc.getEnumADC
    have held : s.pc = .summing mode adc rest n p sum := pc
    rw [held] at counts active
    rw [status, if_pos rfl] at active
    obtain ⟨-, below⟩ := active
    simp only [CountsInWindow] at counts
    rw [old]
    refine calculateChannelSum_congr (fun q hq => ?_) adc
    -- the interrupt stores at the window's end, past every position summed
    refine (Function.update_of_ne ?_ _ _).symm
    rw [length_toNat earlier fits.tail.now]
    omega
  · intro h s s' e _ ih frame control fits mode adc rest n p sum pc
    have old := ih fits.tail
    rw [frame.buffer]
    generalize s'.pc = pc' at control pc
    subst pc
    generalize hpc : Pc.summing mode adc rest n p sum = pc' at control
    cases control with
    | printed text _ => exact old _ _ _ _ _ _ hpc.symm
    | averageCalled _ _ =>
        cases hpc
        rfl
    | averageRead before _ =>
        cases hpc
        rw [Nat.cast_add, Nat.cast_one, calculateChannelSum_succ, ← old _ _ _ _ _ _ before]
    | _ => cases hpc

theorem averageCalled_of_averaging {mode : Mode} {adc : EnumADC} {n : ℤ} {i : ℕ}
    (events : averagingOf adc h = averaging mode adc n i) :
    .averageCalled mode adc n ∈ window h := by
  have last : .averageCalled mode adc n ∈ averagingOf adc h := by
    rw [events]
    exact averageCalled_mem_averaging mode adc n i
  exact (List.mem_filter.mp last).1

/-- A member of the window splits the history at an earlier moment of the window. -/
theorem split_window {e : Event} (mem : e ∈ window h) :
    ∃ mid earlier, h = mid ++ e :: earlier ∧ ∀ e ∈ mid, e ≠ .reset := by
  obtain ⟨mid, rest, split⟩ := List.append_of_mem mem
  refine ⟨mid, rest ++ before isReset h, ?_, fun e' he' => ?_⟩
  · have all : window h ++ before isReset h = h := since_append_before isReset h
    rw [split] at all
    simpa using all.symm
  · refine isReset_eq_false.mp (mark_eq_false_of_mem_since (h := h) ?_)
    show e' ∈ window h
    rw [split]
    exact List.mem_append_left _ he'

/-- **A printed average is the function's value on a prefix of the window**: the
one whose length was counted when the function was called. -/
theorem averaged_eq {mode : Mode} {selectedADC : RFInputADC} {average : Option ℚ} {u : Word}
    (run : (firmware b).Run (.averaged mode selectedADC average u :: h) s) (fits : Fits h) :
    ∃ mid earlier, h = mid ++ .averageCalled mode selectedADC.getEnumADC (windowCount earlier) ::
        earlier ∧ (∀ e ∈ mid, e ≠ .reset) ∧
      average = calculateChannelAverage b.arith (windowBuffer h) (windowCount earlier)
        selectedADC := by
  obtain ⟨s', before, ⟨i, impossible⟩ | ⟨-, control⟩⟩ := last_step run
  · cases impossible
  · have counts := countsInWindow before fits
    have active := (run_progress before).holds selectedADC.getEnumADC
    have sums := run_sumSoFar before fits
    generalize s.pc = pc at control
    cases control with
    | @averaged _ _ rest n i sum _ pc done =>
        rw [pc] at counts active
        rw [status, if_pos rfl] at active
        obtain ⟨events, le⟩ := active
        simp only [CountsInWindow] at counts
        obtain ⟨mid, earlier, rfl, same⟩ := split_window (averageCalled_of_averaging events)
        obtain ⟨s'', atCall⟩ := before.suffix (List.suffix_append mid _)
        have fitsEarlier : Fits earlier := Fits.tail (fits.suffix (List.suffix_append mid _))
        have count : n = windowCount earlier := count_eq atCall fitsEarlier rfl
        refine ⟨mid, earlier, by rw [← count], same, ?_⟩
        have all : (i : ℤ) = n := by omega
        rw [← count, calculateChannelAverage, sums _ _ _ _ _ _ pc, all]
        congr 1
        refine calculateChannelSum_congr (fun p hp => buffer_eq before fits ?_) selectedADC
        omega

end Averages

/-- The calls of a history whose part after an event holds no reset. -/
theorem windowCount_append {mid : List Event} (same : ∀ e ∈ mid, e ≠ .reset) (h : List Event) :
    windowCount (mid ++ h) = (calls mid).length + windowCount h := by
  have window_append : window (mid ++ h) = mid ++ window h :=
    since_append (fun e he => isReset_eq_false.mpr (same e he)) h
  rw [windowCount, window_append, calls, List.filterMap_append, List.length_append]
  rfl

/-- Later events of a window leave its samples in place. -/
theorem windowBuffer_append {mid : List Event} (same : ∀ e ∈ mid, e ≠ .reset) (h : List Event)
    {p : ℕ} (hp : p < windowCount h) : windowBuffer (mid ++ h) p = windowBuffer h p := by
  have window_append : window (mid ++ h) = mid ++ window h :=
    since_append (fun e he => isReset_eq_false.mpr (same e he)) h
  have more : windowCalls (mid ++ h) = windowCalls h ++ (calls mid).reverse := by
    rw [windowCalls, window_append, calls, List.filterMap_append, List.reverse_append]
    rfl
  have inside : p < ((windowCalls h).map Call.sample).length := by
    rw [List.length_map, length_windowCalls]
    exact hp
  rw [windowBuffer, windowBuffer, more, List.map_append, List.getD_eq_getElem?_getD,
    List.getD_eq_getElem?_getD, List.getElem?_append_left inside]

/-- An event of the window that found `n` samples in it. -/
def CountedBy (h : List Event) (e : Event) (n : ℕ) : Prop :=
  ∃ mid earlier, h = mid ++ e :: earlier ∧ (∀ e' ∈ mid, e' ≠ .reset) ∧ n = windowCount earlier

theorem CountedBy.append {h mid : List Event} {e : Event} {n : ℕ} (counted : CountedBy h e n)
    (same : ∀ e ∈ mid, e ≠ .reset) : CountedBy (mid ++ h) e n := by
  obtain ⟨mid', earlier, rfl, same', count⟩ := counted
  refine ⟨mid ++ mid', earlier, (List.append_assoc _ _ _).symm, fun e' he' => ?_, count⟩
  exact (List.mem_append.mp he').elim (same e') (same' e')

theorem CountedBy.mem {h : List Event} {e : Event} {n : ℕ} (counted : CountedBy h e n) : e ∈ h := by
  obtain ⟨mid, earlier, rfl, -⟩ := counted
  exact List.mem_append_right _ List.mem_cons_self

theorem CountedBy.le {h : List Event} {e : Event} {n : ℕ} (counted : CountedBy h e n)
    (none : e.call? = none) (he : e ≠ .reset) : n ≤ windowCount h := by
  obtain ⟨mid, earlier, rfl, same, rfl⟩ := counted
  rw [windowCount_append same, windowCount_cons he none]
  exact Nat.le_add_left _ _

/-! ### The counts of one report -/

/-- All counts read between two resets agree. -/
def OneCount (h : List Event) : Prop :=
  ∀ second between first earlier, second :: (between ++ first :: earlier) <:+ h →
    (∀ e ∈ between, e ≠ .reset) →
    ∀ m n, first.count? = some m → second.count? = some n → m = n

/-- Answers at which the timers fire and no byte waits on the serial port. -/
def dueAnswers : Answers := ⟨true, 0, 0, none⟩

/-- Steps of `loop` while the timers are due. -/
def loops (n : ℕ) : List Action := List.replicate n (.loop dueAnswers)

/-- A CSV report up to channel B's count, with an interrupt after channel A. -/
def splitReport : List Action :=
  .fastMeasure quietInterrupt :: loops 7 ++ .fastMeasure quietInterrupt :: loops 1

/-- The events between the counts of channels A and B. -/
def splitBetween : List Event := (history sourceBoard splitReport).tail.take 5

theorem splitReport_suffix :
    .averageCalled .csv .adcB 2 :: (splitBetween ++ .averageCalled .csv .adcA 1 ::
      (history sourceBoard splitReport).drop 7) <:+ history sourceBoard splitReport :=
  ⟨[], rfl⟩

theorem splitBetween_ne_reset : ∀ e ∈ splitBetween, e ≠ .reset := ne_reset_of_all rfl

/-- An interrupt between the counts of two channels gives one report two sample
sets. -/
theorem interrupt_splits_report : ¬ ∀ (b : Board) (as : List Action), OneCount (history b as) := by
  intro claim
  have equal := claim sourceBoard splitReport _ _ _ _ splitReport_suffix splitBetween_ne_reset
    1 2 rfl rfl
  omega

theorem ne_reset_of_count {e : Event} {n : ℤ} (count : e.count? = some n) : e ≠ .reset := by
  rintro rfl
  cases count

theorem call_eq_none_of_count {e : Event} {n : ℤ} (count : e.count? = some n) :
    e.call? = none := by
  cases e <;> first | rfl | cases count

/-- Two counts of one window differ by the interrupts between them. -/
theorem counts_differ {b : Board} {h : List Event} {s : State} (run : (firmware b).Run h s)
    (fits : Fits h) {second first : Event} {between earlier : List Event}
    (suffix : second :: (between ++ first :: earlier) <:+ h) (same : ∀ e ∈ between, e ≠ .reset)
    {m n : ℤ} (hm : first.count? = some m) (hn : second.count? = some n) :
    n = m + (calls between).length := by
  obtain ⟨s₂, atSecond⟩ := run.suffix suffix
  have fitsSecond : Fits (between ++ first :: earlier) := Fits.tail (fits.suffix suffix)
  have within : first :: earlier <:+ between ++ first :: earlier := List.suffix_append _ _
  obtain ⟨s₁, atFirst⟩ := run.suffix (within.trans ((List.suffix_cons _ _).trans suffix))
  have fitsFirst : Fits earlier := Fits.tail (fitsSecond.suffix within)
  have window : windowCount (first :: earlier) = windowCount earlier :=
    windowCount_cons (ne_reset_of_count hm) (call_eq_none_of_count hm) earlier
  rw [count_eq atSecond fitsSecond hn, count_eq atFirst fitsFirst hm, windowCount_append same,
    window]
  push_cast
  ring

/-- **The windows of one report.** Each printed average is over the samples taken
up to the moment its own count was read, and two counts of one report, the
header's included, differ by exactly the interrupts between them. -/
theorem report_counts (b : Board) (as : List Action) (fits : Fits (history b as)) :
    (∀ mode selectedADC average u g,
      .averaged mode selectedADC average u :: g <:+ history b as →
      ∃ mid earlier, g = mid ++ .averageCalled mode selectedADC.getEnumADC (windowCount earlier) ::
          earlier ∧ (∀ e ∈ mid, e ≠ .reset) ∧
        average = calculateChannelAverage b.arith (windowBuffer g) (windowCount earlier)
          selectedADC) ∧
      ∀ second between first earlier, second :: (between ++ first :: earlier) <:+ history b as →
        (∀ e ∈ between, e ≠ .reset) →
        ∀ m n, first.count? = some m → second.count? = some n →
          n = m + (calls between).length := by
  have run := run_history b as
  constructor
  · intro mode selectedADC average u g suffix
    obtain ⟨s, atAverage⟩ := run.suffix suffix
    exact averaged_eq atAverage (Fits.tail (fits.suffix suffix))
  · intro second between first earlier suffix same m n hm hn
    exact counts_differ run fits suffix same hm hn

/-- The counts of the split report: one interrupt apart. -/
theorem report_counts_splitReport :
    Fits (history sourceBoard splitReport) ∧ (2 : ℤ) = 1 + (calls splitBetween).length := by
  have short : splitReport.length ≤ rfBufferLength := by
    rw [rfBufferLength_eq]
    decide
  have fits := fits_history (b := sourceBoard) short
  exact ⟨fits, (report_counts sourceBoard splitReport fits).2 _ _ _ _ splitReport_suffix
    splitBetween_ne_reset 1 2 rfl rfl⟩

end RFPowerDetector.Firmware
