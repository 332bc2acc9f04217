/-
Which samples an average holds.

The calls of `fastMeasure` are numbered from 0 over the run, and `runSample h k` is what
call `k` stored. `owner h i` is the call that last stored at position `i`; inside the
window it is the window's `i`-th call (`owner_window`). `addends adc h` lists the calls
whose samples the summing loop has added, by the owners of the positions it read.

* `averaged_addends`: an average returned is the mean of the samples of its addends, and
  these are the first calls of the window, each once.
* `run_ledger`: where the averages of a window's samples stand when `loop` is at a given
  place; `included adc k h` counts the averages returned that hold the sample of call `k`.
* `included_once`: what was stored before a channel's count was read is in one average of
  that channel, what came later in none, and nothing is ever in two.
-/

import RFPowerDetector.Firmware.Report

namespace RFPowerDetector.Firmware

open Transition

/-! ### Owners of buffer positions -/

/-- The call that last stored at a position. -/
def owner : List Event → ℕ → Option ℕ
  | [], _ => none
  | .sampled call :: h, i => if call.index = i then some (calls h).length else owner h i
  | _ :: h, i => owner h i

/-- The sample that call `k` of the run stored. -/
def runSample (h : List Event) (k : ℕ) : RFSample :=
  ((calls h).reverse.map Call.sample).getD k .invalid

/-- The calls whose samples the last `calculateChannelAverage` of a channel has added, in
the order of its loop. -/
def addends (adc : EnumADC) : List Event → List ℕ
  | [] => []
  | .averageCalled _ a _ :: h => if a = adc then [] else addends adc h
  | .averageRead a i :: h => if a = adc then addends adc h ++ (owner h i).toList else addends adc h
  | _ :: h => addends adc h

/-- The mean of the samples of some calls. -/
def meanOfCalls (ar : Arith) (adc : EnumADC) (h : List Event) (ks : List ℕ) : Option ℚ :=
  averageOf ar (ks.foldl (fun sum k => ar.toDouble (sum + (runSample h k).getValue adc)) 0)
    ks.length

/-- How often the averages returned for a channel hold the sample of call `k`. -/
def included (adc : EnumADC) (k : ℕ) : List Event → ℕ
  | [] => 0
  | .averaged _ selectedADC _ _ :: h =>
      included adc k h + if selectedADC.getEnumADC = adc then (addends adc h).count k else 0
  | _ :: h => included adc k h

theorem owner_cons {e : Event} (none : e.call? = none) (h : List Event) (i : ℕ) :
    owner (e :: h) i = owner h i := by
  cases e <;> first | rfl | cases none

theorem owner_lt {h : List Event} {i k : ℕ} (own : owner h i = some k) : k < (calls h).length := by
  induction h with
  | nil => cases own
  | cons e h ih =>
      by_cases none : e.call? = none
      · rw [owner_cons none] at own
        rw [calls_cons none]
        exact ih own
      · cases e with
        | sampled call =>
            show k < (calls h).length + 1
            rw [owner] at own
            split at own
            · cases own
              exact Nat.lt_succ_self _
            · exact Nat.lt_succ_of_lt (ih own)
        | _ => exact absurd rfl none

/-- A sample not taken yet has not been added. -/
theorem addends_lt {adc : EnumADC} {h : List Event} {j : ℕ} (mem : j ∈ addends adc h) :
    j < (calls h).length := by
  induction h with
  | nil => cases mem
  | cons e h ih =>
      have mono : (calls h).length ≤ (calls (e :: h)).length :=
        ((List.sublist_cons_self e h).filterMap Event.call?).length_le
      cases e with
      | averageCalled mode a n =>
          rw [addends] at mem
          split at mem
          · cases mem
          · exact (ih mem).trans_le mono
      | averageRead a i =>
          rw [addends] at mem
          split at mem
          · rcases List.mem_append.mp mem with old | new
            · exact (ih old).trans_le mono
            · exact (owner_lt (Option.mem_toList.mp new)).trans_le mono
          · exact (ih mem).trans_le mono
      | _ => exact (ih mem).trans_le mono

/-- Nor is it in an average. -/
theorem included_eq_zero {adc : EnumADC} {k : ℕ} {h : List Event} (later : (calls h).length ≤ k) :
    included adc k h = 0 := by
  induction h with
  | nil => rfl
  | cons e h ih =>
      have mono : (calls h).length ≤ (calls (e :: h)).length :=
        ((List.sublist_cons_self e h).filterMap Event.call?).length_le
      have earlier := ih (mono.trans later)
      cases e with
      | averaged mode selectedADC average u =>
          have absent : k ∉ addends adc h := fun mem => by
            have := addends_lt mem
            have := mono.trans later
            omega
          rw [included, earlier, List.count_eq_zero_of_not_mem absent, ite_self]
      | _ => exact earlier

/-- The window's samples are those of its calls. -/
theorem windowBuffer_eq_runSample (h : List Event) (p : ℕ) :
    windowBuffer h p = runSample h (windowBase h + p) := by
  have split : (calls h).reverse = (calls (before isReset h)).reverse ++ windowCalls h := by
    rw [windowCalls, ← List.reverse_append, calls, calls, calls, ← List.filterMap_append, window,
      since_append_before]
  have base : windowBase h = ((calls (before isReset h)).reverse.map Call.sample).length := by
    rw [List.length_map, List.length_reverse, windowBase]
  rw [runSample, split, List.map_append, windowBuffer, List.getD_eq_getElem?_getD,
    List.getD_eq_getElem?_getD, List.getElem?_append_right (by omega), base, Nat.add_sub_cancel_left]

section Owners

variable {b : Board} {h : List Event} {s : State}

/-- Inside the window, the position's own call is its owner. -/
theorem owner_window (run : (firmware b).Run h s) (fits : Fits h) {p : ℕ} (hp : p < windowCount h) :
    owner h p = some (windowBase h + p) := by
  refine window_invariant (I := fun h _ => Fits h → ∀ p < windowCount h,
    owner h p = some (windowBase h + p)) (fun _ p hp => by cases hp) ?_ ?_ ?_ run fits p hp
  · intro h s i earlier ih fits p hp
    rw [windowCount_sampled] at hp
    rw [windowBase_sampled, owner]
    have index : (fastMeasure s i).2.index = windowCount h := length_toNat earlier fits.tail.now
    by_cases last : p = windowCount h
    · rw [if_pos (index.trans last.symm), length_calls, last]
    · rw [if_neg (by omega)]
      exact ih fits.tail p (by omega)
  · intro h s s' _ _ _ _ _ p none
    cases none
  · intro h s s' e _ ih he frame _ fits p hp
    rw [windowCount_cons he frame.call] at hp
    rw [owner_cons frame.call, windowBase_cons he]
    exact ih fits.tail p hp

/-! ### The addends of a window -/

/-- The calls of the window from its first on. -/
def firstCalls (h : List Event) (i : ℕ) : List ℕ := (List.range i).map (windowBase h + ·)

theorem firstCalls_cons {e : Event} (he : e ≠ .reset) (h : List Event) (i : ℕ) :
    firstCalls (e :: h) i = firstCalls h i := by
  rw [firstCalls, windowBase_cons he, firstCalls]

theorem count_firstCalls {h : List Event} {k : ℕ} (inWindow : windowBase h ≤ k) (i : ℕ) :
    (firstCalls h i).count k = if k - windowBase h < i then 1 else 0 := by
  have injective : Function.Injective (windowBase h + ·) := fun _ _ => Nat.add_left_cancel
  have nodup : (firstCalls h i).Nodup := List.nodup_range.map injective
  have member : k ∈ firstCalls h i ↔ k - windowBase h < i := by
    simp only [firstCalls, List.mem_map, List.mem_range]
    constructor
    · rintro ⟨p, hp, rfl⟩
      omega
    · exact fun below => ⟨k - windowBase h, below, by omega⟩
  rw [nodup.count]
  exact if_congr member rfl rfl

theorem windowBase_le_firstCalls {h : List Event} {i k : ℕ} (mem : k ∈ firstCalls h i) :
    windowBase h ≤ k := by
  obtain ⟨p, -, rfl⟩ := List.mem_map.mp mem
  exact Nat.le_add_right _ _

theorem addends_cons_other {adc : EnumADC} {e : Event} (other : e.averages adc = false)
    (h : List Event) : addends adc (e :: h) = addends adc h := by
  cases e with
  | averageCalled mode a n => exact if_neg (by simpa [Event.averages] using other)
  | averageRead a i => exact if_neg (by simpa [Event.averages] using other)
  | _ => rfl

/-- A call of the window under way has added the window's first samples. -/
theorem addends_averaging {adc : EnumADC} (run : (firmware b).Run h s) (fits : Fits h)
    {mode : Mode} {n : ℤ} {i : ℕ} (events : averagingOf adc h = averaging mode adc n i) :
    addends adc h = firstCalls h i := by
  induction h generalizing s i with
  | nil => cases i <;> cases events
  | cons e h ih =>
      obtain ⟨s', earlier, -⟩ := last_step run
      by_cases he : e = .reset
      · subst he
        cases i <;> cases events
      rw [firstCalls_cons he]
      cases own : e.averages adc with
      | false =>
          rw [averagingOf_cons_other he own] at events
          rw [addends_cons_other own]
          exact ih earlier fits.tail events
      | true =>
          rw [averagingOf_cons_own own] at events
          cases i with
          | zero =>
              obtain ⟨rfl, -⟩ := List.cons.inj events
              exact if_pos rfl
          | succ i =>
              obtain ⟨rfl, before⟩ := List.cons.inj events
              have position := owner_window earlier fits.tail (averageRead_lt run fits.tail)
              rw [addends, if_pos rfl, ih earlier fits.tail before, position, firstCalls,
                firstCalls, List.range_succ, List.map_append]
              rfl

/-- Before a call of the window, the last call added samples of earlier windows. -/
theorem addends_lt_windowBase {adc : EnumADC} (none : averagingOf adc h = []) :
    ∀ j ∈ addends adc h, j < windowBase h := by
  induction h with
  | nil => nofun
  | cons e h ih =>
      by_cases he : e = .reset
      · subst he
        exact fun j mem => addends_lt (h := h) mem
      cases own : e.averages adc with
      | false =>
          rw [averagingOf_cons_other he own] at none
          rw [addends_cons_other own, windowBase_cons he]
          exact ih none
      | true =>
          rw [averagingOf_cons_own own] at none
          cases none

/-- The averaging events of a complete call name its count. -/
theorem count_of_averaging {mode mode' : Mode} {adc : EnumADC} {n n' : ℤ} {i : ℕ}
    (mem : .averageCalled mode' adc n' ∈ averaging mode adc n i) : n' = n := by
  induction i with
  | zero =>
      cases List.mem_singleton.mp mem
      rfl
  | succ i ih =>
      rcases List.mem_cons.mp mem with impossible | mem
      · cases impossible
      · exact ih mem

/-- **An average returned is the mean of the samples of its addends**, and these are the
first calls of the window. -/
theorem averaged_addends {mode : Mode} {selectedADC : RFInputADC} {average : Option ℚ} {u : Word}
    (run : (firmware b).Run (.averaged mode selectedADC average u :: h) s) (fits : Fits h) :
    ∃ n, addends selectedADC.getEnumADC h = firstCalls h n ∧
      average = meanOfCalls b.arith selectedADC.getEnumADC h
        (addends selectedADC.getEnumADC h) := by
  obtain ⟨mid, earlier, split, same, value⟩ := averaged_eq run fits
  obtain ⟨s', before, ⟨i, impossible⟩ | ⟨-, control⟩⟩ := last_step run
  · cases impossible
  · have active := (run_progress before).holds selectedADC.getEnumADC
    generalize s.pc = pc at control
    cases control with
    | @averaged _ _ rest n i sum _ pc done =>
        rw [pc, status, if_pos rfl] at active
        obtain ⟨events, le⟩ := active
        -- the loop has stopped at the count that the call read
        have called : .averageCalled mode selectedADC.getEnumADC (windowCount earlier : ℤ) ∈
            averagingOf selectedADC.getEnumADC h := by
          refine List.mem_filter.mpr ⟨?_, by simp [Event.averages]⟩
          have notReset : ∀ e ∈ mid, isReset e = false :=
            fun e he => isReset_eq_false.mpr (same e he)
          rw [window, split, since_append notReset]
          exact List.mem_append_right _ List.mem_cons_self
        rw [events] at called
        have count : i = windowCount earlier := by
          have := count_of_averaging called
          omega
        have list := addends_averaging before fits events
        refine ⟨i, list, ?_⟩
        rw [value, list, meanOfCalls, firstCalls, List.length_map, List.length_range,
          List.foldl_map, calculateChannelAverage, calculateChannelSum, Int.toNat_natCast, count]
        simp only [← windowBuffer_eq_runSample]
        rfl

/-! ### Inclusion -/

/-- How often the averages of a window hold a sample when a channel has a status and the
addends of its last call are given. -/
def Status.counts (ks : List ℕ) (k : ℕ) : Status → ℕ
  | .settled => ks.count k
  | _ => 0

/-- The averages returned hold a sample of the window if its channel is done and the call
added it. -/
def Ledger (h : List Event) (pc : Pc) : Prop :=
  ∀ adc k, windowBase h ≤ k → included adc k h = (status adc pc).counts (addends adc h) k

/-- Steps that average nothing and keep every channel's status. -/
theorem Ledger.move {pc pc' : Pc} {e : Event} (ledger : Ledger h pc) (he : e ≠ .reset)
    (other : ∀ adc, e.averages adc = false)
    (kept : ∀ adc k, included adc k (e :: h) = included adc k h)
    (same : ∀ adc, status adc pc' = status adc pc) : Ledger (e :: h) pc' := by
  intro adc k inWindow
  rw [windowBase_cons he] at inWindow
  rw [kept, same, addends_cons_other (other adc)]
  exact ledger adc k inWindow

theorem run_ledger (run : (firmware b).Run h s) : Ledger h s.pc := by
  refine run_invariant (I := fun h s => Ledger h s.pc) (fun _ _ _ => rfl) ?_ ?_ run
  · intro h s i _ ih
    exact ih.move Event.noConfusion (fun _ => rfl) (fun _ _ => rfl) fun _ => rfl
  · intro h s s' e earlier ih frame control
    have progress := run_progress earlier
    generalize s'.pc = pc' at control
    cases control with
    | printed text _ => exact ih.move Event.noConfusion (fun _ => rfl) (fun _ _ => rfl) fun _ => rfl
    | reset _ => exact fun adc k later => included_eq_zero (h := h) later
    | csvReport pc _ =>
        rw [pc] at ih
        refine ih.move Event.noConfusion (fun _ => rfl) (fun _ _ => rfl) fun adc => ?_
        rw [status, rfAdcList_getEnumADC, if_pos (mem_adcOrder adc)]
        rfl
    | frameRead k pc =>
        rw [pc] at ih
        refine ih.move Event.noConfusion (fun _ => rfl) (fun _ _ => rfl) fun adc => ?_
        rw [status, rfAdcList_getEnumADC, if_pos (mem_adcOrder adc)]
        rfl
    | @skipped adc rest pc _ =>
        rw [pc] at ih progress
        intro a k inWindow
        refine (ih a k inWindow).trans ?_
        by_cases same : a = adc.getEnumADC
        · subst same
          obtain ⟨unseen, -⟩ := List.nodup_cons.mp progress.nodup
          have none := progress.holds adc.getEnumADC
          simp only [status, List.map_cons, List.mem_cons, true_or, if_true] at none ⊢
          -- what the channel added last is of an earlier window
          have absent : k ∉ addends adc.getEnumADC h := fun mem =>
            absurd (addends_lt_windowBase none k mem) (not_lt.mpr inWindow)
          rw [if_neg unseen]
          exact (List.count_eq_zero_of_not_mem absent).symm
        · simp only [status, List.map_cons, List.mem_cons, same, false_or]
          rfl
    | @averageCalled mode adc rest pc _ =>
        rw [pc] at ih
        intro a k inWindow
        refine (ih a k inWindow).trans ?_
        by_cases same : a = adc.getEnumADC
        · subst same
          simp only [status, List.map_cons, List.mem_cons, true_or, if_true]
          rfl
        · simp only [status, List.map_cons, List.mem_cons, same, false_or, addends,
            if_neg (Ne.symm same), if_false]
    | @averageRead mode adc rest n i sum pc more =>
        rw [pc] at ih
        intro a k inWindow
        have old := ih a k inWindow
        by_cases same : a = adc.getEnumADC
        · subst same
          rw [status, if_pos rfl] at old ⊢
          exact old
        · rw [status, if_neg same, addends, if_neg (Ne.symm same)]
          rw [status, if_neg same] at old
          exact old
    | @averaged mode adc rest n i sum _ pc done =>
        rw [pc] at ih progress
        intro a k inWindow
        have old := ih a k inWindow
        by_cases same : a = adc.getEnumADC
        · subst same
          obtain ⟨unseen, -⟩ := List.nodup_cons.mp progress.nodup
          rw [status, if_pos rfl] at old
          rw [status, if_neg unseen, included, if_pos rfl, old]
          exact Nat.zero_add _
        · rw [status, if_neg same] at old
          rw [included, if_neg (Ne.symm same)]
          exact old
    | textReport pc _ =>
        rw [pc] at ih
        exact ih.move Event.noConfusion (fun _ => rfl) (fun _ _ => rfl) fun _ => rfl
    | _ =>
        rename_i pc
        rw [pc] at ih
        exact ih.move Event.noConfusion (fun _ => rfl) (fun _ _ => rfl) fun _ => rfl

/-- A window's sample is in at most one average of a channel. -/
theorem included_le_one_window {adc : EnumADC} {k : ℕ} (run : (firmware b).Run h s) (fits : Fits h)
    (inWindow : windowBase h ≤ k) : included adc k h ≤ 1 := by
  have ledger := run_ledger run adc k inWindow
  have progress := (run_progress run).holds adc
  cases now : status adc s.pc with
  | settled =>
      rw [now] at ledger progress
      rcases progress with none | ⟨mode, n, complete⟩
      · have absent : k ∉ addends adc h := fun mem =>
          absurd (addends_lt_windowBase none k mem) (not_lt.mpr inWindow)
        rw [ledger]
        exact (List.count_eq_zero_of_not_mem absent).trans_le (Nat.zero_le _)
      · rw [ledger]
        show (addends adc h).count k ≤ 1
        rw [addends_averaging run fits complete, count_firstCalls inWindow]
        split <;> omega
  | fresh | active =>
      rw [ledger, now]
      exact Nat.zero_le _

/-- Samples of earlier windows enter no further average. -/
theorem included_earlier {e : Event} {adc : EnumADC} {k : ℕ} (run : (firmware b).Run (e :: h) s)
    (fits : Fits h) (old : k < windowBase h) : included adc k (e :: h) = included adc k h := by
  cases e with
  | averaged mode selectedADC average u =>
      obtain ⟨n, list, -⟩ := averaged_addends run fits
      by_cases own : selectedADC.getEnumADC = adc
      · subst own
        have absent : k ∉ addends selectedADC.getEnumADC h := fun mem =>
          absurd (windowBase_le_firstCalls (list ▸ mem)) (not_le.mpr old)
        rw [included, if_pos rfl, List.count_eq_zero_of_not_mem absent, Nat.add_zero]
      · rw [included, if_neg own, Nat.add_zero]
  | _ => rfl

/-- **No sample is counted twice**: whatever the interleaving, it is in at most one
average of a channel. -/
theorem included_le_one (adc : EnumADC) (k : ℕ) (run : (firmware b).Run h s) (fits : Fits h) :
    included adc k h ≤ 1 := by
  induction h generalizing s with
  | nil => exact Nat.zero_le _
  | cons e h ih =>
      obtain ⟨s', earlier, -⟩ := last_step run
      have before := ih earlier fits.tail
      by_cases he : e = .reset
      · subst he
        exact before
      rcases Nat.lt_or_ge k (windowBase h) with old | inWindow
      · rw [included_earlier run fits.tail old]
        exact before
      · refine included_le_one_window run fits ?_
        rw [windowBase_cons he]
        exact inWindow

theorem length_calls_le_windowBase (later g : List Event) :
    (calls g).length ≤ windowBase (later ++ .reset :: g) := by
  induction later with
  | nil => exact le_rfl
  | cons e later ih =>
      by_cases he : e = .reset
      · subst he
        have split := length_calls (later ++ .reset :: g)
        rw [List.cons_append, windowBase_reset]
        omega
      · rw [List.cons_append, windowBase_cons he]
        exact ih

/-- After a reset nothing changes for the samples before it. -/
theorem included_after_reset {later g : List Event} (adc : EnumADC) {k : ℕ}
    (run : (firmware b).Run (later ++ .reset :: g) s) (fits : Fits (later ++ .reset :: g))
    (old : k < (calls g).length) :
    included adc k (later ++ .reset :: g) = included adc k g := by
  induction later generalizing s with
  | nil => rfl
  | cons e later ih =>
      rw [List.cons_append] at run fits ⊢
      obtain ⟨s', earlier, -⟩ := last_step run
      rw [included_earlier run fits.tail, ih earlier fits.tail]
      exact old.trans_le (length_calls_le_windowBase later g)

/-- At the reset, a channel called in the window has returned the average of the first
`n` samples, where `n` is the count that its call read. -/
theorem included_at_reset {mode : Mode} {adc : EnumADC} {n : ℤ} {k : ℕ}
    (run : (firmware b).Run (.reset :: h) s) (fits : Fits h)
    (called : .averageCalled mode adc n ∈ window h) (inWindow : windowBase h ≤ k) :
    included adc k h = if k - windowBase h < n.toNat then 1 else 0 := by
  obtain ⟨s', earlier, ⟨i, impossible⟩ | ⟨-, control⟩⟩ := last_step run
  · cases impossible
  · have progress := (run_progress earlier).holds adc
    have ledger := run_ledger earlier adc k inWindow
    have mem : .averageCalled mode adc n ∈ averagingOf adc h :=
      List.mem_filter.mpr ⟨called, by simp [Event.averages]⟩
    generalize s.pc = pc at control
    cases control with
    | reset pc =>
        rw [pc] at progress ledger
        rcases progress with none | ⟨mode', n', complete⟩
        · rw [none] at mem
          cases mem
        · rw [complete] at mem
          cases count_of_averaging mem
          rw [ledger]
          show (addends adc h).count k = _
          rw [addends_averaging earlier fits complete, count_firstCalls inWindow]

end Owners

/-! ### No sample lost or counted twice -/

/-- Every sample of a window that a reset closes is in exactly one average of
each channel averaged in it. -/
def ExactlyOnce (h : List Event) : Prop :=
  ∀ g, .reset :: g <:+ h → ∀ adc, (∃ mode n, .averageCalled mode adc n ∈ window g) →
    ∀ k, windowBase g ≤ k → k < (calls g).length → included adc k h = 1

/-- A CSV report on two samples, with one more interrupt before its reset. -/
def lateSample : List Action :=
  .fastMeasure (steadyInterrupt 2) :: .fastMeasure (steadyInterrupt 4) :: loops 28 ++
    .fastMeasure (steadyInterrupt 6) :: loops 1

/-- A sample taken between the last average and the reset is in no average. -/
theorem late_sample_lost : ¬ ∀ (b : Board) (as : List Action), ExactlyOnce (history b as) := by
  intro claim
  let h := history sourceBoard lateSample
  have closes : .reset :: h.tail = h := rfl
  have called : ∃ mode n, .averageCalled mode .adcB n ∈ window h.tail :=
    ⟨.csv, 2, List.mem_of_getElem? (i := 20) rfl⟩
  have once := claim sourceBoard lateSample h.tail ⟨[], closes⟩ .adcB called 2
    (by decide) (by decide)
  have never : included .adcB 2 h = 0 := rfl
  exact absurd (never.symm.trans once) (by decide)

/-- **Inclusion of a window's samples.** In a run whose windows fit the buffer: an average
returned is the mean of the samples of its addends; no sample is in two averages of a
channel; and once a reset has closed a window, a sample of it is in an average of a
channel called in it if it was stored before that channel's count was read, and in none
otherwise. -/
theorem included_once (b : Board) (as : List Action) (fits : Fits (history b as)) :
    (∀ mode selectedADC average u g,
        .averaged mode selectedADC average u :: g <:+ history b as →
        average = meanOfCalls b.arith selectedADC.getEnumADC g
          (addends selectedADC.getEnumADC g)) ∧
      (∀ adc k, included adc k (history b as) ≤ 1) ∧
      ∀ g mid earlier mode adc n, .reset :: g <:+ history b as →
        g = mid ++ .averageCalled mode adc n :: earlier → (∀ e ∈ mid, e ≠ .reset) →
        ∀ k, windowBase g ≤ k → k < (calls g).length →
          included adc k (history b as) = if k < (calls earlier).length then 1 else 0 := by
  have run := run_history b as
  refine ⟨?_, fun adc k => included_le_one adc k run fits, ?_⟩
  · intro mode selectedADC average u g suffix
    obtain ⟨s, atAverage⟩ := run.suffix suffix
    obtain ⟨n, -, mean⟩ := averaged_addends atAverage (Fits.tail (fits.suffix suffix))
    exact mean
  · intro g mid earlier mode adc n closed called same k inWindow stored
    obtain ⟨later, split⟩ := closed
    rw [← split] at run fits ⊢
    have fitsReset : Fits (.reset :: g) := fits.suffix (List.suffix_append _ _)
    obtain ⟨s₁, atReset⟩ := run.suffix (List.suffix_append later (.reset :: g))
    obtain ⟨s₂, atEnd, -⟩ := last_step atReset
    -- the call happened in this window
    have notReset : ∀ e ∈ mid, isReset e = false := fun e he => isReset_eq_false.mpr (same e he)
    have mem : .averageCalled mode adc n ∈ window g := by
      rw [called, window, since_append notReset]
      exact List.mem_append_right _ List.mem_cons_self
    -- its count is the number of samples stored before it
    have moment : .averageCalled mode adc n :: earlier <:+ g := ⟨mid, called.symm⟩
    obtain ⟨s₃, atCall⟩ := atEnd.suffix moment
    have count : n = windowCount earlier :=
      count_eq atCall (Fits.tail (fitsReset.tail.suffix moment)) rfl
    have base : windowBase g = windowBase earlier := by
      rw [windowBase, windowBase, called, before_append notReset, before_cons_other rfl]
    rw [included_after_reset adc run fits stored, included_at_reset atReset fitsReset.tail mem
      inWindow, length_calls, count, Int.toNat_natCast, ← base]
    exact if_congr (by omega) rfl rfl

/-- What came before channel B's average in the late-sample run. -/
def lateAverage : List Event := (history sourceBoard lateSample).drop 19

/-- In the late-sample run, channel B's average is the mean of the first two samples, and
the third is in none. -/
theorem included_once_late :
    included .adcB 0 (history sourceBoard lateSample) = 1 ∧
      included .adcB 1 (history sourceBoard lateSample) = 1 ∧
      included .adcB 2 (history sourceBoard lateSample) = 0 ∧
      ∃ mode selectedADC average u,
        .averaged mode selectedADC average u :: lateAverage <:+ history sourceBoard lateSample ∧
          selectedADC.getEnumADC = .adcB ∧ average = some (771 / 2) := by
  let h := history sourceBoard lateSample
  have fits : Fits h := fits_history (by rw [rfBufferLength_eq]; decide)
  obtain ⟨means, -, once⟩ := included_once sourceBoard lateSample fits
  have closed : .reset :: h.tail <:+ h := ⟨[], rfl⟩
  have called : h.tail = h.tail.take 20 ++ .averageCalled .csv .adcB 2 :: h.drop 22 := rfl
  have same : ∀ e ∈ h.tail.take 20, e ≠ .reset := ne_reset_of_all rfl
  have each := once h.tail _ _ .csv .adcB 2 closed called same
  refine ⟨each 0 (by decide) (by decide), each 1 (by decide) (by decide),
    each 2 (by decide) (by decide), ?_⟩
  obtain ⟨average, moment⟩ : ∃ average,
      .averaged .csv (channel sourceEnabled .adcB) average 0 :: lateAverage <:+ h :=
    ⟨_, h.take 18, rfl⟩
  refine ⟨_, _, average, _, moment, rfl, ?_⟩
  have added : addends .adcB lateAverage = [0, 1] := rfl
  have mean := means _ _ _ _ _ moment
  rw [channel_getEnumADC, added] at mean
  rw [mean]
  decide +kernel

end RFPowerDetector.Firmware
