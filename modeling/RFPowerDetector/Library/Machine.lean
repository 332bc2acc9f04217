/-
Labelled machines with a total step function, and the histories of their runs.

A machine takes one action at a time and answers with one event. Whatever the
environment decides (a scheduler's choice, an input) is part of the action, so
the step function is total and a run is determined by its actions. `Run h s`
says that some sequence of actions leads to the state `s` and that `h` lists
its events, newest first: a step conses its event, so an invariant of runs is
proved by cases on the last step and a property of an earlier moment is a
property of a suffix of the history.

A marker event (a reset, a commit) cuts a history into segments. `since`
is the segment after the last marker, `before` the history up to it, marker
included. `Machine.recording` keeps the actions beside the events, for properties
that speak of both. `exec_responds` is the rule for bounded response: a rank that
counted actions lower bounds how many of them pass before a marker. `perform` is for
machines that answer with outputs, and joins these. `lockstep_iff` compares two machines
step by step, under a condition on each step.
-/

import Mathlib.Data.List.Basic
import Mathlib.Data.List.TakeWhile

namespace Transition

/-- A machine over states `σ`, actions `α` and events `ε`. -/
structure Machine (σ α ε : Type) where
  init : σ
  step : σ → α → σ × ε

variable {σ α ε : Type}

/-- `m.Run h s`: a run of `m` ends in `s` with the events `h`, newest first. -/
inductive Machine.Run (m : Machine σ α ε) : List ε → σ → Prop where
  | start : Run m [] m.init
  | step {h : List ε} {s : σ} (a : α) :
      Run m h s → Run m ((m.step s a).2 :: h) (m.step s a).1

/-- Perform the actions in order, from a history and a state. -/
def Machine.exec (m : Machine σ α ε) : List α → List ε × σ → List ε × σ
  | [], c => c
  | a :: as, c => m.exec as ((m.step c.2 a).2 :: c.1, (m.step c.2 a).1)

namespace Machine

variable {m : Machine σ α ε}

/-- Performing actions extends a run. -/
theorem Run.exec {h : List ε} {s : σ} (run : m.Run h s) (as : List α) :
    m.Run (m.exec as (h, s)).1 (m.exec as (h, s)).2 := by
  induction as generalizing h s with
  | nil => exact run
  | cons a as ih => exact ih (run.step a)

/-- The events of the actions stand in front of the history. -/
theorem exec_append (as : List α) (h : List ε) (s : σ) :
    m.exec as (h, s) = ((m.exec as ([], s)).1 ++ h, (m.exec as ([], s)).2) := by
  induction as generalizing h s with
  | nil => rfl
  | cons a as ih =>
      rw [exec, exec, ih ((m.step s a).2 :: h), ih [(m.step s a).2], List.append_assoc,
        List.singleton_append]

theorem exec_exec (as bs : List α) (c : List ε × σ) :
    m.exec (as ++ bs) c = m.exec bs (m.exec as c) := by
  induction as generalizing c with
  | nil => rfl
  | cons a as ih => exact ih _

/-- The run of a list of actions from the initial state. -/
theorem run_exec (m : Machine σ α ε) (as : List α) :
    m.Run (m.exec as ([], m.init)).1 (m.exec as ([], m.init)).2 :=
  Run.start.exec as

/-- The invariant rule: what holds initially and is preserved by every step of a
run holds at the end of every run. -/
theorem Run.invariant {I : List ε → σ → Prop} (initial : I [] m.init)
    (preserved : ∀ {h s} a, m.Run h s → I h s → I ((m.step s a).2 :: h) (m.step s a).1)
    {h : List ε} {s : σ} (run : m.Run h s) : I h s := by
  induction run with
  | start => exact initial
  | step a earlier ih => exact preserved a earlier ih

/-- The last step of a nonempty run. -/
theorem Run.last {e : ε} {h : List ε} {s : σ} (run : m.Run (e :: h) s) :
    ∃ s' a, m.Run h s' ∧ m.step s' a = (s, e) := by
  cases run with
  | step a earlier => exact ⟨_, a, earlier, rfl⟩

/-- Every suffix of a history is the history of an earlier moment of the run. -/
theorem Run.suffix {g h : List ε} {s : σ} (run : m.Run h s) (le : g <:+ h) :
    ∃ s', m.Run g s' := by
  induction run with
  | start => exact ⟨m.init, by rw [List.suffix_nil.mp le]; exact .start⟩
  | step a earlier ih =>
      rcases List.suffix_cons_iff.mp le with rfl | le
      · exact ⟨_, earlier.step a⟩
      · exact ih le

/-! ### Recording the actions -/

/-- The machine whose events also name the action. -/
def recording (m : Machine σ α ε) : Machine σ α (α × ε) :=
  ⟨m.init, fun s a => ((m.step s a).1, a, (m.step s a).2)⟩

/-- A recorded run is a run. -/
theorem Run.of_recording {h : List (α × ε)} {s : σ} (run : m.recording.Run h s) :
    m.Run (h.map Prod.snd) s := by
  induction run with
  | start => exact .start
  | step a _ ih => exact ih.step a

theorem recording_exec (as : List α) (h : List (α × ε)) (s : σ) :
    ((m.recording.exec as (h, s)).1.map Prod.snd, (m.recording.exec as (h, s)).2) =
      m.exec as (h.map Prod.snd, s) := by
  induction as generalizing h s with
  | nil => rfl
  | cons a as ih => exact ih ((a, (m.step s a).2) :: h) (m.step s a).1

/-- The recorded actions, newest first. -/
theorem recording_actions (as : List α) (h : List (α × ε)) (s : σ) :
    (m.recording.exec as (h, s)).1.map Prod.fst = as.reverse ++ h.map Prod.fst := by
  induction as generalizing h s with
  | nil => rfl
  | cons a as ih =>
      have later := ih ((a, (m.step s a).2) :: h) (m.step s a).1
      rw [List.reverse_cons, List.append_assoc]
      exact later

end Machine

/-! ### Outputs -/

section Outputs

variable {γ ω : Type} {m : Machine σ α (List ω)} {n : Machine σ γ (List ω)}

/-- The state that actions lead to, and all they put out. -/
def Machine.perform (m : Machine σ α (List ω)) : List α → σ → σ × List ω
  | [], s => (s, [])
  | a :: as, s =>
      let rest := m.perform as (m.step s a).1
      (rest.1, (m.step s a).2 ++ rest.2)

@[simp] theorem Machine.perform_nil (s : σ) : m.perform [] s = (s, []) := rfl

theorem Machine.perform_cons (a : α) (as : List α) (s : σ) :
    m.perform (a :: as) s =
      ((m.perform as (m.step s a).1).1, (m.step s a).2 ++ (m.perform as (m.step s a).1).2) := rfl

theorem Machine.perform_append (as bs : List α) (s : σ) :
    m.perform (as ++ bs) s =
      ((m.perform bs (m.perform as s).1).1,
        (m.perform as s).2 ++ (m.perform bs (m.perform as s).1).2) := by
  induction as generalizing s with
  | nil => rfl
  | cons a as ih => rw [List.cons_append, perform_cons, ih, perform_cons, List.append_assoc]

/-- A machine that takes several steps of another at a time performs what the other does. -/
theorem Machine.perform_batches {batch : γ → List α}
    (step : ∀ s g, n.step s g = m.perform (batch g) s) (gs : List γ) (s : σ) :
    n.perform gs s = m.perform (gs.flatMap batch) s := by
  induction gs generalizing s with
  | nil => rfl
  | cons g gs ih => rw [List.flatMap_cons, perform_append, perform_cons, step, ih]

end Outputs

/-! ### Lockstep -/

section Lockstep

variable {τ : Type}

/-- Each action is allowed in the state it is taken in. -/
def Machine.Allowed (m : Machine σ α ε) (allowed : σ → α → Prop) : List α → σ → Prop
  | [], _ => True
  | a :: as, s => allowed s a ∧ m.Allowed allowed as (m.step s a).1

instance Machine.decidableAllowed (m : Machine σ α ε) (allowed : σ → α → Prop)
    [∀ s a, Decidable (allowed s a)] : ∀ as s, Decidable (m.Allowed allowed as s)
  | [], _ => instDecidableTrue
  | a :: as, s =>
      have := m.decidableAllowed allowed as (m.step s a).1
      instDecidableAnd

/-- The machines answer each action alike and keep `R`. -/
def Machine.Lockstep (m : Machine σ α ε) (n : Machine τ α ε) (R : σ → τ → Prop) :
    List α → σ → τ → Prop
  | [], _, _ => True
  | a :: as, s, t =>
      (R (m.step s a).1 (n.step t a).1 ∧ (m.step s a).2 = (n.step t a).2) ∧
        m.Lockstep n R as (m.step s a).1 (n.step t a).1

variable {m : Machine σ α ε} {n : Machine τ α ε} {R : σ → τ → Prop} {allowed : σ → α → Prop}

/-- The rule of lockstep: machines whose steps agree exactly where they are allowed stay in
lockstep exactly as long as each step is. -/
theorem Machine.lockstep_iff
    (step : ∀ {s t} a, R s t →
      (R (m.step s a).1 (n.step t a).1 ∧ (m.step s a).2 = (n.step t a).2 ↔ allowed s a))
    (as : List α) {s : σ} {t : τ} (related : R s t) :
    m.Lockstep n R as s t ↔ m.Allowed allowed as s := by
  induction as generalizing s t with
  | nil => exact Iff.rfl
  | cons a as ih =>
      rw [Lockstep, Allowed, ← step a related, and_congr_right_iff]
      rintro ⟨next, -⟩
      exact ih next

/-- The rule of simulation: a machine follows another as long as the other's steps are
allowed. -/
theorem Machine.lockstep_of_allowed {allowed : τ → α → Prop}
    (step : ∀ {s t} a, R s t → allowed t a →
      R (m.step s a).1 (n.step t a).1 ∧ (m.step s a).2 = (n.step t a).2)
    (as : List α) {s : σ} {t : τ} (related : R s t) (all : n.Allowed allowed as t) :
    m.Lockstep n R as s t := by
  induction as generalizing s t with
  | nil => trivial
  | cons a as ih =>
      obtain ⟨now, later⟩ := all
      have next := step a related now
      exact ⟨next, ih next.1 later⟩

/-- In lockstep, runs have one history. -/
theorem Machine.Lockstep.exec {as : List α} {s : σ} {t : τ} (related : R s t)
    (lockstep : m.Lockstep n R as s t) (h : List ε) :
    (m.exec as (h, s)).1 = (n.exec as (h, t)).1 ∧
      R (m.exec as (h, s)).2 (n.exec as (h, t)).2 := by
  induction as generalizing h s t with
  | nil => exact ⟨rfl, related⟩
  | cons a as ih =>
      obtain ⟨⟨next, same⟩, rest⟩ := lockstep
      rw [Machine.exec, Machine.exec, same]
      exact ih next rest _

/-- In lockstep, machines put out the same. -/
theorem Machine.Lockstep.perform {ω : Type} {m : Machine σ α (List ω)}
    {n : Machine τ α (List ω)} {as : List α} {s : σ} {t : τ} (related : R s t)
    (lockstep : m.Lockstep n R as s t) :
    R (m.perform as s).1 (n.perform as t).1 ∧ (m.perform as s).2 = (n.perform as t).2 := by
  induction as generalizing s t with
  | nil => exact ⟨related, rfl⟩
  | cons a as ih =>
      obtain ⟨⟨next, same⟩, rest⟩ := lockstep
      rw [perform_cons, perform_cons, same]
      exact ⟨(ih next rest).1, congrArg _ (ih next rest).2⟩

end Lockstep

/-! ### Segments between markers -/

section Markers

variable {mark : ε → Bool}

/-- The events after the last marker, newest first. -/
def since (mark : ε → Bool) (h : List ε) : List ε := h.takeWhile fun e => !mark e

/-- The history up to the last marker, that marker first. -/
def before (mark : ε → Bool) (h : List ε) : List ε := h.dropWhile fun e => !mark e

theorem since_cons_other {e : ε} (he : mark e = false) (h : List ε) :
    since mark (e :: h) = e :: since mark h := by
  simp [since, he]

theorem before_cons_other {e : ε} (he : mark e = false) (h : List ε) :
    before mark (e :: h) = before mark h := by
  simp [before, he]

theorem since_append_before (mark : ε → Bool) (h : List ε) :
    since mark h ++ before mark h = h :=
  List.takeWhile_append_dropWhile

/-- Markerless events in front of a history stay in its current segment. -/
theorem since_append {g : List ε} (hg : ∀ e ∈ g, mark e = false) (h : List ε) :
    since mark (g ++ h) = g ++ since mark h := by
  induction g with
  | nil => rfl
  | cons e g ih =>
      have rest := ih fun e he => hg e (List.mem_cons_of_mem _ he)
      rw [List.cons_append, since_cons_other (hg e List.mem_cons_self), rest, List.cons_append]

theorem before_append {g : List ε} (hg : ∀ e ∈ g, mark e = false) (h : List ε) :
    before mark (g ++ h) = before mark h := by
  induction g with
  | nil => rfl
  | cons e g ih =>
      rw [List.cons_append, before_cons_other (hg e List.mem_cons_self)]
      exact ih fun e he => hg e (List.mem_cons_of_mem _ he)

theorem mark_eq_false_of_mem_since {h : List ε} {e : ε} (he : e ∈ since mark h) :
    mark e = false := by
  simpa using List.mem_takeWhile_imp he

end Markers

/-! ### Properties of every moment of a history -/

/-- `P` holds of the history at every moment up to now. -/
def Always (P : List ε → Prop) (h : List ε) : Prop := ∀ g, g <:+ h → P g

theorem always_nil {P : List ε → Prop} : Always P [] ↔ P [] := by
  simp [Always]

theorem always_cons {P : List ε → Prop} {e : ε} {h : List ε} :
    Always P (e :: h) ↔ P (e :: h) ∧ Always P h := by
  simp only [Always, List.suffix_cons_iff, forall_eq_or_imp]

theorem Always.now {P : List ε → Prop} {h : List ε} (all : Always P h) : P h :=
  all h List.suffix_rfl

theorem Always.suffix {P : List ε → Prop} {g h : List ε} (all : Always P h) (le : g <:+ h) :
    Always P g :=
  fun k hk => all k (hk.trans le)

/-! ### Bounded response -/

/-- The rule of bounded response. While `J` holds, a step emits a marker or keeps `J`
without raising the rank, and a counted step lowers it; `J` leaves some rank. Then
as many counted actions as the rank, whatever falls between them, emit a marker.
`Q` is what the history is known to keep meanwhile. -/
theorem Machine.exec_responds {m : Machine σ α ε} {J : List ε → σ → Prop} {Q : List ε → Prop}
    (mark : ε → Bool) (rank : σ → ℕ) (counted : α → Bool)
    (busy : ∀ {h s}, J h s → 0 < rank s)
    (step : ∀ {h s} a, J h s → Q ((m.step s a).2 :: h) → mark (m.step s a).2 = true ∨
      J ((m.step s a).2 :: h) (m.step s a).1 ∧
        rank (m.step s a).1 + (if counted a then 1 else 0) ≤ rank s)
    (as : List α) {h : List ε} {s : σ} (holds : J h s) (enough : rank s ≤ as.countP counted)
    (all : Always Q (m.exec as (h, s)).1) :
    ∃ e ∈ (m.exec as ([], s)).1, mark e = true := by
  induction as generalizing h s with
  | nil =>
      have left := busy holds
      rw [List.countP_nil] at enough
      omega
  | cons a as ih =>
      have now : Q ((m.step s a).2 :: h) := by
        refine all _ ?_
        rw [Machine.exec, Machine.exec_append]
        exact List.suffix_append _ _
      rw [Machine.exec, Machine.exec_append]
      rcases step a holds now with marked | ⟨kept, lower⟩
      · exact ⟨_, List.mem_append_right _ List.mem_cons_self, marked⟩
      · rw [List.countP_cons] at enough
        obtain ⟨e, mem, marked⟩ := ih kept (by omega) all
        exact ⟨e, List.mem_append_left _ mem, marked⟩

end Transition
