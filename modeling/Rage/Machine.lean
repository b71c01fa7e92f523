import Mathlib.Data.List.Basic

/-!
State machines whose events need not be enabled.  A state is reachable through events that are
allowed where they come; a machine simulates another one if each of its steps is a step of the
other or leaves it where it is.
-/

namespace Rage.Machine

variable {σ τ ε δ : Type}

inductive Reachable (step : σ → ε → Option σ) (allowed : σ → ε → Prop) (start : σ) : σ → Prop
  | refl : Reachable step allowed start start
  | tail {state next : σ} (event : ε) (reached : Reachable step allowed start state)
      (permitted : allowed state event) (taken : step state event = some next) :
      Reachable step allowed start next

namespace Reachable

variable {step : σ → ε → Option σ} {allowed : σ → ε → Prop} {start state : σ}

theorem invariant (property : σ → Prop) (initial : property start)
    (preserved : ∀ state event next, property state → allowed state event →
      step state event = some next → property next)
    (reached : Reachable step allowed start state) : property state := by
  induction reached with
  | refl => exact initial
  | tail event _ permitted taken ih => exact preserved _ event _ ih permitted taken

theorem trans {next : σ} (first : Reachable step allowed start state)
    (second : Reachable step allowed state next) : Reachable step allowed start next := by
  induction second with
  | refl => exact first
  | tail event _ permitted taken ih => exact ih.tail event permitted taken

theorem simulates {other : τ → δ → Option τ} {permits : τ → δ → Prop} (project : σ → τ)
    (simulation : ∀ state event next, allowed state event → step state event = some next →
      project next = project state ∨ ∃ matching, permits (project state) matching ∧
        other (project state) matching = some (project next))
    (reached : Reachable step allowed start state) :
    Reachable other permits (project start) (project state) := by
  induction reached with
  | refl => exact refl
  | tail event _ permitted taken ih =>
      rcases simulation _ event _ permitted taken with same | ⟨matching, fits, moved⟩
      · rw [same]
        exact ih
      · exact ih.tail matching fits moved

/-- A goal is reached when, wherever it does not hold yet, some step makes the measure smaller. -/
theorem drives (property goal : σ → Prop) (measure : σ → Nat)
    (progress : ∀ state, property state → ¬ goal state → ∃ event next, allowed state event ∧
      step state event = some next ∧ property next ∧ measure next < measure state)
    (holds : property state) :
    ∃ final, Reachable step allowed state final ∧ goal final := by
  induction bound : measure state using Nat.strongRecOn generalizing state with
  | ind size ih =>
      by_cases here : goal state
      · exact ⟨state, refl, here⟩
      · obtain ⟨event, next, permitted, taken, nextHolds, smaller⟩ := progress state holds here
        rw [bound] at smaller
        obtain ⟨final, reached, isGoal⟩ := ih (measure next) smaller nextHolds rfl
        exact ⟨final, (refl.tail event permitted taken).trans reached, isGoal⟩

end Reachable

/-- A list of events, each enabled where it comes. -/
def run (step : σ → ε → Option σ) (start : σ) (events : List ε) : Option σ :=
  events.foldlM step start

/-- A condition on each event of a list, in the state that it finds. -/
def Each (step : σ → ε → Option σ) (condition : σ → ε → Prop) : σ → List ε → Prop
  | _, [] => True
  | state, event :: rest =>
      condition state event ∧ ∀ next, step state event = some next → Each step condition next rest

/-- The states that a list of events comes through. -/
def Visited (step : σ → ε → Option σ) (start : σ) (events : List ε) (state : σ) : Prop :=
  ∃ earlier, earlier <+: events ∧ run step start earlier = some state

/-- What the events of a list weigh together. -/
def tally (step : σ → ε → Option σ) (weight : σ → ε → Nat) : σ → List ε → Nat
  | _, [] => 0
  | state, event :: rest =>
      weight state event + (step state event).elim 0 fun next => tally step weight next rest

section Lists

variable {step : σ → ε → Option σ} {start state : σ} {events : List ε}

theorem run_cons {event : ε} (ran : run step start (event :: events) = some state) :
    ∃ next, step start event = some next ∧ run step next events = some state := by
  rw [run, List.foldlM_cons] at ran
  exact Option.bind_eq_some_iff.mp ran

theorem run_append {later : List ε} (ran : run step start (events ++ later) = some state) :
    ∃ between, run step start events = some between ∧ run step between later = some state := by
  rw [run, List.foldlM_append] at ran
  exact Option.bind_eq_some_iff.mp ran

theorem Each.reachable {condition : σ → ε → Prop} (each : Each step condition start events)
    (ran : run step start events = some state) : Reachable step condition start state := by
  induction events generalizing start with
  | nil =>
      obtain rfl : start = state := by simpa [run] using ran
      exact .refl
  | cons event rest ih =>
      obtain ⟨next, taken, later⟩ := run_cons ran
      have first : Reachable step condition start next := .tail event .refl each.1 taken
      exact first.trans (ih (each.2 next taken) later)

theorem Each.earlier {condition : σ → ε → Prop} {earlier : List ε}
    (each : Each step condition start events) (isPrefix : earlier <+: events) :
    Each step condition start earlier := by
  induction earlier generalizing start events with
  | nil => trivial
  | cons event rest ih =>
      obtain ⟨later, rfl⟩ := isPrefix
      exact ⟨each.1, fun next taken => ih (each.2 next taken) ⟨later, rfl⟩⟩

theorem each_of_forall {condition : σ → ε → Prop}
    (permitted : ∀ state, ∀ event ∈ events, condition state event) :
    Each step condition start events := by
  induction events generalizing start with
  | nil => trivial
  | cons event rest ih =>
      refine ⟨permitted start event List.mem_cons_self, fun next _ => ih ?_⟩
      intro state other member
      exact permitted state other (List.mem_cons_of_mem event member)

theorem run_reachable {allowed : σ → ε → Prop}
    (permitted : ∀ state, ∀ event ∈ events, allowed state event)
    (ran : run step start events = some state) : Reachable step allowed start state :=
  (each_of_forall permitted).reachable ran

theorem tally_eq_zero (weight : σ → ε → Nat) :
    tally step weight start events = 0 ↔
      Each step (fun state event => weight state event = 0) start events := by
  induction events generalizing start with
  | nil => simp [tally, Each]
  | cons event rest ih =>
      cases taken : step start event with
      | none => simp [tally, Each, taken]
      | some next => simp [tally, Each, taken, ih]

/-- What is gained and not lost in a run is what its events weigh. -/
theorem run_balance (weight : σ → ε → Nat) (invariant : σ → Prop) (gain loss : σ → Nat)
    (preserved : ∀ state event next, invariant state → step state event = some next →
      invariant next)
    (balanced : ∀ state event next, invariant state → step state event = some next →
      gain next + loss state = gain state + loss next + weight state event)
    (initial : invariant start) (ran : run step start events = some state) :
    gain state + loss start = gain start + loss state + tally step weight start events := by
  induction events generalizing start with
  | nil =>
      obtain rfl : start = state := by simpa [run] using ran
      rfl
  | cons event rest ih =>
      obtain ⟨next, taken, later⟩ := run_cons ran
      have here := balanced start event next initial taken
      have rest := ih (preserved start event next initial taken) later
      rw [tally, taken, Option.elim_some]
      omega

end Lists

/-- The machine that takes an event only where it is allowed. -/
def guarded (allowed : σ → ε → Prop) [∀ state event, Decidable (allowed state event)]
    (step : σ → ε → Option σ) (state : σ) (event : ε) : Option σ :=
  if allowed state event then step state event else none

section Guarded

variable {allowed : σ → ε → Prop} [∀ state event, Decidable (allowed state event)]
  {step : σ → ε → Option σ} {start state : σ} {events : List ε}

theorem guarded_reachable (ran : run (guarded allowed step) start events = some state) :
    Reachable step allowed start state := by
  have reached : Reachable (guarded allowed step) (fun _ _ => True) start state :=
    run_reachable (fun _ _ _ => trivial) ran
  apply reached.simulates id
  intro before event next _ taken
  obtain ⟨permitted, moved⟩ := Option.ite_none_right_eq_some.mp taken
  exact Or.inr ⟨event, permitted, moved⟩

theorem run_of_guarded (ran : run (guarded allowed step) start events = some state) :
    run step start events = some state := by
  induction events generalizing start with
  | nil => exact ran
  | cons event rest ih =>
      rw [run, List.foldlM_cons] at ran
      obtain ⟨next, taken, later⟩ := Option.bind_eq_some_iff.mp ran
      obtain ⟨_, moved⟩ := Option.ite_none_right_eq_some.mp taken
      rw [run, List.foldlM_cons]
      exact Option.bind_eq_some_iff.mpr ⟨next, moved, ih later⟩

end Guarded

end Rage.Machine
