import Mathlib.Data.List.Basic

/-!
Histories of a state machine.  A history is a list of events folded over a state; a
condition on a history is a condition on each event in the state that it finds.
-/

namespace Rage.Runs

variable {σ ε : Type} (step : σ → ε → σ)

def final (start : σ) (events : List ε) : σ := events.foldl step start

def Each (condition : σ → ε → Prop) : σ → List ε → Prop
  | _, [] => True
  | state, event :: rest => condition state event ∧ Each condition (step state event) rest

section

variable {step}

theorem each_append (condition : σ → ε → Prop) (start : σ) (before after : List ε) :
    Each step condition start (before ++ after) ↔
      Each step condition start before ∧ Each step condition (final step start before) after := by
  induction before generalizing start with
  | nil => simp [Each, final]
  | cons event rest ih =>
      simp only [List.cons_append, Each, ih]
      exact and_assoc.symm

theorem invariant_final (invariant : σ → Prop)
    (preserved : ∀ state event, invariant state → invariant (step state event))
    {start : σ} (events : List ε) (initial : invariant start) :
    invariant (final step start events) := by
  induction events generalizing start with
  | nil => exact initial
  | cons event rest ih => exact ih (preserved start event initial)

/-- Conditions that agree wherever the invariant holds agree on every history from there; the
invariant need only survive events that meet them. -/
theorem each_congr (invariant : σ → Prop) {first second : σ → ε → Prop}
    (preserved : ∀ state event, invariant state → first state event →
      invariant (step state event))
    (same : ∀ state event, invariant state → (first state event ↔ second state event))
    {start : σ} (events : List ε) (initial : invariant start) :
    Each step first start events ↔ Each step second start events := by
  induction events generalizing start with
  | nil => exact Iff.rfl
  | cons event rest ih =>
      have here := same start event initial
      constructor
      · rintro ⟨meets, later⟩
        exact ⟨here.mp meets, (ih (preserved start event initial meets)).mp later⟩
      · rintro ⟨meets, later⟩
        have meetsFirst := here.mpr meets
        exact ⟨meetsFirst, (ih (preserved start event initial meetsFirst)).mpr later⟩

/-- A condition that keeps an invariant and gives a property where it holds gives it on every
event. -/
theorem each_of_each (invariant : σ → Prop) {condition property : σ → ε → Prop}
    (preserved : ∀ state event, invariant state → condition state event →
      invariant (step state event))
    (holds : ∀ state event, invariant state → condition state event → property state event)
    {start : σ} {events : List ε} (initial : invariant start)
    (each : Each step condition start events) : Each step property start events := by
  induction events generalizing start with
  | nil => exact trivial
  | cons event rest ih =>
      exact ⟨holds start event initial each.1, ih (preserved start event initial each.1) each.2⟩

theorem each_and {first second : σ → ε → Prop} {start : σ} {events : List ε} :
    Each step (fun state event => first state event ∧ second state event) start events ↔
      Each step first start events ∧ Each step second start events := by
  induction events generalizing start with
  | nil => simp [Each]
  | cons event rest ih =>
      simp only [Each, ih]
      exact and_and_and_comm

theorem each_iff {condition : σ → ε → Prop} {start : σ} {events : List ε} :
    Each step condition start events ↔ ∀ before event after, events = before ++ event :: after →
      condition (final step start before) event := by
  constructor
  · rintro each before event after rfl
    exact ((each_append condition start before (event :: after)).mp each).2.1
  · intro holds
    induction events generalizing start with
    | nil => exact trivial
    | cons first rest ih =>
        refine ⟨holds [] first rest rfl, ih fun before event after split => ?_⟩
        exact holds (first :: before) event after (by rw [split, List.cons_append])

end

/-! What the events of a history put out. -/

section Outputs

variable {ω : Type} (output : σ → ε → List ω)

def outputs : σ → List ε → List ω
  | _, [] => []
  | state, event :: rest => output state event ++ outputs (step state event) rest

variable {step output}

theorem mem_outputs {start : σ} {events : List ε} {x : ω} :
    x ∈ outputs step output start events ↔ ∃ before event after,
      events = before ++ event :: after ∧ x ∈ output (final step start before) event := by
  induction events generalizing start with
  | nil => simp [outputs]
  | cons first rest ih =>
      rw [outputs, List.mem_append, ih]
      constructor
      · rintro (here | ⟨before, event, after, rfl, later⟩)
        · exact ⟨[], first, rest, rfl, here⟩
        · exact ⟨first :: before, event, after, rfl, later⟩
      · rintro ⟨before, event, after, split, member⟩
        cases before with
        | nil =>
            obtain ⟨rfl, rfl⟩ := List.cons.inj split
            exact Or.inl member
        | cons head before =>
            obtain ⟨rfl, rfl⟩ := List.cons.inj split
            exact Or.inr ⟨before, event, after, rfl, member⟩

/-- A log that each event extends by what it puts out holds the outputs in the end. -/
theorem final_log {log : σ → List ω}
    (extends_ : ∀ state event, log (step state event) = log state ++ output state event)
    (start : σ) (events : List ε) :
    log (final step start events) = log start ++ outputs step output start events := by
  induction events generalizing start with
  | nil => simp [final, outputs]
  | cons event rest ih =>
      have later := ih (step start event)
      rw [extends_, List.append_assoc] at later
      exact later

end Outputs

/-! Observations that the events of one owner make, and when they are the same without the events
of the others. -/

section Observations

variable {ω : Type} (observe : σ → ε → ω) (own : ε → Bool)

def observed : σ → List ε → List ω
  | _, [] => []
  | state, event :: rest =>
      if own event then observe state event :: observed (step state event) rest
      else observed (step state event) rest

variable {step observe own}

theorem observed_filter {related : σ → σ → Prop} {condition : σ → ε → Prop}
    (consistent : ∀ full alone event, own event = true → related full alone →
      condition full event → observe full event = observe alone event ∧
        related (step full event) (step alone event))
    (respects : ∀ full alone event, own event = false → related full alone →
      condition full event → related (step full event) alone)
    {full alone : σ} {events : List ε} (initial : related full alone)
    (each : Each step condition full events) :
    observed step observe own full events = observed step observe own alone (events.filter own) := by
  induction events generalizing full alone with
  | nil => rfl
  | cons event rest ih =>
      cases isOwn : own event with
      | true =>
          obtain ⟨same, next⟩ := consistent full alone event isOwn initial each.1
          simp only [observed, isOwn, if_true, List.filter_cons, same, ih next each.2]
      | false =>
          have next := respects full alone event isOwn initial each.1
          simp only [observed, isOwn, Bool.false_eq_true, if_false, List.filter_cons,
            ih next each.2]

end Observations

end Rage.Runs
