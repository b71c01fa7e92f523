import Rage.DependencyOrder
import Rage.Machine

/-!
Failures.  A failed task skips what depends on it and aborts the rest; the run returns the first
error it collects.
-/

namespace Rage

/-! What `run_single_task` makes of the command of a task. -/

inductive CommandOutcome
  | exited (code : Int)
  | notSpawned
  deriving DecidableEq

def Task.result (task : Task) : CommandOutcome → TaskResult
  | .exited code =>
      if code = 0 then .ok () else .error (.taskFailed task.packageName task.scriptName code)
  | .notSpawned => .error (.spawn task.packageName task.scriptName)

def Task.OwnError (task : Task) (error : RunError) : Prop :=
  ∃ outcome, task.result outcome = .error error

/-- A dependency of a task that has a task itself. -/
def TaskSet.Edge (set : TaskSet) (package dep : Bytes) : Prop :=
  ∃ task ∈ set.packages, task.packageName = package ∧ dep ∈ task.depPackageNames ∧
    set.hasTask dep = true

namespace Schedule

/-- The events of a run in which no task panics, with the results that `run_single_task` gives. -/
def Calm (set : TaskSet) (_ : Schedule) : SchedulerEvent → Prop
  | .rootReturn index result =>
      ∃ task outcome, set.roots[index]? = some task ∧ result = task.result outcome
  | .finish index result =>
      ∃ task outcome, set.packages[index]? = some task ∧ result = task.result outcome
  | .rootDrop _ panics => panics = false
  | .drop _ panics => panics = false
  | _ => True

def AllSucceeded (set : TaskSet) (schedule : Schedule) : Prop :=
  (∀ index < set.roots.length, schedule.rootPhase index = .returned (.ok ())) ∧
    ∀ index < set.packages.length, schedule.phase index = .returned (.ok ())

/-- Some task ended without success. -/
def SomeFailed (set : TaskSet) (schedule : Schedule) : Prop :=
  (∃ index < set.roots.length, (schedule.rootPhase index).Ended ∧
    schedule.rootPhase index ≠ .returned (.ok ())) ∨
  ∃ index < set.packages.length, (schedule.phase index).Ended ∧
    schedule.phase index ≠ .returned (.ok ())

end Schedule

namespace Schedule

theorem reachable_of_machine {set : TaskSet} {schedule : Schedule}
    {allowed : Schedule → SchedulerEvent → Prop}
    (reached : Machine.Reachable (step set) allowed (initial set) schedule) :
    Reachable set schedule := by
  induction reached with
  | refl => exact .initial
  | tail event _ _ taken ih => exact .step event ih taken

theorem collect_clean {schedule : Schedule} {set : TaskSet} {outcome : Option TaskResult} :
    (schedule.collect set outcome).firstError = none ↔
      schedule.firstError = none ∧ outcome = some (.ok ()) := by
  rcases outcome with _ | ⟨error | ⟨⟩⟩
  · simp [collect]
  · simp [collect]
  · simp [collect]

theorem joinOutcome_ended {phase : Phase} {outcome : Option TaskResult}
    (joined : joinOutcome phase = some outcome) :
    phase.Ended ∧ (outcome = some (.ok ()) ↔ phase = .returned (.ok ())) := by
  cases phase with
  | returned result =>
      obtain rfl := Option.some.inj joined
      exact ⟨Or.inr ⟨result, rfl⟩, by simp⟩
  | dropped =>
      obtain rfl := Option.some.inj joined
      exact ⟨Or.inl rfl, by simp⟩
  | _ => simp [joinOutcome] at joined

theorem Move.rootEnded_kept {set : TaskSet} {before after : Schedule}
    (move : Move set before after) {index : Nat} (ended : (before.rootPhase index).Ended) :
    after.rootPhase index = before.rootPhase index := by
  cases move with
  | root moved phase was rootPhase =>
      have differ : index ≠ moved := by
        rintro rfl
        simp [was, Phase.Ended] at ended
      rw [rootPhase, Function.update_of_ne differ]
  | package moved phase was spawned phases rootPhase => rw [rootPhase]
  | rootCollected moved outcome stage joined next => rw [next]
  | failedRoots error stage joined failed next => rw [next]
  | noPackages stage joined clean empty next => rw [next]
  | entered stage joined clean next => rw [next]
  | allSpawned moved stage known next => rw [next]
  | spawnPanicked moved task stage known repeated next => rw [next]
  | spawned moved task stage known next => rw [next]
  | collected moved outcome stage joined next => rw [next]
  | left stage joined next => rw [next]

theorem Move.ended_kept {set : TaskSet} {before after : Schedule} (move : Move set before after)
    (ordered : Ordered set before) {index : Nat} (ended : (before.phase index).Ended) :
    after.phase index = before.phase index := by
  cases move with
  | root moved phase was rootPhase phases => rw [phases]
  | package moved phase was spawned phases =>
      have differ : index ≠ moved := by
        rintro rfl
        exact was ended
      rw [phases, Function.update_of_ne differ]
  | rootCollected moved outcome stage joined next => rw [next]
  | failedRoots error stage joined failed next => rw [next]
  | noPackages stage joined clean empty next => rw [next]
  | entered stage joined clean next => rw [next]
  | allSpawned moved stage known next => rw [next]
  | spawnPanicked moved task stage known repeated next => rw [next]
  | spawned moved task stage known next =>
      have differ : index ≠ moved := by
        rintro rfl
        have unspawned := ordered.ahead index (by rw [stage]; exact Nat.le_refl index)
        simp [unspawned, Phase.Ended] at ended
      rw [next]
      exact Function.update_of_ne differ _ _
  | collected moved outcome stage joined next => rw [next]
  | left stage joined next => rw [next]

end Schedule

def Stage.inPackages : Stage → Prop
  | .spawning _ => True
  | .joining => True
  | .panicked => True
  | _ => False

/-- What the join loops know in every reachable schedule. -/
structure Contained (set : TaskSet) (schedule : Schedule) : Prop where
  rootBound : ∀ index, schedule.rootPhase index ≠ .unspawned → index < set.roots.length
  bound : ∀ index, schedule.phase index ≠ .unspawned → index < set.packages.length
  rootsJoined : schedule.firstError = none → ∀ index, schedule.rootJoined index = true →
    schedule.rootPhase index = .returned (.ok ())
  packagesJoined : schedule.firstError = none → ∀ index, schedule.joined index = true →
    schedule.phase index = .returned (.ok ())
  joinedEnded : ∀ index, schedule.joined index = true → (schedule.phase index).Ended
  rootJoinedEnded : ∀ index, schedule.rootJoined index = true → (schedule.rootPhase index).Ended
  culprit : schedule.firstError ≠ none → schedule.SomeFailed set
  passed : schedule.stage.inPackages → ∀ index < set.roots.length,
    schedule.rootPhase index = .returned (.ok ())
  succeeded : schedule.stage = .returned (.ok ()) → schedule.AllSucceeded set
  reported : ∀ error, schedule.stage = .returned (.error error) →
    schedule.firstError = some error
  finished : ∀ result, schedule.stage = .returned result → ∀ index,
    schedule.phase index = .unspawned ∨ (schedule.phase index).Ended
  rootsOver : schedule.stage ≠ .roots → ∀ index,
    schedule.rootPhase index = .unspawned ∨ (schedule.rootPhase index).Ended

namespace Contained

variable {set : TaskSet} {before after : Schedule}

theorem initial (set : TaskSet) : Contained set (.initial set) where
  rootBound := by
    intro index spawned
    by_contra outside
    exact spawned (if_neg outside)
  bound := fun index spawned => absurd rfl spawned
  rootsJoined := fun _ index joined => absurd joined Bool.false_ne_true
  packagesJoined := fun _ index joined => absurd joined Bool.false_ne_true
  joinedEnded := fun index joined => absurd joined Bool.false_ne_true
  rootJoinedEnded := fun index joined => absurd joined Bool.false_ne_true
  culprit := fun failed => absurd rfl failed
  passed := False.elim
  succeeded := by simp [Schedule.initial]
  reported := by simp [Schedule.initial]
  finished := by simp [Schedule.initial]
  rootsOver := by simp [Schedule.initial]

theorem someFailed_kept (move : Schedule.Move set before after) (ordered : Ordered set before)
    (failed : before.SomeFailed set) : after.SomeFailed set := by
  rcases failed with ⟨index, bound, ended, notOk⟩ | ⟨index, bound, ended, notOk⟩
  · refine Or.inl ⟨index, bound, ?_⟩
    rw [move.rootEnded_kept ended]
    exact ⟨ended, notOk⟩
  · refine Or.inr ⟨index, bound, ?_⟩
    rw [move.ended_kept ordered ended]
    exact ⟨ended, notOk⟩

theorem of_sameControl (contained : Contained set before)
    (same : Schedule.SameControl before after)
    (rootBound : ∀ index, after.rootPhase index ≠ .unspawned → index < set.roots.length)
    (bound : ∀ index, after.phase index ≠ .unspawned → index < set.packages.length)
    (rootKept : ∀ index, (before.rootPhase index).Ended →
      after.rootPhase index = before.rootPhase index)
    (kept : ∀ index, (before.phase index).Ended → after.phase index = before.phase index)
    (unspawned : ∀ index, before.phase index = .unspawned → after.phase index = .unspawned)
    (rootUnspawned : ∀ index, before.rootPhase index = .unspawned →
      after.rootPhase index = .unspawned)
    (failed : before.SomeFailed set → after.SomeFailed set) : Contained set after where
  rootBound := rootBound
  bound := bound
  rootsJoined := by
    rw [same.firstError, same.rootJoined]
    intro clean index joined
    have ok := contained.rootsJoined clean index joined
    rw [rootKept index (Or.inr ⟨_, ok⟩), ok]
  packagesJoined := by
    rw [same.firstError, same.joined]
    intro clean index joined
    have ok := contained.packagesJoined clean index joined
    rw [kept index (Or.inr ⟨_, ok⟩), ok]
  joinedEnded := by
    rw [same.joined]
    intro index joined
    have ended := contained.joinedEnded index joined
    rwa [kept index ended]
  rootJoinedEnded := by
    rw [same.rootJoined]
    intro index joined
    have ended := contained.rootJoinedEnded index joined
    rwa [rootKept index ended]
  culprit := by
    rw [same.firstError]
    intro error
    exact failed (contained.culprit error)
  passed := by
    rw [same.stage]
    intro inPackages index below
    have ok := contained.passed inPackages index below
    rw [rootKept index (Or.inr ⟨_, ok⟩), ok]
  succeeded := by
    rw [same.stage]
    intro returned
    obtain ⟨roots, packages⟩ := contained.succeeded returned
    constructor
    · intro index below
      rw [rootKept index (Or.inr ⟨_, roots index below⟩), roots index below]
    · intro index below
      rw [kept index (Or.inr ⟨_, packages index below⟩), packages index below]
  reported := by
    rw [same.stage, same.firstError]
    exact contained.reported
  finished := by
    rw [same.stage]
    intro result returned index
    rcases contained.finished result returned index with idle | ended
    · exact Or.inl (unspawned index idle)
    · right
      rwa [kept index ended]
  rootsOver := by
    rw [same.stage]
    intro past index
    rcases contained.rootsOver past index with idle | ended
    · exact Or.inl (rootUnspawned index idle)
    · right
      rwa [rootKept index ended]

/-- Once every root future is joined without an error, all of them succeeded. -/
theorem roots_of_joined (contained : Contained set before) (clean : before.firstError = none)
    (joined : ∀ index < set.roots.length, before.rootJoined index = true) :
    ∀ index < set.roots.length, before.rootPhase index = .returned (.ok ()) := by
  intro index below
  exact contained.rootsJoined clean index (joined index below)

theorem over_of_joined (contained : Contained set before)
    (joined : ∀ index < set.roots.length, before.rootJoined index = true) (index : Nat) :
    before.rootPhase index = .unspawned ∨ (before.rootPhase index).Ended := by
  by_cases below : index < set.roots.length
  · exact Or.inr (contained.rootJoinedEnded index (joined index below))
  · left
    by_contra spawned
    exact below (contained.rootBound index spawned)

theorem unspawned_of_roots (ordered : Ordered set before) (stage : before.stage = .roots)
    (index : Nat) : before.phase index = .unspawned :=
  ordered.ahead index (by rw [stage]; trivial)

theorem rootCollected (contained : Contained set before) {index : Nat}
    {outcome : Option TaskResult} (stage : before.stage = .roots)
    (joined : Schedule.joinOutcome (before.rootPhase index) = some outcome) :
    Contained set { before with
      firstError := (before.collect set outcome).firstError
      aborting := (before.collect set outcome).aborting
      rootJoined := Function.update before.rootJoined index true } := by
  obtain ⟨ended, ok⟩ := Schedule.joinOutcome_ended joined
  exact { contained with
    rootsJoined := by
      intro clean other otherJoined
      obtain ⟨wasClean, isOk⟩ := Schedule.collect_clean.mp clean
      by_cases here : other = index
      · rw [here]
        exact ok.mp isOk
      · simp only [Function.update_of_ne here] at otherJoined
        exact contained.rootsJoined wasClean other otherJoined
    packagesJoined := fun clean => contained.packagesJoined (Schedule.collect_clean.mp clean).1
    rootJoinedEnded := by
      intro other otherJoined
      by_cases here : other = index
      · rwa [here]
      · simp only [Function.update_of_ne here] at otherJoined
        exact contained.rootJoinedEnded other otherJoined
    culprit := by
      intro failed
      by_cases wasClean : before.firstError = none
      · refine Or.inl ⟨index, ?_, ended, ?_⟩
        · apply contained.rootBound
          rintro unspawned
          simp [unspawned, Phase.Ended] at ended
        · intro isOk
          exact failed (Schedule.collect_clean.mpr ⟨wasClean, ok.mpr isOk⟩)
      · exact contained.culprit wasClean
    reported := by simp [stage] }

theorem collected (contained : Contained set before) {index : Nat} {outcome : Option TaskResult}
    (stage : before.stage = .joining)
    (joined : Schedule.joinOutcome (before.phase index) = some outcome) :
    Contained set { before with
      firstError := (before.collect set outcome).firstError
      aborting := (before.collect set outcome).aborting
      joined := Function.update before.joined index true } := by
  obtain ⟨ended, ok⟩ := Schedule.joinOutcome_ended joined
  exact { contained with
    rootsJoined := fun clean => contained.rootsJoined (Schedule.collect_clean.mp clean).1
    packagesJoined := by
      intro clean other otherJoined
      obtain ⟨wasClean, isOk⟩ := Schedule.collect_clean.mp clean
      by_cases here : other = index
      · rw [here]
        exact ok.mp isOk
      · simp only [Function.update_of_ne here] at otherJoined
        exact contained.packagesJoined wasClean other otherJoined
    joinedEnded := by
      intro other otherJoined
      by_cases here : other = index
      · rwa [here]
      · simp only [Function.update_of_ne here] at otherJoined
        exact contained.joinedEnded other otherJoined
    culprit := by
      intro failed
      by_cases wasClean : before.firstError = none
      · refine Or.inr ⟨index, ?_, ended, ?_⟩
        · apply contained.bound
          rintro unspawned
          simp [unspawned, Phase.Ended] at ended
        · intro isOk
          exact failed (Schedule.collect_clean.mpr ⟨wasClean, ok.mpr isOk⟩)
      · exact contained.culprit wasClean
    reported := by simp [stage] }

/-- The function returns the first error, and no error only if it collected none. -/
theorem left (contained : Contained set before) (stage : before.stage = .joining)
    (joined : ∀ index < set.packages.length, before.joined index = true) :
    Contained set { before with stage := .returned before.result } := by
  have clean {result : TaskResult} (isResult : before.result = result) :
      result = .ok () ↔ before.firstError = none := by
    subst result
    unfold Schedule.result
    cases before.firstError with
    | none => simp
    | some error => simp
  exact { contained with
    passed := False.elim
    succeeded := by
      intro returned
      have isClean := (clean (Stage.returned.inj returned)).mp rfl
      constructor
      · exact contained.passed (by rw [stage]; trivial)
      · intro index below
        exact contained.packagesJoined isClean index (joined index below)
    reported := by
      intro error returned
      have isResult := Stage.returned.inj returned
      unfold Schedule.result at isResult
      cases failed : before.firstError with
      | none => simp [failed] at isResult
      | some other =>
          rw [failed] at isResult
          obtain rfl := Except.error.inj isResult
          rfl
    finished := by
      intro result _ index
      by_cases below : index < set.packages.length
      · exact Or.inr (contained.joinedEnded index (joined index below))
      · left
        by_contra spawned
        exact below (contained.bound index spawned)
    rootsOver := fun _ => contained.rootsOver (by simp [stage]) }

theorem step (contained : Contained set before) (ordered : Ordered set before)
    (move : Schedule.Move set before after) : Contained set after := by
  have failedKept := someFailed_kept move ordered
  have whole := move
  cases move with
  | root index phase was rootPhase phases same =>
      apply contained.of_sameControl same ?_ ?_ (fun _ => whole.rootEnded_kept)
        (fun _ => whole.ended_kept ordered) ?_ ?_ failedKept
      · intro other spawned
        apply contained.rootBound
        by_cases here : other = index
        · simp [here, was]
        · rwa [rootPhase, Function.update_of_ne here] at spawned
      · rw [phases]
        exact contained.bound
      · intro other unspawned
        rw [phases, unspawned]
      · intro other unspawned
        have differ : other ≠ index := by
          rintro rfl
          simp [was] at unspawned
        rw [rootPhase, Function.update_of_ne differ, unspawned]
  | package index phase was spawned phases rootPhase same =>
      apply contained.of_sameControl same ?_ ?_ (fun _ => whole.rootEnded_kept)
        (fun _ => whole.ended_kept ordered) ?_ ?_ failedKept
      · rw [rootPhase]
        exact contained.rootBound
      · intro other otherSpawned
        apply contained.bound
        by_cases here : other = index
        · rwa [here]
        · rwa [phases, Function.update_of_ne here] at otherSpawned
      · intro other unspawned
        have differ : other ≠ index := by
          rintro rfl
          exact spawned unspawned
        rw [phases, Function.update_of_ne differ, unspawned]
      · intro other unspawned
        rw [rootPhase, unspawned]
  | rootCollected index outcome stage joined next =>
      subst next
      exact contained.rootCollected stage joined
  | failedRoots error stage joined failed next =>
      subst next
      exact { contained with
        passed := False.elim
        succeeded := by simp
        reported := by simp [failed]
        finished := fun _ _ index => Or.inl (unspawned_of_roots ordered stage index)
        rootsOver := fun _ => contained.over_of_joined joined }
  | noPackages stage joined clean empty next =>
      subst next
      exact { contained with
        passed := False.elim
        succeeded := fun _ => ⟨contained.roots_of_joined clean joined, by simp [empty]⟩
        reported := by simp
        finished := fun _ _ index => Or.inl (unspawned_of_roots ordered stage index)
        rootsOver := fun _ => contained.over_of_joined joined }
  | entered stage joined clean next =>
      subst next
      exact { contained with
        passed := fun _ => contained.roots_of_joined clean joined
        succeeded := by simp
        reported := by simp
        finished := by simp
        rootsOver := fun _ => contained.over_of_joined joined }
  | allSpawned index stage known next =>
      subst next
      exact { contained with
        passed := fun _ => contained.passed (by rw [stage]; trivial)
        succeeded := by simp
        reported := by simp
        finished := by simp
        rootsOver := fun _ => contained.rootsOver (by simp [stage]) }
  | spawnPanicked index task stage known repeated next =>
      subst next
      exact { contained with
        passed := fun _ => contained.passed (by rw [stage]; trivial)
        succeeded := by simp
        reported := by simp
        finished := by simp
        rootsOver := fun _ => contained.rootsOver (by simp [stage]) }
  | spawned index task stage known next =>
      have keeps {other : Nat} (ended : (before.phase other).Ended) :
          after.phase other = before.phase other := whole.ended_kept ordered ended
      subst next
      exact { contained with
        bound := by
          intro other spawned
          by_cases here : other = index
          · rw [here]
            exact (List.getElem?_eq_some_iff.mp known).1
          · simp only [Function.update_of_ne here] at spawned
            exact contained.bound other spawned
        packagesJoined := by
          intro clean other joined
          have ok := contained.packagesJoined clean other joined
          rw [keeps (Or.inr ⟨_, ok⟩), ok]
        joinedEnded := by
          intro other joined
          have ended := contained.joinedEnded other joined
          rwa [keeps ended]
        culprit := failedKept ∘ contained.culprit
        passed := fun _ => contained.passed (by rw [stage]; trivial)
        succeeded := by simp
        reported := by simp
        finished := by simp
        rootsOver := fun _ => contained.rootsOver (by simp [stage]) }
  | collected index outcome stage joined next =>
      subst next
      exact contained.collected stage joined
  | left stage joined next =>
      subst next
      exact contained.left stage joined

theorem reachable {schedule : Schedule} (reached : Schedule.Reachable set schedule) :
    Contained set schedule := by
  induction reached with
  | initial => exact initial set
  | step event reached taken ih =>
      exact ih.step (Ordered.reachable reached) (Schedule.step_move taken)

end Contained

end Rage
