import Rage.FailureContainment

/-!
The error that a run reports.  While no error is collected nothing is aborted, so every sender
that is gone has sent, and every failure leads along dependencies to a command that failed.
-/

namespace Rage

namespace Schedule

def FailedItself (set : TaskSet) (schedule : Schedule) (package : Bytes) : Prop :=
  ∃ (index : Nat) (task : Task) (error : RunError), set.packages[index]? = some task ∧
    task.packageName = package ∧ schedule.phase index = .returned (.error error) ∧
      task.OwnError error

/-- A task fails by its own command, or is skipped for one that did. -/
def Justified (set : TaskSet) (schedule : Schedule) (task : Task) (error : RunError) : Prop :=
  task.OwnError error ∨ error = .skipped task.packageName task.scriptName ∧
    ∃ culprit, Relation.TransGen set.Edge task.packageName culprit ∧
      schedule.FailedItself set culprit

def Explained (set : TaskSet) (schedule : Schedule) (error : RunError) : Prop :=
  (∃ (index : Nat) (task : Task), set.roots[index]? = some task ∧
    schedule.rootPhase index = .returned (.error error) ∧ task.OwnError error) ∨
  ∃ (index : Nat) (task : Task), set.packages[index]? = some task ∧
    schedule.phase index = .returned (.error error) ∧ schedule.Justified set task error

variable {set : TaskSet} {before after : Schedule}

theorem failedItself_kept
    (kept : ∀ index, (before.phase index).Ended → after.phase index = before.phase index)
    {package : Bytes} (failed : before.FailedItself set package) :
    after.FailedItself set package := by
  obtain ⟨index, task, error, known, isPackage, returned, own⟩ := failed
  refine ⟨index, task, error, known, isPackage, ?_, own⟩
  rw [kept index (Or.inr ⟨_, returned⟩), returned]

theorem justified_kept
    (kept : ∀ index, (before.phase index).Ended → after.phase index = before.phase index)
    {task : Task} {error : RunError} (justified : before.Justified set task error) :
    after.Justified set task error := by
  rcases justified with own | ⟨skipped, culprit, path, failed⟩
  · exact Or.inl own
  · exact Or.inr ⟨skipped, culprit, path, failedItself_kept kept failed⟩

theorem explained_kept
    (kept : ∀ index, (before.phase index).Ended → after.phase index = before.phase index)
    (rootKept : ∀ index, (before.rootPhase index).Ended →
      after.rootPhase index = before.rootPhase index)
    {error : RunError} (explained : before.Explained set error) : after.Explained set error := by
  rcases explained with ⟨index, task, known, returned, own⟩ | ⟨index, task, known, returned, why⟩
  · refine Or.inl ⟨index, task, known, ?_, own⟩
    rw [rootKept index (Or.inr ⟨_, returned⟩), returned]
  · refine Or.inr ⟨index, task, known, ?_, justified_kept kept why⟩
    rw [kept index (Or.inr ⟨_, returned⟩), returned]

end Schedule

/-- Where failures come from in a run without panics. -/
structure Attributed (set : TaskSet) (schedule : Schedule) : Prop where
  quiet : schedule.firstError = none → schedule.aborting = false
  rootOwn : ∀ (index : Nat) (task : Task) (error : RunError), set.roots[index]? = some task →
    schedule.rootPhase index = .returned (.error error) → task.OwnError error
  rootAlive : schedule.firstError = none → ∀ index, schedule.rootPhase index ≠ .dropped
  alive : schedule.firstError = none → ∀ index, schedule.phase index ≠ .dropped
  finishedOwn : ∀ (index : Nat) (task : Task) (error : RunError),
    set.packages[index]? = some task → schedule.phase index = .finished (.error error) →
      task.OwnError error
  receivers : ∀ (index : Nat) (task : Task) (rest : List Bytes),
    set.packages[index]? = some task → schedule.phase index = .waiting rest →
      ∀ dep ∈ rest, set.Edge task.packageName dep
  sent : schedule.firstError = none → ∀ name, schedule.channels name ≠ some ⟨.pending, false⟩
  failed : schedule.firstError = none → ∀ name sender,
    schedule.channels name = some ⟨.failed, sender⟩ →
      ∃ culprit, Relation.ReflTransGen set.Edge name culprit ∧ schedule.FailedItself set culprit
  skipping : schedule.firstError = none → ∀ (index : Nat) (task : Task),
    set.packages[index]? = some task → schedule.phase index = .skipping →
      ∃ culprit, Relation.TransGen set.Edge task.packageName culprit ∧
        schedule.FailedItself set culprit
  justified : schedule.firstError = none → ∀ (index : Nat) (task : Task) (error : RunError),
    set.packages[index]? = some task → schedule.phase index = .returned (.error error) →
      schedule.Justified set task error
  explained : ∀ error, schedule.firstError = some error → schedule.Explained set error

namespace Attributed

variable {set : TaskSet} {before after : Schedule}

theorem initial (set : TaskSet) : Attributed set (.initial set) where
  quiet := fun _ => rfl
  rootOwn := by
    intro index task error _ returned
    simp only [Schedule.initial] at returned
    split at returned
    · simp at returned
    · simp at returned
  rootAlive := by
    intro _ index
    simp only [Schedule.initial]
    split
    · simp
    · simp
  alive := by simp [Schedule.initial]
  finishedOwn := by simp [Schedule.initial]
  receivers := by simp [Schedule.initial]
  sent := by simp [Schedule.initial]
  failed := by simp [Schedule.initial]
  skipping := by simp [Schedule.initial]
  justified := by simp [Schedule.initial]
  explained := by simp [Schedule.initial]

/-- What one future of a package task does, when it does not touch the channels. -/
theorem of_phase (attributed : Attributed set before) {index : Nat} {phase : Phase}
    (was : ¬ (before.phase index).Ended) (next : after = before.setPhase index phase)
    (alive : phase ≠ .dropped)
    (finishedOwn : ∀ task error, set.packages[index]? = some task →
      phase = .finished (.error error) → task.OwnError error)
    (receivers : ∀ task rest, set.packages[index]? = some task → phase = .waiting rest →
      ∀ dep ∈ rest, set.Edge task.packageName dep)
    (skipping : before.firstError = none → ∀ task, set.packages[index]? = some task →
      phase = .skipping → ∃ culprit, Relation.TransGen set.Edge task.packageName culprit ∧
        before.FailedItself set culprit)
    (notReturned : ∀ result, phase ≠ .returned result) : Attributed set after := by
  subst next
  have kept (other : Nat) (ended : (before.phase other).Ended) :
      (before.setPhase index phase).phase other = before.phase other := by
    have differ : other ≠ index := by
      rintro rfl
      exact was ended
    exact Function.update_of_ne differ _ _
  -- Away from the future that moved, every phase is as it was.
  have elsewhere {other : Nat} {found : Phase}
      (isPhase : Function.update before.phase index phase other = found) (differs : found ≠ phase) :
      before.phase other = found := by
    have differ : other ≠ index := by
      rintro rfl
      rw [Function.update_self] at isPhase
      exact differs isPhase.symm
    rwa [Function.update_of_ne differ] at isPhase
  have here {other : Nat} {task : Task} (known : set.packages[other]? = some task) {found : Phase}
      (isPhase : Function.update before.phase index phase other = found)
      (differs : before.phase other ≠ found) : set.packages[index]? = some task ∧ phase = found := by
    by_cases same : other = index
    · subst other
      rw [Function.update_self] at isPhase
      exact ⟨known, isPhase⟩
    · rw [Function.update_of_ne same] at isPhase
      exact absurd isPhase differs
  exact { attributed with
    alive := by
      intro clean other dropped
      exact attributed.alive clean other (elsewhere dropped alive.symm)
    finishedOwn := by
      intro other task error known finished
      by_cases was : before.phase other = .finished (.error error)
      · exact attributed.finishedOwn other task error known was
      · obtain ⟨isTask, isPhase⟩ := here known finished was
        exact finishedOwn task error isTask isPhase
    receivers := by
      intro other task rest known waiting
      by_cases was : before.phase other = .waiting rest
      · exact attributed.receivers other task rest known was
      · obtain ⟨isTask, isPhase⟩ := here known waiting was
        exact receivers task rest isTask isPhase
    failed := by
      intro clean name sender isFailed
      obtain ⟨culprit, path, failed⟩ := attributed.failed clean name sender isFailed
      exact ⟨culprit, path, Schedule.failedItself_kept kept failed⟩
    skipping := by
      intro clean other task known skips
      by_cases was : before.phase other = .skipping
      · obtain ⟨culprit, path, failed⟩ := attributed.skipping clean other task known was
        exact ⟨culprit, path, Schedule.failedItself_kept kept failed⟩
      · obtain ⟨isTask, isPhase⟩ := here known skips was
        obtain ⟨culprit, path, failed⟩ := skipping clean task isTask isPhase
        exact ⟨culprit, path, Schedule.failedItself_kept kept failed⟩
    justified := by
      intro clean other task error known returned
      have was := elsewhere returned (notReturned _).symm
      exact Schedule.justified_kept kept (attributed.justified clean other task error known was)
    explained := by
      intro error failed
      exact Schedule.explained_kept kept (fun _ _ => rfl) (attributed.explained error failed) }

/-- A future that was about to return sends its result and returns it. -/
theorem of_send (attributed : Attributed set before) {index : Nat} {task : Task}
    {result : TaskResult} {state : DepState} (known : set.packages[index]? = some task)
    (was : ¬ (before.phase index).Ended)
    (next : after = (before.setPhase index (.returned result)).sendState task.packageName state)
    (sent : state ≠ .pending) (isFailed : state = .failed → ∃ error, result = .error error)
    (justified : before.firstError = none → ∀ error, result = .error error →
      task.OwnError error ∨ error = .skipped task.packageName task.scriptName ∧
        ∃ culprit, Relation.TransGen set.Edge task.packageName culprit ∧
          before.FailedItself set culprit) : Attributed set after := by
  have kept (other : Nat) (ended : (before.phase other).Ended) :
      after.phase other = before.phase other := by
    have differ : other ≠ index := by
      rintro rfl
      exact was ended
    rw [next]
    exact Function.update_of_ne differ _ _
  have returned : after.phase index = .returned result := by
    rw [next]
    exact Function.update_self ..
  have why (clean : before.firstError = none) {error : RunError} (isError : result = .error error) :
      after.Justified set task error := Schedule.justified_kept kept (justified clean error isError)
  -- The channel tells of a failure that this future has itself, or was skipped for.
  have blamed (clean : before.firstError = none) (failing : state = .failed) :
      ∃ culprit, Relation.ReflTransGen set.Edge task.packageName culprit ∧
        after.FailedItself set culprit := by
    obtain ⟨error, isError⟩ := isFailed failing
    rcases why clean isError with own | ⟨_, culprit, path, failed⟩
    · exact ⟨task.packageName, .refl, index, task, error, known, rfl, by rw [returned, isError],
        own⟩
    · exact ⟨culprit, path.to_reflTransGen, failed⟩
  subst next
  have elsewhere {other : Nat} {found : Phase}
      (isPhase : Function.update before.phase index (.returned result) other = found)
      (differs : found ≠ .returned result) : before.phase other = found := by
    have differ : other ≠ index := by
      rintro rfl
      rw [Function.update_self] at isPhase
      exact differs isPhase.symm
    rwa [Function.update_of_ne differ] at isPhase
  exact { attributed with
    alive := by
      intro clean other dropped
      exact attributed.alive clean other (elsewhere dropped (by simp))
    finishedOwn := by
      intro other otherTask error otherKnown finished
      exact attributed.finishedOwn other otherTask error otherKnown (elsewhere finished (by simp))
    receivers := by
      intro other otherTask rest otherKnown waiting
      exact attributed.receivers other otherTask rest otherKnown (elsewhere waiting (by simp))
    sent := by
      intro clean name pending
      by_cases same : name = task.packageName
      · subst same
        simp only [Schedule.sendState, Function.update_self, Option.some.injEq,
          Channel.mk.injEq] at pending
        exact sent pending.1
      · simp only [Schedule.sendState, Function.update_of_ne same] at pending
        exact attributed.sent clean name pending
    failed := by
      intro clean name sender found
      by_cases same : name = task.packageName
      · subst same
        simp only [Schedule.sendState, Function.update_self, Option.some.injEq,
          Channel.mk.injEq] at found
        exact blamed clean found.1
      · simp only [Schedule.sendState, Function.update_of_ne same] at found
        obtain ⟨culprit, path, failed⟩ := attributed.failed clean name sender found
        exact ⟨culprit, path, Schedule.failedItself_kept kept failed⟩
    skipping := by
      intro clean other otherTask otherKnown skips
      obtain ⟨culprit, path, failed⟩ :=
        attributed.skipping clean other otherTask otherKnown (elsewhere skips (by simp))
      exact ⟨culprit, path, Schedule.failedItself_kept kept failed⟩
    justified := by
      intro clean other otherTask error otherKnown otherReturned
      by_cases same : other = index
      · subst other
        obtain rfl := Option.some.inj (known.symm.trans otherKnown)
        exact why clean (Phase.returned.inj (returned.symm.trans otherReturned))
      · have was : before.phase other = .returned (.error error) := by
          rw [← otherReturned]
          exact (Function.update_of_ne same _ _).symm
        exact Schedule.justified_kept kept
          (attributed.justified clean other otherTask error otherKnown was)
    explained := by
      intro error failed
      exact Schedule.explained_kept kept (fun _ _ => rfl) (attributed.explained error failed) }

theorem collect_error {schedule : Schedule} {set : TaskSet} {outcome : Option TaskResult}
    {error : RunError} (failed : (schedule.collect set outcome).firstError = some error) :
    schedule.firstError = some error ∨
      schedule.firstError = none ∧ (outcome = none ∨ outcome = some (.error error)) := by
  cases wasClean : schedule.firstError with
  | some other => 
      left
      rcases outcome with _ | ⟨found | ⟨⟩⟩
      · simpa [Schedule.collect, wasClean] using failed
      · simpa [Schedule.collect, wasClean] using failed
      · simpa [Schedule.collect, wasClean] using failed
  | none =>
      refine Or.inr ⟨rfl, ?_⟩
      rcases outcome with _ | ⟨found | ⟨⟩⟩
      · exact Or.inl rfl
      · right
        simpa [Schedule.collect, wasClean] using failed
      · simp [Schedule.collect, wasClean] at failed

theorem quiet_of_collect {schedule : Schedule} {set : TaskSet} {outcome : Option TaskResult}
    (quiet : schedule.firstError = none → schedule.aborting = false)
    (clean : (schedule.collect set outcome).firstError = none) :
    (schedule.collect set outcome).aborting = false := by
  obtain ⟨wasClean, rfl⟩ := Schedule.collect_clean.mp clean
  exact quiet wasClean

theorem distinct_take (distinct : (set.packages.map Task.packageName).Nodup) {index : Nat}
    {task : Task} (known : set.packages[index]? = some task) :
    ∀ other ∈ set.packages.take index, other.packageName ≠ task.packageName := by
  intro other earlier same
  obtain ⟨position, below, isOther⟩ := List.mem_take_iff_getElem.mp earlier
  obtain ⟨bound, isTask⟩ := List.getElem?_eq_some_iff.mp known
  have positions : position = index := by
    have first : position < (set.packages.map Task.packageName).length := by
      rw [List.length_map]
      omega
    have second : index < (set.packages.map Task.packageName).length := by rwa [List.length_map]
    have sameName : (set.packages.map Task.packageName)[position] =
        (set.packages.map Task.packageName)[index] := by
      rw [List.getElem_map, List.getElem_map, isOther, isTask, same]
    exact (List.Nodup.getElem_inj_iff distinct).mp sameName
  omega

/-- The receivers that a task waits on are those of its dependencies with tasks. -/
theorem edge_of_receiver {task : Task} {dep : Bytes} (member : task ∈ set.packages)
    (received : dep ∈ task.depPackageNames.filter set.hasTask) :
    set.Edge task.packageName dep := by
  obtain ⟨listed, tasked⟩ := List.mem_filter.mp received
  exact ⟨task, member, rfl, listed, tasked⟩

theorem poll (attributed : Attributed set before) {index : Nat} {dep : Bytes} {rest : List Bytes}
    {phase : Phase} (waiting : before.phase index = .waiting (dep :: rest))
    (polled : before.pollReceiver dep rest = some phase)
    (next : after = before.setPhase index phase) : Attributed set after := by
  have edges {task : Task} (known : set.packages[index]? = some task) :
      ∀ other ∈ dep :: rest, set.Edge task.packageName other :=
    attributed.receivers index task (dep :: rest) known waiting
  have blamed {sender : Bool} (failed : before.channels dep = some ⟨.failed, sender⟩)
      (clean : before.firstError = none) {task : Task}
      (known : set.packages[index]? = some task) :
      ∃ culprit, Relation.TransGen set.Edge task.packageName culprit ∧
        before.FailedItself set culprit := by
    obtain ⟨culprit, path, isFailed⟩ := attributed.failed clean dep sender failed
    have first : set.Edge task.packageName dep := edges known dep List.mem_cons_self
    exact ⟨culprit, Relation.TransGen.head' first path, isFailed⟩
  unfold Schedule.pollReceiver at polled
  split at polled
  · obtain rfl := Option.some.inj polled
    apply attributed.of_phase (by simp [waiting, Phase.Ended]) next
    · simp
    · simp
    · intro task left known same other member
      obtain rfl := Phase.waiting.inj same
      exact edges known other (List.mem_cons_of_mem dep member)
    · simp
    · simp
  · rename_i sender failed
    obtain rfl := Option.some.inj polled
    apply attributed.of_phase (by simp [waiting, Phase.Ended]) next
    · simp
    · simp
    · simp
    · intro clean task known _
      exact blamed failed clean known
    · simp
  · rename_i gone
    obtain rfl := Option.some.inj polled
    apply attributed.of_phase (by simp [waiting, Phase.Ended]) next
    · simp
    · simp
    · simp
    · -- A sender that is gone without having sent was aborted, after the first error.
      intro clean
      exact absurd gone (attributed.sent clean dep)
    · simp
  · simp at polled

theorem joinOutcome_none {phase : Phase} (joined : Schedule.joinOutcome phase = some none) :
    phase = .dropped := by
  cases phase with
  | dropped => rfl
  | _ => simp [Schedule.joinOutcome] at joined

theorem joinOutcome_some {phase : Phase} {result : TaskResult}
    (joined : Schedule.joinOutcome phase = some (some result)) : phase = .returned result := by
  cases phase with
  | returned other =>
      obtain rfl : other = result := by simpa [Schedule.joinOutcome] using joined
      rfl
  | _ => simp [Schedule.joinOutcome] at joined

theorem of_collect (attributed : Attributed set before) {outcome : Option TaskResult}
    (explained : before.firstError = none → ∀ error,
      outcome = none ∨ outcome = some (.error error) → before.Explained set error)
    (phase : after.phase = before.phase) (rootPhase : after.rootPhase = before.rootPhase)
    (channels : after.channels = before.channels)
    (firstError : after.firstError = (before.collect set outcome).firstError)
    (aborting : after.aborting = (before.collect set outcome).aborting) :
    Attributed set after := by
  have wasClean (clean : after.firstError = none) : before.firstError = none :=
    (Schedule.collect_clean.mp (firstError ▸ clean)).1
  have failedSame (package : Bytes) :
      after.FailedItself set package ↔ before.FailedItself set package := by
    rw [Schedule.FailedItself, phase, Schedule.FailedItself]
  have justifiedSame (task : Task) (error : RunError) :
      after.Justified set task error ↔ before.Justified set task error := by
    simp only [Schedule.Justified, failedSame]
  constructor
  · intro clean
    rw [aborting]
    exact quiet_of_collect attributed.quiet (firstError ▸ clean)
  · rw [rootPhase]
    exact attributed.rootOwn
  · rw [rootPhase]
    exact fun clean => attributed.rootAlive (wasClean clean)
  · rw [phase]
    exact fun clean => attributed.alive (wasClean clean)
  · rw [phase]
    exact attributed.finishedOwn
  · rw [phase]
    exact attributed.receivers
  · rw [channels]
    exact fun clean => attributed.sent (wasClean clean)
  · simp only [channels, failedSame]
    exact fun clean => attributed.failed (wasClean clean)
  · simp only [phase, failedSame]
    exact fun clean => attributed.skipping (wasClean clean)
  · simp only [phase, justifiedSame]
    exact fun clean => attributed.justified (wasClean clean)
  · intro error failed
    rw [firstError] at failed
    have why : before.Explained set error := by
      rcases collect_error failed with wasFailed | ⟨clean, isError⟩
      · exact attributed.explained error wasFailed
      · exact explained clean error isError
    simpa only [Schedule.Explained, rootPhase, phase, justifiedSame] using why

/-- After the first error the dropped futures say nothing more. -/
theorem of_failed (attributed : Attributed set before) (failed : before.firstError ≠ none)
    (explainedKept : ∀ error, before.Explained set error → after.Explained set error)
    {index : Nat} {task : Task}
    (next : after = (before.setPhase index .dropped).dropSender task.packageName) :
    Attributed set after := by
  subst next
  have elsewhere {other : Nat} {found : Phase}
      (isPhase : Function.update before.phase index .dropped other = found)
      (differs : found ≠ .dropped) : before.phase other = found := by
    have differ : other ≠ index := by
      rintro rfl
      rw [Function.update_self] at isPhase
      exact differs isPhase.symm
    rwa [Function.update_of_ne differ] at isPhase
  exact { attributed with
    alive := fun clean => absurd clean failed
    finishedOwn := by
      intro other otherTask error known finished
      exact attributed.finishedOwn other otherTask error known (elsewhere finished (by simp))
    receivers := by
      intro other otherTask rest known waiting
      exact attributed.receivers other otherTask rest known (elsewhere waiting (by simp))
    sent := fun clean => absurd clean failed
    failed := fun clean => absurd clean failed
    skipping := fun clean => absurd clean failed
    justified := fun clean => absurd clean failed
    explained := fun error isError => explainedKept error (attributed.explained error isError) }

theorem spawnNext (attributed : Attributed set before) (ordered : Ordered set before)
    (distinct : (set.packages.map Task.packageName).Nodup) {index : Nat}
    (stage : before.stage = .spawning index) : Attributed set (before.spawnNext set index) := by
  have unspawned : before.phase index = .unspawned :=
    ordered.ahead index (by rw [stage]; exact Nat.le_refl index)
  unfold Schedule.spawnNext
  cases known : set.packages[index]? with
  | none => exact { attributed with }
  | some task =>
      simp only
      split
      · -- With distinct names no sender is missing.
        rename_i repeated
        obtain ⟨other, earlier, same⟩ := List.any_eq_true.mp repeated
        exact absurd (by simpa using same) (distinct_take distinct known other earlier)
      · have entered : Attributed set { before with stage := .spawning (index + 1) } :=
          { attributed with }
        have moved : { before.setPhase index
            (.waiting (task.depPackageNames.filter set.hasTask)) with
              stage := .spawning (index + 1) } =
            ({ before with stage := .spawning (index + 1) } : Schedule).setPhase index
              (.waiting (task.depPackageNames.filter set.hasTask)) := rfl
        apply entered.of_phase _ moved
        · simp
        · simp
        · intro own rest isOwn same dep member
          obtain rfl := Option.some.inj (known.symm.trans isOwn)
          obtain rfl := Phase.waiting.inj same
          exact edge_of_receiver (List.mem_of_getElem? known) member
        · simp
        · simp
        · simp [unspawned, Phase.Ended]

/-! What one event does; `explainedKept` is what all of them have in common. -/

section Events

variable (attributed : Attributed set before)
  (explainedKept : ∀ error, before.Explained set error → after.Explained set error)

include attributed explainedKept

theorem rootReturn {index : Nat} {result : TaskResult}
    (calm : before.Calm set (.rootReturn index result))
    (taken : before.step set (.rootReturn index result) = some after) : Attributed set after := by
  obtain ⟨was, next⟩ := Option.ite_none_right_eq_some.mp taken
  obtain rfl := Option.some.inj next
  obtain ⟨own, outcome, isOwn, isResult⟩ := calm
  exact { attributed with
    rootOwn := by
      intro other task error known returned
      by_cases here : other = index
      · subst other
        obtain rfl := Option.some.inj (isOwn.symm.trans known)
        simp only [Function.update_self, Phase.returned.injEq] at returned
        exact ⟨outcome, isResult ▸ returned⟩
      · simp only [Function.update_of_ne here] at returned
        exact attributed.rootOwn other task error known returned
    rootAlive := by
      intro clean other
      by_cases here : other = index
      · simp [here]
      · simp only [Function.update_of_ne here]
        exact attributed.rootAlive clean other
    explained := fun error failed => explainedKept error (attributed.explained error failed) }

theorem rootDrop {index : Nat} {panics : Bool} (calm : before.Calm set (.rootDrop index panics))
    (taken : before.step set (.rootDrop index panics) = some after) : Attributed set after := by
  obtain ⟨⟨was, enabled⟩, next⟩ := Option.ite_none_right_eq_some.mp taken
  obtain rfl := Option.some.inj next
  obtain rfl : panics = false := calm
  have failed : before.firstError ≠ none := by
    intro clean
    simp [attributed.quiet clean] at enabled
  exact { attributed with
    rootOwn := by
      intro other task error known returned
      by_cases here : other = index
      · simp [here] at returned
      · simp only [Function.update_of_ne here] at returned
        exact attributed.rootOwn other task error known returned
    rootAlive := fun clean => absurd clean failed
    explained := fun error failed => explainedKept error (attributed.explained error failed) }

theorem enterPackages (taken : before.step set .enterPackages = some after) :
    Attributed set after := by
  obtain ⟨⟨stage, _⟩, entered⟩ := Option.ite_none_right_eq_some.mp taken
  split at entered
  · obtain rfl := Option.some.inj entered
    exact { attributed with
      explained := fun error failed => explainedKept error (attributed.explained error failed) }
  · split at entered
    · obtain rfl := Option.some.inj entered
      exact { attributed with
        explained := fun error failed => explainedKept error (attributed.explained error failed) }
    · obtain rfl := Option.some.inj entered
      have pending {name : Bytes} {channel : Channel}
          (found : Schedule.openChannels set name = some channel) :
          channel = ⟨.pending, true⟩ := by
        unfold Schedule.openChannels at found
        split at found
        · exact (Option.some.inj found).symm
        · simp at found
      exact { attributed with
        quiet := fun _ => rfl
        sent := by
          intro _ name found
          simpa using pending found
        failed := by
          intro _ name sender found
          simpa using pending found
        explained := fun error failed => explainedKept error (attributed.explained error failed) }

theorem drop {index : Nat} {panics : Bool} (calm : before.Calm set (.drop index panics))
    (taken : before.step set (.drop index panics) = some after) : Attributed set after := by
  simp only [Schedule.step] at taken
  split at taken
  · rename_i task known
    obtain ⟨droppable, next⟩ := Option.ite_none_right_eq_some.mp taken
    obtain rfl : panics = false := calm
    have failed : before.firstError ≠ none := by
      intro clean
      rw [attributed.quiet clean] at droppable
      cases was : before.phase index with
      | _ => simp [Schedule.droppable, was] at droppable
    exact attributed.of_failed failed explainedKept (Option.some.inj next).symm
  · simp at taken

end Events

section Joins

variable (attributed : Attributed set before) (reached : Schedule.Reachable set before)

include attributed reached

theorem rootJoin {index : Nat} (taken : before.step set (.rootJoin index) = some after) :
    Attributed set after := by
  obtain ⟨_, collected⟩ := Option.ite_none_right_eq_some.mp taken
  obtain ⟨outcome, joined, rfl⟩ := Option.map_eq_some_iff.mp collected
  have explained : before.firstError = none → ∀ error,
      outcome = none ∨ outcome = some (.error error) → before.Explained set error := by
    rintro clean error (rfl | rfl)
    · exact absurd (joinOutcome_none joined) (attributed.rootAlive clean index)
    · have returned := joinOutcome_some joined
      have bound := (Contained.reachable reached).rootBound index (by simp [returned])
      left
      exact ⟨index, _, List.getElem?_eq_getElem bound, returned,
        attributed.rootOwn index _ error (List.getElem?_eq_getElem bound) returned⟩
  apply attributed.of_collect explained
  · rw [Schedule.collect_eq]
  · rw [Schedule.collect_eq]
  · rw [Schedule.collect_eq]
  · rfl
  · rfl

theorem join {index : Nat} (taken : before.step set (.join index) = some after) :
    Attributed set after := by
  obtain ⟨_, collected⟩ := Option.ite_none_right_eq_some.mp taken
  obtain ⟨outcome, joined, rfl⟩ := Option.map_eq_some_iff.mp collected
  have explained : before.firstError = none → ∀ error,
      outcome = none ∨ outcome = some (.error error) → before.Explained set error := by
    rintro clean error (rfl | rfl)
    · exact absurd (joinOutcome_none joined) (attributed.alive clean index)
    · have returned := joinOutcome_some joined
      have bound := (Contained.reachable reached).bound index (by simp [returned])
      right
      exact ⟨index, _, List.getElem?_eq_getElem bound, returned,
        attributed.justified clean index _ error (List.getElem?_eq_getElem bound) returned⟩
  apply attributed.of_collect explained
  · rw [Schedule.collect_eq]
  · rw [Schedule.collect_eq]
  · rw [Schedule.collect_eq]
  · rfl
  · rfl

end Joins

theorem finish (attributed : Attributed set before) {index : Nat} {result : TaskResult}
    (calm : before.Calm set (.finish index result))
    (taken : before.step set (.finish index result) = some after) : Attributed set after := by
  obtain ⟨running, next⟩ := Option.ite_none_right_eq_some.mp taken
  obtain ⟨own, outcome, isOwn, isResult⟩ := calm
  apply attributed.of_phase (by simp [running, Phase.Ended]) (Option.some.inj next).symm
  · simp
  · intro task error known same
    obtain rfl := Option.some.inj (isOwn.symm.trans known)
    exact ⟨outcome, by rw [← isResult]; exact Phase.finished.inj same⟩
  · simp
  · simp
  · simp

theorem send (attributed : Attributed set before) {index : Nat}
    (taken : before.step set (.send index) = some after) : Attributed set after := by
  simp only [Schedule.step] at taken
  split at taken
  · rename_i task result known finished
    apply attributed.of_send known (by simp [finished, Phase.Ended])
      (Option.some.inj taken).symm
    · cases result with
      | ok value => simp
      | error error => simp
    · cases result with
      | ok value => simp
      | error error => simp
    · intro clean error isError
      left
      exact attributed.finishedOwn index task error known (by rw [finished, isError])
  · rename_i task known skips
    apply attributed.of_send known (by simp [skips, Phase.Ended]) (Option.some.inj taken).symm
    · simp
    · simp
    · intro clean error isError
      obtain rfl := Except.error.inj isError
      exact Or.inr ⟨rfl, attributed.skipping clean index task known skips⟩
  · simp at taken

theorem step (attributed : Attributed set before) (reached : Schedule.Reachable set before)
    (distinct : (set.packages.map Task.packageName).Nodup) {event : SchedulerEvent}
    (calm : before.Calm set event) (taken : before.step set event = some after) :
    Attributed set after := by
  have ordered := Ordered.reachable reached
  have move := Schedule.step_move taken
  have explainedKept (error : RunError) (explained : before.Explained set error) :
      after.Explained set error :=
    Schedule.explained_kept (fun _ => move.ended_kept ordered) (fun _ => move.rootEnded_kept)
      explained
  cases event with
  | rootReturn index result => exact attributed.rootReturn explainedKept calm taken
  | rootDrop index panics => exact attributed.rootDrop explainedKept calm taken
  | rootJoin index => exact attributed.rootJoin reached taken
  | enterPackages => exact attributed.enterPackages explainedKept taken
  | spawn =>
      simp only [Schedule.step] at taken
      split at taken
      · rename_i index stage
        obtain rfl := Option.some.inj taken
        exact attributed.spawnNext ordered distinct stage
      · simp at taken
  | poll index =>
      simp only [Schedule.step] at taken
      split at taken
      · rename_i dep rest waiting
        obtain ⟨phase, polled, next⟩ := Option.map_eq_some_iff.mp taken
        exact attributed.poll waiting polled next.symm
      · simp at taken
  | start index =>
      obtain ⟨waiting, next⟩ := Option.ite_none_right_eq_some.mp taken
      apply attributed.of_phase (by simp [waiting, Phase.Ended]) (Option.some.inj next).symm
      · simp
      · simp
      · simp
      · simp
      · simp
  | finish index result => exact attributed.finish calm taken
  | send index => exact attributed.send taken
  | drop index panics => exact attributed.drop explainedKept calm taken
  | join index => exact attributed.join reached taken
  | leave =>
      obtain ⟨_, next⟩ := Option.ite_none_right_eq_some.mp taken
      obtain rfl := Option.some.inj next
      exact { attributed with
        explained := fun error failed => explainedKept error (attributed.explained error failed) }

theorem reachable {schedule : Schedule} (distinct : (set.packages.map Task.packageName).Nodup)
    (calm : Machine.Reachable (Schedule.step set) (Schedule.Calm set) (.initial set) schedule) :
    Attributed set schedule := by
  induction calm with
  | refl => exact initial set
  | tail event calm permitted taken ih =>
      exact ih.step (Schedule.reachable_of_machine calm) distinct permitted taken

end Attributed

namespace Schedule

/-- What has run to its end before the command of a task: the roots and all it reaches. -/
theorem roots_before_command {set : TaskSet} {schedule : Schedule}
    (reached : Reachable set schedule) {index : Nat} (running : schedule.phase index = .running) :
    ∀ root < set.roots.length, schedule.rootPhase root = .returned (.ok ()) := by
  have contained := Contained.reachable reached
  apply contained.passed
  cases stage : schedule.stage with
  | roots =>
      have unspawned := (Ordered.reachable reached).ahead index (by rw [stage]; trivial)
      simp [running] at unspawned
  | returned result =>
      rcases contained.finished result stage index with unspawned | dropped | ⟨_, returned⟩
      · simp [running] at unspawned
      · simp [running] at dropped
      · simp [running] at returned
  | _ => trivial

theorem edges_carried {set : TaskSet} (distinct : (set.packages.map Task.packageName).Nodup)
    {task : Task} (member : task ∈ set.packages) {dep : Bytes}
    (edge : set.Edge task.packageName dep) : dep ∈ task.depPackageNames := by
  obtain ⟨other, otherMember, same, listed, _⟩ := edge
  obtain rfl := List.inj_on_of_nodup_map distinct otherMember member same
  exact listed

theorem dependencies_before_command {set : TaskSet} {schedule : Schedule}
    (distinct : (set.packages.map Task.packageName).Nodup) (reached : Reachable set schedule)
    {index : Nat} {task : Task} (known : set.packages[index]? = some task)
    (running : schedule.phase index = .running) {other : Nat} {depTask : Task}
    (depKnown : set.packages[other]? = some depTask)
    (path : Relation.TransGen set.Edge task.packageName depTask.packageName) :
    schedule.phase other = .returned (.ok ()) := by
  have ordered := Ordered.reachable reached
  have tasked : Relation.TransGen
      (fun package dep => set.Edge package dep ∧ set.hasTask dep = true)
      task.packageName depTask.packageName := by
    refine Relation.TransGen.mono ?_ _ _ path
    rintro package dep ⟨own, member, isName, listed, hasTask⟩
    exact ⟨⟨own, member, isName, listed, hasTask⟩, hasTask⟩
  have isDone : schedule.Done depTask.packageName := by
    apply ordered.done_along ?_ tasked index task known rfl (by rw [running]; rfl)
    intro own member dep edge
    exact edges_carried distinct member edge
  obtain ⟨position, doneTask, doneKnown, sameName, returned⟩ := ordered.done _ isDone
  obtain rfl := List.inj_on_of_nodup_map distinct (List.mem_of_getElem? doneKnown)
    (List.mem_of_getElem? depKnown) sameName
  have here : position = other := by
    obtain ⟨bound, isTask⟩ := List.getElem?_eq_some_iff.mp doneKnown
    obtain ⟨otherBound, isOther⟩ := List.getElem?_eq_some_iff.mp depKnown
    exact (List.Nodup.getElem_inj_iff (distinct.of_map _)).mp (isTask.trans isOther.symm)
  rw [← here, returned]

theorem allSucceeded_of_not_failed {set : TaskSet} {schedule : Schedule}
    (failed : schedule.SomeFailed set) : ¬ schedule.AllSucceeded set := by
  rintro ⟨roots, packages⟩
  rcases failed with ⟨index, bound, _, notOk⟩ | ⟨index, bound, _, notOk⟩
  · exact notOk (roots index bound)
  · exact notOk (packages index bound)

theorem returned_ok_iff {set : TaskSet} {schedule : Schedule} (reached : Reachable set schedule)
    {result : TaskResult} (returned : schedule.stage = .returned result) :
    result = .ok () ↔ schedule.AllSucceeded set := by
  have contained := Contained.reachable reached
  constructor
  · rintro rfl
    exact contained.succeeded returned
  · intro succeeded
    cases result with
    | ok value => rfl
    | error error =>
        have failed : schedule.firstError ≠ none := by
          rw [contained.reported error returned]
          simp
        exact absurd succeeded (allSucceeded_of_not_failed (contained.culprit failed))

theorem error_explained {set : TaskSet} {schedule : Schedule}
    (distinct : (set.packages.map Task.packageName).Nodup)
    (calm : Machine.Reachable (step set) (Calm set) (initial set) schedule) {error : RunError}
    (returned : schedule.stage = .returned (.error error)) : schedule.Explained set error := by
  have contained := Contained.reachable (reachable_of_machine calm)
  exact (Attributed.reachable distinct calm).explained error (contained.reported error returned)

end Schedule

/-- Of a run of `run_tasks` or `run_tasks_two_phase`: what has succeeded where the command of a
task runs, what the result says, and where the error of a run without panics comes from. -/
theorem failures_contained (tasks : List Task) (abortOnPanic : Bool) (schedule : Schedule)
    (distinct : ((TaskSet.ofTasks tasks abortOnPanic).packages.map Task.packageName).Nodup)
    (reached : Schedule.Reachable (.ofTasks tasks abortOnPanic) schedule) :
    (∀ index, schedule.phase index = .running →
      ∀ root < (TaskSet.ofTasks tasks abortOnPanic).roots.length,
        schedule.rootPhase root = .returned (.ok ())) ∧
    (∀ (index other : Nat) (task depTask : Task),
      (TaskSet.ofTasks tasks abortOnPanic).packages[index]? = some task →
      (TaskSet.ofTasks tasks abortOnPanic).packages[other]? = some depTask →
      Relation.TransGen (TaskSet.ofTasks tasks abortOnPanic).Edge task.packageName
        depTask.packageName →
      schedule.phase index = .running → schedule.phase other = .returned (.ok ())) ∧
    (∀ result, schedule.stage = .returned result →
      (result = .ok () ↔ schedule.AllSucceeded (.ofTasks tasks abortOnPanic))) ∧
    (∀ error, schedule.stage = .returned (.error error) →
      Machine.Reachable (Schedule.step (.ofTasks tasks abortOnPanic))
        (Schedule.Calm (.ofTasks tasks abortOnPanic)) (.initial (.ofTasks tasks abortOnPanic))
        schedule →
      schedule.Explained (.ofTasks tasks abortOnPanic) error) := by
  refine ⟨?_, ?_, ?_, ?_⟩
  · intro index running
    exact Schedule.roots_before_command reached running
  · intro index other task depTask known depKnown path running
    exact Schedule.dependencies_before_command distinct reached known running depKnown path
  · intro result returned
    exact Schedule.returned_ok_iff reached returned
  · intro error returned calm
    exact Schedule.error_explained distinct calm returned

/-! In the chain of three packages `core` fails, `lib` is skipped and joined first. -/

namespace MissingScript

def failedRun : List SchedulerEvent :=
  opened ++ [.start 0, .finish 0 (.error (.taskFailed (utf8 "core") (utf8 "build") 1)), .send 0,
    .poll 1, .send 1, .spawn, .join 1, .poll 2, .send 2, .join 0, .join 2, .leave]

theorem failedRun_calm (schedule : Schedule) :
    ∀ event ∈ failedRun, schedule.Calm (set chain) event := by
  have first : (set chain).packages[0]? = some (task "core" []) := by decide +kernel
  intro event member
  simp only [failedRun, opened, List.cons_append, List.nil_append, List.mem_cons, List.not_mem_nil,
    or_false] at member
  rcases member with rfl | rfl | rfl | rfl | rfl | rfl | rfl | rfl | rfl | rfl | rfl | rfl | rfl |
    rfl | rfl | rfl
  case inr.inr.inr.inr.inr.inl =>
    exact ⟨task "core" [], .exited 1, first, by decide +kernel⟩
  all_goals trivial

end MissingScript

theorem failures_contained_chain :
    ∃ schedule, Schedule.run (MissingScript.set MissingScript.chain) MissingScript.failedRun =
        some schedule ∧
      ¬ schedule.AllSucceeded (MissingScript.set MissingScript.chain) ∧
      schedule.Explained (MissingScript.set MissingScript.chain)
        (.skipped (utf8 "lib") (utf8 "build")) := by
  obtain ⟨schedule, ran, stage⟩ : ∃ schedule,
      Schedule.run (MissingScript.set MissingScript.chain) MissingScript.failedRun =
        some schedule ∧
      schedule.stage = .returned (.error (.skipped (utf8 "lib") (utf8 "build"))) := by
    apply Option.map_eq_some_iff.mp
    decide +kernel
  have calm : Machine.Reachable (Schedule.step (MissingScript.set MissingScript.chain))
      (Schedule.Calm (MissingScript.set MissingScript.chain))
      (.initial (MissingScript.set MissingScript.chain)) schedule :=
    Machine.run_reachable (fun state event => MissingScript.failedRun_calm state event) ran
  obtain ⟨_, _, succeeded, explained⟩ :=
    failures_contained (retainScope (fun _ => true) MissingScript.chain) true schedule
      (by decide +kernel) (Schedule.run_reachable ran)
  refine ⟨schedule, ran, ?_, explained _ stage calm⟩
  intro all
  simpa using (succeeded _ stage).mpr all

end Rage
