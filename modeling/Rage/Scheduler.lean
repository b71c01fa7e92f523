import Mathlib.Logic.Relation
import Rage.TaskList

/-!
The scheduler of `run_tasks` and `run_tasks_two_phase`.  Root tasks are a barrier; package tasks
are all spawned and wait on the channels of their dependencies.  An event is one step of one
future or of the function itself.
-/

namespace Rage

inductive DepState
  | pending
  | done
  | failed
  deriving DecidableEq

/-- A watch channel: the last value sent, and whether its sender is still there. -/
structure Channel where
  state : DepState
  sender : Bool
  deriving DecidableEq

inductive RunError
  | taskFailed (package script : Bytes) (code : Int)
  | killed (package script : Bytes)
  | spawn (package script : Bytes)
  | skipped (package script : Bytes)
  deriving DecidableEq

abbrev TaskResult := Except RunError Unit

/-! Where the future of a task is.  It waits on the receivers that are left, decides to skip or to
run, and has a result before it sends and returns; an aborted or panicked future is dropped. -/

inductive Phase
  | unspawned
  | waiting (receivers : List Bytes)
  | skipping
  | running
  | finished (result : TaskResult)
  | returned (result : TaskResult)
  | dropped
  deriving DecidableEq

def Phase.Ended (phase : Phase) : Prop := phase = .dropped ∨ ∃ result, phase = .returned result

inductive Stage
  | roots
  | spawning (next : Nat)
  | joining
  | returned (result : TaskResult)
  | panicked
  deriving DecidableEq

def Stage.ahead : Stage → Nat → Prop
  | .roots, _ => True
  | .spawning next, index => next ≤ index
  | _, _ => False

/-- The two functions differ in one point: `run_tasks_two_phase` also aborts on a panic. -/
structure TaskSet where
  roots : List Task
  packages : List Task
  abortOnPanic : Bool

def TaskSet.ofTasks (tasks : List Task) (abortOnPanic : Bool) : TaskSet where
  roots := (tasks.filter (·.isRoot)).insertionSort fun first second =>
    first.packageName ≤ second.packageName
  packages := tasks.filter fun task => !task.isRoot
  abortOnPanic := abortOnPanic

def TaskSet.hasTask (set : TaskSet) (name : Bytes) : Bool :=
  set.packages.any fun task => task.packageName == name

structure Schedule where
  stage : Stage
  rootPhase : Nat → Phase
  rootJoined : Nat → Bool
  phase : Nat → Phase
  joined : Nat → Bool
  channels : Bytes → Option Channel
  firstError : Option RunError
  aborting : Bool

inductive SchedulerEvent
  | rootReturn (index : Nat) (result : TaskResult)
  | rootDrop (index : Nat) (panics : Bool)
  | rootJoin (index : Nat)
  | enterPackages
  | spawn
  | poll (index : Nat)
  | start (index : Nat)
  | finish (index : Nat) (result : TaskResult)
  | send (index : Nat)
  | drop (index : Nat) (panics : Bool)
  | join (index : Nat)
  | leave

namespace Schedule

/-- All root tasks are spawned before the first one is joined. -/
def initial (set : TaskSet) : Schedule where
  stage := .roots
  rootPhase := fun index => if index < set.roots.length then .running else .unspawned
  rootJoined := fun _ => false
  phase := fun _ => .unspawned
  joined := fun _ => false
  channels := fun _ => none
  firstError := none
  aborting := false

/-- What the join loops do with a result; `none` is a `JoinError`. -/
def collect (schedule : Schedule) (set : TaskSet) (outcome : Option TaskResult) : Schedule :=
  match outcome with
  | some (.ok ()) => schedule
  | some (.error error) =>
      { schedule with firstError := schedule.firstError.or (some error), aborting := true }
  | none =>
      { schedule with
        firstError := schedule.firstError.or (some (.killed (utf8 "unknown") (utf8 "unknown")))
        aborting := schedule.aborting || set.abortOnPanic }

def joinOutcome : Phase → Option (Option TaskResult)
  | .returned result => some (some result)
  | .dropped => some none
  | _ => none

def result (schedule : Schedule) : TaskResult :=
  match schedule.firstError with
  | some error => .error error
  | none => .ok ()

def openChannels (set : TaskSet) (name : Bytes) : Option Channel :=
  if set.hasTask name then some ⟨.pending, true⟩ else none

def setPhase (schedule : Schedule) (index : Nat) (phase : Phase) : Schedule :=
  { schedule with phase := Function.update schedule.phase index phase }

def sendState (schedule : Schedule) (name : Bytes) (state : DepState) : Schedule :=
  { schedule with channels := Function.update schedule.channels name (some ⟨state, false⟩) }

/-- The sender goes with the future; the last value stays. -/
def dropSender (schedule : Schedule) (name : Bytes) : Schedule :=
  { schedule with
    channels := Function.update schedule.channels name
      ((schedule.channels name).map fun channel => { channel with sender := false }) }

/-- One turn of `await_deps` on its first receiver: `none` while it has to wait. -/
def pollReceiver (schedule : Schedule) (dep : Bytes) (rest : List Bytes) : Option Phase :=
  match schedule.channels dep with
  | some ⟨.done, _⟩ => some (.waiting rest)
  | some ⟨.failed, _⟩ => some .skipping
  | some ⟨.pending, false⟩ => some .skipping
  | _ => none

/-- The package tasks are spawned in order; a second task of one name finds no sender. -/
def spawnNext (schedule : Schedule) (set : TaskSet) (next : Nat) : Schedule :=
  match set.packages[next]? with
  | none => { schedule with stage := .joining }
  | some task =>
      if (set.packages.take next).any fun other => other.packageName == task.packageName then
        { schedule with stage := .panicked, aborting := true }
      else
        { schedule.setPhase next (.waiting (task.depPackageNames.filter set.hasTask)) with
          stage := .spawning (next + 1) }

/-- A future can be dropped where it awaits: by an abort, or by a panic while it runs. -/
def droppable (phase : Phase) (aborting panics : Bool) : Bool :=
  match phase with
  | .waiting _ => aborting && !panics
  | .running => aborting || panics
  | _ => false

def step (set : TaskSet) (schedule : Schedule) : SchedulerEvent → Option Schedule
  | .rootReturn index result =>
      if schedule.rootPhase index = .running then
        some { schedule with
          rootPhase := Function.update schedule.rootPhase index (.returned result) }
      else none
  | .rootDrop index panics =>
      if schedule.rootPhase index = .running ∧ (schedule.aborting || panics) = true then
        some { schedule with rootPhase := Function.update schedule.rootPhase index .dropped }
      else none
  | .rootJoin index =>
      if schedule.stage = .roots ∧ schedule.rootJoined index = false then
        (joinOutcome (schedule.rootPhase index)).map fun outcome =>
          { schedule.collect set outcome with
            rootJoined := Function.update schedule.rootJoined index true }
      else none
  | .enterPackages =>
      if schedule.stage = .roots ∧ (List.range set.roots.length).all schedule.rootJoined = true then
        match schedule.firstError with
        | some error => some { schedule with stage := .returned (.error error) }
        | none =>
            if set.packages.isEmpty then some { schedule with stage := .returned (.ok ()) }
            else some { schedule with
              stage := .spawning 0, channels := openChannels set, aborting := false }
      else none
  | .spawn =>
      match schedule.stage with
      | .spawning next => some (schedule.spawnNext set next)
      | _ => none
  | .poll index =>
      match schedule.phase index with
      | .waiting (dep :: rest) =>
          (schedule.pollReceiver dep rest).map fun phase => schedule.setPhase index phase
      | _ => none
  | .start index =>
      if schedule.phase index = .waiting [] then some (schedule.setPhase index .running) else none
  | .finish index result =>
      if schedule.phase index = .running then some (schedule.setPhase index (.finished result))
      else none
  | .send index =>
      match set.packages[index]?, schedule.phase index with
      | some task, .finished result =>
          some ((schedule.setPhase index (.returned result)).sendState task.packageName
            (match result with | .ok () => .done | .error _ => .failed))
      | some task, .skipping =>
          some ((schedule.setPhase index
            (.returned (.error (.skipped task.packageName task.scriptName)))).sendState
              task.packageName .failed)
      | _, _ => none
  | .drop index panics =>
      match set.packages[index]? with
      | some task =>
          if droppable (schedule.phase index) schedule.aborting panics then
            some ((schedule.setPhase index .dropped).dropSender task.packageName)
          else none
      | none => none
  | .join index =>
      if schedule.stage = .joining ∧ schedule.joined index = false then
        (joinOutcome (schedule.phase index)).map fun outcome =>
          { schedule.collect set outcome with
            joined := Function.update schedule.joined index true }
      else none
  | .leave =>
      if schedule.stage = .joining ∧ (List.range set.packages.length).all schedule.joined = true then
        some { schedule with stage := .returned schedule.result }
      else none

inductive Reachable (set : TaskSet) : Schedule → Prop
  | initial : Reachable set (initial set)
  | step {schedule next : Schedule} (event : SchedulerEvent) (reached : Reachable set schedule)
      (taken : schedule.step set event = some next) : Reachable set next

def run (set : TaskSet) (events : List SchedulerEvent) : Option Schedule :=
  events.foldlM (step set) (initial set)

theorem run_reachable {set : TaskSet} {events : List SchedulerEvent} {schedule : Schedule}
    (ran : run set events = some schedule) : Reachable set schedule := by
  have continues (from_ : Schedule) (reached : Reachable set from_) (later : List SchedulerEvent)
      (ran : later.foldlM (step set) from_ = some schedule) : Reachable set schedule := by
    induction later generalizing from_ with
    | nil =>
        obtain rfl : from_ = schedule := by simpa using ran
        exact reached
    | cons event rest ih =>
        rw [List.foldlM_cons] at ran
        obtain ⟨next, taken, later⟩ := Option.bind_eq_some_iff.mp ran
        exact ih next (.step event reached taken) later
  exact continues _ .initial events ran

/-! What one step can do to the futures of the package tasks and to their channels. -/

inductive Effect (set : TaskSet) (before after : Schedule) : Prop
  | control (ahead : ∀ index, after.stage.ahead index → before.stage.ahead index)
      (phase : after.phase = before.phase) (channels : after.channels = before.channels)
  | opened (wasRoots : before.stage = .roots) (phase : after.phase = before.phase)
      (channels : after.channels = openChannels set)
  | spawned (index : Nat) (task : Task) (known : set.packages[index]? = some task)
      (wasAhead : before.stage.ahead index)
      (ahead : ∀ other, after.stage.ahead other → before.stage.ahead other ∧ other ≠ index)
      (fresh : ∀ other ∈ set.packages.take index, other.packageName ≠ task.packageName)
      (phase : after.phase = Function.update before.phase index
        (.waiting (task.depPackageNames.filter set.hasTask)))
      (channels : after.channels = before.channels)
  | received (index : Nat) (dep : Bytes) (rest : List Bytes) (sender : Bool)
      (stage : after.stage = before.stage)
      (waited : before.phase index = .waiting (dep :: rest))
      (done : before.channels dep = some ⟨.done, sender⟩)
      (phase : after.phase = Function.update before.phase index (.waiting rest))
      (channels : after.channels = before.channels)
  | skipped (index : Nat) (dep : Bytes) (rest : List Bytes) (stage : after.stage = before.stage)
      (waited : before.phase index = .waiting (dep :: rest))
      (phase : after.phase = Function.update before.phase index .skipping)
      (channels : after.channels = before.channels)
  | started (index : Nat) (stage : after.stage = before.stage)
      (waited : before.phase index = .waiting [])
      (phase : after.phase = Function.update before.phase index .running)
      (channels : after.channels = before.channels)
  | finished (index : Nat) (result : TaskResult) (stage : after.stage = before.stage)
      (ran : before.phase index = .running)
      (phase : after.phase = Function.update before.phase index (.finished result))
      (channels : after.channels = before.channels)
  | sent (index : Nat) (task : Task) (result : TaskResult) (state : DepState)
      (known : set.packages[index]? = some task) (stage : after.stage = before.stage)
      (was : before.phase index = .finished result ∨
        before.phase index = .skipping ∧ result ≠ .ok ())
      (isDone : state = .done ↔ result = .ok ())
      (phase : after.phase = Function.update before.phase index (.returned result))
      (channels : after.channels =
        Function.update before.channels task.packageName (some ⟨state, false⟩))
  | dropped (index : Nat) (task : Task) (known : set.packages[index]? = some task)
      (stage : after.stage = before.stage)
      (was : before.phase index = .running ∨ ∃ rest, before.phase index = .waiting rest)
      (phase : after.phase = Function.update before.phase index .dropped)
      (channels : after.channels = Function.update before.channels task.packageName
        ((before.channels task.packageName).map fun channel => { channel with sender := false }))

theorem collect_eq (schedule : Schedule) (set : TaskSet) (outcome : Option TaskResult) :
    schedule.collect set outcome =
      { schedule with
        firstError := (schedule.collect set outcome).firstError
        aborting := (schedule.collect set outcome).aborting } := by
  rcases outcome with _ | ⟨error | ⟨⟩⟩
  · rfl
  · rfl
  · rfl

theorem spawnNext_effect (set : TaskSet) {schedule : Schedule} {next : Nat}
    (stage : schedule.stage = .spawning next) :
    Effect set schedule (schedule.spawnNext set next) := by
  unfold spawnNext
  cases known : set.packages[next]? with
  | none => exact .control (by simp [Stage.ahead]) rfl rfl
  | some task =>
      simp only
      split
      · exact .control (by simp [Stage.ahead]) rfl rfl
      · rename_i fresh
        refine .spawned next task known (by simp [stage, Stage.ahead]) ?_ ?_ rfl rfl
        · intro other isAhead
          simp only [Stage.ahead] at isAhead
          refine ⟨?_, by omega⟩
          rw [stage, Stage.ahead]
          omega
        intro other earlier same
        exact fresh (List.any_eq_true.mpr ⟨other, earlier, by simpa using same⟩)

theorem pollReceiver_effect {set : TaskSet} {schedule : Schedule} {index : Nat} {dep : Bytes}
    {rest : List Bytes} {phase : Phase} (waited : schedule.phase index = .waiting (dep :: rest))
    (polled : schedule.pollReceiver dep rest = some phase) :
    Effect set schedule (schedule.setPhase index phase) := by
  unfold pollReceiver at polled
  split at polled
  · rename_i sender isDone
    obtain rfl := Option.some.inj polled
    exact .received index dep rest sender rfl waited isDone rfl rfl
  · obtain rfl := Option.some.inj polled
    exact .skipped index dep rest rfl waited rfl rfl
  · obtain rfl := Option.some.inj polled
    exact .skipped index dep rest rfl waited rfl rfl
  · simp at polled

theorem step_effect {set : TaskSet} {schedule next : Schedule} {event : SchedulerEvent}
    (taken : schedule.step set event = some next) : Effect set schedule next := by
  cases event with
  | rootReturn index result =>
      obtain ⟨_, same⟩ := Option.ite_none_right_eq_some.mp taken
      obtain rfl := Option.some.inj same
      exact .control (fun _ => id) rfl rfl
  | rootDrop index panics =>
      obtain ⟨_, same⟩ := Option.ite_none_right_eq_some.mp taken
      obtain rfl := Option.some.inj same
      exact .control (fun _ => id) rfl rfl
  | rootJoin index =>
      obtain ⟨_, collected⟩ := Option.ite_none_right_eq_some.mp taken
      obtain ⟨outcome, _, rfl⟩ := Option.map_eq_some_iff.mp collected
      rw [collect_eq]
      exact .control (fun _ => id) rfl rfl
  | enterPackages =>
      obtain ⟨⟨isRoots, _⟩, entered⟩ := Option.ite_none_right_eq_some.mp taken
      split at entered
      · obtain rfl := Option.some.inj entered
        exact .control (by simp [Stage.ahead]) rfl rfl
      · split at entered
        · obtain rfl := Option.some.inj entered
          exact .control (by simp [Stage.ahead]) rfl rfl
        · obtain rfl := Option.some.inj entered
          exact .opened isRoots rfl rfl
  | spawn =>
      simp only [step] at taken
      split at taken
      · obtain rfl := Option.some.inj taken
        exact spawnNext_effect set ‹_›
      · simp at taken
  | poll index =>
      simp only [step] at taken
      split at taken
      · rename_i dep rest waited
        obtain ⟨phase, polled, rfl⟩ := Option.map_eq_some_iff.mp taken
        exact pollReceiver_effect waited polled
      · simp at taken
  | start index =>
      obtain ⟨waited, same⟩ := Option.ite_none_right_eq_some.mp taken
      obtain rfl := Option.some.inj same
      exact .started index rfl waited rfl rfl
  | finish index result =>
      obtain ⟨ran, same⟩ := Option.ite_none_right_eq_some.mp taken
      obtain rfl := Option.some.inj same
      exact .finished index result rfl ran rfl rfl
  | send index =>
      simp only [step] at taken
      split at taken
      · rename_i task result known finished
        obtain rfl := Option.some.inj taken
        refine .sent index task result _ known rfl (Or.inl finished) ?_ rfl rfl
        cases result with
        | ok value => simp
        | error error => simp
      · rename_i task known skipping
        obtain rfl := Option.some.inj taken
        exact .sent index task _ .failed known rfl (Or.inr ⟨skipping, by simp⟩) (by simp) rfl rfl
      · simp at taken
  | drop index panics =>
      simp only [step] at taken
      split at taken
      · rename_i task known
        obtain ⟨droppable, same⟩ := Option.ite_none_right_eq_some.mp taken
        obtain rfl := Option.some.inj same
        refine .dropped index task known rfl ?_ rfl rfl
        cases was : schedule.phase index with
        | running => exact Or.inl rfl
        | waiting rest => exact Or.inr ⟨rest, rfl⟩
        | _ => simp [Schedule.droppable, was] at droppable
      · simp at taken
  | join index =>
      obtain ⟨_, collected⟩ := Option.ite_none_right_eq_some.mp taken
      obtain ⟨outcome, _, rfl⟩ := Option.map_eq_some_iff.mp collected
      rw [collect_eq]
      exact .control (fun _ => id) rfl rfl
  | leave =>
      obtain ⟨_, same⟩ := Option.ite_none_right_eq_some.mp taken
      obtain rfl := Option.some.inj same
      exact .control (by simp [Stage.ahead]) rfl rfl

/-! What a step does outside the channels: it moves one future on, or it is one of the function
itself. -/

structure SameControl (before after : Schedule) : Prop where
  stage : after.stage = before.stage
  rootJoined : after.rootJoined = before.rootJoined
  joined : after.joined = before.joined
  firstError : after.firstError = before.firstError
  aborting : after.aborting = before.aborting

inductive Move (set : TaskSet) (before after : Schedule) : Prop
  | root (index : Nat) (phase : Phase) (was : before.rootPhase index = .running)
      (rootPhase : after.rootPhase = Function.update before.rootPhase index phase)
      (phases : after.phase = before.phase) (same : SameControl before after)
      (ended : phase.Ended)
  | package (index : Nat) (phase : Phase) (was : ¬ (before.phase index).Ended)
      (spawned : before.phase index ≠ .unspawned)
      (phases : after.phase = Function.update before.phase index phase)
      (rootPhase : after.rootPhase = before.rootPhase) (same : SameControl before after)
      (moves : phase ≠ .unspawned)
  | rootCollected (index : Nat) (outcome : Option TaskResult) (stage : before.stage = .roots)
      (ended : joinOutcome (before.rootPhase index) = some outcome)
      (next : after = { before with
        firstError := (before.collect set outcome).firstError
        aborting := (before.collect set outcome).aborting
        rootJoined := Function.update before.rootJoined index true })
  | failedRoots (error : RunError) (stage : before.stage = .roots)
      (joined : ∀ index < set.roots.length, before.rootJoined index = true)
      (failed : before.firstError = some error)
      (next : after = { before with stage := .returned (.error error) })
  | noPackages (stage : before.stage = .roots)
      (joined : ∀ index < set.roots.length, before.rootJoined index = true)
      (clean : before.firstError = none) (empty : set.packages = [])
      (next : after = { before with stage := .returned (.ok ()) })
  | entered (stage : before.stage = .roots)
      (joined : ∀ index < set.roots.length, before.rootJoined index = true)
      (clean : before.firstError = none)
      (next : after = { before with
        stage := .spawning 0, channels := openChannels set, aborting := false })
  | allSpawned (index : Nat) (stage : before.stage = .spawning index)
      (known : set.packages[index]? = none) (next : after = { before with stage := .joining })
  | spawnPanicked (index : Nat) (task : Task) (stage : before.stage = .spawning index)
      (known : set.packages[index]? = some task)
      (repeated : ∃ other ∈ set.packages.take index, other.packageName = task.packageName)
      (next : after = { before with stage := .panicked, aborting := true })
  | spawned (index : Nat) (task : Task) (stage : before.stage = .spawning index)
      (known : set.packages[index]? = some task)
      (next : after = { before with
        phase := Function.update before.phase index
          (.waiting (task.depPackageNames.filter set.hasTask))
        stage := .spawning (index + 1) })
  | collected (index : Nat) (outcome : Option TaskResult) (stage : before.stage = .joining)
      (ended : joinOutcome (before.phase index) = some outcome)
      (next : after = { before with
        firstError := (before.collect set outcome).firstError
        aborting := (before.collect set outcome).aborting
        joined := Function.update before.joined index true })
  | left (stage : before.stage = .joining)
      (joined : ∀ index < set.packages.length, before.joined index = true)
      (next : after = { before with stage := .returned before.result })

theorem pollReceiver_moves {schedule : Schedule} {dep : Bytes} {rest : List Bytes} {phase : Phase}
    (polled : schedule.pollReceiver dep rest = some phase) : phase ≠ .unspawned := by
  rintro rfl
  unfold pollReceiver at polled
  split at polled
  all_goals simp at polled

theorem step_move {set : TaskSet} {schedule next : Schedule} {event : SchedulerEvent}
    (taken : schedule.step set event = some next) : Move set schedule next := by
  have same {after : Schedule} (stage : after.stage = schedule.stage)
      (rootJoined : after.rootJoined = schedule.rootJoined)
      (joined : after.joined = schedule.joined)
      (firstError : after.firstError = schedule.firstError)
      (aborting : after.aborting = schedule.aborting) : SameControl schedule after :=
    ⟨stage, rootJoined, joined, firstError, aborting⟩
  cases event with
  | rootReturn index result =>
      obtain ⟨was, moved⟩ := Option.ite_none_right_eq_some.mp taken
      obtain rfl := Option.some.inj moved
      exact .root index _ was rfl rfl (same rfl rfl rfl rfl rfl) (Or.inr ⟨result, rfl⟩)
  | rootDrop index panics =>
      obtain ⟨⟨was, _⟩, moved⟩ := Option.ite_none_right_eq_some.mp taken
      obtain rfl := Option.some.inj moved
      exact .root index _ was rfl rfl (same rfl rfl rfl rfl rfl) (Or.inl rfl)
  | rootJoin index =>
      obtain ⟨⟨stage, _⟩, collected⟩ := Option.ite_none_right_eq_some.mp taken
      obtain ⟨outcome, ended, rfl⟩ := Option.map_eq_some_iff.mp collected
      refine .rootCollected index outcome stage ended ?_
      rw [collect_eq]
  | enterPackages =>
      obtain ⟨⟨stage, all⟩, entered⟩ := Option.ite_none_right_eq_some.mp taken
      have joined : ∀ index < set.roots.length, schedule.rootJoined index = true := by
        intro index bound
        exact List.all_eq_true.mp all index (List.mem_range.mpr bound)
      split at entered
      · rename_i error failed
        obtain rfl := Option.some.inj entered
        exact .failedRoots error stage joined failed rfl
      · rename_i clean
        split at entered
        · rename_i empty
          obtain rfl := Option.some.inj entered
          exact .noPackages stage joined clean (List.isEmpty_iff.mp empty) rfl
        · obtain rfl := Option.some.inj entered
          exact .entered stage joined clean rfl
  | spawn =>
      simp only [step] at taken
      split at taken
      · rename_i index stage
        obtain rfl := Option.some.inj taken
        unfold spawnNext
        cases known : set.packages[index]? with
        | none => exact .allSpawned index stage known rfl
        | some task =>
            simp only
            split
            · rename_i repeated
              obtain ⟨other, earlier, same⟩ := List.any_eq_true.mp repeated
              exact .spawnPanicked index task stage known ⟨other, earlier, by simpa using same⟩ rfl
            · exact .spawned index task stage known rfl
      · simp at taken
  | poll index =>
      simp only [step] at taken
      split at taken
      · rename_i dep rest waiting
        obtain ⟨phase, polled, rfl⟩ := Option.map_eq_some_iff.mp taken
        refine .package index phase ?_ ?_ rfl rfl (same rfl rfl rfl rfl rfl)
          (pollReceiver_moves polled)
        · simp [waiting, Phase.Ended]
        · simp [waiting]
      · simp at taken
  | start index =>
      obtain ⟨waiting, moved⟩ := Option.ite_none_right_eq_some.mp taken
      obtain rfl := Option.some.inj moved
      refine .package index _ ?_ ?_ rfl rfl (same rfl rfl rfl rfl rfl) (by simp)
      · simp [waiting, Phase.Ended]
      · simp [waiting]
  | finish index result =>
      obtain ⟨running, moved⟩ := Option.ite_none_right_eq_some.mp taken
      obtain rfl := Option.some.inj moved
      refine .package index _ ?_ ?_ rfl rfl (same rfl rfl rfl rfl rfl) (by simp)
      · simp [running, Phase.Ended]
      · simp [running]
  | send index =>
      simp only [step] at taken
      split at taken
      · rename_i finished
        obtain rfl := Option.some.inj taken
        refine .package index _ ?_ ?_ rfl rfl (same rfl rfl rfl rfl rfl) (by simp)
        · simp [finished, Phase.Ended]
        · simp [finished]
      · rename_i skipping
        obtain rfl := Option.some.inj taken
        refine .package index _ ?_ ?_ rfl rfl (same rfl rfl rfl rfl rfl) (by simp)
        · simp [skipping, Phase.Ended]
        · simp [skipping]
      · simp at taken
  | drop index panics =>
      simp only [step] at taken
      split at taken
      · obtain ⟨droppable, moved⟩ := Option.ite_none_right_eq_some.mp taken
        obtain rfl := Option.some.inj moved
        refine .package index .dropped ?_ ?_ rfl rfl (same rfl rfl rfl rfl rfl) (by simp)
        · intro ended
          rcases ended with dropped | ⟨result, returned⟩
          · simp [Schedule.droppable, dropped] at droppable
          · simp [Schedule.droppable, returned] at droppable
        · intro unspawned
          simp [Schedule.droppable, unspawned] at droppable
      · simp at taken
  | join index =>
      obtain ⟨⟨stage, _⟩, collected⟩ := Option.ite_none_right_eq_some.mp taken
      obtain ⟨outcome, ended, rfl⟩ := Option.map_eq_some_iff.mp collected
      refine .collected index outcome stage ended ?_
      rw [collect_eq]
  | leave =>
      obtain ⟨⟨stage, all⟩, moved⟩ := Option.ite_none_right_eq_some.mp taken
      obtain rfl := Option.some.inj moved
      refine .left stage ?_ rfl
      intro index bound
      exact List.all_eq_true.mp all index (List.mem_range.mpr bound)

/-- How a future comes to run, and to a result. -/
structure Came (set : TaskSet) (event : SchedulerEvent) (index : Nat) (was now : Phase) : Prop where
  running : now = .running → was = .running ∨ event = .start index
  finished : ∀ result, now = .finished result →
    was = .finished result ∨ event = .finish index result ∧ was = .running
  returned : ∀ result, now = .returned result → was = .returned result ∨ was = .finished result ∨
    ∃ task, set.packages[index]? = some task ∧
      result = .error (.skipped task.packageName task.scriptName)

theorem Came.stayed {set : TaskSet} {event : SchedulerEvent} {index : Nat} {was now : Phase}
    (same : now = was) : Came set event index was now := by
  subst same
  exact ⟨Or.inl, fun _ => Or.inl, fun _ => Or.inl⟩

theorem Came.succeeded {set : TaskSet} {event : SchedulerEvent} {index : Nat} {was now : Phase}
    (came : Came set event index was now) (returned : now = .returned (.ok ())) :
    was = .returned (.ok ()) ∨ was = .finished (.ok ()) := by
  rcases came.returned _ returned with was | was | ⟨task, -, skipped⟩
  · exact Or.inl was
  · exact Or.inr was
  · simp at skipped

theorem came_setPhase {set : TaskSet} {event : SchedulerEvent} {schedule : Schedule}
    {index moved : Nat} {phase : Phase} (came : Came set event moved (schedule.phase moved) phase) :
    Came set event index (schedule.phase index) ((schedule.setPhase moved phase).phase index) := by
  by_cases here : index = moved
  · subst here
    simpa only [setPhase, Function.update_self] using came
  · exact .stayed (Function.update_of_ne here _ _)

theorem came_step {set : TaskSet} {before after : Schedule} {event : SchedulerEvent}
    (taken : before.step set event = some after) (index : Nat) :
    Came set event index (before.phase index) (after.phase index) := by
  cases event with
  | start moved =>
      obtain ⟨-, isNext⟩ := Option.ite_none_right_eq_some.mp taken
      obtain rfl := Option.some.inj isNext
      exact came_setPhase ⟨fun _ => Or.inr rfl, by simp, by simp⟩
  | finish moved result =>
      obtain ⟨running, isNext⟩ := Option.ite_none_right_eq_some.mp taken
      obtain rfl := Option.some.inj isNext
      refine came_setPhase ⟨by simp, ?_, by simp⟩
      rintro _ ⟨⟩
      exact Or.inr ⟨rfl, running⟩
  | send moved =>
      simp only [step] at taken
      split at taken
      · rename_i task result known finished
        obtain rfl := Option.some.inj taken
        refine came_setPhase ⟨by simp, by simp, ?_⟩
        rintro _ ⟨⟩
        exact Or.inr (Or.inl finished)
      · rename_i task known skipping
        obtain rfl := Option.some.inj taken
        refine came_setPhase ⟨by simp, by simp, ?_⟩
        rintro _ ⟨⟩
        exact Or.inr (Or.inr ⟨task, known, rfl⟩)
      · simp at taken
  | poll moved =>
      simp only [step] at taken
      split at taken
      · obtain ⟨phase, polled, rfl⟩ := Option.map_eq_some_iff.mp taken
        have waits : (∃ rest, phase = .waiting rest) ∨ phase = .skipping := by
          unfold pollReceiver at polled
          split at polled
          · exact Or.inl ⟨_, (Option.some.inj polled).symm⟩
          · exact Or.inr (Option.some.inj polled).symm
          · exact Or.inr (Option.some.inj polled).symm
          · simp at polled
        apply came_setPhase
        rcases waits with ⟨rest, rfl⟩ | rfl
        · exact ⟨by simp, by simp, by simp⟩
        · exact ⟨by simp, by simp, by simp⟩
      · simp at taken
  | spawn =>
      simp only [step] at taken
      split at taken
      · rename_i moved stage
        obtain rfl := Option.some.inj taken
        unfold spawnNext
        split
        · exact .stayed rfl
        · split
          · exact .stayed rfl
          · exact came_setPhase ⟨by simp, by simp, by simp⟩
      · simp at taken
  | drop moved panics =>
      simp only [step] at taken
      split at taken
      · obtain ⟨-, isNext⟩ := Option.ite_none_right_eq_some.mp taken
        obtain rfl := Option.some.inj isNext
        exact came_setPhase ⟨by simp, by simp, by simp⟩
      · simp at taken
  | rootReturn moved result =>
      obtain ⟨-, isNext⟩ := Option.ite_none_right_eq_some.mp taken
      obtain rfl := Option.some.inj isNext
      exact .stayed rfl
  | rootDrop moved panics =>
      obtain ⟨-, isNext⟩ := Option.ite_none_right_eq_some.mp taken
      obtain rfl := Option.some.inj isNext
      exact .stayed rfl
  | rootJoin moved =>
      obtain ⟨-, collected⟩ := Option.ite_none_right_eq_some.mp taken
      obtain ⟨outcome, -, rfl⟩ := Option.map_eq_some_iff.mp collected
      rw [collect_eq]
      exact .stayed rfl
  | enterPackages =>
      obtain ⟨-, entered⟩ := Option.ite_none_right_eq_some.mp taken
      split at entered
      · obtain rfl := Option.some.inj entered
        exact .stayed rfl
      · split at entered
        · obtain rfl := Option.some.inj entered
          exact .stayed rfl
        · obtain rfl := Option.some.inj entered
          exact .stayed rfl
  | join moved =>
      obtain ⟨-, collected⟩ := Option.ite_none_right_eq_some.mp taken
      obtain ⟨outcome, -, rfl⟩ := Option.map_eq_some_iff.mp collected
      rw [collect_eq]
      exact .stayed rfl
  | leave =>
      obtain ⟨-, isNext⟩ := Option.ite_none_right_eq_some.mp taken
      obtain rfl := Option.some.inj isNext
      exact .stayed rfl

end Schedule

end Rage
