import Mathlib.Data.List.Induction
import Rage.FirstError
import Rage.IncrementalBuild
import Rage.Workers

/-!
The disk under the parallel scheduler.  Commands run side by side, read the disk when they like and
write it piece by piece, each in its own package.  What a build leaves behind does not depend on how
they take turns.
-/

namespace Rage

/-- `opened` is the disk that the root tasks have left, `seen` the disk as a command has last read
it. -/
structure BuildRun where
  schedule : Schedule
  opened : FileSystem
  fs : FileSystem
  seen : Nat → FileSystem

inductive BuildEvent
  | schedule (event : SchedulerEvent)
  | install (fs : FileSystem)
  | read (index : Nat)
  | write (index : Nat) (fs : FileSystem)

namespace BuildRun

def initial (set : TaskSet) (fs : FileSystem) : BuildRun := ⟨.initial set, fs, fs, fun _ => fs⟩

/-- A command has read the disk when its task starts, and reads and writes it until it ends. -/
def step (set : TaskSet) (run : BuildRun) : BuildEvent → Option BuildRun
  | .schedule event =>
      (run.schedule.step set event).map fun next =>
        match event with
        | .start index =>
            { run with schedule := next, seen := Function.update run.seen index run.fs }
        | _ => { run with schedule := next }
  | .install fs =>
      if run.schedule.stage = .roots then some { run with opened := fs, fs := fs } else none
  | .read index =>
      if run.schedule.phase index = .running then
        some { run with seen := Function.update run.seen index run.fs }
      else none
  | .write index fs =>
      if run.schedule.phase index = .running then some { run with fs := fs } else none

end BuildRun

namespace Commands

variable (crates : Crates) (commands : Commands) (tasks : List Task)

/-- A write by the command of a task: no input of a task changes, and no output but its own. -/
structure Own (task : Task) (before after : FileSystem) : Prop where
  inputs : ∀ other ∈ tasks, matchedFiles crates after other.cwd other.declaredInputGlobs =
    matchedFiles crates before other.cwd other.declaredInputGlobs
  outputs : ∀ other ∈ tasks, other.packageName ≠ task.packageName →
    commands.outputs after other = commands.outputs before other
  packages : ∀ dep, dep ≠ task.packageName →
    after.view (commands.package dep) = before.view (commands.package dep)

/-- The outputs of a package that others read are among those of its task. -/
def Covered : Prop :=
  ∀ task ∈ tasks, ∀ location, commands.package task.packageName location = true →
    commands.writes task.command task.cwd location = true

/-- What is given to the tasks: their inputs, and the packages that no task builds. -/
structure SameSources (first second : FileSystem) : Prop where
  inputs : ∀ task ∈ tasks, matchedFiles crates first task.cwd task.declaredInputGlobs =
    matchedFiles crates second task.cwd task.declaredInputGlobs
  packages : ∀ dep, dep ∉ tasks.map Task.packageName →
    first.view (commands.package dep) = second.view (commands.package dep)

variable {crates commands tasks}

theorem SameSources.refl (fs : FileSystem) : commands.SameSources crates tasks fs fs where
  inputs := fun _ _ => rfl
  packages := fun _ _ => rfl

theorem SameSources.symm {first second : FileSystem}
    (same : commands.SameSources crates tasks first second) :
    commands.SameSources crates tasks second first where
  inputs := fun task member => (same.inputs task member).symm
  packages := fun dep isGiven => (same.packages dep isGiven).symm

theorem SameSources.trans {first second third : FileSystem}
    (same : commands.SameSources crates tasks first second)
    (later : commands.SameSources crates tasks second third) :
    commands.SameSources crates tasks first third where
  inputs := fun task member => (same.inputs task member).trans (later.inputs task member)
  packages := fun dep isGiven => (same.packages dep isGiven).trans (later.packages dep isGiven)

theorem Own.sources {task : Task} {before after : FileSystem} (member : task ∈ tasks)
    (own : commands.Own crates tasks task before after) :
    commands.SameSources crates tasks before after where
  inputs := fun other isTask => (own.inputs other isTask).symm
  packages := by
    intro dep isGiven
    refine (own.packages dep ?_).symm
    rintro rfl
    exact isGiven (List.mem_map_of_mem member)

/-- A write by another command leaves alone what a command makes of the disk. -/
theorem Own.clean {task other : Task} {before after : FileSystem} (member : task ∈ tasks)
    (own : commands.Own crates tasks other before after)
    (apart : other.packageName ∉ task.depPackageNames) :
    commands.clean crates after task = commands.clean crates before task := by
  have deps : commands.depOutputs after task = commands.depOutputs before task := by
    apply List.map_congr_left
    intro dep listed
    exact own.packages dep (fun same => apart (same ▸ listed))
  simp only [Commands.clean, deps, own.inputs task member]

/-- Two disks with the same outputs of a task show the same of its package. -/
theorem view_of_outputs (covered : commands.Covered tasks) {task : Task} (member : task ∈ tasks)
    {first second : FileSystem} (same : commands.outputs first task = commands.outputs second task) :
    first.view (commands.package task.packageName) =
      second.view (commands.package task.packageName) := by
  funext location
  unfold FileSystem.view
  by_cases isPackage : commands.package task.packageName location = true
  · have written := congrFun same location
    simp only [Commands.outputs, FileSystem.view, covered task member location isPackage,
      ↓reduceIte] at written
    rw [written]
  · simp [isPackage]

/-- A command makes the same of two disks with the same sources if the packages that it reads have
the same outputs. -/
theorem clean_of_outputs (covered : commands.Covered tasks) {task : Task} (member : task ∈ tasks)
    {first second : FileSystem} (sources : commands.SameSources crates tasks first second)
    (built : ∀ name ∈ task.depPackageNames, name ∈ tasks.map Task.packageName →
      ∃ dep ∈ tasks, dep.packageName = name ∧
        commands.outputs first dep = commands.outputs second dep) :
    commands.clean crates first task = commands.clean crates second task := by
  have deps : commands.depOutputs first task = commands.depOutputs second task := by
    apply List.map_congr_left
    intro name listed
    by_cases tasked : name ∈ tasks.map Task.packageName
    · obtain ⟨dep, isTask, rfl, same⟩ := built name listed tasked
      exact view_of_outputs covered isTask same
    · exact sources.packages name tasked
  simp only [Commands.clean, deps, sources.inputs task member]

end Commands

namespace BuildRun

variable (crates : Crates) (commands : Commands) (tasks : List Task) (set : TaskSet)

/-- A command writes its own outputs, and when it succeeds they are what it makes of what it has
read.  This is also what a task that hits has to find on the disk. -/
def Allowed (run : BuildRun) : BuildEvent → Prop
  | .write index fs => ∀ task, set.packages[index]? = some task →
      commands.Own crates tasks task run.fs fs
  | .schedule (.finish index (.ok ())) => ∀ task, set.packages[index]? = some task →
      commands.outputs run.fs task = commands.clean crates (run.seen index) task
  | _ => True

/-- `run_tasks_two_phase` has returned `Ok`. -/
def Returned (run : BuildRun) : Prop := run.schedule.stage = .returned (.ok ())

/-- The run is one of some of the tasks. -/
abbrev ReachableIn (fs : FileSystem) (run : BuildRun) : Prop :=
  Machine.Reachable (step set) (Allowed crates commands tasks set) (initial set fs) run

abbrev Reachable (fs : FileSystem) (run : BuildRun) : Prop :=
  ReachableIn crates commands set.packages set fs run

variable {set} {run next : BuildRun}

theorem schedule_step {event : BuildEvent} (reached : Schedule.Reachable set run.schedule)
    (taken : run.step set event = some next) : Schedule.Reachable set next.schedule := by
  cases event with
  | schedule event =>
      obtain ⟨after, stepped, rfl⟩ := Option.map_eq_some_iff.mp taken
      have here : Schedule.Reachable set after := .step event reached stepped
      split
      · exact here
      · exact here
  | install fs =>
      obtain ⟨-, isNext⟩ := Option.ite_none_right_eq_some.mp taken
      obtain rfl := Option.some.inj isNext
      exact reached
  | read index =>
      obtain ⟨-, isNext⟩ := Option.ite_none_right_eq_some.mp taken
      obtain rfl := Option.some.inj isNext
      exact reached
  | write index fs =>
      obtain ⟨-, isNext⟩ := Option.ite_none_right_eq_some.mp taken
      obtain rfl := Option.some.inj isNext
      exact reached

end BuildRun

/-! The tasks as workers, by the names of their packages; of two tasks with one name the first
counts. -/

def position (tasks : List Task) (name : Bytes) : Option Nat :=
  tasks.findIdx? fun task => task.packageName == name

def planned (tasks : List Task) (name : Bytes) : Option Task :=
  (position tasks name).bind fun index => tasks[index]?

def byName {α : Type} (tasks : List Task) (values : Nat → α) (others : Bytes → α) (name : Bytes) :
    α :=
  (position tasks name).elim (others name) values

theorem position_spec {tasks : List Task} {name : Bytes} {index : Nat}
    (found : position tasks name = some index) :
    ∃ task, tasks[index]? = some task ∧ task.packageName = name ∧
      planned tasks name = some task := by
  obtain ⟨bound, same, -⟩ := List.findIdx?_eq_some_iff_getElem.mp found
  have known := List.getElem?_eq_getElem bound
  exact ⟨tasks[index], known, by simpa using same, by rw [planned, found]; exact known⟩

theorem position_of_first {tasks : List Task} {index : Nat} {task : Task}
    (known : tasks[index]? = some task)
    (first : ∀ other ∈ tasks.take index, other.packageName ≠ task.packageName) :
    position tasks task.packageName = some index := by
  obtain ⟨bound, isTask⟩ := List.getElem?_eq_some_iff.mp known
  refine List.findIdx?_eq_some_iff_getElem.mpr ⟨bound, by simp [isTask], fun earlier below => ?_⟩
  have inTake : tasks[earlier] ∈ tasks.take index := by
    rw [List.mem_take_iff_getElem]
    exact ⟨earlier, by omega, rfl⟩
  simpa using first _ inTake

theorem planned_spec {tasks : List Task} {name : Bytes} {task : Task}
    (isPlanned : planned tasks name = some task) : task ∈ tasks ∧ task.packageName = name := by
  obtain ⟨index, found, known⟩ := Option.bind_eq_some_iff.mp isPlanned
  obtain ⟨other, isOther, sameName, -⟩ := position_spec found
  obtain rfl := Option.some.inj (isOther.symm.trans known)
  exact ⟨List.mem_of_getElem? known, sameName⟩

theorem planned_of_mem {tasks : List Task} {name : Bytes}
    (member : name ∈ tasks.map Task.packageName) :
    ∃ task, planned tasks name = some task := by
  obtain ⟨task, isTask, rfl⟩ := List.mem_map.mp member
  have some_ : (position tasks task.packageName).isSome = true := by
    rw [position, List.findIdx?_isSome, List.any_eq_true]
    exact ⟨task, isTask, beq_self_eq_true _⟩
  obtain ⟨index, found⟩ := Option.isSome_iff_exists.mp some_
  obtain ⟨other, -, -, isPlanned⟩ := position_spec found
  exact ⟨other, isPlanned⟩

theorem byName_of_position {α : Type} {tasks : List Task} {name : Bytes} {index : Nat}
    (found : position tasks name = some index) (values : Nat → α) (others : Bytes → α) :
    byName tasks values others name = values index := by
  rw [byName, found]
  rfl

theorem byName_update {α : Type} {tasks : List Task} {name : Bytes} {index : Nat}
    (found : position tasks name = some index) (values : Nat → α) (others : Bytes → α) (value : α) :
    byName tasks (Function.update values index value) others =
      Function.update (byName tasks values others) name value := by
  funext other
  by_cases here : other = name
  · subst here
    rw [byName_of_position found, Function.update_self, Function.update_self]
  · rw [Function.update_of_ne here, byName, byName]
    cases elsewhere : position tasks other with
    | none => rfl
    | some index' =>
        have differ : index' ≠ index := by
          rintro rfl
          obtain ⟨task, known, isName, -⟩ := position_spec found
          obtain ⟨task', known', isOther, -⟩ := position_spec elsewhere
          obtain rfl := Option.some.inj (known.symm.trans known')
          exact here (isOther.symm.trans isName)
        exact Function.update_of_ne differ _ _

namespace Commands

variable {crates : Crates} {commands : Commands} {tasks : List Task}

def plan (commands : Commands) (crates : Crates) (tasks : List Task)
    (covered : commands.Covered tasks) : Workers.Plan Bytes FileSystem (Option Outputs) where
  waitsFor name dep := dep ∈ tasks.map Task.packageName ∧
    ∃ task, planned tasks name = some task ∧ dep ∈ task.depPackageNames
  outputs fs name := (planned tasks name).map (commands.outputs fs)
  makes fs name := (planned tasks name).map (commands.clean crates fs)
  SameGiven := commands.SameSources crates tasks
  equivalence := ⟨.refl, .symm, .trans⟩
  determined := by
    intro first second name sources waited
    cases isPlanned : planned tasks name with
    | none => rfl
    | some task =>
        have member := (planned_spec isPlanned).1
        rw [Option.map_some, Option.map_some, Option.some.injEq]
        apply clean_of_outputs covered member sources
        intro dep listed tasked
        obtain ⟨other, isOther⟩ := planned_of_mem tasked
        have same := waited dep ⟨tasked, task, isPlanned, listed⟩
        rw [isOther, Option.map_some, Option.map_some, Option.some.injEq] at same
        exact ⟨other, (planned_spec isOther).1, (planned_spec isOther).2, same⟩

theorem plan_correct {covered : commands.Covered tasks} {fs : FileSystem}
    (correct : ∀ task ∈ tasks, commands.Correct crates fs task) (name : Bytes) :
    (commands.plan crates tasks covered).outputs fs name =
      (commands.plan crates tasks covered).makes fs name := by
  simp only [plan]
  cases isPlanned : planned tasks name with
  | none => rfl
  | some task =>
      have here := correct task (planned_spec isPlanned).1
      rw [Option.map_some, Option.map_some, here]

/-- A write by the command of a task is one by its worker. -/
theorem Own.planned {covered : commands.Covered tasks} {state : Workers.State Bytes FileSystem}
    {task : Task} {fs : FileSystem} (member : task ∈ tasks)
    (own : commands.Own crates tasks task state.store fs) :
    Workers.Own (commands.plan crates tasks covered) state task.packageName fs where
  given := own.sources member
  outputs := by
    intro name _ differ
    simp only [plan]
    cases isPlanned : Rage.planned tasks name with
    | none => rfl
    | some other =>
        obtain ⟨isTask, rfl⟩ := planned_spec isPlanned
        simp only [Option.map_some, own.outputs other isTask differ]
  makes := by
    intro name _ apart
    simp only [plan] at apart ⊢
    cases isPlanned : Rage.planned tasks name with
    | none => rfl
    | some other =>
        have isTask := (planned_spec isPlanned).1
        have notDep : task.packageName ∉ other.depPackageNames := fun listed =>
          apart ⟨List.mem_map_of_mem member, other, isPlanned, listed⟩
        simp only [Option.map_some, own.clean isTask notDep]

end Commands

/-! What a step of the scheduler is to the workers. -/

def Phase.status : Phase → Workers.Status
  | .unspawned => .idle
  | .waiting _ => .idle
  | .running => .working
  | .finished (.ok ()) => .done
  | .returned (.ok ()) => .done
  | _ => .failed

namespace Schedule

/-- `others` is what the tasks are that are left out of the run. -/
def status (set : TaskSet) (others : Bytes → Workers.Status) (schedule : Schedule) :
    Bytes → Workers.Status :=
  byName set.packages (Phase.status ∘ schedule.phase) others

variable {set : TaskSet} {others : Bytes → Workers.Status} {before after : Schedule}
  {event : SchedulerEvent}

theorem status_update {index : Nat} {name : Bytes} {phase : Phase}
    (found : position set.packages name = some index)
    (phases : after.phase = Function.update before.phase index phase) :
    after.status set others = Function.update (before.status set others) name phase.status := by
  rw [status, phases, Function.comp_update, byName_update found]
  rfl

theorem status_at {index : Nat} {name : Bytes} (found : position set.packages name = some index) :
    before.status set others name = (before.phase index).status :=
  byName_of_position found _ _

theorem position_of_spawned (ordered : Ordered set before) {index : Nat} {task : Task}
    (known : set.packages[index]? = some task) (spawned : before.phase index ≠ .unspawned) :
    position set.packages task.packageName = some index :=
  position_of_first known (ordered.fresh index task known spawned)

/-- A step that starts and ends no command leaves the workers, or a task is skipped or dropped. -/
theorem status_step (reached : Reachable set before) (taken : before.step set event = some after)
    (notStart : ∀ index, event ≠ .start index)
    (notFinish : ∀ index result, event ≠ .finish index result) (name : Bytes) :
    after.status set others name = before.status set others name ∨
      before.status set others name ≠ .done ∧ after.status set others name = .failed := by
  have ordered := Ordered.reachable reached
  have contained := Contained.reachable reached
  have kept {index : Nat} {phase : Phase} (same : phase.status = (before.phase index).status)
      (phases : after.phase = Function.update before.phase index phase) :
      after.status set others name = before.status set others name := by
    rw [status, phases, Function.comp_update, same, status]
    exact congrArg (fun values => byName set.packages values others name)
      (Function.update_eq_self index (Phase.status ∘ before.phase))
  have failed {index : Nat} {phase : Phase} (spawned : before.phase index ≠ .unspawned)
      (notDone : (before.phase index).status ≠ .done) (fails : phase.status = .failed)
      (phases : after.phase = Function.update before.phase index phase) :
      after.status set others name = before.status set others name ∨
        before.status set others name ≠ .done ∧ after.status set others name = .failed := by
    have bound := contained.bound index spawned
    have found := position_of_spawned ordered (List.getElem?_eq_getElem bound) spawned
    rw [status_update found phases]
    by_cases here : name = set.packages[index].packageName
    · rw [here, Function.update_self, status_at found]
      exact Or.inr ⟨notDone, fails⟩
    · exact Or.inl (Function.update_of_ne here _ _)
  cases step_effect taken with
  | control _ phases _ => exact Or.inl (by rw [status, phases, status])
  | opened _ phases _ => exact Or.inl (by rw [status, phases, status])
  | spawned index task _ wasAhead _ _ phases _ =>
      exact Or.inl (kept (by rw [ordered.ahead index wasAhead]; rfl) phases)
  | received index dep rest sender _ waited _ phases _ =>
      exact Or.inl (kept (by rw [waited]; rfl) phases)
  | skipped index dep rest _ waited phases _ =>
      exact failed (by simp [waited]) (by simp [waited, Phase.status]) rfl phases
  | started index _ waited phases _ =>
      have running : after.phase index = .running := by rw [phases, Function.update_self]
      rcases (came_step taken index).running running with was | isStart
      · simp [waited] at was
      · exact absurd isStart (notStart index)
  | finished index result _ ran phases _ =>
      have finished : after.phase index = .finished result := by rw [phases, Function.update_self]
      rcases (came_step taken index).finished result finished with was | ⟨isFinish, -⟩
      · simp [ran] at was
      · exact absurd isFinish (notFinish index result)
  | sent index task result state _ _ was _ phases _ =>
      rcases was with finished | ⟨skipping, notOk⟩
      · refine Or.inl (kept ?_ phases)
        rw [finished]
        cases result with
        | ok => rfl
        | error => rfl
      · refine failed (by simp [skipping]) (by simp [skipping, Phase.status]) ?_ phases
        cases result with
        | ok => exact absurd rfl notOk
        | error => rfl
  | dropped index task _ _ was phases _ =>
      refine failed ?_ ?_ rfl phases
      · rcases was with ran | ⟨rest, waited⟩
        · simp [ran]
        · simp [waited]
      · rcases was with ran | ⟨rest, waited⟩
        · simp [ran, Phase.status]
        · simp [waited, Phase.status]

end Schedule

namespace BuildRun

variable {crates : Crates} {commands : Commands} {tasks : List Task} {set : TaskSet}
  {others : Bytes → Workers.Status} {run : BuildRun}

def workers (set : TaskSet) (others : Bytes → Workers.Status) (run : BuildRun) :
    Workers.State Bytes FileSystem where
  status := run.schedule.status set others
  store := run.fs
  seen := byName set.packages run.seen fun _ => run.opened

/-- The tasks of a run are tasks of the workspace, and what they wait for is one of them or done. -/
structure Within (tasks : List Task) (set : TaskSet) (others : Bytes → Workers.Status) : Prop where
  planned : ∀ name ∈ set.packages.map Task.packageName,
    planned tasks name = planned set.packages name
  idle : ∀ name ∈ set.packages.map Task.packageName, others name = .idle
  awaited : ∀ task ∈ set.packages, ∀ dep ∈ task.depPackageNames, dep ∈ tasks.map Task.packageName →
    dep ∈ set.packages.map Task.packageName ∨ others dep = .done

theorem Within.all (set : TaskSet) : Within set.packages set fun _ => .idle where
  planned := fun _ _ => rfl
  idle := fun _ _ => rfl
  awaited := fun _ _ _ _ tasked => Or.inl tasked

/-- What a task waits for before it starts has succeeded. -/
theorem awaited_done (ordered : Ordered set run.schedule) {index : Nat} {task : Task}
    (known : set.packages[index]? = some task)
    (met : (run.schedule.phase index).unmet = some []) {name : Bytes}
    (tasked : name ∈ set.packages.map Task.packageName) (listed : name ∈ task.depPackageNames) :
    run.schedule.status set others name = .done := by
  obtain ⟨dep, isTask, rfl⟩ := List.mem_map.mp tasked
  have hasTask : set.hasTask dep.packageName = true :=
    List.any_eq_true.mpr ⟨dep, isTask, beq_self_eq_true _⟩
  have isDone := (ordered.awaited index task known [] met _ listed hasTask).resolve_left
    List.not_mem_nil
  obtain ⟨other, done, isOther, sameName, returned⟩ := ordered.done _ isDone
  have found := Schedule.position_of_spawned ordered isOther (by simp [returned])
  rw [← sameName, Schedule.status_at found, returned]
  rfl

theorem status_of_not_mem {name : Bytes} (untasked : name ∉ set.packages.map Task.packageName) :
    run.schedule.status set others name = others name := by
  cases found : position set.packages name with
  | none => rw [Schedule.status, byName, found, Option.elim_none]
  | some index =>
      obtain ⟨task, known, rfl, -⟩ := position_spec found
      exact absurd (List.mem_map_of_mem (List.mem_of_getElem? known)) untasked

theorem reachable_schedule {fs : FileSystem}
    (reached : ReachableIn crates commands tasks set fs run) :
    Schedule.Reachable set run.schedule := by
  induction reached with
  | refl => exact .initial
  | tail event _ _ taken ih => exact schedule_step ih taken

variable {next : BuildRun} {covered : commands.Covered tasks}

theorem schedule_taken {event : SchedulerEvent} {after : Schedule}
    (notStart : ∀ index, event ≠ .start index)
    (taken : run.schedule.step set event = some after)
    (isNext : run.step set (.schedule event) = some next) :
    next = { run with schedule := after } := by
  simp only [step, taken, Option.map_some, Option.some.injEq] at isNext
  exact isNext.symm

theorem opened_step {event : BuildEvent} (notInstall : ∀ fs, event ≠ .install fs)
    (taken : run.step set event = some next) : next.opened = run.opened := by
  cases event with
  | schedule event =>
      obtain ⟨after, -, rfl⟩ := Option.map_eq_some_iff.mp taken
      split
      · rfl
      · rfl
  | install fs => exact absurd rfl (notInstall fs)
  | read index =>
      obtain ⟨-, isNext⟩ := Option.ite_none_right_eq_some.mp taken
      rw [← Option.some.inj isNext]
  | write index fs =>
      obtain ⟨-, isNext⟩ := Option.ite_none_right_eq_some.mp taken
      rw [← Option.some.inj isNext]

theorem spawned_position (ordered : Ordered set run.schedule) (contained : Contained set run.schedule)
    (index : Nat) (spawned : run.schedule.phase index ≠ .unspawned) :
    ∃ task, set.packages[index]? = some task ∧
      position set.packages task.packageName = some index := by
  have known := List.getElem?_eq_getElem (contained.bound index spawned)
  exact ⟨_, known, Schedule.position_of_spawned ordered known spawned⟩

theorem status_running {index : Nat} {name : Bytes}
    (found : position set.packages name = some index)
    (running : run.schedule.phase index = .running) :
    run.schedule.status set others name = .working := by
  rw [Schedule.status_at found, running]
  rfl

theorem Within.planned_own (within : Within tasks set others) {index : Nat} {task : Task}
    (known : set.packages[index]? = some task)
    (found : position set.packages task.packageName = some index) :
    Rage.planned tasks task.packageName = some task := by
  rw [within.planned _ (List.mem_map_of_mem (List.mem_of_getElem? known)), Rage.planned, found]
  exact known

theorem simulated_start (within : Within tasks set others) (ordered : Ordered set run.schedule)
    {index : Nat} {task : Task} (known : set.packages[index]? = some task)
    (found : position set.packages task.packageName = some index)
    (waiting : run.schedule.phase index = .waiting []) :
    Workers.Step (commands.plan crates tasks covered) (run.workers set others)
      { run.workers set others with
        status := Function.update (run.workers set others).status task.packageName .working
        seen := Function.update (run.workers set others).seen task.packageName run.fs } := by
  have member := List.mem_of_getElem? known
  have met : (run.schedule.phase index).unmet = some [] := by
    rw [waiting]
    rfl
  refine .start task.packageName ?_ ?_
  · show run.schedule.status set others task.packageName = .idle
    rw [Schedule.status_at found, waiting]
    rfl
  · rintro dep ⟨tasked, other, isPlanned, listed⟩
    obtain rfl := Option.some.inj (isPlanned.symm.trans (within.planned_own known found))
    show run.schedule.status set others dep = .done
    by_cases inRun : dep ∈ set.packages.map Task.packageName
    · exact awaited_done ordered known met inRun listed
    · rw [status_of_not_mem inRun]
      exact (within.awaited other member dep listed tasked).resolve_left inRun

/-- The builds of the scheduler are runs of the workers. -/
theorem simulated_step (within : Within tasks set others) {event : BuildEvent}
    (notInstall : ∀ fs, event ≠ .install fs) (reached : Schedule.Reachable set run.schedule)
    (allowed : Allowed crates commands tasks set run event) (taken : run.step set event = some next)
    (working : Workers.Reachable (commands.plan crates tasks covered) run.opened
      (run.workers set others)) :
    Workers.Reachable (commands.plan crates tasks covered) next.opened
      (next.workers set others) := by
  have ordered := Ordered.reachable reached
  have contained := Contained.reachable reached
  cases event with
  | schedule event =>
      obtain ⟨after, stepped, isNext⟩ := Option.map_eq_some_iff.mp taken
      cases event with
      | start index =>
          obtain ⟨waiting, isAfter⟩ := Option.ite_none_right_eq_some.mp stepped
          obtain ⟨own, known, found⟩ := spawned_position ordered contained index (by simp [waiting])
          have phases : after.phase = Function.update run.schedule.phase index .running :=
            (congrArg Schedule.phase (Option.some.inj isAfter)).symm
          have started := Workers.Reachable.step working
            (simulated_start within ordered known found waiting)
          rw [← isNext]
          simpa only [workers, Schedule.status_update found phases, byName_update found,
            Phase.status] using started
      | finish index result =>
          obtain ⟨running, isAfter⟩ := Option.ite_none_right_eq_some.mp stepped
          obtain ⟨own, known, found⟩ := spawned_position ordered contained index (by simp [running])
          have phases : after.phase = Function.update run.schedule.phase index (.finished result) :=
            (congrArg Schedule.phase (Option.some.inj isAfter)).symm
          rw [← isNext]
          cases result with
          | ok =>
              have finished := Workers.Reachable.step working (.finish own.packageName
                (status_running found running) (by
                  show (commands.plan crates tasks covered).outputs run.fs own.packageName =
                    (commands.plan crates tasks covered).makes
                      (byName set.packages run.seen (fun _ => run.opened) own.packageName)
                      own.packageName
                  rw [byName_of_position found]
                  simp only [Commands.plan, within.planned_own known found, Option.map_some,
                    Option.some.injEq]
                  exact allowed own known))
              simpa only [workers, Schedule.status_update found phases, Phase.status] using finished
          | error error =>
              have isWorking : run.schedule.status set others own.packageName = .working :=
                status_running found running
              refine .step working (.fail (after.status set others) fun name => ?_)
              rw [Schedule.status_update found phases]
              by_cases here : name = own.packageName
              · rw [here, Function.update_self]
                exact Or.inr ⟨by simp [workers, isWorking], rfl⟩
              · exact Or.inl (Function.update_of_ne here _ _)
      | _ =>
          obtain rfl := schedule_taken (by simp) stepped taken
          exact .step working (.fail (after.status set others)
            (Schedule.status_step reached stepped (by simp) (by simp)))
  | install fs => exact absurd rfl (notInstall fs)
  | read index =>
      obtain ⟨running, isNext⟩ := Option.ite_none_right_eq_some.mp taken
      obtain rfl := Option.some.inj isNext
      obtain ⟨own, -, found⟩ := spawned_position ordered contained index (by simp [running])
      have read := Workers.Reachable.step working
        (.read own.packageName (status_running found running))
      simpa only [workers, byName_update found] using read
  | write index fs =>
      obtain ⟨running, isNext⟩ := Option.ite_none_right_eq_some.mp taken
      obtain rfl := Option.some.inj isNext
      obtain ⟨own, known, found⟩ := spawned_position ordered contained index (by simp [running])
      have isOwn := allowed own known
      exact .step working (.write own.packageName fs (status_running found running)
        (isOwn.planned (planned_spec (within.planned_own known found)).1))

/-- Before the first task is spawned everything is as it was, and what was done is settled. -/
theorem simulated_opened (within : Within tasks set others)
    (unspawned : ∀ index, run.schedule.phase index = .unspawned) (store : run.fs = run.opened)
    (begins : ∀ name, others name = .idle ∨
      Workers.Settled (commands.plan crates tasks covered) others run.opened name) :
    Workers.Reachable (commands.plan crates tasks covered) run.opened (run.workers set others) := by
  have status : (run.workers set others).status = others := by
    funext name
    by_cases tasked : name ∈ set.packages.map Task.packageName
    · obtain ⟨task, isPlanned⟩ := planned_of_mem tasked
      obtain ⟨index, found, -⟩ := Option.bind_eq_some_iff.mp isPlanned
      show run.schedule.status set others name = others name
      rw [Schedule.status_at found, unspawned, within.idle name tasked]
      rfl
    · exact status_of_not_mem tasked
  refine .opened _ ?_ store
  rw [status]
  show ∀ name, others name = .idle ∨ Workers.Settled _ others run.fs name
  rw [store]
  exact begins

theorem simulated {fs : FileSystem} (covered : commands.Covered tasks)
    (within : Within tasks set others) (reached : ReachableIn crates commands tasks set fs run)
    (begins : ∀ name, others name = .idle ∨
      Workers.Settled (commands.plan crates tasks covered) others run.opened name) :
    Workers.Reachable (commands.plan crates tasks covered) run.opened (run.workers set others) := by
  induction reached with
  | refl => exact simulated_opened within (fun _ => rfl) rfl begins
  | @tail before after event reached allowed taken ih =>
      have scheduled := reachable_schedule reached
      cases event with
      | install fs =>
          obtain ⟨stage, isNext⟩ := Option.ite_none_right_eq_some.mp taken
          obtain rfl := Option.some.inj isNext
          refine simulated_opened within (fun index => ?_) rfl begins
          exact (Ordered.reachable scheduled).ahead index (by rw [stage]; trivial)
      | _ =>
          rw [opened_step (by simp) taken] at begins
          exact simulated_step within (by simp) scheduled allowed taken (ih begins)

/-- Every task of a build that has returned `Ok` is done. -/
theorem Returned.done (returned : run.Returned) (others : Bytes → Workers.Status)
    (reached : Schedule.Reachable set run.schedule) {task : Task} (member : task ∈ set.packages) :
    Rage.planned set.packages task.packageName = some task ∧
      (run.workers set others).status task.packageName = .done := by
  obtain ⟨index, known⟩ := List.mem_iff_getElem?.mp member
  obtain ⟨bound, -⟩ := List.getElem?_eq_some_iff.mp known
  have isOk := ((Schedule.returned_ok_iff reached returned).mp rfl).2 index bound
  have found := Schedule.position_of_spawned (Ordered.reachable reached) known (by simp [isOk])
  refine ⟨by rw [Rage.planned, found]; exact known, ?_⟩
  show run.schedule.status set others task.packageName = .done
  rw [Schedule.status_at found, isOk]
  rfl

theorem sound (covered : commands.Covered set.packages) {fs : FileSystem}
    (reached : Reachable crates commands set fs run) :
    Workers.Sound (commands.plan crates set.packages covered) run.opened
      (run.workers set fun _ => .idle) :=
  .reachable (simulated covered (.all set) reached fun _ => Or.inl rfl)

theorem Returned.correct (returned : run.Returned) {fs : FileSystem}
    (covered : commands.Covered set.packages) (reached : Reachable crates commands set fs run)
    {task : Task} (member : task ∈ set.packages) : commands.Correct crates run.fs task := by
  obtain ⟨isPlanned, done⟩ := returned.done (fun _ => .idle) (reachable_schedule reached) member
  have correct := ((sound covered reached).settled _ done).made
  simp only [Commands.plan, isPlanned, Option.map_some, Option.some.injEq] at correct
  exact correct

/-- A disk on which every task is correct says what a build with the same sources leaves. -/
theorem Returned.agrees (returned : run.Returned) (covered : commands.Covered set.packages)
    {fs goal : FileSystem} (correct : ∀ task ∈ set.packages, commands.Correct crates goal task)
    (reached : Reachable crates commands set fs run)
    (sources : commands.SameSources crates set.packages run.opened goal) {task : Task}
    (member : task ∈ set.packages) :
    commands.outputs run.fs task = commands.outputs goal task := by
  obtain ⟨isPlanned, done⟩ := returned.done (fun _ => .idle) (reachable_schedule reached) member
  have isSound := sound covered reached
  have agrees := (isSound.settled _ done).agrees (isSound.given.symm.trans sources)
    (Commands.plan_correct correct)
  simp only [Commands.plan, isPlanned, Option.map_some, Option.some.injEq] at agrees
  exact agrees

end BuildRun

/-- Two builds that return and have been given the same leave the same outputs of every task, those
of a clean build, however their commands took turns. -/
theorem builds_agree (crates : Crates) (commands : Commands) (tasks : List Task)
    (abortOnPanic : Bool)
    (covered : commands.Covered (TaskSet.ofTasks tasks abortOnPanic).packages)
    (fs other : FileSystem) (first second : BuildRun)
    (firstReached : first.Reachable crates commands (.ofTasks tasks abortOnPanic) fs)
    (secondReached : second.Reachable crates commands (.ofTasks tasks abortOnPanic) other)
    (firstReturned : first.Returned) (secondReturned : second.Returned)
    (sources : commands.SameSources crates (TaskSet.ofTasks tasks abortOnPanic).packages
      first.opened second.opened) :
    ∀ task ∈ (TaskSet.ofTasks tasks abortOnPanic).packages,
      commands.Correct crates first.fs task ∧
        commands.outputs first.fs task = commands.outputs second.fs task := by
  intro task member
  refine ⟨firstReturned.correct covered firstReached member, ?_⟩
  apply firstReturned.agrees covered ?_ firstReached ?_ member
  · intro other isTask
    exact secondReturned.correct covered secondReached isTask
  · exact sources.trans (BuildRun.sound covered secondReached).given

/-! One task after another. -/

namespace Commands

def sequential (commands : Commands) (fs : FileSystem) (order : List Task) : FileSystem :=
  order.foldl (fun fs task => commands.run task fs) fs

/-- Each package once, and after all that it depends on. -/
structure Topological (order : List Task) : Prop where
  pairwise : order.Pairwise fun earlier later =>
    earlier.packageName ≠ later.packageName ∧ later.packageName ∉ earlier.depPackageNames
  noSelf : ∀ task ∈ order, task.packageName ∉ task.depPackageNames

variable {crates : Crates} {commands : Commands} {tasks : List Task}

theorem Deterministic.own (deterministic : commands.Deterministic crates tasks) {task : Task}
    (member : task ∈ tasks) (fs : FileSystem) :
    commands.Own crates tasks task fs (commands.run task fs) where
  inputs := fun other isTask => deterministic.keepsInputs task member other isTask fs
  outputs := fun other isTask differ => deterministic.keepsOutputs task member other isTask differ fs
  packages := fun dep differ => deterministic.keepsPackages task member dep differ fs

theorem Own.correct {task other : Task} {before after : FileSystem} (member : task ∈ tasks)
    (own : commands.Own crates tasks other before after)
    (differ : task.packageName ≠ other.packageName)
    (apart : other.packageName ∉ task.depPackageNames)
    (correct : commands.Correct crates before task) : commands.Correct crates after task := by
  rw [Commands.Correct, own.clean member apart, own.outputs task member differ]
  exact correct

theorem Deterministic.correct (deterministic : commands.Deterministic crates tasks) {task : Task}
    (member : task ∈ tasks) (noSelf : task.packageName ∉ task.depPackageNames) (fs : FileSystem) :
    commands.Correct crates (commands.run task fs) task := by
  rw [Commands.Correct, (deterministic.own member fs).clean member noSelf]
  exact deterministic.builds task member fs

theorem sequential_correct (deterministic : commands.Deterministic crates tasks)
    {order : List Task} (known : ∀ task ∈ order, task ∈ tasks) (topological : Topological order)
    (fs : FileSystem) :
    commands.SameSources crates tasks fs (commands.sequential fs order) ∧
      ∀ task ∈ order, commands.Correct crates (commands.sequential fs order) task := by
  induction order using List.reverseRecOn with
  | nil => exact ⟨.refl fs, by simp⟩
  | append_singleton earlier last ih =>
      have isTask : last ∈ tasks := known last (by simp)
      obtain ⟨pairwise, -, apart⟩ := List.pairwise_append.mp topological.pairwise
      obtain ⟨sources, correct⟩ := ih (fun task member => known task (by simp [member]))
        ⟨pairwise, fun task member => topological.noSelf task (by simp [member])⟩
      have own := deterministic.own isTask (commands.sequential fs earlier)
      have split : commands.sequential fs (earlier ++ [last]) =
          commands.run last (commands.sequential fs earlier) := by
        simp [sequential]
      rw [split]
      refine ⟨sources.trans (own.sources isTask), fun task member => ?_⟩
      rcases List.mem_append.mp member with before | isLast
      · obtain ⟨differ, notDep⟩ := apart task before last (List.mem_singleton_self last)
        exact own.correct (known task member) differ notDep (correct task before)
      · obtain rfl := List.mem_singleton.mp isLast
        exact deterministic.correct isTask (topological.noSelf task member) _

end Commands

namespace TwoLibraries

def package (name : String) (dependencies : List String) : Task :=
  { Sample.task .strict [] with
    packageName := utf8 name, command := utf8 name, cwd := utf8 "/ws/" ++ utf8 name
    depPackageNames := dependencies.map utf8 }

def tasks : List Task := [package "net" [], package "io" [], package "app" ["net", "io"]]

def out (cwd : Path) : Location := components cwd ++ [.normal (utf8 "out")]

def content : Option Node → Bytes
  | some (.file content _) => content
  | _ => []

def linked (command : Bytes) (deps : List Outputs) : Bytes :=
  command ++ deps.flatMap fun dep => tasks.flatMap fun task => content (dep (out task.cwd))

def linker : Commands where
  writes := fun _ cwd location => location == out cwd
  package := fun name location =>
    tasks.any fun task => task.packageName == name && location == out task.cwd
  build := fun command cwd _ deps location =>
    if location == out cwd then some (.file (linked command deps) true) else none
  run := fun task fs => fs.write (out task.cwd)
    ⟨.file (linked task.command (task.depPackageNames.map fun dep => fs.view fun location =>
      tasks.any fun task => task.packageName == dep && location == out task.cwd)) true, false⟩

theorem outs_apart : ∀ task ∈ tasks, ∀ other ∈ tasks,
    task.packageName = other.packageName ↔ out task.cwd = out other.cwd := by
  decide

theorem covered : linker.Covered tasks := by
  intro task member location isPackage
  obtain ⟨other, isTask, same⟩ := List.any_eq_true.mp isPackage
  rw [Bool.and_eq_true, beq_iff_eq, beq_iff_eq] at same
  obtain ⟨sameName, rfl⟩ := same
  exact beq_iff_eq.mpr ((outs_apart other isTask task member).mp sameName)

theorem view_write_of_ne (fs : FileSystem) {region : Location → Bool} {location : Location}
    (entry : Entry) (outside : region location = false) :
    (fs.write location entry).view region = fs.view region := by
  funext other
  unfold FileSystem.view
  by_cases inside : region other = true
  · have differ : other ≠ location := by
      rintro rfl
      simp [inside] at outside
    simp only [inside, ↓reduceIte, FileSystem.nodeAt,
      FileSystem.entryAt_write_of_ne fs entry differ]
  · simp [inside]

theorem deterministic : linker.Deterministic .plain tasks where
  builds := by
    intro task _ fs
    funext location
    by_cases isOut : location = out task.cwd
    · simp [Commands.outputs, FileSystem.view, Commands.clean, Commands.depOutputs, linker, isOut,
        FileSystem.nodeAt]
    · simp [Commands.outputs, FileSystem.view, Commands.clean, linker, isOut]
  keepsInputs := by
    intro task _ other isOther fs
    have noGlobs : ∀ task ∈ tasks, task.declaredInputGlobs = [] := by decide
    simp [matchedFiles, noGlobs other isOther]
  keepsOutputs := by
    intro task member other isOther differ fs
    apply view_write_of_ne
    refine beq_eq_false_iff_ne.mpr fun same => differ ?_
    exact ((outs_apart task member other isOther).mpr same).symm
  keepsPackages := by
    intro task member dep differ fs
    apply view_write_of_ne
    refine List.any_eq_false.mpr fun other isOther found => differ ?_
    rw [Bool.and_eq_true, beq_iff_eq, beq_iff_eq] at found
    rw [← found.1, (outs_apart other isOther task member).mpr found.2.symm]

def set : TaskSet := .ofTasks tasks true

theorem outputs_eq {fs seen : FileSystem} {task : Task}
    (same : fs.nodeAt (out task.cwd) = linker.clean .plain seen task (out task.cwd)) :
    linker.outputs fs task = linker.clean .plain seen task := by
  funext location
  by_cases isOut : location = out task.cwd
  · subst isOut
    simpa [Commands.outputs, FileSystem.view, linker] using same
  · simp [Commands.outputs, FileSystem.view, Commands.clean, linker, isOut]

/-- The linker writes its output at once, from the disk as it is or as it has read it. -/
def plain (set : TaskSet) (run : BuildRun) : BuildEvent → Bool
  | .write index fs => set.packages[index]?.any fun task =>
      fs.entries == (linker.run task run.fs).entries
  | .schedule (.finish index (.ok ())) => set.packages[index]?.any fun task =>
      run.fs.nodeAt (out task.cwd) ==
        linker.clean .plain (run.seen index) task (out task.cwd)
  | _ => true

theorem allowed_of_plain {set : TaskSet} (part : ∀ task ∈ set.packages, task ∈ tasks)
    {run : BuildRun} {event : BuildEvent} (isPlain : plain set run event = true) :
    BuildRun.Allowed .plain linker tasks set run event := by
  cases event with
  | write index fs =>
      intro task known
      rw [plain, known, Option.any_some, beq_iff_eq] at isPlain
      obtain rfl : fs = linker.run task run.fs := congrArg FileSystem.mk isPlain
      exact deterministic.own (part task (List.mem_of_getElem? known)) run.fs
  | schedule event =>
      cases event with
      | finish index result =>
          cases result with
          | ok =>
              intro task known
              rw [plain, known, Option.any_some, beq_iff_eq] at isPlain
              exact outputs_eq isPlain
          | error => trivial
      | _ => trivial
  | _ => trivial

def step (set : TaskSet) : BuildRun → BuildEvent → Option BuildRun :=
  Machine.guarded (fun run event => plain set run event = true) (BuildRun.step set)

theorem reaches {set : TaskSet} (part : ∀ task ∈ set.packages, task ∈ tasks) {fs : FileSystem}
    {events : List BuildEvent} {run : BuildRun}
    (ran : Machine.run (step set) (.initial set fs) events = some run) :
    run.ReachableIn .plain linker tasks set fs := by
  have reached := Machine.guarded_reachable ran
  apply reached.simulates id
  intro before event next isPlain taken
  exact Or.inr ⟨event, allowed_of_plain part isPlain, taken⟩

theorem part : ∀ task ∈ set.packages, task ∈ tasks := fun _ => List.mem_of_mem_filter

def disk : FileSystem := ⟨[]⟩

def net : FileSystem := linker.run (package "net" []) disk
def io : FileSystem := linker.run (package "io" []) disk
def netIo : FileSystem := linker.run (package "io" []) net
def ioNet : FileSystem := linker.run (package "net" []) io

def taskEvents (index : Nat) (fs : FileSystem) : List BuildEvent :=
  [.write index fs, .schedule (.finish index (.ok ())), .schedule (.send index)]

def opening : List BuildEvent :=
  ([.enterPackages, .spawn, .spawn, .spawn, .spawn, .start 0, .start 1].map .schedule)

def linking (fs : FileSystem) : List BuildEvent :=
  [.schedule (.poll 2), .schedule (.poll 2), .schedule (.start 2)] ++
    taskEvents 2 (linker.run (package "app" ["net", "io"]) fs) ++
    [.join 2, .join 0, .join 1, .leave].map .schedule

def netFirst : List BuildEvent := opening ++ taskEvents 0 net ++ taskEvents 1 netIo ++ linking netIo

def ioFirst : List BuildEvent :=
  opening ++ [.write 1 io, .read 0, .write 0 ioNet] ++
    [.finish 0 (.ok ()), .finish 1 (.ok ()), .send 1, .send 0].map .schedule ++ linking ioNet

theorem returns (set : TaskSet) (fs : FileSystem) (events : List BuildEvent)
    (enough : ((Machine.run (step set) (.initial set fs) events).map fun run =>
      (run.schedule.stage, run.opened.entries)) = some (.returned (.ok ()), fs.entries)) :
    ∃ run, Machine.run (step set) (.initial set fs) events = some run ∧ run.Returned ∧
      run.opened = fs := by
  obtain ⟨run, ran, same⟩ := Option.map_eq_some_iff.mp enough
  exact ⟨run, ran, congrArg Prod.fst same, congrArg FileSystem.mk (congrArg Prod.snd same)⟩

end TwoLibraries

theorem builds_agree_twoLibraries : ∃ first second,
    Machine.run (TwoLibraries.step TwoLibraries.set) (.initial TwoLibraries.set TwoLibraries.disk)
      TwoLibraries.netFirst = some first ∧
    Machine.run (TwoLibraries.step TwoLibraries.set) (.initial TwoLibraries.set TwoLibraries.disk)
      TwoLibraries.ioFirst = some second ∧
    ∀ task ∈ TwoLibraries.set.packages,
      TwoLibraries.linker.Correct .plain first.fs task ∧
        TwoLibraries.linker.outputs first.fs task = TwoLibraries.linker.outputs second.fs task := by
  obtain ⟨first, ran, returned, opened⟩ :=
    TwoLibraries.returns TwoLibraries.set TwoLibraries.disk TwoLibraries.netFirst (by decide +kernel)
  obtain ⟨second, otherRan, otherReturned, otherOpened⟩ :=
    TwoLibraries.returns TwoLibraries.set TwoLibraries.disk TwoLibraries.ioFirst (by decide +kernel)
  refine ⟨first, second, ran, otherRan, builds_agree .plain TwoLibraries.linker TwoLibraries.tasks
    true TwoLibraries.covered TwoLibraries.disk TwoLibraries.disk first second
    (TwoLibraries.reaches TwoLibraries.part ran) (TwoLibraries.reaches TwoLibraries.part otherRan)
    returned otherReturned ?_⟩
  rw [opened, otherOpened]
  exact .refl _

end Rage
