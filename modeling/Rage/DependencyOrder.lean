import Rage.Scheduler

/-!
Dependency order.  A task waits on its direct dependencies that have tasks; along a path of the
graph the order follows only as far as every package on it has one.
-/

namespace Rage

namespace Schedule

def Done (schedule : Schedule) (name : Bytes) : Prop :=
  ∃ sender, schedule.channels name = some ⟨.done, sender⟩

end Schedule

/-- The receivers that a future on its way to success has not found done yet. -/
def Phase.unmet : Phase → Option (List Bytes)
  | .waiting rest => some rest
  | .running => some []
  | .finished _ => some []
  | .returned (.ok ()) => some []
  | _ => none

/-- What holds of the futures and the channels in every reachable schedule. -/
structure Ordered (set : TaskSet) (schedule : Schedule) : Prop where
  ahead : ∀ index, schedule.stage.ahead index → schedule.phase index = .unspawned
  fresh : ∀ (index : Nat) (task : Task), set.packages[index]? = some task →
    schedule.phase index ≠ .unspawned →
      ∀ other ∈ set.packages.take index, other.packageName ≠ task.packageName
  done : ∀ name, schedule.Done name → ∃ (index : Nat) (task : Task),
    set.packages[index]? = some task ∧ task.packageName = name ∧
      schedule.phase index = .returned (.ok ())
  awaited : ∀ (index : Nat) (task : Task), set.packages[index]? = some task →
    ∀ rest, (schedule.phase index).unmet = some rest →
      ∀ dep ∈ task.depPackageNames, set.hasTask dep = true → dep ∈ rest ∨ schedule.Done dep

namespace Ordered

variable {set : TaskSet} {before after : Schedule}

theorem initial (set : TaskSet) : Ordered set (.initial set) where
  ahead := fun _ _ => rfl
  fresh := fun _ _ _ spawned => absurd rfl spawned
  done := by
    rintro name ⟨sender, found⟩
    simp [Schedule.initial] at found
  awaited := by
    intro index task _ rest unmet
    simp [Schedule.initial, Phase.unmet] at unmet

/-- Of two tasks of one name only one is ever spawned. -/
theorem unique (ordered : Ordered set before) {first second : Nat} {task other : Task}
    (known : set.packages[first]? = some task) (otherKnown : set.packages[second]? = some other)
    (spawned : before.phase first ≠ .unspawned) (otherSpawned : before.phase second ≠ .unspawned)
    (same : task.packageName = other.packageName) : first = second := by
  have notBefore {low high : Nat} {early late : Task} (isEarly : set.packages[low]? = some early)
      (isLate : set.packages[high]? = some late) (lateSpawned : before.phase high ≠ .unspawned)
      (names : early.packageName = late.packageName) : ¬ low < high := by
    intro below
    have inTake : early ∈ set.packages.take high := by
      rw [List.mem_take_iff_getElem]
      obtain ⟨bound, isHere⟩ := List.getElem?_eq_some_iff.mp isEarly
      exact ⟨low, by omega, isHere⟩
    exact ordered.fresh high late isLate lateSpawned early inTake names
  have noneBelow := notBefore known otherKnown otherSpawned same
  have noneAbove := notBefore otherKnown known spawned same.symm
  omega

theorem done_kept (ordered : Ordered set before) (effect : Schedule.Effect set before after)
    {name : Bytes} (isDone : before.Done name) : after.Done name := by
  obtain ⟨sender, found⟩ := isDone
  cases effect with
  | opened wasRoots =>
      obtain ⟨index, _, _, _, returned⟩ := ordered.done name ⟨sender, found⟩
      have unspawned := ordered.ahead index (by rw [wasRoots]; exact trivial)
      rw [unspawned] at returned
      simp at returned
  | sent index task result state known stage was isDone phase channels =>
      by_cases here : name = task.packageName
      · -- The channel is sent to once, by the one future of that name.
        obtain ⟨other, otherTask, otherKnown, sameName, returned⟩ :=
          ordered.done name ⟨sender, found⟩
        have same : index = other := by
          apply ordered.unique known otherKnown
          · rcases was with finished | ⟨skipping, _⟩
            · simp [finished]
            · simp [skipping]
          · simp [returned]
          · rw [sameName, here]
        subst other
        rw [returned] at was
        simp at was
      · refine ⟨sender, ?_⟩
        rw [channels, Function.update_of_ne here, found]
  | dropped index task known stage was phase channels =>
      by_cases here : name = task.packageName
      · subst here
        refine ⟨false, ?_⟩
        rw [channels, Function.update_self, found]
        rfl
      · refine ⟨sender, ?_⟩
        rw [channels, Function.update_of_ne here, found]
  | control _ _ channels => exact ⟨sender, by rw [channels, found]⟩
  | spawned _ _ _ _ _ _ _ channels => exact ⟨sender, by rw [channels, found]⟩
  | received _ _ _ _ _ _ _ _ channels => exact ⟨sender, by rw [channels, found]⟩
  | skipped _ _ _ _ _ _ channels => exact ⟨sender, by rw [channels, found]⟩
  | started _ _ _ _ channels => exact ⟨sender, by rw [channels, found]⟩
  | finished _ _ _ _ _ channels => exact ⟨sender, by rw [channels, found]⟩

theorem moved (ordered : Ordered set before) (effect : Schedule.Effect set before after)
    {index : Nat} {phase : Phase} (stage : after.stage = before.stage)
    (wasSpawned : before.phase index ≠ .unspawned)
    (notOk : before.phase index ≠ .returned (.ok ()))
    (isPhase : after.phase = Function.update before.phase index phase)
    (newDone : ∀ name, after.Done name → before.Done name ∨
      phase = .returned (.ok ()) ∧ ∃ task, set.packages[index]? = some task ∧
        task.packageName = name)
    (unmet : ∀ task, set.packages[index]? = some task → ∀ rest, phase.unmet = some rest →
      ∀ dep ∈ task.depPackageNames, set.hasTask dep = true → dep ∈ rest ∨ after.Done dep) :
    Ordered set after where
  ahead := by
    intro other isAhead
    have unspawned := ordered.ahead other (stage ▸ isAhead)
    have differ : other ≠ index := by
      rintro rfl
      exact wasSpawned unspawned
    rw [isPhase, Function.update_of_ne differ, unspawned]
  fresh := by
    intro other task known spawned
    apply ordered.fresh other task known
    by_cases here : other = index
    · rw [here]
      exact wasSpawned
    · rwa [isPhase, Function.update_of_ne here] at spawned
  done := by
    intro name isDone
    rcases newDone name isDone with wasDone | ⟨returned, task, known, isName⟩
    · obtain ⟨other, task, known, isName, returned⟩ := ordered.done name wasDone
      refine ⟨other, task, known, isName, ?_⟩
      have differ : other ≠ index := by
        rintro rfl
        exact notOk returned
      rw [isPhase, Function.update_of_ne differ, returned]
    · refine ⟨index, task, known, isName, ?_⟩
      rw [isPhase, Function.update_self, returned]
  awaited := by
    intro other task known rest isUnmet dep member tasked
    by_cases here : other = index
    · subst other
      rw [isPhase, Function.update_self] at isUnmet
      exact unmet task known rest isUnmet dep member tasked
    · rw [isPhase, Function.update_of_ne here] at isUnmet
      exact (ordered.awaited other task known rest isUnmet dep member tasked).imp id
        fun isDone => ordered.done_kept effect isDone

theorem done_of_channels {name : Bytes} (channels : after.channels = before.channels)
    (isDone : after.Done name) : before.Done name := by
  unfold Schedule.Done at isDone ⊢
  rwa [channels] at isDone

theorem stayed (ordered : Ordered set before)
    (ahead : ∀ index, after.stage.ahead index → before.stage.ahead index)
    (phase : after.phase = before.phase) (same : ∀ name, after.Done name ↔ before.Done name) :
    Ordered set after where
  ahead := by
    intro index isAhead
    rw [phase]
    exact ordered.ahead index (ahead index isAhead)
  fresh := by
    rw [phase]
    exact ordered.fresh
  done := by
    intro name isDone
    rw [phase]
    exact ordered.done name ((same name).mp isDone)
  awaited := by
    intro index task known rest unmet dep member tasked
    rw [phase] at unmet
    rw [same]
    exact ordered.awaited index task known rest unmet dep member tasked

theorem spawn (ordered : Ordered set before) {index : Nat} {task : Task}
    (known : set.packages[index]? = some task) (wasAhead : before.stage.ahead index)
    (ahead : ∀ other, after.stage.ahead other → before.stage.ahead other ∧ other ≠ index)
    (fresh : ∀ other ∈ set.packages.take index, other.packageName ≠ task.packageName)
    (phase : after.phase = Function.update before.phase index
      (.waiting (task.depPackageNames.filter set.hasTask)))
    (channels : after.channels = before.channels) : Ordered set after where
  ahead := by
    intro other isAhead
    obtain ⟨wasToo, differ⟩ := ahead other isAhead
    rw [phase, Function.update_of_ne differ]
    exact ordered.ahead other wasToo
  fresh := by
    intro other otherTask otherKnown spawned
    by_cases here : other = index
    · subst other
      obtain rfl : task = otherTask := Option.some.inj (known.symm.trans otherKnown)
      exact fresh
    · rw [phase, Function.update_of_ne here] at spawned
      exact ordered.fresh other otherTask otherKnown spawned
  done := by
    intro name isDone
    obtain ⟨other, otherTask, otherKnown, isName, returned⟩ :=
      ordered.done name (done_of_channels channels isDone)
    have differ : other ≠ index := by
      rintro rfl
      rw [ordered.ahead other wasAhead] at returned
      simp at returned
    refine ⟨other, otherTask, otherKnown, isName, ?_⟩
    rw [phase, Function.update_of_ne differ, returned]
  awaited := by
    intro other otherTask otherKnown rest unmet dep member tasked
    by_cases here : other = index
    · subst other
      obtain rfl : task = otherTask := Option.some.inj (known.symm.trans otherKnown)
      rw [phase, Function.update_self, Phase.unmet, Option.some.injEq] at unmet
      rw [← unmet]
      exact Or.inl (List.mem_filter.mpr ⟨member, tasked⟩)
    · rw [phase, Function.update_of_ne here] at unmet
      have met := ordered.awaited other otherTask otherKnown rest unmet dep member tasked
      unfold Schedule.Done at met ⊢
      rwa [channels]

theorem opened (ordered : Ordered set before) (wasRoots : before.stage = .roots)
    (phase : after.phase = before.phase) (channels : after.channels = Schedule.openChannels set) :
    Ordered set after := by
  have unspawned (index : Nat) : before.phase index = .unspawned :=
    ordered.ahead index (by rw [wasRoots]; trivial)
  have noneBefore (name : Bytes) : ¬ before.Done name := by
    intro isDone
    obtain ⟨index, _, _, _, returned⟩ := ordered.done name isDone
    rw [unspawned index] at returned
    simp at returned
  have noneAfter (name : Bytes) : ¬ after.Done name := by
    rintro ⟨sender, found⟩
    rw [channels, Schedule.openChannels] at found
    split at found
    · simp at found
    · simp at found
  apply ordered.stayed
  · intro index _
    rw [wasRoots]
    trivial
  · exact phase
  · intro name
    exact iff_of_false (noneAfter name) (noneBefore name)

theorem sent (ordered : Ordered set before) (effect : Schedule.Effect set before after)
    {index : Nat} {task : Task} {result : TaskResult} {state : DepState}
    (known : set.packages[index]? = some task) (stage : after.stage = before.stage)
    (was : before.phase index = .finished result ∨
      before.phase index = .skipping ∧ result ≠ .ok ())
    (isDone : state = .done ↔ result = .ok ())
    (phase : after.phase = Function.update before.phase index (.returned result))
    (channels : after.channels =
      Function.update before.channels task.packageName (some ⟨state, false⟩)) :
    Ordered set after := by
  apply ordered.moved effect stage ?_ ?_ phase
  · rintro name ⟨sender, found⟩
    rw [channels] at found
    by_cases here : name = task.packageName
    · subst here
      rw [Function.update_self] at found
      right
      have sentDone : state = .done := by
        injection found with same
        injection same
      exact ⟨by rw [isDone.mp sentDone], task, known, rfl⟩
    · rw [Function.update_of_ne here] at found
      exact Or.inl ⟨sender, found⟩
  · intro own ownKnown rest unmet dep member tasked
    obtain ⟨⟩ | error := result
    · simp [Phase.unmet] at unmet
    · obtain rfl := Option.some.inj unmet
      have finished : before.phase index = .finished (.ok ()) := by simpa using was
      exact (ordered.awaited index own ownKnown [] (by rw [finished]; rfl) dep member tasked).imp
        id fun wasDone => ordered.done_kept effect wasDone
  · rcases was with finished | ⟨skipping, _⟩
    · simp [finished]
    · simp [skipping]
  · rcases was with finished | ⟨skipping, _⟩
    · simp [finished]
    · simp [skipping]

theorem dropped (ordered : Ordered set before) (effect : Schedule.Effect set before after)
    {index : Nat} {task : Task} (stage : after.stage = before.stage)
    (was : before.phase index = .running ∨ ∃ rest, before.phase index = .waiting rest)
    (phase : after.phase = Function.update before.phase index .dropped)
    (channels : after.channels = Function.update before.channels task.packageName
      ((before.channels task.packageName).map fun channel => { channel with sender := false })) :
    Ordered set after := by
  apply ordered.moved effect stage ?_ ?_ phase
  · rintro name ⟨sender, found⟩
    rw [channels] at found
    left
    by_cases here : name = task.packageName
    · subst here
      rw [Function.update_self] at found
      obtain ⟨⟨value, own⟩, wasThere, same⟩ := Option.map_eq_some_iff.mp found
      obtain ⟨rfl, _⟩ := Channel.mk.inj same
      exact ⟨own, wasThere⟩
    · rw [Function.update_of_ne here] at found
      exact ⟨sender, found⟩
  · intro own ownKnown rest unmet
    simp [Phase.unmet] at unmet
  · rcases was with running | ⟨rest, waiting⟩
    · simp [running]
    · simp [waiting]
  · rcases was with running | ⟨rest, waiting⟩
    · simp [running]
    · simp [waiting]

theorem step (ordered : Ordered set before) (effect : Schedule.Effect set before after) :
    Ordered set after := by
  have kept (name : Bytes) (isDone : before.Done name) : after.Done name :=
    ordered.done_kept effect isDone
  have whole := effect
  cases effect with
  | control ahead phase channels =>
      apply ordered.stayed ahead phase
      intro name
      exact ⟨done_of_channels channels, kept name⟩
  | opened wasRoots phase channels => exact ordered.opened wasRoots phase channels
  | spawned index task known wasAhead ahead fresh phase channels =>
      exact ordered.spawn known wasAhead ahead fresh phase channels
  | received index dep rest sender stage waited isDone phase channels =>
      apply ordered.moved whole stage (by simp [waited]) (by simp [waited]) phase
      · intro name nowDone
        exact Or.inl (done_of_channels channels nowDone)
      intro task known left unmet other member tasked
      obtain rfl := Option.some.inj unmet
      rcases ordered.awaited index task known _ (by rw [waited]; rfl) other member tasked with
        unknown | wasDone
      · rcases List.mem_cons.mp unknown with rfl | later
        · exact Or.inr (kept other ⟨sender, isDone⟩)
        · exact Or.inl later
      · exact Or.inr (kept other wasDone)
  | skipped index dep rest stage waited phase channels =>
      apply ordered.moved whole stage (by simp [waited]) (by simp [waited]) phase
      · intro name nowDone
        exact Or.inl (done_of_channels channels nowDone)
      intro task known left unmet
      simp [Phase.unmet] at unmet
  | started index stage waited phase channels =>
      apply ordered.moved whole stage (by simp [waited]) (by simp [waited]) phase
      · intro name nowDone
        exact Or.inl (done_of_channels channels nowDone)
      intro task known left unmet dep member tasked
      obtain rfl := Option.some.inj unmet
      exact (ordered.awaited index task known [] (by rw [waited]; rfl) dep member tasked).imp id
        (kept dep)
  | finished index result stage ran phase channels =>
      apply ordered.moved whole stage (by simp [ran]) (by simp [ran]) phase
      · intro name nowDone
        exact Or.inl (done_of_channels channels nowDone)
      intro task known left unmet dep member tasked
      obtain rfl := Option.some.inj unmet
      exact (ordered.awaited index task known [] (by rw [ran]; rfl) dep member tasked).imp id
        (kept dep)
  | sent index task result state known stage was isDone phase channels =>
      exact ordered.sent whole known stage was isDone phase channels
  | dropped index task known stage was phase channels =>
      exact ordered.dropped whole stage was phase channels

theorem reachable {schedule : Schedule} (reached : Schedule.Reachable set schedule) :
    Ordered set schedule := by
  induction reached with
  | initial => exact initial set
  | step event reached taken ih => exact ih.step (Schedule.step_effect taken)

theorem done_along {schedule : Schedule} (ordered : Ordered set schedule)
    {dependsOn : Bytes → Bytes → Prop}
    (carried : ∀ task ∈ set.packages, ∀ dep, dependsOn task.packageName dep →
      dep ∈ task.depPackageNames)
    {package dep : Bytes}
    (path : Relation.TransGen (fun package dep => dependsOn package dep ∧ set.hasTask dep = true)
      package dep) :
    ∀ (index : Nat) (task : Task), set.packages[index]? = some task →
      task.packageName = package → (schedule.phase index).unmet = some [] →
        schedule.Done dep := by
  have direct {package next : Bytes} (edge : dependsOn package next)
      (tasked : set.hasTask next = true) {index : Nat} {task : Task}
      (known : set.packages[index]? = some task) (isName : task.packageName = package)
      (unmet : (schedule.phase index).unmet = some []) : schedule.Done next := by
    have listed : next ∈ task.depPackageNames := by
      apply carried task (List.mem_of_getElem? known)
      rw [isName]
      exact edge
    rcases ordered.awaited index task known [] unmet next listed tasked with left | isDone
    · exact absurd left List.not_mem_nil
    · exact isDone
  induction path using Relation.TransGen.head_induction_on with
  | single edge =>
      intro index task known isName unmet
      exact direct edge.1 edge.2 known isName unmet
  | head edge _ ih =>
      intro index task known isName unmet
      obtain ⟨other, otherTask, otherKnown, otherName, returned⟩ :=
        ordered.done _ (direct edge.1 edge.2 known isName unmet)
      exact ih other otherTask otherKnown otherName (by rw [returned]; rfl)

end Ordered

/-- A task starts after every package that it depends on through packages with tasks. -/
theorem started_after_dependencies (petgraph : Petgraph)
    (parseScript : Bytes → Bytes → Option Bytes) (plugins : List TaskPlugin) (fs : FileSystem)
    (workspaceRoot : Path) (dag : WorkspaceDag) (script : Bytes) (config : RageConfig)
    (tasks : List Task)
    (built : buildTaskListWithConfig petgraph parseScript plugins fs workspaceRoot dag script
      config = .ok tasks)
    (scope : Bytes → Bool) (abortOnPanic : Bool) (schedule next : Schedule)
    (reached : Schedule.Reachable (.ofTasks (retainScope scope tasks) abortOnPanic) schedule)
    (index : Nat) (task : Task)
    (known : (TaskSet.ofTasks (retainScope scope tasks) abortOnPanic).packages[index]? = some task)
    (started : schedule.step (.ofTasks (retainScope scope tasks) abortOnPanic) (.start index) =
      some next)
    (dep : Bytes)
    (path : Relation.TransGen (fun package dep => dag.DependsOn package dep ∧
      (TaskSet.ofTasks (retainScope scope tasks) abortOnPanic).hasTask dep = true)
      task.packageName dep) :
    ∃ (other : Nat) (depTask : Task),
      (TaskSet.ofTasks (retainScope scope tasks) abortOnPanic).packages[other]? = some depTask ∧
        depTask.packageName = dep ∧ schedule.phase other = .returned (.ok ()) := by
  have ordered := Ordered.reachable reached
  obtain ⟨waited, _⟩ := Option.ite_none_right_eq_some.mp started
  apply ordered.done
  refine ordered.done_along ?_ path index task known rfl (by rw [waited]; rfl)
  rintro own member dep ⟨manifest, isManifest, listed⟩
  obtain ⟨inList, isPackage⟩ := List.mem_filter.mp member
  obtain ⟨package, isPackageOf, same⟩ :=
    buildTaskList_dependencies built (retainScope_mem inList) (by simpa using isPackage)
  obtain rfl := Option.some.inj (isManifest.symm.trans isPackageOf)
  rw [same]
  exact listed

/-! A chain of three packages whose middle one need not have the script. -/

namespace MissingScript

def remaining (edges : List (Nat × Nat)) : Nat → List Nat → Except Nat (List Nat)
  | 0, _ => .ok []
  | fuel + 1, left =>
      match left.find? fun node => left.all fun other => !edges.contains (other, node), left with
      | some node, _ => (remaining edges fuel (left.erase node)).map (node :: ·)
      | none, [] => .ok []
      | none, node :: _ => .error node

def petgraph : Petgraph where
  toposort := fun nodes edges => remaining edges nodes (List.range nodes)

def package (name : String) (dependencies : List String) : Package where
  name := utf8 name
  version := utf8 "1.0.0"
  path := utf8 ("/ws/" ++ name)
  dependencies := dependencies.map utf8

def packages : List Package := [package "app" ["lib"], package "lib" ["core"], package "core" []]

def withScript : Bytes := utf8 "\x7b\"scripts\":\x7b\"build\":\"tsc\"\x7d\x7d"

def withoutScript : Bytes := utf8 "\x7b\x7d"

def parseScript (raw script : Bytes) : Option Bytes :=
  if raw = withScript ∧ script = utf8 "build" then some (utf8 "tsc") else none

def disk (library : Bytes) : FileSystem :=
  ⟨[(components (utf8 "/ws/app/package.json"), ⟨.file withScript true, false⟩),
    (components (utf8 "/ws/lib/package.json"), ⟨.file library true, false⟩),
    (components (utf8 "/ws/core/package.json"), ⟨.file withScript true, false⟩)]⟩

def dag : WorkspaceDag where
  nodes := packages.map Package.name
  edges := [(0, 1), (1, 2)]
  packages := WorkspaceDag.packageMap packages

theorem isDag : WorkspaceDag.buildDag petgraph packages = .ok dag := rfl

def config : RageConfig := ⟨fun _ => [], fun _ => .strict⟩

def task (name : String) (dependencies : List String) : Task :=
  packageTask [] (disk []) (utf8 "/ws") (utf8 name) (package name dependencies) (utf8 "build")
    (utf8 "tsc")

def chain : List Task := [task "core" [], task "lib" ["core"], task "app" ["lib"]]

def ends : List Task := [task "core" [], task "app" ["lib"]]

theorem builtChain : buildTaskListWithConfig petgraph parseScript [] (disk withScript) (utf8 "/ws")
    dag (utf8 "build") config = .ok chain := by
  decide +kernel

theorem builtEnds : buildTaskListWithConfig petgraph parseScript [] (disk withoutScript)
    (utf8 "/ws") dag (utf8 "build") config = .ok ends := by
  decide +kernel

def set (tasks : List Task) : TaskSet := .ofTasks (retainScope (fun _ => true) tasks) true

def opened : List SchedulerEvent := [.enterPackages, .spawn, .spawn, .spawn]

def chainRun : List SchedulerEvent :=
  opened ++ [.start 0, .finish 0 (.ok ()), .send 0, .poll 1, .start 1, .finish 1 (.ok ()), .send 1,
    .poll 2]

theorem reaches (tasks : List Task) (events : List SchedulerEvent) (index : Nat)
    (enabled : ((Schedule.run (set tasks) events).bind fun schedule =>
      schedule.step (set tasks) (.start index)).isSome = true) :
    ∃ schedule next, Schedule.run (set tasks) events = some schedule ∧
      Schedule.Reachable (set tasks) schedule ∧
      schedule.step (set tasks) (.start index) = some next := by
  obtain ⟨next, started⟩ := Option.isSome_iff_exists.mp enabled
  obtain ⟨schedule, ran, taken⟩ := Option.bind_eq_some_iff.mp started
  exact ⟨schedule, next, ran, Schedule.run_reachable ran, taken⟩

theorem distinct : (packages.map Package.name).Nodup := by decide

theorem appNeedsLib : dag.DependsOn (utf8 "app") (utf8 "lib") :=
  WorkspaceDag.dependsOn_of_edge isDag distinct 0 1 (by decide) rfl rfl

theorem libNeedsCore : dag.DependsOn (utf8 "lib") (utf8 "core") :=
  WorkspaceDag.dependsOn_of_edge isDag distinct 1 2 (by decide) rfl rfl

end MissingScript

theorem started_after_dependencies_chain :
    ∃ schedule, Schedule.run (MissingScript.set MissingScript.chain) MissingScript.chainRun =
        some schedule ∧
      ∃ (other : Nat) (depTask : Task),
        (MissingScript.set MissingScript.chain).packages[other]? = some depTask ∧
          depTask.packageName = utf8 "core" ∧ schedule.phase other = .returned (.ok ()) := by
  obtain ⟨schedule, next, ran, reached, started⟩ :=
    MissingScript.reaches MissingScript.chain MissingScript.chainRun 2 (by decide +kernel)
  refine ⟨schedule, ran, ?_⟩
  apply started_after_dependencies MissingScript.petgraph MissingScript.parseScript []
    (MissingScript.disk MissingScript.withScript) (utf8 "/ws") MissingScript.dag (utf8 "build")
    MissingScript.config MissingScript.chain MissingScript.builtChain (fun _ => true) true schedule
    next reached 2 (MissingScript.task "app" ["lib"]) (by decide +kernel) started
  apply Relation.TransGen.tail (b := utf8 "lib")
  · exact .single ⟨MissingScript.appNeedsLib, by decide +kernel⟩
  · exact ⟨MissingScript.libNeedsCore, by decide +kernel⟩

/-- The middle package has no script: the task of the last one starts at once. -/
theorem order_lost_without_script :
    ¬ ∀ (petgraph : Petgraph) (parseScript : Bytes → Bytes → Option Bytes)
      (plugins : List TaskPlugin) (fs : FileSystem) (workspaceRoot : Path)
      (packages : List Package) (dag : WorkspaceDag) (script : Bytes) (config : RageConfig)
      (tasks : List Task),
      WorkspaceDag.buildDag petgraph packages = .ok dag →
      buildTaskListWithConfig petgraph parseScript plugins fs workspaceRoot dag script config =
        .ok tasks →
      ∀ (scope : Bytes → Bool) (abortOnPanic : Bool) (schedule next : Schedule),
        Schedule.Reachable (.ofTasks (retainScope scope tasks) abortOnPanic) schedule →
        ∀ (index : Nat) (task : Task),
          (TaskSet.ofTasks (retainScope scope tasks) abortOnPanic).packages[index]? = some task →
          schedule.step (.ofTasks (retainScope scope tasks) abortOnPanic) (.start index) =
            some next →
          ∀ dep, Relation.TransGen dag.DependsOn task.packageName dep →
            (TaskSet.ofTasks (retainScope scope tasks) abortOnPanic).hasTask dep = true →
            ∃ (other : Nat) (depTask : Task),
              (TaskSet.ofTasks (retainScope scope tasks) abortOnPanic).packages[other]? =
                  some depTask ∧
                depTask.packageName = dep ∧ schedule.phase other = .returned (.ok ()) := by
  intro claimed
  obtain ⟨schedule, next, ran, reached, started⟩ :=
    MissingScript.reaches MissingScript.ends MissingScript.opened 1 (by decide +kernel)
  have path : Relation.TransGen MissingScript.dag.DependsOn (utf8 "app") (utf8 "core") :=
    .tail (.single MissingScript.appNeedsLib) MissingScript.libNeedsCore
  obtain ⟨other, depTask, known, isCore, returned⟩ :=
    claimed MissingScript.petgraph MissingScript.parseScript []
      (MissingScript.disk MissingScript.withoutScript) (utf8 "/ws") MissingScript.packages
      MissingScript.dag (utf8 "build") MissingScript.config MissingScript.ends MissingScript.isDag
      MissingScript.builtEnds (fun _ => true) true schedule next reached 1
      (MissingScript.task "app" ["lib"]) (by decide +kernel) started (utf8 "core") path
      (by decide +kernel)
  have noneReturned : ∀ other < 2, (Schedule.run (MissingScript.set MissingScript.ends)
      MissingScript.opened).map (fun schedule => schedule.phase other) ≠
        some (.returned (.ok ())) := by
    decide +kernel
  have bound : other < 2 := (List.getElem?_eq_some_iff.mp known).1
  apply noneReturned other bound
  rw [ran, Option.map_some, returned]

end Rage
