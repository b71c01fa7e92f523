import Rage.HubVerdict
import Rage.ParallelBuild

/-!
The disk under the hub.  Spokes share the workspace; each runs the command that it is handed, and
reports it.  A build of the hub leaves what a build on one machine leaves.
-/

namespace Rage

/-- `seen` is the disk as the command of a task has last read it. -/
structure HubBuild where
  hub : HubRun
  fs : FileSystem
  seen : Bytes → FileSystem

inductive HubBuildEvent
  | hub (event : HubEvent)
  | read (taskId : Bytes)
  | write (taskId : Bytes) (fs : FileSystem)

def TaskState.status : Option TaskState → Workers.Status
  | some (.dispatched _) => .working
  | some .completed => .done
  | some (.failed _) => .failed
  | _ => .idle

def HubDag.working (dag : HubDag) (taskId : Bytes) : Bool :=
  match dag.states taskId with
  | some (.dispatched _) => true
  | _ => false

/-- A well formed graph can always be driven to the end. -/
theorem HubDag.WellFormed.drivable {nodes : List TaskNode} (formed : HubDag.WellFormed nodes) :
    (HubDag.new nodes).Drivable := by
  rw [HubDag.drivable_iff]
  · intro id task known
    right
    intro dep listed
    obtain ⟨other, member, rfl⟩ := formed.closed task (HubDag.taskMap_spec known).1 dep listed
    exact HubDag.taskMap_isSome member
  · intro id cycle
    have same : Needs nodes ≤ DependsOn nodes := fun _ _ needs => formed.dependsOn_iff.mpr needs
    exact formed.acyclic id (Relation.TransGen.mono same _ _ cycle)

namespace HubBuild

def initial (nodes : List TaskNode) (fs : FileSystem) : HubBuild := ⟨.start nodes, fs, fun _ => fs⟩

/-- A command has read the disk when its task is handed out, and reads and writes it until the
report. -/
def step (build : HubBuild) : HubBuildEvent → Option HubBuild
  | .hub event =>
      (build.hub.step event).map fun next =>
        match event, build.hub.dag.readyQueue with
        | .dispatch _, taskId :: _ =>
            { build with hub := next, seen := Function.update build.seen taskId build.fs }
        | _, _ => { build with hub := next }
  | .read taskId =>
      if build.hub.dag.working taskId then
        some { build with seen := Function.update build.seen taskId build.fs }
      else none
  | .write taskId fs =>
      if build.hub.dag.working taskId then some { build with fs := fs } else none

section

variable (crates : Crates) (commands : Commands) (tasks : List Task) (script : Bytes)

/-- A task is reported once it was handed out, and once; its command writes its own outputs, and when
it succeeds they are what it makes of what it has read. -/
def Allowed (build : HubBuild) : HubBuildEvent → Prop
  | .hub event => build.hub.Owed event ∧
      match event with
      | .complete _ taskId => ∀ task ∈ tasks, hubTaskId script task.packageName = taskId →
          commands.outputs build.fs task = commands.clean crates (build.seen taskId) task
      | _ => True
  | .write taskId fs => ∀ task ∈ tasks, hubTaskId script task.packageName = taskId →
      commands.Own crates tasks task build.fs fs
  | .read _ => True

/-- The graph has a node for each task, which depends on those of its dependencies. -/
structure Graphs (nodes : List TaskNode) : Prop where
  formed : HubDag.WellFormed nodes
  ids : ∀ id, id ∈ nodes.map TaskNode.taskId ↔
    ∃ task ∈ tasks, hubTaskId script task.packageName = id
  depends : ∀ task ∈ tasks, ∀ dep ∈ task.depPackageNames, dep ∈ tasks.map Task.packageName →
    HubDag.DependsOn nodes (hubTaskId script task.packageName) (hubTaskId script dep)

end

def workers (script : Bytes) (build : HubBuild) : Workers.State Bytes FileSystem where
  status := fun name => TaskState.status (build.hub.dag.states (hubTaskId script name))
  store := build.fs
  seen := build.seen ∘ hubTaskId script

variable {crates : Crates} {commands : Commands} {tasks : List Task} {script : Bytes}
  {nodes : List TaskNode} {build next : HubBuild}

theorem working_iff {taskId : Bytes} : build.hub.dag.working taskId = true ↔
    TaskState.status (build.hub.dag.states taskId) = .working := by
  cases known : build.hub.dag.states taskId with
  | none => simp [HubDag.working, TaskState.status, known]
  | some state => cases state <;> simp [HubDag.working, TaskState.status, known]

/-- The tasks of the graph are those of the workers. -/
theorem Graphs.named (graphs : Graphs tasks script nodes) (tracked : build.hub.Tracked nodes)
    {taskId : Bytes} {state : TaskState} (known : build.hub.dag.states taskId = some state) :
    ∃ task ∈ tasks, hubTaskId script task.packageName = taskId := by
  obtain ⟨node, isNode⟩ := tracked.exists_task known
  obtain ⟨member, rfl⟩ := HubDag.taskMap_spec isNode
  exact (graphs.ids _).mp (List.mem_map_of_mem member)

theorem Graphs.named_of_working (graphs : Graphs tasks script nodes)
    (tracked : build.hub.Tracked nodes) {taskId : Bytes}
    (working : build.hub.dag.working taskId = true) :
    ∃ task ∈ tasks, hubTaskId script task.packageName = taskId := by
  unfold HubDag.working at working
  split at working
  · rename_i worker known
    exact graphs.named tracked known
  · simp at working

/-- Graphs that agree in their tasks and in their order have the nodes that the tasks ask for. -/
theorem graphs_of_agrees {workspaceRoot : Path} (abortOnPanic : Bool)
    (formed : HubDag.WellFormed nodes)
    (named : ∀ node ∈ nodes, node.taskId = hubTaskId script node.packageName)
    (agrees : AgreesWith workspaceRoot script tasks (.new nodes)) :
    Graphs (TaskSet.ofTasks tasks abortOnPanic).packages script nodes where
  formed := formed
  ids := by
    intro id
    rw [List.mem_map]
    constructor
    · rintro ⟨node, member, rfl⟩
      obtain ⟨task, isTask, notRoot, same⟩ :=
        (agrees.same node.item).mp ⟨_, node, formed.taskMap_of_mem member, rfl⟩
      refine ⟨task, ?_, ?_⟩
      · simp [TaskSet.ofTasks, isTask, notRoot]
      · have sameName : task.packageName = node.packageName := congrArg Prod.fst same
        rw [named node member, sameName]
    · rintro ⟨task, member, rfl⟩
      obtain ⟨isTask, notRoot⟩ := List.mem_filter.mp member
      obtain ⟨id, node, known, same⟩ :=
        (agrees.same (task.item workspaceRoot)).mpr ⟨task, isTask, by simpa using notRoot, rfl⟩
      obtain ⟨isNode, rfl⟩ := HubDag.taskMap_spec known
      refine ⟨node, isNode, ?_⟩
      have sameName : node.packageName = task.packageName := congrArg Prod.fst same
      rw [named node isNode, sameName]
  depends := by
    intro task member dep listed tasked
    obtain ⟨other, isTask, isDep⟩ := List.mem_map.mp tasked
    have edge : (TaskSet.ofTasks tasks true).Edge task.packageName dep :=
      ⟨task, member, rfl, listed, List.any_eq_true.mpr ⟨other, isTask, by simp [isDep]⟩⟩
    obtain ⟨node, known, needs, -⟩ := (agrees.order _ _).mpr edge
    exact formed.dependsOn_iff.mpr ⟨node, known, needs⟩

theorem seen_update (seen : Bytes → FileSystem) (name : Bytes) (fs : FileSystem) :
    Function.update seen (hubTaskId script name) fs ∘ hubTaskId script =
      Function.update (seen ∘ hubTaskId script) name fs :=
  Function.update_comp_eq_of_injective seen (fun _ _ => hubTaskId_injective) name fs

variable {covered : commands.Covered tasks} {given : FileSystem}

theorem simulated_dispatch (graphs : Graphs tasks script nodes) (tracked : build.hub.Tracked nodes)
    {worker taskId : Bytes} {rest : List Bytes}
    (isQueue : build.hub.dag.readyQueue = taskId :: rest)
    (reached : Workers.Reachable (commands.plan crates tasks covered) given
      (build.workers script)) :
    Workers.Reachable (commands.plan crates tasks covered) given
      { status := fun name => TaskState.status
          ((build.hub.dag.dispatchNext worker).1.states (hubTaskId script name))
        store := build.fs
        seen := Function.update build.seen taskId build.fs ∘ hubTaskId script } := by
  have orderly := tracked.handed.orderly
  have ready := (orderly.queued taskId).mp (by rw [isQueue]; exact List.mem_cons_self)
  obtain ⟨task, member, rfl⟩ := graphs.named tracked ready
  have started := Workers.Reachable.step reached (.start task.packageName
    (by simp only [workers, ready, TaskState.status])
    (by
      rintro dep ⟨tasked, planned, isPlanned, listed⟩
      obtain ⟨inTasks, sameName⟩ := planned_spec isPlanned
      have depends := graphs.depends planned inTasks dep listed tasked
      rw [sameName] at depends
      obtain ⟨node, isNode, needs⟩ := graphs.formed.dependsOn_iff.mp depends
      obtain ⟨own, isOwn, allDone⟩ := orderly.enabled _ ready
      rw [tracked.tasks, isNode] at isOwn
      obtain rfl := Option.some.inj isOwn
      simp only [workers, HubDag.allDone_iff.mp allDone _ needs, TaskState.status]))
  have status : (fun name => TaskState.status
      ((build.hub.dag.dispatchNext worker).1.states (hubTaskId script name))) =
      Function.update (build.workers script).status task.packageName .working := by
    funext name
    rw [HubDag.dispatchNext_states isQueue]
    by_cases here : name = task.packageName
    · subst here
      rw [if_pos rfl, Function.update_self]
      rfl
    · rw [if_neg fun same => here (hubTaskId_injective same), Function.update_of_ne here]
      rfl
  rw [status, seen_update]
  exact started

theorem simulated_complete (graphs : Graphs tasks script nodes) (tracked : build.hub.Tracked nodes)
    {order : HashOrder} {taskId : Bytes}
    (allowed : Allowed crates commands tasks script build (.hub (.complete order taskId)))
    (reached : Workers.Reachable (commands.plan crates tasks covered) given
      (build.workers script)) :
    Workers.Reachable (commands.plan crates tasks covered) given
      { build.workers script with
        status := fun name => TaskState.status
          ((build.hub.dag.markComplete order taskId).1.states (hubTaskId script name)) } := by
  obtain ⟨owed, made⟩ := allowed
  obtain ⟨worker, known⟩ := tracked.outstanding_of_owed owed
  obtain ⟨task, member, rfl⟩ := graphs.named tracked known
  have finished := Workers.Reachable.step reached (.finish task.packageName
    (by simp only [workers, known, TaskState.status])
    (by
      simp only [Commands.plan]
      cases isPlanned : planned tasks task.packageName with
      | none => rfl
      | some own =>
          obtain ⟨inTasks, sameName⟩ := planned_spec isPlanned
          have isMade := made own inTasks (by rw [sameName])
          simp only [Option.map_some, Option.some.injEq]
          exact isMade))
  have status : (fun name => TaskState.status
      ((build.hub.dag.markComplete order (hubTaskId script task.packageName)).1.states
        (hubTaskId script name))) =
      Function.update (build.workers script).status task.packageName .done := by
    funext name
    have unblocked := build.hub.dag.markComplete_unblocked order (hubTaskId script task.packageName)
    rw [unblocked.states]
    split
    · rename_i entered
      obtain ⟨differ, pending⟩ := HubDag.markComplete_entered entered
      rw [Function.update_of_ne fun same => differ (by rw [same])]
      simp only [workers, pending, TaskState.status]
    · rw [HubDag.insertState_states]
      by_cases here : name = task.packageName
      · subst here
        rw [if_pos rfl, Function.update_self]
        rfl
      · rw [if_neg fun same => here (hubTaskId_injective same), Function.update_of_ne here]
        rfl
  rw [status]
  exact finished

/-- A report of a failure fails the task, and tasks that are open. -/
theorem simulated_fail (tracked : build.hub.Tracked nodes) {order : HashOrder}
    {taskId error : Bytes} (owed : build.hub.Owed (.fail order taskId error))
    (reached : Workers.Reachable (commands.plan crates tasks covered) given
      (build.workers script)) :
    Workers.Reachable (commands.plan crates tasks covered) given
      { build.workers script with
        status := fun name => TaskState.status
          ((build.hub.dag.markFailed order taskId error).1.states (hubTaskId script name)) } := by
  obtain ⟨worker, known⟩ := tracked.outstanding_of_owed owed
  have reported := HubDag.markFailed_reported tracked.handed.orderly.keyed order taskId error
  refine .step reached (.fail _ fun name => ?_)
  by_cases here : hubTaskId script name = taskId
  · refine Or.inr ⟨?_, ?_⟩
    · simp [workers, here, known, TaskState.status]
    · rw [here, reported.reported]
      rfl
  · rcases reported.states _ here with same | ⟨unsettled, failed, -⟩
    · exact Or.inl (by rw [same]; rfl)
    · refine Or.inr ⟨fun done => unsettled ?_, ?_⟩
      · unfold HubDag.Settled
        revert done
        simp only [workers]
        cases build.hub.dag.states (hubTaskId script name) with
        | none => simp [TaskState.status]
        | some state => cases state with
          | completed => simp [TaskState.settled]
          | _ => simp [TaskState.status]
      · obtain ⟨state, isState, isFailed⟩ := (Option.any_eq_true ..).mp failed
        rw [isState]
        cases state with
        | failed text => rfl
        | _ => simp [TaskState.isFailed] at isFailed

theorem hub_step {event : HubBuildEvent} (tracked : build.hub.Tracked nodes)
    (formed : HubDag.WellFormed nodes)
    (allowed : Allowed crates commands tasks script build event)
    (taken : build.step event = some next) : next.hub.Tracked nodes := by
  cases event with
  | hub event =>
      obtain ⟨after, stepped, rfl⟩ := Option.map_eq_some_iff.mp taken
      have here := tracked.step formed allowed.1 stepped
      split
      · exact here
      · exact here
  | read taskId =>
      obtain ⟨-, isNext⟩ := Option.ite_none_right_eq_some.mp taken
      obtain rfl := Option.some.inj isNext
      exact tracked
  | write taskId fs =>
      obtain ⟨-, isNext⟩ := Option.ite_none_right_eq_some.mp taken
      obtain rfl := Option.some.inj isNext
      exact tracked

/-- The builds of the hub are runs of the workers. -/
theorem simulated_step (graphs : Graphs tasks script nodes) (tracked : build.hub.Tracked nodes)
    {event : HubBuildEvent} (allowed : Allowed crates commands tasks script build event)
    (taken : build.step event = some next)
    (reached : Workers.Reachable (commands.plan crates tasks covered) given
      (build.workers script)) :
    Workers.Reachable (commands.plan crates tasks covered) given (next.workers script) := by
  cases event with
  | hub event =>
      obtain ⟨after, stepped, rfl⟩ := Option.map_eq_some_iff.mp taken
      cases event with
      | dispatch worker =>
          obtain rfl := Option.some.inj stepped
          cases isQueue : build.hub.dag.readyQueue with
          | nil =>
              have same : build.hub.dag.dispatchNext worker = (build.hub.dag, none) := by
                simp [HubDag.dispatchNext, isQueue]
              simp only [workers, same]
              exact reached
          | cons taskId rest =>
              exact simulated_dispatch graphs tracked isQueue reached
      | complete order taskId =>
          obtain rfl := Option.some.inj stepped
          exact simulated_complete graphs tracked allowed reached
      | fail order taskId error =>
          obtain rfl := Option.some.inj stepped
          exact simulated_fail tracked allowed.1 reached
  | read taskId =>
      obtain ⟨working, isNext⟩ := Option.ite_none_right_eq_some.mp taken
      obtain rfl := Option.some.inj isNext
      obtain ⟨task, member, rfl⟩ := graphs.named_of_working tracked working
      have read := Workers.Reachable.step reached (.read task.packageName (working_iff.mp working))
      simp only [workers, seen_update]
      exact read
  | write taskId fs =>
      obtain ⟨working, isNext⟩ := Option.ite_none_right_eq_some.mp taken
      obtain rfl := Option.some.inj isNext
      obtain ⟨task, member, rfl⟩ := graphs.named_of_working tracked working
      exact .step reached (.write task.packageName fs (working_iff.mp working)
        ((allowed task member rfl).planned member))

theorem tracked_reachable (formed : HubDag.WellFormed nodes)
    (reached : Machine.Reachable step (Allowed crates commands tasks script) (.initial nodes given)
      build) : build.hub.Tracked nodes := by
  induction reached with
  | refl => exact HubRun.tracked_start formed
  | tail event _ allowed taken ih => exact hub_step ih formed allowed taken

theorem simulated (covered : commands.Covered tasks) (graphs : Graphs tasks script nodes)
    (reached : Machine.Reachable step (Allowed crates commands tasks script) (.initial nodes given)
      build) :
    Workers.Reachable (commands.plan crates tasks covered) given (build.workers script) := by
  induction reached with
  | refl =>
      refine .opened _ (fun name => Or.inl ?_) rfl
      simp only [workers, initial, HubRun.start]
      cases known : (HubDag.new nodes).states (hubTaskId script name) with
      | none => rfl
      | some state =>
          rcases HubDag.new_open known with rfl | rfl
          · rfl
          · rfl
  | tail event reached allowed taken ih =>
      exact simulated_step graphs (tracked_reachable graphs.formed reached) allowed taken ih

/-- Every task of a build that is done and has not failed is done. -/
theorem completed (graphs : Graphs tasks script nodes) (tracked : build.hub.Tracked nodes)
    (done : build.hub.dag.isDone = true) (succeeded : build.hub.dag.hasFailure = false)
    {task : Task} (member : task ∈ tasks) :
    (build.workers script).status task.packageName = .done := by
  obtain ⟨node, isNode, sameId⟩ := List.mem_map.mp ((graphs.ids _).mpr ⟨task, member, rfl⟩)
  have notFailed : ¬ build.hub.dag.Failed node.taskId := by
    intro failed
    rw [(HubDag.hasFailure_iff tracked.handed.orderly.keyed).mpr ⟨_, failed⟩] at succeeded
    simp at succeeded
  have isCompleted := tracked.completed_of_done done isNode notFailed
  rw [sameId] at isCompleted
  simp only [workers, isCompleted, TaskState.status]

end HubBuild

namespace TwoLibraries

def manifest (name : String) : Bytes :=
  utf8 ("\x7b\"scripts\":\x7b\"build\":\"" ++ name ++ "\"\x7d\x7d")

def manifests : FileSystem :=
  ⟨["net", "io", "app"].map fun name =>
    (components (utf8 ("/ws/" ++ name ++ "/package.json")), ⟨.file (manifest name) true, false⟩)⟩

def parseScript (raw script : Bytes) : Option Bytes :=
  if script = utf8 "build" then (["net", "io", "app"].find? (raw == manifest ·)).map utf8 else none

def packages : List Package :=
  [MissingScript.package "net" [], MissingScript.package "io" [],
    MissingScript.package "app" ["net", "io"]]

def hubNodes : List TaskNode :=
  hubTaskNodes parseScript manifests (utf8 "/ws") (utf8 "build") packages

def node (task : Task) : TaskNode where
  taskId := hubTaskId (utf8 "build") task.packageName
  packageName := task.packageName
  scriptName := task.scriptName
  command := task.command
  packagePath := hubPackagePath (utf8 "/ws") task.cwd
  dependsOn := task.depPackageNames.map (hubTaskId (utf8 "build"))

theorem hubNodes_eq : hubNodes = tasks.map node := by decide +kernel

theorem mem_hubNodes {other : TaskNode} :
    other ∈ hubNodes ↔ ∃ task ∈ tasks, node task = other := by
  rw [hubNodes_eq, List.mem_map]

theorem formed : HubDag.WellFormed hubNodes where
  distinct := by decide +kernel
  closed := by decide +kernel
  acyclic := by
    have falls : ∀ node ∈ hubNodes, ∀ dep ∈ node.dependsOn,
        (hubNodes.map TaskNode.taskId).idxOf dep <
          (hubNodes.map TaskNode.taskId).idxOf node.taskId := by
      decide +kernel
    apply Acyclic.of_rank ((hubNodes.map TaskNode.taskId).idxOf ·)
    rintro id dep ⟨node, member, rfl, listed⟩
    exact falls node member dep listed

theorem agrees : AgreesWith (utf8 "/ws") (utf8 "build") tasks (.new hubNodes) where
  same := by
    intro item
    have noRoot : ∀ task ∈ tasks, task.isRoot = false := by decide
    constructor
    · rintro ⟨id, other, known, rfl⟩
      obtain ⟨task, member, rfl⟩ := mem_hubNodes.mp (HubDag.taskMap_spec known).1
      exact ⟨task, member, noRoot task member, rfl⟩
    · rintro ⟨task, member, -, rfl⟩
      exact ⟨_, node task, formed.taskMap_of_mem (mem_hubNodes.mpr ⟨task, member, rfl⟩), rfl⟩
  order := by
    intro package dep
    constructor
    · rintro ⟨other, known, needs, isTask⟩
      obtain ⟨isNode, sameId⟩ := HubDag.taskMap_spec known
      obtain ⟨task, member, rfl⟩ := mem_hubNodes.mp isNode
      obtain ⟨name, listed, sameDep⟩ := List.mem_map.mp needs
      obtain rfl := hubTaskId_injective sameDep
      obtain ⟨target, isTarget⟩ := Option.isSome_iff_exists.mp isTask
      obtain ⟨inNodes, targetId⟩ := HubDag.taskMap_spec isTarget
      obtain ⟨targetTask, inTasks, rfl⟩ := mem_hubNodes.mp inNodes
      refine ⟨task, member, hubTaskId_injective sameId, listed, ?_⟩
      exact List.any_eq_true.mpr ⟨targetTask, inTasks, beq_iff_eq.mpr (hubTaskId_injective targetId)⟩
    · rintro ⟨task, member, rfl, listed, has⟩
      obtain ⟨other, isTask, sameName⟩ := List.any_eq_true.mp has
      have isDep : other.packageName = dep := beq_iff_eq.mp sameName
      refine ⟨node task, formed.taskMap_of_mem (mem_hubNodes.mpr ⟨task, member, rfl⟩),
        List.mem_map_of_mem listed, ?_⟩
      rw [← isDep]
      exact HubDag.taskMap_isSome (mem_hubNodes.mpr ⟨other, isTask, rfl⟩)
  drivable := formed.drivable

/-- The linker writes its output at once, from the disk as it is or as it has read it. -/
def hubPlain (build : HubBuild) : HubBuildEvent → Bool
  | .hub event => decide (build.hub.Owed event) &&
      match event with
      | .complete _ taskId => tasks.all fun task =>
          hubTaskId (utf8 "build") task.packageName != taskId ||
            build.fs.nodeAt (out task.cwd) ==
              linker.clean .plain (build.seen taskId) task (out task.cwd)
      | _ => true
  | .write taskId fs => tasks.all fun task =>
      hubTaskId (utf8 "build") task.packageName != taskId ||
        fs.entries == (linker.run task build.fs).entries
  | .read _ => true

theorem allowed_of_hubPlain {build : HubBuild} {event : HubBuildEvent}
    (isPlain : hubPlain build event = true) :
    HubBuild.Allowed .plain linker tasks (utf8 "build") build event := by
  cases event with
  | hub event =>
      obtain ⟨owed, made⟩ := Bool.and_eq_true_iff.mp isPlain
      refine ⟨of_decide_eq_true owed, ?_⟩
      cases event with
      | complete order taskId =>
          intro task member sameId
          have isMade := List.all_eq_true.mp made task member
          simp only [sameId, bne_self_eq_false, Bool.false_or, beq_iff_eq] at isMade
          exact outputs_eq isMade
      | _ => trivial
  | write taskId fs =>
      intro task member sameId
      have written := List.all_eq_true.mp isPlain task member
      simp only [sameId, bne_self_eq_false, Bool.false_or, beq_iff_eq] at written
      obtain rfl : fs = linker.run task build.fs := congrArg FileSystem.mk written
      exact deterministic.own member build.fs
  | read taskId => trivial

def hubStep : HubBuild → HubBuildEvent → Option HubBuild :=
  Machine.guarded (fun build event => hubPlain build event = true) HubBuild.step

theorem hub_reaches {fs : FileSystem} {events : List HubBuildEvent} {build : HubBuild}
    (ran : Machine.run hubStep (.initial hubNodes fs) events = some build) :
    Machine.Reachable HubBuild.step (HubBuild.Allowed .plain linker tasks (utf8 "build"))
      (.initial hubNodes fs) build := by
  have reached := Machine.guarded_reachable ran
  apply reached.simulates id
  intro before event next isPlain taken
  exact Or.inr ⟨event, allowed_of_hubPlain isPlain, taken⟩

def onSpokes : List HubBuildEvent :=
  [.hub (.dispatch (utf8 "w1")), .hub (.dispatch (utf8 "w2")), .write (utf8 "io#build") io,
    .write (utf8 "net#build") ioNet, .hub (.complete default (utf8 "net#build")),
    .hub (.complete default (utf8 "io#build")), .hub (.dispatch (utf8 "w2")),
    .write (utf8 "app#build") (linker.run (package "app" ["net", "io"]) ioNet),
    .hub (.complete default (utf8 "app#build"))]

end TwoLibraries

end Rage
