import Rage.Acyclic
import Rage.FailureContainment
import Rage.HubDrive
import Rage.PathSpelling

/-!
Two ways from the packages of a workspace to the tasks of a script: the task list of the local
scheduler, and the task graph that `rage hub` serves.
-/

namespace Rage

section Hub

variable (parseScript : Bytes → Bytes → Option Bytes) (fs : FileSystem) (workspace : Path)
  (script : Bytes)

def hubTaskId (name : Bytes) : Bytes := name ++ utf8 "#" ++ script

def hubPackagePath (path : Path) : Bytes :=
  toStringLossy ((path.stripPrefix workspace).getD path)

def hubTaskNode (package : Package) (command : Bytes) : TaskNode where
  taskId := hubTaskId script package.name
  packageName := package.name
  scriptName := script
  command := command
  packagePath := hubPackagePath workspace package.path
  dependsOn := package.dependencies.map (hubTaskId script)

def hubTaskNodes (packages : List Package) : List TaskNode :=
  packages.filterMap fun package =>
    (scriptCommand parseScript fs package script).map (hubTaskNode workspace script package)

/-- `none` is the error that no package has the script. -/
def cmdHub (packages : List Package) : Option HubDag :=
  let nodes := hubTaskNodes parseScript fs workspace script packages
  if nodes.isEmpty then none else some (.new nodes)

end Hub

/-- `build_dag`, then `build_task_list_with_config`. -/
def localTasks (petgraph : Petgraph) (parseScript : Bytes → Bytes → Option Bytes)
    (plugins : List TaskPlugin) (fs : FileSystem) (workspaceRoot : Path) (config : RageConfig)
    (packages : List Package) (script : Bytes) : Except (DagError ⊕ TaskError) (List Task) :=
  match WorkspaceDag.buildDag petgraph packages with
  | .error error => .error (.inl error)
  | .ok dag =>
      match buildTaskListWithConfig petgraph parseScript plugins fs workspaceRoot dag script
          config with
      | .error error => .error (.inr error)
      | .ok tasks => .ok tasks

/-! What it means that both agree. -/

def TaskNode.item (node : TaskNode) : Bytes × Bytes × Bytes × Bytes :=
  (node.packageName, node.scriptName, node.command, node.packagePath)

def Task.item (workspaceRoot : Path) (task : Task) : Bytes × Bytes × Bytes × Bytes :=
  (task.packageName, task.scriptName, task.command, hubPackagePath workspaceRoot task.cwd)

structure AgreesWith (workspaceRoot : Path) (script : Bytes) (tasks : List Task) (dag : HubDag) :
    Prop where
  same : ∀ item, (∃ id node, dag.tasks id = some node ∧ node.item = item) ↔
    ∃ task ∈ tasks, task.isRoot = false ∧ task.item workspaceRoot = item
  order : ∀ package dep, (∃ node, dag.tasks (hubTaskId script package) = some node ∧
      hubTaskId script dep ∈ node.dependsOn ∧
      (dag.tasks (hubTaskId script dep)).isSome = true) ↔
    (TaskSet.ofTasks tasks true).Edge package dep
  drivable : dag.Drivable

def Agree (petgraph : Petgraph) (parseScript : Bytes → Bytes → Option Bytes)
    (plugins : List TaskPlugin) (fs : FileSystem) (workspaceRoot : Path) (config : RageConfig)
    (packages : List Package) (script : Bytes) : Prop :=
  match localTasks petgraph parseScript plugins fs workspaceRoot config packages script,
      cmdHub parseScript fs workspaceRoot script packages with
  | .ok tasks, some dag => AgreesWith workspaceRoot script tasks dag
  | .ok _, none => False
  | .error _, some _ => False
  | .error _, none => True

/-! What petgraph says of `toposort`: the nodes in an order that goes along the edges, unless there
is a cycle. -/

structure Petgraph.Sorts (petgraph : Petgraph) : Prop where
  ordered : ∀ nodes edges order, (∀ edge ∈ edges, edge.1 < nodes ∧ edge.2 < nodes) →
    petgraph.toposort nodes edges = .ok order →
    order.Perm (List.range nodes) ∧ ∀ edge ∈ edges, order.idxOf edge.1 < order.idxOf edge.2
  succeeds : ∀ nodes edges, (∀ edge ∈ edges, edge.1 < nodes ∧ edge.2 < nodes) →
    (∀ node, ¬ Relation.TransGen (fun first second => (first, second) ∈ edges) node node) →
    ∃ order, petgraph.toposort nodes edges = .ok order

namespace WorkspaceDag

def PackageEdge (packages : List Package) (name dep : Bytes) : Prop :=
  ∃ package ∈ packages, package.name = name ∧ dep ∈ package.dependencies

/-- Every dependency is a package of the workspace, and there is no cycle. -/
structure Resolved (packages : List Package) : Prop where
  closed : ∀ package ∈ packages, ∀ dep ∈ package.dependencies, dep ∈ packages.map Package.name
  acyclic : ∀ name, ¬ Relation.TransGen (PackageEdge packages) name name

theorem mapM_mem {α β ε : Type} {make : α → Except ε β} {items : List α} {made : List β}
    (all : items.mapM make = .ok made) {item : α} (member : item ∈ items) :
    ∃ result ∈ made, make item = .ok result := by
  induction items generalizing made with
  | nil => exact absurd member List.not_mem_nil
  | cons first rest ih =>
      rw [List.mapM_cons] at all
      cases isFirst : make first with
      | error error => simp [isFirst, bind, Except.bind] at all
      | ok value =>
          cases isRest : rest.mapM make with
          | error error => simp [isFirst, isRest, bind, Except.bind] at all
          | ok values =>
              obtain rfl : value :: values = made := by
                simpa [isFirst, isRest, bind, Except.bind, pure, Except.pure] using all
              rcases List.mem_cons.mp member with rfl | later
              · exact ⟨value, List.mem_cons_self, isFirst⟩
              · obtain ⟨result, inValues, isResult⟩ := ih isRest later
                exact ⟨result, List.mem_cons_of_mem value inValues, isResult⟩

theorem mapM_ok {α β ε : Type} {make : α → Except ε β} {items : List α}
    (all : ∀ item ∈ items, ∃ result, make item = .ok result) :
    ∃ made, items.mapM make = .ok made := by
  induction items with
  | nil => exact ⟨[], rfl⟩
  | cons first rest ih =>
      obtain ⟨value, isFirst⟩ := all first List.mem_cons_self
      obtain ⟨values, isRest⟩ := ih fun item member => all item (List.mem_cons_of_mem first member)
      refine ⟨value :: values, ?_⟩
      rw [List.mapM_cons]
      simp [isFirst, isRest, bind, Except.bind, pure, Except.pure]

theorem nodeIndices_some {packages : List Package} {name : Bytes}
    (member : name ∈ packages.map Package.name) :
    ∃ index, nodeIndices packages name = some index := by
  induction packages using List.reverseRecOn with
  | nil => exact absurd member List.not_mem_nil
  | append_singleton rest last ih =>
      rw [nodeIndices, List.zipIdx_append, List.foldl_append, List.zipIdx_singleton,
        List.foldl_cons, List.foldl_nil]
      by_cases here : name = last.name
      · rw [here, Function.update_self]
        exact ⟨_, rfl⟩
      · rw [Function.update_of_ne here]
        apply ih
        rw [List.map_append] at member
        rcases List.mem_append.mp member with earlier | isLast
        · exact earlier
        · exact absurd (by simpa using isLast) here

theorem packageMap_spec {packages : List Package} {name : Bytes} {package : Package}
    (known : packageMap packages name = some package) :
    package ∈ packages ∧ package.name = name :=
  Overlay.keyed_spec known

theorem packageMap_isSome {packages : List Package} {package : Package}
    (member : package ∈ packages) : ∃ kept, packageMap packages package.name = some kept :=
  Overlay.keyed_isSome member

/-- The edges of a graph that is built, and what comes with them. -/
structure Built (packages : List Package) (dag : WorkspaceDag) : Prop where
  nodes : dag.nodes = packages.map Package.name
  kept : dag.packages = packageMap packages
  drawn : ∀ edge ∈ dag.edges, ∃ name dep, PackageEdge packages name dep ∧
    nodeIndices packages name = some edge.1 ∧ nodeIndices packages dep = some edge.2
  edges : ∀ name dep, PackageEdge packages name dep → ∃ src dst, (src, dst) ∈ dag.edges ∧
    nodeIndices packages name = some src ∧ nodeIndices packages dep = some dst

section Dag

variable {petgraph : Petgraph} {packages : List Package}

theorem nodeIndices_mem {name : Bytes} {index : Nat}
    (found : nodeIndices packages name = some index) :
    name ∈ packages.map Package.name ∧ index < packages.length := by
  obtain ⟨bound, isName⟩ := List.getElem?_eq_some_iff.mp (nodeIndices_name found)
  rw [← isName]
  exact ⟨List.getElem_mem bound, by simpa using bound⟩

theorem dependencyEdge_ok {indices : Bytes → Option Nat} {package : Package} {dep : Bytes}
    {edge : Nat × Nat} (drawn : dependencyEdge indices package dep = .ok edge) :
    indices package.name = some edge.1 ∧ indices dep = some edge.2 := by
  unfold dependencyEdge at drawn
  split at drawn
  · rename_i isSrc isDst
    obtain rfl := Except.ok.inj drawn
    exact ⟨isSrc, isDst⟩
  · simp at drawn

theorem edges_drawn {edges : List (List (Nat × Nat))}
    (drawn : packages.mapM (fun package =>
      package.dependencies.mapM (dependencyEdge (nodeIndices packages) package)) = .ok edges) :
    (∀ edge ∈ edges.flatten, ∃ name dep, PackageEdge packages name dep ∧
      nodeIndices packages name = some edge.1 ∧ nodeIndices packages dep = some edge.2) ∧
    ∀ name dep, PackageEdge packages name dep → ∃ src dst, (src, dst) ∈ edges.flatten ∧
      nodeIndices packages name = some src ∧ nodeIndices packages dep = some dst := by
  constructor
  · intro edge member
    obtain ⟨targets, inEdges, isTarget⟩ := List.mem_flatten.mp member
    obtain ⟨package, inPackages, drawnHere⟩ := mem_of_mapM drawn inEdges
    obtain ⟨dep, listed, isEdge⟩ := mem_of_mapM drawnHere isTarget
    obtain ⟨isSrc, isDst⟩ := dependencyEdge_ok isEdge
    exact ⟨package.name, dep, ⟨package, inPackages, rfl, listed⟩, isSrc, isDst⟩
  · rintro name dep ⟨package, inPackages, rfl, listed⟩
    obtain ⟨targets, inEdges, drawnHere⟩ := mapM_mem drawn inPackages
    obtain ⟨edge, isTarget, isEdge⟩ := mapM_mem drawnHere listed
    obtain ⟨isSrc, isDst⟩ := dependencyEdge_ok isEdge
    exact ⟨edge.1, edge.2, List.mem_flatten.mpr ⟨targets, inEdges, isTarget⟩, isSrc, isDst⟩

theorem built_of_buildDag {dag : WorkspaceDag} (built : buildDag petgraph packages = .ok dag) :
    Built packages dag ∧ ∃ order, petgraph.toposort packages.length dag.edges = .ok order := by
  unfold buildDag at built
  simp only [bind, Except.bind, List.length_map] at built
  split at built
  · simp at built
  · rename_i edges drawn
    split at built
    · simp at built
    · rename_i order sorted
      obtain rfl := Except.ok.inj built
      obtain ⟨isDrawn, hasEdge⟩ := edges_drawn drawn
      exact ⟨⟨rfl, rfl, isDrawn, hasEdge⟩, order, sorted⟩

theorem Built.bounded {dag : WorkspaceDag} (built : Built packages dag) (edge : Nat × Nat)
    (member : edge ∈ dag.edges) : edge.1 < packages.length ∧ edge.2 < packages.length := by
  obtain ⟨name, dep, _, isSrc, isDst⟩ := built.drawn edge member
  exact ⟨(nodeIndices_mem isSrc).2, (nodeIndices_mem isDst).2⟩

/-- A cycle of nodes is one of packages. -/
theorem edges_acyclic {edges : List (Nat × Nat)}
    (drawn : ∀ edge ∈ edges, ∃ name dep, PackageEdge packages name dep ∧
      nodeIndices packages name = some edge.1 ∧ nodeIndices packages dep = some edge.2)
    (acyclic : ∀ name, ¬ Relation.TransGen (PackageEdge packages) name name) (node : Nat) :
    ¬ Relation.TransGen (fun first second => (first, second) ∈ edges) node node := by
  intro cycle
  apply acyclic ((packages.map Package.name).getD node [])
  refine cycle.lift (fun node => (packages.map Package.name).getD node []) ?_
  intro src dst member
  obtain ⟨name, dep, edge, isSrc, isDst⟩ := drawn _ member
  have srcName : (packages.map Package.name).getD src [] = name := by
    rw [List.getD_eq_getElem?_getD, nodeIndices_name isSrc]
    rfl
  have dstName : (packages.map Package.name).getD dst [] = dep := by
    rw [List.getD_eq_getElem?_getD, nodeIndices_name isDst]
    rfl
  have lifted : PackageEdge packages ((packages.map Package.name).getD src [])
      ((packages.map Package.name).getD dst []) := by
    rw [srcName, dstName]
    exact edge
  exact lifted

theorem resolved_of_built (sorts : petgraph.Sorts) {dag : WorkspaceDag}
    (built : buildDag petgraph packages = .ok dag) : Resolved packages := by
  obtain ⟨isBuilt, order, sorted⟩ := built_of_buildDag built
  obtain ⟨_, along⟩ := sorts.ordered _ _ order isBuilt.bounded sorted
  constructor
  · intro package member dep listed
    obtain ⟨_, _, _, _, isDst⟩ := isBuilt.edges package.name dep ⟨package, member, rfl, listed⟩
    exact (nodeIndices_mem isDst).1
  · let rank (name : Bytes) : Natᵒᵈ :=
      OrderDual.toDual (order.idxOf ((nodeIndices packages name).getD 0))
    apply Acyclic.of_rank rank
    intro name dep edge
    obtain ⟨src, dst, member, isSrc, isDst⟩ := isBuilt.edges name dep edge
    have below := along _ member
    simp only [rank, isSrc, isDst, Option.getD_some, OrderDual.toDual_lt_toDual]
    exact below

theorem built_of_resolved (sorts : petgraph.Sorts) (resolved : Resolved packages) :
    ∃ dag, buildDag petgraph packages = .ok dag := by
  obtain ⟨edges, drawn⟩ : ∃ edges, packages.mapM (fun package =>
      package.dependencies.mapM (dependencyEdge (nodeIndices packages) package)) = .ok edges := by
    apply mapM_ok
    intro package member
    apply mapM_ok
    intro dep listed
    obtain ⟨src, isSrc⟩ := nodeIndices_some (List.mem_map_of_mem (f := Package.name) member)
    obtain ⟨dst, isDst⟩ := nodeIndices_some (resolved.closed package member dep listed)
    exact ⟨(src, dst), by rw [dependencyEdge, isSrc, isDst]⟩
  obtain ⟨isDrawn, _⟩ := edges_drawn drawn
  obtain ⟨order, sorted⟩ := sorts.succeeds packages.length edges.flatten (by
    intro edge member
    obtain ⟨_, _, _, isSrc, isDst⟩ := isDrawn edge member
    exact ⟨(nodeIndices_mem isSrc).2, (nodeIndices_mem isDst).2⟩)
    (edges_acyclic isDrawn resolved.acyclic)
  refine ⟨⟨packages.map Package.name, edges.flatten, packageMap packages⟩, ?_⟩
  unfold buildDag
  simp only [bind, Except.bind, drawn, List.length_map, sorted]

/-- The second sort, against the edges, succeeds as well, and names every package. -/
theorem topologicalSort_ok (sorts : petgraph.Sorts) {dag : WorkspaceDag}
    (built : buildDag petgraph packages = .ok dag) :
    ∃ order, dag.topologicalSort petgraph = .ok order ∧
      ∀ name, name ∈ order ↔ name ∈ packages.map Package.name := by
  have resolved := resolved_of_built sorts built
  obtain ⟨isBuilt, _⟩ := built_of_buildDag built
  have bounded : ∀ edge ∈ dag.edges.map Prod.swap,
      edge.1 < packages.length ∧ edge.2 < packages.length := by
    intro edge member
    obtain ⟨original, isEdge, rfl⟩ := List.mem_map.mp member
    exact (isBuilt.bounded original isEdge).symm
  obtain ⟨order, sorted⟩ := sorts.succeeds packages.length (dag.edges.map Prod.swap) bounded (by
    intro node cycle
    apply edges_acyclic isBuilt.drawn resolved.acyclic node
    rw [← Relation.transGen_swap]
    refine Relation.TransGen.mono ?_ _ _ cycle
    intro first second member
    obtain ⟨original, isEdge, same⟩ := List.mem_map.mp member
    obtain ⟨rfl, rfl⟩ := Prod.mk.inj same
    exact isEdge)
  obtain ⟨perm, _⟩ := sorts.ordered _ _ order bounded sorted
  refine ⟨order.map fun node => dag.nodes.getD node [], ?_, ?_⟩
  · unfold topologicalSort
    simp only [isBuilt.nodes, List.length_map, sorted]
  · intro name
    rw [isBuilt.nodes, List.mem_map]
    constructor
    · rintro ⟨node, member, rfl⟩
      have bound : node < (packages.map Package.name).length := by
        rw [List.length_map]
        exact List.mem_range.mp (perm.mem_iff.mp member)
      rw [List.getD_eq_getElem?_getD, List.getElem?_eq_getElem bound]
      exact List.getElem_mem bound
    · intro member
      obtain ⟨node, bound, isName⟩ := List.getElem_of_mem member
      refine ⟨node, ?_, ?_⟩
      · apply perm.mem_iff.mpr
        rw [List.length_map] at bound
        exact List.mem_range.mpr bound
      · rw [List.getD_eq_getElem?_getD, List.getElem?_eq_getElem bound]
        exact isName

end Dag

end WorkspaceDag

/-! The package tasks of both sides. -/

section Tasks

variable {petgraph : Petgraph} {parseScript : Bytes → Bytes → Option Bytes}
  {plugins : List TaskPlugin} {fs : FileSystem} {workspaceRoot : Path} {config : RageConfig}
  {packages : List Package} {script : Bytes}

theorem hubTaskId_injective {script first second : Bytes}
    (same : hubTaskId script first = hubTaskId script second) : first = second := by
  unfold hubTaskId at same
  exact List.append_cancel_right (List.append_cancel_right same)

theorem mem_hubTaskNodes {node : TaskNode} :
    node ∈ hubTaskNodes parseScript fs workspaceRoot script packages ↔
      ∃ package ∈ packages, ∃ command, scriptCommand parseScript fs package script = some command ∧
        hubTaskNode workspaceRoot script package command = node := by
  simp only [hubTaskNodes, List.mem_filterMap, Option.map_eq_some_iff]

/-- The last package of a name gives the task of the name, where it has the script. -/
theorem taskMap_hub {name command : Bytes} {kept : Package}
    (known : WorkspaceDag.packageMap packages name = some kept)
    (has : scriptCommand parseScript fs kept script = some command) :
    HubDag.taskMap (hubTaskNodes parseScript fs workspaceRoot script packages)
      (hubTaskId script name) = some (hubTaskNode workspaceRoot script kept command) := by
  induction packages using List.reverseRecOn with
  | nil => simp [WorkspaceDag.packageMap] at known
  | append_singleton rest last ih =>
      rw [WorkspaceDag.packageMap, List.foldl_append, List.foldl_cons, List.foldl_nil] at known
      rw [hubTaskNodes, List.filterMap_append, List.filterMap_cons, List.filterMap_nil,
        HubDag.taskMap, List.foldl_append]
      by_cases here : name = last.name
      · rw [here, Function.update_self] at known
        obtain rfl := Option.some.inj known
        rw [has, here]
        simp [hubTaskNode]
      · rw [Function.update_of_ne here] at known
        have earlier := ih known
        cases hasLast : scriptCommand parseScript fs last script with
        | none => exact earlier
        | some other =>
            have apart : hubTaskId script name ≠ hubTaskId script last.name := fun same =>
              here (hubTaskId_injective same)
            rw [Option.map_some, List.foldl_cons, List.foldl_nil]
            rw [Function.update_of_ne (by exact apart)]
            exact earlier

theorem mem_packageTasks {dag : WorkspaceDag} {skipPackages order : List Bytes} {task : Task} :
    task ∈ packageTasks parseScript plugins fs workspaceRoot dag script skipPackages order ↔
      ∃ name ∈ order, name ∉ skipPackages ∧ ∃ package, dag.packages name = some package ∧
        ∃ command, scriptCommand parseScript fs package script = some command ∧
          packageTask plugins fs workspaceRoot name package script command = task := by
  unfold packageTasks
  rw [List.mem_filterMap]
  apply exists_congr
  intro name
  apply and_congr_right
  intro _
  by_cases skipped : name ∈ skipPackages
  · simp [skipped]
  · simp [skipped, Option.bind_eq_some_iff]

/-- The packages that the local path makes a task of. -/
def LocalTask (parseScript : Bytes → Bytes → Option Bytes) (fs : FileSystem) (config : RageConfig)
    (packages : List Package) (script name : Bytes) (package : Package) (command : Bytes) : Prop :=
  name ∉ config.skipPackages script ∧ WorkspaceDag.packageMap packages name = some package ∧
    scriptCommand parseScript fs package script = some command

def Lists (parseScript : Bytes → Bytes → Option Bytes) (plugins : List TaskPlugin)
    (fs : FileSystem) (workspaceRoot : Path) (config : RageConfig) (packages : List Package)
    (script : Bytes) (tasks : List Task) : Prop :=
  ∀ task, task ∈ tasks ∧ task.isRoot = false ↔ ∃ name package command,
    LocalTask parseScript fs config packages script name package command ∧
      withSandboxMode config
        (packageTask plugins fs workspaceRoot name package script command) = task

theorem localTasks_cases (sorts : petgraph.Sorts) (parseScript : Bytes → Bytes → Option Bytes)
    (plugins : List TaskPlugin) (fs : FileSystem) (workspaceRoot : Path) (config : RageConfig)
    (packages : List Package) (script : Bytes) :
    (∃ tasks, localTasks petgraph parseScript plugins fs workspaceRoot config packages script =
        .ok tasks ∧ WorkspaceDag.Resolved packages ∧
      (∃ name package command,
        LocalTask parseScript fs config packages script name package command) ∧
      Lists parseScript plugins fs workspaceRoot config packages script tasks) ∨
    (∃ error, localTasks petgraph parseScript plugins fs workspaceRoot config packages script =
        .error error) ∧
      (WorkspaceDag.Resolved packages → ¬ ∃ name package command,
        LocalTask parseScript fs config packages script name package command) := by
  cases built : WorkspaceDag.buildDag petgraph packages with
  | error error =>
      right
      refine ⟨⟨.inl error, by rw [localTasks, built]⟩, ?_⟩
      intro resolved
      obtain ⟨dag, isDag⟩ := WorkspaceDag.built_of_resolved sorts resolved
      rw [built] at isDag
      simp at isDag
  | ok dag =>
      obtain ⟨order, sorted, names⟩ := WorkspaceDag.topologicalSort_ok sorts built
      have kept : dag.packages = WorkspaceDag.packageMap packages :=
        (WorkspaceDag.built_of_buildDag built).1.kept
      have localOf {task : Task} :
          task ∈ packageTasks parseScript plugins fs workspaceRoot dag script
              (config.skipPackages script) order ↔ ∃ name package command,
            LocalTask parseScript fs config packages script name package command ∧
              packageTask plugins fs workspaceRoot name package script command = task := by
        rw [mem_packageTasks, kept]
        constructor
        · rintro ⟨name, _, unskipped, package, known, command, has, isTask⟩
          exact ⟨name, package, command, ⟨unskipped, known, has⟩, isTask⟩
        · rintro ⟨name, package, command, ⟨unskipped, known, has⟩, isTask⟩
          obtain ⟨member, isName⟩ := WorkspaceDag.packageMap_spec known
          refine ⟨name, ?_, unskipped, package, known, command, has, isTask⟩
          rw [names, ← isName]
          exact List.mem_map_of_mem member
      cases empty : packageTasks parseScript plugins fs workspaceRoot dag script
          (config.skipPackages script) order with
      | nil =>
          right
          refine ⟨⟨.inr (.noMatchingScript script), ?_⟩, ?_⟩
          · simp [localTasks, built, buildTaskListWithConfig, buildTaskListFiltered, sorted, empty,
              Except.map]
          · rintro _ ⟨name, package, command, isLocal⟩
            have member := localOf.mpr ⟨name, package, command, isLocal, rfl⟩
            rw [empty] at member
            exact absurd member List.not_mem_nil
      | cons first rest =>
          left
          have isFirst : first ∈ packageTasks parseScript plugins fs workspaceRoot dag script
              (config.skipPackages script) order := by
            rw [empty]
            exact List.mem_cons_self
          obtain ⟨name, package, command, isLocal, _⟩ := localOf.mp isFirst
          refine ⟨((plugins.flatMap fun plugin => (plugin.inferRootTasks fs workspaceRoot).map
              (rootTask workspaceRoot)) ++ first :: rest).map (withSandboxMode config), ?_,
            WorkspaceDag.resolved_of_built sorts built, ⟨name, package, command, isLocal⟩, ?_⟩
          · simp only [localTasks, built, buildTaskListWithConfig, buildTaskListFiltered, sorted,
              empty, List.isEmpty_cons, Bool.false_eq_true, ↓reduceIte, Except.map]
          · intro task
            rw [List.mem_map]
            constructor
            · rintro ⟨⟨plain, member, rfl⟩, notRoot⟩
              rw [(withSandboxMode_package config plain).2.2] at notRoot
              rcases List.mem_append.mp member with isRoot | inPackages
              · obtain ⟨plugin, _, inferred⟩ := List.mem_flatMap.mp isRoot
                obtain ⟨root, _, rfl⟩ := List.mem_map.mp inferred
                simp [rootTask] at notRoot
              · rw [← empty] at inPackages
                obtain ⟨name, package, command, isLocal, rfl⟩ := localOf.mp inPackages
                exact ⟨name, package, command, isLocal, rfl⟩
            · rintro ⟨name, package, command, isLocal, rfl⟩
              refine ⟨⟨_, List.mem_append_right _ ?_, rfl⟩, ?_⟩
              · rw [← empty]
                exact localOf.mpr ⟨name, package, command, isLocal, rfl⟩
              · rw [(withSandboxMode_package config _).2.2]
                rfl

theorem withSandboxMode_item (workspaceRoot : Path) (config : RageConfig) (task : Task) :
    (withSandboxMode config task).item workspaceRoot = task.item workspaceRoot := by
  unfold withSandboxMode
  split
  · rfl
  · rfl

def HasScript (parseScript : Bytes → Bytes → Option Bytes) (fs : FileSystem) (script : Bytes)
    (package : Package) : Prop :=
  (scriptCommand parseScript fs package script).isSome = true

/-- No package with the script is skipped; where two share their name, the last one has it too. -/
structure Kept (parseScript : Bytes → Bytes → Option Bytes) (fs : FileSystem)
    (config : RageConfig) (packages : List Package) (script : Bytes) : Prop where
  unskipped : ∀ package ∈ packages, HasScript parseScript fs script package →
    package.name ∉ config.skipPackages script
  last : ∀ package ∈ packages, HasScript parseScript fs script package →
    ∀ kept, WorkspaceDag.packageMap packages package.name = some kept →
      HasScript parseScript fs script kept

/-- A package with the script is ready at once, or depends on packages with the script only. -/
def DepsScripted (parseScript : Bytes → Bytes → Option Bytes) (fs : FileSystem)
    (packages : List Package) (script : Bytes) : Prop :=
  ∀ package ∈ packages, HasScript parseScript fs script package →
    (∃ other ∈ packages, other.name = package.name ∧ HasScript parseScript fs script other ∧
      other.dependencies = []) ∨
    ∀ kept, WorkspaceDag.packageMap packages package.name = some kept →
      ∀ dep ∈ kept.dependencies, ∃ target ∈ packages, target.name = dep ∧
        HasScript parseScript fs script target

theorem taskMap_hub_iff (kept : Kept parseScript fs config packages script) {id : Bytes}
    {node : TaskNode} :
    HubDag.taskMap (hubTaskNodes parseScript fs workspaceRoot script packages) id = some node ↔
      ∃ name package command,
        LocalTask parseScript fs config packages script name package command ∧
          hubTaskId script name = id ∧ hubTaskNode workspaceRoot script package command = node := by
  constructor
  · intro known
    obtain ⟨member, isId⟩ := HubDag.taskMap_spec known
    obtain ⟨package, inPackages, command, has, rfl⟩ := mem_hubTaskNodes.mp member
    have hasScript : HasScript parseScript fs script package := by
      rw [HasScript, has]
      rfl
    obtain ⟨last, isLast⟩ := WorkspaceDag.packageMap_isSome inPackages
    obtain ⟨lastCommand, lastHas⟩ :=
      Option.isSome_iff_exists.mp (kept.last package inPackages hasScript last isLast)
    refine ⟨package.name, last, lastCommand,
      ⟨kept.unskipped package inPackages hasScript, isLast, lastHas⟩, isId, ?_⟩
    have isTask : HubDag.taskMap (hubTaskNodes parseScript fs workspaceRoot script packages) id =
        some (hubTaskNode workspaceRoot script last lastCommand) := by
      rw [← isId]
      exact taskMap_hub isLast lastHas
    rw [known] at isTask
    exact (Option.some.inj isTask).symm
  · rintro ⟨name, package, command, ⟨_, isLast, has⟩, rfl, rfl⟩
    exact taskMap_hub isLast has

theorem hub_isSome {name : Bytes} :
    (HubDag.taskMap (hubTaskNodes parseScript fs workspaceRoot script packages)
      (hubTaskId script name)).isSome = true ↔
      ∃ package ∈ packages, package.name = name ∧ HasScript parseScript fs script package := by
  constructor
  · intro known
    obtain ⟨node, isNode⟩ := Option.isSome_iff_exists.mp known
    obtain ⟨member, isId⟩ := HubDag.taskMap_spec isNode
    obtain ⟨package, inPackages, command, has, rfl⟩ := mem_hubTaskNodes.mp member
    refine ⟨package, inPackages, hubTaskId_injective isId, ?_⟩
    rw [HasScript, has]
    rfl
  · rintro ⟨package, inPackages, rfl, has⟩
    obtain ⟨command, isCommand⟩ := Option.isSome_iff_exists.mp has
    exact HubDag.taskMap_isSome
      (mem_hubTaskNodes.mpr ⟨package, inPackages, command, isCommand, rfl⟩)

/-- The dependencies of the hub's tasks are those of packages. -/
theorem hub_acyclic (resolved : WorkspaceDag.Resolved packages) (id : Bytes) :
    ¬ Relation.TransGen
      (HubDag.Needs (hubTaskNodes parseScript fs workspaceRoot script packages)) id id := by
  intro cycle
  apply resolved.acyclic (id.take (id.length - (1 + script.length)))
  have named (name : Bytes) : (hubTaskId script name).take
      ((hubTaskId script name).length - (1 + script.length)) = name := by
    have one : (utf8 "#").length = 1 := by decide
    have size : (hubTaskId script name).length - (1 + script.length) = name.length := by
      simp only [hubTaskId, List.length_append, one]
      omega
    rw [size]
    simp [hubTaskId]
  refine cycle.lift (fun id => id.take (id.length - (1 + script.length))) ?_
  rintro own dep ⟨node, known, listed⟩
  obtain ⟨member, rfl⟩ := HubDag.taskMap_spec known
  obtain ⟨package, inPackages, command, _, rfl⟩ := mem_hubTaskNodes.mp member
  obtain ⟨target, isTarget, rfl⟩ := List.mem_map.mp listed
  show WorkspaceDag.PackageEdge packages _ _
  simp only [hubTaskNode, named]
  exact ⟨package, inPackages, rfl, isTarget⟩

theorem served_iff (kept : Kept parseScript fs config packages script) :
    HubDag.Served (hubTaskNodes parseScript fs workspaceRoot script packages) ↔
      DepsScripted parseScript fs packages script := by
  constructor
  · intro served package inPackages has
    obtain ⟨last, isLast⟩ := WorkspaceDag.packageMap_isSome inPackages
    obtain ⟨command, isCommand⟩ :=
      Option.isSome_iff_exists.mp (kept.last package inPackages has last isLast)
    rcases served _ _ (taskMap_hub isLast isCommand) with ⟨other, member, same, free⟩ | closed
    · obtain ⟨target, inList, otherCommand, otherHas, rfl⟩ := mem_hubTaskNodes.mp member
      refine Or.inl ⟨target, inList, hubTaskId_injective same, ?_, ?_⟩
      · rw [HasScript, otherHas]
        rfl
      · exact List.map_eq_nil_iff.mp free
    · right
      intro again isAgain dep listed
      obtain rfl := Option.some.inj (isLast.symm.trans isAgain)
      exact hub_isSome.mp (closed _ (List.mem_map_of_mem listed))
  · intro scripted id node known
    obtain ⟨name, last, command, ⟨_, isLast, has⟩, rfl, rfl⟩ := (taskMap_hub_iff kept).mp known
    obtain ⟨member, rfl⟩ := WorkspaceDag.packageMap_spec isLast
    have hasScript : HasScript parseScript fs script last := by
      rw [HasScript, has]
      rfl
    rcases scripted last member hasScript with ⟨other, inList, same, otherHas, free⟩ | closed
    · obtain ⟨otherCommand, isCommand⟩ := Option.isSome_iff_exists.mp otherHas
      refine Or.inl ⟨hubTaskNode workspaceRoot script other otherCommand,
        mem_hubTaskNodes.mpr ⟨other, inList, otherCommand, isCommand, rfl⟩, ?_, ?_⟩
      · rw [← same]
        rfl
      · simp [hubTaskNode, free]
    · right
      intro dep listed
      obtain ⟨target, isTarget, rfl⟩ := List.mem_map.mp listed
      exact hub_isSome.mpr (closed last isLast target isTarget)

section Both

variable {tasks : List Task}

theorem same_of_kept (kept : Kept parseScript fs config packages script)
    (listed : Lists parseScript plugins fs workspaceRoot config packages script tasks)
    (item : Bytes × Bytes × Bytes × Bytes) :
    (∃ id node, HubDag.taskMap (hubTaskNodes parseScript fs workspaceRoot script packages) id =
        some node ∧ node.item = item) ↔
      ∃ task ∈ tasks, task.isRoot = false ∧ task.item workspaceRoot = item := by
  have sameItem {name : Bytes} {package : Package} {command : Bytes}
      (isLocal : LocalTask parseScript fs config packages script name package command) :
      (withSandboxMode config (packageTask plugins fs workspaceRoot name package script
        command)).item workspaceRoot = (hubTaskNode workspaceRoot script package command).item := by
    rw [withSandboxMode_item]
    obtain ⟨_, known, _⟩ := isLocal
    obtain ⟨_, rfl⟩ := WorkspaceDag.packageMap_spec known
    rfl
  constructor
  · rintro ⟨id, node, known, rfl⟩
    obtain ⟨name, package, command, isLocal, _, rfl⟩ := (taskMap_hub_iff kept).mp known
    obtain ⟨member, notRoot⟩ := (listed _).mpr ⟨name, package, command, isLocal, rfl⟩
    exact ⟨_, member, notRoot, sameItem isLocal⟩
  · rintro ⟨task, member, notRoot, rfl⟩
    obtain ⟨name, package, command, isLocal, rfl⟩ := (listed task).mp ⟨member, notRoot⟩
    refine ⟨hubTaskId script name, hubTaskNode workspaceRoot script package command, ?_, ?_⟩
    · exact (taskMap_hub_iff kept).mpr ⟨name, package, command, isLocal, rfl, rfl⟩
    · exact (sameItem isLocal).symm

theorem hasTask_iff
    (listed : Lists parseScript plugins fs workspaceRoot config packages script tasks)
    (name : Bytes) :
    (TaskSet.ofTasks tasks true).hasTask name = true ↔ ∃ package command,
      LocalTask parseScript fs config packages script name package command := by
  simp only [TaskSet.hasTask, TaskSet.ofTasks, List.any_eq_true, List.mem_filter,
    Bool.not_eq_true', beq_iff_eq, listed _]
  constructor
  · rintro ⟨task, ⟨other, package, command, isLocal, rfl⟩, same⟩
    rw [(withSandboxMode_package config _).1] at same
    obtain rfl : other = name := same
    exact ⟨package, command, isLocal⟩
  · rintro ⟨package, command, isLocal⟩
    refine ⟨_, ⟨name, package, command, isLocal, rfl⟩, ?_⟩
    rw [(withSandboxMode_package config _).1]
    rfl

theorem order_of_kept (kept : Kept parseScript fs config packages script)
    (listed : Lists parseScript plugins fs workspaceRoot config packages script tasks)
    (package dep : Bytes) :
    (∃ node, HubDag.taskMap (hubTaskNodes parseScript fs workspaceRoot script packages)
        (hubTaskId script package) = some node ∧ hubTaskId script dep ∈ node.dependsOn ∧
        (HubDag.taskMap (hubTaskNodes parseScript fs workspaceRoot script packages)
          (hubTaskId script dep)).isSome = true) ↔
      (TaskSet.ofTasks tasks true).Edge package dep := by
  have isSome (name : Bytes) : (HubDag.taskMap
      (hubTaskNodes parseScript fs workspaceRoot script packages)
      (hubTaskId script name)).isSome = true ↔ ∃ package command,
        LocalTask parseScript fs config packages script name package command := by
    rw [Option.isSome_iff_exists]
    constructor
    · rintro ⟨node, known⟩
      obtain ⟨other, package, command, isLocal, same, _⟩ := (taskMap_hub_iff kept).mp known
      obtain rfl := hubTaskId_injective same
      exact ⟨package, command, isLocal⟩
    · rintro ⟨package, command, isLocal⟩
      exact ⟨_, (taskMap_hub_iff kept).mpr ⟨name, package, command, isLocal, rfl, rfl⟩⟩
  constructor
  · rintro ⟨node, known, needs, exists_⟩
    obtain ⟨name, manifest, command, isLocal, same, rfl⟩ := (taskMap_hub_iff kept).mp known
    obtain rfl := hubTaskId_injective same
    obtain ⟨member, notRoot⟩ := (listed _).mpr ⟨name, manifest, command, isLocal, rfl⟩
    obtain ⟨target, isTarget, sameDep⟩ := List.mem_map.mp needs
    obtain rfl := hubTaskId_injective sameDep
    refine ⟨_, List.mem_filter.mpr ⟨member, by rw [notRoot]; rfl⟩, ?_, ?_, ?_⟩
    · rw [(withSandboxMode_package config _).1]
      rfl
    · rw [(withSandboxMode_package config _).2.1]
      exact isTarget
    · exact (hasTask_iff listed target).mpr ((isSome target).mp exists_)
  · rintro ⟨task, member, rfl, needs, tasked⟩
    obtain ⟨inTasks, notRoot⟩ := List.mem_filter.mp member
    obtain ⟨name, manifest, command, isLocal, rfl⟩ :=
      (listed task).mp ⟨inTasks, by simpa using notRoot⟩
    rw [(withSandboxMode_package config _).2.1] at needs
    rw [(withSandboxMode_package config _).1]
    refine ⟨hubTaskNode workspaceRoot script manifest command, ?_, ?_, ?_⟩
    · exact (taskMap_hub_iff kept).mpr ⟨name, manifest, command, isLocal, rfl, rfl⟩
    · exact List.mem_map_of_mem needs
    · exact (isSome dep).mpr ((hasTask_iff listed dep).mp tasked)

/-- Where the hub has the tasks of the list, none of them was skipped, and each is that of the
last package of its name. -/
theorem kept_of_same
    (listed : Lists parseScript plugins fs workspaceRoot config packages script tasks)
    (same : ∀ item, (∃ id node, HubDag.taskMap
        (hubTaskNodes parseScript fs workspaceRoot script packages) id = some node ∧
          node.item = item) ↔
      ∃ task ∈ tasks, task.isRoot = false ∧ task.item workspaceRoot = item) :
    Kept parseScript fs config packages script := by
  have localOf (package : Package) (member : package ∈ packages)
      (has : HasScript parseScript fs script package) : ∃ kept command,
        LocalTask parseScript fs config packages script package.name kept command := by
    obtain ⟨node, known⟩ := Option.isSome_iff_exists.mp
      (hub_isSome.mpr ⟨package, member, rfl, has⟩)
    obtain ⟨isNode, isId⟩ := HubDag.taskMap_spec known
    obtain ⟨other, _, command, _, rfl⟩ := mem_hubTaskNodes.mp isNode
    obtain ⟨task, inTasks, notRoot, sameItem⟩ := (same _).mp ⟨_, _, known, rfl⟩
    obtain ⟨name, kept, taskCommand, isLocal, rfl⟩ := (listed task).mp ⟨inTasks, notRoot⟩
    rw [withSandboxMode_item] at sameItem
    have isName : name = other.name := congrArg Prod.fst sameItem
    have isOther : other.name = package.name := hubTaskId_injective isId
    rw [isName, isOther] at isLocal
    exact ⟨kept, taskCommand, isLocal⟩
  constructor
  · intro package member has
    obtain ⟨_, _, unskipped, _, _⟩ := localOf package member has
    exact unskipped
  · intro package member has kept isLast
    obtain ⟨other, command, _, isOther, otherHas⟩ := localOf package member has
    obtain rfl := Option.some.inj (isLast.symm.trans isOther)
    rw [HasScript, otherHas]
    rfl

end Both

theorem cmdHub_cases (parseScript : Bytes → Bytes → Option Bytes) (fs : FileSystem)
    (workspaceRoot : Path) (packages : List Package) (script : Bytes) :
    (cmdHub parseScript fs workspaceRoot script packages = none ∧
      ∀ package ∈ packages, ¬ HasScript parseScript fs script package) ∨
    (cmdHub parseScript fs workspaceRoot script packages =
        some (.new (hubTaskNodes parseScript fs workspaceRoot script packages)) ∧
      ∃ package ∈ packages, HasScript parseScript fs script package) := by
  unfold cmdHub
  cases nodes : hubTaskNodes parseScript fs workspaceRoot script packages with
  | nil =>
      left
      refine ⟨rfl, ?_⟩
      intro package member has
      obtain ⟨command, isCommand⟩ := Option.isSome_iff_exists.mp has
      have inNodes : hubTaskNode workspaceRoot script package command ∈
          hubTaskNodes parseScript fs workspaceRoot script packages :=
        mem_hubTaskNodes.mpr ⟨package, member, command, isCommand, rfl⟩
      rw [nodes] at inNodes
      exact absurd inNodes List.not_mem_nil
  | cons first rest =>
      right
      refine ⟨rfl, ?_⟩
      have isFirst : first ∈ hubTaskNodes parseScript fs workspaceRoot script packages := by
        rw [nodes]
        exact List.mem_cons_self
      obtain ⟨package, member, command, has, _⟩ := mem_hubTaskNodes.mp isFirst
      refine ⟨package, member, ?_⟩
      rw [HasScript, has]
      rfl

end Tasks

/-- The hub and the local path agree on a script exactly when no package has it, or when the graph
resolves, nothing is skipped, and no task of the hub waits for a package without the script. -/
theorem hub_agrees_iff (petgraph : Petgraph) (sorts : petgraph.Sorts)
    (parseScript : Bytes → Bytes → Option Bytes) (plugins : List TaskPlugin) (fs : FileSystem)
    (workspaceRoot : Path) (config : RageConfig) (packages : List Package) (script : Bytes) :
    Agree petgraph parseScript plugins fs workspaceRoot config packages script ↔
      (∀ package ∈ packages, ¬ HasScript parseScript fs script package) ∨
        WorkspaceDag.Resolved packages ∧ Kept parseScript fs config packages script ∧
          DepsScripted parseScript fs packages script := by
  unfold Agree
  rcases cmdHub_cases parseScript fs workspaceRoot packages script with
    ⟨rejected, none_⟩ | ⟨accepted, package, member, has⟩
  · simp only [rejected]
    rcases localTasks_cases sorts parseScript plugins fs workspaceRoot config packages script with
      ⟨tasks, isLocal, _, ⟨name, package, command, task⟩, _⟩ | ⟨⟨error, isError⟩, _⟩
    · exfalso
      obtain ⟨_, known, has⟩ := task
      apply none_ package (WorkspaceDag.packageMap_spec known).1
      rw [HasScript, has]
      rfl
    · simp only [isError, true_iff]
      exact Or.inl none_
  · simp only [accepted]
    rcases localTasks_cases sorts parseScript plugins fs workspaceRoot config packages script with
      ⟨tasks, isLocal, resolved, _, listed⟩ | ⟨⟨error, isError⟩, nothing⟩
    · simp only [isLocal]
      constructor
      · intro agrees
        have kept := kept_of_same listed agrees.same
        refine Or.inr ⟨resolved, kept, ?_⟩
        rw [← served_iff kept, ← HubDag.drivable_iff _ (hub_acyclic resolved)]
        exact agrees.drivable
      · rintro (none_ | ⟨_, kept, scripted⟩)
        · exact absurd has (none_ package member)
        · exact {
            same := same_of_kept kept listed
            order := order_of_kept kept listed
            drivable := by
              rw [HubDag.drivable_iff _ (hub_acyclic resolved), served_iff kept]
              exact scripted }
    · simp only [isError, false_iff]
      rintro (none_ | ⟨resolved, kept, _⟩)
      · exact none_ package member has
      · obtain ⟨last, isLast⟩ := WorkspaceDag.packageMap_isSome member
        obtain ⟨command, isCommand⟩ :=
          Option.isSome_iff_exists.mp (kept.last package member has last isLast)
        exact nothing resolved ⟨package.name, last, command,
          kept.unskipped package member has, isLast, isCommand⟩

/-! The sort of the chain of packages does what petgraph says of its own. -/

namespace MissingScript

theorem remaining_ordered {edges : List (Nat × Nat)} {fuel : Nat} {left order : List Nat}
    (nodup : left.Nodup) (enough : left.length ≤ fuel)
    (sorted : remaining edges fuel left = .ok order) :
    order.Perm left ∧ ∀ edge ∈ edges, edge.1 ∈ left → edge.2 ∈ left →
      order.idxOf edge.1 < order.idxOf edge.2 := by
  induction fuel generalizing left order with
  | zero =>
      obtain rfl : left = [] := List.eq_nil_of_length_eq_zero (by omega)
      obtain rfl : [] = order := Except.ok.inj sorted
      exact ⟨.refl _, by simp⟩
  | succ fuel ih =>
      unfold remaining at sorted
      cases found : left.find? fun node =>
          left.all fun other => !edges.contains (other, node) with
      | some node =>
          simp only [found] at sorted
          have member := List.mem_of_find?_eq_some found
          have free : ∀ other ∈ left, (other, node) ∉ edges := by
            intro other inLeft
            have all := List.find?_some found
            simpa using List.all_eq_true.mp all other inLeft
          cases isRest : remaining edges fuel (left.erase node) with
          | error error => simp [isRest, Except.map] at sorted
          | ok rest =>
              obtain rfl : node :: rest = order := by simpa [isRest, Except.map] using sorted
              have shorter := List.length_erase_of_mem member
              obtain ⟨perm, along⟩ := ih (nodup.erase node) (by omega) isRest
              refine ⟨(perm.cons node).trans (List.perm_cons_erase member).symm, ?_⟩
              rintro ⟨src, dst⟩ isEdge srcLeft dstLeft
              have later : dst ≠ node := by
                rintro rfl
                exact free src srcLeft isEdge
              rw [List.idxOf_cons_ne _ (Ne.symm later)]
              by_cases first : src = node
              · rw [first, List.idxOf_cons_self]
                exact Nat.succ_pos _
              · rw [List.idxOf_cons_ne _ (Ne.symm first)]
                exact Nat.succ_lt_succ (along _ isEdge ((List.mem_erase_of_ne first).mpr srcLeft)
                  ((List.mem_erase_of_ne later).mpr dstLeft))
      | none =>
          cases left with
          | nil =>
              obtain rfl : [] = order := by simpa using sorted
              exact ⟨.refl _, by simp⟩
          | cons first rest =>
              rw [found] at sorted
              simp at sorted

theorem remaining_succeeds {edges : List (Nat × Nat)}
    (acyclic : ∀ node, ¬ Relation.TransGen (fun first second => (first, second) ∈ edges) node node)
    {fuel : Nat} {left : List Nat} (enough : left.length ≤ fuel) :
    ∃ order, remaining edges fuel left = .ok order := by
  induction fuel generalizing left with
  | zero => exact ⟨[], rfl⟩
  | succ fuel ih =>
      unfold remaining
      cases found : left.find? fun node =>
          left.all fun other => !edges.contains (other, node) with
      | some node =>
          have shorter := List.length_erase_of_mem (List.mem_of_find?_eq_some found)
          have fits : (left.erase node).length ≤ fuel := by omega
          obtain ⟨rest, isRest⟩ := ih fits
          refine ⟨node :: rest, ?_⟩
          simp only [isRest, Except.map]
      | none =>
          cases left with
          | nil => exact ⟨[], rfl⟩
          | cons first rest =>
              exfalso
              have backwards (node : Nat) :
                  ¬ Relation.TransGen (fun second first => (first, second) ∈ edges) node node := by
                intro cycle
                exact acyclic node (Relation.transGen_swap.mp cycle)
              obtain ⟨least, member, free⟩ := Acyclic.exists_least backwards (first :: rest)
                (fun node => node ∈ first :: rest) (fun _ => id) (List.mem_cons_self : first ∈ _)
              apply List.find?_eq_none.mp found least member
              rw [List.all_eq_true]
              intro other inLeft
              have noEdge : (other, least) ∉ edges := fun isEdge => free other isEdge inLeft
              simpa using noEdge

theorem sorts : petgraph.Sorts where
  ordered := by
    intro nodes edges order bounded sorted
    obtain ⟨perm, along⟩ := remaining_ordered List.nodup_range (by simp) sorted
    refine ⟨perm, ?_⟩
    intro edge member
    obtain ⟨below, above⟩ := bounded edge member
    exact along edge member (List.mem_range.mpr below) (List.mem_range.mpr above)
  succeeds := by
    intro nodes edges _ acyclic
    exact remaining_succeeds acyclic (by simp)

theorem resolved : WorkspaceDag.Resolved packages where
  closed := by decide
  acyclic := by
    have falls : ∀ package ∈ packages, ∀ dep ∈ package.dependencies,
        (packages.reverse.map Package.name).idxOf dep <
          (packages.reverse.map Package.name).idxOf package.name := by
      decide
    apply Acyclic.of_rank ((packages.reverse.map Package.name).idxOf ·)
    rintro name dep ⟨package, member, rfl, listed⟩
    exact falls package member dep listed

def hubNodes : List TaskNode :=
  hubTaskNodes parseScript (disk withoutScript) (utf8 "/ws") (utf8 "build") packages

theorem unserved : ¬ HubDag.Served hubNodes := by
  intro served
  have known : HubDag.taskMap hubNodes (utf8 "app#build") =
      some (hubTaskNode (utf8 "/ws") (utf8 "build") (package "app" ["lib"]) (utf8 "tsc")) := by
    decide +kernel
  rcases served _ _ known with ⟨other, member, same, free⟩ | closed
  · have none_ : ∀ other ∈ hubNodes, other.taskId = utf8 "app#build" → other.dependsOn ≠ [] := by
      decide +kernel
    exact none_ other member same free
  · have missing : HubDag.taskMap hubNodes (utf8 "lib#build") = none := by decide +kernel
    have isSome := closed (utf8 "lib#build") (by decide +kernel)
    rw [missing] at isSome
    simp at isSome

end MissingScript

theorem hub_agrees_iff_chain :
    ∃ tasks dag, localTasks MissingScript.petgraph MissingScript.parseScript []
        (MissingScript.disk MissingScript.withScript) (utf8 "/ws") MissingScript.config
        MissingScript.packages (utf8 "build") = .ok tasks ∧
      cmdHub MissingScript.parseScript (MissingScript.disk MissingScript.withScript) (utf8 "/ws")
        (utf8 "build") MissingScript.packages = some dag ∧
      AgreesWith (utf8 "/ws") (utf8 "build") tasks dag := by
  have agree := (hub_agrees_iff MissingScript.petgraph MissingScript.sorts
    MissingScript.parseScript [] (MissingScript.disk MissingScript.withScript) (utf8 "/ws")
    MissingScript.config MissingScript.packages (utf8 "build")).mpr (by
      refine Or.inr ⟨MissingScript.resolved, ⟨?_, ?_⟩, ?_⟩
      · intro package _ _
        exact List.not_mem_nil
      · have all : ∀ package ∈ MissingScript.packages, (scriptCommand MissingScript.parseScript
            (MissingScript.disk MissingScript.withScript) package (utf8 "build")).isSome = true := by
          decide +kernel
        intro package _ _ kept known
        exact all kept (WorkspaceDag.packageMap_spec known).1
      · have all : ∀ package ∈ MissingScript.packages, ∀ dep ∈ package.dependencies,
            ∃ target ∈ MissingScript.packages, target.name = dep ∧
              (scriptCommand MissingScript.parseScript
                (MissingScript.disk MissingScript.withScript) target (utf8 "build")).isSome =
                  true := by
          decide +kernel
        intro package _ _
        right
        intro kept known dep listed
        exact all kept (WorkspaceDag.packageMap_spec known).1 dep listed)
  have isLocal : localTasks MissingScript.petgraph MissingScript.parseScript []
      (MissingScript.disk MissingScript.withScript) (utf8 "/ws") MissingScript.config
      MissingScript.packages (utf8 "build") = .ok MissingScript.chain := by
    decide +kernel
  unfold Agree at agree
  rw [isLocal] at agree
  cases isHub : cmdHub MissingScript.parseScript (MissingScript.disk MissingScript.withScript)
      (utf8 "/ws") (utf8 "build") MissingScript.packages with
  | none =>
      rw [isHub] at agree
      exact agree.elim
  | some dag =>
      rw [isHub] at agree
      exact ⟨_, dag, isLocal, rfl, agree⟩

/-- The middle package has no script: the local path drops the dependency on it, and the hub waits
for its task forever. -/
theorem hub_waits_without_script :
    localTasks MissingScript.petgraph MissingScript.parseScript []
        (MissingScript.disk MissingScript.withoutScript) (utf8 "/ws") MissingScript.config
        MissingScript.packages (utf8 "build") = .ok MissingScript.ends ∧
      ¬ Agree MissingScript.petgraph MissingScript.parseScript []
        (MissingScript.disk MissingScript.withoutScript) (utf8 "/ws") MissingScript.config
        MissingScript.packages (utf8 "build") := by
  have isLocal : localTasks MissingScript.petgraph MissingScript.parseScript []
      (MissingScript.disk MissingScript.withoutScript) (utf8 "/ws") MissingScript.config
      MissingScript.packages (utf8 "build") = .ok MissingScript.ends := by
    decide +kernel
  refine ⟨isLocal, ?_⟩
  unfold Agree
  rw [isLocal]
  rcases cmdHub_cases MissingScript.parseScript (MissingScript.disk MissingScript.withoutScript)
    (utf8 "/ws") MissingScript.packages (utf8 "build") with ⟨rejected, _⟩ | ⟨accepted, _⟩
  · rw [rejected]
    exact id
  · rw [accepted]
    intro agrees
    have served := (HubDag.drivable_iff _ (hub_acyclic MissingScript.resolved)).mp agrees.drivable
    exact MissingScript.unserved served

end Rage
