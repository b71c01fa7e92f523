import Mathlib.Data.List.Induction
import Rage.Overlay
import Rage.PackageTask

/-!
The workspace graph and the task list of a run.  Tasks exist for the packages that have the
script; the filters of the command line then drop some of them.
-/

namespace Rage

structure Package where
  name : Bytes
  version : Bytes
  path : Path
  dependencies : List Bytes
  deriving DecidableEq

inductive DagError
  | unknownDependency (package dep : Bytes)
  | cycle (package : Bytes)
  deriving DecidableEq

/-- `petgraph::algo::toposort` on a number of nodes and a list of edges. -/
structure Petgraph where
  toposort : Nat → List (Nat × Nat) → Except Nat (List Nat)

structure WorkspaceDag where
  nodes : List Bytes
  edges : List (Nat × Nat)
  packages : Bytes → Option Package

namespace WorkspaceDag

/-- Inserting into a hash map keeps the last package of a name. -/
def nodeIndices (packages : List Package) : Bytes → Option Nat :=
  packages.zipIdx.foldl (fun indices package =>
    Function.update indices package.1.name (some package.2)) fun _ => none

def packageMap (packages : List Package) : Bytes → Option Package :=
  packages.foldl (fun map package => Function.update map package.name (some package)) fun _ => none

def dependencyEdge (indices : Bytes → Option Nat) (package : Package) (dep : Bytes) :
    Except DagError (Nat × Nat) :=
  match indices package.name, indices dep with
  | some src, some dst => .ok (src, dst)
  | _, _ => .error (.unknownDependency package.name dep)

def buildDag (petgraph : Petgraph) (packages : List Package) : Except DagError WorkspaceDag := do
  let indices := nodeIndices packages
  let edges ← packages.mapM fun package =>
    package.dependencies.mapM (dependencyEdge indices package)
  let nodes := packages.map Package.name
  match petgraph.toposort nodes.length edges.flatten with
  | .error node => .error (.cycle (nodes.getD node []))
  | .ok _ => .ok ⟨nodes, edges.flatten, packageMap packages⟩

def topologicalSort (petgraph : Petgraph) (dag : WorkspaceDag) : Except DagError (List Bytes) :=
  match petgraph.toposort dag.nodes.length (dag.edges.map Prod.swap) with
  | .error _ => .error (.cycle (utf8 "<cycle detected in topo>"))
  | .ok order => .ok (order.map fun node => dag.nodes.getD node [])

def DependsOn (dag : WorkspaceDag) (package dep : Bytes) : Prop :=
  ∃ manifest, dag.packages package = some manifest ∧ dep ∈ manifest.dependencies

theorem mem_of_mapM {α β ε : Type} {make : α → Except ε β} {items : List α} {made : List β}
    (all : items.mapM make = .ok made) {result : β} (member : result ∈ made) :
    ∃ item ∈ items, make item = .ok result := by
  induction items generalizing made with
  | nil =>
      obtain rfl : [] = made := Except.ok.inj all
      exact absurd member List.not_mem_nil
  | cons first rest ih =>
      rw [List.mapM_cons] at all
      cases isFirst : make first with
      | error error => simp [isFirst, bind, Except.bind] at all
      | ok value =>
          cases isRest : rest.mapM make with
          | error error => simp [isFirst, isRest, bind, Except.bind] at all
          | ok values =>
              obtain rfl : value :: values = made := by
                simpa [isFirst, isRest, bind, Except.bind, pure, Except.pure] using all
              rcases List.mem_cons.mp member with rfl | later
              · exact ⟨first, List.mem_cons_self, isFirst⟩
              · obtain ⟨item, inRest, isResult⟩ := ih isRest later
                exact ⟨item, List.mem_cons_of_mem first inRest, isResult⟩

theorem nodeIndices_name {packages : List Package} {name : Bytes} {index : Nat}
    (found : nodeIndices packages name = some index) :
    (packages.map Package.name)[index]? = some name := by
  induction packages using List.reverseRecOn with
  | nil => simp [nodeIndices] at found
  | append_singleton rest package ih =>
      rw [nodeIndices, List.zipIdx_append, List.foldl_append, List.zipIdx_singleton,
        List.foldl_cons, List.foldl_nil] at found
      by_cases here : name = package.name
      · subst here
        rw [Function.update_self, Option.some.injEq] at found
        subst index
        simp
      · rw [Function.update_of_ne here] at found
        rw [List.map_append]
        obtain ⟨bound, isName⟩ := List.getElem?_eq_some_iff.mp (ih found)
        rw [List.getElem?_append_left bound, List.getElem?_eq_getElem bound, isName]

theorem packageMap_self {packages : List Package} (distinct : (packages.map Package.name).Nodup)
    {package : Package} (member : package ∈ packages) :
    packageMap packages package.name = some package :=
  Overlay.keyed_self distinct member

/-- Where no name comes twice, an edge of the graph is a dependency of its package. -/
theorem dependsOn_of_edge {petgraph : Petgraph} {packages : List Package} {dag : WorkspaceDag}
    (built : buildDag petgraph packages = .ok dag) (distinct : (packages.map Package.name).Nodup)
    (src dst : Nat) (edge : (src, dst) ∈ dag.edges) {package dep : Bytes}
    (isPackage : dag.nodes[src]? = some package) (isDep : dag.nodes[dst]? = some dep) :
    dag.DependsOn package dep := by
  unfold buildDag at built
  simp only [bind, Except.bind] at built
  split at built
  · simp at built
  · rename_i edges drawn
    split at built
    · simp at built
    · obtain rfl := Except.ok.inj built
      obtain ⟨targets, inEdges, isTarget⟩ := List.mem_flatten.mp edge
      obtain ⟨manifest, member, drawnHere⟩ := mem_of_mapM drawn inEdges
      obtain ⟨target, listed, isEdge⟩ := mem_of_mapM drawnHere isTarget
      unfold dependencyEdge at isEdge
      split at isEdge
      · rename_i isSrc isDst
        obtain ⟨rfl, rfl⟩ := Prod.mk.inj (Except.ok.inj isEdge)
        obtain rfl := Option.some.inj (isPackage.symm.trans (nodeIndices_name isSrc))
        obtain rfl := Option.some.inj (isDep.symm.trans (nodeIndices_name isDst))
        exact ⟨manifest, packageMap_self distinct member, listed⟩
      · simp at isEdge

end WorkspaceDag

/-! What a plugin says about the tasks of a workspace. -/

structure RootTask where
  name : Bytes
  command : Bytes
  inputPaths : List Path
  envHashInputs : List (Bytes × Bytes)

structure TaskPlugin where
  inferRootTasks : FileSystem → Path → List RootTask
  matchesPackage : FileSystem → Path → Bool
  declaredInputGlobs : Bytes → List Bytes
  inferTasks : FileSystem → Path → List (Bytes × List Bytes)

/-- `panicked` is the `expect` on the topological order. -/
inductive TaskError
  | noMatchingScript (script : Bytes)
  | panicked
  deriving DecidableEq

structure RageConfig where
  skipPackages : Bytes → List Bytes
  resolveSandboxMode : Path → SandboxMode

section Build

variable (petgraph : Petgraph) (parseScript : Bytes → Bytes → Option Bytes)
  (plugins : List TaskPlugin) (fs : FileSystem) (workspaceRoot : Path)

/-- `scripts.{script}` of a manifest that is UTF-8; `parseScript` is the JSON part of it. -/
def scriptCommand (package : Package) (script : Bytes) : Option Bytes :=
  ((fs.read (package.path.join (utf8 "package.json"))).filter isUtf8).bind fun raw =>
    parseScript raw script

def sortedSet (globs : List Bytes) : List Bytes := globs.dedup.insertionSort (· ≤ ·)

def rootTask (root : RootTask) : Task where
  packageName := utf8 "workspace"
  scriptName := root.name
  command := root.command
  cwd := workspaceRoot
  sandboxMode := .strict
  isRoot := true
  inputPaths := root.inputPaths
  workspaceRoot := workspaceRoot
  declaredInputGlobs := []
  depPackageNames := []
  outputGlobs := []
  envHashInputs := root.envHashInputs

def packageTask (name : Bytes) (package : Package) (script command : Bytes) : Task where
  packageName := name
  scriptName := script
  command := command
  cwd := package.path
  sandboxMode := .strict
  isRoot := false
  inputPaths := []
  workspaceRoot := workspaceRoot
  declaredInputGlobs := sortedSet ((plugins.filter (·.matchesPackage fs package.path)).flatMap
    (·.declaredInputGlobs script))
  depPackageNames := package.dependencies
  outputGlobs := sortedSet ((plugins.filter (·.matchesPackage fs package.path)).flatMap
    fun plugin => ((plugin.inferTasks fs package.path).filter (·.1 == script)).flatMap Prod.snd)
  envHashInputs := []

def packageTasks (dag : WorkspaceDag) (script : Bytes) (skipPackages order : List Bytes) :
    List Task :=
  order.filterMap fun name =>
    if skipPackages.contains name then none
    else (dag.packages name).bind fun package =>
      (scriptCommand parseScript fs package script).map
        (packageTask plugins fs workspaceRoot name package script)

def buildTaskListFiltered (dag : WorkspaceDag) (script : Bytes) (skipPackages : List Bytes) :
    Except TaskError (List Task) :=
  match dag.topologicalSort petgraph with
  | .error _ => .error .panicked
  | .ok order =>
      let roots := plugins.flatMap fun plugin =>
        (plugin.inferRootTasks fs workspaceRoot).map (rootTask workspaceRoot)
      let packages := packageTasks parseScript plugins fs workspaceRoot dag script skipPackages order
      if packages.isEmpty then .error (.noMatchingScript script) else .ok (roots ++ packages)

def withSandboxMode (config : RageConfig) (task : Task) : Task :=
  if task.isRoot then { task with sandboxMode := .loose }
  else { task with sandboxMode := config.resolveSandboxMode task.cwd }

def buildTaskListWithConfig (dag : WorkspaceDag) (script : Bytes) (config : RageConfig) :
    Except TaskError (List Task) :=
  (buildTaskListFiltered petgraph parseScript plugins fs workspaceRoot dag script
    (config.skipPackages script)).map fun tasks => tasks.map (withSandboxMode config)

end Build

/-- The command line keeps the root tasks and the packages in its scope: those that `--since` or
`--affected` found, or the target of `--to` with what it needs. -/
def retainScope (scope : Bytes → Bool) (tasks : List Task) : List Task :=
  tasks.filter fun task => task.isRoot || scope task.packageName

theorem packageTasks_dependencies {parseScript : Bytes → Bytes → Option Bytes}
    {plugins : List TaskPlugin} {fs : FileSystem} {workspaceRoot : Path} {dag : WorkspaceDag}
    {script : Bytes} {skipPackages order : List Bytes} {task : Task}
    (member : task ∈ packageTasks parseScript plugins fs workspaceRoot dag script skipPackages
      order) :
    ∃ package, dag.packages task.packageName = some package ∧
      task.depPackageNames = package.dependencies := by
  obtain ⟨name, _, built⟩ := List.mem_filterMap.mp member
  split at built
  · simp at built
  · obtain ⟨package, known, isTask⟩ := Option.bind_eq_some_iff.mp built
    obtain ⟨command, _, rfl⟩ := Option.map_eq_some_iff.mp isTask
    exact ⟨package, known, rfl⟩

theorem withSandboxMode_package (config : RageConfig) (task : Task) :
    (withSandboxMode config task).packageName = task.packageName ∧
      (withSandboxMode config task).depPackageNames = task.depPackageNames ∧
      (withSandboxMode config task).isRoot = task.isRoot := by
  unfold withSandboxMode
  split
  · exact ⟨rfl, rfl, rfl⟩
  · exact ⟨rfl, rfl, rfl⟩

section Built

variable {petgraph : Petgraph} {parseScript : Bytes → Bytes → Option Bytes}
  {plugins : List TaskPlugin} {fs : FileSystem} {workspaceRoot : Path} {dag : WorkspaceDag}
  {script : Bytes} {config : RageConfig} {tasks : List Task}
  (built : buildTaskListWithConfig petgraph parseScript plugins fs workspaceRoot dag script
    config = .ok tasks) {task : Task} (member : task ∈ tasks)

include built member

/-- A task of the list is the root task of a plugin or the task of a package. -/
theorem buildTaskList_mem : ∃ plain, task = withSandboxMode config plain ∧
    ((∃ root, plain = rootTask workspaceRoot root) ∨ ∃ skipPackages order,
      plain ∈ packageTasks parseScript plugins fs workspaceRoot dag script skipPackages order) := by
  unfold buildTaskListWithConfig buildTaskListFiltered at built
  cases sorted : dag.topologicalSort petgraph with
  | error _ => simp [sorted, Except.map] at built
  | ok order =>
      simp only [sorted] at built
      split at built
      · simp [Except.map] at built
      · simp only [Except.map, Except.ok.injEq] at built
        subst tasks
        obtain ⟨plain, listed, rfl⟩ := List.mem_map.mp member
        refine ⟨plain, rfl, ?_⟩
        rcases List.mem_append.mp listed with isRoot | inPackages
        · obtain ⟨plugin, _, inferred⟩ := List.mem_flatMap.mp isRoot
          obtain ⟨root, _, rfl⟩ := List.mem_map.mp inferred
          exact Or.inl ⟨root, rfl⟩
        · exact Or.inr ⟨_, order, inPackages⟩

theorem buildTaskList_dependencies (isPackage : task.isRoot = false) :
    ∃ package, dag.packages task.packageName = some package ∧
      task.depPackageNames = package.dependencies := by
  obtain ⟨plain, rfl, isTask⟩ := buildTaskList_mem built member
  obtain ⟨sameName, sameDeps, sameRoot⟩ := withSandboxMode_package config plain
  rw [sameName, sameDeps]
  rcases isTask with ⟨root, rfl⟩ | ⟨skipPackages, order, inPackages⟩
  · rw [sameRoot] at isPackage
    simp [rootTask] at isPackage
  · exact packageTasks_dependencies inPackages

/-- A root task waits for nothing. -/
theorem buildTaskList_root (isRoot : task.isRoot = true) : task.depPackageNames = [] := by
  obtain ⟨plain, rfl, isTask⟩ := buildTaskList_mem built member
  obtain ⟨_, sameDeps, sameRoot⟩ := withSandboxMode_package config plain
  rw [sameDeps]
  rcases isTask with ⟨root, rfl⟩ | ⟨skipPackages, order, inPackages⟩
  · rfl
  · rw [sameRoot] at isRoot
    obtain ⟨name, _, isTask⟩ := List.mem_filterMap.mp inPackages
    split at isTask
    · simp at isTask
    · obtain ⟨package, _, isTask⟩ := Option.bind_eq_some_iff.mp isTask
      obtain ⟨command, _, rfl⟩ := Option.map_eq_some_iff.mp isTask
      simp [packageTask] at isRoot

end Built

theorem retainScope_mem {scope : Bytes → Bool} {tasks : List Task} {task : Task}
    (member : task ∈ retainScope scope tasks) : task ∈ tasks :=
  List.mem_of_mem_filter member

end Rage
