import Rage.HubBuild
import Rage.Layers
import Rage.Overlay

/-!
The waves of tasks that `compute_task_levels` makes.  Root tasks come first; a package task comes
one wave after the last of the tasks that its package directly needs.
-/

namespace Rage.TaskLevels

/-! `compute_task_levels`. -/

/-- `partition` by `is_root`. -/
def rootTasks (tasks : List Task) : List Task := tasks.filter fun task => task.isRoot
def packageTasks (tasks : List Task) : List Task := tasks.filter fun task => !task.isRoot

/-- Inserting into a hash map keeps the last task of a name. -/
def taskMap (tasks : List Task) : Bytes → Option Task :=
  (packageTasks tasks).foldl (fun map task => Function.update map task.packageName (some task))
    fun _ => none

structure Levels where
  levelOf : Bytes → Option Nat
  packageLevels : List (List Task)

/-- `resize_with` adds levels, and never takes any away. -/
def pushAt (levels : List (List Task)) (level : Nat) (task : Task) : List (List Task) :=
  (levels ++ List.replicate (level + 1 - levels.length) []).modify level (· ++ [task])

def addPackage (dag : WorkspaceDag) (map : Bytes → Option Task) (levels : Levels) (name : Bytes) :
    Levels :=
  match map name with
  | none => levels
  | some task =>
      match dag.packages name with
      | none => levels
      | some package =>
          let level := (((package.dependencies.filter fun dep => (map dep).isSome).filterMap
            levels.levelOf).max?.map (· + 1)).getD 0
          ⟨Function.update levels.levelOf name (some level), pushAt levels.packageLevels level task⟩

def sortByName (level : List Task) : List Task :=
  level.insertionSort fun first second => ¬ second.packageName < first.packageName

/-- `none` is the `expect` on the topological order. -/
def computeTaskLevels (petgraph : Petgraph) (dag : WorkspaceDag) (tasks : List Task) :
    Option (List (List Task)) :=
  match dag.topologicalSort petgraph with
  | .error _ => none
  | .ok order =>
      let placed := order.foldl (addPackage dag (taskMap tasks)) ⟨fun _ => none, []⟩
      let levels := placed.packageLevels.map sortByName
      some (if rootTasks tasks = [] then levels else sortByName (rootTasks tasks) :: levels)

/-! What the waves are to be. -/

def HasTask (tasks : List Task) (name : Bytes) : Prop :=
  ∃ task ∈ packageTasks tasks, task.packageName = name

/-- A chain of packages with tasks, each a direct dependency of the next, and its number of
steps. -/
inductive Chain (dag : WorkspaceDag) (tasks : List Task) : Nat → Bytes → Prop
  | single {name : Bytes} : HasTask tasks name → Chain dag tasks 0 name
  | extend {length : Nat} {name dep : Bytes} : Chain dag tasks length dep →
      dag.DependsOn name dep → HasTask tasks name → Chain dag tasks (length + 1) name

/-- The number of waves before those of the packages. -/
def offset (tasks : List Task) : Nat := if rootTasks tasks = [] then 0 else 1

structure Layered (dag : WorkspaceDag) (tasks : List Task) (levels : List (List Task)) : Prop where
  perm : levels.flatten.Perm tasks
  rootsFirst : rootTasks tasks ≠ [] →
    ∃ roots packages, levels = roots :: packages ∧ roots.Perm (rootTasks tasks)
  earlier : ∀ (level : Nat) wave, levels[level]? = some wave → ∀ task ∈ wave,
    task.isRoot = false → ∀ other ∈ packageTasks tasks,
      dag.DependsOn task.packageName other.packageName →
        ∃ lower, lower < level ∧ ∃ below, levels[lower]? = some below ∧ other ∈ below
  longest : ∀ (level : Nat) wave, levels[level]? = some wave → ∀ task ∈ wave,
    task.isRoot = false → ∃ length, level = offset tasks + length ∧
      IsGreatest {length | Chain dag tasks length task.packageName} length
  filled : ∀ wave ∈ levels, wave ≠ []

/-! The map of tasks. -/

theorem taskMap_iff {tasks : List Task}
    (distinct : ((packageTasks tasks).map Task.packageName).Nodup) {name : Bytes} {task : Task} :
    taskMap tasks name = some task ↔ task ∈ packageTasks tasks ∧ task.packageName = name := by
  constructor
  · exact Overlay.keyed_spec
  · rintro ⟨member, rfl⟩
    exact Overlay.keyed_self distinct member

/-! The waves as the layers of an order. -/

def needs (dag : WorkspaceDag) (name : Bytes) : List Bytes :=
  ((dag.packages name).map Package.dependencies).getD []

theorem mem_needs {dag : WorkspaceDag} {name dep : Bytes} :
    dep ∈ needs dag name ↔ dag.DependsOn name dep := by
  unfold needs WorkspaceDag.DependsOn
  cases dag.packages name with
  | none => simp
  | some package => simp

def Levels.placing (levels : Levels) : Layers.Placing Bytes Task :=
  ⟨levels.levelOf, levels.packageLevels⟩

/-- Where every package with a task is known, adding a package is placing it. -/
theorem addPackage_placing {dag : WorkspaceDag} {map : Bytes → Option Task}
    (known : ∀ name task, map name = some task → ∃ package, dag.packages name = some package)
    (levels : Levels) (name : Bytes) : (addPackage dag map levels name).placing =
      levels.placing.place (needs dag) map name := by
  unfold addPackage Layers.Placing.place
  cases held : map name with
  | none => rfl
  | some task =>
      obtain ⟨package, isPackage⟩ := known name task held
      have deps : needs dag name = package.dependencies := by simp [needs, isPackage]
      simp only [isPackage, Layers.height, deps]
      rfl

theorem foldl_placing {dag : WorkspaceDag} {map : Bytes → Option Task}
    (known : ∀ name task, map name = some task → ∃ package, dag.packages name = some package)
    (order : List Bytes) (levels : Levels) : (order.foldl (addPackage dag map) levels).placing =
      order.foldl (fun placing => placing.place (needs dag) map) levels.placing := by
  induction order generalizing levels with
  | nil => rfl
  | cons name order ih => rw [List.foldl_cons, ih, addPackage_placing known, List.foldl_cons]

theorem hasTask_iff {tasks : List Task}
    (distinct : ((packageTasks tasks).map Task.packageName).Nodup) {name : Bytes} :
    Layers.isHeld (taskMap tasks) name = true ↔ HasTask tasks name := by
  simp only [Layers.isHeld, Option.isSome_iff_exists, taskMap_iff distinct, HasTask]

theorem chain_iff {dag : WorkspaceDag} {tasks : List Task}
    (distinct : ((packageTasks tasks).map Task.packageName).Nodup) {length : Nat} {name : Bytes} :
    Layers.Chain (needs dag) (Layers.isHeld (taskMap tasks)) length name ↔
      Chain dag tasks length name := by
  constructor
  · intro chain
    induction chain with
    | single held => exact .single ((hasTask_iff distinct).mp held)
    | extend _ needed held ih =>
        exact .extend ih (mem_needs.mp needed) ((hasTask_iff distinct).mp held)
  · intro chain
    induction chain with
    | single held => exact .single ((hasTask_iff distinct).mpr held)
    | extend _ needed held ih =>
        exact .extend ih (mem_needs.mpr needed) ((hasTask_iff distinct).mpr held)

/-! The order of the packages. -/

section Order

variable {petgraph : Petgraph} {packages : List Package} {dag : WorkspaceDag}

theorem nodeOrder (sorts : petgraph.Sorts) (built : WorkspaceDag.buildDag petgraph packages = .ok dag)
    {order : List Bytes} (sorted : dag.topologicalSort petgraph = .ok order) :
    ∃ nodes : List Nat, order = nodes.map (fun node => (packages.map Package.name).getD node []) ∧
      nodes.Perm (List.range packages.length) ∧
      ∀ edge ∈ dag.edges, nodes.idxOf edge.2 < nodes.idxOf edge.1 := by
  obtain ⟨isBuilt, -⟩ := WorkspaceDag.built_of_buildDag built
  unfold WorkspaceDag.topologicalSort at sorted
  split at sorted
  · simp at sorted
  · rename_i nodes ordered
    rw [isBuilt.nodes, List.length_map] at ordered
    obtain ⟨perm, along⟩ := sorts.ordered _ _ nodes (by
      intro edge member
      obtain ⟨original, isEdge, rfl⟩ := List.mem_map.mp member
      exact (isBuilt.bounded original isEdge).symm) ordered
    refine ⟨nodes, ?_, perm, fun edge member => ?_⟩
    · rw [← Except.ok.inj sorted, isBuilt.nodes]
    · exact along edge.swap (List.mem_map_of_mem member)

theorem getD_nodeIndices {name : Bytes} {node : Nat}
    (found : WorkspaceDag.nodeIndices packages name = some node) :
    (packages.map Package.name).getD node [] = name := by
  rw [List.getD_eq_getElem?_getD, WorkspaceDag.nodeIndices_name found, Option.getD_some]

theorem getD_injective (distinct : (packages.map Package.name).Nodup) {first second : Nat}
    (firstBound : first < packages.length) (secondBound : second < packages.length)
    (same : (packages.map Package.name).getD first [] = (packages.map Package.name).getD second []) :
    first = second := by
  have bound : first < (packages.map Package.name).length := by simpa using firstBound
  have otherBound : second < (packages.map Package.name).length := by simpa using secondBound
  rw [List.getD_eq_getElem?_getD, List.getD_eq_getElem?_getD, List.getElem?_eq_getElem bound,
    List.getElem?_eq_getElem otherBound, Option.getD_some, Option.getD_some] at same
  exact (distinct.getElem_inj_iff).mp same

/-- What comes earlier among the nodes stands in any front part that ends later. -/
theorem mem_front_of_idxOf {nodes front back : List Nat} {node other : Nat}
    (split : nodes = front ++ node :: back) (distinct : nodes.Nodup)
    (earlier : nodes.idxOf other < nodes.idxOf node) : other ∈ front := by
  subst split
  have fresh : node ∉ front := fun member =>
    (List.nodup_append.mp distinct).2.2 node member node List.mem_cons_self rfl
  by_contra absent
  rw [List.idxOf_append_of_notMem fresh, List.idxOf_append_of_notMem absent,
    List.idxOf_cons_self] at earlier
  omega

/-- Before a package of which there is one stand its dependencies. -/
theorem dependencies_before (sorts : petgraph.Sorts)
    (built : WorkspaceDag.buildDag petgraph packages = .ok dag) {order : List Bytes}
    (sorted : dag.topologicalSort petgraph = .ok order) {front back : List Bytes} {name : Bytes}
    (split : order = front ++ name :: back)
    (single : ∀ first second, first < packages.length → second < packages.length →
      (packages.map Package.name).getD first [] = name →
      (packages.map Package.name).getD second [] = name → first = second)
    {dep : Bytes} (needed : dep ∈ needs dag name) : dep ∈ front := by
  obtain ⟨isBuilt, -⟩ := WorkspaceDag.built_of_buildDag built
  obtain ⟨nodes, rfl, perm, along⟩ := nodeOrder sorts built sorted
  obtain ⟨nodeFront, rest, isSplit, rfl, isRest⟩ := List.map_eq_append_iff.mp split
  obtain ⟨node, nodeBack, rfl, isName, rfl⟩ := List.map_eq_cons_iff.mp isRest
  obtain ⟨manifest, isManifest, listed⟩ := mem_needs.mp needed
  rw [isBuilt.kept] at isManifest
  obtain ⟨inPackages, sameName⟩ := WorkspaceDag.packageMap_spec isManifest
  obtain ⟨src, dst, edge, isSrc, isDst⟩ := isBuilt.edges name dep ⟨manifest, inPackages, sameName,
    listed⟩
  have bound : node < packages.length :=
    List.mem_range.mp (perm.mem_iff.mp (by simp [isSplit]))
  obtain rfl := single src node (WorkspaceDag.nodeIndices_mem isSrc).2 bound (getD_nodeIndices isSrc)
    isName
  have inFront := mem_front_of_idxOf isSplit (perm.nodup_iff.mpr List.nodup_range) (along _ edge)
  rw [← getD_nodeIndices isDst]
  exact List.mem_map_of_mem inFront

/-- The order names every package as often as it is listed. -/
theorem order_perm (sorts : petgraph.Sorts)
    (built : WorkspaceDag.buildDag petgraph packages = .ok dag) {order : List Bytes}
    (sorted : dag.topologicalSort petgraph = .ok order) :
    order.Perm (packages.map Package.name) := by
  obtain ⟨nodes, rfl, perm, -⟩ := nodeOrder sorts built sorted
  have whole : (List.range packages.length).map
      (fun node => (packages.map Package.name).getD node []) = packages.map Package.name := by
    refine List.ext_getElem (by simp) fun node bound _ => ?_
    have inRange : node < packages.length := by simpa using bound
    simp [inRange]
  have mapped := perm.map fun node => (packages.map Package.name).getD node []
  rwa [whole] at mapped

/-- The names come in an order in which the dependencies of a package stand before it. -/
theorem topological_order (sorts : petgraph.Sorts)
    (built : WorkspaceDag.buildDag petgraph packages = .ok dag)
    (distinct : (packages.map Package.name).Nodup) :
    ∃ order, dag.topologicalSort petgraph = .ok order ∧ order.Nodup ∧
      (∀ name, name ∈ order ↔ name ∈ packages.map Package.name) ∧
      Layers.Topological (needs dag) order := by
  obtain ⟨order, sorted, members⟩ := WorkspaceDag.topologicalSort_ok sorts built
  refine ⟨order, sorted, (order_perm sorts built sorted).nodup_iff.mpr distinct, members, ?_⟩
  intro front name back split dep needed
  refine dependencies_before sorts built sorted split ?_ needed
  intro first second firstBound secondBound isFirst isSecond
  exact getD_injective distinct firstBound secondBound (isFirst.trans isSecond.symm)

end Order

/-! The waves. -/

theorem sortByName_perm (level : List Task) : (sortByName level).Perm level :=
  List.perm_insertionSort _ level

theorem flatten_sorted (levels : List (List Task)) :
    (levels.map sortByName).flatten.Perm levels.flatten := by
  induction levels with
  | nil => exact .refl _
  | cons level levels ih =>
      rw [List.map_cons, List.flatten_cons, List.flatten_cons]
      exact (sortByName_perm level).append ih

section Waves

variable {petgraph : Petgraph} {packages : List Package} {dag : WorkspaceDag} {tasks : List Task}
  {order : List Bytes} {placing : Layers.Placing Bytes Task}

/-- Every package task is placed once. -/
theorem placed_perm (distinct : ((packageTasks tasks).map Task.packageName).Nodup)
    (orderDistinct : order.Nodup)
    (named : ∀ task ∈ packageTasks tasks, task.packageName ∈ order) :
    (order.filterMap (taskMap tasks)).Perm (packageTasks tasks) := by
  refine (List.perm_ext_iff_of_nodup ?_ distinct.of_map).mpr fun task => ?_
  · refine orderDistinct.filterMap fun first second task isFirst isSecond => ?_
    rw [← ((taskMap_iff distinct).mp isFirst).2, ← ((taskMap_iff distinct).mp isSecond).2]
  · rw [List.mem_filterMap]
    constructor
    · rintro ⟨name, -, held⟩
      exact ((taskMap_iff distinct).mp held).1
    · intro member
      exact ⟨task.packageName, named task member, (taskMap_iff distinct).mpr ⟨member, rfl⟩⟩

def waves (tasks : List Task) (layers : List (List Task)) : List (List Task) :=
  if rootTasks tasks = [] then layers.map sortByName
  else sortByName (rootTasks tasks) :: layers.map sortByName

theorem waves_perm {layers : List (List Task)} (perm : layers.flatten.Perm (packageTasks tasks)) :
    (waves tasks layers).flatten.Perm tasks := by
  have whole : (rootTasks tasks ++ packageTasks tasks).Perm tasks :=
    List.filter_append_perm Task.isRoot tasks
  have sorted := (flatten_sorted layers).trans perm
  unfold waves
  split
  · rename_i noRoots
    rw [noRoots, List.nil_append] at whole
    exact sorted.trans whole
  · rw [List.flatten_cons]
    exact ((sortByName_perm _).append sorted).trans whole

/-- A package task on a wave stands on the layer that many below the roots. -/
theorem layer_of_wave {layers : List (List Task)} {level : Nat} {wave : List Task}
    (isWave : (waves tasks layers)[level]? = some wave) {task : Task} (member : task ∈ wave)
    (isPackage : task.isRoot = false) :
    ∃ lower layer, level = offset tasks + lower ∧ layers[lower]? = some layer ∧ task ∈ layer := by
  have layerOf {lower : Nat} (isSorted : (layers.map sortByName)[lower]? = some wave) :
      ∃ layer, layers[lower]? = some layer ∧ task ∈ layer := by
    rw [List.getElem?_map, Option.map_eq_some_iff] at isSorted
    obtain ⟨layer, isLayer, rfl⟩ := isSorted
    exact ⟨layer, isLayer, (sortByName_perm layer).mem_iff.mp member⟩
  unfold waves at isWave
  unfold offset
  split at isWave
  · rename_i noRoots
    obtain ⟨layer, isLayer, inLayer⟩ := layerOf isWave
    exact ⟨level, layer, by simp [noRoots], isLayer, inLayer⟩
  · rename_i someRoots
    cases level with
    | zero =>
        obtain rfl := Option.some.inj isWave
        have isRoot := (List.mem_filter.mp ((sortByName_perm _).mem_iff.mp member)).2
        simp [isPackage] at isRoot
    | succ lower =>
        obtain ⟨layer, isLayer, inLayer⟩ := layerOf isWave
        exact ⟨lower, layer, by simp [someRoots, Nat.add_comm], isLayer, inLayer⟩

theorem wave_of_layer (tasks : List Task) {layers : List (List Task)} {lower : Nat} {layer : List Task}
    (isLayer : layers[lower]? = some layer) {task : Task} (member : task ∈ layer) :
    ∃ wave, (waves tasks layers)[offset tasks + lower]? = some wave ∧ task ∈ wave := by
  refine ⟨sortByName layer, ?_, (sortByName_perm layer).mem_iff.mpr member⟩
  unfold waves offset
  split
  · simp [isLayer]
  · simp [isLayer, Nat.add_comm]

/-- The level of a task that is placed is the length of its longest chain. -/
theorem longest_of_placed (distinct : ((packageTasks tasks).map Task.packageName).Nodup)
    (placed : Layers.Placed (needs dag) (taskMap tasks) order placing) {lower : Nat}
    {layer : List Task} (isLayer : placing.layers[lower]? = some layer) {task : Task}
    (member : task ∈ layer) :
    task ∈ packageTasks tasks ∧
      IsGreatest {length | Chain dag tasks length task.packageName} lower := by
  obtain ⟨name, inOrder, held, isLevel⟩ := placed.stands lower layer isLayer task member
  obtain ⟨isTask, rfl⟩ := (taskMap_iff distinct).mp held
  obtain ⟨length, isLength, longest⟩ := placed.longest _ inOrder (by simp [Layers.isHeld, held])
  obtain rfl := Option.some.inj (isLevel.symm.trans isLength)
  refine ⟨isTask, ?_⟩
  simpa only [Layers.Longest, chain_iff distinct] using longest

theorem layered_of_placed (distinct : ((packageTasks tasks).map Task.packageName).Nodup)
    (orderDistinct : order.Nodup)
    (named : ∀ task ∈ packageTasks tasks, task.packageName ∈ order)
    (placed : Layers.Placed (needs dag) (taskMap tasks) order placing) :
    Layered dag tasks (waves tasks placing.layers) where
  perm := waves_perm (placed.perm.trans (placed_perm distinct orderDistinct named))
  rootsFirst := fun someRoots =>
    ⟨_, _, if_neg someRoots, sortByName_perm _⟩
  earlier := fun level wave isWave task member isPackage other isOther depends => by
    obtain ⟨high, layer, rfl, isLayer, inLayer⟩ := layer_of_wave isWave member isPackage
    obtain ⟨isTask, longest⟩ := longest_of_placed distinct placed isLayer inLayer
    have inLayers : other ∈ placing.layers.flatten :=
      (placed.perm.trans (placed_perm distinct orderDistinct named)).mem_iff.mpr isOther
    obtain ⟨below, inPlacing, inBelow⟩ := List.mem_flatten.mp inLayers
    obtain ⟨low, isBelow⟩ := List.mem_iff_getElem?.mp inPlacing
    obtain ⟨-, otherLongest⟩ := longest_of_placed distinct placed isBelow inBelow
    obtain ⟨lowWave, isLowWave, inLowWave⟩ := wave_of_layer tasks isBelow inBelow
    have longer := longest.2 (.extend otherLongest.1 depends ⟨task, isTask, rfl⟩)
    exact ⟨offset tasks + low, by omega, lowWave, isLowWave, inLowWave⟩
  longest := fun level wave isWave task member isPackage => by
    obtain ⟨lower, layer, isLevel, isLayer, inLayer⟩ := layer_of_wave isWave member isPackage
    exact ⟨lower, isLevel, (longest_of_placed distinct placed isLayer inLayer).2⟩
  filled := fun wave member => by
    have sortedFilled : ∀ wave ∈ placing.layers.map sortByName, wave ≠ [] := by
      intro wave member
      obtain ⟨layer, inLayers, rfl⟩ := List.mem_map.mp member
      exact fun isEmpty => placed.filled layer inLayers
        (List.perm_nil.mp (isEmpty ▸ (sortByName_perm layer).symm))
    unfold waves at member
    split at member
    · exact sortedFilled wave member
    · rename_i someRoots
      rcases List.mem_cons.mp member with rfl | later
      · exact fun isEmpty => someRoots
          (List.perm_nil.mp (isEmpty ▸ (sortByName_perm (rootTasks tasks)).symm))
      · exact sortedFilled wave later

end Waves

/-- The waves are the layers of longest chains, behind the one of the root tasks. -/
theorem levels_are_longest_chains (petgraph : Petgraph) (sorts : petgraph.Sorts)
    (packages : List Package) (distinctPackages : (packages.map Package.name).Nodup)
    (dag : WorkspaceDag) (built : WorkspaceDag.buildDag petgraph packages = .ok dag)
    (tasks : List Task) (distinct : ((packageTasks tasks).map Task.packageName).Nodup)
    (ofPackages : ∀ task ∈ packageTasks tasks, task.packageName ∈ packages.map Package.name) :
    ∃ levels, computeTaskLevels petgraph dag tasks = some levels ∧ Layered dag tasks levels := by
  obtain ⟨order, sorted, orderDistinct, members, topological⟩ :=
    topological_order sorts built distinctPackages
  obtain ⟨isBuilt, -⟩ := WorkspaceDag.built_of_buildDag built
  have known : ∀ name task, taskMap tasks name = some task →
      ∃ package, dag.packages name = some package := by
    intro name task held
    obtain ⟨member, rfl⟩ := (taskMap_iff distinct).mp held
    obtain ⟨package, inPackages, sameName⟩ := List.mem_map.mp (ofPackages task member)
    rw [isBuilt.kept, ← sameName]
    exact WorkspaceDag.packageMap_isSome inPackages
  have placed : Layers.Placed (needs dag) (taskMap tasks) order _ :=
    Layers.placed_along orderDistinct topological
  have same := foldl_placing known order ⟨fun _ => none, []⟩
  refine ⟨_, ?_, layered_of_placed distinct orderDistinct
    (fun task member => (members _).mpr (ofPackages task member)) placed⟩
  have layers := congrArg Layers.Placing.layers same
  unfold computeTaskLevels waves
  simp only [sorted]
  rw [show (order.foldl (addPackage dag (taskMap tasks)) ⟨fun _ => none, []⟩).packageLevels = _
    from layers]
  rfl

abbrev install : Task :=
  rootTask (utf8 "/ws") ⟨utf8 "install", utf8 "yarn install", [], []⟩

theorem levels_are_longest_chains_chain :
    ∃ levels, computeTaskLevels MissingScript.petgraph MissingScript.dag
        (install :: MissingScript.chain) = some levels ∧
      Layered MissingScript.dag (install :: MissingScript.chain) levels :=
  levels_are_longest_chains MissingScript.petgraph MissingScript.sorts MissingScript.packages
    MissingScript.distinct MissingScript.dag MissingScript.isDag (install :: MissingScript.chain)
    (by decide +kernel) (by decide +kernel)

end Rage.TaskLevels
