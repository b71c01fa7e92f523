import Mathlib.Data.Finset.Card
import Mathlib.Data.Finset.Dedup
import Rage.HubBuild
import Rage.Search

/-!
The scope of `--to`: the target with all that it depends on.  The queue may hold a name again and
again, the packages may depend on each other in cycles, and on names that are no package.
-/

namespace Rage

/-- The packages are in a hash map, which has finitely many keys. -/
structure HashedDag extends WorkspaceDag where
  keys : Finset Bytes
  isKey : ∀ name package, packages name = some package → name ∈ keys

namespace HashedDag

variable {dag : HashedDag}

theorem unvisited_lt {closure : Finset Bytes} {name : Bytes} {package : Package}
    (known : dag.packages name = some package) (new : name ∉ closure) :
    (dag.keys \ insert name closure).card < (dag.keys \ closure).card := by
  refine Finset.card_lt_card (Finset.ssubset_iff_subset_ne.mpr ⟨?_, fun same => ?_⟩)
  · exact Finset.sdiff_subset_sdiff (Finset.Subset.refl _) (Finset.subset_insert _ _)
  · have isIn := Finset.mem_sdiff.mpr ⟨dag.isKey name package known, new⟩
    rw [← same] at isIn
    exact (Finset.mem_sdiff.mp isIn).2 (Finset.mem_insert_self _ _)

theorem unvisited_le (keys closure : Finset Bytes) (name : Bytes) :
    (keys \ insert name closure).card ≤ (keys \ closure).card :=
  Finset.card_le_card
    (Finset.sdiff_subset_sdiff (Finset.Subset.refl _) (Finset.subset_insert _ _))

def unseen (closure : Finset Bytes) (pkg : Package) : List Bytes :=
  pkg.dependencies.filter (· ∉ closure)

/-- Each round visits a key, or takes a name out of the queue and puts none in. -/
def drainQueue (dag : HashedDag) (closure : Finset Bytes) (queue : List Bytes) : Finset Bytes :=
  match queue with
  | [] => closure
  | pkgName :: queue =>
      if pkgName ∈ closure then dag.drainQueue closure queue
      else
        match _known : dag.packages pkgName with
        | some pkg =>
            dag.drainQueue (insert pkgName closure)
              (queue ++ unseen (insert pkgName closure) pkg)
        | none => dag.drainQueue (insert pkgName closure) queue
termination_by ((dag.keys \ closure).card, queue.length)
decreasing_by
  · exact Prod.Lex.right _ (Nat.lt_succ_self _)
  · exact Prod.Lex.left _ _ (unvisited_lt _known ‹_›)
  · rcases Nat.lt_or_eq_of_le (unvisited_le dag.keys closure pkgName) with fewer | same
    · exact Prod.Lex.left _ _ fewer
    · rw [same]
      exact Prod.Lex.right _ (Nat.lt_succ_self _)

def transitiveDepClosure (dag : HashedDag) (target : Bytes) : Finset Bytes :=
  dag.drainQueue ∅ [target]

/-- What `cmd_run` makes of `--to`; the error is its message. -/
def scopeTo (dag : HashedDag) (target : Bytes) (tasks : List Task) : Except Bytes (List Task) :=
  if (dag.packages target).isSome then
    .ok (retainScope (fun name => decide (name ∈ dag.transitiveDepClosure target)) tasks)
  else
    .error (utf8 "package '" ++ target ++
      utf8 "' not found in workspace — check the name in package.json")

/-- What a task depends on: the packages that it waits for, and what they depend on, whether there
is a task of theirs or not. -/
def Needs (dag : WorkspaceDag) (task other : Task) : Prop :=
  ∃ dep ∈ task.depPackageNames, Relation.ReflTransGen dag.DependsOn dep other.packageName

/-! What is reached along dependencies. -/

def dependencies (dag : HashedDag) (name : Bytes) : List Bytes :=
  ((dag.packages name).map Package.dependencies).getD []

theorem edge_iff {name dep : Bytes} :
    Search.Edge dag.dependencies name dep ↔ dag.DependsOn name dep := by
  unfold Search.Edge dependencies WorkspaceDag.DependsOn
  cases dag.packages name with
  | none => simp
  | some package => simp

section Drain

variable {closure : Finset Bytes} {pkgName : Bytes} {queue : List Bytes} (new : pkgName ∉ closure)

include new

theorem drainQueue_package {package : Package} (known : dag.packages pkgName = some package) :
    dag.drainQueue closure (pkgName :: queue) =
      dag.drainQueue (insert pkgName closure)
        (queue ++ unseen (insert pkgName closure) package) := by
  rw [drainQueue, if_neg new]
  split
  · rename_i other isOther
    obtain rfl := Option.some.inj (known.symm.trans isOther)
    rfl
  · rename_i unknown
    rw [known] at unknown
    contradiction

theorem drainQueue_unknown (unknown : dag.packages pkgName = none) :
    dag.drainQueue closure (pkgName :: queue) = dag.drainQueue (insert pkgName closure) queue := by
  rw [drainQueue, if_neg new]
  split
  · rename_i other isOther
    rw [unknown] at isOther
    contradiction
  · rfl

end Drain

/-- From any point of the search on: the induction is on the rounds that are left. -/
theorem mem_drainQueue {target : Bytes} {closure : Finset Bytes} {queue : List Bytes}
    (draining : Search.Draining dag.dependencies target closure queue) (name : Bytes) :
    name ∈ dag.drainQueue closure queue ↔ Relation.ReflTransGen dag.DependsOn target name := by
  induction closure, queue using drainQueue.induct dag with
  | case1 closure =>
      have same : Search.Edge dag.dependencies = dag.DependsOn := by
        funext first second
        exact propext edge_iff
      rw [drainQueue, draining.complete, same]
  | case2 closure pkgName queue isVisited ih =>
      rw [drainQueue, if_pos isVisited]
      exact ih (draining.skip isVisited)
  | case3 closure pkgName queue new package known ih =>
      have isDependency : dag.dependencies pkgName = package.dependencies := by
        rw [dependencies, known, Option.map_some, Option.getD_some]
      rw [drainQueue_package new known]
      refine ih (draining.visit ?_ ?_)
      · intro other member
        rw [isDependency]
        exact List.mem_of_mem_filter member
      · intro other isNext
        rw [isDependency] at isNext
        by_cases isVisited : other ∈ insert pkgName closure
        · exact Or.inl isVisited
        · exact Or.inr (List.mem_filter.mpr ⟨isNext, decide_eq_true isVisited⟩)
  | case4 closure pkgName queue new unknown ih =>
      rw [drainQueue_unknown new unknown]
      refine ih ?_
      rw [← List.append_nil queue]
      refine draining.visit (by simp) ?_
      intro other isNext
      simp [dependencies, unknown] at isNext

theorem mem_transitiveDepClosure {target name : Bytes} :
    name ∈ dag.transitiveDepClosure target ↔ Relation.ReflTransGen dag.DependsOn target name :=
  mem_drainQueue (.initial target) name

theorem closed_transitiveDepClosure {target name dep : Bytes}
    (member : name ∈ dag.transitiveDepClosure target) (dependsOn : dag.DependsOn name dep) :
    dep ∈ dag.transitiveDepClosure target :=
  mem_transitiveDepClosure.mpr ((mem_transitiveDepClosure.mp member).tail dependsOn)

/-! The tasks that are left. -/

section Tasks

variable {petgraph : Petgraph} {parseScript : Bytes → Bytes → Option Bytes}
  {plugins : List TaskPlugin} {fs : FileSystem} {workspaceRoot : Path} {script : Bytes}
  {config : RageConfig} {target : Bytes} {tasks left : List Task}
  (isScope : dag.scopeTo target tasks = .ok left)

include isScope

theorem mem_scopeTo {task : Task} : task ∈ left ↔
    task ∈ tasks ∧ (task.isRoot = true ∨ task.packageName ∈ dag.transitiveDepClosure target) := by
  unfold scopeTo at isScope
  split at isScope
  · obtain rfl := Except.ok.inj isScope
    simp [retainScope]
  · simp at isScope

variable (built : buildTaskListWithConfig petgraph parseScript plugins fs workspaceRoot
  dag.toWorkspaceDag script config = .ok tasks) {kept : Task} (member : kept ∈ left)

include built member

theorem dependency_in_closure {dep : Bytes} (isDependency : dep ∈ kept.depPackageNames) :
    dep ∈ dag.transitiveDepClosure target := by
  obtain ⟨listed, isRoot | inClosure⟩ := (mem_scopeTo isScope).mp member
  · rw [buildTaskList_root built listed isRoot] at isDependency
    exact (List.not_mem_nil isDependency).elim
  · by_cases isRoot : kept.isRoot = true
    · rw [buildTaskList_root built listed isRoot] at isDependency
      exact (List.not_mem_nil isDependency).elim
    · obtain ⟨package, known, same⟩ :=
        buildTaskList_dependencies built listed (Bool.eq_false_iff.mpr isRoot)
      exact closed_transitiveDepClosure inClosure ⟨package, known, same ▸ isDependency⟩

theorem needed_kept {other : Task} (inTasks : other ∈ tasks)
    (needs : Needs dag.toWorkspaceDag kept other) : other ∈ left := by
  obtain ⟨dep, isDependency, path⟩ := needs
  have inClosure := dependency_in_closure isScope built member isDependency
  refine (mem_scopeTo isScope).mpr ⟨inTasks, Or.inr ?_⟩
  exact mem_transitiveDepClosure.mpr ((mem_transitiveDepClosure.mp inClosure).trans path)

/-- In the scheduler a task that is kept waits for what it waited for in the whole list. -/
theorem receivers_same (abortOnPanic : Bool) :
    kept.depPackageNames.filter (TaskSet.ofTasks left abortOnPanic).hasTask =
      kept.depPackageNames.filter (TaskSet.ofTasks tasks abortOnPanic).hasTask := by
  refine List.filter_congr fun dep isDependency => Bool.eq_iff_iff.mpr ?_
  have inClosure := dependency_in_closure isScope built member isDependency
  simp only [TaskSet.hasTask, TaskSet.ofTasks, List.any_eq_true, List.mem_filter, beq_iff_eq]
  constructor
  · rintro ⟨task, ⟨isKept, isPackage⟩, isName⟩
    exact ⟨task, ⟨((mem_scopeTo isScope).mp isKept).1, isPackage⟩, isName⟩
  · rintro ⟨task, ⟨listed, isPackage⟩, isName⟩
    exact ⟨task, ⟨(mem_scopeTo isScope).mpr ⟨listed, Or.inr (isName ▸ inClosure)⟩, isPackage⟩,
      isName⟩

end Tasks

/-- The closure is what can be reached, nothing that it depends on is outside it, and no task is
left out on which a task that stays depends. -/
theorem scopeTo_closed (dag : HashedDag) (target : Bytes) :
    (∀ name, name ∈ dag.transitiveDepClosure target ↔
      Relation.ReflTransGen dag.DependsOn target name) ∧
    (∀ name ∈ dag.transitiveDepClosure target, ∀ dep, dag.DependsOn name dep →
      dep ∈ dag.transitiveDepClosure target) ∧
    ∀ petgraph parseScript plugins fs workspaceRoot script config tasks left,
      buildTaskListWithConfig petgraph parseScript plugins fs workspaceRoot dag.toWorkspaceDag
        script config = .ok tasks →
      dag.scopeTo target tasks = .ok left →
      ∀ kept ∈ left, ∀ other ∈ tasks, Needs dag.toWorkspaceDag kept other → other ∈ left := by
  refine ⟨fun name => mem_transitiveDepClosure, ?_, ?_⟩
  · intro name member dep dependsOn
    exact closed_transitiveDepClosure member dependsOn
  · intro petgraph parseScript plugins fs workspaceRoot script config tasks left built isScope
      kept isKept other inTasks needs
    exact needed_kept isScope built isKept inTasks needs

/-! A graph that is built has a hash map of its packages. -/

def ofBuilt {petgraph : Petgraph} {packages : List Package} {dag : WorkspaceDag}
    (built : WorkspaceDag.buildDag petgraph packages = .ok dag) : HashedDag where
  toWorkspaceDag := dag
  keys := (packages.map Package.name).toFinset
  isKey := by
    intro name package known
    rw [(WorkspaceDag.built_of_buildDag built).1.kept] at known
    obtain ⟨member, rfl⟩ := WorkspaceDag.packageMap_spec known
    exact List.mem_toFinset.mpr (List.mem_map_of_mem member)

/-- `app` needs `core` through `lib`, which has no task. -/
theorem scopeTo_closed_ends : ∃ left,
    (ofBuilt MissingScript.isDag).scopeTo (utf8 "app") MissingScript.ends = .ok left ∧
      MissingScript.task "core" [] ∈ left := by
  have known : ((ofBuilt MissingScript.isDag).packages (utf8 "app")).isSome = true := by decide
  obtain ⟨left, isScope⟩ : ∃ left,
      (ofBuilt MissingScript.isDag).scopeTo (utf8 "app") MissingScript.ends = .ok left :=
    ⟨_, if_pos known⟩
  have app : MissingScript.task "app" ["lib"] ∈ left :=
    (mem_scopeTo isScope).mpr ⟨by simp [MissingScript.ends], Or.inr (mem_transitiveDepClosure.mpr
      .refl)⟩
  have needs : Needs (ofBuilt MissingScript.isDag).toWorkspaceDag
      (MissingScript.task "app" ["lib"]) (MissingScript.task "core" []) :=
    ⟨utf8 "lib", by decide, .single ⟨_, rfl, by decide⟩⟩
  exact ⟨left, isScope, (scopeTo_closed (ofBuilt MissingScript.isDag) (utf8 "app")).2.2 _ _ _ _ _
    _ _ _ left MissingScript.builtEnds isScope _ app _ (by simp [MissingScript.ends]) needs⟩

end HashedDag

end Rage
