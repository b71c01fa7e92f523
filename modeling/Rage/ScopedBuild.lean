import Rage.AffectedScope
import Rage.DependencyClosure
import Rage.HubOutputs

/-!
Builds of a part of the workspace: `--to` runs a target with what it needs, `--since` and
`--affected` what an edit has reached.
-/

namespace Rage

theorem planned_eq_find (tasks : List Task) (name : Bytes) :
    planned tasks name = tasks.find? fun task => task.packageName == name :=
  List.find?_eq_bind_findIdx?_getElem?.symm

namespace TaskSet

variable {tasks : List Task} {abortOnPanic : Bool} {scope : Bytes → Bool} {name : Bytes}

theorem mem_scoped {task : Task} :
    task ∈ (TaskSet.ofTasks (retainScope scope tasks) abortOnPanic).packages ↔
      task ∈ (TaskSet.ofTasks tasks abortOnPanic).packages ∧ scope task.packageName = true := by
  simp only [ofTasks, retainScope, List.mem_filter, Bool.or_eq_true, Bool.not_eq_true']
  constructor
  · rintro ⟨⟨member, isRoot | inScope⟩, notRoot⟩
    · simp [notRoot] at isRoot
    · exact ⟨⟨member, notRoot⟩, inScope⟩
  · rintro ⟨⟨member, notRoot⟩, inScope⟩
    exact ⟨⟨member, Or.inr inScope⟩, notRoot⟩

theorem mem_scoped_names :
    name ∈ (TaskSet.ofTasks (retainScope scope tasks) abortOnPanic).packages.map Task.packageName ↔
      name ∈ (TaskSet.ofTasks tasks abortOnPanic).packages.map Task.packageName ∧
        scope name = true := by
  simp only [List.mem_map, mem_scoped]
  constructor
  · rintro ⟨task, ⟨member, inScope⟩, rfl⟩
    exact ⟨⟨task, member, rfl⟩, inScope⟩
  · rintro ⟨⟨task, member, rfl⟩, inScope⟩
    exact ⟨task, ⟨member, inScope⟩, rfl⟩

theorem planned_scoped (inScope : scope name = true) :
    planned (TaskSet.ofTasks tasks abortOnPanic).packages name =
      planned (TaskSet.ofTasks (retainScope scope tasks) abortOnPanic).packages name := by
  simp only [planned_eq_find, ofTasks, retainScope, List.find?_filter]
  refine congrArg (List.find? · tasks) (funext fun task => ?_)
  by_cases same : task.packageName = name
  · simp [same, inScope]
  · simp [same]

end TaskSet

namespace BuildRun

variable {tasks : List Task} {abortOnPanic : Bool} {scope : Bytes → Bool}

/-- What is left out is done, as far as there is a task of it. -/
def leftOut (set : TaskSet) (scope : Bytes → Bool) (name : Bytes) : Workers.Status :=
  if scope name || !(set.packages.map Task.packageName).contains name then .idle else .done

theorem leftOut_idle {set : TaskSet} {name : Bytes}
    (apart : scope name = true ∨ name ∉ set.packages.map Task.packageName) :
    leftOut set scope name = .idle := by
  rw [leftOut, if_pos]
  simpa using apart

theorem leftOut_done {set : TaskSet} {name : Bytes} (outside : ¬ scope name = true)
    (tasked : name ∈ set.packages.map Task.packageName) : leftOut set scope name = .done := by
  rw [leftOut, if_neg]
  simpa [outside] using tasked

theorem Within.rest : Within (TaskSet.ofTasks tasks abortOnPanic).packages
    (.ofTasks (retainScope scope tasks) abortOnPanic)
    (leftOut (.ofTasks tasks abortOnPanic) scope) where
  planned := by
    intro name tasked
    exact TaskSet.planned_scoped (TaskSet.mem_scoped_names.mp tasked).2
  idle := by
    intro name tasked
    exact leftOut_idle (Or.inl (TaskSet.mem_scoped_names.mp tasked).2)
  awaited := by
    intro task _ dep _ tasked
    by_cases inScope : scope dep = true
    · exact Or.inl (TaskSet.mem_scoped_names.mpr ⟨tasked, inScope⟩)
    · exact Or.inr (leftOut_done inScope tasked)

/-- A scope with all that its tasks wait for. -/
theorem Within.closed (closed : ∀ task ∈ (TaskSet.ofTasks tasks abortOnPanic).packages,
      scope task.packageName = true → ∀ dep ∈ task.depPackageNames, scope dep = true) :
    Within (TaskSet.ofTasks tasks abortOnPanic).packages
      (.ofTasks (retainScope scope tasks) abortOnPanic) fun _ => .idle where
  planned := Within.rest.planned
  idle := fun _ _ => rfl
  awaited := by
    intro task member dep listed tasked
    obtain ⟨isTask, inScope⟩ := TaskSet.mem_scoped.mp member
    exact Or.inl (TaskSet.mem_scoped_names.mpr ⟨tasked, closed task isTask inScope dep listed⟩)

end BuildRun

theorem HashedDag.scopeTo_ok {dag : HashedDag} {target : Bytes} {tasks left : List Task}
    (isScope : dag.scopeTo target tasks = .ok left) :
    retainScope (fun name => decide (name ∈ dag.transitiveDepClosure target)) tasks = left := by
  unfold HashedDag.scopeTo at isScope
  split at isScope
  · exact Except.ok.inj isScope
  · simp at isScope

namespace AffectedScope

def ContainsChanged (packages : List Package) (changed : List Path) (name : Bytes) : Prop :=
  ∃ package ∈ packages, package.name = name ∧
    ∃ file ∈ changed, components package.path <+: components file

/-- Whatever is not as it was is in a package with a changed file. -/
structure Told (crates : Crates) (commands : Commands) (packages : List Package)
    (changed : List Path) (tasks : List Task) (before after : FileSystem) : Prop where
  inputs : ∀ task ∈ tasks, ¬ ContainsChanged packages changed task.packageName →
    matchedFiles crates after task.cwd task.declaredInputGlobs =
      matchedFiles crates before task.cwd task.declaredInputGlobs
  outputs : ∀ task ∈ tasks, ¬ ContainsChanged packages changed task.packageName →
    commands.outputs after task = commands.outputs before task
  untasked : ∀ name, name ∉ tasks.map Task.packageName →
    ¬ ContainsChanged packages changed name →
    after.view (commands.package name) = before.view (commands.package name)

/-- A package without changed files shows what it has shown. -/
theorem Told.view {crates : Crates} {commands : Commands} {packages : List Package}
    {changed : List Path} {tasks : List Task} {before after : FileSystem}
    (told : Told crates commands packages changed tasks before after)
    (covered : commands.Covered tasks) (name : Bytes)
    (unchanged : ¬ ContainsChanged packages changed name) :
    after.view (commands.package name) = before.view (commands.package name) := by
  by_cases tasked : name ∈ tasks.map Task.packageName
  · obtain ⟨task, member, rfl⟩ := List.mem_map.mp tasked
    exact Commands.view_of_outputs covered member (told.outputs task member unchanged)
  · exact told.untasked name tasked unchanged

section

variable {bfs : PetgraphBfs} {packages : List Package} {dag : WorkspaceDag} {changed : List Path}

theorem affected_of_changed (searches : bfs.Searches) (built : WorkspaceDag.Built packages dag)
    {name : Bytes} (changedHere : ContainsChanged packages changed name) :
    name ∈ affectedPackages bfs packages dag changed := by
  obtain ⟨package, member, rfl, inside⟩ := changedHere
  exact (mem_affectedPackages searches built changed _).mpr ⟨package, member, inside, .refl⟩

/-- A task is affected when a package is that it names. -/
theorem affected_of_dependency (searches : bfs.Searches)
    (built : WorkspaceDag.Built packages dag) {task : Task} {package : Package} {dep : Bytes}
    (known : dag.packages task.packageName = some package)
    (same : task.depPackageNames = package.dependencies) (listed : dep ∈ task.depPackageNames)
    (affected : dep ∈ affectedPackages bfs packages dag changed) :
    task.packageName ∈ affectedPackages bfs packages dag changed := by
  obtain ⟨origin, member, inside, depends⟩ :=
    (mem_affectedPackages searches built changed dep).mp affected
  rw [built.kept] at known
  obtain ⟨isPackage, sameName⟩ := WorkspaceDag.packageMap_spec known
  have edge : WorkspaceDag.PackageEdge packages task.packageName dep :=
    ⟨package, isPackage, sameName, same ▸ listed⟩
  exact (mem_affectedPackages searches built changed _).mpr
    ⟨origin, member, inside, .head edge depends⟩

end

end AffectedScope

namespace ScopedBuild

open AffectedScope

section

variable (crates : Crates) (commands : Commands) (bfs : PetgraphBfs) (packages : List Package)
  (dag : WorkspaceDag) (tasks : List Task) (abortOnPanic : Bool)

def inScope (changed : List Path) (name : Bytes) : Bool :=
  (affectedPackages bfs packages dag changed).contains name

def affectedTasks (changed : List Path) : List Task :=
  retainScope (inScope bfs packages dag changed) tasks

/-- What is on the disk after a build of the whole workspace, and after each later build of what the
edits before it have reached.  Where that is no task at all nothing is run. -/
inductive Upkept : FileSystem → Prop
  | full {fs : FileSystem} {run : BuildRun}
      (reached : run.Reachable crates commands (.ofTasks tasks abortOnPanic) fs)
      (returned : run.Returned) : Upkept run.fs
  | nothing {before after : FileSystem} {changed : List Path} (upkept : Upkept before)
      (told : Told crates commands packages changed (TaskSet.ofTasks tasks abortOnPanic).packages
        before after)
      (none : affectedTasks bfs packages dag tasks changed = []) : Upkept after
  | affected {before fs : FileSystem} {changed : List Path} {run : BuildRun}
      (upkept : Upkept before)
      (reached : run.ReachableIn crates commands (TaskSet.ofTasks tasks abortOnPanic).packages
        (.ofTasks (affectedTasks bfs packages dag tasks changed) abortOnPanic) fs)
      (told : Told crates commands packages changed (TaskSet.ofTasks tasks abortOnPanic).packages
        before run.opened)
      (returned : run.Returned) : Upkept run.fs

end

variable {crates : Crates} {commands : Commands} {bfs : PetgraphBfs} {packages : List Package}
  {dag : WorkspaceDag} {tasks : List Task} {abortOnPanic : Bool} {petgraph : Petgraph}
  {parseScript : Bytes → Bytes → Option Bytes} {plugins : List TaskPlugin}
  {manifests : FileSystem} {workspaceRoot : Path} {script : Bytes} {config : RageConfig}
  {changed : List Path} {before after : FileSystem}

def allDone (tasks : List Task) (name : Bytes) : Workers.Status :=
  if (tasks.map Task.packageName).contains name then .done else .idle

theorem allDone_iff {name : Bytes} :
    allDone tasks name = .done ↔ name ∈ tasks.map Task.packageName := by
  unfold allDone
  split
  · rename_i tasked
    exact iff_of_true rfl (List.contains_iff_mem.mp tasked)
  · rename_i untasked
    exact iff_of_false nofun fun tasked => untasked (List.contains_iff_mem.mpr tasked)

/-- What an edit has not reached is settled as it was. -/
theorem settled_edit (searches : bfs.Searches) (isDag : WorkspaceDag.Built packages dag)
    (built : buildTaskListWithConfig petgraph parseScript plugins manifests workspaceRoot dag script
      config = .ok tasks)
    (covered : commands.Covered (TaskSet.ofTasks tasks abortOnPanic).packages)
    (told : Told crates commands packages changed (TaskSet.ofTasks tasks abortOnPanic).packages
      before after) {later : Bytes → Workers.Status}
    (done : ∀ name ∈ (TaskSet.ofTasks tasks abortOnPanic).packages.map Task.packageName,
      name ∉ affectedPackages bfs packages dag changed → later name = .done) {name : Bytes}
    (settled : Workers.Settled (commands.plan crates _ covered)
      (allDone (TaskSet.ofTasks tasks abortOnPanic).packages) before name)
    (spared : name ∉ affectedPackages bfs packages dag changed) :
    Workers.Settled (commands.plan crates _ covered) later after name := by
  have spares {task : Task} (member : task ∈ (TaskSet.ofTasks tasks abortOnPanic).packages)
      (isSpared : task.packageName ∉ affectedPackages bfs packages dag changed) {dep : Bytes}
      (listed : dep ∈ task.depPackageNames) :
      dep ∉ affectedPackages bfs packages dag changed := by
    obtain ⟨inTasks, notRoot⟩ := List.mem_filter.mp member
    obtain ⟨package, known, same⟩ := buildTaskList_dependencies built inTasks (by simpa using notRoot)
    exact fun affected => isSpared (affected_of_dependency searches isDag known same listed affected)
  have unchanged {other : Bytes} (isSpared : other ∉ affectedPackages bfs packages dag changed) :
      ¬ ContainsChanged packages changed other :=
    fun changedHere => isSpared (affected_of_changed searches isDag changedHere)
  refine settled.keep (· ∉ affectedPackages bfs packages dag changed) spared ?_ ?_
  · rintro other dep isSpared ⟨-, task, isPlanned, listed⟩
    obtain ⟨member, rfl⟩ := planned_spec isPlanned
    exact spares member isSpared listed
  · intro other isSpared wasDone
    have tasked := allDone_iff.mp wasDone
    obtain ⟨task, isPlanned⟩ := planned_of_mem tasked
    obtain ⟨member, rfl⟩ := planned_spec isPlanned
    have views : ∀ dep ∈ task.depPackageNames,
        after.view (commands.package dep) = before.view (commands.package dep) := by
      intro dep listed
      have notChanged := unchanged (spares member isSpared listed)
      exact told.view covered dep notChanged
    refine ⟨done _ tasked isSpared, ?_, ?_⟩
    · simp only [Commands.plan, isPlanned, Option.map_some,
        told.outputs task member (unchanged isSpared)]
    · simp only [Commands.plan, isPlanned, Option.map_some, Commands.clean, Commands.depOutputs,
        List.map_congr_left views, told.inputs task member (unchanged isSpared)]

/-- After a build that has returned all tasks are settled, those of the build and those it has found
done. -/
theorem settled_run (covered : commands.Covered (TaskSet.ofTasks tasks abortOnPanic).packages)
    {set : TaskSet} {others : Bytes → Workers.Status} {fs : FileSystem} {run : BuildRun}
    (within : BuildRun.Within (TaskSet.ofTasks tasks abortOnPanic).packages set others)
    (reached : run.ReachableIn crates commands (TaskSet.ofTasks tasks abortOnPanic).packages set fs)
    (begins : ∀ name, others name = .idle ∨
      Workers.Settled (commands.plan crates _ covered) others run.opened name)
    (returned : run.Returned)
    (whole : ∀ name ∈ (TaskSet.ofTasks tasks abortOnPanic).packages.map Task.packageName,
      name ∈ set.packages.map Task.packageName ∨ others name = .done) :
    ∀ name ∈ (TaskSet.ofTasks tasks abortOnPanic).packages.map Task.packageName,
      Workers.Settled (commands.plan crates _ covered)
        (allDone (TaskSet.ofTasks tasks abortOnPanic).packages) run.fs name := by
  intro name tasked
  have done : (run.workers set others).status name = .done := by
    by_cases inRun : name ∈ set.packages.map Task.packageName
    · obtain ⟨task, member, rfl⟩ := List.mem_map.mp inRun
      exact (returned.done others (BuildRun.reachable_schedule reached) member).2
    · exact (BuildRun.status_of_not_mem inRun).trans ((whole name tasked).resolve_left inRun)
  have sound := Workers.Sound.reachable (BuildRun.simulated covered within reached begins)
  refine (sound.settled name done).keep
    (· ∈ (TaskSet.ofTasks tasks abortOnPanic).packages.map Task.packageName) tasked ?_ ?_
  · rintro other dep - ⟨isTasked, -⟩
    exact isTasked
  · intro other isTasked _
    exact ⟨allDone_iff.mpr isTasked, rfl, rfl⟩

/-- In every state of the history all tasks are settled. -/
theorem Upkept.settled (searches : bfs.Searches) (isDag : WorkspaceDag.Built packages dag)
    (built : buildTaskListWithConfig petgraph parseScript plugins manifests workspaceRoot dag script
      config = .ok tasks)
    (covered : commands.Covered (TaskSet.ofTasks tasks abortOnPanic).packages) {fs : FileSystem}
    (upkept : Upkept crates commands bfs packages dag tasks abortOnPanic fs) :
    ∀ name ∈ (TaskSet.ofTasks tasks abortOnPanic).packages.map Task.packageName,
      Workers.Settled (commands.plan crates _ covered)
        (allDone (TaskSet.ofTasks tasks abortOnPanic).packages) fs name := by
  induction upkept with
  | full reached returned =>
      exact settled_run covered (.all _) reached (fun _ => Or.inl rfl) returned
        fun _ tasked => Or.inl tasked
  | @nothing before after changed upkept told none ih =>
      intro name tasked
      apply settled_edit searches isDag built covered told
      · intro other isTasked _
        exact allDone_iff.mpr isTasked
      · exact ih name tasked
      · intro affected
        have isIn : inScope bfs packages dag changed name = true :=
          List.contains_iff_mem.mpr affected
        have inRun := TaskSet.mem_scoped_names.mpr ⟨tasked, isIn⟩
        rw [show retainScope (inScope bfs packages dag changed) tasks = [] from none] at inRun
        simp [TaskSet.ofTasks] at inRun
  | @affected before fs changed run upkept reached told returned ih =>
      refine settled_run covered .rest reached (fun name => ?_) returned fun name tasked => ?_
      · by_cases spared : inScope bfs packages dag changed name = true ∨
          name ∉ (TaskSet.ofTasks tasks abortOnPanic).packages.map Task.packageName
        · exact Or.inl (BuildRun.leftOut_idle spared)
        · obtain ⟨notIn, tasked⟩ := not_or.mp spared
          right
          apply settled_edit searches isDag built covered told
          · intro other isTasked outside
            exact BuildRun.leftOut_done (fun isIn => outside (List.contains_iff_mem.mp isIn))
              isTasked
          · exact ih name (Decidable.of_not_not tasked)
          · exact fun affected => notIn (List.contains_iff_mem.mpr affected)
      · by_cases isIn : inScope bfs packages dag changed name = true
        · exact Or.inl (TaskSet.mem_scoped_names.mpr ⟨tasked, isIn⟩)
        · exact Or.inr (BuildRun.leftOut_done isIn tasked)

end ScopedBuild

/-! One of the libraries alone, and the output of one spoiled after a build of everything. -/

namespace TwoLibraries

def dag : WorkspaceDag where
  nodes := packages.map Package.name
  edges := [(2, 0), (2, 1)]
  packages := WorkspaceDag.packageMap packages

theorem isDag : WorkspaceDag.buildDag MissingScript.petgraph packages = .ok dag := rfl

theorem built : buildTaskListWithConfig MissingScript.petgraph parseScript [] manifests (utf8 "/ws")
    dag (utf8 "build") MissingScript.config = .ok tasks := by
  decide +kernel

theorem no_sources (first second : FileSystem) :
    linker.SameSources .plain set.packages first second where
  inputs := by
    have noGlobs : ∀ task ∈ set.packages, task.declaredInputGlobs = [] := by decide
    intro task member
    simp [matchedFiles, noGlobs task member]
  packages := by
    intro dep untasked
    funext location
    have outside : linker.package dep location = false := by
      refine List.any_eq_false.mpr fun task member found => untasked ?_
      rw [Bool.and_eq_true, beq_iff_eq, beq_iff_eq] at found
      exact List.mem_map.mpr ⟨task, member, found.1⟩
    simp [FileSystem.view, outside]

def ioSet : TaskSet := .ofTasks [package "io" []] true

def ioAlone : List BuildEvent :=
  [.enterPackages, .spawn, .spawn, .start 0].map .schedule ++ taskEvents 0 io ++
    [.join 0, .leave].map .schedule

theorem ioScope : (HashedDag.ofBuilt isDag).scopeTo (utf8 "io") tasks =
    .ok [package "io" []] := by
  have alone (name : Bytes) :
      name ∈ (HashedDag.ofBuilt isDag).transitiveDepClosure (utf8 "io") ↔ name = utf8 "io" := by
    rw [HashedDag.mem_transitiveDepClosure]
    constructor
    · intro path
      rcases path.cases_head with same | ⟨dep, ⟨other, known, listed⟩, -⟩
      · exact same.symm
      · have isOther : (HashedDag.ofBuilt isDag).packages (utf8 "io") =
            some (MissingScript.package "io" []) := by
          decide +kernel
        obtain rfl := Option.some.inj (isOther.symm.trans known)
        exact absurd listed List.not_mem_nil
    · rintro rfl
      exact .refl
  have known : ((HashedDag.ofBuilt isDag).packages (utf8 "io")).isSome = true := by decide +kernel
  rw [HashedDag.scopeTo, if_pos known]
  simp only [alone]
  decide +kernel

def whole : FileSystem := linker.run (package "app" ["net", "io"]) netIo

def spoiled : FileSystem := whole.write (out (utf8 "/ws/io")) ⟨.file (utf8 "spoiled") true, false⟩

def changed : List Path := [utf8 "/ws/io/out"]

theorem told : AffectedScope.Told .plain linker packages changed set.packages whole spoiled where
  inputs := by
    intro task member _
    exact (no_sources spoiled whole).inputs task member
  outputs := by
    intro task member spared
    have differ : task.packageName ≠ utf8 "io" := by
      intro isIo
      refine spared ⟨MissingScript.package "io" [], by decide, isIo.symm, ?_⟩
      exact ⟨_, List.mem_singleton_self _, by decide⟩
    apply view_write_of_ne
    refine beq_eq_false_iff_ne.mpr fun same => differ ?_
    exact (outs_apart task (part task member) (package "io" []) (by decide)).mpr same.symm
  untasked := by
    intro name untasked _
    exact (no_sources spoiled whole).packages name untasked

def restSet : TaskSet :=
  .ofTasks (ScopedBuild.affectedTasks AffectedScope.bfs packages dag tasks changed) true

def restored : FileSystem := linker.run (package "io" []) spoiled

def rest : List BuildEvent :=
  [.enterPackages, .spawn, .spawn, .spawn, .start 0].map .schedule ++ taskEvents 0 restored ++
    [.schedule (.poll 1), .schedule (.start 1)] ++
      taskEvents 1 (linker.run (package "app" ["net", "io"]) restored) ++
    [.join 1, .join 0, .leave].map .schedule

end TwoLibraries

end Rage
