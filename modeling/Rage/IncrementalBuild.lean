import Rage.Observation
import Rage.Runs

/-!
Incremental builds against clean ones.  Commands are functions of the declared inputs and of
the outputs of the dependencies; a workspace goes through edits and task runs, and a hit
leaves the disk as it is.
-/

namespace Rage

abbrev Outputs := Location → Option Node

def FileSystem.view (fs : FileSystem) (region : Location → Bool) : Outputs :=
  fun location => if region location then fs.nodeAt location else none

/-! The commands of a workspace: where a command that runs in a directory may write, where the
outputs of a package are, what a command makes of its inputs, and what it does to the disk. -/

structure Commands where
  writes : Bytes → Path → Location → Bool
  package : Bytes → Location → Bool
  build : Bytes → Path → List (Path × Bytes) → List Outputs → Outputs
  run : Task → FileSystem → FileSystem

namespace Commands

variable (crates : Crates) (commands : Commands)

def outputs (fs : FileSystem) (task : Task) : Outputs :=
  fs.view (commands.writes task.command task.cwd)

def depOutputs (fs : FileSystem) (task : Task) : List Outputs :=
  task.depPackageNames.map fun dep => fs.view (commands.package dep)

def clean (fs : FileSystem) (task : Task) : Outputs :=
  commands.build task.command task.cwd
    (matchedFiles crates fs task.cwd task.declaredInputGlobs) (commands.depOutputs fs task)

def Correct (fs : FileSystem) (task : Task) : Prop :=
  commands.outputs fs task = commands.clean crates fs task

/-- Every task of the workspace is a deterministic function of its declared inputs and of its
dependencies' outputs, and writes nothing but the outputs of its own package. -/
structure Deterministic (tasks : List Task) : Prop where
  builds : ∀ task ∈ tasks, ∀ fs,
    commands.outputs (commands.run task fs) task = commands.clean crates fs task
  keepsInputs : ∀ task ∈ tasks, ∀ other ∈ tasks, ∀ fs,
    matchedFiles crates (commands.run task fs) other.cwd other.declaredInputGlobs =
      matchedFiles crates fs other.cwd other.declaredInputGlobs
  keepsOutputs : ∀ task ∈ tasks, ∀ other ∈ tasks, other.packageName ≠ task.packageName →
    ∀ fs, commands.outputs (commands.run task fs) other = commands.outputs fs other
  keepsPackages : ∀ task ∈ tasks, ∀ dep, dep ≠ task.packageName →
    ∀ fs, (commands.run task fs).view (commands.package dep) = fs.view (commands.package dep)

end Commands

structure TaskRun where
  task : Task
  toolPath : Path
  sandbox : Option RunResult
  shell : Option Int
  failedFs : FileSystem
  elapsedMs : Nat
  cachedAt : Nat

namespace TaskRun

def start (run : TaskRun) (fs : FileSystem) : TaskStart := ⟨run.task, run.toolPath, fs⟩

def exitsZero (run : TaskRun) : Bool :=
  (taskResult run.task.sandboxMode run.sandbox run.shell).map Prod.fst == some 0

def execution (run : TaskRun) (before after : FileSystem) : Execution where
  sandbox := run.sandbox
  shell := run.shell
  window := [before]
  seen := before
  genuine := genuine_of_unchanged before
  recordFs := after
  elapsedMs := run.elapsedMs
  cachedAt := run.cachedAt

end TaskRun

structure Workspace where
  fs : FileSystem
  session : Session

inductive WorkspaceEvent
  | edit (fs : FileSystem)
  | task (run : TaskRun)

def WorkspaceEvent.Known (tasks : List Task) : WorkspaceEvent → Prop
  | .edit _ => True
  | .task run => run.task ∈ tasks

namespace Workspace

variable (crates : Crates) (commands : Commands)

def lookup (workspace : Workspace) (run : TaskRun) : Option (Bytes × CacheEntry × List Path) :=
  lookupPhase crates workspace.session.cache (run.start workspace.fs)

/-- The disk after a task: a hit writes nothing. -/
def diskAfter (workspace : Workspace) (run : TaskRun) : FileSystem :=
  if (workspace.lookup crates run).isSome then workspace.fs
  else if run.exitsZero then commands.run run.task workspace.fs
  else run.failedFs

def runTask (workspace : Workspace) (run : TaskRun) : Workspace where
  fs := workspace.diskAfter crates commands run
  session :=
    if (workspace.lookup crates run).isSome then
      workspace.session.startTask crates (run.start workspace.fs)
    else
      workspace.session.finishTask crates run.task
        ((run.start workspace.fs).inputs workspace.session.cache)
        (run.execution workspace.fs (workspace.diskAfter crates commands run))

def succeeds (workspace : Workspace) (run : TaskRun) : Bool :=
  (workspace.lookup crates run).isSome || run.exitsZero

def step (workspace : Workspace) : WorkspaceEvent → Workspace
  | .edit fs => { workspace with fs := fs }
  | .task run => workspace.runTask crates commands run

def after (fs : FileSystem) (history : List WorkspaceEvent) : Workspace :=
  history.foldl (step crates commands) ⟨fs, .empty⟩

/-! Conditions on a task run that hits. -/

def HitFramed (workspace : Workspace) (run : TaskRun) : Prop :=
  (workspace.lookup crates run).isSome → Framed crates workspace.session.calls workspace.fs
    ((run.start workspace.fs).inputs workspace.session.cache)

/-- The execution behind the entry saw the dependency outputs that are on disk now. -/
def HitSameDeps (workspace : Workspace) (run : TaskRun) : Prop :=
  ∀ strongFp entry reads, workspace.lookup crates run = some (strongFp, entry, reads) →
    ∀ written, workspace.session.ledger.writer crates strongFp = some written →
      commands.depOutputs written.tag.seen written.tag.task =
        commands.depOutputs workspace.fs run.task

def HitKept (workspace : Workspace) (run : TaskRun) : Prop :=
  ∀ strongFp entry reads, workspace.lookup crates run = some (strongFp, entry, reads) →
    ∀ written, workspace.session.ledger.writer crates strongFp = some written →
      commands.outputs workspace.fs run.task = commands.outputs written.call.fs run.task

end Workspace

/-! What the ledger remembers of an execution. -/

structure FaithfulRecord (crates : Crates) (commands : Commands) (recorded : Recorded Executed) :
    Prop where
  command : recorded.call.inputs.command = recorded.tag.task.command
  packagePath : recorded.call.inputs.packagePath = recorded.tag.task.cwd
  declared : matchedFiles crates recorded.call.fs recorded.call.inputs.packagePath
      recorded.call.inputs.declaredInputGlobs =
    matchedFiles crates recorded.tag.seen recorded.tag.task.cwd
      recorded.tag.task.declaredInputGlobs
  outputs : commands.outputs recorded.call.fs recorded.tag.task =
    commands.clean crates recorded.tag.seen recorded.tag.task

structure Workspace.Faithful (crates : Crates) (commands : Commands) (workspace : Workspace) :
    Prop where
  session : workspace.session.Invariant crates
  recorded : ∀ recorded ∈ workspace.session.ledger.log, FaithfulRecord crates commands recorded

namespace Workspace

variable {crates : Crates} {commands : Commands} {tasks : List Task}

theorem runTask_faithful {workspace : Workspace} (faithful : workspace.Faithful crates commands)
    (deterministic : commands.Deterministic crates tasks) {run : TaskRun}
    (known : run.task ∈ tasks) :
    (workspace.runTask crates commands run).Faithful crates commands := by
  by_cases hit : (workspace.lookup crates run).isSome = true
  · have sameLedger : (workspace.runTask crates commands run).session.ledger =
        workspace.session.ledger := by
      simp only [runTask, hit, ↓reduceIte, Session.startTask]
      split
      · rfl
      · rfl
    have samePublished : (workspace.runTask crates commands run).session.published =
        workspace.session.published := by
      simp only [runTask, hit, ↓reduceIte, Session.startTask]
      split
      · rfl
      · rfl
    exact ⟨faithful.session.transfer sameLedger samePublished,
      fun recorded member => faithful.recorded recorded (sameLedger ▸ member)⟩
  · simp only [runTask, hit]
    refine ⟨Session.finishTask_invariant faithful.session _ _ _, fun recorded member => ?_⟩
    simp only [Bool.false_eq_true, ↓reduceIte] at member
    rcases Session.finishTask_log crates workspace.session run.task
      ((run.start workspace.fs).inputs workspace.session.cache)
      (run.execution workspace.fs (workspace.diskAfter crates commands run))
      with same | ⟨pathset, result, longer⟩
    · exact faithful.recorded recorded (same ▸ member)
    · rw [longer] at member
      rcases List.mem_cons.mp member with rfl | older
      · have zero : run.exitsZero = true := by
          have code : taskResult run.task.sandboxMode run.sandbox run.shell = some (0, pathset) :=
            result
          simp [TaskRun.exitsZero, code]
        have disk : workspace.diskAfter crates commands run =
            commands.run run.task workspace.fs := by
          simp [diskAfter, hit, zero]
        refine ⟨rfl, rfl, ?_, ?_⟩
        · simp only [Execution.call, TaskRun.execution, TaskStart.inputs, TaskRun.start, disk]
          exact deterministic.keepsInputs _ known _ known _
        · simp only [Execution.call, TaskRun.execution, disk]
          exact deterministic.builds _ known _
      · exact faithful.recorded recorded older

theorem after_faithful (deterministic : commands.Deterministic crates tasks) (fs : FileSystem)
    (history : List WorkspaceEvent) (known : ∀ event ∈ history, event.Known tasks) :
    (after crates commands fs history).Faithful crates commands := by
  refine List.foldlRecOn history _
    (motive := fun workspace : Workspace => workspace.Faithful crates commands) ?_ ?_
  · exact ⟨Session.empty_invariant, by simp [Session.empty, Ledger.empty]⟩
  · intro workspace faithful event member
    cases event with
    | edit fs => exact ⟨faithful.session, faithful.recorded⟩
    | task run => exact runTask_faithful faithful deterministic (known _ member)

theorem clean_of_hit (ideal : crates.Ideal) {workspace : Workspace}
    (faithful : workspace.Faithful crates commands) {run : TaskRun}
    (framed : workspace.HitFramed crates run)
    (sameDeps : workspace.HitSameDeps crates commands run) {strongFp : Bytes} {entry : CacheEntry}
    {reads : List Path} (hit : workspace.lookup crates run = some (strongFp, entry, reads)) :
    ∃ written, workspace.session.ledger.writer crates strongFp = some written ∧
      commands.clean crates workspace.fs run.task =
        commands.outputs written.call.fs run.task := by
  obtain ⟨written, wrote, _, sameInputs, _, _⟩ := Ledger.hit_records ideal
    faithful.session.sound faithful.session.listed (framed (by simp [hit])) hit
  have record := faithful.recorded written (Ledger.writer_spec wrote).1
  have command : written.tag.task.command = run.task.command :=
    record.command.symm.trans (congrArg WeakRecord.command sameInputs)
  have cwd : written.tag.task.cwd = run.task.cwd :=
    record.packagePath.symm.trans (congrArg WeakRecord.packagePath sameInputs)
  have declared : matchedFiles crates written.tag.seen written.tag.task.cwd
      written.tag.task.declaredInputGlobs =
      matchedFiles crates workspace.fs run.task.cwd run.task.declaredInputGlobs :=
    record.declared.symm.trans (congrArg WeakRecord.inputs sameInputs)
  refine ⟨written, wrote, ?_⟩
  have recordedOutputs := record.outputs
  simp only [Commands.outputs, Commands.clean, command, cwd] at recordedOutputs ⊢
  rw [recordedOutputs, ← sameDeps strongFp entry reads hit written wrote, ← declared, cwd]

/-- A task that succeeds is correct when it ends exactly if it was executed or its hit kept what
the recorded execution wrote. -/
theorem correct_runTask_iff (ideal : crates.Ideal)
    (deterministic : commands.Deterministic crates tasks) {workspace : Workspace}
    (faithful : workspace.Faithful crates commands) {run : TaskRun} (known : run.task ∈ tasks)
    (noSelf : run.task.packageName ∉ run.task.depPackageNames)
    (succeeded : workspace.succeeds crates run = true)
    (framed : workspace.HitFramed crates run)
    (sameDeps : workspace.HitSameDeps crates commands run) :
    commands.Correct crates (workspace.runTask crates commands run).fs run.task ↔
      workspace.HitKept crates commands run := by
  cases found : workspace.lookup crates run with
  | some hit =>
      obtain ⟨strongFp, entry, reads⟩ := hit
      have disk : (workspace.runTask crates commands run).fs = workspace.fs := by
        simp [runTask, diskAfter, found]
      obtain ⟨written, wrote, cleanOutputs⟩ := clean_of_hit ideal faithful framed sameDeps found
      rw [Commands.Correct, disk, cleanOutputs]
      constructor
      · intro same fp e rs isHit other isWriter
        rw [found, Option.some.injEq, Prod.mk.injEq] at isHit
        rw [← isHit.1, wrote] at isWriter
        rw [← Option.some.inj isWriter]
        exact same
      · intro kept
        exact kept strongFp entry reads found written wrote
  | none =>
      have zero : run.exitsZero = true := by
        simpa [succeeds, found] using succeeded
      have disk : (workspace.runTask crates commands run).fs =
          commands.run run.task workspace.fs := by
        simp [runTask, diskAfter, found, zero]
      have depsKept : commands.depOutputs (commands.run run.task workspace.fs) run.task =
          commands.depOutputs workspace.fs run.task := by
        apply List.map_congr_left
        intro dep member
        exact deterministic.keepsPackages _ known dep (fun same => noSelf (same ▸ member)) _
      constructor
      · intro _ fp e rs isHit
        simp [found] at isHit
      · intro _
        rw [Commands.Correct, disk, deterministic.builds _ known]
        simp only [Commands.clean, depsKept, deterministic.keepsInputs _ known _ known]

theorem correct_later (deterministic : commands.Deterministic crates tasks)
    {workspace : Workspace} {task : Task} {later : TaskRun} (known : task ∈ tasks)
    (laterKnown : later.task ∈ tasks) (differ : task.packageName ≠ later.task.packageName)
    (independent : later.task.packageName ∉ task.depPackageNames)
    (succeeded : workspace.succeeds crates later = true) :
    commands.Correct crates (workspace.runTask crates commands later).fs task ↔
      commands.Correct crates workspace.fs task := by
  cases found : workspace.lookup crates later with
  | some hit => simp [runTask, diskAfter, found]
  | none =>
      have zero : later.exitsZero = true := by
        simpa [succeeds, found] using succeeded
      have disk : (workspace.runTask crates commands later).fs =
          commands.run later.task workspace.fs := by
        simp [runTask, diskAfter, found, zero]
      have depsKept : commands.depOutputs (commands.run later.task workspace.fs) task =
          commands.depOutputs workspace.fs task := by
        apply List.map_congr_left
        intro dep member
        exact deterministic.keepsPackages _ laterKnown dep
          (fun same => independent (same ▸ member)) _
      rw [Commands.Correct, Commands.Correct, disk,
        deterministic.keepsOutputs _ laterKnown _ known differ]
      simp only [Commands.clean, depsKept, deterministic.keepsInputs _ laterKnown _ known]

end Workspace

/-- The order in which the tasks of one run complete: each package once, dependencies first. -/
structure DependencyOrder (runs : List TaskRun) : Prop where
  pairwise : runs.Pairwise fun earlier later =>
    earlier.task.packageName ≠ later.task.packageName ∧
      later.task.packageName ∉ earlier.task.depPackageNames
  noSelf : ∀ run ∈ runs, run.task.packageName ∉ run.task.depPackageNames

namespace Workspace

variable {crates : Crates} {commands : Commands} {tasks : List Task}

theorem correct_laterRuns (deterministic : commands.Deterministic crates tasks) {task : Task}
    (known : task ∈ tasks) (runs : List TaskRun) (workspace : Workspace)
    (laterKnown : ∀ run ∈ runs, run.task ∈ tasks)
    (apart : ∀ run ∈ runs, task.packageName ≠ run.task.packageName ∧
      run.task.packageName ∉ task.depPackageNames)
    (succeeded : Runs.Each (runTask crates commands)
      (fun workspace run => workspace.succeeds crates run = true) workspace runs) :
    commands.Correct crates (Runs.final (runTask crates commands) workspace runs).fs task ↔
      commands.Correct crates workspace.fs task := by
  induction runs generalizing workspace with
  | nil => exact Iff.rfl
  | cons run rest ih =>
      have later := ih (workspace.runTask crates commands run)
        (fun next member => laterKnown next (List.mem_cons_of_mem _ member))
        (fun next member => apart next (List.mem_cons_of_mem _ member)) succeeded.2
      have here := correct_later deterministic known (laterKnown run (List.mem_cons_self ..))
        (apart run (List.mem_cons_self ..)).1 (apart run (List.mem_cons_self ..)).2 succeeded.1
      exact later.trans here

end Workspace

namespace RevertedEdit

def out (cwd : Path) : Location := components cwd ++ [utf8 "dist", utf8 "a.js"].map .normal

def compiled (inputs : List (Path × Bytes)) : Node := .file (inputs.flatMap Prod.snd) true

def task : Task := Sample.task .strict [utf8 "a.ts"]

def compiler : Commands where
  writes := fun _ cwd location => location == out cwd
  package := fun name location => name == task.packageName && location == out task.cwd
  build := fun _ cwd inputs _ location =>
    if location == out cwd then some (compiled inputs) else none
  run := fun task fs => fs.write (out task.cwd)
    ⟨compiled (matchedFiles .plain fs task.cwd task.declaredInputGlobs), false⟩

theorem deterministic : compiler.Deterministic .plain [task] where
  builds := by
    intro task _ fs
    funext location
    by_cases isOut : location = out task.cwd
    · simp [Commands.outputs, FileSystem.view, Commands.clean, compiler, isOut,
        FileSystem.nodeAt]
    · simp [Commands.outputs, FileSystem.view, Commands.clean, compiler, isOut]
  keepsInputs := by
    intro first firstIs second secondIs fs
    obtain rfl := List.mem_singleton.mp firstIs
    obtain rfl := List.mem_singleton.mp secondIs
    have skipped : utf8 "dist" ∈ skipDirs := by decide
    have unseen := FileSystem.walkFiles_write_skipped fs (components task.cwd) skipped
      (utf8 "a.js") []
      ⟨compiled (matchedFiles .plain fs task.cwd task.declaredInputGlobs), false⟩
    simp only [matchedFiles, compiler, out] at unseen ⊢
    rw [unseen]
  keepsOutputs := by
    intro first firstIs second secondIs differ
    obtain rfl := List.mem_singleton.mp firstIs
    obtain rfl := List.mem_singleton.mp secondIs
    exact absurd rfl differ
  keepsPackages := by
    intro first firstIs dep differ fs
    obtain rfl := List.mem_singleton.mp firstIs
    funext location
    simp [FileSystem.view, compiler, differ]

def disk (content output : String) : FileSystem :=
  (Sample.files content).write (out task.cwd) ⟨.file (utf8 output) true, false⟩

def run : TaskRun where
  task := task
  toolPath := utf8 "sh"
  sandbox := some ⟨0, [Sample.source], []⟩
  shell := none
  failedFs := disk "" ""
  elapsedMs := 0
  cachedAt := 0

def history : List WorkspaceEvent :=
  [.task run, .edit (disk "2" "1"), .task run, .edit (disk "1" "2")]

def workspace : Workspace := .after .plain compiler (disk "1" "0") history

theorem known : ∀ event ∈ history, event.Known [task] := by
  simp [history, WorkspaceEvent.Known, run]

theorem ordered : DependencyOrder [run] :=
  ⟨List.pairwise_singleton _ _, by decide⟩

theorem hit : (workspace.lookup .plain run).isSome = true := by
  decide +kernel

theorem succeeds : workspace.succeeds .plain run = true := by
  simp [Workspace.succeeds, hit]

theorem framed : workspace.HitFramed .plain run := by
  intro _
  constructor
  · decide +kernel
  · decide +kernel
  · decide +kernel

theorem noDeps : ∀ recorded ∈ workspace.session.ledger.log,
    recorded.tag.task.depPackageNames = [] := by
  decide +kernel

theorem sameDeps : workspace.HitSameDeps .plain compiler run := by
  intro strongFp entry reads _ written wrote
  have none := noDeps written (Ledger.writer_spec wrote).1
  simp [Commands.depOutputs, none, run, task, Sample.task]

end RevertedEdit

end Rage
