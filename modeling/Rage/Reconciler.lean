import Mathlib.Algebra.GroupWithZero.Nat
import Rage.Machine
import Rage.PackageTask

/-!
The daemon's reconciler.  Commands are handled one after another; every build runs as a task of
its own and writes the shared state when it ends.
-/

namespace Rage.Daemon

inductive BuildState
  | idle
  | converging
  | ready
  | blocked
  deriving DecidableEq

inductive TaskStatus
  | waiting
  | running
  | ok (durationMs : Nat)
  | failed (exitCode : Int)
  deriving DecidableEq

structure TaskRecord where
  package : Bytes
  script : Bytes
  status : TaskStatus
  deriving DecidableEq

structure DesiredState where
  workspace : Path
  script : Bytes
  targets : Option (List Bytes)
  deriving DecidableEq

structure DaemonState where
  state : BuildState
  desired : Option DesiredState
  tasks : List TaskRecord
  deriving DecidableEq

/-! What a build meets: the task list that discovery, the package graph and the configuration of
that moment give, with `none` when one of them fails, and whether `run_tasks` succeeds. -/

structure BuildMeets where
  listed : Option (List Task)
  succeeded : Bool
  elapsedMs : Nat → Nat

def retainTargets (targets : Option (List Bytes)) (tasks : List Task) : List Task :=
  match targets with
  | none => tasks
  | some names => tasks.filter fun task => names.contains task.packageName

/-- A best-effort record: it reads `ok` however the task came out. -/
def taskRecord (elapsedMs : Nat → Nat) (index : Nat) (task : Task) : TaskRecord :=
  ⟨task.packageName, task.scriptName, .ok (elapsedMs index % 2 ^ 64)⟩

def runBuild (desired : DesiredState) (meets : BuildMeets) : Option (List TaskRecord) :=
  match meets.listed with
  | none => none
  | some tasks =>
      let records := (retainTargets desired.targets tasks).mapIdx (taskRecord meets.elapsedMs)
      if meets.succeeded then some records else none

def TaskStatus.isFailed : TaskStatus → Bool
  | .failed _ => true
  | _ => false

/-! What the result of a build makes of the shared state. -/

def resultState : Option (List TaskRecord) → BuildState
  | some records => if records.any fun task => task.status.isFailed then .blocked else .ready
  | none => .blocked

def DaemonState.finish (shared : DaemonState) (result : Option (List TaskRecord)) : DaemonState :=
  { shared with
    state := resultState result
    tasks := result.getD shared.tasks }

def DaemonState.converging (desired : DesiredState) : DaemonState :=
  ⟨.converging, some desired, []⟩

def TaskRecord.isOf (task : TaskRecord) (package script : Bytes) : Bool :=
  task.package == package && task.script == script

def DaemonState.retain (shared : DaemonState) (package script : Bytes) : DaemonState :=
  { shared with tasks := shared.tasks.filter fun task => !task.isOf package script }

inductive ReconcilerCmd
  | setDesiredState (desired : DesiredState)
  | onFilesChanged
  | retryTask (package script : Bytes)
  deriving DecidableEq

/-- A build, what it came to once it ended, and the tasks retried since then. -/
structure Build where
  desired : DesiredState
  ended : Option (Option (List TaskRecord))
  retried : List (Bytes × Bytes)
  deriving DecidableEq

def Build.retry (build : Build) (package script : Bytes) : Build :=
  if build.ended.isSome then { build with retried := (package, script) :: build.retried } else build

/-- `builds` is every build so far, the latest first.  Between the change of the state and the
notification that the reconciler sends for it, it is `owed`; `notices` counts the sent ones. -/
structure Reconciler where
  shared : DaemonState
  builds : List Build
  owed : Bool
  notices : Nat
  deriving DecidableEq

namespace Reconciler

def spawned : Reconciler := ⟨⟨.idle, none, []⟩, [], false, 0⟩

def startBuild (reconciler : Reconciler) (desired : DesiredState) : Reconciler :=
  { reconciler with
    shared := .converging desired
    builds := ⟨desired, none, []⟩ :: reconciler.builds
    owed := true }

def handle (reconciler : Reconciler) : ReconcilerCmd → Reconciler
  | .setDesiredState desired => reconciler.startBuild desired
  | .onFilesChanged =>
      match reconciler.shared.desired with
      | some desired => reconciler.startBuild desired
      | none => reconciler
  | .retryTask package script =>
      { reconciler with
        shared := reconciler.shared.retain package script
        builds := reconciler.builds.map fun build => build.retry package script
        notices := reconciler.notices + 1 }

end Reconciler

/-- A build is named by how many were started after it. -/
inductive ReconcilerEvent
  | command (cmd : ReconcilerCmd)
  | announce
  | complete (age : Nat) (meets : BuildMeets)

namespace Reconciler

def complete (reconciler : Reconciler) (age : Nat) (build : Build) (meets : BuildMeets) :
    Reconciler :=
  { reconciler with
    shared := reconciler.shared.finish (runBuild build.desired meets)
    builds := reconciler.builds.set age ⟨build.desired, some (runBuild build.desired meets), []⟩
    notices := reconciler.notices + 1 }

/-- The task of a build is spawned once its notification is sent. -/
def Runs (reconciler : Reconciler) (age : Nat) (build : Build) : Prop :=
  reconciler.builds[age]? = some build ∧ build.ended = none ∧
    ¬ (reconciler.owed = true ∧ age = 0)

instance (reconciler : Reconciler) (age : Nat) (build : Build) :
    Decidable (reconciler.Runs age build) := by
  unfold Runs
  infer_instance

def step (reconciler : Reconciler) : ReconcilerEvent → Option Reconciler
  | .command cmd => if reconciler.owed then none else some (reconciler.handle cmd)
  | .announce =>
      if reconciler.owed then
        some { reconciler with owed := false, notices := reconciler.notices + 1 }
      else none
  | .complete age meets =>
      reconciler.builds[age]?.bind fun build =>
        if reconciler.Runs age build then some (reconciler.complete age build meets) else none

theorem step_cases {reconciler next : Reconciler} {event : ReconcilerEvent}
    (taken : reconciler.step event = some next) :
    (∃ cmd, event = .command cmd ∧ reconciler.owed = false ∧ next = reconciler.handle cmd) ∨
    (event = .announce ∧ reconciler.owed = true ∧
      next = { reconciler with owed := false, notices := reconciler.notices + 1 }) ∨
    (∃ age meets build, event = .complete age meets ∧ reconciler.Runs age build ∧
      next = reconciler.complete age build meets) := by
  cases event with
  | command cmd =>
      obtain ⟨free, isNext⟩ := Option.ite_none_left_eq_some.mp taken
      refine Or.inl ⟨cmd, rfl, by simpa using free, (Option.some.inj isNext).symm⟩
  | announce =>
      obtain ⟨owed, isNext⟩ := Option.ite_none_right_eq_some.mp taken
      exact Or.inr (Or.inl ⟨rfl, owed, (Option.some.inj isNext).symm⟩)
  | complete age meets =>
      obtain ⟨build, _, isNext⟩ := Option.bind_eq_some_iff.mp taken
      obtain ⟨runs, isNext⟩ := Option.ite_none_right_eq_some.mp isNext
      exact Or.inr (Or.inr ⟨age, meets, build, rfl, runs, (Option.some.inj isNext).symm⟩)

def Starts (reconciler : Reconciler) : ReconcilerCmd → Prop
  | .setDesiredState _ => True
  | .onFilesChanged => reconciler.shared.desired.isSome
  | .retryTask _ _ => False

instance (reconciler : Reconciler) : (cmd : ReconcilerCmd) → Decidable (reconciler.Starts cmd)
  | .setDesiredState _ => isTrue trivial
  | .onFilesChanged => inferInstanceAs (Decidable (reconciler.shared.desired.isSome = true))
  | .retryTask _ _ => isFalse id

theorem handle_builds_length (reconciler : Reconciler) (cmd : ReconcilerCmd) :
    (reconciler.handle cmd).builds.length =
      reconciler.builds.length + if reconciler.Starts cmd then 1 else 0 := by
  cases cmd with
  | setDesiredState desired => simp [handle, startBuild, Starts]
  | onFilesChanged =>
      cases isDesired : reconciler.shared.desired with
      | none => simp [handle, Starts, isDesired]
      | some desired => simp [handle, startBuild, Starts, isDesired]
  | retryTask package script => simp [handle, Starts]

/-- Only a command changes the desired state or starts a build. -/
theorem step_kept {reconciler next : Reconciler} {event : ReconcilerEvent}
    (taken : reconciler.step event = some next) (noCommand : ∀ cmd, event ≠ .command cmd) :
    next.shared.desired = reconciler.shared.desired ∧
      next.builds.length = reconciler.builds.length := by
  obtain ⟨cmd, rfl, _⟩ | ⟨rfl, _, rfl⟩ | ⟨age, meets, build, rfl, _, rfl⟩ := step_cases taken
  · exact absurd rfl (noCommand cmd)
  · exact ⟨rfl, rfl⟩
  · exact ⟨rfl, List.length_set⟩

end Reconciler

end Rage.Daemon
