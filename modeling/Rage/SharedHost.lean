import Mathlib.Data.List.MinMax
import Rage.RootTask
import Rage.Runs

/-!
Workspaces on one host.  They share the cache directory and the artifact store; each has its own
disk, its package tasks in flight and its scheduled captures.
-/

namespace Rage

/-- The markers come in the order of the directory, each with its modification time. -/
def findLatestInstallFingerprint (markers : List (Bytes × Nat)) : Option Bytes :=
  (markers.argmax Prod.snd).map Prod.fst

/-- A capture that `schedule_capture` has spawned. -/
structure Capture where
  reads : List Path
  workspaceRoot : Path
  fp : Bytes

structure Site where
  fs : FileSystem
  running : List (TaskStart × WeakFpInputs)
  captures : List Capture

structure Host where
  cache : TwoPhaseCache
  store : ArtifactStore
  markers : List Bytes
  markedAt : Bytes → Nat
  dirs : Bytes → Option ArtifactDir
  sites : Path → Site

inductive HostAction
  | edit (fs : FileSystem)
  | root (task : Task) (effects : RootEffects) (now : Nat)
  | start (task : Task) (toolPath : Path)
  | finish (index : Nat) (exec : Execution)
  | capture (index : Nat)

structure HostEvent where
  workspace : Path
  action : HostAction

/-- What an event decides: the weak fingerprint of a package task with its hit, or how a root
task ended. -/
inductive Decision
  | none
  | task (weakFp : Bytes) (hit : Option (Bytes × CacheEntry × List Path))
  | install (outcome : RootOutcome)

namespace Host

def empty (disks : Path → FileSystem) : Host where
  cache := .empty
  store := fun _ => none
  markers := []
  markedAt := fun _ => 0
  dirs := fun _ => none
  sites := fun workspace => ⟨disks workspace, [], []⟩

def setSite (host : Host) (workspace : Path) (site : Site) : Host :=
  { host with sites := Function.update host.sites workspace site }

def latest (host : Host) : Option Bytes :=
  findLatestInstallFingerprint (host.markers.map fun fp => (fp, host.markedAt fp))

def install (host : Host) (workspace : Path) : InstallState :=
  ⟨(host.sites workspace).fs, host.markers, host.store, host.dirs⟩

def taskStart (host : Host) (workspace : Path) (task : Task) (toolPath : Path) : TaskStart :=
  ⟨task, toolPath, (host.sites workspace).fs⟩

/-- The capture after a hit or a success, for the newest marker. -/
def scheduleCapture (host : Host) (site : Site) (task : Task) (reads : List Path) : Site :=
  if reads.isEmpty then site
  else match host.latest with
    | some fp => { site with captures := site.captures ++ [⟨reads, task.workspaceRoot, fp⟩] }
    | none => site

section Step

variable (crates : Crates) (plugin : EcosystemPlugin)
  (packageRefs : FileSystem → List Path → Path → List PathsetPackageRef)

def runRoot (host : Host) (workspace : Path) (task : Task) (effects : RootEffects) :
    RootOutcome × InstallState :=
  runRootTaskTwoPhase crates plugin (host.install workspace) task effects

def afterRoot (host : Host) (workspace : Path) (task : Task) (effects : RootEffects)
    (now : Nat) : Host :=
  let run := host.runRoot crates plugin workspace task effects
  let fp := rootTaskFingerprint crates (host.sites workspace).fs task
  { host with
    store := run.2.store
    markers := run.2.markers
    markedAt := match run.1 with
      | .installed => Function.update host.markedAt fp now
      | _ => host.markedAt
    dirs := run.2.dirs
    sites := Function.update host.sites workspace { host.sites workspace with fs := run.2.fs } }

def startTask (host : Host) (workspace : Path) (task : Task) (toolPath : Path) : Host :=
  let site := host.sites workspace
  let start := host.taskStart workspace task toolPath
  match lookupPhase crates host.cache start with
  | some (_, _, reads) => host.setSite workspace (host.scheduleCapture site task reads)
  | none =>
      host.setSite workspace
        { site with running := site.running ++ [(start, start.inputs host.cache)] }

/-- The reads that a successful execution hands to the capture. -/
def readsForCapture (task : Task) (exec : Execution) : List Path :=
  match exec.result task.sandboxMode with
  | some (exitCode, pathset) => if exitCode = 0 then pathset.reads else []
  | none => []

def finishTask (host : Host) (workspace : Path) (index : Nat) (exec : Execution) : Host :=
  let site := host.sites workspace
  match site.running[index]? with
  | none => host
  | some (start, inputs) =>
      let finished :=
        { site with fs := exec.recordFs, running := site.running.eraseIdx index }
      let recorded := recordPhase crates host.cache start.task inputs exec
      { host with cache := recorded.2 }.setSite workspace
        (host.scheduleCapture finished start.task (readsForCapture start.task exec))

def runCapture (host : Host) (workspace : Path) (index : Nat) : Host :=
  let site := host.sites workspace
  match site.captures[index]? with
  | none => host
  | some capture =>
      let refs := packageRefs site.fs capture.reads capture.workspaceRoot
      let captured := captureNow crates site.fs refs (host.dirs capture.fp) host.store
      { host with
        store := captured.2
        dirs := Function.update host.dirs capture.fp captured.1 }.setSite workspace
          { site with captures := site.captures.eraseIdx index }

def step (host : Host) (event : HostEvent) : Host :=
  match event.action with
  | .edit fs => host.setSite event.workspace { host.sites event.workspace with fs := fs }
  | .root task effects now => host.afterRoot crates plugin event.workspace task effects now
  | .start task toolPath => host.startTask crates event.workspace task toolPath
  | .finish index exec => host.finishTask crates event.workspace index exec
  | .capture index => host.runCapture crates packageRefs event.workspace index

def decision (host : Host) (event : HostEvent) : Decision :=
  match event.action with
  | .root task effects _ => .install (host.runRoot crates plugin event.workspace task effects).1
  | .start task toolPath =>
      let start := host.taskStart event.workspace task toolPath
      .task (computeWeakFingerprint crates start.fs (start.inputs host.cache))
        (lookupPhase crates host.cache start)
  | _ => .none

end Step

end Host

end Rage
