import Rage.Abi
import Rage.CacheSoundness
import Rage.Runs

/-!
A package task in a two-phase run: the dependency ABI fingerprints and the lookup when it
starts, and on a miss the execution and the record when it finishes.  Other tasks, other
runs and edits of any file may come between the two.
-/

namespace Rage

inductive SandboxMode
  | strict
  | observed
  | loose
  deriving DecidableEq, Repr

structure Task where
  packageName : Bytes
  scriptName : Bytes
  command : Bytes
  cwd : Path
  sandboxMode : SandboxMode
  isRoot : Bool
  inputPaths : List Path
  workspaceRoot : Path
  declaredInputGlobs : List Bytes
  depPackageNames : List Bytes
  outputGlobs : List Bytes
  envHashInputs : List (Bytes × Bytes)
  deriving DecidableEq

/-! What a task finds when it starts, and what comes out of its execution.  `sandbox` is the
result of `run_sandboxed`, with `none` for its error; `shell` is the exit code of the plain
shell, with `none` when it cannot be spawned. -/

structure TaskStart where
  task : Task
  toolPath : Path
  fs : FileSystem

structure RunResult where
  exitCode : Int
  reads : List Path
  writes : List Path

/-- While the command runs, files may change.  `seen` has each location as it was in one of the
states of that window. -/
structure Execution where
  sandbox : Option RunResult
  shell : Option Int
  window : List FileSystem
  seen : FileSystem
  genuine : ∀ location, ∃ state ∈ window, seen.entryAt location = state.entryAt location
  recordFs : FileSystem
  elapsedMs : Nat
  cachedAt : Nat

inductive TaskOutcome
  | cached (strongFp : Bytes) (entry : CacheEntry) (reads : List Path)
  | built (recorded : Option Bytes)
  | failed (exitCode : Int)
  | spawnError
  deriving DecidableEq

def Execution.observed (exec : Execution) (mode : SandboxMode) : Bool :=
  mode ≠ .loose && exec.sandbox.isSome

def taskResult (mode : SandboxMode) (sandbox : Option RunResult) (shell : Option Int) :
    Option (Int × StoredPathset) :=
  match mode, sandbox with
  | .loose, _ => shell.map fun code => (code, .default)
  | _, some run => some (run.exitCode, ⟨run.reads, run.writes⟩)
  | _, none => shell.map fun code => (code, .default)

def Execution.result (exec : Execution) (mode : SandboxMode) : Option (Int × StoredPathset) :=
  taskResult mode exec.sandbox exec.shell

def depAbiFps (cache : TwoPhaseCache) (task : Task) : List (Bytes × Bytes) :=
  task.depPackageNames.filterMap fun dep => (cache.getPkgAbiFp dep).map fun fp => (dep, fp)

def TaskStart.inputs (start : TaskStart) (cache : TwoPhaseCache) : WeakFpInputs where
  command := start.task.command
  toolPath := start.toolPath
  packagePath := start.task.cwd
  declaredInputGlobs := start.task.declaredInputGlobs
  trackedEnv := []
  depAbiFingerprints := depAbiFps cache start.task

section Phases

variable (crates : Crates)

def Execution.abiFp (exec : Execution) (task : Task) : Option Bytes :=
  abiFingerprint crates exec.recordFs task.cwd task.outputGlobs

def Execution.call (exec : Execution) (task : Task) (inputs : WeakFpInputs)
    (pathset : StoredPathset) : RecordCall where
  inputs := inputs
  fs := exec.recordFs
  pathset := pathset
  entryTemplate :=
    { fingerprint := [], command := task.command, exitCode := 0, elapsedMs := exec.elapsedMs,
      cachedAt := exec.cachedAt, pathsetReads := [], abiFingerprint := exec.abiFp crates task }

def lookupPhase (cache : TwoPhaseCache) (start : TaskStart) :
    Option (Bytes × CacheEntry × List Path) :=
  cache.lookupWithPathsetReads crates start.fs (start.inputs cache)

def publishAbi (cache : TwoPhaseCache) (task : Task) (abiFp : Option Bytes) : TwoPhaseCache :=
  match abiFp with
  | some fp => cache.setPkgAbiFp task.packageName fp
  | none => cache

def recordPhase (cache : TwoPhaseCache) (task : Task) (inputs : WeakFpInputs)
    (exec : Execution) : TaskOutcome × TwoPhaseCache :=
  match exec.result task.sandboxMode with
  | none => (.spawnError, cache)
  | some (exitCode, pathset) =>
      if exitCode = 0 then
        let published := publishAbi cache task (exec.abiFp crates task)
        let call := exec.call crates task inputs pathset
        match published.record crates call.fs call.inputs call.pathset call.entryTemplate with
        | some (strongFp, written) => (.built (some strongFp), written)
        | none => (.built none, published)
      else (.failed exitCode, cache)

/-- `run_single_task_two_phase` on a package task, when no other task comes between its steps. -/
def runSingleTaskTwoPhase (cache : TwoPhaseCache) (start : TaskStart) (exec : Execution) :
    TaskOutcome × TwoPhaseCache :=
  match lookupPhase crates cache start with
  | some (strongFp, entry, reads) => (.cached strongFp entry reads, cache)
  | none => recordPhase crates cache start.task (start.inputs cache) exec

end Phases

/-! A session: the cache, the tasks in flight and the tasks completed in the current run, with
two ghosts.  The ledger remembers which execution each record call belongs to, and `published`
the ABI fingerprint that the last execution left under a file name of the pkg-abi store. -/

structure Executed where
  task : Task
  observed : Bool
  seen : FileSystem

structure Session where
  ledger : Ledger Executed
  running : List (TaskStart × WeakFpInputs)
  completed : Bytes → Option (Option Bytes)
  published : Bytes → Option Bytes

inductive SessionStep
  | newRun
  | start (start : TaskStart)
  | finish (index : Nat) (exec : Execution)

namespace Session

def cache (session : Session) : TwoPhaseCache := session.ledger.cache

def empty : Session where
  ledger := .empty
  running := []
  completed := fun _ => none
  published := fun _ => none

section Step

variable (crates : Crates)

def startTask (session : Session) (start : TaskStart) : Session :=
  match lookupPhase crates session.cache start with
  | some (_, entry, _) =>
      { session with
        completed := Function.update session.completed start.task.packageName
          (some entry.abiFingerprint) }
  | none =>
      { session with running := session.running ++ [(start, start.inputs session.cache)] }

def publish (session : Session) (task : Task) (abiFp : Option Bytes) : Session :=
  { session with
    ledger := { session.ledger with cache := publishAbi session.cache task abiFp }
    published := match abiFp with
      | some fp =>
          Function.update session.published (TwoPhaseCache.pkgNameToFilename task.packageName)
            (some fp)
      | none => session.published }

def finishTask (session : Session) (task : Task) (inputs : WeakFpInputs) (exec : Execution) :
    Session :=
  match exec.result task.sandboxMode with
  | none => session
  | some (exitCode, pathset) =>
      if exitCode = 0 then
        let published := session.publish task (exec.abiFp crates task)
        { published with
          ledger := published.ledger.record crates (exec.call crates task inputs pathset)
            ⟨task, exec.observed task.sandboxMode, exec.seen⟩
          completed := Function.update session.completed task.packageName
            (some (exec.abiFp crates task)) }
      else session

def step (session : Session) : SessionStep → Session
  | .newRun => { session with running := [], completed := fun _ => none }
  | .start start => session.startTask crates start
  | .finish index exec =>
      match session.running[index]? with
      | none => session
      | some (start, inputs) =>
          { session with running := session.running.eraseIdx index }.finishTask crates start.task
            inputs exec

def run (steps : List SessionStep) : Session := steps.foldl (step crates) empty

end Step

/-! The session does to the cache what the phases do. -/

theorem ledgerRecord_cache (crates : Crates) {τ : Type} (ledger : Ledger τ) (call : RecordCall)
    (tag : τ) : (ledger.record crates call tag).cache =
      match ledger.cache.record crates call.fs call.inputs call.pathset call.entryTemplate with
      | some (_, written) => written
      | none => ledger.cache := by
  unfold Ledger.record
  split
  · rename_i missing
    rw [missing]
  · rename_i strongFp written done
    rw [done]

theorem finishTask_cache (crates : Crates) (session : Session) (task : Task)
    (inputs : WeakFpInputs) (exec : Execution) :
    (session.finishTask crates task inputs exec).cache =
      (recordPhase crates session.cache task inputs exec).2 := by
  unfold finishTask recordPhase
  split
  · rfl
  · rename_i exitCode pathset result
    by_cases success : exitCode = 0
    · simp only [success, ↓reduceIte]
      simp only [cache, ledgerRecord_cache, publish]
      split
      · rfl
      · rfl
    · simp only [success, ↓reduceIte]

/-- A start and the finish that follows it are one call of `run_single_task_two_phase`. -/
theorem start_finish_cache (crates : Crates) (session : Session) (start : TaskStart)
    (exec : Execution) (idle : session.running = []) :
    ((session.step crates (.start start)).step crates (.finish 0 exec)).cache =
      (runSingleTaskTwoPhase crates session.cache start exec).2 := by
  simp only [step, startTask, runSingleTaskTwoPhase]
  cases found : lookupPhase crates session.cache start with
  | some hit => simp [idle, cache]
  | none =>
      simp only [idle, List.nil_append, List.getElem?_cons_zero, List.eraseIdx_cons_zero]
      exact finishTask_cache crates _ _ _ _

theorem finishTask_log (crates : Crates) (session : Session) (task : Task)
    (inputs : WeakFpInputs) (exec : Execution) :
    (session.finishTask crates task inputs exec).ledger.log = session.ledger.log ∨
      ∃ pathset, exec.result task.sandboxMode = some (0, pathset) ∧
        (session.finishTask crates task inputs exec).ledger.log =
          ⟨exec.call crates task inputs pathset,
            ⟨task, exec.observed task.sandboxMode, exec.seen⟩⟩ :: session.ledger.log := by
  unfold finishTask
  cases isResult : exec.result task.sandboxMode with
  | none => exact Or.inl rfl
  | some result =>
      obtain ⟨exitCode, pathset⟩ := result
      by_cases success : exitCode = 0
      · subst exitCode
        simp only [↓reduceIte]
        rcases Ledger.log_record crates
          (session.publish task (exec.abiFp crates task)).ledger
          (exec.call crates task inputs pathset)
          ⟨task, exec.observed task.sandboxMode, exec.seen⟩ with same | longer
        · exact Or.inl same
        · exact Or.inr ⟨pathset, rfl, longer⟩
      · simp only [success, ↓reduceIte]
        exact Or.inl trivial

/-! What holds in every reachable session. -/

structure Invariant (crates : Crates) (session : Session) : Prop where
  sound : session.ledger.Sound crates
  listed : session.ledger.Listed crates
  attributed : ∀ recorded ∈ session.ledger.log, recorded.tag.observed = false →
    recorded.call.pathset = .default
  published : session.cache.pkgAbiFiles = session.published

variable {crates : Crates}

theorem empty_invariant : empty.Invariant crates where
  sound := Ledger.empty_sound
  listed := Ledger.empty_listed
  attributed := by simp [empty, Ledger.empty]
  published := rfl

theorem Invariant.transfer {session other : Session} (invariant : session.Invariant crates)
    (ledger : other.ledger = session.ledger) (published : other.published = session.published) :
    other.Invariant crates where
  sound := ledger ▸ invariant.sound
  listed := ledger ▸ invariant.listed
  attributed := ledger ▸ invariant.attributed
  published := by
    rw [published, ← invariant.published, cache, ledger, cache]

theorem publish_invariant {session : Session} (invariant : session.Invariant crates)
    (task : Task) (abiFp : Option Bytes) : (session.publish task abiFp).Invariant crates := by
  cases abiFp with
  | none => exact invariant.transfer rfl rfl
  | some fp =>
      refine ⟨?_, ?_, invariant.attributed, ?_⟩
      · exact invariant.sound.weaken rfl fun _ _ stored => stored
      · exact invariant.listed
      · simp only [publish, cache, publishAbi, TwoPhaseCache.setPkgAbiFp]
        rw [← invariant.published, cache]

theorem result_unobserved {exec : Execution} {mode : SandboxMode} {exitCode : Int}
    {pathset : StoredPathset} (result : exec.result mode = some (exitCode, pathset))
    (unobserved : exec.observed mode = false) : pathset = .default := by
  have plainShell (ran : (exec.shell.map fun code => (code, StoredPathset.default)) =
      some (exitCode, pathset)) : pathset = .default := by
    obtain ⟨code, _, same⟩ := Option.map_eq_some_iff.mp ran
    exact (Prod.mk.inj same).2.symm
  cases sandboxed : exec.sandbox with
  | none =>
      cases mode <;> simp only [Execution.result, taskResult, sandboxed] at result <;> exact plainShell result
  | some run =>
      cases mode with
      | loose =>
          simp only [Execution.result, taskResult] at result
          exact plainShell result
      | strict => simp [Execution.observed, sandboxed] at unobserved
      | observed => simp [Execution.observed, sandboxed] at unobserved

theorem record_invariant {session : Session} (invariant : session.Invariant crates)
    (call : RecordCall) (executed : Executed)
    (attributed : executed.observed = false → call.pathset = .default)
    (completed : Bytes → Option (Option Bytes)) :
    ({ session with ledger := session.ledger.record crates call executed, completed := completed }
      : Session).Invariant crates := by
  refine ⟨Ledger.record_sound invariant.sound _ _, Ledger.record_listed invariant.listed _ _,
    ?_, ?_⟩
  · intro recorded member unobserved
    rcases Ledger.log_record crates session.ledger call executed with same | longer
    · exact invariant.attributed recorded (same ▸ member) unobserved
    · simp only [longer] at member
      rcases List.mem_cons.mp member with rfl | older
      · exact attributed unobserved
      · exact invariant.attributed recorded older unobserved
  · simp only [cache, ledgerRecord_cache]
    rw [← invariant.published]
    split
    · rename_i strongFp written done
      exact (TwoPhaseCache.record_cases done).2.2.1
    · rfl

theorem finishTask_invariant {session : Session} (invariant : session.Invariant crates)
    (task : Task) (inputs : WeakFpInputs) (exec : Execution) :
    (session.finishTask crates task inputs exec).Invariant crates := by
  unfold finishTask
  split
  · exact invariant
  · rename_i exitCode pathset result
    split
    · exact record_invariant (publish_invariant invariant task _) _ _
        (fun unobserved => result_unobserved result unobserved) _
    · exact invariant

theorem step_invariant {session : Session} (invariant : session.Invariant crates)
    (next : SessionStep) : (session.step crates next).Invariant crates := by
  cases next with
  | newRun => exact invariant.transfer rfl rfl
  | start start =>
      simp only [step, startTask]
      split
      · exact invariant.transfer rfl rfl
      · exact invariant.transfer rfl rfl
  | finish index exec =>
      simp only [step]
      split
      · exact invariant
      · refine finishTask_invariant ?_ _ _ _
        exact invariant.transfer rfl rfl

theorem run_invariant (crates : Crates) (steps : List SessionStep) : (run crates steps).Invariant crates :=
  Runs.invariant_final (fun session : Session => session.Invariant crates)
    (fun _ next invariant => step_invariant invariant next) steps empty_invariant

end Session

theorem genuine_of_unchanged (fs : FileSystem) :
    ∀ location, ∃ state ∈ [fs], fs.entryAt location = state.entryAt location := by
  intro location
  exact ⟨fs, List.mem_singleton_self fs, rfl⟩

def Execution.quiet (fs : FileSystem) (sandbox : Option RunResult) (shell : Option Int) :
    Execution where
  sandbox := sandbox
  shell := shell
  window := [fs]
  seen := fs
  genuine := genuine_of_unchanged fs
  recordFs := fs
  elapsedMs := 0
  cachedAt := 0

/-! A package with one source file, for concrete histories. -/

namespace Sample

def source : Path := utf8 "/ws/app/a.ts"

def files (content : String) : FileSystem :=
  ⟨[(components source, ⟨.file (utf8 content) true, false⟩)]⟩

def task (mode : SandboxMode) (globs : List Bytes) : Task where
  packageName := utf8 "app"
  scriptName := utf8 "build"
  command := utf8 "tsc"
  cwd := utf8 "/ws/app"
  sandboxMode := mode
  isRoot := false
  inputPaths := []
  workspaceRoot := utf8 "/ws"
  declaredInputGlobs := globs
  depPackageNames := []
  outputGlobs := []
  envHashInputs := []

def start (task : Task) (content : String) : TaskStart := ⟨task, utf8 "sh", files content⟩

end Sample

end Rage
