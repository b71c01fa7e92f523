import Rage.Machine
import Rage.PackageTask

/-!
How often a task's command is started.  The sandbox can fail before and behind the spawn of its
child, and every failure of it is answered by a plain shell.
-/

namespace Rage

/-! The fallible steps of `run_sandboxed_linux`, in their order. -/

inductive Tracepoint
  | sysEnterOpenat
  | schedProcessFork
  | schedProcessExit
  deriving DecidableEq

inductive SandboxStep
  | loadProgram
  | findProgram (tracepoint : Tracepoint)
  | castProgram (tracepoint : Tracepoint)
  | loadTracepoint (tracepoint : Tracepoint)
  | attachTracepoint (tracepoint : Tracepoint)
  | spawn
  | childId
  | findWatchedPids
  | castWatchedPids
  | insertPid
  | findEvents
  | castEvents
  | wait
  deriving DecidableEq

def attachSteps : List SandboxStep :=
  .loadProgram :: [.sysEnterOpenat, .schedProcessFork, .schedProcessExit].flatMap fun tracepoint =>
    [.findProgram tracepoint, .castProgram tracepoint, .loadTracepoint tracepoint,
      .attachTracepoint tracepoint]

def watchSteps : List SandboxStep :=
  [.childId, .findWatchedPids, .castWatchedPids, .insertPid, .findEvents, .castEvents]

/-! One call of `run_single_task_two_phase`. -/

/-- A root task does not go through the sandbox. -/
def Task.runMode (task : Task) : SandboxMode := if task.isRoot then .loose else task.sandboxMode

/-- What the system answers.  `skips` is a cache hit or, for a root task, a marker or a restore;
`shellExit` is `none` where the pipes of the plain shell or its `wait` fail. -/
structure CallAnswers where
  skips : Bool
  fails : SandboxStep → Bool
  result : RunResult
  shellSpawns : Bool
  shellExit : Option Int

inductive Copy
  | sandboxed
  | shell
  deriving DecidableEq

inductive CallPoint
  | called
  | attaching (rest : List SandboxStep)
  | spawning
  | watching (rest : List SandboxStep)
  | shell
  | awaiting
  | returned (result : Option (Int × StoredPathset))
  | cached

/-- `executing` are the copies of the command that have not exited. -/
structure TaskCall where
  point : CallPoint
  starts : Nat
  executing : List Copy

inductive CallEvent
  | proceed
  | exit (copy : Copy)

namespace TaskCall

def initial : TaskCall := ⟨.called, 0, []⟩

def start (call : TaskCall) (copy : Copy) (point : CallPoint) : TaskCall :=
  ⟨point, call.starts + 1, copy :: call.executing⟩

section

variable (task : Task) (answers : CallAnswers)

/-- A child that is dropped goes on; `wait` returns once its child has exited. -/
def step (call : TaskCall) : CallEvent → Option TaskCall
  | .exit copy =>
      if copy ∈ call.executing then some { call with executing := call.executing.erase copy }
      else none
  | .proceed =>
      match call.point with
      | .called =>
          if answers.skips then some { call with point := .cached }
          else if task.runMode = .loose then some { call with point := .shell }
          else some { call with point := .attaching attachSteps }
      | .attaching [] => some { call with point := .spawning }
      | .attaching (next :: rest) =>
          if answers.fails next then some { call with point := .shell }
          else some { call with point := .attaching rest }
      | .spawning =>
          if answers.fails .spawn then some { call with point := .shell }
          else some (call.start .sandboxed (.watching watchSteps))
      | .watching (next :: rest) =>
          if answers.fails next then some { call with point := .shell }
          else some { call with point := .watching rest }
      | .watching [] =>
          if answers.fails .wait then some { call with point := .shell }
          else if .sandboxed ∈ call.executing then none
          else
            some { call with
              point := .returned (some (answers.result.exitCode,
                ⟨answers.result.reads, answers.result.writes⟩)) }
      | .shell =>
          if answers.shellSpawns then some (call.start .shell .awaiting)
          else some { call with point := .returned none }
      | .awaiting =>
          match answers.shellExit with
          | none => some { call with point := .returned none }
          | some code =>
              if .shell ∈ call.executing then none
              else some { call with point := .returned (some (code, .default)) }
      | .returned _ => none
      | .cached => none

def Reached (call : TaskCall) : Prop :=
  Machine.Reachable (step task answers) (fun _ _ => True) initial call

/-- At most one copy was started, and at most one executes. -/
def Once (call : TaskCall) : Prop := call.starts ≤ 1 ∧ call.executing.length ≤ 1

/-- A step behind the spawn fails. -/
def FailsLate : Prop :=
  (∀ step ∈ attachSteps, answers.fails step = false) ∧ answers.fails .spawn = false ∧
    ∃ step ∈ watchSteps ++ [.wait], answers.fails step = true

/-- The call reaches the sandbox, which fails behind the spawn, and the shell can be spawned. -/
def StartsAgain : Prop :=
  answers.skips = false ∧ task.runMode ≠ .loose ∧ FailsLate answers ∧ answers.shellSpawns = true

instance : Decidable (FailsLate answers) := by
  unfold FailsLate
  infer_instance

instance : Decidable (StartsAgain task answers) := by
  unfold StartsAgain
  infer_instance

end

/-! What a step of the call can do. -/

section

variable (task : Task) (answers : CallAnswers)

inductive Proceeds : TaskCall → TaskCall → Prop
  | hit {starts : Nat} {executing : List Copy} (skips : answers.skips = true) :
      Proceeds ⟨.called, starts, executing⟩ ⟨.cached, starts, executing⟩
  | loose {starts : Nat} {executing : List Copy} (runs : answers.skips = false)
      (loose : task.runMode = .loose) :
      Proceeds ⟨.called, starts, executing⟩ ⟨.shell, starts, executing⟩
  | sandboxed {starts : Nat} {executing : List Copy} (runs : answers.skips = false)
      (sandboxed : task.runMode ≠ .loose) :
      Proceeds ⟨.called, starts, executing⟩ ⟨.attaching attachSteps, starts, executing⟩
  | attached {starts : Nat} {executing : List Copy} :
      Proceeds ⟨.attaching [], starts, executing⟩ ⟨.spawning, starts, executing⟩
  | attachFails {starts : Nat} {executing : List Copy} {next : SandboxStep}
      {rest : List SandboxStep} (fails : answers.fails next = true) :
      Proceeds ⟨.attaching (next :: rest), starts, executing⟩ ⟨.shell, starts, executing⟩
  | attaches {starts : Nat} {executing : List Copy} {next : SandboxStep}
      {rest : List SandboxStep} (goes : answers.fails next = false) :
      Proceeds ⟨.attaching (next :: rest), starts, executing⟩ ⟨.attaching rest, starts, executing⟩
  | spawnFails {starts : Nat} {executing : List Copy} (fails : answers.fails .spawn = true) :
      Proceeds ⟨.spawning, starts, executing⟩ ⟨.shell, starts, executing⟩
  | spawns {starts : Nat} {executing : List Copy} (spawned : answers.fails .spawn = false) :
      Proceeds ⟨.spawning, starts, executing⟩
        ⟨.watching watchSteps, starts + 1, .sandboxed :: executing⟩
  | watchFails {starts : Nat} {executing : List Copy} {next : SandboxStep}
      {rest : List SandboxStep} (fails : answers.fails next = true) :
      Proceeds ⟨.watching (next :: rest), starts, executing⟩ ⟨.shell, starts, executing⟩
  | watches {starts : Nat} {executing : List Copy} {next : SandboxStep}
      {rest : List SandboxStep} (goes : answers.fails next = false) :
      Proceeds ⟨.watching (next :: rest), starts, executing⟩ ⟨.watching rest, starts, executing⟩
  | waitFails {starts : Nat} {executing : List Copy} (fails : answers.fails .wait = true) :
      Proceeds ⟨.watching [], starts, executing⟩ ⟨.shell, starts, executing⟩
  | waits {starts : Nat} {executing : List Copy} (waited : answers.fails .wait = false) :
      Proceeds ⟨.watching [], starts, executing⟩
        ⟨.returned (some (answers.result.exitCode, ⟨answers.result.reads, answers.result.writes⟩)),
          starts, executing⟩
  | shellFails {starts : Nat} {executing : List Copy} (refused : answers.shellSpawns = false) :
      Proceeds ⟨.shell, starts, executing⟩ ⟨.returned none, starts, executing⟩
  | shellSpawns {starts : Nat} {executing : List Copy} (spawns : answers.shellSpawns = true) :
      Proceeds ⟨.shell, starts, executing⟩ ⟨.awaiting, starts + 1, .shell :: executing⟩
  | shellLost {starts : Nat} {executing : List Copy} (noExit : answers.shellExit = none) :
      Proceeds ⟨.awaiting, starts, executing⟩ ⟨.returned none, starts, executing⟩
  | shellExits {starts : Nat} {executing : List Copy} {code : Int}
      (isExit : answers.shellExit = some code) :
      Proceeds ⟨.awaiting, starts, executing⟩
        ⟨.returned (some (code, .default)), starts, executing⟩

variable {task answers}

theorem proceeds_of_step {call next : TaskCall}
    (taken : call.step task answers .proceed = some next) : Proceeds task answers call next := by
  obtain ⟨point, starts, executing⟩ := call
  cases point with
  | called =>
      simp only [step] at taken
      split at taken
      · rename_i skips
        obtain rfl := Option.some.inj taken
        exact .hit skips
      · rename_i runs
        split at taken
        · rename_i loose
          obtain rfl := Option.some.inj taken
          exact .loose (by simpa using runs) loose
        · rename_i sandboxed
          obtain rfl := Option.some.inj taken
          exact .sandboxed (by simpa using runs) sandboxed
  | cached => simp [step] at taken
  | attaching rest =>
      cases rest with
      | nil =>
          obtain rfl := Option.some.inj taken
          exact .attached
      | cons first rest =>
          simp only [step] at taken
          split at taken
          · rename_i fails
            obtain rfl := Option.some.inj taken
            exact .attachFails fails
          · rename_i goes
            obtain rfl := Option.some.inj taken
            exact .attaches (by simpa using goes)
  | spawning =>
      simp only [step] at taken
      split at taken
      · rename_i fails
        obtain rfl := Option.some.inj taken
        exact .spawnFails fails
      · rename_i spawned
        obtain rfl := Option.some.inj taken
        exact .spawns (by simpa using spawned)
  | watching rest =>
      cases rest with
      | nil =>
          simp only [step] at taken
          split at taken
          · rename_i fails
            obtain rfl := Option.some.inj taken
            exact .waitFails fails
          · rename_i waited
            obtain ⟨-, moved⟩ := Option.ite_none_left_eq_some.mp taken
            obtain rfl := Option.some.inj moved
            exact .waits (by simpa using waited)
      | cons first rest =>
          simp only [step] at taken
          split at taken
          · rename_i fails
            obtain rfl := Option.some.inj taken
            exact .watchFails fails
          · rename_i goes
            obtain rfl := Option.some.inj taken
            exact .watches (by simpa using goes)
  | shell =>
      simp only [step] at taken
      split at taken
      · rename_i spawns
        obtain rfl := Option.some.inj taken
        exact .shellSpawns spawns
      · rename_i refused
        obtain rfl := Option.some.inj taken
        exact .shellFails (by simpa using refused)
  | awaiting =>
      simp only [step] at taken
      split at taken
      · rename_i noExit
        obtain rfl := Option.some.inj taken
        exact .shellLost noExit
      · rename_i code isExit
        obtain ⟨-, moved⟩ := Option.ite_none_left_eq_some.mp taken
        obtain rfl := Option.some.inj moved
        exact .shellExits isExit
  | returned result => simp [step] at taken

end

/-! What is started where. -/

def Idle (call : TaskCall) : Prop := call.starts = 0 ∧ call.executing = []

def Single (call : TaskCall) : Prop := call.starts = 1 ∧ call.executing.length ≤ 1

theorem Idle.once {call : TaskCall} (idle : call.Idle) : call.Once := by
  simp [Once, idle.1, idle.2]

theorem Single.once {call : TaskCall} (single : call.Single) : call.Once :=
  ⟨by rw [single.1], single.2⟩

section

variable (task : Task) (answers : CallAnswers)

def InSandbox : Prop := answers.skips = false ∧ task.runMode ≠ .loose

/-- The steps in front of the rest went well. -/
def PassedTo (steps rest : List SandboxStep) : Prop :=
  ∃ passed, steps = passed ++ rest ∧ ∀ step ∈ passed, answers.fails step = false

def Placed (call : TaskCall) : Prop :=
  match call.point with
  | .called => call.Idle
  | .cached => call.Idle
  | .attaching rest => InSandbox task answers ∧ call.Idle ∧ PassedTo answers attachSteps rest
  | .spawning => InSandbox task answers ∧ call.Idle ∧ PassedTo answers attachSteps []
  | .watching rest =>
      InSandbox task answers ∧ call.Single ∧ PassedTo answers attachSteps [] ∧
        answers.fails .spawn = false ∧ PassedTo answers watchSteps rest
  | .shell =>
      call.Idle ∨ (call.Single ∧ InSandbox task answers ∧ FailsLate answers)
  | .awaiting => call.Single ∨ StartsAgain task answers
  | .returned _ => call.Once ∨ StartsAgain task answers

variable {task answers}

theorem PassedTo.whole (steps : List SandboxStep) : PassedTo answers steps steps :=
  ⟨[], rfl, by simp⟩

theorem PassedTo.all {steps : List SandboxStep} (passed : PassedTo answers steps []) :
    ∀ step ∈ steps, answers.fails step = false := by
  obtain ⟨front, rfl, went⟩ := passed
  simpa using went

theorem PassedTo.tail {steps rest : List SandboxStep} {next : SandboxStep}
    (passed : PassedTo answers steps (next :: rest)) (goes : answers.fails next = false) :
    PassedTo answers steps rest := by
  obtain ⟨front, rfl, went⟩ := passed
  refine ⟨front ++ [next], by simp, fun step member => ?_⟩
  rcases List.mem_append.mp member with earlier | here
  · exact went step earlier
  · rw [List.mem_singleton.mp here, goes]

theorem PassedTo.mem {steps rest : List SandboxStep} {next : SandboxStep}
    (passed : PassedTo answers steps (next :: rest)) : next ∈ steps := by
  obtain ⟨front, rfl, _⟩ := passed
  simp

theorem Placed.exits {call : TaskCall} {copy : Copy} (placed : call.Placed task answers)
    (executes : copy ∈ call.executing) :
    Placed task answers { call with executing := call.executing.erase copy } := by
  have notIdle : ¬ call.Idle := by
    intro idle
    rw [idle.2] at executes
    simp at executes
  have single (single : call.Single) :
      Single { call with executing := call.executing.erase copy } :=
    ⟨single.1, (List.erase_sublist.length_le).trans single.2⟩
  have once (once : call.Once) : Once { call with executing := call.executing.erase copy } :=
    ⟨once.1, (List.erase_sublist.length_le).trans once.2⟩
  obtain ⟨point, starts, executing⟩ := call
  cases point with
  | called => exact (notIdle placed).elim
  | cached => exact (notIdle placed).elim
  | attaching rest => exact (notIdle placed.2.1).elim
  | spawning => exact (notIdle placed.2.1).elim
  | watching rest => exact ⟨placed.1, single placed.2.1, placed.2.2⟩
  | shell =>
      rcases placed with idle | ⟨isSingle, late⟩
      · exact (notIdle idle).elim
      · exact Or.inr ⟨single isSingle, late⟩
  | awaiting => exact placed.imp_left single
  | returned result => exact placed.imp_left once

theorem Idle.started {starts : Nat} {executing : List Copy} {point next : CallPoint}
    (idle : Idle ⟨point, starts, executing⟩) (copy : Copy) :
    Single ⟨next, starts + 1, copy :: executing⟩ := by
  obtain ⟨noStart, noCopy⟩ := idle
  simp only at noStart noCopy
  simp [Single, noStart, noCopy]

theorem Placed.proceeds {call next : TaskCall} (placed : call.Placed task answers)
    (taken : call.step task answers .proceed = some next) : next.Placed task answers := by
  cases proceeds_of_step taken with
  | hit skips => exact placed
  | loose runs loose => exact Or.inl placed
  | sandboxed runs sandboxed => exact ⟨⟨runs, sandboxed⟩, placed, .whole attachSteps⟩
  | attached => exact placed
  | attachFails fails => exact Or.inl placed.2.1
  | attaches goes =>
      obtain ⟨inSandbox, idle, passed⟩ := placed
      exact ⟨inSandbox, idle, passed.tail goes⟩
  | spawnFails fails => exact Or.inl placed.2.1
  | spawns spawned =>
      obtain ⟨inSandbox, idle, passed⟩ := placed
      exact ⟨inSandbox, idle.started .sandboxed, passed, spawned, .whole watchSteps⟩
  | watchFails fails =>
      obtain ⟨inSandbox, single, passed, spawned, watched⟩ := placed
      exact Or.inr ⟨single, inSandbox, passed.all, spawned, _,
        List.mem_append_left _ watched.mem, fails⟩
  | watches goes =>
      obtain ⟨inSandbox, single, passed, spawned, watched⟩ := placed
      exact ⟨inSandbox, single, passed, spawned, watched.tail goes⟩
  | waitFails fails =>
      obtain ⟨inSandbox, single, passed, spawned, _⟩ := placed
      exact Or.inr ⟨single, inSandbox, passed.all, spawned, .wait, by simp, fails⟩
  | waits waited => exact Or.inl placed.2.1.once
  | shellFails refused =>
      rcases placed with idle | ⟨single, _⟩
      · exact Or.inl idle.once
      · exact Or.inl single.once
  | shellSpawns spawns =>
      rcases placed with idle | ⟨_, inSandbox, late⟩
      · exact Or.inl (idle.started .shell)
      · exact Or.inr ⟨inSandbox.1, inSandbox.2, late, spawns⟩
  | shellLost noExit => exact placed.imp_left Single.once
  | shellExits isExit => exact placed.imp_left Single.once

theorem Reached.placed {call : TaskCall} (reached : Reached task answers call) :
    call.Placed task answers := by
  have idle : initial.Placed task answers := ⟨rfl, rfl⟩
  apply Machine.Reachable.invariant (Placed task answers) idle ?_ reached
  intro state event next placed _ taken
  cases event with
  | proceed => exact placed.proceeds taken
  | exit copy =>
      obtain ⟨executes, moved⟩ := Option.ite_none_right_eq_some.mp taken
      obtain rfl := Option.some.inj moved
      exact placed.exits executes

theorem Placed.once {call : TaskCall} (placed : call.Placed task answers)
    (stays : ¬ StartsAgain task answers) : call.Once := by
  obtain ⟨point, starts, executing⟩ := call
  cases point with
  | called => exact Idle.once placed
  | cached => exact Idle.once placed
  | attaching rest => exact placed.2.1.once
  | spawning => exact placed.2.1.once
  | watching rest => exact placed.2.1.once
  | shell =>
      rcases placed with idle | ⟨single, _⟩
      · exact idle.once
      · exact single.once
  | awaiting => exact (placed.resolve_right stays).once
  | returned result => exact placed.resolve_right stays

/-! What a call comes to is what the answers of the sandbox and of the shell make of it. -/

variable (answers) in
def SandboxRuns : Prop :=
  (∀ step ∈ attachSteps, answers.fails step = false) ∧ answers.fails .spawn = false ∧
    ∀ step ∈ watchSteps ++ [.wait], answers.fails step = false

instance : Decidable (SandboxRuns answers) := by
  unfold SandboxRuns
  infer_instance

variable (answers) in
def sandboxResult : Option RunResult := if SandboxRuns answers then some answers.result else none

variable (answers) in
def shellResult : Option Int := if answers.shellSpawns then answers.shellExit else none

variable (task answers) in
def Settled (call : TaskCall) : Prop :=
  match call.point with
  | .shell => task.runMode = .loose ∨ sandboxResult answers = none
  | .awaiting =>
      (task.runMode = .loose ∨ sandboxResult answers = none) ∧ answers.shellSpawns = true
  | .returned result =>
      result = taskResult task.runMode (sandboxResult answers) (shellResult answers)
  | _ => True

theorem taskResult_shell (unobserved : task.runMode = .loose ∨ sandboxResult answers = none) :
    taskResult task.runMode (sandboxResult answers) (shellResult answers) =
      (shellResult answers).map fun code => (code, .default) := by
  rcases unobserved with loose | none
  · rw [loose]
    rfl
  · rw [none]
    cases task.runMode with
    | strict => rfl
    | observed => rfl
    | loose => rfl

theorem sandboxResult_none {failing : SandboxStep}
    (member : failing ∈ attachSteps ∨ failing = .spawn ∨ failing ∈ watchSteps ++ [.wait])
    (fails : answers.fails failing = true) : sandboxResult answers = none := by
  unfold sandboxResult
  rw [if_neg]
  rintro ⟨attached, spawned, watched⟩
  rcases member with early | rfl | late
  · simp [attached failing early] at fails
  · simp [spawned] at fails
  · simp [watched failing late] at fails

theorem PassedTo.runs (attached : PassedTo answers attachSteps [])
    (spawned : answers.fails .spawn = false) (watched : PassedTo answers watchSteps [])
    (waited : answers.fails .wait = false) : SandboxRuns answers := by
  refine ⟨attached.all, spawned, fun step member => ?_⟩
  rcases List.mem_append.mp member with inside | here
  · exact watched.all step inside
  · rw [List.mem_singleton.mp here, waited]

theorem Settled.proceeds {call next : TaskCall} (placed : call.Placed task answers)
    (settled : call.Settled task answers) (taken : call.step task answers .proceed = some next) :
    next.Settled task answers := by
  cases proceeds_of_step taken with
  | hit skips => trivial
  | loose runs loose => exact Or.inl loose
  | sandboxed runs sandboxed => trivial
  | attached => trivial
  | attachFails fails => exact Or.inr (sandboxResult_none (Or.inl placed.2.2.mem) fails)
  | attaches goes => trivial
  | spawnFails fails => exact Or.inr (sandboxResult_none (Or.inr (Or.inl rfl)) fails)
  | spawns spawned => trivial
  | watchFails fails =>
      obtain ⟨_, _, _, _, watched⟩ := placed
      have late := List.mem_append_left [SandboxStep.wait] watched.mem
      exact Or.inr (sandboxResult_none (Or.inr (Or.inr late)) fails)
  | watches goes => trivial
  | waitFails fails =>
      exact Or.inr (sandboxResult_none (Or.inr (Or.inr (by simp))) fails)
  | waits waited =>
      obtain ⟨inSandbox, _, passed, spawned, watched⟩ := placed
      simp only [Settled, sandboxResult, passed.runs spawned watched waited, if_true]
      cases isMode : task.runMode with
      | strict => rfl
      | observed => rfl
      | loose => exact (inSandbox.2 isMode).elim
  | shellFails refused =>
      simp only [Settled]
      rw [taskResult_shell settled, shellResult, refused]
      rfl
  | shellSpawns spawns => exact ⟨settled, spawns⟩
  | shellLost noExit =>
      obtain ⟨unobserved, spawns⟩ := settled
      simp only [Settled]
      rw [taskResult_shell unobserved, shellResult, if_pos spawns, noExit]
      rfl
  | shellExits isExit =>
      obtain ⟨unobserved, spawns⟩ := settled
      simp only [Settled]
      rw [taskResult_shell unobserved, shellResult, if_pos spawns, isExit]
      rfl

/-- A call that returns does so with the result of the task. -/
theorem Reached.result {call : TaskCall} (reached : Reached task answers call)
    {result : Option (Int × StoredPathset)} (returned : call.point = .returned result) :
    result = taskResult task.runMode (sandboxResult answers) (shellResult answers) := by
  have both : call.Placed task answers ∧ call.Settled task answers := by
    have idle : initial.Placed task answers := ⟨rfl, rfl⟩
    apply Machine.Reachable.invariant (fun call => call.Placed task answers ∧
      call.Settled task answers) ⟨idle, trivial⟩ ?_ reached
    rintro state event next ⟨placed, settled⟩ _ taken
    cases event with
    | proceed => exact ⟨placed.proceeds taken, settled.proceeds placed taken⟩
    | exit copy =>
        obtain ⟨executes, moved⟩ := Option.ite_none_right_eq_some.mp taken
        obtain rfl := Option.some.inj moved
        exact ⟨placed.exits executes, settled⟩
  have settled := both.2
  rw [Settled, returned] at settled
  exact settled

/-! A call whose sandbox fails late, while no copy exits. -/

theorem Reached.proceed {call next : TaskCall} (reached : Reached task answers call)
    (taken : call.step task answers .proceed = some next) : Reached task answers next :=
  reached.tail .proceed trivial taken

theorem Reached.attached {starts : Nat} {executing : List Copy} (rest : List SandboxStep)
    (went : ∀ step ∈ rest, answers.fails step = false)
    (reached : Reached task answers ⟨.attaching rest, starts, executing⟩) :
    Reached task answers ⟨.spawning, starts, executing⟩ := by
  induction rest with
  | nil => exact reached.proceed rfl
  | cons first rest ih =>
      have next : Reached task answers ⟨.attaching rest, starts, executing⟩ :=
        reached.proceed (by simp [step, went first])
      exact ih (fun step member => went step (by simp [member])) next

theorem Reached.watched {starts : Nat} {executing : List Copy} (rest : List SandboxStep)
    (fails : ∃ step ∈ rest ++ [.wait], answers.fails step = true)
    (reached : Reached task answers ⟨.watching rest, starts, executing⟩) :
    Reached task answers ⟨.shell, starts, executing⟩ := by
  induction rest with
  | nil =>
      obtain ⟨failing, member, fails⟩ := fails
      obtain rfl := List.mem_singleton.mp member
      exact reached.proceed (by simp [step, fails])
  | cons first rest ih =>
      by_cases here : answers.fails first = true
      · exact reached.proceed (by simp [step, here])
      · have next : Reached task answers ⟨.watching rest, starts, executing⟩ :=
          reached.proceed (by simp [step, here])
        obtain ⟨failing, member, later⟩ := fails
        refine ih ⟨failing, ?_, later⟩ next
        rcases List.mem_cons.mp member with rfl | behind
        · exact (here later).elim
        · exact behind

/-- The shell starts a second copy while the first one executes. -/
theorem StartsAgain.reached (again : StartsAgain task answers) :
    Reached task answers ⟨.awaiting, 2, [.shell, .sandboxed]⟩ := by
  obtain ⟨runs, sandboxed, ⟨attached, spawned, watched⟩, spawns⟩ := again
  have called : Reached task answers ⟨.attaching attachSteps, 0, []⟩ :=
    Reached.proceed .refl (by simp [step, initial, runs, sandboxed])
  have child : Reached task answers ⟨.watching watchSteps, 1, [.sandboxed]⟩ :=
    (called.attached attachSteps attached).proceed (by simp [step, spawned, start])
  exact (child.watched watchSteps watched).proceed (by simp [step, spawns, start])

end

theorem started_once_iff (task : Task) (answers : CallAnswers) :
    (∀ call, Reached task answers call → call.Once) ↔ ¬ StartsAgain task answers := by
  constructor
  · intro once again
    have second := once _ again.reached
    simp [Once] at second
  · intro stays call reached
    exact reached.placed.once stays

/-! The map of watched processes is full. -/

namespace FullMap

def answers : CallAnswers where
  skips := false
  fails := fun step => step = .insertPid
  result := ⟨0, [], []⟩
  shellSpawns := true
  shellExit := some 0

end FullMap

theorem started_twice :
    ¬ ∀ (task : Task) (answers : CallAnswers) (call : TaskCall), Reached task answers call →
      call.Once := by
  intro claimed
  have ran : Machine.run (step (Sample.task .strict []) FullMap.answers) initial
      (List.replicate 21 .proceed) = some ⟨.awaiting, 2, [.shell, .sandboxed]⟩ := rfl
  have twice := claimed _ _ _ (Machine.run_reachable (fun _ _ _ => trivial) ran)
  simp [Once] at twice

end TaskCall

end Rage
