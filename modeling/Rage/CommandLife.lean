import Rage.FailureContainment

/-!
The shell commands of a run.  A command is a process of its own: it goes on when the future that
awaits it is dropped, since no command is built with `kill_on_drop`.
-/

namespace Rage

inductive Owner
  | root (index : Nat)
  | package (index : Nat)
  deriving DecidableEq

def Schedule.ownerPhase (schedule : Schedule) : Owner → Phase
  | .root index => schedule.rootPhase index
  | .package index => schedule.phase index

/-- A command that executes; `awaited` while its future holds the child. -/
structure Command where
  owner : Owner
  awaited : Bool
  deriving DecidableEq

structure CommandRun where
  schedule : Schedule
  commands : List Command

inductive CommandEvent
  | scheduler (event : SchedulerEvent)
  | launch (owner : Owner)
  | exit (command : Command)
  | abandon (owner : Owner)

/-- A future has a result once it has awaited its command. -/
def SchedulerEvent.awaits : SchedulerEvent → Option Owner
  | .rootReturn index _ => some (.root index)
  | .finish index _ => some (.package index)
  | _ => none

def SchedulerEvent.drops : SchedulerEvent → Option Owner
  | .rootDrop index _ => some (.root index)
  | .drop index _ => some (.package index)
  | _ => none

/-- Whose child is dropped: that of a dropped future, or after an error of its pipes. -/
def CommandEvent.dropsChild : CommandEvent → Option Owner
  | .scheduler event => event.drops
  | .abandon owner => some owner
  | _ => none

namespace CommandRun

def initial (set : TaskSet) : CommandRun := ⟨.initial set, []⟩

def disown (commands : List Command) (owner : Owner) : List Command :=
  commands.map fun command =>
    if command.owner = owner then { command with awaited := false } else command

def step (set : TaskSet) (run : CommandRun) : CommandEvent → Option CommandRun
  | .scheduler event =>
      if event.awaits.all fun owner => !run.commands.contains ⟨owner, true⟩ then
        (run.schedule.step set event).map fun next =>
          ⟨next, event.drops.elim run.commands (disown run.commands)⟩
      else none
  | .launch owner =>
      if run.schedule.ownerPhase owner = .running ∧ ⟨owner, true⟩ ∉ run.commands then
        some { run with commands := ⟨owner, true⟩ :: run.commands }
      else none
  | .exit command =>
      if command ∈ run.commands then some { run with commands := run.commands.erase command }
      else none
  | .abandon owner =>
      if run.schedule.ownerPhase owner = .running then
        some { run with commands := disown run.commands owner }
      else none

/-- No child is dropped while its command executes. -/
def Spared (run : CommandRun) (event : CommandEvent) : Prop :=
  ∀ owner ∈ event.dropsChild, ⟨owner, true⟩ ∉ run.commands

instance (run : CommandRun) (event : CommandEvent) : Decidable (Spared run event) :=
  inferInstanceAs (Decidable (∀ owner ∈ event.dropsChild, ⟨owner, true⟩ ∉ run.commands))

/-- Every command that executes is awaited by a future that runs. -/
def Held (run : CommandRun) : Prop :=
  ∀ command ∈ run.commands, command.awaited = true ∧
    run.schedule.ownerPhase command.owner = .running

theorem scheduled {set : TaskSet} {run : CommandRun}
    {allowed : CommandRun → CommandEvent → Prop}
    (reached : Machine.Reachable (step set) allowed (initial set) run) :
    Schedule.Reachable set run.schedule := by
  suffices steps : Machine.Reachable (Schedule.step set) (fun _ _ => True) (.initial set)
      run.schedule from Schedule.reachable_of_machine steps
  apply reached.simulates CommandRun.schedule
  intro state event next _ taken
  cases event with
  | scheduler event =>
      obtain ⟨_, moved⟩ := Option.ite_none_right_eq_some.mp taken
      obtain ⟨schedule, isNext, rfl⟩ := Option.map_eq_some_iff.mp moved
      exact Or.inr ⟨event, trivial, isNext⟩
  | launch owner =>
      obtain ⟨_, moved⟩ := Option.ite_none_right_eq_some.mp taken
      obtain rfl := Option.some.inj moved
      exact Or.inl rfl
  | exit command =>
      obtain ⟨_, moved⟩ := Option.ite_none_right_eq_some.mp taken
      obtain rfl := Option.some.inj moved
      exact Or.inl rfl
  | abandon owner =>
      obtain ⟨_, moved⟩ := Option.ite_none_right_eq_some.mp taken
      obtain rfl := Option.some.inj moved
      exact Or.inl rfl

theorem update_running {phases : Nat → Phase} {index other : Nat} {phase : Phase}
    (running : phases other = .running) (differ : phases index ≠ .running ∨ other ≠ index) :
    Function.update phases index phase other = .running := by
  have apart : other ≠ index := by
    rcases differ with was | apart
    · rintro rfl
      exact was running
    · exact apart
  rw [Function.update_of_ne apart, running]

/-- A running future stops when it has awaited its command or is dropped. -/
theorem running_kept {set : TaskSet} {schedule next : Schedule} {event : SchedulerEvent}
    (ordered : Ordered set schedule) (taken : schedule.step set event = some next) {owner : Owner}
    (running : schedule.ownerPhase owner = .running) (notAwaited : event.awaits ≠ some owner)
    (notDropped : event.drops ≠ some owner) : next.ownerPhase owner = .running := by
  have sameRoots {after : Schedule} (same : after.rootPhase = schedule.rootPhase)
      (moved : ∀ index, owner = .package index → after.phase index = .running) :
      after.ownerPhase owner = .running := by
    cases owner with
    | root index => rwa [Schedule.ownerPhase, same]
    | package index => exact moved index rfl
  have samePackages {after : Schedule} (same : after.phase = schedule.phase)
      (moved : ∀ index, owner = .root index → after.rootPhase index = .running) :
      after.ownerPhase owner = .running := by
    cases owner with
    | root index => exact moved index rfl
    | package index => rwa [Schedule.ownerPhase, same]
  have inPackage {index : Nat} (isOwner : owner = .package index) :
      schedule.phase index = .running := by
    subst isOwner
    exact running
  have inRoot {index : Nat} (isOwner : owner = .root index) :
      schedule.rootPhase index = .running := by
    subst isOwner
    exact running
  cases event with
  | rootReturn index result =>
      obtain ⟨_, moved⟩ := Option.ite_none_right_eq_some.mp taken
      obtain rfl := Option.some.inj moved
      apply samePackages (by rfl)
      intro other isOwner
      apply update_running (inRoot isOwner)
      right
      rintro rfl
      exact notAwaited (congrArg some isOwner.symm)
  | rootDrop index panics =>
      obtain ⟨_, moved⟩ := Option.ite_none_right_eq_some.mp taken
      obtain rfl := Option.some.inj moved
      apply samePackages (by rfl)
      intro other isOwner
      apply update_running (inRoot isOwner)
      right
      rintro rfl
      exact notDropped (congrArg some isOwner.symm)
  | rootJoin index =>
      obtain ⟨_, collected⟩ := Option.ite_none_right_eq_some.mp taken
      obtain ⟨outcome, _, rfl⟩ := Option.map_eq_some_iff.mp collected
      rw [Schedule.collect_eq]
      exact samePackages (by rfl) fun index isOwner => inRoot isOwner
  | enterPackages =>
      obtain ⟨_, entered⟩ := Option.ite_none_right_eq_some.mp taken
      split at entered
      · obtain rfl := Option.some.inj entered
        exact samePackages (by rfl) fun index isOwner => inRoot isOwner
      · split at entered
        · obtain rfl := Option.some.inj entered
          exact samePackages (by rfl) fun index isOwner => inRoot isOwner
        · obtain rfl := Option.some.inj entered
          exact samePackages (by rfl) fun index isOwner => inRoot isOwner
  | spawn =>
      simp only [Schedule.step] at taken
      split at taken
      · rename_i position stage
        have unspawned : schedule.phase position = .unspawned :=
          ordered.ahead position (by rw [stage]; exact Nat.le_refl position)
        obtain rfl := Option.some.inj taken
        unfold Schedule.spawnNext
        split
        · exact samePackages (by rfl) fun index isOwner => inRoot isOwner
        · split
          · exact samePackages (by rfl) fun index isOwner => inRoot isOwner
          · apply sameRoots (by rfl)
            intro other isOwner
            exact update_running (inPackage isOwner) (Or.inl (by simp [unspawned]))
      · simp at taken
  | poll index =>
      simp only [Schedule.step] at taken
      split at taken
      · rename_i dep rest waiting
        obtain ⟨phase, _, rfl⟩ := Option.map_eq_some_iff.mp taken
        apply sameRoots (by rfl)
        intro other isOwner
        exact update_running (inPackage isOwner) (Or.inl (by simp [waiting]))
      · simp at taken
  | start index =>
      obtain ⟨waiting, moved⟩ := Option.ite_none_right_eq_some.mp taken
      obtain rfl := Option.some.inj moved
      apply sameRoots (by rfl)
      intro other isOwner
      exact update_running (inPackage isOwner) (Or.inl (by simp [waiting]))
  | finish index result =>
      obtain ⟨_, moved⟩ := Option.ite_none_right_eq_some.mp taken
      obtain rfl := Option.some.inj moved
      apply sameRoots (by rfl)
      intro other isOwner
      apply update_running (inPackage isOwner)
      right
      rintro rfl
      exact notAwaited (congrArg some isOwner.symm)
  | send index =>
      simp only [Schedule.step] at taken
      split at taken
      · rename_i finished
        obtain rfl := Option.some.inj taken
        apply sameRoots (by rfl)
        intro other isOwner
        exact update_running (inPackage isOwner) (Or.inl (by simp [finished]))
      · rename_i skipping
        obtain rfl := Option.some.inj taken
        apply sameRoots (by rfl)
        intro other isOwner
        exact update_running (inPackage isOwner) (Or.inl (by simp [skipping]))
      · simp at taken
  | drop index panics =>
      simp only [Schedule.step] at taken
      split at taken
      · obtain ⟨_, moved⟩ := Option.ite_none_right_eq_some.mp taken
        obtain rfl := Option.some.inj moved
        apply sameRoots (by rfl)
        intro other isOwner
        apply update_running (inPackage isOwner)
        right
        rintro rfl
        exact notDropped (congrArg some isOwner.symm)
      · simp at taken
  | join index =>
      obtain ⟨_, collected⟩ := Option.ite_none_right_eq_some.mp taken
      obtain ⟨outcome, _, rfl⟩ := Option.map_eq_some_iff.mp collected
      rw [Schedule.collect_eq]
      exact samePackages (by rfl) fun index isOwner => inRoot isOwner
  | leave =>
      obtain ⟨_, moved⟩ := Option.ite_none_right_eq_some.mp taken
      obtain rfl := Option.some.inj moved
      exact samePackages (by rfl) fun index isOwner => inRoot isOwner

theorem disown_held {run : CommandRun} (held : run.Held) {owner : Owner}
    (idle : ⟨owner, true⟩ ∉ run.commands) : disown run.commands owner = run.commands := by
  have same : ∀ command ∈ run.commands,
      (if command.owner = owner then { command with awaited := false } else command) =
        command := by
    intro command member
    apply if_neg
    rintro rfl
    apply idle
    rw [← (held command member).1]
    exact member
  rw [disown, List.map_congr_left same, List.map_id']

theorem Held.step {set : TaskSet} {run next : CommandRun} {event : CommandEvent} (held : run.Held)
    (ordered : Ordered set run.schedule) (spared : run.Spared event)
    (taken : run.step set event = some next) : next.Held := by
  cases event with
  | scheduler event =>
      obtain ⟨free, moved⟩ := Option.ite_none_right_eq_some.mp taken
      obtain ⟨schedule, isNext, rfl⟩ := Option.map_eq_some_iff.mp moved
      have same : event.drops.elim run.commands (disown run.commands) = run.commands := by
        cases dropped : event.drops with
        | none => rfl
        | some owner => exact disown_held held (spared owner dropped)
      intro command member
      simp only [same] at member
      obtain ⟨awaited, running⟩ := held command member
      have executes : ⟨command.owner, true⟩ ∈ run.commands := by
        rw [← awaited]
        exact member
      refine ⟨awaited, running_kept ordered isNext running ?_ ?_⟩
      · intro awaits
        simp [awaits, executes] at free
      · intro drops
        exact spared command.owner drops executes
  | launch owner =>
      obtain ⟨⟨running, _⟩, moved⟩ := Option.ite_none_right_eq_some.mp taken
      obtain rfl := Option.some.inj moved
      intro command member
      rcases List.mem_cons.mp member with rfl | old
      · exact ⟨rfl, running⟩
      · exact held command old
  | exit command =>
      obtain ⟨_, moved⟩ := Option.ite_none_right_eq_some.mp taken
      obtain rfl := Option.some.inj moved
      intro other member
      exact held other (List.mem_of_mem_erase member)
  | abandon owner =>
      obtain ⟨_, moved⟩ := Option.ite_none_right_eq_some.mp taken
      obtain rfl := Option.some.inj moved
      intro command member
      simp only [disown_held held (spared owner rfl)] at member
      exact held command member

theorem held_of_spared {set : TaskSet} {run : CommandRun}
    (reached : Machine.Reachable (step set) Spared (initial set) run) : run.Held := by
  induction reached with
  | refl => simp [Held, initial]
  | tail event reached spared taken ih =>
      exact ih.step (Ordered.reachable (scheduled reached)) spared taken

/-- No future runs any more once the function has returned. -/
theorem not_running_of_returned {set : TaskSet} {schedule : Schedule}
    (reached : Schedule.Reachable set schedule) {result : TaskResult}
    (returned : schedule.stage = .returned result) (owner : Owner) :
    schedule.ownerPhase owner ≠ .running := by
  have contained := Contained.reachable reached
  have ended : schedule.ownerPhase owner = .unspawned ∨ (schedule.ownerPhase owner).Ended := by
    cases owner with
    | root index => exact contained.rootsOver (by simp [returned]) index
    | package index => exact contained.finished result returned index
  intro running
  rcases ended with unspawned | dropped | ⟨_, ended⟩
  · simp [running] at unspawned
  · simp [running] at dropped
  · simp [running] at ended

end CommandRun

/-- Where no child is dropped while its command executes, no command outlives the run. -/
theorem no_command_outlives (tasks : List Task) (abortOnPanic : Bool) (run : CommandRun)
    (reached : Machine.Reachable (CommandRun.step (.ofTasks tasks abortOnPanic)) CommandRun.Spared
      (.initial (.ofTasks tasks abortOnPanic)) run)
    (result : TaskResult) (returned : run.schedule.stage = .returned result) :
    run.commands = [] := by
  have held := CommandRun.held_of_spared reached
  have idle := CommandRun.not_running_of_returned (CommandRun.scheduled reached) returned
  apply List.eq_nil_iff_forall_not_mem.mpr
  intro command executes
  exact idle command.owner (held command executes).2

/-! Two packages that do not depend on each other: the first one fails. -/

namespace MissingScript

def pair : List Task := [task "core" [], task "app" []]

def begun : List CommandEvent :=
  [.scheduler .enterPackages, .scheduler .spawn, .scheduler .spawn, .scheduler .spawn,
    .scheduler (.start 0), .scheduler (.start 1), .launch (.package 0), .launch (.package 1),
    .exit ⟨.package 0, true⟩]

def failure : TaskResult := .error (.taskFailed (utf8 "core") (utf8 "build") 1)

def failing : List CommandEvent :=
  [.scheduler (.finish 0 failure), .scheduler (.send 0), .scheduler (.join 0)]

def patient : List CommandEvent :=
  begun ++ failing ++ [.exit ⟨.package 1, true⟩, .scheduler (.drop 1 false), .scheduler (.join 1),
    .scheduler .leave]

def aborted : List CommandEvent :=
  begun ++ failing ++ [.scheduler (.drop 1 false), .scheduler (.join 1), .scheduler .leave]

end MissingScript

theorem no_command_outlives_patient :
    ∃ run, Machine.run (CommandRun.step (.ofTasks MissingScript.pair true))
        (.initial (.ofTasks MissingScript.pair true)) MissingScript.patient = some run ∧
      run.schedule.stage = .returned MissingScript.failure ∧ run.commands = [] := by
  obtain ⟨run, ran, returned⟩ : ∃ run,
      Machine.run (Machine.guarded CommandRun.Spared
        (CommandRun.step (.ofTasks MissingScript.pair true)))
          (.initial (.ofTasks MissingScript.pair true)) MissingScript.patient = some run ∧
        run.schedule.stage = .returned MissingScript.failure := by
    apply Option.map_eq_some_iff.mp
    decide +kernel
  exact ⟨run, Machine.run_of_guarded ran, returned,
    no_command_outlives MissingScript.pair true run (Machine.guarded_reachable ran)
      MissingScript.failure returned⟩

/-- The abort drops the future of the second task, and its command goes on. -/
theorem aborted_command_outlives :
    ¬ ∀ (tasks : List Task) (abortOnPanic : Bool) (run : CommandRun),
      Machine.Reachable (CommandRun.step (.ofTasks tasks abortOnPanic)) (fun _ _ => True)
        (.initial (.ofTasks tasks abortOnPanic)) run →
      ∀ result, run.schedule.stage = .returned result → run.commands = [] := by
  intro claimed
  obtain ⟨run, ran, outcome⟩ : ∃ run,
      Machine.run (CommandRun.step (.ofTasks MissingScript.pair true))
          (.initial (.ofTasks MissingScript.pair true)) MissingScript.aborted = some run ∧
        (run.schedule.stage, run.commands) =
          (.returned MissingScript.failure, [⟨.package 1, false⟩]) := by
    apply Option.map_eq_some_iff.mp
    decide +kernel
  obtain ⟨returned, executes⟩ := Prod.mk.inj outcome
  have none := claimed MissingScript.pair true run
    (Machine.run_reachable (fun _ _ _ => trivial) ran) MissingScript.failure returned
  simp [none] at executes

end Rage
