import Mathlib.Data.List.InsertIdx
import Rage.FailureContainment
import Rage.Rebuild

/-!
The parallel scheduler with the cache.  What a run of it does to the cache is a history of sessions
in which dependencies come first, so that what is proved of sessions holds of every interleaving.
-/

namespace Rage

namespace Schedule

variable {set : TaskSet} {before after : Schedule} {event : SchedulerEvent}

/-- A future that has returned does not move again. -/
theorem returned_step (ordered : Ordered set before) (taken : before.step set event = some after)
    {index : Nat} {result : TaskResult} (returned : before.phase index = .returned result) :
    after.phase index = .returned result := by
  have elsewhere {moved : Nat} {phase : Phase} (differ : before.phase index ≠ before.phase moved)
      (phases : after.phase = Function.update before.phase moved phase) :
      after.phase index = .returned result := by
    have apart : index ≠ moved := fun same => differ (by rw [same])
    rw [phases, Function.update_of_ne apart, returned]
  cases step_effect taken with
  | control _ phases _ => rw [phases, returned]
  | opened _ phases _ => rw [phases, returned]
  | spawned moved task _ wasAhead _ _ phases _ =>
      exact elsewhere (by simp [returned, ordered.ahead moved wasAhead]) phases
  | received moved dep rest sender _ waited _ phases _ =>
      exact elsewhere (by simp [returned, waited]) phases
  | skipped moved dep rest _ waited phases _ => exact elsewhere (by simp [returned, waited]) phases
  | started moved _ waited phases _ => exact elsewhere (by simp [returned, waited]) phases
  | finished moved other _ ran phases _ => exact elsewhere (by simp [returned, ran]) phases
  | sent moved task other state _ _ was _ phases _ =>
      refine elsewhere ?_ phases
      rcases was with finished | ⟨skipping, -⟩
      · simp [returned, finished]
      · simp [returned, skipping]
  | dropped moved task _ _ was phases _ =>
      refine elsewhere ?_ phases
      rcases was with ran | ⟨rest, waited⟩
      · simp [returned, ran]
      · simp [returned, waited]

/-- A command runs until its task ends or is dropped. -/
theorem flying_step (ordered : Ordered set before) (taken : before.step set event = some after)
    {index : Nat} (notEnd : ∀ result, event ≠ .finish index result)
    (flying : before.phase index = .running ∨ before.phase index = .dropped) :
    after.phase index = .running ∨ after.phase index = .dropped := by
  have elsewhere {moved : Nat} {phase : Phase} (differ : before.phase moved ≠ .running)
      (other : before.phase moved ≠ .dropped)
      (phases : after.phase = Function.update before.phase moved phase) :
      after.phase index = .running ∨ after.phase index = .dropped := by
    have apart : index ≠ moved := by
      rintro rfl
      exact flying.elim differ other
    rw [phases, Function.update_of_ne apart]
    exact flying
  cases step_effect taken with
  | control _ phases _ => rwa [phases]
  | opened _ phases _ => rwa [phases]
  | spawned moved task _ wasAhead _ _ phases _ =>
      exact elsewhere (by simp [ordered.ahead moved wasAhead])
        (by simp [ordered.ahead moved wasAhead]) phases
  | received moved dep rest sender _ waited _ phases _ =>
      exact elsewhere (by simp [waited]) (by simp [waited]) phases
  | skipped moved dep rest _ waited phases _ =>
      exact elsewhere (by simp [waited]) (by simp [waited]) phases
  | started moved _ waited phases _ => exact elsewhere (by simp [waited]) (by simp [waited]) phases
  | finished moved result _ ran phases _ =>
      by_cases here : index = moved
      · subst here
        have ended : after.phase index = .finished result := by rw [phases, Function.update_self]
        rcases (came_step taken index).finished result ended with was | ⟨isFinish, -⟩
        · simp [ran] at was
        · exact absurd isFinish (notEnd result)
      · rw [phases, Function.update_of_ne here]
        exact flying
  | sent moved task result state _ _ was _ phases _ =>
      rcases was with finished | ⟨skipping, -⟩
      · exact elsewhere (by simp [finished]) (by simp [finished]) phases
      · exact elsewhere (by simp [skipping]) (by simp [skipping]) phases
  | dropped moved task _ _ _ phases _ =>
      by_cases here : index = moved
      · subst here
        rw [phases, Function.update_self]
        exact Or.inr rfl
      · rw [phases, Function.update_of_ne here]
        exact flying

end Schedule

/-- What the exit of the execution says of the command. -/
def Execution.outcome (exec : Execution) (mode : SandboxMode) : CommandOutcome :=
  match exec.result mode with
  | some (code, _) => .exited code
  | none => .notSpawned

/-- `executing` has the tasks that are executed, in the order in which the session has them in
flight, and `trace` what has been done to the session. -/
structure CachedRun where
  schedule : Schedule
  session : Session
  executing : List Nat
  trace : List SessionStep

/-- A task that has waited for its dependencies looks itself up; it is replayed, or executed until
it is recorded. -/
inductive CachedEvent
  | schedule (event : SchedulerEvent)
  | start (index : Nat) (toolPath : Path) (fs : FileSystem)
  | replay (index : Nat)
  | finish (index : Nat) (exec : Execution)

namespace CachedRun

section

variable (crates : Crates) (set : TaskSet)

def initial (session : Session) : CachedRun := ⟨.initial set, session, [], []⟩

def step (run : CachedRun) : CachedEvent → Option CachedRun
  | .schedule (.start _) => none
  | .schedule (.finish _ _) => none
  | .schedule event =>
      (run.schedule.step set event).map fun next => { run with schedule := next }
  | .start index toolPath fs =>
      set.packages[index]?.bind fun task =>
        (run.schedule.step set (.start index)).map fun next =>
          { schedule := next
            session := run.session.step crates (.start ⟨task, toolPath, fs⟩)
            executing :=
              if (lookupPhase crates run.session.cache ⟨task, toolPath, fs⟩).isSome then run.executing
              else run.executing ++ [index]
            trace := run.trace ++ [.start ⟨task, toolPath, fs⟩] }
  | .replay index =>
      if index ∈ run.executing then none
      else (run.schedule.step set (.finish index (.ok ()))).map fun next =>
        { run with schedule := next }
  | .finish index exec =>
      if index ∈ run.executing then
        set.packages[index]?.bind fun task =>
          (run.schedule.step set
            (.finish index (task.result (exec.outcome task.sandboxMode)))).map fun next =>
            { schedule := next
              session := run.session.step crates (.finish (run.executing.idxOf index) exec)
              executing := run.executing.eraseIdx (run.executing.idxOf index)
              trace := run.trace ++ [.finish (run.executing.idxOf index) exec] }
      else none

/-- What a step does to the cache: nothing, or it starts a task, or ends its execution. -/
inductive Moved (event : CachedEvent) (before after : CachedRun) : Prop
  | kept (own : SchedulerEvent) (notStart : ∀ index, own ≠ .start index)
      (notEnd : ∀ index ∈ before.executing, ∀ result, own ≠ .finish index result)
      (taken : before.schedule.step set own = some after.schedule)
      (same : after = { before with schedule := after.schedule })
  | started (index : Nat) (start : TaskStart) (isStart : event = .start index start.toolPath start.fs)
      (known : set.packages[index]? = some start.task)
      (taken : before.schedule.step set (.start index) = some after.schedule)
      (same : after = { before with
        schedule := after.schedule
        session := before.session.step crates (.start start)
        executing :=
          if (lookupPhase crates before.session.cache start).isSome then before.executing
          else before.executing ++ [index]
        trace := before.trace ++ [.start start] })
  | ended (index : Nat) (task : Task) (exec : Execution)
      (known : set.packages[index]? = some task) (member : index ∈ before.executing)
      (taken : before.schedule.step set
        (.finish index (task.result (exec.outcome task.sandboxMode))) = some after.schedule)
      (same : after = { before with
        schedule := after.schedule
        session := before.session.step crates (.finish (before.executing.idxOf index) exec)
        executing := before.executing.eraseIdx (before.executing.idxOf index)
        trace := before.trace ++ [.finish (before.executing.idxOf index) exec] })

/-- The tool that a task finds is the same whenever it starts. -/
def Equipped (tool : Task → Path) (_ : CachedRun) : CachedEvent → Prop
  | .start index toolPath _ => ∀ task, set.packages[index]? = some task → toolPath = tool task
  | _ => True

/-- The files of the ABI fingerprints tell the dependencies apart. -/
def Separated : Prop :=
  ∀ task ∈ set.packages, ∀ dep ∈ task.depPackageNames, ∀ other ∈ set.packages,
    abiFile dep = abiFile other.packageName → dep = other.packageName

end

variable {crates : Crates} {set : TaskSet}

theorem moved_of_step {before after : CachedRun} {event : CachedEvent}
    (taken : before.step crates set event = some after) : Moved crates set event before after := by
  cases event with
  | schedule event =>
      cases event with
      | start index => simp [step] at taken
      | finish index result => simp [step] at taken
      | _ =>
          obtain ⟨next, stepped, rfl⟩ := Option.map_eq_some_iff.mp taken
          exact .kept _ (by simp) (by simp) stepped rfl
  | start index toolPath fs =>
      obtain ⟨task, known, stepped⟩ := Option.bind_eq_some_iff.mp taken
      obtain ⟨next, moved, rfl⟩ := Option.map_eq_some_iff.mp stepped
      exact .started index ⟨task, toolPath, fs⟩ rfl known moved rfl
  | replay index =>
      obtain ⟨notExecuting, stepped⟩ := Option.ite_none_left_eq_some.mp taken
      obtain ⟨next, moved, rfl⟩ := Option.map_eq_some_iff.mp stepped
      refine .kept _ (by simp) ?_ moved rfl
      rintro other member result ⟨⟩
      exact notExecuting member
  | finish index exec =>
      obtain ⟨member, stepped⟩ := Option.ite_none_right_eq_some.mp taken
      obtain ⟨task, known, moved⟩ := Option.bind_eq_some_iff.mp stepped
      obtain ⟨next, ends, rfl⟩ := Option.map_eq_some_iff.mp moved
      exact .ended index task exec known member ends rfl

end CachedRun

/-! Histories that grow by one step. -/

namespace Session

variable {crates : Crates} {session : Session} {steps : List SessionStep}

theorem final_snoc (session : Session) (steps : List SessionStep) (next : SessionStep) :
    Runs.final (step crates) session (steps ++ [next]) =
      (Runs.final (step crates) session steps).step crates next := by
  simp [Runs.final]

theorem starts_snoc_start (steps : List SessionStep) (start : TaskStart) :
    starts (steps ++ [.start start]) = starts steps ++ [start] := by
  simp [starts]

theorem starts_snoc_finish (steps : List SessionStep) (index : Nat) (exec : Execution) :
    starts (steps ++ [.finish index exec]) = starts steps := by
  simp [starts]

theorem DependenciesFirst.snoc (ordered : DependenciesFirst crates session steps)
    {next : SessionStep}
    (here : ∀ index exec, next = .finish index exec → ∀ ended inputs,
      (Runs.final (step crates) session steps).running[index]? = some (ended, inputs) →
        ∀ start ∈ starts steps, ∀ dep ∈ start.task.depPackageNames,
          abiFile dep ≠ abiFile ended.task.packageName) :
    DependenciesFirst crates session (steps ++ [next]) := by
  intro before index exec after split
  rcases List.eq_nil_or_concat' after with rfl | ⟨earlier, last, rfl⟩
  · obtain ⟨rfl, isNext⟩ := List.append_inj' split rfl
    exact here index exec (List.cons.inj isNext).1
  · have shorter : before ++ .finish index exec :: (earlier ++ [last]) =
        before ++ .finish index exec :: earlier ++ [last] := by simp
    obtain ⟨same, -⟩ := List.append_inj' (split.trans shorter) rfl
    exact ordered before index exec earlier same

end Session

namespace CachedRun

section

variable (crates : Crates) (set : TaskSet)

/-- The session of a run is its trace, and its executions are those of the session. -/
structure Tracked (origin : Session) (run : CachedRun) : Prop where
  schedule : Schedule.Reachable set run.schedule
  session : run.session = Runs.final (Session.step crates) origin run.trace
  aligned : run.executing.map (fun index => set.packages[index]?) =
    run.session.running.map fun entry => some entry.1.task
  once : run.executing.Nodup
  flying : ∀ index ∈ run.executing,
    run.schedule.phase index = .running ∨ run.schedule.phase index = .dropped
  waited : ∀ start ∈ Session.starts run.trace, start.task ∈ set.packages ∧
    ∀ dep ∈ start.task.depPackageNames, set.hasTask dep = true →
      ∃ index done, set.packages[index]? = some done ∧ done.packageName = dep ∧
        run.schedule.phase index = .returned (.ok ())
  ordered : Session.DependenciesFirst crates origin run.trace

end

variable {crates : Crates} {set : TaskSet} {origin : Session} {run next : CachedRun}

theorem Tracked.initial (idle : origin.running = []) :
    Tracked crates set origin (.initial set origin) where
  schedule := .initial
  session := rfl
  aligned := by simp [CachedRun.initial, idle]
  once := List.nodup_nil
  flying := by simp [CachedRun.initial]
  waited := by simp [CachedRun.initial, Session.starts]
  ordered := by simp [CachedRun.initial, Session.DependenciesFirst]

theorem Tracked.position (tracked : Tracked crates set origin run) {index : Nat} {task : Task}
    (known : set.packages[index]? = some task) (member : index ∈ run.executing) :
    ∃ start inputs, run.session.running[run.executing.idxOf index]? = some (start, inputs) ∧
      start.task = task := by
  have here := congrArg (fun entries => entries[run.executing.idxOf index]?) tracked.aligned
  simp only [List.getElem?_map, List.getElem?_idxOf member, Option.map_some, known] at here
  obtain ⟨⟨start, inputs⟩, found, same⟩ := Option.map_eq_some_iff.mp here.symm
  exact ⟨start, inputs, found, Option.some.inj same⟩

/-- The dependencies that a task has waited for have returned for good. -/
theorem Tracked.waited_step (tracked : Tracked crates set origin run) {event : SchedulerEvent}
    (taken : run.schedule.step set event = some next.schedule) {start : TaskStart}
    (member : start ∈ Session.starts run.trace) : start.task ∈ set.packages ∧
      ∀ dep ∈ start.task.depPackageNames, set.hasTask dep = true →
        ∃ index done, set.packages[index]? = some done ∧ done.packageName = dep ∧
          next.schedule.phase index = .returned (.ok ()) := by
  obtain ⟨isTask, waited⟩ := tracked.waited start member
  refine ⟨isTask, fun dep listed tasked => ?_⟩
  obtain ⟨index, done, known, sameName, returned⟩ := waited dep listed tasked
  exact ⟨index, done, known, sameName,
    Schedule.returned_step (Ordered.reachable tracked.schedule) taken returned⟩

theorem Tracked.kept (tracked : Tracked crates set origin run) {event : SchedulerEvent}
    (notEnd : ∀ index ∈ run.executing, ∀ result, event ≠ .finish index result)
    (taken : run.schedule.step set event = some next.schedule)
    (same : next = { run with schedule := next.schedule }) : Tracked crates set origin next := by
  have ordered := Ordered.reachable tracked.schedule
  have waited (start : TaskStart) (member : start ∈ Session.starts run.trace) :=
    tracked.waited_step taken member
  rw [same]
  exact {
    schedule := .step event tracked.schedule taken
    session := tracked.session
    aligned := tracked.aligned
    once := tracked.once
    flying := fun index member =>
      Schedule.flying_step ordered taken (notEnd index member) (tracked.flying index member)
    waited := waited
    ordered := tracked.ordered }

theorem Tracked.started (tracked : Tracked crates set origin run) {index : Nat} {start : TaskStart}
    (known : set.packages[index]? = some start.task)
    (taken : run.schedule.step set (.start index) = some next.schedule)
    (same : next = { run with
      schedule := next.schedule
      session := run.session.step crates (.start start)
      executing :=
        if (lookupPhase crates run.session.cache start).isSome then run.executing
        else run.executing ++ [index]
      trace := run.trace ++ [.start start] }) : Tracked crates set origin next := by
  have ordered := Ordered.reachable tracked.schedule
  obtain ⟨waiting, isNext⟩ := Option.ite_none_right_eq_some.mp taken
  have fresh : index ∉ run.executing := by
    intro member
    rcases tracked.flying index member with running | dropped
    · simp [waiting] at running
    · simp [waiting] at dropped
  have running : next.schedule.phase index = .running := by
    rw [← Option.some.inj isNext]
    exact Function.update_self ..
  have earlier (other : Nat) (member : other ∈ run.executing) :=
    Schedule.flying_step ordered taken (by simp) (tracked.flying other member)
  have met : (run.schedule.phase index).unmet = some [] := by
    rw [waiting]
    rfl
  have waited (other : TaskStart) (member : other ∈ Session.starts (run.trace ++ [.start start])) :
      other.task ∈ set.packages ∧ ∀ dep ∈ other.task.depPackageNames, set.hasTask dep = true →
        ∃ index done, set.packages[index]? = some done ∧ done.packageName = dep ∧
          next.schedule.phase index = .returned (.ok ()) := by
    rw [Session.starts_snoc_start, List.mem_append, List.mem_singleton] at member
    rcases member with before | rfl
    · exact tracked.waited_step taken before
    · refine ⟨List.mem_of_getElem? known, fun dep listed tasked => ?_⟩
      have isDone := (ordered.awaited index _ known [] met dep listed tasked).resolve_left
        List.not_mem_nil
      obtain ⟨position, done, isTask, sameName, returned⟩ := ordered.done dep isDone
      exact ⟨position, done, isTask, sameName, Schedule.returned_step ordered taken returned⟩
  rw [same]
  exact {
    schedule := .step _ tracked.schedule taken
    session := by rw [Session.final_snoc, tracked.session]
    aligned := by
      cases found : lookupPhase crates run.session.cache start with
      | some hit => simpa [Session.step, Session.startTask, found] using tracked.aligned
      | none => simp [Session.step_start_misses found, tracked.aligned, known]
    once := by
      split
      · exact tracked.once
      · exact List.nodup_append.mpr ⟨tracked.once, List.nodup_singleton index, by
          rintro other member _ isIndex rfl
          exact fresh (List.mem_singleton.mp isIndex ▸ member)⟩
    flying := by
      intro other member
      split at member
      · exact earlier other member
      · rcases List.mem_append.mp member with before | isIndex
        · exact earlier other before
        · rw [List.mem_singleton.mp isIndex]
          exact Or.inl running
    waited := waited
    ordered := tracked.ordered.snoc (by simp) }

theorem Tracked.ended (tracked : Tracked crates set origin run) (separated : Separated set)
    {index : Nat} {task : Task} {exec : Execution} (known : set.packages[index]? = some task)
    (member : index ∈ run.executing)
    (taken : run.schedule.step set
      (.finish index (task.result (exec.outcome task.sandboxMode))) = some next.schedule)
    (same : next = { run with
      schedule := next.schedule
      session := run.session.step crates (.finish (run.executing.idxOf index) exec)
      executing := run.executing.eraseIdx (run.executing.idxOf index)
      trace := run.trace ++ [.finish (run.executing.idxOf index) exec] }) :
    Tracked crates set origin next := by
  have ordered := Ordered.reachable tracked.schedule
  obtain ⟨start, inputs, found, isTask⟩ := tracked.position known member
  obtain ⟨running, -⟩ := Option.ite_none_right_eq_some.mp taken
  have waited (other : TaskStart) (isStart : other ∈ Session.starts run.trace) :=
    tracked.waited_step taken isStart
  rw [same]
  exact {
    schedule := .step _ tracked.schedule taken
    session := by rw [Session.final_snoc, tracked.session]
    aligned := by
      simp only [Session.step, found, Session.finishTask_running]
      rw [← List.eraseIdx_map, ← List.eraseIdx_map, tracked.aligned]
    once := tracked.once.eraseIdx _
    flying := by
      intro other isOther
      refine Schedule.flying_step ordered taken ?_
        (tracked.flying other (List.mem_of_mem_eraseIdx isOther))
      rintro result ⟨⟩
      rw [List.eraseIdx_idxOf_eq_erase] at isOther
      exact (tracked.once.mem_erase_iff.mp isOther).1 rfl
    waited := fun other isStart => waited other (by rwa [Session.starts_snoc_finish] at isStart)
    ordered := by
      refine tracked.ordered.snoc ?_
      rintro position last ⟨⟩ ended others isEnded other isStart dep listed sameFile
      rw [← tracked.session, found, Option.some.injEq, Prod.mk.injEq] at isEnded
      obtain ⟨rfl, -⟩ := isEnded
      obtain ⟨known', waits⟩ := tracked.waited other isStart
      rw [isTask] at sameFile
      obtain rfl := separated other.task known' dep listed task (List.mem_of_getElem? known) sameFile
      obtain ⟨position, done, isDone, sameName, returned⟩ := waits _ listed
        (List.any_eq_true.mpr ⟨task, List.mem_of_getElem? known, beq_self_eq_true _⟩)
      have here : position = index := by
        apply ordered.unique isDone known
        · simp [returned]
        · simp [running]
        · exact sameName
      rw [here, running] at returned
      simp at returned }

theorem Tracked.step (tracked : Tracked crates set origin run) (separated : Separated set)
    {event : CachedEvent} (taken : run.step crates set event = some next) :
    Tracked crates set origin next := by
  cases moved_of_step taken with
  | kept own _ notEnd taken same => exact tracked.kept notEnd taken same
  | started index start _ known taken same => exact tracked.started known taken same
  | ended index task exec known member taken same =>
      exact tracked.ended separated known member taken same

theorem Tracked.reachable {allowed : CachedRun → CachedEvent → Prop} (separated : Separated set)
    (idle : origin.running = [])
    (reached : Machine.Reachable (CachedRun.step crates set) allowed (.initial set origin) run) :
    Tracked crates set origin run := by
  induction reached with
  | refl => exact .initial idle
  | tail event _ _ taken ih => exact ih.step separated taken

/-! A run that has returned `Ok` has started every task, and executes none any more. -/

theorem Tracked.idle (tracked : Tracked crates set origin run)
    (returned : run.schedule.stage = .returned (.ok ())) : run.session.running = [] := by
  have none : run.executing = [] := by
    apply List.eq_nil_iff_forall_not_mem.mpr
    intro index member
    have flying := tracked.flying index member
    have bound : index < set.packages.length := by
      refine (Contained.reachable tracked.schedule).bound index ?_
      rcases flying with running | dropped
      · simp [running]
      · simp [dropped]
    rw [((Contained.reachable tracked.schedule).succeeded returned).2 index bound] at flying
    simp at flying
  have aligned := tracked.aligned
  rw [none] at aligned
  exact List.map_eq_nil_iff.mp aligned.symm

/-- A task that runs or has succeeded has started. -/
def Begun (set : TaskSet) (run : CachedRun) : Prop :=
  ∀ index task, set.packages[index]? = some task →
    (run.schedule.phase index = .running ∨ run.schedule.phase index = .finished (.ok ()) ∨
      run.schedule.phase index = .returned (.ok ())) →
    ∃ start ∈ Session.starts run.trace, start.task = task

theorem Begun.step (begun : Begun set run) {event : CachedEvent}
    (taken : run.step crates set event = some next) : Begun set next := by
  have earlier {own : SchedulerEvent} (moved : run.schedule.step set own = some next.schedule)
      {index : Nat} {task : Task} (known : set.packages[index]? = some task)
      (notStart : own ≠ .start index)
      (active : next.schedule.phase index = .running ∨
        next.schedule.phase index = .finished (.ok ()) ∨
        next.schedule.phase index = .returned (.ok ())) :
      ∃ start ∈ Session.starts run.trace, start.task = task := by
    have came := Schedule.came_step moved index
    refine begun index task known ?_
    rcases active with running | finished | returned
    · exact Or.inl ((came.running running).resolve_right notStart)
    · rcases came.finished _ finished with was | ⟨-, was⟩
      · exact Or.inr (Or.inl was)
      · exact Or.inl was
    · exact Or.inr (came.succeeded returned).symm
  cases moved_of_step taken with
  | kept own notStart _ moved same =>
      intro index task known active
      rw [same]
      exact earlier moved known (notStart index) active
  | started index start _ known moved same =>
      intro other task isTask active
      rw [same, Session.starts_snoc_start]
      by_cases here : other = index
      · subst here
        exact ⟨start, by simp, Option.some.inj (known.symm.trans isTask)⟩
      · obtain ⟨opening, member, sameTask⟩ := earlier moved isTask
          (by simpa using fun same => here same.symm) active
        exact ⟨opening, List.mem_append_left _ member, sameTask⟩
  | ended index task exec known _ moved same =>
      intro other otherTask isTask active
      rw [same, Session.starts_snoc_finish]
      exact earlier moved isTask (by simp) active

theorem begun_reachable {allowed : CachedRun → CachedEvent → Prop}
    (reached : Machine.Reachable (CachedRun.step crates set) allowed (.initial set origin) run) :
    Begun set run := by
  induction reached with
  | refl =>
      intro index task _ active
      simp [CachedRun.initial, Schedule.initial] at active
  | tail event _ _ taken ih => exact ih.step taken

theorem equipped_reachable {tool : Task → Path}
    (reached : Machine.Reachable (CachedRun.step crates set) (Equipped set tool)
      (.initial set origin) run) :
    ∀ start ∈ Session.starts run.trace, start.toolPath = tool start.task := by
  induction reached with
  | refl => simp [CachedRun.initial, Session.starts]
  | tail event _ permitted taken ih =>
      cases moved_of_step taken with
      | kept own _ _ _ same =>
          rw [same]
          exact ih
      | started index start isStart known _ same =>
          subst isStart
          intro other member
          rw [same, Session.starts_snoc_start, List.mem_append, List.mem_singleton] at member
          rcases member with before | rfl
          · exact ih other before
          · exact permitted _ known
      | ended index task exec _ _ _ same =>
          rw [same, Session.starts_snoc_finish]
          exact ih

end CachedRun

deriving instance DecidableEq for FileSystem, RunResult, TaskStart, Execution, SessionStep

namespace TwoPackagesRun

open RevertedDependency (library app files)

open Session.TwoPackages (exec steps)

def tasks : List Task := [library, app]

def set : TaskSet := .ofTasks tasks true

def opening : List CachedEvent :=
  [.schedule .enterPackages, .schedule .spawn, .schedule .spawn, .schedule .spawn]

def closing : List CachedEvent :=
  [.schedule (.join 0), .schedule (.join 1), .schedule .leave]

def cold : List CachedEvent :=
  opening ++ [.start 0 (utf8 "sh") (files "1" "0"), .finish 0 exec, .schedule (.send 0),
    .schedule (.poll 1), .start 1 (utf8 "sh") (files "1" "1"), .finish 1 exec,
    .schedule (.send 1)] ++ closing

def warm : List CachedEvent :=
  opening ++ [.start 0 (utf8 "sh") (files "1" "1"), .replay 0, .schedule (.send 0),
    .schedule (.poll 1), .start 1 (utf8 "sh") (files "1" "1"), .replay 1,
    .schedule (.send 1)] ++ closing

def begin (session : Session) : CachedRun := .initial set (session.step .plain .newRun)

theorem separated : CachedRun.Separated set := by
  unfold CachedRun.Separated
  decide

theorem equipped {events : List CachedEvent} (known : events = cold ∨ events = warm)
    (run : CachedRun) :
    ∀ event ∈ events, CachedRun.Equipped set (fun _ => utf8 "sh") run event := by
  intro event member
  cases event with
  | start index toolPath now =>
      intro task _
      rcases known with rfl | rfl
      · simp only [cold, opening, closing, List.cons_append, List.nil_append, List.mem_cons,
          reduceCtorEq, CachedEvent.start.injEq, List.not_mem_nil, false_or, or_false] at member
        rcases member with ⟨-, same, -⟩ | ⟨-, same, -⟩
        · exact same
        · exact same
      · simp only [warm, opening, closing, List.cons_append, List.nil_append, List.mem_cons,
          reduceCtorEq, CachedEvent.start.injEq, List.not_mem_nil, false_or, or_false] at member
        rcases member with ⟨-, same, -⟩ | ⟨-, same, -⟩
        · exact same
        · exact same
  | _ => trivial

theorem unchanged {index : Nat} {toolPath : Path} {now : FileSystem}
    (member : CachedEvent.start index toolPath now ∈ warm) : now = files "1" "1" := by
  simp only [warm, opening, closing, List.cons_append, List.nil_append, List.mem_cons,
    reduceCtorEq, CachedEvent.start.injEq, List.not_mem_nil, false_or, or_false] at member
  rcases member with ⟨-, -, same⟩ | ⟨-, -, same⟩
  · exact same
  · exact same

theorem ran : ∃ first, Machine.run (CachedRun.step .plain set) (begin Session.empty) cold =
      some first ∧ (first.schedule.stage, first.trace) = (.returned (.ok ()), steps) ∧
    ∃ second, Machine.run (CachedRun.step .plain set) (begin first.session) warm = some second ∧
      second.schedule.stage = .returned (.ok ()) := by
  have both : ((Machine.run (CachedRun.step .plain set) (begin Session.empty) cold).map fun first =>
      ((first.schedule.stage, first.trace),
        (Machine.run (CachedRun.step .plain set) (begin first.session) warm).map fun second =>
          second.schedule.stage)) =
      some ((.returned (.ok ()), steps), some (.returned (.ok ()))) := by
    decide +kernel
  obtain ⟨first, ranFirst, outcome⟩ := Option.map_eq_some_iff.mp both
  obtain ⟨traced, ranSecond⟩ := Prod.mk.inj outcome
  obtain ⟨second, ranSecond, returned⟩ := Option.map_eq_some_iff.mp ranSecond
  exact ⟨first, ranFirst, traced, second, ranSecond, returned⟩

end TwoPackagesRun

end Rage
