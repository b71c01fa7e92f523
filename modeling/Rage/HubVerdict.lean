import Rage.FirstError
import Rage.HubBuild
import Rage.HubProgress

/-!
What the hub says of a build: the result of `serve`, the status stream of SubmitBuild, and the tasks
that Ping still counts.
-/

namespace Rage

namespace HubDag

def hasFailure (dag : HubDag) : Bool :=
  dag.known.any fun id => (dag.states id).any TaskState.isFailed

def failure (dag : HubDag) (id : Bytes) : Option (Bytes × Bytes) :=
  match dag.states id with
  | some (.failed error) => some (id, error)
  | _ => none

/-- `walk` is the order in which the hash map of the states is walked. -/
def firstFailure (dag : HubDag) (walk : List Bytes) : Option (Bytes × Bytes) :=
  walk.findSome? dag.failure

structure DagStats where
  pending : Nat
  ready : Nat
  dispatched : Nat
  completed : Nat
  failed : Nat

def DagStats.count (stats : DagStats) : Option TaskState → DagStats
  | some .pending => { stats with pending := stats.pending + 1 }
  | some .ready => { stats with ready := stats.ready + 1 }
  | some (.dispatched _) => { stats with dispatched := stats.dispatched + 1 }
  | some .completed => { stats with completed := stats.completed + 1 }
  | some (.failed _) => { stats with failed := stats.failed + 1 }
  | none => stats

def stats (dag : HubDag) : DagStats :=
  dag.known.foldl (fun stats id => stats.count (dag.states id)) ⟨0, 0, 0, 0, 0⟩

/-- What Ping answers. -/
def DagStats.pendingTasks (stats : DagStats) : Nat :=
  stats.pending + stats.ready + stats.dispatched

/-- `tasks.len()`: the states have all keys of the tasks, and more after a report about another id. -/
def totalTasks (dag : HubDag) : Nat :=
  (dag.known.toFinset.filter fun id => (dag.tasks id).isSome = true).card

def failureOr (dag : HubDag) (walk : List Bytes) : Bytes × Bytes :=
  (dag.firstFailure walk).getD (utf8 "unknown", utf8 "build failed")

def failureMessage (failure : Bytes × Bytes) : Bytes :=
  utf8 "build failed: task " ++ failure.1 ++ utf8 " — " ++ failure.2

/-- The result of `serve`, once the graph is done. -/
def serveResult (dag : HubDag) (walk : List Bytes) : Except Bytes Unit :=
  if dag.hasFailure then .error (failureMessage (dag.failureOr walk)) else .ok ()

inductive BuildStatus
  | buildFailed (failedTaskId error : Bytes)
  | buildDone (tasksCompleted totalDurationMs : Nat)
  deriving DecidableEq

/-- One turn of the status stream.  It looks at the graph, and where a task has failed it looks again
to find which one. -/
def buildStatus (polled later : HubDag) (walk : List Bytes) : Option BuildStatus :=
  if polled.isDone then
    if polled.hasFailure then
      some (.buildFailed (later.failureOr walk).1 (later.failureOr walk).2)
    else some (.buildDone (polled.totalTasks % 2 ^ 32) 0)
  else none

theorem hasFailure_iff {dag : HubDag} (keyed : dag.Keyed) :
    dag.hasFailure = true ↔ ∃ id, dag.Failed id := by
  rw [hasFailure, List.any_eq_true]
  constructor
  · rintro ⟨id, -, failed⟩
    exact ⟨id, failed⟩
  · rintro ⟨id, failed⟩
    refine ⟨id, (keyed.keys id).mpr ?_, failed⟩
    obtain ⟨state, known, -⟩ := (Option.any_eq_true ..).mp failed
    rw [known]
    rfl

theorem failure_eq {dag : HubDag} {id other error : Bytes} :
    dag.failure id = some (other, error) ↔ other = id ∧ dag.states id = some (.failed error) := by
  unfold failure
  split
  · rename_i found known
    rw [known, Option.some.injEq, Option.some.injEq, Prod.mk.injEq, TaskState.failed.injEq]
    constructor
    · rintro ⟨rfl, rfl⟩
      exact ⟨rfl, rfl⟩
    · rintro ⟨rfl, rfl⟩
      exact ⟨rfl, rfl⟩
  · rename_i notFailed
    simp only [reduceCtorEq, false_iff, not_and]
    exact fun _ known => notFailed error known

/-- Where a task has failed, one is found, with its own error. -/
theorem failureOr_spec {dag : HubDag} (keyed : dag.Keyed) {walk : List Bytes}
    (arranged : walk.Perm dag.known) (failed : dag.hasFailure = true) :
    dag.states (dag.failureOr walk).1 = some (.failed (dag.failureOr walk).2) := by
  have found : (dag.firstFailure walk).isSome = true := by
    obtain ⟨id, isFailed⟩ := (hasFailure_iff keyed).mp failed
    unfold Failed at isFailed
    obtain ⟨state, known, here⟩ := (Option.any_eq_true ..).mp isFailed
    rw [firstFailure, List.findSome?_isSome_iff]
    refine ⟨id, arranged.mem_iff.mpr ((keyed.keys id).mpr (by rw [known]; rfl)), ?_⟩
    cases state with
    | failed error =>
        rw [failure_eq.mpr ⟨rfl, known⟩]
        rfl
    | _ => simp [TaskState.isFailed] at here
  obtain ⟨⟨id, error⟩, isFirst⟩ := Option.isSome_iff_exists.mp found
  obtain ⟨other, -, here⟩ := List.exists_of_findSome?_eq_some isFirst
  obtain ⟨rfl, known⟩ := failure_eq.mp here
  rw [failureOr, isFirst]
  exact known

/-- The task is counted as one that is still to be done. -/
def isOpen (dag : HubDag) (id : Bytes) : Bool := (dag.states id).any fun state => !state.settled

theorem pendingTasks_count (stats : DagStats) (state : Option TaskState) :
    (stats.count state).pendingTasks =
      stats.pendingTasks + if state.any (fun state => !state.settled) then 1 else 0 := by
  cases state with
  | none => simp [DagStats.count]
  | some state =>
      cases state with
      | pending => simp [DagStats.count, DagStats.pendingTasks, TaskState.settled]; omega
      | ready => simp [DagStats.count, DagStats.pendingTasks, TaskState.settled]; omega
      | dispatched worker => simp [DagStats.count, DagStats.pendingTasks, TaskState.settled]; omega
      | completed => simp [DagStats.count, DagStats.pendingTasks, TaskState.settled]
      | failed error => simp [DagStats.count, DagStats.pendingTasks, TaskState.settled]

theorem pendingTasks_eq (dag : HubDag) : dag.stats.pendingTasks = dag.known.countP dag.isOpen := by
  have counted (ids : List Bytes) (stats : DagStats) :
      (ids.foldl (fun stats id => stats.count (dag.states id)) stats).pendingTasks =
        stats.pendingTasks + ids.countP dag.isOpen := by
    induction ids generalizing stats with
    | nil => simp
    | cons id rest ih =>
        rw [List.foldl_cons, ih, pendingTasks_count, List.countP_cons, isOpen]
        omega
  rw [stats, counted]
  exact Nat.zero_add _

theorem pendingTasks_zero_iff {dag : HubDag} (keyed : dag.Keyed) :
    dag.stats.pendingTasks = 0 ↔ dag.isDone = true := by
  rw [pendingTasks_eq, List.countP_eq_zero, isDone_iff keyed]
  constructor
  · intro none id state known
    have closed := none id ((keyed.keys id).mpr (by rw [known]; rfl))
    simpa [isOpen, known] using closed
  · intro all id _
    cases known : dag.states id with
    | none => simp [isOpen, known]
    | some state => simp [isOpen, known, all id state known]

/-! The errors of the tasks that a failure spreads to. -/

/-- The failed tasks: those of before, the one that is reported, and those that the loop has failed
for a failed dependency. -/
structure Spreading (taskId error : Bytes) (before : HubDag) (cascade : Cascade) : Prop where
  rdeps : cascade.dag.rdeps = before.rdeps
  frontier : ∀ id ∈ cascade.frontier, cascade.dag.Failed id
  errors : ∀ id text, cascade.dag.states id = some (.failed text) →
    before.states id = some (.failed text) ∨ id = taskId ∧ text = error ∨
      ∃ current, id ∈ before.rdeps current ∧ cascade.dag.Failed current ∧
        dependencyFailed current = .failed text

namespace Spreading

variable {taskId error current : Bytes} {before : HubDag} {cascade : Cascade}

theorem failed_kept {dependent id : Bytes} (failed : cascade.dag.Failed id) :
    (failDependent current cascade dependent).dag.Failed id := by
  unfold failDependent
  split
  · exact failed
  · unfold Failed
    rw [insertState_states]
    split
    · rfl
    · exact failed

theorem failDependent (spreading : Spreading taskId error before cascade)
    (isFailed : cascade.dag.Failed current) {dependent : Bytes}
    (member : dependent ∈ before.rdeps current) :
    Spreading taskId error before (failDependent current cascade dependent) := by
  have kept {id : Bytes} (failed : cascade.dag.Failed id) :
      (HubDag.failDependent current cascade dependent).dag.Failed id := failed_kept failed
  unfold HubDag.failDependent at kept ⊢
  split at kept
  · rename_i settled
    rw [if_pos settled]
    exact spreading
  · rename_i unsettled
    rw [if_neg unsettled]
    refine ⟨spreading.rdeps, fun id queued => ?_, fun id text known => ?_⟩
    · rcases List.mem_append.mp queued with earlier | isLast
      · exact kept (spreading.frontier id earlier)
      · obtain rfl := List.mem_singleton.mp isLast
        unfold Failed
        rw [insertState_states, if_pos rfl]
        rfl
    · rw [insertState_states] at known
      split at known
      · rename_i here
        subst here
        exact Or.inr (Or.inr ⟨current, member, kept isFailed, Option.some.inj known⟩)
      · rcases spreading.errors id text known with old | isTask | ⟨source, listed, failed, same⟩
        · exact Or.inl old
        · exact Or.inr (Or.inl isTask)
        · exact Or.inr (Or.inr ⟨source, listed, kept failed, same⟩)

theorem foldl (spreading : Spreading taskId error before cascade)
    (isFailed : cascade.dag.Failed current) (dependents : List Bytes)
    (members : ∀ dependent ∈ dependents, dependent ∈ before.rdeps current) :
    Spreading taskId error before (dependents.foldl (HubDag.failDependent current) cascade) := by
  induction dependents generalizing cascade with
  | nil => exact spreading
  | cons dependent rest ih =>
      exact ih (spreading.failDependent isFailed (members dependent List.mem_cons_self))
        (failed_kept isFailed) fun other later => members other (List.mem_cons_of_mem _ later)

theorem loop (spreading : Spreading taskId error before cascade) (order : HashOrder)
    (fuel : Nat) : Spreading taskId error before (cascadeFailures order fuel cascade) := by
  induction fuel generalizing cascade with
  | zero => exact spreading
  | succ fuel ih =>
      rw [cascadeFailures]
      split
      · exact spreading
      · rename_i current rest frontier
        have isFailed : cascade.dag.Failed current :=
          spreading.frontier current (by rw [frontier]; exact List.mem_cons_self)
        have turn : Spreading taskId error before { cascade with frontier := rest } :=
          ⟨spreading.rdeps, fun id queued => spreading.frontier id
            (by rw [frontier]; exact List.mem_cons_of_mem _ queued), spreading.errors⟩
        apply ih
        apply turn.foldl isFailed
        intro dependent member
        rw [← spreading.rdeps]
        exact (order.perm current _).mem_iff.mp member

end Spreading

theorem markFailed_errors {dag : HubDag} (order : HashOrder) {taskId error id text : Bytes}
    (known : (dag.markFailed order taskId error).1.states id = some (.failed text)) :
    dag.states id = some (.failed text) ∨ id = taskId ∧ text = error ∨
      ∃ current, id ∈ dag.rdeps current ∧ (dag.markFailed order taskId error).1.Failed current ∧
        dependencyFailed current = .failed text := by
  have start : Spreading taskId error dag ⟨dag.insertState taskId (.failed error), [taskId], []⟩ := by
    refine ⟨rfl, fun id queued => ?_, fun id text known => ?_⟩
    · obtain rfl := List.mem_singleton.mp queued
      unfold Failed
      rw [insertState_states, if_pos rfl]
      rfl
    · rw [insertState_states] at known
      split at known
      · rename_i here
        injection Option.some.inj known with same
        exact Or.inr (Or.inl ⟨here, same.symm⟩)
      · exact Or.inl known
  exact (start.loop order (dag.known.length + 1)).errors id text known

end HubDag

namespace HubRun

open HubDag

/-- Every task that is handed out is reported once, with what becomes of its command; `outcome` is
the end of the output of one that fails. -/
def Told (outcome : Bytes → Option Bytes) (run : HubRun) (event : HubEvent) : Prop :=
  run.Owed event ∧
    match event with
    | .dispatch _ => True
    | .complete _ taskId => outcome taskId = none
    | .fail _ taskId error => outcome taskId = some error

instance (outcome : Bytes → Option Bytes) (run : HubRun) (event : HubEvent) :
    Decidable (run.Told outcome event) :=
  match event with
  | .dispatch _ => inferInstanceAs (Decidable (True ∧ True))
  | .complete _ taskId => inferInstanceAs (Decidable
      (run.Owed (.complete default taskId) ∧ outcome taskId = none))
  | .fail _ taskId error => inferInstanceAs (Decidable
      (run.Owed (.fail default taskId error) ∧ outcome taskId = some error))

/-- The task failed itself, after all that it depends on was completed. -/
def Culprit (nodes : List TaskNode) (outcome : Bytes → Option Bytes) (run : HubRun) (id : Bytes) :
    Prop :=
  (outcome id).isSome = true ∧ ∀ dep, DependsOn nodes id dep → run.dag.states dep = some .completed

/-- Why a task has its error: it is its own, or it names a dependency that fails because of a
culprit. -/
def Explains (nodes : List TaskNode) (outcome : Bytes → Option Bytes) (run : HubRun)
    (id error : Bytes) : Prop :=
  run.Culprit nodes outcome id ∧ outcome id = some error ∨
    ∃ dep culprit, DependsOn nodes id dep ∧
      error = utf8 "dependency " ++ dep ++ utf8 " failed" ∧
      Relation.ReflTransGen (DependsOn nodes) dep culprit ∧ run.Culprit nodes outcome culprit

/-- What is known of the reports in every run. -/
structure Reporting (nodes : List TaskNode) (outcome : Bytes → Option Bytes) (run : HubRun) :
    Prop where
  tracked : run.Tracked nodes
  told : ∀ id result, (id, result) ∈ run.reported → outcome id = result
  completed : ∀ id, run.dag.states id = some .completed → (id, none) ∈ run.reported
  ran : ∀ id result, (id, result) ∈ run.reported → ∀ dep, DependsOn nodes id dep →
    run.dag.states dep = some .completed
  errors : ∀ id error, run.dag.states id = some (.failed error) →
    (id, some error) ∈ run.reported ∨ ∃ dep, DependsOn nodes id dep ∧ run.dag.Failed dep ∧
      error = utf8 "dependency " ++ dep ++ utf8 " failed"

namespace Reporting

variable {nodes : List TaskNode} {outcome : Bytes → Option Bytes} {run next : HubRun}

theorem start (formed : WellFormed nodes) : (HubRun.start nodes).Reporting nodes outcome where
  tracked := tracked_start formed
  told := by simp [HubRun.start]
  completed := by
    intro id known
    rcases new_open known with isState | isState
    · simp at isState
    · simp at isState
  ran := by simp [HubRun.start]
  errors := by
    intro id error known
    rcases new_open known with isState | isState
    · simp at isState
    · simp at isState

/-- A task that is handed out depends on completed tasks only. -/
theorem ready (reporting : run.Reporting nodes outcome) (formed : WellFormed nodes) {id dep : Bytes}
    (owed : id ∈ run.returned.map TaskNode.taskId ∧ id ∉ run.reported.map Prod.fst)
    (depends : DependsOn nodes id dep) : run.dag.states dep = some .completed := by
  obtain ⟨worker, known⟩ := reporting.tracked.outstanding_of_owed owed
  exact reporting.tracked.needs_completed formed (.single depends) known rfl

theorem step (reporting : run.Reporting nodes outcome) (formed : WellFormed nodes)
    {event : HubEvent} (told : run.Told outcome event) (taken : run.step event = some next) :
    next.Reporting nodes outcome := by
  obtain ⟨owed, matches_⟩ := told
  have tracked := reporting.tracked.step formed owed taken
  have keeps := step_keeps reporting.tracked.handed.orderly (reporting.tracked.reportFits owed) taken
  have kept {id : Bytes} (failed : run.dag.Failed id) : next.dag.Failed id := by
    unfold Failed at failed ⊢
    rwa [keeps id (settled_of_failed failed)]
  have blames {id error : Bytes} (known : run.dag.states id = some (.failed error)) :
      (id, some error) ∈ run.reported ∨ ∃ dep, DependsOn nodes id dep ∧ next.dag.Failed dep ∧
        error = utf8 "dependency " ++ dep ++ utf8 " failed" := by
    rcases reporting.errors id error known with own | ⟨dep, depends, failed, text⟩
    · exact Or.inl own
    · exact Or.inr ⟨dep, depends, kept failed, text⟩
  have ranBefore (id : Bytes) (result : Option Bytes) (member : (id, result) ∈ run.reported)
      (dep : Bytes) (depends : DependsOn nodes id dep) :
      next.dag.states dep = some .completed :=
    keeps.completed dep (reporting.ran id result member dep depends)
  cases event with
  | dispatch worker =>
      obtain rfl := Option.some.inj taken
      have was {id : Bytes} {state : TaskState} (settled : state.settled = true)
          (known : (run.dag.dispatchNext worker).1.states id = some state) :
          run.dag.states id = some state := by
        rcases run.dag.dispatchNext_cases worker with ⟨-, same⟩ | ⟨taskId, rest, isQueue, -⟩
        · rwa [same] at known
        · rw [dispatchNext_states isQueue] at known
          split at known
          · obtain rfl := Option.some.inj known
            simp [TaskState.settled] at settled
          · exact known
      exact ⟨tracked, reporting.told, fun id known => reporting.completed id (was rfl known),
        ranBefore, fun id error known => blames (was rfl known)⟩
  | complete order taskId =>
      obtain rfl := Option.some.inj taken
      have unblocked := run.dag.markComplete_unblocked order taskId
      refine ⟨tracked, fun id result member => ?_, fun id known => ?_, fun id result member => ?_,
        fun id error known => ?_⟩
      · rcases List.mem_append.mp member with earlier | isLast
        · exact reporting.told id result earlier
        · obtain ⟨rfl, rfl⟩ := Prod.mk.inj (List.mem_singleton.mp isLast)
          exact matches_
      · rw [unblocked.completed_iff, insertState_states] at known
        split at known
        · rename_i here
          rw [here]
          exact List.mem_append_right _ (List.mem_singleton_self _)
        · exact List.mem_append_left _ (reporting.completed id known)
      · rcases List.mem_append.mp member with earlier | isLast
        · exact ranBefore id result earlier
        · obtain ⟨rfl, rfl⟩ := Prod.mk.inj (List.mem_singleton.mp isLast)
          exact fun dep depends => keeps.completed dep (reporting.ready formed owed depends)
      · rw [unblocked.states, insertState_states] at known
        split at known
        · simp at known
        · split at known
          · simp at known
          · exact (blames known).imp_left (List.mem_append_left _)
  | fail order taskId error =>
      obtain rfl := Option.some.inj taken
      have reported := markFailed_reported reporting.tracked.handed.orderly.keyed order taskId error
      refine ⟨tracked, fun id result member => ?_, fun id known => ?_, fun id result member => ?_,
        fun id text known => ?_⟩
      · rcases List.mem_append.mp member with earlier | isLast
        · exact reporting.told id result earlier
        · obtain ⟨rfl, rfl⟩ := Prod.mk.inj (List.mem_singleton.mp isLast)
          exact matches_
      · exact List.mem_append_left _ (reporting.completed id (reported.was_state known rfl))
      · rcases List.mem_append.mp member with earlier | isLast
        · exact ranBefore id result earlier
        · obtain ⟨rfl, rfl⟩ := Prod.mk.inj (List.mem_singleton.mp isLast)
          exact fun dep depends => keeps.completed dep (reporting.ready formed owed depends)
      · rcases markFailed_errors order known with old | ⟨rfl, rfl⟩ | ⟨dep, dependent, failed, text⟩
        · exact (blames old).imp_left (List.mem_append_left _)
        · exact Or.inl (List.mem_append_right _ (List.mem_singleton_self _))
        · refine Or.inr ⟨dep, reporting.tracked.dependents.mp dependent, failed, ?_⟩
          injection text with same
          exact same.symm

theorem reachable (formed : WellFormed nodes)
    (reached : Machine.Reachable HubRun.step (Told outcome) (HubRun.start nodes) run) :
    run.Reporting nodes outcome := by
  induction reached with
  | refl => exact start formed
  | tail event _ told taken ih => exact ih.step formed told taken

/-- A failed task is explained by a culprit. -/
theorem explains (reporting : run.Reporting nodes outcome) {id error : Bytes}
    (known : run.dag.states id = some (.failed error)) : run.Explains nodes outcome id error := by
  have culprit {id error : Bytes} (member : (id, some error) ∈ run.reported) :
      run.Culprit nodes outcome id := by
    refine ⟨?_, reporting.ran id (some error) member⟩
    rw [reporting.told id (some error) member]
    rfl
  rcases reporting.errors id error known with own | ⟨dep, depends, failed, text⟩
  · exact Or.inl ⟨culprit own, reporting.told id (some error) own⟩
  · obtain ⟨guilty, itsError, member, path⟩ := reporting.tracked.blamed dep failed
    exact Or.inr ⟨dep, guilty, depends, text, path, culprit member⟩

/-- Once the graph is done, a task has failed exactly if some command fails. -/
theorem hasFailure_iff (reporting : run.Reporting nodes outcome) (done : run.dag.isDone = true) :
    run.dag.hasFailure = false ↔ ∀ task ∈ nodes, outcome task.taskId = none := by
  have keyed := reporting.tracked.handed.orderly.keyed
  rw [Bool.eq_false_iff, ne_eq, HubDag.hasFailure_iff keyed, not_exists]
  constructor
  · intro none task member
    have completed := reporting.tracked.completed_of_done done member (none task.taskId)
    exact reporting.told _ _ (reporting.completed _ completed)
  · intro all id failed
    obtain ⟨culprit, error, member, -⟩ := reporting.tracked.blamed id failed
    have culpritFailed := reporting.tracked.culprits culprit error member
    obtain ⟨state, known, -⟩ := (Option.any_eq_true ..).mp culpritFailed
    obtain ⟨task, isTask⟩ := reporting.tracked.exists_task known
    obtain ⟨inNodes, rfl⟩ := taskMap_spec isTask
    have fails := reporting.told _ _ member
    rw [all task inNodes] at fails
    simp at fails

theorem totalTasks_eq (reporting : run.Reporting nodes outcome) (formed : WellFormed nodes) :
    run.dag.totalTasks = nodes.length := by
  have same : (run.dag.known.toFinset.filter fun id => (run.dag.tasks id).isSome = true) =
      (nodes.map TaskNode.taskId).toFinset := by
    ext id
    rw [Finset.mem_filter, List.mem_toFinset, List.mem_toFinset,
      reporting.tracked.handed.orderly.keyed.keys, reporting.tracked.keys, reporting.tracked.tasks,
      and_self, Option.isSome_iff_exists]
    constructor
    · rintro ⟨task, known⟩
      obtain ⟨member, isTask⟩ := taskMap_spec known
      exact List.mem_map.mpr ⟨task, member, isTask⟩
    · intro member
      obtain ⟨task, isTask, rfl⟩ := List.mem_map.mp member
      exact ⟨task, formed.taskMap_of_mem isTask⟩
  rw [totalTasks, same, List.toFinset_card_of_nodup formed.distinct, List.length_map]

/-- Nothing happens to a graph that is done. -/
theorem done_stays (reporting : run.Reporting nodes outcome) (formed : WellFormed nodes)
    (done : run.dag.isDone = true) {later : HubRun}
    (reached : Machine.Reachable HubRun.step (Told outcome) run later) : later.dag = run.dag := by
  suffices both : later.dag = run.dag ∧ later.Reporting nodes outcome from both.1
  induction reached with
  | refl => exact ⟨rfl, reporting⟩
  | @tail between next event _ told taken ih =>
      obtain ⟨same, isBetween⟩ := ih
      refine ⟨?_, isBetween.step formed told taken⟩
      have settled {id : Bytes} {state : TaskState} (known : run.dag.states id = some state) :
          state.settled = true :=
        (isDone_iff reporting.tracked.handed.orderly.keyed).mp done id state known
      have notOwed {id : Bytes} : ¬ (id ∈ between.returned.map TaskNode.taskId ∧
          id ∉ between.reported.map Prod.fst) := by
        intro owed
        obtain ⟨worker, known⟩ := isBetween.tracked.outstanding_of_owed owed
        have dispatched := settled (same ▸ known)
        simp [TaskState.settled] at dispatched
      cases event with
      | dispatch worker =>
          obtain rfl := Option.some.inj taken
          rcases between.dag.dispatchNext_cases worker with ⟨-, unmoved⟩ | ⟨taskId, rest, isQueue, -⟩
          · exact (congrArg Prod.fst unmoved).trans same
          · have queued : taskId ∈ between.dag.readyQueue := by
              rw [isQueue]
              exact List.mem_cons_self
            have known := (isBetween.tracked.handed.orderly.queued taskId).mp queued
            have ready := settled (same ▸ known)
            simp [TaskState.settled] at ready
      | complete order taskId => exact absurd told.1 notOwed
      | fail order taskId error => exact absurd told.1 notOwed

end Reporting

end HubRun

/-- What the hub says of a build in which every task that is handed out is reported once.  Ping counts
tasks until the graph is done; then `serve` returns `Ok` exactly if no command fails, and so does the
status stream; else they name a task that failed itself or, with the error, a dependency of the task
that has failed because of another one. -/
theorem hub_verdict (nodes : List TaskNode) (formed : HubDag.WellFormed nodes)
    (outcome : Bytes → Option Bytes) (run later : HubRun)
    (reached : Machine.Reachable HubRun.step (HubRun.Told outcome) (.start nodes) run)
    (reachedLater : Machine.Reachable HubRun.step (HubRun.Told outcome) run later)
    (walk : List Bytes) (arranged : walk.Perm later.dag.known) :
    (run.dag.stats.pendingTasks = 0 ↔ run.dag.isDone = true) ∧
    (run.dag.buildStatus later.dag walk = none ↔ run.dag.isDone = false) ∧
    (run.dag.isDone = true →
      (later.dag.serveResult walk = .ok () ↔ ∀ task ∈ nodes, outcome task.taskId = none) ∧
      (run.dag.buildStatus later.dag walk = some (.buildDone (nodes.length % 2 ^ 32) 0) ↔
        ∀ task ∈ nodes, outcome task.taskId = none) ∧
      (∀ message, later.dag.serveResult walk = .error message →
        ∃ id error, message = HubDag.failureMessage (id, error) ∧
          later.Explains nodes outcome id error) ∧
      ∀ id error, run.dag.buildStatus later.dag walk = some (.buildFailed id error) →
        later.Explains nodes outcome id error) := by
  have reporting := HubRun.Reporting.reachable formed reached
  have keyed := reporting.tracked.handed.orderly.keyed
  refine ⟨HubDag.pendingTasks_zero_iff keyed, ?_, fun done => ?_⟩
  · unfold HubDag.buildStatus
    split
    · rename_i done
      split
      · simp [done]
      · simp [done]
    · rename_i notDone
      simp [notDone]
  have same := reporting.done_stays formed done reachedLater
  have failure := reporting.hasFailure_iff done
  have explained (failed : run.dag.hasFailure = true) :
      later.Explains nodes outcome (later.dag.failureOr walk).1 (later.dag.failureOr walk).2 := by
    rw [same] at arranged ⊢
    have isFirst := HubDag.failureOr_spec keyed arranged failed
    have laterReporting := HubRun.Reporting.reachable formed (reached.trans reachedLater)
    exact laterReporting.explains (same ▸ isFirst)
  unfold HubDag.serveResult HubDag.buildStatus
  rw [same, done, reporting.totalTasks_eq formed, ← failure]
  rw [same] at explained
  cases failed : run.dag.hasFailure with
  | false => simp
  | true =>
      refine ⟨by simp, by simp, fun message isMessage => ?_, fun id error isStatus => ?_⟩
      · exact ⟨_, _, (Except.error.inj isMessage).symm, explained failed⟩
      · simp only [↓reduceIte, Option.some.injEq, HubDag.BuildStatus.buildFailed.injEq] at isStatus
        obtain ⟨rfl, rfl⟩ := isStatus
        exact explained failed

namespace HubChain

def fails (name : String) (id : Bytes) : Option Bytes :=
  if id = utf8 (name ++ "#build") then some (utf8 "exit 1") else none

def libFails : List HubEvent :=
  [.dispatch (utf8 "w1"), .complete order (utf8 "core#build"), .dispatch (utf8 "w2"),
    .fail order (utf8 "lib#build") (utf8 "exit 1")]

end HubChain

theorem hub_verdict_chain : ∃ run, Machine.run HubRun.step (.start HubChain.nodes)
      HubChain.libFails = some run ∧ run.dag.stats.pendingTasks = 0 ∧
    ∃ id error, HubDag.failureMessage (run.dag.failureOr run.dag.known) =
        HubDag.failureMessage (id, error) ∧
      run.Explains HubChain.nodes (HubChain.fails "lib") id error := by
  obtain ⟨run, ran, outcome⟩ : ∃ run,
      Machine.run (Machine.guarded (HubRun.Told (HubChain.fails "lib")) HubRun.step)
        (.start HubChain.nodes) HubChain.libFails = some run ∧
      (run.dag.isDone, run.dag.hasFailure) = (true, true) := by
    apply Option.map_eq_some_iff.mp
    decide +kernel
  obtain ⟨done, failed⟩ := Prod.mk.inj outcome
  obtain ⟨idle, -, verdict⟩ := hub_verdict HubChain.nodes HubChain.formed (HubChain.fails "lib") run
    run (Machine.guarded_reachable ran) .refl run.dag.known (List.Perm.refl _)
  refine ⟨run, Machine.run_of_guarded ran, idle.mpr done, (verdict done).2.2.1 _ ?_⟩
  simp [HubDag.serveResult, failed]

/-! The same commands under the scheduler of one machine. -/

theorem not_skipped {task : Task} {package script : Bytes} {outcome : CommandOutcome} :
    task.result outcome ≠ .error (.skipped package script) := by
  cases outcome with
  | exited code =>
      by_cases zero : code = 0
      · simp [Task.result, zero]
      · simp [Task.result, zero]
  | notSpawned => simp [Task.result]

theorem result_ok_iff {task : Task} {outcome : CommandOutcome} :
    task.result outcome = .ok () ↔ outcome = .exited 0 := by
  cases outcome with
  | exited code => simp [Task.result]
  | notSpawned => simp [Task.result]

namespace Schedule

/-- No task panics, and the command of each task ends as it is given. -/
def Told (exits : Task → CommandOutcome) (set : TaskSet) (schedule : Schedule)
    (event : SchedulerEvent) : Prop :=
  schedule.Calm set event ∧
    match event with
    | .finish index result => ∀ task, set.packages[index]? = some task →
        result = task.result (exits task)
    | _ => True

/-- Every result is that of the task's command, or says that it was skipped. -/
structure Reporting (exits : Task → CommandOutcome) (set : TaskSet) (schedule : Schedule) :
    Prop where
  finished : ∀ (index : Nat) (task : Task), set.packages[index]? = some task → ∀ result,
    schedule.phase index = .finished result → result = task.result (exits task)
  returned : ∀ (index : Nat) (task : Task), set.packages[index]? = some task → ∀ result,
    schedule.phase index = .returned result → result = task.result (exits task) ∨
      result = .error (.skipped task.packageName task.scriptName)

namespace Reporting

variable {exits : Task → CommandOutcome} {set : TaskSet} {schedule next : Schedule}

theorem step (reporting : schedule.Reporting exits set) {event : SchedulerEvent}
    (told : schedule.Told exits set event) (taken : schedule.step set event = some next) :
    next.Reporting exits set where
  finished := by
    intro index task known result isFinished
    rcases (came_step taken index).finished result isFinished with was | ⟨rfl, -⟩
    · exact reporting.finished index task known result was
    · exact told.2 task known
  returned := by
    intro index task known result isReturned
    rcases (came_step taken index).returned result isReturned with was | was | ⟨own, isOwn, skipped⟩
    · exact reporting.returned index task known result was
    · exact Or.inl (reporting.finished index task known result was)
    · obtain rfl := Option.some.inj (isOwn.symm.trans known)
      exact Or.inr skipped

theorem reachable
    (reached : Machine.Reachable (Schedule.step set) (Told exits set) (.initial set) schedule) :
    schedule.Reporting exits set := by
  induction reached with
  | refl =>
      refine ⟨fun index task _ result finished => ?_, fun index task _ result returned => ?_⟩
      · simp [Schedule.initial] at finished
      · simp [Schedule.initial] at returned
  | tail event _ told taken ih => exact ih.step told taken

/-- A run whose root tasks succeed returns `Ok` exactly if every command succeeds. -/
theorem ok_iff (reached : Machine.Reachable (Schedule.step set) (Told exits set) (.initial set)
      schedule) (distinct : (set.packages.map Task.packageName).Nodup)
    (rooted : ∀ index error, schedule.rootPhase index ≠ .returned (.error error))
    {result : TaskResult} (returned : schedule.stage = .returned result) :
    result = .ok () ↔ ∀ task ∈ set.packages, task.result (exits task) = .ok () := by
  have reporting := reachable reached
  have calm : Machine.Reachable (Schedule.step set) (Calm set) (.initial set) schedule :=
    reached.simulates id fun _ event _ told taken => Or.inr ⟨event, told.1, taken⟩
  constructor
  · rintro rfl task member
    obtain ⟨index, known⟩ := List.mem_iff_getElem?.mp member
    obtain ⟨bound, -⟩ := List.getElem?_eq_some_iff.mp known
    have succeeded := ((returned_ok_iff (reachable_of_machine calm) returned).mp rfl).2 index bound
    rcases reporting.returned index task known _ succeeded with own | skipped
    · exact own.symm
    · simp at skipped
  · intro succeed
    cases result with
    | ok => rfl
    | error error =>
        exfalso
        have notOwn {index : Nat} {task : Task} {error : RunError}
            (known : set.packages[index]? = some task)
            (isReturned : schedule.phase index = .returned (.error error)) :
            ¬ task.OwnError error := by
          rintro ⟨outcome, own⟩
          rcases reporting.returned index task known _ isReturned with ran | skipped
          · rw [succeed task (List.mem_of_getElem? known)] at ran
            simp at ran
          · obtain rfl := Except.error.inj skipped
            exact not_skipped own
        rcases error_explained distinct calm returned with
          ⟨index, task, -, rootReturned, -⟩ | ⟨index, task, known, isReturned, why⟩
        · exact rooted index error rootReturned
        · rcases why with own | ⟨-, culprit, -, other, otherTask, otherError, otherKnown, -,
            otherReturned, otherOwn⟩
          · exact notOwn known isReturned own
          · exact notOwn otherKnown otherReturned otherOwn

end Reporting

end Schedule

namespace HubChain

def exits (task : Task) : CommandOutcome :=
  if task.packageName = utf8 "core" then .exited 1 else .exited 0

def packages : TaskSet := MissingScript.set MissingScript.chain

theorem failedRun_told (schedule : Schedule) :
    ∀ event ∈ MissingScript.failedRun, schedule.Told exits packages event := by
  intro event member
  refine ⟨MissingScript.failedRun_calm schedule event member, ?_⟩
  simp only [MissingScript.failedRun, MissingScript.opened, List.cons_append, List.nil_append,
    List.mem_cons, List.not_mem_nil, or_false] at member
  rcases member with rfl | rfl | rfl | rfl | rfl | rfl | rfl | rfl | rfl | rfl | rfl | rfl | rfl |
    rfl | rfl | rfl
  case inr.inr.inr.inr.inr.inl =>
    intro task known
    have first : packages.packages[0]? = some (MissingScript.task "core" []) := by decide +kernel
    obtain rfl := Option.some.inj (first.symm.trans known)
    decide +kernel
  all_goals trivial

theorem sameExits : ∀ task ∈ packages.packages,
    fails "core" (hubTaskId (utf8 "build") task.packageName) = none ↔ exits task = .exited 0 := by
  decide +kernel

theorem sameIds : nodes.map TaskNode.taskId =
    packages.packages.map fun task => hubTaskId (utf8 "build") task.packageName := by
  decide +kernel

end HubChain

end Rage
