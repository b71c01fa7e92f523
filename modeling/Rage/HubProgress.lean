import Rage.Acyclic
import Rage.HubRun

/-!
Runs of the hub's graph in which every task that is handed out is reported once.  On a list of
tasks that is well formed, the graph never gets stuck, and at its end the failed tasks are those
that were reported failed and those that need them.
-/

namespace Rage

namespace HubDag

def DependsOn (nodes : List TaskNode) (id dep : Bytes) : Prop :=
  ∃ task ∈ nodes, task.taskId = id ∧ dep ∈ task.dependsOn

structure WellFormed (nodes : List TaskNode) : Prop where
  distinct : (nodes.map TaskNode.taskId).Nodup
  closed : ∀ task ∈ nodes, ∀ dep ∈ task.dependsOn, ∃ other ∈ nodes, other.taskId = dep
  acyclic : ∀ id, ¬ Relation.TransGen (DependsOn nodes) id id

namespace WellFormed

variable {nodes : List TaskNode}

theorem taskMap_of_mem (formed : WellFormed nodes) {task : TaskNode} (member : task ∈ nodes) :
    taskMap nodes task.taskId = some task := by
  obtain ⟨kept, known⟩ := Option.isSome_iff_exists.mp (taskMap_isSome member)
  obtain ⟨inNodes, same⟩ := taskMap_spec known
  rw [known, List.inj_on_of_nodup_map formed.distinct inNodes member same]

theorem listedOnce (formed : WellFormed nodes) : ListedOnce nodes where
  once := formed.distinct.sublist (List.filter_sublist.map TaskNode.taskId)
  last := by
    intro task member free kept known
    rw [formed.taskMap_of_mem member] at known
    obtain rfl := Option.some.inj known
    exact free

theorem dependsOn_iff (formed : WellFormed nodes) {id dep : Bytes} :
    DependsOn nodes id dep ↔ ∃ task, taskMap nodes id = some task ∧ dep ∈ task.dependsOn := by
  constructor
  · rintro ⟨task, member, rfl, listed⟩
    exact ⟨task, formed.taskMap_of_mem member, listed⟩
  · rintro ⟨task, known, listed⟩
    obtain ⟨member, isTask⟩ := taskMap_spec known
    exact ⟨task, member, isTask, listed⟩

end WellFormed

end HubDag

def TaskState.started : TaskState → Bool
  | .ready | .dispatched _ | .completed => true
  | _ => false

namespace HubRun

open HubDag

/-- A report is about a task that was handed out and has not been reported. -/
def Owed (run : HubRun) : HubEvent → Prop
  | .dispatch _ => True
  | .complete _ taskId | .fail _ taskId _ =>
      taskId ∈ run.returned.map TaskNode.taskId ∧ taskId ∉ run.reported.map Prod.fst

instance (run : HubRun) (event : HubEvent) : Decidable (run.Owed event) :=
  match event with
  | .dispatch _ => inferInstanceAs (Decidable True)
  | .complete _ taskId | .fail _ taskId _ => inferInstanceAs (Decidable
      (taskId ∈ run.returned.map TaskNode.taskId ∧ taskId ∉ run.reported.map Prod.fst))

/-- The states of the tasks, by what was handed out and reported. -/
structure Tracked (nodes : List TaskNode) (run : HubRun) : Prop where
  handed : run.HandedOut
  tasks : run.dag.tasks = taskMap nodes
  rdeps : run.dag.rdeps = reverseDeps nodes
  keys : ∀ id, (run.dag.states id).isSome = (taskMap nodes id).isSome
  pending : ∀ id task, run.dag.states id = some .pending → taskMap nodes id = some task →
    run.dag.allDone task = false
  started : ∀ id state task, run.dag.states id = some state → state.started = true →
    taskMap nodes id = some task → run.dag.allDone task = true
  failed : ∀ id dep, DependsOn nodes id dep → run.dag.Failed dep → run.dag.Failed id
  blamed : ∀ id, run.dag.Failed id → ∃ culprit error, (culprit, some error) ∈ run.reported ∧
    Relation.ReflTransGen (DependsOn nodes) id culprit
  culprits : ∀ culprit error, (culprit, some error) ∈ run.reported → run.dag.Failed culprit
  owed : ∀ id ∈ run.reported.map Prod.fst, id ∈ run.returned.map TaskNode.taskId
  outstanding : ∀ id, (∃ worker, run.dag.states id = some (.dispatched worker)) ↔
    id ∈ run.returned.map TaskNode.taskId ∧ id ∉ run.reported.map Prod.fst

theorem tracked_start {nodes : List TaskNode} (formed : WellFormed nodes) :
    (start nodes).Tracked nodes where
  handed := handedOut_start formed.listedOnce
  tasks := rfl
  rdeps := rfl
  keys := by
    intro id
    simp only [start, new, stateMap_eq, Option.isSome_map]
  pending := new_blocked nodes
  started := by
    intro id state task known isStarted isTask
    obtain ⟨kept, isKept, isState⟩ := new_states known
    obtain rfl : task = kept := Option.some.inj (isTask.symm.trans isKept)
    rcases initialState_cases task with ⟨_, free⟩ | ⟨pending, _⟩
    · rw [allDone_iff, free]
      simp
    · rw [← isState, pending] at isStarted
      simp [TaskState.started] at isStarted
  failed := fun _ dep _ failed => absurd failed (new_unfailed nodes dep)
  blamed := fun id failed => absurd failed (new_unfailed nodes id)
  culprits := by simp [start]
  owed := by simp [start]
  outstanding := by
    intro id
    constructor
    · rintro ⟨worker, known⟩
      rcases new_open known with isState | isState
      · simp at isState
      · simp at isState
    · simp [start]

namespace Tracked

variable {nodes : List TaskNode} {run next : HubRun}

theorem exists_task (tracked : run.Tracked nodes) {id : Bytes} {state : TaskState}
    (known : run.dag.states id = some state) : ∃ task, taskMap nodes id = some task := by
  apply Option.isSome_iff_exists.mp
  rw [← tracked.keys, known]
  rfl

theorem dependents (tracked : run.Tracked nodes) {id dep : Bytes} :
    id ∈ run.dag.rdeps dep ↔ DependsOn nodes id dep := by
  rw [tracked.rdeps, mem_reverseDeps]
  rfl

theorem linked (tracked : run.Tracked nodes) : run.dag.Linked :=
  linked_of_nodes tracked.tasks tracked.rdeps

theorem blocked (tracked : run.Tracked nodes) : run.dag.Blocked := by
  intro id task pending isTask
  rw [tracked.tasks] at isTask
  exact tracked.pending id task pending isTask

/-- A task that has started needs only tasks that are completed. -/
theorem needs_completed (tracked : run.Tracked nodes) (formed : WellFormed nodes)
    {id dep : Bytes} (path : Relation.TransGen (DependsOn nodes) id dep) {state : TaskState}
    (known : run.dag.states id = some state) (isStarted : state.started = true) :
    run.dag.states dep = some .completed := by
  induction path with
  | single depends =>
      obtain ⟨task, isTask, listed⟩ := formed.dependsOn_iff.mp depends
      exact allDone_iff.mp (tracked.started id state task known isStarted isTask) _ listed
  | tail _ depends ih =>
      obtain ⟨task, isTask, listed⟩ := formed.dependsOn_iff.mp depends
      exact allDone_iff.mp (tracked.started _ .completed task ih rfl isTask) _ listed

theorem outstanding_of_owed (tracked : run.Tracked nodes) {taskId : Bytes}
    (owed : taskId ∈ run.returned.map TaskNode.taskId ∧ taskId ∉ run.reported.map Prod.fst) :
    ∃ worker, run.dag.states taskId = some (.dispatched worker) :=
  (tracked.outstanding taskId).mpr owed

theorem reportFits (tracked : run.Tracked nodes) {event : HubEvent} (owed : run.Owed event) :
    run.ReportFits event := by
  cases event with
  | dispatch worker => trivial
  | complete order taskId =>
      obtain ⟨worker, known⟩ := tracked.outstanding_of_owed owed
      simp [ReportFits, CompletionFits, Failed, known, TaskState.isFailed]
  | fail order taskId error =>
      obtain ⟨worker, known⟩ := tracked.outstanding_of_owed owed
      simp [ReportFits, FailureFits, Failed, known, TaskState.isFailed]

theorem dispatch (tracked : run.Tracked nodes) (worker : Bytes)
    (taken : run.step (.dispatch worker) = some next) : next.Tracked nodes := by
  have fits : run.ReportFits (.dispatch worker) := trivial
  have handed := tracked.handed.step fits taken
  obtain rfl := Option.some.inj taken
  rcases run.dag.dispatchNext_cases worker with ⟨_, same⟩ | ⟨taskId, rest, isQueue, moved⟩
  · simp only [same, Option.toList_none, List.append_nil]
    exact tracked
  · have ready : run.dag.states taskId = some .ready := by
      apply (tracked.handed.orderly.queued taskId).mp
      rw [isQueue]
      exact List.mem_cons_self
    obtain ⟨task, known, done⟩ := tracked.handed.orderly.enabled taskId ready
    have isTask := tracked.handed.orderly.ids taskId task known
    simp only [moved, known, Option.toList_some] at handed ⊢
    have notReturned : taskId ∉ run.returned.map TaskNode.taskId := by
      intro member
      obtain ⟨earlier, isEarlier, same⟩ := List.mem_map.mp member
      obtain ⟨state, isState, _, notReady⟩ := tracked.handed.left earlier isEarlier
      rw [same, ready] at isState
      exact notReady (Option.some.inj isState).symm
    have sameDone (other : TaskNode) :
        ({ run.dag.insertState taskId (.dispatched worker) with readyQueue := rest }
          : HubDag).allDone other = run.dag.allDone other := by
      apply allDone_congr
      intro id
      rw [insertState_states]
      split
      · rename_i here
        rw [here, ready]
        simp
      · rfl
    have sameFailed (id : Bytes) :
        ({ run.dag.insertState taskId (.dispatched worker) with readyQueue := rest }
          : HubDag).Failed id ↔ run.dag.Failed id := by
      unfold Failed
      rw [insertState_states]
      split
      · rename_i here
        rw [here, ready]
        rfl
      · rfl
    exact {
      handed := handed
      tasks := tracked.tasks
      rdeps := tracked.rdeps
      keys := by
        intro id
        rw [insertState_states, ← tracked.keys]
        split
        · rename_i here
          rw [here, ready]
          rfl
        · rfl
      pending := by
        intro id other pending isOther
        rw [sameDone]
        rw [insertState_states] at pending
        split at pending
        · simp at pending
        · exact tracked.pending id other pending isOther
      started := by
        intro id state other isState isStarted isOther
        rw [sameDone]
        rw [insertState_states] at isState
        split at isState
        · rename_i here
          rw [here] at isOther
          exact tracked.started taskId .ready other ready rfl isOther
        · exact tracked.started id state other isState isStarted isOther
      failed := by
        intro id dep depends
        rw [sameFailed, sameFailed]
        exact tracked.failed id dep depends
      blamed := by
        intro id
        rw [sameFailed]
        exact tracked.blamed id
      culprits := by
        intro culprit error
        rw [sameFailed]
        exact tracked.culprits culprit error
      owed := by
        intro id member
        rw [List.map_append]
        exact List.mem_append_left _ (tracked.owed id member)
      outstanding := by
        intro id
        rw [insertState_states, List.map_append, List.mem_append]
        simp only [List.map_cons, List.map_nil, List.mem_singleton, isTask]
        by_cases here : id = taskId
        · subst here
          simp only [↓reduceIte, or_true, true_and]
          constructor
          · intro _ reported
            exact notReturned (tracked.owed id reported)
          · intro _
            exact ⟨worker, rfl⟩
        · simp only [here, or_false]
          exact tracked.outstanding id }

theorem owed_append (tracked : run.Tracked nodes) {taskId : Bytes} {outcome : Option Bytes}
    (returned : taskId ∈ run.returned.map TaskNode.taskId) :
    ∀ id ∈ (run.reported ++ [(taskId, outcome)]).map Prod.fst,
      id ∈ run.returned.map TaskNode.taskId := by
  intro id member
  rw [List.map_append] at member
  rcases List.mem_append.mp member with earlier | isLast
  · exact tracked.owed id earlier
  · obtain rfl : id = taskId := by simpa using isLast
    exact returned

theorem complete (tracked : run.Tracked nodes) (order : HashOrder)
    {taskId : Bytes} (owed : run.Owed (.complete order taskId))
    (taken : run.step (.complete order taskId) = some next) : next.Tracked nodes := by
  have fits := tracked.reportFits owed
  have handed := tracked.handed.step fits taken
  obtain ⟨worker, dispatched⟩ := tracked.outstanding_of_owed owed
  obtain rfl := Option.some.inj taken
  have unblocked := run.dag.markComplete_unblocked order taskId
  have keeps := complete_keeps order fits
  have stays {id : Bytes} (other : id ≠ taskId)
      (outside : id ∉ (run.dag.markComplete order taskId).2) :
      (run.dag.markComplete order taskId).1.states id = run.dag.states id := by
    rw [unblocked.states, if_neg outside, insertState_states, if_neg other]
  have sameFailed (id : Bytes) :
      (run.dag.markComplete order taskId).1.Failed id ↔ run.dag.Failed id := by
    by_cases member : id ∈ (run.dag.markComplete order taskId).2
    · unfold Failed
      rw [unblocked.states, if_pos member, (markComplete_entered member).2]
      rfl
    · by_cases here : id = taskId
      · subst here
        unfold Failed
        rw [unblocked.states, if_neg member, insertState_states, if_pos rfl, dispatched]
        rfl
      · unfold Failed
        rw [stays here member]
  exact {
    handed := handed
    tasks := unblocked.tasks.trans tracked.tasks
    rdeps := unblocked.rdeps.trans tracked.rdeps
    keys := by
      intro id
      rw [unblocked.states, insertState_states, ← tracked.keys]
      split
      · rename_i member
        rw [(markComplete_entered member).2]
        rfl
      · split
        · rename_i here
          rw [here, dispatched]
          rfl
        · rfl
    pending := by
      intro id task pending isTask
      have known : (run.dag.markComplete order taskId).1.tasks id = some task := by
        rw [unblocked.tasks]
        exact (congrFun tracked.tasks id).trans isTask
      exact markComplete_blocked tracked.linked tracked.blocked order taskId id task pending known
    started := by
      intro id state task known isStarted isTask
      by_cases member : id ∈ (run.dag.markComplete order taskId).2
      · obtain ⟨_, other, isOther, done⟩ := unblocked.entered id member
        have isKnown : taskMap nodes id = some other := by
          rw [← tracked.tasks]
          exact isOther
        obtain rfl : other = task := Option.some.inj (isKnown.symm.trans isTask)
        rw [unblocked.allDone_eq]
        exact done
      · apply allDone_mono keeps.completed
        by_cases here : id = taskId
        · subst here
          exact tracked.started id _ task dispatched rfl isTask
        · rw [stays here member] at known
          exact tracked.started id state task known isStarted isTask
    failed := by
      intro id dep depends
      rw [sameFailed, sameFailed]
      exact tracked.failed id dep depends
    blamed := by
      intro id
      rw [sameFailed]
      intro failed
      obtain ⟨culprit, error, reported, path⟩ := tracked.blamed id failed
      exact ⟨culprit, error, List.mem_append_left _ reported, path⟩
    culprits := by
      intro culprit error reported
      rw [sameFailed]
      apply tracked.culprits culprit error
      simpa using reported
    owed := tracked.owed_append owed.1
    outstanding := by
      intro id
      rw [List.map_append, List.mem_append]
      simp only [List.map_cons, List.map_nil, List.mem_singleton]
      by_cases here : id = taskId
      · subst here
        have outside : id ∉ (run.dag.markComplete order id).2 := fun member =>
          (markComplete_entered member).1 rfl
        rw [unblocked.states, if_neg outside, insertState_states, if_pos rfl]
        simp
      · by_cases member : id ∈ (run.dag.markComplete order taskId).2
        · have pending := (markComplete_entered member).2
          rw [unblocked.states, if_pos member]
          simp only [here, or_false]
          rw [← tracked.outstanding id, pending]
          simp
        · rw [stays here member]
          simp only [here, or_false]
          exact tracked.outstanding id }

section Fail

variable {after : HubDag} {taskId error worker : Bytes} (tracked : run.Tracked nodes)
  (formed : WellFormed nodes) (reported : ReportedFailed taskId error run.dag after)

include tracked

theorem path_of_dependent {id : Bytes} (needs : Relation.TransGen run.dag.DependentOf id taskId) :
    Relation.TransGen (DependsOn nodes) id taskId := by
  refine Relation.TransGen.mono ?_ _ _ needs
  intro first second edge
  exact tracked.dependents.mp edge

include formed reported

theorem fail_keys (dispatched : run.dag.states taskId = some (.dispatched worker)) (id : Bytes) :
    (after.states id).isSome = (taskMap nodes id).isSome := by
  rw [← tracked.keys]
  by_cases failed : after.Failed id
  · have known : (run.dag.states id).isSome = true := by
      by_cases here : id = taskId
      · rw [here, dispatched]
        rfl
      · rcases reported.needs here with same | ⟨_, _, needs⟩
        · unfold Failed at failed
          rw [same] at failed
          cases isState : run.dag.states id with
          | none => simp [isState] at failed
          | some state => rfl
        · obtain ⟨dep, depends, _⟩ :=
            Relation.TransGen.head'_iff.mp (tracked.path_of_dependent needs)
          obtain ⟨task, isTask, _⟩ := formed.dependsOn_iff.mp depends
          rw [tracked.keys, isTask]
          rfl
    unfold Failed at failed
    cases isState : after.states id with
    | none => simp [isState] at failed
    | some state =>
        rw [known]
        rfl
  · rw [reported.stays failed]

theorem fail_dependents (keeps : Keeps run.dag after) {id dep : Bytes}
    (depends : DependsOn nodes id dep) (failed : after.Failed dep) : after.Failed id := by
  have settles := reported.closed (by
    intro key keyFailed dependent member
    exact settled_of_failed (tracked.failed dependent key
      (tracked.dependents.mp member) keyFailed)) dep failed id (tracked.dependents.mpr depends)
  by_contra notFailed
  -- A completed task has only completed dependencies.
  unfold Settled at settles
  cases known : after.states id with
  | none => simp [known] at settles
  | some state =>
      cases state with
      | completed =>
          have completed := tracked.needs_completed formed (.single depends)
            (reported.was_state known rfl) rfl
          unfold Failed at failed
          rw [keeps.completed dep completed] at failed
          simp [TaskState.isFailed] at failed
      | failed text =>
          apply notFailed
          unfold Failed
          rw [known]
          rfl
      | _ => simp [known, TaskState.settled] at settles

theorem fail_outstanding (dispatched : run.dag.states taskId = some (.dispatched worker))
    {id : Bytes} (other : id ≠ taskId) :
    (∃ worker, after.states id = some (.dispatched worker)) ↔
      ∃ worker, run.dag.states id = some (.dispatched worker) := by
  rcases reported.needs other with same | ⟨_, failed, needs⟩
  · rw [same]
  · constructor
    · rintro ⟨holder, known⟩
      exact ⟨holder, reported.was_state known rfl⟩
    · rintro ⟨holder, known⟩
      -- A dispatched task needs completed tasks only, and the reported one was not.
      have completed :=
        tracked.needs_completed formed (tracked.path_of_dependent needs) known rfl
      rw [dispatched] at completed
      simp at completed

end Fail

theorem fail (tracked : run.Tracked nodes) (formed : WellFormed nodes) (order : HashOrder)
    {taskId error : Bytes} (owed : run.Owed (.fail order taskId error))
    (taken : run.step (.fail order taskId error) = some next) : next.Tracked nodes := by
  have fits := tracked.reportFits owed
  have handed := tracked.handed.step fits taken
  obtain ⟨worker, dispatched⟩ := tracked.outstanding_of_owed owed
  obtain rfl := Option.some.inj taken
  have reported := markFailed_reported tracked.handed.orderly.keyed order taskId error
  have keeps := fail_keeps tracked.handed.orderly.keyed order fits
  have sameDone (task : TaskNode) :
      (run.dag.markFailed order taskId error).1.allDone task = run.dag.allDone task := by
    apply allDone_congr
    intro id
    exact ⟨fun completed => reported.was_state completed rfl, keeps.completed id⟩
  exact {
    handed := handed
    tasks := reported.tasks.trans tracked.tasks
    rdeps := reported.rdeps.trans tracked.rdeps
    keys := tracked.fail_keys formed reported dispatched
    pending := by
      intro id task pending isTask
      rw [sameDone]
      exact tracked.pending id task (reported.was_state pending rfl) isTask
    started := by
      intro id state task known isStarted isTask
      rw [sameDone]
      refine tracked.started id state task (reported.was_state known ?_) isStarted isTask
      cases state with
      | failed text => simp [TaskState.started] at isStarted
      | _ => rfl
    failed := fun id dep => tracked.fail_dependents formed reported keeps
    blamed := by
      intro id failed
      by_cases here : id = taskId
      · rw [here]
        exact ⟨taskId, error, by simp, .refl⟩
      · rcases reported.needs here with same | ⟨_, _, needs⟩
        · unfold Failed at failed
          rw [same] at failed
          obtain ⟨culprit, text, wasReported, blame⟩ := tracked.blamed id failed
          exact ⟨culprit, text, List.mem_append_left _ wasReported, blame⟩
        · exact ⟨taskId, error, by simp, (tracked.path_of_dependent needs).to_reflTransGen⟩
    culprits := by
      intro culprit text wasReported
      rcases List.mem_append.mp wasReported with earlier | isLast
      · have failed := tracked.culprits culprit text earlier
        unfold Failed
        rw [keeps culprit (settled_of_failed failed)]
        exact failed
      · obtain ⟨rfl, _⟩ : culprit = taskId ∧ text = error := by simpa using isLast
        exact reported.isFailed
    owed := tracked.owed_append owed.1
    outstanding := by
      intro id
      rw [List.map_append, List.mem_append]
      simp only [List.map_cons, List.map_nil, List.mem_singleton]
      by_cases here : id = taskId
      · subst here
        rw [reported.reported]
        simp
      · simp only [here, or_false]
        rw [tracked.fail_outstanding formed reported dispatched here]
        exact tracked.outstanding id }

theorem step (tracked : run.Tracked nodes) (formed : WellFormed nodes) {event : HubEvent}
    (owed : run.Owed event) (taken : run.step event = some next) : next.Tracked nodes := by
  cases event with
  | dispatch worker => exact tracked.dispatch worker taken
  | complete order taskId => exact tracked.complete order owed taken
  | fail order taskId error => exact tracked.fail formed order owed taken

theorem reachable {nodes : List TaskNode} (formed : WellFormed nodes) {run : HubRun}
    (reached : Machine.Reachable HubRun.step Owed (start nodes) run) : run.Tracked nodes := by
  induction reached with
  | refl => exact tracked_start formed
  | tail event _ owed taken ih => exact ih.step formed owed taken

/-- A task that is not settled, and whose dependencies are, is in the queue or handed out. -/
theorem alive (tracked : run.Tracked nodes) (formed : WellFormed nodes)
    (unfinished : run.dag.isDone = false) :
    run.dag.readyQueue ≠ [] ∨ ∃ id worker, run.dag.states id = some (.dispatched worker) := by
  have keyed := tracked.handed.orderly.keyed
  obtain ⟨id, state, known, unsettled⟩ : ∃ id state, run.dag.states id = some state ∧
      state.settled = false := by
    rw [Bool.eq_false_iff, ne_eq, isDone_iff keyed] at unfinished
    push Not at unfinished
    obtain ⟨id, state, known, unsettled⟩ := unfinished
    exact ⟨id, state, known, by simpa using unsettled⟩
  have inside (id : Bytes)
      (isOpen : ∃ state, run.dag.states id = some state ∧ state.settled = false) :
      id ∈ nodes.map TaskNode.taskId := by
    obtain ⟨state, isState, _⟩ := isOpen
    obtain ⟨task, isTask⟩ := tracked.exists_task isState
    obtain ⟨member, same⟩ := taskMap_spec isTask
    exact List.mem_map.mpr ⟨task, member, same⟩
  obtain ⟨least, ⟨open_, isOpen, openUnsettled⟩, below⟩ := Acyclic.exists_least formed.acyclic
    (nodes.map TaskNode.taskId)
    (fun id => ∃ state, run.dag.states id = some state ∧ state.settled = false) inside
    ⟨state, known, unsettled⟩
  cases open_ with
  | pending =>
      exfalso
      obtain ⟨task, isTask⟩ := tracked.exists_task isOpen
      have blocked := tracked.pending least task isOpen isTask
      rw [Bool.eq_false_iff, ne_eq, allDone_iff] at blocked
      push Not at blocked
      obtain ⟨dep, listed, uncompleted⟩ := blocked
      have depends : DependsOn nodes least dep := formed.dependsOn_iff.mpr ⟨task, isTask, listed⟩
      obtain ⟨member, _⟩ := taskMap_spec isTask
      obtain ⟨other, inNodes, isDep⟩ := formed.closed task member dep listed
      have isKnown : (run.dag.states dep).isSome = true := by
        rw [tracked.keys, ← isDep]
        exact taskMap_isSome inNodes
      obtain ⟨depState, isState⟩ := Option.isSome_iff_exists.mp isKnown
      cases depState with
      | completed => exact uncompleted isState
      | failed error =>
          have depFailed : run.dag.Failed dep := by
            unfold Failed
            rw [isState]
            rfl
          have leastFailed := tracked.failed least dep depends depFailed
          unfold Failed at leastFailed
          rw [isOpen] at leastFailed
          simp [TaskState.isFailed] at leastFailed
      | _ => exact below dep depends ⟨_, isState, rfl⟩
  | ready =>
      left
      have queued := (tracked.handed.orderly.queued least).mpr isOpen
      exact List.ne_nil_of_mem queued
  | dispatched worker => exact Or.inr ⟨least, worker, isOpen⟩
  | completed => simp [TaskState.settled] at openUnsettled
  | failed error => simp [TaskState.settled] at openUnsettled

theorem failed_iff (tracked : run.Tracked nodes) (id : Bytes) :
    run.dag.Failed id ↔ ∃ culprit error, (culprit, some error) ∈ run.reported ∧
      Relation.ReflTransGen (DependsOn nodes) id culprit := by
  constructor
  · exact tracked.blamed id
  · rintro ⟨culprit, error, reported, path⟩
    have failed := tracked.culprits culprit error reported
    induction path using Relation.ReflTransGen.head_induction_on with
    | refl => exact failed
    | head depends _ ih => exact tracked.failed _ _ depends ih

theorem completed_of_done (tracked : run.Tracked nodes) (done : run.dag.isDone = true)
    {task : TaskNode} (member : task ∈ nodes) (notFailed : ¬ run.dag.Failed task.taskId) :
    run.dag.states task.taskId = some .completed := by
  have isKnown : (run.dag.states task.taskId).isSome = true := by
    rw [tracked.keys]
    exact taskMap_isSome member
  obtain ⟨state, known⟩ := Option.isSome_iff_exists.mp isKnown
  have settled := (isDone_iff tracked.handed.orderly.keyed).mp done task.taskId state known
  cases state with
  | completed => exact known
  | failed error =>
      exfalso
      apply notFailed
      unfold Failed
      rw [known]
      rfl
  | _ => simp [TaskState.settled] at settled

end Tracked

end HubRun

/-- What holds in every state of a run that reports each task it hands out once. -/
theorem hub_progresses (nodes : List TaskNode) (formed : HubDag.WellFormed nodes) (run : HubRun)
    (reached : Machine.Reachable HubRun.step HubRun.Owed (.start nodes) run) :
    (run.dag.isDone = true ∨ run.dag.readyQueue ≠ [] ∨
      ∃ id worker, run.dag.states id = some (.dispatched worker)) ∧
    run.dag.readyQueue.Nodup ∧
    (∀ id, id ∈ run.dag.readyQueue ↔ run.dag.states id = some .ready) ∧
    (run.dag.isDone = true →
      (∀ id, run.dag.Failed id ↔ ∃ culprit error, (culprit, some error) ∈ run.reported ∧
        Relation.ReflTransGen (HubDag.DependsOn nodes) id culprit) ∧
      ∀ task ∈ nodes, ¬ run.dag.Failed task.taskId →
        run.dag.states task.taskId = some .completed) := by
  have tracked := HubRun.Tracked.reachable formed reached
  refine ⟨?_, tracked.handed.orderly.nodup, tracked.handed.orderly.queued, ?_⟩
  · cases done : run.dag.isDone with
    | true => exact Or.inl rfl
    | false => exact Or.inr (tracked.alive formed done)
  · intro done
    refine ⟨tracked.failed_iff, ?_⟩
    intro task member notFailed
    exact tracked.completed_of_done done member notFailed

namespace HubChain

theorem formed : HubDag.WellFormed nodes where
  distinct := by decide +kernel
  closed := by decide +kernel
  acyclic := by
    have falls : ∀ task ∈ nodes, ∀ dep ∈ task.dependsOn,
        (nodes.map TaskNode.taskId).idxOf dep < (nodes.map TaskNode.taskId).idxOf task.taskId := by
      decide +kernel
    apply Acyclic.of_rank ((nodes.map TaskNode.taskId).idxOf ·)
    rintro id dep ⟨task, member, rfl, listed⟩
    exact falls task member dep listed

end HubChain

/-- The second task of the chain fails, and the third one with it. -/
theorem hub_progresses_chain :
    ∃ run, Machine.run HubRun.step (.start HubChain.nodes)
        [.dispatch (utf8 "w1"), .complete HubChain.order (utf8 "core#build"),
          .dispatch (utf8 "w2"), .fail HubChain.order (utf8 "lib#build") (utf8 "exit 1")]
        = some run ∧
      run.dag.isDone = true ∧ run.dag.states (utf8 "core#build") = some .completed ∧
      ∃ culprit error, (culprit, some error) ∈ run.reported ∧
        Relation.ReflTransGen (HubDag.DependsOn HubChain.nodes) (utf8 "app#build") culprit := by
  obtain ⟨run, ran, outcome⟩ : ∃ run,
      Machine.run (Machine.guarded HubRun.Owed HubRun.step) (.start HubChain.nodes)
        [.dispatch (utf8 "w1"), .complete HubChain.order (utf8 "core#build"),
          .dispatch (utf8 "w2"), .fail HubChain.order (utf8 "lib#build") (utf8 "exit 1")]
        = some run ∧
      (run.dag.isDone, (run.dag.states (utf8 "core#build")).any TaskState.isFailed,
        (run.dag.states (utf8 "app#build")).any TaskState.isFailed) = (true, false, true) := by
    apply Option.map_eq_some_iff.mp
    decide +kernel
  simp only [Prod.mk.injEq] at outcome
  obtain ⟨done, coreUnfailed, appFailed⟩ := outcome
  obtain ⟨_, _, _, closure⟩ :=
    hub_progresses HubChain.nodes HubChain.formed run (Machine.guarded_reachable ran)
  obtain ⟨failed_iff, completed⟩ := closure done
  refine ⟨run, Machine.run_of_guarded ran, done, ?_, (failed_iff _).mp appFailed⟩
  refine completed (HubChain.task "core" []) List.mem_cons_self ?_
  intro coreFailed
  exact absurd coreFailed (by
    rw [HubDag.Failed]
    exact Bool.eq_false_iff.mp coreUnfailed)

end Rage
