import Rage.HubRun

/-!
The coordinator service.  Subscribe and SubmitBuild check the token; Complete takes a report from
anyone, with a task id and a worker id that the sender chooses.
-/

namespace Rage

/-- A work item on its way to a client, and the build that it belongs to. -/
structure Item where
  client : Nat
  worker : Bytes
  build : Nat
  node : TaskNode
  deriving DecidableEq

/-- What `complete` reads of a `CompletionReport`, and the worker that it names. -/
structure CompletionReport where
  taskId : Bytes
  workerId : Bytes
  success : Bool
  stderrTail : Bytes
  deriving DecidableEq

structure Ack where
  accepted : Bool
  reason : Bytes
  deriving DecidableEq

/-- `build` counts the builds that were submitted; `presented` are the clients whose token was
accepted, `streams` the open streams with their workers, and `items` all that was handed out. -/
structure Coordinator where
  token : Bytes
  buildId : Bytes
  dag : HubDag
  build : Nat
  presented : List Nat
  streams : List (Nat × Bytes)
  items : List Item

/-- A report comes with the item that it is about, if there is one; the hub does not see that. -/
inductive CoordinatorEvent
  | subscribe (client : Nat) (workerId token : Bytes)
  | poll (client : Nat) (worker : Bytes)
  | submitBuild (client : Nat) (token buildId : Bytes) (nodes : List TaskNode)
  | complete (client : Nat) (cause : Option Item) (order : HashOrder) (report : CompletionReport)

namespace Coordinator

open HubDag

def start (token buildId : Bytes) (nodes : List TaskNode) : Coordinator where
  token := token
  buildId := buildId
  dag := .new nodes
  build := 0
  presented := []
  streams := []
  items := []

/-- A report about an item comes from the client that has it, and names its task and worker. -/
def About (coordinator : Coordinator) (client : Nat) (report : CompletionReport)
    (item : Item) : Prop :=
  item ∈ coordinator.items ∧ item.client = client ∧ item.node.taskId = report.taskId ∧
    item.worker = report.workerId

instance (coordinator : Coordinator) (client : Nat) (report : CompletionReport) (item : Item) :
    Decidable (coordinator.About client report item) :=
  inferInstanceAs (Decidable (item ∈ coordinator.items ∧ item.client = client ∧
    item.node.taskId = report.taskId ∧ item.worker = report.workerId))

def complete (dag : HubDag) (order : HashOrder) (report : CompletionReport) : HubDag × Ack :=
  (if report.success then (dag.markComplete order report.taskId).1
    else (dag.markFailed order report.taskId report.stderrTail).1,
    ⟨true, []⟩)

/-- A turn of the stream: it ends with the build, and else hands out the next task, if any. -/
def turn (coordinator : Coordinator) (client : Nat) (worker : Bytes) : Coordinator :=
  if coordinator.dag.isDone then
    { coordinator with streams := coordinator.streams.erase (client, worker) }
  else
    { coordinator with
      dag := (coordinator.dag.dispatchNext worker).1
      items := coordinator.items ++ (coordinator.dag.dispatchNext worker).2.toList.map fun node =>
        ⟨client, worker, coordinator.build, node⟩ }

def step (coordinator : Coordinator) : CoordinatorEvent → Option Coordinator
  | .subscribe client workerId token =>
      some (if token = coordinator.token then
        { coordinator with
          presented := client :: coordinator.presented
          streams := (client, workerId) :: coordinator.streams }
      else coordinator)
  | .poll client worker =>
      if (client, worker) ∈ coordinator.streams then some (coordinator.turn client worker)
      else none
  | .submitBuild client token buildId nodes =>
      some (if token = coordinator.token then
        { coordinator with
          dag := .new nodes
          buildId := buildId
          build := coordinator.build + 1
          presented := client :: coordinator.presented }
      else coordinator)
  | .complete client cause order report =>
      if ∀ item ∈ cause, coordinator.About client report item then
        some { coordinator with dag := (complete coordinator.dag order report).1 }
      else none

/-! What the claim on a report says of one step, and when a step keeps to it. -/

/-- A report about an item of another build, or from a client without the token. -/
def Foreign (coordinator : Coordinator) (client : Nat) (cause : Option Item) : Prop :=
  client ∉ coordinator.presented ∨ ∃ item, cause = some item ∧ item.build ≠ coordinator.build

/-- A task is no longer with its worker only because of a report about the item that the worker
has in this build; a foreign report changes no task of the build. -/
structure Attributed (before : Coordinator) (event : CoordinatorEvent) (after : Coordinator) :
    Prop where
  owned : after.build = before.build → ∀ id worker,
    before.dag.states id = some (.dispatched worker) →
      after.dag.states id ≠ some (.dispatched worker) →
        ∃ client item order report, event = .complete client (some item) order report ∧
          item.build = before.build ∧ item.worker = worker ∧ item.node.taskId = id
  foreign : ∀ client cause order report, event = .complete client cause order report →
    before.Foreign client cause → ∀ id, (before.dag.tasks id).isSome = true →
      after.dag.states id = before.dag.states id

end Coordinator

namespace HubDag

/-- A completion that changes no task: it is known already, or about no task of the build, and
no task that waits for it has all its other dependencies. -/
def CompletionIdle (dag : HubDag) (taskId : Bytes) : Prop :=
  dag.states taskId = some .completed ∨ dag.tasks taskId = none ∧
    ∀ dependent ∈ dag.rdeps taskId, ∀ task, dag.tasks dependent = some task →
      dag.states dependent = some .pending →
        ∃ dep ∈ task.dependsOn, dep ≠ taskId ∧ dag.states dep ≠ some .completed

def FailureIdle (dag : HubDag) (taskId error : Bytes) : Prop :=
  (dag.states taskId = some (.failed error) ∨ dag.tasks taskId = none) ∧
    ∀ dependent ∈ dag.rdeps taskId, dag.Settled dependent

/-- No task that a failure takes along is with a worker. -/
def SparesDispatched (dag : HubDag) (taskId : Bytes) : Prop :=
  ∀ id worker, id ≠ taskId → dag.states id = some (.dispatched worker) →
    ¬ Relation.TransGen dag.Spreads id taskId

/-- A graph as any sequence of calls leaves it. -/
structure Sound (dag : HubDag) : Prop where
  keyed : dag.Keyed
  named : ∀ id task, dag.tasks id = some task → task.taskId = id
  linked : dag.Linked
  blocked : dag.Blocked
  dependents : ∀ key, ∀ id ∈ dag.rdeps key, (dag.tasks id).isSome = true
  queued : ∀ id ∈ dag.readyQueue, (dag.tasks id).isSome = true
  dispatched : ∀ id worker, dag.states id = some (.dispatched worker) →
    (dag.tasks id).isSome = true

theorem sound_new (nodes : List TaskNode) : (new nodes).Sound where
  keyed := keyed_new nodes
  named := by
    intro id task known
    exact (taskMap_spec known).2
  linked := linked_of_nodes rfl rfl
  blocked := new_blocked nodes
  dependents := by
    intro key id member
    obtain ⟨task, inNodes, rfl, _⟩ := mem_reverseDeps.mp member
    exact taskMap_isSome inNodes
  queued := by
    intro id member
    obtain ⟨task, inNodes, rfl⟩ := List.mem_map.mp member
    exact taskMap_isSome (List.mem_of_mem_filter inNodes)
  dispatched := by
    intro id worker known
    rcases new_open known with isState | isState
    · simp at isState
    · simp at isState

namespace Sound

variable {dag : HubDag}

theorem dispatch (sound : dag.Sound) (worker : Bytes) : (dag.dispatchNext worker).1.Sound := by
  rcases dag.dispatchNext_cases worker with ⟨_, same⟩ | ⟨taskId, rest, isQueue, moved⟩
  · rw [same]
    exact sound
  · have blocked := dispatchNext_blocked sound.blocked worker
    rw [moved] at blocked ⊢
    have whole := sound.keyed.insertState taskId (.dispatched worker)
    exact {
      keyed := ⟨whole.keys, whole.dependents⟩
      named := sound.named
      linked := sound.linked
      blocked := blocked
      dependents := sound.dependents
      queued := by
        intro id member
        apply sound.queued id
        rw [isQueue]
        exact List.mem_cons_of_mem taskId member
      dispatched := by
        intro id other known
        rw [insertState_states] at known
        split at known
        · rename_i here
          apply sound.queued id
          rw [isQueue, here]
          exact List.mem_cons_self
        · exact sound.dispatched id other known }

theorem complete (sound : dag.Sound) (order : HashOrder) (taskId : Bytes) :
    (dag.markComplete order taskId).1.Sound := by
  have unblocked := dag.markComplete_unblocked order taskId
  have tasks : (dag.markComplete order taskId).1.tasks = dag.tasks := unblocked.tasks
  have rdeps : (dag.markComplete order taskId).1.rdeps = dag.rdeps := unblocked.rdeps
  exact {
    keyed := unblocked.keyed (sound.keyed.insertState taskId .completed)
    named := by
      rw [tasks]
      exact sound.named
    linked := by
      unfold Linked
      rw [tasks, rdeps]
      exact sound.linked
    blocked := markComplete_blocked sound.linked sound.blocked order taskId
    dependents := by
      rw [tasks, rdeps]
      exact sound.dependents
    queued := by
      intro id member
      rw [tasks]
      rw [unblocked.queue, List.mem_append] at member
      rcases member with earlier | isNew
      · exact sound.queued id earlier
      · obtain ⟨_, task, isTask, _⟩ := unblocked.entered id isNew
        have known : dag.tasks id = some task := isTask
        rw [known]
        rfl
    dispatched := by
      intro id worker known
      rw [tasks]
      exact sound.dispatched id worker (markComplete_dispatched known).2 }

theorem fail (sound : dag.Sound) (order : HashOrder) (taskId error : Bytes) :
    (dag.markFailed order taskId error).1.Sound := by
  have reported := markFailed_reported sound.keyed order taskId error
  exact {
    keyed := reported.keyed
    named := by
      rw [reported.tasks]
      exact sound.named
    linked := by
      unfold Linked
      rw [reported.tasks, reported.rdeps]
      exact sound.linked
    blocked := reported.blocked sound.blocked
    dependents := by
      rw [reported.tasks, reported.rdeps]
      exact sound.dependents
    queued := by
      intro id member
      rw [reported.tasks]
      rw [reported.queue] at member
      exact sound.queued id (List.mem_of_mem_filter member)
    dispatched := by
      intro id worker known
      rw [reported.tasks]
      by_cases here : id = taskId
      · rw [here, reported.reported] at known
        simp at known
      · rcases reported.states id here with same | ⟨_, failed, _⟩
        · rw [same] at known
          exact sound.dispatched id worker known
        · unfold Failed at failed
          rw [known] at failed
          simp [TaskState.isFailed] at failed }

theorem report (sound : dag.Sound) (order : HashOrder) (report : CompletionReport) :
    (Coordinator.complete dag order report).1.Sound := by
  unfold Coordinator.complete
  simp only
  split
  · exact sound.complete order report.taskId
  · exact sound.fail order report.taskId report.stderrTail

/-- Exactly the idle completions change no task. -/
theorem completionIdle_iff (sound : dag.Sound) (order : HashOrder) (taskId : Bytes) :
    (∀ id, (dag.tasks id).isSome = true →
      (dag.markComplete order taskId).1.states id = dag.states id) ↔
    dag.CompletionIdle taskId := by
  have unblocked := dag.markComplete_unblocked order taskId
  constructor
  · intro unchanged
    cases isTask : dag.tasks taskId with
    | some task =>
        left
        have same := unchanged taskId (by rw [isTask]; rfl)
        rw [unblocked.states, insertState_states, if_pos rfl] at same
        split at same
        · rename_i member
          exact absurd rfl (markComplete_entered member).1
        · exact same.symm
    | none =>
        right
        refine ⟨isTask, ?_⟩
        intro dependent member task known pending
        by_contra all
        push Not at all
        have other : dependent ≠ taskId := by
          rintro rfl
          rw [known] at isTask
          simp at isTask
        -- Then the dependent is unblocked.
        have entered : dependent ∈ (dag.markComplete order taskId).2 := by
          refine (unblocked_start _).reaches ?_ ?_ (show dag.tasks dependent = some task from known)
            ?_
          · exact (order.perm _ _).mem_iff.mpr member
          · rw [insertState_states, if_neg other]
            exact pending
          · rw [allDone_iff]
            intro dep listed
            rw [insertState_states]
            split
            · rfl
            · rename_i apart
              exact all dep listed apart
        have same := unchanged dependent (by rw [known]; rfl)
        rw [unblocked.states, if_pos entered, pending] at same
        simp at same
  · intro idle id isTask
    rw [unblocked.states]
    split
    · rename_i member
      exfalso
      obtain ⟨_, task, known, done⟩ := unblocked.entered id member
      have known : dag.tasks id = some task := known
      obtain ⟨other, pending⟩ := markComplete_entered member
      have before := sound.blocked id task pending known
      rw [Bool.eq_false_iff] at before
      rw [allDone_iff] at done
      rcases idle with completed | ⟨_, waits⟩
      · apply before
        rw [allDone_iff]
        intro dep listed
        have now := done dep listed
        rw [insertState_states] at now
        split at now
        · rename_i here
          rw [here, completed]
        · exact now
      · by_cases needed : taskId ∈ task.dependsOn
        · obtain ⟨dep, listed, apart, open_⟩ :=
            waits id (sound.linked id task known taskId needed) task known pending
          have now := done dep listed
          rw [insertState_states, if_neg apart] at now
          exact open_ now
        · apply before
          rw [allDone_iff]
          intro dep listed
          have now := done dep listed
          rw [insertState_states, if_neg] at now
          · exact now
          · rintro rfl
            exact needed listed
    · rw [insertState_states]
      split
      · rename_i here
        rcases idle with completed | ⟨noTask, _⟩
        · rw [here, completed]
        · rw [here, noTask] at isTask
          simp at isTask
      · rfl

theorem failureIdle_iff (sound : dag.Sound) (order : HashOrder) (taskId error : Bytes) :
    (∀ id, (dag.tasks id).isSome = true →
      (dag.markFailed order taskId error).1.states id = dag.states id) ↔
    dag.FailureIdle taskId error := by
  have reported := markFailed_reported sound.keyed order taskId error
  constructor
  · intro unchanged
    have own : dag.states taskId = some (.failed error) ∨ dag.tasks taskId = none := by
      cases isTask : dag.tasks taskId with
      | none => exact Or.inr rfl
      | some task =>
          left
          rw [← unchanged taskId (by rw [isTask]; rfl)]
          exact reported.reported
    refine ⟨own, ?_⟩
    intro dependent member
    have settled := reported.reached taskId (Or.inl rfl) dependent member
    unfold Settled at settled ⊢
    rw [← unchanged dependent (sound.dependents taskId dependent member)]
    exact settled
  · rintro ⟨own, settled⟩ id isTask
    by_cases here : id = taskId
    · rcases own with failed | noTask
      · rw [here, reported.reported, failed]
      · rw [here, noTask] at isTask
        simp at isTask
    · rcases reported.states id here with same | ⟨_, _, path⟩
      · exact same
      · obtain ⟨last, _, member, unsettled⟩ := Relation.TransGen.tail'_iff.mp path
        exact absurd (settled last member) unsettled

end Sound

end HubDag

namespace Coordinator

open HubDag

/-- When a step keeps to the claim.  A foreign report has to change nothing; another one has to be
the report of the worker that has the task, and a failure has to spare the tasks of the others.
A turn of a stream must not hand out a task that another worker has. -/
def Fits (coordinator : Coordinator) : CoordinatorEvent → Prop
  | .subscribe _ _ _ => True
  | .submitBuild _ _ _ _ => True
  | .poll _ worker => coordinator.dag.isDone = false →
      ∀ id rest other, coordinator.dag.readyQueue = id :: rest →
        coordinator.dag.states id = some (.dispatched other) → other = worker
  | .complete client cause _ report =>
      (coordinator.Foreign client cause → if report.success then
        coordinator.dag.CompletionIdle report.taskId
      else coordinator.dag.FailureIdle report.taskId report.stderrTail) ∧
      (¬ coordinator.Foreign client cause →
        (∀ worker, coordinator.dag.states report.taskId = some (.dispatched worker) →
          ∃ item, cause = some item ∧ item.worker = worker) ∧
        (report.success = false → coordinator.dag.SparesDispatched report.taskId))

theorem sound_step {coordinator next : Coordinator} {event : CoordinatorEvent}
    (sound : coordinator.dag.Sound) (taken : coordinator.step event = some next) :
    next.dag.Sound := by
  cases event with
  | subscribe client workerId token =>
      obtain rfl := Option.some.inj taken
      split
      · exact sound
      · exact sound
  | poll client worker =>
      obtain ⟨_, moved⟩ := Option.ite_none_right_eq_some.mp taken
      obtain rfl := Option.some.inj moved
      unfold turn
      split
      · exact sound
      · exact sound.dispatch worker
  | submitBuild client token buildId nodes =>
      obtain rfl := Option.some.inj taken
      split
      · exact sound_new nodes
      · exact sound
  | complete client cause order report =>
      obtain ⟨_, moved⟩ := Option.ite_none_right_eq_some.mp taken
      obtain rfl := Option.some.inj moved
      exact sound.report order report

theorem sound_reachable {token buildId : Bytes} {nodes : List TaskNode} {coordinator : Coordinator}
    (reached : Machine.Reachable step (fun _ _ => True) (start token buildId nodes) coordinator) :
    coordinator.dag.Sound := by
  induction reached with
  | refl => exact sound_new nodes
  | tail event _ _ taken ih => exact sound_step ih taken

section Steps

variable {coordinator next : Coordinator}

/-- Where a step leaves the graph, there is nothing to attribute. -/
theorem attributed_of_same {event : CoordinatorEvent} (same : next.dag = coordinator.dag) :
    Attributed coordinator event next where
  owned := by
    intro _ id worker was gone
    rw [same] at gone
    exact absurd was gone
  foreign := by
    intro _ _ _ _ _ _ id _
    rw [same]

theorem poll_iff {client : Nat} {worker : Bytes}
    (taken : coordinator.step (.poll client worker) = some next) :
    Attributed coordinator (.poll client worker) next ↔
      coordinator.Fits (.poll client worker) := by
  obtain ⟨_, moved⟩ := Option.ite_none_right_eq_some.mp taken
  obtain rfl := Option.some.inj moved
  unfold turn
  split
  · rename_i done
    constructor
    · intro _ unfinished
      rw [done] at unfinished
      simp at unfinished
    · intro _
      exact attributed_of_same rfl
  · rename_i unfinished
    constructor
    · intro attributed _ id rest other isQueue was
      by_contra apart
      have gone : (coordinator.dag.dispatchNext worker).1.states id ≠
          some (.dispatched other) := by
        rw [dispatchNext_states isQueue, if_pos rfl]
        simpa using Ne.symm apart
      obtain ⟨_, _, _, _, isComplete, _⟩ := attributed.owned rfl id other was gone
      simp at isComplete
    · intro fits
      refine ⟨?_, ?_⟩
      · intro _ id other was gone
        exfalso
        cases isQueue : coordinator.dag.readyQueue with
        | nil =>
            apply gone
            simp only [dispatchNext, isQueue]
            exact was
        | cons first rest =>
            simp only [dispatchNext_states isQueue] at gone
            by_cases here : id = first
            · rw [if_pos here] at gone
              rw [here] at was
              have same := fits (by simpa using unfinished) first rest other isQueue was
              exact gone (by rw [same])
            · rw [if_neg here] at gone
              exact gone was
      · intro _ _ _ _ isComplete
        simp at isComplete

section Complete

variable {client : Nat} {cause : Option Item} {report : CompletionReport}

/-- What is attributed to a report is about the item that it comes with. -/
theorem blames_item (about : ∀ item ∈ cause, coordinator.About client report item)
    {order : HashOrder} {id worker : Bytes}
    (blamed : ∃ client' item order' report',
      CoordinatorEvent.complete client cause order report =
          .complete client' (some item) order' report' ∧
        item.build = coordinator.build ∧ item.worker = worker ∧ item.node.taskId = id) :
    id = report.taskId ∧ ∃ item, cause = some item ∧ item.worker = worker := by
  obtain ⟨_, item, _, _, same, _, isWorker, isId⟩ := blamed
  obtain ⟨_, isCause, _, _⟩ := CoordinatorEvent.complete.inj same
  obtain ⟨_, _, isReport, _⟩ := about item (by rw [isCause]; rfl)
  exact ⟨isId.symm.trans isReport, item, isCause, isWorker⟩

theorem blamed_of_item (about : ∀ item ∈ cause, coordinator.About client report item)
    (native : ¬ coordinator.Foreign client cause) (order : HashOrder) {worker : Bytes}
    (own : ∃ item, cause = some item ∧ item.worker = worker) :
    ∃ client' item order' report',
      CoordinatorEvent.complete client cause order report =
          .complete client' (some item) order' report' ∧
        item.build = coordinator.build ∧ item.worker = worker ∧
          item.node.taskId = report.taskId := by
  obtain ⟨item, isCause, isWorker⟩ := own
  obtain ⟨_, _, isReport, _⟩ := about item (by rw [isCause]; rfl)
  refine ⟨client, item, order, report, by rw [isCause], ?_, isWorker, isReport⟩
  by_contra apart
  exact native (Or.inr ⟨item, isCause, apart⟩)

theorem succeeded_iff (sound : coordinator.dag.Sound) (order : HashOrder)
    (about : ∀ item ∈ cause, coordinator.About client report item)
    (success : report.success = true) :
    Attributed coordinator (.complete client cause order report)
        { coordinator with dag := (coordinator.dag.markComplete order report.taskId).1 } ↔
      coordinator.Fits (.complete client cause order report) := by
  have unblocked := coordinator.dag.markComplete_unblocked order report.taskId
  have leaves : (coordinator.dag.markComplete order report.taskId).1.states report.taskId =
      some .completed := by
    rw [unblocked.states, insertState_states, if_pos rfl]
    split
    · rename_i member
      exact absurd rfl (markComplete_entered member).1
    · rfl
  constructor
  · intro attributed
    refine ⟨?_, ?_⟩
    · intro foreign
      rw [if_pos success, ← sound.completionIdle_iff order]
      exact attributed.foreign client cause order report rfl foreign
    · intro _
      refine ⟨?_, ?_⟩
      · intro worker was
        have gone : (coordinator.dag.markComplete order report.taskId).1.states report.taskId ≠
            some (.dispatched worker) := by
          rw [leaves]
          simp
        exact (blames_item about (attributed.owned rfl report.taskId worker was gone)).2
      · intro failure
        rw [success] at failure
        simp at failure
  · rintro ⟨idle, native⟩
    refine ⟨?_, ?_⟩
    · intro _ id worker was gone
      by_cases here : id = report.taskId
      · subst here
        by_cases foreign : coordinator.Foreign client cause
        · exfalso
          have isIdle := idle foreign
          rw [if_pos success] at isIdle
          rcases isIdle with completed | ⟨noTask, _⟩
          · rw [was] at completed
            simp at completed
          · have isTask := sound.dispatched _ worker was
            rw [noTask] at isTask
            simp at isTask
        · exact blamed_of_item about foreign order ((native foreign).1 worker was)
      · -- Only pending tasks are unblocked.
        exfalso
        apply gone
        have outside : id ∉ (coordinator.dag.markComplete order report.taskId).2 := by
          intro member
          have pending := (markComplete_entered member).2
          rw [was] at pending
          simp at pending
        simp only
        rw [unblocked.states, if_neg outside, insertState_states, if_neg here, was]
    · intro client' cause' order' report' same foreign id isTask
      obtain ⟨rfl, rfl, _, _⟩ := CoordinatorEvent.complete.inj same
      have isIdle := idle foreign
      rw [if_pos success] at isIdle
      exact (sound.completionIdle_iff order report.taskId).mpr isIdle id isTask

theorem failed_iff (sound : coordinator.dag.Sound) (order : HashOrder)
    (about : ∀ item ∈ cause, coordinator.About client report item)
    (failure : report.success = false) :
    Attributed coordinator (.complete client cause order report)
        { coordinator with
          dag := (coordinator.dag.markFailed order report.taskId report.stderrTail).1 } ↔
      coordinator.Fits (.complete client cause order report) := by
  have reported := markFailed_reported sound.keyed order report.taskId report.stderrTail
  have unsuccessful : ¬ report.success = true := by simp [failure]
  constructor
  · intro attributed
    refine ⟨?_, ?_⟩
    · intro foreign
      rw [if_neg unsuccessful, ← sound.failureIdle_iff order]
      exact attributed.foreign client cause order report rfl foreign
    · intro _
      refine ⟨?_, ?_⟩
      · intro worker was
        have gone : (coordinator.dag.markFailed order report.taskId report.stderrTail).1.states
            report.taskId ≠ some (.dispatched worker) := by
          rw [reported.reported]
          simp
        exact (blames_item about (attributed.owned rfl report.taskId worker was gone)).2
      · intro _ id worker other was path
        have gone : (coordinator.dag.markFailed order report.taskId report.stderrTail).1.states
            id ≠ some (.dispatched worker) := by
          intro stays
          have isFailed := reported.spread path
          unfold Failed at isFailed
          rw [stays] at isFailed
          simp [TaskState.isFailed] at isFailed
        exact other (blames_item about (attributed.owned rfl id worker was gone)).1
  · rintro ⟨idle, native⟩
    have spared (id worker : Bytes) (other : id ≠ report.taskId)
        (was : coordinator.dag.states id = some (.dispatched worker)) :
        ¬ Relation.TransGen coordinator.dag.Spreads id report.taskId := by
      by_cases foreign : coordinator.Foreign client cause
      · intro path
        have isIdle := idle foreign
        rw [if_neg unsuccessful] at isIdle
        obtain ⟨last, _, member, unsettled⟩ := Relation.TransGen.tail'_iff.mp path
        exact unsettled (isIdle.2 last member)
      · exact (native foreign).2 failure id worker other was
    refine ⟨?_, ?_⟩
    · intro _ id worker was gone
      by_cases here : id = report.taskId
      · subst here
        by_cases foreign : coordinator.Foreign client cause
        · exfalso
          have isIdle := idle foreign
          rw [if_neg unsuccessful] at isIdle
          rcases isIdle.1 with isFailed | noTask
          · rw [was] at isFailed
            simp at isFailed
          · have isTask := sound.dispatched _ worker was
            rw [noTask] at isTask
            simp at isTask
        · exact blamed_of_item about foreign order ((native foreign).1 worker was)
      · exfalso
        rcases reported.states id here with same | ⟨_, _, path⟩
        · apply gone
          simp only
          rw [same, was]
        · exact spared id worker here was path
    · intro client' cause' order' report' same foreign id isTask
      obtain ⟨rfl, rfl, _, _⟩ := CoordinatorEvent.complete.inj same
      have isIdle := idle foreign
      rw [if_neg unsuccessful] at isIdle
      exact (sound.failureIdle_iff order report.taskId report.stderrTail).mpr isIdle id isTask

end Complete

end Steps

end Coordinator

/-- In every run, with any clients, builds and reports: a step keeps to the attribution of reports
exactly when it fits. -/
theorem reports_attributed_iff (token buildId : Bytes) (nodes : List TaskNode)
    (coordinator : Coordinator)
    (reached : Machine.Reachable Coordinator.step (fun _ _ => True)
      (.start token buildId nodes) coordinator)
    (event : CoordinatorEvent) (next : Coordinator) (taken : coordinator.step event = some next) :
    Coordinator.Attributed coordinator event next ↔ coordinator.Fits event := by
  have sound := Coordinator.sound_reachable reached
  cases event with
  | subscribe client workerId given =>
      obtain rfl := Option.some.inj taken
      constructor
      · intro _
        trivial
      · intro _
        apply Coordinator.attributed_of_same
        split
        · rfl
        · rfl
  | poll client worker => exact Coordinator.poll_iff taken
  | submitBuild client given newId newNodes =>
      obtain rfl := Option.some.inj taken
      constructor
      · intro _
        trivial
      · intro _
        split
        · -- Another build.
          refine ⟨?_, ?_⟩
          · intro sameBuild
            exact absurd sameBuild (Nat.succ_ne_self _)
          · intro _ _ _ _ isComplete
            simp at isComplete
        · exact Coordinator.attributed_of_same rfl
  | complete client cause order report =>
      obtain ⟨about, moved⟩ := Option.ite_none_right_eq_some.mp taken
      obtain rfl := Option.some.inj moved
      cases success : report.success with
      | true =>
          have whole := Coordinator.succeeded_iff sound order about success
          simpa only [Coordinator.complete, success, ↓reduceIte] using whole
      | false =>
          have whole := Coordinator.failed_iff sound order about success
          simpa only [Coordinator.complete, success, Bool.false_eq_true, ↓reduceIte] using whole

namespace HubChain

def token : Bytes := utf8 "secret"

def subscribed : List CoordinatorEvent :=
  [.subscribe 0 (utf8 "w1") token, .poll 0 (utf8 "w1")]

def coreItem : Item := ⟨0, utf8 "w1", 0, task "core" []⟩

def coreDone : CompletionReport := ⟨utf8 "core#build", utf8 "w1", true, []⟩

end HubChain

/-- The worker that has the first task reports it. -/
theorem reports_attributed_iff_own :
    ∃ coordinator next, Machine.run Coordinator.step
        (.start HubChain.token (utf8 "b1") HubChain.nodes) HubChain.subscribed =
          some coordinator ∧
      coordinator.step (.complete 0 (some HubChain.coreItem) HubChain.order HubChain.coreDone) =
        some next ∧
      coordinator.dag.states (utf8 "core#build") = some (.dispatched (utf8 "w1")) ∧
      Coordinator.Attributed coordinator
        (.complete 0 (some HubChain.coreItem) HubChain.order HubChain.coreDone) next := by
  obtain ⟨coordinator, ran, facts⟩ : ∃ coordinator, Machine.run Coordinator.step
        (.start HubChain.token (utf8 "b1") HubChain.nodes) HubChain.subscribed =
          some coordinator ∧
      (coordinator.dag.states (utf8 "core#build"), decide (0 ∈ coordinator.presented),
        coordinator.build, (coordinator.step (.complete 0 (some HubChain.coreItem) HubChain.order
          HubChain.coreDone)).isSome) = (some (.dispatched (utf8 "w1")), true, 0, true) := by
    apply Option.map_eq_some_iff.mp
    decide +kernel
  simp only [Prod.mk.injEq, decide_eq_true_eq] at facts
  obtain ⟨dispatched, presented, build, enabled⟩ := facts
  obtain ⟨next, taken⟩ := Option.isSome_iff_exists.mp enabled
  refine ⟨coordinator, next, ran, taken, dispatched, ?_⟩
  refine (reports_attributed_iff HubChain.token (utf8 "b1") HubChain.nodes coordinator
    (Machine.run_reachable (fun _ _ _ => trivial) ran) _ next taken).mpr ⟨?_, ?_⟩
  · rintro (absent | ⟨item, isItem, other⟩)
    · exact absurd presented absent
    · obtain rfl := Option.some.inj isItem
      exact absurd build.symm other
  · intro _
    refine ⟨?_, ?_⟩
    · intro worker was
      have same : some (TaskState.dispatched (utf8 "w1")) = some (.dispatched worker) :=
        dispatched.symm.trans was
      refine ⟨HubChain.coreItem, rfl, ?_⟩
      exact TaskState.dispatched.inj (Option.some.inj same)
    · intro failure
      exact absurd failure (by decide)

/-- A client that has no token takes the task from the worker that executes it. -/
theorem stranger_completes :
    ∃ coordinator next, Machine.run Coordinator.step
        (.start HubChain.token (utf8 "b1") HubChain.nodes) HubChain.subscribed =
          some coordinator ∧
      coordinator.step (.complete 1 none HubChain.order HubChain.coreDone) = some next ∧
      1 ∉ coordinator.presented ∧
      coordinator.dag.states (utf8 "core#build") = some (.dispatched (utf8 "w1")) ∧
      next.dag.states (utf8 "core#build") = some .completed ∧
      ¬ Coordinator.Attributed coordinator (.complete 1 none HubChain.order HubChain.coreDone)
        next := by
  obtain ⟨coordinator, ran, facts⟩ : ∃ coordinator, Machine.run Coordinator.step
        (.start HubChain.token (utf8 "b1") HubChain.nodes) HubChain.subscribed =
          some coordinator ∧
      (coordinator.dag.states (utf8 "core#build"), decide (1 ∉ coordinator.presented),
        (coordinator.step (.complete 1 none HubChain.order HubChain.coreDone)).map fun next =>
          (next.build, next.dag.states (utf8 "core#build")), coordinator.build) =
        (some (.dispatched (utf8 "w1")), true, some (0, some .completed), 0) := by
    apply Option.map_eq_some_iff.mp
    decide +kernel
  simp only [Prod.mk.injEq, decide_eq_true_eq] at facts
  obtain ⟨dispatched, absent, later, build⟩ := facts
  obtain ⟨next, taken, after⟩ := Option.map_eq_some_iff.mp later
  obtain ⟨nextBuild, completed⟩ := Prod.mk.inj after
  refine ⟨coordinator, next, ran, taken, absent, dispatched, completed, ?_⟩
  intro attributed
  obtain ⟨_, _, _, _, same, _⟩ := attributed.owned (nextBuild.trans build.symm) _ _ dispatched (by
    rw [completed]
    simp)
  simp at same

end Rage
