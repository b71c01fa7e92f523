import Rage.Acyclic
import Rage.HubRun

/-!
Runs of the hub's graph in which the spokes succeed on every item, for any list of tasks without
cycles: ids may come twice, and dependencies need not exist.
-/

namespace Rage

namespace HubDag

/-- The dependencies that count are those of the last task of an id. -/
def Needs (nodes : List TaskNode) (id dep : Bytes) : Prop :=
  ∃ task, taskMap nodes id = some task ∧ dep ∈ task.dependsOn

/-- Every task is in the queue from the start, or waits only for tasks that exist. -/
def Served (nodes : List TaskNode) : Prop :=
  ∀ id task, taskMap nodes id = some task →
    (∃ other ∈ nodes, other.taskId = id ∧ other.dependsOn = []) ∨
      ∀ dep ∈ task.dependsOn, (taskMap nodes dep).isSome = true

def tasksIn (dag : HubDag) (which : TaskState → Bool) : Finset Bytes :=
  dag.known.toFinset.filter fun id => (dag.states id).any which = true

theorem mem_tasksIn {dag : HubDag} (keyed : dag.Keyed) {which : TaskState → Bool} {id : Bytes} :
    id ∈ dag.tasksIn which ↔ (dag.states id).any which = true := by
  simp only [tasksIn, Finset.mem_filter, List.mem_toFinset, keyed.keys, and_iff_right_iff_imp]
  intro here
  cases known : dag.states id with
  | none => simp [known] at here
  | some state => rfl

end HubDag

def TaskState.isPending : TaskState → Bool
  | .pending => true
  | _ => false

def TaskState.isDispatched : TaskState → Bool
  | .dispatched _ => true
  | _ => false

namespace HubRun

open HubDag

def waits (run : HubRun) (taskId : Bytes) : Prop :=
  (run.reported.map Prod.fst).count taskId < (run.returned.map TaskNode.taskId).count taskId

/-- Every report is a success, for an item that was handed out and is not reported yet; `hash` is
the order of the hash sets in each state. -/
def Succeeding (hash : HubRun → HashOrder) (run : HubRun) : HubEvent → Prop
  | .dispatch _ => True
  | .complete order taskId => order = hash run ∧ run.waits taskId
  | .fail _ _ _ => False

/-- The states of the tasks while every item succeeds. -/
structure Driven (nodes : List TaskNode) (run : HubRun) : Prop where
  keyed : run.dag.Keyed
  tasks : run.dag.tasks = taskMap nodes
  rdeps : run.dag.rdeps = reverseDeps nodes
  keys : ∀ id, (run.dag.states id).isSome = (taskMap nodes id).isSome
  queued : ∀ id, run.dag.states id = some .ready → id ∈ run.dag.readyQueue
  listed : ∀ task ∈ nodes, task.dependsOn = [] → run.dag.states task.taskId = some .pending →
    task.taskId ∈ run.dag.readyQueue
  known : ∀ id ∈ run.dag.readyQueue, (taskMap nodes id).isSome = true
  blocked : run.dag.Blocked
  unfailed : ∀ id, ¬ run.dag.Failed id
  returned : ∀ task ∈ run.returned, (taskMap nodes task.taskId).isSome = true ∧
    run.dag.states task.taskId ≠ some .pending
  counted : ∀ id, (run.reported.map Prod.fst).count id ≤
    (run.returned.map TaskNode.taskId).count id
  waiting : ∀ id worker, run.dag.states id = some (.dispatched worker) → run.waits id

theorem driven_start (nodes : List TaskNode) : (start nodes).Driven nodes where
  keyed := keyed_new nodes
  tasks := rfl
  rdeps := rfl
  keys := by
    intro id
    simp only [start, new, stateMap_eq, Option.isSome_map]
  queued := by
    intro id ready
    obtain ⟨task, known, isReady⟩ := new_states ready
    obtain ⟨member, same⟩ := taskMap_spec known
    simp only [start, new, List.mem_map, List.mem_filter, List.isEmpty_iff]
    exact ⟨task, ⟨member, initialState_ready.mp isReady⟩, same⟩
  listed := by
    intro task member free _
    simp only [start, new, List.mem_map, List.mem_filter, List.isEmpty_iff]
    exact ⟨task, ⟨member, free⟩, rfl⟩
  known := by
    intro id queued
    simp only [start, new, List.mem_map, List.mem_filter] at queued
    obtain ⟨task, ⟨member, _⟩, rfl⟩ := queued
    exact taskMap_isSome member
  blocked := new_blocked nodes
  unfailed := new_unfailed nodes
  returned := by simp [start]
  counted := by simp [start]
  waiting := by
    intro id worker known
    rcases new_open known with isState | isState
    · simp at isState
    · simp at isState

namespace Driven

variable {nodes : List TaskNode} {run next : HubRun}

theorem linked (driven : run.Driven nodes) : run.dag.Linked :=
  linked_of_nodes driven.tasks driven.rdeps

theorem known_of_waits (driven : run.Driven nodes) {taskId : Bytes} (waits : run.waits taskId) :
    (taskMap nodes taskId).isSome = true ∧ run.dag.states taskId ≠ some .pending := by
  have positive : 0 < (run.returned.map TaskNode.taskId).count taskId :=
    Nat.lt_of_le_of_lt (Nat.zero_le _) waits
  obtain ⟨task, member, rfl⟩ := List.mem_map.mp (List.count_pos_iff.mp positive)
  exact driven.returned task member

theorem dispatch (driven : run.Driven nodes) (worker : Bytes)
    (taken : run.step (.dispatch worker) = some next) : next.Driven nodes := by
  obtain rfl := Option.some.inj taken
  rcases run.dag.dispatchNext_cases worker with ⟨_, same⟩ | ⟨taskId, rest, isQueue, moved⟩
  · simp only [same, Option.toList_none, List.append_nil]
    exact driven
  · obtain ⟨task, isTask⟩ := Option.isSome_iff_exists.mp
      (driven.known taskId (by rw [isQueue]; exact List.mem_cons_self))
    have isId := (taskMap_spec isTask).2
    have known : run.dag.tasks taskId = some task := by rw [driven.tasks, isTask]
    have blocked := dispatchNext_blocked driven.blocked worker
    simp only [moved, known, Option.toList_some] at blocked ⊢
    have whole := driven.keyed.insertState taskId (.dispatched worker)
    have queue {id : Bytes} (member : id ∈ run.dag.readyQueue) (other : id ≠ taskId) :
        id ∈ rest := by
      rw [isQueue] at member
      exact (List.mem_cons.mp member).resolve_left other
    have grows (id : Bytes) : (run.returned.map TaskNode.taskId).count id ≤
        ((run.returned ++ [task]).map TaskNode.taskId).count id := by
      rw [List.map_append, List.count_append]
      exact Nat.le_add_right _ _
    exact {
      keyed := ⟨whole.keys, whole.dependents⟩
      tasks := driven.tasks
      rdeps := driven.rdeps
      keys := by
        intro id
        rw [insertState_states]
        split
        · rename_i here
          rw [here, isTask]
          rfl
        · exact driven.keys id
      queued := by
        intro id ready
        rw [insertState_states] at ready
        split at ready
        · simp at ready
        · rename_i other
          exact queue (driven.queued id ready) other
      listed := by
        intro listing member free pending
        rw [insertState_states] at pending
        split at pending
        · simp at pending
        · rename_i other
          exact queue (driven.listed listing member free pending) other
      known := by
        intro id member
        apply driven.known id
        rw [isQueue]
        exact List.mem_cons_of_mem taskId member
      blocked := blocked
      unfailed := by
        intro id
        unfold Failed
        rw [insertState_states]
        split
        · simp [TaskState.isFailed]
        · exact driven.unfailed id
      returned := by
        intro other member
        rw [insertState_states]
        rcases List.mem_append.mp member with earlier | isLast
        · obtain ⟨isKnown, notPending⟩ := driven.returned other earlier
          refine ⟨isKnown, ?_⟩
          split
          · simp
          · exact notPending
        · obtain rfl := List.mem_singleton.mp isLast
          rw [isId, isTask]
          simp
      counted := fun id => (driven.counted id).trans (grows id)
      waiting := by
        intro id other isState
        rw [insertState_states] at isState
        split at isState
        · rename_i here
          have before := driven.counted taskId
          unfold waits
          rw [here, List.map_append, List.count_append]
          simp only [List.map_cons, List.map_nil, isId, List.count_singleton_self]
          omega
        · exact Nat.lt_of_lt_of_le (driven.waiting id other isState) (grows id) }

theorem complete (driven : run.Driven nodes) (order : HashOrder) {taskId : Bytes}
    (waits : run.waits taskId) (taken : run.step (.complete order taskId) = some next) :
    next.Driven nodes := by
  obtain rfl := Option.some.inj taken
  have unblocked := run.dag.markComplete_unblocked order taskId
  obtain ⟨isKnown, _⟩ := driven.known_of_waits waits
  have reports (id : Bytes) :
      ((run.reported ++ [(taskId, none)]).map Prod.fst).count id =
        (run.reported.map Prod.fst).count id + if id = taskId then 1 else 0 := by
    rw [List.map_append, List.count_append]
    by_cases here : id = taskId
    · simp [here]
    · simp [here, Ne.symm here]
  have entered {id : Bytes} (member : id ∈ (run.dag.markComplete order taskId).2) :
      run.dag.states id = some .pending := (markComplete_entered member).2
  exact {
    keyed := unblocked.keyed (driven.keyed.insertState taskId .completed)
    tasks := unblocked.tasks.trans driven.tasks
    rdeps := unblocked.rdeps.trans driven.rdeps
    keys := by
      intro id
      rw [unblocked.states, insertState_states, ← driven.keys]
      split
      · rename_i member
        rw [entered member]
        rfl
      · split
        · rename_i here
          rw [here, driven.keys, isKnown]
          rfl
        · rfl
    queued := by
      intro id ready
      rw [unblocked.queue, List.mem_append]
      rw [unblocked.states, insertState_states] at ready
      split at ready
      · rename_i member
        exact Or.inr member
      · split at ready
        · simp at ready
        · exact Or.inl (driven.queued id ready)
    listed := by
      intro task member free pending
      rw [unblocked.queue, List.mem_append]
      rw [unblocked.states, insertState_states] at pending
      split at pending
      · simp at pending
      · split at pending
        · simp at pending
        · exact Or.inl (driven.listed task member free pending)
    known := by
      intro id member
      rw [unblocked.queue, List.mem_append] at member
      rcases member with earlier | isNew
      · exact driven.known id earlier
      · rw [← driven.keys, entered isNew]
        rfl
    blocked := markComplete_blocked driven.linked driven.blocked order taskId
    unfailed := by
      intro id
      unfold Failed
      rw [unblocked.states, insertState_states]
      split
      · simp [TaskState.isFailed]
      · split
        · simp [TaskState.isFailed]
        · exact driven.unfailed id
    returned := by
      intro task member
      obtain ⟨isTask, notPending⟩ := driven.returned task member
      refine ⟨isTask, ?_⟩
      rw [unblocked.states, insertState_states]
      split
      · simp
      · split
        · simp
        · exact notPending
    counted := by
      intro id
      rw [reports]
      split
      · rename_i here
        rw [here]
        exact waits
      · exact driven.counted id
    waiting := by
      intro id worker isState
      obtain ⟨other, was⟩ := markComplete_dispatched isState
      unfold HubRun.waits
      rw [reports, if_neg other]
      exact driven.waiting id worker was }

theorem step {hash : HubRun → HashOrder} (driven : run.Driven nodes) {event : HubEvent}
    (succeeds : run.Succeeding hash event) (taken : run.step event = some next) :
    next.Driven nodes := by
  cases event with
  | dispatch worker => exact driven.dispatch worker taken
  | complete order taskId => exact driven.complete order succeeds.2 taken
  | fail order taskId error => exact succeeds.elim

theorem reachable {hash : HubRun → HashOrder}
    (reached : Machine.Reachable HubRun.step (Succeeding hash) (start nodes) run) :
    run.Driven nodes := by
  induction reached with
  | refl => exact driven_start nodes
  | tail event _ succeeds taken ih => exact ih.step succeeds taken

end Driven

/-! Each dispatch and each report brings the end nearer. -/

def remaining (run : HubRun) : Nat :=
  3 * (run.dag.tasksIn TaskState.isPending).card + 2 * run.dag.readyQueue.length +
    (run.dag.tasksIn TaskState.isDispatched).card

namespace Driven

variable {nodes : List TaskNode} {run next : HubRun}

theorem dispatch_remaining (driven : run.Driven nodes) (worker : Bytes)
    (queued : run.dag.readyQueue ≠ []) (taken : run.step (.dispatch worker) = some next) :
    next.remaining < run.remaining := by
  have after := driven.dispatch worker taken
  obtain rfl := Option.some.inj taken
  rcases run.dag.dispatchNext_cases worker with ⟨empty, _⟩ | ⟨taskId, rest, isQueue, moved⟩
  · exact absurd empty queued
  · have keyed : (run.dag.dispatchNext worker).1.Keyed := after.keyed
    have states := dispatchNext_states isQueue worker
    have queue : (run.dag.dispatchNext worker).1.readyQueue = rest := by rw [moved]
    have pendings := Finset.card_le_card (show
        (run.dag.dispatchNext worker).1.tasksIn TaskState.isPending ⊆
          run.dag.tasksIn TaskState.isPending by
      intro id member
      rw [mem_tasksIn keyed, states] at member
      rw [mem_tasksIn driven.keyed]
      split at member
      · simp [TaskState.isPending] at member
      · exact member)
    have dispatcheds := Finset.card_le_card (show
        (run.dag.dispatchNext worker).1.tasksIn TaskState.isDispatched ⊆
          insert taskId (run.dag.tasksIn TaskState.isDispatched) by
      intro id member
      rw [mem_tasksIn keyed, states] at member
      rw [Finset.mem_insert, mem_tasksIn driven.keyed]
      split at member
      · rename_i here
        exact Or.inl here
      · exact Or.inr member)
    have more := Finset.card_insert_le taskId (run.dag.tasksIn TaskState.isDispatched)
    simp only [remaining, isQueue, queue, List.length_cons]
    omega

theorem complete_remaining (driven : run.Driven nodes) (order : HashOrder) {taskId worker : Bytes}
    (dispatched : run.dag.states taskId = some (.dispatched worker))
    (taken : run.step (.complete order taskId) = some next) : next.remaining < run.remaining := by
  have after := (driven.complete order (driven.waiting taskId worker dispatched) taken).keyed
  obtain rfl := Option.some.inj taken
  have unblocked := run.dag.markComplete_unblocked order taskId
  have newly : (run.dag.markComplete order taskId).2.toFinset.card =
      (run.dag.markComplete order taskId).2.length := List.toFinset_card_of_nodup unblocked.nodup
  have apart : Disjoint ((run.dag.markComplete order taskId).1.tasksIn TaskState.isPending)
      (run.dag.markComplete order taskId).2.toFinset := by
    rw [Finset.disjoint_left]
    intro id pending member
    rw [mem_tasksIn after, unblocked.states, if_pos (List.mem_toFinset.mp member)] at pending
    simp [TaskState.isPending] at pending
  have pendings := Finset.card_le_card (show
      (run.dag.markComplete order taskId).1.tasksIn TaskState.isPending ∪
        (run.dag.markComplete order taskId).2.toFinset ⊆ run.dag.tasksIn TaskState.isPending by
    intro id member
    rw [mem_tasksIn driven.keyed]
    rcases Finset.mem_union.mp member with pending | isNew
    · rw [mem_tasksIn after, unblocked.states, insertState_states] at pending
      split at pending
      · simp [TaskState.isPending] at pending
      · split at pending
        · simp [TaskState.isPending] at pending
        · exact pending
    · rw [(markComplete_entered (List.mem_toFinset.mp isNew)).2]
      rfl)
  have dispatcheds := Finset.card_lt_card (show
      (run.dag.markComplete order taskId).1.tasksIn TaskState.isDispatched ⊂
        run.dag.tasksIn TaskState.isDispatched by
    rw [Finset.ssubset_iff_of_subset]
    · refine ⟨taskId, ?_, ?_⟩
      · rw [mem_tasksIn driven.keyed, dispatched]
        rfl
      · rw [mem_tasksIn after, unblocked.states, insertState_states, if_pos rfl]
        split
        · simp [TaskState.isDispatched]
        · simp [TaskState.isDispatched]
    · intro id member
      rw [mem_tasksIn after, unblocked.states, insertState_states] at member
      rw [mem_tasksIn driven.keyed]
      split at member
      · simp [TaskState.isDispatched] at member
      · split at member
        · simp [TaskState.isDispatched] at member
        · exact member)
  rw [Finset.card_union_of_disjoint apart, newly] at pendings
  simp only [remaining, unblocked.queue, List.length_append, insertState]
  omega

/-- Some task is in the queue or handed out, as long as a task is not settled. -/
theorem alive (driven : run.Driven nodes) (served : Served nodes)
    (acyclic : ∀ id, ¬ Relation.TransGen (Needs nodes) id id)
    (unfinished : run.dag.isDone ≠ true) :
    run.dag.readyQueue ≠ [] ∨ ∃ id worker, run.dag.states id = some (.dispatched worker) := by
  obtain ⟨id, state, known, unsettled⟩ : ∃ id state, run.dag.states id = some state ∧
      state.settled = false := by
    rw [ne_eq, isDone_iff driven.keyed] at unfinished
    push Not at unfinished
    obtain ⟨id, state, known, unsettled⟩ := unfinished
    exact ⟨id, state, known, by simpa using unsettled⟩
  have inside (id : Bytes)
      (isOpen : ∃ state, run.dag.states id = some state ∧ state.settled = false) :
      id ∈ nodes.map TaskNode.taskId := by
    obtain ⟨state, isState, _⟩ := isOpen
    have isKnown : (taskMap nodes id).isSome = true := by
      rw [← driven.keys, isState]
      rfl
    obtain ⟨task, isTask⟩ := Option.isSome_iff_exists.mp isKnown
    obtain ⟨member, same⟩ := taskMap_spec isTask
    exact List.mem_map.mpr ⟨task, member, same⟩
  obtain ⟨least, ⟨open_, isOpen, openUnsettled⟩, below⟩ := Acyclic.exists_least acyclic
    (nodes.map TaskNode.taskId)
    (fun id => ∃ state, run.dag.states id = some state ∧ state.settled = false) inside
    ⟨state, known, unsettled⟩
  cases open_ with
  | pending =>
      have isKnown : (taskMap nodes least).isSome = true := by
        rw [← driven.keys, isOpen]
        rfl
      obtain ⟨task, isTask⟩ := Option.isSome_iff_exists.mp isKnown
      rcases served least task isTask with ⟨other, member, same, free⟩ | closed
      · left
        rw [← same] at isOpen
        exact List.ne_nil_of_mem (driven.listed other member free isOpen)
      · exfalso
        have isTaskOf : run.dag.tasks least = some task := by rw [driven.tasks, isTask]
        have waiting := driven.blocked least task isOpen isTaskOf
        rw [Bool.eq_false_iff, ne_eq, allDone_iff] at waiting
        push Not at waiting
        obtain ⟨dep, listed, uncompleted⟩ := waiting
        have depKnown : (run.dag.states dep).isSome = true := by
          rw [driven.keys]
          exact closed dep listed
        obtain ⟨depState, isState⟩ := Option.isSome_iff_exists.mp depKnown
        cases depState with
        | completed => exact uncompleted isState
        | failed error =>
            apply driven.unfailed dep
            unfold Failed
            rw [isState]
            rfl
        | _ => exact below dep ⟨task, isTask, listed⟩ ⟨_, isState, rfl⟩
  | ready => exact Or.inl (List.ne_nil_of_mem (driven.queued least isOpen))
  | dispatched worker => exact Or.inr ⟨least, worker, isOpen⟩
  | completed => simp [TaskState.settled] at openUnsettled
  | failed error => simp [TaskState.settled] at openUnsettled

theorem progress (driven : run.Driven nodes) (served : Served nodes)
    (acyclic : ∀ id, ¬ Relation.TransGen (Needs nodes) id id) (hash : HubRun → HashOrder)
    (unfinished : run.dag.isDone ≠ true) :
    ∃ event next, run.Succeeding hash event ∧ run.step event = some next ∧ next.Driven nodes ∧
      next.remaining < run.remaining := by
  rcases driven.alive served acyclic unfinished with queued | ⟨id, worker, dispatched⟩
  · refine ⟨.dispatch [], _, trivial, rfl, ?_, ?_⟩
    · exact driven.dispatch [] rfl
    · exact driven.dispatch_remaining [] queued rfl
  · have waits := driven.waiting id worker dispatched
    refine ⟨.complete (hash run) id, _, ⟨rfl, waits⟩, rfl, ?_, ?_⟩
    · exact driven.complete (hash run) waits rfl
    · exact driven.complete_remaining (hash run) dispatched rfl

end Driven

/-! A task that waits for one that does not exist waits forever. -/

structure Stuck (nodes : List TaskNode) (id : Bytes) (run : HubRun) : Prop where
  driven : run.Driven nodes
  pending : run.dag.states id = some .pending
  unqueued : id ∉ run.dag.readyQueue

theorem Stuck.step {nodes : List TaskNode} {id dep : Bytes} {task : TaskNode}
    (known : taskMap nodes id = some task) (listed : dep ∈ task.dependsOn)
    (missing : taskMap nodes dep = none) {hash : HubRun → HashOrder} {run next : HubRun}
    (stuck : run.Stuck nodes id) {event : HubEvent} (succeeds : run.Succeeding hash event)
    (taken : run.step event = some next) : next.Stuck nodes id := by
  have driven := stuck.driven.step succeeds taken
  cases event with
  | dispatch worker =>
      obtain rfl := Option.some.inj taken
      rcases run.dag.dispatchNext_cases worker with ⟨_, same⟩ | ⟨taskId, rest, isQueue, moved⟩
      · refine ⟨driven, ?_, ?_⟩
        · rw [same]
          exact stuck.pending
        · rw [same]
          exact stuck.unqueued
      · have other : id ≠ taskId := by
          rintro rfl
          apply stuck.unqueued
          rw [isQueue]
          exact List.mem_cons_self
        refine ⟨driven, ?_, ?_⟩
        · rw [moved, insertState_states, if_neg other]
          exact stuck.pending
        · rw [moved]
          intro member
          apply stuck.unqueued
          rw [isQueue]
          exact List.mem_cons_of_mem taskId member
  | complete order taskId =>
      obtain rfl := Option.some.inj taken
      have unblocked := run.dag.markComplete_unblocked order taskId
      obtain ⟨isKnown, notPending⟩ := stuck.driven.known_of_waits succeeds.2
      -- The missing dependency is never reported, since it is never handed out.
      have outside : id ∉ (run.dag.markComplete order taskId).2 := by
        intro member
        obtain ⟨_, own, isOwn, done⟩ := unblocked.entered id member
        have isTask : run.dag.tasks id = some own := isOwn
        rw [stuck.driven.tasks, known] at isTask
        obtain rfl := Option.some.inj isTask
        have completed := allDone_iff.mp done dep listed
        rw [insertState_states] at completed
        split at completed
        · rename_i here
          rw [← here, missing] at isKnown
          simp at isKnown
        · have present : (run.dag.states dep).isSome = true := by
            rw [completed]
            rfl
          rw [stuck.driven.keys, missing] at present
          simp at present
      have here : id ≠ taskId := by
        rintro rfl
        exact notPending stuck.pending
      refine ⟨driven, ?_, ?_⟩
      · rw [unblocked.states, if_neg outside, insertState_states, if_neg here]
        exact stuck.pending
      · rw [unblocked.queue, List.mem_append]
        rintro (earlier | isNew)
        · exact stuck.unqueued earlier
        · exact outside isNew
  | fail order taskId error => exact succeeds.elim

theorem stuck_start {nodes : List TaskNode} {id dep : Bytes} {task : TaskNode}
    (known : taskMap nodes id = some task) (listed : dep ∈ task.dependsOn)
    (unlisted : ∀ other ∈ nodes, other.taskId = id → other.dependsOn ≠ []) :
    (start nodes).Stuck nodes id where
  driven := driven_start nodes
  pending := by
    simp only [start, new, stateMap_eq, known, Option.map_some]
    rcases initialState_cases task with ⟨_, free⟩ | ⟨pending, _⟩
    · rw [free] at listed
      exact absurd listed List.not_mem_nil
    · rw [pending]
  unqueued := by
    intro queued
    simp only [start, new, List.mem_map, List.mem_filter, List.isEmpty_iff] at queued
    obtain ⟨other, ⟨member, free⟩, same⟩ := queued
    exact unlisted other member same free

theorem Stuck.unfinished {nodes : List TaskNode} {id : Bytes} {run : HubRun}
    (stuck : run.Stuck nodes id) : run.dag.isDone ≠ true := by
  rw [ne_eq, isDone_iff stuck.driven.keyed]
  intro done
  have settled := done id .pending stuck.pending
  simp [TaskState.settled] at settled

end HubRun

/-- From every state that successful reports lead to, further ones lead to the end. -/
def HubDag.Drivable (dag : HubDag) : Prop :=
  ∀ (hash : HubRun → HashOrder) (run : HubRun),
    Machine.Reachable HubRun.step (HubRun.Succeeding hash) ⟨dag, [], []⟩ run →
      ∃ done, Machine.Reachable HubRun.step (HubRun.Succeeding hash) run done ∧
        done.dag.isDone = true

theorem HubDag.drivable_iff (nodes : List TaskNode)
    (acyclic : ∀ id, ¬ Relation.TransGen (Needs nodes) id id) :
    (new nodes).Drivable ↔ Served nodes := by
  constructor
  · intro drivable id task known
    by_contra unserved
    push Not at unserved
    obtain ⟨unlisted, dep, listed, missing⟩ := unserved
    have missing : taskMap nodes dep = none := by simpa using missing
    obtain ⟨done, reached, isDone⟩ := drivable (fun _ => default) (.start nodes) .refl
    have stuck : done.Stuck nodes id := by
      apply reached.invariant
      · exact HubRun.stuck_start known listed unlisted
      · intro run event next stuck succeeds taken
        exact stuck.step known listed missing succeeds taken
    exact stuck.unfinished isDone
  · intro served hash run reached
    apply Machine.Reachable.drives (HubRun.Driven nodes) (fun run => run.dag.isDone = true)
      HubRun.remaining
    · intro state driven unfinished
      exact driven.progress served acyclic hash unfinished
    · exact HubRun.Driven.reachable reached

end Rage
