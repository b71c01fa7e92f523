import Mathlib.Data.Finset.Card
import Mathlib.Logic.Relation
import Rage.HubDag

/-!
What a report does to the states of the hub's graph: which tasks it makes ready, and which it
fails.
-/

namespace Rage

namespace HubDag

def Settled (dag : HubDag) (id : Bytes) : Prop := (dag.states id).any TaskState.settled = true

def Failed (dag : HubDag) (id : Bytes) : Prop := (dag.states id).any TaskState.isFailed = true

/-- `known` are the keys of the states, and every dependent is a task. -/
structure Keyed (dag : HubDag) : Prop where
  keys : ∀ id, id ∈ dag.known ↔ (dag.states id).isSome = true
  dependents : ∀ key, ∀ id ∈ dag.rdeps key, id ∈ dag.known

theorem insertState_states (dag : HubDag) (taskId : Bytes) (state : TaskState) (id : Bytes) :
    (dag.insertState taskId state).states id =
      if id = taskId then some state else dag.states id := by
  by_cases here : id = taskId
  · simp [insertState, here]
  · simp [insertState, here]

theorem mem_insertState_known {dag : HubDag} {taskId id : Bytes} {state : TaskState} :
    id ∈ (dag.insertState taskId state).known ↔ id ∈ dag.known ∨ id = taskId := by
  unfold insertState
  split
  · rename_i member
    constructor
    · exact Or.inl
    · rintro (known | rfl)
      · exact known
      · exact member
  · simp

theorem Keyed.insertState {dag : HubDag} (keyed : dag.Keyed) (taskId : Bytes)
    (state : TaskState) : (dag.insertState taskId state).Keyed where
  keys := by
    intro id
    rw [mem_insertState_known, insertState_states, keyed.keys]
    by_cases here : id = taskId
    · simp [here]
    · simp [here]
  dependents := by
    intro key id member
    exact mem_insertState_known.mpr (Or.inl (keyed.dependents key id member))

theorem keyed_new (nodes : List TaskNode) : (new nodes).Keyed where
  keys := by
    intro id
    simp only [new, List.mem_dedup, List.mem_map, stateMap_eq, Option.isSome_map]
    constructor
    · rintro ⟨task, member, rfl⟩
      exact taskMap_isSome member
    · intro known
      obtain ⟨task, isTask⟩ := Option.isSome_iff_exists.mp known
      obtain ⟨member, isId⟩ := taskMap_spec isTask
      exact ⟨task, member, isId⟩
  dependents := by
    intro key id member
    obtain ⟨task, inNodes, isId, _⟩ := mem_reverseDeps.mp member
    simp only [new, List.mem_dedup]
    exact List.mem_map.mpr ⟨task, inNodes, isId⟩

theorem isDone_iff {dag : HubDag} (keyed : dag.Keyed) :
    dag.isDone = true ↔ ∀ id state, dag.states id = some state → state.settled = true := by
  unfold isDone
  rw [List.all_eq_true]
  constructor
  · intro all id state known
    have done := all id ((keyed.keys id).mpr (by rw [known]; rfl))
    rwa [known] at done
  · intro all id _
    cases known : dag.states id with
    | none => rfl
    | some state => exact all id state known

theorem allDone_iff {dag : HubDag} {task : TaskNode} :
    dag.allDone task = true ↔ ∀ dep ∈ task.dependsOn, dag.states dep = some .completed := by
  simp [allDone]

theorem allDone_mono {before after : HubDag} {task : TaskNode}
    (kept : ∀ id, before.states id = some .completed → after.states id = some .completed)
    (done : before.allDone task = true) : after.allDone task = true := by
  rw [allDone_iff] at done ⊢
  intro dep member
  exact kept dep (done dep member)

theorem allDone_congr {before after : HubDag} {task : TaskNode}
    (same : ∀ id, after.states id = some .completed ↔ before.states id = some .completed) :
    after.allDone task = before.allDone task := by
  rw [Bool.eq_iff_iff, allDone_iff, allDone_iff]
  simp only [same]

/-! Unblocking. -/

/-- What unblocking has done so far, since `start`. -/
structure Unblocked (start : HubDag) (result : HubDag × List Bytes) : Prop where
  tasks : result.1.tasks = start.tasks
  rdeps : result.1.rdeps = start.rdeps
  states : ∀ id, result.1.states id = if id ∈ result.2 then some .ready else start.states id
  queue : result.1.readyQueue = start.readyQueue ++ result.2
  nodup : result.2.Nodup
  entered : ∀ id ∈ result.2, start.states id = some .pending ∧
    ∃ task, start.tasks id = some task ∧ start.allDone task = true
  keyed : start.Keyed → result.1.Keyed

namespace Unblocked

variable {start : HubDag} {result : HubDag × List Bytes}

theorem completed_iff (unblocked : Unblocked start result) (id : Bytes) :
    result.1.states id = some .completed ↔ start.states id = some .completed := by
  rw [unblocked.states]
  split
  · rename_i entered
    rw [(unblocked.entered id entered).1]
    simp
  · rfl

theorem allDone_eq (unblocked : Unblocked start result) (task : TaskNode) :
    result.1.allDone task = start.allDone task :=
  allDone_congr unblocked.completed_iff

theorem unblock (unblocked : Unblocked start result) (dependent : Bytes) :
    Unblocked start (HubDag.unblock result dependent) := by
  unfold HubDag.unblock
  split
  · rename_i pending
    split
    · rename_i task known
      split
      · rename_i done
        have notYet : dependent ∉ result.2 := by
          intro entered
          rw [unblocked.states, if_pos entered] at pending
          simp at pending
        exact {
          tasks := unblocked.tasks
          rdeps := unblocked.rdeps
          states := by
            intro id
            simp only [insertState_states, List.mem_append, List.mem_singleton]
            by_cases here : id = dependent
            · simp [here]
            · simp [here, unblocked.states]
          queue := by simp [unblocked.queue]
          nodup := by
            rw [List.nodup_append]
            refine ⟨unblocked.nodup, List.nodup_singleton _, ?_⟩
            intro id entered other isLast same
            obtain rfl := List.mem_singleton.mp isLast
            rw [same] at entered
            exact notYet entered
          entered := by
            intro id entered
            rcases List.mem_append.mp entered with earlier | isLast
            · exact unblocked.entered id earlier
            · obtain rfl := List.mem_singleton.mp isLast
              rw [unblocked.states, if_neg notYet] at pending
              refine ⟨pending, task, ?_, ?_⟩
              · rw [← unblocked.tasks]
                exact known
              · rw [← unblocked.allDone_eq]
                exact done
          keyed := by
            intro keyed
            have whole := (unblocked.keyed keyed).insertState dependent .ready
            exact ⟨whole.keys, whole.dependents⟩ }
      · exact unblocked
    · exact unblocked
  · exact unblocked

theorem foldl (unblocked : Unblocked start result) (dependents : List Bytes) :
    Unblocked start (dependents.foldl HubDag.unblock result) := by
  induction dependents generalizing result with
  | nil => exact unblocked
  | cons dependent rest ih => exact ih (unblocked.unblock dependent)

theorem more (result : HubDag × List Bytes) (dependent : Bytes) :
    ∀ id ∈ result.2, id ∈ (HubDag.unblock result dependent).2 := by
  intro id entered
  unfold HubDag.unblock
  split
  · split
    · split
      · exact List.mem_append_left _ entered
      · exact entered
    · exact entered
  · exact entered

/-- Every dependent whose dependencies are all completed is unblocked. -/
theorem reaches (unblocked : Unblocked start result) {dependents : List Bytes} {id : Bytes}
    {task : TaskNode} (member : id ∈ dependents) (pending : start.states id = some .pending)
    (known : start.tasks id = some task) (done : start.allDone task = true) :
    id ∈ (dependents.foldl HubDag.unblock result).2 := by
  induction dependents generalizing result with
  | nil => exact absurd member List.not_mem_nil
  | cons dependent rest ih =>
      have next := unblocked.unblock dependent
      rw [List.foldl_cons]
      have kept {state : HubDag × List Bytes} (entered : id ∈ state.2) (later : List Bytes) :
          id ∈ (later.foldl HubDag.unblock state).2 := by
        induction later generalizing state with
        | nil => exact entered
        | cons other others ih => exact ih (more state other id entered)
      rcases List.mem_cons.mp member with rfl | later
      · apply kept
        by_cases already : id ∈ result.2
        · exact more result id id already
        · have isPending : result.1.states id = some .pending := by
            rw [unblocked.states, if_neg already, pending]
          have isDone : result.1.allDone task = true := by
            rw [unblocked.allDone_eq]
            exact done
          have isTask : result.1.tasks id = some task := by
            rw [unblocked.tasks]
            exact known
          unfold HubDag.unblock
          simp [isPending, isTask, isDone]
      · exact ih next later

end Unblocked

theorem unblocked_start (dag : HubDag) : Unblocked dag (dag, []) where
  tasks := rfl
  rdeps := rfl
  states := by simp
  queue := by simp
  nodup := List.nodup_nil
  entered := by simp
  keyed := id

theorem markComplete_unblocked (dag : HubDag) (order : HashOrder) (taskId : Bytes) :
    Unblocked (dag.insertState taskId .completed) (dag.markComplete order taskId) :=
  (unblocked_start _).foldl _

/-- What becomes ready was pending. -/
theorem markComplete_entered {dag : HubDag} {order : HashOrder} {taskId id : Bytes}
    (member : id ∈ (dag.markComplete order taskId).2) :
    id ≠ taskId ∧ dag.states id = some .pending := by
  have pending := ((dag.markComplete_unblocked order taskId).entered id member).1
  rw [insertState_states] at pending
  split at pending
  · simp at pending
  · rename_i other
    exact ⟨other, pending⟩

theorem markComplete_dispatched {dag : HubDag} {order : HashOrder} {taskId id worker : Bytes}
    (known : (dag.markComplete order taskId).1.states id = some (.dispatched worker)) :
    id ≠ taskId ∧ dag.states id = some (.dispatched worker) := by
  rw [(dag.markComplete_unblocked order taskId).states, insertState_states] at known
  split at known
  · simp at known
  · split at known
    · simp at known
    · rename_i other
      exact ⟨other, known⟩

/-- Every pending task has a dependency that is not completed. -/
def Blocked (dag : HubDag) : Prop :=
  ∀ id task, dag.states id = some .pending → dag.tasks id = some task → dag.allDone task = false

theorem Blocked.of_fewer {before after : HubDag} (blocked : before.Blocked)
    (tasks : after.tasks = before.tasks)
    (pending : ∀ id, after.states id = some .pending → before.states id = some .pending)
    (completed : ∀ id, after.states id = some .completed → before.states id = some .completed) :
    after.Blocked := by
  intro id task isPending isTask
  rw [tasks] at isTask
  have open_ := blocked id task (pending id isPending) isTask
  rw [Bool.eq_false_iff] at open_ ⊢
  intro done
  exact open_ (allDone_mono completed done)

def Linked (dag : HubDag) : Prop :=
  ∀ id task, dag.tasks id = some task → ∀ dep ∈ task.dependsOn, id ∈ dag.rdeps dep

theorem linked_of_nodes {dag : HubDag} {nodes : List TaskNode} (tasks : dag.tasks = taskMap nodes)
    (rdeps : dag.rdeps = reverseDeps nodes) : dag.Linked := by
  intro id task isTask dep listed
  rw [tasks] at isTask
  obtain ⟨member, same⟩ := taskMap_spec isTask
  rw [rdeps, mem_reverseDeps]
  exact ⟨task, member, same, listed⟩

/-- A task all of whose dependencies are completed now had the reported one open before, so that
it is unblocked. -/
theorem markComplete_blocked {dag : HubDag} (linked : dag.Linked) (blocked : dag.Blocked)
    (order : HashOrder) (taskId : Bytes) : (dag.markComplete order taskId).1.Blocked := by
  have unblocked := dag.markComplete_unblocked order taskId
  intro id task pending isTask
  have outside : id ∉ (dag.markComplete order taskId).2 := by
    intro member
    rw [unblocked.states, if_pos member] at pending
    simp at pending
  have other : id ≠ taskId := by
    rintro rfl
    rw [unblocked.states, if_neg outside, insertState_states, if_pos rfl] at pending
    simp at pending
  rw [unblocked.states, if_neg outside, insertState_states, if_neg other] at pending
  have known : dag.tasks id = some task := by
    rw [unblocked.tasks] at isTask
    exact isTask
  have open_ := blocked id task pending known
  rw [Bool.eq_false_iff]
  intro done
  rw [unblocked.allDone_eq] at done
  have needed : taskId ∈ task.dependsOn := by
    by_contra unneeded
    rw [Bool.eq_false_iff] at open_
    apply open_
    rw [allDone_iff] at done ⊢
    intro dep listed
    have completed := done dep listed
    rw [insertState_states, if_neg] at completed
    · exact completed
    · rintro rfl
      exact unneeded listed
  apply outside
  refine (unblocked_start _).reaches ?_ ?_ known done
  · exact (order.perm _ _).mem_iff.mpr (linked id task known taskId needed)
  · rw [insertState_states, if_neg other]
    exact pending

/-! Failing.  The tasks that one turn of the loop fails are put at the end of the frontier. -/

/-- What a part of one turn has done: it has failed `added` for `current`. -/
structure Failing (current : Bytes) (before after : Cascade) (added : List Bytes) : Prop where
  tasks : after.dag.tasks = before.dag.tasks
  rdeps : after.dag.rdeps = before.dag.rdeps
  queue : after.dag.readyQueue = before.dag.readyQueue
  states : ∀ id, after.dag.states id =
    if id ∈ added then some (dependencyFailed current) else before.dag.states id
  frontier : after.frontier = before.frontier ++ added
  newlyFailed : after.newlyFailed = before.newlyFailed ++ added
  unsettled : ∀ id ∈ added, ¬ before.dag.Settled id
  nodup : added.Nodup
  keyed : before.dag.Keyed → after.dag.Keyed

namespace Failing

variable {current : Bytes} {before after : Cascade} {added : List Bytes}

theorem refl (current : Bytes) (cascade : Cascade) : Failing current cascade cascade [] where
  tasks := rfl
  rdeps := rfl
  queue := rfl
  states := by simp
  frontier := by simp
  newlyFailed := by simp
  unsettled := by simp
  nodup := List.nodup_nil
  keyed := id

theorem settled_kept (failing : Failing current before after added) {id : Bytes}
    (settled : before.dag.Settled id) : after.dag.Settled id := by
  unfold Settled
  rw [failing.states]
  split
  · rfl
  · exact settled

theorem failDependent (failing : Failing current before after added) (dependent : Bytes) :
    ∃ more, Failing current before (HubDag.failDependent current after dependent) more ∧
      (∀ id ∈ more, id ∈ added ∨ id = dependent) ∧
      (HubDag.failDependent current after dependent).dag.Settled dependent := by
  unfold HubDag.failDependent
  split
  · rename_i settled
    exact ⟨added, failing, fun id member => Or.inl member, settled⟩
  · rename_i unsettled
    have fresh : dependent ∉ added := by
      intro member
      rw [failing.states, if_pos member] at unsettled
      exact unsettled rfl
    refine ⟨added ++ [dependent], ?_, ?_, ?_⟩
    · exact {
        tasks := failing.tasks
        rdeps := failing.rdeps
        queue := failing.queue
        states := by
          intro id
          simp only [insertState_states, List.mem_append, List.mem_singleton]
          by_cases here : id = dependent
          · simp [here]
          · simp [here, failing.states]
        frontier := by simp [failing.frontier]
        newlyFailed := by simp [failing.newlyFailed]
        unsettled := by
          intro id member settled
          rcases List.mem_append.mp member with earlier | isLast
          · exact failing.unsettled id earlier settled
          · obtain rfl := List.mem_singleton.mp isLast
            exact unsettled (failing.settled_kept settled)
        nodup := by
          rw [List.nodup_append]
          refine ⟨failing.nodup, List.nodup_singleton _, ?_⟩
          intro id earlier other isLast same
          obtain rfl := List.mem_singleton.mp isLast
          rw [same] at earlier
          exact fresh earlier
        keyed := fun keyed => (failing.keyed keyed).insertState dependent _ }
    · intro id member
      rcases List.mem_append.mp member with earlier | isLast
      · exact Or.inl earlier
      · exact Or.inr (List.mem_singleton.mp isLast)
    · unfold Settled
      rw [insertState_states, if_pos rfl]
      rfl

/-- A turn settles every dependent of the task that it is about. -/
theorem foldl (failing : Failing current before after added) (dependents : List Bytes) :
    ∃ more, Failing current before (dependents.foldl (HubDag.failDependent current) after) more ∧
      (∀ id ∈ more, id ∈ added ∨ id ∈ dependents) ∧
      ∀ id ∈ dependents,
        (dependents.foldl (HubDag.failDependent current) after).dag.Settled id := by
  induction dependents generalizing after added with
  | nil => exact ⟨added, failing, fun id member => Or.inl member, by simp⟩
  | cons dependent rest ih =>
      obtain ⟨first, failingFirst, fromFirst, settledFirst⟩ := failing.failDependent dependent
      obtain ⟨more, failingMore, fromMore, settledMore⟩ := ih failingFirst
      refine ⟨more, failingMore, ?_, ?_⟩
      · intro id member
        rcases fromMore id member with inFirst | later
        · rcases fromFirst id inFirst with earlier | rfl
          · exact Or.inl earlier
          · exact Or.inr List.mem_cons_self
        · exact Or.inr (List.mem_cons_of_mem dependent later)
      · intro id member
        rcases List.mem_cons.mp member with rfl | later
        · -- Settled by its own step, and no later step changes that.
          have kept (others : List Bytes) (cascade : Cascade) (settled : cascade.dag.Settled id) :
              (others.foldl (HubDag.failDependent current) cascade).dag.Settled id := by
            induction others generalizing cascade with
            | nil => exact settled
            | cons other others ih =>
                obtain ⟨_, step, _, _⟩ := (Failing.refl current cascade).failDependent other
                exact ih _ (step.settled_kept settled)
          exact kept rest _ settledFirst
        · exact settledMore id later

end Failing

def unsettledTasks (dag : HubDag) : Finset Bytes :=
  dag.known.toFinset.filter fun id => (dag.states id).any TaskState.settled = false

theorem mem_unsettledTasks {dag : HubDag} (keyed : dag.Keyed) {id : Bytes} :
    id ∈ dag.unsettledTasks ↔ (dag.states id).isSome = true ∧ ¬ dag.Settled id := by
  simp [unsettledTasks, Settled, keyed.keys]

/-- Each task that a turn fails is one less to settle. -/
theorem Failing.count {current : Bytes} {before after : Cascade} {added : List Bytes}
    (failing : Failing current before after added) (keyed : before.dag.Keyed)
    (known : ∀ id ∈ added, id ∈ before.dag.known) :
    after.dag.unsettledTasks.card + added.length ≤ before.dag.unsettledTasks.card := by
  have apart : Disjoint after.dag.unsettledTasks added.toFinset := by
    rw [Finset.disjoint_left]
    intro id unsettled member
    apply ((mem_unsettledTasks (failing.keyed keyed)).mp unsettled).2
    unfold Settled
    rw [failing.states, if_pos (List.mem_toFinset.mp member)]
    rfl
  have inside : after.dag.unsettledTasks ∪ added.toFinset ⊆ before.dag.unsettledTasks := by
    intro id member
    rw [mem_unsettledTasks keyed]
    rcases Finset.mem_union.mp member with unsettled | isAdded
    · obtain ⟨isKnown, notSettled⟩ := (mem_unsettledTasks (failing.keyed keyed)).mp unsettled
      have notAdded : id ∉ added := by
        intro isAdded
        exact Finset.disjoint_left.mp apart unsettled (List.mem_toFinset.mpr isAdded)
      unfold Settled at notSettled
      rw [failing.states, if_neg notAdded] at isKnown notSettled
      exact ⟨isKnown, notSettled⟩
    · have isMember := List.mem_toFinset.mp isAdded
      exact ⟨(keyed.keys id).mp (known id isMember), failing.unsettled id isMember⟩
  have bound := Finset.card_le_card inside
  rwa [Finset.card_union_of_disjoint apart, List.toFinset_card_of_nodup failing.nodup] at bound

def DependentOf (dag : HubDag) (id key : Bytes) : Prop := id ∈ dag.rdeps key

/-- A failure spreads to the dependents that are not settled. -/
def Spreads (dag : HubDag) (id key : Bytes) : Prop := id ∈ dag.rdeps key ∧ ¬ dag.Settled id

/-- What the loop does from one frontier on. -/
structure Cascaded (before after : Cascade) : Prop where
  tasks : after.dag.tasks = before.dag.tasks
  rdeps : after.dag.rdeps = before.dag.rdeps
  queue : after.dag.readyQueue = before.dag.readyQueue
  keyed : before.dag.Keyed → after.dag.Keyed
  states : ∀ id, after.dag.states id = before.dag.states id ∨
    ¬ before.dag.Settled id ∧ after.dag.Failed id ∧
      ∃ source ∈ before.frontier, Relation.TransGen before.dag.Spreads id source

namespace Cascaded

theorem refl (cascade : Cascade) : Cascaded cascade cascade where
  tasks := rfl
  rdeps := rfl
  queue := rfl
  keyed := id
  states := fun _ => Or.inl rfl

theorem settled_kept {before after : Cascade} (cascaded : Cascaded before after) {id : Bytes}
    (settled : before.dag.Settled id) : after.dag.states id = before.dag.states id := by
  rcases cascaded.states id with same | ⟨unsettled, _⟩
  · exact same
  · exact absurd settled unsettled

theorem settled {before after : Cascade} (cascaded : Cascaded before after) {id : Bytes}
    (settled : before.dag.Settled id) : after.dag.Settled id := by
  unfold Settled
  rw [cascaded.settled_kept settled]
  exact settled

end Cascaded

theorem settled_of_failed {dag : HubDag} {id : Bytes} (failed : dag.Failed id) :
    dag.Settled id := by
  unfold Failed at failed
  unfold Settled
  cases known : dag.states id with
  | none => simp [known] at failed
  | some state =>
      cases state with
      | failed error => rfl
      | _ => simp [known, TaskState.isFailed] at failed

section Turn

variable {order : HashOrder} {cascade : Cascade} {current : Bytes} {rest : List Bytes}

/-- One turn of the loop. -/
theorem turn (order : HashOrder) (cascade : Cascade) (current : Bytes) (rest : List Bytes) :
    ∃ added, Failing current { cascade with frontier := rest }
        ((order.arrange current (cascade.dag.rdeps current)).foldl (failDependent current)
          { cascade with frontier := rest }) added ∧
      (∀ id ∈ added, id ∈ cascade.dag.rdeps current) ∧
      ∀ id ∈ cascade.dag.rdeps current,
        ((order.arrange current (cascade.dag.rdeps current)).foldl (failDependent current)
          { cascade with frontier := rest }).dag.Settled id := by
  have same := order.perm current (cascade.dag.rdeps current)
  obtain ⟨added, failing, from_, settled⟩ :=
    (Failing.refl current { cascade with frontier := rest }).foldl
      (order.arrange current (cascade.dag.rdeps current))
  refine ⟨added, failing, ?_, ?_⟩
  · intro id member
    rcases from_ id member with nothing | listed
    · exact absurd nothing List.not_mem_nil
    · exact same.mem_iff.mp listed
  · intro id member
    exact settled id (same.mem_iff.mpr member)

end Turn

/-- The loop ends with an empty frontier when there is a turn for each task that can still fail:
all dependents of what was in the frontier, or has failed since, are settled then. -/
theorem cascadeFailures_spec (order : HashOrder) (fuel : Nat) (cascade : Cascade)
    (keyed : cascade.dag.Keyed)
    (enough : cascade.dag.unsettledTasks.card + cascade.frontier.length ≤ fuel) :
    Cascaded cascade (cascadeFailures order fuel cascade) ∧
    ∀ id, id ∈ cascade.frontier ∨
        (cascadeFailures order fuel cascade).dag.states id ≠ cascade.dag.states id →
      ∀ dependent ∈ cascade.dag.rdeps id,
        (cascadeFailures order fuel cascade).dag.Settled dependent := by
  induction fuel generalizing cascade with
  | zero =>
      have empty : cascade.frontier = [] := List.eq_nil_of_length_eq_zero (by omega)
      refine ⟨Cascaded.refl cascade, ?_⟩
      rintro id (inFrontier | changed)
      · rw [empty] at inFrontier
        exact absurd inFrontier List.not_mem_nil
      · exact absurd rfl changed
  | succ fuel ih =>
      cases isFrontier : cascade.frontier with
      | nil =>
          have stops : cascadeFailures order (fuel + 1) cascade = cascade := by
            rw [cascadeFailures, isFrontier]
          rw [stops]
          refine ⟨Cascaded.refl cascade, ?_⟩
          rintro id (inFrontier | changed)
          · exact absurd inFrontier List.not_mem_nil
          · exact absurd rfl changed
      | cons current rest =>
          obtain ⟨added, failing, dependents, settles⟩ := turn order cascade current rest
          have unfolded : cascadeFailures order (fuel + 1) cascade =
              cascadeFailures order fuel
                ((order.arrange current (cascade.dag.rdeps current)).foldl
                  (failDependent current) { cascade with frontier := rest }) := by
            rw [cascadeFailures, isFrontier]
          rw [unfolded]
          generalize (order.arrange current (cascade.dag.rdeps current)).foldl
            (failDependent current) { cascade with frontier := rest } = after at *
          have fewer := failing.count keyed fun id member =>
            keyed.dependents current id (dependents id member)
          have frontier : after.frontier = rest ++ added := failing.frontier
          have rdeps : after.dag.rdeps = cascade.dag.rdeps := failing.rdeps
          have spread {id key : Bytes} (edge : after.dag.Spreads id key) :
              cascade.dag.Spreads id key := by
            obtain ⟨isDependent, unsettled⟩ := edge
            rw [rdeps] at isDependent
            exact ⟨isDependent, fun settled => unsettled (failing.settled_kept settled)⟩
          rw [isFrontier, List.length_cons] at enough
          have turns : after.dag.unsettledTasks.card + after.frontier.length ≤ fuel := by
            rw [frontier, List.length_append]
            simp only at fewer
            omega
          obtain ⟨later, reached⟩ := ih after (failing.keyed keyed) turns
          rw [rdeps, frontier] at reached
          refine ⟨?_, ?_⟩
          · exact {
              tasks := later.tasks.trans failing.tasks
              rdeps := later.rdeps.trans failing.rdeps
              queue := later.queue.trans failing.queue
              keyed := later.keyed ∘ failing.keyed
              states := by
                intro id
                rcases later.states id with same | ⟨unsettled, failed, source, member, path⟩
                · rw [same, failing.states]
                  split
                  · rename_i isAdded
                    refine Or.inr ⟨failing.unsettled id isAdded, ?_, current, ?_, ?_⟩
                    · unfold Failed
                      rw [same, failing.states, if_pos isAdded]
                      rfl
                    · rw [isFrontier]
                      exact List.mem_cons_self
                    · exact .single ⟨dependents id isAdded, failing.unsettled id isAdded⟩
                  · exact Or.inl rfl
                · have wasUnsettled : ¬ cascade.dag.Settled id :=
                    fun settled => unsettled (failing.settled_kept settled)
                  have spreads : Relation.TransGen cascade.dag.Spreads id source := by
                    refine Relation.TransGen.mono ?_ _ _ path
                    intro first second edge
                    exact spread edge
                  rw [frontier] at member
                  rw [isFrontier]
                  rcases List.mem_append.mp member with inRest | isAdded
                  · exact Or.inr ⟨wasUnsettled, failed, source,
                      List.mem_cons_of_mem current inRest, spreads⟩
                  · exact Or.inr ⟨wasUnsettled, failed, current, List.mem_cons_self,
                      spreads.tail ⟨dependents source isAdded, failing.unsettled source isAdded⟩⟩ }
          · intro id started
            by_cases isAdded : id ∈ added
            · exact reached id (Or.inl (List.mem_append_right rest isAdded))
            · rcases started with inFrontier | changed
              · rcases List.mem_cons.mp inFrontier with rfl | inRest
                · intro dependent member
                  exact later.settled (settles dependent member)
                · exact reached id (Or.inl (List.mem_append_left added inRest))
              · apply reached id
                right
                rw [failing.states, if_neg isAdded]
                exact changed

/-! The whole report of a failure. -/

theorem unsettledTasks_insertState {dag : HubDag} (keyed : dag.Keyed) (taskId : Bytes)
    {state : TaskState} (settled : state.settled = true) :
    (dag.insertState taskId state).unsettledTasks.card ≤ dag.known.length := by
  have inside : (dag.insertState taskId state).unsettledTasks ⊆ dag.known.toFinset := by
    intro id member
    obtain ⟨isKnown, unsettled⟩ := (mem_unsettledTasks (keyed.insertState taskId state)).mp member
    unfold Settled at unsettled
    rw [insertState_states] at isKnown unsettled
    split at isKnown
    · rename_i here
      rw [if_pos here] at unsettled
      exact absurd settled unsettled
    · exact List.mem_toFinset.mpr ((keyed.keys id).mpr isKnown)
  exact (Finset.card_le_card inside).trans (List.toFinset_card_le _)

/-- What a failure report does: the task takes its error, and only tasks that were not settled
and that need it fail with it. -/
structure ReportedFailed (taskId error : Bytes) (before after : HubDag) : Prop where
  tasks : after.tasks = before.tasks
  rdeps : after.rdeps = before.rdeps
  reported : after.states taskId = some (.failed error)
  states : ∀ id, id ≠ taskId → after.states id = before.states id ∨
    ¬ before.Settled id ∧ after.Failed id ∧ Relation.TransGen before.Spreads id taskId
  queue : after.readyQueue =
    before.readyQueue.filter fun id => !(after.states id).any TaskState.isFailed
  keyed : after.Keyed
  reached : ∀ id, id = taskId ∨ after.states id ≠ before.states id →
    ∀ dependent ∈ before.rdeps id, after.Settled dependent

theorem markFailed_reported {dag : HubDag} (keyed : dag.Keyed) (order : HashOrder)
    (taskId error : Bytes) :
    ReportedFailed taskId error dag (dag.markFailed order taskId error).1 := by
  have start := keyed.insertState taskId (.failed error)
  have enough : (dag.insertState taskId (.failed error)).unsettledTasks.card ≤ _ :=
    unsettledTasks_insertState keyed taskId rfl
  obtain ⟨cascaded, reached⟩ := cascadeFailures_spec order (dag.known.length + 1)
    ⟨dag.insertState taskId (.failed error), [taskId], []⟩ start (by simpa using enough)
  unfold markFailed
  generalize cascadeFailures order (dag.known.length + 1)
    ⟨dag.insertState taskId (.failed error), [taskId], []⟩ = after at cascaded reached
  have settledHere : (dag.insertState taskId (.failed error)).Settled taskId := by
    unfold Settled
    rw [insertState_states, if_pos rfl]
    rfl
  have kept {id : Bytes} (settled : dag.Settled id) :
      (dag.insertState taskId (.failed error)).Settled id := by
    unfold Settled
    rw [insertState_states]
    split
    · rfl
    · exact settled
  exact {
    tasks := cascaded.tasks
    rdeps := cascaded.rdeps
    reported := by
      have same := cascaded.settled_kept settledHere
      rw [insertState_states, if_pos rfl] at same
      exact same
    states := by
      intro id other
      rcases cascaded.states id with same | ⟨unsettled, failed, source, member, path⟩
      · left
        rw [insertState_states, if_neg other] at same
        exact same
      · right
        obtain rfl := List.mem_singleton.mp member
        refine ⟨fun settled => unsettled (kept settled), failed, ?_⟩
        refine Relation.TransGen.mono ?_ _ _ path
        rintro first second ⟨isDependent, edgeUnsettled⟩
        exact ⟨isDependent, fun settled => edgeUnsettled (kept settled)⟩
    queue := by
      have same := cascaded.queue
      simp only [same]
      rfl
    keyed := by
      have whole := cascaded.keyed start
      exact ⟨whole.keys, whole.dependents⟩
    reached := by
      intro id started
      apply reached id
      by_cases here : id = taskId
      · exact Or.inl (List.mem_singleton.mpr here)
      · right
        rw [insertState_states, if_neg here]
        exact started.resolve_left here }

namespace ReportedFailed

variable {taskId error : Bytes} {before after : HubDag}

theorem needs (reported : ReportedFailed taskId error before after) {id : Bytes}
    (other : id ≠ taskId) : after.states id = before.states id ∨
      ¬ before.Settled id ∧ after.Failed id ∧ Relation.TransGen before.DependentOf id taskId := by
  rcases reported.states id other with same | ⟨unsettled, failed, path⟩
  · exact Or.inl same
  · refine Or.inr ⟨unsettled, failed, ?_⟩
    refine Relation.TransGen.mono ?_ _ _ path
    rintro first second ⟨isDependent, _⟩
    exact isDependent

theorem isFailed (reported : ReportedFailed taskId error before after) : after.Failed taskId := by
  unfold Failed
  rw [reported.reported]
  rfl

/-- What has not failed is as it was. -/
theorem stays (reported : ReportedFailed taskId error before after) {id : Bytes}
    (notFailed : ¬ after.Failed id) : after.states id = before.states id := by
  have other : id ≠ taskId := by
    rintro rfl
    exact notFailed reported.isFailed
  rcases reported.needs other with same | ⟨_, failed, _⟩
  · exact same
  · exact absurd failed notFailed

theorem was_state (reported : ReportedFailed taskId error before after) {id : Bytes}
    {state : TaskState} (known : after.states id = some state)
    (notFailed : state.isFailed = false) : before.states id = some state := by
  rw [← reported.stays, known]
  unfold Failed
  rw [known]
  simp [notFailed]

/-- The dependents of all failed tasks are settled, if they were before. -/
theorem closed (reported : ReportedFailed taskId error before after)
    (wereSettled : ∀ id, before.Failed id →
      ∀ dependent ∈ before.rdeps id, before.Settled dependent) (id : Bytes)
    (failed : after.Failed id) : ∀ dependent ∈ before.rdeps id, after.Settled dependent := by
  intro dependent member
  by_cases changed : id = taskId ∨ after.states id ≠ before.states id
  · exact reported.reached id changed dependent member
  · push Not at changed
    obtain ⟨_, same⟩ := changed
    unfold Failed at failed
    rw [same] at failed
    have settled := wereSettled id failed dependent member
    by_cases here : dependent = taskId
    · unfold Settled
      rw [here, reported.reported]
      rfl
    · rcases reported.states dependent here with kept | ⟨unsettled, _⟩
      · unfold Settled
        rw [kept]
        exact settled
      · exact absurd settled unsettled

theorem blocked (reported : ReportedFailed taskId error before after)
    (wereBlocked : before.Blocked) : after.Blocked := by
  have unfailed {id : Bytes} {state : TaskState} (known : after.states id = some state)
      (notFailed : state.isFailed = false) : before.states id = some state := by
    by_cases here : id = taskId
    · rw [here, reported.reported] at known
      obtain rfl := Option.some.inj known
      simp [TaskState.isFailed] at notFailed
    · rcases reported.states id here with same | ⟨_, failed, _⟩
      · rw [← same, known]
      · unfold Failed at failed
        rw [known] at failed
        simp [notFailed] at failed
  exact wereBlocked.of_fewer reported.tasks (fun id known => unfailed known rfl)
    fun id known => unfailed known rfl

/-- Everything that the failure spreads to has failed. -/
theorem spread (reported : ReportedFailed taskId error before after) {id : Bytes}
    (path : Relation.TransGen before.Spreads id taskId) : after.Failed id := by
  have fails {id key : Bytes} (edge : before.Spreads id key)
      (started : key = taskId ∨ after.states key ≠ before.states key) :
      after.Failed id ∧ (id = taskId ∨ after.states id ≠ before.states id) := by
    obtain ⟨member, unsettled⟩ := edge
    have settled := reported.reached key started id member
    by_cases here : id = taskId
    · refine ⟨?_, Or.inl here⟩
      unfold Failed
      rw [here, reported.reported]
      rfl
    · have changed : after.states id ≠ before.states id := by
        intro same
        unfold Settled at settled
        rw [same] at settled
        exact unsettled settled
      rcases reported.states id here with same | ⟨_, failed, _⟩
      · exact absurd same changed
      · exact ⟨failed, Or.inr changed⟩
  suffices both : after.Failed id ∧ (id = taskId ∨ after.states id ≠ before.states id) from both.1
  induction path using Relation.TransGen.head_induction_on with
  | single edge => exact fails edge (Or.inl rfl)
  | head edge _ ih => exact fails edge ih.2

end ReportedFailed

end HubDag

end Rage
