import Rage.HubReports
import Rage.Machine

/-!
Runs of the hub's graph under reports with any task ids, in any order.  The Complete call checks
neither the task nor its state, so a report can be late, repeated or about a task that was never
handed out.
-/

namespace Rage

namespace HubDag

theorem dispatchNext_cases (dag : HubDag) (worker : Bytes) :
    dag.readyQueue = [] ∧ dag.dispatchNext worker = (dag, none) ∨
    ∃ taskId rest, dag.readyQueue = taskId :: rest ∧
      dag.dispatchNext worker =
        ({ dag.insertState taskId (.dispatched worker) with readyQueue := rest },
          dag.tasks taskId) := by
  unfold dispatchNext
  cases dag.readyQueue with
  | nil => exact Or.inl ⟨rfl, rfl⟩
  | cons taskId rest => exact Or.inr ⟨taskId, rest, rfl, rfl⟩

theorem dispatchNext_states {dag : HubDag} {taskId : Bytes} {rest : List Bytes}
    (isQueue : dag.readyQueue = taskId :: rest) (worker id : Bytes) :
    (dag.dispatchNext worker).1.states id =
      if id = taskId then some (.dispatched worker) else dag.states id := by
  unfold dispatchNext
  rw [isQueue]
  exact insertState_states _ _ _ _

theorem dispatchNext_tasks (dag : HubDag) (worker : Bytes) :
    (dag.dispatchNext worker).1.tasks = dag.tasks := by
  unfold dispatchNext
  split
  · rfl
  · rfl

theorem dispatchNext_blocked {dag : HubDag} (blocked : dag.Blocked) (worker : Bytes) :
    (dag.dispatchNext worker).1.Blocked := by
  cases isQueue : dag.readyQueue with
  | nil =>
      unfold dispatchNext
      rw [isQueue]
      exact blocked
  | cons taskId rest =>
      apply blocked.of_fewer (dag.dispatchNext_tasks worker)
      · intro id pending
        rw [dispatchNext_states isQueue] at pending
        split at pending
        · simp at pending
        · exact pending
      · intro id completed
        rw [dispatchNext_states isQueue] at completed
        split at completed
        · simp at completed
        · exact completed

/-- A report that overwrites no settled state, and that leaves no stale entry in the queue. -/
def CompletionFits (dag : HubDag) (taskId : Bytes) : Prop :=
  dag.states taskId ≠ some .ready ∧ ¬ dag.Failed taskId

def FailureFits (dag : HubDag) (taskId error : Bytes) : Prop :=
  dag.states taskId ≠ some .completed ∧
    (dag.Failed taskId → dag.states taskId = some (.failed error))

/-- Every settled task of `before` stands as it is in `after`. -/
def Keeps (before after : HubDag) : Prop :=
  ∀ id, before.Settled id → after.states id = before.states id

/-- The queue holds the ready tasks, each once, and their dependencies are completed. -/
structure Orderly (dag : HubDag) : Prop where
  keyed : dag.Keyed
  nodup : dag.readyQueue.Nodup
  queued : ∀ id, id ∈ dag.readyQueue ↔ dag.states id = some .ready
  enabled : ∀ id, dag.states id = some .ready →
    ∃ task, dag.tasks id = some task ∧ dag.allDone task = true
  ids : ∀ id task, dag.tasks id = some task → task.taskId = id

theorem Keeps.completed {before after : HubDag} (keeps : Keeps before after) (id : Bytes)
    (completed : before.states id = some .completed) : after.states id = some .completed := by
  have settled : before.Settled id := by
    unfold Settled
    rw [completed]
    rfl
  rw [keeps id settled, completed]

theorem Keeps.trans {first second third : HubDag} (one : Keeps first second)
    (two : Keeps second third) : Keeps first third := by
  intro id settled
  have here : second.Settled id := by
    unfold Settled
    rw [one id settled]
    exact settled
  rw [two id here, one id settled]

section Steps

variable {dag : HubDag}

theorem dispatch_keeps (orderly : dag.Orderly) (worker : Bytes) :
    Keeps dag (dag.dispatchNext worker).1 := by
  intro id settled
  rcases dag.dispatchNext_cases worker with ⟨_, same⟩ | ⟨taskId, rest, isQueue, moved⟩
  · rw [same]
  · rw [moved]
    have ready : dag.states taskId = some .ready := by
      apply (orderly.queued taskId).mp
      rw [isQueue]
      exact List.mem_cons_self
    have other : id ≠ taskId := by
      rintro rfl
      unfold Settled at settled
      rw [ready] at settled
      simp [TaskState.settled] at settled
    rw [insertState_states, if_neg other]

theorem complete_keeps (order : HashOrder) {taskId : Bytes} (fits : dag.CompletionFits taskId) :
    Keeps dag (dag.markComplete order taskId).1 := by
  have unblocked := dag.markComplete_unblocked order taskId
  intro id settled
  rw [unblocked.states]
  split
  · rename_i entered
    unfold Settled at settled
    rw [(markComplete_entered entered).2] at settled
    simp [TaskState.settled] at settled
  · rw [insertState_states]
    split
    · rename_i here
      subst here
      unfold Settled at settled
      have notFailed := fits.2
      unfold Failed at notFailed
      cases known : dag.states id with
      | none => simp [known] at settled
      | some state =>
          cases state with
          | completed => rfl
          | failed error => simp [known, TaskState.isFailed] at notFailed
          | _ => simp [known, TaskState.settled] at settled
    · rfl

theorem fail_keeps (keyed : dag.Keyed) (order : HashOrder) {taskId error : Bytes}
    (fits : dag.FailureFits taskId error) : Keeps dag (dag.markFailed order taskId error).1 := by
  have reported := markFailed_reported keyed order taskId error
  intro id settled
  by_cases here : id = taskId
  · subst here
    rw [reported.reported]
    cases known : dag.states id with
    | none => simp [Settled, known] at settled
    | some state =>
        cases state with
        | completed => exact absurd known fits.1
        | failed text =>
            have isFailed : dag.Failed id := by
              unfold Failed
              rw [known]
              rfl
            rw [← known, fits.2 isFailed]
        | _ => simp [Settled, known, TaskState.settled] at settled
  · rcases reported.needs here with same | ⟨unsettled, _⟩
    · exact same
    · exact absurd settled unsettled

theorem Orderly.dispatch (orderly : dag.Orderly) (worker : Bytes) :
    (dag.dispatchNext worker).1.Orderly := by
  have keeps := dispatch_keeps orderly worker
  rcases dag.dispatchNext_cases worker with ⟨_, same⟩ | ⟨taskId, rest, isQueue, moved⟩
  · rw [same]
    exact orderly
  · rw [moved] at keeps ⊢
    have nodup := orderly.nodup
    rw [isQueue, List.nodup_cons] at nodup
    have whole := orderly.keyed.insertState taskId (.dispatched worker)
    exact {
      keyed := ⟨whole.keys, whole.dependents⟩
      nodup := nodup.2
      queued := by
        intro id
        have listed := orderly.queued id
        rw [isQueue, List.mem_cons] at listed
        rw [insertState_states]
        by_cases here : id = taskId
        · subst here
          simp [nodup.1]
        · simpa [here] using listed
      enabled := by
        intro id ready
        rw [insertState_states] at ready
        by_cases here : id = taskId
        · simp [here] at ready
        · rw [if_neg here] at ready
          obtain ⟨task, known, done⟩ := orderly.enabled id ready
          exact ⟨task, known, allDone_mono keeps.completed done⟩
      ids := orderly.ids }

theorem Orderly.complete (orderly : dag.Orderly) (order : HashOrder) {taskId : Bytes}
    (fits : dag.CompletionFits taskId) : (dag.markComplete order taskId).1.Orderly := by
  have keeps := complete_keeps order fits
  have unblocked := dag.markComplete_unblocked order taskId
  have notReady {id : Bytes} :
      (dag.insertState taskId .completed).states id = some .ready ↔
        dag.states id = some .ready := by
    rw [insertState_states]
    split
    · rename_i here
      subst here
      simp [fits.1]
    · rfl
  exact {
    keyed := unblocked.keyed (orderly.keyed.insertState taskId .completed)
    nodup := by
      rw [unblocked.queue, List.nodup_append]
      refine ⟨orderly.nodup, unblocked.nodup, ?_⟩
      intro id queued other entered same
      subst same
      have pending := (unblocked.entered id entered).1
      have ready := notReady.mpr ((orderly.queued id).mp queued)
      rw [pending] at ready
      simp at ready
    queued := by
      intro id
      rw [unblocked.queue, List.mem_append, unblocked.states]
      by_cases entered : id ∈ (dag.markComplete order taskId).2
      · simp [entered]
      · rw [if_neg entered, notReady, ← orderly.queued]
        simp [entered, insertState]
    enabled := by
      intro id ready
      rw [unblocked.states] at ready
      by_cases entered : id ∈ (dag.markComplete order taskId).2
      · obtain ⟨_, task, known, done⟩ := unblocked.entered id entered
        refine ⟨task, ?_, ?_⟩
        · rw [unblocked.tasks]
          exact known
        · rw [unblocked.allDone_eq]
          exact done
      · rw [if_neg entered] at ready
        obtain ⟨task, known, done⟩ := orderly.enabled id (notReady.mp ready)
        refine ⟨task, ?_, allDone_mono keeps.completed done⟩
        rw [unblocked.tasks]
        exact known
    ids := by
      intro id task known
      rw [unblocked.tasks] at known
      exact orderly.ids id task known }

theorem Orderly.fail (orderly : dag.Orderly) (order : HashOrder) {taskId error : Bytes}
    (fits : dag.FailureFits taskId error) : (dag.markFailed order taskId error).1.Orderly := by
  have keeps := fail_keeps orderly.keyed order fits
  have reported := markFailed_reported orderly.keyed order taskId error
  exact {
    keyed := reported.keyed
    nodup := by
      rw [reported.queue]
      exact orderly.nodup.filter _
    queued := by
      intro id
      rw [reported.queue, List.mem_filter, orderly.queued]
      constructor
      · rintro ⟨ready, notFailed⟩
        rw [reported.stays, ready]
        simpa [Failed] using notFailed
      · intro ready
        refine ⟨reported.was_state ready rfl, ?_⟩
        rw [ready]
        rfl
    enabled := by
      intro id ready
      obtain ⟨task, known, done⟩ := orderly.enabled id (reported.was_state ready rfl)
      refine ⟨task, ?_, allDone_mono keeps.completed done⟩
      rw [reported.tasks]
      exact known
    ids := by
      intro id task known
      rw [reported.tasks] at known
      exact orderly.ids id task known }

end Steps

/-! A new graph is in order when a task without dependencies is listed once as such, and nowhere
later in another way: the queue takes every such listing, and the map the last one of an id. -/

structure ListedOnce (nodes : List TaskNode) : Prop where
  once : ((nodes.filter (·.dependsOn.isEmpty)).map TaskNode.taskId).Nodup
  last : ∀ task ∈ nodes, task.dependsOn = [] →
    ∀ kept, taskMap nodes task.taskId = some kept → kept.dependsOn = []

theorem initialState_ready {task : TaskNode} : initialState task = .ready ↔ task.dependsOn = [] := by
  unfold initialState
  split
  · rename_i empty
    simpa using empty
  · rename_i some_
    simpa using some_

theorem initialState_cases (task : TaskNode) :
    initialState task = .ready ∧ task.dependsOn = [] ∨
      initialState task = .pending ∧ task.dependsOn ≠ [] := by
  by_cases free : task.dependsOn = []
  · exact Or.inl ⟨initialState_ready.mpr free, free⟩
  · refine Or.inr ⟨?_, free⟩
    unfold initialState
    rw [if_neg]
    simpa using free

theorem new_states {nodes : List TaskNode} {id : Bytes} {state : TaskState}
    (known : (new nodes).states id = some state) :
    ∃ task, taskMap nodes id = some task ∧ initialState task = state := by
  simp only [new, stateMap_eq] at known
  exact Option.map_eq_some_iff.mp known

theorem new_open {nodes : List TaskNode} {id : Bytes} {state : TaskState}
    (known : (new nodes).states id = some state) : state = .ready ∨ state = .pending := by
  obtain ⟨task, _, rfl⟩ := new_states known
  rcases initialState_cases task with ⟨ready, _⟩ | ⟨pending, _⟩
  · exact Or.inl ready
  · exact Or.inr pending

theorem new_unfailed (nodes : List TaskNode) (id : Bytes) : ¬ (new nodes).Failed id := by
  unfold Failed
  cases known : (new nodes).states id with
  | none => simp
  | some state =>
      rcases new_open known with rfl | rfl
      · simp [TaskState.isFailed]
      · simp [TaskState.isFailed]

theorem new_blocked (nodes : List TaskNode) : (new nodes).Blocked := by
  intro id task pending isTask
  obtain ⟨kept, isKept, isPending⟩ := new_states pending
  have isTask : taskMap nodes id = some task := isTask
  obtain rfl : task = kept := Option.some.inj (isTask.symm.trans isKept)
  rcases initialState_cases task with ⟨ready, _⟩ | ⟨_, some_⟩
  · simp [ready] at isPending
  · obtain ⟨dep, listed⟩ := List.exists_mem_of_ne_nil _ some_
    rw [Bool.eq_false_iff]
    intro done
    rcases new_open (allDone_iff.mp done dep listed) with isState | isState
    · simp at isState
    · simp at isState

theorem orderly_new {nodes : List TaskNode} (listed : ListedOnce nodes) : (new nodes).Orderly where
  keyed := keyed_new nodes
  nodup := listed.once
  queued := by
    intro id
    simp only [new, stateMap_eq, List.mem_map, List.mem_filter, List.isEmpty_iff,
      Option.map_eq_some_iff, initialState_ready]
    constructor
    · rintro ⟨task, ⟨member, free⟩, rfl⟩
      obtain ⟨kept, known⟩ := Option.isSome_iff_exists.mp (taskMap_isSome member)
      exact ⟨kept, known, listed.last task member free kept known⟩
    · rintro ⟨task, known, free⟩
      obtain ⟨member, isTask⟩ := taskMap_spec known
      exact ⟨task, ⟨member, free⟩, isTask⟩
  enabled := by
    intro id ready
    simp only [new, stateMap_eq, Option.map_eq_some_iff, initialState_ready] at ready
    obtain ⟨task, known, free⟩ := ready
    refine ⟨task, known, ?_⟩
    rw [allDone_iff, free]
    simp
  ids := fun _ _ known => (taskMap_spec known).2

end HubDag

/-- The graph, and the calls on it so far: what `dispatch_next` has returned, and which tasks were
reported with which error. -/
structure HubRun where
  dag : HubDag
  returned : List TaskNode
  reported : List (Bytes × Option Bytes)

inductive HubEvent
  | dispatch (worker : Bytes)
  | complete (order : HashOrder) (taskId : Bytes)
  | fail (order : HashOrder) (taskId error : Bytes)

namespace HubRun

open HubDag

def start (nodes : List TaskNode) : HubRun := ⟨.new nodes, [], []⟩

def step (run : HubRun) : HubEvent → Option HubRun
  | .dispatch worker =>
      some { run with
        dag := (run.dag.dispatchNext worker).1
        returned := run.returned ++ (run.dag.dispatchNext worker).2.toList }
  | .complete order taskId =>
      some { run with
        dag := (run.dag.markComplete order taskId).1
        reported := run.reported ++ [(taskId, none)] }
  | .fail order taskId error =>
      some { run with
        dag := (run.dag.markFailed order taskId error).1
        reported := run.reported ++ [(taskId, some error)] }

def ReportFits (run : HubRun) : HubEvent → Prop
  | .dispatch _ => True
  | .complete _ taskId => run.dag.CompletionFits taskId
  | .fail _ taskId error => run.dag.FailureFits taskId error

instance (run : HubRun) (event : HubEvent) : Decidable (run.ReportFits event) :=
  match event with
  | .dispatch _ => inferInstanceAs (Decidable True)
  | .complete _ taskId => inferInstanceAs (Decidable (run.dag.states taskId ≠ some .ready ∧
      ¬ (run.dag.states taskId).any TaskState.isFailed = true))
  | .fail _ taskId error => inferInstanceAs (Decidable (run.dag.states taskId ≠ some .completed ∧
      ((run.dag.states taskId).any TaskState.isFailed = true →
        run.dag.states taskId = some (.failed error))))

/-- What is handed out is no longer in the queue, and does not come back. -/
structure HandedOut (run : HubRun) : Prop where
  orderly : run.dag.Orderly
  once : (run.returned.map TaskNode.taskId).Nodup
  left : ∀ task ∈ run.returned, ∃ state, run.dag.states task.taskId = some state ∧
    state ≠ .pending ∧ state ≠ .ready

theorem handedOut_start {nodes : List TaskNode} (listed : ListedOnce nodes) :
    (start nodes).HandedOut where
  orderly := orderly_new listed
  once := List.nodup_nil
  left := by simp [start]

theorem step_keeps {run next : HubRun} {event : HubEvent} (orderly : run.dag.Orderly)
    (fits : run.ReportFits event) (taken : run.step event = some next) :
    Keeps run.dag next.dag := by
  cases event with
  | dispatch worker =>
      obtain rfl := Option.some.inj taken
      exact dispatch_keeps orderly worker
  | complete order taskId =>
      obtain rfl := Option.some.inj taken
      exact complete_keeps order fits
  | fail order taskId error =>
      obtain rfl := Option.some.inj taken
      exact fail_keeps orderly.keyed order fits

/-- A report never puts a task back. -/
theorem left_of_complete {dag : HubDag} (order : HashOrder) {taskId id : Bytes}
    (left : ∃ state, dag.states id = some state ∧ state ≠ .pending ∧ state ≠ .ready) :
    ∃ state, (dag.markComplete order taskId).1.states id = some state ∧
      state ≠ .pending ∧ state ≠ .ready := by
  have unblocked := dag.markComplete_unblocked order taskId
  have inserted : ∃ state, (dag.insertState taskId .completed).states id = some state ∧
      state ≠ .pending ∧ state ≠ .ready := by
    rw [insertState_states]
    split
    · exact ⟨.completed, rfl, by simp, by simp⟩
    · exact left
  have notEntered : id ∉ (dag.markComplete order taskId).2 := by
    intro entered
    obtain ⟨state, known, notPending, _⟩ := inserted
    rw [(unblocked.entered id entered).1] at known
    exact notPending (Option.some.inj known).symm
  rw [unblocked.states, if_neg notEntered]
  exact inserted

theorem left_of_fail {dag : HubDag} (keyed : dag.Keyed) (order : HashOrder)
    {taskId error id : Bytes}
    (left : ∃ state, dag.states id = some state ∧ state ≠ .pending ∧ state ≠ .ready) :
    ∃ state, (dag.markFailed order taskId error).1.states id = some state ∧
      state ≠ .pending ∧ state ≠ .ready := by
  have reported := markFailed_reported keyed order taskId error
  by_cases here : id = taskId
  · rw [here, reported.reported]
    exact ⟨_, rfl, by simp, by simp⟩
  · rcases reported.needs here with same | ⟨_, failed, _⟩
    · rw [same]
      exact left
    · unfold Failed at failed
      cases known : (dag.markFailed order taskId error).1.states id with
      | none => simp [known] at failed
      | some state =>
          refine ⟨state, rfl, ?_, ?_⟩
          · rintro rfl
            simp [known, TaskState.isFailed] at failed
          · rintro rfl
            simp [known, TaskState.isFailed] at failed

theorem HandedOut.step {run next : HubRun} {event : HubEvent} (handed : run.HandedOut)
    (fits : run.ReportFits event) (taken : run.step event = some next) : next.HandedOut := by
  cases event with
  | dispatch worker =>
      obtain rfl := Option.some.inj taken
      have orderly := handed.orderly.dispatch worker
      rcases run.dag.dispatchNext_cases worker with ⟨_, same⟩ | ⟨taskId, rest, isQueue, moved⟩
      · simp only [same, Option.toList_none, List.append_nil]
        exact ⟨handed.orderly, handed.once, handed.left⟩
      · have ready : run.dag.states taskId = some .ready := by
          apply (handed.orderly.queued taskId).mp
          rw [isQueue]
          exact List.mem_cons_self
        obtain ⟨task, known, _⟩ := handed.orderly.enabled taskId ready
        have isTask := handed.orderly.ids taskId task known
        have fresh : ∀ earlier ∈ run.returned, earlier.taskId ≠ taskId := by
          intro earlier member same
          obtain ⟨state, isState, _, notReady⟩ := handed.left earlier member
          rw [same, ready] at isState
          exact notReady (Option.some.inj isState).symm
        refine ⟨orderly, ?_, ?_⟩
        · simp only [moved, known, Option.toList_some, List.map_append, List.map_cons,
            List.map_nil]
          rw [List.nodup_append]
          refine ⟨handed.once, List.nodup_singleton _, ?_⟩
          intro id earlier other isLast same
          obtain ⟨before, member, rfl⟩ := List.mem_map.mp earlier
          obtain rfl := List.mem_singleton.mp isLast
          exact fresh before member (same.trans isTask)
        · intro other member
          simp only [moved, known, Option.toList_some] at member ⊢
          rw [insertState_states]
          rcases List.mem_append.mp member with earlier | isLast
          · rw [if_neg (fresh other earlier)]
            exact handed.left other earlier
          · obtain rfl := List.mem_singleton.mp isLast
            rw [if_pos isTask]
            exact ⟨_, rfl, by simp, by simp⟩
  | complete order taskId =>
      obtain rfl := Option.some.inj taken
      refine ⟨handed.orderly.complete order fits, handed.once, ?_⟩
      intro task member
      exact left_of_complete order (handed.left task member)
  | fail order taskId error =>
      obtain rfl := Option.some.inj taken
      refine ⟨handed.orderly.fail order fits, handed.once, ?_⟩
      intro task member
      exact left_of_fail handed.orderly.keyed order (handed.left task member)

theorem HandedOut.reachable {run later : HubRun} (handed : run.HandedOut)
    (reached : Machine.Reachable HubRun.step ReportFits run later) :
    later.HandedOut ∧ Keeps run.dag later.dag := by
  induction reached with
  | refl => exact ⟨handed, fun _ _ => rfl⟩
  | tail event _ fits taken ih =>
      exact ⟨ih.1.step fits taken, ih.2.trans (step_keeps ih.1.orderly fits taken)⟩

theorem HandedOut.dispatched {run : HubRun} (handed : run.HandedOut) {worker : Bytes}
    {task : TaskNode} (given : (run.dag.dispatchNext worker).2 = some task) :
    ∀ dep ∈ task.dependsOn, run.dag.states dep = some .completed := by
  rcases run.dag.dispatchNext_cases worker with ⟨_, same⟩ | ⟨taskId, rest, isQueue, moved⟩
  · simp [same] at given
  · rw [moved] at given
    have ready : run.dag.states taskId = some .ready := by
      apply (handed.orderly.queued taskId).mp
      rw [isQueue]
      exact List.mem_cons_self
    obtain ⟨known, isKnown, done⟩ := handed.orderly.enabled taskId ready
    obtain rfl : known = task := Option.some.inj (isKnown.symm.trans given)
    exact allDone_iff.mp done

end HubRun

/-- Runs whose reports neither overwrite a settled task nor complete one that is in the queue. -/
theorem hub_reports_safe (nodes : List TaskNode) (listed : HubDag.ListedOnce nodes) (run : HubRun)
    (reached : Machine.Reachable HubRun.step HubRun.ReportFits (.start nodes) run) :
    (run.returned.map TaskNode.taskId).Nodup ∧
    (∀ worker task, (run.dag.dispatchNext worker).2 = some task →
      ∀ dep ∈ task.dependsOn, run.dag.states dep = some .completed) ∧
    ∀ later, Machine.Reachable HubRun.step HubRun.ReportFits run later →
      ∀ id state, run.dag.states id = some state → state.settled = true →
        later.dag.states id = some state := by
  obtain ⟨handed, _⟩ := (HubRun.handedOut_start listed).reachable reached
  refine ⟨handed.once, fun worker task given => handed.dispatched given, ?_⟩
  intro later reachedLater id state known settled
  obtain ⟨_, keeps⟩ := handed.reachable reachedLater
  rw [keeps id, known]
  unfold HubDag.Settled
  rw [known]
  exact settled

namespace HubChain

def order : HashOrder := default

def task (name : String) (dependsOn : List String) : TaskNode where
  taskId := utf8 (name ++ "#build")
  packageName := utf8 name
  scriptName := utf8 "build"
  command := utf8 "make"
  packagePath := []
  dependsOn := dependsOn.map fun dep => utf8 (dep ++ "#build")

/-- `app` needs `lib`, and `lib` needs `core`. -/
def nodes : List TaskNode := [task "core" [], task "lib" ["core"], task "app" ["lib"]]

theorem listedOnce : HubDag.ListedOnce nodes where
  once := by decide +kernel
  last := by decide +kernel

end HubChain

/-- A late report of the first task, an unasked one of the last, and a failure in between. -/
theorem hub_reports_safe_chain :
    ∃ run, Machine.run HubRun.step (.start HubChain.nodes)
        [.dispatch (utf8 "w1"), .complete HubChain.order (utf8 "core#build"),
          .complete HubChain.order (utf8 "core#build"),
          .complete HubChain.order (utf8 "app#build"), .dispatch (utf8 "w2"),
          .fail HubChain.order (utf8 "lib#build") (utf8 "exit 1")] = some run ∧
      (run.returned.map TaskNode.taskId).Nodup ∧
      ∀ later, Machine.Reachable HubRun.step HubRun.ReportFits run later →
        later.dag.states (utf8 "app#build") = some .completed := by
  obtain ⟨run, ran, completed⟩ : ∃ run,
      Machine.run (Machine.guarded HubRun.ReportFits HubRun.step) (.start HubChain.nodes)
        [.dispatch (utf8 "w1"), .complete HubChain.order (utf8 "core#build"),
          .complete HubChain.order (utf8 "core#build"),
          .complete HubChain.order (utf8 "app#build"), .dispatch (utf8 "w2"),
          .fail HubChain.order (utf8 "lib#build") (utf8 "exit 1")] = some run ∧
      run.dag.states (utf8 "app#build") = some .completed := by
    apply Option.map_eq_some_iff.mp
    decide +kernel
  obtain ⟨once, _, keeps⟩ :=
    hub_reports_safe HubChain.nodes HubChain.listedOnce run (Machine.guarded_reachable ran)
  refine ⟨run, Machine.run_of_guarded ran, once, ?_⟩
  intro later reached
  exact keeps later reached _ _ completed rfl

/-- A completion report about a task in the queue leaves it there: it is handed out all the same,
and is no longer completed. -/
theorem completed_task_dispatched :
    ∃ before after, Machine.run HubRun.step (.start HubChain.nodes)
        [.complete HubChain.order (utf8 "core#build")] = some before ∧
      before.dag.states (utf8 "core#build") = some .completed ∧
      before.step (.dispatch (utf8 "w1")) = some after ∧
      after.dag.states (utf8 "core#build") = some (.dispatched (utf8 "w1")) := by
  refine ⟨_, _, rfl, ?_, rfl, ?_⟩
  · decide +kernel
  · decide +kernel

end Rage
