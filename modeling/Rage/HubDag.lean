import Rage.TaskList

/-!
The task graph of the hub.  Reports of spokes move the states of the tasks; a completed task
unblocks those that depend on it, and a failed one fails all that need it.
-/

namespace Rage

inductive TaskState
  | pending
  | ready
  | dispatched (worker : Bytes)
  | completed
  | failed (error : Bytes)
  deriving DecidableEq

def TaskState.settled : TaskState → Bool
  | .completed => true
  | .failed _ => true
  | _ => false

def TaskState.isFailed : TaskState → Bool
  | .failed _ => true
  | _ => false

structure TaskNode where
  taskId : Bytes
  packageName : Bytes
  scriptName : Bytes
  command : Bytes
  packagePath : Path
  dependsOn : List Bytes
  deriving DecidableEq

/-- The order in which a hash set of dependents is walked. -/
structure HashOrder where
  arrange : Bytes → List Bytes → List Bytes
  perm : ∀ key dependents, (arrange key dependents).Perm dependents

instance : Inhabited HashOrder := ⟨⟨fun _ dependents => dependents, fun _ _ => .refl _⟩⟩

/-- `known` are the keys of `states`. -/
structure HubDag where
  tasks : Bytes → Option TaskNode
  states : Bytes → Option TaskState
  known : List Bytes
  rdeps : Bytes → List Bytes
  readyQueue : List Bytes

namespace HubDag

def insertReverse (rdeps : Bytes → List Bytes) (dep taskId : Bytes) : Bytes → List Bytes :=
  Function.update rdeps dep (if taskId ∈ rdeps dep then rdeps dep else rdeps dep ++ [taskId])

def reverseDeps (nodes : List TaskNode) : Bytes → List Bytes :=
  nodes.foldl (fun rdeps task =>
    task.dependsOn.foldl (fun rdeps dep => insertReverse rdeps dep task.taskId) rdeps) fun _ => []

def taskMap (nodes : List TaskNode) : Bytes → Option TaskNode :=
  nodes.foldl (fun tasks task => Function.update tasks task.taskId (some task)) fun _ => none

def initialState (task : TaskNode) : TaskState :=
  if task.dependsOn.isEmpty then .ready else .pending

def stateMap (nodes : List TaskNode) : Bytes → Option TaskState :=
  nodes.foldl (fun states task => Function.update states task.taskId (some (initialState task)))
    fun _ => none

def new (nodes : List TaskNode) : HubDag where
  tasks := taskMap nodes
  states := stateMap nodes
  known := (nodes.map TaskNode.taskId).dedup
  rdeps := reverseDeps nodes
  readyQueue := (nodes.filter (·.dependsOn.isEmpty)).map TaskNode.taskId

def insertState (dag : HubDag) (taskId : Bytes) (state : TaskState) : HubDag :=
  { dag with
    states := Function.update dag.states taskId (some state)
    known := if taskId ∈ dag.known then dag.known else dag.known ++ [taskId] }

def dispatchNext (dag : HubDag) (workerId : Bytes) : HubDag × Option TaskNode :=
  match dag.readyQueue with
  | [] => (dag, none)
  | taskId :: rest =>
      ({ dag.insertState taskId (.dispatched workerId) with readyQueue := rest }, dag.tasks taskId)

def allDone (dag : HubDag) (task : TaskNode) : Bool :=
  task.dependsOn.all fun dep => dag.states dep == some .completed

/-- One dependent of a completed task; the list is that of the tasks that are now ready. -/
def unblock (result : HubDag × List Bytes) (dependent : Bytes) : HubDag × List Bytes :=
  if result.1.states dependent = some .pending then
    match result.1.tasks dependent with
    | some task =>
        if result.1.allDone task then
          ({ result.1.insertState dependent .ready with
              readyQueue := result.1.readyQueue ++ [dependent] }, result.2 ++ [dependent])
        else result
    | none => result
  else result

def unblockDependents (dag : HubDag) (order : HashOrder) (completedTask : Bytes) :
    HubDag × List Bytes :=
  (order.arrange completedTask (dag.rdeps completedTask)).foldl unblock (dag, [])

def markComplete (dag : HubDag) (order : HashOrder) (taskId : Bytes) : HubDag × List Bytes :=
  (dag.insertState taskId .completed).unblockDependents order taskId

/-- The loop of `mark_failed`. -/
structure Cascade where
  dag : HubDag
  frontier : List Bytes
  newlyFailed : List Bytes

def dependencyFailed (current : Bytes) : TaskState :=
  .failed (utf8 "dependency " ++ current ++ utf8 " failed")

/-- One dependent of a failed task; those that are settled stay as they are. -/
def failDependent (current : Bytes) (cascade : Cascade) (dependent : Bytes) : Cascade :=
  if (cascade.dag.states dependent).any TaskState.settled then cascade
  else
    { dag := cascade.dag.insertState dependent (dependencyFailed current)
      frontier := cascade.frontier ++ [dependent]
      newlyFailed := cascade.newlyFailed ++ [dependent] }

def cascadeFailures (order : HashOrder) : Nat → Cascade → Cascade
  | 0, cascade => cascade
  | fuel + 1, cascade =>
      match cascade.frontier with
      | [] => cascade
      | current :: rest =>
          cascadeFailures order fuel
            ((order.arrange current (cascade.dag.rdeps current)).foldl (failDependent current)
              { cascade with frontier := rest })

/-- Every turn of the loop takes one task from the frontier, and each comes there once. -/
def markFailed (dag : HubDag) (order : HashOrder) (taskId error : Bytes) : HubDag × List Bytes :=
  let cascade := cascadeFailures order (dag.known.length + 1)
    ⟨dag.insertState taskId (.failed error), [taskId], []⟩
  ({ cascade.dag with
      readyQueue := cascade.dag.readyQueue.filter fun id =>
        !(cascade.dag.states id).any TaskState.isFailed },
    cascade.newlyFailed)

def isDone (dag : HubDag) : Bool :=
  dag.known.all fun id => (dag.states id).all TaskState.settled

/-! What the maps of a new graph hold. -/

theorem mem_insertReverse {rdeps : Bytes → List Bytes} {dep taskId key dependent : Bytes} :
    dependent ∈ insertReverse rdeps dep taskId key ↔
      dependent ∈ rdeps key ∨ key = dep ∧ dependent = taskId := by
  unfold insertReverse
  by_cases here : key = dep
  · subst here
    rw [Function.update_self]
    split
    · rename_i member
      constructor
      · exact Or.inl
      · rintro (known | ⟨_, rfl⟩)
        · exact known
        · exact member
    · simp
  · rw [Function.update_of_ne here]
    simp [here]

theorem mem_foldl_insertReverse {deps : List Bytes} {rdeps : Bytes → List Bytes}
    {taskId key dependent : Bytes} :
    dependent ∈ deps.foldl (fun rdeps dep => insertReverse rdeps dep taskId) rdeps key ↔
      dependent ∈ rdeps key ∨ key ∈ deps ∧ dependent = taskId := by
  induction deps generalizing rdeps with
  | nil => simp
  | cons dep rest ih =>
      rw [List.foldl_cons, ih, mem_insertReverse, List.mem_cons]
      constructor
      · rintro ((known | ⟨isDep, isTask⟩) | ⟨later, isTask⟩)
        · exact Or.inl known
        · exact Or.inr ⟨Or.inl isDep, isTask⟩
        · exact Or.inr ⟨Or.inr later, isTask⟩
      · rintro (known | ⟨isDep | later, isTask⟩)
        · exact Or.inl (Or.inl known)
        · exact Or.inl (Or.inr ⟨isDep, isTask⟩)
        · exact Or.inr ⟨later, isTask⟩

theorem mem_reverseDeps {nodes : List TaskNode} {key dependent : Bytes} :
    dependent ∈ reverseDeps nodes key ↔
      ∃ task ∈ nodes, task.taskId = dependent ∧ key ∈ task.dependsOn := by
  induction nodes using List.reverseRecOn with
  | nil => simp [reverseDeps]
  | append_singleton rest task ih =>
      rw [reverseDeps, List.foldl_append, List.foldl_cons, List.foldl_nil,
        mem_foldl_insertReverse, ← reverseDeps, ih]
      constructor
      · rintro (⟨other, member, isTask, listed⟩ | ⟨listed, rfl⟩)
        · exact ⟨other, List.mem_append_left _ member, isTask, listed⟩
        · exact ⟨task, by simp, rfl, listed⟩
      · rintro ⟨other, member, isTask, listed⟩
        rcases List.mem_append.mp member with earlier | isLast
        · exact Or.inl ⟨other, earlier, isTask, listed⟩
        · obtain rfl := List.mem_singleton.mp isLast
          exact Or.inr ⟨listed, isTask.symm⟩

theorem stateMap_eq (nodes : List TaskNode) (id : Bytes) :
    stateMap nodes id = (taskMap nodes id).map initialState := by
  induction nodes using List.reverseRecOn with
  | nil => rfl
  | append_singleton rest task ih =>
      simp only [stateMap, taskMap, List.foldl_append, List.foldl_cons, List.foldl_nil] at ih ⊢
      by_cases here : id = task.taskId
      · simp [here]
      · rw [Function.update_of_ne here, Function.update_of_ne here, ih]

theorem taskMap_spec {nodes : List TaskNode} {id : Bytes} {task : TaskNode}
    (known : taskMap nodes id = some task) : task ∈ nodes ∧ task.taskId = id :=
  Overlay.keyed_spec known

theorem taskMap_isSome {nodes : List TaskNode} {task : TaskNode} (member : task ∈ nodes) :
    (taskMap nodes task.taskId).isSome = true := by
  have isKept : ∃ kept, taskMap nodes task.taskId = some kept := Overlay.keyed_isSome member
  exact Option.isSome_iff_exists.mpr isKept

end HubDag

end Rage
