import Rage.Coordinator

/-!
The spokes of a hub and what lies between them: streams that carry items, and calls of Complete.
A task is dispatched before its item is delivered, the hub keeps no connection state, and a spoke
ignores the outcome of its Complete call.
-/

namespace Rage

inductive SpokePhase
  | waiting
  | executing (node : TaskNode)
  | reporting
  | dead
  deriving DecidableEq

/-- A stream of the hub: `up` as long as its connection stands, `polled` as long as the hub takes
turns of it; `buffer` are the items that the spoke has not taken yet. -/
structure Link where
  spoke : Nat
  up : Bool
  polled : Bool
  buffer : List TaskNode
  deriving DecidableEq

/-- `current` is the last stream of a spoke, and `inFlight` are the calls of Complete that are under
way, with the spokes that wait for them. -/
structure SpokeNet where
  workers : Nat → Bytes
  dag : HubDag
  links : Nat → Option Link
  current : Nat → Option Nat
  phase : Nat → SpokePhase
  inFlight : List (Nat × CompletionReport)

inductive SpokeEvent
  | connect (index spoke : Nat) (up : Bool)
  | poll (index : Nat)
  | dropStream (index : Nat)
  | receive (index : Nat)
  | finish (spoke : Nat) (success : Bool) (stderrTail : Bytes)
  | arrive (spoke : Nat) (report : CompletionReport) (order : HashOrder)
  | lose (spoke : Nat) (report : CompletionReport)
  | disconnect (index : Nat)
  | crash (spoke : Nat)

namespace SpokeNet

open HubDag

def start (workers : Nat → Bytes) (nodes : List TaskNode) : SpokeNet where
  workers := workers
  dag := .new nodes
  links := fun _ => none
  current := fun _ => none
  phase := fun _ => .waiting
  inFlight := []

def setLink (net : SpokeNet) (index : Nat) (link : Link) : SpokeNet :=
  { net with links := Function.update net.links index (some link) }

/-- The connection is gone, and with it what the spoke has not taken. -/
def Link.cut (link : Link) : Link := { link with up := false, buffer := [] }

/-- A spoke goes on when its call returns, with an answer or an error. -/
def answered (net : SpokeNet) (spoke : Nat) : SpokeNet :=
  if net.phase spoke = .reporting then
    { net with phase := Function.update net.phase spoke .waiting }
  else net

/-- A turn of a stream, as the hub takes it; an item for a broken connection is lost. -/
def turn (net : SpokeNet) (index : Nat) (link : Link) : SpokeNet :=
  if net.dag.isDone then net.setLink index { link with polled := false }
  else
    let next := net.dag.dispatchNext (net.workers link.spoke)
    { net.setLink index
        { link with buffer := if link.up then link.buffer ++ next.2.toList else link.buffer } with
      dag := next.1 }

/-- A spoke that does nothing subscribes when it has no connection; the hub may take turns of its
old streams still. -/
def step (net : SpokeNet) : SpokeEvent → Option SpokeNet
  | .connect index spoke up =>
      if net.links index = none ∧ net.phase spoke = .waiting ∧
          ∀ last ∈ net.current spoke, ∀ link ∈ net.links last, link.up = false then
        some { net.setLink index ⟨spoke, up, true, []⟩ with
          current := Function.update net.current spoke (some index) }
      else none
  | .poll index =>
      match net.links index with
      | some link => if link.polled then some (net.turn index link) else none
      | none => none
  | .dropStream index =>
      (net.links index).map fun link => net.setLink index { link with polled := false }
  | .receive index =>
      match net.links index with
      | some link =>
          match link.buffer with
          | node :: rest =>
              if link.up ∧ net.phase link.spoke = .waiting then
                some { net.setLink index { link with buffer := rest } with
                  phase := Function.update net.phase link.spoke (.executing node) }
              else none
          | [] => none
      | none => none
  | .finish spoke success stderrTail =>
      match net.phase spoke with
      | .executing node =>
          some { net with
            phase := Function.update net.phase spoke .reporting
            inFlight := net.inFlight ++
              [(spoke, ⟨node.taskId, net.workers spoke, success, stderrTail⟩)] }
      | _ => none
  | .arrive spoke report order =>
      if (spoke, report) ∈ net.inFlight then
        some { net.answered spoke with
          dag := (Coordinator.complete net.dag order report).1
          inFlight := net.inFlight.erase (spoke, report) }
      else none
  | .lose spoke report =>
      if (spoke, report) ∈ net.inFlight then
        some { net.answered spoke with inFlight := net.inFlight.erase (spoke, report) }
      else none
  | .disconnect index =>
      (net.links index).map fun link => net.setLink index (Link.cut link)
  | .crash spoke =>
      some { net with
        links := fun index => (net.links index).map fun link =>
          if link.spoke = spoke then Link.cut link else link
        phase := Function.update net.phase spoke .dead }

/-! Where an item of a task can be. -/

/-- The item is on its way over a connection that stands, or executed at its end. -/
def HeldBy (net : SpokeNet) (index : Nat) (id worker : Bytes) : Prop :=
  ∃ link, net.links index = some link ∧ link.up = true ∧ net.workers link.spoke = worker ∧
    ((∃ node ∈ link.buffer, node.taskId = id) ∨
      ∃ node, net.phase link.spoke = .executing node ∧ node.taskId = id)

def Reported (inFlight : List (Nat × CompletionReport)) (id worker : Bytes) : Prop :=
  ∃ entry ∈ inFlight, entry.2.taskId = id ∧ entry.2.workerId = worker

/-- The task is with a connected spoke of its worker, or its report is under way, or it is in the
queue again. -/
def Placed (net : SpokeNet) (id worker : Bytes) : Prop :=
  (∃ index, net.HeldBy index id worker) ∨ Reported net.inFlight id worker ∨
    id ∈ net.dag.readyQueue

def Covered (net : SpokeNet) : Prop :=
  ∀ id worker, net.dag.states id = some (.dispatched worker) → net.Placed id worker

/-- When nothing is lost.  A connection that breaks, a spoke that crashes and a report that gets
lost take no item with them that is not in another place too, and the hub hands out nothing over a
broken connection. -/
def Fits (net : SpokeNet) : SpokeEvent → Prop
  | .poll index => ∀ link, net.links index = some link → link.up = false →
      net.dag.isDone = false → ∀ id rest, net.dag.readyQueue = id :: rest →
        (∃ other, net.HeldBy other id (net.workers link.spoke)) ∨
          Reported net.inFlight id (net.workers link.spoke) ∨ id ∈ rest
  | .disconnect index => ∀ id worker, net.dag.states id = some (.dispatched worker) →
      net.HeldBy index id worker →
        (∃ other, other ≠ index ∧ net.HeldBy other id worker) ∨
          Reported net.inFlight id worker ∨ id ∈ net.dag.readyQueue
  | .crash spoke => ∀ id worker, net.dag.states id = some (.dispatched worker) →
      (∃ index link, net.links index = some link ∧ link.spoke = spoke ∧
        net.HeldBy index id worker) →
        (∃ other link, net.links other = some link ∧ link.spoke ≠ spoke ∧
          net.HeldBy other id worker) ∨
          Reported net.inFlight id worker ∨ id ∈ net.dag.readyQueue
  | .lose spoke report =>
      net.dag.states report.taskId = some (.dispatched report.workerId) →
        (∃ index, net.HeldBy index report.taskId report.workerId) ∨
          Reported (net.inFlight.erase (spoke, report)) report.taskId report.workerId ∨
          report.taskId ∈ net.dag.readyQueue
  | _ => True

section Places

variable {net next : SpokeNet} {id worker : Bytes}

theorem linkOf_setLink (net : SpokeNet) (index : Nat) (link : Link) (other : Nat) :
    (net.setLink index link).links other =
      if other = index then some link else net.links other := by
  unfold setLink
  by_cases here : other = index
  · simp [here]
  · simp [here]

/-- A spoke that is done with its call executes as little as one that waits for it, and nothing
else changes. -/
theorem answered_spec (net : SpokeNet) (spoke : Nat) :
    ∃ phase, net.answered spoke = { net with phase := phase } ∧
      ∀ other node, phase other = .executing node ↔ net.phase other = .executing node := by
  unfold answered
  split
  · rename_i reporting
    refine ⟨_, rfl, ?_⟩
    intro other node
    by_cases here : other = spoke
    · rw [here, reporting]
      simp
    · simp [Function.update_of_ne here]
  · exact ⟨net.phase, rfl, fun _ _ => Iff.rfl⟩

theorem answered_heldBy (spoke index : Nat) :
    (net.answered spoke).HeldBy index id worker ↔ net.HeldBy index id worker := by
  obtain ⟨phase, same, executing⟩ := net.answered_spec spoke
  unfold HeldBy
  rw [same]
  simp only [executing]

theorem answered_dag (net : SpokeNet) (spoke : Nat) : (net.answered spoke).dag = net.dag := by
  obtain ⟨phase, same, _⟩ := net.answered_spec spoke
  rw [same]

/-- What the spokes hold, they hold still; only the hub may have moved. -/
theorem covered_of_same (covered : net.Covered)
    (heldBy : ∀ index id worker, net.HeldBy index id worker → ∃ other, next.HeldBy other id worker)
    (inFlight : next.inFlight = net.inFlight) (dag : next.dag = net.dag) : next.Covered := by
  intro id worker known
  rw [dag] at known
  unfold Placed
  rw [inFlight, dag]
  rcases covered id worker known with ⟨index, held⟩ | elsewhere
  · exact Or.inl (heldBy index id worker held)
  · exact Or.inr elsewhere

/-- A stream that keeps its spoke, its connection and its items holds what it held. -/
theorem heldBy_of_relinked {index : Nat} {old new : Link} (isLink : net.links index = some old)
    (spoke : new.spoke = old.spoke) (up : new.up = old.up)
    (buffer : ∀ node ∈ old.buffer, node ∈ new.buffer) (other : Nat)
    (held : net.HeldBy other id worker) : (net.setLink index new).HeldBy other id worker := by
  obtain ⟨link, isOther, isUp, isWorker, item⟩ := held
  by_cases here : other = index
  · rw [here, isLink] at isOther
    obtain rfl := Option.some.inj isOther
    refine ⟨new, ?_, up.trans isUp, ?_, ?_⟩
    · rw [linkOf_setLink, if_pos here]
    · rw [spoke]
      exact isWorker
    · rw [spoke]
      rcases item with ⟨node, member, isTask⟩ | executing
      · exact Or.inl ⟨node, buffer node member, isTask⟩
      · exact Or.inr executing
  · refine ⟨link, ?_, isUp, isWorker, item⟩
    rw [linkOf_setLink, if_neg here]
    exact isOther

end Places

end SpokeNet

namespace HubDag.Sound

variable {dag : HubDag}

/-- A task that is with a worker after a report was there before, and the report is about another
task. -/
theorem dispatched_before (sound : dag.Sound) {order : HashOrder} {report : CompletionReport}
    {id worker : Bytes}
    (known : (Coordinator.complete dag order report).1.states id = some (.dispatched worker)) :
    dag.states id = some (.dispatched worker) ∧ id ≠ report.taskId ∧
      (id ∈ dag.readyQueue → id ∈ (Coordinator.complete dag order report).1.readyQueue) := by
  unfold Coordinator.complete at known ⊢
  cases success : report.success with
  | true =>
      simp only [success, ↓reduceIte] at known ⊢
      obtain ⟨other, before⟩ := markComplete_dispatched known
      refine ⟨before, other, ?_⟩
      intro queued
      rw [(dag.markComplete_unblocked order report.taskId).queue]
      exact List.mem_append_left _ queued
  | false =>
      simp only [success, Bool.false_eq_true, ↓reduceIte] at known ⊢
      have reported := markFailed_reported sound.keyed order report.taskId report.stderrTail
      have other : id ≠ report.taskId := by
        rintro rfl
        rw [reported.reported] at known
        simp at known
      rcases reported.states id other with same | ⟨_, failed, _⟩
      · refine ⟨same.symm.trans known, other, ?_⟩
        intro queued
        rw [reported.queue, List.mem_filter, known]
        exact ⟨queued, rfl⟩
      · unfold Failed at failed
        rw [known] at failed
        simp [TaskState.isFailed] at failed

end HubDag.Sound

namespace SpokeNet

open HubDag

section Steps

variable {net next : SpokeNet}

theorem connect_covered {index spoke : Nat} {up : Bool} (covered : net.Covered)
    (taken : net.step (.connect index spoke up) = some next) : next.Covered := by
  obtain ⟨⟨free, _⟩, moved⟩ := Option.ite_none_right_eq_some.mp taken
  obtain rfl := Option.some.inj moved
  refine covered_of_same covered ?_ rfl rfl
  rintro other id worker ⟨link, isLink, isUp, isWorker, item⟩
  refine ⟨other, link, ?_, isUp, isWorker, item⟩
  have apart : other ≠ index := by
    rintro rfl
    rw [free] at isLink
    simp at isLink
  exact (linkOf_setLink net index _ other).trans ((if_neg apart).trans isLink)

theorem dropStream_covered {index : Nat} (covered : net.Covered)
    (taken : net.step (.dropStream index) = some next) : next.Covered := by
  obtain ⟨link, isLink, rfl⟩ := Option.map_eq_some_iff.mp taken
  refine covered_of_same covered ?_ rfl rfl
  intro other id worker held
  refine ⟨other, heldBy_of_relinked isLink ?_ ?_ ?_ other held⟩
  · rfl
  · rfl
  · intro node member
    exact member

theorem receive_covered {index : Nat} (covered : net.Covered)
    (taken : net.step (.receive index) = some next) : next.Covered := by
  simp only [step] at taken
  split at taken
  · rename_i link isLink
    split at taken
    · rename_i node rest buffer
      obtain ⟨⟨up, waiting⟩, moved⟩ := Option.ite_none_right_eq_some.mp taken
      obtain rfl := Option.some.inj moved
      refine covered_of_same covered ?_ rfl rfl
      rintro other id worker ⟨held, isHeld, isUp, isWorker, item⟩
      -- The spoke was idle, so that what it holds is in a buffer.
      by_cases here : other = index
      · subst here
        rw [isLink] at isHeld
        obtain rfl := Option.some.inj isHeld
        refine ⟨other, { link with buffer := rest }, ?_, isUp, isWorker, ?_⟩
        · exact (linkOf_setLink net other _ other).trans (if_pos rfl)
        · rcases item with ⟨item, member, isTask⟩ | ⟨item, executing, _⟩
          · rw [buffer] at member
            rcases List.mem_cons.mp member with rfl | later
            · exact Or.inr ⟨item, Function.update_self _ _ _, isTask⟩
            · exact Or.inl ⟨item, later, isTask⟩
          · rw [waiting] at executing
            simp at executing
      · refine ⟨other, held, ?_, isUp, isWorker, ?_⟩
        · exact (linkOf_setLink net index _ other).trans ((if_neg here).trans isHeld)
        · rcases item with inBuffer | ⟨item, executing, isTask⟩
          · exact Or.inl inBuffer
          · have apart : held.spoke ≠ link.spoke := by
              intro same
              rw [same, waiting] at executing
              simp at executing
            refine Or.inr ⟨item, ?_, isTask⟩
            exact (Function.update_of_ne apart _ _).trans executing
    · simp at taken
  · simp at taken

theorem finish_covered {spoke : Nat} {success : Bool} {stderrTail : Bytes} (covered : net.Covered)
    (taken : net.step (.finish spoke success stderrTail) = some next) : next.Covered := by
  simp only [step] at taken
  split at taken
  · rename_i node executes
    obtain rfl := Option.some.inj taken
    intro id worker known
    rcases covered id worker known with ⟨index, link, isLink, isUp, isWorker, item⟩ | ⟨entry,
      member, about⟩ | queued
    · by_cases own : link.spoke = spoke ∧ node.taskId = id
      · -- The report of the task is on its way now.
        refine Or.inr (Or.inl ⟨(spoke, ⟨node.taskId, net.workers spoke, success, stderrTail⟩), ?_,
          own.2, ?_⟩)
        · exact List.mem_append_right _ List.mem_cons_self
        · rw [← own.1]
          exact isWorker
      · refine Or.inl ⟨index, link, isLink, isUp, isWorker, ?_⟩
        rcases item with inBuffer | ⟨item, executing, isTask⟩
        · exact Or.inl inBuffer
        · have apart : link.spoke ≠ spoke := by
            intro same
            rw [same, executes] at executing
            obtain rfl := SpokePhase.executing.inj executing
            exact own ⟨same, isTask⟩
          refine Or.inr ⟨item, ?_, isTask⟩
          exact (Function.update_of_ne apart _ _).trans executing
    · exact Or.inr (Or.inl ⟨entry, List.mem_append_left _ member, about⟩)
    · exact Or.inr (Or.inr queued)
  · simp at taken

theorem arrive_covered {spoke : Nat} {report : CompletionReport} {order : HashOrder}
    (sound : net.dag.Sound) (covered : net.Covered)
    (taken : net.step (.arrive spoke report order) = some next) : next.Covered := by
  obtain ⟨_, moved⟩ := Option.ite_none_right_eq_some.mp taken
  obtain rfl := Option.some.inj moved
  intro id worker known
  obtain ⟨before, other, stays⟩ := sound.dispatched_before known
  rcases covered id worker before with ⟨index, held⟩ | ⟨entry, member, about⟩ | queued
  · exact Or.inl ⟨index, (answered_heldBy spoke index).mpr held⟩
  · have apart : entry ≠ (spoke, report) := by
      rintro rfl
      exact other about.1.symm
    exact Or.inr (Or.inl ⟨entry, (List.mem_erase_of_ne apart).mpr member, about⟩)
  · exact Or.inr (Or.inr (stays queued))

section Turn

variable {index : Nat} {link : Link}

theorem turn_dag (net : SpokeNet) (index : Nat) (link : Link) :
    (net.turn index link).dag =
      if net.dag.isDone then net.dag else (net.dag.dispatchNext (net.workers link.spoke)).1 := by
  unfold turn
  split
  · rfl
  · rfl

theorem turn_inFlight (net : SpokeNet) (index : Nat) (link : Link) :
    (net.turn index link).inFlight = net.inFlight := by
  unfold turn
  split
  · rfl
  · rfl

/-- A turn changes one stream, which keeps its spoke and its connection and loses no item. -/
theorem turn_relinks (net : SpokeNet) (index : Nat) (link : Link) :
    ∃ after dag, net.turn index link = { net.setLink index after with dag := dag } ∧
      after.spoke = link.spoke ∧ after.up = link.up ∧
      ∀ node ∈ link.buffer, node ∈ after.buffer := by
  unfold turn
  split
  · exact ⟨{ link with polled := false }, net.dag, rfl, rfl, rfl, fun _ member => member⟩
  · refine ⟨_, _, rfl, rfl, rfl, ?_⟩
    intro node member
    simp only
    split
    · exact List.mem_append_left _ member
    · exact member

theorem turn_heldBy (isLink : net.links index = some link) {other : Nat} {id worker : Bytes}
    (held : net.HeldBy other id worker) : (net.turn index link).HeldBy other id worker := by
  obtain ⟨after, dag, moved, spoke, up, buffer⟩ := net.turn_relinks index link
  rw [moved]
  exact heldBy_of_relinked isLink spoke up buffer other held

/-- What is handed out is on its way if the connection stands. -/
theorem turn_hands (sound : net.dag.Sound) (unfinished : net.dag.isDone = false)
    (up : link.up = true) {id : Bytes} {rest : List Bytes}
    (isQueue : net.dag.readyQueue = id :: rest) :
    (net.turn index link).HeldBy index id (net.workers link.spoke) := by
  have isTask := sound.queued id (by rw [isQueue]; exact List.mem_cons_self)
  obtain ⟨node, isNode⟩ := Option.isSome_iff_exists.mp isTask
  have handed : (net.dag.dispatchNext (net.workers link.spoke)).2 = some node := by
    unfold dispatchNext
    rw [isQueue]
    exact isNode
  unfold turn
  rw [unfinished]
  refine ⟨_, (linkOf_setLink _ _ _ _).trans (if_pos rfl), up, rfl, Or.inl ⟨node, ?_, ?_⟩⟩
  · simp [up, handed]
  · exact sound.named id node isNode

/-- Over a broken connection nothing goes. -/
theorem turn_heldBy_of_down (down : link.up = false) {other : Nat} {id worker : Bytes}
    (held : (net.turn index link).HeldBy other id worker) : net.HeldBy other id worker := by
  obtain ⟨after, dag, moved, spoke, up, _⟩ := net.turn_relinks index link
  rw [moved] at held
  obtain ⟨holder, isHolder, isUp, rest⟩ := held
  have isHolder := (linkOf_setLink net index after other).symm.trans isHolder
  split at isHolder
  · obtain rfl := Option.some.inj isHolder
    rw [up, down] at isUp
    simp at isUp
  · exact ⟨holder, isHolder, isUp, rest⟩

/-- A turn that hands out nothing. -/
theorem turn_covered (covered : net.Covered) (isLink : net.links index = some link)
    (same : (net.turn index link).dag = net.dag) : (net.turn index link).Covered := by
  refine covered_of_same covered ?_ (net.turn_inFlight index link) same
  intro other id worker held
  exact ⟨other, turn_heldBy isLink held⟩

/-- A turn that hands out the first task of the queue loses it only over a connection that is
gone. -/
theorem turn_covered_iff (sound : net.dag.Sound) (covered : net.Covered)
    (isLink : net.links index = some link) (unfinished : net.dag.isDone = false) {taskId : Bytes}
    {rest : List Bytes} (isQueue : net.dag.readyQueue = taskId :: rest) :
    (net.turn index link).Covered ↔ (link.up = false →
      (∃ other, net.HeldBy other taskId (net.workers link.spoke)) ∨
        Reported net.inFlight taskId (net.workers link.spoke) ∨ taskId ∈ rest) := by
  have inFlight := net.turn_inFlight index link
  have dag : (net.turn index link).dag = (net.dag.dispatchNext (net.workers link.spoke)).1 := by
    rw [turn_dag, unfinished]
    rfl
  have states (id : Bytes) : (net.turn index link).dag.states id =
      if id = taskId then some (.dispatched (net.workers link.spoke))
      else net.dag.states id := by
    rw [dag]
    exact dispatchNext_states isQueue _ id
  have queue : (net.turn index link).dag.readyQueue = rest := by
    rw [dag]
    unfold dispatchNext
    rw [isQueue]
  constructor
  · intro after down
    rcases after taskId _ ((states taskId).trans (if_pos rfl)) with
      ⟨holder, held⟩ | reported | again
    · exact Or.inl ⟨holder, turn_heldBy_of_down down held⟩
    · rw [inFlight] at reported
      exact Or.inr (Or.inl reported)
    · rw [queue] at again
      exact Or.inr (Or.inr again)
  · intro placed id worker known
    rw [states] at known
    unfold Placed
    rw [inFlight, queue]
    split at known
    · rename_i here
      obtain rfl := TaskState.dispatched.inj (Option.some.inj known)
      rw [here]
      cases up : link.up with
      | true => exact Or.inl ⟨index, turn_hands sound unfinished up isQueue⟩
      | false =>
          rcases placed up with ⟨holder, held⟩ | elsewhere
          · exact Or.inl ⟨holder, turn_heldBy isLink held⟩
          · exact Or.inr elsewhere
    · rename_i other
      rcases covered id worker known with ⟨holder, held⟩ | reported | queued
      · exact Or.inl ⟨holder, turn_heldBy isLink held⟩
      · exact Or.inr (Or.inl reported)
      · rw [isQueue, List.mem_cons] at queued
        exact Or.inr (Or.inr (queued.resolve_left other))

end Turn

theorem poll_covered_iff {index : Nat} (sound : net.dag.Sound) (covered : net.Covered)
    (taken : net.step (.poll index) = some next) : next.Covered ↔ net.Fits (.poll index) := by
  simp only [step] at taken
  split at taken
  · rename_i link isLink
    obtain ⟨_, moved⟩ := Option.ite_none_right_eq_some.mp taken
    obtain rfl := Option.some.inj moved
    by_cases done : net.dag.isDone = true
    · have same : (net.turn index link).dag = net.dag := by rw [turn_dag, if_pos done]
      refine iff_of_true (turn_covered covered isLink same) ?_
      intro _ _ _ unfinished
      rw [done] at unfinished
      simp at unfinished
    · rw [Bool.not_eq_true] at done
      cases isQueue : net.dag.readyQueue with
      | nil =>
          have same : (net.turn index link).dag = net.dag := by
            rw [turn_dag, done]
            unfold dispatchNext
            rw [isQueue]
            rfl
          refine iff_of_true (turn_covered covered isLink same) ?_
          intro _ _ _ _ id rest queued
          rw [isQueue] at queued
          simp at queued
      | cons taskId rest =>
          rw [turn_covered_iff sound covered isLink done isQueue]
          constructor
          · intro placed other isOther down _ id rest' queued
            rw [isLink] at isOther
            obtain rfl := Option.some.inj isOther
            rw [isQueue] at queued
            obtain ⟨rfl, rfl⟩ := List.cons.inj queued
            exact placed down
          · intro fits down
            exact fits link isLink down done taskId rest isQueue
  · simp at taken

theorem lose_covered_iff {spoke : Nat} {report : CompletionReport} (covered : net.Covered)
    (taken : net.step (.lose spoke report) = some next) :
    next.Covered ↔ net.Fits (.lose spoke report) := by
  obtain ⟨_, moved⟩ := Option.ite_none_right_eq_some.mp taken
  obtain rfl := Option.some.inj moved
  have dag := net.answered_dag spoke
  constructor
  · intro after known
    rcases after report.taskId report.workerId (by simpa only [dag] using known) with
      ⟨index, held⟩ | reported | queued
    · exact Or.inl ⟨index, (answered_heldBy spoke index).mp held⟩
    · exact Or.inr (Or.inl reported)
    · exact Or.inr (Or.inr (by simpa only [dag] using queued))
  · intro fits id worker known
    have known : net.dag.states id = some (.dispatched worker) := by simpa only [dag] using known
    rcases covered id worker known with ⟨index, held⟩ | ⟨entry, member, isTask, isWorker⟩ | queued
    · exact Or.inl ⟨index, (answered_heldBy spoke index).mpr held⟩
    · by_cases here : entry = (spoke, report)
      · subst here
        obtain rfl := isTask
        obtain rfl := isWorker
        rcases fits known with ⟨index, held⟩ | reported | queued
        · exact Or.inl ⟨index, (answered_heldBy spoke index).mpr held⟩
        · exact Or.inr (Or.inl reported)
        · exact Or.inr (Or.inr (by simpa only [dag] using queued))
      · exact Or.inr (Or.inl ⟨entry, (List.mem_erase_of_ne here).mpr member, isTask, isWorker⟩)
    · exact Or.inr (Or.inr (by simpa only [dag] using queued))

theorem disconnect_heldBy {index other : Nat} {link : Link} {id worker : Bytes} :
    (net.setLink index (Link.cut link)).HeldBy other id worker ↔
      other ≠ index ∧ net.HeldBy other id worker := by
  constructor
  · rintro ⟨held, isHeld, isUp, rest⟩
    rw [linkOf_setLink] at isHeld
    split at isHeld
    · obtain rfl := Option.some.inj isHeld
      simp [Link.cut] at isUp
    · rename_i apart
      exact ⟨apart, held, isHeld, isUp, rest⟩
  · rintro ⟨apart, held, isHeld, rest⟩
    exact ⟨held, by rw [linkOf_setLink, if_neg apart, isHeld], rest⟩

theorem disconnect_covered_iff {index : Nat} (covered : net.Covered)
    (taken : net.step (.disconnect index) = some next) :
    next.Covered ↔ net.Fits (.disconnect index) := by
  obtain ⟨link, _, rfl⟩ := Option.map_eq_some_iff.mp taken
  constructor
  · intro after id worker known _
    rcases after id worker known with ⟨other, held⟩ | elsewhere
    · exact Or.inl ⟨other, disconnect_heldBy.mp held⟩
    · exact Or.inr elsewhere
  · intro fits id worker known
    have kept : (∃ other, other ≠ index ∧ net.HeldBy other id worker) ∨
        Reported net.inFlight id worker ∨ id ∈ net.dag.readyQueue := by
      rcases covered id worker known with ⟨other, held⟩ | elsewhere
      · by_cases here : other = index
        · exact fits id worker known (here ▸ held)
        · exact Or.inl ⟨other, here, held⟩
      · exact Or.inr elsewhere
    rcases kept with ⟨other, held⟩ | elsewhere
    · exact Or.inl ⟨other, disconnect_heldBy.mpr held⟩
    · exact Or.inr elsewhere

theorem crash_heldBy {spoke other : Nat} {id worker : Bytes}
    (taken : net.step (.crash spoke) = some next) :
    next.HeldBy other id worker ↔
      ∃ link, net.links other = some link ∧ link.spoke ≠ spoke ∧ net.HeldBy other id worker := by
  obtain rfl := Option.some.inj taken
  constructor
  · rintro ⟨after, isAfter, isUp, isWorker, item⟩
    obtain ⟨link, isLink, rfl⟩ := Option.map_eq_some_iff.mp isAfter
    split at isUp
    · simp [Link.cut] at isUp
    · rename_i apart
      rw [if_neg apart] at isWorker item
      simp only [Function.update_of_ne apart] at item
      exact ⟨link, isLink, apart, link, isLink, isUp, isWorker, item⟩
  · rintro ⟨link, isLink, apart, held, isHeld, isUp, isWorker, item⟩
    rw [isLink] at isHeld
    obtain rfl := Option.some.inj isHeld
    refine ⟨link, ?_, isUp, isWorker, ?_⟩
    · simp only [isLink, Option.map_some, if_neg apart]
    · simp only [Function.update_of_ne apart]
      exact item

theorem crash_covered_iff {spoke : Nat} (covered : net.Covered)
    (taken : net.step (.crash spoke) = some next) : next.Covered ↔ net.Fits (.crash spoke) := by
  have same := Option.some.inj taken
  constructor
  · intro after id worker known _
    rcases after id worker (by rw [← same]; exact known) with ⟨other, held⟩ | elsewhere
    · obtain ⟨link, isLink, apart, was⟩ := (crash_heldBy taken).mp held
      exact Or.inl ⟨other, link, isLink, apart, was⟩
    · rw [← same] at elsewhere
      exact Or.inr elsewhere
  · intro fits id worker known
    have known : net.dag.states id = some (.dispatched worker) := by
      rw [← same] at known
      exact known
    have kept : (∃ other link, net.links other = some link ∧ link.spoke ≠ spoke ∧
        net.HeldBy other id worker) ∨
        Reported net.inFlight id worker ∨ id ∈ net.dag.readyQueue := by
      rcases covered id worker known with ⟨other, link, isLink, held⟩ | elsewhere
      · by_cases here : link.spoke = spoke
        · exact fits id worker known ⟨other, link, isLink, here, link, isLink, held⟩
        · exact Or.inl ⟨other, link, isLink, here, link, isLink, held⟩
      · exact Or.inr elsewhere
    rcases kept with ⟨other, held⟩ | elsewhere
    · exact Or.inl ⟨other, (crash_heldBy taken).mpr held⟩
    · rw [← same]
      exact Or.inr elsewhere

/-- A step leaves every dispatched task in its place exactly when it fits. -/
theorem step_covered_iff {event : SpokeEvent} (sound : net.dag.Sound) (covered : net.Covered)
    (taken : net.step event = some next) : next.Covered ↔ net.Fits event := by
  cases event with
  | connect index spoke up => exact iff_of_true (connect_covered covered taken) trivial
  | poll index => exact poll_covered_iff sound covered taken
  | dropStream index => exact iff_of_true (dropStream_covered covered taken) trivial
  | receive index => exact iff_of_true (receive_covered covered taken) trivial
  | finish spoke success stderrTail => exact iff_of_true (finish_covered covered taken) trivial
  | arrive spoke report order => exact iff_of_true (arrive_covered sound covered taken) trivial
  | lose spoke report => exact lose_covered_iff covered taken
  | disconnect index => exact disconnect_covered_iff covered taken
  | crash spoke => exact crash_covered_iff covered taken

theorem step_sound {event : SpokeEvent} (sound : net.dag.Sound)
    (taken : net.step event = some next) : next.dag.Sound := by
  cases event with
  | connect index spoke up =>
      obtain ⟨_, moved⟩ := Option.ite_none_right_eq_some.mp taken
      obtain rfl := Option.some.inj moved
      exact sound
  | poll index =>
      simp only [step] at taken
      split at taken
      · obtain ⟨_, moved⟩ := Option.ite_none_right_eq_some.mp taken
        obtain rfl := Option.some.inj moved
        rw [turn_dag]
        split
        · exact sound
        · exact sound.dispatch _
      · simp at taken
  | dropStream index =>
      obtain ⟨link, _, rfl⟩ := Option.map_eq_some_iff.mp taken
      exact sound
  | receive index =>
      simp only [step] at taken
      split at taken
      · split at taken
        · obtain ⟨_, moved⟩ := Option.ite_none_right_eq_some.mp taken
          obtain rfl := Option.some.inj moved
          exact sound
        · simp at taken
      · simp at taken
  | finish spoke success stderrTail =>
      simp only [step] at taken
      split at taken
      · obtain rfl := Option.some.inj taken
        exact sound
      · simp at taken
  | arrive spoke report order =>
      obtain ⟨_, moved⟩ := Option.ite_none_right_eq_some.mp taken
      obtain rfl := Option.some.inj moved
      exact sound.report order report
  | lose spoke report =>
      obtain ⟨_, moved⟩ := Option.ite_none_right_eq_some.mp taken
      obtain rfl := Option.some.inj moved
      simp only [answered_dag]
      exact sound
  | disconnect index =>
      obtain ⟨link, _, rfl⟩ := Option.map_eq_some_iff.mp taken
      exact sound
  | crash spoke =>
      obtain rfl := Option.some.inj taken
      exact sound

end Steps

theorem start_covered (workers : Nat → Bytes) (nodes : List TaskNode) :
    (start workers nodes).Covered := by
  intro id worker known
  rcases new_open known with isState | isState
  · simp at isState
  · simp at isState

/-! A task whose item is nowhere, in a build in which nothing else moves. -/

structure Stranded (net : SpokeNet) (id worker : Bytes) : Prop where
  dispatched : net.dag.states id = some (.dispatched worker)
  queue : net.dag.readyQueue = []
  buffers : ∀ index link, net.links index = some link → link.buffer = []
  idle : ∀ spoke node, net.phase spoke ≠ .executing node
  inFlight : net.inFlight = []

namespace Stranded

variable {net next : SpokeNet} {id worker : Bytes}

theorem not_covered (stranded : net.Stranded id worker) : ¬ net.Covered := by
  intro covered
  rcases covered id worker stranded.dispatched with ⟨index, link, isLink, _, _, item⟩ | ⟨entry,
    member, _⟩ | queued
  · rcases item with ⟨node, member, _⟩ | ⟨node, executing, _⟩
    · rw [stranded.buffers index link isLink] at member
      simp at member
    · exact stranded.idle link.spoke node executing
  · rw [stranded.inFlight] at member
    simp at member
  · rw [stranded.queue] at queued
    simp at queued

/-- Streams may come and go as long as they carry nothing. -/
theorem setLink (stranded : net.Stranded id worker) (index : Nat) (link : Link)
    (empty : link.buffer = []) (current : Nat → Option Nat) :
    ({ net.setLink index link with current := current } : SpokeNet).Stranded id worker where
  dispatched := stranded.dispatched
  queue := stranded.queue
  buffers := by
    intro other after isAfter
    have isAfter := (linkOf_setLink net index link other).symm.trans isAfter
    split at isAfter
    · obtain rfl := Option.some.inj isAfter
      exact empty
    · exact stranded.buffers other after isAfter
  idle := stranded.idle
  inFlight := stranded.inFlight

theorem step {event : SpokeEvent} (stranded : net.Stranded id worker)
    (taken : net.step event = some next) : next.Stranded id worker := by
  cases event with
  | connect index spoke up =>
      obtain ⟨_, moved⟩ := Option.ite_none_right_eq_some.mp taken
      obtain rfl := Option.some.inj moved
      exact stranded.setLink index ⟨spoke, up, true, []⟩ rfl _
  | poll index =>
      simp only [SpokeNet.step] at taken
      split at taken
      · rename_i link isLink
        obtain ⟨_, moved⟩ := Option.ite_none_right_eq_some.mp taken
        obtain rfl := Option.some.inj moved
        have empty := stranded.buffers index link isLink
        have nothing : net.dag.dispatchNext (net.workers link.spoke) = (net.dag, none) := by
          unfold dispatchNext
          rw [stranded.queue]
        unfold turn
        split
        · exact stranded.setLink index { link with polled := false } empty net.current
        · simp only [nothing, Option.toList_none, List.append_nil, ite_self]
          exact stranded.setLink index link empty net.current
      · simp at taken
  | dropStream index =>
      obtain ⟨link, isLink, rfl⟩ := Option.map_eq_some_iff.mp taken
      exact stranded.setLink index { link with polled := false }
        (stranded.buffers index link isLink) net.current
  | receive index =>
      simp only [SpokeNet.step] at taken
      split at taken
      · rename_i link isLink
        rw [stranded.buffers index link isLink] at taken
        simp at taken
      · simp at taken
  | finish spoke success stderrTail =>
      simp only [SpokeNet.step] at taken
      split at taken
      · rename_i node executing
        exact absurd executing (stranded.idle spoke node)
      · simp at taken
  | arrive spoke report order =>
      obtain ⟨member, _⟩ := Option.ite_none_right_eq_some.mp taken
      rw [stranded.inFlight] at member
      simp at member
  | lose spoke report =>
      obtain ⟨member, _⟩ := Option.ite_none_right_eq_some.mp taken
      rw [stranded.inFlight] at member
      simp at member
  | disconnect index =>
      obtain ⟨link, isLink, rfl⟩ := Option.map_eq_some_iff.mp taken
      exact stranded.setLink index (Link.cut link) rfl net.current
  | crash spoke =>
      obtain rfl := Option.some.inj taken
      exact {
        dispatched := stranded.dispatched
        queue := stranded.queue
        buffers := by
          intro index after isAfter
          obtain ⟨link, isLink, rfl⟩ := Option.map_eq_some_iff.mp isAfter
          split
          · rfl
          · exact stranded.buffers index link isLink
        idle := by
          intro other node executes
          by_cases here : other = spoke
          · simp [here] at executes
          · exact stranded.idle other node ((Function.update_of_ne here _ _).symm.trans executes)
        inFlight := stranded.inFlight }

/-- Whatever happens, it stays with its worker. -/
theorem forever (stranded : net.Stranded id worker) {later : SpokeNet}
    (reached : Machine.Reachable SpokeNet.step (fun _ _ => True) net later) :
    later.Stranded id worker := by
  apply reached.invariant (fun net => net.Stranded id worker) stranded
  intro state event after here _ taken
  exact here.step taken

end Stranded

end SpokeNet

/-- In every run whose steps all fit no item is lost, and a step that does not fit loses one. -/
theorem no_item_lost (workers : Nat → Bytes) (nodes : List TaskNode) (net : SpokeNet)
    (reached : Machine.Reachable SpokeNet.step SpokeNet.Fits (.start workers nodes) net) :
    net.Covered ∧ ∀ event next, net.step event = some next →
      (next.Covered ↔ net.Fits event) := by
  have whole : net.dag.Sound ∧ net.Covered := by
    apply reached.invariant (fun net => net.dag.Sound ∧ net.Covered)
    · exact ⟨HubDag.sound_new nodes, SpokeNet.start_covered workers nodes⟩
    · rintro state event after ⟨sound, covered⟩ fits taken
      exact ⟨SpokeNet.step_sound sound taken,
        (SpokeNet.step_covered_iff sound covered taken).mpr fits⟩
  exact ⟨whole.2, fun _ _ taken => SpokeNet.step_covered_iff whole.1 whole.2 taken⟩

namespace HubChain

def spokes : Nat → Bytes := fun spoke => if spoke = 0 then utf8 "w1" else utf8 "w2"

def connected : SpokeNet where
  workers := spokes
  dag := .new nodes
  links := Function.update (fun _ => none) 0 (some ⟨0, true, true, []⟩)
  current := Function.update (fun _ => none) 0 (some 0)
  phase := fun _ => .waiting
  inFlight := []

def handed : SpokeNet :=
  { connected with
    dag := ((HubDag.new nodes).dispatchNext (utf8 "w1")).1
    links := Function.update (fun _ => none) 0 (some ⟨0, true, true, [task "core" []]⟩) }

def executing : SpokeNet :=
  { handed with
    links := Function.update (fun _ => none) 0 (some ⟨0, true, true, []⟩)
    phase := Function.update (fun _ => .waiting) 0 (.executing (task "core" [])) }

theorem connects : (SpokeNet.start spokes nodes).step (.connect 0 0 true) = some connected := by
  simp [SpokeNet.step, SpokeNet.start, SpokeNet.setLink, connected]

theorem hands : connected.step (.poll 0) = some handed := by
  have unfinished : (HubDag.new nodes).isDone = false := by decide +kernel
  have item : ((HubDag.new nodes).dispatchNext (utf8 "w1")).2 = some (task "core" []) := by
    decide +kernel
  simp [SpokeNet.step, SpokeNet.turn, SpokeNet.setLink, connected, handed, spokes, unfinished, item]

theorem receives : handed.step (.receive 0) = some executing := by
  simp [SpokeNet.step, SpokeNet.setLink, connected, handed, executing]

end HubChain

/-- The item of the first task is executed, and the task is with its spoke. -/
theorem no_item_lost_executing :
    Machine.run SpokeNet.step (.start HubChain.spokes HubChain.nodes)
        [.connect 0 0 true, .poll 0, .receive 0] = some HubChain.executing ∧
      HubChain.executing.dag.states (utf8 "core#build") = some (.dispatched (utf8 "w1")) ∧
      HubChain.executing.Covered := by
  refine ⟨?_, by decide +kernel, ?_⟩
  · simp [Machine.run, HubChain.connects, HubChain.hands, HubChain.receives]
  · have reached : Machine.Reachable SpokeNet.step SpokeNet.Fits
        (.start HubChain.spokes HubChain.nodes) HubChain.executing := by
      refine .tail (.receive 0) (.tail (.poll 0) (.tail (.connect 0 0 true) .refl ?_
        HubChain.connects) ?_ HubChain.hands) ?_ HubChain.receives
      · trivial
      · -- The connection stands.
        intro link isLink down
        obtain rfl := Option.some.inj isLink
        simp at down
      · trivial
    exact (no_item_lost HubChain.spokes HubChain.nodes HubChain.executing reached).1

/-- A spoke crashes while it executes, and no step ever takes the task from it again. -/
theorem crash_loses_item :
    ∃ net, Machine.run SpokeNet.step (.start HubChain.spokes HubChain.nodes)
        [.connect 0 0 true, .poll 0, .receive 0, .crash 0] = some net ∧ ¬ net.Covered ∧
      ∀ later, Machine.Reachable SpokeNet.step (fun _ _ => True) net later →
        later.dag.states (utf8 "core#build") = some (.dispatched (utf8 "w1")) := by
  obtain ⟨net, crashes⟩ : ∃ net, HubChain.executing.step (.crash 0) = some net := ⟨_, rfl⟩
  have stranded : net.Stranded (utf8 "core#build") (utf8 "w1") := by
    obtain rfl := Option.some.inj crashes
    exact {
      dispatched := by decide +kernel
      queue := by decide +kernel
      buffers := by
        intro index link isLink
        obtain ⟨before, isBefore, rfl⟩ := Option.map_eq_some_iff.mp isLink
        have same : before = ⟨0, true, true, []⟩ := by
          simp only [HubChain.executing, Function.update_apply] at isBefore
          split at isBefore
          · exact (Option.some.inj isBefore).symm
          · simp at isBefore
        rw [same]
        rfl
      idle := by
        intro spoke node executes
        by_cases here : spoke = 0
        · simp [here] at executes
        · simp [here, HubChain.executing] at executes
      inFlight := rfl }
  refine ⟨net, ?_, stranded.not_covered, ?_⟩
  · simp [Machine.run, HubChain.connects, HubChain.hands, HubChain.receives, crashes]
  · intro later reached
    exact (stranded.forever reached).dispatched

end Rage
