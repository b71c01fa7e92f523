import Rage.Dashboard
import Rage.LatestBuild

/-!
When the dashboards converge: no burst of changes may outrun the forwarding task, and no snapshot
may pass between the initial message of a session and its subscription.
-/

namespace Rage.Daemon

open Broadcast (recv)

/-- A step of the reconciler that changes anything is told or still owed. -/
theorem Reconciler.step_told {reconciler next : Reconciler} {event : ReconcilerEvent}
    (taken : reconciler.step event = some next) :
    reconciler.notices ≤ next.notices ∧
      (next = reconciler ∨ next.owed = true ∨ reconciler.notices < next.notices) := by
  obtain ⟨cmd, rfl, _, rfl⟩ | ⟨rfl, _, rfl⟩ | ⟨age, meets, build, rfl, _, rfl⟩ :=
    step_cases taken
  · cases cmd with
    | setDesiredState desired => simp [handle, startBuild]
    | onFilesChanged =>
        cases isDesired : reconciler.shared.desired with
        | none => simp [handle, isDesired]
        | some desired => simp [handle, startBuild, isDesired]
    | retryTask package script => simp [handle]
  · simp
  · simp [complete]

/-! From every state a build can be started, and it can fail. -/

namespace Reconciler

theorem exists_building (reconciler : Reconciler) :
    ∃ next older, Machine.Reachable step (fun _ _ => True) reconciler next ∧
      next.builds = ⟨buildAll, none, []⟩ :: older ∧ next.owed = false ∧
        next.shared.state = .converging := by
  obtain ⟨free, announces, isFree⟩ : ∃ next,
      Machine.Reachable step (fun _ _ => True) reconciler next ∧ next.owed = false := by
    cases owed : reconciler.owed with
    | false => exact ⟨reconciler, .refl, owed⟩
    | true =>
        have announced : reconciler.step .announce =
            some { reconciler with owed := false, notices := reconciler.notices + 1 } := by
          simp [step, owed]
        exact ⟨_, .tail .announce .refl trivial announced, rfl⟩
  have commanded : free.step (.command (.setDesiredState buildAll)) =
      some (free.startBuild buildAll) := by
    simp [step, isFree, handle]
  exact ⟨_, free.builds, (announces.tail _ trivial commanded).tail .announce trivial rfl,
    rfl, rfl, rfl⟩

theorem exists_blocked {reconciler : Reconciler} {build : Build} {older : List Build}
    (isBuilds : reconciler.builds = build :: older) (running : build.ended = none)
    (announced : reconciler.owed = false) :
    ∃ next, Machine.Reachable step (fun _ _ => True) reconciler next ∧ next.owed = false ∧
      next.shared.state = .blocked := by
  have runs : reconciler.Runs 0 build := ⟨by simp [isBuilds], running, by simp [announced]⟩
  have completed : reconciler.step (.complete 0 cannotList) =
      some (reconciler.complete 0 build cannotList) := by
    simp [step, runs, runs.1]
  exact ⟨_, .tail (.complete 0 cannotList) .refl trivial completed, announced, rfl⟩

end Reconciler

namespace Dashboard

def Behind (board : Dashboard) : Prop :=
  match board.forwarder with
  | .starting | .reading _ => True
  | .listening next => board.reconciler.owed = true ∨ next < board.reconciler.notices
  | .stopped => False

instance (board : Dashboard) : Decidable board.Behind := by
  unfold Behind
  split <;> infer_instance

/-- The forwarding task must not lag; a session may subscribe if its client has the current state
or a snapshot of it is still to come. -/
def Fits (board : Dashboard) : DashboardEvent → Prop
  | .forward => ∀ next, board.forwarder = .listening next →
      recv channelCapacity board.notifications next ≠ .lagged
  | .client index .subscribe => ∀ client, board.clients[index]? = some client →
      board.Behind ∨ client.received = some board.current
  | _ => True

/-- What a client will have once it has received what is on its way. -/
def Follows (board : Dashboard) (client : Client) : Prop :=
  match client.session with
  | .listening next => next ≤ board.snapshots.length ∧
      (next = board.snapshots.length → board.Behind ∨ client.received = some board.current)
  | .sending next snapshot => next ≤ board.snapshots.length ∧
      (next = board.snapshots.length → board.Behind ∨ snapshot = board.current)
  | _ => True

structure Synced (board : Dashboard) : Prop where
  running : board.forwarder ≠ .stopped
  position : ∀ next, board.forwarder = .listening next ∨ board.forwarder = .reading next →
    next ≤ board.reconciler.notices
  last : board.Behind ∨ board.snapshots.getLast? = some board.current
  clients : ∀ client ∈ board.clients, board.Follows client

theorem initial_synced : initial.Synced where
  running := by simp [initial]
  position := by simp [initial]
  last := Or.inl trivial
  clients := by simp [initial]

theorem Follows.of_behind {board next : Dashboard} {client : Client}
    (follows : board.Follows client) (sameSnapshots : next.snapshots = board.snapshots)
    (behind : next.Behind) : next.Follows client := by
  unfold Follows at follows ⊢
  rw [sameSnapshots]
  split
  · simp_all
  · simp_all
  · trivial

theorem Follows.broadcast {board : Dashboard} {client : Client} (follows : board.Follows client)
    (next : Nat) : (board.broadcast next).Follows client := by
  unfold Follows at follows ⊢
  simp only [Dashboard.broadcast, List.length_append, List.length_singleton]
  split
  · rename_i position isSession
    rw [isSession] at follows
    exact ⟨by omega, by omega⟩
  · rename_i position snapshot isSession
    rw [isSession] at follows
    exact ⟨by omega, by omega⟩
  · trivial

theorem Synced.reconcile {board : Dashboard} (synced : board.Synced) {event : ReconcilerEvent}
    {next : Reconciler} (taken : board.reconciler.step event = some next) :
    ({ board with reconciler := next }).Synced := by
  obtain ⟨grows, rfl | told⟩ := Reconciler.step_told taken
  · exact synced
  · have behind : ({ board with reconciler := next }).Behind := by
      unfold Behind
      split
      · trivial
      · trivial
      · rename_i position isListening
        have bound := synced.position position (Or.inl isListening)
        exact told.imp_right fun later => Nat.lt_of_le_of_lt bound later
      · rename_i isStopped
        exact synced.running isStopped
    exact {
      running := synced.running
      position := fun position isAt => Nat.le_trans (synced.position position isAt) grows
      last := Or.inl behind
      clients := fun client member => (synced.clients client member).of_behind rfl behind }

theorem Synced.broadcast {board : Dashboard} (synced : board.Synced) {next : Nat}
    (bound : next ≤ board.reconciler.notices) : (board.broadcast next).Synced where
  running := by simp [Dashboard.broadcast]
  position := by
    rintro position (isListening | isReading)
    · obtain rfl := Forwarder.listening.inj isListening
      exact bound
    · contradiction
  last := by
    right
    simp [Dashboard.broadcast, current]
  clients := fun client member => (synced.clients client member).broadcast next

theorem Synced.read {board : Dashboard} (synced : board.Synced) {next : Nat}
    (bound : next < board.reconciler.notices) :
    ({ board with forwarder := .reading (next + 1) }).Synced where
  running := by simp
  position := by
    rintro position (isListening | isReading)
    · contradiction
    · obtain rfl := Forwarder.reading.inj isReading
      exact bound
  last := Or.inl trivial
  clients := fun client member => (synced.clients client member).of_behind rfl trivial

theorem forward_cases {board next : Dashboard} (forwarded : board.forward = some next) :
    (board.forwarder = .starting ∧ next = board.broadcast 0) ∨
    (∃ position, board.forwarder = .reading position ∧ next = board.broadcast position) ∨
    (∃ position, board.forwarder = .listening position ∧
      (position < board.reconciler.notices ∧
          next = { board with forwarder := .reading (position + 1) } ∨
        recv channelCapacity board.notifications position = .lagged ∧
          next = { board with forwarder := .stopped })) := by
  unfold forward at forwarded
  split at forwarded
  next isStarting => exact Or.inl ⟨isStarting, (Option.some.inj forwarded).symm⟩
  next position isListening =>
    refine Or.inr (Or.inr ⟨position, isListening, ?_⟩)
    split at forwarded
    next received =>
      have bound := Broadcast.value_bound received
      rw [notifications, List.length_replicate] at bound
      exact Or.inl ⟨bound, (Option.some.inj forwarded).symm⟩
    next lagged => exact Or.inr ⟨lagged, (Option.some.inj forwarded).symm⟩
    next => contradiction
  next position isReading =>
    exact Or.inr (Or.inl ⟨position, isReading, (Option.some.inj forwarded).symm⟩)
  next => contradiction

theorem Synced.forward {board next : Dashboard} (synced : board.Synced)
    (fits : board.Fits .forward) (forwarded : board.forward = some next) : next.Synced := by
  obtain ⟨_, rfl⟩ | ⟨position, isReading, rfl⟩ | ⟨position, isListening, case_⟩ :=
    forward_cases forwarded
  · exact synced.broadcast (Nat.zero_le _)
  · exact synced.broadcast (synced.position position (Or.inr isReading))
  · obtain ⟨bound, rfl⟩ | ⟨lagged, _⟩ := case_
    · exact synced.read bound
    · exact absurd lagged (fits position isListening)

theorem Synced.withClients {board : Dashboard} (synced : board.Synced) {clients : List Client}
    (follow : ∀ client ∈ clients, board.Follows client) :
    ({ board with clients := clients }).Synced :=
  ⟨synced.running, synced.position, synced.last, follow⟩

theorem Synced.follows_next {board : Dashboard} (synced : board.Synced) {client next : Client}
    (follows : board.Follows client) {action : SessionStep}
    (subscribes : action = .subscribe → board.Behind ∨ client.received = some board.current)
    (taken : client.step board.current board.snapshots action = some next) :
    board.Follows next := by
  cases action with
  | greet =>
      obtain ⟨_, isNext⟩ := Option.ite_none_right_eq_some.mp taken
      obtain rfl := Option.some.inj isNext
      exact trivial
  | subscribe =>
      obtain ⟨_, isNext⟩ := Option.ite_none_right_eq_some.mp taken
      obtain rfl := Option.some.inj isNext
      exact ⟨Nat.le_refl _, fun _ => subscribes rfl⟩
  | receive =>
      simp only [Client.step] at taken
      split at taken
      next position isListening =>
        split at taken
        next snapshot received =>
          obtain rfl := Option.some.inj taken
          refine ⟨Broadcast.value_bound received, ?_⟩
          intro all
          refine synced.last.imp_right fun isLast => ?_
          exact Option.some.inj ((Broadcast.getLast_of_value received all).symm.trans isLast)
        next =>
          obtain rfl := Option.some.inj taken
          exact trivial
        next => contradiction
      next => contradiction
  | deliver =>
      simp only [Client.step] at taken
      split at taken
      next position snapshot isSending =>
        obtain rfl := Option.some.inj taken
        simp only [Follows, isSending] at follows ⊢
        exact ⟨follows.1, fun all => (follows.2 all).imp_right fun same => by rw [same]⟩
      next => contradiction
  | disconnect =>
      obtain rfl := Option.some.inj taken
      exact trivial

theorem Synced.step {board next : Dashboard} (synced : board.Synced) {event : DashboardEvent}
    (fits : board.Fits event) (taken : board.step event = some next) : next.Synced := by
  cases event with
  | reconcile event =>
      obtain ⟨reconciler, stepped, rfl⟩ := Option.map_eq_some_iff.mp taken
      exact synced.reconcile stepped
  | forward => exact synced.forward fits taken
  | connect =>
      obtain rfl := Option.some.inj taken
      apply synced.withClients
      intro client member
      rcases List.mem_append.mp member with old | new
      · exact synced.clients client old
      · obtain rfl := List.mem_singleton.mp new
        exact trivial
  | client index action =>
      obtain ⟨client, isClient, stepped⟩ := Option.bind_eq_some_iff.mp taken
      obtain ⟨changed, isChanged, rfl⟩ := Option.map_eq_some_iff.mp stepped
      have follows := synced.clients client (List.mem_of_getElem? isClient)
      have subscribes : action = .subscribe →
          board.Behind ∨ client.received = some board.current := by
        rintro rfl
        exact fits client isClient
      apply synced.withClients
      intro other member
      rcases List.mem_or_eq_of_mem_set member with old | rfl
      · exact synced.clients other old
      · exact synced.follows_next follows subscribes isChanged

theorem Synced.upToDate {board : Dashboard} (synced : board.Synced) (settled : board.Settled) :
    board.UpToDate := by
  have read : ¬ board.Behind := by
    obtain isStopped | isListening := settled.forwarded
    · exact absurd isStopped synced.running
    · simp [Behind, isListening, settled.announced]
  intro client member isOpen
  obtain isClosed | isListening := settled.delivered client member
  · exact absurd isClosed isOpen
  · have follows := synced.clients client member
    simp only [Follows, isListening] at follows
    exact (follows.2 trivial).resolve_left read

/-! Where a step does not fit, the board can go on to a state in which a client stays behind. -/

def leave (client : Client) : Client := { client with session := .closed }

theorem step_disconnect {board : Dashboard} {index : Nat} {client : Client}
    (isClient : board.clients[index]? = some client) :
    board.step (.client index .disconnect) =
      some { board with clients := board.clients.set index (leave client) } := by
  simp [step, isClient, Client.step, leave]

theorem exists_left (board : Dashboard) (index count : Nat) (bound : count ≤ board.clients.length) :
    ∃ clients : List Client,
      Machine.Reachable step Fits board { board with clients := clients } ∧
      clients.length = board.clients.length ∧ clients[index]? = board.clients[index]? ∧
      ∀ other client, clients[other]? = some client → other < count → other ≠ index →
        client.session = .closed := by
  induction count with
  | zero => exact ⟨board.clients, .refl, rfl, rfl, by simp⟩
  | succ count ih =>
      obtain ⟨clients, reached, sameLength, sameClient, closed⟩ := ih (by omega)
      by_cases here : count = index
      · refine ⟨clients, reached, sameLength, sameClient, ?_⟩
        intro other client isClient before notIndex
        exact closed other client isClient (by omega) notIndex
      · have isClient : clients[count]? = some clients[count] := List.getElem?_eq_getElem (by omega)
        refine ⟨clients.set count (leave clients[count]),
          reached.tail (.client count .disconnect) trivial (step_disconnect isClient), ?_, ?_, ?_⟩
        · rw [List.length_set, sameLength]
        · rw [List.getElem?_set_ne here, sameClient]
        · intro other client isOther before notIndex
          by_cases same : other = count
          · subst other
            rw [List.getElem?_set_self (by omega)] at isOther
            rw [← Option.some.inj isOther, leave]
          · rw [List.getElem?_set_ne (Ne.symm same)] at isOther
            exact closed other client isOther (by omega) notIndex

theorem exists_alone (board : Dashboard) (index : Nat) :
    ∃ clients : List Client,
      Machine.Reachable step Fits board { board with clients := clients } ∧
      clients.length = board.clients.length ∧ clients[index]? = board.clients[index]? ∧
      ∀ other client, clients[other]? = some client → other ≠ index →
        client.session = .closed := by
  obtain ⟨clients, reached, sameLength, sameClient, closed⟩ :=
    exists_left board index board.clients.length (Nat.le_refl _)
  refine ⟨clients, reached, sameLength, sameClient, ?_⟩
  intro other client isClient
  obtain ⟨bound, _⟩ := List.getElem?_eq_some_iff.mp isClient
  exact closed other client isClient (sameLength ▸ bound)

/-- What the claim asks of the states that can come. -/
def Converges (board : Dashboard) : Prop :=
  ∀ final, Machine.Reachable step Fits board final → final.Settled → final.UpToDate

theorem not_converges_of_stale {board : Dashboard} {index : Nat} {client : Client}
    (announced : board.reconciler.owed = false)
    (forwarded : board.forwarder = .stopped ∨
      board.forwarder = .listening board.reconciler.notices)
    (isClient : board.clients[index]? = some client)
    (isListening : client.session = .listening board.snapshots.length)
    (stale : client.received ≠ some board.current) : ¬ board.Converges := by
  intro converges
  obtain ⟨clients, reached, _, sameClient, closed⟩ := exists_alone board index
  have settled : ({ board with clients := clients }).Settled := by
    refine ⟨announced, forwarded, ?_⟩
    intro other member
    obtain ⟨position, isOther⟩ := List.getElem?_of_mem member
    by_cases same : position = index
    · subst position
      have isSame : client = other := Option.some.inj ((sameClient.trans isClient).symm.trans isOther)
      exact Or.inr (isSame ▸ isListening)
    · exact Or.inl (closed position other isOther same)
  have member : client ∈ clients := List.mem_of_getElem? (sameClient.trans isClient)
  exact stale (converges _ reached settled client member (by simp [isListening]))

theorem not_converges_of_subscribe {board next : Dashboard} (synced : board.Synced) {index : Nat}
    (unfit : ¬ board.Fits (.client index .subscribe))
    (taken : board.step (.client index .subscribe) = some next) : ¬ next.Converges := by
  obtain ⟨client, isClient, stepped⟩ := Option.bind_eq_some_iff.mp taken
  obtain ⟨subscribed, isSubscribed, rfl⟩ := Option.map_eq_some_iff.mp stepped
  obtain ⟨_, isNext⟩ := Option.ite_none_right_eq_some.mp isSubscribed
  obtain rfl := Option.some.inj isNext
  obtain ⟨read, stale⟩ : ¬ board.Behind ∧ client.received ≠ some board.current := by
    constructor
    · intro behind
      refine unfit fun other isOther => Or.inl behind
    · intro same
      refine unfit fun other isOther => Or.inr ?_
      rw [← Option.some.inj (isClient.symm.trans isOther)]
      exact same
  have atEnd : board.reconciler.owed = false ∧
      board.forwarder = .listening board.reconciler.notices := by
    unfold Behind at read
    split at read
    · exact absurd trivial read
    · exact absurd trivial read
    · rename_i position isListening
      have bound := synced.position position (Or.inl isListening)
      have isAll : position = board.reconciler.notices := by omega
      exact ⟨by simpa using fun owed => read (Or.inl owed), isAll ▸ isListening⟩
    · rename_i isStopped
      exact absurd isStopped synced.running
  obtain ⟨bound, _⟩ := List.getElem?_eq_some_iff.mp isClient
  exact not_converges_of_stale atEnd.1 (Or.inr atEnd.2) (List.getElem?_set_self bound) rfl stale

theorem Converges.later {board later : Dashboard} (converges : board.Converges)
    (reached : Machine.Reachable step Fits board later) : later.Converges :=
  fun final further => converges final (reached.trans further)

def withReconciler (board : Dashboard) (reconciler : Reconciler) : Dashboard :=
  { board with reconciler := reconciler }

theorem reachable_reconciled (board : Dashboard) {start reconciler : Reconciler}
    (reached : Machine.Reachable Reconciler.step (fun _ _ => True) start reconciler) :
    Machine.Reachable step Fits (board.withReconciler start) (board.withReconciler reconciler) := by
  refine reached.simulates board.withReconciler ?_
  intro state event next _ taken
  exact Or.inr ⟨.reconcile event, trivial, by simp [withReconciler, step, taken]⟩

theorem step_newest {board : Dashboard} {client next : Client} {action : SessionStep}
    (taken : client.step board.current board.snapshots action = some next) :
    ({ board with clients := board.clients ++ [client] }).step
      (.client board.clients.length action) =
        some { board with clients := board.clients ++ [next] } := by
  simp only [current] at taken
  simp [step, current, taken]

def withClient (board : Dashboard) (received : StateSnapshot) : Dashboard :=
  { board with clients := board.clients ++ [⟨.listening board.snapshots.length, some received⟩] }

theorem reachable_subscribed (board : Dashboard) :
    Machine.Reachable step Fits board (board.withClient board.current) := by
  have connects : Machine.Reachable step Fits board
      { board with clients := board.clients ++ [⟨.connected, none⟩] } :=
    .tail .connect .refl trivial rfl
  have greets : Machine.Reachable step Fits board
      { board with clients := board.clients ++ [⟨.greeted, some board.current⟩] } :=
    connects.tail (.client board.clients.length .greet) trivial (step_newest rfl)
  refine greets.tail (.client board.clients.length .subscribe) ?_ (step_newest rfl)
  intro client isClient
  rw [List.getElem?_concat_length] at isClient
  right
  rw [← Option.some.inj isClient]
  rfl

/-- With the forwarding task gone, the next change is not shown. -/
theorem not_converges_of_stopped {board : Dashboard} (stopped : board.forwarder = .stopped) :
    ¬ board.Converges := by
  intro converges
  obtain ⟨building, older, starts, isBuilding, announced, isConverging⟩ :=
    board.reconciler.exists_building
  obtain ⟨ended, fails, stillAnnounced, isBlocked⟩ :=
    Reconciler.exists_blocked isBuilding rfl announced
  have begun : Machine.Reachable step Fits board (board.withReconciler building) :=
    board.reachable_reconciled starts
  have joins := reachable_subscribed (board.withReconciler building)
  have ends : Machine.Reachable step Fits
      ((board.withReconciler building).withClient building.shared.snapshot)
      ((board.withClient building.shared.snapshot).withReconciler ended) :=
    (board.withClient building.shared.snapshot).reachable_reconciled fails
  have stale : some building.shared.snapshot ≠ some ended.shared.snapshot := by
    simp [DaemonState.snapshot, isBlocked, isConverging]
  have stays : ¬ ((board.withClient building.shared.snapshot).withReconciler ended).Converges :=
    not_converges_of_stale stillAnnounced (Or.inl stopped) List.getElem?_concat_length rfl stale
  exact stays (converges.later (begun.trans (joins.trans ends)))

theorem not_converges_of_lag {board next : Dashboard} (unfit : ¬ board.Fits .forward)
    (taken : board.step .forward = some next) : ¬ next.Converges := by
  obtain ⟨position, isListening, lagged⟩ : ∃ position, board.forwarder = .listening position ∧
      recv channelCapacity board.notifications position = .lagged := by
    simpa [Fits] using unfit
  apply not_converges_of_stopped
  simp only [step, forward, isListening, lagged] at taken
  rw [← Option.some.inj taken]

theorem step_converges_iff {board next : Dashboard} (synced : board.Synced)
    {event : DashboardEvent} (taken : board.step event = some next) :
    next.Converges ↔ board.Fits event := by
  constructor
  · intro converges
    by_contra unfit
    cases event with
    | reconcile event => exact unfit trivial
    | forward => exact not_converges_of_lag unfit taken converges
    | connect => exact unfit trivial
    | client index action =>
        cases action with
        | subscribe => exact not_converges_of_subscribe synced unfit taken converges
        | greet => exact unfit trivial
        | receive => exact unfit trivial
        | deliver => exact unfit trivial
        | disconnect => exact unfit trivial
  · intro fits final reached settled
    have stays : final.Synced := reached.invariant Synced (synced.step fits taken)
      fun _ _ _ holds permitted moved => holds.step permitted moved
    exact stays.upToDate settled

theorem dashboards_converge_iff {board : Dashboard}
    (reached : Machine.Reachable step Fits initial board) :
    (board.Settled → board.UpToDate) ∧
    ∀ event next, board.step event = some next → (next.Converges ↔ board.Fits event) := by
  have synced : board.Synced := reached.invariant Synced initial_synced
    fun _ _ _ holds permitted moved => holds.step permitted moved
  exact ⟨synced.upToDate, fun _ _ taken => step_converges_iff synced taken⟩

theorem dashboards_converge_iff_connected :
    ∃ board, Machine.run step initial [.forward, .connect, .client 0 .greet, .client 0 .subscribe,
      .reconcile (.command (.setDesiredState Reconciler.buildAll)), .reconcile .announce,
      .forward, .forward, .client 0 .receive, .client 0 .deliver] = some board ∧
    (board.Settled → board.UpToDate) ∧
    ∀ event next, board.step event = some next → (next.Converges ↔ board.Fits event) := by
  refine ⟨_, rfl, dashboards_converge_iff (.tail (.client 0 .deliver) (.tail (.client 0 .receive)
    (.tail .forward (.tail .forward (.tail (.reconcile .announce) (.tail
    (.reconcile (.command (.setDesiredState Reconciler.buildAll))) (.tail (.client 0 .subscribe)
    (.tail (.client 0 .greet) (.tail .connect (.tail .forward .refl ?_ rfl) trivial rfl) trivial rfl)
    ?_ rfl) trivial rfl) trivial rfl) ?_ rfl) ?_ rfl) trivial rfl) trivial rfl)⟩
  · intro next isListening
    contradiction
  · intro client isClient
    obtain rfl := Option.some.inj isClient
    exact Or.inr rfl
  · intro next isListening
    obtain rfl := Forwarder.listening.inj isListening
    decide
  · intro next isListening
    contradiction

/-- The build ends, and its snapshot is broadcast, after a client got the state and before it
subscribes. -/
theorem snapshot_missed :
    ∃ board, Machine.run step initial [.forward,
      .reconcile (.command (.setDesiredState Reconciler.buildAll)), .reconcile .announce, .forward,
      .forward, .connect, .client 0 .greet, .reconcile (.complete 0 Reconciler.cannotList),
      .forward, .forward, .client 0 .subscribe] = some board ∧
    board.Settled ∧ board.reconciler.builds.all (fun build => build.ended.isSome) = true ∧
    board.current = ⟨.blocked, []⟩ ∧
    board.clients = [⟨.listening 3, some ⟨.converging, []⟩⟩] ∧ ¬ board.UpToDate := by
  refine ⟨_, rfl, ⟨rfl, Or.inr rfl, ?_⟩, rfl, rfl, rfl, ?_⟩
  · intro client member
    obtain rfl := List.mem_singleton.mp member
    exact Or.inr rfl
  · intro upToDate
    have same := upToDate _ (List.mem_singleton_self _) (by simp)
    exact absurd same (by decide)

end Dashboard

end Rage.Daemon
