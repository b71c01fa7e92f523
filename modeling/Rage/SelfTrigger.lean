import Rage.Watcher

/-!
The daemon does not trigger itself.  The native watcher is gone before the first command can come,
so what reaches the reconciler are changes that were made before there was any build.
-/

namespace Rage.Daemon

/-- What is documented of the native watcher: dropping it ends the watch. -/
def Notify.EndsOnDrop (notify : Notify) : Prop := ∀ path, notify false path = []

def OnlyOthers (group : List ChangedPath) : Prop := ∀ changed ∈ group, changed.origin = .other

namespace FileWatcher

/-- The watcher holds no change that a task made. -/
structure Clean (watcher : FileWatcher) : Prop where
  raw : ∀ paths, some paths ∈ watcher.raw → OnlyOthers paths
  buffered : OnlyOthers watcher.buffered
  events : ∀ group ∈ watcher.events, group ≠ [] ∧ OnlyOthers group

theorem start_clean (now : Nat) : (start now).Clean := by
  constructor
  · simp [start]
  · simp [start, OnlyOthers]
  · simp [start]

theorem report_onlyOthers {notify : Notify} {watching : Bool} {path : Path}
    {paths : List ChangedPath} (member : some paths ∈ notify.report watching ⟨path, .other⟩) :
    OnlyOthers paths := by
  obtain ⟨result, _, isPaths⟩ := List.mem_map.mp member
  obtain ⟨reported, _, rfl⟩ := Option.map_eq_some_iff.mp isPaths
  intro changed isReported
  obtain ⟨_, _, rfl⟩ := List.mem_map.mp isReported
  rfl

theorem Clean.notified {watcher : FileWatcher} (clean : watcher.Clean) (notify : Notify)
    (path : Path) : (watcher.notified notify ⟨path, .other⟩).Clean := by
  constructor
  case raw =>
    intro paths member
    rcases List.mem_append.mp member with old | new
    · exact clean.raw paths old
    · exact report_onlyOthers new
  case buffered => exact clean.buffered
  case events => exact clean.events

theorem notified_dropped {notify : Notify} (ends : notify.EndsOnDrop) {watcher : FileWatcher}
    (dropped : watcher.inner = false) (changed : ChangedPath) :
    watcher.notified notify changed = watcher := by
  have silent : notify.report watcher.inner changed = [] := by
    simp [Notify.report, dropped, ends changed.path]
  rw [notified, silent, List.append_nil]

theorem receive_cases {watcher next : FileWatcher} {now : Nat}
    (received : watcher.receive now = some next) :
    ∃ result rest, watcher.raw = result :: rest ∧ next = { watcher with
      raw := rest
      buffered := watcher.buffered ++ result.getD []
      sleepFrom := now } := by
  unfold receive at received
  cases isRaw : watcher.raw with
  | nil => simp [isRaw] at received
  | cons result rest =>
      rw [isRaw] at received
      exact ⟨result, rest, rfl, (Option.some.inj received).symm⟩

theorem Clean.receive {watcher next : FileWatcher} (clean : watcher.Clean) {now : Nat}
    (received : watcher.receive now = some next) : next.Clean := by
  obtain ⟨result, rest, isRaw, rfl⟩ := receive_cases received
  have ofRaw := clean.raw
  rw [isRaw] at ofRaw
  constructor
  case raw => exact fun paths member => ofRaw paths (List.mem_cons_of_mem result member)
  case buffered =>
    intro changed member
    rcases List.mem_append.mp member with old | new
    · exact clean.buffered changed old
    · cases result with
      | none => simp at new
      | some paths => exact ofRaw paths List.mem_cons_self changed new
  case events => exact clean.events

/-- A round that ends with the sleep hands over the buffer or nothing. -/
theorem wake_cases {watcher next : FileWatcher} {debounce now : Nat}
    (woken : watcher.wake debounce now = some next) :
    next.inner = watcher.inner ∧ next.raw = watcher.raw ∧
    ∃ flushed, next.events = watcher.events ++ flushed ∧
      (flushed = [] ∧ next.buffered = watcher.buffered ∨
        flushed = [watcher.buffered] ∧ watcher.buffered ≠ [] ∧ next.buffered = []) := by
  obtain ⟨_, isNext⟩ := Option.ite_none_right_eq_some.mp woken
  split at isNext
  · rename_i flushes
    obtain rfl := Option.some.inj isNext
    exact ⟨rfl, rfl, [watcher.buffered], rfl, Or.inr ⟨rfl, flushes.1, rfl⟩⟩
  · obtain rfl := Option.some.inj isNext
    exact ⟨rfl, rfl, [], (List.append_nil _).symm, Or.inl ⟨rfl, rfl⟩⟩

theorem Clean.wake {watcher next : FileWatcher} (clean : watcher.Clean) {debounce now : Nat}
    (woken : watcher.wake debounce now = some next) : next.Clean := by
  obtain ⟨_, sameRaw, flushed, isEvents, ⟨rfl, sameBuffer⟩ | ⟨rfl, filled, drained⟩⟩ :=
    wake_cases woken
  · exact ⟨sameRaw ▸ clean.raw, sameBuffer ▸ clean.buffered,
      by simpa [isEvents] using clean.events⟩
  · constructor
    case raw => exact sameRaw ▸ clean.raw
    case buffered => simp [drained, OnlyOthers]
    case events =>
      intro group member
      rw [isEvents] at member
      rcases List.mem_append.mp member with old | new
      · exact clean.events group old
      · rw [List.mem_singleton.mp new]
        exact ⟨filled, clean.buffered⟩

end FileWatcher

namespace DaemonRun

/-- No change of a task is on its way, and there is no build before the socket is served. -/
structure Clean (run : DaemonRun) : Prop where
  unstarted : run.stage = .starting → run.watcher = none
  watcher : ∀ watcher, run.watcher = some watcher → watcher.Clean
  dropped : ∀ watcher, run.watcher = some watcher → run.stage = .serving → watcher.inner = false
  idle : run.stage ≠ .serving → run.reconciler.shared.desired = none ∧ run.reconciler.builds = []
  noSets : run.stage ≠ .serving → ∀ desired, .setDesired desired ∉ run.queue
  queue : ∀ group, .filesChanged group ∈ run.queue → OnlyOthers group
  groups : ∀ group ∈ run.groups, group ≠ [] ∧ OnlyOthers group
  causes : ∀ group, .filesChanged group ∈ run.causes → OnlyOthers group

theorem initial_clean : initial.Clean where
  unstarted := by simp [initial]
  watcher := by simp [initial]
  dropped := by simp [initial]
  idle := by simp [initial, Reconciler.spawned]
  noSets := by simp [initial]
  queue := by simp [initial]
  groups := by simp [initial]
  causes := by simp [initial]

/-- The events of the watcher's part: only the watcher, and with it the groups, change. -/
theorem Clean.withWatcher {run : DaemonRun} (clean : run.Clean) {before next : FileWatcher}
    (isBefore : run.watcher = some before) (nextClean : next.Clean)
    (inner : next.inner = before.inner) : ({ run with watcher := some next }).Clean where
  unstarted := by
    intro starting
    rw [clean.unstarted starting] at isBefore
    contradiction
  watcher := by
    intro watcher isWatcher
    obtain rfl := Option.some.inj isWatcher
    exact nextClean
  dropped := by
    intro watcher isWatcher serving
    obtain rfl := Option.some.inj isWatcher
    exact inner.trans (clean.dropped before isBefore serving)
  idle := clean.idle
  noSets := clean.noSets
  queue := clean.queue
  groups := clean.groups
  causes := clean.causes

theorem Clean.send {run : DaemonRun} (clean : run.Clean) {message : Message}
    (fromOthers : ∀ group, message = .filesChanged group → OnlyOthers group)
    (served : run.stage ≠ .serving → ∀ desired, message ≠ .setDesired desired) :
    (run.send message).Clean where
  unstarted := clean.unstarted
  watcher := clean.watcher
  dropped := clean.dropped
  idle := clean.idle
  noSets := by
    intro notServing desired member
    rcases List.mem_append.mp member with old | new
    · exact clean.noSets notServing desired old
    · exact served notServing desired (List.mem_singleton.mp new).symm
  queue := by
    intro group member
    rcases List.mem_append.mp member with old | new
    · exact clean.queue group old
    · exact fromOthers group (List.mem_singleton.mp new).symm
  groups := clean.groups
  causes := clean.causes

theorem Clean.otherWrites {run : DaemonRun} (clean : run.Clean) (notify : Notify) (path : Path) :
    (run.changes notify ⟨path, .other⟩).Clean := by
  cases isWatcher : run.watcher with
  | none =>
      have same : run.changes notify ⟨path, .other⟩ = run := by
        rw [changes, isWatcher, Option.map_none, ← isWatcher]
      rw [same]
      exact clean
  | some watcher =>
      rw [changes, isWatcher]
      exact clean.withWatcher isWatcher ((clean.watcher watcher isWatcher).notified notify path) rfl

theorem taskWrites_unseen {run : DaemonRun} (clean : run.Clean) {notify : Notify}
    (ends : notify.EndsOnDrop) {age : Nat} (isBuild : age < run.reconciler.builds.length)
    (changed : ChangedPath) : run.changes notify changed = run := by
  have serving : run.stage = .serving := by
    by_contra notServing
    simp [(clean.idle notServing).2] at isBuild
  cases isWatcher : run.watcher with
  | none => rw [changes, isWatcher, Option.map_none, ← isWatcher]
  | some watcher =>
      have dropped := clean.dropped watcher isWatcher serving
      rw [changes, isWatcher, Option.map_some, FileWatcher.notified_dropped ends dropped,
        ← isWatcher]

theorem Clean.withGroups {run : DaemonRun} (clean : run.Clean) {flushed : List (List ChangedPath)}
    (fromOthers : ∀ group ∈ flushed, group ≠ [] ∧ OnlyOthers group) :
    ({ run with groups := run.groups ++ flushed }).Clean where
  unstarted := clean.unstarted
  watcher := clean.watcher
  dropped := clean.dropped
  idle := clean.idle
  noSets := clean.noSets
  queue := clean.queue
  groups := by
    intro group member
    rcases List.mem_append.mp member with old | new
    · exact clean.groups group old
    · exact fromOthers group new
  causes := clean.causes

theorem Clean.wake {run next : DaemonRun} (clean : run.Clean) {debounce : Nat}
    (woken : run.wake debounce = some next) : next.Clean := by
  obtain ⟨before, isBefore, woken⟩ := Option.bind_eq_some_iff.mp woken
  obtain ⟨watcher, isWoken, rfl⟩ := Option.map_eq_some_iff.mp woken
  have nextClean := (clean.watcher before isBefore).wake isWoken
  have sameInner := (FileWatcher.wake_cases isWoken).1
  refine (clean.withWatcher isBefore nextClean sameInner).withGroups ?_
  intro group member
  exact nextClean.events group (List.mem_of_mem_drop member)

theorem Clean.receive {run : DaemonRun} (clean : run.Clean) {before next : FileWatcher}
    (isBefore : run.watcher = some before) (received : before.receive run.now = some next) :
    ({ run with watcher := some next }).Clean := by
  refine clean.withWatcher isBefore ((clean.watcher before isBefore).receive received) ?_
  obtain ⟨_, _, _, rfl⟩ := FileWatcher.receive_cases received
  rfl

theorem consume_cases {run next : DaemonRun} (consumed : run.consume = some next) :
    ∃ watcher group rest, run.watcher = some watcher ∧ watcher.events = group :: rest ∧
      next = { run with watcher := some { watcher with events := rest } }.send
        (.filesChanged group) := by
  obtain ⟨watcher, isWatcher, consumed⟩ := Option.bind_eq_some_iff.mp consumed
  cases isEvents : watcher.events with
  | nil => simp [isEvents] at consumed
  | cons group rest =>
      rw [isEvents] at consumed
      exact ⟨watcher, group, rest, isWatcher, isEvents, (Option.some.inj consumed).symm⟩

theorem Clean.consume {run next : DaemonRun} (clean : run.Clean)
    (consumed : run.consume = some next) : next.Clean := by
  obtain ⟨watcher, group, rest, isWatcher, isEvents, rfl⟩ := consume_cases consumed
  have watcherClean := clean.watcher watcher isWatcher
  have ofEvents := watcherClean.events
  rw [isEvents] at ofEvents
  have restClean : ({ watcher with events := rest }).Clean :=
    ⟨watcherClean.raw, watcherClean.buffered,
      fun other member => ofEvents other (List.mem_cons_of_mem group member)⟩
  refine (clean.withWatcher isWatcher restClean rfl).send ?_ (by simp)
  rintro other ⟨⟩
  exact (ofEvents group List.mem_cons_self).2

theorem reconcile_cases {run next : DaemonRun} (reconciled : run.reconcile = some next) :
    ∃ message rest, run.queue = message :: rest ∧ next = { run with
      queue := rest
      reconciler := run.reconciler.handle message.cmd
      causes := if run.reconciler.Starts message.cmd then message :: run.causes
        else run.causes } := by
  unfold reconcile at reconciled
  cases isQueue : run.queue with
  | nil => simp [isQueue] at reconciled
  | cons message rest =>
      rw [isQueue] at reconciled
      obtain ⟨reconciler, stepped, rfl⟩ := Option.map_eq_some_iff.mp reconciled
      obtain ⟨_, isNext⟩ := Option.ite_none_left_eq_some.mp stepped
      obtain rfl := Option.some.inj isNext
      refine ⟨message, rest, rfl, ?_⟩
      by_cases starts : run.reconciler.Starts message.cmd
      · simp [Reconciler.handle_builds_length, starts]
      · simp [Reconciler.handle_builds_length, starts]

theorem Clean.reconcile {run next : DaemonRun} (clean : run.Clean)
    (reconciled : run.reconcile = some next) : next.Clean := by
  obtain ⟨message, rest, isQueue, rfl⟩ := reconcile_cases reconciled
  have inQueue : ∀ {other}, other ∈ rest → other ∈ run.queue := by
    intro other member
    rw [isQueue]
    exact List.mem_cons_of_mem message member
  have isFirst : message ∈ run.queue := by simp [isQueue]
  constructor
  case unstarted => exact clean.unstarted
  case watcher => exact clean.watcher
  case dropped => exact clean.dropped
  case idle =>
    intro notServing
    obtain ⟨noDesired, noBuilds⟩ := clean.idle notServing
    cases message with
    | setDesired desired => exact absurd isFirst (clean.noSets notServing desired)
    | filesChanged group => simp [Message.cmd, Reconciler.handle, noDesired, noBuilds]
    | retry package script =>
        simp [Message.cmd, Reconciler.handle, DaemonState.retain, noDesired, noBuilds]
  case noSets => exact fun notServing desired member => clean.noSets notServing desired (inQueue member)
  case queue => exact fun group member => clean.queue group (inQueue member)
  case groups => exact clean.groups
  case causes =>
    intro group member
    split at member
    · rcases List.mem_cons.mp member with isMessage | old
      · exact clean.queue group (isMessage ▸ isFirst)
      · exact clean.causes group old
    · exact clean.causes group member

theorem Clean.withReconciler {run : DaemonRun} (clean : run.Clean) {next : Reconciler}
    (sameDesired : next.shared.desired = run.reconciler.shared.desired)
    (sameLength : next.builds.length = run.reconciler.builds.length) :
    ({ run with reconciler := next }).Clean where
  unstarted := clean.unstarted
  watcher := clean.watcher
  dropped := clean.dropped
  idle := by
    intro notServing
    obtain ⟨noDesired, noBuilds⟩ := clean.idle notServing
    refine ⟨sameDesired.trans noDesired, ?_⟩
    rw [noBuilds, List.length_nil] at sameLength
    exact List.eq_nil_of_length_eq_zero sameLength
  noSets := clean.noSets
  queue := clean.queue
  groups := clean.groups
  causes := clean.causes

theorem Clean.watching {run : DaemonRun} (clean : run.Clean) (starting : run.stage = .starting) :
    ({ run with stage := .watching, watcher := some (.start run.now) }).Clean where
  unstarted := by simp
  watcher := by
    intro watcher isWatcher
    obtain rfl := Option.some.inj isWatcher
    exact FileWatcher.start_clean run.now
  dropped := by simp
  idle := fun _ => clean.idle (by simp [starting])
  noSets := fun _ => clean.noSets (by simp [starting])
  queue := clean.queue
  groups := clean.groups
  causes := clean.causes

theorem Clean.unwatched {run : DaemonRun} (clean : run.Clean) (starting : run.stage = .starting) :
    ({ run with stage := .serving }).Clean where
  unstarted := by simp
  watcher := clean.watcher
  dropped := by simp [clean.unstarted starting]
  idle := by simp
  noSets := by simp
  queue := clean.queue
  groups := clean.groups
  causes := clean.causes

theorem Clean.wire {run : DaemonRun} (clean : run.Clean) : (run.wire consumerCaptures).Clean where
  unstarted := by simp [DaemonRun.wire]
  watcher := by
    intro watcher isWatcher
    obtain ⟨before, isBefore, rfl⟩ := Option.map_eq_some_iff.mp isWatcher
    have beforeClean := clean.watcher before isBefore
    exact ⟨beforeClean.raw, beforeClean.buffered, beforeClean.events⟩
  dropped := by
    intro watcher isWatcher _
    obtain ⟨before, _, rfl⟩ := Option.map_eq_some_iff.mp isWatcher
    rfl
  idle := by simp [DaemonRun.wire]
  noSets := by simp [DaemonRun.wire]
  queue := clean.queue
  groups := clean.groups
  causes := clean.causes

theorem step_clean {notify : Notify} (ends : notify.EndsOnDrop) {debounce : Nat}
    {run next : DaemonRun} (clean : run.Clean) {event : DaemonEvent}
    (taken : run.step notify consumerCaptures debounce event = some next) : next.Clean := by
  cases event with
  | pass duration =>
      obtain rfl := Option.some.inj taken
      exact { clean with }
  | startWatcher succeeds =>
      obtain ⟨starting, isNext⟩ := Option.ite_none_right_eq_some.mp taken
      obtain rfl := Option.some.inj isNext
      cases succeeds with
      | false => exact clean.unwatched starting
      | true => exact clean.watching starting
  | wire =>
      obtain ⟨_, isNext⟩ := Option.ite_none_right_eq_some.mp taken
      obtain rfl := Option.some.inj isNext
      exact clean.wire
  | setDesired desired =>
      obtain ⟨serving, isNext⟩ := Option.ite_none_right_eq_some.mp taken
      obtain rfl := Option.some.inj isNext
      have counted : ({ run with sets := run.sets + 1 }).Clean := { clean with }
      exact counted.send (by simp) (by simp [serving])
  | retry package script =>
      obtain rfl := Option.some.inj taken
      exact clean.send (by simp) (by simp)
  | otherWrites path =>
      obtain rfl := Option.some.inj taken
      exact clean.otherWrites notify path
  | taskWrites age path =>
      obtain ⟨isBuild, isNext⟩ := Option.ite_none_right_eq_some.mp taken
      rw [taskWrites_unseen clean ends isBuild] at isNext
      obtain rfl := Option.some.inj isNext
      exact clean
  | receive =>
      obtain ⟨before, isBefore, received⟩ := Option.bind_eq_some_iff.mp taken
      obtain ⟨watcher, isReceived, rfl⟩ := Option.map_eq_some_iff.mp received
      exact clean.receive isBefore isReceived
  | wake => exact clean.wake taken
  | consume => exact clean.consume (Option.ite_none_right_eq_some.mp taken).2
  | reconcile => exact clean.reconcile taken
  | announce =>
      obtain ⟨reconciler, stepped, rfl⟩ := Option.map_eq_some_iff.mp taken
      obtain ⟨sameDesired, sameLength⟩ := Reconciler.step_kept stepped (by simp)
      exact clean.withReconciler sameDesired sameLength
  | complete age meets =>
      obtain ⟨reconciler, stepped, rfl⟩ := Option.map_eq_some_iff.mp taken
      obtain ⟨sameDesired, sameLength⟩ := Reconciler.step_kept stepped (by simp)
      exact clean.withReconciler sameDesired sameLength

end DaemonRun

/-! How many builds there can be: each uses up a command, and each command of a file change a
group. -/

def Message.mayStart : Message → Bool
  | .retry _ _ => false
  | _ => true

theorem Message.mayStart_of_starts {message : Message} {reconciler : Reconciler}
    (starts : reconciler.Starts message.cmd) : message.mayStart = true := by
  cases message with
  | setDesired desired => rfl
  | filesChanged group => rfl
  | retry package script => exact absurd starts id

namespace DaemonRun

def waitingGroups (run : DaemonRun) : Nat :=
  match run.watcher with
  | none => 0
  | some watcher => watcher.events.length

structure Counted (run : DaemonRun) : Prop where
  causes : run.causes.length = run.reconciler.builds.length
  builds : run.reconciler.builds.length + run.queue.countP Message.mayStart + run.waitingGroups ≤
    run.sets + run.groups.length

theorem initial_counted : initial.Counted := by
  constructor
  · rfl
  · simp [initial, waitingGroups, Reconciler.spawned]

theorem changes_counted {run : DaemonRun} (counted : run.Counted) (notify : Notify)
    (changed : ChangedPath) : (run.changes notify changed).Counted := by
  have waiting : (run.changes notify changed).waitingGroups = run.waitingGroups := by
    cases isWatcher : run.watcher with
    | none => simp [waitingGroups, changes, isWatcher]
    | some watcher => simp [waitingGroups, changes, isWatcher, FileWatcher.notified]
  exact ⟨counted.causes, waiting ▸ counted.builds⟩

theorem wire_counted {run : DaemonRun} (counted : run.Counted) (captured : Captured) :
    (run.wire captured).Counted := by
  have waiting : (run.wire captured).waitingGroups = run.waitingGroups := by
    cases isWatcher : run.watcher with
    | none => simp [waitingGroups, wire, isWatcher]
    | some watcher => simp [waitingGroups, wire, isWatcher]
  exact ⟨counted.causes, waiting ▸ counted.builds⟩

theorem wake_counted {run next : DaemonRun} (counted : run.Counted) {debounce : Nat}
    (woken : run.wake debounce = some next) : next.Counted := by
  obtain ⟨before, isBefore, woken⟩ := Option.bind_eq_some_iff.mp woken
  obtain ⟨watcher, isWoken, rfl⟩ := Option.map_eq_some_iff.mp woken
  obtain ⟨_, _, flushed, isEvents, _⟩ := FileWatcher.wake_cases isWoken
  have bound := counted.builds
  simp only [waitingGroups, isBefore] at bound
  constructor
  · exact counted.causes
  · simp only [waitingGroups, isEvents, List.length_append, List.drop_left]
    omega

theorem receive_counted {run : DaemonRun} (counted : run.Counted) {before next : FileWatcher}
    (isBefore : run.watcher = some before) (received : before.receive run.now = some next) :
    ({ run with watcher := some next }).Counted := by
  obtain ⟨_, _, _, rfl⟩ := FileWatcher.receive_cases received
  have bound := counted.builds
  simp only [waitingGroups, isBefore] at bound
  exact ⟨counted.causes, bound⟩

theorem consume_counted {run next : DaemonRun} (counted : run.Counted)
    (consumed : run.consume = some next) : next.Counted := by
  obtain ⟨watcher, group, rest, isWatcher, isEvents, rfl⟩ := consume_cases consumed
  have bound := counted.builds
  simp only [waitingGroups, isWatcher, isEvents, List.length_cons] at bound
  constructor
  · exact counted.causes
  · simp only [waitingGroups, send, List.countP_append, List.countP_singleton, Message.mayStart,
      ↓reduceIte]
    omega

theorem reconcile_counted {run next : DaemonRun} (counted : run.Counted)
    (reconciled : run.reconcile = some next) : next.Counted := by
  obtain ⟨message, rest, isQueue, rfl⟩ := reconcile_cases reconciled
  have bound := counted.builds
  have length := counted.causes
  rw [isQueue, List.countP_cons] at bound
  by_cases starts : run.reconciler.Starts message.cmd
  · rw [if_pos (Message.mayStart_of_starts starts)] at bound
    constructor
    · simp [Reconciler.handle_builds_length, starts, length]
    · simp only [Reconciler.handle_builds_length, starts, ↓reduceIte, waitingGroups] at bound ⊢
      omega
  · constructor
    · simp [Reconciler.handle_builds_length, starts, length]
    · simp only [Reconciler.handle_builds_length, starts, ↓reduceIte, waitingGroups] at bound ⊢
      omega

theorem step_counted {notify : Notify} {captured : Captured} {debounce : Nat}
    {run next : DaemonRun} (counted : run.Counted) {event : DaemonEvent}
    (taken : run.step notify captured debounce event = some next) : next.Counted := by
  have bound := counted.builds
  cases event with
  | pass duration =>
      obtain rfl := Option.some.inj taken
      exact ⟨counted.causes, bound⟩
  | startWatcher succeeds =>
      obtain ⟨_, isNext⟩ := Option.ite_none_right_eq_some.mp taken
      obtain rfl := Option.some.inj isNext
      cases succeeds with
      | false => exact ⟨counted.causes, bound⟩
      | true =>
          refine ⟨counted.causes, ?_⟩
          simp only [↓reduceIte, waitingGroups, FileWatcher.start, List.length_nil]
          omega
  | wire =>
      obtain ⟨_, isNext⟩ := Option.ite_none_right_eq_some.mp taken
      obtain rfl := Option.some.inj isNext
      exact wire_counted counted captured
  | setDesired desired =>
      obtain ⟨_, isNext⟩ := Option.ite_none_right_eq_some.mp taken
      obtain rfl := Option.some.inj isNext
      refine ⟨counted.causes, ?_⟩
      simp only [waitingGroups, send, List.countP_append, List.countP_singleton, Message.mayStart,
        ↓reduceIte] at bound ⊢
      omega
  | retry package script =>
      obtain rfl := Option.some.inj taken
      refine ⟨counted.causes, ?_⟩
      simpa [send, Message.mayStart, waitingGroups] using bound
  | otherWrites path =>
      obtain rfl := Option.some.inj taken
      exact changes_counted counted notify ⟨path, .other⟩
  | taskWrites age path =>
      obtain ⟨_, isNext⟩ := Option.ite_none_right_eq_some.mp taken
      obtain rfl := Option.some.inj isNext
      exact changes_counted counted notify ⟨path, .task⟩
  | receive =>
      obtain ⟨before, isBefore, received⟩ := Option.bind_eq_some_iff.mp taken
      obtain ⟨watcher, isReceived, rfl⟩ := Option.map_eq_some_iff.mp received
      exact receive_counted counted isBefore isReceived
  | wake => exact wake_counted counted taken
  | consume => exact consume_counted counted (Option.ite_none_right_eq_some.mp taken).2
  | reconcile => exact reconcile_counted counted taken
  | announce =>
      obtain ⟨reconciler, stepped, rfl⟩ := Option.map_eq_some_iff.mp taken
      obtain ⟨_, sameLength⟩ := Reconciler.step_kept stepped (by simp)
      exact ⟨counted.causes.trans sameLength.symm, sameLength ▸ bound⟩
  | complete age meets =>
      obtain ⟨reconciler, stepped, rfl⟩ := Option.map_eq_some_iff.mp taken
      obtain ⟨_, sameLength⟩ := Reconciler.step_kept stepped (by simp)
      exact ⟨counted.causes.trans sameLength.symm, sameLength ▸ bound⟩

/-- A group with a change that no task made. -/
def hasOthers (group : List ChangedPath) : Bool := group.any fun changed => changed.origin == .other

theorem hasOthers_of_onlyOthers {group : List ChangedPath} (filled : group ≠ [])
    (others : OnlyOthers group) : hasOthers group = true := by
  obtain ⟨changed, rest, rfl⟩ := List.exists_cons_of_ne_nil filled
  simp [hasOthers, others changed List.mem_cons_self]

theorem never_triggers_itself {notify : Notify} (ends : notify.EndsOnDrop) {run : DaemonRun}
    (reached : Machine.Reachable (step notify consumerCaptures daemonDebounceMs) (fun _ _ => True)
      initial run) :
    run.reconciler.builds.length ≤ run.sets + run.groups.countP hasOthers ∧
    run.causes.length = run.reconciler.builds.length ∧
    ∀ group, .filesChanged group ∈ run.causes → OnlyOthers group := by
  have clean : run.Clean :=
    reached.invariant Clean initial_clean fun _ _ _ holds _ taken => step_clean ends holds taken
  have counted : run.Counted :=
    reached.invariant Counted initial_counted fun _ _ _ holds _ taken => step_counted holds taken
  have allOthers : run.groups.countP hasOthers = run.groups.length := by
    rw [List.countP_eq_length]
    intro group member
    obtain ⟨filled, others⟩ := clean.groups group member
    exact hasOthers_of_onlyOthers filled others
  have bound := counted.builds
  exact ⟨by omega, counted.causes, clean.causes⟩

/-- A native watcher that tells each change while it is there. -/
def tells : Notify := fun watching path => if watching then [some [path]] else []

def everything : DesiredState := ⟨utf8 "/w", utf8 "build", none⟩

/-- A source is edited while the daemon starts; then a build is asked for, and it writes. -/
def editAndBuild : List DaemonEvent :=
  [.startWatcher true, .otherWrites (utf8 "/w/a.ts"), .receive, .wire, .setDesired everything,
    .reconcile, .announce, .taskWrites 0 (utf8 "/w/a.js"), .pass 300, .wake, .consume, .reconcile]

def editedRun : Option DaemonRun :=
  Machine.run (step tells consumerCaptures daemonDebounceMs) initial editAndBuild

def numbers (run : DaemonRun) : Nat × Nat × Nat :=
  (run.reconciler.builds.length, run.sets, run.groups.countP hasOthers)

theorem never_triggers_itself_after_edit :
    ∃ run, editedRun = some run ∧ run.numbers = (2, 1, 1) ∧
    run.reconciler.builds.length ≤ run.sets + run.groups.countP hasOthers ∧
    run.causes.length = run.reconciler.builds.length ∧
    ∀ group, .filesChanged group ∈ run.causes → OnlyOthers group := by
  have counts : editedRun.map numbers = some (2, 1, 1) := by decide +kernel
  obtain ⟨run, ran, isNumbers⟩ := Option.map_eq_some_iff.mp counts
  exact ⟨run, ran, isNumbers, never_triggers_itself (fun _ => rfl)
    (Machine.run_reachable (fun _ _ _ => trivial) ran)⟩

/-- What the early drop prevents: were the whole watcher moved into the task that reads its events,
the output of a build would start the next one. -/
theorem kept_watcher_triggers_itself :
    (Machine.run (step tells .wholeWatcher daemonDebounceMs) initial
      [.startWatcher true, .wire, .setDesired everything, .reconcile, .announce,
        .taskWrites 0 (utf8 "/w/a.js"), .receive, .pass 300, .wake, .consume, .reconcile]).map
      numbers = some (2, 1, 0) := by
  decide +kernel

end DaemonRun

end Rage.Daemon
