import Rage.Reconciler

/-!
The way of a file change through the daemon: what the native watcher reports of it, the buffer
that the watcher's task drains once per window, the task that turns each group into a command,
and the reconciler.
-/

namespace Rage.Daemon

inductive Origin
  | task
  | other
  deriving DecidableEq

/-- A path as the watcher reports it, with the origin of the change that it stands for. -/
structure ChangedPath where
  path : Path
  origin : Origin
  deriving DecidableEq

/-- The results that the native watcher hands to its callback when a path changes, each with the
paths of its event or `none` for an error.  It depends on whether the watcher is still there. -/
abbrev Notify := Bool → Path → List (Option (List Path))

def Notify.report (notify : Notify) (watching : Bool) (changed : ChangedPath) :
    List (Option (List ChangedPath)) :=
  (notify watching changed.path).map fun result =>
    result.map fun paths => paths.map fun path => ⟨path, changed.origin⟩

/-- What is left of a `FileWatcher`: whether `_inner` is there, the results it has sent, the state
of the debouncing task and the groups that `events` holds.  `sleepFrom` is when the sleep of the
current round began. -/
structure FileWatcher where
  inner : Bool
  raw : List (Option (List ChangedPath))
  buffered : List ChangedPath
  sleepFrom : Nat
  lastFlush : Nat
  events : List (List ChangedPath)
  deriving DecidableEq

namespace FileWatcher

def start (now : Nat) : FileWatcher := ⟨true, [], [], now, now, []⟩

def notified (watcher : FileWatcher) (notify : Notify) (changed : ChangedPath) : FileWatcher :=
  { watcher with raw := watcher.raw ++ notify.report watcher.inner changed }

/-- `raw_rx.recv()` is ready. -/
def receive (watcher : FileWatcher) (now : Nat) : Option FileWatcher :=
  match watcher.raw with
  | [] => none
  | result :: rest =>
      some { watcher with
        raw := rest
        buffered := watcher.buffered ++ result.getD []
        sleepFrom := now }

def Flushes (watcher : FileWatcher) (debounce now : Nat) : Prop :=
  watcher.buffered ≠ [] ∧ debounce ≤ now - watcher.lastFlush

instance (watcher : FileWatcher) (debounce now : Nat) : Decidable (watcher.Flushes debounce now) := by
  unfold Flushes
  infer_instance

/-- The sleep of the round is over. -/
def wake (watcher : FileWatcher) (debounce now : Nat) : Option FileWatcher :=
  if watcher.sleepFrom + debounce ≤ now then
    if watcher.Flushes debounce now then
      some { watcher with
        buffered := []
        sleepFrom := now
        lastFlush := now
        events := watcher.events ++ [watcher.buffered] }
    else some { watcher with sleepFrom := now }
  else none

end FileWatcher

/-- A command in the reconciler's queue; that of a file change has the group it comes from. -/
inductive Message
  | setDesired (desired : DesiredState)
  | filesChanged (group : List ChangedPath)
  | retry (package script : Bytes)
  deriving DecidableEq

def Message.cmd : Message → ReconcilerCmd
  | .setDesired desired => .setDesiredState desired
  | .filesChanged _ => .onFilesChanged
  | .retry package script => .retryTask package script

/-- How much of the watcher the task moves that reads its events.  A closure or an `async` block
of edition 2021 captures the fields it mentions. -/
inductive Captured
  | wholeWatcher
  | eventsField
  deriving DecidableEq

/-- `Daemon::run` before the watcher is started, in the body of the `if let`, and after it, where
the socket is served. -/
inductive Stage
  | starting
  | watching
  | serving
  deriving DecidableEq

/-- `sets` counts the commands with a desired state, `groups` is every group so far, and `causes`
has the message that started each build, the latest first. -/
structure DaemonRun where
  now : Nat
  stage : Stage
  watcher : Option FileWatcher
  queue : List Message
  reconciler : Reconciler
  sets : Nat
  groups : List (List ChangedPath)
  causes : List Message
  deriving DecidableEq

inductive DaemonEvent
  | pass (duration : Nat)
  | startWatcher (succeeds : Bool)
  | wire
  | setDesired (desired : DesiredState)
  | retry (package script : Bytes)
  | otherWrites (path : Path)
  | taskWrites (age : Nat) (path : Path)
  | receive
  | wake
  | consume
  | reconcile
  | announce
  | complete (age : Nat) (meets : BuildMeets)

namespace DaemonRun

def initial : DaemonRun := ⟨0, .starting, none, [], .spawned, 0, [], []⟩

def send (run : DaemonRun) (message : Message) : DaemonRun :=
  { run with queue := run.queue ++ [message] }

def changes (run : DaemonRun) (notify : Notify) (changed : ChangedPath) : DaemonRun :=
  { run with watcher := run.watcher.map fun watcher => watcher.notified notify changed }

/-- The body of the `if let` ends: what the spawned task did not capture is dropped. -/
def wire (run : DaemonRun) (captured : Captured) : DaemonRun :=
  { run with
    stage := .serving
    watcher := run.watcher.map fun watcher =>
      { watcher with inner := decide (captured = .wholeWatcher) } }

def wake (run : DaemonRun) (debounce : Nat) : Option DaemonRun :=
  run.watcher.bind fun watcher => (watcher.wake debounce run.now).map fun woken =>
    { run with
      watcher := some woken
      groups := run.groups ++ woken.events.drop watcher.events.length }

def consume (run : DaemonRun) : Option DaemonRun :=
  run.watcher.bind fun watcher =>
    match watcher.events with
    | [] => none
    | group :: rest =>
        some ({ run with watcher := some { watcher with events := rest } }.send (.filesChanged group))

def reconcile (run : DaemonRun) : Option DaemonRun :=
  match run.queue with
  | [] => none
  | message :: rest => (run.reconciler.step (.command message.cmd)).map fun next =>
      { run with
        queue := rest
        reconciler := next
        causes := if next.builds.length = run.reconciler.builds.length then run.causes
          else message :: run.causes }

def step (notify : Notify) (captured : Captured) (debounce : Nat) (run : DaemonRun) :
    DaemonEvent → Option DaemonRun
  | .pass duration => some { run with now := run.now + duration }
  | .startWatcher succeeds =>
      if run.stage = .starting then
        some (if succeeds then { run with stage := .watching, watcher := some (.start run.now) }
          else { run with stage := .serving })
      else none
  | .wire => if run.stage = .watching then some (run.wire captured) else none
  | .setDesired desired =>
      if run.stage = .serving then
        some ({ run with sets := run.sets + 1 }.send (.setDesired desired))
      else none
  | .retry package script => some (run.send (.retry package script))
  | .otherWrites path => some (run.changes notify ⟨path, .other⟩)
  | .taskWrites age path =>
      if age < run.reconciler.builds.length then some (run.changes notify ⟨path, .task⟩) else none
  | .receive =>
      run.watcher.bind fun watcher => (watcher.receive run.now).map fun next =>
        { run with watcher := some next }
  | .wake => run.wake debounce
  | .consume => if run.stage = .serving then run.consume else none
  | .reconcile => run.reconcile
  | .announce => (run.reconciler.step .announce).map fun next => { run with reconciler := next }
  | .complete age meets =>
      (run.reconciler.step (.complete age meets)).map fun next => { run with reconciler := next }

end DaemonRun

/-- The task of `Daemon::run` says `watcher.events.recv()` and nothing else of `watcher`. -/
def consumerCaptures : Captured := .eventsField

def daemonDebounceMs : Nat := 300

end Rage.Daemon
