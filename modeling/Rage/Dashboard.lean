import Rage.Broadcast
import Rage.Reconciler

/-!
The way of the daemon's state to its dashboards.  The reconciler sends a notification for each
change; a task reads the state for each notification and broadcasts a snapshot; and a session for
each client forwards the snapshots.
-/

namespace Rage.Daemon

open Broadcast (Recv recv)

structure StateSnapshot where
  state : BuildState
  tasks : List TaskRecord
  deriving DecidableEq

def DaemonState.snapshot (shared : DaemonState) : StateSnapshot := ⟨shared.state, shared.tasks⟩

/-- Both channels, that of the notifications and that of the snapshots. -/
def channelCapacity : Nat := 64

/-- The task of `Daemon::run` that forwards snapshots: before its initial broadcast, at
`sub.recv()`, before it locks the state, and after its loop. -/
inductive Forwarder
  | starting
  | listening (next : Nat)
  | reading (next : Nat)
  | stopped
  deriving DecidableEq

/-- `ws_session` before its initial message, before `subscribe`, at `rx.recv()`, at `sink.send`,
and after it has returned. -/
inductive Session
  | connected
  | greeted
  | listening (next : Nat)
  | sending (next : Nat) (snapshot : StateSnapshot)
  | closed
  deriving DecidableEq

/-- `received` is the last snapshot that came to the client. -/
structure Client where
  session : Session
  received : Option StateSnapshot
  deriving DecidableEq

inductive SessionStep
  | greet
  | subscribe
  | receive
  | deliver
  | disconnect
  deriving DecidableEq

/-- The initial message is sent under the lock of the state. -/
def Client.step (client : Client) (current : StateSnapshot) (snapshots : List StateSnapshot) :
    SessionStep → Option Client
  | .greet => if client.session = .connected then some ⟨.greeted, some current⟩ else none
  | .subscribe =>
      if client.session = .greeted then
        some { client with session := .listening (Broadcast.subscribe snapshots) }
      else none
  | .receive =>
      match client.session with
      | .listening next =>
          match recv channelCapacity snapshots next with
          | .value snapshot => some { client with session := .sending (next + 1) snapshot }
          | .lagged => some { client with session := .closed }
          | .empty => none
      | _ => none
  | .deliver =>
      match client.session with
      | .sending next snapshot => some ⟨.listening next, some snapshot⟩
      | _ => none
  | .disconnect => some { client with session := .closed }

structure Dashboard where
  reconciler : Reconciler
  forwarder : Forwarder
  snapshots : List StateSnapshot
  clients : List Client
  deriving DecidableEq

inductive DashboardEvent
  | reconcile (event : ReconcilerEvent)
  | forward
  | connect
  | client (index : Nat) (step : SessionStep)

namespace Dashboard

def initial : Dashboard := ⟨.spawned, .starting, [], []⟩

def current (board : Dashboard) : StateSnapshot := board.reconciler.shared.snapshot

def notifications (board : Dashboard) : List Unit := List.replicate board.reconciler.notices ()

def broadcast (board : Dashboard) (next : Nat) : Dashboard :=
  { board with
    forwarder := .listening next
    snapshots := board.snapshots ++ [board.current] }

/-- A lag is an error of `recv`, and the loop goes on only while `recv` is `Ok`. -/
def forward (board : Dashboard) : Option Dashboard :=
  match board.forwarder with
  | .starting => some (board.broadcast 0)
  | .listening next =>
      match recv channelCapacity board.notifications next with
      | .value _ => some { board with forwarder := .reading (next + 1) }
      | .lagged => some { board with forwarder := .stopped }
      | .empty => none
  | .reading next => some (board.broadcast next)
  | .stopped => none

def step (board : Dashboard) : DashboardEvent → Option Dashboard
  | .reconcile event =>
      (board.reconciler.step event).map fun next => { board with reconciler := next }
  | .forward => board.forward
  | .connect => some { board with clients := board.clients ++ [⟨.connected, none⟩] }
  | .client index step =>
      board.clients[index]?.bind fun client =>
        (client.step board.current board.snapshots step).map fun next =>
          { board with clients := board.clients.set index next }

/-- Every task has run: there is nothing to send, to read or to forward. -/
structure Settled (board : Dashboard) : Prop where
  announced : board.reconciler.owed = false
  forwarded : board.forwarder = .stopped ∨ board.forwarder = .listening board.reconciler.notices
  delivered : ∀ client ∈ board.clients,
    client.session = .closed ∨ client.session = .listening board.snapshots.length

def UpToDate (board : Dashboard) : Prop :=
  ∀ client ∈ board.clients, client.session ≠ .closed → client.received = some board.current

end Dashboard

end Rage.Daemon
