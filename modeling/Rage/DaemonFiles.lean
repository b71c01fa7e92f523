import Mathlib.Data.List.Induction
import Mathlib.Logic.Function.Basic
import Rage.FileSystem
import Rage.Runs

/-!
The two files by which a daemon is found: the socket that it listens on and the discovery file that
names the socket.  Both have the same names for all daemons of a workspace, which may start, end and
be looked for at any time.
-/

namespace Rage.DaemonFiles

/-- Where a process of the daemon is.  `writing` has the inode of the discovery file that it has
opened, and in `leaving` the file has been deleted and the process is about to exit. -/
inductive Phase
  | absent
  | starting
  | removing
  | binding
  | bound
  | writing (inode : Nat)
  | running
  | leaving
  | dead
  deriving DecidableEq

def Phase.listens : Phase → Bool
  | .bound | .writing _ | .running | .leaving => true
  | _ => false

/-- The socket file has the daemon that bound it, the discovery file its inode and its bytes.  Of
`binds`, the daemons that have bound the socket, the last one comes first. -/
structure World (δ : Type) where
  sock : Option δ
  file : Option (Nat × Bytes)
  inodes : Nat
  phase : δ → Phase
  binds : List δ

/-- The text that a daemon writes, and the endpoint that is read from a text. -/
structure Discovery (δ : Type) where
  text : δ → Bytes
  endpoint : Bytes → Option Path
  socketPath : Path

/-- Serde reads what it has written, and no endpoint from an empty file. -/
structure Discovery.Lawful {δ : Type} (discovery : Discovery δ) : Prop where
  written : ∀ daemon, discovery.endpoint (discovery.text daemon) = some discovery.socketPath
  empty : discovery.endpoint [] = none

namespace World

variable {δ : Type} [DecidableEq δ] (discovery : Discovery δ)

def empty : World δ := ⟨none, none, 0, fun _ => .absent, []⟩

def moves (world : World δ) (daemon : δ) (phase : Phase) : World δ :=
  { world with phase := Function.update world.phase daemon phase }

/-- `write_all` at the start of an open file.  A file that was deleted meanwhile has no name any
more. -/
def writeFile (world : World δ) (inode : Nat) (text : Bytes) : World δ :=
  match world.file with
  | some (other, content) =>
      if other = inode then
        { world with file := some (inode, text ++ content.drop text.length) }
      else world
  | none => world

/-- The next call of `DaemonServer::bind` or of `write_discovery`. -/
def advance (world : World δ) (daemon : δ) : World δ :=
  match world.phase daemon with
  | .starting => world.moves daemon (if world.sock.isSome then .removing else .binding)
  | .removing => { world with sock := none }.moves daemon .binding
  | .binding =>
      if world.sock.isSome then world.moves daemon .dead
      else { world with sock := some daemon, binds := daemon :: world.binds }.moves daemon .bound
  | .bound =>
      match world.file with
      | some (inode, _) =>
          { world with file := some (inode, []) }.moves daemon (.writing inode)
      | none =>
          { world with file := some (world.inodes, []), inodes := world.inodes + 1 }.moves daemon
            (.writing world.inodes)
  | .writing inode => (world.writeFile inode (discovery.text daemon)).moves daemon .running
  | _ => world

/-- The daemon that answers a connection. -/
def reached (world : World δ) (path : Path) : Option δ :=
  if path = discovery.socketPath then world.sock.filter fun daemon => (world.phase daemon).listens
  else none

end World

/-! `daemon_connect`, a system call at a time. -/

inductive Call
  | reading
  | connecting (path : Path)
  | deleting
  deriving DecidableEq

inductive Answer (δ : Type)
  | ok (daemon : δ)
  | notRunning
  | stale
  | transport
  deriving DecidableEq

def Call.step {δ : Type} [DecidableEq δ] (discovery : Discovery δ) (world : World δ) :
    Call → (Call ⊕ Answer δ) × World δ
  | .reading =>
      match world.file with
      | none => (.inr .notRunning, world)
      | some (_, content) =>
          match discovery.endpoint content with
          | none => (.inr .transport, world)
          | some path => (.inl (.connecting path), world)
  | .connecting path =>
      match world.reached discovery path with
      | some daemon => (.inr (.ok daemon), world)
      | none => (.inl .deleting, world)
  | .deleting => (.inr .stale, { world with file := none })

/-! `ensure_daemon`. -/

inductive Outcome (δ : Type)
  | connected (daemon : δ)
  | transportError
  | failedToStart
  deriving DecidableEq

/-- `left` counts the attempts that the loop still makes, the one at hand included. -/
inductive Client (δ : Type)
  | trying (call : Call)
  | polling (left : Nat) (call : Call)
  | finished (outcome : Outcome δ)
  deriving DecidableEq

def attempts : Nat := 50

/-- The process that is spawned, if any, is `spawned`. -/
def ensureDaemon {δ : Type} [DecidableEq δ] (discovery : Discovery δ) (spawned : δ)
    (world : World δ) : Client δ → World δ × Client δ
  | .trying call =>
      match call.step discovery world with
      | (.inl next, after) => (after, .trying next)
      | (.inr (.ok daemon), after) => (after, .finished (.connected daemon))
      | (.inr .transport, after) => (after, .finished .transportError)
      | (.inr .notRunning, after) => (after.moves spawned .starting, .polling attempts .reading)
      | (.inr .stale, after) => (after.moves spawned .starting, .polling attempts .reading)
  | .polling left call =>
      match call.step discovery world with
      | (.inl next, after) => (after, .polling left next)
      | (.inr (.ok daemon), after) => (after, .finished (.connected daemon))
      | (.inr _, after) =>
          (after, if left ≤ 1 then .finished .failedToStart else .polling (left - 1) .reading)
  | .finished outcome => (world, .finished outcome)

/-! One client, and the daemon that it may spawn, in any order. -/

inductive Turn
  | client
  | daemon
  deriving DecidableEq

def turn {δ : Type} [DecidableEq δ] (discovery : Discovery δ) (spawned : δ) :
    World δ × Client δ → Turn → World δ × Client δ
  | (world, client), .client => ensureDaemon discovery spawned world client
  | (world, client), .daemon => (world.advance discovery spawned, client)

/-- The discovery file is there and has no endpoint. -/
def Torn {δ : Type} (discovery : Discovery δ) (world : World δ) : Prop :=
  ∃ inode content, world.file = some (inode, content) ∧ discovery.endpoint content = none

section Recovery

variable {δ : Type} [DecidableEq δ] {discovery : Discovery δ} {spawned : δ}

/-- What there is while the client polls, by the phase of the daemon that it has spawned. -/
def Rising (discovery : Discovery δ) (spawned : δ) (world : World δ) (call : Call) : Prop :=
  match world.phase spawned with
  | .starting | .removing => world.file = none ∧ call = .reading
  | .binding => world.file = none ∧ world.sock = none ∧ call = .reading
  | .bound => world.file = none ∧ world.sock = some spawned ∧ call = .reading
  | .writing inode => world.file = some (inode, []) ∧ world.sock = some spawned ∧ call = .reading
  | .running => (∃ inode, world.file = some (inode, discovery.text spawned)) ∧
      world.sock = some spawned ∧ (call = .reading ∨ call = .connecting discovery.socketPath)
  | _ => False

/-- How far `ensure_daemon` has come after so many turns of its client. -/
inductive Stage (discovery : Discovery δ) (spawned : δ) (first : World δ) :
    Nat → World δ → Client δ → Prop
  | reading : Stage discovery spawned first 0 first (.trying .reading)
  | connecting {used inode : Nat} {content : Bytes} {path : Path}
      (isFile : first.file = some (inode, content))
      (isPath : discovery.endpoint content = some path)
      (counted : 1 ≤ used) : Stage discovery spawned first used first (.trying (.connecting path))
  | deleting {used inode : Nat} {content : Bytes} {path : Path}
      (isFile : first.file = some (inode, content))
      (isPath : discovery.endpoint content = some path)
      (counted : 1 ≤ used) : Stage discovery spawned first used first (.trying .deleting)
  | found {used inode : Nat} {content : Bytes} {path : Path} {daemon : δ}
      (isFile : first.file = some (inode, content))
      (isPath : discovery.endpoint content = some path)
      (reached : first.reached discovery path = some daemon) :
      Stage discovery spawned first used first (.finished (.connected daemon))
  | torn {used : Nat} (isTorn : Torn discovery first) :
      Stage discovery spawned first used first (.finished .transportError)
  | polling {used left : Nat} {world : World δ} {call : Call} (notTorn : ¬ Torn discovery first)
      (rising : Rising discovery spawned world call) (goesOn : 1 ≤ left)
      (counted : attempts < left + used) :
      Stage discovery spawned first used world (.polling left call)
  | up {used : Nat} {world : World δ} (notTorn : ¬ Torn discovery first)
      (runs : world.phase spawned = .running) (sock : world.sock = some spawned) :
      Stage discovery spawned first used world (.finished (.connected spawned))
  | gaveUp {used : Nat} {world : World δ} (notTorn : ¬ Torn discovery first)
      (counted : attempts < used) :
      Stage discovery spawned first used world (.finished .failedToStart)

omit [DecidableEq δ] in
theorem not_torn {world : World δ} {inode : Nat} {content : Bytes} {path : Path}
    (isFile : world.file = some (inode, content)) (isPath : discovery.endpoint content = some path) :
    ¬ Torn discovery world := by
  rintro ⟨_, _, same, noPath⟩
  rw [isFile] at same
  obtain ⟨-, rfl⟩ := Prod.mk.inj (Option.some.inj same)
  simp [isPath] at noPath

theorem moves_phase (world : World δ) (daemon : δ) (phase : Phase) :
    (world.moves daemon phase).phase daemon = phase := Function.update_self ..

theorem rising_starting {world : World δ} (noFile : world.file = none) :
    Rising discovery spawned (world.moves spawned .starting) .reading := by
  rw [Rising, moves_phase]
  exact ⟨noFile, rfl⟩

/-- The daemon comes up while the client polls. -/
theorem Rising.advance {world : World δ} {call : Call}
    (rising : Rising discovery spawned world call) :
    Rising discovery spawned (world.advance discovery spawned) call := by
  rw [Rising] at rising
  unfold World.advance
  cases phase : world.phase spawned with
  | starting =>
      rw [phase] at rising
      obtain ⟨noFile, rfl⟩ := rising
      simp only
      split
      · rw [Rising, moves_phase]
        exact ⟨noFile, rfl⟩
      · rename_i noSock
        rw [Rising, moves_phase]
        exact ⟨noFile, by simpa [World.moves] using noSock, rfl⟩
  | removing =>
      rw [phase] at rising
      obtain ⟨noFile, rfl⟩ := rising
      simp only
      rw [Rising, moves_phase]
      exact ⟨noFile, rfl, rfl⟩
  | binding =>
      rw [phase] at rising
      obtain ⟨noFile, noSock, rfl⟩ := rising
      simp only [noSock, Option.isSome_none, Bool.false_eq_true, if_false]
      rw [Rising, moves_phase]
      exact ⟨noFile, rfl, rfl⟩
  | bound =>
      rw [phase] at rising
      obtain ⟨noFile, isSock, rfl⟩ := rising
      simp only [noFile]
      rw [Rising, moves_phase]
      exact ⟨rfl, isSock, rfl⟩
  | writing inode =>
      rw [phase] at rising
      obtain ⟨isFile, isSock, rfl⟩ := rising
      simp only [World.writeFile, isFile, if_true]
      rw [Rising, moves_phase]
      exact ⟨⟨inode, by simp [World.moves]⟩, isSock, Or.inl rfl⟩
  | running =>
      rw [phase] at rising
      simp only
      rw [Rising, phase]
      exact rising
  | _ => simp [phase] at rising

omit [DecidableEq δ] in
theorem reached_running {world : World δ} {daemon : δ} (runs : world.phase daemon = .running)
    (sock : world.sock = some daemon) :
    world.reached discovery discovery.socketPath = some daemon := by
  rw [World.reached, if_pos rfl, sock]
  simp [runs, Phase.listens]

/-- One attempt of the client, as far as it comes. -/
theorem Rising.step (lawful : discovery.Lawful) {world : World δ} {call : Call}
    (rising : Rising discovery spawned world call) :
    (∃ answer, call.step discovery world = (.inr answer, world) ∧
        (world.phase spawned = .running → answer = .ok spawned ∧ world.sock = some spawned) ∧
        (world.phase spawned ≠ .running → call = .reading ∧ ∀ daemon, answer ≠ .ok daemon)) ∨
      (call = .reading ∧ world.phase spawned = .running ∧
        call.step discovery world = (.inl (.connecting discovery.socketPath), world)) := by
  rw [Rising] at rising
  have noFile (absent : world.file = none) (isReading : call = .reading)
      (notRunning : world.phase spawned ≠ .running) :
      ∃ answer, call.step discovery world = (.inr answer, world) ∧
        (world.phase spawned = .running → answer = .ok spawned ∧ world.sock = some spawned) ∧
        (world.phase spawned ≠ .running → call = .reading ∧ ∀ daemon, answer ≠ .ok daemon) := by
    subst isReading
    exact ⟨.notRunning, by simp [Call.step, absent], fun runs => (notRunning runs).elim, by simp⟩
  cases phase : world.phase spawned with
  | starting =>
      rw [phase] at rising noFile
      exact Or.inl (noFile rising.1 rising.2 (by simp))
  | removing =>
      rw [phase] at rising noFile
      exact Or.inl (noFile rising.1 rising.2 (by simp))
  | binding =>
      rw [phase] at rising noFile
      exact Or.inl (noFile rising.1 rising.2.2 (by simp))
  | bound =>
      rw [phase] at rising noFile
      exact Or.inl (noFile rising.1 rising.2.2 (by simp))
  | writing inode =>
      rw [phase] at rising
      obtain ⟨isFile, -, rfl⟩ := rising
      exact Or.inl ⟨.transport, by simp [Call.step, isFile, lawful.empty], by simp, by simp⟩
  | running =>
      rw [phase] at rising
      obtain ⟨⟨inode, isFile⟩, isSock, rfl | rfl⟩ := rising
      · exact Or.inr ⟨rfl, rfl, by simp [Call.step, isFile, lawful.written]⟩
      · refine Or.inl ⟨.ok spawned, ?_, fun _ => ⟨rfl, isSock⟩, by simp⟩
        simp [Call.step, reached_running phase isSock]
  | _ => simp [phase] at rising

theorem Stage.client (lawful : discovery.Lawful) {first world : World δ} {used : Nat}
    {client : Client δ} (stage : Stage discovery spawned first used world client) :
    Stage discovery spawned first (used + 1) (ensureDaemon discovery spawned world client).1
      (ensureDaemon discovery spawned world client).2 := by
  cases stage with
  | reading =>
      simp only [ensureDaemon, Call.step]
      cases isFile : first.file with
      | none =>
          refine .polling ?_ (rising_starting isFile) (by decide) (by simp)
          rintro ⟨_, _, same, -⟩
          simp [isFile] at same
      | some file =>
          obtain ⟨inode, content⟩ := file
          simp only
          cases isPath : discovery.endpoint content with
          | none => exact .torn ⟨inode, content, isFile, isPath⟩
          | some path => exact .connecting isFile isPath (by simp)
  | connecting isFile isPath counted =>
      rename_i path
      simp only [ensureDaemon, Call.step]
      cases reached : first.reached discovery path with
      | none => exact .deleting isFile isPath (by omega)
      | some daemon => exact .found isFile isPath reached
  | deleting isFile isPath counted =>
      exact .polling (not_torn isFile isPath) (rising_starting rfl) (by decide) (by simp)
  | found isFile isPath reached => exact .found isFile isPath reached
  | torn isTorn => exact .torn isTorn
  | polling notTorn rising goesOn counted =>
      rename_i left call
      rcases rising.step lawful with ⟨answer, isAnswer, whenUp, whenNot⟩ | ⟨rfl, runs, goes⟩
      · by_cases runs : world.phase spawned = .running
        · obtain ⟨rfl, isSock⟩ := whenUp runs
          simp only [ensureDaemon, isAnswer]
          exact .up notTorn runs isSock
        · have fails : ensureDaemon discovery spawned world (.polling left call) = (world,
              if left ≤ 1 then .finished .failedToStart else .polling (left - 1) .reading) := by
            cases answer with
            | ok daemon => exact ((whenNot runs).2 daemon rfl).elim
            | _ => simp only [ensureDaemon, isAnswer]
          rw [fails]
          split
          · exact .gaveUp notTorn (by omega)
          · refine .polling notTorn ?_ (by omega) (by omega)
            exact (whenNot runs).1 ▸ rising
      · simp only [ensureDaemon, goes]
        refine .polling notTorn ?_ goesOn (by omega)
        rw [Rising, runs] at rising ⊢
        exact ⟨rising.1, rising.2.1, Or.inr rfl⟩
  | up notTorn runs sock => exact .up notTorn runs sock
  | gaveUp notTorn counted => exact .gaveUp notTorn (by omega)

theorem Stage.daemon {first world : World δ} (absent : first.phase spawned = .absent) {used : Nat}
    {client : Client δ} (stage : Stage discovery spawned first used world client) :
    Stage discovery spawned first used (world.advance discovery spawned) client := by
  have stays : first.advance discovery spawned = first := by
    simp [World.advance, absent]
  cases stage with
  | reading => rw [stays]; exact .reading
  | connecting isFile isPath counted => rw [stays]; exact .connecting isFile isPath counted
  | deleting isFile isPath counted => rw [stays]; exact .deleting isFile isPath counted
  | found isFile isPath reached => rw [stays]; exact .found isFile isPath reached
  | torn isTorn => rw [stays]; exact .torn isTorn
  | polling notTorn rising goesOn counted => exact .polling notTorn rising.advance goesOn counted
  | up notTorn runs sock =>
      have same : world.advance discovery spawned = world := by simp [World.advance, runs]
      rw [same]
      exact .up notTorn runs sock
  | gaveUp notTorn counted => exact .gaveUp notTorn counted

theorem stage_final (lawful : discovery.Lawful) {first : World δ}
    (absent : first.phase spawned = .absent) (turns : List Turn) :
    Stage discovery spawned first (turns.count .client)
      (Runs.final (turn discovery spawned) (first, .trying .reading) turns).1
      (Runs.final (turn discovery spawned) (first, .trying .reading) turns).2 := by
  induction turns using List.reverseRecOn with
  | nil => exact .reading
  | append_singleton turns last ih =>
      rw [Runs.final, List.foldl_append]
      cases last with
      | client =>
          rw [List.count_append]
          exact ih.client lawful
      | daemon =>
          rw [List.count_append]
          exact ih.daemon absent

theorem finished_stays (outcome : Outcome δ) (turns : List Turn) (world : World δ) :
    (Runs.final (turn discovery spawned) (world, .finished outcome) turns).2 = .finished outcome := by
  induction turns generalizing world with
  | nil => rfl
  | cons next rest ih =>
      cases next with
      | client => exact ih world
      | daemon => exact ih (world.advance discovery spawned)

/-- The turns that an attempt takes once the daemon is up. -/
def Call.turns : Call → Nat
  | .reading => 2
  | _ => 1

theorem connects (lawful : discovery.Lawful) {world : World δ} {call : Call} {left : Nat}
    (rising : Rising discovery spawned world call) (runs : world.phase spawned = .running)
    (turns : List Turn) (enough : call.turns ≤ turns.count .client) :
    (Runs.final (turn discovery spawned) (world, .polling left call) turns).2 =
      .finished (.connected spawned) := by
  induction turns generalizing call with
  | nil =>
      cases call with
      | _ => simp [Call.turns] at enough
  | cons next rest ih =>
      cases next with
      | daemon =>
          have same : turn discovery spawned (world, .polling left call) .daemon =
              (world, .polling left call) := by
            simp [turn, World.advance, runs]
          rw [Runs.final, List.foldl_cons, same]
          exact ih rising (by simpa using enough)
      | client =>
          rw [Runs.final, List.foldl_cons]
          rcases rising.step lawful with ⟨answer, isAnswer, whenUp, -⟩ | ⟨rfl, -, goes⟩
          · obtain ⟨rfl, -⟩ := whenUp runs
            simp only [turn, ensureDaemon, isAnswer]
            exact finished_stays _ rest world
          · simp only [turn, ensureDaemon, goes]
            refine ih ?_ ?_
            · rw [Rising, runs] at rising ⊢
              exact ⟨rising.1, rising.2.1, Or.inr rfl⟩
            · simpa [Call.turns] using enough

/-- Whatever a client finds when it asks for a daemon, and however the daemon that it spawns comes
up meanwhile: it gets a connection to a daemon that listens, one that was there or the one that it
has spawned, unless its attempts are over before that is up; only a discovery file that was torn
stops it at once, and stays as it is. -/
theorem ensure_daemon_recovers (lawful : discovery.Lawful) (first : World δ)
    (absent : first.phase spawned = .absent) (turns : List Turn) :
    (∀ daemon, (Runs.final (turn discovery spawned) (first, .trying .reading) turns).2 =
        .finished (.connected daemon) →
      (Runs.final (turn discovery spawned) (first, .trying .reading) turns).1.sock = some daemon ∧
      ((Runs.final (turn discovery spawned) (first, .trying .reading) turns).1.phase
        daemon).listens = true ∧
      (daemon = spawned ∨
        (Runs.final (turn discovery spawned) (first, .trying .reading) turns).1 = first)) ∧
    ((Runs.final (turn discovery spawned) (first, .trying .reading) turns).2 =
        .finished .failedToStart → attempts < turns.count .client) ∧
    (Torn discovery first → 0 < turns.count .client →
      Runs.final (turn discovery spawned) (first, .trying .reading) turns =
        (first, .finished .transportError)) ∧
    ∀ left call, (Runs.final (turn discovery spawned) (first, .trying .reading) turns).2 =
        .polling left call →
      (Runs.final (turn discovery spawned) (first, .trying .reading) turns).1.phase spawned =
        .running →
      ∀ more : List Turn, 2 ≤ more.count .client →
        (Runs.final (turn discovery spawned) (first, .trying .reading) (turns ++ more)).2 =
          .finished (.connected spawned) := by
  have stage := stage_final lawful absent turns
  have appended (more : List Turn) :
      Runs.final (turn discovery spawned) (first, .trying .reading) (turns ++ more) =
        Runs.final (turn discovery spawned)
          (Runs.final (turn discovery spawned) (first, .trying .reading) turns) more :=
    List.foldl_append ..
  simp only [appended]
  generalize Runs.final (turn discovery spawned) (first, .trying .reading) turns = result
    at stage ⊢
  generalize turns.count .client = used at stage ⊢
  obtain ⟨world, client⟩ := result
  simp only at stage ⊢
  refine ⟨?_, ?_, ?_, ?_⟩
  · rintro daemon rfl
    cases stage with
    | found isFile isPath reached =>
        unfold World.reached at reached
        split at reached
        · obtain ⟨isSock, listens⟩ := Option.filter_eq_some_iff.mp reached
          exact ⟨isSock, listens, Or.inr rfl⟩
        · simp at reached
    | up notTorn runs sock => exact ⟨sock, by simp [runs, Phase.listens], Or.inl rfl⟩
  · rintro rfl
    cases stage with
    | gaveUp notTorn counted => exact counted
  · intro isTorn counted
    cases stage with
    | reading => simp at counted
    | connecting isFile isPath _ => exact (not_torn isFile isPath isTorn).elim
    | deleting isFile isPath _ => exact (not_torn isFile isPath isTorn).elim
    | found isFile isPath reached => exact (not_torn isFile isPath isTorn).elim
    | torn _ => rfl
    | polling notTorn _ _ _ => exact (notTorn isTorn).elim
    | up notTorn _ _ => exact (notTorn isTorn).elim
    | gaveUp notTorn _ => exact (notTorn isTorn).elim
  · rintro left call rfl runs more enough
    cases stage with
    | polling notTorn rising goesOn counted =>
        refine connects lawful rising runs more (Nat.le_trans ?_ enough)
        cases call with
        | _ => simp [Call.turns]

end Recovery

/-! All daemons and clients of a workspace. -/

structure System (δ κ : Type) where
  world : World δ
  clients : κ → Option (Client δ)

/-- A daemon may be started, go on, be told to stop or be idle for too long (`delete`, `exit`), end
with an error and drop its server, or be killed at any point.  A client asks and goes on; a daemon
that it spawns is a new process. -/
inductive Event (δ κ : Type)
  | start (daemon : δ)
  | advance (daemon : δ)
  | delete (daemon : δ)
  | exit (daemon : δ)
  | fail (daemon : δ)
  | kill (daemon : δ)
  | ask (client : κ)
  | client (client : κ) (spawned : δ)

namespace System

variable {δ κ : Type} [DecidableEq δ] [DecidableEq κ] (discovery : Discovery δ)

def empty : System δ κ := ⟨.empty, fun _ => none⟩

def step (system : System δ κ) : Event δ κ → System δ κ
  | .start daemon =>
      if system.world.phase daemon = .absent then
        { system with world := system.world.moves daemon .starting }
      else system
  | .advance daemon => { system with world := system.world.advance discovery daemon }
  | .delete daemon =>
      if system.world.phase daemon = .running then
        { system with world := { system.world with file := none }.moves daemon .leaving }
      else system
  | .exit daemon =>
      if system.world.phase daemon = .leaving then
        { system with world := system.world.moves daemon .dead }
      else system
  | .fail daemon =>
      if (system.world.phase daemon).listens then
        { system with world := { system.world with sock := none }.moves daemon .dead }
      else system
  | .kill daemon =>
      if system.world.phase daemon = .absent then system
      else { system with world := system.world.moves daemon .dead }
  | .ask client =>
      { system with clients := Function.update system.clients client (some (.trying .reading)) }
  | .client client spawned =>
      match system.clients client with
      | none => system
      | some state =>
          if system.world.phase spawned = .absent then
            let after := ensureDaemon discovery spawned system.world state
            ⟨after.1, Function.update system.clients client (some after.2)⟩
          else system

end System

/-- A daemon binds the socket once, and the socket file is that of the last daemon that has. -/
structure World.Bound {δ : Type} (world : World δ) : Prop where
  last : ∀ daemon, world.sock = some daemon → world.binds.head? = some daemon
  once : world.binds.Nodup
  passed : ∀ daemon ∈ world.binds,
    (world.phase daemon).listens = true ∨ world.phase daemon = .dead

section Bound

variable {δ κ : Type} [DecidableEq δ] [DecidableEq κ] {discovery : Discovery δ}

/-- A daemon that has bound the socket goes on, and one that has not stays one that has not. -/
theorem World.Bound.moves {world : World δ} (bound : world.Bound) {daemon : δ} {phase : Phase}
    (onward : daemon ∈ world.binds → phase.listens = true ∨ phase = .dead) :
    (world.moves daemon phase).Bound where
  last := bound.last
  once := bound.once
  passed := by
    intro other member
    simp only [World.moves, Function.update_apply]
    split
    · rename_i same
      exact onward (same ▸ member)
    · exact bound.passed other member

omit [DecidableEq δ] in
theorem World.Bound.files {world other : World δ} (bound : world.Bound)
    (sock : other.sock = world.sock ∨ other.sock = none) (phase : other.phase = world.phase)
    (binds : other.binds = world.binds) : other.Bound where
  last := by
    intro daemon isSock
    rcases sock with same | isNone
    · rw [binds]
      exact bound.last daemon (same ▸ isSock)
    · simp [isNone] at isSock
  once := binds ▸ bound.once
  passed := by
    intro daemon member
    rw [phase]
    exact bound.passed daemon (binds ▸ member)

omit [DecidableEq δ] in
theorem World.Bound.absent_of {world : World δ} (bound : world.Bound) {daemon : δ} {phase : Phase}
    (isPhase : world.phase daemon = phase) (early : phase.listens = false) (alive : phase ≠ .dead) :
    daemon ∉ world.binds := by
  intro member
  rcases bound.passed daemon member with listens | dead
  · rw [isPhase, early] at listens
    simp at listens
  · exact alive (isPhase ▸ dead)

omit [DecidableEq δ] in
theorem writeFile_others (world : World δ) (inode : Nat) (text : Bytes) :
    (world.writeFile inode text).sock = world.sock ∧
      (world.writeFile inode text).phase = world.phase ∧
      (world.writeFile inode text).binds = world.binds := by
  unfold World.writeFile
  split
  · split
    · exact ⟨rfl, rfl, rfl⟩
    · exact ⟨rfl, rfl, rfl⟩
  · exact ⟨rfl, rfl, rfl⟩

/-- What a step of a daemon adds to the daemons that have bound the socket. -/
theorem World.Bound.advance {world : World δ} (bound : world.Bound) (daemon : δ) :
    (world.advance discovery daemon).Bound ∧
      ∃ new, (world.advance discovery daemon).binds = new ++ world.binds := by
  unfold World.advance
  cases phase : world.phase daemon with
  | starting =>
      have isNew := bound.absent_of phase rfl (by simp)
      exact ⟨bound.moves fun member => (isNew member).elim, [], rfl⟩
  | removing =>
      have isNew := bound.absent_of phase rfl (by simp)
      have removed : ({ world with sock := none } : World δ).Bound :=
        bound.files (Or.inr rfl) rfl rfl
      exact ⟨removed.moves fun member => (isNew member).elim, [], rfl⟩
  | binding =>
      have isNew := bound.absent_of phase rfl (by simp)
      simp only
      split
      · exact ⟨bound.moves fun _ => Or.inr rfl, [], rfl⟩
      · refine ⟨⟨?_, ?_, ?_⟩, [daemon], rfl⟩
        · intro other isSock
          rw [← Option.some.inj (show some daemon = some other from isSock)]
          rfl
        · exact List.nodup_cons.mpr ⟨isNew, bound.once⟩
        · intro other member
          simp only [World.moves, Function.update_apply]
          split
          · exact Or.inl rfl
          · rename_i differs
            exact bound.passed other ((List.mem_cons.mp member).resolve_left differs)
  | bound =>
      simp only
      split
      · rename_i inode content isFile
        have truncated : ({ world with file := some (inode, []) } : World δ).Bound :=
          bound.files (Or.inl rfl) rfl rfl
        exact ⟨truncated.moves fun _ => Or.inl rfl, [], rfl⟩
      · have created : ({ world with
            file := some (world.inodes, []), inodes := world.inodes + 1 } : World δ).Bound :=
          bound.files (Or.inl rfl) rfl rfl
        exact ⟨created.moves fun _ => Or.inl rfl, [], rfl⟩
  | writing inode =>
      obtain ⟨sock, samePhase, binds⟩ := writeFile_others world inode (discovery.text daemon)
      refine ⟨(bound.files (Or.inl sock) samePhase binds).moves fun _ => Or.inl rfl, [], ?_⟩
      simpa [World.moves] using binds
  | _ => exact ⟨bound, [], rfl⟩

theorem callStep_others (world : World δ) (call : Call) :
    (call.step discovery world).2.sock = world.sock ∧
      (call.step discovery world).2.phase = world.phase ∧
      (call.step discovery world).2.binds = world.binds := by
  cases call with
  | reading =>
      simp only [Call.step]
      split
      · exact ⟨rfl, rfl, rfl⟩
      · split
        · exact ⟨rfl, rfl, rfl⟩
        · exact ⟨rfl, rfl, rfl⟩
  | connecting path =>
      simp only [Call.step]
      split
      · exact ⟨rfl, rfl, rfl⟩
      · exact ⟨rfl, rfl, rfl⟩
  | deleting => exact ⟨rfl, rfl, rfl⟩

theorem World.Bound.ensureDaemon {world : World δ} (bound : world.Bound) {spawned : δ}
    (absent : world.phase spawned = .absent) (client : Client δ) :
    (DaemonFiles.ensureDaemon discovery spawned world client).1.Bound ∧
      (DaemonFiles.ensureDaemon discovery spawned world client).1.binds = world.binds := by
  have call (call : Call) : (call.step discovery world).2.Bound ∧
      ((call.step discovery world).2.moves spawned .starting).Bound ∧
      (call.step discovery world).2.binds = world.binds := by
    obtain ⟨sock, phase, binds⟩ := @callStep_others δ _ discovery world call
    have after : (call.step discovery world).2.Bound := bound.files (Or.inl sock) phase binds
    have isAbsent : (call.step discovery world).2.phase spawned = .absent := by rw [phase, absent]
    have isNew := after.absent_of isAbsent rfl (by simp)
    exact ⟨after, after.moves fun member => (isNew member).elim, binds⟩
  cases client with
  | finished outcome => exact ⟨bound, rfl⟩
  | trying attempt =>
      obtain ⟨after, spawns, binds⟩ := call attempt
      simp only [DaemonFiles.ensureDaemon]
      split
      · rename_i isStep
        rw [isStep] at after binds
        exact ⟨after, binds⟩
      · rename_i isStep
        rw [isStep] at after binds
        exact ⟨after, binds⟩
      · rename_i isStep
        rw [isStep] at after binds
        exact ⟨after, binds⟩
      · rename_i isStep
        rw [isStep] at spawns binds
        exact ⟨spawns, binds⟩
      · rename_i isStep
        rw [isStep] at spawns binds
        exact ⟨spawns, binds⟩
  | polling left attempt =>
      obtain ⟨after, -, binds⟩ := call attempt
      simp only [DaemonFiles.ensureDaemon]
      split
      · rename_i isStep
        rw [isStep] at after binds
        exact ⟨after, binds⟩
      · rename_i isStep
        rw [isStep] at after binds
        exact ⟨after, binds⟩
      · rename_i isStep
        rw [isStep] at after binds
        exact ⟨after, binds⟩

variable (discovery) in
theorem System.step_bound (system : System δ κ) (bound : system.world.Bound) (event : Event δ κ) :
    (system.step discovery event).world.Bound ∧
      ∃ new, (system.step discovery event).world.binds = new ++ system.world.binds := by
  cases event with
  | start daemon =>
      simp only [System.step]
      split
      · rename_i isAbsent
        have isNew := bound.absent_of isAbsent rfl (by simp)
        exact ⟨bound.moves fun member => (isNew member).elim, [], rfl⟩
      · exact ⟨bound, [], rfl⟩
  | advance daemon => exact bound.advance daemon
  | delete daemon =>
      simp only [System.step]
      split
      · have deleted : ({ system.world with file := none } : World δ).Bound :=
          bound.files (Or.inl rfl) rfl rfl
        exact ⟨deleted.moves fun _ => Or.inl rfl, [], rfl⟩
      · exact ⟨bound, [], rfl⟩
  | exit daemon =>
      simp only [System.step]
      split
      · exact ⟨bound.moves fun _ => Or.inr rfl, [], rfl⟩
      · exact ⟨bound, [], rfl⟩
  | fail daemon =>
      simp only [System.step]
      split
      · have removed : ({ system.world with sock := none } : World δ).Bound :=
          bound.files (Or.inr rfl) rfl rfl
        exact ⟨removed.moves fun _ => Or.inr rfl, [], rfl⟩
      · exact ⟨bound, [], rfl⟩
  | kill daemon =>
      simp only [System.step]
      split
      · exact ⟨bound, [], rfl⟩
      · exact ⟨bound.moves fun _ => Or.inr rfl, [], rfl⟩
  | ask client => exact ⟨bound, [], rfl⟩
  | client client spawned =>
      simp only [System.step]
      split
      · exact ⟨bound, [], rfl⟩
      · split
        · rename_i isAbsent
          obtain ⟨after, binds⟩ := bound.ensureDaemon isAbsent _
          exact ⟨after, [], binds⟩
        · exact ⟨bound, [], rfl⟩

variable (discovery) in
theorem bound_final (events : List (Event δ κ)) {system : System δ κ} (bound : system.world.Bound) :
    (Runs.final (System.step discovery) system events).world.Bound ∧
      ∃ new, (Runs.final (System.step discovery) system events).world.binds =
        new ++ system.world.binds := by
  induction events generalizing system with
  | nil => exact ⟨bound, [], rfl⟩
  | cons event rest ih =>
      obtain ⟨boundNext, new, isNew⟩ := system.step_bound discovery bound event
      obtain ⟨boundLast, newer, isNewer⟩ := ih boundNext
      refine ⟨boundLast, newer ++ new, ?_⟩
      rw [List.append_assoc, ← isNew]
      exact isNewer

omit [DecidableEq δ] [DecidableEq κ] in
theorem empty_bound : (System.empty : System δ κ).world.Bound where
  last := by simp [System.empty, World.empty]
  once := List.nodup_nil
  passed := by simp [System.empty, World.empty]

/-- Whatever daemons and clients do, and wherever they are stopped: the daemon that is reached is
the last that has bound the socket, and none has bound it since.  A daemon that has been displaced
is never reached again. -/
theorem reached_is_last (events : List (Event δ κ)) (path : Path) (daemon : δ)
    (reached : (Runs.final (System.step discovery) System.empty events).world.reached discovery
      path = some daemon) :
    (Runs.final (System.step discovery) System.empty events).world.binds.head? = some daemon ∧
      ∀ earlier later, events = earlier ++ later →
        daemon ∈ (Runs.final (System.step discovery) System.empty earlier).world.binds →
        (Runs.final (System.step discovery) System.empty earlier).world.binds =
          (Runs.final (System.step discovery) System.empty events).world.binds := by
  have initial := @empty_bound δ κ
  obtain ⟨bound, -⟩ := bound_final discovery events initial
  have isSock : (Runs.final (System.step discovery) System.empty events).world.sock =
      some daemon := by
    unfold World.reached at reached
    split at reached
    · exact (Option.filter_eq_some_iff.mp reached).1
    · simp at reached
  have isLast := bound.last daemon isSock
  refine ⟨isLast, ?_⟩
  rintro earlier later rfl member
  obtain ⟨boundEarlier, -⟩ := bound_final discovery earlier initial
  obtain ⟨-, new, isNew⟩ := bound_final discovery later boundEarlier
  have isRun : Runs.final (System.step discovery) System.empty (earlier ++ later) =
      Runs.final (System.step discovery)
        (Runs.final (System.step discovery) System.empty earlier) later := List.foldl_append ..
  rw [isRun] at bound isLast ⊢
  rw [isNew] at isLast ⊢
  cases new with
  | nil => rfl
  | cons newest rest =>
      obtain rfl : newest = daemon := by simpa using isLast
      have once := bound.once
      rw [isNew] at once
      simp [member] at once

end Bound

/-! Two daemons, the second of which takes the socket over. -/

def plainDiscovery : Discovery Nat where
  text := fun daemon => [UInt8.ofNat daemon, 1]
  endpoint := fun text => if text.length = 2 then some (utf8 "/s") else none
  socketPath := utf8 "/s"

theorem plainDiscovery_lawful : plainDiscovery.Lawful where
  written := fun _ => rfl
  empty := rfl

/-- A socket file and a discovery file that a killed daemon has left. -/
def leftOver : World Nat :=
  ⟨some 0, some (0, [0, 1]), 1, fun daemon => if daemon = 0 then .dead else .absent, [0]⟩

theorem ensure_daemon_recovers_leftOver :
    (Runs.final (turn plainDiscovery 1) (leftOver, .trying .reading)
      [.client, .client, .client, .daemon, .client, .daemon, .daemon, .client, .daemon, .daemon,
        .client, .client]).2 = .finished (.connected 1) :=
  (ensure_daemon_recovers plainDiscovery_lawful leftOver rfl
    [.client, .client, .client, .daemon, .client, .daemon, .daemon, .client, .daemon, .daemon]).2.2.2
    48 .reading (by decide) (by decide) [.client, .client] (by decide)

def takenOver : List (Event Nat Bool) :=
  [.start 0, .advance 0, .advance 0, .advance 0, .advance 0, .start 1, .advance 1, .advance 1,
    .advance 1]

theorem reached_is_last_takenOver :
    (Runs.final (System.step plainDiscovery) (System.empty : System Nat Bool)
      takenOver).world.binds.head? = some 1 :=
  (reached_is_last takenOver (utf8 "/s") 1 (by decide)).1

end Rage.DaemonFiles
