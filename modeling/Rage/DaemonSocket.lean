import Mathlib.Data.List.Induction
import Rage.LineStream
import Rage.Runs

/-!
The socket of the daemon.  Each connection is read line by line, and each message on it is answered
by a line; the connections share the state that the messages are handled on.
-/

namespace Rage.DaemonSocket

open LineStream

/-- What the daemon does with a message; `none` where the process exits. -/
structure Service (σ μ ρ : Type) where
  handle : σ → μ → Option (σ × ρ)

/-- Messages and responses as lines of JSON. -/
structure Codec (μ : Type) where
  text : μ → List Char
  fromStr : List Char → Option μ

/-- An empty line is passed over, and so is one that is no message. -/
def Codec.decode {μ : Type} (codec : Codec μ) (line : List Char) : Option μ :=
  if line = [] then none else codec.fromStr line

/-- Serde writes a line that it reads again. -/
structure Codec.Lawful {μ : Type} (codec : Codec μ) : Prop where
  reads : ∀ message, codec.decode (codec.text message) = some message
  isLine : ∀ message, IsLine (codec.text message)

/-- `queue` has the lines of a connection that were read and not handled, `taken` those that were
handled, and `out` what was written back; `got` has the lines that its client has read of that. -/
structure Socket (κ σ μ ρ : Type) where
  state : σ
  exited : Bool
  readers : κ → Reader
  queue : κ → List (List Char)
  taken : κ → List (List Char)
  answered : List (κ × μ × ρ)
  out : κ → Bytes
  clients : κ → Reader
  got : κ → List (List Char)

inductive Event (κ : Type)
  | arrive (connection : κ) (bytes : Bytes)
  | handle (connection : κ)
  | reply (connection : κ) (bytes : Bytes)

section

variable {κ σ μ ρ : Type} [DecidableEq κ] (service : Service σ μ ρ) (requests : Codec μ)
  (responses : Codec ρ)

def Socket.start (state : σ) : Socket κ σ μ ρ where
  state := state
  exited := false
  readers := fun _ => .start
  queue := fun _ => []
  taken := fun _ => []
  answered := []
  out := fun _ => []
  clients := fun _ => .start
  got := fun _ => []

def Socket.take (socket : Socket κ σ μ ρ) (connection : κ) (line : List Char)
    (rest : List (List Char)) : Socket κ σ μ ρ :=
  { socket with
    queue := Function.update socket.queue connection rest
    taken := Function.update socket.taken connection (socket.taken connection ++ [line]) }

/-- The body of the loop in `handle_client`. -/
def Socket.answer (socket : Socket κ σ μ ρ) (connection : κ) (line : List Char)
    (rest : List (List Char)) : Socket κ σ μ ρ :=
  match requests.decode line with
  | none => socket.take connection line rest
  | some message =>
      match service.handle socket.state message with
      | none => { socket with exited := true }
      | some (state, response) =>
          { socket.take connection line rest with
            state := state
            answered := socket.answered ++ [(connection, message, response)]
            out := Function.update socket.out connection
              (socket.out connection ++ wire [responses.text response]) }

def Socket.step (socket : Socket κ σ μ ρ) : Event κ → Socket κ σ μ ρ
  | .arrive connection bytes =>
      if socket.exited then socket
      else
        let read := (socket.readers connection).receive bytes
        { socket with
          readers := Function.update socket.readers connection read.2
          queue := Function.update socket.queue connection (socket.queue connection ++ read.1) }
  | .handle connection =>
      if socket.exited then socket
      else
        match socket.queue connection with
        | [] => socket
        | line :: rest => socket.answer service requests responses connection line rest
  | .reply connection bytes =>
      let read := (socket.clients connection).receive bytes
      { socket with
        clients := Function.update socket.clients connection read.2
        got := Function.update socket.got connection (socket.got connection ++ read.1) }

def Socket.after (state : σ) (history : List (Event κ)) : Socket κ σ μ ρ :=
  Runs.final (Socket.step service requests responses) (.start state) history

/-- The messages that were answered on a connection, with their responses. -/
def Socket.answeredOn (socket : Socket κ σ μ ρ) (connection : κ) : List (μ × ρ) :=
  (socket.answered.filter fun answer => answer.1 = connection).map Prod.snd

/-- The bytes of a connection in one direction. -/
def arrived (connection : κ) : List (Event κ) → Bytes
  | [] => []
  | .arrive other bytes :: rest =>
      if other = connection then bytes ++ arrived connection rest else arrived connection rest
  | _ :: rest => arrived connection rest

def replied (connection : κ) : List (Event κ) → Bytes
  | [] => []
  | .reply other bytes :: rest =>
      if other = connection then bytes ++ replied connection rest else replied connection rest
  | _ :: rest => replied connection rest

/-- The answers are those of the service, one message after another. -/
def Serves : σ → List (κ × μ × ρ) → σ → Prop
  | state, [], last => last = state
  | state, (_, message, response) :: rest, last =>
      ∃ next, service.handle state message = some (next, response) ∧ Serves next rest last

end

section

variable {κ σ μ ρ : Type} [DecidableEq κ] {service : Service σ μ ρ} {requests : Codec μ}
  {responses : Codec ρ}

theorem arrived_concat (connection : κ) (history : List (Event κ)) (event : Event κ) :
    arrived connection (history ++ [event]) =
      arrived connection history ++ arrived connection [event] := by
  induction history with
  | nil => rfl
  | cons first rest ih =>
      cases first with
      | arrive other bytes =>
          rw [List.cons_append, arrived, arrived, ih]
          split
          · rw [List.append_assoc]
          · rfl
      | handle other => exact ih
      | reply other bytes => exact ih

theorem replied_concat (connection : κ) (history : List (Event κ)) (event : Event κ) :
    replied connection (history ++ [event]) =
      replied connection history ++ replied connection [event] := by
  induction history with
  | nil => rfl
  | cons first rest ih =>
      cases first with
      | reply other bytes =>
          rw [List.cons_append, replied, replied, ih]
          split
          · rw [List.append_assoc]
          · rfl
      | handle other => exact ih
      | arrive other bytes => exact ih

theorem wire_append (first second : List (List Char)) :
    wire (first ++ second) = wire first ++ wire second := List.flatMap_append

omit [DecidableEq κ] in
theorem serves_concat {state last next : σ} {answered : List (κ × μ × ρ)}
    (serves : Serves service state answered last) {connection : κ} {message : μ} {response : ρ}
    (handled : service.handle last message = some (next, response)) :
    Serves service state (answered ++ [(connection, message, response)]) next := by
  induction answered generalizing state with
  | nil =>
      obtain rfl := serves
      exact ⟨next, handled, rfl⟩
  | cons first rest ih =>
      obtain ⟨other, isNext, later⟩ := serves
      exact ⟨other, isNext, ih later⟩

/-- One connection after a history, as far as the process has read it. -/
structure Follows (requests : Codec μ) (responses : Codec ρ) (socket : Socket κ σ μ ρ)
    (history : List (Event κ)) (connection : κ) : Prop where
  read : ∃ seen, seen <+: arrived connection history ∧
    (socket.exited = false → seen = arrived connection history) ∧
    (socket.readers connection).Has seen ∧
    soFar seen = socket.taken connection ++ socket.queue connection
  answered : (socket.answeredOn connection).map Prod.fst =
    (socket.taken connection).filterMap requests.decode
  out : socket.out connection =
    wire ((socket.answeredOn connection).map fun answer => responses.text answer.2)
  client : (socket.clients connection).Has (replied connection history)
  got : socket.got connection = soFar (replied connection history)

theorem answeredOn_concat (socket : Socket κ σ μ ρ) (connection other : κ) (message : μ)
    (response : ρ) :
    (({ socket with answered := socket.answered ++ [(connection, message, response)] } :
      Socket κ σ μ ρ).answeredOn other) =
      socket.answeredOn other ++ if connection = other then [(message, response)] else [] := by
  rw [Socket.answeredOn, Socket.answeredOn, List.filter_append, List.map_append]
  congr 1
  by_cases same : connection = other
  · simp [same]
  · simp [same]

theorem Follows.arrive {socket : Socket κ σ μ ρ} {history : List (Event κ)} {connection : κ}
    (follows : Follows requests responses socket history connection) (other : κ) (bytes : Bytes) :
    Follows requests responses (socket.step service requests responses (.arrive other bytes))
      (history ++ [.arrive other bytes]) connection := by
  have isReplied : replied connection (history ++ [.arrive other bytes]) =
      replied connection history := by
    rw [replied_concat]
    exact List.append_nil _
  obtain ⟨seen, isPrefix, open_, has, lines⟩ := follows.read
  have longer : seen <+: arrived connection (history ++ [.arrive other bytes]) := by
    rw [arrived_concat]
    exact isPrefix.trans (List.prefix_append _ _)
  rw [Socket.step]
  split
  · rename_i exited
    refine ⟨⟨seen, longer, fun isOpen => ?_, has, lines⟩, follows.answered, follows.out, ?_, ?_⟩
    · simp [exited] at isOpen
    · rw [isReplied]
      exact follows.client
    · rw [isReplied]
      exact follows.got
  · rename_i notExited
    obtain rfl := open_ (Bool.eq_false_iff.mpr notExited)
    refine ⟨?_, follows.answered, follows.out, ?_, ?_⟩
    · by_cases same : other = connection
      · subst same
        obtain ⟨hasMore, isMore⟩ := has.receive bytes
        have isArrived : arrived other (history ++ [.arrive other bytes]) =
            arrived other history ++ bytes := by
          rw [arrived_concat]
          simp [arrived]
        refine ⟨_, List.prefix_rfl, fun _ => rfl, ?_, ?_⟩
        · simp only [Function.update_self]
          rw [isArrived]
          exact hasMore
        · simp only [Function.update_self]
          rw [isArrived, isMore, lines, List.append_assoc]
      · have isArrived : arrived connection (history ++ [.arrive other bytes]) =
            arrived connection history := by
          rw [arrived_concat]
          simp [arrived, same]
        refine ⟨_, List.prefix_rfl, fun _ => rfl, ?_, ?_⟩
        · simp only [Function.update_of_ne (Ne.symm same)]
          rw [isArrived]
          exact has
        · simp only [Function.update_of_ne (Ne.symm same)]
          rw [isArrived]
          exact lines
    · rw [isReplied]
      exact follows.client
    · rw [isReplied]
      exact follows.got

theorem Follows.reply {socket : Socket κ σ μ ρ} {history : List (Event κ)} {connection : κ}
    (follows : Follows requests responses socket history connection) (other : κ) (bytes : Bytes) :
    Follows requests responses (socket.step service requests responses (.reply other bytes))
      (history ++ [.reply other bytes]) connection := by
  have isArrived : arrived connection (history ++ [.reply other bytes]) =
      arrived connection history := by
    rw [arrived_concat]
    exact List.append_nil _
  rw [Socket.step]
  refine ⟨by rw [isArrived]; exact follows.read, follows.answered, follows.out, ?_, ?_⟩
  · by_cases same : other = connection
    · subst same
      have isReplied : replied other (history ++ [.reply other bytes]) =
          replied other history ++ bytes := by
        rw [replied_concat]
        simp [replied]
      simp only [Function.update_self]
      rw [isReplied]
      exact (follows.client.receive bytes).1
    · have isReplied : replied connection (history ++ [.reply other bytes]) =
          replied connection history := by
        rw [replied_concat]
        simp [replied, same]
      simp only [Function.update_of_ne (Ne.symm same)]
      rw [isReplied]
      exact follows.client
  · by_cases same : other = connection
    · subst same
      have isReplied : replied other (history ++ [.reply other bytes]) =
          replied other history ++ bytes := by
        rw [replied_concat]
        simp [replied]
      simp only [Function.update_self]
      rw [isReplied, (follows.client.receive bytes).2, follows.got]
    · have isReplied : replied connection (history ++ [.reply other bytes]) =
          replied connection history := by
        rw [replied_concat]
        simp [replied, same]
      simp only [Function.update_of_ne (Ne.symm same)]
      rw [isReplied]
      exact follows.got

theorem Follows.handle {socket : Socket κ σ μ ρ} {history : List (Event κ)} {connection : κ}
    (follows : Follows requests responses socket history connection) (other : κ) :
    Follows requests responses (socket.step service requests responses (.handle other))
      (history ++ [.handle other]) connection := by
  have isArrived : arrived connection (history ++ [.handle other]) = arrived connection history := by
    rw [arrived_concat]
    exact List.append_nil _
  have isReplied : replied connection (history ++ [.handle other]) = replied connection history := by
    rw [replied_concat]
    exact List.append_nil _
  have waits : Follows requests responses socket (history ++ [.handle other]) connection := by
    refine ⟨?_, follows.answered, follows.out, ?_, ?_⟩
    · rw [isArrived]
      exact follows.read
    · rw [isReplied]
      exact follows.client
    · rw [isReplied]
      exact follows.got
  rw [Socket.step]
  split
  · exact waits
  · split
    · exact waits
    · rename_i line rest isQueue
      obtain ⟨seen, isPrefix, open_, has, lines⟩ := waits.read
      have moved : (socket.take other line rest).taken connection ++
          (socket.take other line rest).queue connection =
          socket.taken connection ++ socket.queue connection := by
        by_cases same : other = connection
        · subst same
          simp [Socket.take, isQueue]
        · simp [Socket.take, Ne.symm same]
      have decoded : ((socket.take other line rest).taken connection).filterMap requests.decode =
          (socket.taken connection).filterMap requests.decode ++
            if other = connection then (requests.decode line).toList else [] := by
        by_cases same : other = connection
        · subst same
          simp [Socket.take, List.filterMap_cons, List.filterMap_append]
          cases requests.decode line with
          | none => rfl
          | some message => rfl
        · simp [Socket.take, same, Ne.symm same]
      rw [Socket.answer]
      split
      · rename_i noMessage
        refine ⟨⟨seen, isPrefix, open_, has, lines.trans moved.symm⟩, ?_, waits.out, waits.client,
          waits.got⟩
        rw [decoded, noMessage, Option.toList_none, ite_self, List.append_nil]
        exact waits.answered
      · rename_i message isMessage
        split
        · exact ⟨⟨seen, isPrefix, fun isOpen => by simp at isOpen, has, lines⟩, waits.answered,
            waits.out, waits.client, waits.got⟩
        · rename_i state response handled
          have isAnswered := answeredOn_concat (socket.take other line rest) other connection
            message response
          refine ⟨⟨seen, isPrefix, open_, has, lines.trans moved.symm⟩, ?_, ?_, waits.client,
            waits.got⟩
          · rw [decoded, isMessage, ← waits.answered]
            refine (congrArg (List.map Prod.fst) isAnswered).trans ?_
            rw [List.map_append]
            congr 1
            split
            · rfl
            · rfl
          · have isWire : wire ((socket.answeredOn connection ++
                if other = connection then [(message, response)] else []).map fun answer =>
                  responses.text answer.2) =
                socket.out connection ++
                  if other = connection then wire [responses.text response] else [] := by
              rw [List.map_append, wire_append, ← waits.out]
              congr 1
              split
              · rfl
              · rfl
            refine Eq.trans ?_ (isWire.symm.trans (congrArg (fun answers =>
              wire (answers.map fun answer => responses.text answer.2)) isAnswered.symm))
            by_cases same : other = connection
            · subst same
              simp
            · simp [same, Ne.symm same]

theorem after_concat (state : σ) (history : List (Event κ)) (event : Event κ) :
    Socket.after service requests responses state (history ++ [event]) =
      (Socket.after service requests responses state history).step service requests responses
        event := by
  rw [Socket.after, Runs.final, List.foldl_append]
  rfl

theorem follows_after (state : σ) (history : List (Event κ)) (connection : κ) :
    Follows requests responses (Socket.after service requests responses state history) history
      connection := by
  induction history using List.reverseRecOn with
  | nil =>
      exact ⟨⟨[], List.prefix_rfl, fun _ => rfl, Reader.has_start, rfl⟩, rfl, rfl, Reader.has_start,
        rfl⟩
  | append_singleton history event ih =>
      rw [after_concat]
      cases event with
      | arrive other bytes => exact ih.arrive other bytes
      | handle other => exact ih.handle other
      | reply other bytes => exact ih.reply other bytes

/-- The messages of all connections are handled one after another. -/
theorem serves_after (state : σ) (history : List (Event κ)) :
    Serves service state (Socket.after service requests responses state history).answered
      (Socket.after service requests responses state history).state := by
  induction history using List.reverseRecOn with
  | nil => rfl
  | append_singleton history event ih =>
      rw [after_concat]
      generalize Socket.after service requests responses state history = socket at ih
      cases event with
      | arrive other bytes =>
          rw [Socket.step]
          split
          · exact ih
          · exact ih
      | reply other bytes => exact ih
      | handle other =>
          rw [Socket.step]
          split
          · exact ih
          · split
            · exact ih
            · rw [Socket.answer]
              split
              · exact ih
              · split
                · exact ih
                · rename_i handled
                  exact serves_concat ih handled

theorem decode_texts {μ : Type} {codec : Codec μ} (lawful : codec.Lawful) (messages : List μ) :
    (messages.map codec.text).filterMap codec.decode = messages := by
  rw [List.filterMap_map]
  refine (List.filterMap_congr fun message _ => ?_).trans List.filterMap_some
  exact lawful.reads message

theorem areLines {μ : Type} {codec : Codec μ} (lawful : codec.Lawful) (messages : List μ) :
    ∀ line ∈ messages.map codec.text, IsLine line := by
  intro line member
  obtain ⟨message, -, rfl⟩ := List.mem_map.mp member
  exact lawful.isLine message

/-- However the bytes are cut and the connections take turns, a connection's messages are answered in
their order, each once, by what the service makes of all messages so far, and its client reads the
responses in that order; once all has arrived and is handled, no message is left without its
response. -/
theorem answered_in_order (requestsLawful : requests.Lawful) (responsesLawful : responses.Lawful)
    (state : σ) (sent : κ → List μ) (history : List (Event κ))
    (upstream : ∀ connection, arrived connection history <+:
      wire ((sent connection).map requests.text))
    (downstream : ∀ connection, replied connection history <+:
      (Socket.after service requests responses state history).out connection) :
    Serves service state (Socket.after service requests responses state history).answered
      (Socket.after service requests responses state history).state ∧
    ∀ connection,
      ((Socket.after service requests responses state history).answeredOn connection).map
        Prod.fst <+: sent connection ∧
      ((Socket.after service requests responses state history).got connection).filterMap
        responses.decode <+:
        ((Socket.after service requests responses state history).answeredOn connection).map
          Prod.snd ∧
      ((Socket.after service requests responses state history).exited = false →
        (Socket.after service requests responses state history).queue connection = [] →
        arrived connection history = wire ((sent connection).map requests.text) →
        replied connection history =
          (Socket.after service requests responses state history).out connection →
        ((Socket.after service requests responses state history).answeredOn connection).map
            Prod.fst = sent connection ∧
          ((Socket.after service requests responses state history).got connection).filterMap
              responses.decode =
            ((Socket.after service requests responses state history).answeredOn connection).map
              Prod.snd) := by
  refine ⟨serves_after state history, fun connection => ?_⟩
  have follows := @follows_after κ σ μ ρ _ service requests responses state history connection
  have downstreamHere := downstream connection
  generalize Socket.after service requests responses state history = socket at follows downstreamHere ⊢
  obtain ⟨seen, isPrefix, open_, -, lines⟩ := follows.read
  have isOut : socket.out connection = wire (((socket.answeredOn connection).map Prod.snd).map
      responses.text) := by
    rw [follows.out, List.map_map]
    rfl
  rw [isOut] at downstreamHere ⊢
  rw [follows.answered, follows.got]
  refine ⟨?_, ?_, fun isOpen noQueue allArrived allReplied => ⟨?_, ?_⟩⟩
  · have read := soFar_part (areLines requestsLawful (sent connection))
      (isPrefix.trans (upstream connection))
    rw [lines] at read
    have handled := ((List.prefix_append _ _).trans read).filterMap requests.decode
    rwa [decode_texts requestsLawful] at handled
  · have read := (soFar_part (areLines responsesLawful _) downstreamHere).filterMap responses.decode
    rwa [decode_texts responsesLawful] at read
  · rw [open_ isOpen, allArrived, soFar_wire (areLines requestsLawful _), noQueue,
      List.append_nil] at lines
    rw [← lines, decode_texts requestsLawful]
  · rw [allReplied, soFar_wire (areLines responsesLawful _), decode_texts responsesLawful]

end

/-! Two clients, one of which asks for the state and one of which shuts the daemon down. -/

namespace TwoClients

inductive Message
  | getState
  | shutdown
  deriving DecidableEq

def messages : Codec Message where
  text
    | .getState => "\x7b\"type\":\"GetState\"\x7d".toList
    | .shutdown => "\x7b\"type\":\"Shutdown\"\x7d".toList
  fromStr line :=
    if line = "\x7b\"type\":\"GetState\"\x7d".toList then some .getState
    else if line = "\x7b\"type\":\"Shutdown\"\x7d".toList then some .shutdown
    else none

def idle : Codec Unit where
  text _ := "\x7b\"state\":\"idle\",\"tasks\":[]\x7d".toList
  fromStr line := if line = "\x7b\"state\":\"idle\",\"tasks\":[]\x7d".toList then some () else none

def daemon : Service Unit Message Unit where
  handle
    | _, .getState => some ((), ())
    | _, .shutdown => none

theorem messages_lawful : messages.Lawful where
  reads
    | .getState => by decide
    | .shutdown => by decide
  isLine
    | .getState => ⟨by decide, by decide⟩
    | .shutdown => ⟨by decide, by decide⟩

theorem idle_lawful : idle.Lawful where
  reads | () => by decide
  isLine | () => ⟨by decide, by decide⟩

def sent : Bool → List Message
  | false => [.getState, .getState]
  | true => [.shutdown]

def request (connection : Bool) : Bytes := wire ((sent connection).map messages.text)

def history : List (Event Bool) :=
  [.arrive false ((request false).take 30), .handle false, .arrive true (request true),
    .reply false (wire [idle.text ()]), .handle true, .arrive false ((request false).drop 30),
    .handle false]

end TwoClients

open TwoClients in
theorem answered_in_order_twoClients :
    ((Socket.after daemon messages idle () history).answeredOn false).map Prod.fst <+:
      sent false := by
  refine ((answered_in_order messages_lawful idle_lawful () sent history (fun connection => ?_)
    (fun connection => ?_)).2 false).1
  · rw [← List.isPrefixOf_iff_prefix]
    cases connection with
    | false => decide
    | true => decide
  · rw [← List.isPrefixOf_iff_prefix]
    cases connection with
    | false => decide
    | true => decide

end Rage.DaemonSocket
