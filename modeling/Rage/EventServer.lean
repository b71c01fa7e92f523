import Rage.EventMessages
import Rage.Runs

/-!
The server of the sandbox of macOS.  It reads the connections of all processes as their bytes come.
-/

namespace Rage.Interpose

open PipeProto (AccessEvent)

/-- What a connection carries. -/
def stream (events : List AccessEvent) : Bytes :=
  events.flatMap fun event => encode (message event) ++ [LineStream.newline]

/-! The server. -/

structure EventServer (γ : Type) where
  readers : γ → LineStream.Reader
  events : List (γ × AccessEvent)

inductive ServerEvent (γ : Type)
  | receive (client : γ) (bytes : Bytes)
  | close (client : γ)

namespace ServerEvent

variable {γ : Type} [DecidableEq γ]

def client : ServerEvent γ → γ
  | .receive client _ => client
  | .close client => client

/-- The bytes of a connection. -/
def received (client : γ) : List (ServerEvent γ) → Bytes
  | [] => []
  | .receive other bytes :: rest =>
      if other = client then bytes ++ received client rest else received client rest
  | .close _ :: rest => received client rest

def closed (client : γ) (history : List (ServerEvent γ)) : Bool :=
  history.any fun
    | .receive _ _ => false
    | .close other => other = client

/-- Nothing comes on a connection that has been closed. -/
def Ends (history : List (ServerEvent γ)) : Prop :=
  history.Pairwise fun earlier later => earlier ≠ .close later.client

end ServerEvent

namespace EventServer

variable {γ : Type} [DecidableEq γ] (fromStr : List Char → Option AccessEvent)

def start : EventServer γ := ⟨fun _ => .start, []⟩

/-- `handle_client` of one connection goes on by the lines that it has read. -/
def forward (server : EventServer γ) (client : γ)
    (read : List (List Char) × LineStream.Reader) : EventServer γ where
  readers := Function.update server.readers client read.2
  events := server.events ++ (read.1.filterMap fromStr).map fun event => (client, event)

def step (server : EventServer γ) : ServerEvent γ → EventServer γ
  | .receive client bytes => server.forward fromStr client ((server.readers client).receive bytes)
  | .close client => server.forward fromStr client (server.readers client).close

def eventsOf (server : EventServer γ) (client : γ) : List AccessEvent :=
  (server.events.filter fun tagged => tagged.1 = client).map Prod.snd

/-- `drain` takes what has been forwarded by then. -/
def drain (server : EventServer γ) : List AccessEvent := server.events.map Prod.snd

end EventServer

/-- The events whose lines have come whole; at the end of a stream a newline may be missing. -/
def arrived (closed : Bool) : List AccessEvent → Bytes → List AccessEvent
  | [], _ => []
  | event :: rest, bytes =>
      let line := encode (message event)
      if (line ++ [LineStream.newline]).isPrefixOf bytes then
        event :: arrived closed rest (bytes.drop (line.length + 1))
      else if closed && bytes == line then [event]
      else []

/-- What is forwarded of a connection of which these bytes have come. -/
def readSoFar (closed : Bool) (bytes : Bytes) : List (List Char) :=
  if closed then LineStream.whole bytes else LineStream.soFar bytes

theorem forwarded_eq {fromStr : List Char → Option AccessEvent} (serde : SerdeEvents fromStr)
    (closed : Bool) (events : List AccessEvent) {bytes : Bytes} (sent : bytes <+: stream events) :
    (readSoFar closed bytes).filterMap fromStr =
      (arrived closed events bytes).filter fun event => decide (Printable event) := by
  induction events generalizing bytes with
  | nil =>
      obtain rfl := List.prefix_nil.mp sent
      cases closed with
      | true => rfl
      | false => rfl
  | cons event rest ih =>
      have byLine : ∀ line more, '\n' ∉ line →
          readSoFar closed (encode line ++ LineStream.newline :: more) =
            LineStream.stripReturn line :: readSoFar closed more := by
        intro line more noNewline
        cases closed with
        | true => exact LineStream.whole_line noNewline more
        | false => exact LineStream.soFar_line noNewline more
      rw [arrived]
      split
      · rename_i isWhole
        obtain ⟨more, rfl⟩ := List.isPrefixOf_iff_prefix.mp isWhole
        rw [List.append_assoc, List.singleton_append]
        have later : more <+: stream rest := by
          have split : stream (event :: rest) =
              (encode (message event) ++ [LineStream.newline]) ++ stream rest := rfl
          rw [split] at sent
          exact (List.prefix_append_right_inj _).mp sent
        have dropped : (encode (message event) ++ LineStream.newline :: more).drop
            ((encode (message event)).length + 1) = more := by simp
        rw [texts_message serde byLine, ih later, dropped]
        by_cases printable : Printable event
        · simp [printable]
        · simp [printable]
      · rename_i notWhole
        have isPart : bytes <+: encode (message event) := by
          have split : stream (event :: rest) =
              encode (message event) ++ ([LineStream.newline] ++ stream rest) := by
            simp [stream]
          rw [split] at sent
          rcases prefix_append_cases sent with within | ⟨more, rfl, later⟩
          · exact within
          · cases more with
            | nil => simp
            | cons byte more =>
                obtain ⟨rfl, -⟩ := List.cons_prefix_cons.mp later
                refine (notWhole ?_).elim
                rw [List.isPrefixOf_iff_prefix]
                exact ⟨more, by simp⟩
        rw [message_eq] at isPart ⊢
        obtain ⟨soFar, whole⟩ :=
          texts_partial serde (List.nil_append _).symm (Or.inl rfl) isPart
        cases closed with
        | true =>
            rw [readSoFar, if_pos rfl, whole]
            by_cases same : bytes = encode (eventText event)
            · by_cases printable : Printable event
              · simp [same, printable]
              · simp [same, printable]
            · simp [same]
        | false =>
            rw [readSoFar, if_neg Bool.false_ne_true, soFar]
            simp

/-! Runs of the server: what is forwarded of a connection depends on its bytes only. -/

section Runs

variable {γ : Type} [DecidableEq γ]

open ServerEvent

theorem received_concat (client : γ) (history : List (ServerEvent γ)) (event : ServerEvent γ) :
    received client (history ++ [event]) = received client history ++ received client [event] := by
  induction history with
  | nil => rfl
  | cons first rest ih =>
      cases first with
      | receive other bytes =>
          rw [List.cons_append, received, received, ih]
          split
          · rw [List.append_assoc]
          · rfl
      | close other => exact ih

theorem closed_concat (client : γ) (history : List (ServerEvent γ)) (event : ServerEvent γ) :
    closed client (history ++ [event]) = (closed client history || closed client [event]) := by
  rw [closed, List.any_append]
  rfl

variable {fromStr : List Char → Option AccessEvent}

theorem eventsOf_forward (server : EventServer γ) (client other : γ)
    (read : List (List Char) × LineStream.Reader) :
    (server.forward fromStr client read).eventsOf other =
      server.eventsOf other ++ if client = other then read.1.filterMap fromStr else [] := by
  rw [EventServer.eventsOf, EventServer.forward, List.filter_append, List.map_append]
  congr 1
  by_cases same : client = other
  · simp [same, List.filter_map, Function.comp_def]
  · simp [same, List.filter_map, Function.comp_def]

theorem reader_forward (server : EventServer γ) (client other : γ)
    (read : List (List Char) × LineStream.Reader) :
    (server.forward fromStr client read).readers other =
      if other = client then read.2 else server.readers other :=
  Function.update_apply ..

/-- After a history a connection that is open has been read as far as it came, and one that was
closed to its end. -/
def Followed (fromStr : List Char → Option AccessEvent) (server : EventServer γ)
    (history : List (ServerEvent γ)) : Prop :=
  ∀ client, server.eventsOf client =
      (readSoFar (closed client history) (received client history)).filterMap fromStr ∧
    (closed client history = false → (server.readers client).Has (received client history))

theorem Followed.step {server : EventServer γ} {history : List (ServerEvent γ)}
    (followed : Followed fromStr server history) {event : ServerEvent γ}
    (isOpen : closed event.client history = false) :
    Followed fromStr (server.step fromStr event) (history ++ [event]) := by
  intro client
  obtain ⟨events, has⟩ := followed client
  by_cases same : event.client = client
  · subst same
    rw [isOpen] at events
    cases event with
    | receive other bytes =>
        obtain ⟨hasMore, isMore⟩ := (has isOpen).receive bytes
        have isClosed : closed other (history ++ [.receive other bytes]) = false := by
          rw [closed_concat, show closed other [.receive other bytes] = false from rfl,
            Bool.or_false]
          exact isOpen
        have isReceived : received other (history ++ [.receive other bytes]) =
            received other history ++ bytes := by
          rw [received_concat]
          simp [received]
        simp only [ServerEvent.client] at events hasMore isMore ⊢
        rw [isClosed, isReceived]
        refine ⟨?_, fun _ => ?_⟩
        · rw [EventServer.step, eventsOf_forward, if_pos rfl, events, readSoFar, readSoFar,
            if_neg Bool.false_ne_true, if_neg Bool.false_ne_true, isMore, List.filterMap_append]
        · rw [EventServer.step, reader_forward, if_pos rfl]
          exact hasMore
    | close other =>
        have isClosed : closed other (history ++ [.close other]) = true := by
          rw [closed_concat]
          simp [closed]
        have isReceived : received other (history ++ [.close other]) = received other history := by
          rw [received_concat]
          simp [received]
        simp only [ServerEvent.client] at events has isOpen ⊢
        rw [isClosed, isReceived]
        refine ⟨?_, fun isFalse => by simp at isFalse⟩
        rw [EventServer.step, eventsOf_forward, if_pos rfl, events, readSoFar, readSoFar,
          if_neg Bool.false_ne_true, if_pos rfl, (has isOpen).close, List.filterMap_append]
  · have isClosed : closed client (history ++ [event]) = closed client history := by
      rw [closed_concat]
      cases event with
      | receive other bytes => simp [closed]
      | close other =>
          simp only [ServerEvent.client] at same
          simp [closed, same]
    have isReceived : received client (history ++ [event]) = received client history := by
      rw [received_concat]
      cases event with
      | receive other bytes =>
          simp only [ServerEvent.client] at same
          simp [received, same]
      | close other => simp [received]
    rw [isClosed, isReceived]
    cases event with
    | receive other bytes =>
        simp only [ServerEvent.client] at same
        rw [EventServer.step, eventsOf_forward, if_neg same, List.append_nil]
        refine ⟨events, fun isOpen => ?_⟩
        rw [reader_forward, if_neg (Ne.symm same)]
        exact has isOpen
    | close other =>
        simp only [ServerEvent.client] at same
        rw [EventServer.step, eventsOf_forward, if_neg same, List.append_nil]
        refine ⟨events, fun isOpen => ?_⟩
        rw [reader_forward, if_neg (Ne.symm same)]
        exact has isOpen

theorem followed_final (history : List (ServerEvent γ)) (ends : Ends history) :
    Followed fromStr (Runs.final (EventServer.step fromStr) .start history) history := by
  induction history using List.reverseRecOn with
  | nil => exact fun client => ⟨rfl, fun _ => LineStream.Reader.has_start⟩
  | append_singleton history event ih =>
      obtain ⟨endsBefore, -, last⟩ := List.pairwise_append.mp ends
      have isOpen : closed event.client history = false := by
        rw [closed, List.any_eq_false]
        intro earlier member
        have apart := last earlier member event (List.mem_singleton_self event)
        cases earlier with
        | receive other bytes => simp
        | close other =>
            have differs : other ≠ event.client := fun same => apart (congrArg _ same)
            simpa using differs
      rw [Runs.final, List.foldl_append]
      exact (ih endsBefore).step isOpen

/-- However the connections come in, and wherever they are cut off, what is forwarded of each are
the accesses whose lines have come whole, in their order, except those with a control character in
their path. -/
theorem forwarded_exactly {fromStr : List Char → Option AccessEvent} (serde : SerdeEvents fromStr)
    (calls : γ → List (UInt32 × Call)) (history : List (ServerEvent γ)) (ends : Ends history)
    (sent : ∀ client, received client history <+:
      stream ((calls client).flatMap fun call => call.2.accesses call.1)) (client : γ) :
    (Runs.final (EventServer.step fromStr) .start history).eventsOf client =
      (arrived (closed client history)
        ((calls client).flatMap fun call => call.2.accesses call.1)
        (received client history)).filter fun event => decide (Printable event) := by
  rw [(followed_final history ends client).1]
  exact forwarded_eq serde _ _ (sent client)

end Runs

/-- Two processes, the second of which is cut off in a line. -/
def pieceCalls : Bool → List (UInt32 × Call)
  | false => [(1, .rageOpen (some ['/', '"']) 0), (1, .rageMkdir (some ['a', '\n', 'b']))]
  | true => [(2, .rageRename (some ['c']) (some ['d']))]

def pieceSent (client : Bool) : Bytes :=
  stream ((pieceCalls client).flatMap fun call => call.2.accesses call.1)

def pieceHistory : List (ServerEvent Bool) :=
  [.receive false ((pieceSent false).take 5), .receive true ((pieceSent true).take 50),
    .receive false ((pieceSent false).drop 5), .close true, .close false]

theorem forwarded_exactly_pieces :
    (Runs.final (EventServer.step compactEvent) .start pieceHistory).eventsOf false =
        [.read ['/', '"'] 1] ∧
      (Runs.final (EventServer.step compactEvent) .start pieceHistory).eventsOf true =
        [.write ['c'] 2] := by
  have ends : ServerEvent.Ends pieceHistory := by
    simp [pieceHistory, ServerEvent.Ends, ServerEvent.client]
  have sent (client : Bool) : ServerEvent.received client pieceHistory <+: pieceSent client := by
    rw [← List.isPrefixOf_iff_prefix]
    cases client with
    | false => decide
    | true => decide
  have forwarded := forwarded_exactly compactEvent_serde pieceCalls pieceHistory ends sent
  exact ⟨(forwarded false).trans (by decide), (forwarded true).trans (by decide)⟩

end Rage.Interpose
