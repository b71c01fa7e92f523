import Rage.EventServer

/-!
The set of paths that a sandboxed command of macOS is recorded with.
-/

namespace Rage.Interpose

open Ebpf (PathSet insertPath insertPath_names)
open PipeProto (AccessEvent)

/-- `PathSet::from_events`, an event at a time. -/
def insertEvent (sets : PathSet) : AccessEvent → PathSet
  | .read path _ => { sets with reads := insertPath sets.reads (encode path) }
  | .write path _ => { sets with writes := insertPath sets.writes (encode path) }

def fromEvents (events : List AccessEvent) : PathSet := events.foldl insertEvent ⟨[], []⟩

def isRead : AccessEvent → Bool
  | .read _ _ => true
  | .write _ _ => false

/-! Paths in a set are in order, and no two have the same components. -/

def Ordered (paths : List Path) : Prop :=
  (paths.map components).Pairwise (fun first second => componentsLe first second = true) ∧
    (paths.map components).Nodup

theorem ordered_nil : Ordered [] := ⟨List.Pairwise.nil, List.nodup_nil⟩

theorem Ordered.insertPath {paths : List Path} (ordered : Ordered paths) (path : Path) :
    Ordered (insertPath paths path) := by
  unfold Ebpf.insertPath
  split
  · exact ordered
  · rename_i fresh
    have absent : components path ∉ paths.map components := by
      intro member
      obtain ⟨other, isMember, same⟩ := List.mem_map.mp member
      exact fresh (List.any_eq_true.mpr ⟨other, isMember, Path.eq_iff.mpr same.symm⟩)
    have isTotal : Std.Total fun first second => componentsLe first second = true :=
      ⟨componentsLe_total⟩
    have isTrans : IsTrans _ fun first second => componentsLe first second = true :=
      ⟨componentsLe_trans⟩
    have inserted : (paths.orderedInsert (fun first second => Path.le first second) path).map
        components = (paths.map components).orderedInsert
          (fun first second => componentsLe first second = true) (components path) :=
      List.map_orderedInsert _ _ _ _ _ (fun _ _ => Iff.rfl) fun _ _ => Iff.rfl
    refine ⟨?_, ?_⟩
    · rw [inserted]
      exact ordered.1.orderedInsert _ _
    · rw [inserted, (List.perm_orderedInsert _ _ _).nodup_iff]
      exact List.nodup_cons.mpr ⟨absent, ordered.2⟩

/-- Sets with the same names list the same components. -/
theorem Ordered.ext {first second : List Path} (isFirst : Ordered first) (isSecond : Ordered second)
    (same : ∀ path, (∃ kept ∈ first, Path.eq kept path = true) ↔
      ∃ kept ∈ second, Path.eq kept path = true) :
    first.map components = second.map components := by
  have members (parts : List Component) :
      parts ∈ first.map components ↔ parts ∈ second.map components := by
    simp only [List.mem_map]
    constructor
    · rintro ⟨path, member, rfl⟩
      obtain ⟨kept, isKept, equal⟩ := (same path).mp ⟨path, member, Path.eq_refl path⟩
      exact ⟨kept, isKept, Path.eq_iff.mp equal⟩
    · rintro ⟨path, member, rfl⟩
      obtain ⟨kept, isKept, equal⟩ := (same path).mpr ⟨path, member, Path.eq_refl path⟩
      exact ⟨kept, isKept, Path.eq_iff.mp equal⟩
  have permuted := (List.perm_ext_iff_of_nodup isFirst.2 isSecond.2).mpr members
  exact permuted.eq_of_pairwise (fun _ _ _ _ below above => componentsLe_antisymm _ _ below above)
    isFirst.1 isSecond.1

/-! What a list of events leaves in the sets. -/

theorem insertEvent_ordered {sets : PathSet} (ordered : Ordered sets.reads ∧ Ordered sets.writes)
    (event : AccessEvent) :
    Ordered (insertEvent sets event).reads ∧ Ordered (insertEvent sets event).writes := by
  cases event with
  | read path pid => exact ⟨ordered.1.insertPath _, ordered.2⟩
  | write path pid => exact ⟨ordered.1, ordered.2.insertPath _⟩

theorem fromEvents_ordered (events : List AccessEvent) :
    Ordered (fromEvents events).reads ∧ Ordered (fromEvents events).writes := by
  induction events using List.reverseRecOn with
  | nil => exact ⟨ordered_nil, ordered_nil⟩
  | append_singleton events event ih =>
      rw [fromEvents, List.foldl_append]
      exact insertEvent_ordered ih event

/-- The paths of one kind. -/
def PathSet.of (kind : Bool) (sets : PathSet) : List Path := if kind then sets.reads else sets.writes

theorem insertEvent_names (kind : Bool) (sets : PathSet) (event : AccessEvent) (path : Path) :
    (∃ kept ∈ PathSet.of kind (insertEvent sets event), Path.eq kept path = true) ↔
      (∃ kept ∈ PathSet.of kind sets, Path.eq kept path = true) ∨
        isRead event = kind ∧ Path.eq (encode event.path) path = true := by
  cases event with
  | read name pid =>
      cases kind with
      | true => simp [PathSet.of, insertEvent, insertPath_names, isRead, AccessEvent.path]
      | false => simp [PathSet.of, insertEvent, isRead]
  | write name pid =>
      cases kind with
      | true => simp [PathSet.of, insertEvent, isRead]
      | false => simp [PathSet.of, insertEvent, insertPath_names, isRead, AccessEvent.path]

theorem fromEvents_names (kind : Bool) (events : List AccessEvent) (path : Path) :
    (∃ kept ∈ PathSet.of kind (fromEvents events), Path.eq kept path = true) ↔
      ∃ event ∈ events, isRead event = kind ∧ Path.eq (encode event.path) path = true := by
  induction events using List.reverseRecOn with
  | nil =>
      cases kind with
      | true => simp [fromEvents, PathSet.of]
      | false => simp [fromEvents, PathSet.of]
  | append_singleton events event ih =>
      rw [fromEvents, List.foldl_append]
      simp only [List.foldl_cons, List.foldl_nil, insertEvent_names, List.mem_append,
        List.mem_singleton, or_and_right, exists_or, exists_eq_left]
      rw [← ih]
      rfl

section Observed

variable {γ : Type} [DecidableEq γ] (calls : γ → List (UInt32 × Call))

def accessesOf (client : γ) : List AccessEvent :=
  (calls client).flatMap fun call => call.2.accesses call.1

/-- All that was sent has come. -/
def Complete (history : List (ServerEvent γ)) : Prop :=
  ServerEvent.Ends history ∧
    ∀ client, ServerEvent.received client history = stream (accessesOf calls client)

theorem arrived_stream (closed : Bool) (events : List AccessEvent) :
    arrived closed events (stream events) = events := by
  induction events with
  | nil => rfl
  | cons event rest ih =>
      have split : stream (event :: rest) =
          (encode (message event) ++ [LineStream.newline]) ++ stream rest := rfl
      rw [arrived, if_pos (List.isPrefixOf_iff_prefix.mpr ⟨_, split.symm⟩), split,
        List.drop_left' (by simp), ih]

variable {calls} {fromStr : List Char → Option AccessEvent} (serde : SerdeEvents fromStr)

/-- The result of `run_sandboxed`. -/
def observed (fromStr : List Char → Option AccessEvent) (history : List (ServerEvent γ)) : PathSet :=
  fromEvents (Runs.final (EventServer.step fromStr) .start history).drain

include serde

theorem mem_drain {history : List (ServerEvent γ)} (complete : Complete calls history)
    (event : AccessEvent) :
    event ∈ (Runs.final (EventServer.step fromStr) .start history).drain ↔
      Printable event ∧ ∃ client, event ∈ accessesOf calls client := by
  have each (client : γ) : (Runs.final (EventServer.step fromStr) .start history).eventsOf client =
      (accessesOf calls client).filter fun event => decide (Printable event) := by
    rw [(followed_final history complete.1 client).1, complete.2 client,
      forwarded_eq serde _ _ (List.prefix_rfl), arrived_stream]
  have tagged : event ∈ (Runs.final (EventServer.step fromStr) .start history).drain ↔
      ∃ client, event ∈
        (Runs.final (EventServer.step fromStr) .start history).eventsOf client := by
    simp [EventServer.drain, EventServer.eventsOf]
  rw [tagged]
  simp only [each, List.mem_filter, decide_eq_true_eq, exists_and_right]
  exact and_comm

/-- Once all has come, the sets are in order, without repetitions, and name the printable paths that
were accessed; neither the order in which the connections came nor the pieces matter. -/
theorem observed_exactly {history : List (ServerEvent γ)} (complete : Complete calls history)
    (kind : Bool) :
    Ordered (PathSet.of kind (observed fromStr history)) ∧
      (∀ path, (∃ kept ∈ PathSet.of kind (observed fromStr history), Path.eq kept path = true) ↔
        ∃ client, ∃ event ∈ accessesOf calls client, Printable event ∧ isRead event = kind ∧
          Path.eq (encode event.path) path = true) ∧
      ∀ other, Complete calls other →
        (PathSet.of kind (observed fromStr other)).map components =
          (PathSet.of kind (observed fromStr history)).map components := by
  have ordered (run : List (ServerEvent γ)) :
      Ordered (PathSet.of kind (observed fromStr run)) := by
    obtain ⟨reads, writes⟩ := fromEvents_ordered
      (Runs.final (EventServer.step fromStr) .start run).drain
    cases kind with
    | true => exact reads
    | false => exact writes
  have names (run : List (ServerEvent γ)) (isComplete : Complete calls run) (path : Path) :
      (∃ kept ∈ PathSet.of kind (observed fromStr run), Path.eq kept path = true) ↔
        ∃ client, ∃ event ∈ accessesOf calls client, Printable event ∧ isRead event = kind ∧
          Path.eq (encode event.path) path = true := by
    rw [observed, fromEvents_names]
    simp only [mem_drain serde isComplete]
    constructor
    · rintro ⟨event, ⟨printable, client, member⟩, isKind, same⟩
      exact ⟨client, event, member, printable, isKind, same⟩
    · rintro ⟨client, event, member, printable, isKind, same⟩
      exact ⟨event, ⟨printable, client, member⟩, isKind, same⟩
  refine ⟨ordered history, names history complete, fun other isComplete => ?_⟩
  refine (ordered other).ext (ordered history) fun path => ?_
  rw [names other isComplete, names history complete]

end Observed

def firstThenSecond : List (ServerEvent Bool) :=
  [.receive false ((pieceSent false).take 5), .receive false ((pieceSent false).drop 5),
    .receive true (pieceSent true)]

def inTurns : List (ServerEvent Bool) :=
  [.receive true ((pieceSent true).take 50), .receive false (pieceSent false),
    .receive true ((pieceSent true).drop 50), .close true]

theorem observed_exactly_pieces :
    (observed compactEvent inTurns).reads.map components =
        (observed compactEvent firstThenSecond).reads.map components ∧
      (observed compactEvent inTurns).writes.map components =
        (observed compactEvent firstThenSecond).writes.map components := by
  have inOrder : Complete pieceCalls firstThenSecond := by
    refine ⟨by simp [firstThenSecond, ServerEvent.Ends, ServerEvent.client], fun client => ?_⟩
    cases client with
    | false => decide
    | true => decide
  have turns : Complete pieceCalls inTurns := by
    refine ⟨by simp [inTurns, ServerEvent.Ends, ServerEvent.client], fun client => ?_⟩
    cases client with
    | false => decide
    | true => decide
  exact ⟨(observed_exactly compactEvent_serde inOrder true).2.2 inTurns turns,
    (observed_exactly compactEvent_serde inOrder false).2.2 inTurns turns⟩

end Rage.Interpose
