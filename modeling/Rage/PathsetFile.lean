import Rage.AtomicPut
import Rage.CacheFiles

/-!
Appends to the pathset file of one weak fingerprint by the tasks and processes that share it.  An
append reads the whole file, and writes the whole file piece by piece.
-/

namespace Rage.PathsetFile

open AtomicPut (writeAt writeAt_prefix)

/-- Where an append is.  `writing` is at an offset of its text; it keeps its place in the file even
when another append truncates the file. -/
inductive Phase
  | idle
  | parsing (raw : Option Bytes)
  | opening (existing : List StoredPathset)
  | writing (text : Bytes) (offset : Nat)
  | returned (ok : Bool)
  deriving DecidableEq

structure State where
  file : Option Bytes
  phases : Nat → Phase

def initial (file : Option Bytes) : State := ⟨file, fun _ => .idle⟩

inductive Event
  | read (call : Nat)
  | check (call : Nat)
  | truncate (call : Nat)
  /-- The system refuses to open the file. -/
  | refuse (call : Nat)
  | write (call count : Nat)
  | finish (call : Nat)
  /-- A `list` from outside; it returns `State.list`. -/
  | list
  deriving DecidableEq

def State.enter (state : State) (call : Nat) (phase : Phase) : State :=
  { state with phases := Function.update state.phases call phase }

@[simp] theorem State.enter_phases (state : State) (call : Nat) (phase : Phase) :
    (state.enter call phase).phases = Function.update state.phases call phase := rfl

section

variable (json : Json) (pathsets : Nat → StoredPathset)

def parsed (raw : Option Bytes) : List StoredPathset := (raw.bind json.parsePathsets).getD []

def State.list (state : State) : List StoredPathset := parsed json state.file

def checked (raw : Option Bytes) (pathset : StoredPathset) : Phase :=
  let existing := parsed json raw
  if existing.any fun stored => stored.eq pathset then .returned true
  else if (existing ++ [pathset]).all TwoPhaseCache.serializable then .opening existing
  else .returned false

def step (state : State) : Event → Option State
  | .read call =>
      if state.phases call = .idle then some (state.enter call (.parsing state.file)) else none
  | .check call =>
      match state.phases call with
      | .parsing raw => some (state.enter call (checked json raw (pathsets call)))
      | _ => none
  | .truncate call =>
      match state.phases call with
      | .opening existing =>
          some { file := some []
                 phases := Function.update state.phases call
                  (.writing (json.printPathsets (existing ++ [pathsets call])) 0) }
      | _ => none
  | .refuse call =>
      match state.phases call with
      | .opening _ => some (state.enter call (.returned false))
      | _ => none
  | .write call count =>
      match state.phases call with
      | .writing text offset =>
          if 0 < count ∧ offset + count ≤ text.length then
            some { file := some (writeAt (state.file.getD []) offset ((text.drop offset).take count))
                   phases := Function.update state.phases call (.writing text (offset + count)) }
          else none
      | _ => none
  | .finish call =>
      match state.phases call with
      | .writing text offset =>
          if offset = text.length then some (state.enter call (.returned true)) else none
      | _ => none
  | .list => some state

def Phase.short : Phase → Bool
  | .writing text offset => decide (offset < text.length)
  | _ => false

/-- Some append has truncated the file and not yet written all of its text. -/
def State.Torn (state : State) : Prop := ∃ call, (state.phases call).short = true

/-- Every pathset of one list equals one of the other. -/
def Covers (covering covered : List StoredPathset) : Prop :=
  ∀ stored ∈ covered, ∃ kept ∈ covering, kept.eq stored = true

/-- The file is read when no append is in the middle of writing it; and an append truncates it when
none is, and when it writes back all that the file lists. -/
def Fits (state : State) : Event → Prop
  | .read _ => ¬ state.Torn
  | .list => ¬ state.Torn
  | .truncate call => ¬ state.Torn ∧ ∀ existing, state.phases call = .opening existing →
      Covers (existing ++ [pathsets call]) (state.list json)
  | _ => True

end

theorem eq_iff_components {first second : StoredPathset} : first.eq second = true ↔
    first.reads.map components = second.reads.map components ∧
      first.writes.map components = second.writes.map components := by
  simp [StoredPathset.eq]

theorem Covers.refl (pathsets : List StoredPathset) : Covers pathsets pathsets :=
  fun stored member => ⟨stored, member, eq_iff_components.mpr ⟨rfl, rfl⟩⟩

theorem Covers.trans {first second third : List StoredPathset} (upper : Covers first second)
    (lower : Covers second third) : Covers first third := by
  intro stored member
  obtain ⟨kept, keptMember, same⟩ := lower stored member
  obtain ⟨other, otherMember, others⟩ := upper kept keptMember
  obtain ⟨reads, writes⟩ := eq_iff_components.mp same
  obtain ⟨otherReads, otherWrites⟩ := eq_iff_components.mp others
  exact ⟨other, otherMember, eq_iff_components.mpr ⟨otherReads.trans reads, otherWrites.trans writes⟩⟩

section

variable (json : Json) (pathsets : Nat → StoredPathset)

/-- What the file lists, or will list when the append that is writing it is done. -/
inductive Promises (state : State) (promised : List StoredPathset) : Prop
  | whole (quiet : ¬ state.Torn) (listed : state.list json = promised)
  | written (writer : Nat) (text : Bytes) (offset : Nat)
      (writes : state.phases writer = .writing text offset) (short : offset < text.length)
      (begun : state.file = some (text.take offset)) (ends : json.parsePathsets text = some promised)
      (alone : ∀ other, (state.phases other).short = true → other = writer)

/-- What each append knows of the promised list. -/
def Knows (promised : List StoredPathset) (pathset : StoredPathset) : Phase → Prop
  | .idle => True
  | .parsing raw => Covers promised (parsed json raw)
  | .opening existing => (existing ++ [pathset]).all TwoPhaseCache.serializable = true
  | .writing text _ => Covers promised [pathset] ∧
      ∃ existing, text = json.printPathsets (existing ++ [pathset])
  | .returned ok => ok = true → Covers promised [pathset]

structure Orderly (state : State) (promised : List StoredPathset) : Prop where
  promises : Promises json state promised
  knows : ∀ call, Knows json promised (pathsets call) (state.phases call)

end

section

variable {json : Json} {pathsets : Nat → StoredPathset} {state : State}
  {promised : List StoredPathset}

theorem Knows.mono {more : List StoredPathset} {pathset : StoredPathset} {phase : Phase}
    (grown : Covers more promised) (knows : Knows json promised pathset phase) :
    Knows json more pathset phase := by
  cases phase with
  | idle => trivial
  | parsing raw => exact grown.trans knows
  | opening existing => exact knows
  | writing text offset => exact ⟨grown.trans knows.1, knows.2⟩
  | returned ok => exact fun done => grown.trans (knows done)

theorem Promises.quiet (promises : Promises json state promised) (quiet : ¬ state.Torn) :
    state.list json = promised := by
  cases promises with
  | whole _ listed => exact listed
  | written writer text offset writes short =>
      exact (quiet ⟨writer, by simp [writes, Phase.short, short]⟩).elim

theorem initial_orderly (file : Option Bytes) :
    Orderly json pathsets (initial file) ((initial file).list json) where
  promises := .whole (by simp [State.Torn, initial, Phase.short]) rfl
  knows := fun _ => trivial

theorem Promises.enter (promises : Promises json state promised) {call : Nat} {phase : Phase}
    (before : (state.phases call).short = false) (after : phase.short = false) :
    Promises json (state.enter call phase) promised := by
  have same (other : Nat) :
      ((state.enter call phase).phases other).short = (state.phases other).short := by
    by_cases here : other = call
    · rw [here, State.enter_phases, Function.update_self, after, before]
    · rw [State.enter_phases, Function.update_of_ne here]
  cases promises with
  | whole quiet listed =>
      refine .whole ?_ listed
      simpa only [State.Torn, same] using quiet
  | written writer text offset writes short begun ends alone =>
      have apart : writer ≠ call := by
        rintro rfl
        simp [writes, Phase.short, short] at before
      refine .written writer text offset ?_ short begun ends ?_
      · rw [State.enter_phases, Function.update_of_ne apart, writes]
      · intro other
        rw [same]
        exact alone other

theorem Orderly.enter (orderly : Orderly json pathsets state promised) {call : Nat} {phase : Phase}
    (before : (state.phases call).short = false) (after : phase.short = false)
    (knows : Knows json promised (pathsets call) phase) :
    Orderly json pathsets (state.enter call phase) promised where
  promises := orderly.promises.enter before after
  knows := fun other => by
    by_cases here : other = call
    · subst other
      simpa using knows
    · simpa [Function.update_of_ne here] using orderly.knows other

theorem Orderly.read (orderly : Orderly json pathsets state promised) {call : Nat}
    (idle : state.phases call = .idle) (quiet : ¬ state.Torn) :
    Orderly json pathsets (state.enter call (.parsing state.file)) promised := by
  refine orderly.enter (by simp [idle, Phase.short]) rfl ?_
  have listed := orderly.promises.quiet quiet
  rw [Knows, ← listed]
  exact Covers.refl _

theorem Orderly.check (orderly : Orderly json pathsets state promised) {call : Nat}
    {raw : Option Bytes} (parsing : state.phases call = .parsing raw) :
    Orderly json pathsets (state.enter call (checked json raw (pathsets call))) promised := by
  have known := orderly.knows call
  rw [parsing] at known
  unfold checked
  simp only
  split
  · rename_i present
    refine orderly.enter (by simp [parsing, Phase.short]) rfl fun _ => known.trans ?_
    simpa [Covers] using present
  · split
    · rename_i serializable
      exact orderly.enter (by simp [parsing, Phase.short]) rfl serializable
    · exact orderly.enter (by simp [parsing, Phase.short]) rfl (by simp [Knows])

theorem Orderly.finish (orderly : Orderly json pathsets state promised) {call : Nat} {text : Bytes}
    (writing : state.phases call = .writing text text.length) :
    Orderly json pathsets (state.enter call (.returned true)) promised := by
  have known := orderly.knows call
  rw [writing] at known
  exact orderly.enter (by simp [writing, Phase.short]) rfl fun _ => known.1

/-- The list that a truncating append is about to write covers the one that it truncates. -/
theorem Orderly.truncate (lawful : json.Lawful) (orderly : Orderly json pathsets state promised)
    {call : Nat} {existing : List StoredPathset} (opening : state.phases call = .opening existing)
    (quiet : ¬ state.Torn) (covers : Covers (existing ++ [pathsets call]) (state.list json)) :
    Orderly json pathsets
      { file := some []
        phases := Function.update state.phases call
          (.writing (json.printPathsets (existing ++ [pathsets call])) 0) }
      (existing ++ [pathsets call]) := by
  have serializable := orderly.knows call
  rw [opening] at serializable
  have ends := lawful.pathsets _ serializable
  have own : Covers (existing ++ [pathsets call]) [pathsets call] := by
    intro stored member
    exact Covers.refl _ stored (List.mem_append_right _ member)
  rw [orderly.promises.quiet quiet] at covers
  constructor
  · by_cases filled : 0 < (json.printPathsets (existing ++ [pathsets call])).length
    · refine .written call _ 0 (Function.update_self ..) filled (by simp) ends fun other short => ?_
      by_contra apart
      simp only [Function.update_of_ne apart] at short
      exact quiet ⟨other, short⟩
    · have isEmpty : json.printPathsets (existing ++ [pathsets call]) = [] := by
        simpa using filled
      rw [isEmpty] at ends ⊢
      refine .whole ?_ (by simp [State.list, parsed, ends])
      rintro ⟨other, short⟩
      by_cases here : other = call
      · simp [here, Phase.short] at short
      · simp only [Function.update_of_ne here] at short
        exact quiet ⟨other, short⟩
  · intro other
    by_cases here : other = call
    · subst other
      simp only [Function.update_self]
      exact ⟨own, existing, rfl⟩
    · simp only [Function.update_of_ne here]
      exact (orderly.knows other).mono covers

theorem Orderly.write (orderly : Orderly json pathsets state promised) {call count offset : Nat}
    {text : Bytes} (writing : state.phases call = .writing text offset) (filled : 0 < count)
    (within : offset + count ≤ text.length) :
    Orderly json pathsets
      { file := some (writeAt (state.file.getD []) offset ((text.drop offset).take count))
        phases := Function.update state.phases call (.writing text (offset + count)) } promised := by
  have known := orderly.knows call
  rw [writing] at known
  have short : (state.phases call).short = true := by
    simp [writing, Phase.short]
    omega
  constructor
  · cases orderly.promises with
    | whole quiet _ => exact (quiet ⟨call, short⟩).elim
    | written writer ownText ownOffset writes _ begun ends alone =>
        obtain rfl := alone call short
        simp only [writing, Phase.writing.injEq] at writes
        obtain ⟨rfl, rfl⟩ := writes
        have others (other : Nat) (differs : other ≠ call) :
            (state.phases other).short = false := by
          by_contra isShort
          exact differs (alone other (by simpa using isShort))
        rw [begun, Option.getD_some, writeAt_prefix text within]
        by_cases ended : offset + count = text.length
        · refine .whole ?_ ?_
          · rintro ⟨other, isShort⟩
            by_cases here : other = call
            · simp [here, Phase.short, ended] at isShort
            · simp [Function.update_of_ne here, others other here] at isShort
          · rw [ended, List.take_length, State.list, parsed, Option.bind_some, ends]
            rfl
        · refine .written call text (offset + count) (Function.update_self ..) (by omega) rfl ends ?_
          intro other isShort
          by_contra apart
          simp [Function.update_of_ne apart, others other apart] at isShort
  · intro other
    by_cases here : other = call
    · subst other
      simp only [Function.update_self]
      exact known
    · simpa [Function.update_of_ne here] using orderly.knows other

theorem step_orderly (lawful : json.Lawful) (orderly : Orderly json pathsets state promised)
    {event : Event} {next : State} (fits : Fits json pathsets state event)
    (taken : step json pathsets state event = some next) :
    ∃ later, Orderly json pathsets next later := by
  cases event with
  | read call =>
      obtain ⟨idle, moved⟩ := Option.ite_none_right_eq_some.mp taken
      rw [← Option.some.inj moved]
      exact ⟨promised, orderly.read idle fits⟩
  | check call =>
      simp only [step] at taken
      split at taken
      · rename_i raw parsing
        rw [← Option.some.inj taken]
        exact ⟨promised, orderly.check parsing⟩
      · simp at taken
  | truncate call =>
      simp only [step] at taken
      split at taken
      · rename_i existing opening
        rw [← Option.some.inj taken]
        exact ⟨_, orderly.truncate lawful opening fits.1 (fits.2 existing opening)⟩
      · simp at taken
  | refuse call =>
      simp only [step] at taken
      split at taken
      · rename_i existing opening
        rw [← Option.some.inj taken]
        exact ⟨promised, orderly.enter (by simp [opening, Phase.short]) rfl (by simp [Knows])⟩
      · simp at taken
  | write call count =>
      simp only [step] at taken
      split at taken
      · rename_i text offset writing
        obtain ⟨⟨filled, within⟩, moved⟩ := Option.ite_none_right_eq_some.mp taken
        rw [← Option.some.inj moved]
        exact ⟨promised, orderly.write writing filled within⟩
      · simp at taken
  | finish call =>
      simp only [step] at taken
      split at taken
      · rename_i text offset writing
        obtain ⟨rfl, moved⟩ := Option.ite_none_right_eq_some.mp taken
        rw [← Option.some.inj moved]
        exact ⟨promised, orderly.finish writing⟩
      · simp at taken
  | list =>
      rw [← Option.some.inj taken]
      exact ⟨promised, orderly⟩

theorem run_orderly (lawful : json.Lawful) {file : Option Bytes}
    (reached : Machine.Reachable (step json pathsets) (Fits json pathsets) (initial file) state) :
    ∃ promised, Orderly json pathsets state promised := by
  refine reached.invariant (fun state => ∃ promised, Orderly json pathsets state promised)
    ⟨_, initial_orderly file⟩ ?_
  rintro before event next ⟨promised, orderly⟩ fits taken
  exact step_orderly lawful orderly fits taken

/-! What the steps that do not fit lead to. -/

theorem list_of_torn (lawful : json.Lawful) (orderly : Orderly json pathsets state promised)
    (torn : state.Torn) : state.list json = [] := by
  cases orderly.promises with
  | whole quiet _ => exact (quiet torn).elim
  | written writer text offset writes short begun _ _ =>
      have known := orderly.knows writer
      rw [writes] at known
      obtain ⟨existing, rfl⟩ := known.2
      rw [State.list, parsed, begun, Option.bind_some, lawful.cutPathsets _ _ short,
        Option.getD_none]

theorem read_torn (lawful : json.Lawful) (orderly : Orderly json pathsets state promised)
    (torn : state.Torn) {call : Nat} (idle : state.phases call = .idle)
    (valid : TwoPhaseCache.serializable (pathsets call) = true) :
    ∃ next, Machine.run (step json pathsets) state [.read call, .check call] = some next ∧
      next.phases call = .opening [] := by
  have unseen : parsed json state.file = [] := list_of_torn lawful orderly torn
  have isOpening : checked json state.file (pathsets call) = .opening [] := by
    simp [checked, unseen, valid]
  have ran : Machine.run (step json pathsets) state [.read call, .check call] =
      some ((state.enter call (.parsing state.file)).enter call (.opening [])) := by
    simp [Machine.run, step, idle, isOpening]
  exact ⟨_, ran, by simp⟩

theorem print_ne_nil (lawful : json.Lawful) {pathsets : List StoredPathset} (filled : pathsets ≠ [])
    (serializable : pathsets.all TwoPhaseCache.serializable = true) :
    json.printPathsets pathsets ≠ [] := by
  intro isEmpty
  have parses := lawful.pathsets pathsets serializable
  have parsesNone := lawful.pathsets [] rfl
  rw [isEmpty] at parses
  by_cases short : 0 < (json.printPathsets []).length
  · have cut := lawful.cutPathsets [] 0 short
    simp [parses] at cut
  · rw [List.length_pos_iff.not_left.mp short, parses] at parsesNone
    exact filled (Option.some.inj parsesNone)

theorem overwrite (lawful : json.Lawful) {call : Nat} {existing : List StoredPathset}
    (opening : state.phases call = .opening existing)
    (serializable : (existing ++ [pathsets call]).all TwoPhaseCache.serializable = true) :
    ∃ next, Machine.run (step json pathsets) state [.truncate call,
        .write call (json.printPathsets (existing ++ [pathsets call])).length, .finish call] =
          some next ∧
      next.phases call = .returned true ∧ next.list json = existing ++ [pathsets call] := by
  have filled := List.length_pos_iff.mpr (print_ne_nil lawful (by simp) serializable)
  have parses := lawful.pathsets _ serializable
  obtain ⟨text, isText⟩ : ∃ text, json.printPathsets (existing ++ [pathsets call]) = text := ⟨_, rfl⟩
  rw [isText] at filled parses ⊢
  have written : writeAt (text.take 0) 0 ((text.drop 0).take text.length) =
      text.take (0 + text.length) := writeAt_prefix text (by simp)
  simp only [List.take_zero, List.drop_zero, List.take_length, Nat.zero_add] at written
  have ran : Machine.run (step json pathsets) state
      [.truncate call, .write call text.length, .finish call] =
        some ⟨some text, Function.update state.phases call (.returned true)⟩ := by
    simp [Machine.run, step, opening, isText, filled, written, State.enter]
  refine ⟨_, ran, Function.update_self .., ?_⟩
  rw [State.list, parsed, Option.bind_some, parses, Option.getD_some]

theorem appends_kept (lawful : json.Lawful) (file : Option Bytes)
    (reached : Machine.Reachable (step json pathsets) (Fits json pathsets) (initial file) state) :
    (∀ call, state.phases call = .returned true → ¬ state.Torn →
      ∃ stored ∈ state.list json, stored.eq (pathsets call) = true) ∧
    (state.Torn → state.list json = [] ∧ ∀ call, state.phases call = .idle →
      TwoPhaseCache.serializable (pathsets call) = true →
      ∃ next, Machine.run (step json pathsets) state [.read call, .check call] = some next ∧
        next.phases call = .opening []) ∧
    ∀ call existing, state.phases call = .opening existing →
      ∃ next, Machine.run (step json pathsets) state [.truncate call,
          .write call (json.printPathsets (existing ++ [pathsets call])).length, .finish call] =
            some next ∧
        next.phases call = .returned true ∧ next.list json = existing ++ [pathsets call] := by
  obtain ⟨promised, orderly⟩ := run_orderly lawful reached
  refine ⟨?_, fun torn => ⟨list_of_torn lawful orderly torn, fun call => read_torn lawful orderly torn⟩,
    ?_⟩
  · intro call done quiet
    have known := orderly.knows call
    rw [done] at known
    rw [orderly.promises.quiet quiet]
    exact known rfl (pathsets call) (by simp)
  · intro call existing opening
    have serializable := orderly.knows call
    rw [opening] at serializable
    exact overwrite lawful opening serializable

end

/-! Two appends to a file that does not exist yet. -/

namespace TwoAppends

def first : StoredPathset := ⟨[utf8 "a.ts"], []⟩

def second : StoredPathset := ⟨[utf8 "b.ts"], []⟩

def json : Json := .plain [[first], [second], [first, second]] []

theorem json_lawful : json.Lawful :=
  Json.plain_lawful ⟨by decide +kernel, by decide +kernel⟩ ⟨by decide +kernel, by decide +kernel⟩

def pathsets (call : Nat) : StoredPathset := if call = 0 then first else second

def size (written : List StoredPathset) : Nat := (json.printPathsets written).length

end TwoAppends

open TwoAppends in
theorem appends_kept_once :
    ∃ state, Machine.run (step json pathsets) (initial none)
      [.read 0, .check 0, .truncate 0, .write 0 (size [first]), .finish 0] = some state ∧
    ((∀ call, state.phases call = .returned true → ¬ state.Torn →
      ∃ stored ∈ state.list json, stored.eq (pathsets call) = true) ∧
    (state.Torn → state.list json = [] ∧ ∀ call, state.phases call = .idle →
      TwoPhaseCache.serializable (pathsets call) = true →
      ∃ next, Machine.run (step json pathsets) state [.read call, .check call] = some next ∧
        next.phases call = .opening []) ∧
    ∀ call existing, state.phases call = .opening existing →
      ∃ next, Machine.run (step json pathsets) state [.truncate call,
          .write call (json.printPathsets (existing ++ [pathsets call])).length, .finish call] =
            some next ∧
        next.phases call = .returned true ∧ next.list json = existing ++ [pathsets call]) := by
  refine ⟨_, rfl, appends_kept json_lawful none (.tail (.finish 0) (.tail (.write 0 (size [first]))
    (.tail (.truncate 0) (.tail (.check 0) (.tail (.read 0) .refl ?_ rfl) trivial rfl) ⟨?_, ?_⟩ rfl)
    trivial rfl) trivial rfl)⟩
  · simp [Fits, State.Torn, initial, Phase.short]
  · rintro ⟨call, short⟩
    by_cases own : call = 0
    · rw [own] at short
      exact absurd short (by decide +kernel)
    · simp [own, State.enter, initial, Phase.short] at short
  · intro existing _ stored listed
    simp [State.list, parsed, State.enter, initial] at listed

open TwoAppends in
/-- Both read before either one writes. -/
theorem append_lost :
    ¬ ∀ (json : Json), json.Lawful → ∀ (pathsets : Nat → StoredPathset) (file : Option Bytes)
      (events : List Event) (state : State),
      Machine.run (step json pathsets) (initial file) events = some state →
      ∀ call, state.phases call = .returned true →
        ∃ stored ∈ state.list json, stored.eq (pathsets call) = true := by
  intro claimed
  have kept := claimed json json_lawful pathsets none
    [.read 0, .read 1, .check 0, .check 1, .truncate 0, .write 0 (size [first]), .finish 0,
      .truncate 1, .write 1 (size [second]), .finish 1] _ rfl 0 rfl
  exact absurd kept (by decide +kernel)

end Rage.PathsetFile
