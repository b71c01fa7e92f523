import Rage.FileSystem
import Rage.Inodes
import Rage.Machine

/-!
Writes to one key of the store by the threads of a process.  A call checks for the data file, writes
a temporary file piece by piece and renames it; the name of the temporary file depends on the
process and on the kind of the call only, so all calls of a kind share it.
-/

namespace Rage.AtomicPut

open Inodes

inductive FileName
  | data
  | tmp (keyed : Bool)
  deriving DecidableEq

/-- A call of `put_bytes`, or of `put_bytes_keyed` if it is keyed. -/
structure Call where
  keyed : Bool
  bytes : Bytes
  deriving DecidableEq

def Call.tmp (call : Call) : FileName := .tmp call.keyed

/-- Where a call is; `writing` has the file open until it is renamed. -/
inductive Phase
  | idle
  | creating
  | writing (inode offset : Nat)
  | recheck
  | removing
  | returned (ok : Bool)
  | killed
  deriving DecidableEq

def Phase.open? : Phase → Option (Nat × Nat)
  | .writing inode offset => some (inode, offset)
  | _ => none

structure State where
  disk : Disk FileName Bytes Unit
  phases : Nat → Phase

def initial : State where
  disk :=
    { names := fun _ => none
      inodes := fun _ => ⟨[], 0⟩
      fresh := 0
      allocated := by simp }
  phases := fun _ => .idle

def createMode : Nat := 0o644

/-- A write at an offset; what lies between the end of the file and the offset reads as zeros. -/
def writeAt (content : Bytes) (offset : Nat) (piece : Bytes) : Bytes :=
  content.take offset ++ List.replicate (offset - content.length) 0 ++ piece ++
    content.drop (offset + piece.length)

inductive Event
  | check (call : Nat)
  | create (call : Nat)
  | write (call count : Nat)
  | rename (call : Nat)
  /-- The system refuses the rename. -/
  | renameFails (call : Nat)
  /-- An error of `create_dir_all`, `File::create`, `write_all` or `sync_all`. -/
  | fails (call : Nat)
  | recheck (call : Nat)
  | remove (call : Nat)
  /-- The process ends; calls that begin later are those of a process with the same id. -/
  | kill
  deriving DecidableEq

def State.enter (state : State) (call : Nat) (phase : Phase) : State :=
  { state with phases := Function.update state.phases call phase }

def Phase.kill : Phase → Phase
  | .idle => .idle
  | .returned ok => .returned ok
  | _ => .killed

section

variable (calls : Nat → Call)

def State.createTmp (state : State) (call : Nat) : State :=
  match state.disk.inodeOf (calls call).tmp with
  | some inode =>
      { disk := state.disk.setContent inode []
        phases := Function.update state.phases call (.writing inode 0) }
  | none =>
      { disk := state.disk.create (calls call).tmp [] createMode
        phases := Function.update state.phases call (.writing state.disk.fresh 0) }

def State.writePiece (state : State) (call inode offset count : Nat) : State :=
  let piece := ((calls call).bytes.drop offset).take count
  { disk := state.disk.setContent inode (writeAt (state.disk.inodes inode).content offset piece)
    phases := Function.update state.phases call (.writing inode (offset + count)) }

def step (state : State) : Event → Option State
  | .check call =>
      if state.phases call = .idle then
        some (state.enter call (if state.disk.isFile .data then .returned true else .creating))
      else none
  | .create call =>
      if state.phases call = .creating then some (state.createTmp calls call) else none
  | .write call count =>
      match state.phases call with
      | .writing inode offset =>
          if 0 < count ∧ offset + count ≤ (calls call).bytes.length then
            some (state.writePiece calls call inode offset count)
          else none
      | _ => none
  | .rename call =>
      match state.phases call with
      | .writing _ offset =>
          if offset = (calls call).bytes.length then
            if state.disk.isFile (calls call).tmp then
              some { disk := state.disk.rename (calls call).tmp .data
                     phases := Function.update state.phases call (.returned true) }
            else some (state.enter call .recheck)
          else none
      | _ => none
  | .renameFails call =>
      match state.phases call with
      | .writing _ offset =>
          if offset = (calls call).bytes.length then some (state.enter call .recheck) else none
      | _ => none
  | .fails call =>
      match state.phases call with
      | .creating => some (state.enter call (.returned false))
      | .writing _ _ => some (state.enter call (.returned false))
      | _ => none
  | .recheck call =>
      if state.phases call = .recheck then
        some (state.enter call (if state.disk.isFile .data then .removing else .returned false))
      else none
  | .remove call =>
      if state.phases call = .removing then
        some { disk := state.disk.remove (calls call).tmp
               phases := Function.update state.phases call (.returned true) }
      else none
  | .kill => some { state with phases := fun call => (state.phases call).kill }

/-- No other call of the kind has the temporary file open when a call creates it. -/
def Fits (state : State) : Event → Prop
  | .create call => ∀ other, (calls other).keyed = (calls call).keyed →
      (state.phases other).open? = none
  | _ => True

/-! A call that has a temporary file open has one of its own. -/

structure Owns (state : State) (call inode offset : Nat) : Prop where
  within : offset ≤ (calls call).bytes.length
  written : (state.disk.inodes inode).content = (calls call).bytes.take offset
  below : inode < state.disk.fresh
  sole : ∀ name, state.disk.inodeOf name = some inode → name = (calls call).tmp
  named : ∀ other, state.disk.inodeOf (calls call).tmp = some other → other = inode

structure Orderly (state : State) : Prop where
  distinct : state.disk.Distinct
  exclusive : ∀ first second, (calls first).keyed = (calls second).keyed →
    (state.phases first).open?.isSome → (state.phases second).open?.isSome → first = second
  owns : ∀ call inode offset, state.phases call = .writing inode offset →
    Owns calls state call inode offset
  apart : ∀ first second inode offset offset', state.phases first = .writing inode offset →
    state.phases second = .writing inode offset' → first = second
  data : ∀ inode, state.disk.inodeOf .data = some inode →
    ∃ call, state.phases call ≠ .idle ∧ (state.disk.inodes inode).content = (calls call).bytes
  present : ∀ call, state.phases call = .returned true ∨ state.phases call = .removing →
    state.disk.isFile .data = true

theorem initial_orderly : Orderly calls initial := by
  constructor <;> simp [initial, Disk.Distinct, Disk.inodeOf, Phase.open?]

variable {calls} {state : State}

/-- A call goes on to a phase in which it has no file open.  What the disk must still have then is
what the calls with open files own, the data file and no second names. -/
theorem Orderly.leave (orderly : Orderly calls state) (call : Nat) {phase : Phase}
    (disk : Disk FileName Bytes Unit) (closed : phase.open? = none) (begun : phase ≠ .idle)
    (distinct : disk.Distinct)
    (owns : ∀ other inode offset, other ≠ call → state.phases other = .writing inode offset →
      Owns calls ⟨disk, Function.update state.phases call phase⟩ other inode offset)
    (data : ∀ inode, disk.inodeOf .data = some inode →
      (disk.inodes inode).content = (calls call).bytes ∨
        state.disk.inodeOf .data = some inode ∧ disk.inodes inode = state.disk.inodes inode)
    (present : state.disk.isFile .data = true ∨ phase = .returned true ∨ phase = .removing →
      disk.isFile .data = true) :
    Orderly calls ⟨disk, Function.update state.phases call phase⟩ := by
  have still (other : Nat) (inode offset : Nat)
      (isOpen : Function.update state.phases call phase other = .writing inode offset) :
      other ≠ call ∧ state.phases other = .writing inode offset := by
    by_cases here : other = call
    · simp only [here, Function.update_self] at isOpen
      rw [isOpen] at closed
      simp [Phase.open?] at closed
    · exact ⟨here, by simpa [here] using isOpen⟩
  have stillOpen (other : Nat)
      (isOpen : (Function.update state.phases call phase other).open?.isSome) :
      (state.phases other).open?.isSome := by
    by_cases here : other = call
    · simp [here, closed] at isOpen
    · simpa [here] using isOpen
  constructor
  case distinct => exact distinct
  case exclusive =>
    intro first second kind isFirst isSecond
    exact orderly.exclusive first second kind (stillOpen first isFirst) (stillOpen second isSecond)
  case owns =>
    intro other inode offset isOpen
    obtain ⟨notCall, wasOpen⟩ := still other inode offset isOpen
    exact owns other inode offset notCall wasOpen
  case apart =>
    intro first second inode offset offset' isFirst isSecond
    exact orderly.apart first second inode offset offset' (still first inode offset isFirst).2
      (still second inode offset' isSecond).2
  case data =>
    intro inode isData
    rcases data inode isData with own | ⟨wasData, same⟩
    · exact ⟨call, by simpa using begun, own⟩
    · obtain ⟨other, otherBegun, content⟩ := orderly.data inode wasData
      refine ⟨other, ?_, by rw [← content, same]⟩
      by_cases here : other = call
      · simpa [here] using begun
      · simpa [here] using otherBegun
  case present =>
    intro other done
    by_cases here : other = call
    · exact present (Or.inr (by simpa [here] using done))
    · exact present (Or.inl (orderly.present other (by simpa [here] using done)))

theorem Orderly.enter (orderly : Orderly calls state) (call : Nat) (phase : Phase)
    (closed : phase.open? = none) (begun : phase ≠ .idle)
    (present : phase = .returned true ∨ phase = .removing → state.disk.isFile .data = true) :
    Orderly calls (state.enter call phase) := by
  refine orderly.leave call state.disk closed begun orderly.distinct ?_ ?_ ?_
  · intro other inode offset _ isOpen
    have owns := orderly.owns other inode offset isOpen
    exact ⟨owns.within, owns.written, owns.below, owns.sole, owns.named⟩
  · exact fun inode isData => Or.inr ⟨isData, rfl⟩
  · intro isPresent
    rcases isPresent with already | done
    · exact already
    · exact present done

theorem Orderly.kill (orderly : Orderly calls state) :
    Orderly calls { state with phases := fun call => (state.phases call).kill } := by
  have closed (phase : Phase) (inode offset : Nat) : phase.kill ≠ .writing inode offset := by
    cases phase <;> simp [Phase.kill]
  constructor
  case distinct => exact orderly.distinct
  case exclusive =>
    intro first second _ isFirst
    cases phase : state.phases first <;> simp [Phase.kill, Phase.open?, phase] at isFirst
  case owns => exact fun call inode offset isOpen => absurd isOpen (closed _ _ _)
  case apart => exact fun first _ inode offset _ isOpen => absurd isOpen (closed _ _ _)
  case data =>
    intro inode isData
    obtain ⟨call, begun, content⟩ := orderly.data inode isData
    refine ⟨call, ?_, content⟩
    cases phase : state.phases call <;> simp_all [Phase.kill]
  case present =>
    intro call done
    apply orderly.present call
    cases phase : state.phases call <;> simp_all [Phase.kill]

theorem Orderly.apart_of_ne (orderly : Orderly calls state) {first second inode offset inode'
    offset' : Nat} (isFirst : state.phases first = .writing inode offset)
    (isSecond : state.phases second = .writing inode' offset') (differ : first ≠ second) :
    inode ≠ inode' := by
  rintro rfl
  exact differ (orderly.apart first second inode offset offset' isFirst isSecond)

theorem Orderly.tmp_of_ne (orderly : Orderly calls state) {first second inode offset inode'
    offset' : Nat} (isFirst : state.phases first = .writing inode offset)
    (isSecond : state.phases second = .writing inode' offset') (differ : first ≠ second) :
    (calls first).tmp ≠ (calls second).tmp := by
  intro same
  have kind : (calls first).keyed = (calls second).keyed := by
    simpa [Call.tmp] using same
  exact differ (orderly.exclusive first second kind (by simp [isFirst, Phase.open?])
    (by simp [isSecond, Phase.open?]))

theorem Orderly.remove (orderly : Orderly calls state) {call : Nat}
    (here : state.phases call = .removing) :
    Orderly calls { disk := state.disk.remove (calls call).tmp
                    phases := Function.update state.phases call (.returned true) } := by
  have present := orderly.present call (Or.inr here)
  have data : (state.disk.remove (calls call).tmp).inodeOf .data = state.disk.inodeOf .data := by
    simp [Disk.inodeOf_remove, Call.tmp]
  refine orderly.leave call _ rfl (by simp) (orderly.distinct.remove _) ?_ ?_ ?_
  · intro other inode offset _ isOpen
    have owns := orderly.owns other inode offset isOpen
    refine ⟨owns.within, owns.written, owns.below, ?_, ?_⟩
    · intro name isName
      rw [Disk.inodeOf_remove] at isName
      split at isName
      · simp at isName
      · exact owns.sole name isName
    · intro found isTmp
      rw [Disk.inodeOf_remove] at isTmp
      split at isTmp
      · simp at isTmp
      · exact owns.named found isTmp
  · exact fun inode isData => Or.inr ⟨data ▸ isData, rfl⟩
  · intro _
    rwa [Disk.isFile, data]

theorem Orderly.rename (orderly : Orderly calls state) {call inode : Nat}
    (here : state.phases call = .writing inode (calls call).bytes.length)
    (isFile : state.disk.isFile (calls call).tmp = true) :
    Orderly calls { disk := state.disk.rename (calls call).tmp .data
                    phases := Function.update state.phases call (.returned true) } := by
  have own := orderly.owns call inode _ here
  obtain ⟨found, isTmp⟩ := Option.isSome_iff_exists.mp isFile
  obtain rfl := own.named found isTmp
  have names (name : FileName) : (state.disk.rename (calls call).tmp .data).inodeOf name =
      if name = (calls call).tmp then none
      else if name = .data then some found else state.disk.inodeOf name := by
    rw [Disk.rename, Disk.inodeOf_remove, Disk.inodeOf_link, isTmp]
  have data : (state.disk.rename (calls call).tmp .data).inodeOf .data = some found := by
    rw [names, if_neg (by simp [Call.tmp]), if_pos rfl]
  refine orderly.leave call _ rfl (by simp) (orderly.distinct.rename _ _) ?_ ?_ ?_
  · intro other inode offset differ isOpen
    have owns := orderly.owns other inode offset isOpen
    have inodes := orderly.apart_of_ne isOpen here differ
    have kinds := orderly.tmp_of_ne isOpen here differ
    refine ⟨owns.within, owns.written, owns.below, ?_, ?_⟩
    · intro name isName
      rw [names] at isName
      split at isName
      · simp at isName
      · split at isName
        · exact absurd (Option.some.inj isName).symm inodes
        · exact owns.sole name isName
    · intro tmp isTmp
      rw [names, if_neg kinds, if_neg (by simp [Call.tmp])] at isTmp
      exact owns.named tmp isTmp
  · intro inode isData
    rw [data] at isData
    obtain rfl := Option.some.inj isData
    exact Or.inl (by simpa using own.written)
  · intro _
    simp [Disk.isFile, data]

/-- A call has its file open, and its own disk changes leave the others theirs. -/
theorem Orderly.hold (orderly : Orderly calls state) (call : Nat) {disk : Disk FileName Bytes Unit}
    {inode offset : Nat}
    (alone : ∀ other, other ≠ call → (calls other).keyed = (calls call).keyed →
      (state.phases other).open? = none)
    (distinct : disk.Distinct)
    (own : Owns calls ⟨disk, Function.update state.phases call (.writing inode offset)⟩ call inode
      offset)
    (others : ∀ other inode' offset', other ≠ call → state.phases other = .writing inode' offset' →
      inode' ≠ inode ∧ Owns calls
        ⟨disk, Function.update state.phases call (.writing inode offset)⟩ other inode' offset')
    (data : disk.inodeOf .data = state.disk.inodeOf .data)
    (content : ∀ found, state.disk.inodeOf .data = some found →
      disk.inodes found = state.disk.inodes found) :
    Orderly calls ⟨disk, Function.update state.phases call (.writing inode offset)⟩ := by
  constructor
  case distinct => exact distinct
  case exclusive =>
    intro first second kind isFirst isSecond
    by_cases isCall : first = call
    · by_cases secondCall : second = call
      · rw [isCall, secondCall]
      · have closed := alone second secondCall (by rw [← kind, isCall])
        simp [secondCall, closed] at isSecond
    · by_cases secondCall : second = call
      · have closed := alone first isCall (by rw [kind, secondCall])
        simp [isCall, closed] at isFirst
      · exact orderly.exclusive first second kind (by simpa [isCall] using isFirst)
          (by simpa [secondCall] using isSecond)
  case owns =>
    intro other inode' offset' isOpen
    by_cases isCall : other = call
    · subst isCall
      simp only [Function.update_self, Phase.writing.injEq] at isOpen
      obtain ⟨rfl, rfl⟩ := isOpen
      exact own
    · exact (others other inode' offset' isCall (by simpa [isCall] using isOpen)).2
  case apart =>
    intro first second inode' offset' offset'' isFirst isSecond
    by_cases isCall : first = call
    · by_cases secondCall : second = call
      · rw [isCall, secondCall]
      · simp only [isCall, Function.update_self, Phase.writing.injEq] at isFirst
        have differ := (others second inode' offset'' secondCall
          (by simpa [secondCall] using isSecond)).1
        exact absurd isFirst.1.symm differ
    · have isOther := by simpa [isCall] using isFirst
      by_cases secondCall : second = call
      · simp only [secondCall, Function.update_self, Phase.writing.injEq] at isSecond
        exact absurd isSecond.1.symm (others first inode' offset' isCall isOther).1
      · exact orderly.apart first second inode' offset' offset'' isOther
          (by simpa [secondCall] using isSecond)
  case data =>
    intro found isData
    have wasData : state.disk.inodeOf .data = some found := data ▸ isData
    obtain ⟨other, begun, same⟩ := orderly.data found wasData
    refine ⟨other, ?_, by rw [← same, content found wasData]⟩
    by_cases isCall : other = call
    · simp [isCall]
    · simpa [isCall] using begun
  case present =>
    intro other done
    by_cases isCall : other = call
    · simp [isCall] at done
    · have wasPresent := orderly.present other (by simpa [isCall] using done)
      rwa [Disk.isFile, data]

theorem writeAt_prefix (bytes : Bytes) {offset count : Nat}
    (within : offset + count ≤ bytes.length) :
    writeAt (bytes.take offset) offset ((bytes.drop offset).take count) =
      bytes.take (offset + count) := by
  have length : (bytes.take offset).length = offset := by
    rw [List.length_take]
    omega
  have past : (bytes.take offset).drop (offset + ((bytes.drop offset).take count).length) = [] :=
    List.drop_of_length_le (by omega)
  rw [writeAt, past, length, Nat.sub_self, List.take_of_length_le (by omega), List.take_add]
  simp

theorem Orderly.write (orderly : Orderly calls state) {call inode offset count : Nat}
    (here : state.phases call = .writing inode offset)
    (within : offset + count ≤ (calls call).bytes.length) :
    Orderly calls (state.writePiece calls call inode offset count) := by
  have own := orderly.owns call inode offset here
  apply orderly.hold
  case alone =>
    intro other differ kind
    by_contra isOpen
    exact differ (orderly.exclusive other call kind (Option.isSome_iff_ne_none.mpr isOpen)
      (by simp [here, Phase.open?]))
  case distinct => exact orderly.distinct
  case own =>
    refine ⟨within, ?_, own.below, own.sole, own.named⟩
    simp only [Disk.setContent, Disk.inodes_overwrite_self]
    rw [own.written, writeAt_prefix _ within]
  case others =>
    intro other inode' offset' differ isOpen
    have owns := orderly.owns other inode' offset' isOpen
    have inodes := orderly.apart_of_ne isOpen here differ
    refine ⟨inodes, owns.within, ?_, owns.below, owns.sole, owns.named⟩
    rw [Disk.setContent, Disk.inodes_overwrite_of_ne _ inodes]
    exact owns.written
  case data => rfl
  case content =>
    intro found isData
    refine Disk.inodes_overwrite_of_ne _ ?_ _
    rintro rfl
    exact absurd (own.sole .data isData) (by simp [Call.tmp])

theorem Orderly.create (orderly : Orderly calls state) {call : Nat}
    (fits : Fits calls state (.create call)) : Orderly calls (state.createTmp calls call) := by
  have alone (other : Nat) (differ : other ≠ call)
      (kind : (calls other).keyed = (calls call).keyed) : (state.phases other).open? = none :=
    fits other kind
  have kinds (other inode offset : Nat) (isOpen : state.phases other = .writing inode offset) :
      (calls call).tmp ≠ (calls other).tmp := by
    intro same
    have closed := fits other (by simpa [Call.tmp] using same.symm)
    simp [isOpen, Phase.open?] at closed
  unfold State.createTmp
  split
  · rename_i inode isTmp
    apply orderly.hold call alone
    case distinct => exact orderly.distinct
    case own =>
      refine ⟨Nat.zero_le _, by simp [Disk.setContent], state.disk.allocated _ _ isTmp, ?_, ?_⟩
      · exact fun name isName => orderly.distinct name _ inode isName isTmp
      · exact fun other isOther => Option.some.inj (isOther.symm.trans isTmp)
    case others =>
      intro other inode' offset' _ isOpen
      have owns := orderly.owns other inode' offset' isOpen
      have inodes : inode' ≠ inode := by
        rintro rfl
        exact kinds other inode' offset' isOpen (owns.sole _ isTmp)
      refine ⟨inodes, owns.within, ?_, owns.below, owns.sole, owns.named⟩
      rw [Disk.setContent, Disk.inodes_overwrite_of_ne _ inodes]
      exact owns.written
    case data => rfl
    case content =>
      intro found isData
      refine Disk.inodes_overwrite_of_ne _ ?_ _
      rintro rfl
      exact absurd (orderly.distinct _ _ _ isData isTmp) (by simp [Call.tmp])
  · rename_i noTmp
    apply orderly.hold call alone
    case distinct => exact orderly.distinct.create _ _ _
    case own =>
      refine ⟨Nat.zero_le _, by simp, Nat.lt_succ_self _, ?_, ?_⟩
      · intro name isName
        rw [Disk.inodeOf_create] at isName
        split at isName
        · assumption
        · exact absurd (state.disk.allocated _ _ isName) (Nat.lt_irrefl _)
      · intro other isOther
        rw [Disk.inodeOf_create, if_pos rfl] at isOther
        exact (Option.some.inj isOther).symm
    case others =>
      intro other inode' offset' _ isOpen
      have owns := orderly.owns other inode' offset' isOpen
      have inodes : inode' ≠ state.disk.fresh := Nat.ne_of_lt owns.below
      refine ⟨inodes, owns.within, ?_, Nat.lt_succ_of_lt owns.below, ?_, ?_⟩
      · rw [Disk.inodes_create_of_ne _ inodes]
        exact owns.written
      · intro name isName
        rw [Disk.inodeOf_create] at isName
        split at isName
        · exact absurd (Option.some.inj isName).symm inodes
        · exact owns.sole name isName
      · intro found isTmp
        rw [Disk.inodeOf_create, if_neg (kinds other inode' offset' isOpen).symm] at isTmp
        exact owns.named found isTmp
    case data => simp [Disk.inodeOf_create, Call.tmp]
    case content =>
      intro found isData
      exact Disk.inodes_create_of_ne _ (Nat.ne_of_lt (state.disk.allocated _ _ isData)) _ _ _

theorem step_orderly (orderly : Orderly calls state) {event : Event} {next : State}
    (fits : Fits calls state event) (taken : step calls state event = some next) :
    Orderly calls next := by
  cases event with
  | check call =>
      obtain ⟨_, moved⟩ := Option.ite_none_right_eq_some.mp taken
      obtain rfl := Option.some.inj moved
      apply orderly.enter
      · split <;> rfl
      · split <;> simp
      · split <;> simp_all
  | create call =>
      obtain ⟨_, moved⟩ := Option.ite_none_right_eq_some.mp taken
      obtain rfl := Option.some.inj moved
      exact orderly.create fits
  | write call count =>
      simp only [step] at taken
      split at taken
      · rename_i inode offset here
        obtain ⟨⟨_, within⟩, moved⟩ := Option.ite_none_right_eq_some.mp taken
        obtain rfl := Option.some.inj moved
        exact orderly.write here within
      · simp at taken
  | rename call =>
      simp only [step] at taken
      split at taken
      · rename_i inode offset here
        obtain ⟨complete, moved⟩ := Option.ite_none_right_eq_some.mp taken
        split at moved
        · rename_i isFile
          obtain rfl := Option.some.inj moved
          exact orderly.rename (complete ▸ here) isFile
        · obtain rfl := Option.some.inj moved
          exact orderly.enter call .recheck rfl (by simp) (by simp)
      · simp at taken
  | renameFails call =>
      simp only [step] at taken
      split at taken
      · obtain ⟨_, moved⟩ := Option.ite_none_right_eq_some.mp taken
        obtain rfl := Option.some.inj moved
        exact orderly.enter call .recheck rfl (by simp) (by simp)
      · simp at taken
  | fails call =>
      simp only [step] at taken
      split at taken
      · obtain rfl := Option.some.inj taken
        exact orderly.enter call (.returned false) rfl (by simp) (by simp)
      · obtain rfl := Option.some.inj taken
        exact orderly.enter call (.returned false) rfl (by simp) (by simp)
      · simp at taken
  | recheck call =>
      obtain ⟨_, moved⟩ := Option.ite_none_right_eq_some.mp taken
      obtain rfl := Option.some.inj moved
      apply orderly.enter
      · split <;> rfl
      · split <;> simp
      · split <;> simp_all
  | remove call =>
      obtain ⟨here, moved⟩ := Option.ite_none_right_eq_some.mp taken
      obtain rfl := Option.some.inj moved
      exact orderly.remove here
  | kill =>
      obtain rfl := Option.some.inj taken
      exact orderly.kill

theorem run_orderly (reached : Machine.Reachable (step calls) (Fits calls) initial state) :
    Orderly calls state := by
  apply reached.invariant (Orderly calls) (initial_orderly calls)
  intro before event after orderly fits taken
  exact step_orderly orderly fits taken

/-- A call that creates the file of another one, just before it is renamed, empties the data. -/
theorem create_empties_data {call other inode : Nat} (differ : other ≠ call)
    (kind : (calls other).keyed = (calls call).keyed)
    (written : state.phases call = .writing inode (calls call).bytes.length)
    (isTmp : state.disk.inodeOf (calls call).tmp = some inode)
    (creating : state.phases other = .creating) :
    ∃ next, Machine.run (step calls) state [.create other, .rename call] = some next ∧
      next.phases call = .returned true ∧ next.disk.read .data = some [] := by
  have sameTmp : (calls other).tmp = (calls call).tmp := by simp [Call.tmp, kind]
  have created : step calls state (.create other) = some
      { disk := state.disk.setContent inode []
        phases := Function.update state.phases other (.writing inode 0) } := by
    simp [step, creating, State.createTmp, sameTmp, isTmp]
  have isFile : (state.disk.setContent inode []).isFile (calls call).tmp = true := by
    simp [Disk.isFile, Disk.setContent, isTmp]
  have renamed : step calls
      { disk := state.disk.setContent inode []
        phases := Function.update state.phases other (.writing inode 0) } (.rename call) = some
      { disk := (state.disk.setContent inode []).rename (calls call).tmp .data
        phases := Function.update (Function.update state.phases other (.writing inode 0)) call
          (.returned true) } := by
    simp [step, differ.symm, written, isFile]
  have data : ((state.disk.setContent inode []).rename (calls call).tmp .data).inodeOf .data =
      some inode := by
    rw [Disk.rename, Disk.inodeOf_remove, Disk.inodeOf_link, if_neg (by simp [Call.tmp]),
      if_pos rfl, Disk.setContent, Disk.inodeOf_overwrite, isTmp]
  have ran : Machine.run (step calls) state [.create other, .rename call] = some
      { disk := (state.disk.setContent inode []).rename (calls call).tmp .data
        phases := Function.update (Function.update state.phases other (.writing inode 0)) call
          (.returned true) } := by
    rw [Machine.run, List.foldlM_cons, created, Option.bind_eq_bind, Option.bind_some,
      List.foldlM_cons, renamed]
    rfl
  refine ⟨_, ran, Function.update_self .., ?_⟩
  rw [Disk.read, data, Option.map_some, Disk.inodes_rename, Disk.setContent,
    Disk.inodes_overwrite_self]

theorem writes_atomic (reached : Machine.Reachable (step calls) (Fits calls) initial state) :
    (∀ content, state.disk.read .data = some content →
      ∃ call, state.phases call ≠ .idle ∧ content = (calls call).bytes) ∧
    (∀ call, state.phases call = .returned true → ∃ content, state.disk.read .data = some content ∧
      ∃ writer, state.phases writer ≠ .idle ∧ content = (calls writer).bytes) ∧
    ∀ call other inode, other ≠ call → (calls other).keyed = (calls call).keyed →
      state.phases call = .writing inode (calls call).bytes.length →
      state.disk.inodeOf (calls call).tmp = some inode → state.phases other = .creating →
      ∃ next, Machine.run (step calls) state [.create other, .rename call] = some next ∧
        next.phases call = .returned true ∧ next.disk.read .data = some [] := by
  have orderly := run_orderly reached
  have complete (content : Bytes) (found : state.disk.read .data = some content) :
      ∃ call, state.phases call ≠ .idle ∧ content = (calls call).bytes := by
    obtain ⟨inode, isData, rfl⟩ := Option.map_eq_some_iff.mp found
    exact orderly.data inode isData
  refine ⟨complete, ?_, fun call other inode => create_empties_data⟩
  intro call done
  obtain ⟨inode, isData⟩ := Option.isSome_iff_exists.mp (orderly.present call (Or.inl done))
  have found : state.disk.read .data = some (state.disk.inodes inode).content := by
    simp [Disk.read, isData]
  exact ⟨_, found, complete _ found⟩

end

/-! Two threads that put the same bytes. -/

def sameBytes (_ : Nat) : Call := ⟨false, utf8 "ab"⟩

theorem writes_atomic_one_after_another :
    ∃ state, Machine.run (step sameBytes) initial
      [.check 0, .create 0, .write 0 1, .write 0 1, .rename 0, .check 1] = some state ∧
    (∀ content, state.disk.read .data = some content →
      ∃ call, state.phases call ≠ .idle ∧ content = (sameBytes call).bytes) ∧
    (∀ call, state.phases call = .returned true → ∃ content, state.disk.read .data = some content ∧
      ∃ writer, state.phases writer ≠ .idle ∧ content = (sameBytes writer).bytes) ∧
    ∀ call other inode, other ≠ call → (sameBytes other).keyed = (sameBytes call).keyed →
      state.phases call = .writing inode (sameBytes call).bytes.length →
      state.disk.inodeOf (sameBytes call).tmp = some inode → state.phases other = .creating →
      ∃ next, Machine.run (step sameBytes) state [.create other, .rename call] = some next ∧
        next.phases call = .returned true ∧ next.disk.read .data = some [] := by
  refine ⟨_, rfl, writes_atomic (.tail (.check 1) (.tail (.rename 0) (.tail (.write 0 1)
    (.tail (.write 0 1) (.tail (.create 0) (.tail (.check 0) .refl trivial rfl) ?_ rfl) trivial rfl)
    trivial rfl) trivial rfl) trivial rfl)⟩
  intro other _
  by_cases isCall : other = 0
  · rw [isCall]
    rfl
  · simp [State.enter, isCall, initial, Phase.open?]

/-- Both find no data file; the second one truncates what the first one is about to rename. -/
theorem put_leaves_data_empty :
    ∃ state, Machine.run (step sameBytes) initial
      [.check 0, .check 1, .create 0, .write 0 2, .create 1, .rename 0] = some state ∧
    state.phases 0 = .returned true ∧ state.disk.read .data = some [] ∧
    ∀ call, (sameBytes call).bytes ≠ [] :=
  ⟨_, rfl, rfl, rfl, fun _ => List.cons_ne_nil 97 (utf8 "b")⟩

end Rage.AtomicPut
