import Mathlib.Data.List.Induction
import Rage.FileSystem
import Rage.PathSpelling
import Rage.Runs

/-!
The Linux sandbox: a program in the kernel that puts the opens of watched processes into a ring
buffer, and the loader that reads the buffer once the command has exited.
-/

namespace Rage

/-- An absolute location stays where it is; a relative one goes on from a directory. -/
def locate (directory : Location) : Location → Location
  | .rootDir :: rest => .rootDir :: rest
  | .curDir :: rest => directory ++ rest
  | location => directory ++ location

namespace Ebpf

abbrev Pid := UInt32

/-! What happens while the command runs. -/

/-- An open, with the arguments that the tracepoint shows (`resident` where the name can be read
without a page fault) and, beside them, the directory that a relative name starts from, the files
that names lead to at that moment, and whether the command reads through it content that was there
before. -/
structure OpenCall (ι : Type) where
  isOpenat : Bool
  pid : Pid
  filename : Bytes
  noNul : (0 : UInt8) ∉ filename
  resident : Bool
  flags : BitVec 64
  base : Location
  files : Location → Option ι
  readsBefore : Bool

def OpenCall.file {ι : Type} (call : OpenCall ι) : Option ι :=
  call.files (locate call.base (components call.filename))

/-- `register` is the loader's insertion of its child.  The pids of a fork are those that the
program's `ForkArgs` shows, and the pid of an exit is that of the process whose thread exits. -/
inductive TraceEvent (ι : Type)
  | register (pid : Pid)
  | opens (call : OpenCall ι)
  | fork (parentPid childPid : Pid)
  | exit (pid : Pid)

/-! The program in the kernel. -/

def opRead : UInt8 := 0
def opWrite : UInt8 := 1

/-- `path` is the written part of a field of 4096 bytes. -/
structure AccessEvent where
  pid : Pid
  op : UInt8
  path : Bytes
  fits : path.length ≤ 4096

/-- `reserved` counts the records that were taken from the ring, discarded ones included. -/
structure ProbeState where
  watchedPids : List Pid
  events : List AccessEvent
  reserved : Nat

def ProbeState.initial : ProbeState := ⟨[], [], 0⟩

def isWriteFlags (flags : BitVec 64) : Bool :=
  flags &&& (1#64 ||| 2#64 ||| 64#64 ||| 512#64) != 0#64

/-- `WATCHED_PIDS` has 4096 entries. -/
def insertPid (watched : List Pid) (pid : Pid) : List Pid :=
  if pid ∈ watched then watched
  else if watched.length < 4096 then pid :: watched
  else watched

section

variable {ι : Type} (capacity : Nat)

/-- `bpf_probe_read_user_str_bytes` into a buffer of 4096 bytes, the last of them a NUL. -/
def OpenCall.probed (call : OpenCall ι) : Bytes := call.filename.take 4095

theorem OpenCall.probed_fits (call : OpenCall ι) : call.probed.length ≤ 4096 := by
  rw [probed, List.length_take]
  omega

/-- Nothing is read from the ring before the command has exited: it is full for good once
`capacity` records were taken. -/
def tryEmit (state : ProbeState) (call : OpenCall ι) (op : UInt8) : ProbeState :=
  if call.pid ∉ state.watchedPids then state
  else if capacity ≤ state.reserved then state
  else if call.resident then
    { state with
      events := state.events ++ [⟨call.pid, op, call.probed, call.probed_fits⟩]
      reserved := state.reserved + 1 }
  else { state with reserved := state.reserved + 1 }

def sysEnterOpenat (state : ProbeState) (call : OpenCall ι) : ProbeState :=
  tryEmit capacity state call (if isWriteFlags call.flags then opWrite else opRead)

def schedProcessFork (state : ProbeState) (parentPid childPid : Pid) : ProbeState :=
  if parentPid ∈ state.watchedPids then
    { state with watchedPids := insertPid state.watchedPids childPid }
  else state

def schedProcessExit (state : ProbeState) (pid : Pid) : ProbeState :=
  { state with watchedPids := state.watchedPids.filter (· ≠ pid) }

def step (state : ProbeState) : TraceEvent ι → ProbeState
  | .register pid => { state with watchedPids := insertPid state.watchedPids pid }
  | .opens call => if call.isOpenat then sysEnterOpenat capacity state call else state
  | .fork parentPid childPid => schedProcessFork state parentPid childPid
  | .exit pid => schedProcessExit state pid

def probe (trace : List (TraceEvent ι)) : ProbeState := Runs.final (step capacity) .initial trace

end

/-! The records of the ring, and how the loader reads them. -/

def u32Bytes (value : UInt32) : Bytes :=
  [UInt8.ofNat (value.toNat % 256), UInt8.ofNat (value.toNat / 256 % 256),
    UInt8.ofNat (value.toNat / 65536 % 256), UInt8.ofNat (value.toNat / 16777216 % 256)]

def u32FromBytes (first second third fourth : UInt8) : Nat :=
  first.toNat + 256 * second.toNat + 65536 * third.toNat + 16777216 * fourth.toNat

/-- The bytes behind the written part of the path are not looked at. -/
def AccessEvent.bytes (event : AccessEvent) : Bytes :=
  u32Bytes event.pid ++ event.op :: 0 :: 0 :: 0 :: (u32Bytes (UInt32.ofNat event.path.length) ++
    (event.path ++ List.replicate (4096 - event.path.length) 0))

structure ParsedEvent where
  pid : Nat
  op : UInt8
  path : Bytes

def parseEvent : Bytes → Option ParsedEvent
  | pid₀ :: pid₁ :: pid₂ :: pid₃ :: op :: _ :: _ :: _ :: len₀ :: len₁ :: len₂ :: len₃ :: path =>
      some ⟨u32FromBytes pid₀ pid₁ pid₂ pid₃, op,
        path.take (min (u32FromBytes len₀ len₁ len₂ len₃) 4096)⟩
  | _ => none

/-- `from_utf8`, then `trim_end_matches('\0')` and the test for an empty path. -/
def ParsedEvent.pathBuf (event : ParsedEvent) : Option Path :=
  if isUtf8 event.path then
    let trimmed := (event.path.reverse.dropWhile (· = 0)).reverse
    if trimmed = [] then none else some trimmed
  else none

structure PathSet where
  reads : List Path
  writes : List Path

/-- `BTreeSet::insert` of a path. -/
def insertPath (paths : List Path) (path : Path) : List Path :=
  if paths.any (Path.eq path) then paths
  else paths.orderedInsert (fun first second => Path.le first second) path

def drainRingBuf (sets : PathSet) : List Bytes → PathSet
  | [] => sets
  | data :: rest =>
      if data = [] then sets
      else
        match parseEvent data with
        | none => drainRingBuf sets rest
        | some event =>
            match event.pathBuf with
            | none => drainRingBuf sets rest
            | some path =>
                if event.op = 0 then
                  drainRingBuf { sets with reads := insertPath sets.reads path } rest
                else drainRingBuf { sets with writes := insertPath sets.writes path } rest

/-- The `path_set` of `run_sandboxed_linux`. -/
def pathSet {ι : Type} (capacity : Nat) (trace : List (TraceEvent ι)) : PathSet :=
  drainRingBuf ⟨[], []⟩ ((probe capacity trace).events.map AccessEvent.bytes)

/-! What is written is what is parsed. -/

theorem u32FromBytes_u32Bytes (value : UInt32) :
    ∃ first second third fourth, u32Bytes value = [first, second, third, fourth] ∧
      u32FromBytes first second third fourth = value.toNat := by
  refine ⟨_, _, _, _, rfl, ?_⟩
  have bound := value.toNat_lt
  simp only [u32FromBytes, UInt8.toNat_ofNat']
  omega

theorem parseEvent_bytes (event : AccessEvent) :
    parseEvent event.bytes = some ⟨event.pid.toNat, event.op, event.path⟩ := by
  have length := event.fits
  obtain ⟨pid₀, pid₁, pid₂, pid₃, pidBytes, isPid⟩ := u32FromBytes_u32Bytes event.pid
  obtain ⟨len₀, len₁, len₂, len₃, lenBytes, isLength⟩ :=
    u32FromBytes_u32Bytes (UInt32.ofNat event.path.length)
  have small : (UInt32.ofNat event.path.length).toNat = event.path.length := by
    simp only [UInt32.toNat_ofNat']
    omega
  rw [small] at isLength
  rw [AccessEvent.bytes, pidBytes, lenBytes]
  simp only [List.cons_append, List.nil_append, parseEvent, isPid, isLength]
  rw [Nat.min_eq_left length, List.take_left]

/-! Which paths are drained. -/

section Drain

variable {path : Path}

theorem insertPath_names {paths : List Path} {fresh : Path} :
    (∃ kept ∈ insertPath paths fresh, Path.eq kept path = true) ↔
      (∃ kept ∈ paths, Path.eq kept path = true) ∨ Path.eq fresh path = true :=
  names_insert (by simp [List.mem_orderedInsert, or_comm])

def AccessEvent.pathBuf (event : AccessEvent) : Option Path :=
  ParsedEvent.pathBuf ⟨event.pid.toNat, event.op, event.path⟩

theorem drainRingBuf_cons (sets : PathSet) (event : AccessEvent) (rest : List Bytes) :
    drainRingBuf sets (event.bytes :: rest) =
      match event.pathBuf with
      | none => drainRingBuf sets rest
      | some fresh =>
          if event.op = 0 then drainRingBuf { sets with reads := insertPath sets.reads fresh } rest
          else drainRingBuf { sets with writes := insertPath sets.writes fresh } rest := by
  have filled : event.bytes ≠ [] := by simp [AccessEvent.bytes, u32Bytes]
  simp only [drainRingBuf, filled, if_false, parseEvent_bytes]
  rfl

theorem drain_reads (events : List AccessEvent) (sets : PathSet) :
    (∃ read ∈ (drainRingBuf sets (events.map AccessEvent.bytes)).reads,
        Path.eq read path = true) ↔
      (∃ read ∈ sets.reads, Path.eq read path = true) ∨
        ∃ event ∈ events, event.op = opRead ∧ ∃ read, event.pathBuf = some read ∧
          Path.eq read path = true := by
  induction events generalizing sets with
  | nil => simp [drainRingBuf]
  | cons event rest ih =>
      simp only [List.map_cons, drainRingBuf_cons, List.mem_cons, or_and_right, exists_or,
        exists_eq_left]
      cases isPath : event.pathBuf with
      | none => simp only [ih, reduceCtorEq, false_and, exists_false, and_false, false_or]
      | some fresh =>
          by_cases isRead : event.op = opRead
          · have zero : event.op = 0 := isRead
            simp only [zero, if_true, ih, insertPath_names, or_assoc, opRead, true_and,
              Option.some.injEq, exists_eq_left']
          · have notZero : ¬ event.op = 0 := isRead
            simp only [notZero, if_false, ih, isRead, false_and, false_or]

end Drain

/-! Which processes are watched: while the map is not full, those that descend from the one that
the loader registered. -/

section Tree

variable {ι : Type} (capacity : Nat)

/-- The process that was registered and what it forked since, until they exit. -/
inductive Descends : List (TraceEvent ι) → Pid → Prop
  | register (before : List (TraceEvent ι)) (pid : Pid) : Descends (before ++ [.register pid]) pid
  | fork {before : List (TraceEvent ι)} {parentPid : Pid} (childPid : Pid)
      (parent : Descends before parentPid) :
      Descends (before ++ [.fork parentPid childPid]) childPid
  | later {before : List (TraceEvent ι)} {pid : Pid} {event : TraceEvent ι}
      (earlier : Descends before pid) (stays : event ≠ .exit pid) :
      Descends (before ++ [event]) pid

theorem descends_nil (pid : Pid) : ¬ Descends ([] : List (TraceEvent ι)) pid := by
  generalize isNil : ([] : List (TraceEvent ι)) = trace
  intro descends
  cases descends with
  | register before => simp at isNil
  | fork childPid parent => simp at isNil
  | later earlier stays => simp at isNil

theorem descends_concat {trace : List (TraceEvent ι)} {event : TraceEvent ι} {pid : Pid} :
    Descends (trace ++ [event]) pid ↔ event = .register pid ∨
      (∃ parentPid, event = .fork parentPid pid ∧ Descends trace parentPid) ∨
      (Descends trace pid ∧ event ≠ .exit pid) := by
  constructor
  · generalize split : trace ++ [event] = whole
    intro descends
    cases descends with
    | register before =>
        obtain ⟨-, last⟩ := List.append_inj' split rfl
        exact Or.inl (List.singleton_inj.mp last)
    | fork childPid parent =>
        obtain ⟨rfl, last⟩ := List.append_inj' split rfl
        exact Or.inr (Or.inl ⟨_, List.singleton_inj.mp last, parent⟩)
    | later earlier stays =>
        obtain ⟨rfl, last⟩ := List.append_inj' split rfl
        exact Or.inr (Or.inr ⟨earlier, List.singleton_inj.mp last ▸ stays⟩)
  · rintro (rfl | ⟨parentPid, rfl, parent⟩ | ⟨earlier, stays⟩)
    · exact .register trace pid
    · exact .fork pid parent
    · exact .later earlier stays

theorem probe_concat (trace : List (TraceEvent ι)) (event : TraceEvent ι) :
    probe capacity (trace ++ [event]) = step capacity (probe capacity trace) event := by
  simp [probe, Runs.final]

def TraceEvent.starts : TraceEvent ι → Bool
  | .register _ | .fork _ _ => true
  | .opens _ | .exit _ => false

def TraceEvent.isOpen : TraceEvent ι → Bool
  | .opens _ => true
  | .register _ | .fork _ _ | .exit _ => false

theorem insertPid_length (watched : List Pid) (pid : Pid) :
    (insertPid watched pid).length ≤ watched.length + 1 := by
  simp only [insertPid]
  split
  · omega
  · split
    · simp
    · omega

theorem mem_insertPid {watched : List Pid} {pid other : Pid} (room : watched.length < 4096) :
    other ∈ insertPid watched pid ↔ other = pid ∨ other ∈ watched := by
  simp only [insertPid, room, if_true]
  split
  · rename_i here
    exact ⟨Or.inr, fun member => member.elim (fun same => same ▸ here) id⟩
  · exact List.mem_cons

theorem opens_watchedPids (state : ProbeState) (call : OpenCall ι) :
    (step capacity state (.opens call)).watchedPids = state.watchedPids := by
  simp only [step, sysEnterOpenat, tryEmit]
  repeat' split
  all_goals rfl

theorem opens_reserved (state : ProbeState) (call : OpenCall ι) :
    (step capacity state (.opens call)).reserved ≤ state.reserved + 1 := by
  simp only [step, sysEnterOpenat, tryEmit]
  repeat' split
  all_goals simp

theorem watchedPids_length (trace : List (TraceEvent ι)) :
    (probe capacity trace).watchedPids.length ≤ trace.countP TraceEvent.starts := by
  induction trace using List.reverseRecOn with
  | nil => simp [probe, Runs.final, ProbeState.initial]
  | append_singleton trace event ih =>
      rw [probe_concat, List.countP_append]
      cases event with
      | register pid =>
          have grown := insertPid_length (probe capacity trace).watchedPids pid
          simp only [step, TraceEvent.starts, List.countP_singleton, if_true]
          omega
      | opens call =>
          rw [opens_watchedPids]
          omega
      | fork parentPid childPid =>
          have grown := insertPid_length (probe capacity trace).watchedPids childPid
          simp only [step, schedProcessFork, TraceEvent.starts, List.countP_singleton, if_true]
          split
          · exact grown.trans (by omega)
          · omega
      | exit pid =>
          have fewer := List.length_filter_le (· ≠ pid) (probe capacity trace).watchedPids
          simp only [step, schedProcessExit]
          omega

theorem reserved_le (trace : List (TraceEvent ι)) :
    (probe capacity trace).reserved ≤ trace.countP TraceEvent.isOpen := by
  induction trace using List.reverseRecOn with
  | nil => simp [probe, Runs.final, ProbeState.initial]
  | append_singleton trace event ih =>
      rw [probe_concat, List.countP_append]
      cases event with
      | register pid => exact Nat.le_add_right_of_le ih
      | opens call =>
          have taken := opens_reserved capacity (probe capacity trace) call
          simp only [TraceEvent.isOpen, List.countP_singleton, if_true]
          omega
      | fork parentPid childPid =>
          simp only [step, schedProcessFork]
          split
          · exact Nat.le_add_right_of_le ih
          · exact Nat.le_add_right_of_le ih
      | exit pid => exact Nat.le_add_right_of_le ih

theorem watched_iff {trace : List (TraceEvent ι)} {pid : Pid}
    (few : trace.countP TraceEvent.starts ≤ 4096) :
    pid ∈ (probe capacity trace).watchedPids ↔ Descends trace pid := by
  induction trace using List.reverseRecOn generalizing pid with
  | nil => simp [probe, Runs.final, ProbeState.initial, descends_nil]
  | append_singleton trace event ih =>
      rw [List.countP_append, List.countP_singleton] at few
      have known (other : Pid) : other ∈ (probe capacity trace).watchedPids ↔ Descends trace other :=
        ih (by omega)
      have size := watchedPids_length capacity trace
      rw [probe_concat, descends_concat, ← known]
      cases event with
      | register other =>
          simp only [TraceEvent.starts, if_true] at few
          have room : (probe capacity trace).watchedPids.length < 4096 := by omega
          simp [step, mem_insertPid room, eq_comm]
      | opens call => simp [opens_watchedPids]
      | fork parentPid childPid =>
          simp only [TraceEvent.starts, if_true] at few
          have room : (probe capacity trace).watchedPids.length < 4096 := by omega
          simp only [step, schedProcessFork]
          by_cases parent : parentPid ∈ (probe capacity trace).watchedPids
          · simp [parent, mem_insertPid room, ← known, eq_comm]
          · simp [parent, ← known]
      | exit other =>
          have turned : pid = other ↔ other = pid := eq_comm
          simp [step, schedProcessExit, turned]

end Tree

/-! Which opens are recorded as reads. -/

section

variable {ι : Type} (capacity : Nat)

def emitted (state : ProbeState) : TraceEvent ι → List AccessEvent
  | .opens call =>
      if call.isOpenat = true ∧ call.pid ∈ state.watchedPids ∧ state.reserved < capacity ∧
          call.resident = true then
        [⟨call.pid, if isWriteFlags call.flags then opWrite else opRead, call.probed,
          call.probed_fits⟩]
      else []
  | _ => []

/-- The program sees the open, its process is watched, there is room in the ring, the name can be
read and is text, and no flag counts as writing. -/
structure Recorded (state : ProbeState) (call : OpenCall ι) : Prop where
  openat : call.isOpenat = true
  watched : call.pid ∈ state.watchedPids
  room : state.reserved < capacity
  resident : call.resident = true
  readOnly : isWriteFlags call.flags = false
  text : isUtf8 call.probed = true
  filled : call.probed ≠ []

variable {capacity}

theorem step_events (state : ProbeState) (event : TraceEvent ι) :
    (step capacity state event).events = state.events ++ emitted capacity state event := by
  cases event with
  | register pid => simp [step, emitted]
  | exit pid => simp [step, emitted, schedProcessExit]
  | fork parentPid childPid =>
      simp only [step, emitted, schedProcessFork, List.append_nil]
      split
      · rfl
      · rfl
  | opens call =>
      simp only [step, emitted, sysEnterOpenat, tryEmit]
      by_cases isOpenat : call.isOpenat = true
      · by_cases watched : call.pid ∈ state.watchedPids
        · by_cases room : state.reserved < capacity
          · by_cases resident : call.resident = true
            · simp [isOpenat, watched, room, resident, Nat.not_le.mpr room]
            · simp [isOpenat, watched, resident, Nat.not_le.mpr room]
          · simp [isOpenat, watched, room, Nat.not_lt.mp room]
        · simp [isOpenat, watched]
      · simp [isOpenat]

theorem probed_pathBuf (call : OpenCall ι) (op : UInt8) :
    AccessEvent.pathBuf ⟨call.pid, op, call.probed, call.probed_fits⟩ =
      if isUtf8 call.probed = true ∧ call.probed ≠ [] then some call.probed else none := by
  have noNul : ∀ byte ∈ call.probed.reverse, byte ≠ 0 := by
    intro byte member isNul
    rw [List.mem_reverse, isNul] at member
    exact call.noNul (List.mem_of_mem_take member)
  have kept : call.probed.reverse.dropWhile (· = 0) = call.probed.reverse := by
    cases isProbed : call.probed.reverse with
    | nil => rfl
    | cons byte rest =>
        rw [isProbed] at noNul
        rw [List.dropWhile_cons_of_neg (by simpa using noNul byte (by simp))]
  simp only [AccessEvent.pathBuf, ParsedEvent.pathBuf, kept, List.reverse_reverse]
  by_cases text : isUtf8 call.probed = true
  · simp [text]
  · simp [text]

theorem reads_iff {trace : List (TraceEvent ι)} {path : Path} :
    (∃ read ∈ (pathSet capacity trace).reads, Path.eq read path = true) ↔
      ∃ before call after, trace = before ++ .opens call :: after ∧
        Recorded capacity (probe capacity before) call ∧ Path.eq call.probed path = true := by
  have events : (probe capacity trace).events =
      Runs.outputs (step capacity) (emitted capacity) .initial trace :=
    Runs.final_log step_events .initial trace
  rw [pathSet, drain_reads, events]
  simp only [List.not_mem_nil, false_and, exists_false, false_or, Runs.mem_outputs]
  constructor
  · rintro ⟨record, ⟨before, event, after, rfl, isOutput⟩, isRead, read, isPath, same⟩
    cases event with
    | register pid => simp [emitted] at isOutput
    | exit pid => simp [emitted] at isOutput
    | fork parentPid childPid => simp [emitted] at isOutput
    | opens call =>
        simp only [emitted] at isOutput
        split at isOutput
        · rename_i seen
          obtain rfl := List.mem_singleton.mp isOutput
          rw [probed_pathBuf] at isPath
          obtain ⟨⟨text, filled⟩, isProbed⟩ := Option.ite_none_right_eq_some.mp isPath
          obtain rfl := Option.some.inj isProbed
          have readOnly : isWriteFlags call.flags = false := by
            by_contra writes
            simp [writes, opRead, opWrite] at isRead
          exact ⟨before, call, after, rfl,
            ⟨seen.1, seen.2.1, seen.2.2.1, seen.2.2.2, readOnly, text, filled⟩, same⟩
        · simp at isOutput
  · rintro ⟨before, call, after, rfl, recorded, same⟩
    refine ⟨⟨call.pid, opRead, call.probed, call.probed_fits⟩,
      ⟨before, .opens call, after, rfl, ?_⟩, rfl, call.probed, ?_, same⟩
    · change _ ∈ emitted capacity (probe capacity before) (.opens call)
      simp [emitted, recorded.openat, recorded.watched, recorded.room, recorded.resident,
        recorded.readOnly]
    · rw [probed_pathBuf, if_pos ⟨recorded.text, recorded.filled⟩]

end

end Ebpf

end Rage
