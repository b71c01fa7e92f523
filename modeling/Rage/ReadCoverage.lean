import Rage.AccessEvents
import Rage.Fingerprint

/-!
What the strong fingerprint covers of what a command read in the sandbox.  A recorded path is
hashed as rage resolves it, from the directory that rage itself runs in.
-/

namespace Rage

/-! The files as rage finds them when it computes the fingerprint. -/

/-- `files` follows symbolic links and leads to regular files only; `home` is where a file is when
no link is followed, and `content` what can be read of it. -/
structure RageView (ι : Type) where
  cwd : Location
  files : Location → Option ι
  home : ι → Location
  content : ι → Option Bytes

section

variable {ι : Type} (view : RageView ι)

namespace RageView

def fileAt (path : Path) : Option ι := view.files (locate view.cwd (components path))

def entry (file : ι) : Entry :=
  ⟨.file ((view.content file).getD []) (view.content file).isSome, false⟩

/-- What the fingerprint sees: the regular files among the paths that it looks at. -/
def snapshot (reads : List Path) : FileSystem :=
  ⟨reads.filterMap fun read => (view.fileAt read).map fun file => (components read, view.entry file)⟩

def Hashed (reads : List Path) (file : ι) : Prop :=
  ∃ record ∈ strongRecords (view.snapshot reads) reads, view.fileAt record.1 = some file

theorem fileAt_congr {first second : Path} (same : Path.eq first second = true) :
    view.fileAt first = view.fileAt second := by
  simp only [fileAt, Path.eq_iff.mp same]

theorem entryAt_snapshot (reads : List Path) (path : Path) :
    (view.snapshot reads).entryAt (components path) =
      if ∃ read ∈ reads, Path.eq read path = true then (view.fileAt path).map view.entry
      else none := by
  induction reads with
  | nil => simp [snapshot, FileSystem.entryAt]
  | cons first rest ih =>
      simp only [snapshot, FileSystem.entryAt, List.filterMap_cons] at ih ⊢
      by_cases same : Path.eq first path = true
      · have here : ∃ read ∈ first :: rest, Path.eq read path = true := ⟨first, by simp, same⟩
        rw [if_pos here, view.fileAt_congr same]
        cases found : view.fileAt path with
        | none => simp only [Option.map_none, ih, found, ite_self]
        | some file => simp [Path.eq_iff.mp same]
      · have differs : components path ≠ components first := fun equal =>
          same (Path.eq_iff.mpr equal.symm)
        have skipped : (∃ read ∈ first :: rest, Path.eq read path = true) ↔
            ∃ read ∈ rest, Path.eq read path = true := by
          simp [same]
        simp only [skipped]
        cases found : view.fileAt first with
        | none => simpa only [Option.map_none] using ih
        | some file =>
            simpa only [Option.map_some, List.lookup_cons, beq_false_of_ne differs] using ih

theorem isFile_snapshot {reads : List Path} {path : Path} :
    (view.snapshot reads).isFile path = true ↔
      (∃ read ∈ reads, Path.eq read path = true) ∧ (view.fileAt path).isSome = true := by
  rw [FileSystem.isFile, FileSystem.stat, FileSystem.nodeAt, entryAt_snapshot]
  by_cases named : ∃ read ∈ reads, Path.eq read path = true
  · cases found : view.fileAt path with
    | none => simp
    | some file => simp [named, entry]
  · simp [named]

theorem hashed_iff_read {reads : List Path} {file : ι} : view.Hashed reads file ↔
    ∃ path ∈ reads, inNodeModules path = false ∧ view.fileAt path = some file := by
  constructor
  · rintro ⟨record, member, found⟩
    obtain ⟨isRead, outside⟩ := mem_trackedReads (mem_strongRecords.mp member).1
    exact ⟨record.1, isRead, outside, found⟩
  · rintro ⟨path, isRead, outside, found⟩
    have isFile : (view.snapshot reads).isFile path = true :=
      view.isFile_snapshot.mpr ⟨⟨path, isRead, Path.eq_refl path⟩, by simp [found]⟩
    obtain ⟨record, member, same, -⟩ := strongRecords_covers isRead outside isFile
    exact ⟨record, member, (view.fileAt_congr same).symm.trans found⟩

end RageView

end

namespace Ebpf

section

variable {ι : Type}

/-! The reads of a command, and those that the fingerprint covers. -/

/-- The command reads what was in a file outside `node_modules`, through one of its opens. -/
def ReadIn (view : RageView ι) (trace : List (TraceEvent ι)) (file : ι) : Prop :=
  .normal (utf8 "node_modules") ∉ view.home file ∧
    ∃ call, .opens call ∈ trace ∧ call.readsBefore = true ∧ call.file = some file

/-- An open by which rage learns of a file: it is recorded as a read, and the name that was given
leads rage to that file and does not pass through `node_modules`. -/
def Learned (view : RageView ι) (capacity : Nat) (file : ι) (state : ProbeState)
    (call : OpenCall ι) : Prop :=
  Recorded capacity state call ∧ inNodeModules call.probed = false ∧
    view.fileAt call.probed = some file

theorem hashed_pathSet_iff (view : RageView ι) (capacity : Nat) (trace : List (TraceEvent ι))
    (file : ι) : view.Hashed (pathSet capacity trace).reads file ↔
      ∃ before call after, trace = before ++ .opens call :: after ∧
        Learned view capacity file (probe capacity before) call := by
  rw [RageView.hashed_iff_read]
  constructor
  · rintro ⟨path, isRead, outside, found⟩
    obtain ⟨before, call, after, split, recorded, same⟩ :=
      reads_iff.mp ⟨path, isRead, Path.eq_refl path⟩
    refine ⟨before, call, after, split, recorded, ?_, ?_⟩
    · simpa only [inNodeModules, Path.eq_iff.mp same] using outside
    · rw [view.fileAt_congr same, found]
  · rintro ⟨before, call, after, split, recorded, outside, found⟩
    obtain ⟨path, isRead, same⟩ :=
      reads_iff.mpr ⟨before, call, after, split, recorded, Path.eq_refl call.probed⟩
    refine ⟨path, isRead, ?_, ?_⟩
    · simpa only [inNodeModules, Path.eq_iff.mp same] using outside
    · rw [view.fileAt_congr same, found]

theorem reads_covered_iff (view : RageView ι) (capacity : Nat) (trace : List (TraceEvent ι)) :
    (∀ file, ReadIn view trace file → view.Hashed (pathSet capacity trace).reads file) ↔
      ∀ file, ReadIn view trace file → ∃ before call after,
        trace = before ++ .opens call :: after ∧
          Learned view capacity file (probe capacity before) call := by
  simp only [hashed_pathSet_iff]

/-- What the processes of the command open by a plain absolute name is covered while the map and
the ring have room. -/
theorem hashed_of_descends (view : RageView ι) {capacity : Nat}
    {before after : List (TraceEvent ι)} {call : OpenCall ι} {file : ι}
    (descends : Descends before call.pid) (few : before.countP TraceEvent.starts ≤ 4096)
    (room : before.countP TraceEvent.isOpen < capacity) (openat : call.isOpenat = true)
    (resident : call.resident = true) (readOnly : isWriteFlags call.flags = false)
    (text : isUtf8 call.filename = true) (absolute : call.filename.head? = some slash)
    (short : call.filename.length ≤ 4095) (outside : inNodeModules call.filename = false)
    (unmoved : view.files = call.files) (isFile : call.file = some file) :
    view.Hashed (pathSet capacity (before ++ .opens call :: after)).reads file := by
  have whole : call.probed = call.filename := List.take_of_length_le short
  have fromRoot (directory : Location) :
      locate directory (components call.filename) = components call.filename := by
    simp [components, absolute, locate]
  have found : view.fileAt call.probed = some file := by
    rw [← isFile, OpenCall.file, RageView.fileAt, whole, unmoved, fromRoot, fromRoot]
  have filled : call.filename ≠ [] := by
    rintro isNil
    simp [isNil] at absolute
  refine (hashed_pathSet_iff view capacity _ file).mpr ⟨before, call, after, rfl, ?_, ?_, found⟩
  · exact {
      openat, resident, readOnly
      watched := (watched_iff capacity few).mpr descends
      room := (reserved_le capacity before).trans_lt room
      text := by rw [whole, text]
      filled := by rwa [whole] }
  · rw [whole, outside]

end

/-! A command that opens a file by a name relative to the directory of its package. -/

namespace RelativeRead

def workspace : Location := [.rootDir, .normal (utf8 "ws")]

def package : Location := workspace ++ [.normal (utf8 "app")]

def source : Location := package ++ [.normal (utf8 "a.ts")]

def files (location : Location) : Option Unit := if location = source then some () else none

def call : OpenCall Unit where
  isOpenat := true
  pid := 7
  filename := utf8 "a.ts"
  noNul := by decide
  resident := true
  flags := 0
  base := package
  files := files
  readsBefore := true

def trace : List (TraceEvent Unit) := [.register 7, .opens call, .exit 7]

def view : RageView Unit := ⟨workspace, files, fun _ => source, fun _ => some (utf8 "1")⟩

end RelativeRead

open RelativeRead in
theorem relative_read_lost :
    ¬ ∀ (view : RageView Unit) (capacity : Nat) (trace : List (TraceEvent Unit)) (file : Unit),
      ReadIn view trace file → view.Hashed (pathSet capacity trace).reads file := by
  intro claimed
  have isRead : ReadIn view trace () :=
    ⟨by decide, call, by simp [trace], rfl, by decide⟩
  obtain ⟨before, seen, after, split, -, -, found⟩ :=
    (hashed_pathSet_iff view 2036 trace ()).mp (claimed view 2036 trace () isRead)
  have member : TraceEvent.opens seen ∈ trace := by simp [split]
  have isCall : seen = call := by simpa [trace] using member
  rw [isCall] at found
  exact absurd found (by decide)

end Ebpf

end Rage
