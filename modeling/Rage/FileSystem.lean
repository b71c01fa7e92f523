import Mathlib.Data.List.Dedup
import Mathlib.Data.List.Sort

/-!
Byte strings, Unix paths and file-system snapshots.  Strings and paths are their
bytes, since the fingerprints hash bytes and a path need not be UTF-8.
-/

namespace Rage

abbrev Bytes := List UInt8

def utf8 (text : String) : Bytes := text.toUTF8.data.toList

abbrev newline : UInt8 := 10
abbrev slash : UInt8 := 47
abbrev colon : UInt8 := 58
abbrev equals : UInt8 := 61

/-! `starts_with`, `ends_with` and `find` of strings. -/

def isPrefix (part text : Bytes) : Bool := text.take part.length == part

def isSuffix (part text : Bytes) : Bool := part.length ≤ text.length &&
  text.drop (text.length - part.length) == part

def afterFirst (part : Bytes) : Bytes → Option Bytes
  | [] => if part = [] then some [] else none
  | byte :: rest =>
      if isPrefix part (byte :: rest) then some ((byte :: rest).drop part.length)
      else afterFirst part rest

/-! `String::from_utf8_lossy`, which `Path::to_string_lossy` uses. -/

def isContinuation (byte : UInt8) : Bool := 0x80 ≤ byte && byte ≤ 0xBF

def secondByteOk (first second : UInt8) : Bool :=
  if first = 0xE0 then 0xA0 ≤ second && second ≤ 0xBF
  else if first = 0xED then 0x80 ≤ second && second ≤ 0x9F
  else if first = 0xF0 then 0x90 ≤ second && second ≤ 0xBF
  else if first = 0xF4 then 0x80 ≤ second && second ≤ 0x8F
  else isContinuation second

/-- The first chunk of a string: whether it is a well-formed sequence, and its length. -/
def utf8Chunk : Bytes → Bool × Nat
  | [] => (true, 0)
  | first :: rest =>
      if first < 0x80 then (true, 1)
      else if 0xC2 ≤ first && first ≤ 0xDF then
        if (rest.head?.map isContinuation).getD false then (true, 2) else (false, 1)
      else if 0xE0 ≤ first && first ≤ 0xEF then
        if (rest.head?.map (secondByteOk first)).getD false then
          if ((rest.drop 1).head?.map isContinuation).getD false then (true, 3) else (false, 2)
        else (false, 1)
      else if 0xF0 ≤ first && first ≤ 0xF4 then
        if (rest.head?.map (secondByteOk first)).getD false then
          if ((rest.drop 1).head?.map isContinuation).getD false then
            if ((rest.drop 2).head?.map isContinuation).getD false then (true, 4) else (false, 3)
          else (false, 2)
        else (false, 1)
      else (false, 1)

def lossyFrom : Nat → Bytes → Bytes
  | 0, _ => []
  | _ + 1, [] => []
  | fuel + 1, first :: rest =>
      let chunk := utf8Chunk (first :: rest)
      (if chunk.1 then (first :: rest).take chunk.2 else [0xEF, 0xBF, 0xBD]) ++
        lossyFrom fuel ((first :: rest).drop chunk.2)

def toStringLossy (bytes : Bytes) : Bytes := lossyFrom bytes.length bytes

/-- Replacement changes exactly the strings that are not UTF-8. -/
def isUtf8 (bytes : Bytes) : Bool := toStringLossy bytes == bytes

/-! `std::path`. -/

abbrev Path := Bytes

inductive Component
  | rootDir
  | curDir
  | parentDir
  | normal (name : Bytes)
  deriving DecidableEq, Repr

/-- Empty and inner `.` parts do not count; a leading `.` does. -/
def components (path : Path) : List Component :=
  let parts := path.splitOn slash
  let rest := parts.filterMap fun part =>
    if part = [] ∨ part = utf8 "." then none
    else if part = utf8 ".." then some .parentDir
    else some (.normal part)
  if path.head? = some slash then .rootDir :: rest
  else if parts.head? = some (utf8 ".") then .curDir :: rest
  else rest

def Component.rank : Component → Nat
  | .rootDir => 0
  | .curDir => 1
  | .parentDir => 2
  | .normal _ => 3

def Component.lt : Component → Component → Bool
  | .normal first, .normal second => decide (first < second)
  | first, second => decide (first.rank < second.rank)

def componentsLe : List Component → List Component → Bool
  | [], _ => true
  | _ :: _, [] => false
  | first :: rest, second :: others =>
      if first = second then componentsLe rest others else first.lt second

def Path.le (first second : Path) : Bool := componentsLe (components first) (components second)

def Path.eq (first second : Path) : Bool := components first == components second

def inNodeModules (path : Path) : Bool :=
  (components path).contains (.normal (utf8 "node_modules"))

/-! `Vec::dedup_by`, which keeps the first element of each run. -/

section Dedup

variable {α : Type}

def dedupFrom (same : α → α → Bool) (kept : α) : List α → List α
  | [] => []
  | next :: rest => if same next kept then dedupFrom same kept rest else next :: dedupFrom same next rest

def dedupBy (same : α → α → Bool) : List α → List α
  | [] => []
  | first :: rest => first :: dedupFrom same first rest

theorem mem_of_mem_dedupFrom {same : α → α → Bool} {kept x : α} {xs : List α}
    (member : x ∈ dedupFrom same kept xs) : x ∈ xs := by
  induction xs generalizing kept with
  | nil => simp [dedupFrom] at member
  | cons next rest ih =>
      simp only [dedupFrom] at member
      split at member
      · exact List.mem_cons_of_mem _ (ih member)
      · rcases List.mem_cons.mp member with here | later
        · simp [here]
        · exact List.mem_cons_of_mem _ (ih later)

theorem mem_of_mem_dedupBy {same : α → α → Bool} {x : α} {xs : List α}
    (member : x ∈ dedupBy same xs) : x ∈ xs := by
  cases xs with
  | nil => exact member
  | cons first rest =>
      rcases List.mem_cons.mp member with here | later
      · simp [here]
      · exact List.mem_cons_of_mem _ (mem_of_mem_dedupFrom later)

theorem dedupFrom_represents {same : α → α → Bool} (refl : ∀ x, same x x = true) (kept x : α)
    (xs : List α) (member : x ∈ xs) :
    ∃ y ∈ kept :: dedupFrom same kept xs, same x y = true := by
  induction xs generalizing kept with
  | nil => simp at member
  | cons next rest ih =>
      simp only [dedupFrom]
      by_cases dropped : same next kept = true
      · simp only [dropped, ↓reduceIte]
        rcases List.mem_cons.mp member with here | later
        · exact ⟨kept, by simp, by rw [here]; exact dropped⟩
        · exact ih kept later
      · simp only [dropped, Bool.false_eq_true, ↓reduceIte]
        rcases List.mem_cons.mp member with here | later
        · exact ⟨next, by simp, by rw [here]; exact refl next⟩
        · obtain ⟨y, within, equal⟩ := ih next later
          exact ⟨y, List.mem_cons_of_mem _ within, equal⟩

theorem dedupBy_represents {same : α → α → Bool} (refl : ∀ x, same x x = true) (x : α)
    (xs : List α) (member : x ∈ xs) : ∃ y ∈ dedupBy same xs, same x y = true := by
  cases xs with
  | nil => simp at member
  | cons first rest =>
      rcases List.mem_cons.mp member with here | later
      · exact ⟨first, by simp [dedupBy], by rw [here]; exact refl first⟩
      · exact dedupFrom_represents refl first x rest later

end Dedup

/-! A snapshot of the file system. -/

inductive Node
  | file (content : Bytes) (readable : Bool)
  | directory
  | special
  deriving DecidableEq, Repr

/-- What a path leads to, and whether its last component is a symbolic link. -/
structure Entry where
  node : Node
  symlink : Bool
  deriving DecidableEq, Repr

abbrev Location := List Component

structure FileSystem where
  entries : List (Location × Entry)
  deriving Repr

namespace FileSystem

def entryAt (fs : FileSystem) (location : Location) : Option Entry := fs.entries.lookup location

def locations (fs : FileSystem) : List Location := (fs.entries.map Prod.fst).dedup

def nodeAt (fs : FileSystem) (location : Location) : Option Node :=
  (fs.entryAt location).map Entry.node

def stat (fs : FileSystem) (path : Path) : Option Node := fs.nodeAt (components path)

def isFile (fs : FileSystem) (path : Path) : Bool :=
  match fs.stat path with
  | some (.file _ _) => true
  | _ => false

def read (fs : FileSystem) (path : Path) : Option Bytes :=
  match fs.stat path with
  | some (.file content true) => some content
  | _ => none

/-! What a program finds at a path: nothing, a regular file with its content, or
something that is neither. -/

inductive Presence
  | absent
  | regular (content : Bytes)
  | other
  deriving DecidableEq, Repr

def presence (fs : FileSystem) (path : Path) : Presence :=
  match fs.stat path with
  | none => .absent
  | some (.file content _) => .regular content
  | some _ => .other

def relNames : Location → Location → Option (List Bytes)
  | [], below => below.mapM fun
      | .normal name => some name
      | _ => none
  | first :: base, second :: location => if first = second then relNames base location else none
  | _ :: _, [] => none

def fileName (base : Location) : Option Bytes :=
  match base.getLast? with
  | some (.normal name) => some name
  | _ => none

/-- The directories a walk passes on its way down are not links and not skipped. -/
def entered (fs : FileSystem) (skip : List Bytes) : Location → List Bytes → Bool
  | _, [] => true
  | _, [_] => true
  | base, directory :: rest =>
      let below := base ++ [.normal directory]
      !skip.contains directory && !((fs.entryAt below).map Entry.symlink).getD false &&
        entered fs skip below rest

def walkEntry (fs : FileSystem) (skip : List Bytes) (base location : Location) :
    Option (List Bytes × Node) :=
  match relNames base location with
  | some (name :: names) =>
      if fs.entered skip base (name :: names) then
        match fs.entryAt location with
        | some ⟨.file content readable, false⟩ => some (name :: names, .file content readable)
        | _ => none
      else none
  | _ => none

/-- `WalkDir` over `base` with the `filter_entry` that prunes directories named in `skip`,
reduced to regular files.  The filter is applied to `base` itself as well. -/
def walkFiles (fs : FileSystem) (skip : List Bytes) (base : Location) :
    List (List Bytes × Node) :=
  if ((fileName base).map skip.contains).getD false then []
  else fs.locations.filterMap (fs.walkEntry skip base)

end FileSystem

def joinNames (names : List Bytes) : Path := [slash].intercalate names

def joinPath (base : Path) (names : List Bytes) : Path :=
  if base = [] ∨ base.getLast? = some slash then base ++ joinNames names
  else base ++ slash :: joinNames names

/-- `PathBuf::join`: an absolute path replaces the base. -/
def Path.join (base rest : Path) : Path :=
  if rest.head? = some slash then rest
  else if base = [] ∨ base.getLast? = some slash then base ++ rest
  else base ++ slash :: rest

theorem stat_congr (fs : FileSystem) {first second : Path} (same : Path.eq first second = true) :
    fs.stat first = fs.stat second := by
  simp only [Path.eq, beq_iff_eq] at same
  simp [FileSystem.stat, same]

theorem presence_of_read {fs : FileSystem} {path : Path} {content : Bytes}
    (found : fs.read path = some content) : fs.presence path = .regular content := by
  unfold FileSystem.read at found
  split at found
  · rename_i bytes status
    simp only [Option.some.injEq] at found
    subst content
    simp [FileSystem.presence, status]
  · simp at found

theorem isFile_of_read {fs : FileSystem} {path : Path} {content : Bytes}
    (found : fs.read path = some content) : fs.isFile path = true := by
  unfold FileSystem.read at found
  split at found
  · rename_i bytes status
    simp [FileSystem.isFile, status]
  · simp at found

theorem Path.eq_refl (path : Path) : Path.eq path path = true := by
  simp [Path.eq]

/-! Writing one location. -/

namespace FileSystem

def write (fs : FileSystem) (location : Location) (entry : Entry) : FileSystem :=
  ⟨(location, entry) :: fs.entries⟩

@[simp] theorem entryAt_write_self (fs : FileSystem) (location : Location) (entry : Entry) :
    (fs.write location entry).entryAt location = some entry := by
  simp [write, entryAt]

theorem entryAt_write_of_ne (fs : FileSystem) {location other : Location} (entry : Entry)
    (differ : other ≠ location) : (fs.write location entry).entryAt other = fs.entryAt other := by
  simp [write, entryAt, List.lookup_cons, beq_false_of_ne differ]

theorem entered_congr {fs other : FileSystem} (skip : List Bytes) {base : Location}
    (names : List Bytes) (same : ∀ below, base <+: below → fs.entryAt below = other.entryAt below) :
    fs.entered skip base names = other.entered skip base names := by
  induction names generalizing base with
  | nil => rfl
  | cons directory rest ih =>
      cases rest with
      | nil => rfl
      | cons name names =>
          have extends_ : base <+: base ++ [.normal directory] := List.prefix_append _ _
          have here := same _ extends_
          have deeper := ih fun below within => same below (extends_.trans within)
          simp only [entered, here, deeper]

theorem relNames_append (base : Location) (names : List Bytes) :
    relNames base (base ++ names.map Component.normal) = some names := by
  induction base with
  | nil =>
      simp only [List.nil_append, relNames]
      induction names with
      | nil => rfl
      | cons name rest ih => simp [List.mapM_cons, ih]
  | cons first rest ih => simp [relNames, ih]

/-! A walk does not see what is written below a directory that it skips. -/

section Skipped

variable (fs : FileSystem) {skip : List Bytes} (base : Location) {directory : Bytes}
  (skipped : directory ∈ skip) (name : Bytes) (names : List Bytes) (entry : Entry)

include skipped

theorem entered_write_skipped (first : Bytes) (rest : List Bytes) :
    (fs.write (base ++ (directory :: name :: names).map .normal) entry).entered skip base
      (first :: rest) = fs.entered skip base (first :: rest) := by
  cases rest with
  | nil => rfl
  | cons second others =>
      by_cases hidden : first = directory
      · simp [entered, hidden, skipped]
      · have apart (below : Location) (within : base ++ [.normal first] <+: below) :
            (fs.write (base ++ (directory :: name :: names).map .normal) entry).entryAt below =
              fs.entryAt below := by
          apply entryAt_write_of_ne
          rintro rfl
          rw [List.prefix_append_right_inj] at within
          simp [hidden] at within
        have here := apart _ (List.prefix_refl _)
        have deeper := entered_congr skip (second :: others) apart
        simp only [entered, here, deeper]

theorem walkEntry_write_skipped (location : Location) :
    (fs.write (base ++ (directory :: name :: names).map .normal) entry).walkEntry skip base
      location = fs.walkEntry skip base location := by
  unfold walkEntry
  cases found : relNames base location with
  | none => rfl
  | some rel =>
      cases rel with
      | nil => rfl
      | cons first rest =>
          simp only [entered_write_skipped fs base skipped]
          by_cases reached : fs.entered skip base (first :: rest) = true
          · have differ : location ≠ base ++ (directory :: name :: names).map .normal := by
              rintro rfl
              rw [relNames_append, Option.some.injEq, List.cons.injEq] at found
              obtain ⟨rfl, rfl⟩ := found
              simp [entered, skipped] at reached
            simp only [reached, entryAt_write_of_ne fs entry differ]
          · rw [if_neg reached, if_neg reached]

theorem walkFiles_write_skipped :
    (fs.write (base ++ (directory :: name :: names).map .normal) entry).walkFiles skip base =
      fs.walkFiles skip base := by
  have unseen : fs.walkEntry skip base (base ++ (directory :: name :: names).map .normal) =
      none := by
    simp only [walkEntry, relNames_append, entered]
    simp [skipped]
  have same : (fs.write (base ++ (directory :: name :: names).map .normal) entry).walkEntry skip
      base = fs.walkEntry skip base :=
    funext (walkEntry_write_skipped fs base skipped name names entry)
  unfold walkFiles
  rw [same]
  split
  · rfl
  · generalize base ++ (directory :: name :: names).map Component.normal = hidden at unseen
    simp only [locations, write, List.map_cons]
    by_cases known : hidden ∈ fs.entries.map Prod.fst
    · rw [List.dedup_cons_of_mem known]
    · rw [List.dedup_cons_of_notMem known, List.filterMap_cons_none unseen]

end Skipped

/-! Regular files by location, and writing one with the directories above it. -/

def fileAt (fs : FileSystem) (location : Location) : Option Bytes :=
  match fs.nodeAt location with
  | some (.file content _) => some content
  | _ => none

def createDir (fs : FileSystem) (location : Location) : FileSystem :=
  if (fs.entryAt location).isSome then fs else fs.write location ⟨.directory, false⟩

def createDirAll (fs : FileSystem) (location : Location) : FileSystem :=
  location.inits.foldl createDir fs

def writeFile (fs : FileSystem) (location : Location) (content : Bytes) : FileSystem :=
  (fs.createDirAll location.dropLast).write location ⟨.file content true, false⟩

@[simp] theorem fileAt_write_self (fs : FileSystem) (location : Location) (content : Bytes) :
    (fs.write location ⟨.file content true, false⟩).fileAt location = some content := by
  simp [fileAt, nodeAt]

theorem fileAt_write_of_ne (fs : FileSystem) {location other : Location} (entry : Entry)
    (differ : other ≠ location) : (fs.write location entry).fileAt other = fs.fileAt other := by
  simp only [fileAt, nodeAt, entryAt_write_of_ne fs entry differ]

theorem fileAt_createDir (fs : FileSystem) (location other : Location) :
    (fs.createDir location).fileAt other = fs.fileAt other := by
  unfold createDir
  split
  · rfl
  · rename_i missing
    by_cases same : other = location
    · have absent : fs.entryAt location = none := by simpa using missing
      simp [same, fileAt, nodeAt, absent]
    · exact fileAt_write_of_ne fs _ same

theorem fileAt_createDirAll (fs : FileSystem) (location other : Location) :
    (fs.createDirAll location).fileAt other = fs.fileAt other := by
  unfold createDirAll
  generalize location.inits = parents
  induction parents generalizing fs with
  | nil => rfl
  | cons parent rest ih => rw [List.foldl_cons, ih, fileAt_createDir]

@[simp] theorem fileAt_writeFile_self (fs : FileSystem) (location : Location) (content : Bytes) :
    (fs.writeFile location content).fileAt location = some content := by
  simp [writeFile]

theorem fileAt_writeFile_of_ne (fs : FileSystem) {location other : Location} (content : Bytes)
    (differ : other ≠ location) :
    (fs.writeFile location content).fileAt other = fs.fileAt other := by
  rw [writeFile, fileAt_write_of_ne _ _ differ, fileAt_createDirAll]

end FileSystem

end Rage
