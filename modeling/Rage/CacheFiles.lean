import Mathlib.Logic.Equiv.List
import Mathlib.Tactic.DeriveEncodable
import Rage.TwoPhaseCache

/-!
The files of a cache directory as texts.  `TwoPhaseCache` is what a reader gets to see of them.
-/

namespace Rage

/-! `serde_json::to_string_pretty`, and `read_to_string` followed by `serde_json::from_str`. -/

structure Json where
  printPathsets : List StoredPathset → Bytes
  parsePathsets : Bytes → Option (List StoredPathset)
  printEntry : CacheEntry → Bytes
  parseEntry : Bytes → Option CacheEntry

structure Json.Lawful (json : Json) : Prop where
  pathsets : ∀ pathsets, pathsets.all TwoPhaseCache.serializable = true →
    json.parsePathsets (json.printPathsets pathsets) = some pathsets
  /-- An array that breaks off does not parse. -/
  cutPathsets : ∀ pathsets size, size < (json.printPathsets pathsets).length →
    json.parsePathsets ((json.printPathsets pathsets).take size) = none
  entries : ∀ entry : CacheEntry, entry.pathsetReads.all isUtf8 = true →
    json.parseEntry (json.printEntry entry) = some entry

/-- What the system answers to a call: whether the cache directory is there or can be created, and
which files it opens for writing.  A file that is opened is written to its end. -/
structure DiskAnswers where
  createDirAll : Bool
  opens : Bytes → Bool

def DiskAnswers.granted : DiskAnswers := ⟨true, fun _ => true⟩

structure CacheDir where
  files : Bytes → Option Bytes

namespace CacheDir

def empty : CacheDir := ⟨fun _ => none⟩

/-- `PathsetStore::path_for`. -/
def pathFor (weakFp : Bytes) : Bytes := utf8 "wf-" ++ weakFp ++ utf8 ".pathsets"

def entryPath (strongFp : Bytes) : Bytes := utf8 "sf-" ++ strongFp ++ utf8 ".entry"

def write (dir : CacheDir) (answers : DiskAnswers) (path text : Bytes) : Bool × CacheDir :=
  if answers.opens path then (true, ⟨Function.update dir.files path (some text)⟩) else (false, dir)

section

variable (json : Json)

def list (dir : CacheDir) (weakFp : Bytes) : List StoredPathset :=
  ((dir.files (pathFor weakFp)).bind json.parsePathsets).getD []

def append (dir : CacheDir) (answers : DiskAnswers) (weakFp : Bytes) (pathset : StoredPathset) :
    Bool × CacheDir :=
  if answers.createDirAll then
    let existing := dir.list json weakFp
    if existing.any fun stored => stored.eq pathset then (true, dir)
    else if (existing ++ [pathset]).all TwoPhaseCache.serializable then
      dir.write answers (pathFor weakFp) (json.printPathsets (existing ++ [pathset]))
    else (false, dir)
  else (false, dir)

def readEntry (dir : CacheDir) (strongFp : Bytes) : Option CacheEntry :=
  (dir.files (entryPath strongFp)).bind json.parseEntry

def writeEntry (dir : CacheDir) (answers : DiskAnswers) (strongFp : Bytes) (entry : CacheEntry) :
    Bool × CacheDir :=
  if entry.pathsetReads.all isUtf8 then
    dir.write answers (entryPath strongFp) (json.printEntry entry)
  else (false, dir)

variable (crates : Crates)

def lookupWithPathsetReads (dir : CacheDir) (fs : FileSystem) (inputs : WeakFpInputs) :
    Option (Bytes × CacheEntry × List Path) :=
  let weakFp := computeWeakFingerprint crates fs inputs
  (dir.list json weakFp).findSome? fun pathset =>
    let strongFp := computeStrongFingerprint crates fs weakFp pathset.reads
    (dir.readEntry json strongFp).map fun entry => (strongFp, entry, pathset.reads)

def lookup (dir : CacheDir) (fs : FileSystem) (inputs : WeakFpInputs) :
    Option (Bytes × CacheEntry) :=
  (dir.lookupWithPathsetReads json crates fs inputs).map fun hit => (hit.1, hit.2.1)

/-- The strong fingerprint that `record` returns with `Ok`, and the directory after it. -/
def record (dir : CacheDir) (answers : DiskAnswers) (call : RecordCall) :
    Option Bytes × CacheDir :=
  let weakFp := computeWeakFingerprint crates call.fs call.inputs
  let appended := dir.append json answers weakFp call.pathset
  if appended.1 then
    let strongFp := computeStrongFingerprint crates call.fs weakFp call.pathset.reads
    let entry := { call.entryTemplate with
      fingerprint := strongFp, pathsetReads := call.pathset.reads }
    let written := appended.2.writeEntry json answers strongFp entry
    (if written.1 then some strongFp else none, written.2)
  else (none, appended.2)

end

/-! File names. -/

theorem pathFor_injective {first second : Bytes} (same : pathFor first = pathFor second) :
    first = second := by
  simp only [pathFor, List.append_assoc] at same
  exact List.append_cancel_right (List.append_cancel_left same)

theorem entryPath_injective {first second : Bytes} (same : entryPath first = entryPath second) :
    first = second := by
  simp only [entryPath, List.append_assoc] at same
  exact List.append_cancel_right (List.append_cancel_left same)

theorem pathFor_head (weakFp : Bytes) : (pathFor weakFp).head? = some 119 := rfl

theorem entryPath_head (strongFp : Bytes) : (entryPath strongFp).head? = some 115 := rfl

theorem pkgAbi_head (filename : Bytes) : (utf8 "pkg-abi/" ++ filename).head? = some 112 := rfl

theorem pathFor_ne_entryPath (weakFp strongFp : Bytes) : pathFor weakFp ≠ entryPath strongFp := by
  intro same
  have initials := congrArg List.head? same
  rw [pathFor_head, entryPath_head] at initials
  exact absurd initials (by decide)

theorem pathFor_ne_pkgAbi (weakFp filename : Bytes) :
    pathFor weakFp ≠ utf8 "pkg-abi/" ++ filename := by
  intro same
  have initials := congrArg List.head? same
  rw [pathFor_head, pkgAbi_head] at initials
  exact absurd initials (by decide)

theorem entryPath_ne_pkgAbi (strongFp filename : Bytes) :
    entryPath strongFp ≠ utf8 "pkg-abi/" ++ filename := by
  intro same
  have initials := congrArg List.head? same
  rw [entryPath_head, pkgAbi_head] at initials
  exact absurd initials (by decide)

/-! What the operations do, in terms of what a reader sees. -/

section

variable {json : Json} {dir : CacheDir} {answers : DiskAnswers}

/-- `list` after an `append` that returns `Ok`. -/
def insertDistinct (existing : List StoredPathset) (pathset : StoredPathset) :
    List StoredPathset :=
  if existing.any fun stored => stored.eq pathset then existing else existing ++ [pathset]

theorem list_write_entryPath (strongFp text : Bytes) (weakFp : Bytes) :
    (dir.write answers (entryPath strongFp) text).2.list json weakFp = dir.list json weakFp := by
  unfold write
  split
  · simp only [list, Function.update_of_ne (pathFor_ne_entryPath weakFp strongFp)]
  · rfl

theorem readEntry_write_pathFor (weakFp text : Bytes) (strongFp : Bytes) :
    (dir.write answers (pathFor weakFp) text).2.readEntry json strongFp =
      dir.readEntry json strongFp := by
  unfold write
  split
  · simp only [readEntry, Function.update_of_ne (pathFor_ne_entryPath weakFp strongFp).symm]
  · rfl

theorem append_readEntry (weakFp : Bytes) (pathset : StoredPathset) (strongFp : Bytes) :
    (dir.append json answers weakFp pathset).2.readEntry json strongFp =
      dir.readEntry json strongFp := by
  unfold append
  split
  · simp only
    split
    · rfl
    · split
      · exact readEntry_write_pathFor ..
      · rfl
  · rfl

theorem append_list_of_ne {weakFp other : Bytes} (pathset : StoredPathset)
    (differ : other ≠ weakFp) :
    (dir.append json answers weakFp pathset).2.list json other = dir.list json other := by
  unfold append
  split
  · simp only
    split
    · rfl
    · split
      · unfold write
        split
        · simp only [list, Function.update_of_ne fun same => differ (pathFor_injective same)]
        · rfl
      · rfl
  · rfl

theorem append_list (lawful : json.Lawful) (weakFp : Bytes) (pathset : StoredPathset) :
    (dir.append json answers weakFp pathset).2.list json weakFp =
      if (dir.append json answers weakFp pathset).1 then
        insertDistinct (dir.list json weakFp) pathset
      else dir.list json weakFp := by
  unfold append insertDistinct
  split
  · simp only
    split
    · rfl
    · split
      · rename_i serializable
        have printed := lawful.pathsets _ serializable
        unfold write
        split
        · simp only [if_true]
          generalize dir.list json weakFp ++ [pathset] = longer at printed
          simp only [list, Function.update_self, Option.bind_some, printed, Option.getD_some]
        · rfl
      · rfl
  · rfl

theorem writeEntry_list (strongFp : Bytes) (entry : CacheEntry) (weakFp : Bytes) :
    (dir.writeEntry json answers strongFp entry).2.list json weakFp = dir.list json weakFp := by
  unfold writeEntry
  split
  · exact list_write_entryPath ..
  · rfl

theorem writeEntry_readEntry (lawful : json.Lawful) (strongFp : Bytes) (entry : CacheEntry)
    (other : Bytes) :
    (dir.writeEntry json answers strongFp entry).2.readEntry json other =
      if (dir.writeEntry json answers strongFp entry).1 ∧ other = strongFp then some entry
      else dir.readEntry json other := by
  unfold writeEntry
  by_cases readable : entry.pathsetReads.all isUtf8 = true
  · simp only [readable, if_true]
    unfold write
    by_cases opened : answers.opens (entryPath strongFp) = true
    · by_cases same : other = strongFp
      · simp [opened, same, readEntry, lawful.entries entry readable]
      · have apart : entryPath other ≠ entryPath strongFp :=
          fun equal => same (entryPath_injective equal)
        simp [opened, same, readEntry, Function.update_of_ne apart]
    · simp [opened]
  · simp [readable]

end

section

variable {json : Json} {crates : Crates} (lawful : json.Lawful) (dir : CacheDir)
  (answers : DiskAnswers) (call : RecordCall)

variable (json crates) in
theorem record_list (weakFp : Bytes) :
    (dir.record json crates answers call).2.list json weakFp =
      (dir.append json answers (call.weakFp crates) call.pathset).2.list json weakFp := by
  unfold record RecordCall.weakFp
  simp only
  split
  · exact writeEntry_list ..
  · rfl

include lawful

theorem record_readEntry (strongFp : Bytes) :
    (dir.record json crates answers call).2.readEntry json strongFp =
      if (dir.record json crates answers call).1 = some strongFp then some (call.stored crates)
      else dir.readEntry json strongFp := by
  unfold record RecordCall.stored RecordCall.strongFp RecordCall.weakFp
  simp only
  split
  · rw [writeEntry_readEntry lawful, append_readEntry]
    simp only [Option.ite_none_right_eq_some, Option.some.injEq]
    exact if_congr (and_congr_right fun _ => eq_comm) rfl rfl
  · rw [append_readEntry]
    rfl

variable {dir answers call} in
theorem record_returns {strongFp : Bytes}
    (returned : (dir.record json crates answers call).1 = some strongFp) :
    strongFp = call.strongFp crates ∧
      (dir.record json crates answers call).2.list json (call.weakFp crates) =
        insertDistinct (dir.list json (call.weakFp crates)) call.pathset := by
  have lists := record_list json crates dir answers call
    (call.weakFp crates)
  rw [append_list lawful] at lists
  unfold record at returned
  simp only at returned
  split at returned
  · rename_i acknowledged
    rw [RecordCall.weakFp, if_pos acknowledged] at lists
    simp only [Option.ite_none_right_eq_some, Option.some.injEq] at returned
    exact ⟨returned.2.symm, lists⟩
  · simp at returned

end

/-! What readers see is a two-phase cache, and `record` is its `record`. -/

section

variable (json : Json)

def view (dir : CacheDir) : TwoPhaseCache where
  pathsetFiles := fun weakFp => (dir.files (pathFor weakFp)).bind json.parsePathsets
  entryFiles := dir.readEntry json
  pkgAbiFiles := fun filename => dir.files (utf8 "pkg-abi/" ++ filename)

theorem view_append (lawful : json.Lawful) (dir : CacheDir) (weakFp : Bytes)
    (pathset : StoredPathset) :
    (dir.view json).append weakFp pathset =
      if (dir.append json .granted weakFp pathset).1 then
        some ((dir.append json .granted weakFp pathset).2.view json)
      else none := by
  have lists : (dir.view json).list weakFp = dir.list json weakFp := rfl
  simp only [TwoPhaseCache.append, append, DiskAnswers.granted, lists, if_true]
  split
  · rfl
  · split
    · rename_i serializable
      have printed := lawful.pathsets _ serializable
      simp only [write, if_true, Option.some.injEq, view, TwoPhaseCache.mk.injEq]
      refine ⟨?_, ?_, ?_⟩
      · funext other
        by_cases same : other = weakFp
        · simp [same, printed]
        · rw [Function.update_of_ne same,
            Function.update_of_ne fun equal => same (pathFor_injective equal)]
      · funext strongFp
        simp only [readEntry, Function.update_of_ne (pathFor_ne_entryPath weakFp strongFp).symm]
      · funext filename
        rw [Function.update_of_ne (pathFor_ne_pkgAbi weakFp filename).symm]
    · rfl

theorem view_writeEntry (lawful : json.Lawful) (dir : CacheDir) (strongFp : Bytes)
    (entry : CacheEntry) :
    (dir.view json).writeEntry strongFp entry =
      if (dir.writeEntry json .granted strongFp entry).1 then
        some ((dir.writeEntry json .granted strongFp entry).2.view json)
      else none := by
  simp only [TwoPhaseCache.writeEntry, writeEntry, DiskAnswers.granted]
  split
  · rename_i readable
    simp only [write, if_true, Option.some.injEq, view, TwoPhaseCache.mk.injEq]
    refine ⟨?_, ?_, ?_⟩
    · funext weakFp
      rw [Function.update_of_ne (pathFor_ne_entryPath weakFp strongFp)]
    · funext other
      by_cases same : other = strongFp
      · simp [same, readEntry, lawful.entries entry readable]
      · rw [Function.update_of_ne same]
        simp only [readEntry, Function.update_of_ne fun equal => same (entryPath_injective equal)]
    · funext filename
      rw [Function.update_of_ne (entryPath_ne_pkgAbi strongFp filename).symm]
  · rfl

theorem view_record (lawful : json.Lawful) (crates : Crates) (dir : CacheDir)
    (call : RecordCall) :
    (dir.view json).record crates call.fs call.inputs call.pathset call.entryTemplate =
      (dir.record json crates .granted call).1.map fun strongFp =>
        (strongFp, (dir.record json crates .granted call).2.view json) := by
  simp only [TwoPhaseCache.record, record, view_append json lawful]
  generalize dir.append json .granted (computeWeakFingerprint crates call.fs call.inputs)
    call.pathset = appended
  cases done : appended.1 with
  | false => rfl
  | true =>
      simp only [if_true, view_writeEntry json lawful]
      split
      · rfl
      · rfl

theorem view_lookup (crates : Crates) (dir : CacheDir) (fs : FileSystem) (inputs : WeakFpInputs) :
    (dir.view json).lookup crates fs inputs = dir.lookup json crates fs inputs := rfl

end

end CacheDir

/-! A codec that runs can be computed with: it prints the values of a table as `serde_json` does,
and codes all others as zeros up to a byte 1. -/

instance encodableUInt8 : Encodable UInt8 :=
  Encodable.ofLeftInverse UInt8.toNat UInt8.ofNat (by simp)

deriving instance Encodable for StoredPathset

deriving instance Encodable for CacheEntry

section Table

variable {α : Type} [DecidableEq α] [Encodable α] (table : List (α × Bytes))

def tablePrint (value : α) : Bytes :=
  match table.find? fun row => row.1 = value with
  | some row => row.2
  | none => List.replicate (Encodable.encode value) 0 ++ [1]

def tableParse (text : Bytes) : Option α :=
  match table.find? fun row => row.2 = text with
  | some row => some row.1
  | none => if text.getLast? = some 1 then Encodable.decode (text.length - 1) else none

/-- No text of the table begins another one or has the end mark of the other codes. -/
structure Readable : Prop where
  apart : ∀ row ∈ table, ∀ other ∈ table, row.2 <+: other.2 → row = other
  unmarked : ∀ row ∈ table, row.2 ≠ [] ∧ row.2.head? ≠ some 0 ∧ 1 ∉ row.2

variable {table}

variable (table) in
theorem tablePrint_cases (value : α) :
    (∃ row ∈ table, row.1 = value ∧ tablePrint table value = row.2) ∨
      tablePrint table value = List.replicate (Encodable.encode value) 0 ++ [1] := by
  unfold tablePrint
  split
  · rename_i row found
    exact Or.inl ⟨row, List.mem_of_find?_eq_some found, by simpa using List.find?_some found, rfl⟩
  · exact Or.inr rfl

theorem tableParse_print (readable : Readable table) (value : α) :
    tableParse table (tablePrint table value) = some value := by
  unfold tableParse
  rcases tablePrint_cases table value with ⟨row, member, isValue, isText⟩ | isCode
  · rw [isText]
    split
    · rename_i other foundText
      have sameText : other.2 = row.2 := by simpa using List.find?_some foundText
      have sameRow := readable.apart other (List.mem_of_find?_eq_some foundText) row member
        (by rw [sameText])
      rw [sameRow, isValue]
    · rename_i missing
      simpa using List.find?_eq_none.mp missing row member
  · rw [isCode]
    split
    · rename_i row foundText
      have sameText : row.2 = List.replicate (Encodable.encode value) 0 ++ [1] := by
        simpa using List.find?_some foundText
      have unmarked := (readable.unmarked row (List.mem_of_find?_eq_some foundText)).2.2
      exact (unmarked (by simp [sameText])).elim
    · simp

theorem take_code_unmarked {code size : Nat} (short : size < code + 1) :
    (List.replicate code 0 ++ [1] : Bytes).take size = List.replicate size 0 := by
  rw [List.take_append_of_le_length (by simpa using Nat.lt_succ_iff.mp short),
    List.take_replicate, Nat.min_eq_left (Nat.lt_succ_iff.mp short)]

theorem tableParse_take (readable : Readable table) (value : α) {size : Nat}
    (short : size < (tablePrint table value).length) :
    tableParse table ((tablePrint table value).take size) = none := by
  unfold tableParse
  rcases tablePrint_cases table value with ⟨row, member, _, isText⟩ | isCode
  · rw [isText] at short ⊢
    split
    · rename_i other foundText
      have cut : other.2 = row.2.take size := by simpa using List.find?_some foundText
      have sameRow := readable.apart other (List.mem_of_find?_eq_some foundText) row member
        (by rw [cut]; exact List.take_prefix ..)
      have length := congrArg List.length cut
      rw [sameRow, List.length_take] at length
      omega
    · rw [if_neg]
      intro marked
      exact (readable.unmarked row member).2.2
        (List.mem_of_mem_take (List.mem_of_getLast? marked))
  · rw [isCode, List.length_append, List.length_replicate, List.length_singleton] at short
    rw [isCode, take_code_unmarked short]
    split
    · rename_i row foundText
      have zeros : row.2 = List.replicate size 0 := by simpa using List.find?_some foundText
      obtain ⟨filled, head, _⟩ := readable.unmarked row (List.mem_of_find?_eq_some foundText)
      cases size with
      | zero => exact (filled zeros).elim
      | succ size => exact (head (by rw [zeros, List.replicate_succ]; rfl)).elim
    · rw [if_neg]
      intro marked
      simpa using List.mem_of_getLast? marked

end Table

/-! The texts of values whose strings need no escapes. -/

namespace Pretty

def quoted (text : Bytes) : Bytes := utf8 "\"" ++ text ++ utf8 "\""

def array (indent : Bytes) (items : List Bytes) : Bytes :=
  if items = [] then utf8 "[]"
  else utf8 "[\n" ++ (utf8 ",\n").intercalate (items.map fun item => indent ++ utf8 "  " ++ item) ++
    utf8 "\n" ++ indent ++ utf8 "]"

def pathset (stored : StoredPathset) : Bytes :=
  utf8 "\x7b\n    \"reads\": " ++ array (utf8 "    ") (stored.reads.map quoted) ++
    utf8 ",\n    \"writes\": " ++ array (utf8 "    ") (stored.writes.map quoted) ++ utf8 "\n  \x7d"

def pathsets (stored : List StoredPathset) : Bytes := array [] (stored.map pathset)

def entry (stored : CacheEntry) : Bytes :=
  utf8 "\x7b\n  \"fingerprint\": " ++ quoted stored.fingerprint ++
    utf8 ",\n  \"command\": " ++ quoted stored.command ++
    utf8 ",\n  \"exit_code\": " ++ utf8 (toString stored.exitCode) ++
    utf8 ",\n  \"elapsed_ms\": " ++ utf8 (toString stored.elapsedMs) ++
    utf8 ",\n  \"cached_at\": " ++ utf8 (toString stored.cachedAt) ++
    utf8 ",\n  \"pathset_reads\": " ++ array (utf8 "  ") (stored.pathsetReads.map quoted) ++
    utf8 ",\n  \"abi_fingerprint\": " ++ (stored.abiFingerprint.map quoted).getD (utf8 "null") ++
    utf8 "\n\x7d"

end Pretty

def Json.plain (pathsets : List (List StoredPathset)) (entries : List CacheEntry) : Json where
  printPathsets := tablePrint (pathsets.map fun value => (value, Pretty.pathsets value))
  parsePathsets := tableParse (pathsets.map fun value => (value, Pretty.pathsets value))
  printEntry := tablePrint (entries.map fun value => (value, Pretty.entry value))
  parseEntry := tableParse (entries.map fun value => (value, Pretty.entry value))

theorem Json.plain_lawful {pathsets : List (List StoredPathset)} {entries : List CacheEntry}
    (readablePathsets : Readable (pathsets.map fun value => (value, Pretty.pathsets value)))
    (readableEntries : Readable (entries.map fun value => (value, Pretty.entry value))) :
    (Json.plain pathsets entries).Lawful where
  pathsets := fun value _ => tableParse_print readablePathsets value
  cutPathsets := fun value _ short => tableParse_take readablePathsets value short
  entries := fun value _ => tableParse_print readableEntries value

end Rage
