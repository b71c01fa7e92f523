import Rage.CacheFiles
import Rage.StrongSet

/-!
What is recorded is found again.  A record call writes its entry under the spelling of its own
reads, and a later lookup computes the fingerprint from the spelling that the list has kept.
-/

namespace Rage

section

variable (crates : Crates)

/-- The disk shows what determines the call's weak fingerprint and the files that it read. -/
structure RecordCall.Unchanged (call : RecordCall) (now : FileSystem) : Prop where
  inputs : call.inputs.seen crates now = call.inputs.seen crates call.fs
  reads : ∀ path ∈ call.pathset.reads, inNodeModules path = false → now.stat path = call.fs.stat path

variable {crates}

theorem RecordCall.Unchanged.weakFp {call : RecordCall} {now : FileSystem}
    (unchanged : call.Unchanged crates now) :
    computeWeakFingerprint crates now call.inputs = call.weakFp crates :=
  computeWeakFingerprint_congr crates now call.fs call.inputs call.inputs unchanged.inputs

theorem RecordCall.Unchanged.strongText {call : RecordCall} {now : FileSystem}
    (unchanged : call.Unchanged crates now) :
    strongText crates now call.pathset.reads = Rage.strongText crates call.fs call.pathset.reads := by
  have same (path : Path) (member : path ∈ trackedReads call.pathset.reads) :
      now.stat path = call.fs.stat path := by
    obtain ⟨isRead, outside⟩ := mem_trackedReads member
    exact unchanged.reads path isRead outside
  have files : (trackedReads call.pathset.reads).filter now.isFile =
      (trackedReads call.pathset.reads).filter call.fs.isFile := by
    apply List.filter_congr
    intro path member
    simp only [FileSystem.isFile, same path member]
  have records : strongRecords now call.pathset.reads = strongRecords call.fs call.pathset.reads := by
    unfold strongRecords
    rw [files]
    apply List.map_congr_left
    intro path member
    simp only [FileSystem.read, same path (List.mem_of_mem_filter member)]
  rw [Rage.strongText, records, Rage.strongText]

end

namespace CacheDir

section

variable (json : Json) (crates : Crates)

/-- Record calls one after another, each with the answers of the system. -/
def recordAll (dir : CacheDir) (calls : List (DiskAnswers × RecordCall)) : CacheDir :=
  calls.foldl (fun dir call => (dir.record json crates call.1 call.2).2) dir

/-- The pathsets that the calls append under a weak fingerprint with `Ok`. -/
def appended (weakFp : Bytes) : CacheDir → List (DiskAnswers × RecordCall) → List StoredPathset
  | _, [] => []
  | dir, (answers, call) :: rest =>
      let later := appended weakFp (dir.record json crates answers call).2 rest
      if weakFp = call.weakFp crates ∧ (dir.append json answers weakFp call.pathset).1 = true then
        call.pathset :: later
      else later

/-- The call's pathset is new under its weak fingerprint, or some stored pathset hashes the bytes
that this one does, or has an entry already. -/
def Findable (dir : CacheDir) (call : RecordCall) (now : FileSystem) : Prop :=
  (∀ stored ∈ dir.list json (call.weakFp crates), stored.eq call.pathset = false) ∨
  ∃ stored ∈ dir.list json (call.weakFp crates),
    strongText crates now stored.reads = strongText crates call.fs call.pathset.reads ∨
    (dir.readEntry json
      (computeStrongFingerprint crates now (call.weakFp crates) stored.reads)).isSome = true

end

section

variable {json : Json} {crates : Crates}

theorem lookup_isSome_iff (dir : CacheDir) (fs : FileSystem) (inputs : WeakFpInputs) :
    (dir.lookup json crates fs inputs).isSome = true ↔
      ∃ stored ∈ dir.list json (computeWeakFingerprint crates fs inputs),
        (dir.readEntry json (computeStrongFingerprint crates fs
          (computeWeakFingerprint crates fs inputs) stored.reads)).isSome = true := by
  simp [lookup, lookupWithPathsetReads, List.findSome?_isSome_iff]

theorem mem_insertDistinct {existing : List StoredPathset} {pathset stored : StoredPathset} :
    stored ∈ insertDistinct existing pathset ↔ stored ∈ existing ∨
      (stored = pathset ∧ ∀ other ∈ existing, other.eq pathset = false) := by
  unfold insertDistinct
  split
  · rename_i present
    simp only [List.any_eq_true] at present
    obtain ⟨kept, member, same⟩ := present
    constructor
    · exact Or.inl
    · rintro (old | ⟨_, fresh⟩)
      · exact old
      · simp [fresh kept member] at same
  · rename_i absent
    have fresh : ∀ other ∈ existing, other.eq pathset = false := by simpa using absent
    rw [List.mem_append, List.mem_singleton, and_iff_left fresh]

/-! Nothing that is stored goes away. -/

theorem record_keeps (lawful : json.Lawful) (dir : CacheDir) (answers : DiskAnswers)
    (call : RecordCall) (weakFp strongFp : Bytes) (stored : StoredPathset)
    (listed : stored ∈ dir.list json weakFp)
    (present : (dir.readEntry json strongFp).isSome = true) :
    stored ∈ (dir.record json crates answers call).2.list json weakFp ∧
      ((dir.record json crates answers call).2.readEntry json strongFp).isSome = true := by
  constructor
  · rw [record_list]
    by_cases own : weakFp = call.weakFp crates
    · subst own
      rw [append_list lawful]
      split
      · exact mem_insertDistinct.mpr (Or.inl listed)
      · exact listed
    · rw [append_list_of_ne _ own]
      exact listed
  · rw [record_readEntry lawful]
    split
    · rfl
    · exact present

theorem lookup_kept (lawful : json.Lawful) (dir : CacheDir)
    (calls : List (DiskAnswers × RecordCall)) (fs : FileSystem) (inputs : WeakFpInputs)
    (hit : (dir.lookup json crates fs inputs).isSome = true) :
    ((dir.recordAll json crates calls).lookup json crates fs inputs).isSome = true := by
  induction calls generalizing dir with
  | nil => exact hit
  | cons call rest ih =>
      apply ih
      obtain ⟨stored, listed, present⟩ := (lookup_isSome_iff dir fs inputs).mp hit
      obtain ⟨stillListed, stillPresent⟩ :=
        record_keeps lawful dir call.1 call.2 _ _ stored listed present
      exact (lookup_isSome_iff _ fs inputs).mpr ⟨stored, stillListed, stillPresent⟩

theorem record_lookup_iff (lawful : json.Lawful) (ideal : crates.Ideal) {dir : CacheDir}
    {answers : DiskAnswers} {call : RecordCall} {strongFp : Bytes}
    (returned : (dir.record json crates answers call).1 = some strongFp) {now : FileSystem}
    (unchanged : call.Unchanged crates now) :
    ((dir.record json crates answers call).2.lookup json crates now call.inputs).isSome = true ↔
      Findable json crates dir call now := by
  obtain ⟨isKey, lists⟩ := record_returns lawful returned
  have entries (stored : StoredPathset) :
      ((dir.record json crates answers call).2.readEntry json
        (computeStrongFingerprint crates now (call.weakFp crates) stored.reads)).isSome = true ↔
      strongText crates now stored.reads = strongText crates call.fs call.pathset.reads ∨
        (dir.readEntry json (computeStrongFingerprint crates now (call.weakFp crates)
          stored.reads)).isSome = true := by
    have keys : some strongFp = some (computeStrongFingerprint crates now (call.weakFp crates)
        stored.reads) ↔ strongText crates now stored.reads =
          strongText crates call.fs call.pathset.reads := by
      rw [Option.some.injEq, isKey, RecordCall.strongFp, computeStrongFingerprint_eq_iff ideal,
        eq_comm]
    rw [record_readEntry lawful, returned]
    split
    · rename_i same
      simp [keys.mp same]
    · rename_i differ
      simp [mt keys.mpr differ]
  rw [lookup_isSome_iff, unchanged.weakFp, lists, Findable]
  simp only [entries, mem_insertDistinct]
  constructor
  · rintro ⟨stored, listed | ⟨_, fresh⟩, found⟩
    · exact Or.inr ⟨stored, listed, found⟩
    · exact Or.inl fresh
  · rintro (fresh | ⟨stored, listed, found⟩)
    · exact ⟨call.pathset, Or.inr ⟨rfl, fresh⟩, Or.inl unchanged.strongText⟩
    · exact ⟨stored, Or.inl listed, found⟩

theorem findable_of_spelling {dir : CacheDir} {call : RecordCall} {now : FileSystem}
    (unchanged : call.Unchanged crates now)
    (spelled : ∀ stored ∈ dir.list json (call.weakFp crates), stored.eq call.pathset = true →
      stored.reads = call.pathset.reads) : Findable json crates dir call now := by
  by_cases fresh : ∀ stored ∈ dir.list json (call.weakFp crates), stored.eq call.pathset = false
  · exact Or.inl fresh
  · push Not at fresh
    obtain ⟨stored, listed, same⟩ := fresh
    refine Or.inr ⟨stored, listed, Or.inl ?_⟩
    rw [spelled stored listed (by simpa using same), unchanged.strongText]

/-! `list` is the appended pathsets, each where it came first. -/

theorem foldl_insertDistinct (pathsets kept : List StoredPathset) :
    pathsets.foldl insertDistinct kept.reverse =
      List.eraseDupsBy.loop (fun next stored => stored.eq next) pathsets kept := by
  induction pathsets generalizing kept with
  | nil => rfl
  | cons pathset rest ih =>
      rw [List.foldl_cons, List.eraseDupsBy.loop, insertDistinct, List.any_reverse]
      cases known : kept.any fun stored => stored.eq pathset with
      | true => exact ih kept
      | false =>
          have longer := ih (pathset :: kept)
          rwa [List.reverse_cons] at longer

theorem list_recordAll (lawful : json.Lawful) (weakFp : Bytes) (dir : CacheDir)
    (calls : List (DiskAnswers × RecordCall)) :
    (dir.recordAll json crates calls).list json weakFp =
      (appended json crates weakFp dir calls).foldl insertDistinct (dir.list json weakFp) := by
  induction calls generalizing dir with
  | nil => rfl
  | cons call rest ih =>
      have later : (dir.recordAll json crates (call :: rest)) =
          (dir.record json crates call.1 call.2).2.recordAll json crates rest := rfl
      rw [later, ih, record_list, appended]
      by_cases own : weakFp = call.2.weakFp crates
      · rw [← own, append_list lawful]
        cases done : (dir.append json call.1 weakFp call.2.pathset).1 with
        | true => simp
        | false => simp
      · simp [own, append_list_of_ne]

end

section

variable {json : Json} {crates : Crates} (lawful : json.Lawful) (ideal : crates.Ideal)
  (dir : CacheDir) (answers : DiskAnswers) (call : RecordCall) (strongFp : Bytes)

include lawful ideal

theorem recorded_found_iff
    (returned : (dir.record json crates answers call).1 = some strongFp) (now : FileSystem)
    (unchanged : call.Unchanged crates now) :
    ((∀ later, (((dir.record json crates answers call).2.recordAll json crates later).lookup json
        crates now call.inputs).isSome = true) ↔ Findable json crates dir call now) ∧
    ∀ calls weakFp, (empty.recordAll json crates calls).list json weakFp =
      (appended json crates weakFp empty calls).eraseDupsBy fun next stored => stored.eq next := by
  refine ⟨?_, fun calls weakFp => ?_⟩
  · rw [← record_lookup_iff lawful ideal returned unchanged]
    constructor
    · intro always
      exact always []
    · intro hit later
      exact lookup_kept lawful _ later now call.inputs hit
  · rw [list_recordAll lawful, List.eraseDupsBy, ← foldl_insertDistinct]
    rfl

end

/-! A file that is read under two spellings. -/

namespace Spelling

def source : Path := utf8 "/ws/a.ts"

def doubled : Path := utf8 "/ws//a.ts"

def inputs : WeakFpInputs where
  command := utf8 "tsc"
  toolPath := utf8 "sh"
  packagePath := utf8 "/ws"
  declaredInputGlobs := []
  trackedEnv := []
  depAbiFingerprints := []

def disk (content : Bytes) : FileSystem := ⟨[(components source, ⟨.file content true, false⟩)]⟩

def call (content : Bytes) (read : Path) : RecordCall where
  inputs := inputs
  fs := disk content
  pathset := ⟨[read], []⟩
  entryTemplate := ⟨[], utf8 "tsc", 0, 5, 0, [], none⟩

def first : RecordCall := call (utf8 "1") source

def second : RecordCall := call (utf8 "2") doubled

def json : Json := .plain [[first.pathset]] [first.stored .plain, second.stored .plain]

theorem json_lawful : json.Lawful :=
  Json.plain_lawful ⟨by decide +kernel, by decide +kernel⟩ ⟨by decide +kernel, by decide +kernel⟩

end Spelling

open Spelling in
theorem recorded_found_once :
    ((∀ later, (((empty.record json .plain .granted first).2.recordAll json .plain later).lookup json
        .plain first.fs first.inputs).isSome = true) ↔
      Findable json .plain empty first first.fs) ∧
    ∀ calls weakFp, (empty.recordAll json .plain calls).list json weakFp =
      (appended json .plain weakFp empty calls).eraseDupsBy fun next stored => stored.eq next :=
  recorded_found_iff json_lawful Crates.plain_ideal empty .granted first (first.strongFp .plain)
    (by decide +kernel) first.fs ⟨rfl, fun _ _ _ => rfl⟩

/-- The second call returns `Ok`, its pathset counts as stored, and no lookup finds its entry. -/
theorem recorded_not_found :
    ¬ ∀ (json : Json) (crates : Crates), json.Lawful → crates.Ideal →
      ∀ (before : List (DiskAnswers × RecordCall)) (answers : DiskAnswers) (call : RecordCall)
        (strongFp : Bytes),
      ((empty.recordAll json crates before).record json crates answers call).1 = some strongFp →
      ∀ (later : List (DiskAnswers × RecordCall)) (now : FileSystem), call.Unchanged crates now →
      ((((empty.recordAll json crates before).record json crates answers call).2.recordAll json crates
        later).lookup json crates now call.inputs).isSome = true := by
  intro claimed
  have found := claimed Spelling.json .plain Spelling.json_lawful Crates.plain_ideal
    [(.granted, Spelling.first)] .granted Spelling.second (Spelling.second.strongFp .plain)
    (by decide +kernel) [] Spelling.second.fs ⟨rfl, fun _ _ _ => rfl⟩
  exact absurd found (by decide +kernel)

end CacheDir

end Rage
