import Mathlib.Logic.Function.Basic
import Rage.Fingerprint

/-!
The two-phase cache: pathsets stored under a weak fingerprint, entries stored
under a strong one, and what a hit says about the run that wrote the entry.
-/

namespace Rage

structure StoredPathset where
  reads : List Path
  writes : List Path
  deriving DecidableEq

def StoredPathset.default : StoredPathset := ⟨[], []⟩

/-- The derived `==`, which compares paths by their components. -/
def StoredPathset.eq (first second : StoredPathset) : Bool :=
  first.reads.map components == second.reads.map components &&
    first.writes.map components == second.writes.map components

structure CacheEntry where
  fingerprint : Bytes
  command : Bytes
  exitCode : Int
  elapsedMs : Nat
  cachedAt : Nat
  pathsetReads : List Path
  abiFingerprint : Option Bytes
  deriving DecidableEq

/-! The files of a cache directory.  `none` stands for a file that is missing or does not
parse: `list`, `read_entry` and `get_pkg_abi_fp` treat the two alike. -/

structure TwoPhaseCache where
  pathsetFiles : Bytes → Option (List StoredPathset)
  entryFiles : Bytes → Option CacheEntry
  pkgAbiFiles : Bytes → Option Bytes

namespace TwoPhaseCache

def empty : TwoPhaseCache where
  pathsetFiles := fun _ => none
  entryFiles := fun _ => none
  pkgAbiFiles := fun _ => none

def list (cache : TwoPhaseCache) (weakFp : Bytes) : List StoredPathset :=
  (cache.pathsetFiles weakFp).getD []

/-- Serde refuses a path that is not UTF-8. -/
def serializable (pathset : StoredPathset) : Bool :=
  pathset.reads.all isUtf8 && pathset.writes.all isUtf8

def append (cache : TwoPhaseCache) (weakFp : Bytes) (pathset : StoredPathset) :
    Option TwoPhaseCache :=
  let existing := cache.list weakFp
  if existing.any fun stored => stored.eq pathset then some cache
  else if (existing ++ [pathset]).all serializable then
    some { cache with
      pathsetFiles := Function.update cache.pathsetFiles weakFp (some (existing ++ [pathset])) }
  else none

def writeEntry (cache : TwoPhaseCache) (strongFp : Bytes) (entry : CacheEntry) :
    Option TwoPhaseCache :=
  if entry.pathsetReads.all isUtf8 then
    some { cache with entryFiles := Function.update cache.entryFiles strongFp (some entry) }
  else none

def pkgNameToFilename (name : Bytes) : Bytes :=
  (name.flatMap fun byte => if byte = 64 then utf8 "_at_" else [byte]).flatMap fun byte =>
    if byte = slash then utf8 "__" else [byte]

def isWhitespace (byte : UInt8) : Bool := byte = 32 || (9 ≤ byte && byte ≤ 13)

def trim (text : Bytes) : Bytes :=
  ((text.dropWhile isWhitespace).reverse.dropWhile isWhitespace).reverse

def getPkgAbiFp (cache : TwoPhaseCache) (pkgName : Bytes) : Option Bytes :=
  ((cache.pkgAbiFiles (pkgNameToFilename pkgName)).map trim).filter fun text => !text.isEmpty

def setPkgAbiFp (cache : TwoPhaseCache) (pkgName abiFp : Bytes) : TwoPhaseCache :=
  { cache with
    pkgAbiFiles := Function.update cache.pkgAbiFiles (pkgNameToFilename pkgName) (some abiFp) }

section Lookup

variable (crates : Crates)

def lookupWithPathsetReads (cache : TwoPhaseCache) (fs : FileSystem) (inputs : WeakFpInputs) :
    Option (Bytes × CacheEntry × List Path) :=
  let weakFp := computeWeakFingerprint crates fs inputs
  (cache.list weakFp).findSome? fun pathset =>
    let strongFp := computeStrongFingerprint crates fs weakFp pathset.reads
    (cache.entryFiles strongFp).map fun entry => (strongFp, entry, pathset.reads)

def firstMatch (cache : TwoPhaseCache) (fs : FileSystem) (inputs : WeakFpInputs) :
    Option StoredPathset :=
  let weakFp := computeWeakFingerprint crates fs inputs
  (cache.list weakFp).find? fun pathset =>
    (cache.entryFiles (computeStrongFingerprint crates fs weakFp pathset.reads)).isSome

def lookup (cache : TwoPhaseCache) (fs : FileSystem) (inputs : WeakFpInputs) :
    Option (Bytes × CacheEntry) :=
  (cache.lookupWithPathsetReads crates fs inputs).map fun hit => (hit.1, hit.2.1)

def record (cache : TwoPhaseCache) (fs : FileSystem) (inputs : WeakFpInputs)
    (pathset : StoredPathset) (entryTemplate : CacheEntry) : Option (Bytes × TwoPhaseCache) :=
  let weakFp := computeWeakFingerprint crates fs inputs
  match cache.append weakFp pathset with
  | none => none
  | some appended =>
      let strongFp := computeStrongFingerprint crates fs weakFp pathset.reads
      let entry := { entryTemplate with fingerprint := strongFp, pathsetReads := pathset.reads }
      (appended.writeEntry strongFp entry).map fun written => (strongFp, written)

end Lookup

theorem append_cases {cache appended : TwoPhaseCache} {weakFp : Bytes} {pathset : StoredPathset}
    (done : cache.append weakFp pathset = some appended) :
    appended.entryFiles = cache.entryFiles ∧ appended.pkgAbiFiles = cache.pkgAbiFiles ∧
      ∀ fp ps, ps ∈ appended.list fp → ps ∈ cache.list fp ∨ (fp = weakFp ∧ ps = pathset) := by
  simp only [append] at done
  split at done
  · simp only [Option.some.injEq] at done
    subst appended
    exact ⟨rfl, rfl, fun fp ps => Or.inl⟩
  · split at done
    · simp only [Option.some.injEq] at done
      subst appended
      refine ⟨rfl, rfl, fun fp ps => ?_⟩
      by_cases same : fp = weakFp
      · subst fp
        simp [list]
      · simp [list, same]
    · simp at done

end TwoPhaseCache

theorem findSome?_map_find? {α β γ : Type} (f : α → Option β) (g : α → β → γ) (xs : List α) :
    xs.findSome? (fun x => (f x).map (g x)) =
      (xs.find? fun x => (f x).isSome).bind fun x => (f x).map (g x) := by
  induction xs with
  | nil => rfl
  | cons x rest ih =>
      cases found : f x with
      | none => simpa [found] using ih
      | some value => simp [found]

theorem TwoPhaseCache.firstMatch_of_hit {crates : Crates} {cache : TwoPhaseCache}
    {fs : FileSystem} {inputs : WeakFpInputs} {strongFp : Bytes} {entry : CacheEntry}
    {reads : List Path}
    (hit : cache.lookupWithPathsetReads crates fs inputs = some (strongFp, entry, reads)) :
    ∃ pathset, cache.firstMatch crates fs inputs = some pathset ∧ pathset.reads = reads ∧
      strongFp = computeStrongFingerprint crates fs (computeWeakFingerprint crates fs inputs)
        reads := by
  simp only [lookupWithPathsetReads, findSome?_map_find?] at hit
  obtain ⟨pathset, first, found⟩ := Option.bind_eq_some_iff.mp hit
  obtain ⟨stored, _, same⟩ := Option.map_eq_some_iff.mp found
  simp only [Prod.mk.injEq] at same
  exact ⟨pathset, first, same.2.2, by rw [← same.1, same.2.2]⟩

/-! One `record` call, with the file system it runs on. -/

structure RecordCall where
  inputs : WeakFpInputs
  fs : FileSystem
  pathset : StoredPathset
  entryTemplate : CacheEntry

namespace RecordCall

variable (crates : Crates)

def weakFp (call : RecordCall) : Bytes := computeWeakFingerprint crates call.fs call.inputs

def strongFp (call : RecordCall) : Bytes :=
  computeStrongFingerprint crates call.fs (call.weakFp crates) call.pathset.reads

def stored (call : RecordCall) : CacheEntry :=
  { call.entryTemplate with
    fingerprint := call.strongFp crates, pathsetReads := call.pathset.reads }

end RecordCall

theorem TwoPhaseCache.record_cases {crates : Crates} {cache written : TwoPhaseCache}
    {call : RecordCall} {strongFp : Bytes}
    (done : cache.record crates call.fs call.inputs call.pathset call.entryTemplate =
      some (strongFp, written)) :
    strongFp = call.strongFp crates ∧
      written.entryFiles = Function.update cache.entryFiles strongFp (some (call.stored crates)) ∧
      written.pkgAbiFiles = cache.pkgAbiFiles ∧
      ∀ fp ps, ps ∈ written.list fp →
        ps ∈ cache.list fp ∨ (fp = call.weakFp crates ∧ ps = call.pathset) := by
  simp only [record] at done
  split at done
  · simp at done
  · rename_i appended appendDone
    simp only [writeEntry] at done
    split at done
    · simp only [Option.map_some, Option.some.injEq, Prod.mk.injEq] at done
      obtain ⟨rfl, rfl⟩ := done
      have facts := append_cases appendDone
      refine ⟨rfl, ?_, facts.2.1, facts.2.2⟩
      simp [facts.1, RecordCall.stored, RecordCall.strongFp, RecordCall.weakFp]
    · simp at done

theorem TwoPhaseCache.record_pathsetFiles {crates : Crates} {cache written : TwoPhaseCache}
    {call : RecordCall} {strongFp : Bytes}
    (done : cache.record crates call.fs call.inputs call.pathset call.entryTemplate =
      some (strongFp, written)) {fp : Bytes} (other : fp ≠ call.weakFp crates) :
    written.pathsetFiles fp = cache.pathsetFiles fp := by
  simp only [record] at done
  split at done
  · simp at done
  · rename_i appended appendDone
    simp only [writeEntry] at done
    split at done
    · simp only [Option.map_some, Option.some.injEq, Prod.mk.injEq] at done
      obtain ⟨rfl, rfl⟩ := done
      simp only [append] at appendDone
      split at appendDone
      · rw [Option.some.inj appendDone]
      · split at appendDone
        · rw [← Option.some.inj appendDone]
          exact Function.update_of_ne other _ _
        · simp at appendDone
    · simp at done

theorem TwoPhaseCache.record_agree {crates : Crates} {first second : TwoPhaseCache}
    {call : RecordCall}
    (same : first.pathsetFiles (call.weakFp crates) = second.pathsetFiles (call.weakFp crates)) :
    (first.record crates call.fs call.inputs call.pathset call.entryTemplate = none ∧
      second.record crates call.fs call.inputs call.pathset call.entryTemplate = none) ∨
    ∃ firstWritten secondWritten,
      first.record crates call.fs call.inputs call.pathset call.entryTemplate =
        some (call.strongFp crates, firstWritten) ∧
      second.record crates call.fs call.inputs call.pathset call.entryTemplate =
        some (call.strongFp crates, secondWritten) ∧
      firstWritten.pathsetFiles (call.weakFp crates) =
        secondWritten.pathsetFiles (call.weakFp crates) := by
  have sameList : first.list (call.weakFp crates) = second.list (call.weakFp crates) := by
    simp only [list, same]
  simp only [record, append, RecordCall.strongFp, RecordCall.weakFp] at same sameList ⊢
  generalize computeWeakFingerprint crates call.fs call.inputs = weakFp at same sameList ⊢
  rw [sameList]
  by_cases readable : call.pathset.reads.all isUtf8 = true
  · by_cases present : ((second.list weakFp).any fun stored => stored.eq call.pathset) = true
    · simp only [writeEntry, present, readable, if_true, Option.map_some]
      exact Or.inr ⟨_, _, rfl, rfl, same⟩
    · by_cases serial : (second.list weakFp ++ [call.pathset]).all serializable = true
      · simp only [writeEntry, present, serial, readable, if_true, Bool.false_eq_true, if_false,
          Option.map_some]
        exact Or.inr ⟨_, _, rfl, rfl, by simp only [Function.update_self]⟩
      · simp only [present, serial, Bool.false_eq_true, if_false]
        exact Or.inl ⟨trivial, trivial⟩
  · have refused (cache : TwoPhaseCache) (strongFp : Bytes) (entry : CacheEntry)
        (reads : entry.pathsetReads = call.pathset.reads) :
        cache.writeEntry strongFp entry = none := by
      simp only [writeEntry, reads, readable, Bool.false_eq_true, if_false]
    refine Or.inl ⟨?_, ?_⟩
    · split
      · rfl
      · rw [refused _ _ _ rfl, Option.map_none]
    · split
      · rfl
      · rw [refused _ _ _ rfl, Option.map_none]

/-! A ledger is a cache together with the record calls that wrote it, the newest first.  A tag
says whatever a result needs to remember about a call. -/

structure Recorded (τ : Type) where
  call : RecordCall
  tag : τ

structure Ledger (τ : Type) where
  cache : TwoPhaseCache
  log : List (Recorded τ)

namespace Ledger

variable {τ : Type} (crates : Crates)

def empty : Ledger τ := ⟨.empty, []⟩

def record (ledger : Ledger τ) (call : RecordCall) (tag : τ) : Ledger τ :=
  match ledger.cache.record crates call.fs call.inputs call.pathset call.entryTemplate with
  | none => ledger
  | some (_, written) => ⟨written, ⟨call, tag⟩ :: ledger.log⟩

def writer (ledger : Ledger τ) (strongFp : Bytes) : Option (Recorded τ) :=
  ledger.log.find? fun recorded => recorded.call.strongFp crates == strongFp

def Sound (ledger : Ledger τ) : Prop :=
  ∀ strongFp entry, ledger.cache.entryFiles strongFp = some entry →
    ∃ recorded, ledger.writer crates strongFp = some recorded ∧
      entry = recorded.call.stored crates

variable {crates}

theorem writer_spec {ledger : Ledger τ} {strongFp : Bytes} {recorded : Recorded τ}
    (wrote : ledger.writer crates strongFp = some recorded) :
    recorded ∈ ledger.log ∧ recorded.call.strongFp crates = strongFp := by
  refine ⟨List.mem_of_find?_eq_some wrote, ?_⟩
  simpa using List.find?_some wrote

theorem empty_sound : (empty : Ledger τ).Sound crates := by
  intro strongFp entry stored
  simp [empty, TwoPhaseCache.empty] at stored

theorem record_sound {ledger : Ledger τ} (sound : ledger.Sound crates) (call : RecordCall)
    (tag : τ) : (ledger.record crates call tag).Sound crates := by
  unfold record
  split
  · exact sound
  · rename_i strongFp written done
    obtain ⟨key, entries, _, _⟩ := TwoPhaseCache.record_cases done
    intro fp entry stored
    simp only [entries] at stored
    by_cases same : fp = strongFp
    · subst fp
      simp only [Function.update_self, Option.some.injEq] at stored
      exact ⟨⟨call, tag⟩, by simp [writer, key], stored.symm⟩
    · rw [Function.update_of_ne same] at stored
      obtain ⟨recorded, wrote, isStored⟩ := sound fp entry stored
      refine ⟨recorded, ?_, isStored⟩
      rw [← wrote]
      simp [writer, ← key, Ne.symm same]

theorem Sound.weaken {ledger other : Ledger τ} (sound : ledger.Sound crates)
    (log : other.log = ledger.log)
    (entries : ∀ strongFp entry, other.cache.entryFiles strongFp = some entry →
      ledger.cache.entryFiles strongFp = some entry) : other.Sound crates := by
  intro strongFp entry stored
  obtain ⟨recorded, wrote, isStored⟩ := sound strongFp entry (entries strongFp entry stored)
  exact ⟨recorded, by simpa [writer, log] using wrote, isStored⟩

/-- A hit returns what some record call stored, under the strong fingerprint of a listed
pathset. -/
theorem lookup_written {ledger : Ledger τ} (sound : ledger.Sound crates) {fs : FileSystem}
    {inputs : WeakFpInputs} {strongFp : Bytes} {entry : CacheEntry} {reads : List Path}
    (hit : ledger.cache.lookupWithPathsetReads crates fs inputs = some (strongFp, entry, reads)) :
    ∃ recorded pathset, ledger.writer crates strongFp = some recorded ∧
      entry = recorded.call.stored crates ∧
      pathset ∈ ledger.cache.list (computeWeakFingerprint crates fs inputs) ∧
      pathset.reads = reads ∧
      recorded.call.strongFp crates =
        computeStrongFingerprint crates fs (computeWeakFingerprint crates fs inputs) reads := by
  simp only [TwoPhaseCache.lookupWithPathsetReads] at hit
  obtain ⟨pathset, listed, found⟩ := List.exists_of_findSome?_eq_some hit
  obtain ⟨stored, isStored, same⟩ := Option.map_eq_some_iff.mp found
  simp only [Prod.mk.injEq] at same
  obtain ⟨rfl, rfl, rfl⟩ := same
  obtain ⟨recorded, wrote, isEntry⟩ := sound _ _ isStored
  exact ⟨recorded, pathset, wrote, isEntry, listed, rfl, (writer_spec wrote).2⟩

end Ledger

end Rage
