import Mathlib.Data.List.Induction
import Rage.PathSpelling
import Rage.WeakCollisions

/-!
What `rage why-miss` reports of two runs, and what their weak fingerprints are made of.  The
snapshot of a run is taken beside its fingerprint, from the same inputs but at a time of its own.
-/

namespace Rage.WhyMiss

/-! Entries collected into a hash map: the last value of a key counts, under its first spelling. -/

section Keyed

variable {κ ν : Type} (same : κ → κ → Bool)

def lookupLast (entries : List (κ × ν)) (key : κ) : Option ν :=
  (entries.reverse.find? fun entry => same entry.1 key).map Prod.snd

def keysOf (entries : List (κ × ν)) : List κ :=
  entries.foldl (fun keys entry =>
    if keys.any (same entry.1) then keys else keys ++ [entry.1]) []

variable (old new : List (κ × ν))

def addedKeys : List κ := (keysOf same new).filter fun key => (lookupLast same old key).isNone

variable [DecidableEq ν]

def changedKeys : List κ := (keysOf same new).filter fun key =>
  match lookupLast same old key, lookupLast same new key with
  | some was, some now => was ≠ now
  | _, _ => false

end Keyed

/-! Snapshots. -/

structure WhyMissSnapshot where
  timestamp : Nat
  pkg : Bytes
  script : Bytes
  command : Bytes
  toolPath : Bytes
  toolHash : Bytes
  inputs : List (Path × Bytes)
  env : List (Bytes × Bytes)
  depAbiFps : List (Bytes × Bytes)
  deriving DecidableEq

/-- A path that is no text cannot be serialized, and then nothing is written. -/
def WhyMissSnapshot.serializes (snap : WhyMissSnapshot) : Bool :=
  snap.inputs.all fun entry => isUtf8 entry.1

/-- The log of a task, as the file keeps it. -/
def recordSnapshot (existing : List WhyMissSnapshot) (snap : WhyMissSnapshot) :
    List WhyMissSnapshot :=
  let pushed := existing ++ [snap]
  let kept := pushed.drop (pushed.length - 2)
  if kept.all WhyMissSnapshot.serializes then kept else existing

def readSnapshots (snaps : List WhyMissSnapshot) : Option (WhyMissSnapshot × WhyMissSnapshot) :=
  match snaps.drop (snaps.length - 2) with
  | [old, new] => some (old, new)
  | _ => none

/-! `print_why_miss_diff`. -/

section Diff

variable (old new : WhyMissSnapshot)

def short (hash : Bytes) : Bytes := hash.take 8

def commandSection : List Bytes :=
  if old.command ≠ new.command then
    [utf8 "  COMMAND CHANGED", utf8 "    was: " ++ old.command, utf8 "    now: " ++ new.command, []]
  else []

def toolSection : List Bytes :=
  if old.toolHash ≠ new.toolHash then
    [utf8 "  TOOL BINARY CHANGED", utf8 "    path:  " ++ new.toolPath,
      utf8 "    was:   " ++ short old.toolHash, utf8 "    now:   " ++ short new.toolHash, []]
  else []

def sortPaths (paths : List Path) : List Path :=
  paths.insertionSort fun first second => Path.le first second

def modifiedLines (path : Path) : List Bytes :=
  [utf8 "    modified: " ++ toStringLossy path,
    utf8 "      was: " ++ short ((lookupLast Path.eq old.inputs path).getD []),
    utf8 "      now: " ++ short ((lookupLast Path.eq new.inputs path).getD [])]

def inputSection : List Bytes :=
  let changed := sortPaths (changedKeys Path.eq old.inputs new.inputs)
  let added := sortPaths (addedKeys Path.eq old.inputs new.inputs)
  let removed := sortPaths (addedKeys Path.eq new.inputs old.inputs)
  if changed ≠ [] ∨ added ≠ [] ∨ removed ≠ [] then
    [utf8 "  CHANGED INPUT FILES"] ++ changed.flatMap (modifiedLines old new) ++
      added.map (fun path => utf8 "    added:    " ++ toStringLossy path) ++
      removed.map (fun path => utf8 "    removed:  " ++ toStringLossy path) ++ [[]]
  else []

def abiSection : List Bytes :=
  let changes := (changedKeys (· == ·) old.depAbiFps new.depAbiFps).insertionSort
    fun first second => ¬ second < first
  if changes ≠ [] then
    [utf8 "  DEP API CHANGED (upstream .d.ts signature changed)"] ++
      changes.map (utf8 "    " ++ ·) ++ [[]]
  else []

/-- The sections that set `any_change`. -/
def differences : List Bytes :=
  commandSection old new ++ (toolSection old new ++ (inputSection old new ++ abiSection old new))

def printWhyMissDiff : List Bytes :=
  if differences old new = [] then
    [utf8 "  (no differences found between the two snapshots)",
      utf8 "  Note: the cache miss may be due to pathset changes (sandbox-observed reads)"]
  else differences old new

end Diff

/-! Runs. -/

/-- `fs` is what the fingerprint finds on the disk, `snapshotFs` what the snapshot finds. -/
structure Run where
  timestamp : Nat
  pkg : Bytes
  script : Bytes
  command : Bytes
  toolPath : Path
  cwd : Path
  declaredInputGlobs : List Bytes
  depAbiFps : List (Bytes × Bytes)
  fs : FileSystem
  snapshotFs : FileSystem

namespace Run

variable (crates : Crates) (run first second : Run)

def inputs : WeakFpInputs where
  command := run.command
  toolPath := run.toolPath
  packagePath := run.cwd
  declaredInputGlobs := run.declaredInputGlobs
  trackedEnv := []
  depAbiFingerprints := run.depAbiFps

def weakFingerprint : Bytes := computeWeakFingerprint crates run.fs run.inputs

def snapshot : WhyMissSnapshot where
  timestamp := run.timestamp
  pkg := run.pkg
  script := run.script
  command := run.command
  toolPath := toStringLossy run.toolPath
  toolHash := (hashToolBinary crates run.snapshotFs run.toolPath).getD (utf8 "<missing>")
  inputs := resolveGlobs crates run.snapshotFs run.cwd run.declaredInputGlobs
  env := []
  depAbiFps := run.depAbiFps

end Run

/-- The recorded fields that enter a fingerprint. -/
structure SameRecorded (old new : WhyMissSnapshot) : Prop where
  command : old.command = new.command
  toolPath : old.toolPath = new.toolPath
  toolHash : old.toolHash = new.toolHash
  inputs : old.inputs = new.inputs
  env : old.env = new.env
  depAbiFps : old.depAbiFps = new.depAbiFps

/-- A changed fingerprint is explained, and nothing is explained where nothing has changed. -/
structure Explains (crates : Crates) (first second : Run) : Prop where
  changed : first.weakFingerprint crates ≠ second.weakFingerprint crates →
    differences (first.snapshot crates) (second.snapshot crates) ≠ []
  unchanged : SameRecorded (first.snapshot crates) (second.snapshot crates) →
    differences (first.snapshot crates) (second.snapshot crates) = []

/-- What the report looks at: the command, the hash of the tool, the hash of each input, and the
ABI of each dependency that both snapshots have. -/
def Differ (old new : WhyMissSnapshot) : Prop :=
  old.command ≠ new.command ∨ old.toolHash ≠ new.toolHash ∨
    (∃ path, lookupLast Path.eq old.inputs path ≠ lookupLast Path.eq new.inputs path) ∨
    ∃ dep was now, lookupLast (· == ·) old.depAbiFps dep = some was ∧
      lookupLast (· == ·) new.depAbiFps dep = some now ∧ was ≠ now

/-! The map that the entries make.  Keys are the same where `rep` is. -/

section Keyed

variable {κ ν γ : Type} {same : κ → κ → Bool} {rep : κ → γ}
  (same_iff : ∀ first second, same first second = true ↔ rep first = rep second)

include same_iff

theorem lookupLast_congr (entries : List (κ × ν)) {key other : κ} (alike : rep key = rep other) :
    lookupLast same entries key = lookupLast same entries other := by
  unfold lookupLast
  congr 2
  funext entry
  rw [Bool.eq_iff_iff, same_iff, same_iff, alike]

theorem mem_keysOf (entries : List (κ × ν)) (key : κ) :
    (∃ kept ∈ keysOf same entries, rep kept = rep key) ↔ ∃ entry ∈ entries, rep entry.1 = rep key := by
  induction entries using List.reverseRecOn with
  | nil => simp [keysOf]
  | append_singleton entries last ih =>
      rw [keysOf, List.foldl_append, List.foldl_cons, List.foldl_nil, ← keysOf]
      have whole : (∃ entry ∈ entries ++ [last], rep entry.1 = rep key) ↔
          (∃ entry ∈ entries, rep entry.1 = rep key) ∨ rep last.1 = rep key := by
        simp [or_and_right, exists_or]
      rw [whole, ← ih]
      split
      · rename_i present
        obtain ⟨kept, member, alike⟩ := List.any_eq_true.mp present
        constructor
        · exact Or.inl
        · rintro (earlier | isLast)
          · exact earlier
          · exact ⟨kept, member, ((same_iff _ _).mp alike).symm.trans isLast⟩
      · simp [or_and_right, exists_or]

theorem lookupLast_isSome (entries : List (κ × ν)) (key : κ) :
    (lookupLast same entries key).isSome = true ↔ ∃ kept ∈ keysOf same entries, rep kept = rep key := by
  rw [mem_keysOf same_iff, lookupLast, Option.isSome_map, List.find?_isSome]
  simp only [List.mem_reverse, same_iff]

theorem addedKeys_ne_nil (old new : List (κ × ν)) : addedKeys same old new ≠ [] ↔
    ∃ key, lookupLast same old key = none ∧ (lookupLast same new key).isSome = true := by
  unfold addedKeys
  constructor
  · intro some_
    obtain ⟨key, member⟩ := List.exists_mem_of_ne_nil _ some_
    obtain ⟨isKey, isAbsent⟩ := List.mem_filter.mp member
    exact ⟨key, Option.isNone_iff_eq_none.mp isAbsent,
      (lookupLast_isSome same_iff new key).mpr ⟨key, isKey, rfl⟩⟩
  · rintro ⟨key, isAbsent, isSome⟩
    obtain ⟨kept, member, alike⟩ := (lookupLast_isSome same_iff new key).mp isSome
    refine List.ne_nil_of_mem (List.mem_filter.mpr ⟨member, ?_⟩)
    rw [lookupLast_congr same_iff old alike, isAbsent]
    rfl

variable [DecidableEq ν]

theorem changedKeys_ne_nil (old new : List (κ × ν)) : changedKeys same old new ≠ [] ↔
    ∃ key was now, lookupLast same old key = some was ∧ lookupLast same new key = some now ∧
      was ≠ now := by
  unfold changedKeys
  constructor
  · intro some_
    obtain ⟨key, member⟩ := List.exists_mem_of_ne_nil _ some_
    have differ := (List.mem_filter.mp member).2
    split at differ
    · rename_i was now isOld isNew
      exact ⟨key, was, now, isOld, isNew, by simpa using differ⟩
    · simp at differ
  · rintro ⟨key, was, now, isOld, isNew, differ⟩
    obtain ⟨kept, member, alike⟩ := (lookupLast_isSome same_iff new key).mp (by simp [isNew])
    refine List.ne_nil_of_mem (List.mem_filter.mpr ⟨member, ?_⟩)
    rw [lookupLast_congr same_iff old alike, lookupLast_congr same_iff new alike, isOld, isNew]
    simpa using differ

/-- The maps differ when a key is changed, added or removed. -/
theorem lookupLast_ne_iff (old new : List (κ × ν)) :
    (changedKeys same old new ≠ [] ∨ addedKeys same old new ≠ [] ∨ addedKeys same new old ≠ []) ↔
      ∃ key, lookupLast same old key ≠ lookupLast same new key := by
  rw [changedKeys_ne_nil same_iff, addedKeys_ne_nil same_iff, addedKeys_ne_nil same_iff]
  constructor
  · rintro (⟨key, was, now, isOld, isNew, differ⟩ | ⟨key, isOld, isNew⟩ | ⟨key, isNew, isOld⟩)
    · exact ⟨key, by simpa [isOld, isNew] using differ⟩
    · refine ⟨key, fun equal => ?_⟩
      simp [← equal, isOld] at isNew
    · refine ⟨key, fun equal => ?_⟩
      simp [equal, isNew] at isOld
  · rintro ⟨key, differ⟩
    cases isOld : lookupLast same old key with
    | none =>
        cases isNew : lookupLast same new key with
        | none => simp [isOld, isNew] at differ
        | some now => exact Or.inr (Or.inl ⟨key, isOld, by simp [isNew]⟩)
    | some was =>
        cases isNew : lookupLast same new key with
        | none => exact Or.inr (Or.inr ⟨key, isNew, by simp [isOld]⟩)
        | some now => exact Or.inl ⟨key, was, now, isOld, isNew, by simpa [isOld, isNew] using differ⟩

end Keyed

theorem path_same (first second : Path) :
    Path.eq first second = true ↔ components first = components second := Path.eq_iff

theorem text_same (first second : Bytes) : (first == second) = true ↔ id first = id second := by
  simp

/-! Sections. -/

theorem sort_ne_nil {α : Type} (before : α → α → Prop) [DecidableRel before] (list : List α) :
    list.insertionSort before ≠ [] ↔ list ≠ [] := by
  rw [ne_eq, ne_eq, ← List.length_eq_zero_iff, List.length_insertionSort, List.length_eq_zero_iff]

section Sections

variable (old new : WhyMissSnapshot)

theorem commandSection_ne_nil : commandSection old new ≠ [] ↔ old.command ≠ new.command := by
  unfold commandSection
  split <;> simp_all

theorem toolSection_ne_nil : toolSection old new ≠ [] ↔ old.toolHash ≠ new.toolHash := by
  unfold toolSection
  split <;> simp_all

theorem inputSection_ne_nil : inputSection old new ≠ [] ↔
    ∃ path, lookupLast Path.eq old.inputs path ≠ lookupLast Path.eq new.inputs path := by
  rw [← lookupLast_ne_iff path_same]
  unfold inputSection sortPaths
  simp only [sort_ne_nil]
  split
  · rename_i some_
    simp [some_]
  · rename_i none_
    simp [none_]

theorem abiSection_ne_nil : abiSection old new ≠ [] ↔
    ∃ dep was now, lookupLast (· == ·) old.depAbiFps dep = some was ∧
      lookupLast (· == ·) new.depAbiFps dep = some now ∧ was ≠ now := by
  rw [← changedKeys_ne_nil text_same]
  unfold abiSection
  simp only [sort_ne_nil]
  split
  · rename_i some_
    simp [some_]
  · rename_i none_
    simp [none_]

theorem differences_ne_nil : differences old new ≠ [] ↔ Differ old new := by
  rw [Differ, ← commandSection_ne_nil, ← toolSection_ne_nil, ← inputSection_ne_nil,
    ← abiSection_ne_nil]
  unfold differences
  simp only [ne_eq, List.append_eq_nil_iff, not_and_or]

end Sections

theorem SameRecorded.not_differ {old new : WhyMissSnapshot} (same : SameRecorded old new) :
    ¬ Differ old new := by
  rintro (command | toolHash | ⟨path, differ⟩ | ⟨dep, was, now, isOld, isNew, differ⟩)
  · exact command same.command
  · exact toolHash same.toolHash
  · exact differ (by rw [same.inputs])
  · rw [same.depAbiFps, isNew] at isOld
    exact differ (Option.some.inj isOld).symm

/-! The log. -/

def lastTwo (snaps : List WhyMissSnapshot) : List WhyMissSnapshot := snaps.drop (snaps.length - 2)

theorem lastTwo_append (snaps : List WhyMissSnapshot) (snap : WhyMissSnapshot) :
    lastTwo (lastTwo snaps ++ [snap]) = lastTwo (snaps ++ [snap]) := by
  unfold lastTwo
  rw [← List.drop_append_of_le_length (by omega), List.drop_drop]
  congr 1
  simp only [List.length_drop, List.length_append, List.length_singleton]
  omega

theorem lastTwo_snoc (snaps : List WhyMissSnapshot) (snap : WhyMissSnapshot) :
    ∃ earlier, lastTwo (snaps ++ [snap]) = earlier ++ [snap] := by
  refine ⟨snaps.drop ((snaps ++ [snap]).length - 2), ?_⟩
  unfold lastTwo
  rw [List.drop_append_of_le_length]
  simp only [List.length_append, List.length_singleton]
  omega

/-- The log holds the last two of the snapshots that can be written. -/
theorem log_eq (history : List WhyMissSnapshot) :
    history.foldl recordSnapshot [] = lastTwo (history.filter WhyMissSnapshot.serializes) := by
  induction history using List.reverseRecOn with
  | nil => rfl
  | append_singleton history snap ih =>
      rw [List.foldl_append, List.foldl_cons, List.foldl_nil, ih, List.filter_append]
      have next := lastTwo_append (history.filter WhyMissSnapshot.serializes) snap
      show (if (lastTwo (lastTwo _ ++ [snap])).all WhyMissSnapshot.serializes then
        lastTwo (lastTwo _ ++ [snap]) else _) = _
      rw [next]
      by_cases writes : snap.serializes = true
      · rw [List.filter_cons_of_pos writes, List.filter_nil, if_pos]
        refine List.all_eq_true.mpr fun old member => ?_
        rcases List.mem_append.mp (List.mem_of_mem_drop member) with earlier | isLast
        · exact (List.mem_filter.mp earlier).2
        · rwa [List.mem_singleton.mp isLast]
      · rw [List.filter_cons_of_neg writes, List.filter_nil, List.append_nil, if_neg]
        intro all
        obtain ⟨earlier, isLast⟩ :=
          lastTwo_snoc (history.filter WhyMissSnapshot.serializes) snap
        rw [isLast, List.all_eq_true] at all
        exact writes (all snap (by simp))

/-- Two snapshots that are compared are the last two that could be written. -/
theorem readSnapshots_runs {history : List WhyMissSnapshot} {old new : WhyMissSnapshot}
    (read : readSnapshots (history.foldl recordSnapshot []) = some (old, new)) :
    ∃ earlier, history.filter WhyMissSnapshot.serializes = earlier ++ [old, new] := by
  rw [log_eq] at read
  have short_ : (lastTwo (history.filter WhyMissSnapshot.serializes)).length - 2 = 0 := by
    simp only [lastTwo, List.length_drop]
    omega
  unfold readSnapshots at read
  rw [short_, List.drop_zero] at read
  split at read
  · rename_i first second isPair
    obtain ⟨rfl, rfl⟩ := Prod.mk.inj (Option.some.inj read)
    rw [← isPair]
    exact ⟨_, (List.take_append_drop _ _).symm⟩
  · simp at read

/-- A change is explained when the report looks at it, or when the fingerprint hashes the same. -/
theorem explains_iff (crates : Crates) (ideal : crates.Ideal) (first second : Run) :
    Explains crates first second ↔ Differ (first.snapshot crates) (second.snapshot crates) ∨
      Lookalike crates first.fs second.fs first.inputs second.inputs ∨
      Framing.MovedTerminator newline (weakLines crates first.fs first.inputs)
        (weakLines crates second.fs second.inputs) := by
  rw [← computeWeakFingerprint_eq_iff ideal]
  constructor
  · intro explains
    by_cases same : computeWeakFingerprint crates first.fs first.inputs =
        computeWeakFingerprint crates second.fs second.inputs
    · exact Or.inr same
    · exact Or.inl ((differences_ne_nil _ _).mp (explains.changed same))
  · intro explained
    constructor
    · intro changed
      exact (differences_ne_nil _ _).mpr (explained.resolve_right changed)
    · intro same
      exact not_not.mp fun reported => same.not_differ ((differences_ne_nil _ _).mp reported)

/-! Two runs of one package. -/

abbrev runWith (tool : String) (depAbiFps : List (Bytes × Bytes)) : Run where
  timestamp := 0
  pkg := utf8 "app"
  script := utf8 "build"
  command := utf8 "tsc"
  toolPath := utf8 tool
  cwd := utf8 "/w/app"
  declaredInputGlobs := []
  depAbiFps := depAbiFps
  fs := ⟨[]⟩
  snapshotFs := ⟨[]⟩

theorem explains_iff_alike : Explains .plain (runWith "tsc" []) (runWith "tsc" []) :=
  (explains_iff .plain Crates.plain_ideal (runWith "tsc" []) (runWith "tsc" [])).mpr
    (Or.inr (Or.inl ⟨rfl, rfl, rfl, rfl, rfl, rfl, rfl⟩))

/-- A dependency whose ABI appears, or a tool that moves, changes the fingerprint; nothing is
reported. -/
theorem silent_changes :
    ¬ Explains .plain (runWith "tsc" []) (runWith "tsc" [(utf8 "core", utf8 "ff")]) ∧
      ¬ Explains .plain (runWith "tsc" [(utf8 "core", utf8 "ff")]) (runWith "tsc" []) ∧
      ¬ Explains .plain (runWith "/usr/bin/tsc" []) (runWith "/opt/bin/tsc" []) := by
  refine ⟨fun explains => ?_, fun explains => ?_, fun explains => ?_⟩
  · exact explains.changed (by decide +kernel) (by decide +kernel)
  · exact explains.changed (by decide +kernel) (by decide +kernel)
  · exact explains.changed (by decide +kernel) (by decide +kernel)

end Rage.WhyMiss
