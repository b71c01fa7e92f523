import Rage.PackageTask
import Rage.RootTask

/-!
The keys of one workspace in a shared cache directory.  Weak and strong fingerprints contain the
package path and root fingerprints the path of the lockfile; ABI fingerprints go by package name.
-/

namespace Rage

def InWorkspace (workspace path : Path) : Prop :=
  path = workspace ∨ workspace ++ [slash] <+: path

instance (workspace path : Path) : Decidable (InWorkspace workspace path) := by
  unfold InWorkspace
  infer_instance

/-- The install task of a workspace: its first input is the lockfile in the root. -/
structure RootedTask (workspace : Path) (task : Task) : Prop where
  command : (0 : UInt8) ∉ task.command
  lockfile : ∃ name rest, task.inputPaths = (workspace ++ slash :: name) :: rest ∧
    slash ∉ name ∧ (0 : UInt8) ∉ workspace ++ slash :: name ∧
    isUtf8 (workspace ++ slash :: name) = true

section Keys

variable (crates : Crates) (mine : Path)

def OwnRoot (fp : Bytes) : Prop :=
  ∃ fs task, RootedTask mine task ∧ fp = rootTaskFingerprint crates fs task

def OwnWeak (weakFp : Bytes) : Prop :=
  ∃ fs inputs, (WeakFpInputs.seen crates inputs fs).Plain ∧ InWorkspace mine inputs.packagePath ∧
    weakFp = computeWeakFingerprint crates fs inputs

def OwnStrong (strongFp : Bytes) : Prop :=
  ∃ fs weakFp reads, OwnWeak crates mine weakFp ∧
    strongFp = computeStrongFingerprint crates fs weakFp reads

variable {crates mine}

theorem rootTaskText_lockfile (fs : FileSystem) {task : Task} {path : Path} {rest : List Path}
    (inputs : task.inputPaths = path :: rest) (valid : isUtf8 path = true) :
    ∃ tag after, rootTaskText fs task =
        utf8 "rage.root-task.v2" ++ nul ++ (task.command ++ 0 :: (tag ++ path ++ 0 :: after)) ∧
      tag.length = 8 ∧ (0 : UInt8) ∉ tag := by
  have spelled := isUtf8_lossy valid
  simp only [rootTaskText, inputs, List.flatMap_cons]
  generalize (rest.flatMap fun path => _) = inputsText
  generalize ((sortByKey task.envHashInputs).flatMap fun pair => _) = envText
  cases fs.read path with
  | some bytes =>
      refine ⟨utf8 "present:", bytes ++ inputsText ++ envText, ?_, by decide, by decide⟩
      simp [spelled, nul]
  | none =>
      refine ⟨utf8 "missing:", inputsText ++ envText, ?_, by decide, by decide⟩
      simp [spelled, nul]

theorem rootTaskFingerprint_workspace (ideal : crates.Ideal) {first second : Path}
    {fs now : FileSystem} {task other : Task} (rooted : RootedTask first task)
    (otherRooted : RootedTask second other)
    (same : rootTaskFingerprint crates fs task = rootTaskFingerprint crates now other) :
    first = second := by
  obtain ⟨name, rest, inputs, plainName, plainPath, valid⟩ := rooted.lockfile
  obtain ⟨otherName, otherRest, otherInputs, otherPlainName, otherPlainPath, otherValid⟩ :=
    otherRooted.lockfile
  have texts := ideal.injective (hex_injective same)
  obtain ⟨tag, after, isText, tagLength, plainTag⟩ := rootTaskText_lockfile fs inputs valid
  obtain ⟨otherTag, otherAfter, isOther, otherLength, otherPlainTag⟩ :=
    rootTaskText_lockfile now otherInputs otherValid
  rw [isText, isOther] at texts
  have bodies := Framing.split_at_first rooted.command otherRooted.command
    (List.append_cancel_left texts)
  have plainField : (0 : UInt8) ∉ tag ++ (first ++ slash :: name) := by
    rw [List.mem_append, not_or]
    exact ⟨plainTag, plainPath⟩
  have otherPlainField : (0 : UInt8) ∉ otherTag ++ (second ++ slash :: otherName) := by
    rw [List.mem_append, not_or]
    exact ⟨otherPlainTag, otherPlainPath⟩
  have fields := (Framing.split_at_first plainField otherPlainField bodies.2).1
  have paths := (List.append_inj fields (tagLength.trans otherLength.symm)).2
  exact (Framing.split_at_last plainName otherPlainName paths).1

theorem ownRoot_iff (ideal : crates.Ideal) {workspace : Path} {task : Task} (fs : FileSystem)
    (rooted : RootedTask workspace task) :
    OwnRoot crates mine (rootTaskFingerprint crates fs task) ↔ workspace = mine := by
  constructor
  · rintro ⟨now, other, otherRooted, same⟩
    exact rootTaskFingerprint_workspace ideal rooted otherRooted same
  · rintro rfl
    exact ⟨fs, task, rooted, rfl⟩

theorem ownWeak_iff (ideal : crates.Ideal) {fs : FileSystem} {inputs : WeakFpInputs}
    (plain : (inputs.seen crates fs).Plain) :
    OwnWeak crates mine (computeWeakFingerprint crates fs inputs) ↔
      InWorkspace mine inputs.packagePath := by
  constructor
  · rintro ⟨now, other, otherPlain, within, same⟩
    have seen := computeWeakFingerprint_injective crates ideal fs now inputs other plain otherPlain
      same
    have samePath : inputs.packagePath = other.packagePath := congrArg WeakRecord.packagePath seen
    rw [samePath]
    exact within
  · intro within
    exact ⟨fs, inputs, plain, within, rfl⟩

theorem ownStrong_iff (ideal : crates.Ideal) (fs now : FileSystem) (inputs : WeakFpInputs)
    (reads : List Path) :
    OwnStrong crates mine (computeStrongFingerprint crates fs
        (computeWeakFingerprint crates now inputs) reads) ↔
      OwnWeak crates mine (computeWeakFingerprint crates now inputs) := by
  constructor
  · rintro ⟨other, weakFp, others, ownWeak, same⟩
    obtain ⟨before, earlier, plain, within, rfl⟩ := ownWeak
    have sameWeak := computeStrongFingerprint_weak crates ideal _ _ _ _ _ _ same
    exact ⟨before, earlier, plain, within, sameWeak⟩
  · intro ownWeak
    exact ⟨fs, _, reads, ownWeak, rfl⟩

end Keys

/-! The two-phase cache: pathsets and entries go by package path, ABI fingerprints by name. -/

structure SameCache (crates : Crates) (mine : Path) (names : Bytes → Prop)
    (full alone : TwoPhaseCache) : Prop where
  pathsets : ∀ weakFp, OwnWeak crates mine weakFp →
    full.pathsetFiles weakFp = alone.pathsetFiles weakFp
  entries : ∀ strongFp, OwnStrong crates mine strongFp →
    full.entryFiles strongFp = alone.entryFiles strongFp
  published : ∀ filename, names filename →
    full.pkgAbiFiles filename = alone.pkgAbiFiles filename

section Cache

variable {crates : Crates} {mine : Path} {names : Bytes → Prop} {full alone : TwoPhaseCache}

theorem depAbiFps_same (same : SameCache crates mine names full alone) {task : Task}
    (named : ∀ dep ∈ task.depPackageNames, names (TwoPhaseCache.pkgNameToFilename dep)) :
    depAbiFps full task = depAbiFps alone task := by
  unfold depAbiFps
  apply List.filterMap_congr
  intro dep member
  simp only [TwoPhaseCache.getPkgAbiFp, same.published _ (named dep member)]

theorem lookup_same (ideal : crates.Ideal) (same : SameCache crates mine names full alone)
    {fs : FileSystem} {inputs : WeakFpInputs} (plain : (inputs.seen crates fs).Plain)
    (within : InWorkspace mine inputs.packagePath) :
    full.lookupWithPathsetReads crates fs inputs =
      alone.lookupWithPathsetReads crates fs inputs := by
  have ownWeak := (ownWeak_iff ideal plain).mpr within
  have strong (reads : List Path) := same.entries _
    ((ownStrong_iff ideal fs fs inputs reads).mpr ownWeak)
  simp only [TwoPhaseCache.lookupWithPathsetReads, TwoPhaseCache.list, same.pathsets _ ownWeak,
    strong]

theorem publishAbi_same (same : SameCache crates mine names full alone) (task : Task)
    (abiFp : Option Bytes) :
    SameCache crates mine names (publishAbi full task abiFp) (publishAbi alone task abiFp) := by
  cases abiFp with
  | none => exact same
  | some fp =>
      refine ⟨same.pathsets, same.entries, fun filename named => ?_⟩
      by_cases here : filename = TwoPhaseCache.pkgNameToFilename task.packageName
      · simp only [publishAbi, TwoPhaseCache.setPkgAbiFp, here, Function.update_self]
      · simp only [publishAbi, TwoPhaseCache.setPkgAbiFp, Function.update_of_ne here]
        exact same.published filename named

theorem publishAbi_foreign (same : SameCache crates mine names full alone) {task : Task}
    {abiFp : Option Bytes}
    (foreign : ∀ fp, abiFp = some fp → ¬ names (TwoPhaseCache.pkgNameToFilename task.packageName)) :
    SameCache crates mine names (publishAbi full task abiFp) alone := by
  cases abiFp with
  | none => exact same
  | some fp =>
      refine ⟨same.pathsets, same.entries, fun filename named => ?_⟩
      have other : filename ≠ TwoPhaseCache.pkgNameToFilename task.packageName := by
        rintro rfl
        exact foreign fp rfl named
      simp only [publishAbi, TwoPhaseCache.setPkgAbiFp, Function.update_of_ne other]
      exact same.published filename named

def recordedCache (crates : Crates) (cache : TwoPhaseCache) (call : RecordCall) : TwoPhaseCache :=
  match cache.record crates call.fs call.inputs call.pathset call.entryTemplate with
  | some (_, written) => written
  | none => cache

theorem recordedCache_same (ideal : crates.Ideal) (same : SameCache crates mine names full alone)
    {call : RecordCall} (plain : (call.inputs.seen crates call.fs).Plain)
    (within : InWorkspace mine call.inputs.packagePath) :
    SameCache crates mine names (recordedCache crates full call)
      (recordedCache crates alone call) := by
  have ownWeak := (ownWeak_iff ideal plain).mpr within
  rcases TwoPhaseCache.record_agree (same.pathsets _ ownWeak) with
    ⟨fails, aloneFails⟩ | ⟨written, aloneWritten, done, aloneDone, atKey⟩
  · simp only [recordedCache, fails, aloneFails]
    exact same
  · obtain ⟨_, entries, published, _⟩ := TwoPhaseCache.record_cases done
    obtain ⟨_, aloneEntries, alonePublished, _⟩ := TwoPhaseCache.record_cases aloneDone
    simp only [recordedCache, done, aloneDone]
    refine ⟨fun weakFp own => ?_, fun strongFp own => ?_, fun filename named => ?_⟩
    · by_cases here : weakFp = call.weakFp crates
      · rw [here, atKey]
      · rw [TwoPhaseCache.record_pathsetFiles done here,
          TwoPhaseCache.record_pathsetFiles aloneDone here]
        exact same.pathsets weakFp own
    · rw [entries, aloneEntries]
      by_cases here : strongFp = call.strongFp crates
      · rw [here, Function.update_self, Function.update_self]
      · rw [Function.update_of_ne here, Function.update_of_ne here]
        exact same.entries strongFp own
    · rw [published, alonePublished]
      exact same.published filename named

theorem recordedCache_foreign (ideal : crates.Ideal)
    (same : SameCache crates mine names full alone) {call : RecordCall}
    (plain : (call.inputs.seen crates call.fs).Plain)
    (outside : ¬ InWorkspace mine call.inputs.packagePath) :
    SameCache crates mine names (recordedCache crates full call) alone := by
  have foreignWeak : ¬ OwnWeak crates mine (call.weakFp crates) :=
    fun own => outside ((ownWeak_iff ideal plain).mp own)
  have foreignStrong : ¬ OwnStrong crates mine (call.strongFp crates) :=
    fun own => foreignWeak ((ownStrong_iff ideal _ _ _ _).mp own)
  unfold recordedCache
  split
  · rename_i strongFp written done
    obtain ⟨isKey, entries, published, _⟩ := TwoPhaseCache.record_cases done
    refine ⟨fun weakFp own => ?_, fun strongFp own => ?_, fun filename named => ?_⟩
    · have differ : weakFp ≠ call.weakFp crates := by
        rintro rfl
        exact foreignWeak own
      rw [TwoPhaseCache.record_pathsetFiles done differ]
      exact same.pathsets weakFp own
    · have differ : strongFp ≠ call.strongFp crates := by
        rintro rfl
        exact foreignStrong own
      rw [entries, isKey, Function.update_of_ne differ]
      exact same.entries strongFp own
    · rw [published]
      exact same.published filename named
  · exact same

theorem recordPhase_cache (cache : TwoPhaseCache) (task : Task) (inputs : WeakFpInputs)
    (exec : Execution) :
    (recordPhase crates cache task inputs exec).2 =
      match exec.result task.sandboxMode with
      | some (exitCode, pathset) =>
          if exitCode = 0 then
            recordedCache crates (publishAbi cache task (exec.abiFp crates task))
              (exec.call crates task inputs pathset)
          else cache
      | none => cache := by
  unfold recordPhase
  cases exec.result task.sandboxMode with
  | none => rfl
  | some result =>
      obtain ⟨exitCode, pathset⟩ := result
      by_cases success : exitCode = 0
      · simp only [success, ↓reduceIte, recordedCache]
        generalize TwoPhaseCache.record _ _ _ _ _ _ = written
        cases written with
        | none => rfl
        | some entry => rfl
      · simp only [success, ↓reduceIte]

theorem recordPhase_same (ideal : crates.Ideal) (same : SameCache crates mine names full alone)
    (task : Task) {inputs : WeakFpInputs} {exec : Execution}
    (plain : (inputs.seen crates exec.recordFs).Plain)
    (within : InWorkspace mine inputs.packagePath) :
    SameCache crates mine names (recordPhase crates full task inputs exec).2
      (recordPhase crates alone task inputs exec).2 := by
  rw [recordPhase_cache, recordPhase_cache]
  cases exec.result task.sandboxMode with
  | none => exact same
  | some result =>
      obtain ⟨exitCode, pathset⟩ := result
      by_cases success : exitCode = 0
      · simp only [success, ↓reduceIte]
        exact recordedCache_same ideal (publishAbi_same same task _) plain within
      · simp only [success, ↓reduceIte]
        exact same

theorem recordPhase_foreign (ideal : crates.Ideal)
    (same : SameCache crates mine names full alone) {task : Task} {inputs : WeakFpInputs}
    {exec : Execution} (plain : (inputs.seen crates exec.recordFs).Plain)
    (outside : ¬ InWorkspace mine inputs.packagePath)
    (unnamed : ∀ pathset, exec.result task.sandboxMode = some (0, pathset) →
      ∀ fp, exec.abiFp crates task = some fp →
        ¬ names (TwoPhaseCache.pkgNameToFilename task.packageName)) :
    SameCache crates mine names (recordPhase crates full task inputs exec).2 alone := by
  rw [recordPhase_cache]
  cases isResult : exec.result task.sandboxMode with
  | none => exact same
  | some result =>
      obtain ⟨exitCode, pathset⟩ := result
      by_cases success : exitCode = 0
      · subst exitCode
        simp only [↓reduceIte]
        exact recordedCache_foreign ideal (publishAbi_foreign same (unnamed pathset isResult))
          plain outside
      · simp only [success, ↓reduceIte]
        exact same

end Cache

end Rage
