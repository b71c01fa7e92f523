import Rage.ArtifactStore
import Rage.PackageTask

/-!
The root task: its fingerprint, the install marker, and the ways in which a run ends: on the
marker, by a restore, or by the install command.
-/

namespace Rage

def nul : Bytes := [0]

def rootTaskText (fs : FileSystem) (task : Task) : Bytes :=
  utf8 "rage.root-task.v2" ++ nul ++ task.command ++ nul ++
  (task.inputPaths.flatMap fun path =>
    match fs.read path with
    | some bytes => utf8 "present:" ++ toStringLossy path ++ nul ++ bytes
    | none => utf8 "missing:" ++ toStringLossy path ++ nul) ++
  (sortByKey task.envHashInputs).flatMap fun pair =>
    utf8 "env:" ++ pair.1 ++ utf8 "=" ++ pair.2 ++ nul

def rootTaskFingerprint (crates : Crates) (fs : FileSystem) (task : Task) : Bytes :=
  hex (crates.blake3 (rootTaskText fs task))

/-! The methods of the plugin that the root task calls. -/

structure EcosystemPlugin where
  verifyInstallEffects : FileSystem → Path → Bool
  parseLockfile : FileSystem → Path → Option (List LockfilePackage)
  restoreFromCas : ArtifactStore → Path → List LockfilePackage → FileSystem → Bool × FileSystem

/-- The TypeScript plugin, with the lockfile parser and the archive readers as parameters. -/
def typeScriptPlugin (crates : Crates) (archives : Archives)
    (parseLockfile : FileSystem → Path → Option (List LockfilePackage)) : EcosystemPlugin where
  verifyInstallEffects := verifyInstallEffects
  parseLockfile := parseLockfile
  restoreFromCas := restoreFromCas crates archives

/-! The disk, the install markers `root-{fp}.done`, the artifact store and the directories
`artifact-packages/{fp}`. -/

structure InstallState where
  fs : FileSystem
  markers : List Bytes
  store : ArtifactStore
  dirs : Bytes → Option ArtifactDir

/-! What the outside does in one run: the install command (its exit code and the disk after it,
`none` when the shell cannot be spawned), the package manager's cache, the packages that a walk
over `node_modules` finds, and the effects of the bin links and the postinstall scripts. -/

structure RootEffects where
  install : Option (Int × FileSystem)
  pmCache : Bytes → Bytes → Option Bytes
  walked : List PathsetPackageRef
  binLinks : FileSystem → FileSystem
  postinstall : FileSystem × ArtifactStore → FileSystem × ArtifactStore

/-- How a run ended.  A restore keeps the disk as it left it; an install that cannot be spawned
says whether a restore had been tried before. -/
inductive RootOutcome
  | cached
  | restoredLockfile (disk : FileSystem)
  | restoredFiles (disk : FileSystem)
  | installed
  | failed (exitCode : Int)
  | spawnError (afterRestore : Bool)

section

variable (crates : Crates) (plugin : EcosystemPlugin)

def runPostinstallPhase (effects : RootEffects) (state : InstallState) : InstallState :=
  let after := effects.postinstall (state.fs, state.store)
  { state with fs := after.1, store := after.2 }

/-- The first restore strategy: the whole lockfile must be in the store. -/
def lockfileRestore (state : InstallState) (workspaceRoot : Path) : Bool × FileSystem :=
  match plugin.parseLockfile state.fs workspaceRoot with
  | none => (false, state.fs)
  | some packages =>
      if (packages.all fun package =>
          state.store.containsKey (computeCasKey crates package.integrity)) && !packages.isEmpty then
        plugin.restoreFromCas state.store workspaceRoot packages state.fs
      else (false, state.fs)

def captureAll (fs : FileSystem) (refs : List PathsetPackageRef) (dir : ArtifactDir)
    (store : ArtifactStore) : ArtifactDir × ArtifactStore :=
  refs.foldl (fun state ref =>
    let filename := packageFilename ref.name ref.version
    if hasEntry state.1 filename then state
    else
      let captured := capturePackage crates fs state.2 ref
      (state.1 ++ [(filename, .artifact captured.1)], captured.2)) (dir, store)

def captureInstall (state : InstallState) (fp : Bytes) (workspaceRoot : Path)
    (effects : RootEffects) : InstallState :=
  match plugin.parseLockfile state.fs workspaceRoot with
  | some packages =>
      { state with
        store := captureFromLockfilePackages crates effects.pmCache packages state.store }
  | none =>
      let captured := captureAll crates state.fs effects.walked ((state.dirs fp).getD [])
        state.store
      { state with
        store := captured.2, dirs := Function.update state.dirs fp (some captured.1) }

def runInstall (state : InstallState) (fp : Bytes) (workspaceRoot : Path)
    (effects : RootEffects) (afterRestore : Bool) : RootOutcome × InstallState :=
  match effects.install with
  | none => (.spawnError afterRestore, state)
  | some (exitCode, fs) =>
      if exitCode = 0 then
        let captured := captureInstall crates plugin { state with fs := fs } fp workspaceRoot effects
        let marked := { captured with markers := fp :: captured.markers }
        (.installed, runPostinstallPhase effects marked)
      else (.failed exitCode, { state with fs := fs })

/-- A marker without its effects: restore, or drop the marker and install. -/
def runRestore (state : InstallState) (fp : Bytes) (workspaceRoot : Path)
    (effects : RootEffects) : RootOutcome × InstallState :=
  let fromLockfile := lockfileRestore crates plugin state workspaceRoot
  let extracted := { state with fs := fromLockfile.2 }
  if fromLockfile.1 then
    (.restoredLockfile extracted.fs,
      runPostinstallPhase effects { extracted with fs := effects.binLinks extracted.fs })
  else
    let fromFiles := tryRestoreFromCas (state.dirs fp) workspaceRoot state.store extracted.fs
    let linked := { state with fs := fromFiles.2 }
    match fromFiles.1 with
    | some true =>
        (.restoredFiles linked.fs,
          runPostinstallPhase effects { linked with fs := effects.binLinks linked.fs })
    | _ =>
        runInstall crates plugin { linked with markers := linked.markers.filter (· ≠ fp) } fp
          workspaceRoot effects true

def runRootTaskTwoPhase (state : InstallState) (task : Task) (effects : RootEffects) :
    RootOutcome × InstallState :=
  let fp := rootTaskFingerprint crates state.fs task
  if state.markers.contains fp then
    if plugin.verifyInstallEffects state.fs task.workspaceRoot then
      (.cached, runPostinstallPhase effects state)
    else runRestore crates plugin state fp task.workspaceRoot effects
  else runInstall crates plugin state fp task.workspaceRoot effects false

end

/-! Whether a run worked on `node_modules` for its fingerprint, and whether it completed that. -/

def RootOutcome.touched : RootOutcome → Option Bool
  | .cached => none
  | .restoredLockfile _ => some true
  | .restoredFiles _ => some true
  | .installed => some true
  | .failed _ => some false
  | .spawnError afterRestore => if afterRestore then some false else none

def RootOutcome.restored : RootOutcome → Option FileSystem
  | .restoredLockfile disk => some disk
  | .restoredFiles disk => some disk
  | _ => none

def RootOutcome.isCached : RootOutcome → Bool
  | .cached => true
  | _ => false

section

variable {crates : Crates} {plugin : EcosystemPlugin}

theorem runPostinstallPhase_markers (effects : RootEffects) (state : InstallState) :
    (runPostinstallPhase effects state).markers = state.markers := rfl

theorem captureInstall_markers (state : InstallState) (fp : Bytes) (workspaceRoot : Path)
    (effects : RootEffects) :
    (captureInstall crates plugin state fp workspaceRoot effects).markers = state.markers := by
  unfold captureInstall
  split
  · rfl
  · rfl

/-- What a run does to the markers, by the way in which it works on `node_modules`. -/
inductive MarkerEffect (fp : Bytes) (before after : List Bytes) : Option Bool → Prop
  | idle (same : ∀ marker ∈ after, marker ∈ before) : MarkerEffect fp before after none
  | completed (others : ∀ marker ∈ after, marker ∈ before ∨ marker = fp) :
      MarkerEffect fp before after (some true)
  | failed (others : ∀ marker ∈ after, marker ∈ before) (unmarked : fp ∉ after) :
      MarkerEffect fp before after (some false)

theorem runInstall_markers (crates : Crates) (plugin : EcosystemPlugin) (state : InstallState) (fp : Bytes) (workspaceRoot : Path)
    (effects : RootEffects) (afterRestore : Bool) (before : List Bytes)
    (unmarked : fp ∉ state.markers) (within : ∀ marker ∈ state.markers, marker ∈ before) :
    MarkerEffect fp before
      (runInstall crates plugin state fp workspaceRoot effects afterRestore).2.markers
      (runInstall crates plugin state fp workspaceRoot effects afterRestore).1.touched := by
  unfold runInstall
  cases effects.install with
  | none =>
      cases afterRestore with
      | false => exact .idle within
      | true => exact .failed within unmarked
  | some answer =>
      obtain ⟨exitCode, fs⟩ := answer
      by_cases success : exitCode = 0
      · simp only [success, ↓reduceIte, runPostinstallPhase_markers, captureInstall_markers]
        refine .completed fun marker member => ?_
        rcases List.mem_cons.mp member with here | older
        · exact Or.inr here
        · exact Or.inl (within marker older)
      · simp only [success, ↓reduceIte]
        exact .failed within unmarked

/-- A restore ends on the lockfile's archives, on the captured files, or in an install. -/
theorem runRestore_cases (crates : Crates) (plugin : EcosystemPlugin) (state : InstallState)
    (fp : Bytes) (workspaceRoot : Path) (effects : RootEffects) :
    (∃ fs, lockfileRestore crates plugin state workspaceRoot = (true, fs) ∧
      runRestore crates plugin state fp workspaceRoot effects =
        (.restoredLockfile fs,
          runPostinstallPhase effects { state with fs := effects.binLinks fs })) ∨
    (∃ extracted fs, lockfileRestore crates plugin state workspaceRoot = (false, extracted) ∧
      tryRestoreFromCas (state.dirs fp) workspaceRoot state.store extracted = (some true, fs) ∧
      runRestore crates plugin state fp workspaceRoot effects =
        (.restoredFiles fs,
          runPostinstallPhase effects { state with fs := effects.binLinks fs })) ∨
    ∃ fs, runRestore crates plugin state fp workspaceRoot effects =
      runInstall crates plugin { state with fs := fs, markers := state.markers.filter (· ≠ fp) } fp
        workspaceRoot effects true := by
  simp only [runRestore]
  obtain ⟨fromLockfile, extracted⟩ := lockfileRestore crates plugin state workspaceRoot
  cases fromLockfile with
  | true => exact Or.inl ⟨extracted, rfl, rfl⟩
  | false =>
      right
      cases linked : tryRestoreFromCas (state.dirs fp) workspaceRoot state.store extracted with
      | mk fromFiles fs =>
          rcases fromFiles with _ | _ | _
          · exact Or.inr ⟨fs, rfl⟩
          · exact Or.inr ⟨fs, rfl⟩
          · exact Or.inl ⟨extracted, fs, rfl, linked, rfl⟩

theorem runRestore_markers (crates : Crates) (plugin : EcosystemPlugin) (state : InstallState) (fp : Bytes) (workspaceRoot : Path)
    (effects : RootEffects) :
    MarkerEffect fp state.markers
      (runRestore crates plugin state fp workspaceRoot effects).2.markers
      (runRestore crates plugin state fp workspaceRoot effects).1.touched := by
  have kept : ∀ marker ∈ state.markers, marker ∈ state.markers ∨ marker = fp :=
    fun _ member => Or.inl member
  have installs (fs : FileSystem) := runInstall_markers crates plugin
    { state with fs := fs, markers := state.markers.filter (· ≠ fp) } fp workspaceRoot effects
    true state.markers (by simp) (fun marker member => (List.mem_filter.mp member).1)
  rcases runRestore_cases crates plugin state fp workspaceRoot effects with
    ⟨_, _, ended⟩ | ⟨_, _, _, _, ended⟩ | ⟨fs, ended⟩
  · rw [ended]
    exact .completed kept
  · rw [ended]
    exact .completed kept
  · rw [ended]
    exact installs fs

theorem runRootTask_markers (crates : Crates) (plugin : EcosystemPlugin) (state : InstallState) (task : Task) (effects : RootEffects) :
    MarkerEffect (rootTaskFingerprint crates state.fs task) state.markers
      (runRootTaskTwoPhase crates plugin state task effects).2.markers
      (runRootTaskTwoPhase crates plugin state task effects).1.touched := by
  unfold runRootTaskTwoPhase
  simp only
  split
  · split
    · exact .idle fun _ member => member
    · exact runRestore_markers _ _ _ _ _ _
  · rename_i unmarked
    exact runInstall_markers _ _ _ _ _ _ _ _ (by simpa using unmarked) fun _ member => member

/-- The fast path is taken on the marker of the fingerprint. -/
theorem runRootTask_cached {state : InstallState} {task : Task} {effects : RootEffects}
    (cached : (runRootTaskTwoPhase crates plugin state task effects).1.isCached = true) :
    rootTaskFingerprint crates state.fs task ∈ state.markers := by
  by_contra unmarked
  unfold runRootTaskTwoPhase runInstall at cached
  simp only [List.contains_iff_mem, unmarked, if_false] at cached
  split at cached
  · simp [RootOutcome.isCached] at cached
  · split at cached
    · simp [RootOutcome.isCached] at cached
    · simp [RootOutcome.isCached] at cached

end

/-! An install task, for concrete histories. -/

namespace Sample

def lockfile : Path := utf8 "/ws/pnpm-lock.yaml"

def install : Task :=
  { task .strict [] with
    packageName := utf8 "workspace", scriptName := utf8 "install", command := utf8 "pnpm install"
    cwd := utf8 "/ws", isRoot := true, inputPaths := [lockfile] }

def noArchives : Archives := ⟨fun _ => ([], false), fun _ => ([], false)⟩

end Sample

end Rage
