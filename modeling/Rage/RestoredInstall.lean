import Rage.Overlay
import Rage.RootTask
import Rage.Runs

/-!
Restored installs.  What the package manager installs is a list of packages, each with the
files of its archive at its install location; a restore lays archives or captured files over
the disk, one after the other.
-/

namespace Rage

open Overlay

/-! What the two restores write. -/

section Writes

def archiveWrites (target : Path) (entries : List (Path × Option Bytes)) :
    List (Location × Bytes) :=
  entries.filterMap fun entry =>
    entry.2.map fun content => (components (target.join entry.1), content)

def packageWrites (archives : Archives) (workspaceRoot : Path) (package : LockfilePackage)
    (bytes : Bytes) : List (Location × Bytes) :=
  if isPrefix (utf8 "PK") bytes then archiveWrites workspaceRoot (archives.zip bytes).1
  else archiveWrites ((workspaceRoot.join (utf8 "node_modules")).join package.name)
    (((archives.tgz bytes).1.map fun entry => (stripPackage entry.1, entry.2)).filter
      fun entry => !entry.1.isEmpty)

def lockfileWrites (crates : Crates) (archives : Archives) (store : ArtifactStore)
    (workspaceRoot : Path) (packages : List LockfilePackage) : List (Location × Bytes) :=
  packages.flatMap fun package =>
    match store (computeCasKey crates package.integrity) with
    | some bytes => packageWrites archives workspaceRoot package bytes
    | none => []

def artifactWrites (store : ArtifactStore) (targetDir : Path) (artifact : PackageArtifact) :
    List (Location × Bytes) :=
  artifact.files.filterMap fun file =>
    (store file.2).map fun content =>
      (components ((targetDir.join artifact.name).join file.1), content)

theorem writeFile_files (fs : FileSystem) (location : Location) (content : Bytes) :
    (fs.writeFile location content).fileAt =
      Function.update fs.fileAt location (some content) := by
  funext other
  by_cases same : other = location
  · subst other
    rw [FileSystem.fileAt_writeFile_self, Function.update_self]
  · rw [FileSystem.fileAt_writeFile_of_ne fs content same, Function.update_of_ne same]

theorem extractEntries_files (target : Path) (entries : List (Path × Option Bytes))
    (fs : FileSystem) :
    (entries.foldl (extractEntry target) fs).fileAt =
      overlay fs.fileAt (archiveWrites target entries) := by
  induction entries generalizing fs with
  | nil => rfl
  | cons entry rest ih =>
      obtain ⟨name, content⟩ := entry
      rw [List.foldl_cons, ih]
      cases content with
      | none =>
          have same : (extractEntry target fs (name, none)).fileAt = fs.fileAt :=
            funext fun location => FileSystem.fileAt_createDirAll fs _ location
          simp [archiveWrites, same]
      | some bytes =>
          simp only [archiveWrites, extractEntry, writeFile_files, List.filterMap_cons,
            Option.map_some, overlay]

theorem extractPackage_files (archives : Archives) (package : LockfilePackage) (bytes : Bytes)
    (workspaceRoot : Path) (fs : FileSystem) :
    (extractPackage archives package bytes workspaceRoot fs).2.fileAt =
      overlay fs.fileAt (packageWrites archives workspaceRoot package bytes) := by
  unfold extractPackage packageWrites
  split
  · exact extractEntries_files _ _ _
  · exact extractEntries_files _ _ _

theorem restoreFromCas_files (crates : Crates) (archives : Archives) (store : ArtifactStore)
    (workspaceRoot : Path) (packages : List LockfilePackage) (fs : FileSystem) :
    (restoreFromCas crates archives store workspaceRoot packages fs).2.fileAt =
      overlay fs.fileAt (lockfileWrites crates archives store workspaceRoot packages) := by
  induction packages generalizing fs with
  | nil => rfl
  | cons package rest ih =>
      cases stored : store (computeCasKey crates package.integrity) with
      | none =>
          simp only [restoreFromCas, lockfileWrites, stored, List.flatMap_cons, List.nil_append]
          exact ih fs
      | some bytes =>
          simp only [restoreFromCas, lockfileWrites, stored, List.flatMap_cons, overlay_append]
          rw [ih, extractPackage_files]
          rfl

theorem restoreFiles_files (store : ArtifactStore) (packageRoot : Path)
    (files : List (Path × Bytes)) {fs restored : FileSystem}
    (done : restoreFiles store packageRoot files fs = some restored) :
    restored.fileAt = overlay fs.fileAt (files.filterMap fun file =>
      (store file.2).map fun content => (components (packageRoot.join file.1), content)) := by
  induction files generalizing fs with
  | nil =>
      simp only [restoreFiles, Option.some.injEq] at done
      rw [← done]
      rfl
  | cons file rest ih =>
      obtain ⟨rel, hash⟩ := file
      simp only [restoreFiles] at done
      obtain ⟨linked, isLinked, later⟩ := Option.bind_eq_some_iff.mp done
      obtain ⟨content, stored, rfl⟩ := Option.map_eq_some_iff.mp isLinked
      rw [ih later, writeFile_files]
      simp only [List.filterMap_cons, stored, Option.map_some, overlay]

theorem restorePackages_files (store : ArtifactStore) (targetDir : Path)
    (artifacts : List PackageArtifact) {fs restored : FileSystem}
    (done : restorePackages store targetDir artifacts fs = some restored) :
    restored.fileAt = overlay fs.fileAt (artifacts.flatMap (artifactWrites store targetDir)) := by
  induction artifacts generalizing fs with
  | nil =>
      simp only [restorePackages, Option.some.injEq] at done
      rw [← done]
      rfl
  | cons artifact rest ih =>
      simp only [restorePackages] at done
      obtain ⟨first, isFirst, later⟩ := Option.bind_eq_some_iff.mp done
      rw [ih later, restoreFiles_files store _ _ isFirst, List.flatMap_cons, overlay_append]
      rfl

end Writes

/-! What the package manager installs. -/

structure External where
  files : List (Location × Bytes)

def Owned (externals : List External) (file : Location × Bytes) : Prop :=
  ∃ external ∈ externals, file ∈ external.files

instance (externals : List External) (file : Location × Bytes) :
    Decidable (Owned externals file) := by
  unfold Owned
  infer_instance

def Consistent (externals : List External) : Prop :=
  ∀ location first second, Owned externals (location, first) →
    Owned externals (location, second) → first = second

def nodeModules (workspaceRoot : Path) : Location :=
  components (workspaceRoot.join (utf8 "node_modules"))

def OnlyOwned (externals : List External) (workspaceRoot : Path)
    (files : Location → Option Bytes) : Prop :=
  ∀ location content, nodeModules workspaceRoot <+: location → files location = some content →
    Owned externals (location, content)

/-- Every package is there with exactly the files of its archive. -/
structure Complete (externals : List External) (workspaceRoot : Path) (fs : FileSystem) :
    Prop where
  present : ∀ location content, Owned externals (location, content) →
    fs.fileAt location = some content
  exactly : OnlyOwned externals workspaceRoot fs.fileAt

theorem complete_of_writes {externals : List External} (consistent : Consistent externals)
    {workspaceRoot : Path} {fs restored : FileSystem} {writes : List (Location × Bytes)}
    (files : restored.fileAt = overlay fs.fileAt writes)
    (before : OnlyOwned externals workspaceRoot fs.fileAt)
    (owned : ∀ write ∈ writes, Owned externals write)
    (covers : ∀ file, Owned externals file → file ∈ writes) :
    Complete externals workspaceRoot restored := by
  constructor
  · intro location content isOwned
    rw [files]
    refine overlay_of_mem (covers _ isOwned) fun other written => ?_
    exact consistent location other content (owned _ written) isOwned
  · intro location content below found
    rw [files] at found
    exact overlay_invariant
      (fun location content => nodeModules workspaceRoot <+: location →
        Owned externals (location, content))
      (fun location content found below => before location content below found)
      (fun write member _ => owned write member) found below

theorem onlyOwned_of_entries {externals : List External} {workspaceRoot : Path} {fs : FileSystem}
    (listed : ∀ entry ∈ fs.entries, nodeModules workspaceRoot <+: entry.1 →
      ∀ content ∈ fs.fileAt entry.1, Owned externals (entry.1, content)) :
    OnlyOwned externals workspaceRoot fs.fileAt := by
  intro location content below found
  have known : ∃ entry, fs.entries.lookup location = some entry := by
    cases isEntry : fs.entries.lookup location with
    | none => simp [FileSystem.fileAt, FileSystem.nodeAt, FileSystem.entryAt, isEntry] at found
    | some entry => exact ⟨entry, rfl⟩
  obtain ⟨entry, isEntry⟩ := known
  have member : (location, entry) ∈ fs.entries := by
    obtain ⟨before, after, split, _⟩ := List.lookup_eq_some_iff.mp isEntry
    simp [split]
  exact listed _ member below content found

/-! The registry knows the archive of an integrity string.  A sound store holds archives under
integrity keys and content under its own hash. -/

def SoundStore (crates : Crates) (registry : Bytes → Option Bytes) (store : ArtifactStore) :
    Prop :=
  ∀ text bytes, store (crates.blake3 text) = some bytes → bytes = (registry text).getD text

section Captures

variable {crates : Crates} {registry : Bytes → Option Bytes}

theorem soundStore_put (ideal : crates.Ideal) {store : ArtifactStore}
    (sound : SoundStore crates registry store) {text bytes : Bytes}
    (right : bytes = (registry text).getD text) :
    SoundStore crates registry (store.putBytesKeyed (crates.blake3 text) bytes) := by
  intro other content found
  unfold ArtifactStore.putBytesKeyed at found
  split at found
  · exact sound other content found
  · by_cases same : other = text
    · rw [same, Function.update_self, Option.some.injEq] at found
      rw [same, ← found, right]
    · have differ : crates.blake3 other ≠ crates.blake3 text :=
        fun collision => same (ideal.injective collision)
      rw [Function.update_of_ne differ] at found
      exact sound other content found

def PlainContents (registry : Bytes → Option Bytes) (fs : FileSystem)
    (refs : List PathsetPackageRef) : Prop :=
  ∀ ref ∈ refs, ∀ file ∈ packageFiles fs ref.packageRoot, registry file.2 = none

theorem capturePackage_sound (ideal : crates.Ideal) {store : ArtifactStore}
    (sound : SoundStore crates registry store) (fs : FileSystem) (ref : PathsetPackageRef)
    (plain : ∀ file ∈ packageFiles fs ref.packageRoot, registry file.2 = none) :
    SoundStore crates registry (capturePackage crates fs store ref).2 := by
  refine List.foldlRecOn (packageFiles fs ref.packageRoot) _
    (motive := fun store : ArtifactStore => SoundStore crates registry store) sound ?_
  intro store sound file member
  exact soundStore_put ideal sound (by rw [plain file member]; rfl)

theorem captureLoop_sound (ideal : crates.Ideal) (fs : FileSystem) (budget : Nat)
    (refs : List PathsetPackageRef) (dir : ArtifactDir) {store : ArtifactStore}
    (sound : SoundStore crates registry store) (plain : PlainContents registry fs refs) :
    SoundStore crates registry (captureLoop crates fs budget refs (dir, store)).2 := by
  induction refs generalizing budget dir store with
  | nil => cases budget <;> exact sound
  | cons ref rest ih =>
      have plainRest : PlainContents registry fs rest :=
        fun next member => plain next (List.mem_cons_of_mem _ member)
      cases budget with
      | zero => exact sound
      | succ budget =>
          simp only [captureLoop]
          split
          · exact ih (budget + 1) dir sound plainRest
          · exact ih budget _ (capturePackage_sound ideal sound fs ref
              (plain ref (List.mem_cons_self ..))) plainRest

theorem captureNow_sound (ideal : crates.Ideal) (fs : FileSystem)
    (refs : List PathsetPackageRef) (dir : Option ArtifactDir) {store : ArtifactStore}
    (sound : SoundStore crates registry store) (plain : PlainContents registry fs refs) :
    SoundStore crates registry (captureNow crates fs refs dir store).2 := by
  unfold captureNow
  split
  · exact sound
  · exact captureLoop_sound ideal fs _ refs _ sound plain

theorem captureAll_sound (ideal : crates.Ideal) (fs : FileSystem)
    (refs : List PathsetPackageRef) (dir : ArtifactDir) {store : ArtifactStore}
    (sound : SoundStore crates registry store) (plain : PlainContents registry fs refs) :
    SoundStore crates registry (captureAll crates fs refs dir store).2 := by
  refine List.foldlRecOn refs _
    (motive := fun state : ArtifactDir × ArtifactStore => SoundStore crates registry state.2)
    sound ?_
  rintro ⟨dir, store⟩ sound ref member
  simp only
  split
  · exact sound
  · exact capturePackage_sound ideal sound fs ref (plain ref member)

def RightArchives (registry : Bytes → Option Bytes) (pmCache : Bytes → Bytes → Option Bytes)
    (packages : List LockfilePackage) : Prop :=
  ∀ package ∈ packages, ∀ bytes, pmCache package.name package.version = some bytes →
    registry package.integrity = some bytes

theorem captureFromLockfile_sound (ideal : crates.Ideal)
    (pmCache : Bytes → Bytes → Option Bytes) (packages : List LockfilePackage)
    {store : ArtifactStore} (sound : SoundStore crates registry store)
    (right : RightArchives registry pmCache packages) :
    SoundStore crates registry (captureFromLockfilePackages crates pmCache packages store) := by
  refine List.foldlRecOn packages _
    (motive := fun store : ArtifactStore => SoundStore crates registry store) sound ?_
  intro store sound package member
  cases found : pmCache package.name package.version with
  | none => exact sound
  | some bytes =>
      exact soundStore_put ideal sound (by rw [right package member bytes found]; rfl)

end Captures

/-! When a restore is covered.  The archives of the parsed entries make up the install, or the
captured packages of the directory do. -/

structure LockfileCovered (archives : Archives) (registry : Bytes → Option Bytes)
    (externals : List External) (packages : List LockfilePackage) (workspaceRoot : Path) :
    Prop where
  known : ∀ package ∈ packages, ∃ bytes, registry package.integrity = some bytes
  owned : ∀ package ∈ packages, ∀ bytes, registry package.integrity = some bytes →
    ∀ write ∈ packageWrites archives workspaceRoot package bytes, Owned externals write
  covers : ∀ file, Owned externals file → ∃ package ∈ packages, ∃ bytes,
    registry package.integrity = some bytes ∧
      file ∈ packageWrites archives workspaceRoot package bytes

structure FilesCovered (crates : Crates) (registry : Bytes → Option Bytes)
    (externals : List External) (artifacts : List PackageArtifact) (targetDir : Path) :
    Prop where
  owned : ∀ artifact ∈ artifacts, ∀ file ∈ artifact.files, ∃ content,
    file.2 = crates.blake3 content ∧ registry content = none ∧
      Owned externals (components ((targetDir.join artifact.name).join file.1), content)
  covers : ∀ location content, Owned externals (location, content) →
    ∃ artifact ∈ artifacts, ∃ file ∈ artifact.files, file.2 = crates.blake3 content ∧
      location = components ((targetDir.join artifact.name).join file.1)

section Restores

variable {crates : Crates} {archives : Archives} {registry : Bytes → Option Bytes}
  {externals : List External} {workspaceRoot : Path}

theorem lockfileWrites_owned {store : ArtifactStore} (sound : SoundStore crates registry store)
    {packages : List LockfilePackage}
    (covered : LockfileCovered archives registry externals packages workspaceRoot) :
    ∀ write ∈ lockfileWrites crates archives store workspaceRoot packages,
      Owned externals write := by
  intro write member
  obtain ⟨package, within, written⟩ := List.mem_flatMap.mp member
  obtain ⟨archive, known⟩ := covered.known package within
  cases stored : store (computeCasKey crates package.integrity) with
  | none => simp [stored] at written
  | some bytes =>
      have isArchive := sound _ _ stored
      rw [known, Option.getD_some] at isArchive
      simp only [stored, isArchive] at written
      exact covered.owned package within archive known write written

theorem lockfileWrites_covers {store : ArtifactStore} (sound : SoundStore crates registry store)
    {packages : List LockfilePackage}
    (covered : LockfileCovered archives registry externals packages workspaceRoot)
    (stored : ∀ package ∈ packages,
      store.containsKey (computeCasKey crates package.integrity) = true)
    (file : Location × Bytes) (owned : Owned externals file) :
    file ∈ lockfileWrites crates archives store workspaceRoot packages := by
  obtain ⟨package, within, archive, known, written⟩ := covered.covers file owned
  obtain ⟨bytes, found⟩ := Option.isSome_iff_exists.mp (stored package within)
  have isArchive := sound _ _ found
  rw [known, Option.getD_some] at isArchive
  refine List.mem_flatMap.mpr ⟨package, within, ?_⟩
  simp only [found, isArchive]
  exact written

theorem artifactWrites_owned {store : ArtifactStore} (sound : SoundStore crates registry store)
    {artifacts : List PackageArtifact} {targetDir : Path}
    (covered : FilesCovered crates registry externals artifacts targetDir) :
    ∀ write ∈ artifacts.flatMap (artifactWrites store targetDir), Owned externals write := by
  intro write member
  obtain ⟨artifact, within, written⟩ := List.mem_flatMap.mp member
  obtain ⟨file, fileWithin, linked⟩ := List.mem_filterMap.mp written
  obtain ⟨bytes, stored, rfl⟩ := Option.map_eq_some_iff.mp linked
  obtain ⟨content, isHash, plain, owned⟩ := covered.owned artifact within file fileWithin
  rw [isHash] at stored
  have same := sound _ _ stored
  rw [plain, Option.getD_none] at same
  rw [same]
  exact owned

theorem artifactWrites_covers {store : ArtifactStore} (ideal : crates.Ideal)
    (sound : SoundStore crates registry store) {artifacts : List PackageArtifact}
    {targetDir : Path} (covered : FilesCovered crates registry externals artifacts targetDir)
    (stored : ∀ artifact ∈ artifacts, ∀ file ∈ artifact.files, store.containsKey file.2 = true)
    (file : Location × Bytes) (owned : Owned externals file) :
    file ∈ artifacts.flatMap (artifactWrites store targetDir) := by
  obtain ⟨location, content⟩ := file
  obtain ⟨artifact, within, file, fileWithin, isHash, rfl⟩ := covered.covers _ _ owned
  obtain ⟨bytes, found⟩ := Option.isSome_iff_exists.mp (stored artifact within file fileWithin)
  have same := sound content bytes (isHash ▸ found)
  -- The hash determines the content, which is then no integrity string.
  obtain ⟨other, otherHash, plain, _⟩ := covered.owned artifact within file fileWithin
  have sameContent : other = content := ideal.injective (otherHash.symm.trans isHash)
  rw [← sameContent, plain, Option.getD_none, sameContent] at same
  refine List.mem_flatMap.mpr ⟨artifact, within, List.mem_filterMap.mpr ⟨file, fileWithin, ?_⟩⟩
  rw [found, Option.map_some, same]

end Restores

/-! Histories of edits, captures after package tasks, and root-task runs. -/

inductive RestoreEvent
  | edit (fs : FileSystem)
  | capture (fp : Bytes) (refs : List PathsetPackageRef)
  | run (task : Task) (effects : RootEffects)

section History

variable (crates : Crates) (archives : Archives)
  (parseLockfile : FileSystem → Path → Option (List LockfilePackage))

def restoreStep (state : InstallState) : RestoreEvent → InstallState
  | .edit fs => { state with fs := fs }
  | .capture fp refs =>
      let captured := captureNow crates state.fs refs (state.dirs fp) state.store
      { state with store := captured.2, dirs := Function.update state.dirs fp captured.1 }
  | .run task effects =>
      (runRootTaskTwoPhase crates (typeScriptPlugin crates archives parseLockfile) state task
        effects).2

variable (externals : FileSystem → Path → List External)

/-- A run that restores leaves the install of the present lockfile. -/
def RestoredComplete (state : InstallState) : RestoreEvent → Prop
  | .run task effects => ∀ disk,
      (runRootTaskTwoPhase crates (typeScriptPlugin crates archives parseLockfile) state task
        effects).1.restored = some disk →
      Complete (externals state.fs task.workspaceRoot) task.workspaceRoot disk
  | _ => True

variable (registry : Bytes → Option Bytes)

structure CapturesRight (task : Task) (effects : RootEffects) : Prop where
  archives : ∀ exitCode fs packages, effects.install = some (exitCode, fs) →
    parseLockfile fs task.workspaceRoot = some packages →
      RightArchives registry effects.pmCache packages
  walked : ∀ exitCode fs, effects.install = some (exitCode, fs) →
    parseLockfile fs task.workspaceRoot = none → PlainContents registry fs effects.walked
  postinstall : ∀ fs store, SoundStore crates registry store →
    SoundStore crates registry (effects.postinstall (fs, store)).2

/-- What a run finds when its marker is there and `node_modules` is not. -/
structure RestoreCovered (state : InstallState) (task : Task) : Prop where
  consistent : Consistent (externals state.fs task.workspaceRoot)
  clean : OnlyOwned (externals state.fs task.workspaceRoot) task.workspaceRoot state.fs.fileAt
  lockfile : ∀ packages, parseLockfile state.fs task.workspaceRoot = some packages →
    (∀ package ∈ packages,
      state.store.containsKey (computeCasKey crates package.integrity) = true) →
    LockfileCovered archives registry (externals state.fs task.workspaceRoot) packages
      task.workspaceRoot
  files : (lockfileRestore crates (typeScriptPlugin crates archives parseLockfile) state
      task.workspaceRoot).1 = false →
    ∀ dir artifacts, state.dirs (rootTaskFingerprint crates state.fs task) = some dir →
      readManifests dir = some artifacts → artifacts ≠ [] →
      (∀ artifact ∈ artifacts, ∀ file ∈ artifact.files,
        state.store.containsKey file.2 = true) →
      FilesCovered crates registry (externals state.fs task.workspaceRoot) artifacts
        (task.workspaceRoot.join (utf8 "node_modules"))

def Covered (state : InstallState) : RestoreEvent → Prop
  | .edit _ => True
  | .capture _ refs => PlainContents registry state.fs refs
  | .run task effects =>
      CapturesRight crates parseLockfile registry task effects ∧
        (rootTaskFingerprint crates state.fs task ∈ state.markers →
          verifyInstallEffects state.fs task.workspaceRoot = false →
          RestoreCovered crates archives parseLockfile externals registry state task)

end History

section Run

variable {crates : Crates} {archives : Archives}
  {parseLockfile : FileSystem → Path → Option (List LockfilePackage)}
  {externals : FileSystem → Path → List External} {registry : Bytes → Option Bytes}

theorem runInstall_sound (archives : Archives) (ideal : crates.Ideal) {state : InstallState}
    {task : Task}
    {effects : RootEffects} (sound : SoundStore crates registry state.store)
    (right : CapturesRight crates parseLockfile registry task effects) (fp : Bytes)
    (afterRestore : Bool) :
    SoundStore crates registry (runInstall crates (typeScriptPlugin crates archives parseLockfile)
      state fp task.workspaceRoot effects afterRestore).2.store := by
  unfold runInstall
  cases install : effects.install with
  | none => exact sound
  | some answer =>
      obtain ⟨exitCode, fs⟩ := answer
      by_cases success : exitCode = 0
      · simp only [success, ↓reduceIte, runPostinstallPhase]
        apply right.postinstall
        simp only [captureInstall, typeScriptPlugin]
        cases parsed : parseLockfile fs task.workspaceRoot with
        | some packages =>
            exact captureFromLockfile_sound ideal _ packages sound
              (right.archives exitCode fs packages install parsed)
        | none =>
            exact captureAll_sound ideal fs _ _ sound (right.walked exitCode fs install parsed)
      · simp only [success, ↓reduceIte]
        exact sound

theorem runRestore_sound (ideal : crates.Ideal) {state : InstallState} {task : Task}
    {effects : RootEffects} (sound : SoundStore crates registry state.store)
    (right : CapturesRight crates parseLockfile registry task effects) (fp : Bytes) :
    SoundStore crates registry (runRestore crates (typeScriptPlugin crates archives parseLockfile)
      state fp task.workspaceRoot effects).2.store := by
  have installs (fs : FileSystem) :=
    have soundHere : SoundStore crates registry
      { state with fs := fs, markers := state.markers.filter (· ≠ fp) }.store := sound
    runInstall_sound archives ideal soundHere right fp true
  rcases runRestore_cases crates (typeScriptPlugin crates archives parseLockfile) state fp
      task.workspaceRoot effects with
    ⟨_, _, ended⟩ | ⟨_, _, _, _, ended⟩ | ⟨fs, ended⟩
  · rw [ended]
    exact right.postinstall _ _ sound
  · rw [ended]
    exact right.postinstall _ _ sound
  · rw [ended]
    exact installs fs

theorem restoreStep_sound (ideal : crates.Ideal) {state : InstallState}
    (sound : SoundStore crates registry state.store) (event : RestoreEvent)
    (covered : Covered crates archives parseLockfile externals registry state event) :
    SoundStore crates registry (restoreStep crates archives parseLockfile state event).store := by
  cases event with
  | edit fs => exact sound
  | capture fp refs => exact captureNow_sound ideal state.fs refs _ sound covered
  | run task effects =>
      simp only [restoreStep, runRootTaskTwoPhase]
      split
      · split
        · exact covered.1.postinstall _ _ sound
        · exact runRestore_sound ideal sound covered.1 _
      · exact runInstall_sound _ ideal sound covered.1 _ _

theorem lockfileRestore_cases (crates : Crates) (archives : Archives)
    (parseLockfile : FileSystem → Path → Option (List LockfilePackage)) (state : InstallState) (workspaceRoot : Path) :
    lockfileRestore crates (typeScriptPlugin crates archives parseLockfile) state workspaceRoot =
        (false, state.fs) ∨
      ∃ packages, parseLockfile state.fs workspaceRoot = some packages ∧
        (∀ package ∈ packages,
          state.store.containsKey (computeCasKey crates package.integrity) = true) ∧
        lockfileRestore crates (typeScriptPlugin crates archives parseLockfile) state
            workspaceRoot =
          restoreFromCas crates archives state.store workspaceRoot packages state.fs := by
  simp only [lockfileRestore, typeScriptPlugin]
  cases parsed : parseLockfile state.fs workspaceRoot with
  | none => exact Or.inl rfl
  | some packages =>
      simp only
      split
      · rename_i complete
        simp only [Bool.and_eq_true, List.all_eq_true] at complete
        exact Or.inr ⟨packages, rfl, complete.1, rfl⟩
      · exact Or.inl rfl

theorem lockfileRestore_disk {state : InstallState} {task : Task}
    (sound : SoundStore crates registry state.store)
    (covered : RestoreCovered crates archives parseLockfile externals registry state task) :
    let restore := lockfileRestore crates (typeScriptPlugin crates archives parseLockfile) state
      task.workspaceRoot
    OnlyOwned (externals state.fs task.workspaceRoot) task.workspaceRoot restore.2.fileAt ∧
      (restore.1 = true →
        Complete (externals state.fs task.workspaceRoot) task.workspaceRoot restore.2) := by
  intro restore
  rcases lockfileRestore_cases crates archives parseLockfile state task.workspaceRoot with
    idle | ⟨packages, parsed, stored, isRestore⟩
  · simp only [restore, idle]
    exact ⟨covered.clean, by simp⟩
  · have packagesCovered := covered.lockfile packages parsed stored
    have owned := lockfileWrites_owned sound packagesCovered
    have files : restore.2.fileAt = overlay state.fs.fileAt
        (lockfileWrites crates archives state.store task.workspaceRoot packages) := by
      simp only [restore, isRestore]
      exact restoreFromCas_files crates archives state.store task.workspaceRoot packages state.fs
    have complete := complete_of_writes covered.consistent files covered.clean owned
      (lockfileWrites_covers sound packagesCovered stored)
    exact ⟨complete.exactly, fun _ => complete⟩

theorem tryRestore_complete (ideal : crates.Ideal) {state : InstallState} {task : Task}
    (sound : SoundStore crates registry state.store)
    (covered : RestoreCovered crates archives parseLockfile externals registry state task)
    (missed : (lockfileRestore crates (typeScriptPlugin crates archives parseLockfile) state
      task.workspaceRoot).1 = false) {fs : FileSystem}
    (clean : OnlyOwned (externals state.fs task.workspaceRoot) task.workspaceRoot fs.fileAt)
    {disk : FileSystem}
    (restored : tryRestoreFromCas (state.dirs (rootTaskFingerprint crates state.fs task))
      task.workspaceRoot state.store fs = (some true, disk)) :
    Complete (externals state.fs task.workspaceRoot) task.workspaceRoot disk := by
  unfold tryRestoreFromCas at restored
  cases isDir : state.dirs (rootTaskFingerprint crates state.fs task) with
  | none => simp [isDir] at restored
  | some dir =>
      cases manifests : readManifests dir with
      | none => simp [isDir, manifests] at restored
      | some artifacts =>
          simp only [isDir, manifests] at restored
          split at restored
          · simp at restored
          · rename_i nonempty
            split at restored
            · rename_i complete
              simp only [List.all_eq_true] at complete
              have covers := covered.files missed dir artifacts isDir manifests
                (by simpa using nonempty) complete
              split at restored
              · rename_i linked isLinked
                obtain rfl : linked = disk := (Prod.mk.inj restored).2
                exact complete_of_writes covered.consistent
                  (restorePackages_files state.store _ artifacts isLinked) clean
                  (artifactWrites_owned sound covers)
                  (artifactWrites_covers ideal sound covers complete)
              · simp at restored
            · simp at restored

theorem runInstall_restored (plugin : EcosystemPlugin) (state : InstallState) (fp : Bytes)
    (workspaceRoot : Path) (effects : RootEffects) (afterRestore : Bool) :
    (runInstall crates plugin state fp workspaceRoot effects afterRestore).1.restored = none := by
  unfold runInstall
  cases effects.install with
  | none => rfl
  | some answer =>
      by_cases success : answer.1 = 0
      · simp only [success, ↓reduceIte, RootOutcome.restored]
      · simp only [success, ↓reduceIte, RootOutcome.restored]

theorem runRestore_complete (ideal : crates.Ideal) {state : InstallState} {task : Task}
    {effects : RootEffects} (sound : SoundStore crates registry state.store)
    (covered : RestoreCovered crates archives parseLockfile externals registry state task)
    {disk : FileSystem}
    (restored : (runRestore crates (typeScriptPlugin crates archives parseLockfile) state
      (rootTaskFingerprint crates state.fs task) task.workspaceRoot effects).1.restored =
        some disk) :
    Complete (externals state.fs task.workspaceRoot) task.workspaceRoot disk := by
  obtain ⟨clean, complete⟩ := lockfileRestore_disk sound covered
  rcases runRestore_cases crates (typeScriptPlugin crates archives parseLockfile) state
      (rootTaskFingerprint crates state.fs task) task.workspaceRoot effects with
    ⟨fs, fromLockfile, ended⟩ | ⟨extracted, fs, missed, linked, ended⟩ | ⟨fs, ended⟩
  · rw [ended] at restored
    obtain rfl : fs = disk := Option.some.inj restored
    rw [fromLockfile] at complete
    exact complete rfl
  · rw [ended] at restored
    obtain rfl : fs = disk := Option.some.inj restored
    rw [missed] at clean
    exact tryRestore_complete ideal sound covered (by rw [missed]) clean linked
  · rw [ended, runInstall_restored] at restored
    simp at restored

theorem restored_complete (ideal : crates.Ideal) {state : InstallState}
    (sound : SoundStore crates registry state.store) (event : RestoreEvent)
    (covered : Covered crates archives parseLockfile externals registry state event) :
    RestoredComplete crates archives parseLockfile externals state event := by
  cases event with
  | edit fs => exact trivial
  | capture fp refs => exact trivial
  | run task effects =>
      intro disk restored
      simp only [runRootTaskTwoPhase] at restored
      split at restored
      · rename_i marked
        split at restored
        · simp [RootOutcome.restored] at restored
        · rename_i missing
          have marker : rootTaskFingerprint crates state.fs task ∈ state.markers := by
            simpa using marked
          exact runRestore_complete ideal sound
            (covered.2 marker (by simpa [typeScriptPlugin] using missing)) restored
      · simp [runInstall_restored] at restored

end Run

namespace PartialCapture

def location (package : String) : Location :=
  components (utf8 "/ws/node_modules/" ++ utf8 package ++ utf8 "/package.json")

def files (packages : List String) : List External :=
  packages.map fun package => ⟨[(location package, utf8 package)]⟩

def disk (packages : List String) : FileSystem :=
  packages.foldl (fun fs package => fs.writeFile (location package) (utf8 package))
    ⟨[(components Sample.lockfile, ⟨.file (utf8 "1") true, false⟩)]⟩

def parse (_ : FileSystem) (_ : Path) : Option (List LockfilePackage) :=
  some [⟨utf8 "a", utf8 "1", utf8 "sha512-a"⟩, ⟨utf8 "b", utf8 "1", utf8 "sha512-b"⟩]

def effects (packages : List String) : RootEffects where
  install := some (0, disk packages)
  pmCache := fun _ _ => none
  walked := []
  binLinks := id
  postinstall := id

def fp : Bytes := rootTaskFingerprint .plain (disk []) Sample.install

def ref : PathsetPackageRef := ⟨utf8 "a", utf8 "1", utf8 "/ws/node_modules/a"⟩

def events (packages : List String) : List RestoreEvent :=
  [.run Sample.install (effects packages), .capture fp [ref], .edit (disk [])]

def state (packages : List String) : InstallState :=
  Runs.final (restoreStep .plain Sample.noArchives parse)
    ⟨disk [], [], fun _ => none, fun _ => none⟩ (events packages)

theorem installedBoth : Complete (files ["a", "b"]) (utf8 "/ws") (disk ["a", "b"]) := by
  constructor
  · have listed : ∀ external ∈ files ["a", "b"], ∀ file ∈ external.files,
        (disk ["a", "b"]).fileAt file.1 = some file.2 := by
      decide +kernel
    rintro location content ⟨external, member, owned⟩
    exact listed external member _ owned
  · exact onlyOwned_of_entries (by decide +kernel)

theorem restoredWithoutB :
    (runRootTaskTwoPhase .plain (typeScriptPlugin .plain Sample.noArchives parse)
      (state ["a", "b"]) Sample.install (effects ["a", "b"])).1.restored.map
        (fun disk => disk.fileAt (location "b")) = some none := by
  decide +kernel

def registry (text : Bytes) : Option Bytes :=
  if text = utf8 "sha512-a" ∨ text = utf8 "sha512-b" then some (utf8 "PK") else none

theorem captured :
    ((state ["a"]).dirs fp).bind readManifests = some [⟨utf8 "a", utf8 "1",
      [(utf8 "package.json", Crates.plain.blake3 (utf8 "a"))]⟩] := by
  decide +kernel

theorem capturesRight : CapturesRight .plain parse registry Sample.install (effects ["a"]) where
  archives := by
    intro exitCode fs packages _ _ package _ bytes found
    simp [effects] at found
  walked := by
    intro exitCode fs _ unparsed
    simp [parse] at unparsed
  postinstall := fun _ _ sound => sound

theorem restoreCovered : RestoreCovered .plain Sample.noArchives parse (fun _ _ => files ["a"])
    registry (state ["a"]) Sample.install where
  consistent := by
    rintro location first second ⟨external, member, owned⟩ ⟨other, otherMember, otherOwned⟩
    simp only [files, List.map_cons, List.map_nil, List.mem_singleton] at member otherMember
    subst external other
    simp only [List.mem_singleton, Prod.mk.injEq] at owned otherOwned
    rw [owned.2, otherOwned.2]
  clean := onlyOwned_of_entries (by decide +kernel)
  lockfile := by
    intro packages parsed stored
    have missing : (state ["a"]).store.containsKey
        (computeCasKey .plain (utf8 "sha512-a")) = false := by
      decide +kernel
    obtain rfl := (Option.some.inj parsed).symm
    have present := stored ⟨utf8 "a", utf8 "1", utf8 "sha512-a"⟩ (List.mem_cons_self ..)
    rw [missing] at present
    exact absurd present (by decide)
  files := by
    intro _ dir artifacts isDir manifests _ _
    have isFp : rootTaskFingerprint .plain (state ["a"]).fs Sample.install = fp := by
      decide +kernel
    have known := captured
    rw [isFp] at isDir
    rw [isDir, Option.bind_some, manifests, Option.some.injEq] at known
    subst artifacts
    have owned : Owned (files ["a"]) (location "a", utf8 "a") := by decide
    have target : components (Path.join (Path.join (Path.join Sample.install.workspaceRoot
        (utf8 "node_modules")) (utf8 "a")) (utf8 "package.json")) = location "a" := by
      decide +kernel
    constructor
    · intro artifact member file fileMember
      obtain rfl := List.mem_singleton.mp member
      obtain rfl := List.mem_singleton.mp fileMember
      exact ⟨utf8 "a", rfl, by decide, by
        rw [target]
        exact owned⟩
    · rintro place content ⟨external, member, isOwned⟩
      simp only [files, List.map_cons, List.map_nil, List.mem_singleton] at member
      subst external
      simp only [List.mem_singleton, Prod.mk.injEq] at isOwned
      refine ⟨_, List.mem_singleton_self _, _, List.mem_singleton_self _, ?_, ?_⟩
      · rw [isOwned.2]
      · rw [isOwned.1]
        exact target.symm

theorem covered : Runs.Each (restoreStep .plain Sample.noArchives parse)
    (Covered .plain Sample.noArchives parse (fun _ _ => files ["a"]) registry)
    ⟨disk [], [], fun _ => none, fun _ => none⟩
    (events ["a"] ++ [.run Sample.install (effects ["a"])]) := by
  refine (Runs.each_append _ _ _ _).mpr ⟨⟨⟨capturesRight, by simp⟩, ?_, trivial, trivial⟩,
    ⟨capturesRight, fun _ _ => restoreCovered⟩, trivial⟩
  intro member isRef
  obtain rfl := List.mem_singleton.mp isRef
  decide +kernel

end PartialCapture

def InstallsComplete (externals : FileSystem → Path → List External) (_ : InstallState) :
    RestoreEvent → Prop
  | .run task effects => ∀ fs, effects.install = some (0, fs) →
      Complete (externals fs task.workspaceRoot) task.workspaceRoot fs
  | _ => True

end Rage
