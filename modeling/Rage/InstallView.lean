import Rage.RootTask

/-!
What a root run sees of the shared state.  Of the store it looks at the keys of its lockfile and
of its capture directory, of the directories at its own, and of the markers at its own.
-/

namespace Rage

def AgreeOn (keys : Bytes → Prop) (first second : ArtifactStore) : Prop :=
  ∀ key, keys key → first key = second key

structure SameView (keys : Bytes → Prop) (fp : Bytes) (first second : InstallState) : Prop where
  fs : first.fs = second.fs
  store : AgreeOn keys first.store second.store
  dir : first.dirs fp = second.dirs fp

theorem SameView.symm {keys : Bytes → Prop} {fp : Bytes} {first second : InstallState}
    (same : SameView keys fp first second) : SameView keys fp second first where
  fs := same.fs.symm
  store := fun key looked => (same.store key looked).symm
  dir := same.dir.symm

structure LooksUp (crates : Crates)
    (parseLockfile : FileSystem → Path → Option (List LockfilePackage)) (keys : Bytes → Prop)
    (state : InstallState) (fp : Bytes) (workspaceRoot : Path) : Prop where
  lockfile : ∀ packages, parseLockfile state.fs workspaceRoot = some packages →
    ∀ package ∈ packages, keys (computeCasKey crates package.integrity)
  files : ∀ dir, state.dirs fp = some dir → ∀ artifacts, readManifests dir = some artifacts →
    ∀ artifact ∈ artifacts, ∀ file ∈ artifact.files, keys file.2

/-- The postinstall scripts look up no other keys. -/
def PostinstallWithin (keys : Bytes → Prop) (effects : RootEffects) : Prop :=
  ∀ fs first second, AgreeOn keys first second →
    (effects.postinstall (fs, first)).1 = (effects.postinstall (fs, second)).1 ∧
      AgreeOn keys (effects.postinstall (fs, first)).2 (effects.postinstall (fs, second)).2

section Captures

variable {crates : Crates} {keys : Bytes → Prop}

theorem containsKey_agree {first second : ArtifactStore} (agree : AgreeOn keys first second)
    {key : Bytes} (looked : keys key) : first.containsKey key = second.containsKey key := by
  simp only [ArtifactStore.containsKey, agree key looked]

theorem all_agree {α : Type} (items : List α) {first second : α → Bool}
    (same : ∀ item ∈ items, first item = second item) : items.all first = items.all second := by
  induction items with
  | nil => rfl
  | cons item rest ih =>
      rw [List.all_cons, List.all_cons, same item (List.mem_cons_self ..),
        ih fun other member => same other (List.mem_cons_of_mem _ member)]

theorem putBytesKeyed_agree {first second : ArtifactStore} (agree : AgreeOn keys first second)
    (key bytes : Bytes) :
    AgreeOn keys (first.putBytesKeyed key bytes) (second.putBytesKeyed key bytes) := by
  intro other looked
  by_cases same : other = key
  · subst other
    simp only [ArtifactStore.putBytesKeyed, containsKey_agree agree looked]
    split
    · exact agree key looked
    · simp
  · have kept (store : ArtifactStore) : store.putBytesKeyed key bytes other = store other := by
      unfold ArtifactStore.putBytesKeyed
      split
      · rfl
      · exact Function.update_of_ne same _ _
    rw [kept, kept]
    exact agree other looked

theorem capturePackage_agree (crates : Crates) {first second : ArtifactStore} (agree : AgreeOn keys first second)
    (fs : FileSystem) (ref : PathsetPackageRef) :
    (capturePackage crates fs first ref).1 = (capturePackage crates fs second ref).1 ∧
      AgreeOn keys (capturePackage crates fs first ref).2
        (capturePackage crates fs second ref).2 := by
  refine ⟨rfl, ?_⟩
  simp only [capturePackage]
  generalize packageFiles fs ref.packageRoot = files
  induction files generalizing first second with
  | nil => exact agree
  | cons file rest ih => exact ih (putBytesKeyed_agree agree _ _)

theorem captureLoop_agree (crates : Crates) (fs : FileSystem) (budget : Nat) (refs : List PathsetPackageRef)
    (dir : ArtifactDir) {first second : ArtifactStore} (agree : AgreeOn keys first second) :
    (captureLoop crates fs budget refs (dir, first)).1 =
        (captureLoop crates fs budget refs (dir, second)).1 ∧
      AgreeOn keys (captureLoop crates fs budget refs (dir, first)).2
        (captureLoop crates fs budget refs (dir, second)).2 := by
  induction refs generalizing budget dir first second with
  | nil => cases budget <;> exact ⟨rfl, agree⟩
  | cons ref rest ih =>
      cases budget with
      | zero => exact ⟨rfl, agree⟩
      | succ budget =>
          obtain ⟨sameArtifact, agreeAfter⟩ := capturePackage_agree crates agree fs ref
          simp only [captureLoop]
          split
          · exact ih (budget + 1) dir agree
          · rw [sameArtifact]
            exact ih budget _ agreeAfter

theorem captureNow_agree (crates : Crates) (fs : FileSystem) (refs : List PathsetPackageRef)
    (dir : Option ArtifactDir) {first second : ArtifactStore}
    (agree : AgreeOn keys first second) :
    (captureNow crates fs refs dir first).1 = (captureNow crates fs refs dir second).1 ∧
      AgreeOn keys (captureNow crates fs refs dir first).2
        (captureNow crates fs refs dir second).2 := by
  obtain ⟨sameDir, agreeAfter⟩ := captureLoop_agree crates fs maxNewPackagesPerCapture
    refs (dir.getD []) agree
  unfold captureNow
  split
  · exact ⟨rfl, agree⟩
  · exact ⟨congrArg some sameDir, agreeAfter⟩

theorem captureAll_agree (crates : Crates) (fs : FileSystem) (refs : List PathsetPackageRef) (dir : ArtifactDir)
    {first second : ArtifactStore} (agree : AgreeOn keys first second) :
    (captureAll crates fs refs dir first).1 = (captureAll crates fs refs dir second).1 ∧
      AgreeOn keys (captureAll crates fs refs dir first).2
        (captureAll crates fs refs dir second).2 := by
  unfold captureAll
  induction refs generalizing dir first second with
  | nil => exact ⟨rfl, agree⟩
  | cons ref rest ih =>
      obtain ⟨sameArtifact, agreeAfter⟩ := capturePackage_agree crates agree fs ref
      simp only [List.foldl_cons]
      split
      · exact ih dir agree
      · rw [sameArtifact]
        exact ih _ agreeAfter

theorem captureFromLockfile_agree (pmCache : Bytes → Bytes → Option Bytes)
    (packages : List LockfilePackage) {first second : ArtifactStore}
    (agree : AgreeOn keys first second) :
    AgreeOn keys (captureFromLockfilePackages crates pmCache packages first)
      (captureFromLockfilePackages crates pmCache packages second) := by
  unfold captureFromLockfilePackages
  induction packages generalizing first second with
  | nil => exact agree
  | cons package rest ih =>
      simp only [List.foldl_cons]
      split
      · exact ih (putBytesKeyed_agree agree _ _)
      · exact ih agree

end Captures

section Restores

variable {crates : Crates} {archives : Archives} {keys : Bytes → Prop}

theorem restoreFromCas_agree {first second : ArtifactStore} (agree : AgreeOn keys first second)
    (workspaceRoot : Path) (packages : List LockfilePackage)
    (looked : ∀ package ∈ packages, keys (computeCasKey crates package.integrity))
    (fs : FileSystem) :
    restoreFromCas crates archives first workspaceRoot packages fs =
      restoreFromCas crates archives second workspaceRoot packages fs := by
  induction packages generalizing fs with
  | nil => rfl
  | cons package rest ih =>
      have ih := ih fun other member => looked other (List.mem_cons_of_mem _ member)
      simp only [restoreFromCas, agree _ (looked package (List.mem_cons_self ..)), ih]

theorem restoreFiles_agree {first second : ArtifactStore} (agree : AgreeOn keys first second)
    (packageRoot : Path) (files : List (Path × Bytes)) (looked : ∀ file ∈ files, keys file.2)
    (fs : FileSystem) :
    restoreFiles first packageRoot files fs = restoreFiles second packageRoot files fs := by
  induction files generalizing fs with
  | nil => rfl
  | cons file rest ih =>
      have ih := ih fun other member => looked other (List.mem_cons_of_mem _ member)
      have here := agree _ (looked file (List.mem_cons_self ..))
      simp only [restoreFiles, ArtifactStore.link, here]
      exact congrArg _ (funext ih)

theorem restorePackages_agree {first second : ArtifactStore} (agree : AgreeOn keys first second)
    (targetDir : Path) (artifacts : List PackageArtifact)
    (looked : ∀ artifact ∈ artifacts, ∀ file ∈ artifact.files, keys file.2) (fs : FileSystem) :
    restorePackages first targetDir artifacts fs =
      restorePackages second targetDir artifacts fs := by
  induction artifacts generalizing fs with
  | nil => rfl
  | cons artifact rest ih =>
      have ih := ih fun other member => looked other (List.mem_cons_of_mem _ member)
      have here := restoreFiles_agree agree (targetDir.join artifact.name) artifact.files
        (looked artifact (List.mem_cons_self ..)) fs
      simp only [restorePackages, restorePackage, here]
      exact congrArg _ (funext ih)

theorem tryRestoreFromCas_agree {first second : ArtifactStore} (agree : AgreeOn keys first second)
    (dir : Option ArtifactDir) (workspaceRoot : Path)
    (looked : ∀ isDir, dir = some isDir → ∀ artifacts, readManifests isDir = some artifacts →
      ∀ artifact ∈ artifacts, ∀ file ∈ artifact.files, keys file.2)
    (fs : FileSystem) :
    tryRestoreFromCas dir workspaceRoot first fs =
      tryRestoreFromCas dir workspaceRoot second fs := by
  unfold tryRestoreFromCas
  cases dir with
  | none => rfl
  | some isDir =>
      simp only
      cases manifests : readManifests isDir with
      | none => rfl
      | some artifacts =>
          have looked := looked isDir rfl artifacts manifests
          have present : (artifacts.all fun artifact =>
              artifact.files.all fun file => first.containsKey file.2) =
              artifacts.all fun artifact => artifact.files.all fun file =>
                second.containsKey file.2 := by
            refine all_agree _ fun artifact member => all_agree _ fun file fileMember => ?_
            exact containsKey_agree agree (looked artifact member file fileMember)
          simp only [present, restorePackages_agree agree _ artifacts looked]

end Restores

/-! What a root run leaves of the markers and of the directories. -/

def RootOutcome.markersAfter (fp : Bytes) (markers : List Bytes) : RootOutcome → List Bytes
  | .installed => fp :: markers.filter (· ≠ fp)
  | .failed _ => markers.filter (· ≠ fp)
  | .spawnError _ => markers.filter (· ≠ fp)
  | _ => markers

section After

variable {crates : Crates} {plugin : EcosystemPlugin}

theorem runInstall_markersAfter (crates : Crates) (plugin : EcosystemPlugin) (state : InstallState) (fp : Bytes) (workspaceRoot : Path)
    (effects : RootEffects) (afterRestore : Bool) (before : List Bytes)
    (dropped : state.markers = before.filter (· ≠ fp)) :
    (runInstall crates plugin state fp workspaceRoot effects afterRestore).2.markers =
      (runInstall crates plugin state fp workspaceRoot effects afterRestore).1.markersAfter fp
        before := by
  unfold runInstall
  cases effects.install with
  | none => exact dropped
  | some answer =>
      by_cases success : answer.1 = 0
      · simp only [success, ↓reduceIte, runPostinstallPhase_markers, captureInstall_markers,
          RootOutcome.markersAfter, dropped]
      · simp only [success, ↓reduceIte]
        exact dropped

theorem runRestore_markersAfter (crates : Crates) (plugin : EcosystemPlugin) (state : InstallState) (fp : Bytes) (workspaceRoot : Path)
    (effects : RootEffects) :
    (runRestore crates plugin state fp workspaceRoot effects).2.markers =
      (runRestore crates plugin state fp workspaceRoot effects).1.markersAfter fp
        state.markers := by
  have installs (fs : FileSystem) := runInstall_markersAfter crates plugin
    { state with fs := fs, markers := state.markers.filter (· ≠ fp) } fp
    workspaceRoot effects true state.markers rfl
  rcases runRestore_cases crates plugin state fp workspaceRoot effects with
    ⟨_, _, ended⟩ | ⟨_, _, _, _, ended⟩ | ⟨fs, ended⟩
  · rw [ended]
    rfl
  · rw [ended]
    rfl
  · rw [ended]
    exact installs fs

theorem runRootTask_markersAfter (crates : Crates) (plugin : EcosystemPlugin) (state : InstallState) (task : Task) (effects : RootEffects) :
    (runRootTaskTwoPhase crates plugin state task effects).2.markers =
      (runRootTaskTwoPhase crates plugin state task effects).1.markersAfter
        (rootTaskFingerprint crates state.fs task) state.markers := by
  unfold runRootTaskTwoPhase
  simp only
  split
  · split
    · rfl
    · exact runRestore_markersAfter _ _ _ _ _ _
  · rename_i unmarked
    refine runInstall_markersAfter _ _ _ _ _ _ _ _ (List.filter_eq_self.mpr ?_).symm
    intro marker member
    rw [decide_eq_true_eq]
    rintro rfl
    exact unmarked (List.contains_iff_mem.mpr member)

theorem runInstall_dirs (crates : Crates) (plugin : EcosystemPlugin) (state : InstallState) {fp other : Bytes} (differ : other ≠ fp)
    (workspaceRoot : Path) (effects : RootEffects) (afterRestore : Bool) :
    (runInstall crates plugin state fp workspaceRoot effects afterRestore).2.dirs other =
      state.dirs other := by
  unfold runInstall
  cases effects.install with
  | none => rfl
  | some answer =>
      by_cases success : answer.1 = 0
      · simp only [success, ↓reduceIte, runPostinstallPhase, captureInstall]
        split
        · rfl
        · exact Function.update_of_ne differ _ _
      · simp only [success, ↓reduceIte]

theorem runRestore_dirs (crates : Crates) (plugin : EcosystemPlugin) (state : InstallState) {fp other : Bytes} (differ : other ≠ fp)
    (workspaceRoot : Path) (effects : RootEffects) :
    (runRestore crates plugin state fp workspaceRoot effects).2.dirs other = state.dirs other := by
  have installs (fs : FileSystem) := runInstall_dirs crates plugin
    { state with fs := fs, markers := state.markers.filter (· ≠ fp) } differ workspaceRoot effects
    true
  rcases runRestore_cases crates plugin state fp workspaceRoot effects with
    ⟨_, _, ended⟩ | ⟨_, _, _, _, ended⟩ | ⟨fs, ended⟩
  · rw [ended]
    rfl
  · rw [ended]
    rfl
  · rw [ended]
    exact installs fs

theorem runRootTask_dirs (crates : Crates) (plugin : EcosystemPlugin) (state : InstallState) (task : Task) (effects : RootEffects)
    {other : Bytes} (differ : other ≠ rootTaskFingerprint crates state.fs task) :
    (runRootTaskTwoPhase crates plugin state task effects).2.dirs other = state.dirs other := by
  unfold runRootTaskTwoPhase
  simp only
  split
  · split
    · rfl
    · exact runRestore_dirs _ _ _ differ _ _
  · exact runInstall_dirs _ _ _ differ _ _ _

end After

/-! Two states that look the same to a root run are treated the same. -/

section Run

variable {crates : Crates} {archives : Archives}
  {parseLockfile : FileSystem → Path → Option (List LockfilePackage)} {keys : Bytes → Prop}
  {fp : Bytes} {first second : InstallState} {workspaceRoot : Path} {effects : RootEffects}

theorem runPostinstallPhase_same (same : SameView keys fp first second)
    (within : PostinstallWithin keys effects) :
    SameView keys fp (runPostinstallPhase effects first) (runPostinstallPhase effects second) := by
  obtain ⟨sameFs, agree⟩ := within first.fs _ _ same.store
  rw [same.fs] at sameFs agree
  constructor
  · simp only [runPostinstallPhase, same.fs]
    exact sameFs
  · simp only [runPostinstallPhase, same.fs]
    exact agree
  · exact same.dir

theorem captureInstall_same (crates : Crates) (archives : Archives)
    (parseLockfile : FileSystem → Path → Option (List LockfilePackage))
    (same : SameView keys fp first second) (workspaceRoot : Path) (effects : RootEffects) :
    SameView keys fp
      (captureInstall crates (typeScriptPlugin crates archives parseLockfile) first fp
        workspaceRoot effects)
      (captureInstall crates (typeScriptPlugin crates archives parseLockfile) second fp
        workspaceRoot effects) := by
  simp only [captureInstall, typeScriptPlugin, same.fs, same.dir]
  split
  · exact ⟨rfl, captureFromLockfile_agree _ _ same.store, same.dir⟩
  · obtain ⟨sameDir, agree⟩ := captureAll_agree crates second.fs effects.walked
      ((second.dirs fp).getD []) same.store
    exact ⟨rfl, agree, by simp only [Function.update_self, sameDir]⟩

theorem runInstall_same (crates : Crates) (archives : Archives)
    (parseLockfile : FileSystem → Path → Option (List LockfilePackage))
    (same : SameView keys fp first second) (workspaceRoot : Path)
    (within : PostinstallWithin keys effects) (afterRestore : Bool) :
    (runInstall crates (typeScriptPlugin crates archives parseLockfile) first fp workspaceRoot
        effects afterRestore).1 =
      (runInstall crates (typeScriptPlugin crates archives parseLockfile) second fp workspaceRoot
        effects afterRestore).1 ∧
    SameView keys fp
      (runInstall crates (typeScriptPlugin crates archives parseLockfile) first fp workspaceRoot
        effects afterRestore).2
      (runInstall crates (typeScriptPlugin crates archives parseLockfile) second fp workspaceRoot
        effects afterRestore).2 := by
  unfold runInstall
  cases effects.install with
  | none => exact ⟨rfl, same⟩
  | some answer =>
      obtain ⟨exitCode, fs⟩ := answer
      have sameDisk : SameView keys fp { first with fs := fs } { second with fs := fs } :=
        ⟨rfl, same.store, same.dir⟩
      by_cases success : exitCode = 0
      · simp only [success, ↓reduceIte, true_and]
        have captured := captureInstall_same crates archives parseLockfile sameDisk
          workspaceRoot effects
        exact runPostinstallPhase_same ⟨captured.fs, captured.store, captured.dir⟩ within
      · simp only [success, ↓reduceIte, true_and]
        exact sameDisk

theorem lockfileRestore_same (same : SameView keys fp first second)
    (looks : LooksUp crates parseLockfile keys second fp workspaceRoot) :
    lockfileRestore crates (typeScriptPlugin crates archives parseLockfile) first workspaceRoot =
      lockfileRestore crates (typeScriptPlugin crates archives parseLockfile) second
        workspaceRoot := by
  simp only [lockfileRestore, typeScriptPlugin, same.fs]
  cases parsed : parseLockfile second.fs workspaceRoot with
  | none => rfl
  | some packages =>
      have looked := looks.lockfile packages parsed
      have present : (packages.all fun package =>
          first.store.containsKey (computeCasKey crates package.integrity)) =
          packages.all fun package =>
            second.store.containsKey (computeCasKey crates package.integrity) :=
        all_agree _ fun package member =>
          containsKey_agree same.store (looked package member)
      simp only [present, restoreFromCas_agree same.store workspaceRoot packages looked]

theorem runRestore_same (same : SameView keys fp first second)
    (looks : LooksUp crates parseLockfile keys second fp workspaceRoot)
    (within : PostinstallWithin keys effects) :
    (runRestore crates (typeScriptPlugin crates archives parseLockfile) first fp workspaceRoot
        effects).1 =
      (runRestore crates (typeScriptPlugin crates archives parseLockfile) second fp workspaceRoot
        effects).1 ∧
    SameView keys fp
      (runRestore crates (typeScriptPlugin crates archives parseLockfile) first fp workspaceRoot
        effects).2
      (runRestore crates (typeScriptPlugin crates archives parseLockfile) second fp workspaceRoot
        effects).2 := by
  have disk (fs : FileSystem) (firstMarkers secondMarkers : List Bytes) :
      SameView keys fp { first with fs := fs, markers := firstMarkers }
        { second with fs := fs, markers := secondMarkers } :=
    ⟨rfl, same.store, same.dir⟩
  have installs (fs : FileSystem) := runInstall_same crates archives parseLockfile
    (disk fs (first.markers.filter (· ≠ fp)) (second.markers.filter (· ≠ fp))) workspaceRoot
    within true
  simp only [runRestore, lockfileRestore_same same looks, same.dir,
    tryRestoreFromCas_agree same.store (second.dirs fp) workspaceRoot looks.files]
  generalize lockfileRestore crates (typeScriptPlugin crates archives parseLockfile) second
    workspaceRoot = fromLockfile
  obtain ⟨isRestored, extracted⟩ := fromLockfile
  cases isRestored with
  | true => exact ⟨rfl, runPostinstallPhase_same (disk _ _ _) within⟩
  | false =>
      generalize tryRestoreFromCas (second.dirs fp) workspaceRoot second.store extracted = fromFiles
      obtain ⟨isRestored, linked⟩ := fromFiles
      rcases isRestored with _ | _ | _
      · exact installs linked
      · exact installs linked
      · exact ⟨rfl, runPostinstallPhase_same (disk _ _ _) within⟩

theorem runRootTask_same {task : Task}
    (same : SameView keys (rootTaskFingerprint crates second.fs task) first second)
    (marked : rootTaskFingerprint crates second.fs task ∈ first.markers ↔
      rootTaskFingerprint crates second.fs task ∈ second.markers)
    (looks : LooksUp crates parseLockfile keys second
      (rootTaskFingerprint crates second.fs task) task.workspaceRoot)
    (within : PostinstallWithin keys effects) :
    (runRootTaskTwoPhase crates (typeScriptPlugin crates archives parseLockfile) first task
        effects).1 =
      (runRootTaskTwoPhase crates (typeScriptPlugin crates archives parseLockfile) second task
        effects).1 ∧
    SameView keys (rootTaskFingerprint crates second.fs task)
      (runRootTaskTwoPhase crates (typeScriptPlugin crates archives parseLockfile) first task
        effects).2
      (runRootTaskTwoPhase crates (typeScriptPlugin crates archives parseLockfile) second task
        effects).2 := by
  have isMarked : first.markers.contains (rootTaskFingerprint crates second.fs task) =
      second.markers.contains (rootTaskFingerprint crates second.fs task) := by
    rw [Bool.eq_iff_iff, List.contains_iff_mem, List.contains_iff_mem]
    exact marked
  simp only [runRootTaskTwoPhase, same.fs, isMarked]
  split
  · split
    · exact ⟨rfl, runPostinstallPhase_same same within⟩
    · exact runRestore_same same looks within
  · exact runInstall_same _ _ _ same _ within false

end Run

end Rage
