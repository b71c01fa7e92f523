import Rage.Lockfile

/-!
The postinstall tasks of a workspace and their keys.  A task takes its integrity string from the
first lockfile entry of its package's name, whatever version is installed.
-/

namespace Rage.PostinstallKeys

/-- What `package.json` has at `version` and at `scripts.postinstall`, where these are strings. -/
structure PackageJson where
  version : Option Bytes
  postinstall : Option (List Char)
  deriving DecidableEq

/-- A package directory, and the archive that it was installed from. -/
structure PackageDir where
  packageJson : Option PackageJson
  archive : Bytes
  deriving DecidableEq

/-- An entry of `node_modules`, or of a scope in it; a link to a directory is one. -/
structure ModuleEntry where
  name : Bytes
  isDir : Bool
  dir : PackageDir
  deriving DecidableEq

structure TopEntry extends ModuleEntry where
  inner : List ModuleEntry
  deriving DecidableEq

inductive ScriptPolicy
  | allDisabled
  | allowlist (names : List Bytes)
  | neverList (names : List Bytes)
  | allEnabled
  deriving DecidableEq

structure Workspace where
  policy : ScriptPolicy
  nodeModules : List TopEntry
  /-- What `parse_lockfile` yields. -/
  lockfile : Option (List LockfilePackage)
  deriving DecidableEq

structure RawPostinstallTask where
  packageName : Bytes
  script : List Char
  cwd : PackageDir
  deriving DecidableEq

structure PostinstallTask where
  packageName : Bytes
  version : Bytes
  tarballIntegrity : Bytes
  script : List Char
  cwd : PackageDir
  deriving DecidableEq

/-! `scan_postinstall_scripts` and `apply_policy`. -/

def isHidden (name : Bytes) : Bool := isPrefix (utf8 ".") name

def isScope (name : Bytes) : Bool := isPrefix (utf8 "@") name

def readPostinstallField (dir : PackageDir) : Option (List Char) :=
  ((dir.packageJson.bind PackageJson.postinstall).map Lockfile.trim).filter fun script =>
    !script.isEmpty

def scanEntry (scope : Bytes) (entry : ModuleEntry) : Option RawPostinstallTask :=
  if isHidden entry.name ∨ entry.isDir = false then none
  else (readPostinstallField entry.dir).map fun script => ⟨scope ++ entry.name, script, entry.dir⟩

def scanPostinstallScripts (nodeModules : List TopEntry) : List RawPostinstallTask :=
  nodeModules.flatMap fun entry =>
    if isScope entry.name then
      if entry.isDir then entry.inner.filterMap (scanEntry (entry.name ++ utf8 "/")) else []
    else (scanEntry [] entry.toModuleEntry).toList

def applyPolicy (tasks : List RawPostinstallTask) : ScriptPolicy → List RawPostinstallTask
  | .allDisabled => []
  | .allEnabled => tasks
  | .allowlist names => tasks.filter fun task => names.contains task.packageName
  | .neverList names => tasks.filter fun task => !names.contains task.packageName

/-! `postinstall_tasks` and `postinstall_cas_key`. -/

def readPkgVersion (dir : PackageDir) : Option Bytes := dir.packageJson.bind PackageJson.version

/-- `or_insert` keeps the first entry of a name. -/
def firstLocked (workspace : Workspace) (name : Bytes) : Option LockfilePackage :=
  (workspace.lockfile.getD []).find? fun package => package.name = name

def fallback (name : Bytes) : Bytes := utf8 "rage-fallback:" ++ name

def integrityFor (workspace : Workspace) (name : Bytes) : Bytes :=
  ((firstLocked workspace name).map LockfilePackage.integrity).getD (fallback name)

def postinstallTasks (workspace : Workspace) : List PostinstallTask :=
  if workspace.policy = .allDisabled then []
  else
    (applyPolicy (scanPostinstallScripts workspace.nodeModules) workspace.policy).map fun raw =>
      { packageName := raw.packageName
        version := (readPkgVersion raw.cwd).getD []
        tarballIntegrity := integrityFor workspace raw.packageName
        script := raw.script
        cwd := raw.cwd }

/-- `{os}-{arch}` and what `node --version` prints, or `unknown`. -/
structure Host where
  platform : Bytes
  nodeVersion : Bytes

def postinstallCasKey (crates : Crates) (host : Host) (task : PostinstallTask) : Bytes :=
  crates.blake3
    (task.tarballIntegrity ++ colon :: (host.platform ++ colon :: host.nodeVersion))

/-! What the key of a task should stand for. -/

structure SamePackage (first second : PostinstallTask) : Prop where
  name : first.packageName = second.packageName
  version : first.version = second.version
  archive : first.cwd.archive = second.cwd.archive
  script : first.script = second.script

/-- No two tasks get one integrity string, from their first lockfile entries or for the lack of
any, unless they are of the same package. -/
structure Identified (workspace other : Workspace) (first second : PostinstallTask) : Prop where
  locked : ∀ package lockedToo, firstLocked workspace first.packageName = some package →
    firstLocked other second.packageName = some lockedToo →
    package.integrity = lockedToo.integrity → SamePackage first second
  unlocked : firstLocked workspace first.packageName = none →
    firstLocked other second.packageName = none →
    first.packageName = second.packageName → SamePackage first second
  lockedAsFallback : ∀ package, firstLocked workspace first.packageName = some package →
    firstLocked other second.packageName = none →
    package.integrity = fallback second.packageName → SamePackage first second
  fallbackAsLocked : ∀ package, firstLocked workspace first.packageName = none →
    firstLocked other second.packageName = some package →
    fallback first.packageName = package.integrity → SamePackage first second

section

variable {crates : Crates} {host : Host} {workspace other : Workspace}
  {first second : PostinstallTask}

theorem postinstallCasKey_eq_iff (ideal : crates.Ideal) :
    postinstallCasKey crates host first = postinstallCasKey crates host second ↔
      first.tarballIntegrity = second.tarballIntegrity := by
  constructor
  · intro same
    exact List.append_cancel_right (ideal.injective same)
  · intro same
    rw [postinstallCasKey, postinstallCasKey, same]

theorem tarballIntegrity_eq (inTasks : first ∈ postinstallTasks workspace) :
    first.tarballIntegrity = integrityFor workspace first.packageName := by
  unfold postinstallTasks at inTasks
  split at inTasks
  · simp at inTasks
  · obtain ⟨raw, _, rfl⟩ := List.mem_map.mp inTasks
    rfl

theorem fallback_injective {name another : Bytes} (same : fallback name = fallback another) :
    name = another :=
  List.append_cancel_left same

theorem identified_iff :
    (integrityFor workspace first.packageName = integrityFor other second.packageName →
      SamePackage first second) ↔ Identified workspace other first second := by
  unfold integrityFor
  cases isFirst : firstLocked workspace first.packageName with
  | some package =>
      cases isSecond : firstLocked other second.packageName with
      | some lockedToo =>
          constructor
          · intro identifies
            constructor <;> simp_all
          · intro identified same
            exact identified.locked package lockedToo isFirst isSecond same
      | none =>
          constructor
          · intro identifies
            constructor <;> simp_all
          · intro identified same
            exact identified.lockedAsFallback package isFirst isSecond same
  | none =>
      cases isSecond : firstLocked other second.packageName with
      | some package =>
          constructor
          · intro identifies
            constructor <;> simp_all
          · intro identified same
            exact identified.fallbackAsLocked package isFirst isSecond same
      | none =>
          constructor
          · intro identifies
            constructor <;> simp_all
          · intro identified same
            exact identified.unlocked isFirst isSecond (fallback_injective same)

end

/-! Two workspaces with one package installed, in which an older version is locked as well. -/

def withEsbuild (lockfile version : String) : Workspace where
  policy := .allEnabled
  nodeModules :=
    [⟨⟨utf8 "esbuild", true, ⟨some ⟨some (utf8 version), some "node install.js".toList⟩,
      utf8 "esbuild@" ++ utf8 version⟩⟩, []⟩]
  lockfile := some (Lockfile.parseYarnClassicLockfile lockfile)

def esbuildTask (integrity version : String) : PostinstallTask where
  packageName := utf8 "esbuild"
  version := utf8 version
  tarballIntegrity := utf8 integrity
  script := "node install.js".toList
  cwd := ⟨some ⟨some (utf8 version), some "node install.js".toList⟩,
    utf8 "esbuild@" ++ utf8 version⟩

def olderLocked : String := "esbuild@^0.20.0:\n  version \"0.20.0\"\n  integrity sha512-A\n"

def bothLocked : String :=
  olderLocked ++ "\nesbuild@^0.21.0:\n  version \"0.21.5\"\n  integrity sha512-B\n"

def linuxHost : Host := ⟨utf8 "linux-x86_64", utf8 "v20.0.0"⟩

theorem esbuild_mem_older :
    esbuildTask "sha512-A" "0.20.0" ∈ postinstallTasks (withEsbuild olderLocked "0.20.0") := by
  decide +kernel

theorem esbuild_mem_both :
    esbuildTask "sha512-A" "0.21.5" ∈ postinstallTasks (withEsbuild bothLocked "0.21.5") := by
  decide +kernel

end Rage.PostinstallKeys
