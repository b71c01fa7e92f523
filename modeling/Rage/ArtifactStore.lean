import Rage.Fingerprint

/-!
The artifact store: content files under 32-byte keys, packages captured into it file by
file or archive by archive, and both ways back into `node_modules`.
-/

namespace Rage

abbrev ArtifactStore := Bytes → Option Bytes

namespace ArtifactStore

def containsKey (store : ArtifactStore) (key : Bytes) : Bool := (store key).isSome

/-- A key that is present keeps its content. -/
def putBytesKeyed (store : ArtifactStore) (key bytes : Bytes) : ArtifactStore :=
  if store.containsKey key then store else Function.update store key (some bytes)

def putBytes (crates : Crates) (store : ArtifactStore) (bytes : Bytes) : ArtifactStore :=
  store.putBytesKeyed (crates.blake3 bytes) bytes

def link (store : ArtifactStore) (hash : Bytes) (target : Location) (fs : FileSystem) :
    Option FileSystem :=
  (store hash).map fun content => fs.writeFile target content

end ArtifactStore

structure PackageArtifact where
  name : Bytes
  version : Bytes
  files : List (Path × Bytes)
  deriving DecidableEq

structure PathsetPackageRef where
  name : Bytes
  version : Bytes
  packageRoot : Path
  deriving DecidableEq

/-! The per-package files of one artifact directory.  A file that does not parse is skipped;
one that cannot be read is an error. -/

inductive ManifestFile
  | artifact (artifact : PackageArtifact)
  | unparsable
  | unreadable
  deriving DecidableEq

abbrev ArtifactDir := List (Bytes × ManifestFile)

section FileLevel

variable (crates : Crates)

def packageFiles (fs : FileSystem) (packageRoot : Path) : List (Path × Bytes) :=
  ((fs.walkFiles [] (components packageRoot)).filterMap fun walked =>
    match walked.2 with
    | .file content true => some (joinNames walked.1, content)
    | _ => none).insertionSort fun first second => Path.le first.1 second.1

def capturePackage (fs : FileSystem) (store : ArtifactStore) (ref : PathsetPackageRef) :
    PackageArtifact × ArtifactStore :=
  let files := packageFiles fs ref.packageRoot
  (⟨ref.name, ref.version, files.map fun file => (file.1, crates.blake3 file.2)⟩,
    files.foldl (fun store file => store.putBytes crates file.2) store)

def packageFilename (name version : Bytes) : Bytes :=
  name.map (fun byte => if byte = slash then 43 else byte) ++ utf8 "@" ++ version ++ utf8 ".json"

def hasEntry (dir : ArtifactDir) (filename : Bytes) : Bool :=
  dir.any fun file => file.1 == filename

def maxNewPackagesPerCapture : Nat := 20

def captureLoop (fs : FileSystem) :
    Nat → List PathsetPackageRef → ArtifactDir × ArtifactStore → ArtifactDir × ArtifactStore
  | _, [], state => state
  | 0, _ :: _, state => state
  | budget + 1, ref :: refs, (dir, store) =>
      let filename := packageFilename ref.name ref.version
      if hasEntry dir filename || (fs.stat ref.packageRoot).isNone then
        captureLoop fs (budget + 1) refs (dir, store)
      else
        let captured := capturePackage crates fs store ref
        captureLoop fs budget refs (dir ++ [(filename, .artifact captured.1)], captured.2)

def captureNow (fs : FileSystem) (refs : List PathsetPackageRef) (dir : Option ArtifactDir)
    (store : ArtifactStore) : Option ArtifactDir × ArtifactStore :=
  if refs.isEmpty then (dir, store)
  else
    let captured := captureLoop crates fs maxNewPackagesPerCapture refs (dir.getD [], store)
    (some captured.1, captured.2)

end FileLevel

def isManifestName (filename : Bytes) : Bool :=
  isSuffix (utf8 ".json") filename && filename != utf8 ".json"

def readManifests (dir : ArtifactDir) : Option (List PackageArtifact) :=
  let files := (dir.filter fun file => isManifestName file.1).map Prod.snd
  if files.contains .unreadable then none
  else some (files.filterMap fun
    | .artifact artifact => some artifact
    | _ => none)

def restoreFiles (store : ArtifactStore) (packageRoot : Path) :
    List (Path × Bytes) → FileSystem → Option FileSystem
  | [], fs => some fs
  | (rel, hash) :: files, fs =>
      (store.link hash (components (packageRoot.join rel)) fs).bind
        (restoreFiles store packageRoot files)

def restorePackage (store : ArtifactStore) (targetDir : Path) (artifact : PackageArtifact)
    (fs : FileSystem) : Option FileSystem :=
  restoreFiles store (targetDir.join artifact.name) artifact.files fs

def restorePackages (store : ArtifactStore) (targetDir : Path) :
    List PackageArtifact → FileSystem → Option FileSystem
  | [], fs => some fs
  | artifact :: artifacts, fs =>
      (restorePackage store targetDir artifact fs).bind (restorePackages store targetDir artifacts)

/-- What `try_restore_from_cas` returns (`none` for an error), and the disk that it leaves. -/
def tryRestoreFromCas (dir : Option ArtifactDir) (workspaceRoot : Path) (store : ArtifactStore)
    (fs : FileSystem) : Option Bool × FileSystem :=
  match dir with
  | none => (some false, fs)
  | some dir =>
      match readManifests dir with
      | none => (none, fs)
      | some packages =>
          if packages.isEmpty then (some false, fs)
          else if packages.all fun package =>
              package.files.all fun file => store.containsKey file.2 then
            match restorePackages store (workspaceRoot.join (utf8 "node_modules")) packages fs with
            | some restored => (some true, restored)
            | none => (none, fs)
          else (some false, fs)

/-! Archives.  The entries of an archive are what the zip and tar crates list before they are
done or give up; a directory has no content. -/

structure LockfilePackage where
  name : Bytes
  version : Bytes
  integrity : Bytes
  deriving DecidableEq

structure Archives where
  zip : Bytes → List (Path × Option Bytes) × Bool
  tgz : Bytes → List (Path × Option Bytes) × Bool

def extractEntry (target : Path) (fs : FileSystem) (entry : Path × Option Bytes) : FileSystem :=
  match entry.2 with
  | some content => fs.writeFile (components (target.join entry.1)) content
  | none => fs.createDirAll (components (target.join entry.1))

def stripPackage (path : Path) : Path :=
  if path = utf8 "package" then []
  else if isPrefix (utf8 "package/") path then (path.drop 7).dropWhile (· = slash)
  else path

section LockfileLevel

variable (crates : Crates) (archives : Archives)

def extractYarnZipToWorkspace (bytes : Bytes) (targetDir : Path) (fs : FileSystem) :
    Bool × FileSystem :=
  let entries := archives.zip bytes
  (entries.2, entries.1.foldl (extractEntry targetDir) fs)

def extractYarnClassicTgzToWorkspace (bytes pkgName : Bytes) (workspaceRoot : Path)
    (fs : FileSystem) : Bool × FileSystem :=
  let entries := archives.tgz bytes
  let destDir := (workspaceRoot.join (utf8 "node_modules")).join pkgName
  let kept := (entries.1.map fun entry => (stripPackage entry.1, entry.2)).filter
    fun entry => !entry.1.isEmpty
  (entries.2, kept.foldl (extractEntry destDir) fs)

def computeCasKey (integrity : Bytes) : Bytes := crates.blake3 integrity

def extractPackage (package : LockfilePackage) (bytes : Bytes) (workspaceRoot : Path)
    (fs : FileSystem) : Bool × FileSystem :=
  if isPrefix (utf8 "PK") bytes then extractYarnZipToWorkspace archives bytes workspaceRoot fs
  else extractYarnClassicTgzToWorkspace archives bytes package.name workspaceRoot fs

def restoreFromCas (store : ArtifactStore) (workspaceRoot : Path) :
    List LockfilePackage → FileSystem → Bool × FileSystem
  | [], fs => (true, fs)
  | package :: packages, fs =>
      match store (computeCasKey crates package.integrity) with
      | none =>
          let rest := restoreFromCas store workspaceRoot packages fs
          (false, rest.2)
      | some bytes =>
          let extracted := extractPackage archives package bytes workspaceRoot fs
          let rest := restoreFromCas store workspaceRoot packages extracted.2
          (extracted.1 && rest.1, rest.2)

/-- `pmCache` is what `find_yarn_berry_zip` or `find_yarn_classic_tgz` finds for a name and a
version. -/
def captureFromLockfilePackages (pmCache : Bytes → Bytes → Option Bytes)
    (packages : List LockfilePackage) (store : ArtifactStore) : ArtifactStore :=
  packages.foldl (fun store package =>
    match pmCache package.name package.version with
    | some bytes => store.putBytesKeyed (computeCasKey crates package.integrity) bytes
    | none => store) store

def verifyInstallEffects (fs : FileSystem) (workspaceRoot : Path) : Bool :=
  let nodeModules := components (workspaceRoot.join (utf8 "node_modules"))
  fs.nodeAt nodeModules == some .directory && fs.locations.any fun location =>
    nodeModules.isPrefixOf location && nodeModules.length < location.length

end LockfileLevel

end Rage
