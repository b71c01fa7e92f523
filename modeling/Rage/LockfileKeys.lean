import Rage.Lockfile
import Rage.Machine

/-!
Three key spaces in one store.  A lockfile entry is kept under the hash of its integrity string, a
file under the hash of its content and a postinstall manifest under the hash of a composed string.
-/

namespace Rage.LockfileKeys

/-! The cache of a package manager.  A file of it holds the archive of the package that its name was
made from; `tail` is what yarn appends: a hash, with the cache key for berry. -/

inductive Scheme
  | berry
  | classic
  deriving DecidableEq

structure CacheFile where
  scheme : Scheme
  name : Bytes
  version : Bytes
  tail : Bytes
  readable : Bool
  deriving DecidableEq

def dash : UInt8 := 45

def sanitized (name : Bytes) : Bytes := name.map fun byte => if byte = slash then dash else byte

def berryPrefix (name version : Bytes) : Bytes :=
  sanitized name ++ utf8 "-npm-" ++ version ++ utf8 "-"

def classicPrefix (name version : Bytes) : Bytes :=
  utf8 "npm-" ++ sanitized name ++ utf8 "-" ++ version ++ utf8 "-"

def CacheFile.fileName (file : CacheFile) : Bytes :=
  match file.scheme with
  | .berry => berryPrefix file.name file.version ++ file.tail ++ utf8 ".zip"
  | .classic => classicPrefix file.name file.version ++ file.tail ++ utf8 ".tgz"

/-- The files of the directory, in the order in which it is read. -/
abbrev CacheDir := List CacheFile

def findYarnBerryZip (cacheDir : CacheDir) (name version : Bytes) : Option CacheFile :=
  cacheDir.find? fun file =>
    isPrefix (berryPrefix name version) file.fileName && isSuffix (utf8 ".zip") file.fileName

def findYarnClassicTgz (cacheDir : CacheDir) (name version : Bytes) : Option CacheFile :=
  cacheDir.find? fun file =>
    isPrefix (classicPrefix name version) file.fileName && isSuffix (utf8 ".tgz") file.fileName

/-- Berry first; a file that is found and cannot be read is not looked for elsewhere. -/
def findArchive (pmCache : Option CacheDir) (name version : Bytes) : Option CacheFile :=
  pmCache.bind fun cacheDir =>
    ((findYarnBerryZip cacheDir name version).or (findYarnClassicTgz cacheDir name version)).filter
      fun file => file.readable

section

variable (archive : Scheme → Bytes → Bytes → Bytes)

def CacheFile.content (file : CacheFile) : Bytes := archive file.scheme file.name file.version

/-- The bytes are the zip or the tarball of exactly this name and version. -/
def IsArchive (package : LockfilePackage) (bytes : Bytes) : Prop :=
  ∃ scheme, bytes = archive scheme package.name package.version

inductive Event
  | capture (package : LockfilePackage) (pmCache : Option CacheDir)
  /-- A file of `capture_package` or of `capture_dir`. -/
  | putContent (bytes : Bytes)
  /-- A manifest or a sentinel under the hash of the composed string. -/
  | storePostinstall (composed bytes : Bytes)
  deriving DecidableEq

variable (crates : Crates)

def step (store : ArtifactStore) : Event → ArtifactStore
  | .capture package pmCache =>
      captureFromLockfilePackages crates
        (fun name version => (findArchive pmCache name version).map (CacheFile.content archive))
        [package] store
  | .putContent bytes => store.putBytes crates bytes
  | .storePostinstall composed bytes => store.putBytesKeyed (crates.blake3 composed) bytes

theorem captureFromLockfilePackages_steps (pmCache : Option CacheDir)
    (packages : List LockfilePackage) (store : ArtifactStore) :
    captureFromLockfilePackages crates
        (fun name version => (findArchive pmCache name version).map (CacheFile.content archive))
        packages store =
      (packages.map fun package => Event.capture package pmCache).foldl (step archive crates)
        store := by
  rw [List.foldl_map]
  rfl

theorem capturePackage_steps (fs : FileSystem) (store : ArtifactStore) (ref : PathsetPackageRef) :
    (capturePackage crates fs store ref).2 =
      ((packageFiles fs ref.packageRoot).map fun file => Event.putContent file.2).foldl
        (step archive crates) store := by
  rw [List.foldl_map]
  rfl

/-- The text whose hash is the key, and the bytes to be stored under it. -/
def hashedText : Event → Option (Bytes × Bytes)
  | .capture package pmCache =>
      (findArchive pmCache package.name package.version).map fun file =>
        (package.integrity, file.content archive)
  | .putContent bytes => some (bytes, bytes)
  | .storePostinstall composed bytes => some (composed, bytes)

/-- Under a new key, a text that is the integrity string of a lockfile entry goes with that entry's
archive. -/
def Fits (entries : LockfilePackage → Prop) (store : ArtifactStore) (event : Event) : Prop :=
  ∀ text bytes, hashedText archive event = some (text, bytes) →
    store.containsKey (crates.blake3 text) = false →
      ∀ package, entries package → package.integrity = text → IsArchive archive package bytes

def Denotes (entries : LockfilePackage → Prop) (store : ArtifactStore) : Prop :=
  ∀ package, entries package → ∀ bytes,
    store (computeCasKey crates package.integrity) = some bytes → IsArchive archive package bytes

end

section

variable {archive : Scheme → Bytes → Bytes → Bytes} {crates : Crates}
  {entries : LockfilePackage → Prop} {store : ArtifactStore}

theorem step_hashedText (event : Event) :
    step archive crates store event =
      match hashedText archive event with
      | some (text, bytes) => store.putBytesKeyed (crates.blake3 text) bytes
      | none => store := by
  cases event with
  | capture package pmCache =>
      cases found : findArchive pmCache package.name package.version with
      | none => simp [step, captureFromLockfilePackages, hashedText, found]
      | some file =>
          simp [step, captureFromLockfilePackages, hashedText, found, computeCasKey]
  | putContent bytes => rfl
  | storePostinstall composed bytes => rfl

/-- A text that is hashed into the store means its bytes for every entry with that integrity. -/
theorem putBytesKeyed_denotes_iff (ideal : crates.Ideal) (denotes : Denotes archive crates entries store)
    (text bytes : Bytes) :
    Denotes archive crates entries (store.putBytesKeyed (crates.blake3 text) bytes) ↔
      (store.containsKey (crates.blake3 text) = false →
        ∀ package, entries package → package.integrity = text →
          IsArchive archive package bytes) := by
  unfold ArtifactStore.putBytesKeyed
  by_cases present : store.containsKey (crates.blake3 text) = true
  · simp [present, denotes]
  · have absent : store.containsKey (crates.blake3 text) = false := by simpa using present
    simp only [absent, Bool.false_eq_true, ↓reduceIte, forall_const]
    constructor
    · rintro after package entry rfl
      exact after package entry bytes (by simp [computeCasKey])
    · intro fits package entry found isStored
      by_cases same : package.integrity = text
      · rw [computeCasKey, same, Function.update_self] at isStored
        obtain rfl := Option.some.inj isStored
        exact fits package entry same
      · have apart : crates.blake3 package.integrity ≠ crates.blake3 text :=
          fun equal => same (ideal.injective equal)
        rw [computeCasKey, Function.update_of_ne apart] at isStored
        exact denotes package entry found isStored

theorem step_denotes_iff (ideal : crates.Ideal) (denotes : Denotes archive crates entries store)
    (event : Event) :
    Denotes archive crates entries (step archive crates store event) ↔
      Fits archive crates entries store event := by
  rw [step_hashedText]
  unfold Fits
  cases hashed : hashedText archive event with
  | none => simp [denotes]
  | some write =>
      rw [putBytesKeyed_denotes_iff ideal denotes]
      constructor
      · intro after text bytes same
        obtain ⟨rfl, rfl⟩ := Prod.mk.inj (Option.some.inj same)
        exact after
      · intro fits
        exact fits write.1 write.2 rfl

def machine (archive : Scheme → Bytes → Bytes → Bytes) (crates : Crates) (store : ArtifactStore)
    (event : Event) : Option ArtifactStore :=
  some (step archive crates store event)

theorem keys_denote_iff (ideal : crates.Ideal)
    (reached : Machine.Reachable (machine archive crates) (Fits archive crates entries)
      (fun _ => none) store) :
    Denotes archive crates entries store ∧
      ∀ event, Denotes archive crates entries (step archive crates store event) ↔
        Fits archive crates entries store event := by
  have denotes : Denotes archive crates entries store := by
    apply reached.invariant (Denotes archive crates entries)
    · intro package _ bytes isStored
      simp at isStored
    · intro before event after holds fits taken
      obtain rfl := Option.some.inj taken
      exact (step_denotes_iff ideal holds event).mpr fits
  exact ⟨denotes, step_denotes_iff ideal denotes⟩

/-- A capture is right where the integrity string is the package's own and only files of the
package match its prefix. -/
theorem capture_fits {package : LockfilePackage} {cacheDir : CacheDir}
    (own : ∀ other, entries other → other.integrity = package.integrity →
      other.name = package.name ∧ other.version = package.version)
    (sole : ∀ file ∈ cacheDir,
      isPrefix (berryPrefix package.name package.version) file.fileName = true ∨
        isPrefix (classicPrefix package.name package.version) file.fileName = true →
      file.name = package.name ∧ file.version = package.version) :
    Fits archive crates entries store (.capture package (some cacheDir)) := by
  intro text bytes hashed _ other entry same
  obtain ⟨file, found, written⟩ := Option.map_eq_some_iff.mp hashed
  obtain ⟨rfl, rfl⟩ := Prod.mk.inj written
  obtain ⟨picked, _⟩ := Option.filter_eq_some_iff.mp found
  have owner : file.name = package.name ∧ file.version = package.version := by
    rcases Option.or_eq_some_iff.mp picked with berry | ⟨_, classic⟩
    · have isMatch := List.find?_some berry
      simp only [Bool.and_eq_true] at isMatch
      exact sole file (List.mem_of_find?_eq_some berry) (Or.inl isMatch.1)
    · have isMatch := List.find?_some classic
      simp only [Bool.and_eq_true] at isMatch
      exact sole file (List.mem_of_find?_eq_some classic) (Or.inr isMatch.1)
  obtain ⟨name, version⟩ := own other entry same
  exact ⟨file.scheme, by rw [CacheFile.content, owner.1, owner.2, name, version]⟩

end

/-! Two packages of one lockfile, and their tarballs in the cache of yarn classic. -/

def nameAtVersion (_ : Scheme) (name version : Bytes) : Bytes := name ++ utf8 "@" ++ version

def tarball (name version : String) : CacheFile :=
  ⟨.classic, utf8 name, utf8 version, utf8 "0", true⟩

def bothTarballs : CacheDir := [tarball "a" "1.0.0", tarball "b" "2.0.0"]

def lockedPackages (content : String) (package : LockfilePackage) : Prop :=
  package ∈ Lockfile.parseYarnClassicLockfile content

def withIntegrity : String :=
  "a@^1.0.0:\n  version \"1.0.0\"\n  integrity sha1-A\n\n" ++
    "b@^2.0.0:\n  version \"2.0.0\"\n  integrity sha1-B\n"

def withoutIntegrity : String :=
  "a@^1.0.0:\n  version \"1.0.0\"\n  resolved \"https://r/a-1.0.0.tgz\"\n\n" ++
    "b@^2.0.0:\n  version \"2.0.0\"\n  resolved \"https://r/b-2.0.0.tgz\"\n"

def packageA (integrity : String) : LockfilePackage :=
  ⟨utf8 "a", utf8 "1.0.0", utf8 integrity⟩

def packageB (integrity : String) : LockfilePackage :=
  ⟨utf8 "b", utf8 "2.0.0", utf8 integrity⟩

theorem withIntegrity_parsed :
    Lockfile.parseYarnClassicLockfile withIntegrity = [packageA "sha1-A", packageB "sha1-B"] := by
  decide +kernel

theorem withoutIntegrity_parsed :
    Lockfile.parseYarnClassicLockfile withoutIntegrity = [packageA "", packageB ""] := by
  decide +kernel

theorem keys_denote_iff_captured :
    Denotes nameAtVersion Crates.plain (lockedPackages withIntegrity)
        (step nameAtVersion Crates.plain (fun _ => none)
          (.capture (packageA "sha1-A") (some bothTarballs))) ∧
      ∀ event, Denotes nameAtVersion Crates.plain (lockedPackages withIntegrity)
          (step nameAtVersion Crates.plain (step nameAtVersion Crates.plain (fun _ => none)
            (.capture (packageA "sha1-A") (some bothTarballs))) event) ↔
        Fits nameAtVersion Crates.plain (lockedPackages withIntegrity)
          (step nameAtVersion Crates.plain (fun _ => none)
            (.capture (packageA "sha1-A") (some bothTarballs))) event := by
  refine keys_denote_iff Crates.plain_ideal (.tail _ .refl (capture_fits ?_ ?_) rfl)
  · intro other entry same
    rw [lockedPackages, withIntegrity_parsed] at entry
    simp only [List.mem_cons, List.not_mem_nil, or_false] at entry
    rcases entry with rfl | rfl
    · exact ⟨rfl, rfl⟩
    · exact absurd same (by decide)
  · decide +kernel

/-- Two entries without integrity: what is kept for `b` is the tarball of `a`. -/
theorem empty_integrity_shared :
    ∃ store, Machine.run (machine nameAtVersion Crates.plain) (fun _ => none)
        ((Lockfile.parseYarnClassicLockfile withoutIntegrity).map fun package =>
          .capture package (some bothTarballs)) = some store ∧
      lockedPackages withoutIntegrity (packageB "") ∧
      store (computeCasKey Crates.plain (packageB "").integrity) = some (utf8 "a@1.0.0") ∧
      ¬ IsArchive nameAtVersion (packageB "") (utf8 "a@1.0.0") := by
  rw [lockedPackages, withoutIntegrity_parsed]
  refine ⟨_, rfl, by simp, by decide +kernel, ?_⟩
  rintro ⟨scheme, same⟩
  cases scheme <;> exact absurd same (by decide +kernel)

end Rage.LockfileKeys
