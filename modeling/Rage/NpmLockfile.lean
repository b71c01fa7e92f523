import Rage.Extraction
import Rage.Lockfile
import Rage.Utf8Text

/-!
The packages of a `package-lock.json`.  A key of the lockfile is the directory into which npm
installs; a restore rebuilds that directory from the name of a package.
-/

namespace Rage.NpmLockfile

open Extraction (DiskPath toPiece toTarget)
open Lockfile (UrlPackage urlPackageLe)

/-- `serde_json::Value`. -/
inductive Value
  | null
  | bool (value : Bool)
  | number (text : Bytes)
  | string (text : Bytes)
  | array (items : List Value)
  | object (members : List (Bytes × Value))

namespace Value

def asObject : Value → Option (List (Bytes × Value))
  | .object members => some members
  | _ => none

def asBool : Value → Option Bool
  | .bool value => some value
  | _ => none

def asStr : Value → Option Bytes
  | .string text => some text
  | _ => none

def get (value : Value) (key : Bytes) : Option Value :=
  value.asObject.bind fun members => members.lookup key

end Value

def modulesPrefix : Bytes := utf8 "node_modules/"

/-- `strip_prefix("node_modules/").unwrap_or(key)`. -/
def packageName (key : Bytes) : Bytes :=
  if isPrefix modulesPrefix key then key.drop modulesPrefix.length else key

def isLink (pkg : Value) : Bool := ((pkg.get (utf8 "link")).bind Value.asBool).getD false

def integrityOf (pkg : Value) : Bytes := ((pkg.get (utf8 "integrity")).bind Value.asStr).getD []

def readEntry (entry : Bytes × Value) : Option UrlPackage :=
  let (key, pkg) := entry
  let name := packageName key
  if name = [] then none
  else if isLink pkg then none
  else if integrityOf pkg = [] then none
  else some
    { name
      version := ((pkg.get (utf8 "version")).bind Value.asStr).getD []
      integrity := integrityOf pkg
      tarballUrl := (pkg.get (utf8 "resolved")).bind Value.asStr }

def entriesOf (lock : Value) : List (Bytes × Value) :=
  ((lock.get (utf8 "packages")).bind Value.asObject).getD []

/-- `fromStr` is `serde_json::from_str`. -/
def parseNpmLockfile (fromStr : Bytes → Option Value) (content : Bytes) : List UrlPackage :=
  match fromStr content with
  | none => []
  | some lock =>
      ((entriesOf lock).filterMap readEntry).insertionSort fun first second =>
        urlPackageLe first second

/-! Where npm installs, and where a restore extracts. -/

def npmDir (workspaceRoot : DiskPath) (key : Bytes) : DiskPath :=
  Extraction.join workspaceRoot (toTarget key)

def restoreDir (workspaceRoot : DiskPath) (name : Bytes) : DiskPath :=
  Extraction.join (Extraction.nodeModules workspaceRoot) (toTarget name)

/-- A relative path as npm writes it: it may leave the workspace at its beginning only. -/
def IsLocation (key : Bytes) : Prop :=
  ∃ climbs names, key.splitOn slash = List.replicate climbs (utf8 "..") ++ names ∧
    ∀ name ∈ names, toTarget name = ⟨false, [.name name]⟩

/-- The entries with an integrity have a location each and are no links: of a link npm writes
nothing but its target. -/
structure WellFormed (lock : Value) : Prop where
  location : ∀ entry ∈ entriesOf lock, integrityOf entry.2 ≠ [] → IsLocation entry.1
  unlinked : ∀ entry ∈ entriesOf lock, integrityOf entry.2 ≠ [] → isLink entry.2 = false

/-- Each entry with an integrity has its package, whose archive is extracted into the directory
that npm uses, and no two of them share a directory. -/
structure InPlace (packages : List UrlPackage) (lock : Value) (workspaceRoot : DiskPath) : Prop where
  placed : ∀ entry ∈ entriesOf lock, integrityOf entry.2 ≠ [] → ∃ package ∈ packages,
    readEntry entry = some package ∧
      restoreDir workspaceRoot package.name = npmDir workspaceRoot entry.1
  extracted : ∀ entry ∈ entriesOf lock, ∀ package, readEntry entry = some package →
    ∀ {ε : Type} (around : Extraction.Surroundings ε) (bytes : Bytes),
      isPrefix (utf8 "PK") bytes = false →
        Extraction.extractPackage around package.toLockfilePackage bytes workspaceRoot =
          Extraction.extractEach
            (Extraction.extractTarEntry around (npmDir workspaceRoot entry.1)) (around.tgz bytes)
  apart : ∀ entry ∈ entriesOf lock, ∀ other ∈ entriesOf lock, entry.1 ≠ other.1 →
    ∀ package otherPackage, readEntry entry = some package → readEntry other = some otherPackage →
      restoreDir workspaceRoot package.name ≠ restoreDir workspaceRoot otherPackage.name

/-! The pieces of a location name its parts. -/

section

variable {key : Bytes}

theorem plain_part {name : Bytes} (plain : toTarget name = ⟨false, [.name name]⟩) :
    name ≠ [] ∧ toPiece name = .name name := by
  have pieces : (name.splitOn slash).map toPiece = [.name name] := congrArg (·.pieces) plain
  obtain ⟨part, isSplit, isPiece⟩ := List.map_eq_singleton_iff.mp pieces
  have isName : part = name := by
    have whole : [slash].intercalate (name.splitOn slash) = name := List.intercalate_splitOn slash
    rw [isSplit] at whole
    simpa using whole
  subst part
  refine ⟨?_, isPiece⟩
  rintro rfl
  simp [toPiece] at isPiece

def partOf : Posix.Piece Bytes → Bytes
  | .name name => name
  | .dotdot => utf8 ".."
  | .dot => []

theorem IsLocation.part (location : IsLocation key) {part : Bytes}
    (member : part ∈ key.splitOn slash) : part ≠ [] ∧ partOf (toPiece part) = part := by
  obtain ⟨climbs, names, isSplit, plain⟩ := location
  rw [isSplit, List.mem_append] at member
  rcases member with climbs | isName
  · rw [(List.mem_replicate.mp climbs).2]
    decide
  · obtain ⟨filled, isPiece⟩ := plain_part (plain part isName)
    exact ⟨filled, by rw [isPiece, partOf]⟩

theorem relative_of_parts (filled : ∀ part ∈ key.splitOn slash, part ≠ []) :
    toTarget key = ⟨false, (key.splitOn slash).map toPiece⟩ := by
  have relative : key.head? ≠ some slash := by
    intro absolute
    obtain ⟨rest, rfl⟩ := List.head?_eq_some_iff.mp absolute
    refine filled [] ?_ rfl
    rw [List.splitOn_cons_eq_if_modifyHead]
    simp
  simp [toTarget, relative]

theorem IsLocation.npmDir_eq (location : IsLocation key) (workspaceRoot : DiskPath) :
    npmDir workspaceRoot key = workspaceRoot ++ (key.splitOn slash).map toPiece := by
  rw [npmDir, relative_of_parts fun part member => (location.part member).1]
  rfl

theorem IsLocation.eq_of_pieces {other : Bytes} (location : IsLocation key)
    (otherLocation : IsLocation other)
    (same : (key.splitOn slash).map toPiece = (other.splitOn slash).map toPiece) : key = other := by
  have parts {spelled : Bytes} (location : IsLocation spelled) :
      ((spelled.splitOn slash).map toPiece).map partOf = spelled.splitOn slash := by
    rw [List.map_map]
    exact (List.map_congr_left fun part member => (location.part member).2).trans (List.map_id _)
  have split : key.splitOn slash = other.splitOn slash := by
    rw [← parts location, same, parts otherLocation]
  have whole : [slash].intercalate (key.splitOn slash) = key := List.intercalate_splitOn slash
  rw [split, List.intercalate_splitOn] at whole
  exact whole.symm

theorem modules_split (rest : Bytes) :
    (modulesPrefix ++ rest).splitOn slash = utf8 "node_modules" :: rest.splitOn slash := by
  have isPrefix : modulesPrefix = utf8 "node_modules" ++ [slash] := by decide
  have plain : slash ∉ utf8 "node_modules" := by decide
  rw [isPrefix, List.append_assoc, List.singleton_append,
    List.splitOn_append_cons_self_of_not_mem plain]

end

/-! When the directories agree. -/

section

variable {key : Bytes} (workspaceRoot : DiskPath)

theorem restoreDir_installed {rest : Bytes} (location : IsLocation (modulesPrefix ++ rest)) :
    rest ≠ [] ∧ restoreDir workspaceRoot rest = npmDir workspaceRoot (modulesPrefix ++ rest) := by
  have filled : ∀ part ∈ rest.splitOn slash, part ≠ [] := by
    intro part member
    refine (location.part ?_).1
    rw [modules_split]
    exact List.mem_cons_of_mem _ member
  constructor
  · rintro rfl
    exact filled [] (by simp) rfl
  · have isModules : toPiece (utf8 "node_modules") = .name (utf8 "node_modules") := by decide
    rw [location.npmDir_eq, modules_split, restoreDir, relative_of_parts filled, List.map_cons,
      isModules]
    simp [Extraction.join, Extraction.nodeModules]

theorem restoreDir_elsewhere (location : IsLocation key) :
    restoreDir workspaceRoot key ≠ npmDir workspaceRoot key := by
  intro same
  rw [location.npmDir_eq, restoreDir,
    relative_of_parts fun part member => (location.part member).1] at same
  have lengths := congrArg List.length same
  simp [Extraction.join, Extraction.nodeModules] at lengths

end

section

variable {lock : Value}

theorem packageName_installed (rest : Bytes) : packageName (modulesPrefix ++ rest) = rest := by
  simp [packageName, isPrefix]

theorem packageName_elsewhere {key : Bytes} (elsewhere : isPrefix modulesPrefix key = false) :
    packageName key = key := by
  simp [packageName, elsewhere]

theorem readEntry_some {entry : Bytes × Value} {package : UrlPackage}
    (isRead : readEntry entry = some package) :
    package.name = packageName entry.1 ∧ integrityOf entry.2 ≠ [] := by
  simp only [readEntry] at isRead
  split at isRead
  · simp at isRead
  · split at isRead
    · simp at isRead
    · split at isRead
      · simp at isRead
      · rename_i hasIntegrity
        obtain rfl := Option.some.inj isRead
        exact ⟨rfl, hasIntegrity⟩

theorem readEntry_isSome {entry : Bytes × Value} (named : packageName entry.1 ≠ [])
    (unlinked : isLink entry.2 = false) (hasIntegrity : integrityOf entry.2 ≠ []) :
    ∃ package, readEntry entry = some package := by
  simp [readEntry, named, unlinked, hasIntegrity]

theorem mem_parseNpmLockfile {fromStr : Bytes → Option Value} {content : Bytes}
    (isLock : fromStr content = some lock) {entry : Bytes × Value} {package : UrlPackage}
    (member : entry ∈ entriesOf lock) (isRead : readEntry entry = some package) :
    package ∈ parseNpmLockfile fromStr content := by
  rw [parseNpmLockfile, isLock]
  exact (List.mem_insertionSort _).mpr (List.mem_filterMap.mpr ⟨entry, member, isRead⟩)

/-- Keys of hoisted and of nested packages lead back to their directories; a key that begins with
the directory of a workspace does not. -/
theorem npm_in_place_iff (fromStr : Bytes → Option Value) (content : Bytes) {lock : Value}
    (isLock : fromStr content = some lock) (wellFormed : WellFormed lock)
    (workspaceRoot : DiskPath) :
    InPlace (parseNpmLockfile fromStr content) lock workspaceRoot ↔
      ∀ entry ∈ entriesOf lock, integrityOf entry.2 ≠ [] →
        isPrefix modulesPrefix entry.1 = true := by
  constructor
  · intro inPlace entry member hasIntegrity
    obtain ⟨package, -, isRead, same⟩ := inPlace.placed entry member hasIntegrity
    by_contra elsewhere
    rw [Bool.not_eq_true] at elsewhere
    rw [(readEntry_some isRead).1, packageName_elsewhere elsewhere] at same
    exact restoreDir_elsewhere workspaceRoot (wellFormed.location entry member hasIntegrity) same
  · intro installed
    have leads : ∀ entry ∈ entriesOf lock, integrityOf entry.2 ≠ [] →
        packageName entry.1 ≠ [] ∧
          restoreDir workspaceRoot (packageName entry.1) = npmDir workspaceRoot entry.1 := by
      intro entry member hasIntegrity
      have location := wellFormed.location entry member hasIntegrity
      obtain ⟨rest, isKey⟩ := isPrefix_iff.mp (installed entry member hasIntegrity)
      rw [← isKey] at location ⊢
      rw [packageName_installed]
      exact restoreDir_installed workspaceRoot location
    have places : ∀ entry ∈ entriesOf lock, ∀ package, readEntry entry = some package →
        restoreDir workspaceRoot package.name = npmDir workspaceRoot entry.1 := by
      intro entry member package isRead
      obtain ⟨isName, hasIntegrity⟩ := readEntry_some isRead
      rw [isName]
      exact (leads entry member hasIntegrity).2
    refine ⟨?_, ?_, ?_⟩
    · intro entry member hasIntegrity
      obtain ⟨package, isRead⟩ := readEntry_isSome (leads entry member hasIntegrity).1
        (wellFormed.unlinked entry member hasIntegrity) hasIntegrity
      exact ⟨package, mem_parseNpmLockfile isLock member isRead, isRead,
        places entry member package isRead⟩
    · intro entry member package isRead ε around bytes gzipped
      rw [← places entry member package isRead, Extraction.extractPackage, gzipped]
      rfl
    · intro entry member other otherMember different package otherPackage isRead otherRead same
      rw [places entry member package isRead, places other otherMember otherPackage otherRead] at same
      have location := wellFormed.location entry member (readEntry_some isRead).2
      have otherLocation := wellFormed.location other otherMember (readEntry_some otherRead).2
      rw [location.npmDir_eq, otherLocation.npmDir_eq] at same
      exact different (location.eq_of_pieces otherLocation (List.append_cancel_left same))

end

/-! One package in a workspace of its own. -/

def leftPad : Value :=
  .object
    [(utf8 "version", .string (utf8 "1.3.0")), (utf8 "integrity", .string (utf8 "sha512-XXX"))]

def lockOf (key : Bytes) : Value :=
  .object [(utf8 "lockfileVersion", .number (utf8 "3")), (utf8 "packages", .object [(key, leftPad)])]

theorem lockOf_wellFormed {key : Bytes} (location : IsLocation key) : WellFormed (lockOf key) := by
  have isEntries : entriesOf (lockOf key) = [(key, leftPad)] := by
    have plain : entriesOf (lockOf key) = [(key, leftPad)] := rfl
    exact plain
  constructor
  · intro entry member _
    rw [isEntries, List.mem_singleton] at member
    rw [member]
    exact location
  · intro entry member _
    rw [isEntries, List.mem_singleton] at member
    rw [member]
    have unlinked : isLink leftPad = false := by decide
    exact unlinked

def fromStr (key : Bytes) : Bytes → Option Value := fun _ => some (lockOf key)

theorem nested_location : IsLocation (utf8 "node_modules/a/node_modules/left-pad") :=
  ⟨0, [utf8 "node_modules", utf8 "a", utf8 "node_modules", utf8 "left-pad"], by decide, by decide⟩

theorem workspace_location : IsLocation (utf8 "packages/app/node_modules/left-pad") :=
  ⟨0, [utf8 "packages", utf8 "app", utf8 "node_modules", utf8 "left-pad"], by decide, by decide⟩

theorem npm_in_place_iff_nested :
    InPlace (parseNpmLockfile (fromStr (utf8 "node_modules/a/node_modules/left-pad")) [])
      (lockOf (utf8 "node_modules/a/node_modules/left-pad")) [.name (utf8 "w")] := by
  refine (npm_in_place_iff (fromStr (utf8 "node_modules/a/node_modules/left-pad")) [] rfl
    (lockOf_wellFormed nested_location) [.name (utf8 "w")]).mpr fun entry member _ => ?_
  have isEntry : entry = (utf8 "node_modules/a/node_modules/left-pad", leftPad) :=
    List.mem_singleton.mp member
  rw [isEntry]
  decide

/-- `node_modules` under a workspace is rebuilt under the root's. -/
theorem workspace_package_misplaced :
    WellFormed (lockOf (utf8 "packages/app/node_modules/left-pad")) ∧
      ¬ InPlace (parseNpmLockfile (fromStr (utf8 "packages/app/node_modules/left-pad")) [])
        (lockOf (utf8 "packages/app/node_modules/left-pad")) [.name (utf8 "w")] := by
  refine ⟨lockOf_wellFormed workspace_location, fun inPlace => ?_⟩
  have hasIntegrity : integrityOf leftPad ≠ [] := by decide
  obtain ⟨package, -, isRead, same⟩ := inPlace.placed
    (utf8 "packages/app/node_modules/left-pad", leftPad) List.mem_cons_self hasIntegrity
  rw [(readEntry_some isRead).1] at same
  revert same
  decide

end Rage.NpmLockfile
