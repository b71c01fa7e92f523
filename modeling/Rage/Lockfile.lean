import Rage.ArtifactStore

/-!
The lockfile of yarn classic, as its parser reads it: blocks between blank lines, with a line of
specifiers first and then one field a line.
-/

namespace Rage.Lockfile

/-! Functions of `str`. -/

/-- The characters with the property White_Space. -/
def isWhitespace (char : Char) : Bool :=
  let code := char.toNat
  (9 ≤ code && code ≤ 13) || code = 0x20 || code = 0x85 || code = 0xA0 || code = 0x1680 ||
    (0x2000 ≤ code && code ≤ 0x200A) || code = 0x2028 || code = 0x2029 || code = 0x202F ||
    code = 0x205F || code = 0x3000

def trimEndMatches (drop : Char → Bool) (text : List Char) : List Char :=
  (text.reverse.dropWhile drop).reverse

def trimMatches (drop : Char → Bool) (text : List Char) : List Char :=
  trimEndMatches drop (text.dropWhile drop)

def trim : List Char → List Char := trimMatches isWhitespace

/-- `split` at every pair of newlines, from the left. -/
def splitBlocks : List Char → List (List Char)
  | [] => [[]]
  | [char] => [[char]]
  | first :: second :: rest =>
      if first = '\n' ∧ second = '\n' then [] :: splitBlocks rest
      else
        match splitBlocks (second :: rest) with
        | [] => [[first]]
        | block :: blocks => (first :: block) :: blocks

def stripCarriageReturn (line : List Char) : List Char :=
  if line.getLast? = some '\r' then line.dropLast else line

/-- A carriage return ends a line together with a newline only. -/
def lines (text : List Char) : List (List Char) :=
  let parts := text.splitOn '\n'
  parts.dropLast.map stripCarriageReturn ++ parts.getLast?.toList.filter (· ≠ [])

def stripPrefix (start : String) (text : List Char) : Option (List Char) :=
  if start.toList.isPrefixOf text then some (text.drop start.length) else none

/-- What stands before the last occurrence of a character, which `rfind` finds. -/
def beforeLast (char : Char) (text : List Char) : Option (List Char) :=
  match text.reverse.dropWhile (· ≠ char) with
  | [] => none
  | _ :: rest => some rest.reverse

def toBytes (text : List Char) : Bytes := utf8 (String.ofList text)

/-! `parse_yarn_classic_lockfile`. -/

structure Fields where
  version : Option (List Char)
  resolved : Option (List Char)
  integrity : Option (List Char)

def readField (fields : Fields) (line : List Char) : Fields :=
  let trimmed := trim line
  match stripPrefix "version " trimmed with
  | some value => { fields with version := some (trimMatches (· = '"') (trim value)) }
  | none =>
      match stripPrefix "resolved " trimmed with
      | some value => { fields with resolved := some (trimMatches (· = '"') (trim value)) }
      | none =>
          match stripPrefix "integrity " trimmed with
          | some value => { fields with integrity := some (trim value) }
          | none => fields

/-- `ms@2.1.3, ms@^2.1.1:` or `"ms@^2.1.1":`. -/
def readName (line : List Char) : Option (List Char) :=
  let clean := trimMatches (· = '"') (trimEndMatches (· = ':') (trim line))
  let spec := trimMatches (· = '"') (trim ((clean.splitOn ',').headD []))
  beforeLast '@' spec

def parseBlock (block : List Char) : Option LockfilePackage :=
  let block := trim block
  if block = [] ∨ block.head? = some '#' then none
  else
    let fields := (lines block).tail.foldl readField ⟨none, none, none⟩
    match (lines block).head?.bind readName, fields.version with
    | some name, some version =>
        if fields.resolved = none ∧ fields.integrity = none then none
        else some ⟨toBytes name, toBytes version, toBytes (fields.integrity.getD [])⟩
    | _, _ => none

def packageLe (first second : LockfilePackage) : Bool :=
  first.name < second.name || (first.name = second.name && first.version ≤ second.version)

def samePackage (next kept : LockfilePackage) : Bool :=
  next.name = kept.name && next.version = kept.version

/-- A package with the URL that its lockfile gives for it. -/
structure UrlPackage extends LockfilePackage where
  tarballUrl : Option Bytes
  deriving DecidableEq

def urlPackageLe (first second : UrlPackage) : Bool :=
  packageLe first.toLockfilePackage second.toLockfilePackage

/-- `sort_by` and `dedup_by`, by name and version. -/
def sortPackages (packages : List UrlPackage) : List UrlPackage :=
  dedupBy (fun next kept => samePackage next.toLockfilePackage kept.toLockfilePackage)
    (packages.insertionSort fun first second => urlPackageLe first second)

def parseYarnClassicLockfile (content : String) : List LockfilePackage :=
  dedupBy samePackage
    (((splitBlocks content.toList).filterMap parseBlock).insertionSort
      fun first second => packageLe first second)

example : parseYarnClassicLockfile
    "# yarn lockfile v1\n\n\n\"@s/ms@^2.1.1\", ms@2:\n  version \"2.1.3\"\n  integrity sha512-X\n" =
      [⟨utf8 "@s/ms", utf8 "2.1.3", utf8 "sha512-X"⟩] := by
  decide +kernel

end Rage.Lockfile
