import Rage.ArtifactStore
import Rage.Posix

/-!
What a restore from the lockfile's archives does to the disk, call by call: the entries of zip and
tar archives, and the links in `.bin`.
-/

namespace Rage.Extraction

open Posix
open Posix.Program (attempt)

abbrev DiskPath := AbsPath Bytes

abbrev DiskTree := Tree Bytes Bytes

abbrev DiskProgram (α : Type) := Program Bytes Bytes α

/-! Paths.  An empty part is what a trailing or a doubled slash leaves. -/

def toPiece (part : Bytes) : Piece Bytes :=
  if part = [] ∨ part = utf8 "." then .dot
  else if part = utf8 ".." then .dotdot
  else .name part

def toTarget (path : Path) : Target Bytes :=
  ⟨path.head? == some slash, (path.splitOn slash).map toPiece⟩

/-- `Path::join`: an absolute path replaces the base. -/
def join (base : DiskPath) (rest : Target Bytes) : DiskPath :=
  if rest.absolute then rest.pieces else base ++ rest.pieces

def isDot : Piece Bytes → Bool
  | .dot => true
  | _ => false

def parent (path : DiskPath) : Option DiskPath :=
  match path.reverse.dropWhile isDot with
  | [] => none
  | _ :: rest => some rest.reverse

/-- `create_dir_all` on what is missing, from the first to the last. -/
def makeMissing : DiskPath → DiskPath → DiskProgram (Option Unit)
  | _, [] => .done (some ())
  | made, piece :: rest =>
      .look fun tree =>
        if tree.isDir (made ++ [piece]) then makeMissing (made ++ [piece]) rest
        else (attempt (.makeDir (made ++ [piece]))).andThen fun _ =>
          makeMissing (made ++ [piece]) rest

def createDirAll (path : DiskPath) : DiskProgram (Option Unit) := makeMissing [] path

def createParent (path : DiskPath) : DiskProgram (Option Unit) :=
  match parent path with
  | some dir => createDirAll dir
  | none => .done (some ())

/-! What the crates make of their inputs.  The entries of an archive are given as they are listed,
with `none` where that fails; `whole` tells whether the content can be read to its end; `unpack` is
what `Entry::unpack` does at its destination. -/

structure ZipFile where
  name : Bytes
  content : Bytes
  whole : Bool
  deriving DecidableEq

structure TarEntry (ε : Type) where
  path : Path
  isDir : Bool
  entry : ε

inductive BinField
  | single (relPath : Bytes)
  | many (bins : List (Bytes × Option Bytes))
  | other
  deriving DecidableEq

structure Surroundings (ε : Type) where
  crates : Crates
  zip : Bytes → Option (List (Option ZipFile))
  tgz : Bytes → List (Option (TarEntry ε))
  unpack : ε → DiskPath → DiskProgram (Option Unit)
  bin : Bytes → Option BinField
  diffPaths : DiskPath → DiskPath → Option (Target Bytes)
  listed : List Bytes → List Bytes

section

variable {ε : Type} (around : Surroundings ε)

def extractEach {ζ : Type} (extract : ζ → DiskProgram (Option Unit)) :
    List (Option ζ) → DiskProgram (Option Unit)
  | [] => .done (some ())
  | none :: _ => .done none
  | some entry :: rest => (extract entry).andThen fun _ => extractEach extract rest

def extractZipFile (targetDir : DiskPath) (file : ZipFile) : DiskProgram (Option Unit) :=
  let outpath := join targetDir (toTarget file.name)
  if file.name.getLast? = some slash then createDirAll outpath
  else (createParent outpath).andThen fun _ =>
    (attempt (.create outpath file.content)).andThen fun _ =>
      .done (if file.whole then some () else none)

def extractYarnZipToWorkspace (bytes : Bytes) (targetDir : DiskPath) :
    DiskProgram (Option Unit) :=
  match around.zip bytes with
  | some files => extractEach (extractZipFile targetDir) files
  | none => .done none

/-- The path without its leading `package`, and nothing for an empty one. -/
def stripPackage (path : Path) : Option (Target Bytes) :=
  match toTarget path with
  | ⟨false, .name first :: rest⟩ =>
      if first = utf8 "package" then
        let kept := ((rest.dropWhile isDot).reverse.dropWhile isDot).reverse
        if kept = [] then none else some ⟨false, kept⟩
      else some ⟨false, .name first :: rest⟩
  | target => if path = [] then none else some target

def extractTarEntry (destDir : DiskPath) (item : TarEntry ε) : DiskProgram (Option Unit) :=
  match stripPackage item.path with
  | none => .done (some ())
  | some rel =>
      let dest := join destDir rel
      if item.isDir then createDirAll dest
      else (createParent dest).andThen fun _ => around.unpack item.entry dest

def nodeModules (workspaceRoot : DiskPath) : DiskPath :=
  workspaceRoot ++ [.name (utf8 "node_modules")]

def extractYarnClassicTgzToWorkspace (bytes pkgName : Bytes) (workspaceRoot : DiskPath) :
    DiskProgram (Option Unit) :=
  extractEach (extractTarEntry around (join (nodeModules workspaceRoot) (toTarget pkgName)))
    (around.tgz bytes)

def extractPackage (package : LockfilePackage) (bytes : Bytes) (workspaceRoot : DiskPath) :
    DiskProgram (Option Unit) :=
  if isPrefix (utf8 "PK") bytes then extractYarnZipToWorkspace around bytes workspaceRoot
  else extractYarnClassicTgzToWorkspace around bytes package.name workspaceRoot

/-- `store` is `get_bytes`, with `none` for its error; `intact` tells that no package failed yet. -/
def restoreFromCas (store : Bytes → Option (Option Bytes)) (workspaceRoot : DiskPath) :
    List LockfilePackage → Bool → DiskProgram (Option Unit)
  | [], intact => .done (if intact then some () else none)
  | package :: packages, intact =>
      match store (computeCasKey around.crates package.integrity) with
      | none => .done none
      | some none => restoreFromCas store workspaceRoot packages false
      | some (some bytes) => (extractPackage around package bytes workspaceRoot).bind fun result =>
          restoreFromCas store workspaceRoot packages (intact && result.isSome)

/-! The links in `.bin`. -/

def createOneBinLink (binDir : DiskPath) (binName : Bytes) (pkgDir : DiskPath) (relPath : Bytes) :
    DiskProgram (Option Bool) :=
  let targetAbs := join pkgDir (toTarget relPath)
  .look fun tree =>
    if (tree.lookup targetAbs).isSome then
      let linkPath := join binDir (toTarget binName)
      let relTarget := (around.diffPaths targetAbs binDir).getD ⟨true, targetAbs⟩
      (attempt (.remove linkPath)).bind fun _ =>
        (attempt (.symlink relTarget linkPath)).andThen fun _ =>
          (attempt (.chmod targetAbs)).bind fun _ => .done (some true)
    else .done (some false)

def BinField.bins (pkgName : Bytes) : BinField → List (Bytes × Bytes)
  | .single relPath => [(((pkgName.splitOn slash).getLast?).getD pkgName, relPath)]
  | .many bins => bins.filterMap fun bin => bin.2.map fun relPath => (bin.1, relPath)
  | .other => []

def createBins (pkgDir binDir : DiskPath) : List (Bytes × Bytes) → DiskProgram (Option Nat)
  | [] => .done (some 0)
  | bin :: bins => (createOneBinLink around binDir bin.1 pkgDir bin.2).andThen fun created =>
      (createBins pkgDir binDir bins).andThen fun count =>
        .done (some (count + if created then 1 else 0))

def createBinLinksForPackage (pkgDir : DiskPath) (pkgName : Bytes) (binDir : DiskPath) :
    DiskProgram (Option Nat) :=
  .look fun tree =>
    if tree.isDir pkgDir then
      match (tree.read (pkgDir ++ [.name (utf8 "package.json")])).bind around.bin with
      | some field => createBins around pkgDir binDir (field.bins pkgName)
      | none => .done (some 0)
    else .done (some 0)

def createScoped (scopeDir : DiskPath) (scope : Bytes) (binDir : DiskPath) :
    List Bytes → DiskProgram (Option Nat)
  | [] => .done (some 0)
  | inner :: rest =>
      (createBinLinksForPackage around (scopeDir ++ [.name inner])
        (scope ++ slash :: toStringLossy inner) binDir).andThen fun count =>
          (createScoped scopeDir scope binDir rest).andThen fun later => .done (some (count + later))

def createScope (scopeDir : DiskPath) (scope : Bytes) (binDir : DiskPath) :
    DiskProgram (Option Nat) :=
  .look fun tree =>
    if tree.isDir scopeDir then
      match tree.readDir scopeDir with
      | some names => createScoped around scopeDir scope binDir (around.listed names)
      | none => .done none
    else .done (some 0)

def createForEntry (nodeModulesDir binDir : DiskPath) (name : Bytes) : DiskProgram (Option Nat) :=
  let nameStr := toStringLossy name
  if isPrefix (utf8 ".") nameStr then .done (some 0)
  else if isPrefix (utf8 "@") nameStr then
    createScope around (nodeModulesDir ++ [.name name]) nameStr binDir
  else createBinLinksForPackage around (nodeModulesDir ++ [.name name]) nameStr binDir

def createForEach (nodeModulesDir binDir : DiskPath) : List Bytes → DiskProgram (Option Nat)
  | [] => .done (some 0)
  | name :: rest => (createForEntry around nodeModulesDir binDir name).andThen fun count =>
      (createForEach nodeModulesDir binDir rest).andThen fun later => .done (some (count + later))

def createBinLinks (workspaceRoot : DiskPath) : DiskProgram (Option Nat) :=
  let binDir := nodeModules workspaceRoot ++ [.name (utf8 ".bin")]
  (createDirAll binDir).andThen fun _ => .look fun tree =>
    match tree.readDir (nodeModules workspaceRoot) with
    | some names => createForEach around (nodeModules workspaceRoot) binDir (around.listed names)
    | none => .done none

/-- A cached root task restores its install: the bin links follow a restore that succeeded. -/
def restoreInstall (store : Bytes → Option (Option Bytes)) (workspaceRoot : DiskPath)
    (packages : List LockfilePackage) : DiskProgram (Option Nat) :=
  (restoreFromCas around store workspaceRoot packages true).andThen fun _ =>
    createBinLinks around workspaceRoot

end

end Rage.Extraction
