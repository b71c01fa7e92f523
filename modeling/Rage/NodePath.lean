import Rage.DeclaredInputs
import Rage.FileProtocol

/-!
The search path of a task, and the tool that is hashed for it.  A process resolves relative paths
in its own directory, which for the shell of a task is the package directory.
-/

namespace Rage.NodePath

structure FileNode where
  inode : Nat
  content : Bytes
  executable : Bool
  deriving DecidableEq

/-- What a path leads to, links followed. -/
inductive Node
  | file (file : FileNode)
  | directory
  | other
  deriving DecidableEq

/-- Nodes and listings are those of absolute paths. -/
structure Machine where
  node : Path → Option Node
  listing : Path → Option (List FileName)
  env : Bytes → Option Bytes
  processCwd : Path

namespace Machine

variable (machine : Machine)

def fileAt (path : Path) : Option FileNode :=
  match machine.node path with
  | some (.file file) => some file
  | _ => none

def isFile (path : Path) : Bool := (machine.fileAt (Path.join machine.processCwd path)).isSome

def isDir (path : Path) : Bool := machine.node (Path.join machine.processCwd path) = some .directory

def readDir (path : Path) : Option (List FileName) :=
  machine.listing (Path.join machine.processCwd path)

def readToString (path : Path) : Option (List Char) :=
  (machine.fileAt (Path.join machine.processCwd path)).bind fun file =>
    (String.fromUTF8? ⟨file.content.toArray⟩).map String.toList

end Machine

open Lockfile

section

variable (machine : Machine)

/-! `resolve_node_version`. -/

def wholeVersion (text : List Char) : Option (List Char) :=
  if trim text = [] then none else some (trim text)

def resolveNodeVersion (workspaceRoot : Path) : Option (List Char) :=
  let read (name : String) := machine.readToString (workspaceRoot.join (utf8 name))
  (((read ".node-version").bind wholeVersion).or ((read ".nvmrc").bind wholeVersion)).or
    ((read ".tool-versions").bind fun text => (lines text).findSome? TypeScriptPlugin.toolVersion)

/-! `resolve_version_dir`. -/

abbrev letterV : UInt8 := 118
abbrev dot : UInt8 := 46

def bare (version : Bytes) : Bytes := version.dropWhile (· = letterV)

/-- `OsStr::to_str`, with the empty text for a name that is not UTF-8. -/
def toStr (name : Bytes) : Bytes := if isUtf8 name then name else []

def matchesVersion (versionBare : Bytes) (path : Path) : Bool :=
  let name := bare (toStr ((FileSystem.fileName (components path)).getD []))
  name = versionBare || isPrefix (versionBare ++ [dot]) name

def resolveVersionDir (base : Path) (version : Bytes) : Option Path :=
  let versionBare := bare version
  ([version, letterV :: versionBare].map (Path.join base)).find? machine.isDir |>.or
    ((machine.readDir base).bind fun names =>
      (((names.map fun name => Path.join base name.text).filter fun path =>
        machine.isDir path && matchesVersion versionBare path).insertionSort
          fun first second => Path.le second first).head?)

/-! `find_version_manager_bin`. -/

/-- The root that a variable names, or the usual place below the home directory. -/
def managerRoot (variableName : Option String) (below : String) : Option Path :=
  (variableName.bind fun name => machine.env (utf8 name)).or
    (((machine.env (utf8 "HOME")).or (machine.env (utf8 "USERPROFILE"))).map
      fun home => Path.join home (utf8 below))

/-- The `bin` of a version below the root of a manager. -/
def managerBin (root : Option Path) (versions bin : String) (version : Bytes) : Option Path :=
  root.bind fun root =>
    let base := if versions = "" then root else Path.join root (utf8 versions)
    (resolveVersionDir machine base version).bind fun versionDir =>
      let candidate := Path.join versionDir (utf8 bin)
      if machine.isDir candidate then some candidate else none

/-- Volta counts only where there is a home directory. -/
def voltaBin : Option Path :=
  ((machine.env (utf8 "HOME")).or (machine.env (utf8 "USERPROFILE"))).bind fun home =>
    let bin := Path.join ((machine.env (utf8 "VOLTA_HOME")).getD (Path.join home (utf8 ".volta")))
      (utf8 "bin")
    if machine.isDir bin then some bin else none

def findVersionManagerBin (version : Bytes) : Option Path :=
  (managerBin machine (managerRoot machine (some "FNM_DIR") ".local/share/fnm") "node-versions"
      "installation/bin" version).or
    ((managerBin machine (managerRoot machine (some "NVM_DIR") ".nvm") "versions/node" "bin" version).or
      ((managerBin machine (managerRoot machine none ".asdf/installs/nodejs") "" "bin" version).or
        ((managerBin machine (managerRoot machine none ".local/share/mise/installs/node") "" "bin"
          version).or (voltaBin machine))))

/-! `build_node_path` and `which_first`. -/

/-- The `bin` of the version that the workspace asks for. -/
def managedBin (workspaceRoot : Path) : Option Path :=
  (resolveNodeVersion machine workspaceRoot).bind fun version =>
    findVersionManagerBin machine (toBytes version)

def moduleBin (dir : Path) : Path := Path.join dir (utf8 "node_modules/.bin")

def prepended (taskCwd workspaceRoot : Path) : List Path :=
  let pkgBin := moduleBin taskCwd
  let wsBin := moduleBin workspaceRoot
  (if machine.isDir pkgBin then [pkgBin] else []) ++
    ((if !Path.eq wsBin pkgBin && machine.isDir wsBin then [wsBin] else []) ++
      (managedBin machine workspaceRoot).toList)

/-- `systemPath` is the `PATH` of the process, empty when it is unset or no UTF-8. -/
def buildNodePath (taskCwd workspaceRoot : Path) (systemPath : Bytes) : Bytes :=
  (prepended machine taskCwd workspaceRoot).flatMap (fun dir => toStringLossy dir ++ [colon]) ++
    systemPath

def whichFirst (command : List Char) (cwd workspaceRoot : Path) : Option Path :=
  (splitWhitespace command).head?.bind fun first =>
    let first := toBytes first
    if slash ∈ first then some first
    else
      let candidate (dir : Path) := Path.join dir first
      let there (dir : Path) := machine.isFile (candidate dir)
      if there (moduleBin cwd) then some (candidate (moduleBin cwd))
      else if !Path.eq workspaceRoot cwd && there (moduleBin workspaceRoot) then
        some (candidate (moduleBin workspaceRoot))
      else
        match (managedBin machine workspaceRoot).filter there with
        | some dir => some (candidate dir)
        | none => (machine.env (utf8 "PATH")).bind fun path =>
            ((path.splitOn colon).find? there).map candidate

end

end Rage.NodePath
