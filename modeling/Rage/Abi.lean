import Rage.Fingerprint

/-!
Output files and the ABI fingerprint of a task: the files of a package that match its
output globs, and the hash of the declaration files among them.
-/

namespace Rage

abbrev star : UInt8 := 42

abbrev backslash : UInt8 := 92

/-- The parts of a pattern after its first star: the last one is a suffix. -/
def matchRest : List Bytes → Bytes → Bool
  | [], _ => true
  | [last], remaining => last = [] || isSuffix last remaining
  | part :: parts, remaining =>
      if part = [] then matchRest parts remaining
      else match afterFirst part remaining with
        | some rest => matchRest parts rest
        | none => false

def simpleComponentMatch (pattern text : Bytes) : Bool :=
  if pattern = [star] then true
  else if !pattern.contains star then pattern == text
  else match pattern.splitOn star with
    | [] => true
    | first :: parts =>
        if isPrefix first text then matchRest parts (text.drop first.length) else false

def globMatchRecursive : List Bytes → List Bytes → Bool
  | [], [] => true
  | [], _ :: _ => false
  | pattern :: rest, path =>
      if pattern = [star, star] then
        rest.isEmpty || path.tails.any fun suffix => globMatchRecursive rest suffix
      else match path with
        | [] => false
        | name :: names => simpleComponentMatch pattern name && globMatchRecursive rest names

def normalizeSeparators (text : Bytes) : Bytes :=
  text.map fun byte => if byte = backslash then slash else byte

def outputGlobMatches (glob path : Bytes) : Bool :=
  globMatchRecursive ((normalizeSeparators glob).splitOn slash)
    ((normalizeSeparators path).splitOn slash)

def outputSkipDirs : List Bytes := [utf8 "node_modules", utf8 "target", utf8 ".git"]

def resolveOutputGlobs (fs : FileSystem) (cwd : Path) (outputGlobs : List Bytes) : List Path :=
  if outputGlobs.isEmpty then []
  else (fs.walkFiles outputSkipDirs (components cwd)).filterMap fun walked =>
    let rel := toStringLossy (joinNames walked.1)
    if outputGlobs.any fun glob => outputGlobMatches glob rel then some (joinPath cwd walked.1)
    else none

def isDeclarationFile (path : Path) : Bool :=
  let text := toStringLossy path
  isSuffix (utf8 ".d.ts") text || isSuffix (utf8 ".d.cts") text || isSuffix (utf8 ".d.mts") text

section

variable (crates : Crates)

def computeAbiFingerprintFromOutputs (fs : FileSystem) (files : List Path) : Option Bytes :=
  let dtsPaths := files.filter isDeclarationFile
  if dtsPaths.isEmpty then none
  else
    let sorted := dtsPaths.insertionSort fun first second => Path.le first second
    some (hex (crates.blake3 (sorted.flatMap fun path => path ++ (fs.read path).getD [])))

def abiFingerprint (fs : FileSystem) (cwd : Path) (outputGlobs : List Bytes) : Option Bytes :=
  let outputFiles := resolveOutputGlobs fs cwd outputGlobs
  if outputFiles.isEmpty then none else computeAbiFingerprintFromOutputs crates fs outputFiles

end

theorem abiFingerprint_hex {crates : Crates} {fs : FileSystem} {cwd : Path}
    {outputGlobs : List Bytes} {abi : Bytes}
    (computed : abiFingerprint crates fs cwd outputGlobs = some abi) :
    ∃ text, abi = hex (crates.blake3 text) := by
  simp only [abiFingerprint, computeAbiFingerprintFromOutputs] at computed
  split at computed
  · simp at computed
  · split at computed
    · simp at computed
    · simp only [Option.some.injEq] at computed
      exact ⟨_, computed.symm⟩

end Rage
