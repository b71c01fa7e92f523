import Rage.LockText
import Rage.PathSpelling
import Rage.RootImitation
import Rage.TaskList

/-!
Packages that a `yarn.lock` takes from tarballs on the disk, and the tarballs that the install task
has among its inputs.
-/

namespace Rage

open Lockfile

/-! `std::fs::read_to_string`, and more functions of `str`. -/

def FileSystem.readToString (fs : FileSystem) (path : Path) : Option (List Char) :=
  (fs.read path).bind fun bytes => (String.fromUTF8? ⟨bytes.toArray⟩).map String.toList

namespace Lockfile

def splitWhitespace (text : List Char) : List (List Char) :=
  (text.splitOnP isWhitespace).filter (· ≠ [])

/-! `collect_file_protocol_paths`. -/

/-- The path of a line goes on to the first `#` or `"`. -/
def inPath (char : Char) : Bool := char ≠ '#' ∧ char ≠ '"'

def fileReference (line : List Char) : Option (List Char) :=
  ((stripPrefix "resolution: \"" (trim line)).bind (find "@file:./".toList)).bind fun found =>
    let rel := (found.drop "@file:".length).takeWhile inPath
    if rel = [] then none else some rel

def insertPath (paths : List Path) (path : Path) : List Path :=
  if paths.any (Path.eq path) then paths else paths ++ [path]

def collectFileProtocolPaths (content : List Char) (workspaceRoot : Path) : List Path :=
  ((lines content).filterMap fileReference).foldl
    (fun paths rel => insertPath paths (workspaceRoot.join (toBytes rel))) []

end Lockfile

namespace TypeScriptPlugin

/-! `infer_root_tasks`. -/

section

variable (fs : FileSystem) (workspaceRoot : Path)

/-- A line `nodejs 20.1.0` of `.tool-versions`. -/
def toolVersion (line : List Char) : Option (List Char) :=
  let line := trim line
  if line = [] ∨ line.head? = some '#' then none
  else
    match splitWhitespace line with
    | tool :: version :: _ =>
        if tool = "nodejs".toList ∨ tool = "node".toList then some version else none
    | _ => none

def readNodeVersion : Option Bytes :=
  let read (name : String) := fs.readToString (workspaceRoot.join (utf8 name))
  let version (name : String) := ((read name).map trim).filter (· ≠ [])
  ((version ".node-version").or ((version ".nvmrc").or
    ((read ".tool-versions").bind fun text => (lines text).findSome? toolVersion))).map toBytes

def installTask (command : String) (inputPaths : List Path)
    (envHashInputs : List (Bytes × Bytes)) : RootTask :=
  ⟨utf8 "install", utf8 command, inputPaths, envHashInputs⟩

def inferRootTasks : List RootTask :=
  let envHashInputs := match readNodeVersion fs workspaceRoot with
    | some version => [(utf8 "NODE_VERSION", version)]
    | none => []
  let pnpmLock := workspaceRoot.join (utf8 "pnpm-lock.yaml")
  let yarnLock := workspaceRoot.join (utf8 "yarn.lock")
  let npmLock := workspaceRoot.join (utf8 "package-lock.json")
  if fs.isFile pnpmLock then [installTask "pnpm install" [pnpmLock] envHashInputs]
  else if fs.isFile yarnLock then
    let fileDeps := match fs.readToString yarnLock with
      | some content => collectFileProtocolPaths content workspaceRoot
      | none => []
    [installTask "yarn install" (yarnLock :: fileDeps) envHashInputs]
  else if fs.isFile npmLock then [installTask "npm install" [npmLock] envHashInputs]
  else []

end

end TypeScriptPlugin

/-! The lockfile as yarn writes it. -/

namespace Lockfile

inductive YarnSyntax
  | berry
  | classic
  deriving DecidableEq

/-- An entry that is resolved by the protocol `file:` to a tarball.  `parent` is the directory, seen
from the workspace root, of the package that asks for it; its locator stands in `binding`. -/
structure TarballEntry where
  style : YarnSyntax
  ident : List Char
  spelled : List Char
  binding : List Char
  parent : Path

namespace TarballEntry

def line (entry : TarballEntry) : List Char :=
  match entry.style with
  | .berry => "resolution: \"".toList ++ entry.ident ++ "@file:".toList ++ entry.spelled ++
      entry.binding ++ ['"']
  | .classic => "resolved \"file:".toList ++ entry.spelled ++ entry.binding ++ ['"']

/-- The path is relative and ends in `.tgz` or `.tar.gz`; it ends in the line where the binding, a
`#` or a `::` begins. -/
structure Valid (entry : TarballEntry) : Prop where
  ident : ':' ∉ entry.ident ∧ '"' ∉ entry.ident ∧ '\n' ∉ entry.ident ∧ '\r' ∉ entry.ident
  relative : entry.spelled.head? ≠ some '/'
  tarball : ".tgz".toList <:+ entry.spelled ∨ ".tar.gz".toList <:+ entry.spelled
  spelled : '#' ∉ entry.spelled ∧ '"' ∉ entry.spelled ∧ '\n' ∉ entry.spelled ∧ '\r' ∉ entry.spelled
  binding : entry.binding = [] ∨ "#".toList <+: entry.binding ∨ "::".toList <+: entry.binding
  bindingLine : '"' ∉ entry.binding ∧ '\n' ∉ entry.binding ∧ '\r' ∉ entry.binding
  root : entry.style = .classic → entry.parent = []

/-- The line stands between two line ends, which may be `\n`, `\r\n` or `\r`, or the ends of the
file. -/
def WrittenIn (entry : TarballEntry) (content : List Char) : Prop :=
  ∃ before indent after, content = before ++ (indent ++ entry.line) ++ after ∧
    (∀ char ∈ indent, char = ' ') ∧
    (before = [] ∨ before.getLast? = some '\n' ∨ before.getLast? = some '\r') ∧
    (after = [] ∨ after.head? = some '\n' ∨ after.head? = some '\r')

/-- Where yarn reads the tarball from. -/
def tarball (entry : TarballEntry) (workspaceRoot : Path) : Path :=
  (workspaceRoot.join entry.parent).join (toBytes entry.spelled)

end TarballEntry

/-- An entry of a lockfile. -/
structure LockedTarball (content : String) where
  entry : TarballEntry
  valid : entry.Valid
  written : entry.WrittenIn content.toList

end Lockfile

/-! What a line spells. -/

namespace Lockfile

/-- The first `@file:./` of a resolution stands before the rest of the path `rel`, and the path ends
with the line, at a `#` or at a quote. -/
def Spells (line rel : List Char) : Prop :=
  ∃ front rest, line = "resolution: \"".toList ++ (front ++ ("@file:".toList ++ (rel ++ rest))) ∧
    ¬ "@file:./".toList <:+: front ++ "@file:.".toList ∧ "./".toList <+: rel ∧
    (∀ char ∈ rel, char ≠ '#' ∧ char ≠ '"') ∧
    (rest = [] ∨ rest.head? = some '#' ∨ rest.head? = some '"')

theorem fileReference_eq_some {line rel : List Char} :
    fileReference line = some rel ↔ Spells (trim line) rel := by
  have pattern : "@file:./".toList = "@file:".toList ++ "./".toList := by decide
  have behind (text : List Char) : ("@file:".toList ++ text).drop "@file:".length = text :=
    List.drop_left' (by decide)
  have dots : ∀ char ∈ "./".toList, inPath char = true := List.all_eq_true.mp (by decide)
  have isPath (more : List Char) : ("./".toList ++ more).takeWhile inPath =
      "./".toList ++ more.takeWhile inPath := by
    rw [List.takeWhile_append_of_pos dots]
  simp only [fileReference, Option.bind_eq_some_iff, stripPrefix_eq_some,
    find_eq_some (by decide : "@file:./".toList ≠ [])]
  constructor
  · rintro ⟨found, ⟨text, isLine, front, rfl, ⟨more, rfl⟩, fresh⟩, isRel⟩
    rw [pattern, List.append_assoc, behind, isPath, if_neg (by simp), Option.some.injEq] at isRel
    subst rel
    refine ⟨front, more.dropWhile inPath, ?_, fresh, ⟨_, rfl⟩, fun char member => ?_, ?_⟩
    · rw [isLine, pattern]
      simp only [List.append_assoc, List.takeWhile_append_dropWhile]
    · rcases List.mem_append.mp member with here | later
      · simpa [inPath] using dots char here
      · simpa [inPath] using List.all_eq_true.mp List.all_takeWhile char later
    · cases isRest : more.dropWhile inPath with
      | nil => exact Or.inl rfl
      | cons char rest =>
          have ended := List.head_dropWhile_not inPath (l := more) (by simp [isRest])
          simp only [isRest, List.head_cons] at ended
          by_cases hash : char = '#'
          · simp [hash]
          · by_cases quote : char = '"'
            · simp [quote]
            · simp [inPath, hash, quote] at ended
  · rintro ⟨front, rest, isLine, fresh, ⟨more, rfl⟩, free, ends⟩
    refine ⟨"@file:./".toList ++ (more ++ rest), ⟨_, isLine, front, ?_, ⟨_, rfl⟩, fresh⟩, ?_⟩
    · rw [pattern]
      simp only [List.append_assoc]
    · have kept : ("./".toList ++ more ++ rest).takeWhile inPath = "./".toList ++ more := by
        rw [List.takeWhile_append_of_pos fun char member => by simpa [inPath] using free char member]
        cases rest with
        | nil => simp
        | cons char rest =>
            have stops : inPath char = false := by
              simp only [reduceCtorEq, List.head?_cons, Option.some.injEq, false_or] at ends
              rcases ends with rfl | rfl
              · decide
              · decide
            simp [stops]
      rw [pattern, List.append_assoc, behind, ← List.append_assoc, kept, if_neg (by simp)]

/-! Which paths the scan collects. -/

theorem insertPath_names {paths : List Path} {path tarball : Path} :
    (∃ kept ∈ insertPath paths path, Path.eq kept tarball = true) ↔
      (∃ kept ∈ paths, Path.eq kept tarball = true) ∨ Path.eq path tarball = true :=
  names_insert (by simp)

theorem collect_names {content : List Char} {workspaceRoot tarball : Path} :
    (∃ path ∈ collectFileProtocolPaths content workspaceRoot, Path.eq path tarball = true) ↔
      ∃ line ∈ lines content, ∃ rel, Spells (trim line) rel ∧
        Path.eq (workspaceRoot.join (toBytes rel)) tarball = true := by
  have scanned (rels : List (List Char)) (paths : List Path) :
      (∃ path ∈ rels.foldl (fun paths rel => insertPath paths (workspaceRoot.join (toBytes rel)))
        paths, Path.eq path tarball = true) ↔
      (∃ path ∈ paths, Path.eq path tarball = true) ∨
        ∃ rel ∈ rels, Path.eq (workspaceRoot.join (toBytes rel)) tarball = true := by
    induction rels generalizing paths with
    | nil => simp
    | cons rel rest ih =>
        rw [List.foldl_cons, ih, insertPath_names, or_assoc]
        simp only [List.mem_cons, or_and_right, exists_or, exists_eq_left]
  rw [collectFileProtocolPaths, scanned]
  simp only [List.not_mem_nil, false_and, exists_false, false_or, List.mem_filterMap,
    fileReference_eq_some]
  constructor
  · rintro ⟨rel, ⟨line, isLine, spells⟩, same⟩
    exact ⟨line, isLine, rel, spells, same⟩
  · rintro ⟨line, isLine, rel, spells, same⟩
    exact ⟨rel, ⟨line, isLine, spells⟩, same⟩

end Lockfile

/-! The name at the end of a path. -/

theorem getLast?_join {base rest : Path} {byte : UInt8} (ends : rest.getLast? = some byte) :
    (base.join rest).getLast? = some byte := by
  unfold Path.join
  split
  · exact ends
  · split
    · rw [List.getLast?_append, ends, Option.some_or]
    · rw [List.getLast?_append, List.getLast?_cons, ends, Option.getD_some, Option.some_or]

theorem splitOn_last {path : Path} {byte : UInt8} (ends : path.getLast? = some byte)
    (plain : byte ≠ slash) :
    ∃ parts name, path.splitOn slash = parts ++ [name] ∧ name.getLast? = some byte := by
  by_cases within : slash ∈ path
  · obtain ⟨front, back, reversed, free⟩ := List.eq_append_cons_of_mem (List.mem_reverse.mpr within)
    have isPath : path = back.reverse ++ slash :: front.reverse := by
      rw [← path.reverse_reverse, reversed]
      simp
    have last : front.reverse.splitOn slash = [front.reverse] :=
      List.splitOn_eq_singleton (by simpa using free)
    refine ⟨back.reverse.splitOn slash, front.reverse, ?_, ?_⟩
    · rw [isPath, List.splitOn_append_cons_self, last]
    · rw [isPath, List.getLast?_append, List.getLast?_cons] at ends
      cases isLast : front.reverse.getLast? with
      | none => simp [isLast, plain.symm] at ends
      | some last => simpa [isLast] using ends
  · exact ⟨[], path, List.splitOn_eq_singleton within, ends⟩

theorem lastComponent {path : Path} {byte : UInt8} (ends : path.getLast? = some byte)
    (plain : byte ≠ slash ∧ byte ≠ 46) :
    ∃ name, (components path).getLast? = some (.normal name) ∧ name.getLast? = some byte := by
  obtain ⟨parts, name, split, isLast⟩ := splitOn_last ends plain.1
  have isName : Component.ofPart name = some (.normal name) := by
    have apart (part : Bytes) (dotted : part.getLast? ≠ some byte) : name ≠ part := by
      rintro rfl
      exact dotted isLast
    have dotted : some 46 ≠ some byte := by simpa using plain.2.symm
    unfold Component.ofPart
    rw [if_neg, if_neg (apart (utf8 "..") dotted)]
    rintro (isEmpty | isDot)
    · exact apart [] (by simp) isEmpty
    · exact apart (utf8 ".") dotted isDot
  refine ⟨name, ?_, isLast⟩
  rw [components_eq, split, List.filterMap_append]
  simp [isName]

theorem utf8_append (first second : String) :
    utf8 (first ++ second) = utf8 first ++ utf8 second := by
  simp [utf8, String.toByteArray_append]

theorem readToString_eq {fs : FileSystem} {path : Path} {content : String}
    (isRead : fs.read path = some (utf8 content)) :
    fs.readToString path = some content.toList := by
  have valid : String.fromUTF8? ⟨(utf8 content).toArray⟩ = some content := by
    unfold utf8 String.fromUTF8?
    rw [dif_pos (by simpa using content.isValidUTF8)]
    rfl
  rw [FileSystem.readToString, isRead, Option.bind_some, valid, Option.map_some]

namespace Lockfile

theorem tarball_ends {entry : TarballEntry} (valid : entry.Valid) (workspaceRoot : Path) :
    (entry.tarball workspaceRoot).getLast? = some 122 := by
  have spelled : (toBytes entry.spelled).getLast? = some 122 := by
    rcases valid.tarball with ⟨front, isPath⟩ | ⟨front, isPath⟩
    · rw [← isPath, toBytes, String.ofList_append, utf8_append, List.getLast?_append]
      rfl
    · rw [← isPath, toBytes, String.ofList_append, utf8_append, List.getLast?_append]
      rfl
  exact getLast?_join spelled

/-- A tarball is none of the lockfiles. -/
theorem lockfile_ne_tarball {entry : TarballEntry} (valid : entry.Valid) (workspaceRoot : Path)
    {name : Bytes} {byte : UInt8} (ends : name.getLast? = some byte)
    (plain : byte ≠ slash ∧ byte ≠ 46) (other : byte ≠ 122) :
    Path.eq (workspaceRoot.join name) (entry.tarball workspaceRoot) = false := by
  obtain ⟨last, isLast, lastByte⟩ := lastComponent (getLast?_join ends) plain
  obtain ⟨tarball, isTarball, tarballByte⟩ :=
    lastComponent (tarball_ends valid workspaceRoot) ⟨by decide, by decide⟩
  rw [Bool.eq_false_iff]
  intro same
  rw [Path.eq_iff.mp same, isTarball] at isLast
  obtain rfl := Component.normal.inj (Option.some.inj isLast)
  exact other (Option.some.inj (lastByte.symm.trans tarballByte))

end Lockfile

namespace TypeScriptPlugin

section

variable {fs now : FileSystem} {workspaceRoot : Path}

theorem inferRootTasks_yarn {content : String}
    (isLock : fs.read (workspaceRoot.join (utf8 "yarn.lock")) = some (utf8 content)) :
    ∃ envHashInputs, inferRootTasks fs workspaceRoot =
      [if fs.isFile (workspaceRoot.join (utf8 "pnpm-lock.yaml")) then
        installTask "pnpm install" [workspaceRoot.join (utf8 "pnpm-lock.yaml")] envHashInputs
      else
        installTask "yarn install" (workspaceRoot.join (utf8 "yarn.lock") ::
          collectFileProtocolPaths content.toList workspaceRoot) envHashInputs] := by
  simp only [inferRootTasks, isFile_of_read isLock, readToString_eq isLock, if_true]
  generalize readNodeVersion fs workspaceRoot = version
  refine ⟨match version with
    | some version => [(utf8 "NODE_VERSION", version)]
    | none => [], ?_⟩
  split
  · rfl
  · rfl

/-- The files that the plugin looks at. -/
def ownFiles : List Bytes := ["pnpm-lock.yaml", "yarn.lock", "package-lock.json", ".node-version",
  ".nvmrc", ".tool-versions"].map utf8

theorem inferRootTasks_congr (same : ∀ name ∈ ownFiles,
    now.stat (workspaceRoot.join name) = fs.stat (workspaceRoot.join name)) :
    inferRootTasks now workspaceRoot = inferRootTasks fs workspaceRoot := by
  have isFile (name : String) (own : utf8 name ∈ ownFiles) :
      now.isFile (workspaceRoot.join (utf8 name)) = fs.isFile (workspaceRoot.join (utf8 name)) := by
    simp only [FileSystem.isFile, same _ own]
  have text (name : String) (own : utf8 name ∈ ownFiles) :
      now.readToString (workspaceRoot.join (utf8 name)) =
        fs.readToString (workspaceRoot.join (utf8 name)) := by
    simp only [FileSystem.readToString, FileSystem.read, same _ own]
  simp only [inferRootTasks, readNodeVersion, isFile "pnpm-lock.yaml" (by decide),
    isFile "yarn.lock" (by decide), isFile "package-lock.json" (by decide),
    text "yarn.lock" (by decide), text ".node-version" (by decide), text ".nvmrc" (by decide),
    text ".tool-versions" (by decide)]

end

end TypeScriptPlugin

/-! A tarball that is replaced while the lockfile stays. -/

/-- Only the tarball changes, also under other paths that lead to it, and none of these is a file
that the plugin looks at. -/
structure Replaced (fs now : FileSystem) (workspaceRoot tarball : Path) : Prop where
  others : ∀ path, now.stat path = fs.stat path ∨
    (fs.stat path = fs.stat tarball ∧ now.stat path = now.stat tarball)
  own : ∀ name ∈ TypeScriptPlugin.ownFiles,
    now.stat (workspaceRoot.join name) = fs.stat (workspaceRoot.join name)
  changed : now.read tarball ≠ fs.read tarball

section

variable {fs now : FileSystem} {workspaceRoot tarball : Path} {paths : List Path}
  {pairs : List (Bytes × Bytes)}

theorem Replaced.symm (replaced : Replaced fs now workspaceRoot tarball) :
    Replaced now fs workspaceRoot tarball where
  others := fun path => (replaced.others path).imp Eq.symm And.symm
  own := fun name member => (replaced.own name member).symm
  changed := replaced.changed.symm

theorem Replaced.read_cases (replaced : Replaced fs now workspaceRoot tarball) (path : Path) :
    now.read path = fs.read path ∨
      (fs.read path = fs.read tarball ∧ now.read path = now.read tarball) := by
  rcases replaced.others path with same | ⟨before, after⟩
  · simp only [FileSystem.read, same, true_or]
  · simp only [FileSystem.read, before, after, and_self, or_true]

/-- A longer tarball makes no record shorter. -/
theorem Replaced.recordsText_length (replaced : Replaced fs now workspaceRoot tarball)
    {content more : Bytes} (before : fs.read tarball = some content)
    (after : now.read tarball = some (content ++ more)) :
    (recordsText fs paths pairs).length ≤ (recordsText now paths pairs).length := by
  induction paths with
  | nil => rfl
  | cons path rest ih =>
      have record : (inputRecord fs path).length ≤ (inputRecord now path).length := by
        rcases replaced.read_cases path with same | ⟨here, there⟩
        · rw [inputRecord_congr same]
        · rw [inputRecord, inputRecord, here, there, before, after]
          simp
      rw [recordsText_cons, recordsText_cons, List.length_append, List.length_append]
      omega

theorem Replaced.not_goesOn (replaced : Replaced fs now workspaceRoot tarball) :
    ¬ ContentGoesOn fs now pairs pairs paths := by
  rintro ⟨before, path, after, content, more, rfl, _, here, there, filled, texts⟩
  rcases replaced.read_cases path with same | ⟨isTarball, stillTarball⟩
  · rw [here, there, Option.some.injEq] at same
    exact filled (by simpa using same)
  · have longer : (recordsText fs after pairs).length ≤ (recordsText now after pairs).length :=
      replaced.recordsText_length (isTarball.symm.trans here) (stillTarball.symm.trans there)
    have lengths := congrArg List.length texts
    have positive := List.length_pos_of_ne_nil filled
    rw [List.length_append] at lengths
    omega

theorem Replaced.recordsText_ne (replaced : Replaced fs now workspaceRoot tarball)
    (named : ∃ path ∈ paths, Path.eq path tarball = true) :
    recordsText fs paths pairs ≠ recordsText now paths pairs := by
  intro same
  rcases recordsText_eq_iff.mp same with ⟨contents, _⟩ | goesOn | goesOn
  · obtain ⟨path, member, isTarball⟩ := named
    have reads := contents path member
    simp only [FileSystem.read, stat_congr _ isTarball] at reads
    exact replaced.changed reads.symm
  · exact replaced.not_goesOn goesOn
  · exact replaced.symm.not_goesOn goesOn

end

namespace Lockfile

open TypeScriptPlugin

/-- The tarball is among the inputs of the install task, so that its fingerprint changes with it. -/
def Tracked (crates : Crates) (fs : FileSystem) (workspaceRoot tarball : Path) : Prop :=
  ∃ task, inferRootTasks fs workspaceRoot = [task] ∧
    (∃ path ∈ task.inputPaths, Path.eq path tarball = true) ∧
    ∀ now, Replaced fs now workspaceRoot tarball → ∀ later ∈ inferRootTasks now workspaceRoot,
      rootTaskFingerprint crates now (rootTask workspaceRoot later) ≠
        rootTaskFingerprint crates fs (rootTask workspaceRoot task)

theorem tracked_of_named {crates : Crates} (injective : Function.Injective crates.blake3)
    {fs : FileSystem} {workspaceRoot tarball : Path} {task : RootTask}
    (inferred : inferRootTasks fs workspaceRoot = [task])
    (named : ∃ path ∈ task.inputPaths, Path.eq path tarball = true) :
    Tracked crates fs workspaceRoot tarball := by
  refine ⟨task, inferred, named, ?_⟩
  intro now replaced later member same
  rw [inferRootTasks_congr replaced.own, inferred, List.mem_singleton] at member
  subst later
  have texts := injective (hex_injective same)
  rw [rootTaskText_eq, rootTaskText_eq, List.append_cancel_left_eq] at texts
  exact replaced.recordsText_ne named texts.symm

theorem file_tarballs_iff (crates : Crates) (injective : Function.Injective crates.blake3)
    (fs : FileSystem) (workspaceRoot : Path) (content : String) (locked : LockedTarball content)
    (isLock : fs.read (workspaceRoot.join (utf8 "yarn.lock")) = some (utf8 content)) :
    Tracked crates fs workspaceRoot (locked.entry.tarball workspaceRoot) ↔
      fs.isFile (workspaceRoot.join (utf8 "pnpm-lock.yaml")) = false ∧
      ∃ line ∈ lines content.toList, ∃ rel, Spells (trim line) rel ∧
        Path.eq (workspaceRoot.join (toBytes rel)) (locked.entry.tarball workspaceRoot) = true := by
  have notPnpm := lockfile_ne_tarball locked.valid workspaceRoot
    (rfl : (utf8 "pnpm-lock.yaml").getLast? = some 108) ⟨by decide, by decide⟩ (by decide)
  have notYarn := lockfile_ne_tarball locked.valid workspaceRoot
    (rfl : (utf8 "yarn.lock").getLast? = some 107) ⟨by decide, by decide⟩ (by decide)
  obtain ⟨envHashInputs, inferred⟩ := inferRootTasks_yarn isLock
  rw [← collect_names]
  cases isPnpm : fs.isFile (workspaceRoot.join (utf8 "pnpm-lock.yaml")) with
  | true =>
      simp only [isPnpm, if_true] at inferred
      constructor
      · rintro ⟨task, isTask, ⟨path, member, isTarball⟩, _⟩
        obtain rfl := List.singleton_injective (inferred.symm.trans isTask)
        obtain rfl := List.mem_singleton.mp member
        simp [notPnpm] at isTarball
      · rintro ⟨noPnpm, _⟩
        simp at noPnpm
  | false =>
      simp only [isPnpm, Bool.false_eq_true, if_false] at inferred
      constructor
      · rintro ⟨task, isTask, ⟨path, member, isTarball⟩, _⟩
        obtain rfl := List.singleton_injective (inferred.symm.trans isTask)
        rcases List.mem_cons.mp member with rfl | collected
        · simp [notYarn] at isTarball
        · exact ⟨rfl, path, collected, isTarball⟩
      · rintro ⟨_, path, collected, isTarball⟩
        exact tracked_of_named injective inferred
          ⟨path, List.mem_cons_of_mem _ collected, isTarball⟩

/-! The form that the scan is made for. -/

theorem mem_lines_of_dropLast {text line : List Char}
    (member : line ∈ (text.splitOn '\n').dropLast) : stripCarriageReturn line ∈ lines text :=
  List.mem_append_left _ (List.mem_map_of_mem member)

/-- A line that ends with `\n`, `\r\n` or the file is one for `lines`. -/
theorem mem_lines {before line after : List Char} (free : '\n' ∉ line)
    (plain : ∃ last, line.getLast? = some last ∧ last ≠ '\r')
    (starts : before = [] ∨ before.getLast? = some '\n')
    (ends : after = [] ∨ after.head? = some '\n' ∨ "\r\n".toList <+: after) :
    line ∈ lines (before ++ (line ++ after)) := by
  obtain ⟨last, isLast, noReturn⟩ := plain
  obtain ⟨parts, isSplit⟩ : ∃ parts, (before ++ (line ++ after)).splitOn '\n' =
      parts ++ (line ++ after).splitOn '\n' := by
    rcases starts with rfl | ended
    · exact ⟨[], rfl⟩
    · obtain ⟨front, rfl⟩ := List.getLast?_eq_some_iff.mp ended
      refine ⟨front.splitOn '\n', ?_⟩
      rw [List.append_assoc, List.singleton_append, List.splitOn_append_cons_self]
  have inner (part rest : List Char) (partFree : '\n' ∉ part)
      (split : line ++ after = part ++ '\n' :: rest) :
      stripCarriageReturn part ∈ lines (before ++ (line ++ after)) := by
    apply mem_lines_of_dropLast
    rw [isSplit, split, List.splitOn_append_cons_self_of_not_mem partFree,
      List.dropLast_append_of_ne_nil (by simp), List.dropLast_cons_of_ne_nil
      (List.splitOn_ne_nil _ _)]
    simp
  rcases ends with rfl | newline | ⟨rest, rfl⟩
  · have filled : line ≠ [] := by
      rintro rfl
      simp at isLast
    rw [lines, isSplit, List.append_nil, List.splitOn_eq_singleton free]
    simp [filled]
  · obtain ⟨rest, rfl⟩ := List.head?_eq_some_iff.mp newline
    have stripped : stripCarriageReturn line = line := by
      rw [stripCarriageReturn, isLast, if_neg (by simpa using noReturn)]
    have member := inner line rest free rfl
    rwa [stripped] at member
  · have stripped : stripCarriageReturn (line ++ ['\r']) = line := by
      simp [stripCarriageReturn]
    have member := inner (line ++ ['\r']) rest (by simp [free]) (by simp)
    rwa [stripped] at member

theorem trim_indented {indent line : List Char} {first last : Char}
    (spaces : ∀ char ∈ indent, char = ' ') (isFirst : line.head? = some first)
    (isLast : line.getLast? = some last) (firstStays : isWhitespace first = false)
    (lastStays : isWhitespace last = false) : trim (indent ++ line) = line := by
  have blank : ∀ char ∈ indent, isWhitespace char = true := by
    intro char member
    rw [spaces char member]
    decide
  obtain ⟨rest, isLine⟩ := List.head?_eq_some_iff.mp isFirst
  obtain ⟨front, isEnd⟩ := List.getLast?_eq_some_iff.mp isLast
  have start : (indent ++ line).dropWhile isWhitespace = line := by
    rw [List.dropWhile_append_of_pos blank, isLine, List.dropWhile_cons_of_neg (by simp [firstStays])]
  rw [trim, trimMatches, start, trimEndMatches, isEnd]
  simp [lastStays]

/-- In an identifier there is no `:`, so that no `@file:./` begins before the one behind it. -/
theorem first_file_protocol {ident : List Char} (plain : ':' ∉ ident) :
    ¬ "@file:./".toList <:+: ident ++ "@file:.".toList := by
  rintro ⟨front, rest, same⟩
  have counts := congrArg (List.count ':') same
  have none : ident.count ':' = 0 := List.count_eq_zero.mpr plain
  have pattern : "@file:./".toList.count ':' = 1 := by decide
  have ending : "@file:.".toList.count ':' = 1 := by decide
  rw [List.count_append, List.count_append, List.count_append, none, pattern, ending] at counts
  have free : ':' ∉ front ++ "@file".toList := by
    rw [List.mem_append, not_or]
    exact ⟨List.count_eq_zero.mp (by omega), by decide⟩
  have identFree : ':' ∉ ident ++ "@file".toList := by
    rw [List.mem_append, not_or]
    exact ⟨plain, by decide⟩
  have halves : (front ++ "@file".toList) ++ ':' :: ("./".toList ++ rest) =
      (ident ++ "@file".toList) ++ ':' :: ['.'] := by
    rw [(by decide : "@file:./".toList = "@file".toList ++ ':' :: "./".toList),
      (by decide : "@file:.".toList = "@file".toList ++ ':' :: ['.'])] at same
    simpa using same
  have behind := (Framing.split_at_first free identFree halves).2
  exact absurd (congrArg List.length behind) (by simp)

/-- Yarn berry's `./` paths are found where every line ends in a newline. -/
theorem spells_of_berry {content : String} (locked : LockedTarball content)
    (berry : locked.entry.style = .berry) (dotted : "./".toList <+: locked.entry.spelled)
    (bound : locked.entry.binding = [] ∨ "#".toList <+: locked.entry.binding)
    (newlines : ∀ front rest, content.toList = front ++ '\r' :: rest → rest.head? = some '\n') :
    ∃ line ∈ lines content.toList, Spells (trim line) locked.entry.spelled := by
  obtain ⟨entry, valid, before, indent, after, isContent, spaces, starts, ends⟩ := locked
  simp only at berry dotted bound
  have isLine : entry.line = "resolution: \"".toList ++ (entry.ident ++ ("@file:".toList ++
      (entry.spelled ++ (entry.binding ++ ['"'])))) := by
    simp only [TarballEntry.line, berry, List.append_assoc]
  have isFirst : entry.line.head? = some 'r' := by
    rw [isLine]
    rfl
  have isLast : entry.line.getLast? = some '"' := by
    simp only [TarballEntry.line, berry, List.getLast?_concat]
  have free : '\n' ∉ indent ++ entry.line := by
    have bindingFree := valid.bindingLine.2.1
    have spelledFree := valid.spelled.2.2.1
    have identFree := valid.ident.2.2.1
    rw [isLine]
    simp only [List.mem_append, not_or]
    refine ⟨fun member => absurd (spaces _ member) (by decide), by decide, identFree, by decide,
      spelledFree, bindingFree, by decide⟩
  have begins : before = [] ∨ before.getLast? = some '\n' := by
    rcases starts with isEmpty | newline | isReturn
    · exact Or.inl isEmpty
    · exact Or.inr newline
    · obtain ⟨front, rfl⟩ := List.getLast?_eq_some_iff.mp isReturn
      have next := newlines front (indent ++ entry.line ++ after) (by simp [isContent])
      obtain ⟨tail, isTail⟩ := List.head?_eq_some_iff.mp isFirst
      rw [List.head?_append_of_ne_nil _ (by simp [isTail])] at next
      exact (free (List.mem_of_mem_head? next)).elim
  have closes : after = [] ∨ after.head? = some '\n' ∨ "\r\n".toList <+: after := by
    rcases ends with isEmpty | newline | isReturn
    · exact Or.inl isEmpty
    · exact Or.inr (Or.inl newline)
    · obtain ⟨rest, rfl⟩ := List.head?_eq_some_iff.mp isReturn
      have next := newlines (before ++ (indent ++ entry.line)) rest isContent
      obtain ⟨tail, rfl⟩ := List.head?_eq_some_iff.mp next
      exact Or.inr (Or.inr ⟨tail, rfl⟩)
  refine ⟨indent ++ entry.line, ?_, ?_⟩
  · rw [isContent, List.append_assoc]
    exact mem_lines free ⟨'"', by simp [isLast], by decide⟩ begins closes
  · rw [trim_indented spaces isFirst isLast (by decide) (by decide)]
    refine ⟨entry.ident, entry.binding ++ ['"'], isLine, first_file_protocol valid.ident.1, dotted,
      fun char member => ⟨?_, ?_⟩, ?_⟩
    · rintro rfl
      exact valid.spelled.1 member
    · rintro rfl
      exact valid.spelled.2.1 member
    · rcases bound with unbound | ⟨rest, isBinding⟩
      · simp [unbound]
      · simp [← isBinding]

/-! One package from a tarball in the root. -/

namespace OneTarball

def entry (spelled : String) : TarballEntry where
  style := .berry
  ident := "pkg".toList
  spelled := spelled.toList
  binding := ("#" ++ spelled ++ "::hash=1&locator=ws%40workspace%3A.").toList
  parent := []

def dotted : String :=
  "\"pkg@file:./x.tgz\":\n  resolution: \"pkg@file:./x.tgz#./x.tgz::hash=1&locator=ws%40workspace%3A.\"\n"

def bare : String :=
  "\"pkg@file:x.tgz\":\n  resolution: \"pkg@file:x.tgz#x.tgz::hash=1&locator=ws%40workspace%3A.\"\n"

def lockedDotted : LockedTarball dotted where
  entry := entry "./x.tgz"
  valid := ⟨by decide, by decide, by decide, by decide, by decide, by decide, by rintro ⟨⟩⟩
  written := ⟨"\"pkg@file:./x.tgz\":\n".toList, [' ', ' '], ['\n'], by decide +kernel, by simp,
    by decide, by decide⟩

def lockedBare : LockedTarball bare where
  entry := entry "x.tgz"
  valid := ⟨by decide, by decide, by decide, by decide, by decide, by decide, by rintro ⟨⟩⟩
  written := ⟨"\"pkg@file:x.tgz\":\n".toList, [' ', ' '], ['\n'], by decide +kernel, by simp,
    by decide, by decide⟩

def workspaceRoot : Path := utf8 "/ws"

def disk (content : String) : FileSystem :=
  ⟨[(components (utf8 "/ws/yarn.lock"), ⟨.file (utf8 content) true, false⟩),
    (components (utf8 "/ws/x.tgz"), ⟨.file [1] true, false⟩)]⟩

end OneTarball

open OneTarball in
theorem file_tarballs_dotted :
    Tracked .plain (disk dotted) workspaceRoot (lockedDotted.entry.tarball workspaceRoot) ↔
      (disk dotted).isFile (workspaceRoot.join (utf8 "pnpm-lock.yaml")) = false ∧
      ∃ line ∈ lines dotted.toList, ∃ rel, Spells (trim line) rel ∧
        Path.eq (workspaceRoot.join (toBytes rel))
          (lockedDotted.entry.tarball workspaceRoot) = true :=
  file_tarballs_iff .plain Crates.plain_ideal.injective (disk dotted) workspaceRoot dotted
    lockedDotted (by decide +kernel)

/-- A tarball spelled `x.tgz` is no input of the install. -/
theorem file_tarballs_bare :
    ¬ ∀ (crates : Crates), Function.Injective crates.blake3 → ∀ (fs : FileSystem)
        (workspaceRoot : Path) (content : String) (locked : LockedTarball content),
      fs.read (workspaceRoot.join (utf8 "yarn.lock")) = some (utf8 content) →
      fs.isFile (workspaceRoot.join (utf8 "pnpm-lock.yaml")) = false →
      Tracked crates fs workspaceRoot (locked.entry.tarball workspaceRoot) := by
  intro claimed
  obtain ⟨task, inferred, ⟨path, member, isTarball⟩, _⟩ := claimed .plain
    Crates.plain_ideal.injective (OneTarball.disk OneTarball.bare) OneTarball.workspaceRoot
    OneTarball.bare OneTarball.lockedBare (by decide +kernel) (by decide +kernel)
  have missing : ∀ task ∈ inferRootTasks (OneTarball.disk OneTarball.bare) OneTarball.workspaceRoot,
      ∀ path ∈ task.inputPaths,
        Path.eq path (OneTarball.lockedBare.entry.tarball OneTarball.workspaceRoot) = false := by
    decide +kernel
  have absent := missing task (by simp [inferred]) path member
  rw [isTarball] at absent
  simp at absent

end Lockfile

end Rage
