import Rage.NodePath

/-!
The tool that is hashed and the tool that the shell of a task runs.  The shell cuts the text of
`PATH` at every colon, starts in the package directory and takes executable files only.
-/

namespace Rage.ToolPath

open NodePath Lockfile

/-! Commands. -/

/-- A character with no meaning for the shell. -/
def plainChar (char : Char) : Bool :=
  !isWhitespace char && char ∉ "|&;<>()$`\\\"'*?[]#~=%!\x7b\x7d".toList

/-- A plain word, which is no builtin, and what the shell makes its arguments. -/
structure Command where
  word : List Char
  filled : word ≠ []
  plain : ∀ char ∈ word, plainChar char = true
  args : Option (List Char)

def Command.text (command : Command) : List Char :=
  command.word ++ (command.args.map (' ' :: ·)).getD []

abbrev Command.name (command : Command) : Bytes := toBytes command.word

/-- Where a task runs. -/
structure Place where
  machine : Machine
  taskCwd : Path
  workspaceRoot : Path

namespace Place

variable (place : Place) (command : Command)

/-- `std::env::var("PATH").unwrap_or_default()`. -/
def systemPath : Bytes := ((place.machine.env (utf8 "PATH")).filter isUtf8).getD []

/-- The file that is read for the hash. -/
def hashedFile : Option FileNode :=
  (whichFirst place.machine command.text place.taskCwd place.workspaceRoot).bind fun path =>
    place.machine.fileAt (Path.join place.machine.processCwd path)

def shellCwd : Path := Path.join place.machine.processCwd place.taskCwd

/-- The search of a POSIX shell.  An empty part of `PATH` is the current directory. -/
def shellFile (pathVar : Bytes) : Option FileNode :=
  let candidates := if slash ∈ command.name then [command.name]
    else (pathVar.splitOn colon).map fun dir => Path.join dir command.name
  (candidates.filterMap fun path => place.machine.fileAt (Path.join place.shellCwd path)).find?
    fun file => file.executable

def executedFile : Option FileNode :=
  place.shellFile command
    (buildNodePath place.machine place.taskCwd place.workspaceRoot place.systemPath)

def HashedIsExecuted : Prop := place.hashedFile command = place.executedFile command

/-! The two lists of directories, each as it is walked. -/

def walkedDirs : List Path :=
  moduleBin place.taskCwd ::
    ((if Path.eq place.workspaceRoot place.taskCwd then [] else [moduleBin place.workspaceRoot]) ++
      ((managedBin place.machine place.workspaceRoot).toList ++
        ((place.machine.env (utf8 "PATH")).map (List.splitOn colon)).getD []))

def shellDirs : List Path :=
  (prepended place.machine place.taskCwd place.workspaceRoot).flatMap
      (fun dir => (toStringLossy dir).splitOn colon) ++
    place.systemPath.splitOn colon

/-- The regular files of the command's name below the directories, seen from `cwd`. -/
def filesIn (cwd : Path) (dirs : List Path) : List FileNode :=
  (if slash ∈ command.name then [command.name] else dirs.map fun dir => Path.join dir command.name)
    |>.filterMap fun path => place.machine.fileAt (Path.join cwd path)

def walkedFiles : List FileNode := place.filesIn command place.machine.processCwd place.walkedDirs

def shellFiles : List FileNode := place.filesIn command place.shellCwd place.shellDirs

/-- No file that cannot be executed comes first. -/
def ExecutableFirst : Prop := ∀ file ∈ (place.walkedFiles command).head?, file.executable = true

/-- The first executable is the same from either directory and in either list. -/
def SameExecutable : Prop :=
  (place.walkedFiles command).find? (fun file => file.executable) =
    (place.shellFiles command).find? fun file => file.executable

end Place

/-! Reading the command. -/

theorem plainChar_iff {char : Char} : plainChar char = true ↔ isWhitespace char = false ∧
    char ∉ "|&;<>()$`\\\"'*?[]#~=%!\x7b\x7d".toList := by
  simp [plainChar]

theorem head?_splitWhitespace (command : Command) :
    (splitWhitespace command.text).head? = some command.word := by
  have plain : ∀ char ∈ command.word, isWhitespace char = false := fun char member =>
    (plainChar_iff.mp (command.plain char member)).1
  unfold splitWhitespace Command.text
  cases command.args with
  | none =>
      rw [Option.map_none, Option.getD_none, List.append_nil, List.splitOnP_eq_singleton plain]
      simp [command.filled]
  | some args =>
      rw [Option.map_some, Option.getD_some,
        List.splitOnP_append_cons_of_forall_mem plain ' ' (by decide)]
      simp [command.filled]

/-! The search of the hash. -/

theorem find?_bind {α β : Type} (look : α → Option β) (list : List α) :
    (list.find? fun item => (look item).isSome).bind look = (list.filterMap look).head? := by
  induction list with
  | nil => rfl
  | cons item list ih =>
      cases found : look item with
      | none => rw [List.find?_cons_of_neg (by simp [found]), List.filterMap_cons_none found, ih]
      | some value =>
          rw [List.find?_cons_of_pos (by simp [found]), List.filterMap_cons_some found]
          simpa using found

section

variable (place : Place) (command : Command)

theorem find?_managed (managed : Option Path) (path : Option Bytes) (there : Path → Bool)
    (candidate : Path → Path) :
    (match managed.filter there with
      | some dir => some (candidate dir)
      | none => path.bind fun path => ((path.splitOn colon).find? there).map candidate) =
    ((managed.toList ++ (path.map (List.splitOn colon)).getD []).find? there).map candidate := by
  have elsewhere : (path.bind fun path => ((path.splitOn colon).find? there).map candidate) =
      (((path.map (List.splitOn colon)).getD []).find? there).map candidate := by
    cases path with
    | none => rfl
    | some path => rfl
  cases managed with
  | none => simpa using elsewhere
  | some dir =>
      cases found : there dir with
      | true => simp [Option.filter, found]
      | false => simpa [Option.filter, found] using elsewhere

/-- Without a slash the first directory with a file of the name is taken. -/
theorem whichFirst_eq (noSlash : slash ∉ command.name) :
    whichFirst place.machine command.text place.taskCwd place.workspaceRoot =
      (place.walkedDirs.find? fun dir => place.machine.isFile (Path.join dir command.name)).map
        fun dir => Path.join dir command.name := by
  have later := find?_managed (managedBin place.machine place.workspaceRoot)
    (place.machine.env (utf8 "PATH")) (fun dir => place.machine.isFile (Path.join dir command.name))
    fun dir => Path.join dir command.name
  simp only [whichFirst, head?_splitWhitespace, Option.bind_some, noSlash, if_false]
  unfold Place.walkedDirs
  cases inPackage : place.machine.isFile (Path.join (moduleBin place.taskCwd) command.name) with
  | true => simp [inPackage]
  | false =>
      rw [List.find?_cons_of_neg (by simp [inPackage])]
      cases same : Path.eq place.workspaceRoot place.taskCwd with
      | true =>
          simp only [Bool.false_eq_true, Bool.not_true, Bool.false_and, if_false, if_true,
            List.nil_append]
          exact later
      | false =>
          cases inRoot :
              place.machine.isFile (Path.join (moduleBin place.workspaceRoot) command.name) with
          | true => simp [inRoot]
          | false =>
              simp only [Bool.false_eq_true, Bool.not_false, Bool.and_false, if_false,
                List.cons_append, List.nil_append, inRoot, not_false_eq_true, List.find?_cons_of_neg]
              exact later

theorem hashedFile_eq : place.hashedFile command = (place.walkedFiles command).head? := by
  by_cases hasSlash : slash ∈ command.name
  · simp only [Place.hashedFile, whichFirst, head?_splitWhitespace, Option.bind_some, hasSlash,
      if_true, Place.walkedFiles, Place.filesIn]
    cases found : place.machine.fileAt (Path.join place.machine.processCwd command.name) with
    | none => simp [found]
    | some file => simp [found]
  · rw [Place.hashedFile, whichFirst_eq place command hasSlash, Place.walkedFiles, Place.filesIn,
      if_neg hasSlash, List.filterMap_map, ← find?_bind, Option.bind_map]
    rfl

theorem splitOn_buildNodePath (systemPath : Bytes) (dirs : List Path) :
    (dirs.flatMap (fun dir => toStringLossy dir ++ [colon]) ++ systemPath).splitOn colon =
      dirs.flatMap (fun dir => (toStringLossy dir).splitOn colon) ++ systemPath.splitOn colon := by
  induction dirs with
  | nil => rfl
  | cons dir dirs ih =>
      rw [List.flatMap_cons, List.flatMap_cons, List.append_assoc, List.append_assoc,
        List.append_assoc, List.singleton_append, List.splitOn_append_cons_self, ih]

theorem executedFile_eq : place.executedFile command =
    (place.shellFiles command).find? fun file => file.executable := by
  rw [Place.executedFile, Place.shellFile, buildNodePath, splitOn_buildNodePath]
  rfl

/-- The first of the files is what is executed if it can be executed and the lists give one
executable. -/
theorem head?_eq_iff {files : List FileNode} {executed : Option FileNode}
    (runs : ∀ file ∈ executed, file.executable = true) :
    files.head? = executed ↔ (∀ file ∈ files.head?, file.executable = true) ∧
      (files.find? fun file => file.executable) = executed := by
  cases files with
  | nil => simp
  | cons file files =>
      cases isExecutable : file.executable with
      | true => simp [isExecutable]
      | false =>
          simp only [List.head?_cons, Option.mem_def, Option.some.injEq, forall_eq', isExecutable,
            Bool.false_eq_true, false_and, iff_false]
          intro same
          have found := runs file same.symm
          simp [isExecutable] at found

theorem executedFile_runs :
    ∀ file ∈ place.executedFile command, file.executable = true := by
  intro file isExecuted
  rw [executedFile_eq] at isExecuted
  exact List.find?_some isExecuted

/-- The hash is that of the executed file when the first file can be executed and the two lists
give one executable. -/
theorem hashed_iff : place.HashedIsExecuted command ↔
    place.ExecutableFirst command ∧ place.SameExecutable command := by
  rw [Place.HashedIsExecuted, Place.ExecutableFirst, Place.SameExecutable, hashedFile_eq,
    head?_eq_iff (executedFile_runs place command), executedFile_eq]

/-! Places where the two lists are one. -/

/-- `PATH` is text, every directory is absolute and stands in `PATH` as it is, and what lies below
a path lies in a directory. -/
structure Straight : Prop where
  below : ∀ dir, (place.machine.fileAt (Path.join dir command.name)).isSome →
    place.machine.node dir = some .directory
  absolute : ∀ dir ∈ place.walkedDirs, dir.head? = some slash
  shown : ∀ dir ∈ prepended place.machine place.taskCwd place.workspaceRoot,
    isUtf8 dir = true ∧ colon ∉ dir
  pathIsText : ∃ path, place.machine.env (utf8 "PATH") = some path ∧ isUtf8 path = true
  named : slash ∈ command.name → command.name.head? = some slash

theorem join_absolute (cwd : Path) {path : Path} (absolute : path.head? = some slash) :
    Path.join cwd path = path := if_pos absolute

theorem absolute_join {dir : Path} (absolute : dir.head? = some slash) (name : Bytes) :
    (Path.join dir name).head? = some slash := by
  have filled : dir ≠ [] := by
    rintro rfl
    simp at absolute
  unfold Path.join
  split
  · assumption
  · split
    · rw [List.head?_append_of_ne_nil _ filled, absolute]
    · rw [List.head?_append_of_ne_nil _ filled, absolute]

variable {place command}

/-- From any directory the same files are seen in absolute ones. -/
theorem filesIn_absolute (noSlash : slash ∉ command.name) (cwd : Path) {dirs : List Path}
    (absolute : ∀ dir ∈ dirs, dir.head? = some slash) :
    place.filesIn command cwd dirs =
      dirs.filterMap fun dir => place.machine.fileAt (Path.join dir command.name) := by
  rw [Place.filesIn, if_neg noSlash, List.filterMap_map]
  refine List.filterMap_congr fun dir member => ?_
  rw [Function.comp_apply, join_absolute cwd (absolute_join (absolute dir member) _)]

theorem Straight.shellDirs_eq (straight : Straight place command) :
    place.shellDirs = prepended place.machine place.taskCwd place.workspaceRoot ++
      ((place.machine.env (utf8 "PATH")).map (List.splitOn colon)).getD [] := by
  obtain ⟨path, isPath, isText⟩ := straight.pathIsText
  have asIs : (prepended place.machine place.taskCwd place.workspaceRoot).flatMap
        (fun dir => (toStringLossy dir).splitOn colon) =
      (prepended place.machine place.taskCwd place.workspaceRoot).flatMap fun dir => [dir] := by
    refine List.flatMap_congr fun dir member => ?_
    obtain ⟨text, noColon⟩ := straight.shown dir member
    rw [isUtf8_lossy text, List.splitOn_eq_singleton noColon]
  rw [Place.shellDirs, asIs, List.flatMap_singleton', Place.systemPath, isPath]
  simp [Option.filter, isText]

theorem eq_moduleBin (first second : Path) :
    Path.eq (moduleBin first) (moduleBin second) = Path.eq first second := by
  rw [Bool.eq_iff_iff, Path.eq_iff, Path.eq_iff, moduleBin, moduleBin,
    components_join first (by decide) (by decide), components_join second (by decide) (by decide),
    List.append_left_inj]

/-- A directory that is left out has no files. -/
theorem Straight.kept (straight : Straight place command) {dir : Path}
    (absolute : dir.head? = some slash) :
    (if place.machine.isDir dir then [dir] else []).filterMap
        (fun dir => place.machine.fileAt (Path.join dir command.name)) =
      [dir].filterMap fun dir => place.machine.fileAt (Path.join dir command.name) := by
  split
  · rfl
  · rename_i noDir
    have noFile : place.machine.fileAt (Path.join dir command.name) = none := by
      refine Option.not_isSome_iff_eq_none.mp fun found => noDir ?_
      rw [Machine.isDir, join_absolute _ absolute, decide_eq_true_eq]
      exact straight.below dir found
    simp [noFile]

theorem Straight.files_eq (straight : Straight place command) :
    place.walkedDirs.filterMap (fun dir => place.machine.fileAt (Path.join dir command.name)) =
      place.shellDirs.filterMap fun dir => place.machine.fileAt (Path.join dir command.name) := by
  have absolute := straight.absolute
  rw [straight.shellDirs_eq, prepended, eq_moduleBin]
  unfold Place.walkedDirs at absolute ⊢
  simp only [List.mem_cons, List.mem_append, forall_eq_or_imp] at absolute
  obtain ⟨packageAbsolute, others⟩ := absolute
  rw [← List.singleton_append, List.filterMap_append, ← straight.kept packageAbsolute,
    List.append_assoc, List.filterMap_append, List.filterMap_append, List.append_assoc,
    List.filterMap_append, List.append_right_inj]
  cases same : Path.eq place.workspaceRoot place.taskCwd with
  | true => simp
  | false =>
      have rootAbsolute := others (moduleBin place.workspaceRoot) (Or.inl (by simp [same]))
      have kept := straight.kept rootAbsolute
      simp only [Bool.not_false, Bool.true_and, Bool.false_eq_true, if_false, kept,
        List.filterMap_append]

theorem prepended_walked {dir : Path}
    (member : dir ∈ prepended place.machine place.taskCwd place.workspaceRoot) :
    dir ∈ place.walkedDirs := by
  rw [prepended, eq_moduleBin] at member
  simp only [List.mem_append, List.mem_ite_nil_right, List.mem_singleton, Bool.and_eq_true,
    Bool.not_eq_true'] at member
  rw [Place.walkedDirs, List.mem_cons, List.mem_append, List.mem_append]
  rcases member with ⟨-, isPackage⟩ | ⟨⟨apart, -⟩, isRoot⟩ | managed
  · exact Or.inl isPackage
  · exact Or.inr (Or.inl (by simp [apart, isRoot]))
  · exact Or.inr (Or.inr (Or.inl managed))

theorem Straight.absolute_shell (straight : Straight place command) :
    ∀ dir ∈ place.shellDirs, dir.head? = some slash := by
  intro dir member
  rw [straight.shellDirs_eq, List.mem_append] at member
  rcases member with isPrepended | inPath
  · exact straight.absolute dir (prepended_walked isPrepended)
  · exact straight.absolute dir (List.mem_cons_of_mem _
      (List.mem_append_right _ (List.mem_append_right _ inPath)))

theorem Straight.sameExecutable (straight : Straight place command) :
    place.SameExecutable command := by
  have sameFiles : place.walkedFiles command = place.shellFiles command := by
    unfold Place.walkedFiles Place.shellFiles
    by_cases hasSlash : slash ∈ command.name
    · have named := straight.named hasSlash
      have seen (cwd : Path) :
          place.machine.fileAt (Path.join cwd command.name) = place.machine.fileAt command.name := by
        rw [join_absolute cwd named]
      simp [Place.filesIn, hasSlash, List.filterMap_cons, seen]
    · rw [filesIn_absolute hasSlash _ straight.absolute,
        filesIn_absolute hasSlash _ straight.absolute_shell, straight.files_eq]
  rw [Place.SameExecutable, sameFiles]

/-- There it only matters that the first file can be executed. -/
theorem Straight.hashed_first_iff (straight : Straight place command) :
    place.HashedIsExecuted command ↔ place.ExecutableFirst command := by
  have sameExecutable := straight.sameExecutable
  rw [Place.SameExecutable, ← executedFile_eq] at sameExecutable
  rw [Place.HashedIsExecuted, Place.ExecutableFirst, hashedFile_eq,
    head?_eq_iff (executedFile_runs place command), and_iff_left sameExecutable]

end

abbrev rootScript : FileNode := ⟨1, utf8 "root", true⟩
abbrev packageScript : FileNode := ⟨2, utf8 "package", true⟩

/-- The workspace and a package below it have scripts of one name. -/
def workspace : Machine where
  node := fun path =>
    if path = utf8 "/w/scripts/build.sh" then some (.file rootScript)
    else if path = utf8 "/w/packages/app/scripts/build.sh" then some (.file packageScript)
    else if (["/", "/w", "/w/scripts", "/w/packages", "/w/packages/app",
        "/w/packages/app/scripts", "/usr", "/usr/bin"].map utf8).contains path then some .directory
    else none
  listing := fun _ => none
  env := fun name => if name = utf8 "PATH" then some (utf8 "/usr/bin") else none
  processCwd := utf8 "/w"

abbrev app : Place := ⟨workspace, utf8 "/w/packages/app", utf8 "/w"⟩

abbrev build : Command where
  word := "scripts/build.sh".toList
  filled := by decide
  plain := List.all_eq_true.mp (by decide +kernel)
  args := some "--all".toList

/-- The script of the package runs, and that of the workspace is hashed. -/
theorem root_script_hashed :
    app.hashedFile build = some rootScript ∧ app.executedFile build = some packageScript ∧
      ¬ app.HashedIsExecuted build := by
  have hashed : app.hashedFile build = some rootScript := by decide +kernel
  have executed : app.executedFile build = some packageScript := by decide +kernel
  refine ⟨hashed, executed, fun same => ?_⟩
  rw [Place.HashedIsExecuted, hashed, executed] at same
  exact absurd same (by decide)

end Rage.ToolPath
