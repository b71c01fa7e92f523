import Rage.DeclaredInputs
import Rage.HubBuild
import Rage.Search

/-!
`rage run --since` and `--affected`.  git names a changed file from the top level of its
repository, or from the workspace root where it is untracked, and quotes unusual names; every name
is joined to the workspace root and compared with the canonical paths of the packages.
-/

namespace Rage.AffectedScope

/-! What git prints of a path, with `core.quotePath` as it is by default. -/

def quoteMark : UInt8 := 0x22

def special (byte : UInt8) : Bool :=
  byte < 0x20 || byte = quoteMark || byte = 0x5C || 0x7F ≤ byte

def octal (byte : UInt8) : Bytes :=
  [0x5C, 0x30 + byte / 64, 0x30 + byte / 8 % 8, 0x30 + byte % 8]

def escape (byte : UInt8) : Bytes :=
  if byte = 7 then utf8 "\\a"
  else if byte = 8 then utf8 "\\b"
  else if byte = 9 then utf8 "\\t"
  else if byte = 10 then utf8 "\\n"
  else if byte = 11 then utf8 "\\v"
  else if byte = 12 then utf8 "\\f"
  else if byte = 13 then utf8 "\\r"
  else if byte = quoteMark ∨ byte = 0x5C then [0x5C, byte]
  else octal byte

def quotePath (path : Path) : Bytes :=
  if path.any special then
    quoteMark :: path.flatMap (fun byte => if special byte then escape byte else [byte]) ++
      [quoteMark]
  else path

structure RepoFile where
  names : List FileName
  filled : names ≠ []

namespace RepoFile

def path (file : RepoFile) : Path := joinNames (file.names.map FileName.text)

def location (file : RepoFile) : Location := file.names.map fun name => .normal name.text

end RepoFile

def printed (files : List RepoFile) : Bytes :=
  files.flatMap fun file => quotePath file.path ++ [newline]

/-- The repository that the workspace is in: where its top level really is, the workspace below
it, and what the commands find, if they succeed.  `git ls-files` tells of the workspace only. -/
structure Repository where
  top : Location
  workspace : List FileName
  diff : Bytes → Option (List RepoFile)
  unstaged : Option (List RepoFile)
  staged : Option (List RepoFile)
  untracked : Option (List RepoFile)

/-! `git.rs`. -/

def stripCarriageReturn (line : Bytes) : Bytes :=
  if line.getLast? = some 0x0D then line.dropLast else line

/-- `str::lines`. -/
def lines (text : Bytes) : List Bytes :=
  let parts := text.splitOn newline
  parts.dropLast.map stripCarriageReturn ++ parts.getLast?.toList.filter (· ≠ [])

def gitPaths (root : Path) (stdout : Bytes) : List Path :=
  ((lines (toStringLossy stdout)).filter (· ≠ [])).map (Path.join root)

def gitChangedFiles (repo : Repository) (root : Path) (baseRef : Bytes) : Option (List Path) :=
  (repo.diff baseRef).map fun files => gitPaths root (printed files)

def insertPath (seen : List Path) (path : Path) : List Path :=
  if seen.any (Path.eq path) then seen else seen ++ [path]

def gitDirtyFiles (repo : Repository) (root : Path) : Option (List Path) := do
  let unstaged ← repo.unstaged
  let staged ← repo.staged
  let untracked ← repo.untracked
  let paths := gitPaths root (printed unstaged) ++ gitPaths root (printed staged) ++
    gitPaths root (printed untracked)
  some ((paths.foldl insertPath []).insertionSort fun first second => Path.le first second)

/-! `affected.rs`. -/

/-- `petgraph::visit::Bfs`: the nodes that it visits on a list of edges, from a start. -/
structure PetgraphBfs where
  visits : List (Nat × Nat) → Nat → List Nat

/-- What petgraph promises of it. -/
def PetgraphBfs.Searches (bfs : PetgraphBfs) : Prop :=
  ∀ edges start node, node ∈ bfs.visits edges start ↔
    Relation.ReflTransGen (fun first second => (first, second) ∈ edges) start node

def startsWith (path base : Path) : Bool := (components base).isPrefixOf (components path)

/-- `dag.nodes`: the last node of a name. -/
def nodeOf (dag : WorkspaceDag) : Bytes → Option Nat :=
  dag.nodes.zipIdx.foldl (fun nodes node => Function.update nodes node.1 (some node.2))
    fun _ => none

def affectedPackages (bfs : PetgraphBfs) (packages : List Package) (dag : WorkspaceDag)
    (changedFiles : List Path) : List Bytes :=
  let directlyAffected := (packages.filter fun package =>
    changedFiles.any fun file => startsWith file package.path).map Package.name
  directlyAffected.flatMap fun name =>
    match nodeOf dag name with
    | some start => (bfs.visits (dag.edges.map Prod.swap) start).map fun node => dag.nodes.getD node []
    | none => []

/-! `cmd_run`. -/

inductive Scope
  | since (baseRef : Bytes)
  | affected

def changedFiles (repo : Repository) (root : Path) : Scope → Option (List Path)
  | .since baseRef => gitChangedFiles repo root baseRef
  | .affected => gitDirtyFiles repo root

/-! What is to be affected. -/

/-- A file that a command names, and the directory from which it names it. -/
structure Report where
  base : Location
  file : RepoFile

namespace Report

def location (report : Report) : Location := report.base ++ report.file.location

def path (report : Report) (root : Path) : Path := Path.join root (quotePath report.file.path)

end Report

def Repository.reports (repo : Repository) : Scope → Option (List Report)
  | .since baseRef => (repo.diff baseRef).map fun files => files.map (Report.mk repo.top)
  | .affected => do
      let unstaged ← repo.unstaged
      let staged ← repo.staged
      let untracked ← repo.untracked
      some ((unstaged ++ staged).map (Report.mk repo.top) ++ untracked.map
        (Report.mk (repo.top ++ repo.workspace.map fun name => .normal name.text)))

section

variable (packages : List Package) (root : Path) (reports : List Report)

/-- The path of a package is canonical: it is where the package is. -/
def Contains (package : Package) : Prop :=
  ∃ report ∈ reports, components package.path <+: report.location

def Matched (package : Package) : Prop :=
  ∃ report ∈ reports, components package.path <+: components (report.path root)

def DependsOn (name dep : Bytes) : Prop :=
  Relation.ReflTransGen (WorkspaceDag.PackageEdge packages) name dep

/-- A package that contains a changed file, or that depends on one. -/
def Affected (name : Bytes) : Prop :=
  ∃ package ∈ packages, Contains reports package ∧ DependsOn packages name package.name

/-- `affected_packages` finds what is to be affected. -/
def Exact (bfs : PetgraphBfs) (dag : WorkspaceDag) (changed : List Path) : Prop :=
  ∀ name, name ∈ affectedPackages bfs packages dag changed ↔ Affected packages reports name

/-- Whoever contains a changed file depends on a package that a joined path lies in, and the
other way round. -/
structure Matches : Prop where
  found : ∀ package ∈ packages, Contains reports package → ∃ other ∈ packages,
    Matched root reports other ∧ DependsOn packages package.name other.name
  meant : ∀ package ∈ packages, Matched root reports package → ∃ other ∈ packages,
    Contains reports other ∧ DependsOn packages package.name other.name

end

/-! What git prints is read back line by line. -/

theorem octal_printable (byte : UInt8) : ∀ digit ∈ octal byte, 0x20 ≤ digit ∧ digit < 0x7F := by
  have bound : byte.toNat < 256 := byte.toNat_lt
  intro digit member
  simp only [octal, List.mem_cons, List.not_mem_nil, or_false] at member
  rw [UInt8.le_iff_toNat_le, UInt8.lt_iff_toNat_lt]
  rcases member with rfl | rfl | rfl | rfl
  · decide
  · simp only [UInt8.toNat_add, UInt8.toNat_div, UInt8.reduceToNat]
    omega
  · simp only [UInt8.toNat_add, UInt8.toNat_mod, UInt8.toNat_div, UInt8.reduceToNat]
    omega
  · simp only [UInt8.toNat_add, UInt8.toNat_mod, UInt8.reduceToNat]
    omega

theorem escape_printable (byte : UInt8) : ∀ digit ∈ escape byte, 0x20 ≤ digit ∧ digit < 0x7F := by
  have letters : ∀ text ∈ [utf8 "\\a", utf8 "\\b", utf8 "\\t", utf8 "\\n", utf8 "\\v", utf8 "\\f",
      utf8 "\\r", [0x5C, quoteMark], [0x5C, 0x5C]], ∀ digit ∈ text, 0x20 ≤ digit ∧ digit < 0x7F := by
    decide +kernel
  unfold escape
  split_ifs with bell back tab feed vertical form carriage mark
  · exact letters _ (by simp)
  · exact letters _ (by simp)
  · exact letters _ (by simp)
  · exact letters _ (by simp)
  · exact letters _ (by simp)
  · exact letters _ (by simp)
  · exact letters _ (by simp)
  · rcases mark with rfl | rfl
    · exact letters _ (by simp)
    · exact letters _ (by simp)
  · exact octal_printable byte

theorem plain_printable {byte : UInt8} (plain : special byte = false) :
    0x20 ≤ byte ∧ byte < 0x7F := by
  simp only [special, Bool.or_eq_false_iff, decide_eq_false_iff_not] at plain
  exact ⟨UInt8.not_lt.mp plain.1.1.1, UInt8.not_le.mp plain.2⟩

theorem quotePath_printable (path : Path) :
    ∀ byte ∈ quotePath path, 0x20 ≤ byte ∧ byte < 0x7F := by
  intro byte member
  have mark : 0x20 ≤ quoteMark ∧ quoteMark < 0x7F := by decide
  unfold quotePath at member
  split at member
  · simp only [List.cons_append, List.mem_cons, List.mem_append, List.mem_flatMap,
      List.not_mem_nil, or_false] at member
    rcases member with rfl | ⟨source, _, isPart⟩ | rfl
    · exact mark
    · split at isPart
      · exact escape_printable source byte isPart
      · rename_i plain
        rw [List.mem_singleton.mp isPart]
        exact plain_printable (by simpa using plain)
    · exact mark
  · rename_i plain
    simp only [List.any_eq_true, not_exists, not_and, Bool.not_eq_true] at plain
    exact plain_printable (plain byte member)

theorem lines_cons {line : Bytes} (printable : ∀ byte ∈ line, 0x20 ≤ byte ∧ byte < 0x7F)
    (rest : Bytes) : lines (line ++ newline :: rest) = line :: lines rest := by
  have noNewline : newline ∉ line := fun member =>
    absurd (printable newline member).1 (by decide)
  have kept : stripCarriageReturn line = line := by
    apply if_neg
    intro ends
    exact absurd (printable 0x0D (List.mem_of_getLast? ends)).1 (by decide)
  obtain ⟨part, parts, isRest⟩ := List.exists_cons_of_ne_nil (List.splitOn_ne_nil newline rest)
  simp only [lines, List.splitOn_append_cons_self_of_not_mem noNewline, isRest,
    List.dropLast_cons_cons, List.map_cons, List.getLast?_cons_cons, List.cons_append, kept]

theorem lines_printed (files : List RepoFile) :
    lines (toStringLossy (printed files)) = files.map fun file => quotePath file.path := by
  have ascii : ∀ byte ∈ printed files, byte < 0x80 := by
    intro byte member
    obtain ⟨file, _, here⟩ := List.mem_flatMap.mp member
    rcases List.mem_append.mp here with inPath | isEnd
    · exact UInt8.lt_trans (quotePath_printable _ byte inPath).2 (by decide)
    · rw [List.mem_singleton.mp isEnd]
      decide
  rw [toStringLossy_ascii ascii]
  induction files with
  | nil => rfl
  | cons file files ih =>
      have split : printed (file :: files) =
          quotePath file.path ++ newline :: printed files := by
        simp [printed]
      rw [split, lines_cons (quotePath_printable _), ih, List.map_cons]
      intro byte member
      exact ascii byte (by simp [split, member])

theorem quotePath_ne_nil (file : RepoFile) : quotePath file.path ≠ [] := by
  unfold quotePath
  split
  · simp
  · intro empty
    have noParts := components_joinNames file.filled
    rw [show joinNames (file.names.map FileName.text) = [] from empty] at noParts
    exact file.filled (List.map_eq_nil_iff.mp (noParts.symm.trans (by decide)))

/-- Every report is a path that is joined to the workspace root. -/
theorem gitPaths_printed (root : Path) (files : List RepoFile) (base : Location) :
    gitPaths root (printed files) = (files.map (Report.mk base)).map fun report =>
      report.path root := by
  unfold gitPaths
  rw [lines_printed, List.filter_eq_self.mpr, List.map_map, List.map_map]
  · rfl
  · intro line member
    obtain ⟨file, _, rfl⟩ := List.mem_map.mp member
    simpa using quotePath_ne_nil file

/-! The set of changed files. -/

/-- The paths lie where the reports put them. -/
def Tells (root : Path) (paths : List Path) (reports : List Report) : Prop :=
  ∀ location, (∃ path ∈ paths, components path = location) ↔
    ∃ report ∈ reports, components (report.path root) = location

theorem mem_inserted (paths seen : List Path) (location : Location) :
    (∃ path ∈ paths.foldl insertPath seen, components path = location) ↔
      (∃ path ∈ seen, components path = location) ∨
        ∃ path ∈ paths, components path = location := by
  induction paths generalizing seen with
  | nil => simp
  | cons path paths ih =>
      rw [List.foldl_cons, ih]
      have inserted : (∃ kept ∈ insertPath seen path, components kept = location) ↔
          (∃ kept ∈ seen, components kept = location) ∨ components path = location := by
        unfold insertPath
        split
        · rename_i present
          obtain ⟨kept, member, same⟩ := List.any_eq_true.mp present
          constructor
          · exact Or.inl
          · rintro (old | isPath)
            · exact old
            · exact ⟨kept, member, (Path.eq_iff.mp same).symm.trans isPath⟩
        · simp [or_and_right, exists_or]
      rw [inserted]
      simp only [List.mem_cons, or_and_right, exists_or, exists_eq_left, or_assoc]

theorem tells_map (root : Path) (reports : List Report) :
    Tells root (reports.map fun report => report.path root) reports := by
  intro location
  simp

theorem changedFiles_tells (repo : Repository) (root : Path) (scope : Scope) :
    (changedFiles repo root scope = none ∧ repo.reports scope = none) ∨
      ∃ paths reports, changedFiles repo root scope = some paths ∧
        repo.reports scope = some reports ∧ Tells root paths reports := by
  cases scope with
  | since baseRef =>
      simp only [changedFiles, gitChangedFiles, Repository.reports]
      cases repo.diff baseRef with
      | none => exact Or.inl ⟨rfl, rfl⟩
      | some files =>
          refine Or.inr ⟨_, _, rfl, rfl, ?_⟩
          show Tells root (gitPaths root (printed files)) (files.map (Report.mk repo.top))
          rw [gitPaths_printed root files repo.top]
          exact tells_map root _
  | affected =>
      simp only [changedFiles, gitDirtyFiles, Repository.reports]
      cases repo.unstaged with
      | none => exact Or.inl ⟨rfl, rfl⟩
      | some unstaged =>
          cases repo.staged with
          | none => exact Or.inl ⟨rfl, rfl⟩
          | some staged =>
              cases repo.untracked with
              | none => exact Or.inl ⟨rfl, rfl⟩
              | some untracked =>
                  refine Or.inr ⟨_, _, rfl, rfl, fun location => ?_⟩
                  have joined : gitPaths root (printed unstaged) ++ gitPaths root (printed staged) ++
                        gitPaths root (printed untracked) =
                      ((unstaged ++ staged).map (Report.mk repo.top) ++ untracked.map (Report.mk
                        (repo.top ++ repo.workspace.map fun name => .normal name.text))).map
                        fun report => report.path root := by
                    rw [gitPaths_printed root unstaged repo.top,
                      gitPaths_printed root staged repo.top, gitPaths_printed root untracked
                        (repo.top ++ repo.workspace.map fun name => .normal name.text),
                      List.map_append, List.map_append, List.map_append]
                  simp only [List.mem_insertionSort]
                  rw [mem_inserted, joined]
                  simpa only [List.not_mem_nil, false_and, exists_false, false_or] using
                    tells_map root _ location

/-! The search in the reversed graph. -/

section Graph

variable {bfs : PetgraphBfs} {packages : List Package} {dag : WorkspaceDag}

theorem nodeOf_eq (built : WorkspaceDag.Built packages dag) :
    nodeOf dag = WorkspaceDag.nodeIndices packages := by
  unfold nodeOf WorkspaceDag.nodeIndices
  rw [built.nodes, List.zipIdx_map, List.foldl_map]
  rfl

theorem nodeName (built : WorkspaceDag.Built packages dag) {name : Bytes} {node : Nat}
    (isNode : WorkspaceDag.nodeIndices packages name = some node) :
    dag.nodes.getD node [] = name := by
  rw [built.nodes, List.getD_eq_getElem?_getD, WorkspaceDag.nodeIndices_name isNode]
  rfl

def Reversed (dag : WorkspaceDag) (first second : Nat) : Prop :=
  (first, second) ∈ dag.edges.map Prod.swap

theorem reversed_iff {first second : Nat} :
    Reversed dag first second ↔ (second, first) ∈ dag.edges := by
  simp [Reversed]

theorem dependsOn_of_reversed (built : WorkspaceDag.Built packages dag) {name : Bytes}
    {start node : Nat} (isStart : WorkspaceDag.nodeIndices packages name = some start)
    (reached : Relation.ReflTransGen (Reversed dag) start node) :
    DependsOn packages (dag.nodes.getD node []) name := by
  induction reached with
  | refl =>
      rw [nodeName built isStart]
      exact .refl
  | tail _ edge ih =>
      obtain ⟨source, dep, isEdge, isSource, isDep⟩ := built.drawn _ (reversed_iff.mp edge)
      rw [nodeName built isDep] at ih
      rw [nodeName built isSource]
      exact .head isEdge ih

theorem reversed_of_dependsOn (built : WorkspaceDag.Built packages dag) {name dep : Bytes}
    {start : Nat} (isStart : WorkspaceDag.nodeIndices packages dep = some start)
    (depends : DependsOn packages name dep) :
    ∃ node, WorkspaceDag.nodeIndices packages name = some node ∧
      Relation.ReflTransGen (Reversed dag) start node := by
  induction depends using Relation.ReflTransGen.head_induction_on with
  | refl => exact ⟨start, isStart, .refl⟩
  | head isEdge _ ih =>
      obtain ⟨node, isNode, reached⟩ := ih
      obtain ⟨source, target, member, isSource, isTarget⟩ := built.edges _ _ isEdge
      obtain rfl := Option.some.inj (isTarget.symm.trans isNode)
      exact ⟨source, isSource, reached.tail (reversed_iff.mpr member)⟩

theorem startsWith_iff {path base : Path} :
    startsWith path base = true ↔ components base <+: components path := by
  rw [startsWith, List.isPrefixOf_iff_prefix]

/-- Each package that a changed file lies in, and whatever depends on it. -/
theorem mem_affectedPackages (searches : bfs.Searches) (built : WorkspaceDag.Built packages dag)
    (changed : List Path) (name : Bytes) : name ∈ affectedPackages bfs packages dag changed ↔
      ∃ package ∈ packages, (∃ file ∈ changed, components package.path <+: components file) ∧
        DependsOn packages name package.name := by
  have direct (package : Package) : (changed.any fun file => startsWith file package.path) = true ↔
      ∃ file ∈ changed, components package.path <+: components file := by
    simp only [List.any_eq_true, startsWith_iff]
  have reaches {package : Package} (member : package ∈ packages) :
      (name ∈ match nodeOf dag package.name with
        | some start => (bfs.visits (dag.edges.map Prod.swap) start).map fun node =>
            dag.nodes.getD node []
        | none => []) ↔ DependsOn packages name package.name := by
    obtain ⟨start, isStart⟩ := WorkspaceDag.nodeIndices_some (List.mem_map_of_mem member)
    rw [nodeOf_eq built, isStart]
    constructor
    · intro visited
      obtain ⟨node, isVisit, rfl⟩ := List.mem_map.mp visited
      exact dependsOn_of_reversed built isStart ((searches _ _ _).mp isVisit)
    · intro depends
      obtain ⟨node, isNode, reached⟩ := reversed_of_dependsOn built isStart depends
      exact List.mem_map.mpr ⟨node, (searches _ _ _).mpr reached, nodeName built isNode⟩
  unfold affectedPackages
  rw [List.mem_flatMap]
  constructor
  · rintro ⟨_, isDirect, visited⟩
    obtain ⟨package, inside, rfl⟩ := List.mem_map.mp isDirect
    obtain ⟨member, changedHere⟩ := List.mem_filter.mp inside
    exact ⟨package, member, (direct package).mp changedHere, (reaches member).mp visited⟩
  · rintro ⟨package, member, changedHere, depends⟩
    have inside : package ∈ packages.filter fun package =>
        changed.any fun file => startsWith file package.path :=
      List.mem_filter.mpr ⟨member, (direct package).mpr changedHere⟩
    exact ⟨package.name, List.mem_map_of_mem inside, (reaches member).mpr depends⟩

end Graph

theorem matched_iff {root : Path} {paths : List Path} {reports : List Report}
    (told : Tells root paths reports) (package : Package) :
    (∃ file ∈ paths, components package.path <+: components file) ↔
      Matched root reports package := by
  constructor
  · rintro ⟨file, member, inside⟩
    obtain ⟨report, isReport, same⟩ := (told (components file)).mp ⟨file, member, rfl⟩
    exact ⟨report, isReport, by rwa [same]⟩
  · rintro ⟨report, isReport, inside⟩
    obtain ⟨file, member, same⟩ := (told _).mpr ⟨report, isReport, rfl⟩
    exact ⟨file, member, by rwa [same]⟩

/-- What is affected is exact when the joined paths and the changed files lie in packages of the
same dependents. -/
theorem affected_exact_iff (petgraph : Petgraph) (bfs : PetgraphBfs) (searches : bfs.Searches)
    (packages : List Package) (dag : WorkspaceDag)
    (built : WorkspaceDag.buildDag petgraph packages = .ok dag) (repo : Repository) (root : Path)
    (scope : Scope) (changed : List Path) (reported : changedFiles repo root scope = some changed) :
    ∃ reports, repo.reports scope = some reports ∧
      (Exact packages reports bfs dag changed ↔ Matches packages root reports) := by
  rcases changedFiles_tells repo root scope with ⟨failed, _⟩ | ⟨paths, reports, isPaths, isReports, told⟩
  · simp [failed] at reported
  obtain rfl := Option.some.inj (reported.symm.trans isPaths)
  refine ⟨reports, isReports, ?_⟩
  have isBuilt := (WorkspaceDag.built_of_buildDag built).1
  simp only [Exact, mem_affectedPackages searches isBuilt, matched_iff told]
  constructor
  · intro exact_
    constructor
    · intro package member contains
      exact (exact_ package.name).mpr ⟨package, member, contains, .refl⟩
    · intro package member matched
      exact (exact_ package.name).mp ⟨package, member, matched, .refl⟩
  · intro both name
    constructor
    · rintro ⟨package, member, matched, depends⟩
      obtain ⟨other, isOther, contains, further⟩ := both.meant package member matched
      exact ⟨other, isOther, contains, depends.trans further⟩
    · rintro ⟨package, member, contains, depends⟩
      obtain ⟨other, isOther, matched, further⟩ := both.found package member contains
      exact ⟨other, isOther, matched, depends.trans further⟩

/-! Where the joined paths are the files, and where they are not. -/

theorem quotePath_plain {path : Path} (plain : path.any special = false) : quotePath path = path :=
  if_neg (by simp [plain])

theorem report_path {report : Report} {root : Path} (base : components root = report.base)
    (plain : report.file.path.any special = false) :
    components (report.path root) = report.location := by
  have filled := report.file.filled
  rw [Report.path, quotePath_plain plain, RepoFile.path,
    components_join root (joinNames_relative filled) (joinNames_plain filled),
    components_joinNames filled, base]
  rfl

theorem reports_base {repo : Repository} {scope : Scope} {reports : List Report}
    (reported : repo.reports scope = some reports) :
    ∀ report ∈ reports, report.base = repo.top ∨
      report.base = repo.top ++ repo.workspace.map fun name => .normal name.text := by
  cases scope with
  | since baseRef =>
      obtain ⟨files, _, rfl⟩ := Option.map_eq_some_iff.mp reported
      intro report member
      obtain ⟨file, _, rfl⟩ := List.mem_map.mp member
      exact Or.inl rfl
  | affected =>
      obtain ⟨unstaged, _, reported⟩ := Option.bind_eq_some_iff.mp reported
      obtain ⟨staged, _, reported⟩ := Option.bind_eq_some_iff.mp reported
      obtain ⟨untracked, _, reported⟩ := Option.bind_eq_some_iff.mp reported
      obtain rfl := Option.some.inj reported
      intro report member
      rcases List.mem_append.mp member with fromTop | fromWorkspace
      · obtain ⟨file, _, rfl⟩ := List.mem_map.mp fromTop
        exact Or.inl rfl
      · obtain ⟨file, _, rfl⟩ := List.mem_map.mp fromWorkspace
        exact Or.inr rfl

/-- A workspace root that is spelled as the top level, and names that git does not quote. -/
theorem matches_at_top (packages : List Package) {repo : Repository} {root : Path} {scope : Scope}
    {reports : List Report} (reported : repo.reports scope = some reports)
    (isTop : components root = repo.top) (whole : repo.workspace = [])
    (plain : ∀ report ∈ reports, report.file.path.any special = false) :
    Matches packages root reports := by
  have same (package : Package) : Contains reports package ↔ Matched root reports package := by
    unfold Contains Matched
    refine exists_congr fun report => and_congr_right fun member => ?_
    have base : components root = report.base := by
      rcases reports_base reported report member with fromTop | fromWorkspace
      · rw [isTop, fromTop]
      · rw [isTop, fromWorkspace, whole, List.map_nil, List.append_nil]
    rw [report_path base (plain report member)]
  constructor
  · intro package member contains
    exact ⟨package, member, (same package).mp contains, .refl⟩
  · intro package member matched
    exact ⟨package, member, (same package).mpr matched, .refl⟩

/-- A quoted name leads into no directory of the workspace root that does not start with a
quotation mark itself. -/
theorem quoted_outside {report : Report} {root : Path} {package : Package} {name : Bytes}
    {rest : List Component} (isQuoted : report.file.path.any special = true)
    (below : components package.path = components root ++ .normal name :: rest)
    (other : name.head? ≠ some quoteMark) :
    ¬ components package.path <+: components (report.path root) := by
  intro inside
  have quoted : quotePath report.file.path = quoteMark ::
      (report.file.path.flatMap (fun byte => if special byte then escape byte else [byte]) ++
        [quoteMark]) := by
    simp [quotePath, isQuoted]
  obtain ⟨part, parts, isParts⟩ := List.exists_cons_of_ne_nil (List.splitOn_ne_nil slash
    (report.file.path.flatMap (fun byte => if special byte then escape byte else [byte]) ++
      [quoteMark]))
  have split : (quotePath report.file.path).splitOn slash = (quoteMark :: part) :: parts := by
    rw [quoted, List.splitOn_cons_eq_if_modifyHead, isParts]
    rfl
  have relative : (quotePath report.file.path).head? ≠ some slash := by
    rw [quoted]
    simp [quoteMark, slash]
  have notDot : quoteMark :: part ≠ utf8 "." := by
    intro same
    exact absurd (List.cons.inj same).1 (by decide)
  have notDotDot : quoteMark :: part ≠ utf8 ".." := by
    intro same
    exact absurd (List.cons.inj same).1 (by decide)
  have plain : ((quotePath report.file.path).splitOn slash).head? ≠ some (utf8 ".") := by
    rw [split]
    simpa using notDot
  have first : Component.ofPart (quoteMark :: part) = some (.normal (quoteMark :: part)) := by
    simp [Component.ofPart, notDot, notDotDot]
  rw [Report.path, components_join root relative plain, below, List.prefix_append_right_inj,
    components_relative relative plain, split, List.filterMap_cons, first,
    List.cons_prefix_cons] at inside
  rw [Component.normal.inj inside.1] at other
  exact other rfl

/-! The search of petgraph as one of lists of edges, and a package with a changed file. -/

def neighbours (edges : List (Nat × Nat)) (node : Nat) : List Nat :=
  (edges.filter fun edge => edge.1 = node).map Prod.snd

def bfs : PetgraphBfs where
  visits := fun edges start =>
    Search.visits (neighbours edges) (start :: edges.map Prod.snd).length [start] [start]

theorem searches : bfs.Searches := by
  intro edges start node
  have edge (first second : Nat) :
      Search.Edge (neighbours edges) first second ↔ (first, second) ∈ edges := by
    simp [Search.Edge, neighbours]
  have same : Search.Edge (neighbours edges) = fun first second => (first, second) ∈ edges := by
    funext first second
    exact propext (edge first second)
  rw [← same]
  apply Search.mem_visits
  intro item reached
  rcases Relation.ReflTransGen.cases_tail reached with rfl | ⟨previous, _, last⟩
  · exact List.mem_cons_self
  · exact List.mem_cons_of_mem start (List.mem_map_of_mem ((edge previous item).mp last))

namespace Sample

def fileName (text : String) (valid : utf8 text ≠ [] ∧ slash ∉ utf8 text ∧ utf8 text ≠ utf8 "." ∧
    utf8 text ≠ utf8 "..") : FileName :=
  ⟨utf8 text, valid.1, valid.2.1, valid.2.2.1, valid.2.2.2⟩

def ws : FileName := fileName "ws" (by decide)

def core : FileName := fileName "core" (by decide)

def accented : RepoFile := ⟨[core, fileName "é.ts" (by decide)], by simp⟩

def plain : RepoFile := ⟨[core, fileName "a.ts" (by decide)], by simp⟩

def nested : RepoFile := ⟨[ws, core, fileName "a.ts" (by decide)], by simp⟩

def repository (top : Location) (workspace : List FileName) (file : RepoFile) : Repository where
  top := top
  workspace := workspace
  diff := fun _ => some [file]
  unstaged := some []
  staged := some []
  untracked := some []

def atTop (file : RepoFile) : Repository := repository [.rootDir, .normal (utf8 "ws")] [] file

def below (file : RepoFile) : Repository := repository [.rootDir] [ws] file

def dag : WorkspaceDag where
  nodes := MissingScript.packages.map Package.name
  edges := [(0, 1), (1, 2)]
  packages := WorkspaceDag.packageMap MissingScript.packages

theorem isDag : WorkspaceDag.buildDag MissingScript.petgraph MissingScript.packages = .ok dag := rfl

def root : Path := utf8 "/ws"

def changed (repo : Repository) : List Path :=
  (changedFiles repo root (.since (utf8 "main"))).getD []

def reports (repo : Repository) : List Report := (repo.reports (.since (utf8 "main"))).getD []

theorem isChanged (top : Location) (workspace : List FileName) (file : RepoFile) :
    changedFiles (repository top workspace file) root (.since (utf8 "main")) =
      some (changed (repository top workspace file)) := rfl

end Sample

theorem affected_exact_iff_top :
    Exact MissingScript.packages (Sample.reports (Sample.atTop Sample.plain)) bfs Sample.dag
      (Sample.changed (Sample.atTop Sample.plain)) := by
  obtain ⟨reports, reported, exact_iff⟩ := affected_exact_iff MissingScript.petgraph bfs searches
    MissingScript.packages Sample.dag Sample.isDag (Sample.atTop Sample.plain) Sample.root
    (.since (utf8 "main")) _ (Sample.isChanged _ _ _)
  obtain rfl := Option.some.inj reported
  apply exact_iff.mpr
  apply matches_at_top MissingScript.packages reported (by decide +kernel) rfl
  intro report member
  obtain ⟨file, inside, rfl⟩ := List.mem_map.mp member
  rw [List.mem_singleton.mp inside]
  decide +kernel

/-- A name with an accent is quoted, and a workspace below the top level is joined twice: the
package of the file is not affected. -/
theorem changed_package_missed :
    ¬ Exact MissingScript.packages (Sample.reports (Sample.atTop Sample.accented)) bfs Sample.dag
        (Sample.changed (Sample.atTop Sample.accented)) ∧
      ¬ Exact MissingScript.packages (Sample.reports (Sample.below Sample.nested)) bfs Sample.dag
        (Sample.changed (Sample.below Sample.nested)) := by
  have isPackage : MissingScript.package "core" [] ∈ MissingScript.packages := by decide +kernel
  have missed {report : Report} {changed : List Path}
      (inside : components (MissingScript.package "core" []).path <+: report.location)
      (nothing : affectedPackages bfs MissingScript.packages Sample.dag changed = []) :
      ¬ Exact MissingScript.packages [report] bfs Sample.dag changed := by
    intro exact_
    have affected : Affected MissingScript.packages [report] (utf8 "core") :=
      ⟨_, isPackage, ⟨report, List.mem_singleton_self report, inside⟩, .refl⟩
    have member := (exact_ (utf8 "core")).mpr affected
    rw [nothing] at member
    exact List.not_mem_nil member
  exact ⟨missed (by decide +kernel) (by decide +kernel),
    missed (by decide +kernel) (by decide +kernel)⟩

end Rage.AffectedScope
