import Mathlib.Data.List.NodupEquivFin
import Rage.Liveness
import Rage.StableSort
import Rage.TaskLevels

/-!
From the globs of a workspace to the task list that the scheduler runs.  Each glob is resolved by
itself, so a directory that two of them match is a package twice.
-/

namespace Rage.Discovery

inductive WorkspaceError
  | noGlobs (root : Path)
  | nonUtf8 (full : Path)
  | badGlob (pattern : Bytes)
  | globEntry (pattern : Bytes)
  | canonicalizing (path : Path)
  | reading (manifest : Path)
  | parsing (manifest : Path)
  | missingName (manifest : Path)
  deriving DecidableEq

/-- Of a `package.json`: its name, its version, and the keys of its `dependencies`,
`devDependencies` and `peerDependencies`. -/
structure Manifest where
  name : Option Bytes
  version : Option Bytes
  dependencies : List (List Bytes)

/-- `packageGlobs` is what `detect_package_manager` and `read_package_globs` find.  `glob` yields an
error for a bad pattern, and one for each path it cannot read. -/
structure Disk where
  fs : FileSystem
  packageGlobs : Path → Except WorkspaceError (List Bytes)
  glob : Path → Option (List (Option Path))
  isDir : Path → Bool
  canonicalize : Path → Option Path
  parse : Bytes → Option Manifest

def manifestPath (dir : Path) : Path := Path.join dir (utf8 "package.json")

def byName (first second : Bytes) : Prop := ¬ second < first

instance : DecidableRel byName := fun first second => inferInstanceAs (Decidable (¬ second < first))

namespace Disk

variable (disk : Disk)

/-! `discover_packages`. -/

def resolveEntry (pattern : Bytes) : Option Path → Except WorkspaceError (Option Path)
  | none => .error (.globEntry pattern)
  | some path =>
      if disk.isDir path then
        match disk.canonicalize path with
        | none => .error (.canonicalizing path)
        | some real => .ok (some real)
      else .ok none

def resolveGlob (root : Path) (pattern : Bytes) : Except WorkspaceError (List Path) :=
  let full := Path.join root pattern
  if isUtf8 full then
    match disk.glob full with
    | none => .error (.badGlob pattern)
    | some entries => (entries.mapM (disk.resolveEntry pattern)).map fun dirs => dirs.filterMap id
  else .error (.nonUtf8 full)

def readManifest (manifest : Path) : Except WorkspaceError Manifest :=
  match (disk.fs.read manifest).filter isUtf8 with
  | none => .error (.reading manifest)
  | some raw =>
      match disk.parse raw with
      | none => .error (.parsing manifest)
      | some parsed => .ok parsed

def fromManifestDir (dir : Path) : Except WorkspaceError Package := do
  let parsed ← disk.readManifest (manifestPath dir)
  match parsed.name with
  | none => .error (.missingName (manifestPath dir))
  | some name => .ok ⟨name, parsed.version.getD (utf8 "0.0.0"), dir, []⟩

def hasManifest (dir : Path) : Bool := (disk.fs.stat (manifestPath dir)).isSome

def globPackages (root : Path) (pattern : Bytes) : Except WorkspaceError (List Package) := do
  let dirs ← disk.resolveGlob root pattern
  (dirs.filter disk.hasManifest).mapM disk.fromManifestDir

def discoverPackages (root : Path) : Except WorkspaceError (List Package) := do
  let globs ← disk.packageGlobs root
  let packages ← globs.mapM (disk.globPackages root)
  .ok (StableSort.sort Package.name byName packages.flatten)

/-! `build_package_graph`. -/

def workspaceDependencies (names : List Bytes) (manifest : Manifest) : List Bytes :=
  (manifest.dependencies.flatten.foldl (fun deps name =>
    if names.contains name && !deps.contains name then deps ++ [name] else deps) []).insertionSort
      byName

def withDependencies (names : List Bytes) (package : Package) : Except WorkspaceError Package :=
  match disk.fs.stat (manifestPath package.path) with
  | none => .ok package
  | some _ => (disk.readManifest (manifestPath package.path)).map fun parsed =>
      { package with dependencies := workspaceDependencies names parsed }

def buildPackageGraph (packages : List Package) : Except WorkspaceError (List Package) :=
  packages.mapM (disk.withDependencies (packages.map Package.name))

end Disk

def buildTaskList (petgraph : Petgraph) (parseScript : Bytes → Bytes → Option Bytes)
    (plugins : List TaskPlugin) (fs : FileSystem) (workspaceRoot : Path) (dag : WorkspaceDag)
    (script : Bytes) : Except TaskError (List Task) :=
  buildTaskListFiltered petgraph parseScript plugins fs workspaceRoot dag script []

/-! What can be scheduled. -/

/-- Of each package and of each directory there is one task, those that it needs come before it,
and neither scheduler panics. -/
structure Schedulable (tasks : List Task) : Prop where
  oneOfPackage : ((TaskLevels.packageTasks tasks).map Task.packageName).Nodup
  oneOfDirectory : ((TaskLevels.packageTasks tasks).map Task.cwd).Nodup
  needsFirst : ∀ front task back, tasks = front ++ task :: back → task.isRoot = false →
    ∀ other ∈ TaskLevels.packageTasks tasks, other.packageName ∈ task.depPackageNames →
      other ∈ front
  noPanic : ∀ abortOnPanic schedule,
    Schedule.Reachable (.ofTasks tasks abortOnPanic) schedule → schedule.stage ≠ .panicked

/-! Directories and names, as the globs list them. -/

namespace Disk

variable (disk : Disk)

/-- The directories with a manifest, each as often as the globs match it. -/
def packageDirs (root : Path) : List Path :=
  ((disk.packageGlobs root).toOption.getD []).flatMap fun pattern =>
    ((disk.resolveGlob root pattern).toOption.getD []).filter disk.hasManifest

def nameOf (dir : Path) : Option Bytes :=
  (disk.readManifest (manifestPath dir)).toOption.bind Manifest.name

def dirsNamed (root : Path) (name : Bytes) : List Path :=
  (disk.packageDirs root).filter fun dir => disk.nameOf dir = some name

def hasScript (parseScript : Bytes → Bytes → Option Bytes) (script : Bytes) (dir : Path) : Bool :=
  (((disk.fs.read (manifestPath dir)).filter isUtf8).bind fun raw => parseScript raw script).isSome

/-- A name whose last directory has the script is the name of no other directory, and of this one
once. -/
def NamedOnce (parseScript : Bytes → Bytes → Option Bytes) (root : Path) (script : Bytes) : Prop :=
  ∀ name dir, (disk.dirsNamed root name).getLast? = some dir →
    disk.hasScript parseScript script dir = true → disk.dirsNamed root name = [dir]

end Disk

/-! What each stage keeps of its list. -/

theorem map_of_mapM {α β γ ε : Type} {make : α → Except ε β} (before : α → γ) (after : β → γ)
    (keeps : ∀ item result, make item = .ok result → after result = before item) {items : List α}
    {made : List β} (all : items.mapM make = .ok made) : made.map after = items.map before := by
  induction items generalizing made with
  | nil =>
      obtain rfl : [] = made := Except.ok.inj all
      rfl
  | cons first rest ih =>
      rw [List.mapM_cons] at all
      cases isFirst : make first with
      | error error => simp [isFirst, bind, Except.bind] at all
      | ok value =>
          cases isRest : rest.mapM make with
          | error error => simp [isFirst, isRest, bind, Except.bind] at all
          | ok values =>
              obtain rfl : value :: values = made := by
                simpa [isFirst, isRest, bind, Except.bind, pure, Except.pure] using all
              rw [List.map_cons, List.map_cons, keeps first value isFirst, ih isRest]

theorem bind_ok {ε α β : Type} {first : Except ε α} {next : α → Except ε β} {result : β}
    (ran : (first >>= next) = .ok result) : ∃ value, first = .ok value ∧ next value = .ok result := by
  cases first with
  | error error => simp [bind, Except.bind] at ran
  | ok value => exact ⟨value, rfl, ran⟩

section Stages

variable {disk : Disk} {root : Path} {raw packages : List Package}

theorem fromManifestDir_ok {dir : Path} {package : Package}
    (read : disk.fromManifestDir dir = .ok package) :
    package.path = dir ∧ disk.nameOf dir = some package.name := by
  obtain ⟨parsed, isParsed, named⟩ := bind_ok read
  split at named
  · simp at named
  · rename_i name isName
    obtain rfl := Except.ok.inj named
    exact ⟨rfl, by rw [Disk.nameOf, isParsed]; exact isName⟩

/-- A package has the path of a directory that the globs list, and the name of its manifest. -/
theorem globPackages_ok {pattern : Bytes} {found : List Package}
    (listed : disk.globPackages root pattern = .ok found) :
    found.map Package.path =
        ((disk.resolveGlob root pattern).toOption.getD []).filter disk.hasManifest ∧
      ∀ package ∈ found, disk.nameOf package.path = some package.name := by
  obtain ⟨dirs, isResolved, isFound⟩ := bind_ok listed
  constructor
  · rw [isResolved]
    have paths := map_of_mapM id Package.path
      (fun dir package read => (fromManifestDir_ok read).1) isFound
    rwa [List.map_id] at paths
  · intro package member
    obtain ⟨dir, -, read⟩ := WorkspaceDag.mem_of_mapM isFound member
    obtain ⟨rfl, named⟩ := fromManifestDir_ok read
    exact named

theorem discoverPackages_ok (discovered : disk.discoverPackages root = .ok raw) :
    ∃ found, raw = StableSort.sort Package.name byName found ∧
      found.map Package.path = disk.packageDirs root ∧
      ∀ package ∈ found, disk.nameOf package.path = some package.name := by
  obtain ⟨globs, isGlobs, later⟩ := bind_ok discovered
  obtain ⟨found, isFound, sorted⟩ := bind_ok later
  refine ⟨found.flatten, (Except.ok.inj sorted).symm, ?_, ?_⟩
  · rw [List.map_flatten, Disk.packageDirs, isGlobs]
    have paths := map_of_mapM _ (fun packages : List Package => packages.map Package.path)
      (fun pattern packages listed => (globPackages_ok listed).1) isFound
    rw [paths]
    rfl
  · intro package member
    obtain ⟨packages, inFound, inPackages⟩ := List.mem_flatten.mp member
    obtain ⟨pattern, -, listed⟩ := WorkspaceDag.mem_of_mapM isFound inFound
    exact (globPackages_ok listed).2 package inPackages

theorem withDependencies_ok {names : List Bytes} {package kept : Package}
    (read : disk.withDependencies names package = .ok kept) :
    kept.name = package.name ∧ kept.path = package.path := by
  unfold Disk.withDependencies at read
  split at read
  · obtain rfl := Except.ok.inj read
    exact ⟨rfl, rfl⟩
  · cases parsed : disk.readManifest (manifestPath package.path) with
    | error error => simp [parsed, Except.map] at read
    | ok manifest =>
        rw [parsed] at read
        obtain rfl := Except.ok.inj read
        exact ⟨rfl, rfl⟩

theorem byName_refl (name : Bytes) : byName name name := List.lt_irrefl name

theorem map_path_filter {found : List Package}
    (named : ∀ package ∈ found, disk.nameOf package.path = some package.name) (name : Bytes) :
    (found.filter fun package => package.name = name).map Package.path =
      (found.map Package.path).filter fun dir => disk.nameOf dir = some name := by
  rw [List.filter_map]
  congr 1
  refine List.filter_congr fun package member => ?_
  simp [named package member]

/-- The packages of a name are in the order in which the globs list their directories. -/
theorem paths_named (discovered : disk.discoverPackages root = .ok raw)
    (resolved : disk.buildPackageGraph raw = .ok packages) (name : Bytes) :
    (packages.filter fun package => package.name = name).map Package.path =
      disk.dirsNamed root name := by
  obtain ⟨found, rfl, paths, named⟩ := discoverPackages_ok discovered
  have both := map_of_mapM (fun package => (package.name, package.path))
    (fun package : Package => (package.name, package.path)) (fun package kept read => by
      obtain ⟨sameName, samePath⟩ := withDependencies_ok read
      rw [sameName, samePath]) resolved
  have kept (list : List Package) : (list.filter fun package => package.name = name).map Package.path =
      ((list.map fun package => (package.name, package.path)).filter fun pair => pair.1 = name).map
        Prod.snd := by
    rw [List.filter_map, List.map_map]
    rfl
  rw [kept, both, ← kept, StableSort.filter_sort byName_refl, map_path_filter named, paths]
  rfl

theorem named_of_discovered (discovered : disk.discoverPackages root = .ok raw)
    (resolved : disk.buildPackageGraph raw = .ok packages) {package : Package}
    (member : package ∈ packages) : disk.nameOf package.path = some package.name := by
  have inNamed : package.path ∈ disk.dirsNamed root package.name := by
    rw [← paths_named discovered resolved]
    exact List.mem_map_of_mem (List.mem_filter.mpr ⟨member, by simp⟩)
  simpa using (List.mem_filter.mp inNamed).2

end Stages

/-! The package that a name keeps. -/

theorem packageMap_eq (packages : List Package) (name : Bytes) :
    WorkspaceDag.packageMap packages name =
      (packages.filter fun package => package.name = name).getLast? := by
  induction packages using List.reverseRecOn with
  | nil => rfl
  | append_singleton rest last ih =>
      rw [WorkspaceDag.packageMap, List.foldl_append, List.foldl_cons, List.foldl_nil,
        List.filter_append]
      by_cases here : last.name = name
      · subst here
        rw [Function.update_self, List.filter_cons_of_pos (by simp), List.filter_nil,
          List.getLast?_append, List.getLast?_singleton, Option.some_or]
      · rw [Function.update_of_ne (Ne.symm here), List.filter_cons_of_neg (by simp [here]),
          List.filter_nil, List.append_nil, ← ih]
        rfl

theorem length_filter_eq (list : List Bytes) (item : Bytes) :
    (list.filter fun other => other = item).length = list.count item := by
  rw [← List.countP_eq_length_filter, List.count]
  exact List.countP_congr fun other _ => by simp

theorem nodup_filter_iff (list : List Bytes) (keep : Bytes → Bool) : (list.filter keep).Nodup ↔
    ∀ item, keep item = true → (list.filter fun other => other = item).length ≤ 1 := by
  rw [List.nodup_iff_count_le_one]
  refine forall_congr' fun item => ?_
  rw [length_filter_eq]
  by_cases kept : keep item = true
  · rw [List.count_filter kept]
    exact ⟨fun atMost _ => atMost, fun atMost => atMost kept⟩
  · have none_ : (list.filter keep).count item = 0 :=
      List.count_eq_zero.mpr fun member => kept (List.mem_filter.mp member).2
    simp [none_, kept]

/-- What a list has once stands in one place. -/
theorem place_unique {list : List Bytes} {item : Bytes}
    (once : (list.filter fun other => other = item).length ≤ 1) {first second : Nat}
    (isFirst : list[first]? = some item) (isSecond : list[second]? = some item) :
    first = second := by
  have twice {low high : Nat} (below : low < high) (isLow : list[low]? = some item)
      (isHigh : list[high]? = some item) : False := by
    obtain ⟨lowBound, low_eq⟩ := List.getElem?_eq_some_iff.mp isLow
    obtain ⟨highBound, high_eq⟩ := List.getElem?_eq_some_iff.mp isHigh
    have duplicate : List.Duplicate item list :=
      List.duplicate_iff_exists_distinct_get.mpr
        ⟨⟨low, lowBound⟩, ⟨high, highBound⟩, below, low_eq.symm, high_eq.symm⟩
    have two := ((List.duplicate_iff_sublist.mp duplicate).filter fun other => other = item).length_le
    simp only [decide_true, List.filter_cons, if_true, List.filter_nil, List.length_cons,
      List.length_nil] at two
    omega
  rcases Nat.lt_trichotomy first second with below | same | above
  · exact (twice below isFirst isSecond).elim
  · exact same
  · exact (twice above isSecond isFirst).elim

/-! The tasks of the list. -/

section Tasks

variable {petgraph : Petgraph} {parseScript : Bytes → Bytes → Option Bytes}
  {plugins : List TaskPlugin} {disk : Disk} {root : Path} {raw packages : List Package}
  {dag : WorkspaceDag} {script : Bytes} {tasks : List Task} {order : List Bytes}

/-- The list is the root tasks and then the package tasks along the order. -/
theorem buildTaskList_ok
    (listed : buildTaskList petgraph parseScript plugins disk.fs root dag script = .ok tasks) :
    ∃ order roots, dag.topologicalSort petgraph = .ok order ∧
      (∀ task ∈ roots, task.isRoot = true) ∧
      tasks = roots ++ packageTasks parseScript plugins disk.fs root dag script [] order := by
  unfold buildTaskList buildTaskListFiltered at listed
  split at listed
  · simp at listed
  · rename_i order sorted
    simp only at listed
    split at listed
    · simp at listed
    · refine ⟨order, _, sorted, fun task member => ?_, (Except.ok.inj listed).symm⟩
      obtain ⟨plugin, -, inferred⟩ := List.mem_flatMap.mp member
      obtain ⟨rootTask, -, rfl⟩ := List.mem_map.mp inferred
      rfl

theorem mem_tasks {task : Task} :
    task ∈ packageTasks parseScript plugins disk.fs root dag script [] order ↔
      ∃ name ∈ order, ∃ package, dag.packages name = some package ∧
        ∃ command, scriptCommand parseScript disk.fs package script = some command ∧
          packageTask plugins disk.fs root name package script command = task := by
  simp [mem_packageTasks]

/-- The package tasks of the list are those along the order. -/
theorem packageTasks_eq {roots : List Task} (areRoots : ∀ task ∈ roots, task.isRoot = true) :
    TaskLevels.packageTasks
        (roots ++ packageTasks parseScript plugins disk.fs root dag script [] order) =
      packageTasks parseScript plugins disk.fs root dag script [] order := by
  rw [TaskLevels.packageTasks, List.filter_append]
  have noRoots : roots.filter (fun task => !task.isRoot) = [] :=
    List.filter_eq_nil_iff.mpr fun task member => by simp [areRoots task member]
  have allKept : (packageTasks parseScript plugins disk.fs root dag script [] order).filter
      (fun task => !task.isRoot) = packageTasks parseScript plugins disk.fs root dag script [] order := by
    refine List.filter_eq_self.mpr fun task member => ?_
    obtain ⟨name, -, package, -, command, -, rfl⟩ := mem_tasks.mp member
    rfl
  rw [noRoots, allKept, List.nil_append]

def scripted (parseScript : Bytes → Bytes → Option Bytes) (disk : Disk) (dag : WorkspaceDag)
    (script name : Bytes) : Bool :=
  ((dag.packages name).bind fun package => scriptCommand parseScript disk.fs package script).isSome

theorem map_packageName : (packageTasks parseScript plugins disk.fs root dag script [] order).map
      Task.packageName = order.filter (scripted parseScript disk dag script) := by
  unfold packageTasks
  induction order with
  | nil => rfl
  | cons name order ih =>
      rw [List.filter_cons, List.filterMap_cons]
      cases known : dag.packages name with
      | none => simpa [scripted, known] using ih
      | some package =>
          cases has : scriptCommand parseScript disk.fs package script with
          | none => simpa [scripted, known, has] using ih
          | some command => simpa [scripted, known, has, packageTask] using ih

/-- One task of a package is one listing of its name. -/
theorem oneOfPackage_iff (sorts : petgraph.Sorts)
    (discovered : disk.discoverPackages root = .ok raw)
    (resolved : disk.buildPackageGraph raw = .ok packages)
    (built : WorkspaceDag.buildDag petgraph packages = .ok dag)
    (sorted : dag.topologicalSort petgraph = .ok order) :
    ((packageTasks parseScript plugins disk.fs root dag script [] order).map
      Task.packageName).Nodup ↔ disk.NamedOnce parseScript root script := by
  obtain ⟨isBuilt, -⟩ := WorkspaceDag.built_of_buildDag built
  rw [map_packageName, nodup_filter_iff]
  refine forall_congr' fun name => ?_
  have dirs := paths_named discovered resolved name
  have count : (order.filter fun other => other = name).length =
      (disk.dirsNamed root name).length := by
    have perm := (TaskLevels.order_perm sorts built sorted).filter fun other => other = name
    rw [perm.length_eq, ← dirs, List.length_map, List.filter_map, List.length_map]
    rfl
  have kept : dag.packages name = (packages.filter fun package => package.name = name).getLast? := by
    rw [isBuilt.kept, packageMap_eq]
  have last : (disk.dirsNamed root name).getLast? = (dag.packages name).map Package.path := by
    rw [kept, ← dirs, List.getLast?_map]
  have has : scripted parseScript disk dag script name =
      ((disk.dirsNamed root name).getLast?.map (disk.hasScript parseScript script)).getD false := by
    rw [last, scripted]
    cases dag.packages name with
    | none => rfl
    | some package => rfl
  rw [has, count]
  cases isLast : (disk.dirsNamed root name).getLast? with
  | none => simp
  | some dir =>
      simp only [Option.map_some, Option.getD_some, Option.some.injEq, forall_eq']
      refine imp_congr_right fun _ => ?_
      constructor
      · intro atMost
        obtain ⟨front, isFront⟩ := List.getLast?_eq_some_iff.mp isLast
        rw [isFront] at atMost ⊢
        have noFront : front = [] := by
          rw [List.length_append, List.length_singleton] at atMost
          exact List.length_eq_zero_iff.mp (by omega)
        rw [noFront, List.nil_append]
      · intro single
        rw [single]
        exact Nat.le_refl 1

/-- Tasks in one directory are tasks of one package. -/
theorem oneOfDirectory (discovered : disk.discoverPackages root = .ok raw)
    (resolved : disk.buildPackageGraph raw = .ok packages)
    (built : WorkspaceDag.buildDag petgraph packages = .ok dag)
    (distinct : ((packageTasks parseScript plugins disk.fs root dag script [] order).map
      Task.packageName).Nodup) :
    ((packageTasks parseScript plugins disk.fs root dag script [] order).map Task.cwd).Nodup := by
  obtain ⟨isBuilt, -⟩ := WorkspaceDag.built_of_buildDag built
  have named {task : Task}
      (member : task ∈ packageTasks parseScript plugins disk.fs root dag script [] order) :
      disk.nameOf task.cwd = some task.packageName := by
    obtain ⟨name, -, package, known, command, -, rfl⟩ := mem_tasks.mp member
    rw [isBuilt.kept] at known
    obtain ⟨inPackages, isName⟩ := WorkspaceDag.packageMap_spec known
    rw [packageTask, ← isName]
    exact named_of_discovered discovered resolved inPackages
  refine distinct.of_map.map_on fun task member other otherMember same => ?_
  refine List.inj_on_of_nodup_map distinct member otherMember (Option.some.inj ?_)
  rw [← named member, ← named otherMember, same]

/-- What a task needs comes before it, where there is one task of its package. -/
theorem needsFirst (sorts : petgraph.Sorts)
    (built : WorkspaceDag.buildDag petgraph packages = .ok dag)
    (sorted : dag.topologicalSort petgraph = .ok order)
    (distinct : ((packageTasks parseScript plugins disk.fs root dag script [] order).map
      Task.packageName).Nodup) {front back : List Task} {task other : Task}
    (split : packageTasks parseScript plugins disk.fs root dag script [] order =
      front ++ task :: back)
    (member : other ∈ packageTasks parseScript plugins disk.fs root dag script [] order)
    (needed : other.packageName ∈ task.depPackageNames) : other ∈ front := by
  obtain ⟨namesFront, rest, isSplit, isFront, isRest⟩ := List.filterMap_eq_append_iff.mp split
  obtain ⟨skipped, name, namesBack, rfl, noTasks, isTask, -⟩ := List.filterMap_eq_cons_iff.mp isRest
  have inOrder : task ∈ packageTasks parseScript plugins disk.fs root dag script [] [name] :=
    List.mem_filterMap.mpr ⟨name, List.mem_cons_self, isTask⟩
  obtain ⟨taskName, isName, package, known, command, has, rfl⟩ := mem_tasks.mp inOrder
  obtain rfl := List.mem_singleton.mp isName
  have before : other.packageName ∈ namesFront ++ skipped := by
    refine TaskLevels.dependencies_before sorts built sorted 
      (isSplit.trans (List.append_assoc ..).symm) ?_
      (TaskLevels.mem_needs.mpr ⟨package, known, needed⟩)
    have once : ((packages.map Package.name).filter fun other => other = taskName).length ≤ 1 := by
      rw [map_packageName, nodup_filter_iff] at distinct
      have perm := (TaskLevels.order_perm sorts built sorted).filter fun other => other = taskName
      rw [← perm.length_eq]
      exact distinct taskName (by simp [scripted, known, has])
    intro first second firstBound secondBound isFirst isSecond
    have firstLt : first < (packages.map Package.name).length := by simpa using firstBound
    have secondLt : second < (packages.map Package.name).length := by simpa using secondBound
    rw [List.getD_eq_getElem?_getD, List.getElem?_eq_getElem firstLt] at isFirst
    rw [List.getD_eq_getElem?_getD, List.getElem?_eq_getElem secondLt] at isSecond
    exact place_unique once (List.getElem?_eq_some_iff.mpr ⟨firstLt, isFirst⟩)
      (List.getElem?_eq_some_iff.mpr ⟨secondLt, isSecond⟩)
  obtain ⟨depName, -, depPackage, depKnown, depCommand, depHas, rfl⟩ := mem_tasks.mp member
  rw [← isFront]
  rcases List.mem_append.mp before with inFront | isSkipped
  · exact mem_tasks.mpr ⟨depName, inFront, depPackage, depKnown, depCommand, depHas, rfl⟩
  · have noTask := noTasks depName isSkipped
    simp [depKnown, depHas] at noTask

end Tasks

/-- A workspace can be scheduled when no name with the script is listed twice. -/
theorem schedulable_iff (petgraph : Petgraph) (sorts : petgraph.Sorts)
    (parseScript : Bytes → Bytes → Option Bytes) (plugins : List TaskPlugin) (disk : Disk)
    (root : Path) (script : Bytes) (raw packages : List Package) (dag : WorkspaceDag)
    (tasks : List Task) (discovered : disk.discoverPackages root = .ok raw)
    (resolved : disk.buildPackageGraph raw = .ok packages)
    (built : WorkspaceDag.buildDag petgraph packages = .ok dag)
    (listed : buildTaskList petgraph parseScript plugins disk.fs root dag script = .ok tasks) :
    Schedulable tasks ↔ disk.NamedOnce parseScript root script := by
  obtain ⟨order, roots, sorted, areRoots, rfl⟩ := buildTaskList_ok listed
  have once : ((packageTasks parseScript plugins disk.fs root dag script [] order).map
      Task.packageName).Nodup ↔ disk.NamedOnce parseScript root script :=
    oneOfPackage_iff sorts discovered resolved built sorted
  have onlyPackages : TaskLevels.packageTasks
      (roots ++ packageTasks parseScript plugins disk.fs root dag script [] order) =
        packageTasks parseScript plugins disk.fs root dag script [] order := packageTasks_eq areRoots
  constructor
  · intro schedulable
    have distinct := schedulable.oneOfPackage
    rw [onlyPackages] at distinct
    exact once.mp distinct
  · intro namedOnce
    have distinct := once.mpr namedOnce
    constructor
    · rwa [onlyPackages]
    · rw [onlyPackages]
      exact oneOfDirectory discovered resolved built distinct
    · intro front task back split isPackage other member needed
      rw [onlyPackages] at member
      rcases List.append_eq_append_iff.mp split with ⟨later, isFront, isSplit⟩ | ⟨later, isRoots, isSplit⟩
      · rw [isFront]
        exact List.mem_append_right _
          (needsFirst sorts built sorted distinct isSplit member needed)
      · cases later with
        | nil =>
            rw [List.nil_append] at isSplit
            exact absurd (needsFirst sorts built sorted distinct isSplit.symm member needed)
              List.not_mem_nil
        | cons first later =>
            obtain ⟨rfl, -⟩ := List.cons.inj isSplit
            have isRoot := areRoots task (by simp [isRoots])
            simp [isPackage] at isRoot
    · intro abortOnPanic schedule reached
      refine Schedule.not_panicked ?_ reached
      show ((TaskLevels.packageTasks _).map Task.packageName).Nodup
      rwa [onlyPackages]

/-! A workspace of one package, and one glob or two that match its directory. -/

abbrev workspace : Path := utf8 "/ws"
abbrev appDir : Path := utf8 "/ws/packages/app"
abbrev manifestText : Bytes := utf8 "\x7b\"name\":\"app\",\"scripts\":\x7b\"build\":\"tsc\"\x7d\x7d"

def diskOf (globs : List String) : Disk where
  fs := ⟨[(components (manifestPath appDir), ⟨.file manifestText true, false⟩)]⟩
  packageGlobs := fun _ => .ok (globs.map utf8)
  glob := fun pattern =>
    if pattern = utf8 "/ws/packages/*" ∨ pattern = appDir then some [some appDir] else some []
  isDir := fun path => path = appDir
  canonicalize := some
  parse := fun raw => if raw = manifestText then some ⟨some (utf8 "app"), none, []⟩ else none

abbrev readScript (raw script : Bytes) : Option Bytes :=
  if raw = manifestText ∧ script = utf8 "build" then some (utf8 "tsc") else none

abbrev app : Package := ⟨utf8 "app", utf8 "0.0.0", appDir, []⟩

abbrev appTask : Task :=
  packageTask [] (diskOf []).fs workspace (utf8 "app") app (utf8 "build") (utf8 "tsc")

def dagOf (packages : List Package) : WorkspaceDag :=
  ⟨packages.map Package.name, [], WorkspaceDag.packageMap packages⟩

theorem schedulable_iff_single : Schedulable [appTask] := by
  refine (schedulable_iff MissingScript.petgraph MissingScript.sorts readScript []
    (diskOf ["packages/*"]) workspace (utf8 "build") [app] [app] (dagOf [app]) [appTask]
    (by decide +kernel) (by decide +kernel) rfl (by decide +kernel)).mpr ?_
  intro name dir isLast _
  have dirs : (diskOf ["packages/*"]).packageDirs workspace = [appDir] := by decide +kernel
  unfold Disk.dirsNamed at isLast ⊢
  rw [dirs, List.filter_cons, List.filter_nil] at isLast ⊢
  split at isLast
  · obtain rfl := Option.some.inj isLast
    simp_all
  · simp at isLast

/-- The directory that both globs match is two packages of one name, and the second task of the
name finds no sender. -/
theorem overlapping_globs_panic :
    (diskOf ["packages/*", "packages/app"]).discoverPackages workspace = .ok [app, app] ∧
      (diskOf ["packages/*", "packages/app"]).buildPackageGraph [app, app] = .ok [app, app] ∧
      WorkspaceDag.buildDag MissingScript.petgraph [app, app] = .ok (dagOf [app, app]) ∧
      buildTaskList MissingScript.petgraph readScript [] (diskOf ["packages/*", "packages/app"]).fs
        workspace (dagOf [app, app]) (utf8 "build") = .ok [appTask, appTask] ∧
      ¬ Schedulable [appTask, appTask] ∧
      ∀ abortOnPanic, (Schedule.run (.ofTasks [appTask, appTask] abortOnPanic)
        [.enterPackages, .spawn, .spawn]).map Schedule.stage = some .panicked := by
  refine ⟨by decide +kernel, by decide +kernel, rfl, by decide +kernel, fun schedulable => ?_, ?_⟩
  · have distinct := schedulable.oneOfPackage
    exact absurd distinct (by decide +kernel)
  · intro abortOnPanic
    cases abortOnPanic with
    | false => decide +kernel
    | true => decide +kernel

end Rage.Discovery
