import Rage.Extraction

/-!
A restore stays in `node_modules` when the names in archives, lockfile and `bin` fields are plain
and there are no links but those in `.bin`.
-/

namespace Rage.Extraction

open Posix
open Posix.Program (attempt)

/-- Within the directory that `node_modules` leads to. -/
def Inside (tree : DiskTree) (workspaceRoot : DiskPath) (place : Place Bytes) : Prop :=
  ∃ dir, tree.locate (nodeModules workspaceRoot) = some dir ∧ dir <+: place

/-! Plain names and paths. -/

structure PlainName (name : Bytes) : Prop where
  single : toTarget name = ⟨false, [.name name]⟩
  unicode : toStringLossy name = name
  noSlash : slash ∉ name

def PlainPiece : Piece Bytes → Prop
  | .dot => True
  | .dotdot => False
  | .name name => PlainName name

def PlainPath (pieces : List (Piece Bytes)) : Prop := ∀ piece ∈ pieces, PlainPiece piece

def binDirName : Bytes := utf8 ".bin"

/-- The path of a package or of one of its files, from `node_modules`. -/
structure PackagePath (pieces : List (Piece Bytes)) : Prop where
  plain : PlainPath pieces
  notBin : (namesOf pieces).head? ≠ some binDirName

theorem PlainPath.straight {pieces : List (Piece Bytes)} (plain : PlainPath pieces) :
    .dotdot ∉ pieces :=
  fun member => plain .dotdot member

theorem PlainPath.append {first second : List (Piece Bytes)} (plain : PlainPath first)
    (later : PlainPath second) : PlainPath (first ++ second) := by
  intro piece member
  rcases List.mem_append.mp member with inFirst | inSecond
  · exact plain piece inFirst
  · exact later piece inSecond

theorem PackagePath.append {first second : List (Piece Bytes)} (package : PackagePath first)
    (filled : namesOf first ≠ []) (later : PlainPath second) : PackagePath (first ++ second) := by
  refine ⟨package.plain.append later, ?_⟩
  obtain ⟨name, names, isNames⟩ := List.exists_cons_of_ne_nil filled
  have notBin := package.notBin
  rw [namesOf_append, isNames]
  rwa [isNames] at notBin

/-! The strings that a restore is given. -/

/-- `tar` is about the package of a tar entry and the path of the entry. -/
structure Names where
  zip : Bytes → Prop
  tar : Bytes → Path → Prop
  binName : Bytes → Prop
  binTarget : Bytes → Prop

def plainNames : Names where
  zip := fun name => ∃ pieces, toTarget name = ⟨false, .name (utf8 "node_modules") :: pieces⟩ ∧
    PackagePath pieces
  tar := fun package path =>
    (∃ pieces, toTarget package = ⟨false, pieces⟩ ∧ PackagePath pieces ∧ namesOf pieces ≠ []) ∧
      ∀ rel, stripPackage path = some rel → rel.absolute = false ∧ PlainPath rel.pieces
  binName := PlainName
  binTarget := fun relPath => ∃ pieces, toTarget relPath = ⟨false, pieces⟩ ∧ PlainPath pieces

section

variable {ε : Type} (given : Names) (around : Surroundings ε)

def Names.Field : BinField → Prop
  | .single relPath => given.binTarget relPath
  | .many bins => ∀ name relPath, (name, some relPath) ∈ bins →
      given.binName name ∧ given.binTarget relPath
  | .other => True

def Names.Content (content : Bytes) : Prop :=
  ∀ field, around.bin content = some field → given.Field field

/-- `Entry::unpack` of an entry that is no link: it makes the destination anew. -/
def UnpacksAt (entry : ε) : Prop :=
  ∀ dest, (around.unpack entry dest).Only (fun _ => True) fun made =>
    (∃ content, made = .createNew dest content ∧ given.Content around content) ∨
      made = .remove dest ∨ made = .chmod dest

def Names.Archive (package : LockfilePackage) (bytes : Bytes) : Prop :=
  if isPrefix (utf8 "PK") bytes then
    ∀ files, around.zip bytes = some files → ∀ file, some file ∈ files →
      given.zip file.name ∧ given.Content around file.content
  else
    ∀ item, some item ∈ around.tgz bytes →
      given.tar package.name item.path ∧ UnpacksAt given around item.entry

/-- The place of `node_modules` in a workspace whose path has no links. -/
def modulesPlace (root : List Bytes) : Place Bytes := root ++ [utf8 "node_modules"]

/-- Under `node_modules` there are links only in `.bin`, plain names and `bin` fields as given. -/
structure Tidy (root : List Bytes) (tree : DiskTree) : Prop where
  rooted : ∀ passed, passed <+: root → tree.nodeAt passed = some .directory
  links : ∀ names target, tree.nodeAt (modulesPlace root ++ names) = some (.symlink target) →
    ∃ name, names = [binDirName, name]
  names : ∀ names, tree.occupied (modulesPlace root ++ names) = true →
    ∀ name ∈ names, PlainName name
  contents : ∀ names content, tree.nodeAt (modulesPlace root ++ names) = some (.file content) →
    given.Content around content

/-- A restore whose archives, lockfile and `bin` fields have only names that may be given. -/
structure GivesOnly (store : Bytes → Option (Option Bytes)) (root : List Bytes)
    (packages : List LockfilePackage) (tree : DiskTree) : Prop where
  tidy : Tidy given around root tree
  archives : ∀ package ∈ packages, ∀ bytes,
    store (computeCasKey around.crates package.integrity) = some (some bytes) →
      given.Archive around package bytes
  listed : ∀ names, around.listed names ⊆ names

def pathTo (root : List Bytes) (pieces : List (Piece Bytes)) : DiskPath :=
  nodeModules (root.map .name) ++ pieces

/-- The calls of a restore whose names are plain. -/
inductive Allowed (root : List Bytes) : Call Bytes Bytes → Prop
  | makeDir (path : DiskPath) (pieces : List (Piece Bytes)) (package : PackagePath pieces)
      (within : path <+: pathTo root pieces) : Allowed root (.makeDir path)
  | makeBin (path : DiskPath) (within : path <+: pathTo root [.name binDirName]) :
      Allowed root (.makeDir path)
  | create (pieces : List (Piece Bytes)) (package : PackagePath pieces) (content : Bytes)
      (kept : given.Content around content) : Allowed root (.create (pathTo root pieces) content)
  | createNew (pieces : List (Piece Bytes)) (package : PackagePath pieces) (content : Bytes)
      (kept : given.Content around content) :
      Allowed root (.createNew (pathTo root pieces) content)
  | remove (pieces : List (Piece Bytes)) (package : PackagePath pieces) :
      Allowed root (.remove (pathTo root pieces))
  | removeBin (name : Bytes) (plain : PlainName name) :
      Allowed root (.remove (pathTo root [.name binDirName, .name name]))
  | linkBin (target : Target Bytes) (name : Bytes) (plain : PlainName name) :
      Allowed root (.symlink target (pathTo root [.name binDirName, .name name]))
  | chmod (pieces : List (Piece Bytes)) (package : PackagePath pieces) :
      Allowed root (.chmod (pathTo root pieces))

variable {given} {around} {root : List Bytes} {tree : DiskTree}

theorem namesOf_pathTo (pieces : List (Piece Bytes)) :
    namesOf (pathTo root pieces) = modulesPlace root ++ namesOf pieces := by
  simp only [pathTo, nodeModules, namesOf_append, namesOf_map, modulesPlace]
  rfl

theorem pathTo_straight {pieces : List (Piece Bytes)} (straight : .dotdot ∉ pieces) :
    .dotdot ∉ pathTo root pieces := by
  simp [pathTo, nodeModules, straight]

theorem PlainPath.names {pieces : List (Piece Bytes)} (plain : PlainPath pieces) :
    ∀ name ∈ namesOf pieces, PlainName name := by
  intro name member
  obtain ⟨piece, isPiece, isName⟩ := List.mem_filterMap.mp member
  have plainPiece := plain piece isPiece
  cases piece with
  | name other => exact Option.some.inj isName ▸ plainPiece
  | dot => contradiction
  | dotdot => contradiction

theorem PackagePath.outsideBin {pieces : List (Piece Bytes)} (package : PackagePath pieces)
    (name : Bytes) : ¬ [binDirName, name] <+: namesOf pieces := by
  rintro ⟨rest, isNames⟩
  exact package.notBin (by rw [← isNames]; rfl)

theorem binDir_outside (name : Bytes) : ¬ [binDirName, name] <+: [binDirName] := by
  intro isPrefix
  simpa using isPrefix.length_le

theorem Tidy.noLinks (tidy : Tidy given around root tree) {names passed : List Bytes}
    (outside : ∀ name, ¬ [binDirName, name] <+: names)
    (isPrefix : passed <+: modulesPlace root ++ names) (target : Target Bytes) :
    tree.nodeAt passed ≠ some (.symlink target) := by
  intro isLink
  rcases List.prefix_or_prefix_of_prefix isPrefix (List.prefix_append _ names) with before | after
  · rcases List.prefix_concat_iff.mp before with rfl | inRoot
    · obtain ⟨name, isNames⟩ := tidy.links [] target (by simpa [modulesPlace] using isLink)
      contradiction
    · simp [tidy.rooted passed inRoot] at isLink
  · obtain ⟨rest, rfl⟩ := after
    obtain ⟨name, rfl⟩ := tidy.links rest target isLink
    exact outside name ((List.prefix_append_right_inj _).mp isPrefix)

theorem Tidy.entry_lands (tidy : Tidy given around root tree) {path : DiskPath} {place : Place Bytes}
    {names : List Bytes} (straight : .dotdot ∉ path)
    (outside : ∀ name, ¬ [binDirName, name] <+: names)
    (within : namesOf path.dropLast <+: modulesPlace root ++ names)
    (isEntry : tree.entry path = some place) : place = namesOf path :=
  Tree.entry_straight straight
    (fun _ _ isPrefix target => tidy.noLinks outside (isPrefix.trans within) target) isEntry

theorem Tidy.locate_lands (tidy : Tidy given around root tree) {pieces : List (Piece Bytes)}
    {place : Place Bytes} (package : PackagePath pieces)
    (located : tree.locate (pathTo root pieces) = some place) :
    place = modulesPlace root ++ namesOf pieces := by
  rw [← namesOf_pathTo]
  refine Tree.locate_straight (pathTo_straight package.plain.straight) ?_ located
  intro names _ isPrefix target
  rw [namesOf_pathTo] at isPrefix
  exact tidy.noLinks package.outsideBin isPrefix target

theorem Tidy.entry_package (tidy : Tidy given around root tree) {pieces : List (Piece Bytes)}
    {place : Place Bytes} (package : PackagePath pieces)
    (isEntry : tree.entry (pathTo root pieces) = some place) :
    place = modulesPlace root ++ namesOf pieces := by
  rw [← namesOf_pathTo]
  refine tidy.entry_lands (pathTo_straight package.plain.straight) package.outsideBin ?_ isEntry
  rw [← namesOf_pathTo]
  exact (List.dropLast_prefix _).filterMap _

theorem Tidy.entry_bin (tidy : Tidy given around root tree) {name : Bytes} {place : Place Bytes}
    (isEntry : tree.entry (pathTo root [.name binDirName, .name name]) = some place) :
    place = modulesPlace root ++ [binDirName, name] := by
  have within : namesOf (pathTo root [.name binDirName, .name name]).dropLast <+:
      modulesPlace root ++ [binDirName] := by
    have isDir : (pathTo root [.name binDirName, .name name]).dropLast =
        pathTo root [.name binDirName] := by
      simp [pathTo]
    rw [isDir, namesOf_pathTo]
    exact List.prefix_rfl
  have straight : .dotdot ∉ pathTo root [.name binDirName, .name name] :=
    pathTo_straight (by simp)
  rw [tidy.entry_lands straight binDir_outside within isEntry, namesOf_pathTo]
  rfl

theorem Tidy.put (tidy : Tidy given around root tree) {names : List Bytes}
    {node : Option (Posix.Node Bytes Bytes)} (plain : ∀ name ∈ names, PlainName name)
    (linksInBin : ∀ target, node = some (.symlink target) → ∃ name, names = [binDirName, name])
    (kept : ∀ content, node = some (.file content) → given.Content around content) :
    Tidy given around root (tree.put (modulesPlace root ++ names) node) := by
  have below : ∀ other : List Bytes, modulesPlace root ++ other ≠ [] := by simp [modulesPlace]
  have isNode : ∀ other, (tree.put (modulesPlace root ++ names) node).nodeAt
      (modulesPlace root ++ other) =
        if other = names then node else tree.nodeAt (modulesPlace root ++ other) := by
    intro other
    simp [Tree.nodeAt_put, below]
  constructor
  case rooted =>
    intro passed isPrefix
    rw [Tree.nodeAt_put_ne]
    · exact tidy.rooted passed isPrefix
    · rintro rfl
      have length := isPrefix.length_le
      simp only [modulesPlace, List.length_append, List.length_singleton] at length
      omega
  case links =>
    intro other target isLink
    rw [isNode] at isLink
    split at isLink
    next here => exact here ▸ linksInBin target isLink
    next => exact tidy.links other target isLink
  case names =>
    intro other isOccupied name member
    rw [Tree.occupied, isNode] at isOccupied
    split at isOccupied
    next here => exact plain name (here ▸ member)
    next => exact tidy.names other isOccupied name member
  case contents =>
    intro other content isFile
    rw [isNode] at isFile
    split at isFile
    next => exact kept content isFile
    next => exact tidy.contents other content isFile

theorem binDirName_plain : PlainName binDirName := by
  constructor
  · decide
  · decide
  · decide

theorem Tidy.makes_below (tidy : Tidy given around root tree) {path : DiskPath} {names : List Bytes}
    {place : Place Bytes} (straight : .dotdot ∉ path)
    (outside : ∀ name, ¬ [binDirName, name] <+: names)
    (within : namesOf path <+: modulesPlace root ++ names)
    (made : (Call.makeDir path : Call Bytes Bytes).touches tree = some place) :
    ∃ passed, passed <+: names ∧ place = modulesPlace root ++ passed := by
  obtain ⟨isEntry, free⟩ := Call.touches_eq_some_iff.mp made
  have shorter : namesOf path.dropLast <+: modulesPlace root ++ names :=
    ((List.dropLast_prefix path).filterMap _).trans within
  obtain rfl := tidy.entry_lands straight outside shorter isEntry
  rcases List.prefix_or_prefix_of_prefix within (List.prefix_append _ names) with before | after
  · rcases List.prefix_concat_iff.mp before with isModules | inRoot
    · exact ⟨[], List.nil_prefix, by rw [List.append_nil]; exact isModules⟩
    · simp [Call.succeeds, Tree.occupied, tidy.rooted _ inRoot] at free
  · obtain ⟨rest, isPlace⟩ := after
    rw [← isPlace] at within ⊢
    exact ⟨rest, (List.prefix_append_right_inj _).mp within, rfl⟩

theorem Tidy.makeDir (tidy : Tidy given around root tree) {path : DiskPath} {names : List Bytes}
    {place : Place Bytes} (straight : .dotdot ∉ path)
    (outside : ∀ name, ¬ [binDirName, name] <+: names) (plain : ∀ name ∈ names, PlainName name)
    (within : namesOf path <+: modulesPlace root ++ names)
    (made : (Call.makeDir path : Call Bytes Bytes).touches tree = some place) :
    modulesPlace root <+: place ∧ Tidy given around root ((Call.makeDir path).apply tree place) := by
  obtain ⟨passed, isPrefix, rfl⟩ := tidy.makes_below straight outside within made
  refine ⟨List.prefix_append _ _, tidy.put ?_ (by simp) (by simp)⟩
  exact fun name member => plain name (isPrefix.subset member)

/-- An allowed call touches a place in `node_modules`, and the tree stays tidy. -/
theorem Tidy.safe (tidy : Tidy given around root tree) {made : Call Bytes Bytes} {place : Place Bytes}
    (isAllowed : Allowed given around root made) (touched : made.touches tree = some place) :
    modulesPlace root <+: place ∧ Tidy given around root (made.apply tree place) := by
  have leads := (Call.touches_eq_some_iff.mp touched).1
  cases isAllowed with
  | makeDir path pieces package within =>
      refine tidy.makeDir ?_ package.outsideBin package.plain.names ?_ touched
      · exact fun member => pathTo_straight package.plain.straight (within.subset member)
      · rw [← namesOf_pathTo]
        exact within.filterMap _
  | makeBin path within =>
      refine tidy.makeDir ?_ binDir_outside ?_ ?_ touched
      · exact fun member => pathTo_straight (by simp) (within.subset member)
      · simp [binDirName_plain]
      · have isBin : namesOf (pathTo root [.name binDirName]) =
            modulesPlace root ++ [binDirName] := namesOf_pathTo _
        rw [← isBin]
        exact within.filterMap _
  | create pieces package content kept =>
      obtain rfl := tidy.locate_lands package leads
      exact ⟨List.prefix_append _ _, tidy.put package.plain.names (by simp)
        fun other isFile => Posix.Node.file.inj (Option.some.inj isFile) ▸ kept⟩
  | createNew pieces package content kept =>
      obtain rfl := tidy.entry_package package leads
      exact ⟨List.prefix_append _ _, tidy.put package.plain.names (by simp)
        fun other isFile => Posix.Node.file.inj (Option.some.inj isFile) ▸ kept⟩
  | remove pieces package =>
      obtain rfl := tidy.entry_package package leads
      exact ⟨List.prefix_append _ _, tidy.put package.plain.names (by simp) (by simp)⟩
  | removeBin name plain =>
      obtain rfl := tidy.entry_bin leads
      refine ⟨List.prefix_append _ _, tidy.put ?_ (by simp) (by simp)⟩
      simp [binDirName_plain, plain]
  | linkBin target name plain =>
      obtain rfl := tidy.entry_bin leads
      refine ⟨List.prefix_append _ _, tidy.put ?_ (fun _ _ => ⟨name, rfl⟩) (by simp)⟩
      simp [binDirName_plain, plain]
  | chmod pieces package =>
      obtain rfl := tidy.locate_lands package (Option.filter_eq_some_iff.mp leads).1
      exact ⟨List.prefix_append _ _, tidy⟩

/-! The calls of each function, when its names are plain. -/

def Harmless {α : Type} (around : Surroundings ε) (root : List Bytes) (program : DiskProgram α) :
    Prop :=
  program.Only (Tidy plainNames around root) (Allowed plainNames around root)

theorem makeMissing_harmless {made rest : DiskPath}
    (allowed : ∀ path, path <+: made ++ rest →
      Allowed plainNames around root (.makeDir path)) :
    Harmless around root (makeMissing made rest) := by
  induction rest generalizing made with
  | nil => trivial
  | cons piece rest ih =>
      rw [List.append_cons] at allowed
      intro tree _
      beta_reduce
      split
      · exact ih allowed
      · have first := allowed (made ++ [piece]) (List.prefix_append _ _)
        exact (Program.only_attempt first).andThen fun _ => ih allowed

theorem createDirAll_harmless {path : DiskPath} {pieces : List (Piece Bytes)}
    (package : PackagePath pieces) (within : path <+: pathTo root pieces) :
    Harmless around root (createDirAll path) :=
  makeMissing_harmless fun _ isPrefix => .makeDir _ pieces package (isPrefix.trans within)

theorem parent_leads_up {path dir : DiskPath} (isParent : parent path = some dir) :
    dir <+: path := by
  unfold parent at isParent
  split at isParent
  next => contradiction
  next last rest isRest =>
    obtain rfl := Option.some.inj isParent
    have isSuffix : rest <:+ path.reverse :=
      (List.suffix_cons last rest).trans (isRest ▸ List.dropWhile_suffix _)
    simpa using List.reverse_prefix.mpr isSuffix

theorem createParent_harmless {pieces : List (Piece Bytes)} (package : PackagePath pieces) :
    Harmless around root (createParent (pathTo root pieces)) := by
  unfold createParent
  split
  next dir isParent => exact createDirAll_harmless package (parent_leads_up isParent)
  next => trivial

theorem extractEach_harmless {ζ : Type} {extract : ζ → DiskProgram (Option Unit)}
    {entries : List (Option ζ)}
    (each : ∀ entry, some entry ∈ entries → Harmless around root (extract entry)) :
    Harmless around root (extractEach extract entries) := by
  induction entries with
  | nil => trivial
  | cons entry rest ih =>
      have later := ih fun other member => each other (List.mem_cons_of_mem entry member)
      cases entry with
      | none => trivial
      | some entry => exact (each entry List.mem_cons_self).andThen fun _ => later

theorem join_modules (pieces : List (Piece Bytes)) :
    join (root.map .name) ⟨false, .name (utf8 "node_modules") :: pieces⟩ = pathTo root pieces := by
  simp [join, pathTo, nodeModules]

theorem join_pathTo (first second : List (Piece Bytes)) :
    join (pathTo root first) ⟨false, second⟩ = pathTo root (first ++ second) := by
  simp [join, pathTo]

theorem extractZipFile_harmless {file : ZipFile} (plain : plainNames.zip file.name)
    (kept : plainNames.Content around file.content) :
    Harmless around root (extractZipFile (root.map .name) file) := by
  obtain ⟨pieces, isTarget, package⟩ := plain
  simp only [extractZipFile, isTarget, join_modules]
  split
  · exact createDirAll_harmless package List.prefix_rfl
  · refine (createParent_harmless package).andThen fun _ => ?_
    refine (Program.only_attempt (.create pieces package _ kept)).andThen fun _ => ?_
    trivial

theorem unpack_harmless {entry : ε} (unpacks : UnpacksAt plainNames around entry)
    {pieces : List (Piece Bytes)} (package : PackagePath pieces) :
    Harmless around root (around.unpack entry (pathTo root pieces)) := by
  refine Program.Only.weaken (unpacks (pathTo root pieces)) (fun _ _ => trivial) ?_
  rintro made (⟨content, rfl, plain⟩ | rfl | rfl)
  · exact .createNew pieces package content plain
  · exact .remove pieces package
  · exact .chmod pieces package

theorem extractTarEntry_harmless {item : TarEntry ε} {package : Bytes}
    (plain : plainNames.tar package item.path) (unpacks : UnpacksAt plainNames around item.entry) :
    Harmless around root (extractTarEntry around
      (join (nodeModules (root.map .name)) (toTarget package)) item) := by
  obtain ⟨⟨pieces, isTarget, isPackage, filled⟩, plainRel⟩ := plain
  have isDest : join (nodeModules (root.map .name)) (toTarget package) = pathTo root pieces := by
    simp [isTarget, join, pathTo]
  unfold extractTarEntry
  split
  next => trivial
  next rel isRel =>
    obtain ⟨isRelative, relPlain⟩ := plainRel rel isRel
    have isFile : join (pathTo root pieces) rel = pathTo root (pieces ++ rel.pieces) := by
      simp [join, isRelative, pathTo]
    have below := isPackage.append filled relPlain
    simp only [isDest, isFile]
    split
    · exact createDirAll_harmless below List.prefix_rfl
    · exact (createParent_harmless below).andThen fun _ => unpack_harmless unpacks below

theorem extractPackage_harmless {package : LockfilePackage} {bytes : Bytes}
    (plain : plainNames.Archive around package bytes) :
    Harmless around root (extractPackage around package bytes (root.map .name)) := by
  unfold extractPackage
  unfold Names.Archive at plain
  split
  next isZip =>
    rw [if_pos isZip] at plain
    unfold extractYarnZipToWorkspace
    split
    next files isFiles =>
      refine extractEach_harmless fun file member => ?_
      obtain ⟨plainName, kept⟩ := plain files isFiles file member
      exact extractZipFile_harmless plainName kept
    next => trivial
  next isTgz =>
    rw [if_neg isTgz] at plain
    refine extractEach_harmless fun item member => ?_
    obtain ⟨plainPath, unpacks⟩ := plain item member
    exact extractTarEntry_harmless plainPath unpacks

theorem restoreFromCas_harmless {store : Bytes → Option (Option Bytes)}
    {packages : List LockfilePackage} (intact : Bool)
    (plain : ∀ package ∈ packages, ∀ bytes,
      store (computeCasKey around.crates package.integrity) = some (some bytes) →
        plainNames.Archive around package bytes) :
    Harmless around root (restoreFromCas around store (root.map .name) packages intact) := by
  induction packages generalizing intact with
  | nil => trivial
  | cons package packages ih =>
      have later := fun state => ih state fun other member =>
        plain other (List.mem_cons_of_mem package member)
      unfold restoreFromCas
      split
      next => trivial
      next => exact later false
      next bytes isStored =>
        exact (extractPackage_harmless (plain package List.mem_cons_self bytes isStored)).bind
          fun result => later _

/-! The bin links. -/

theorem toTarget_plain {name : Bytes} (plain : PlainName name) (first : List (Piece Bytes)) :
    join (pathTo root first) (toTarget name) = pathTo root (first ++ [.name name]) := by
  rw [plain.single, join_pathTo]

theorem createOneBinLink_harmless {binName relPath : Bytes} {pieces : List (Piece Bytes)}
    (plainName : PlainName binName) (package : PackagePath pieces) (filled : namesOf pieces ≠ [])
    (plainRel : ∃ rel, toTarget relPath = ⟨false, rel⟩ ∧ PlainPath rel) :
    Harmless around root (createOneBinLink around (pathTo root [.name binDirName]) binName
      (pathTo root pieces) relPath) := by
  obtain ⟨rel, isRel, plain⟩ := plainRel
  have below := package.append filled plain
  simp only [createOneBinLink, isRel, join_pathTo, toTarget_plain plainName, List.singleton_append]
  intro tree _
  beta_reduce
  split
  · refine (Program.only_attempt (.removeBin binName plainName)).bind fun _ => ?_
    refine (Program.only_attempt (.linkBin _ binName plainName)).andThen fun _ => ?_
    exact (Program.only_attempt (.chmod _ below)).bind fun _ => trivial
  · trivial

theorem last_of_plain {name : Bytes} (plain : PlainName name) :
    (name.splitOn slash).getLast? = some name := by
  rw [List.splitOn_eq_singleton plain.noSlash]
  rfl

theorem last_of_scoped {name : Bytes} (plain : PlainName name) (scope : Bytes) :
    ((scope ++ slash :: name).splitOn slash).getLast? = some name := by
  rw [List.splitOn_append_cons_self, List.splitOn_eq_singleton plain.noSlash]
  simp

theorem bins_plain {field : BinField} (plain : plainNames.Field field) {pkgName last : Bytes}
    (isLast : (pkgName.splitOn slash).getLast? = some last) (plainLast : PlainName last) :
    ∀ bin ∈ field.bins pkgName, PlainName bin.1 ∧
      ∃ rel, toTarget bin.2 = ⟨false, rel⟩ ∧ PlainPath rel := by
  cases field with
  | single relPath =>
      intro bin member
      obtain rfl := List.mem_singleton.mp member
      simp only [isLast, Option.getD_some]
      exact ⟨plainLast, plain⟩
  | many bins =>
      intro bin member
      obtain ⟨⟨name, relPath⟩, listed, isBin⟩ := List.mem_filterMap.mp member
      obtain ⟨path, rfl, rfl⟩ := Option.map_eq_some_iff.mp isBin
      exact plain name path listed
  | other => simp [BinField.bins]

theorem createBins_harmless {pieces : List (Piece Bytes)} (package : PackagePath pieces)
    (filled : namesOf pieces ≠ []) {bins : List (Bytes × Bytes)}
    (plain : ∀ bin ∈ bins, PlainName bin.1 ∧
      ∃ rel, toTarget bin.2 = ⟨false, rel⟩ ∧ PlainPath rel) :
    Harmless around root
      (createBins around (pathTo root pieces) (pathTo root [.name binDirName]) bins) := by
  induction bins with
  | nil => trivial
  | cons bin bins ih =>
      obtain ⟨plainName, plainRel⟩ := plain bin List.mem_cons_self
      refine (createOneBinLink_harmless plainName package filled plainRel).andThen fun _ => ?_
      refine (ih fun other member => plain other (List.mem_cons_of_mem bin member)).andThen
        fun _ => ?_
      trivial

theorem Tidy.read_given (tidy : Tidy given around root tree) {pieces : List (Piece Bytes)}
    {content : Bytes} (package : PackagePath pieces)
    (isRead : tree.read (pathTo root pieces) = some content) :
    given.Content around content := by
  obtain ⟨place, found, isContent⟩ := Option.bind_eq_some_iff.mp isRead
  obtain rfl := tidy.locate_lands package (Option.filter_eq_some_iff.mp found).1
  split at isContent
  next isFile => exact Option.some.inj isContent ▸ tidy.contents _ _ isFile
  next => contradiction

theorem createBinLinksForPackage_harmless {pieces : List (Piece Bytes)}
    (package : PackagePath pieces) (filled : namesOf pieces ≠ []) {pkgName last : Bytes}
    (isLast : (pkgName.splitOn slash).getLast? = some last) (plainLast : PlainName last) :
    Harmless around root (createBinLinksForPackage around (pathTo root pieces) pkgName
      (pathTo root [.name binDirName])) := by
  intro tree tidy
  beta_reduce
  split
  · split
    next field isField =>
      obtain ⟨content, isRead, isBin⟩ := Option.bind_eq_some_iff.mp isField
      have jsonPlain : PlainPath [.name (utf8 "package.json")] := by
        intro piece member
        obtain rfl := List.mem_singleton.mp member
        exact ⟨by decide, by decide, by decide⟩
      have isPath : pathTo root pieces ++ [.name (utf8 "package.json")] =
          pathTo root (pieces ++ [.name (utf8 "package.json")]) := by
        simp [pathTo]
      rw [isPath] at isRead
      have plainContent := tidy.read_given (package.append filled jsonPlain) isRead
      exact createBins_harmless package filled
        (bins_plain (plainContent field isBin) isLast plainLast)
    next => trivial
  · trivial

theorem Tidy.listed_plain (tidy : Tidy given around root tree) {pieces : List (Piece Bytes)}
    (package : PackagePath pieces) {names : List Bytes}
    (isListed : tree.readDir (pathTo root pieces) = some names) :
    ∀ name ∈ names, PlainName name := by
  intro name member
  obtain ⟨place, found, isNames⟩ := Option.bind_eq_some_iff.mp isListed
  obtain rfl := tidy.locate_lands package (Option.filter_eq_some_iff.mp found).1
  obtain ⟨_, isNames⟩ := Option.ite_none_right_eq_some.mp isNames
  rw [← Option.some.inj isNames] at member
  have isOccupied := Tree.mem_namesIn tree member
  rw [List.append_assoc] at isOccupied
  exact tidy.names _ isOccupied name (by simp)

theorem PackagePath.nil : PackagePath [] :=
  ⟨fun piece member => by contradiction, by simp [namesOf]⟩

theorem PackagePath.single {name : Bytes} (plain : PlainName name) (notBin : name ≠ binDirName) :
    PackagePath [.name name] := by
  constructor
  · intro piece member
    obtain rfl := List.mem_singleton.mp member
    exact plain
  · simpa [namesOf] using notBin

theorem PackagePath.snoc {pieces : List (Piece Bytes)} (package : PackagePath pieces)
    (filled : namesOf pieces ≠ []) {name : Bytes} (plain : PlainName name) :
    PackagePath (pieces ++ [.name name]) := by
  refine package.append filled ?_
  intro piece member
  obtain rfl := List.mem_singleton.mp member
  exact plain

theorem pathTo_snoc (pieces : List (Piece Bytes)) (name : Bytes) :
    pathTo root pieces ++ [.name name] = pathTo root (pieces ++ [.name name]) := by
  simp [pathTo]

theorem createScoped_harmless {pieces : List (Piece Bytes)} (package : PackagePath pieces)
    (filled : namesOf pieces ≠ []) (scope : Bytes) {names : List Bytes}
    (plain : ∀ name ∈ names, PlainName name) :
    Harmless around root (createScoped around (pathTo root pieces) scope
      (pathTo root [.name binDirName]) names) := by
  induction names with
  | nil => trivial
  | cons inner rest ih =>
      have plainInner := plain inner List.mem_cons_self
      have innerFilled : namesOf (pieces ++ [.name inner]) ≠ [] := by
        simp [namesOf_append, filled]
      unfold createScoped
      rw [pathTo_snoc, plainInner.unicode]
      refine (createBinLinksForPackage_harmless (package.snoc filled plainInner) innerFilled
        (last_of_scoped plainInner scope) plainInner).andThen fun _ => ?_
      refine (ih fun other member => plain other (List.mem_cons_of_mem inner member)).andThen
        fun _ => ?_
      trivial

theorem createForEntry_harmless (listed : ∀ names, around.listed names ⊆ names) {name : Bytes}
    (plain : PlainName name) :
    Harmless around root (createForEntry around (pathTo root []) (pathTo root [.name binDirName])
      name) := by
  unfold createForEntry
  rw [pathTo_snoc, plain.unicode, List.nil_append]
  by_cases hidden : isPrefix (utf8 ".") name = true
  · simp only [hidden, ↓reduceIte]
    trivial
  · have notBin : name ≠ binDirName := by
      rintro rfl
      exact hidden (by decide)
    have package := PackagePath.single plain notBin
    have filled : namesOf [.name name] ≠ [] := by simp [namesOf]
    simp only [hidden, Bool.false_eq_true, ↓reduceIte]
    split
    · -- a scope: each name in it is that of a package
      intro tree tidy
      beta_reduce
      split
      · split
        next names isNames =>
          exact createScoped_harmless package filled name fun inner member =>
            tidy.listed_plain package isNames inner (listed names member)
        next => trivial
      · trivial
    · exact createBinLinksForPackage_harmless package filled (last_of_plain plain) plain

theorem createForEach_harmless (listed : ∀ names, around.listed names ⊆ names)
    {names : List Bytes} (plain : ∀ name ∈ names, PlainName name) :
    Harmless around root (createForEach around (pathTo root []) (pathTo root [.name binDirName])
      names) := by
  induction names with
  | nil => trivial
  | cons name rest ih =>
      refine (createForEntry_harmless listed (plain name List.mem_cons_self)).andThen fun _ => ?_
      refine (ih fun other member => plain other (List.mem_cons_of_mem name member)).andThen
        fun _ => ?_
      trivial

theorem createBinLinks_harmless (listed : ∀ names, around.listed names ⊆ names) :
    Harmless around root (createBinLinks around (root.map .name)) := by
  have isModules : nodeModules (root.map .name) = pathTo root [] := by simp [pathTo]
  have isBin : pathTo root [] ++ [.name (utf8 ".bin")] = pathTo root [.name binDirName] := by
    simp [pathTo, binDirName]
  unfold createBinLinks
  simp only [isModules, isBin]
  refine Program.Only.andThen (makeMissing_harmless fun _ isPrefix => .makeBin _ isPrefix)
    fun _ => ?_
  intro tree tidy
  beta_reduce
  split
  next names isNames =>
    exact createForEach_harmless listed fun name member =>
      tidy.listed_plain PackagePath.nil isNames name (listed names member)
  next => trivial

theorem Tidy.locate_modules (tidy : Tidy given around root tree) :
    tree.locate (nodeModules (root.map .name)) = some (modulesPlace root) := by
  have atRoot : tree.isDirectory root = true := by
    simp [Tree.isDirectory, tidy.rooted root List.prefix_rfl, Posix.Node.isDirectory]
  have arrives : ∀ follow, Tree.walk tree follow [] (nodeModules (root.map .name)) =
      some (modulesPlace root) := by
    intro follow
    rw [nodeModules, Tree.walk_directories root _ (by simpa using tidy.rooted), List.nil_append]
    simp only [Tree.walk, atRoot, ↓reduceIte, modulesPlace]
    split
    next => rfl
    next target isLink =>
      obtain ⟨name, isNames⟩ := tidy.links [] target (by simpa [modulesPlace] using isLink)
      contradiction
    next => rfl
  exact arrives _

/-- What a restore that is given plain names touches. -/
theorem plain_restore_contained {store : Bytes → Option (Option Bytes)}
    {packages : List LockfilePackage}
    (plain : GivesOnly plainNames around store root packages tree) :
    ∀ place ∈ ((restoreInstall around store (root.map .name) packages).run tree).touched,
      Inside tree (root.map .name) place := by
  have harmless : Harmless around root
      (restoreInstall around store (root.map .name) packages) :=
    (restoreFromCas_harmless true plain.archives).andThen fun _ =>
      createBinLinks_harmless plain.listed
  refine (Program.touched_inside_iff _ _ _).mpr (harmless.fits ?_ plain.tidy)
  intro later made place tidy isAllowed touched
  obtain ⟨within, stays⟩ := tidy.safe isAllowed touched
  exact ⟨⟨modulesPlace root, plain.tidy.locate_modules, within⟩, stays⟩

end

end Rage.Extraction
