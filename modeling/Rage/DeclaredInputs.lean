import Rage.Abi
import Rage.Listing
import Rage.StrongSet
import Rage.Utf8Text

/-!
Which files of a package its globs are resolved to.  `WalkDir` meets the directories in whatever
order the system lists them, and asks the filter about the package directory as well.
-/

namespace Rage

/-- A name as a directory lists it. -/
structure FileName where
  text : Bytes
  filled : text ≠ []
  noSlash : slash ∉ text
  notDot : text ≠ utf8 "."
  notDotDot : text ≠ utf8 ".."
  deriving DecidableEq

/-- What is no directory: a regular file, or anything else, which includes links. -/
inductive Leaf
  | file (content : Bytes) (readable : Bool)
  | other
  deriving DecidableEq

/-- Of a directory it matters whether it can be listed. -/
abbrev Contents := Listing FileName Bool Leaf

structure PackageDir where
  path : Path
  /-- `WalkDir` follows a link at its root, but the filter does not see a directory there. -/
  symlink : Bool
  listable : Bool
  contents : Contents

structure WalkEntry where
  path : Path
  /-- `none` for a directory. -/
  leaf : Option Leaf

/-- `DirEntry::file_name` at the root of a walk. -/
def rootName (path : Path) : Bytes := (FileSystem.fileName (components path)).getD path

/-- The filter, for directories. -/
def enters (skip : List Bytes) (name : Bytes) : Bool := !skip.contains (toStringLossy name)

def walk (skip : List Bytes) : Path → Contents → List WalkEntry
  | _, .done => []
  | path, .leaf name here rest => ⟨Path.join path name.text, some here⟩ :: walk skip path rest
  | path, .directory name listable inner rest =>
      let below := Path.join path name.text
      (if enters skip name.text then
        ⟨below, none⟩ :: if listable then walk skip below inner else []
      else []) ++ walk skip path rest

def matchesOutput (outputGlobs : List Bytes) (rel : Path) : Bool :=
  outputGlobs.any fun glob => outputGlobMatches glob (toStringLossy rel)

namespace PackageDir

/-- `WalkDir::new(dir).into_iter().filter_entry(..).flatten()`. -/
def entries (dir : PackageDir) (skip : List Bytes) : List WalkEntry :=
  if !dir.symlink && !enters skip (rootName dir.path) then []
  else ⟨dir.path, if dir.symlink then some .other else none⟩ ::
    if dir.listable then walk skip dir.path dir.contents else []

section

variable (crates : Crates) (dir : PackageDir)

def inputAt (isMatch : Path → Bool) (path : Path) : Leaf → Option (Path × Bytes)
  | .file content readable =>
      (path.stripPrefix dir.path).bind fun rel =>
        if isMatch rel ∧ readable then some (rel, hex (crates.blake3 content)) else none
  | .other => none

def resolveGlobs (globs : List Bytes) : List (Path × Bytes) :=
  if globs.isEmpty then []
  else match crates.globSet (globs.filter crates.globNew) with
    | none => []
    | some isMatch =>
        let files := (dir.entries skipDirs).filterMap fun entry =>
          entry.leaf.bind (dir.inputAt crates isMatch entry.path)
        dedupBy (fun next kept => Path.eq next.1 kept.1)
          (files.insertionSort fun first second => Path.le first.1 second.1)

def outputAt (outputGlobs : List Bytes) (path : Path) : Leaf → Option Path
  | .file _ _ =>
      (path.stripPrefix dir.path).bind fun rel =>
        if matchesOutput outputGlobs rel then some path else none
  | .other => none

def resolveOutputGlobs (outputGlobs : List Bytes) : List Path :=
  if outputGlobs.isEmpty then []
  else (dir.entries outputSkipDirs).filterMap fun entry =>
    entry.leaf.bind (dir.outputAt outputGlobs entry.path)

end

end PackageDir

/-! What the globs are about. -/

abbrev FoundFile := Listing.Found FileName Bool Leaf

namespace Listing.Found

def rel (found : FoundFile) : Path := joinNames (found.names.map FileName.text)

def pathIn (base : Path) (found : FoundFile) : Path :=
  found.names.foldl (fun path name => Path.join path name.text) base

def content (found : FoundFile) : Bytes :=
  match found.leaf with
  | .file content _ => content
  | .other => []

def Readable (found : FoundFile) : Prop := found.leaf = .file found.content true

/-- A regular file that matches, with no skipped directory above it. -/
structure Meant (skip : List Bytes) (isMatch : Path → Bool) (found : FoundFile) : Prop where
  isFile : found.leaf ≠ .other
  unskipped : ∀ name ∈ found.names.dropLast, name.text ∉ skip
  matched : isMatch found.rel = true

end Listing.Found

namespace PackageDir

/-- The walk gets to the file. -/
structure Reaches (dir : PackageDir) (skip : List Bytes) (found : FoundFile) : Prop where
  root : dir.symlink = true ∨ rootName dir.path ∉ skip
  listable : dir.listable = true
  above : ∀ listable ∈ found.above, listable = true

structure InputsExact (crates : Crates) (dir : PackageDir) (isMatch : Path → Bool)
    (result : List (Path × Bytes)) : Prop where
  sorted : result.Pairwise fun first second =>
    Path.le first.1 second.1 = true ∧ Path.eq first.1 second.1 = false
  exact : ∀ input, input ∈ result ↔ ∃ found ∈ dir.contents.leaves,
    found.Meant skipDirs isMatch ∧
      input = (found.rel, hex (crates.blake3 (found.content)))

structure OutputsExact (dir : PackageDir) (outputGlobs : List Bytes) (result : List Path) :
    Prop where
  sorted : result.Pairwise fun first second =>
    Path.le first second = true ∧ Path.eq first second = false
  exact : ∀ path, path ∈ result ↔ ∃ found ∈ dir.contents.leaves,
    found.Meant outputSkipDirs (matchesOutput outputGlobs) ∧
      path = found.pathIn dir.path

def InputsInReach (dir : PackageDir) (isMatch : Path → Bool) : Prop :=
  ∀ found ∈ dir.contents.leaves, found.Meant skipDirs isMatch →
    dir.Reaches skipDirs found ∧ found.Readable

/-- What is found is left in the order in which the system lists it. -/
structure OutputsInReach (dir : PackageDir) (outputGlobs : List Bytes) : Prop where
  reached : ∀ found ∈ dir.contents.leaves,
    found.Meant outputSkipDirs (matchesOutput outputGlobs) →
      dir.Reaches outputSkipDirs found
  inOrder : dir.contents.leaves.Pairwise fun first second =>
    first.Meant outputSkipDirs (matchesOutput outputGlobs) →
      second.Meant outputSkipDirs (matchesOutput outputGlobs) →
        Path.le (first.rel) (second.rel) = true

end PackageDir

/-! Names and paths. -/

theorem FileName.parts (name : FileName) : name.text.splitOn slash = [name.text] :=
  List.splitOn_eq_singleton name.noSlash

theorem FileName.ofPart (name : FileName) :
    Component.ofPart name.text = some (.normal name.text) := by
  simp [Component.ofPart, name.filled, name.notDot, name.notDotDot]

theorem FileName.relative (name : FileName) (rest : Bytes) :
    (name.text ++ rest).head? ≠ some slash := by
  obtain ⟨byte, text, isText⟩ := List.exists_cons_of_ne_nil name.filled
  rw [isText]
  intro absolute
  exact name.noSlash (by simp [isText, Option.some.inj absolute])

theorem FileName.components_join (name : FileName) (base : Path) :
    components (Path.join base name.text) = components base ++ [.normal name.text] := by
  have relative : name.text.head? ≠ some slash := by simpa using name.relative []
  have plain : (name.text.splitOn slash).head? ≠ some (utf8 ".") := by
    simpa [name.parts] using name.notDot
  rw [Rage.components_join base relative plain, components_relative relative plain, name.parts]
  simp [name.ofPart]

theorem components_pathIn (names : List FileName) (base : Path) :
    components (names.foldl (fun path name => Path.join path name.text) base) =
      components base ++ names.map fun name => .normal name.text := by
  induction names generalizing base with
  | nil => simp
  | cons name names ih => rw [List.foldl_cons, ih, name.components_join]; simp

theorem splitOn_joinNames {names : List FileName} (filled : names ≠ []) :
    (joinNames (names.map FileName.text)).splitOn slash = names.map FileName.text := by
  refine List.splitOn_intercalate slash ?_ (by simpa using filled)
  intro part member
  obtain ⟨name, _, rfl⟩ := List.mem_map.mp member
  exact name.noSlash

theorem joinNames_relative {names : List FileName} (filled : names ≠ []) :
    (joinNames (names.map FileName.text)).head? ≠ some slash := by
  obtain ⟨name, rest, rfl⟩ := List.exists_cons_of_ne_nil filled
  cases rest with
  | nil => simpa [joinNames] using name.relative []
  | cons next rest =>
      have joined := name.relative (slash :: joinNames ((next :: rest).map FileName.text))
      simpa [joinNames, List.intercalate] using joined

theorem joinNames_plain {names : List FileName} (filled : names ≠ []) :
    ((joinNames (names.map FileName.text)).splitOn slash).head? ≠ some (utf8 ".") := by
  obtain ⟨name, rest, rfl⟩ := List.exists_cons_of_ne_nil filled
  rw [splitOn_joinNames filled]
  simpa using name.notDot

theorem components_joinNames {names : List FileName} (filled : names ≠ []) :
    components (joinNames (names.map FileName.text)) = names.map fun name => .normal name.text := by
  rw [components_relative (joinNames_relative filled) (joinNames_plain filled),
    splitOn_joinNames filled, List.filterMap_map]
  rw [← List.filterMap_eq_map]
  exact List.filterMap_congr fun name _ => name.ofPart

/-! What a walk finds. -/

theorem enters_iff {skip : List Bytes} {name : Bytes}
    (ascii : ∀ text ∈ skip, (∀ byte ∈ text, byte < 0x80) ∧ toStringLossy text = text) :
    enters skip name = true ↔ name ∉ skip := by
  have same : toStringLossy name ∈ skip ↔ name ∈ skip := by
    constructor
    · intro member
      obtain ⟨small, valid⟩ := ascii _ member
      rwa [← (toStringLossy_eq_iff small valid).mp rfl] at member
    · intro member
      rwa [(ascii name member).2]
  simp [enters, same]

def passes (skip : List Bytes) (found : FoundFile) : Bool :=
  found.names.dropLast.all (fun name => enters skip name.text) && found.above.all id

theorem passes_under {skip : List Bytes} {contents : Contents} {found : FoundFile} (name : FileName)
    (listable : Bool) (member : found ∈ contents.leaves) :
    passes skip (found.under name listable) =
      (enters skip name.text && (listable && passes skip found)) := by
  obtain ⟨first, rest, isNames, _⟩ := Listing.names_of_found member
  simp only [passes, Listing.Found.under, isNames, List.dropLast_cons_cons, List.all_cons, id]
  ac_rfl

/-- The walk lists what it does not pass by, in the order of the listing. -/
theorem walk_leaves {β : Type} (skip : List Bytes) (choose : Path → Leaf → Option β) (path : Path)
    (contents : Contents) :
    (walk skip path contents).filterMap (fun entry => entry.leaf.bind (choose entry.path)) =
      (contents.leaves.filter (passes skip)).filterMap
        fun found => choose (found.pathIn path) found.leaf := by
  induction contents generalizing path with
  | done => rfl
  | leaf name here rest ih =>
      simp only [walk, Listing.leaves, List.filter_cons, passes, List.dropLast_singleton,
        List.all_nil, Bool.and_self, if_true, List.filterMap_cons, Option.bind_some, ih]
      rfl
  | directory name listable inner rest ihInner ihRest =>
      have within : (inner.leaves.map (Listing.Found.under name listable)).filter (passes skip) =
          if enters skip name.text = true ∧ listable = true then
            (inner.leaves.filter (passes skip)).map (Listing.Found.under name listable)
          else [] := by
        rw [List.filter_map]
        split
        · rename_i open_
          congr 1
          refine List.filter_congr fun found member => ?_
          rw [Function.comp_apply, passes_under name listable member, open_.1, open_.2]
          rfl
        · rename_i closed
          rw [List.filter_eq_nil_iff.mpr, List.map_nil]
          intro found member
          simp only [Function.comp_apply, passes_under name listable member]
          intro all
          simp only [Bool.and_eq_true] at all
          exact closed ⟨all.1, all.2.1⟩
      simp only [walk, Listing.leaves, List.filterMap_append, List.filter_append, ihRest, within]
      congr 1
      by_cases entered : enters skip name.text = true
      · by_cases isListable : listable = true
        · simp only [entered, isListable, and_self, if_true, List.filterMap_cons, Option.bind_none,
            ihInner, List.filterMap_map]
          rfl
        · simp [entered, isListable]
      · simp [entered]

namespace PackageDir

variable (dir : PackageDir) (skip : List Bytes)

def reached (found : FoundFile) : Bool :=
  (dir.symlink || enters skip (rootName dir.path)) && (dir.listable && passes skip found)

variable {skip} in
theorem reached_iff
    (ascii : ∀ text ∈ skip, (∀ byte ∈ text, byte < 0x80) ∧ toStringLossy text = text)
    (found : FoundFile) : dir.reached skip found = true ↔
      dir.Reaches skip found ∧ ∀ name ∈ found.names.dropLast, name.text ∉ skip := by
  simp only [reached, passes, Bool.and_eq_true, Bool.or_eq_true, List.all_eq_true, id,
    enters_iff ascii]
  constructor
  · rintro ⟨root, listable, unskipped, above⟩
    exact ⟨⟨root, listable, above⟩, unskipped⟩
  · rintro ⟨reaches, unskipped⟩
    exact ⟨reaches.root, reaches.listable, unskipped, reaches.above⟩

theorem entries_leaves {β : Type} {choose : Path → Leaf → Option β}
    (noOther : ∀ path, choose path .other = none) :
    (dir.entries skip).filterMap (fun entry => entry.leaf.bind (choose entry.path)) =
      (dir.contents.leaves.filter (dir.reached skip)).filterMap
        fun found => choose (found.pathIn dir.path) found.leaf := by
  have closed (shut : ∀ found, dir.reached skip found = false) :
      dir.contents.leaves.filter (dir.reached skip) = [] :=
    List.filter_eq_nil_iff.mpr fun found _ => by simp [shut found]
  have rootLeaf : (if dir.symlink = true then some Leaf.other else none).bind
      (choose dir.path) = none := by
    split
    · exact noOther dir.path
    · rfl
  rw [entries]
  by_cases root : (dir.symlink || enters skip (rootName dir.path)) = true
  · have kept : (!dir.symlink && !enters skip (rootName dir.path)) = false := by
      rw [← Bool.not_or, root]
      rfl
    rw [kept, if_neg Bool.false_ne_true, List.filterMap_cons]
    simp only [rootLeaf]
    by_cases isListable : dir.listable = true
    · have open_ : dir.reached skip = passes skip := by
        funext found
        rw [reached, root, isListable]
        rfl
      rw [if_pos isListable, open_, walk_leaves]
    · rw [if_neg isListable, closed]
      · rfl
      · intro found
        simp [reached, isListable]
  · rw [Bool.not_eq_true] at root
    have pruned : (!dir.symlink && !enters skip (rootName dir.path)) = true := by
      rw [← Bool.not_or, root]
      rfl
    rw [pruned, if_pos rfl, closed]
    · rfl
    · intro found
      rw [reached, root]
      rfl

end PackageDir

theorem names_filled {contents : Contents} {found : FoundFile} (member : found ∈ contents.leaves) :
    found.names ≠ [] := by
  obtain ⟨name, rest, isNames, _⟩ := Listing.names_of_found member
  simp [isNames]

theorem strip_pathIn {found : FoundFile} (base : Path) :
    (found.pathIn base).stripPrefix base = some (found.rel) := by
  have isPath := components_pathIn found.names base
  rw [← Listing.Found.pathIn] at isPath
  rw [Path.stripPrefix, isPath, if_pos (List.prefix_append _ _), List.drop_left, List.map_map]
  rfl

theorem components_rel {contents : Contents} {found : FoundFile}
    (member : found ∈ contents.leaves) :
    components (found.rel) = found.names.map fun name => .normal name.text :=
  components_joinNames (names_filled member)

theorem names_injective {first second : List FileName}
    (same : first.map (fun name => Component.normal name.text) =
      second.map fun name => Component.normal name.text) : first = second := by
  refine List.map_injective_iff.mpr ?_ same
  intro name other equal
  obtain ⟨text⟩ := name
  obtain ⟨otherText⟩ := other
  have texts : text = otherText := Component.normal.inj equal
  simp [texts]

/-- A relative path leads to one file. -/
theorem eq_of_rel {contents : Contents} (lawful : contents.Lawful) {first second : FoundFile}
    (firstFound : first ∈ contents.leaves) (secondFound : second ∈ contents.leaves)
    (same : components (first.rel) = components (second.rel)) :
    first = second := by
  rw [components_rel firstFound, components_rel secondFound] at same
  exact lawful.eq_of_names firstFound secondFound (names_injective same)

/-! The resolved globs. -/

namespace Listing.Found

instance (skip : List Bytes) (isMatch : Path → Bool) (found : FoundFile) :
    Decidable (found.Meant skip isMatch) :=
  decidable_of_iff (found.leaf ≠ .other ∧
      (∀ name ∈ found.names.dropLast, skip.contains name.text = false) ∧ isMatch found.rel = true)
    ⟨fun all => ⟨all.1, by simpa using all.2.1, all.2.2⟩,
      fun meant => ⟨meant.isFile, by simpa using meant.unskipped, meant.matched⟩⟩

end Listing.Found

theorem skipDirs_ascii : ∀ text ∈ skipDirs,
    (∀ byte ∈ text, byte < 0x80) ∧ toStringLossy text = text := by
  decide +kernel

theorem outputSkipDirs_ascii : ∀ text ∈ outputSkipDirs,
    (∀ byte ∈ text, byte < 0x80) ∧ toStringLossy text = text := by
  decide +kernel

section Inputs

variable {crates : Crates} {isMatch : Path → Bool} (dir : PackageDir)

def inputOf (crates : Crates) (found : FoundFile) : Path × Bytes :=
  (found.rel, hex (crates.blake3 found.content))

theorem inputAt_some {found : FoundFile} {input : Path × Bytes} :
    dir.inputAt crates isMatch (found.pathIn dir.path) found.leaf = some input ↔
      found.leaf ≠ .other ∧ isMatch found.rel = true ∧ found.Readable ∧
        input = inputOf crates found := by
  cases isLeaf : found.leaf with
  | file content readable =>
      have isContent : found.content = content := by simp [Listing.Found.content, isLeaf]
      rw [PackageDir.inputAt, strip_pathIn, Option.bind_some, Option.ite_none_right_eq_some,
        Listing.Found.Readable, inputOf, isContent, isLeaf]
      constructor
      · rintro ⟨⟨matched, rfl⟩, isInput⟩
        exact ⟨by simp, matched, rfl, (Option.some.inj isInput).symm⟩
      · rintro ⟨-, matched, isReadable, rfl⟩
        exact ⟨⟨matched, (Leaf.file.inj isReadable).2⟩, rfl⟩
  | other => simp [PackageDir.inputAt]

/-- The files before they are sorted. -/
def inputsOf (crates : Crates) (isMatch : Path → Bool) : List (Path × Bytes) :=
  (dir.contents.leaves.filter (dir.reached skipDirs)).filterMap fun found =>
    dir.inputAt crates isMatch (found.pathIn dir.path) found.leaf

theorem mem_inputsOf {input : Path × Bytes} : input ∈ inputsOf dir crates isMatch ↔
    ∃ found ∈ dir.contents.leaves, found.Meant skipDirs isMatch ∧ dir.Reaches skipDirs found ∧
      found.Readable ∧ input = inputOf crates found := by
  simp only [inputsOf, List.mem_filterMap, List.mem_filter, dir.reached_iff skipDirs_ascii,
    inputAt_some]
  constructor
  · rintro ⟨found, ⟨member, reaches, unskipped⟩, isFile, matched, readable, isInput⟩
    exact ⟨found, member, ⟨isFile, unskipped, matched⟩, reaches, readable, isInput⟩
  · rintro ⟨found, member, meant, reaches, readable, isInput⟩
    exact ⟨found, ⟨member, reaches, meant.unskipped⟩, meant.isFile, meant.matched, readable, isInput⟩

def sortInputs (files : List (Path × Bytes)) : List (Path × Bytes) :=
  dedupBy (fun next kept => Path.eq next.1 kept.1)
    (files.insertionSort fun first second => Path.le first.1 second.1)

theorem sortInputs_sorted (files : List (Path × Bytes)) :
    (sortInputs files).Pairwise fun first second =>
      Path.le first.1 second.1 = true ∧ Path.eq first.1 second.1 = false := by
  have isKey (first second : Path × Bytes) : Path.eq first.1 second.1 =
      decide (components first.1 = components second.1) := path_eq_key first.1 second.1
  have sorted := pairwise_dedupBy isKey componentsLe_antisymm
    (StableSort.pairwise_sort (fun input : Path × Bytes => components input.1)
      (fun first second => componentsLe first second = true) componentsLe_total componentsLe_trans
      files)
  refine sorted.imp fun {first second} ordered => ⟨ordered.1, ?_⟩
  rw [path_eq_key]
  exact decide_eq_false ordered.2

theorem mem_sortInputs {files : List (Path × Bytes)}
    (distinct : ∀ first ∈ files, ∀ second ∈ files, Path.eq first.1 second.1 = true →
      first = second) {input : Path × Bytes} : input ∈ sortInputs files ↔ input ∈ files := by
  have within {input : Path × Bytes} (member : input ∈ sortInputs files) : input ∈ files :=
    (List.mem_insertionSort _).mp (mem_of_mem_dedupBy member)
  refine ⟨within, fun member => ?_⟩
  have refl (input : Path × Bytes) : Path.eq input.1 input.1 = true := by simp [Path.eq]
  have represented : ∃ kept ∈ sortInputs files, Path.eq input.1 kept.1 = true := by
    rw [sortInputs]
    exact dedupBy_represents refl input _ ((List.mem_insertionSort _).mpr member)
  obtain ⟨kept, isKept, same⟩ := represented
  rw [distinct input member kept (within isKept) same]
  exact isKept

theorem mem_sorted_inputs (lawful : dir.contents.Lawful) {input : Path × Bytes} :
    input ∈ sortInputs (inputsOf dir crates isMatch) ↔
      ∃ found ∈ dir.contents.leaves, found.Meant skipDirs isMatch ∧ dir.Reaches skipDirs found ∧
        found.Readable ∧ input = inputOf crates found := by
  rw [mem_sortInputs, mem_inputsOf]
  intro first firstMember second secondMember same
  obtain ⟨found, within, -, -, -, rfl⟩ := (mem_inputsOf dir).mp firstMember
  obtain ⟨other, otherWithin, -, -, -, rfl⟩ := (mem_inputsOf dir).mp secondMember
  rw [eq_of_rel lawful within otherWithin (Path.eq_iff.mp same)]

theorem inputsExact_iff (lawful : dir.contents.Lawful) :
    dir.InputsExact crates isMatch (sortInputs (inputsOf dir crates isMatch)) ↔
      dir.InputsInReach isMatch := by
  constructor
  · intro exact_ found member meant
    have listed := (exact_.exact (inputOf crates found)).mpr ⟨found, member, meant, rfl⟩
    obtain ⟨other, otherMember, -, reaches, readable, same⟩ := (mem_sorted_inputs dir lawful).mp listed
    have rels : found.rel = other.rel := congrArg Prod.fst same
    rw [eq_of_rel lawful member otherMember (by rw [rels])]
    exact ⟨reaches, readable⟩
  · intro inReach
    refine ⟨sortInputs_sorted _, fun input => ?_⟩
    rw [mem_sorted_inputs dir lawful]
    constructor
    · rintro ⟨found, member, meant, -, -, isInput⟩
      exact ⟨found, member, meant, isInput⟩
    · rintro ⟨found, member, meant, isInput⟩
      obtain ⟨reaches, readable⟩ := inReach found member meant
      exact ⟨found, member, meant, reaches, readable, isInput⟩

/-- Two resolutions that are exact for the same contents are the same. -/
theorem inputsExact_unique {first second : List (Path × Bytes)} {moved : PackageDir}
    (same : moved.contents = dir.contents) (exact_ : dir.InputsExact crates isMatch first)
    (movedExact : moved.InputsExact crates isMatch second) : first = second := by
  have distinct {inputs : List (Path × Bytes)} (sorted : inputs.Pairwise fun first second =>
      Path.le first.1 second.1 = true ∧ Path.eq first.1 second.1 = false) : inputs.Nodup := by
    refine sorted.imp fun {one other} ordered equal => ?_
    rw [equal] at ordered
    simp [Path.eq] at ordered
  have members (input : Path × Bytes) : input ∈ first ↔ input ∈ second := by
    rw [exact_.exact, movedExact.exact, same]
  refine List.Perm.eq_of_pairwise ?_ exact_.sorted movedExact.sorted
    ((List.perm_ext_iff_of_nodup (distinct exact_.sorted) (distinct movedExact.sorted)).mpr members)
  intro one other _ _ below above
  have equal := componentsLe_antisymm _ _ below.1 above.1
  simp [Path.eq, equal] at below

end Inputs

section Outputs

variable {outputGlobs : List Bytes} (dir : PackageDir)

theorem outputAt_some {found : FoundFile} {path : Path} :
    dir.outputAt outputGlobs (found.pathIn dir.path) found.leaf = some path ↔
      found.leaf ≠ .other ∧ matchesOutput outputGlobs found.rel = true ∧
        path = found.pathIn dir.path := by
  cases isLeaf : found.leaf with
  | file content readable =>
      rw [PackageDir.outputAt, strip_pathIn, Option.bind_some, Option.ite_none_right_eq_some,
        Option.some.injEq, eq_comm (b := path)]
      simp
  | other => simp [PackageDir.outputAt]

def outputsOf (outputGlobs : List Bytes) : List Path :=
  (dir.contents.leaves.filter (dir.reached outputSkipDirs)).filterMap fun found =>
    dir.outputAt outputGlobs (found.pathIn dir.path) found.leaf

theorem filterMap_eq_map_filter {α β : Type} {choose : α → Option β} {value : α → β}
    (chosen : α → Prop) [DecidablePred chosen]
    (isChosen : ∀ x y, choose x = some y ↔ chosen x ∧ y = value x) (xs : List α) :
    xs.filterMap choose = (xs.filter chosen).map value := by
  induction xs with
  | nil => rfl
  | cons x xs ih =>
      by_cases here : chosen x
      · rw [List.filterMap_cons_some ((isChosen x _).mpr ⟨here, rfl⟩), ih]
        simp [here]
      · have none_ : choose x = none := by
          cases isSome : choose x with
          | none => rfl
          | some y => exact (here ((isChosen x y).mp isSome).1).elim
        rw [List.filterMap_cons_none none_, ih]
        simp [here]

/-- The results are the meant files that the walk gets to, in the order of the listing. -/
theorem outputsOf_eq : outputsOf dir outputGlobs =
    (dir.contents.leaves.filter fun found =>
      found.Meant outputSkipDirs (matchesOutput outputGlobs) ∧
        dir.reached outputSkipDirs found).map fun found => found.pathIn dir.path := by
  rw [outputsOf, filterMap_eq_map_filter
    (fun found : FoundFile => found.leaf ≠ .other ∧ matchesOutput outputGlobs found.rel = true)
    (fun found path => (outputAt_some dir).trans and_assoc.symm), List.filter_filter]
  congr 1
  refine List.filter_congr fun found member => ?_
  rw [Bool.eq_iff_iff]
  simp only [Bool.and_eq_true, decide_eq_true_eq, dir.reached_iff outputSkipDirs_ascii]
  constructor
  · rintro ⟨⟨isFile, matched⟩, reaches, unskipped⟩
    exact ⟨⟨isFile, unskipped, matched⟩, reaches, unskipped⟩
  · rintro ⟨meant, reaches, unskipped⟩
    exact ⟨⟨meant.isFile, meant.matched⟩, reaches, unskipped⟩

theorem le_pathIn {first second : FoundFile} (firstFound : first ∈ dir.contents.leaves)
    (secondFound : second ∈ dir.contents.leaves) :
    Path.le (first.pathIn dir.path) (second.pathIn dir.path) = Path.le first.rel second.rel := by
  rw [Path.le, Path.le, components_rel firstFound, components_rel secondFound,
    Listing.Found.pathIn, Listing.Found.pathIn, components_pathIn, components_pathIn,
    componentsLe_append]

theorem eq_of_pathIn (lawful : dir.contents.Lawful) {first second : FoundFile}
    (firstFound : first ∈ dir.contents.leaves) (secondFound : second ∈ dir.contents.leaves)
    (same : components (first.pathIn dir.path) = components (second.pathIn dir.path)) :
    first = second := by
  rw [Listing.Found.pathIn, Listing.Found.pathIn, components_pathIn, components_pathIn] at same
  exact lawful.eq_of_names firstFound secondFound (names_injective (List.append_cancel_left same))

theorem mem_outputsOf {path : Path} : path ∈ outputsOf dir outputGlobs ↔
    ∃ found ∈ dir.contents.leaves, found.Meant outputSkipDirs (matchesOutput outputGlobs) ∧
      dir.Reaches outputSkipDirs found ∧ path = found.pathIn dir.path := by
  simp only [outputsOf_eq, List.mem_map, List.mem_filter, decide_eq_true_eq,
    dir.reached_iff outputSkipDirs_ascii]
  constructor
  · rintro ⟨found, ⟨member, meant, reaches, -⟩, rfl⟩
    exact ⟨found, member, meant, reaches, rfl⟩
  · rintro ⟨found, member, meant, reaches, rfl⟩
    exact ⟨found, ⟨member, meant, reaches, meant.unskipped⟩, rfl⟩

/-- Once all that is meant is found, the place of the directory does not matter. -/
theorem outputsOf_reached
    (reached : ∀ found ∈ dir.contents.leaves,
      found.Meant outputSkipDirs (matchesOutput outputGlobs) → dir.Reaches outputSkipDirs found) :
    outputsOf dir outputGlobs =
      (dir.contents.leaves.filter fun found =>
        found.Meant outputSkipDirs (matchesOutput outputGlobs)).map
          fun found => found.pathIn dir.path := by
  rw [outputsOf_eq]
  congr 1
  refine List.filter_congr fun found member => decide_eq_decide.mpr ?_
  rw [dir.reached_iff outputSkipDirs_ascii]
  exact ⟨And.left, fun meant => ⟨meant, reached found member meant, meant.unskipped⟩⟩

theorem outputsExact_iff (lawful : dir.contents.Lawful) :
    dir.OutputsExact outputGlobs (outputsOf dir outputGlobs) ↔
      dir.OutputsInReach outputGlobs := by
  have reached_of (exact_ : dir.OutputsExact outputGlobs (outputsOf dir outputGlobs)) :
      ∀ found ∈ dir.contents.leaves, found.Meant outputSkipDirs (matchesOutput outputGlobs) →
        dir.Reaches outputSkipDirs found := by
    intro found member meant
    obtain ⟨other, otherMember, -, reaches, same⟩ :=
      (mem_outputsOf dir).mp ((exact_.exact _).mpr ⟨found, member, meant, rfl⟩)
    rw [eq_of_pathIn dir lawful member otherMember (by rw [same])]
    exact reaches
  constructor
  · intro exact_
    refine ⟨reached_of exact_, ?_⟩
    have sorted := exact_.sorted
    rw [outputsOf_reached dir (reached_of exact_), List.pairwise_map, List.pairwise_filter] at sorted
    refine sorted.imp_of_mem fun {first second} member otherMember ordered meant otherMeant => ?_
    rw [← le_pathIn dir member otherMember]
    exact (ordered (decide_eq_true meant) (decide_eq_true otherMeant)).1
  · intro inReach
    constructor
    · rw [outputsOf_reached dir inReach.reached, List.pairwise_map, List.pairwise_filter]
      have apart := List.pairwise_map.mp lawful.distinct
      refine (inReach.inOrder.and apart).imp_of_mem
        fun {first second} member otherMember ordered meant otherMeant => ⟨?_, ?_⟩
      · rw [le_pathIn dir member otherMember]
        exact ordered.1 (of_decide_eq_true meant) (of_decide_eq_true otherMeant)
      · rw [path_eq_key]
        refine decide_eq_false fun same => ordered.2 ?_
        rw [eq_of_pathIn dir lawful member otherMember same]
    · intro path
      rw [mem_outputsOf]
      constructor
      · rintro ⟨found, member, meant, -, isPath⟩
        exact ⟨found, member, meant, isPath⟩
      · rintro ⟨found, member, meant, isPath⟩
        exact ⟨found, member, meant, inReach.reached found member meant, isPath⟩

theorem outputs_unmoved {moved : PackageDir} (same : moved.contents = dir.contents)
    (inReach : dir.OutputsInReach outputGlobs) (movedInReach : moved.OutputsInReach outputGlobs) :
    (outputsOf dir outputGlobs).map (fun path => path.stripPrefix dir.path) =
      (outputsOf moved outputGlobs).map fun path => path.stripPrefix moved.path := by
  rw [outputsOf_reached dir inReach.reached, outputsOf_reached moved movedInReach.reached, same,
    List.map_map, List.map_map]
  refine List.map_congr_left fun found _ => ?_
  rw [Function.comp_apply, Function.comp_apply, strip_pathIn, strip_pathIn]

end Outputs

def matchesInput (globMatches : Bytes → Path → Bool) (globs : List Bytes) (rel : Path) : Bool :=
  globs.any fun glob => globMatches glob rel

/-- `GlobSet`: a set of valid globs builds, and matches what one of them matches. -/
def Crates.Sets (crates : Crates) (globMatches : Bytes → Path → Bool) : Prop :=
  ∀ globs, (∀ glob ∈ globs, crates.globNew glob = true) →
    crates.globSet globs = some (matchesInput globMatches globs)

theorem resolveGlobs_eq {crates : Crates} {globMatches : Bytes → Path → Bool}
    (sets : crates.Sets globMatches) {globs : List Bytes}
    (valid : ∀ glob ∈ globs, crates.globNew glob = true) (dir : PackageDir) :
    dir.resolveGlobs crates globs =
      sortInputs (inputsOf dir crates (matchesInput globMatches globs)) := by
  cases globs with
  | nil =>
      have none_ : inputsOf dir crates (matchesInput globMatches []) = [] := by
        refine List.eq_nil_iff_forall_not_mem.mpr fun input member => ?_
        obtain ⟨found, -, meant, -⟩ := (mem_inputsOf dir).mp member
        simpa [matchesInput] using meant.matched
      rw [none_]
      rfl
  | cons glob globs =>
      rw [PackageDir.resolveGlobs, List.filter_eq_self.mpr valid, sets _ valid]
      simp only [List.isEmpty_cons, Bool.false_eq_true, if_false]
      rw [dir.entries_leaves skipDirs (fun path => rfl)]
      rfl

theorem resolveOutputGlobs_eq (dir : PackageDir) (outputGlobs : List Bytes) :
    dir.resolveOutputGlobs outputGlobs = outputsOf dir outputGlobs := by
  cases outputGlobs with
  | nil =>
      symm
      refine List.eq_nil_iff_forall_not_mem.mpr fun path member => ?_
      obtain ⟨found, -, meant, -⟩ := (mem_outputsOf dir).mp member
      simpa [matchesOutput] using meant.matched
  | cons glob outputGlobs =>
      rw [PackageDir.resolveOutputGlobs]
      simp only [List.isEmpty_cons, Bool.false_eq_true, if_false]
      rw [dir.entries_leaves outputSkipDirs (fun path => rfl)]
      rfl

/-- Both resolutions, of a package and of the same contents in another place. -/
theorem resolved_exactly_iff {crates : Crates} {globMatches : Bytes → Path → Bool}
    (sets : crates.Sets globMatches) {globs : List Bytes}
    (valid : ∀ glob ∈ globs, crates.globNew glob = true) (outputGlobs : List Bytes)
    (dir moved : PackageDir) (lawful : dir.contents.Lawful) (same : moved.contents = dir.contents) :
    ((dir.InputsExact crates (matchesInput globMatches globs) (dir.resolveGlobs crates globs) ∧
        moved.InputsExact crates (matchesInput globMatches globs)
          (moved.resolveGlobs crates globs) ∧
        dir.resolveGlobs crates globs = moved.resolveGlobs crates globs) ↔
      dir.InputsInReach (matchesInput globMatches globs) ∧
        moved.InputsInReach (matchesInput globMatches globs)) ∧
    ((dir.OutputsExact outputGlobs (dir.resolveOutputGlobs outputGlobs) ∧
        moved.OutputsExact outputGlobs (moved.resolveOutputGlobs outputGlobs) ∧
        (dir.resolveOutputGlobs outputGlobs).map (fun path => path.stripPrefix dir.path) =
          (moved.resolveOutputGlobs outputGlobs).map fun path => path.stripPrefix moved.path) ↔
      dir.OutputsInReach outputGlobs ∧ moved.OutputsInReach outputGlobs) := by
  have movedLawful : moved.contents.Lawful := same ▸ lawful
  simp only [resolveGlobs_eq sets valid, resolveOutputGlobs_eq, inputsExact_iff dir lawful,
    inputsExact_iff moved movedLawful, outputsExact_iff dir lawful,
    outputsExact_iff moved movedLawful]
  refine ⟨⟨fun all => ⟨all.1, all.2.1⟩, fun reach => ⟨reach.1, reach.2, ?_⟩⟩,
    ⟨fun all => ⟨all.1, all.2.1⟩, fun reach => ⟨reach.1, reach.2, ?_⟩⟩⟩
  · exact inputsExact_unique dir same ((inputsExact_iff dir lawful).mpr reach.1)
      ((inputsExact_iff moved movedLawful).mpr reach.2)
  · exact outputs_unmoved dir same reach.1 reach.2

/-! One source file, in a package called `lib` and in one called `dist`. -/

def sourceName : FileName where
  text := utf8 "index.ts"
  filled := by decide
  noSlash := by decide
  notDot := by decide
  notDotDot := by decide

def oneSource : Contents := .leaf sourceName (.file (utf8 "export \x7b\x7d") true) .done

def packageAt (path : String) : PackageDir where
  path := utf8 path
  symlink := false
  listable := true
  contents := oneSource

theorem plain_sets : Crates.plain.Sets fun glob path => path == glob :=
  fun _ _ => congrArg some (funext fun _ => List.contains_eq_any_beq)

theorem oneSource_found {found : FoundFile} (member : found ∈ oneSource.leaves) :
    found = ⟨[sourceName], [], .file (utf8 "export \x7b\x7d") true⟩ :=
  List.mem_singleton.mp member

theorem oneSource_reached {path : String} {skip : List Bytes}
    (other : rootName (utf8 path) ∉ skip) {found : FoundFile} (member : found ∈ oneSource.leaves) :
    (packageAt path).Reaches skip found := by
  rw [oneSource_found member]
  exact ⟨Or.inr other, rfl, by simp⟩

theorem resolved_exactly_iff_lib :
    (packageAt "/w/lib").InputsExact Crates.plain
      (matchesInput (fun glob path => path == glob) [utf8 "index.ts"])
      ((packageAt "/w/lib").resolveGlobs Crates.plain [utf8 "index.ts"]) := by
  have valid : ∀ glob ∈ [utf8 "index.ts"], Crates.plain.globNew glob = true := fun _ _ => rfl
  have lawful : oneSource.Lawful := ⟨List.not_mem_nil, trivial⟩
  have other : rootName (utf8 "/w/lib") ∉ skipDirs := by decide
  have inReach : (packageAt "/w/lib").InputsInReach
      (matchesInput (fun glob path => path == glob) [utf8 "index.ts"]) := by
    intro found member _
    refine ⟨oneSource_reached other member, ?_⟩
    rw [oneSource_found member]
    rfl
  exact ((resolved_exactly_iff plain_sets valid [] (packageAt "/w/lib") (packageAt "/w/lib") lawful
    rfl).1.mpr ⟨inReach, inReach⟩).1

/-- The filter is asked about the package directory, and prunes all of it. -/
theorem package_named_dist :
    (packageAt "/w/dist").resolveGlobs Crates.plain [utf8 "index.ts"] = [] ∧
      (packageAt "/w/lib").resolveGlobs Crates.plain [utf8 "index.ts"] ≠ [] ∧
      ¬ (packageAt "/w/dist").InputsExact Crates.plain
        (matchesInput (fun glob path => path == glob) [utf8 "index.ts"])
        ((packageAt "/w/dist").resolveGlobs Crates.plain [utf8 "index.ts"]) := by
  have nothing : (packageAt "/w/dist").resolveGlobs Crates.plain [utf8 "index.ts"] = [] := by
    decide
  refine ⟨nothing, by decide, fun exact_ => ?_⟩
  rw [nothing] at exact_
  have listed := (exact_.exact _).mpr ⟨_, List.mem_singleton_self _, ⟨by simp, by simp, by decide⟩, rfl⟩
  exact List.not_mem_nil listed

end Rage
