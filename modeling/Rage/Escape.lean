import Rage.Containment

/-!
A string that leads out of `node_modules` does so in some workspace without links.
-/

namespace Rage.Extraction

open Posix
open Posix.Program (attempt run_attempt run_attempt_fails)

theorem arrive_join (base : DiskPath) (target : Target Bytes) (here : Place Bytes)
    (isBase : arrive [] base = here) :
    arrive [] (join base target) = arrive (target.start here) target.pieces := by
  unfold join Target.start
  split
  · rfl
  · rw [arrive_append, isBase]

/-- Every restore that is given only such names, in every tidy workspace, stays inside. -/
def Contained (given : Names) (root : List Bytes) : Prop :=
  ∀ {ε : Type} (around : Surroundings ε) (store : Bytes → Option (Option Bytes))
    (packages : List LockfilePackage) (tree : DiskTree),
    GivesOnly given around store root packages tree →
      (restoreInstall around store (root.map .name) packages).StaysIn
        (Inside tree (root.map .name)) tree

/-- Neither in `node_modules` nor a directory above it. -/
def Outside (root : List Bytes) (place : Place Bytes) : Prop :=
  ¬ modulesPlace root <+: place ∧ ¬ place <+: root

/-- Only directories, and each in one. -/
structure Bare (tree : DiskTree) : Prop where
  directories : ∀ place, tree.occupied place = true → tree.isDirectory place = true
  closed : tree.Closed

theorem isDirectory_makes (tree : DiskTree) (made place : Place Bytes) :
    (tree.put made (some .directory)).isDirectory place = true ↔
      place = made ∨ tree.isDirectory place = true := by
  by_cases here : place = made
  · subst here
    simp [Tree.isDirectory, Tree.nodeAt_put, Posix.Node.isDirectory]
  · simp [here, Tree.isDirectory, Tree.nodeAt_put_ne]

theorem occupied_makes (tree : DiskTree) {made place : Place Bytes}
    (isOccupied : (tree.put made (some .directory)).occupied place = true) :
    place = made ∨ tree.occupied place = true := by
  by_cases here : place = made
  · exact .inl here
  · rw [Tree.occupied, Tree.nodeAt_put_ne tree here] at isOccupied
    exact .inr isOccupied

theorem Bare.put {tree : DiskTree} (bare : Bare tree) {here : Place Bytes} (name : Bytes)
    (atHere : tree.isDirectory here = true) :
    Bare (tree.put (here ++ [name]) (some .directory)) := by
  constructor
  case directories =>
    intro place isOccupied
    rw [isDirectory_makes]
    exact (occupied_makes tree isOccupied).imp_right (bare.directories place)
  case closed =>
    intro place atPlace
    rw [isDirectory_makes] at atPlace ⊢
    rcases atPlace with rfl | before
    · exact .inr (by simpa using atHere)
    · exact .inr (bare.closed place before)

/-- What `create_dir_all` leaves of a bare tree when it touches only what is inside. -/
structure Paves (inside : Place Bytes → Prop) (tree : DiskTree) (path : DiskPath)
    (result : Program.Result Bytes Bytes (Option Unit)) : Prop where
  value : result.value = some ()
  bare : Bare result.tree
  paved : result.tree.Paved path
  new : ∀ place, result.tree.occupied place = true → tree.occupied place = true ∨ inside place

theorem isDir_paved {tree : DiskTree} (closed : tree.Closed) {path : DiskPath}
    (paved : tree.Paved path) : tree.isDir path = true := by
  simp [Tree.isDir, Tree.lookup_paved closed paved, Tree.arrive_isDirectory closed paved]

theorem makeMissing_found {tree : DiskTree} (closed : tree.Closed) {made : DiskPath}
    {piece : Piece Bytes} {rest : DiskPath} (paved : tree.Paved (made ++ [piece])) :
    (makeMissing made (piece :: rest)).run tree = (makeMissing (made ++ [piece]) rest).run tree := by
  simp [makeMissing, Program.run, isDir_paved closed paved]

/-- The first name that is not there: its directory is made. -/
theorem makeMissing_makes {tree : DiskTree} (bare : Bare tree) {made : DiskPath} {name : Bytes}
    (rest : DiskPath) (paved : tree.Paved made)
    (free : tree.occupied (arrive [] made ++ [name]) = false) :
    let place := arrive [] made ++ [name]
    let later := (makeMissing (made ++ [.name name]) rest).run (tree.put place (some .directory))
    (makeMissing made (.name name :: rest)).run tree =
      ⟨later.value, later.tree, place :: later.touched⟩ := by
  have noNode : tree.nodeAt (arrive [] made ++ [name]) = none := by
    simpa [Tree.occupied] using free
  have isMissing : tree.isDir (made ++ [.name name]) = false := by
    have located := Tree.locate_snoc bare.closed paved name (by simp [noNode])
    simp [Tree.isDir, Tree.lookup, located, free]
  have touched : (Call.makeDir (made ++ [.name name]) : Call Bytes Bytes).touches tree =
      some (arrive [] made ++ [name]) := by
    simp [Call.touches_eq_some_iff, Call.leads, Tree.entry_snoc bare.closed paved, Call.succeeds,
      free]
  simp only [makeMissing, Program.run, isMissing, Bool.false_eq_true, ↓reduceIte,
    Program.andThen, Program.run_bind, run_attempt touched, Call.apply]
  rfl

theorem makeMissing_paves {inside : Place Bytes → Prop} {tree : DiskTree} {made rest : DiskPath}
    (bare : Bare tree) (paved : tree.Paved made)
    (stays : (makeMissing made rest).StaysIn inside tree) :
    Paves inside tree (made ++ rest) ((makeMissing made rest).run tree) := by
  induction rest generalizing made tree with
  | nil =>
      refine ⟨rfl, bare, ?_, fun place isOccupied => .inl isOccupied⟩
      rwa [List.append_nil]
  | cons piece rest ih =>
      rw [List.append_cons]
      unfold Program.StaysIn at stays
      by_cases found : tree.Paved (made ++ [piece])
      · rw [makeMissing_found bare.closed found] at stays ⊢
        exact ih bare found stays
      · cases piece with
        | dot => exact absurd (by simpa [Tree.Paved, landings_append, landings] using paved) found
        | dotdot => exact absurd (by simpa [Tree.Paved, landings_append, landings] using paved) found
        | name name =>
            have atMade := Tree.arrive_isDirectory bare.closed paved
            have free : tree.occupied (arrive [] made ++ [name]) = false := by
              by_contra isOccupied
              have isDir := bare.directories _ (by simpa using isOccupied)
              refine found fun place member => ?_
              rw [landings_append, List.mem_append] at member
              rcases member with before | here
              · exact paved place before
              · exact List.mem_singleton.mp here ▸ isDir
            have makes := makeMissing_makes bare rest paved free
            rw [makes] at stays ⊢
            have inside_here := stays _ List.mem_cons_self
            have bareNext := bare.put name atMade
            have pavedNext : (tree.put (arrive [] made ++ [name]) (some .directory)).Paved
                (made ++ [.name name]) := by
              intro place member
              rw [landings_append, List.mem_append] at member
              rw [isDirectory_makes]
              rcases member with before | here
              · exact .inr (paved place before)
              · exact .inl (List.mem_singleton.mp here)
            have later := ih bareNext pavedNext fun place member =>
              stays place (List.mem_cons_of_mem _ member)
            refine ⟨later.value, later.bare, later.paved, ?_⟩
            intro place isOccupied
            rcases later.new place isOccupied with before | isInside
            · rcases occupied_makes tree before with rfl | before
              · exact .inr inside_here
              · exact .inl before
            · exact .inr isInside

/-! A workspace with nothing in it. -/

def emptyRoot (root : List Bytes) : DiskTree := Tree.directories root.inits

theorem nodeAt_emptyRoot (root : List Bytes) (place : Place Bytes) :
    (emptyRoot root).nodeAt place = if place <+: root then some .directory else none := by
  have isPrefix : place = [] ∨ place ∈ root.inits ↔ place <+: root := by
    rw [List.mem_inits]
    exact ⟨fun either => either.elim (fun isNil => isNil ▸ List.nil_prefix) id, .inr⟩
  rw [emptyRoot, Tree.nodeAt_directories]
  by_cases within : place <+: root
  · rw [if_pos (isPrefix.mpr within), if_pos within]
  · rw [if_neg (mt isPrefix.mp within), if_neg within]

theorem emptyRoot_bare (root : List Bytes) : Bare (emptyRoot root) := by
  have isDir : ∀ place, (emptyRoot root).isDirectory place = true ↔ place <+: root := by
    intro place
    simp only [Tree.isDirectory, nodeAt_emptyRoot]
    split <;> simp_all [Posix.Node.isDirectory]
  constructor
  case directories =>
    intro place isOccupied
    rw [isDir]
    by_contra outside
    simp [Tree.occupied, nodeAt_emptyRoot, outside] at isOccupied
  case closed =>
    intro place atPlace
    rw [isDir] at atPlace ⊢
    exact (List.dropLast_prefix place).trans atPlace

theorem emptyRoot_tidy {ε : Type} (given : Names) (around : Surroundings ε) (root : List Bytes) :
    Tidy given around root (emptyRoot root) := by
  have nothing : ∀ names, (emptyRoot root).nodeAt (modulesPlace root ++ names) = none := by
    intro names
    rw [nodeAt_emptyRoot, if_neg]
    intro isPrefix
    have length := isPrefix.length_le
    simp only [modulesPlace, List.length_append, List.length_singleton] at length
    omega
  constructor
  case rooted => exact fun passed isPrefix => by rw [nodeAt_emptyRoot, if_pos isPrefix]
  case links => simp [nothing]
  case names => simp [Tree.occupied, nothing]
  case contents => simp [nothing]

theorem inside_iff {ε : Type} {given : Names} {around : Surroundings ε} {root : List Bytes}
    {tree : DiskTree} (tidy : Tidy given around root tree) (place : Place Bytes) :
    Inside tree (root.map .name) place ↔ modulesPlace root <+: place := by
  simp [Inside, tidy.locate_modules]

theorem createDirAll_paves {inside : Place Bytes → Prop} {root : List Bytes} {path : DiskPath}
    (stays : (createDirAll path).StaysIn inside (emptyRoot root)) :
    Paves inside (emptyRoot root) path ((createDirAll path).run (emptyRoot root)) :=
  makeMissing_paves (emptyRoot_bare root) (by simp [Tree.Paved, landings]) stays

theorem Paves.free {root : List Bytes} {path : DiskPath}
    {result : Program.Result Bytes Bytes (Option Unit)} {inside : Place Bytes → Prop}
    (paves : Paves inside (emptyRoot root) path result) {place : Place Bytes}
    (outside : Outside root place) (isInside : inside place → modulesPlace root <+: place) :
    result.tree.nodeAt place = none := by
  by_contra occupied
  have isOccupied : result.tree.occupied place = true := by
    simpa [Tree.occupied, Option.isSome_iff_ne_none] using occupied
  rcases paves.new place isOccupied with before | here
  · simp [Tree.occupied, nodeAt_emptyRoot, outside.2] at before
  · exact outside.1 (isInside here)

theorem createDirAll_escapes {inside : Place Bytes → Prop} {root : List Bytes} {path : DiskPath}
    (outside : Outside root (arrive [] path))
    (isInside : ∀ place, inside place → modulesPlace root <+: place) :
    ¬ (createDirAll path).StaysIn inside (emptyRoot root) := by
  intro stays
  have paves := createDirAll_paves stays
  have isDir := Tree.arrive_isDirectory paves.bare.closed paves.paved
  have isFree := paves.free outside (isInside _)
  simp [Tree.isDirectory, isFree] at isDir

theorem create_escapes {inside : Place Bytes → Prop} {root : List Bytes} {front : DiskPath}
    {last content : Bytes} (outside : Outside root (arrive [] front ++ [last]))
    (isInside : ∀ place, inside place → modulesPlace root <+: place) :
    ¬ ((createParent (front ++ [.name last])).andThen fun _ =>
      (attempt (.create (front ++ [.name last]) content)).andThen fun _ =>
        (.done (some ()))).StaysIn inside (emptyRoot root) := by
  intro stays
  have isParent : createParent (front ++ [.name last]) = createDirAll front := by
    simp [createParent, parent, isDot]
  rw [isParent] at stays
  have paves := createDirAll_paves stays.first
  have isFree := paves.free outside (isInside _)
  have later := (stays.next paves.value).first
  have located := Tree.locate_snoc paves.bare.closed paves.paved last (by simp [isFree])
  have touched : (Call.create (front ++ [.name last]) content).touches
      ((createDirAll front).run (emptyRoot root)).tree = some (arrive [] front ++ [last]) := by
    simp [Call.touches_eq_some_iff, Call.leads, located, Call.succeeds, Tree.isDirectory, isFree]
  exact outside.1 (isInside _ (later.touches touched))

/-! One package with one file in its archive. -/

def zipOf (name : Bytes) : Surroundings Unit where
  crates := Crates.plain
  zip := fun _ => some [some ⟨name, utf8 "x", true⟩]
  tgz := fun _ => []
  unpack := fun _ _ => .done none
  bin := fun _ => none
  diffPaths := fun _ _ => none
  listed := id

def tgzOf (path : Path) : Surroundings Unit :=
  { zipOf [] with tgz := fun _ => [some ⟨path, true, ()⟩] }

def stored (bytes : Bytes) (_ : Bytes) : Option (Option Bytes) := some (some bytes)

def lockedPackage (name : Bytes) : LockfilePackage := ⟨name, utf8 "1.0.0", utf8 "sha512"⟩

def EndsInName (pieces : List (Piece Bytes)) : Prop := ∃ front last, pieces = front ++ [.name last]

theorem zip_escapes {given : Names} {root : List Bytes} {name : Bytes} (isGiven : given.zip name)
    (creates : name.getLast? = some slash ∨ EndsInName (toTarget name).pieces)
    (outside : Outside root (arrive ((toTarget name).start root) (toTarget name).pieces)) :
    ¬ Contained given root := by
  intro contained
  have tidy := emptyRoot_tidy given (zipOf name) root
  have givesOnly : GivesOnly given (zipOf name) (stored (utf8 "PK")) root
      [lockedPackage (utf8 "p")] (emptyRoot root) := by
    refine ⟨tidy, ?_, fun _ => List.Subset.refl _⟩
    intro package _ bytes isStored
    obtain rfl : utf8 "PK" = bytes := Option.some.inj (Option.some.inj isStored)
    intro files isFiles file member
    obtain rfl := Option.some.inj isFiles
    obtain rfl := Option.some.inj (List.mem_singleton.mp member)
    exact ⟨isGiven, fun field isField => by contradiction⟩
  have stays := contained _ _ _ _ givesOnly
  have extracted : (extractZipFile (root.map .name) ⟨name, utf8 "x", true⟩).StaysIn
      (Inside (emptyRoot root) (root.map .name)) (emptyRoot root) :=
    stays.first.first.first
  have isInside := fun place => (inside_iff tidy place).mp
  have atRoot : arrive [] (root.map .name) = root := by rw [arrive_names, List.nil_append]
  rw [← arrive_join _ _ root atRoot] at outside
  unfold extractZipFile at extracted
  by_cases isDir : name.getLast? = some slash
  · rw [if_pos isDir] at extracted
    exact createDirAll_escapes outside isInside extracted
  · rw [if_neg isDir] at extracted
    obtain ⟨front, last, isPath⟩ := creates.resolve_left isDir
    obtain ⟨dir, isJoin⟩ : ∃ dir, join (root.map .name) (toTarget name) = dir ++ [.name last] := by
      unfold join
      split
      · exact ⟨front, isPath⟩
      · exact ⟨root.map .name ++ front, by rw [isPath, List.append_assoc]⟩
    simp only [isJoin, arrive_append, arrive] at outside extracted
    exact create_escapes outside isInside extracted

/-- The place that a package is restored to. -/
def packagePlace (root : List Bytes) (package : Bytes) : Place Bytes :=
  arrive ((toTarget package).start (modulesPlace root)) (toTarget package).pieces

theorem tar_escapes {given : Names} {root : List Bytes} {package : Bytes} {path : Path}
    {rel : Target Bytes} (isGiven : given.tar package path) (isRel : stripPackage path = some rel)
    (outside : Outside root (arrive (rel.start (packagePlace root package)) rel.pieces)) :
    ¬ Contained given root := by
  intro contained
  have tidy := emptyRoot_tidy given (tgzOf path) root
  have givesOnly : GivesOnly given (tgzOf path) (stored []) root [lockedPackage package]
      (emptyRoot root) := by
    refine ⟨tidy, ?_, fun _ => List.Subset.refl _⟩
    intro locked isLocked bytes isStored
    obtain rfl := List.mem_singleton.mp isLocked
    obtain rfl : [] = bytes := Option.some.inj (Option.some.inj isStored)
    intro item member
    obtain rfl := Option.some.inj (List.mem_singleton.mp member)
    exact ⟨isGiven, fun _ => trivial⟩
  have stays := contained _ _ _ _ givesOnly
  have extracted : (extractTarEntry (tgzOf path)
      (join (nodeModules (root.map .name)) (toTarget package)) ⟨path, true, ()⟩).StaysIn
        (Inside (emptyRoot root) (root.map .name)) (emptyRoot root) :=
    stays.first.first.first
  simp only [extractTarEntry, isRel, ↓reduceIte] at extracted
  have atModules : arrive [] (nodeModules (root.map .name)) = modulesPlace root := by
    rw [nodeModules, arrive_append, arrive_names, List.nil_append]
    rfl
  rw [packagePlace, ← arrive_join _ _ _ atModules, ← arrive_join _ _ _ rfl] at outside
  exact createDirAll_escapes outside (fun place => (inside_iff tidy place).mp) extracted

/-! A workspace with one package, its `package.json` and the directories on some paths. -/

def jsonName : Bytes := utf8 "package.json"

def packageDir (root : List Bytes) : Place Bytes := modulesPlace root ++ [utf8 "p"]

def binPlace (root : List Bytes) : Place Bytes := modulesPlace root ++ [binDirName]

def basesOf (root : List Bytes) (file : Bytes) (places : List (Place Bytes)) :
    List (Place Bytes) :=
  (packageDir root ++ [file]) :: binPlace root :: places

def packageTree (root : List Bytes) (file : Bytes) (places : List (Place Bytes)) : DiskTree :=
  (Tree.directories ((basesOf root file places).flatMap List.inits)).put
    (packageDir root ++ [jsonName]) (some (.file []))

section

variable (root : List Bytes) (file : Bytes) (places : List (Place Bytes))

theorem nodeAt_json :
    (packageTree root file places).nodeAt (packageDir root ++ [jsonName]) = some (.file []) := by
  simp [packageTree, Tree.nodeAt_put]

variable {root} {file} {places}

theorem nodeAt_base (base : Place Bytes) {place : Place Bytes} (isBase : base ∈ basesOf root file places)
    (within : place <+: base) (different : place ≠ packageDir root ++ [jsonName]) :
    (packageTree root file places).nodeAt place = some .directory := by
  rw [packageTree, Tree.nodeAt_put_ne _ different, Tree.nodeAt_directories, if_pos]
  exact .inr (List.mem_flatMap.mpr ⟨base, isBase, (List.mem_inits _ _).mpr within⟩)

theorem node_cases {place : Place Bytes} {node : Posix.Node Bytes Bytes}
    (isNode : (packageTree root file places).nodeAt place = some node) :
    (place = packageDir root ++ [jsonName] ∧ node = .file []) ∨
      (place ≠ packageDir root ++ [jsonName] ∧ node = .directory ∧
        ∃ base ∈ basesOf root file places, place <+: base) := by
  by_cases isJson : place = packageDir root ++ [jsonName]
  · subst isJson
    rw [nodeAt_json] at isNode
    exact .inl ⟨rfl, (Option.some.inj isNode).symm⟩
  · rw [packageTree, Tree.nodeAt_put_ne _ isJson, Tree.nodeAt_directories] at isNode
    obtain ⟨listed, isDir⟩ := Option.ite_none_right_eq_some.mp isNode
    refine .inr ⟨isJson, (Option.some.inj isDir).symm, ?_⟩
    rcases listed with rfl | member
    · exact ⟨binPlace root, by simp [basesOf], List.nil_prefix⟩
    · obtain ⟨base, isBase, within⟩ := List.mem_flatMap.mp member
      exact ⟨base, isBase, (List.mem_inits _ _).mp within⟩

theorem base_within {names : List Bytes} {base : Place Bytes}
    (away : ∀ place ∈ places, ¬ modulesPlace root <+: place)
    (isBase : base ∈ basesOf root file places) (within : modulesPlace root ++ names <+: base) :
    names <+: [utf8 "p", file] ∨ names <+: [binDirName] := by
  rcases List.mem_cons.mp isBase with rfl | isBase
  · rw [packageDir, List.append_assoc] at within
    exact .inl ((List.prefix_append_right_inj _).mp within)
  · rcases List.mem_cons.mp isBase with rfl | isPlace
    · exact .inr ((List.prefix_append_right_inj _).mp within)
    · exact absurd ((List.prefix_append _ _).trans within) (away base isPlace)

theorem packageTree_closed (file : Bytes) (away : ∀ place ∈ places, ¬ modulesPlace root <+: place) :
    (packageTree root file places).Closed := by
  intro place atPlace
  obtain ⟨node, isNode, isDir⟩ := (Option.any_eq_true _ _).mp atPlace
  rcases node_cases isNode with ⟨_, rfl⟩ | ⟨_, _, base, isBase, within⟩
  · contradiction
  · have above : place.dropLast ≠ packageDir root ++ [jsonName] := by
      intro isJson
      have filled : place ≠ [] := by
        rintro rfl
        simp [packageDir] at isJson
      rw [← List.dropLast_append_getLast filled, isJson, packageDir] at within
      simp only [List.append_assoc] at within
      rcases base_within away isBase within with short | short
      · simpa using short.length_le
      · simpa using short.length_le
    have isDirectory := nodeAt_base base isBase ((List.dropLast_prefix place).trans within) above
    simp [Tree.isDirectory, isDirectory, Posix.Node.isDirectory]

theorem packageTree_tidy {ε : Type} {given : Names} {around : Surroundings ε}
    (away : ∀ place ∈ places, ¬ modulesPlace root <+: place) (plain : PlainName file)
    (kept : given.Content around []) :
    Tidy given around root (packageTree root file places) := by
  have plainParts : ∀ name ∈ [utf8 "p", file], PlainName name := by
    have plainPackage : PlainName (utf8 "p") := ⟨by decide, by decide, by decide⟩
    simp [plainPackage, plain]
  have plainJson : PlainName jsonName := ⟨by decide, by decide, by decide⟩
  constructor
  case rooted =>
    intro passed within
    refine nodeAt_base (binPlace root) (by simp [basesOf]) ?_ ?_
    · exact within.trans ((List.prefix_append _ _).trans (List.prefix_append _ _))
    · rintro rfl
      have length := within.length_le
      simp only [packageDir, modulesPlace, List.length_append, List.length_singleton] at length
      omega
  case links =>
    intro names target isLink
    rcases node_cases isLink with ⟨_, isFile⟩ | ⟨_, isDir, _⟩ <;> contradiction
  case names =>
    intro names isOccupied name member
    obtain ⟨node, isNode⟩ := Option.isSome_iff_exists.mp isOccupied
    rcases node_cases isNode with ⟨isJson, _⟩ | ⟨_, _, base, isBase, within⟩
    · rw [packageDir, List.append_assoc] at isJson
      obtain rfl := List.append_cancel_left isJson
      rcases List.mem_cons.mp member with rfl | member
      · exact plainParts _ List.mem_cons_self
      · exact List.mem_singleton.mp member ▸ plainJson
    · rcases base_within away isBase within with inPackage | inBin
      · exact plainParts name (inPackage.subset member)
      · exact List.mem_singleton.mp (inBin.subset member) ▸ binDirName_plain
  case contents =>
    intro names content isFile
    rcases node_cases isFile with ⟨_, isContent⟩ | ⟨_, isDir, _⟩
    · exact Posix.Node.file.inj isContent ▸ kept
    · contradiction

theorem packageTree_isDirectory (base : Place Bytes) {place : Place Bytes}
    (isBase : base ∈ basesOf root file places) (within : place <+: base)
    (different : place ≠ packageDir root ++ [jsonName]) :
    (packageTree root file places).isDirectory place = true := by
  simp [Tree.isDirectory, nodeAt_base base isBase within different, Posix.Node.isDirectory]

theorem places_directories (file : Bytes)
    (away : ∀ place ∈ places, ¬ modulesPlace root <+: place) :
    ∀ place ∈ places, (packageTree root file places).isDirectory place = true := by
  intro place member
  refine packageTree_isDirectory place ?_ List.prefix_rfl ?_
  · exact List.mem_cons_of_mem _ (List.mem_cons_of_mem _ member)
  · rintro rfl
    refine away _ member ?_
    rw [packageDir, List.append_assoc]
    exact List.prefix_append _ _

end

theorem nodeModules_names (root : List Bytes) :
    nodeModules (root.map .name) = (modulesPlace root).map .name := by
  simp [nodeModules, modulesPlace]

theorem paved_names {tree : DiskTree} {names : Place Bytes}
    (directories : ∀ place, place <+: names → tree.isDirectory place = true) :
    tree.Paved (names.map .name) :=
  fun place member => directories place (by simpa using landings_names member)

theorem paved_join {tree : DiskTree} {names : Place Bytes} {target : Target Bytes}
    (directories : ∀ place, place <+: names → tree.isDirectory place = true)
    (own : ∀ place ∈ landings (target.start names) target.pieces,
      tree.isDirectory place = true) :
    tree.Paved (join (names.map .name) target) := by
  unfold join
  unfold Target.start at own
  split
  next isAbsolute =>
    rw [if_pos isAbsolute] at own
    exact own
  next isRelative =>
    rw [if_neg isRelative] at own
    intro place member
    rw [landings_append, arrive_names, List.nil_append, List.mem_append] at member
    exact member.elim (paved_names directories place) (own place)

theorem makeMissing_paved {tree : DiskTree} (closed : tree.Closed) {made rest : DiskPath}
    (paved : tree.Paved (made ++ rest)) : (makeMissing made rest).run tree = ⟨some (), tree, []⟩ := by
  induction rest generalizing made with
  | nil => rfl
  | cons piece rest ih =>
      rw [List.append_cons] at paved
      have first : tree.Paved (made ++ [piece]) := fun place member =>
        paved place (by rw [landings_append]; exact List.mem_append_left _ member)
      rw [makeMissing_found closed first]
      exact ih paved

/-- A `package.json` with one bin, in the only package. -/
def binOf (field : BinField) : Surroundings Unit :=
  { zipOf [] with
    bin := fun _ => some field
    listed := fun names => (names.find? fun name => name = utf8 "p").toList }

section

variable {root : List Bytes} (file : Bytes) {places : List (Place Bytes)}

theorem lookup_names (away : ∀ place ∈ places, ¬ modulesPlace root <+: place) {names : Place Bytes}
    (directories : ∀ place, place <+: names →
      (packageTree root file places).isDirectory place = true) :
    (packageTree root file places).lookup (names.map .name) = some names := by
  rw [Tree.lookup_paved (packageTree_closed file away) (paved_names directories), arrive_names]
  rfl

variable (root) (places)

theorem packageDir_directories (place : Place Bytes) (within : place <+: packageDir root) :
    (packageTree root file places).isDirectory place = true := by
  refine packageTree_isDirectory (packageDir root ++ [file]) (by simp [basesOf]) ?_ ?_
  · exact within.trans (List.prefix_append _ _)
  · rintro rfl
    have length := within.length_le
    simp only [List.length_append, List.length_singleton] at length
    omega

theorem binPlace_directories (place : Place Bytes) (within : place <+: binPlace root) :
    (packageTree root file places).isDirectory place = true := by
  refine packageTree_isDirectory (binPlace root) (by simp [basesOf]) within ?_
  rintro rfl
  have length := within.length_le
  simp only [binPlace, packageDir, List.length_append, List.length_singleton] at length
  omega

variable {root} {places}

theorem packageTree_listed (away : ∀ place ∈ places, ¬ modulesPlace root <+: place) :
    ∃ names, (packageTree root file places).readDir (nodeModules (root.map .name)) = some names ∧
      utf8 "p" ∈ names := by
  have modules := fun place within =>
    packageDir_directories root file places place
      (List.IsPrefix.trans within (List.prefix_append _ _))
  have found := lookup_names file away modules
  rw [← nodeModules_names] at found
  refine ⟨(packageTree root file places).namesIn (modulesPlace root), ?_, ?_⟩
  · simp [Tree.readDir, found, modules _ List.prefix_rfl]
  · apply Tree.mem_namesIn_of_listed
    · have listed : packageDir root ∈ (basesOf root file places).flatMap List.inits :=
        List.mem_flatMap.mpr ⟨packageDir root ++ [file], List.mem_cons_self,
          (List.mem_inits _ _).mpr (List.prefix_append _ _)⟩
      have isListed : packageDir root ∈ (packageTree root file places).map Prod.fst := by
        refine List.mem_cons_of_mem _ ?_
        rw [Tree.directories, List.map_map]
        exact List.mem_map.mpr ⟨packageDir root, listed, rfl⟩
      exact isListed
    · have isDir := packageDir_directories root file places _ List.prefix_rfl
      obtain ⟨node, isNode, _⟩ := (Option.any_eq_true _ _).mp isDir
      rw [← packageDir, Tree.occupied, isNode]
      rfl

theorem read_json (away : ∀ place ∈ places, ¬ modulesPlace root <+: place) :
    (packageTree root file places).read
      ((packageDir root).map .name ++ [.name (utf8 "package.json")]) = some [] := by
  have paved := paved_names (packageDir_directories root file places)
  have isJson := nodeAt_json root file places
  have located := Tree.locate_snoc (packageTree_closed file away) paved jsonName (by
    rw [arrive_names, List.nil_append, isJson]
    simp)
  rw [arrive_names, List.nil_append] at located
  have isOccupied : (packageTree root file places).occupied (packageDir root ++ [jsonName]) =
      true := by
    simp [Tree.occupied, isJson]
  have found : (packageTree root file places).lookup
      ((packageDir root).map .name ++ [.name (utf8 "package.json")]) =
        some (packageDir root ++ [jsonName]) := by
    rw [Tree.lookup, ← jsonName, located]
    simp [isOccupied]
  simp [Tree.read, found, isJson]

theorem createBinLinks_comes {field : BinField} {inside : Place Bytes → Prop} {bin : Bytes × Bytes}
    (away : ∀ place ∈ places, ¬ modulesPlace root <+: place)
    (isBins : field.bins (utf8 "p") = [bin])
    (stays : (createBinLinks (binOf field) (root.map .name)).StaysIn inside
      (packageTree root file places)) :
    (createOneBinLink (binOf field) ((binPlace root).map .name) bin.1
      ((packageDir root).map .name) bin.2).StaysIn inside (packageTree root file places) := by
  have isBin : nodeModules (root.map .name) ++ [.name (utf8 ".bin")] =
      (binPlace root).map .name := by
    simp [nodeModules_names, binPlace, binDirName]
  have isPackage : nodeModules (root.map .name) ++ [.name (utf8 "p")] =
      (packageDir root).map .name := by
    simp [nodeModules_names, packageDir]
  have closed := packageTree_closed file away
  unfold createBinLinks at stays
  rw [isBin] at stays
  have made : (createDirAll ((binPlace root).map .name)).run (packageTree root file places) =
      ⟨some (), packageTree root file places, []⟩ :=
    makeMissing_paved closed (paved_names (binPlace_directories root file places))
  have linked := stays.next (congrArg Program.Result.value made)
  rw [made] at linked
  obtain ⟨names, isNames, member⟩ := packageTree_listed file away
  have isListed : (binOf field).listed names = [utf8 "p"] := by
    have isFound : (names.find? fun name => name = utf8 "p").isSome = true :=
      List.find?_isSome.mpr ⟨utf8 "p", member, by simp⟩
    obtain ⟨name, isName⟩ := Option.isSome_iff_exists.mp isFound
    have isPackage := List.find?_some isName
    simp only [decide_eq_true_eq] at isPackage
    simp [binOf, isName, isPackage]
  have each : (createForEach (binOf field) (nodeModules (root.map .name))
      ((binPlace root).map .name) [utf8 "p"]).StaysIn inside (packageTree root file places) := by
    simpa only [Program.StaysIn, Program.run, isNames, isListed] using linked
  have forEntry := each.first
  have isName : toStringLossy (utf8 "p") = utf8 "p" := by decide
  have notHidden : isPrefix (utf8 ".") (utf8 "p") = false := by decide
  have notScope : isPrefix (utf8 "@") (utf8 "p") = false := by decide
  simp only [createForEntry, isName, notHidden, notScope, Bool.false_eq_true, ↓reduceIte,
    isPackage] at forEntry
  have isDir : (packageTree root file places).isDir ((packageDir root).map .name) = true :=
    isDir_paved closed (paved_names (packageDir_directories root file places))
  have isField : ((packageTree root file places).read
      ((packageDir root).map .name ++ [.name (utf8 "package.json")])).bind (binOf field).bin =
        some field := by
    rw [read_json file away]
    rfl
  have bins : (createBins (binOf field) ((packageDir root).map .name) ((binPlace root).map .name)
      [bin]).StaysIn inside (packageTree root file places) := by
    simpa only [createBinLinksForPackage, Program.StaysIn, Program.run, isDir, ↓reduceIte, isField,
      isBins] using forEntry
  exact bins.first

theorem contained_comes {given : Names} {bin : Bytes × Bytes}
    (away : ∀ place ∈ places, ¬ modulesPlace root <+: place) (plain : PlainName file)
    (field : BinField) (isField : given.Field field) (isBins : field.bins (utf8 "p") = [bin])
    (contained : Contained given root) :
    (createOneBinLink (binOf field) ((binPlace root).map .name) bin.1
      ((packageDir root).map .name) bin.2).StaysIn (modulesPlace root <+: ·)
        (packageTree root file places) := by
  have kept : given.Content (binOf field) [] :=
    fun listed isListed => Option.some.inj isListed ▸ isField
  have tidy := packageTree_tidy away plain kept
  have givesOnly : GivesOnly given (binOf field) (stored []) root []
      (packageTree root file places) := by
    refine ⟨tidy, by simp, fun names name member => ?_⟩
    exact List.mem_of_find?_eq_some (Option.mem_toList.mp member)
  have stays := contained _ _ _ _ givesOnly
  have linked : (createBinLinks (binOf field) (root.map .name)).StaysIn
      (Inside (packageTree root file places) (root.map .name)) (packageTree root file places) :=
    stays
  exact fun place touched =>
    (inside_iff tidy place).mp (createBinLinks_comes file away isBins linked place touched)

end

theorem not_linked {root : List Bytes} (file : Bytes) {places : List (Place Bytes)}
    (away : ∀ place ∈ places, ¬ modulesPlace root <+: place) :
    (packageTree root file places).nodeAt (binPlace root ++ [utf8 "p"]) = none := by
  have notPackage : utf8 "p" ≠ binDirName := by decide
  by_contra linked
  obtain ⟨node, isNode⟩ := Option.ne_none_iff_exists'.mp linked
  rcases node_cases isNode with ⟨isJson, _⟩ | ⟨_, _, base, isBase, within⟩
  · simp only [binPlace, packageDir, List.append_assoc] at isJson
    have same := List.append_cancel_left isJson
    exact notPackage (List.cons.inj same).1.symm
  · rw [binPlace, List.append_assoc] at within
    rcases base_within away isBase within with inPackage | inBin
    · exact notPackage (List.cons_prefix_cons.mp inPackage).1.symm
    · simpa using inBin.length_le

theorem isDirectory_link {tree : DiskTree} {link : Place Bytes} (free : tree.nodeAt link = none)
    (target : Target Bytes) :
    (tree.put link (some (.symlink target))).isDirectory = tree.isDirectory := by
  funext place
  by_cases here : place = link
  · subst here
    have filled : place ≠ [] := by
      rintro rfl
      simp [Tree.nodeAt] at free
    simp [Tree.isDirectory, Tree.nodeAt_put, free, filled, Posix.Node.isDirectory]
  · simp [Tree.isDirectory, Tree.nodeAt_put_ne _ here]

/-- A link is made where nothing is, and then the mode of the target is set. -/
theorem createOneBinLink_touches {around : Surroundings Unit} {tree : DiskTree}
    {inside : Place Bytes → Prop} {binDir pkgDir front : DiskPath} {binName relPath last : Bytes}
    (closed : tree.Closed) (isLink : join binDir (toTarget binName) = front ++ [.name last])
    (paved : tree.Paved front) (free : tree.nodeAt (arrive [] front ++ [last]) = none)
    (found : (tree.lookup (join pkgDir (toTarget relPath))).isSome = true)
    (stays : (createOneBinLink around binDir binName pkgDir relPath).StaysIn inside tree) :
    inside (arrive [] front ++ [last]) ∧
      ∃ target, (attempt (.chmod (join pkgDir (toTarget relPath)))).StaysIn inside
        (tree.put (arrive [] front ++ [last]) (some (.symlink target))) := by
  have notThere : tree.occupied (arrive [] front ++ [last]) = false := by simp [Tree.occupied, free]
  have fails : (Call.remove (front ++ [.name last]) : Call Bytes Bytes).touches tree = none := by
    simp [Call.touches, Call.leads, Tree.entry_snoc closed paved, Call.succeeds, notThere]
  have touched : ∀ target, (Call.symlink target (front ++ [.name last]) :
      Call Bytes Bytes).touches tree = some (arrive [] front ++ [last]) := by
    simp [Call.touches, Call.leads, Tree.entry_snoc closed paved, Call.succeeds, notThere]
  simp only [createOneBinLink, Program.StaysIn, Program.run, found, ↓reduceIte, isLink] at stays
  have later := Program.StaysIn.later stays
  rw [run_attempt_fails fails] at later
  have isMade := later.first.touches (touched _)
  have next := later.next (congrArg Program.Result.value (run_attempt (touched _)))
  rw [run_attempt (touched _)] at next
  exact ⟨isMade, _, next.first⟩

theorem binTarget_escapes {given : Names} {root : List Bytes} {relPath : Bytes}
    (isGiven : given.binTarget relPath)
    (away : ∀ place ∈ landings ((toTarget relPath).start (packageDir root))
      (toTarget relPath).pieces, ¬ modulesPlace root <+: place)
    (out : ¬ modulesPlace root <+:
      arrive ((toTarget relPath).start (packageDir root)) (toTarget relPath).pieces) :
    ¬ Contained given root := by
  intro contained
  have plainJson : PlainName jsonName := ⟨by decide, by decide, by decide⟩
  have isBins : (BinField.single relPath).bins (utf8 "p") = [(utf8 "p", relPath)] := by
    have isLast : ((utf8 "p").splitOn slash).getLast? = some (utf8 "p") := by decide
    simp [BinField.bins, isLast]
  have stays := contained_comes jsonName away plainJson (.single relPath) isGiven isBins contained
  have closed := packageTree_closed jsonName away
  have paved : (packageTree root jsonName (landings ((toTarget relPath).start (packageDir root))
      (toTarget relPath).pieces)).Paved
        (join ((packageDir root).map .name) (toTarget relPath)) := by
    exact paved_join (packageDir_directories root _ _) (places_directories jsonName away)
  have leads : arrive [] (join ((packageDir root).map .name) (toTarget relPath)) =
      arrive ((toTarget relPath).start (packageDir root)) (toTarget relPath).pieces :=
    arrive_join _ _ _ (by rw [arrive_names, List.nil_append])
  have isLink : join ((binPlace root).map .name) (toTarget (utf8 "p")) =
      (binPlace root).map .name ++ [.name (utf8 "p")] := by
    have isTarget : toTarget (utf8 "p") = ⟨false, [.name (utf8 "p")]⟩ := by decide
    simp [join, isTarget]
  have free := not_linked jsonName away
  obtain ⟨_, target, modeSet⟩ := createOneBinLink_touches closed isLink
    (paved_names (binPlace_directories root _ _)) (by rwa [arrive_names, List.nil_append])
    (by simp [Tree.lookup_paved closed paved]) stays
  rw [arrive_names, List.nil_append] at modeSet
  have sameDirs := isDirectory_link free target
  rw [Tree.Closed, ← sameDirs] at closed
  rw [Tree.Paved, ← sameDirs] at paved
  have found := Tree.lookup_paved closed paved
  refine out (leads ▸ modeSet.touches ?_)
  simp [Call.touches, Call.leads, found, Call.succeeds]

theorem Outside.not_above {root : List Bytes} {place : Place Bytes} (outside : Outside root place)
    (names : List Bytes) : ¬ place <+: modulesPlace root ++ names := by
  intro within
  rcases List.prefix_or_prefix_of_prefix within (List.prefix_append _ _) with above | below
  · rcases List.prefix_concat_iff.mp above with rfl | inRoot
    · exact outside.1 List.prefix_rfl
    · exact outside.2 inRoot
  · exact outside.1 below

theorem nodeAt_outside {root : List Bytes} (file : Bytes) {places : List (Place Bytes)}
    {place : Place Bytes} (outside : Outside root place) (fresh : ∀ other ∈ places, ¬ place <+: other) :
    (packageTree root file places).nodeAt place = none := by
  by_contra isThere
  obtain ⟨node, isNode⟩ := Option.ne_none_iff_exists'.mp isThere
  rcases node_cases isNode with ⟨rfl, _⟩ | ⟨_, _, base, isBase, within⟩
  · refine outside.1 ?_
    rw [packageDir, List.append_assoc]
    exact List.prefix_append _ _
  · rcases List.mem_cons.mp isBase with rfl | isBase
    · rw [packageDir, List.append_assoc] at within
      exact outside.not_above _ within
    · rcases List.mem_cons.mp isBase with rfl | isPlace
      · exact outside.not_above _ within
      · exact fresh base isPlace within

theorem found_file {root : List Bytes} {file : Bytes} {places : List (Place Bytes)}
    (away : ∀ place ∈ places, ¬ modulesPlace root <+: place) (plain : PlainName file) :
    ((packageTree root file places).lookup
      (join ((packageDir root).map .name) (toTarget file))).isSome = true := by
  have isFile : (packageTree root file places).occupied (packageDir root ++ [file]) = true := by
    by_cases isJson : file = jsonName
    · subst isJson
      simp [Tree.occupied, nodeAt_json]
    · have different : packageDir root ++ [file] ≠ packageDir root ++ [jsonName] := by
        simpa using isJson
      simp [Tree.occupied, nodeAt_base _ List.mem_cons_self List.prefix_rfl different]
  have noLink : ∀ target, (packageTree root file places).nodeAt (packageDir root ++ [file]) ≠
      some (.symlink target) := by
    intro target isLink
    rcases node_cases isLink with ⟨_, isFile⟩ | ⟨_, isDir, _⟩ <;> contradiction
  have located := Tree.locate_snoc (packageTree_closed file away)
    (paved_names (packageDir_directories root file places)) file
    (by rwa [arrive_names, List.nil_append])
  rw [arrive_names, List.nil_append] at located
  simp [plain.single, join, Tree.lookup, located, isFile]

theorem binName_escapes {given : Names} {root : List Bytes} {binName file last : Bytes}
    {front : List (Piece Bytes)} (isGiven : given.binName binName)
    (usable : given.binTarget file) (plain : PlainName file)
    (isPath : (toTarget binName).pieces = front ++ [.name last])
    (away : ∀ place ∈ landings ((toTarget binName).start (binPlace root)) front,
      ¬ modulesPlace root <+: place)
    (fresh : ∀ place ∈ landings ((toTarget binName).start (binPlace root)) front,
      ¬ arrive ((toTarget binName).start (binPlace root)) front ++ [last] <+: place)
    (outside : Outside root
      (arrive ((toTarget binName).start (binPlace root)) front ++ [last])) :
    ¬ Contained given root := by
  intro contained
  have isField : given.Field (.many [(binName, some file)]) := by
    intro name relPath member
    obtain ⟨rfl, same⟩ := Prod.mk.inj (List.mem_singleton.mp member)
    obtain rfl := Option.some.inj same
    exact ⟨isGiven, usable⟩
  have stays := contained_comes file away plain _ isField rfl contained
  have closed := packageTree_closed file away
  have isLink : join ((binPlace root).map .name) (toTarget binName) =
      join ((binPlace root).map .name) ⟨(toTarget binName).absolute, front⟩ ++ [.name last] := by
    unfold join
    rw [isPath]
    split
    · rfl
    · rw [List.append_assoc]
  have paved : (packageTree root file (landings ((toTarget binName).start (binPlace root))
      front)).Paved (join ((binPlace root).map .name) ⟨(toTarget binName).absolute, front⟩) := by
    exact paved_join (binPlace_directories root _ _) (places_directories file away)
  have leads : arrive [] (join ((binPlace root).map .name)
      ⟨(toTarget binName).absolute, front⟩) =
        arrive ((toTarget binName).start (binPlace root)) front :=
    arrive_join _ _ _ (by rw [arrive_names, List.nil_append])
  have free : (packageTree root file (landings ((toTarget binName).start (binPlace root))
      front)).nodeAt (arrive ((toTarget binName).start (binPlace root)) front ++ [last]) = none :=
    nodeAt_outside file outside fresh
  have found : ((packageTree root file (landings ((toTarget binName).start (binPlace root))
      front)).lookup (join ((packageDir root).map .name) (toTarget file))).isSome = true :=
    found_file away plain
  obtain ⟨touched, _⟩ := createOneBinLink_touches closed isLink paved (leads ▸ free) found stays
  rw [leads] at touched
  exact outside.1 touched

/-! Names that keep every restore inside, and names that do not. -/

structure Names.Plain (given : Names) : Prop where
  zip : ∀ name, given.zip name → plainNames.zip name
  tar : ∀ package path, given.tar package path → plainNames.tar package path
  binName : ∀ name, given.binName name → plainNames.binName name
  binTarget : ∀ relPath, given.binTarget relPath → plainNames.binTarget relPath

/-- A zip entry or a directory of a tar archive is created outside, a bin link is made outside, or
a bin target lies outside.  A `bin` field does so at once: its path does not enter `node_modules`
again.  A file is created where the last name of its path says. -/
inductive Names.LeadsOut (given : Names) (root : List Bytes) : Prop
  | zip (name : Bytes) (isGiven : given.zip name)
      (creates : name.getLast? = some slash ∨ EndsInName (toTarget name).pieces)
      (outside : Outside root (arrive ((toTarget name).start root) (toTarget name).pieces))
  | tar (package : Bytes) (path : Path) (rel : Target Bytes) (isGiven : given.tar package path)
      (isRel : stripPackage path = some rel)
      (outside : Outside root (arrive (rel.start (packagePlace root package)) rel.pieces))
  | binName (binName file last : Bytes) (front : List (Piece Bytes))
      (isGiven : given.binName binName) (usable : given.binTarget file) (plain : PlainName file)
      (isPath : (toTarget binName).pieces = front ++ [.name last])
      (away : ∀ place ∈ landings ((toTarget binName).start (binPlace root)) front,
        ¬ modulesPlace root <+: place)
      (fresh : ∀ place ∈ landings ((toTarget binName).start (binPlace root)) front,
        ¬ arrive ((toTarget binName).start (binPlace root)) front ++ [last] <+: place)
      (outside : Outside root
        (arrive ((toTarget binName).start (binPlace root)) front ++ [last]))
  | binTarget (relPath : Bytes) (isGiven : given.binTarget relPath)
      (away : ∀ place ∈ landings ((toTarget relPath).start (packageDir root))
        (toTarget relPath).pieces, ¬ modulesPlace root <+: place)
      (outside : ¬ modulesPlace root <+:
        arrive ((toTarget relPath).start (packageDir root)) (toTarget relPath).pieces)

theorem Names.LeadsOut.escapes {given : Names} {root : List Bytes}
    (leadsOut : given.LeadsOut root) : ¬ Contained given root := by
  cases leadsOut with
  | zip name isGiven creates outside => exact zip_escapes isGiven creates outside
  | tar package path rel isGiven isRel outside => exact tar_escapes isGiven isRel outside
  | binName binName file last front isGiven usable plain isPath away fresh outside =>
      exact binName_escapes isGiven usable plain isPath away fresh outside
  | binTarget relPath isGiven away outside => exact binTarget_escapes isGiven away outside

section

variable {ε : Type} {around : Surroundings ε} {given : Names}

theorem Names.Plain.content (plain : given.Plain) {content : Bytes}
    (kept : given.Content around content) : plainNames.Content around content := by
  intro field isField
  have isGiven := kept field isField
  cases field with
  | single relPath => exact plain.binTarget relPath isGiven
  | many bins =>
      intro name relPath member
      obtain ⟨nameGiven, targetGiven⟩ := isGiven name relPath member
      exact ⟨plain.binName name nameGiven, plain.binTarget relPath targetGiven⟩
  | other => trivial

theorem Names.Plain.unpacksAt (plain : given.Plain) {entry : ε}
    (unpacks : UnpacksAt given around entry) : UnpacksAt plainNames around entry := by
  intro dest
  refine Program.Only.weaken (unpacks dest) (fun _ _ => trivial) ?_
  rintro made (⟨content, rfl, kept⟩ | rfl | rfl)
  · exact .inl ⟨content, rfl, plain.content kept⟩
  · exact .inr (.inl rfl)
  · exact .inr (.inr rfl)

theorem Names.Plain.archive (plain : given.Plain) {package : LockfilePackage} {bytes : Bytes}
    (isArchive : given.Archive around package bytes) : plainNames.Archive around package bytes := by
  unfold Names.Archive at isArchive ⊢
  split
  next isZip =>
    rw [if_pos isZip] at isArchive
    intro files isFiles file member
    obtain ⟨isGiven, kept⟩ := isArchive files isFiles file member
    exact ⟨plain.zip _ isGiven, plain.content kept⟩
  next isTgz =>
    rw [if_neg isTgz] at isArchive
    intro item member
    obtain ⟨isGiven, unpacks⟩ := isArchive item member
    exact ⟨plain.tar _ _ isGiven, plain.unpacksAt unpacks⟩

theorem Names.Plain.contained (plain : given.Plain) (root : List Bytes) : Contained given root := by
  intro ε around store packages tree gives
  have tidy : Tidy plainNames around root tree :=
    { gives.tidy with
      contents := fun names content isFile => plain.content (gives.tidy.contents names content isFile) }
  refine plain_restore_contained ⟨tidy, ?_, gives.listed⟩
  exact fun package member bytes isStored =>
    plain.archive (gives.archives package member bytes isStored)

end

def workspace : List Bytes := [utf8 "w"]

def onlyZip (name : Bytes) : Names :=
  ⟨fun other => other = name, fun _ _ => False, fun _ => False, fun _ => False⟩

theorem index_plain : (onlyZip (utf8 "node_modules/p/index.js")).Plain := by
  constructor
  case zip =>
    rintro _ rfl
    refine ⟨[.name (utf8 "p"), .name (utf8 "index.js")], by decide, ?_, by decide⟩
    intro piece member
    rcases List.mem_cons.mp member with rfl | member
    · exact ⟨by decide, by decide, by decide⟩
    · obtain rfl := List.mem_singleton.mp member
      exact ⟨by decide, by decide, by decide⟩
  all_goals intros; contradiction

theorem evil_leadsOut : (onlyZip (utf8 "../evil")).LeadsOut workspace := by
  refine .zip (utf8 "../evil") rfl (.inr ⟨[.dotdot], utf8 "evil", by decide⟩) ?_
  exact ⟨by decide, by decide⟩

end Rage.Extraction
