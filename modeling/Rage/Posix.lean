import Mathlib.Data.List.Dedup
import Mathlib.Data.List.Infix

/-!
A tree of directories, files and symbolic links, the resolution of paths in it, and programs that
read it and make calls on it.  Each call that succeeds touches one place; what a program does not
touch it leaves as it is.
-/

namespace Rage.Posix

variable {ν γ α β : Type}

inductive Piece (ν : Type)
  | dot
  | dotdot
  | name (name : ν)
  deriving DecidableEq

/-- A path from the root. -/
abbrev AbsPath (ν : Type) := List (Piece ν)

/-- A location: the names from the root, with no link among them. -/
abbrev Place (ν : Type) := List ν

structure Target (ν : Type) where
  absolute : Bool
  pieces : List (Piece ν)
  deriving DecidableEq

inductive Node (ν γ : Type)
  | directory
  | file (content : γ)
  | symlink (target : Target ν)
  deriving DecidableEq

def Node.isDirectory : Node ν γ → Bool
  | .directory => true
  | _ => false

/-- The first entry of a place counts; `none` says that the place is empty. -/
abbrev Tree (ν γ : Type) := List (Place ν × Option (Node ν γ))

namespace Tree

variable [DecidableEq ν]

def nodeAt (tree : Tree ν γ) (place : Place ν) : Option (Node ν γ) :=
  if place = [] then some .directory else (tree.lookup place).join

def occupied (tree : Tree ν γ) (place : Place ν) : Bool := (tree.nodeAt place).isSome

def isDirectory (tree : Tree ν γ) (place : Place ν) : Bool :=
  (tree.nodeAt place).any Node.isDirectory

def put (tree : Tree ν γ) (place : Place ν) (node : Option (Node ν γ)) : Tree ν γ :=
  (place, node) :: tree

def directories (places : List (Place ν)) : Tree ν γ :=
  places.map fun place => (place, some .directory)

def namesIn (tree : Tree ν γ) (place : Place ν) : List ν :=
  (tree.map Prod.fst).dedup.filterMap fun other =>
    if other.dropLast = place ∧ tree.occupied other = true then other.getLast? else none

/-- The walk along a path from a place.  The last name may be missing; what is behind a link is
left to `follow`. -/
def walk (tree : Tree ν γ) (follow : Place ν → List (Piece ν) → Option (Place ν)) :
    Place ν → List (Piece ν) → Option (Place ν)
  | here, [] => some here
  | here, piece :: rest =>
      if tree.isDirectory here then
        match piece with
        | .dot => walk tree follow here rest
        | .dotdot => walk tree follow here.dropLast rest
        | .name name =>
            match tree.nodeAt (here ++ [name]) with
            | none => if rest.isEmpty then some (here ++ [name]) else none
            | some (.symlink target) =>
                follow (if target.absolute then [] else here) (target.pieces ++ rest)
            | some _ => walk tree follow (here ++ [name]) rest
      else none

/-- A path that runs through too many links leads nowhere. -/
def follow (tree : Tree ν γ) : Nat → Place ν → List (Piece ν) → Option (Place ν)
  | 0 => walk tree fun _ _ => none
  | links + 1 => walk tree (follow tree links)

def maxLinks : Nat := 40

/-- Where a path leads; there need not be anything. -/
def locate (tree : Tree ν γ) (path : AbsPath ν) : Option (Place ν) := tree.follow maxLinks [] path

def lookup (tree : Tree ν γ) (path : AbsPath ν) : Option (Place ν) :=
  (tree.locate path).filter tree.occupied

def isDir (tree : Tree ν γ) (path : AbsPath ν) : Bool :=
  (tree.lookup path).any tree.isDirectory

def read (tree : Tree ν γ) (path : AbsPath ν) : Option γ :=
  (tree.lookup path).bind fun place =>
    match tree.nodeAt place with
    | some (.file content) => some content
    | _ => none

def readDir (tree : Tree ν γ) (path : AbsPath ν) : Option (List ν) :=
  (tree.lookup path).bind fun place =>
    if tree.isDirectory place then some (tree.namesIn place) else none

/-- The place that the last name of a path has in its directory, whatever is there. -/
def entry (tree : Tree ν γ) (path : AbsPath ν) : Option (Place ν) :=
  match path.getLast? with
  | some (.name name) =>
      ((tree.lookup path.dropLast).filter tree.isDirectory).map fun place => place ++ [name]
  | _ => none

end Tree

/-- The calls that change a tree.  Only `create` and `chmod` go through a link at the end. -/
inductive Call (ν γ : Type)
  | makeDir (path : AbsPath ν)
  | create (path : AbsPath ν) (content : γ)
  | createNew (path : AbsPath ν) (content : γ)
  | remove (path : AbsPath ν)
  | symlink (target : Target ν) (path : AbsPath ν)
  | hardLink (source path : AbsPath ν)
  | chmod (path : AbsPath ν)
  deriving DecidableEq

namespace Call

variable [DecidableEq ν]

def leads (tree : Tree ν γ) : Call ν γ → Option (Place ν)
  | .makeDir path | .createNew path _ | .remove path | .symlink _ path | .hardLink _ path =>
      tree.entry path
  | .create path _ => tree.locate path
  | .chmod path => tree.lookup path

def succeeds (tree : Tree ν γ) (place : Place ν) : Call ν γ → Bool
  | .makeDir _ | .createNew _ _ | .symlink _ _ => !tree.occupied place
  | .create _ _ => !tree.isDirectory place
  | .remove _ => tree.occupied place && !tree.isDirectory place
  | .hardLink source _ =>
      !tree.occupied place && (tree.entry source).any fun origin =>
        tree.occupied origin && !tree.isDirectory origin
  | .chmod _ => true

/-- The place that a call creates, overwrites, removes or gives another mode. -/
def touches (tree : Tree ν γ) (call : Call ν γ) : Option (Place ν) :=
  (call.leads tree).filter fun place => call.succeeds tree place

def apply (tree : Tree ν γ) (place : Place ν) : Call ν γ → Tree ν γ
  | .makeDir _ => tree.put place (some .directory)
  | .create _ content | .createNew _ content => tree.put place (some (.file content))
  | .remove _ => tree.put place none
  | .symlink target _ => tree.put place (some (.symlink target))
  | .hardLink source _ => tree.put place ((tree.entry source).bind tree.nodeAt)
  | .chmod _ => tree

end Call

/-- A program looks at the tree and makes calls; it is told whether a call succeeded. -/
inductive Program (ν γ α : Type)
  | done (value : α)
  | look (next : Tree ν γ → Program ν γ α)
  | call (made : Call ν γ) (next : Bool → Program ν γ α)

namespace Program

def bind : Program ν γ α → (α → Program ν γ β) → Program ν γ β
  | .done value, next => next value
  | .look looked, next => .look fun tree => (looked tree).bind next
  | .call made called, next => .call made fun result => (called result).bind next

def attempt (made : Call ν γ) : Program ν γ (Option Unit) :=
  .call made fun succeeded => .done (if succeeded then some () else none)

def andThen (first : Program ν γ (Option α)) (next : α → Program ν γ (Option β)) :
    Program ν γ (Option β) :=
  first.bind fun result =>
    match result with
    | some value => next value
    | none => .done none

variable [DecidableEq ν]

structure Result (ν γ α : Type) where
  value : α
  tree : Tree ν γ
  touched : List (Place ν)

def run : Program ν γ α → Tree ν γ → Result ν γ α
  | .done value, tree => ⟨value, tree, []⟩
  | .look next, tree => (next tree).run tree
  | .call made next, tree =>
      match made.touches tree with
      | none => (next false).run tree
      | some place =>
          let later := (next true).run (made.apply tree place)
          { later with touched := place :: later.touched }

/-- Each call leads inside, in the tree in which it is made, or it fails. -/
def Fits (inside : Place ν → Prop) : Program ν γ α → Tree ν γ → Prop
  | .done _, _ => True
  | .look next, tree => (next tree).Fits inside tree
  | .call made next, tree =>
      (∀ place, made.leads tree = some place → made.succeeds tree place = true → inside place) ∧
      match made.touches tree with
      | none => (next false).Fits inside tree
      | some place => (next true).Fits inside (made.apply tree place)

end Program

namespace Program

/-- The calls that a program may make, whatever it sees, as long as an invariant holds. -/
def Only (invariant : Tree ν γ → Prop) (allowed : Call ν γ → Prop) : Program ν γ α → Prop
  | .done _ => True
  | .look next => ∀ tree, invariant tree → (next tree).Only invariant allowed
  | .call made next => allowed made ∧ ∀ result, (next result).Only invariant allowed

variable {invariant : Tree ν γ → Prop} {allowed : Call ν γ → Prop}

theorem Only.bind {first : Program ν γ α} {next : α → Program ν γ β}
    (firstOnly : first.Only invariant allowed)
    (nextOnly : ∀ value, (next value).Only invariant allowed) :
    (first.bind next).Only invariant allowed := by
  induction first with
  | done value => exact nextOnly value
  | look looked ih => exact fun tree holds => ih tree (firstOnly tree holds)
  | call made called ih => exact ⟨firstOnly.1, fun result => ih result (firstOnly.2 result)⟩

theorem Only.andThen {first : Program ν γ (Option α)} {next : α → Program ν γ (Option β)}
    (firstOnly : first.Only invariant allowed)
    (nextOnly : ∀ value, (next value).Only invariant allowed) :
    (first.andThen next).Only invariant allowed := by
  apply firstOnly.bind
  intro result
  cases result with
  | none => trivial
  | some value => exact nextOnly value

theorem Only.weaken {program : Program ν γ α} {stronger : Tree ν γ → Prop}
    {permitted : Call ν γ → Prop} (only : program.Only invariant allowed)
    (implies : ∀ tree, stronger tree → invariant tree)
    (permits : ∀ made, allowed made → permitted made) : program.Only stronger permitted := by
  induction program with
  | done value => trivial
  | look next ih => exact fun tree holds => ih tree (only tree (implies tree holds))
  | call made next ih => exact ⟨permits made only.1, fun result => ih result (only.2 result)⟩

theorem only_attempt {made : Call ν γ} (isAllowed : allowed made) :
    (attempt made).Only invariant allowed :=
  ⟨isAllowed, fun _ => trivial⟩

end Program

def namesOf (pieces : List (Piece ν)) : List ν :=
  pieces.filterMap fun
    | .name name => some name
    | _ => none

theorem namesOf_append (first second : List (Piece ν)) :
    namesOf (first ++ second) = namesOf first ++ namesOf second := List.filterMap_append

theorem namesOf_map (names : List ν) : namesOf (names.map .name) = names := by
  simp [namesOf, List.filterMap_map]

/-- Where a path leads from a place when its names are all those of directories. -/
def arrive : Place ν → List (Piece ν) → Place ν
  | here, [] => here
  | here, .dot :: rest => arrive here rest
  | here, .dotdot :: rest => arrive here.dropLast rest
  | here, .name name :: rest => arrive (here ++ [name]) rest

/-- The places that its names then stand for. -/
def landings : Place ν → List (Piece ν) → List (Place ν)
  | _, [] => []
  | here, .dot :: rest => landings here rest
  | here, .dotdot :: rest => landings here.dropLast rest
  | here, .name name :: rest => (here ++ [name]) :: landings (here ++ [name]) rest

def Target.start (base : Place ν) (target : Target ν) : Place ν :=
  if target.absolute then [] else base

theorem arrive_append (here : Place ν) (first second : List (Piece ν)) :
    arrive here (first ++ second) = arrive (arrive here first) second := by
  induction first generalizing here with
  | nil => rfl
  | cons piece rest ih =>
      cases piece with
      | dot => exact ih here
      | dotdot => exact ih here.dropLast
      | name name => exact ih (here ++ [name])

theorem landings_append (here : Place ν) (first second : List (Piece ν)) :
    landings here (first ++ second) =
      landings here first ++ landings (arrive here first) second := by
  induction first generalizing here with
  | nil => rfl
  | cons piece rest ih =>
      cases piece with
      | dot => exact ih here
      | dotdot => exact ih here.dropLast
      | name name => exact congrArg ((here ++ [name]) :: ·) (ih (here ++ [name]))

theorem arrive_names (here : Place ν) (names : List ν) :
    arrive here (names.map .name) = here ++ names := by
  induction names generalizing here with
  | nil => simp [arrive]
  | cons name rest ih => simp [arrive, ih]

theorem landings_names {here place : Place ν} {names : List ν}
    (member : place ∈ landings here (names.map .name)) : place <+: here ++ names := by
  induction names generalizing here with
  | nil => contradiction
  | cons name rest ih =>
      rw [List.append_cons]
      rcases List.mem_cons.mp member with rfl | later
      · exact List.prefix_append _ _
      · exact ih later

section

variable [DecidableEq ν]

/-! One place at a time: what a call does not touch stays. -/

namespace Tree

variable (tree : Tree ν γ)

theorem nodeAt_put (place other : Place ν) (node : Option (Node ν γ)) :
    (tree.put place node).nodeAt other =
      if other = [] then some .directory else if other = place then node else tree.nodeAt other := by
  by_cases isRoot : other = []
  · simp [nodeAt, isRoot]
  · by_cases here : other = place
    · subst here
      simp [nodeAt, put, isRoot]
    · simp only [nodeAt, put, isRoot, here, ↓reduceIte, List.lookup_cons]
      split
      next same => exact absurd (eq_of_beq same) here
      next => rfl

theorem nodeAt_put_ne {place other : Place ν} (different : other ≠ place)
    (node : Option (Node ν γ)) : (tree.put place node).nodeAt other = tree.nodeAt other := by
  rw [nodeAt_put]
  by_cases isRoot : other = []
  · simp [isRoot, nodeAt]
  · simp [isRoot, different]

theorem nodeAt_directories (places : List (Place ν)) (place : Place ν) :
    (directories places : Tree ν γ).nodeAt place =
      if place = [] ∨ place ∈ places then some .directory else none := by
  by_cases isRoot : place = []
  · simp [nodeAt, isRoot]
  · simp only [nodeAt, isRoot, ↓reduceIte, false_or]
    induction places with
    | nil => rfl
    | cons first rest ih =>
        by_cases here : place = first
        · simp [directories, here]
        · have different : (place == first) = false := by simpa using here
          simpa [directories, List.lookup_cons, different, here] using ih

theorem mem_namesIn {place : Place ν} {name : ν} (member : name ∈ tree.namesIn place) :
    tree.occupied (place ++ [name]) = true := by
  obtain ⟨other, _, listed⟩ := List.mem_filterMap.mp member
  obtain ⟨⟨rfl, isOccupied⟩, isLast⟩ := Option.ite_none_right_eq_some.mp listed
  rw [List.dropLast_append_getLast? name isLast]
  exact isOccupied

theorem mem_namesIn_of_listed {place : Place ν} {name : ν}
    (listed : place ++ [name] ∈ tree.map Prod.fst)
    (isOccupied : tree.occupied (place ++ [name]) = true) : name ∈ tree.namesIn place :=
  List.mem_filterMap.mpr ⟨place ++ [name], List.mem_dedup.mpr listed, by simp [isOccupied]⟩

end Tree

theorem Call.touches_eq_some_iff {tree : Tree ν γ} {call : Call ν γ} {place : Place ν} :
    call.touches tree = some place ↔
      call.leads tree = some place ∧ call.succeeds tree place = true := by
  simp [touches, Option.filter_eq_some_iff]

/-! A path without `..` that meets no link leads to its own names. -/

namespace Tree

variable {tree : Tree ν γ}

theorem walk_straight {follow : Place ν → List (Piece ν) → Option (Place ν)}
    {here place : Place ν} {pieces : List (Piece ν)} (straight : .dotdot ∉ pieces)
    (noLinks : ∀ names, names ≠ [] → names <+: namesOf pieces → ∀ target,
      tree.nodeAt (here ++ names) ≠ some (.symlink target))
    (walked : walk tree follow here pieces = some place) : place = here ++ namesOf pieces := by
  induction pieces generalizing here with
  | nil => simpa [walk, namesOf] using walked.symm
  | cons piece rest ih =>
      simp only [List.mem_cons, not_or] at straight
      simp only [walk] at walked
      obtain ⟨_, walked⟩ := Option.ite_none_right_eq_some.mp walked
      cases piece with
      | dot => exact ih straight.2 noLinks walked
      | dotdot => exact absurd rfl straight.1
      | name name =>
          have isNames : namesOf (.name name :: rest) = name :: namesOf rest := rfl
          rw [isNames] at noLinks ⊢
          simp only at walked
          split at walked
          next =>
            obtain ⟨isLast, isPlace⟩ := Option.ite_none_right_eq_some.mp walked
            rw [List.isEmpty_iff] at isLast
            simp [isLast, namesOf, ← Option.some.inj isPlace]
          next target isLink =>
            exact absurd isLink (noLinks [name] (by simp) (by simp) target)
          next =>
            rw [List.append_cons here name (namesOf rest)]
            refine ih straight.2 ?_ walked
            intro names filled isPrefix target
            have longer := noLinks (name :: names) (by simp) (by simpa using isPrefix) target
            simpa using longer

theorem walk_directories {follow : Place ν → List (Piece ν) → Option (Place ν)}
    {here : Place ν} (names : List ν) (rest : List (Piece ν))
    (directories : ∀ passed, passed <+: names → tree.nodeAt (here ++ passed) = some .directory) :
    walk tree follow here (names.map .name ++ rest) = walk tree follow (here ++ names) rest := by
  induction names generalizing here with
  | nil => simp
  | cons name names ih =>
      have atHere : tree.isDirectory here = true := by
        have isHere : tree.nodeAt here = some .directory := by
          simpa using directories [] List.nil_prefix
        simp [isDirectory, isHere, Node.isDirectory]
      have next : tree.nodeAt (here ++ [name]) = some .directory :=
        directories [name] (by simp)
      rw [List.append_cons here name names, ← ih]
      · simp [walk, atHere, next]
      · intro passed isPrefix
        have later := directories (name :: passed) (by simpa using isPrefix)
        simpa using later

theorem follow_straight {links : Nat} {place : Place ν} {pieces : List (Piece ν)}
    (straight : .dotdot ∉ pieces)
    (noLinks : ∀ names, names ≠ [] → names <+: namesOf pieces → ∀ target,
      tree.nodeAt names ≠ some (.symlink target))
    (walked : tree.follow links [] pieces = some place) : place = namesOf pieces := by
  cases links with
  | zero => exact walk_straight straight noLinks walked
  | succ links => exact walk_straight straight noLinks walked

theorem locate_straight {place : Place ν} {path : AbsPath ν} (straight : .dotdot ∉ path)
    (noLinks : ∀ names, names ≠ [] → names <+: namesOf path → ∀ target,
      tree.nodeAt names ≠ some (.symlink target))
    (located : tree.locate path = some place) : place = namesOf path :=
  follow_straight straight noLinks located

theorem lookup_straight {place : Place ν} {path : AbsPath ν} (straight : .dotdot ∉ path)
    (noLinks : ∀ names, names ≠ [] → names <+: namesOf path → ∀ target,
      tree.nodeAt names ≠ some (.symlink target))
    (found : tree.lookup path = some place) : place = namesOf path :=
  locate_straight straight noLinks (Option.filter_eq_some_iff.mp found).1

/-- Here the last name may be that of a link. -/
theorem entry_straight {place : Place ν} {path : AbsPath ν} (straight : .dotdot ∉ path)
    (noLinks : ∀ names, names ≠ [] → names <+: namesOf path.dropLast → ∀ target,
      tree.nodeAt names ≠ some (.symlink target))
    (isEntry : tree.entry path = some place) : place = namesOf path := by
  unfold entry at isEntry
  split at isEntry
  next name isLast =>
    obtain ⟨dir, isDir, rfl⟩ := Option.map_eq_some_iff.mp isEntry
    have isPath := List.dropLast_append_getLast? (Piece.name name) isLast
    have inside : .dotdot ∉ path.dropLast := fun member => straight (List.mem_of_mem_dropLast member)
    have found := lookup_straight inside noLinks (Option.filter_eq_some_iff.mp isDir).1
    rw [← isPath, found]
    simp [namesOf]
  next => contradiction

/-! A path whose names are all those of directories. -/

def Closed (tree : Tree ν γ) : Prop :=
  ∀ place, tree.isDirectory place = true → tree.isDirectory place.dropLast = true

def Paved (tree : Tree ν γ) (path : AbsPath ν) : Prop :=
  ∀ place ∈ landings [] path, tree.isDirectory place = true

theorem walk_paved (follow : Place ν → List (Piece ν) → Option (Place ν)) {here : Place ν}
    (closed : tree.Closed) (atHere : tree.isDirectory here = true) (pieces rest : List (Piece ν))
    (paved : ∀ place ∈ landings here pieces, tree.isDirectory place = true) :
    walk tree follow here (pieces ++ rest) = walk tree follow (arrive here pieces) rest ∧
      tree.isDirectory (arrive here pieces) = true := by
  induction pieces generalizing here with
  | nil => exact ⟨rfl, atHere⟩
  | cons piece pieces ih =>
      cases piece with
      | dot => simpa [walk, atHere, arrive] using ih atHere paved
      | dotdot => simpa [walk, atHere, arrive] using ih (closed here atHere) paved
      | name name =>
          have next : tree.isDirectory (here ++ [name]) = true := paved _ List.mem_cons_self
          have later := ih next fun place member => paved place (List.mem_cons_of_mem _ member)
          have isNode : tree.nodeAt (here ++ [name]) = some .directory := by
            unfold isDirectory at next
            obtain ⟨node, isNode, isDir⟩ := (Option.any_eq_true _ _).mp next
            cases node with
            | directory => exact isNode
            | file content => contradiction
            | symlink target => contradiction
          simpa [walk, atHere, arrive, isNode] using later

theorem root_isDirectory (tree : Tree ν γ) : tree.isDirectory [] = true := by
  simp [isDirectory, nodeAt, Node.isDirectory]

theorem arrive_isDirectory (closed : tree.Closed) {path : AbsPath ν} (paved : tree.Paved path) :
    tree.isDirectory (arrive [] path) = true :=
  (walk_paved (fun _ _ => none) closed tree.root_isDirectory path [] paved).2

theorem locate_paved (closed : tree.Closed) {path : AbsPath ν} (paved : tree.Paved path)
    (rest : List (Piece ν)) : ∃ links,
      tree.locate (path ++ rest) = walk tree (follow tree links) (arrive [] path) rest :=
  ⟨maxLinks - 1, (walk_paved _ closed tree.root_isDirectory path rest paved).1⟩

theorem lookup_paved (closed : tree.Closed) {path : AbsPath ν} (paved : tree.Paved path) :
    tree.lookup path = some (arrive [] path) := by
  obtain ⟨links, located⟩ := locate_paved closed paved []
  have isDir := arrive_isDirectory closed paved
  have isOccupied : tree.occupied (arrive [] path) = true := by
    obtain ⟨node, isNode, _⟩ := (Option.any_eq_true _ _).mp isDir
    simp [occupied, isNode]
  rw [List.append_nil] at located
  simp [lookup, located, walk, isOccupied]

theorem locate_snoc (closed : tree.Closed) {path : AbsPath ν} (paved : tree.Paved path)
    (name : ν) (noLink : ∀ target, tree.nodeAt (arrive [] path ++ [name]) ≠
      some (.symlink target)) :
    tree.locate (path ++ [.name name]) = some (arrive [] path ++ [name]) := by
  obtain ⟨links, located⟩ := locate_paved closed paved [.name name]
  rw [located]
  simp only [walk, arrive_isDirectory closed paved, ↓reduceIte, List.isEmpty_nil]
  split
  next => rfl
  next target isLink => exact absurd isLink (noLink target)
  next => rfl

theorem entry_snoc (closed : tree.Closed) {path : AbsPath ν} (paved : tree.Paved path)
    (name : ν) : tree.entry (path ++ [.name name]) = some (arrive [] path ++ [name]) := by
  simp [entry, lookup_paved closed paved, arrive_isDirectory closed paved]

end Tree

namespace Program

theorem run_bind (first : Program ν γ α) (next : α → Program ν γ β) (tree : Tree ν γ) :
    (first.bind next).run tree =
      let before := first.run tree
      let after := (next before.value).run before.tree
      ⟨after.value, after.tree, before.touched ++ after.touched⟩ := by
  induction first generalizing tree with
  | done value => rfl
  | look looked ih => exact ih tree tree
  | call made called ih =>
      simp only [bind, run]
      cases made.touches tree with
      | none => exact ih false tree
      | some place =>
          simp only
          rw [ih]
          rfl

def StaysIn (inside : Place ν → Prop) (program : Program ν γ α) (tree : Tree ν γ) : Prop :=
  ∀ place ∈ (program.run tree).touched, inside place

section

variable {inside : Place ν → Prop} {tree : Tree ν γ}

theorem StaysIn.first {first : Program ν γ α} {next : α → Program ν γ β}
    (stays : (first.bind next).StaysIn inside tree) : first.StaysIn inside tree := by
  unfold StaysIn at stays
  rw [run_bind] at stays
  exact (List.forall_mem_append.mp stays).1

theorem StaysIn.later {first : Program ν γ α} {next : α → Program ν γ β}
    (stays : (first.bind next).StaysIn inside tree) :
    (next (first.run tree).value).StaysIn inside (first.run tree).tree := by
  unfold StaysIn at stays
  rw [run_bind] at stays
  exact (List.forall_mem_append.mp stays).2

theorem StaysIn.next {first : Program ν γ (Option α)} {next : α → Program ν γ (Option β)}
    (stays : (first.andThen next).StaysIn inside tree) {value : α}
    (isValue : (first.run tree).value = some value) :
    (next value).StaysIn inside (first.run tree).tree := by
  have later := stays.later
  rwa [isValue] at later

theorem run_attempt {made : Call ν γ} {place : Place ν} (touched : made.touches tree = some place) :
    (attempt made).run tree = ⟨some (), made.apply tree place, [place]⟩ := by
  simp [attempt, run, touched]

theorem run_attempt_fails {made : Call ν γ} (fails : made.touches tree = none) :
    (attempt made).run tree = ⟨none, tree, []⟩ := by
  simp [attempt, run, fails]

theorem StaysIn.touches {made : Call ν γ} (stays : (attempt made).StaysIn inside tree)
    {place : Place ν} (touched : made.touches tree = some place) : inside place := by
  unfold StaysIn at stays
  rw [run_attempt touched] at stays
  exact stays place List.mem_cons_self

end

theorem touched_inside_iff (inside : Place ν → Prop) (program : Program ν γ α) (tree : Tree ν γ) :
    (∀ place ∈ (program.run tree).touched, inside place) ↔ program.Fits inside tree := by
  induction program generalizing tree with
  | done value => simp [run, Fits]
  | look next ih => exact ih tree tree
  | call made next ih =>
      have here : (∀ place, made.leads tree = some place → made.succeeds tree place = true →
          inside place) ↔ ∀ place, made.touches tree = some place → inside place := by
        simp [Call.touches_eq_some_iff]
      simp only [run, Fits, here]
      cases isTouched : made.touches tree with
      | none => simp [ih]
      | some place => simp [ih]

variable {invariant : Tree ν γ → Prop} {allowed : Call ν γ → Prop}

theorem Only.fits {inside : Place ν → Prop} {program : Program ν γ α}
    (only : program.Only invariant allowed)
    (safe : ∀ tree made place, invariant tree → allowed made → made.touches tree = some place →
      inside place ∧ invariant (made.apply tree place))
    {tree : Tree ν γ} (holds : invariant tree) : program.Fits inside tree := by
  induction program generalizing tree with
  | done value => trivial
  | look next ih => exact ih tree (only tree holds) holds
  | call made next ih =>
      obtain ⟨isAllowed, nextOnly⟩ := only
      constructor
      · intro place leads succeeds
        exact (safe tree made place holds isAllowed
          (Call.touches_eq_some_iff.mpr ⟨leads, succeeds⟩)).1
      · cases isTouched : made.touches tree with
        | none => exact ih false (nextOnly false) holds
        | some place =>
            exact ih true (nextOnly true) (safe tree made place holds isAllowed isTouched).2

end Program

end

end Rage.Posix
