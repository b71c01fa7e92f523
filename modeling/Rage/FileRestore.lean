import Mathlib.Data.List.Induction
import Mathlib.Data.List.Infix
import Rage.LockText
import Rage.PackageRoundTrip

/-!
`try_restore_from_cas` on a workspace in any state, with system calls that fail at any point.  It
writes into no file that is there, so a link and a copy of an entry look the same: a new file with
the content and the mode of the entry.
-/

namespace Rage.FileRestore

open Inodes LinkedStore

abbrev Entry := PackageRoundTrip.Entry

/-- `std::fs::copy`: an error before the target is made, or after so many bytes. -/
inductive Copy
  | refused
  | stops (count : Nat)
  | completes
  deriving DecidableEq

/-- What the system answers in one call of `link`. -/
structure Answer (π : Type) where
  makes : π → Bool
  removes : Bool
  links : Bool
  /-- `refused` as well where the error of `hard_link` is none after which `link` copies. -/
  copy : Copy

/-- The entry of a directory that a path leads to when links among its directories are followed,
and what the text of a link at an entry leads to. -/
structure Layout (π : Type) where
  place : Path → π
  leads : π → Bytes → π

abbrev View (π : Type) := π → Option Entry

abbrev Entries := Bytes → Option (Inode Bytes)

section

variable {π : Type} [DecidableEq π]

def resolve (layout : Layout π) (view : View π) : Nat → π → Option π
  | 0, _ => none
  | links + 1, place =>
      match view place with
      | some (.symlink target) => resolve layout view links (layout.leads place target)
      | _ => some place

def entryBehind (layout : Layout π) (view : View π) (place : π) : Option Entry :=
  (resolve layout view maxLinks place).bind view

def isDir (layout : Layout π) (view : View π) (place : π) : Bool :=
  entryBehind layout view place = some .directory

def isFile (layout : Layout π) (view : View π) (place : π) : Bool :=
  match entryBehind layout view place with
  | some (.file _ _) => true
  | _ => false

/-! `LocalArtifactStore::link`. -/

/-- The paths of the directories above a path, from the top. -/
def ancestors (path : Path) : List Path :=
  path.inits.filter fun front => front ≠ [] ∧ (path.drop front.length).head? = some slash

def makeDir (layout : Layout π) (makes : π → Bool) (place : π) (view : View π) :
    Bool × View π :=
  if isDir layout view place then (true, view)
  else if view place = none ∧ makes place then
    (true, Function.update view place (some .directory))
  else (false, view)

def fileOf (entry : Inode Bytes) : Entry := .file entry.content entry.mode

def clear (layout : Layout π) (removes : Bool) (place : π) (view : View π) : View π :=
  if isFile layout view place ∧ removes then Function.update view place none else view

def linkEntry (answer : Answer π) (entry : Inode Bytes) (place : π) (view : View π) :
    Bool × View π :=
  if view place ≠ none then (false, view)
  else if answer.links then (true, Function.update view place (some (fileOf entry)))
  else
    match answer.copy with
    | .refused => (false, view)
    | .stops count =>
        (false, Function.update view place (some (.file (entry.content.take count) entry.mode)))
    | .completes => (true, Function.update view place (some (fileOf entry)))

structure Link (π : Type) where
  hash : Bytes
  target : Path
  answer : Answer π

def Link.place (layout : Layout π) (step : Link π) : π := layout.place step.target

def Link.above (layout : Layout π) (step : Link π) : List π :=
  (ancestors step.target).map layout.place

def link (layout : Layout π) (entries : Entries) (step : Link π) (view : View π) :
    Bool × View π :=
  match entries step.hash with
  | none => (false, view)
  | some entry =>
      let made := tryEach (makeDir layout step.answer.makes) (step.above layout) view
      if made.1 then
        linkEntry step.answer entry (step.place layout)
          (clear layout step.answer.removes (step.place layout) made.2)
      else made

/-! `restore_package` and `try_restore_from_cas`.  The links of a run are counted, as the system may
answer each of them in its own way. -/

variable (layout : Layout π) (entries : Entries) (answers : Nat → Answer π)

def linkNext (packageRoot : Path) (file : Path × Bytes) (state : Nat × View π) :
    Bool × (Nat × View π) :=
  let linked := link layout entries ⟨file.2, packageRoot.join file.1, answers state.1⟩ state.2
  (linked.1, (state.1 + 1, linked.2))

def restorePackage (targetDir : Path) (artifact : PackageArtifact) (state : Nat × View π) :
    Bool × (Nat × View π) :=
  tryEach (linkNext layout entries answers (targetDir.join artifact.name)) artifact.files state

def nodeModules (workspaceRoot : Path) : Path := workspaceRoot.join (utf8 "node_modules")

def containsAll (packages : List PackageArtifact) : Bool :=
  packages.all fun package => package.files.all fun file => (entries file.2).isSome

/-- `none` for an error. -/
def tryRestoreFromCas (dir : Option ArtifactDir) (workspaceRoot : Path) (view : View π) :
    Option Bool × View π :=
  match dir with
  | none => (some false, view)
  | some dir =>
      match readManifests dir with
      | none => (none, view)
      | some packages =>
          if packages.isEmpty then (some false, view)
          else if containsAll entries packages then
            let restored := tryEach (restorePackage layout entries answers
              (nodeModules workspaceRoot)) packages (0, view)
            (if restored.1 then some true else none, restored.2.2)
          else (some false, view)

/-! What should hold after it, whatever it returns. -/

/-- A package that has a json file in the directory.  One that does not parse may still have been
written for a package, which `written` knows. -/
inductive Recorded (written : Bytes → Option PackageArtifact) (dir : ArtifactDir)
    (package : PackageArtifact) : Prop
  | parsed (filename : Bytes) (isManifest : isManifestName filename = true)
      (member : (filename, ManifestFile.artifact package) ∈ dir)
  | unparsable (filename : Bytes) (isManifest : isManifestName filename = true)
      (member : (filename, ManifestFile.unparsable) ∈ dir)
      (writtenFor : written filename = some package)

def targetOf (workspaceRoot : Path) (package : PackageArtifact) (rel : Path) : Path :=
  ((nodeModules workspaceRoot).join package.name).join rel

def Present (crates : Crates) (view : View π) (workspaceRoot : Path) (package : PackageArtifact) :
    Prop :=
  ∀ file ∈ package.files, ∃ content mode,
    view (layout.place (targetOf workspaceRoot package file.1)) = some (.file content mode) ∧
      crates.blake3 content = file.2

def AllOrNothing (crates : Crates) (written : Bytes → Option PackageArtifact)
    (dir : Option ArtifactDir) (workspaceRoot : Path) (view : View π) : Prop :=
  let restored := tryRestoreFromCas layout entries answers dir workspaceRoot view
  (restored.1 = some true → ∀ isDir, dir = some isDir → ∀ package, Recorded written isDir package →
    Present layout crates restored.2 workspaceRoot package) ∧
  (restored.1 ≠ some true → restored.2 = view)

/-! What links leave, in terms of what was there before. -/

/-- All links of some packages in their order. -/
def linksOf (workspaceRoot : Path) (packages : List PackageArtifact) : List (Link π) :=
  ((packages.flatMap fun package =>
    package.files.map fun file => (file.2, targetOf workspaceRoot package file.1)).zipIdx).map
      fun numbered => ⟨numbered.1.1, numbered.1.2, answers numbered.2⟩

/-- The hash of the last link to a place. -/
def lastTo (done : List (Link π)) (place : π) : Option Bytes :=
  Lockfile.lastOf place (done.map fun step => (step.place layout, step.hash))

/-- The last link decides; else there may be a new directory; all the rest is as it was. -/
def outcome (view : View π) (done : List (Link π)) : View π := fun place =>
  match lastTo layout done place with
  | some hash => (entries hash).map fileOf
  | none =>
      if view place = none ∧ place ∈ done.flatMap (Link.above layout) then some .directory
      else view place

def Made (view : View π) (step : Link π) : Prop := (link layout entries step view).1 = true

def AllMade (view : View π) (done : List (Link π)) : Prop :=
  ∀ before step after, done = before ++ step :: after →
    Made layout entries (outcome layout entries view before) step

/-- The links decide what is at the place of a file, or it was right all along. -/
def Recovered (crates : Crates) (view : View π) (done : List (Link π)) (place : π)
    (hash : Bytes) : Prop :=
  match lastTo layout done place with
  | some last => ∃ entry, entries last = some entry ∧ crates.blake3 entry.content = hash
  | none => ∃ content mode, view place = some (.file content mode) ∧ crates.blake3 content = hash

/-- Before the first directory that is in the way or cannot be made none is missing. -/
def NoneMissing (makes : π → Bool) (view : View π) (dirs : List π) : Prop :=
  ∀ front dir back, dirs = front ++ dir :: back →
    (∀ other ∈ front, isDir layout view other = true) → view dir = none → makes dir = false

/-- A link that is not made comes to its target: the directories are there, and the target is free
or is removed. -/
def Touches (view : View π) (step : Link π) : Prop :=
  (∀ dir ∈ step.above layout, isDir layout view dir = true) ∧
    (view (step.place layout) = none ∨
      (isFile layout view (step.place layout) = true ∧ step.answer.removes = true))

/-- What such a link leaves there. -/
def leftover (step : Link π) : Option Entry :=
  match step.answer.copy, entries step.hash with
  | .stops count, some entry => some (.file (entry.content.take count) entry.mode)
  | _, _ => none

/-- A link that is not made, after links that are, and no place has changed by then. -/
structure Undone (view : View π) (before : List (Link π)) (step : Link π) : Prop where
  noDirectory : NoneMissing layout step.answer.makes (outcome layout entries view before)
    (step.above layout)
  elsewhere : ∀ place, place ≠ step.place layout →
    outcome layout entries view before place = view place
  untouched : ¬ Touches layout (outcome layout entries view before) step →
    outcome layout entries view before (step.place layout) = view (step.place layout)
  touched : Touches layout (outcome layout entries view before) step →
    leftover entries step = view (step.place layout)

/-- Where the restore is begun: every file of every json file that parses must have its content at
the end, also of those that do not parse; and a link that fails must fail before any change, or
leave what was there. -/
structure Whole (crates : Crates) (written : Bytes → Option PackageArtifact)
    (dir : ArtifactDir) (packages : List PackageArtifact) (workspaceRoot : Path) (view : View π) :
    Prop where
  complete : AllMade layout entries view (linksOf answers workspaceRoot packages) →
    ∀ package, Recorded written dir package → ∀ file ∈ package.files,
      Recovered layout entries crates view (linksOf answers workspaceRoot packages)
        (layout.place (targetOf workspaceRoot package file.1)) file.2
  undone : ∀ before step after, linksOf answers workspaceRoot packages = before ++ step :: after →
    AllMade layout entries view before →
      ¬ Made layout entries (outcome layout entries view before) step →
        Undone layout entries view before step

/-- The restore gets as far as the first link. -/
def Begun (dir : ArtifactDir) (packages : List PackageArtifact) : Prop :=
  readManifests dir = some packages ∧ packages ≠ [] ∧ containsAll entries packages = true

/-! The nested loops are one loop over the links. -/

def numbered (links : List (Bytes × Path)) (start : Nat) : List (Link π) :=
  (links.zipIdx start).map fun numbered => ⟨numbered.1.1, numbered.1.2, answers numbered.2⟩

def linkPair (pair : Bytes × Path) (state : Nat × View π) : Bool × (Nat × View π) :=
  let linked := link layout entries ⟨pair.1, pair.2, answers state.1⟩ state.2
  (linked.1, (state.1 + 1, linked.2))

theorem tryEach_linkPair (pairs : List (Bytes × Path)) (start : Nat) (view : View π) :
    (tryEach (linkPair layout entries answers) pairs (start, view)).1 =
        (tryEach (link layout entries) (numbered answers pairs start) view).1 ∧
      (tryEach (linkPair layout entries answers) pairs (start, view)).2.2 =
        (tryEach (link layout entries) (numbered answers pairs start) view).2 := by
  induction pairs generalizing start view with
  | nil => exact ⟨rfl, rfl⟩
  | cons pair pairs ih =>
      have split : numbered answers (pair :: pairs) start =
          ⟨pair.1, pair.2, answers start⟩ :: numbered answers pairs (start + 1) := by
        rw [numbered, List.zipIdx_cons, List.map_cons]
        rfl
      rw [split, tryEach, tryEach]
      by_cases made : (link layout entries ⟨pair.1, pair.2, answers start⟩ view).1 = true
      · have madePair : (linkPair layout entries answers pair (start, view)).1 = true := made
        rw [if_pos made, if_pos madePair]
        exact ih _ _
      · have notMade : ¬ (linkPair layout entries answers pair (start, view)).1 = true := made
        rw [if_neg made, if_neg notMade]
        exact ⟨rfl, rfl⟩

theorem restore_eq (workspaceRoot : Path) (packages : List PackageArtifact) (view : View π) :
    let restored := tryEach (restorePackage layout entries answers (nodeModules workspaceRoot))
      packages (0, view)
    let linked := tryEach (link layout entries) (linksOf answers workspaceRoot packages) view
    restored.1 = linked.1 ∧ restored.2.2 = linked.2 := by
  have isPairs : restorePackage layout entries answers (nodeModules workspaceRoot) =
      fun package => tryEach (linkPair layout entries answers)
        (package.files.map fun file => (file.2, targetOf workspaceRoot package file.1)) := by
    funext package state
    rw [tryEach_map]
    rfl
  intro restored linked
  simp only [restored, isPairs, tryEach_flatMap]
  exact tryEach_linkPair layout entries answers _ 0 view

/-! Directories. -/

omit [DecidableEq π] in
theorem isDir_absent {layout : Layout π} {view : View π} {place : π} (absent : view place = none) :
    isDir layout view place = false := by
  simp [isDir, entryBehind, maxLinks, resolve, absent]

section Directories

variable {layout} {makes : π → Bool}

theorem makeDirs_made {dirs : List π} {view : View π}
    (made : (tryEach (makeDir layout makes) dirs view).1 = true) :
    (tryEach (makeDir layout makes) dirs view).2 = fun place =>
      if view place = none ∧ place ∈ dirs then some .directory else view place := by
  induction dirs generalizing view with
  | nil => simp [tryEach]
  | cons dir dirs ih =>
      rw [tryEach] at made ⊢
      by_cases succeeds : (makeDir layout makes dir view).1 = true
      · rw [if_pos succeeds] at made ⊢
        rw [ih made]
        unfold makeDir at succeeds ⊢
        split at succeeds
        · rename_i isDirectory
          rw [if_pos isDirectory]
          funext place
          by_cases here : place = dir
          · subst here
            have there : view place ≠ none := by
              intro absent
              simp [isDir_absent absent] at isDirectory
            simp [there]
          · simp [here]
        · split at succeeds
          · rename_i notDirectory allowed
            rw [if_neg notDirectory, if_pos allowed]
            funext place
            by_cases here : place = dir
            · subst here
              simp [allowed.1]
            · simp [here]
          · simp at succeeds
      · rw [if_neg succeeds] at made
        exact (succeeds made).elim

theorem makeDirs_noneMissing {dirs : List π} {view : View π}
    (noneMissing : NoneMissing layout makes view dirs) :
    (tryEach (makeDir layout makes) dirs view).2 = view ∧
      ((tryEach (makeDir layout makes) dirs view).1 = true ↔
        ∀ dir ∈ dirs, isDir layout view dir = true) := by
  induction dirs with
  | nil => exact ⟨rfl, by simp [tryEach]⟩
  | cons dir dirs ih =>
      by_cases isDirectory : isDir layout view dir = true
      · have isMade : makeDir layout makes dir view = (true, view) := if_pos isDirectory
        have later : NoneMissing layout makes view dirs := by
          intro front other back split there
          refine noneMissing (dir :: front) other back (by rw [split]; rfl) ?_
          exact List.forall_mem_cons.mpr ⟨isDirectory, there⟩
        rw [tryEach, isMade, if_pos rfl, List.forall_mem_cons]
        obtain ⟨same, succeeds⟩ := ih later
        exact ⟨same, succeeds.trans ⟨fun all => ⟨isDirectory, all⟩, And.right⟩⟩
      · have notMade : makeDir layout makes dir view = (false, view) := by
          rw [makeDir, if_neg isDirectory, if_neg]
          rintro ⟨absent, allowed⟩
          have refused := noneMissing [] dir dirs rfl (List.forall_mem_nil _) absent
          rw [refused] at allowed
          contradiction
        rw [tryEach, notMade, if_neg Bool.false_ne_true, List.forall_mem_cons]
        exact ⟨rfl, fun made => by simp at made, fun all => (isDirectory all.1).elim⟩

theorem makeDirs_keeps {dirs : List π} {view : View π} {place : π} {entry : Entry}
    (there : view place = some entry) :
    (tryEach (makeDir layout makes) dirs view).2 place = some entry := by
  induction dirs generalizing view with
  | nil => exact there
  | cons dir dirs ih =>
      have kept : (makeDir layout makes dir view).2 place = some entry := by
        unfold makeDir
        split
        · exact there
        · split
          · rename_i allowed
            have apart : place ≠ dir := by
              rintro rfl
              simp [there] at allowed
            exact (Function.update_of_ne apart _ _).trans there
          · exact there
      rw [tryEach]
      split
      · exact ih kept
      · exact kept

/-- Otherwise a directory is made that was not there. -/
theorem makeDirs_missing {dirs : List π} {view : View π}
    (missing : ¬ NoneMissing layout makes view dirs) :
    ∃ dir, view dir = none ∧
      (tryEach (makeDir layout makes) dirs view).2 dir = some .directory := by
  induction dirs with
  | nil =>
      refine (missing fun front dir back split => ?_).elim
      simp at split
  | cons dir dirs ih =>
      by_cases isDirectory : isDir layout view dir = true
      · have isMade : makeDir layout makes dir view = (true, view) := if_pos isDirectory
        rw [tryEach, isMade, if_pos rfl]
        refine ih fun noneMissing => missing ?_
        intro front other back split there absent
        cases front with
        | nil =>
            obtain ⟨rfl, rfl⟩ := List.cons.inj split
            simp [isDir_absent absent] at isDirectory
        | cons first front =>
            exact noneMissing front other back (List.cons.inj split).2
              (List.forall_mem_cons.mp there).2 absent
      · by_cases absent : view dir = none
        · have allowed : makes dir = true := by
            by_contra refused
            refine missing fun front other back split there _ => ?_
            cases front with
            | nil =>
                obtain ⟨rfl, rfl⟩ := List.cons.inj split
                exact Bool.eq_false_iff.mpr refused
            | cons first front =>
                obtain ⟨rfl, rfl⟩ := List.cons.inj split
                exact (isDirectory (List.forall_mem_cons.mp there).1).elim
          have isMade : makeDir layout makes dir view =
              (true, Function.update view dir (some .directory)) := by
            rw [makeDir, if_neg isDirectory, if_pos ⟨absent, allowed⟩]
          rw [tryEach, isMade, if_pos rfl]
          exact ⟨dir, absent, makeDirs_keeps (Function.update_self ..)⟩
        · refine (missing fun front other back split there isAbsent => ?_).elim
          cases front with
          | nil =>
              obtain ⟨rfl, rfl⟩ := List.cons.inj split
              exact (absent isAbsent).elim
          | cons first front =>
              obtain ⟨rfl, rfl⟩ := List.cons.inj split
              exact (isDirectory (List.forall_mem_cons.mp there).1).elim

end Directories

/-! One link. -/

section OneLink

variable {layout entries} {view : View π} {step : Link π}

theorem linkEntry_made {answer : Answer π} {entry : Inode Bytes} {place : π}
    (made : (linkEntry answer entry place view).1 = true) :
    (linkEntry answer entry place view).2 = Function.update view place (some (fileOf entry)) := by
  unfold linkEntry at made ⊢
  split at made
  · simp at made
  · rename_i free
    rw [if_neg free]
    split at made
    · rename_i links
      rw [if_pos links]
    · rename_i noLinks
      rw [if_neg noLinks]
      split at made
      · simp at made
      · simp at made
      · rfl

theorem clear_elsewhere {removes : Bool} {place other : π} (apart : other ≠ place) :
    clear layout removes place view other = view other := by
  unfold clear
  split
  · exact Function.update_of_ne apart _ _
  · rfl

theorem link_made (made : Made layout entries view step) :
    ∃ entry, entries step.hash = some entry ∧ (link layout entries step view).2 = fun place =>
      if place = step.place layout then some (fileOf entry)
      else if view place = none ∧ place ∈ step.above layout then some .directory
      else view place := by
  unfold Made link at made
  unfold link
  split at made
  · simp at made
  · rename_i entry isEntry
    refine ⟨entry, isEntry, ?_⟩
    simp only at made ⊢
    split at made
    · rename_i dirs
      rw [if_pos dirs, linkEntry_made made]
      funext place
      by_cases here : place = step.place layout
      · rw [here, Function.update_self, if_pos rfl]
      · rw [Function.update_of_ne here, clear_elsewhere here, makeDirs_made dirs, if_neg here]
    · rename_i noDirs
      exact (noDirs made).elim

theorem linkEntry_stopped {answer : Answer π} {entry : Inode Bytes} {place : π}
    (isEntry : entries step.hash = some entry) (isAnswer : step.answer = answer)
    (free : view place = none) (notMade : (linkEntry answer entry place view).1 ≠ true) :
    (linkEntry answer entry place view).2 = Function.update view place (leftover entries step) := by
  unfold linkEntry at notMade ⊢
  rw [if_neg (not_not_intro free)] at notMade ⊢
  unfold leftover
  rw [isEntry, isAnswer]
  split at notMade
  · simp at notMade
  · rename_i noLinks
    rw [if_neg noLinks]
    cases isCopy : answer.copy with
    | refused => exact (Function.update_eq_self_iff.mpr free.symm).symm
    | stops count => rfl
    | completes => simp [isCopy] at notMade

theorem link_stopped {entry : Inode Bytes} (isEntry : entries step.hash = some entry)
    (noneMissing : NoneMissing layout step.answer.makes view (step.above layout))
    (notMade : ¬ Made layout entries view step) :
    (Touches layout view step → (link layout entries step view).2 =
        Function.update view (step.place layout) (leftover entries step)) ∧
      (¬ Touches layout view step → (link layout entries step view).2 = view) := by
  obtain ⟨same, succeeds⟩ := makeDirs_noneMissing noneMissing
  unfold Made link at notMade
  unfold link
  rw [isEntry] at notMade ⊢
  simp only at notMade ⊢
  by_cases there : ∀ dir ∈ step.above layout, isDir layout view dir = true
  · rw [if_pos (succeeds.mpr there), same] at notMade ⊢
    unfold clear at notMade ⊢
    by_cases removed : isFile layout view (step.place layout) = true ∧ step.answer.removes = true
    · rw [if_pos removed] at notMade ⊢
      have left := linkEntry_stopped isEntry rfl (Function.update_self ..) notMade
      rw [left, Function.update_idem]
      exact ⟨fun _ => rfl, fun untouched => (untouched ⟨there, Or.inr removed⟩).elim⟩
    · rw [if_neg removed] at notMade ⊢
      by_cases free : view (step.place layout) = none
      · rw [linkEntry_stopped isEntry rfl free notMade]
        exact ⟨fun _ => rfl, fun untouched => (untouched ⟨there, Or.inl free⟩).elim⟩
      · have occupied : linkEntry step.answer entry (step.place layout) view = (false, view) :=
          if_pos free
        rw [occupied]
        exact ⟨fun touches => (touches.2.elim free removed).elim, fun _ => rfl⟩
  · have stopped : (tryEach (makeDir layout step.answer.makes) (step.above layout) view).1 ≠ true :=
      fun made => there (succeeds.mp made)
    rw [if_neg stopped, same]
    exact ⟨fun touches => (there touches.1).elim, fun _ => rfl⟩

end OneLink

/-! A run of links. -/

section Run

variable {layout entries} {view : View π} {done : List (Link π)} {step : Link π}

theorem allMade_append : AllMade layout entries view (done ++ [step]) ↔
    AllMade layout entries view done ∧
      Made layout entries (outcome layout entries view done) step := by
  constructor
  · intro all
    refine ⟨fun before other after split => ?_, all done step [] rfl⟩
    exact all before other (after ++ [step]) (by rw [split]; simp)
  · rintro ⟨all, last⟩ before other after split
    rcases List.eq_nil_or_concat after with rfl | ⟨front, final, rfl⟩
    · obtain ⟨rfl, same⟩ := List.append_inj' split rfl
      obtain rfl := List.singleton_inj.mp same
      exact last
    · rw [List.concat_eq_append, ← List.cons_append, ← List.append_assoc] at split
      exact all before other front (List.append_inj' split rfl).1

theorem lastTo_append (place : π) : lastTo layout (done ++ [step]) place =
    if step.place layout = place then some step.hash else lastTo layout done place := by
  rw [lastTo, List.map_append, Lockfile.lastOf_append]
  by_cases here : step.place layout = place
  · simp [Lockfile.lastOf, here]
  · simp [Lockfile.lastOf, here, lastTo]

theorem lastTo_mem {place : π} {hash : Bytes} (isLast : lastTo layout done place = some hash) :
    ∃ other ∈ done, other.place layout = place ∧ other.hash = hash := by
  induction done using List.reverseRecOn with
  | nil => simp [lastTo, Lockfile.lastOf] at isLast
  | append_singleton done step ih =>
      rw [lastTo_append] at isLast
      split at isLast
      · rename_i here
        exact ⟨step, by simp, here, Option.some.inj isLast⟩
      · obtain ⟨other, member, isOther⟩ := ih isLast
        exact ⟨other, List.mem_append_left _ member, isOther⟩

theorem outcome_append (stored : ∀ other ∈ done, (entries other.hash).isSome = true) (place : π) :
    outcome layout entries view (done ++ [step]) place =
      if place = step.place layout then (entries step.hash).map fileOf
      else if outcome layout entries view done place = none ∧ place ∈ step.above layout then
        some .directory
      else outcome layout entries view done place := by
  unfold outcome
  rw [lastTo_append]
  by_cases here : place = step.place layout
  · simp [here]
  · rw [if_neg (Ne.symm here), if_neg here]
    cases isLast : lastTo layout done place with
    | some hash =>
        obtain ⟨other, member, _, rfl⟩ := lastTo_mem isLast
        obtain ⟨entry, isEntry⟩ := Option.isSome_iff_exists.mp (stored other member)
        simp [isEntry]
    | none =>
        by_cases absent : view place = none
        · by_cases above : place ∈ done.flatMap (Link.above layout)
          · simp [absent, above]
          · simp [absent, above]
        · simp [absent]

/-- Links that are all made leave what the last of them to each place says. -/
theorem run_links : ((tryEach (link layout entries) done view).1 = true ↔
      AllMade layout entries view done) ∧
    ((tryEach (link layout entries) done view).1 = true →
      (∀ other ∈ done, (entries other.hash).isSome = true) ∧
        (tryEach (link layout entries) done view).2 = outcome layout entries view done) := by
  induction done using List.reverseRecOn with
  | nil =>
      refine ⟨⟨fun _ before other after split => by simp at split, fun _ => rfl⟩, fun _ => ?_⟩
      refine ⟨fun _ member => by simp at member, ?_⟩
      funext place
      simp [tryEach, outcome, lastTo, Lockfile.lastOf]
  | append_singleton done step ih =>
      obtain ⟨all, result⟩ := ih
      rw [tryEach_append, allMade_append]
      by_cases succeeds : (tryEach (link layout entries) done view).1 = true
      · obtain ⟨stored, isOutcome⟩ := result succeeds
        have oneStep (start : View π) : tryEach (link layout entries) [step] start =
            link layout entries step start := by
          rw [tryEach]
          split
          · rename_i made
            exact Prod.ext made.symm rfl
          · rfl
        rw [if_pos succeeds, oneStep, isOutcome]
        constructor
        · exact ⟨fun made => ⟨all.mp succeeds, made⟩, And.right⟩
        · intro made
          obtain ⟨entry, isEntry, isResult⟩ := link_made made
          constructor
          · intro other member
            rcases List.mem_append.mp member with early | late
            · exact stored other early
            · rw [List.mem_singleton.mp late, isEntry]
              rfl
          · rw [isResult]
            funext place
            rw [outcome_append stored, isEntry]
            rfl
      · rw [if_neg succeeds]
        exact ⟨⟨fun made => (succeeds made).elim, fun both => (succeeds (all.mpr both.1)).elim⟩,
          fun made => (succeeds made).elim⟩

theorem exists_stop {links : List (Link π)} (notAll : ¬ AllMade layout entries view links) :
    ∃ before step after, links = before ++ step :: after ∧ AllMade layout entries view before ∧
      ¬ Made layout entries (outcome layout entries view before) step := by
  induction links using List.reverseRecOn with
  | nil => exact (notAll fun before other after split => by simp at split).elim
  | append_singleton links step ih =>
      by_cases all : AllMade layout entries view links
      · exact ⟨links, step, [], rfl, all, fun made => notAll (allMade_append.mpr ⟨all, made⟩)⟩
      · obtain ⟨before, other, after, rfl, rest⟩ := ih all
        exact ⟨before, other, after ++ [step], by simp, rest⟩

theorem stopped_run {before : List (Link π)} (after : List (Link π))
    (all : AllMade layout entries view before)
    (notMade : ¬ Made layout entries (outcome layout entries view before) step) :
    (tryEach (link layout entries) (before ++ step :: after) view).1 ≠ true ∧
      (tryEach (link layout entries) (before ++ step :: after) view).2 =
        (link layout entries step (outcome layout entries view before)).2 := by
  have succeeds := run_links.1.mpr all
  have stops : ¬ (link layout entries step (outcome layout entries view before)).1 = true := notMade
  rw [tryEach_append, if_pos succeeds, (run_links.2 succeeds).2, tryEach, if_neg stops]
  exact ⟨stops, rfl⟩

theorem link_keeps_directory {entry : Inode Bytes} (isEntry : entries step.hash = some entry)
    {dir : π} (there : (tryEach (makeDir layout step.answer.makes) (step.above layout) view).2 dir =
      some .directory) : (link layout entries step view).2 dir = some .directory := by
  unfold link
  rw [isEntry]
  simp only
  split
  · by_cases here : dir = step.place layout
    · -- a directory is no file, so it is not removed, and nothing is linked over it
      have noFile : isFile layout
          (tryEach (makeDir layout step.answer.makes) (step.above layout) view).2
          (step.place layout) = false := by
        rw [← here]
        simp [isFile, entryBehind, maxLinks, resolve, there]
      have kept : clear layout step.answer.removes (step.place layout)
          (tryEach (makeDir layout step.answer.makes) (step.above layout) view).2 =
          (tryEach (makeDir layout step.answer.makes) (step.above layout) view).2 := by
        rw [clear, noFile]
        simp
      rw [kept, linkEntry, if_pos (by rw [← here, there]; simp)]
      exact there
    · have elsewhere (start : View π) :
          (linkEntry step.answer entry (step.place layout) start).2 dir = start dir := by
        unfold linkEntry
        split
        · rfl
        · split
          · exact Function.update_of_ne here _ _
          · split
            · rfl
            · exact Function.update_of_ne here _ _
            · exact Function.update_of_ne here _ _
      rw [elsewhere, clear_elsewhere here, there]
  · exact there

theorem absent_before (stored : ∀ other ∈ done, (entries other.hash).isSome = true) {place : π}
    (absent : outcome layout entries view done place = none) : view place = none := by
  unfold outcome at absent
  cases isLast : lastTo layout done place with
  | some hash =>
      obtain ⟨other, member, _, rfl⟩ := lastTo_mem isLast
      obtain ⟨entry, isEntry⟩ := Option.isSome_iff_exists.mp (stored other member)
      simp [isLast, isEntry] at absent
  | none =>
      simp only [isLast] at absent
      split at absent
      · simp at absent
      · exact absent

theorem link_undone_iff (stored : ∀ other ∈ done, (entries other.hash).isSome = true)
    {entry : Inode Bytes} (isEntry : entries step.hash = some entry)
    (notMade : ¬ Made layout entries (outcome layout entries view done) step) :
    (link layout entries step (outcome layout entries view done)).2 = view ↔
      Undone layout entries view done step := by
  constructor
  · intro same
    have noneMissing : NoneMissing layout step.answer.makes (outcome layout entries view done)
        (step.above layout) := by
      by_contra missing
      obtain ⟨dir, absent, isMade⟩ := makeDirs_missing missing
      have kept := link_keeps_directory isEntry isMade
      rw [same, absent_before stored absent] at kept
      simp at kept
    obtain ⟨touched, untouched⟩ := link_stopped isEntry noneMissing notMade
    by_cases touches : Touches layout (outcome layout entries view done) step
    · rw [touched touches] at same
      refine ⟨noneMissing, ?_, fun not => (not touches).elim, fun _ => ?_⟩
      · intro place apart
        have here := congrFun same place
        rwa [Function.update_of_ne apart] at here
      · have here := congrFun same (step.place layout)
        rwa [Function.update_self] at here
    · rw [untouched touches] at same
      exact ⟨noneMissing, fun place _ => congrFun same place, fun _ => congrFun same _,
        fun touched => (touches touched).elim⟩
  · intro undone
    obtain ⟨touched, untouched⟩ := link_stopped isEntry undone.noDirectory notMade
    by_cases touches : Touches layout (outcome layout entries view done) step
    · rw [touched touches]
      funext place
      by_cases here : place = step.place layout
      · rw [here, Function.update_self, undone.touched touches]
      · rw [Function.update_of_ne here, undone.elsewhere place here]
    · rw [untouched touches]
      funext place
      by_cases here : place = step.place layout
      · rw [here, undone.untouched touches]
      · exact undone.elsewhere place here

end Run

/-! The whole call. -/

section Call

variable {crates : Crates} {written : Bytes → Option PackageArtifact} {workspaceRoot : Path}
  {view : View π} {packages : List PackageArtifact} {isDir : ArtifactDir}

omit [DecidableEq π] in
theorem mem_linksOf {step : Link π} (member : step ∈ linksOf answers workspaceRoot packages) :
    ∃ package ∈ packages, ∃ file ∈ package.files, step.hash = file.2 ∧
      step.target = targetOf workspaceRoot package file.1 := by
  obtain ⟨numbered, isNumbered, rfl⟩ := List.mem_map.mp member
  have inPairs := List.fst_mem_of_mem_zipIdx isNumbered
  obtain ⟨package, isPackage, isPair⟩ := List.mem_flatMap.mp inPairs
  obtain ⟨file, isFile, same⟩ := List.mem_map.mp isPair
  exact ⟨package, isPackage, file, isFile, by rw [← same], by rw [← same]⟩

omit [DecidableEq π] in
theorem stored_of_contains (contains : containsAll entries packages = true) :
    ∀ step ∈ linksOf answers workspaceRoot packages, (entries step.hash).isSome = true := by
  intro step member
  obtain ⟨package, isPackage, file, isFile, isHash, _⟩ := mem_linksOf answers member
  have ofPackage := List.all_eq_true.mp contains package isPackage
  rw [isHash]
  exact List.all_eq_true.mp ofPackage file isFile

omit [DecidableEq π] in
theorem stored_at_stop {dir : ArtifactDir} (begun : Begun entries dir packages)
    {before after : List (Link π)} {step : Link π}
    (split : linksOf answers workspaceRoot packages = before ++ step :: after) :
    (∀ other ∈ before, (entries other.hash).isSome = true) ∧
      ∃ entry, entries step.hash = some entry := by
  have stored : ∀ other ∈ linksOf answers workspaceRoot packages,
      (entries other.hash).isSome = true := stored_of_contains entries answers begun.2.2
  rw [split] at stored
  constructor
  · intro other member
    exact stored other (List.mem_append_left _ member)
  · exact Option.isSome_iff_exists.mp (stored step (by simp))

theorem recovered_iff {done : List (Link π)} {target : Path} {hash : Bytes} :
    (∃ content mode, outcome layout entries view done (layout.place target) =
        some (.file content mode) ∧ crates.blake3 content = hash) ↔
      Recovered layout entries crates view done (layout.place target) hash := by
  unfold outcome Recovered
  cases isLast : lastTo layout done (layout.place target) with
  | some last =>
      constructor
      · rintro ⟨content, mode, isFile, isHash⟩
        obtain ⟨entry, isEntry, same⟩ := Option.map_eq_some_iff.mp isFile
        obtain ⟨rfl, rfl⟩ : entry.content = content ∧ entry.mode = mode := by
          simpa [fileOf] using same
        exact ⟨entry, isEntry, isHash⟩
      · rintro ⟨entry, isEntry, isHash⟩
        exact ⟨entry.content, entry.mode, by simp [isEntry, fileOf], isHash⟩
  | none =>
      constructor
      · rintro ⟨content, mode, isFile, isHash⟩
        dsimp only at isFile
        split at isFile
        · simp at isFile
        · exact ⟨content, mode, isFile, isHash⟩
      · rintro ⟨content, mode, isFile, isHash⟩
        exact ⟨content, mode, by simp [isFile], isHash⟩

theorem tryRestoreFromCas_begun {dir : ArtifactDir} (begun : Begun entries dir packages) :
    let restored := tryRestoreFromCas layout entries answers (some dir) workspaceRoot view
    let linked := tryEach (link layout entries) (linksOf answers workspaceRoot packages) view
    (restored.1 = some true ↔ linked.1 = true) ∧ restored.2 = linked.2 := by
  obtain ⟨isRead, filled, contains⟩ := begun
  obtain ⟨succeeds, same⟩ := restore_eq layout entries answers workspaceRoot packages view
  intro restored linked
  simp only [restored, linked, tryRestoreFromCas, isRead, contains, ↓reduceIte]
  rw [if_neg (by simpa using filled)]
  refine ⟨?_, same⟩
  rw [← succeeds]
  simp

theorem tryRestoreFromCas_idle {dir : Option ArtifactDir}
    (idle : ∀ isDir packages, dir = some isDir → ¬ Begun entries isDir packages) :
    let restored := tryRestoreFromCas layout entries answers dir workspaceRoot view
    restored.1 ≠ some true ∧ restored.2 = view := by
  intro restored
  cases isDir : dir with
  | none => simp [restored, isDir, tryRestoreFromCas]
  | some dir =>
      cases isRead : readManifests dir with
      | none => simp [restored, isDir, tryRestoreFromCas, isRead]
      | some packages =>
          by_cases filled : packages = []
          · simp [restored, isDir, tryRestoreFromCas, isRead, filled]
          · have contains : ¬ containsAll entries packages = true :=
              fun contains => idle dir packages isDir ⟨isRead, filled, contains⟩
            simp [restored, isDir, tryRestoreFromCas, isRead, filled, contains]

theorem whole_of_allOrNothing {dir : ArtifactDir} (begun : Begun entries dir packages)
    (holds : AllOrNothing layout entries answers crates written (some dir) workspaceRoot view) :
    Whole layout entries answers crates written dir packages workspaceRoot view := by
  obtain ⟨succeeds, same⟩ := tryRestoreFromCas_begun layout entries answers begun
  obtain ⟨present, unchanged⟩ := holds
  constructor
  · intro all package recorded file member
    have made := run_links.1.mpr all
    have here := present (succeeds.mpr made) dir rfl package recorded file member
    rw [same, (run_links.2 made).2] at here
    exact (recovered_iff layout entries).mp here
  · intro before step after split all notMade
    obtain ⟨stopped, result⟩ := stopped_run after all notMade
    rw [← split] at stopped result
    obtain ⟨storedBefore, entry, isEntry⟩ := stored_at_stop entries answers begun split
    refine (link_undone_iff storedBefore isEntry notMade).mp ?_
    rw [← result, ← same]
    exact unchanged fun succeeded => stopped (succeeds.mp succeeded)

theorem allOrNothing_of_whole {dir : ArtifactDir} (begun : Begun entries dir packages)
    (whole : Whole layout entries answers crates written dir packages workspaceRoot view) :
    AllOrNothing layout entries answers crates written (some dir) workspaceRoot view := by
  obtain ⟨succeeds, same⟩ := tryRestoreFromCas_begun layout entries answers begun
  constructor
  · intro succeeded other isDir package recorded file member
    obtain rfl := Option.some.inj isDir
    have made := succeeds.mp succeeded
    rw [same, (run_links.2 made).2]
    exact (recovered_iff layout entries).mpr
      (whole.complete (run_links.1.mp made) package recorded file member)
  · intro failed
    have notAll : ¬ AllMade layout entries view (linksOf answers workspaceRoot packages) :=
      fun all => failed (succeeds.mpr (run_links.1.mpr all))
    obtain ⟨before, step, after, split, all, notMade⟩ := exists_stop notAll
    obtain ⟨_, result⟩ := stopped_run after all notMade
    rw [← split] at result
    obtain ⟨storedBefore, entry, isEntry⟩ := stored_at_stop entries answers begun split
    rw [same, result]
    exact (link_undone_iff storedBefore isEntry notMade).mpr
      (whole.undone before step after split all notMade)

end Call

/-- A restore is all or nothing if and only if, where it is begun, it is whole. -/
theorem all_or_nothing_iff (crates : Crates) (written : Bytes → Option PackageArtifact)
    (dir : Option ArtifactDir) (workspaceRoot : Path) (view : View π) :
    AllOrNothing layout entries answers crates written dir workspaceRoot view ↔
      ∀ isDir packages, dir = some isDir → Begun entries isDir packages →
        Whole layout entries answers crates written isDir packages workspaceRoot view := by
  constructor
  · rintro holds isDir packages rfl begun
    exact whole_of_allOrNothing layout entries answers begun holds
  · intro whole
    by_cases idle : ∀ isDir packages, dir = some isDir → ¬ Begun entries isDir packages
    · obtain ⟨failed, same⟩ := tryRestoreFromCas_idle layout entries answers idle
      exact ⟨fun succeeded => (failed succeeded).elim, fun _ => same⟩
    · push Not at idle
      obtain ⟨isDir, packages, rfl, begun⟩ := idle
      exact allOrNothing_of_whole layout entries answers begun (whole isDir packages rfl begun)

end

/-! A package of two files, of which the second cannot be linked. -/

def leftPad : PackageArtifact :=
  ⟨utf8 "left-pad", utf8 "1.3.0", [(utf8 "index.js", utf8 "A"), (utf8 "lib.js", utf8 "B")]⟩

def leftPadDir : ArtifactDir := [(utf8 "left-pad@1.3.0.json", .artifact leftPad)]

def plainLayout : Layout Path := ⟨id, fun place _ => place⟩

def leftPadEntries : Entries := fun hash =>
  if hash = utf8 "A" ∨ hash = utf8 "B" then some ⟨hash, createMode⟩ else none

/-- The second `hard_link` fails for a reason that is none to copy. -/
def secondFails (index : Nat) : Answer Path := ⟨fun _ => true, true, index = 0, .refused⟩

def emptyModules : View Path := fun place =>
  if place = utf8 "/w" ∨ place = utf8 "/w/node_modules" then some .directory else none

/-- The call returns an error and leaves the first file. -/
theorem partly_restored :
    ¬ AllOrNothing plainLayout leftPadEntries secondFails Crates.plain (fun _ => none)
      (some leftPadDir) (utf8 "/w") emptyModules := by
  intro holds
  have failed : (tryRestoreFromCas plainLayout leftPadEntries secondFails (some leftPadDir)
      (utf8 "/w") emptyModules).1 ≠ some true := by decide +kernel
  have left : (tryRestoreFromCas plainLayout leftPadEntries secondFails (some leftPadDir)
      (utf8 "/w") emptyModules).2 (utf8 "/w/node_modules/left-pad/index.js") =
        some (.file (utf8 "A") createMode) := by decide +kernel
  have absent : emptyModules (utf8 "/w/node_modules/left-pad/index.js") = none := by
    decide +kernel
  rw [holds.2 failed, absent] at left
  contradiction

end Rage.FileRestore
