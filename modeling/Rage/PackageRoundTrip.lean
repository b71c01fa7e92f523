import Mathlib.Data.List.Infix
import Rage.DeclaredInputs
import Rage.LinkedStore

/-!
A package directory, the artifact that is captured of it, and what is restored from that.  A walk
records regular files only; their modes are those that their contents have in the store.
-/

namespace Rage.PackageRoundTrip

open Inodes LinkedStore

inductive Leaf
  | file (content : Bytes) (mode : Nat)
  | symlink (target : Bytes)
  | special
  deriving DecidableEq

/-- Directories can be listed and files can be read. -/
abbrev PackageTree := Listing FileName Unit Leaf

abbrev PackageDisk := StoreDisk Location

/-! `capture_package`. -/

def relPath (names : List FileName) : Path := joinNames (names.map FileName.text)

abbrev Captured := PackageDisk × List (Path × Bytes)

def walk (crates : Crates) : PackageTree → List FileName → Captured → Captured
  | .done, _, state => state
  | .leaf name here rest, above, state =>
      match here with
      | .file content _ =>
          walk crates rest above
            (putBytes crates state.1 content,
              state.2 ++ [(relPath (above ++ [name]), crates.blake3 content)])
      | _ => walk crates rest above state
  | .directory name _ inner rest, above, state =>
      walk crates rest above (walk crates inner (above ++ [name]) state)

def capturePackage (crates : Crates) (name version : Bytes) (tree : PackageTree)
    (disk : PackageDisk) : PackageArtifact × PackageDisk :=
  let captured := walk crates tree [] (disk, [])
  (⟨name, version, captured.2.insertionSort fun first second => Path.le first.1 second.1⟩,
    captured.1)

/-! `restore_package`.  Locations are those below `target_dir/<name>`. -/

def makeDir (location : Location) (disk : PackageDisk) : Bool × PackageDisk :=
  match disk.names (.path location) with
  | none => (true, disk.makeDirectory (.path location))
  | some .directory => (true, disk)
  | _ => (false, disk)

def createDirAll (location : Location) (disk : PackageDisk) : Bool × PackageDisk :=
  tryEach makeDir location.inits disk

section Restore

variable (leads : Location → Bytes → Location) (answer : Location → Answer)

/-- `LocalArtifactStore::link`, with the directories that it creates. -/
def link (disk : PackageDisk) (hash : Bytes) (target : Location) : Bool × PackageDisk :=
  if disk.isFile (.entry hash) ∧ (answer target).parents then
    let made := createDirAll target.dropLast disk
    if made.1 then LinkedStore.link leads made.2 hash target (answer target) else made
  else (false, disk)

def restorePackage (files : List (Path × Bytes)) (disk : PackageDisk) : Bool × PackageDisk :=
  tryEach (fun file disk => link leads answer disk file.2 (components file.1)) files disk

end Restore

/-! What there is at a location, in the package and where it was restored. -/

inductive Entry
  | file (content : Bytes) (mode : Nat)
  | symlink (target : Bytes)
  | special
  | directory
  deriving DecidableEq

def Leaf.entry : Leaf → Entry
  | .file content mode => .file content mode
  | .symlink target => .symlink target
  | .special => .special

def place (names : List FileName) : Location := names.map fun name => .normal name.text

def directories (tree : PackageTree) : List (List FileName) := [] :: tree.directories

def entryOf (tree : PackageTree) (location : Location) : Option Entry :=
  match tree.leaves.find? fun found => place found.names = location with
  | some found => some found.leaf.entry
  | none => if location ∈ (directories tree).map place then some .directory else none

def entryAt (disk : PackageDisk) (location : Location) : Option Entry :=
  (disk.names (.path location)).map fun dirent =>
    match dirent with
    | .file inode => .file (disk.inodes inode).content (disk.inodes inode).mode
    | .symlink target => .symlink target
    | .directory => .directory

/-- One kind, one content with the same executable bits, one target. -/
def Same : Option Entry → Option Entry → Prop
  | some (.file content mode), some (.file other mode') =>
      content = other ∧ mode &&& executableBits = mode' &&& executableBits
  | first, second => first = second

/-- A capture, and a restore that succeeds and leaves the tree of the package. -/
def RoundTrips (crates : Crates) (leads : Location → Bytes → Location)
    (answer : Location → Answer) (name version : Bytes) (tree : PackageTree)
    (disk : PackageDisk) : Prop :=
  let captured := capturePackage crates name version tree disk
  let restored := restorePackage leads answer captured.1.files captured.2
  restored.1 = true ∧ ∀ location, Same (entryAt restored.2 location) (entryOf tree location)

/-- The inode that a content is restored from. -/
def storedInode (crates : Crates) (disk : PackageDisk) (content : Bytes) : Inode Bytes :=
  match disk.inodeOf (.entry (crates.blake3 content)) with
  | some inode => disk.inodes inode
  | none => ⟨content, createMode⟩

/-- The system links a name, or `link` can copy instead. -/
def Accepts (answer : Answer) (mode : Nat) : Prop :=
  answer.parents = true ∧ (answer.links = true ∨ (answer.copies = true ∧ readable mode = true))

/-- Regular files only, below every directory one, each as its content is in the store. -/
structure Kept (crates : Crates) (answer : Location → Answer) (tree : PackageTree)
    (disk : PackageDisk) : Prop where
  regular : ∀ found ∈ tree.leaves, ∃ content mode, found.leaf = .file content mode
  filled : ∀ dir ∈ directories tree, ∃ found ∈ tree.leaves, dir <+: found.names
  content : ∀ found ∈ tree.leaves, ∀ content mode, found.leaf = .file content mode →
    (storedInode crates disk content).content = content
  mode : ∀ found ∈ tree.leaves, ∀ content mode, found.leaf = .file content mode →
    (storedInode crates disk content).mode &&& executableBits = mode &&& executableBits
  accepts : ∀ found ∈ tree.leaves, ∀ content mode, found.leaf = .file content mode →
    Accepts (answer (place found.names)) (storedInode crates disk content).mode

/-! What a walk records. -/

structure RegularFile where
  names : List FileName
  content : Bytes
  mode : Nat

def regular (found : Listing.Found FileName Unit Leaf) : Option RegularFile :=
  match found.leaf with
  | .file content mode => some ⟨found.names, content, mode⟩
  | _ => none

def regularFiles (tree : PackageTree) : List RegularFile := tree.leaves.filterMap regular

theorem regular_eq_some {found : Listing.Found FileName Unit Leaf} {file : RegularFile} :
    regular found = some file ↔
      found.names = file.names ∧ found.leaf = .file file.content file.mode := by
  obtain ⟨names, above, leaf⟩ := found
  obtain ⟨fileNames, content, mode⟩ := file
  cases leaf with
  | file => simp [regular]
  | symlink => simp [regular]
  | special => simp [regular]

section Capture

variable {crates : Crates}

def record (crates : Crates) (above : List FileName) (file : RegularFile) : Path × Bytes :=
  (relPath (above ++ file.names), crates.blake3 file.content)

theorem walk_eq (tree : PackageTree) (above : List FileName) (state : Captured) :
    walk crates tree above state =
      ((regularFiles tree).foldl (fun disk file => putBytes crates disk file.content) state.1,
        state.2 ++ (regularFiles tree).map (record crates above)) := by
  induction tree generalizing above state with
  | done => simp [walk, regularFiles, Listing.leaves]
  | leaf name here rest ih =>
      cases here with
      | file content mode =>
          simp only [walk, ih, regularFiles, Listing.leaves]
          simp [regular, record]
      | symlink target => simp only [walk, ih, regularFiles, Listing.leaves]; rfl
      | special => simp only [walk, ih, regularFiles, Listing.leaves]; rfl
  | directory name dir inner rest ihInner ihRest =>
      have below : (inner.leaves.map (Listing.Found.under name dir)).filterMap regular =
          (regularFiles inner).map fun file => { file with names := name :: file.names } := by
        rw [List.filterMap_map, regularFiles, List.map_filterMap]
        refine List.filterMap_congr fun found _ => ?_
        obtain ⟨names, above, leaf⟩ := found
        cases leaf with
        | file => rfl
        | symlink => rfl
        | special => rfl
      simp only [walk, ihInner, ihRest]
      simp only [regularFiles, Listing.leaves, List.filterMap_append] at below ⊢
      rw [below, List.foldl_append, List.foldl_map]
      simp [record, Function.comp_def]

/-- The entries that a store has after some contents were put into it. -/
structure Stored (crates : Crates) (before after : PackageDisk) (contents : List Bytes) : Prop where
  kept : ∀ key inode, before.inodeOf (.entry key) = some inode →
    after.inodeOf (.entry key) = some inode ∧ after.inodes inode = before.inodes inode
  added : ∀ content ∈ contents, before.inodeOf (.entry (crates.blake3 content)) = none →
    ∃ inode, after.inodeOf (.entry (crates.blake3 content)) = some inode ∧
      after.inodes inode = ⟨content, createMode⟩
  paths : ∀ location, after.names (.path location) = before.names (.path location)

theorem putBytes_stored (disk : PackageDisk) (content : Bytes) :
    Stored crates disk (putBytes crates disk content) [content] := by
  unfold putBytes putBytesKeyed
  split
  · rename_i isFile
    refine ⟨fun _ _ isInode => ⟨isInode, rfl⟩, ?_, fun _ => rfl⟩
    intro other member isNone
    obtain rfl := List.mem_singleton.mp member
    rw [Disk.isFile, isNone] at isFile
    contradiction
  · rename_i notFile
    constructor
    · intro key inode isInode
      have below : inode < disk.fresh := disk.allocated _ inode isInode
      have apart : key ≠ crates.blake3 content := by
        rintro rfl
        exact notFile (by rw [Disk.isFile, isInode, Option.isSome_some])
      constructor
      · rw [Disk.inodeOf_create, if_neg (by simpa using apart), isInode]
      · rw [Disk.inodes_create_of_ne _ (Nat.ne_of_lt below)]
    · intro other member _
      obtain rfl := List.mem_singleton.mp member
      exact ⟨disk.fresh, by rw [Disk.inodeOf_create, if_pos rfl], Disk.inodes_create_fresh ..⟩
    · intro location
      simp [Disk.create]

theorem stored_foldl (ideal : crates.Ideal) (contents : List Bytes) (disk : PackageDisk) :
    Stored crates disk (contents.foldl (putBytes crates) disk) contents := by
  induction contents generalizing disk with
  | nil =>
      exact ⟨fun _ _ isInode => ⟨isInode, rfl⟩, fun _ member => by simp at member, fun _ => rfl⟩
  | cons content contents ih =>
      have first : Stored crates disk (putBytes crates disk content) [content] :=
        putBytes_stored disk content
      have later := ih (putBytes crates disk content)
      rw [List.foldl_cons]
      constructor
      · intro key inode isInode
        obtain ⟨isNext, same⟩ := first.kept key inode isInode
        obtain ⟨isLast, sameToo⟩ := later.kept key inode isNext
        exact ⟨isLast, sameToo.trans same⟩
      · have here (isNone : disk.inodeOf (.entry (crates.blake3 content)) = none) :
            ∃ inode, (contents.foldl (putBytes crates) (putBytes crates disk content)).inodeOf
                (.entry (crates.blake3 content)) = some inode ∧
              (contents.foldl (putBytes crates) (putBytes crates disk content)).inodes inode =
                ⟨content, createMode⟩ := by
          obtain ⟨inode, isInode, isContent⟩ :=
            first.added content (List.mem_singleton_self _) isNone
          obtain ⟨isLast, same⟩ := later.kept _ inode isInode
          exact ⟨inode, isLast, same.trans isContent⟩
        intro other member isNone
        by_cases same : other = content
        · rw [same] at isNone ⊢
          exact here isNone
        · refine later.added other ((List.mem_cons.mp member).resolve_left same) ?_
          -- a new entry is under the hash of another content
          have apart : crates.blake3 other ≠ crates.blake3 content :=
            fun sameHash => same (ideal.injective sameHash)
          unfold putBytes putBytesKeyed
          split
          · exact isNone
          · rw [Disk.inodeOf_create, if_neg (by simpa using apart), isNone]
      · intro location
        rw [later.paths, first.paths]

theorem Stored.storedInode {before after : PackageDisk} {contents : List Bytes}
    (stored : Stored crates before after contents) {content : Bytes} (member : content ∈ contents) :
    ∃ inode, after.inodeOf (.entry (crates.blake3 content)) = some inode ∧
      after.inodes inode = storedInode crates before content := by
  unfold PackageRoundTrip.storedInode
  cases isEntry : before.inodeOf (.entry (crates.blake3 content)) with
  | some inode =>
      obtain ⟨isInode, same⟩ := stored.kept _ inode isEntry
      exact ⟨inode, isInode, same⟩
  | none => exact stored.added content member isEntry

end Capture

/-! Directories on the way to a file. -/

/-- The directories are there, and nothing else has changed. -/
structure Made (locations : List Location) (disk made : PackageDisk) : Prop where
  inodes : made.inodes = disk.inodes
  fresh : made.fresh = disk.fresh
  entries : ∀ key, made.names (.entry key) = disk.names (.entry key)
  there : ∀ location ∈ locations, made.names (.path location) = some .directory
  others : ∀ location, location ∉ locations →
    made.names (.path location) = disk.names (.path location)

def IsFree (disk : PackageDisk) (location : Location) : Prop :=
  disk.names (.path location) = none ∨ disk.names (.path location) = some .directory

theorem makeDir_free {disk : PackageDisk} {location : Location} (isFree : IsFree disk location) :
    (makeDir location disk).1 = true ∧ Made [location] disk (makeDir location disk).2 := by
  unfold makeDir
  rcases isFree with isNone | isDirectory
  · rw [isNone]
    refine ⟨rfl, rfl, rfl, ?_, ?_, ?_⟩
    · intro key
      simp [Disk.makeDirectory, Disk.setName]
    · intro other member
      obtain rfl := List.mem_singleton.mp member
      simp [Disk.makeDirectory, Disk.setName]
    · intro other apart
      simp only [List.mem_singleton] at apart
      simp [Disk.makeDirectory, Disk.setName, apart]
  · rw [isDirectory]
    refine ⟨rfl, rfl, rfl, fun _ => rfl, ?_, fun _ _ => rfl⟩
    intro other member
    obtain rfl := List.mem_singleton.mp member
    exact isDirectory

theorem makeDirs_free {locations : List Location} {disk : PackageDisk}
    (isFree : ∀ location ∈ locations, IsFree disk location) :
    (tryEach makeDir locations disk).1 = true ∧
      Made locations disk (tryEach makeDir locations disk).2 := by
  induction locations generalizing disk with
  | nil => exact ⟨rfl, rfl, rfl, fun _ => rfl, fun _ member => by simp at member, fun _ _ => rfl⟩
  | cons location locations ih =>
      obtain ⟨succeeds, first⟩ := makeDir_free (isFree location List.mem_cons_self)
      have stillFree : ∀ other ∈ locations, IsFree (makeDir location disk).2 other := by
        intro other member
        unfold IsFree
        by_cases same : other = location
        · exact Or.inr (first.there other (List.mem_singleton.mpr same))
        · rw [first.others other (by simpa using same)]
          exact isFree other (List.mem_cons_of_mem _ member)
      obtain ⟨succeedsToo, later⟩ := ih stillFree
      rw [tryEach, if_pos succeeds]
      refine ⟨succeedsToo, later.inodes.trans first.inodes, later.fresh.trans first.fresh,
        ?_, ?_, ?_⟩
      · intro key
        rw [later.entries, first.entries]
      · intro other member
        by_cases isLater : other ∈ locations
        · exact later.there other isLater
        · rw [later.others other isLater]
          exact first.there other
            (List.mem_singleton.mpr ((List.mem_cons.mp member).resolve_right isLater))
      · intro other absent
        rw [List.mem_cons, not_or] at absent
        rw [later.others other absent.2, first.others other (by simpa using absent.1)]

/-! One file into a place that is free. -/

section Link

variable {leads : Location → Bytes → Location} {answer : Location → Answer}
  {start disk : PackageDisk}

/-- What `link` makes of a target that does not exist: a name of the inode of the entry, or of a
copy of it. -/
structure Linked (disk linked : PackageDisk) (key : Bytes) (target : Location) (source : Nat) :
    Prop where
  entries : ∀ key, linked.names (.entry key) = disk.names (.entry key)
  inodes : ∀ inode, inode < disk.fresh → linked.inodes inode = disk.inodes inode
  fresh : disk.fresh ≤ linked.fresh
  there : ∃ inode, linked.names (.path target) = some (.file inode) ∧
    linked.inodes inode = disk.inodes source
  others : ∀ location, location ≠ target →
    linked.names (.path location) = disk.names (.path location)

theorem resolve_absent {location : Location} (absent : disk.names (.path location) = none) :
    resolve leads disk maxLinks location = some location := by
  rw [maxLinks, resolve, absent]

theorem clearTarget_absent {location : Location} (absent : disk.names (.path location) = none)
    (removes : Bool) : clearTarget leads disk location removes = disk := by
  have noFile : fileAt leads disk location = none := by
    rw [fileAt, resolve_absent absent, Option.bind_some, Disk.inodeOf, absent, Option.bind_none]
  rw [clearTarget, noFile]
  rfl

theorem linked_link {key : Bytes} {target : Location} {source : Nat}
    (isSource : disk.inodeOf (.entry key) = some source) :
    Linked disk (disk.link (.entry key) (.path target)) key target source := by
  constructor
  · intro other
    simp [Disk.link, Disk.setName]
  · intro inode _
    rfl
  · exact Nat.le_refl _
  · refine ⟨source, ?_, rfl⟩
    rw [← Disk.names_of_inodeOf isSource]
    simp [Disk.link, Disk.setName]
  · intro other apart
    simp [Disk.link, Disk.setName, apart]

theorem linked_create {key : Bytes} {target : Location} {source : Nat} :
    Linked disk (disk.create (.path target) (disk.inodes source).content (disk.inodes source).mode)
      key target source := by
  constructor
  · intro other
    simp [Disk.create]
  · intro inode below
    rw [Disk.inodes_create_of_ne _ (Nat.ne_of_lt below)]
  · exact Nat.le_succ _
  · exact ⟨disk.fresh, by simp [Disk.create], Disk.inodes_create_fresh ..⟩
  · intro other apart
    simp [Disk.create, apart]

theorem linkedStore_link_absent (leads : Location → Bytes → Location) {key : Bytes}
    {target : Location} {source : Nat} (isSource : disk.inodeOf (.entry key) = some source)
    (absent : disk.names (.path target) = none) (reply : Answer) (parents : reply.parents = true) :
    ((LinkedStore.link leads disk key target reply).1 = true ↔
        Accepts reply (disk.inodes source).mode) ∧
      ((LinkedStore.link leads disk key target reply).1 = true →
        Linked disk (LinkedStore.link leads disk key target reply).2 key target source) := by
  have isFile : disk.isFile (.entry key) = true := by rw [Disk.isFile, isSource]; rfl
  have isCopy : copy leads disk key target =
      if readable (disk.inodes source).mode then
        some (disk.create (.path target) (disk.inodes source).content (disk.inodes source).mode)
      else none := by
    rw [copy, isSource, resolve_absent absent]
    simp only [absent]
  unfold LinkedStore.link
  rw [if_pos ⟨isFile, parents⟩, clearTarget_absent absent]
  unfold hardLink Accepts
  cases links : reply.links with
  | true =>
      simp only [isFile, absent, and_self, ↓reduceIte]
      exact ⟨by simp [parents], fun _ => linked_link isSource⟩
  | false =>
      cases copies : reply.copies with
      | false => simp
      | true =>
          by_cases isReadable : readable (disk.inodes source).mode = true
          · simp only [isCopy, isReadable, ↓reduceIte, Bool.false_eq_true, and_false]
            exact ⟨by simp [parents], fun _ => linked_create⟩
          · simp [isCopy, isReadable]

/-! All files, one after the other. -/

def Above (location target : Location) : Prop := location <+: target ∧ location ≠ target

theorem mem_inits_dropLast {location target : Location} (filled : target ≠ []) :
    location ∈ target.dropLast.inits ↔ Above location target := by
  rw [List.mem_inits, Above]
  have split : target.dropLast ++ [target.getLast filled] = target :=
    List.dropLast_append_getLast filled
  constructor
  · intro above
    refine ⟨above.trans (List.dropLast_prefix target), ?_⟩
    rintro rfl
    have shorter := above.length_le
    have pos := List.length_pos_of_ne_nil filled
    rw [List.length_dropLast] at shorter
    omega
  · rintro ⟨above, apart⟩
    rw [← split, List.prefix_concat_iff] at above
    exact above.resolve_left fun same => apart (same.trans split)

/-- Neither location is the other or lies below it. -/
def Separate (first second : Location) : Prop := ¬ first <+: second ∧ ¬ second <+: first

def Apart (target : Location) (done : List (Location × Bytes)) : Prop :=
  ∀ file ∈ done, Separate file.1 target

theorem Apart.new {target : Location} {done : List (Location × Bytes)} (apart : Apart target done) :
    target ∉ done.map Prod.fst := by
  intro member
  obtain ⟨file, isDone, rfl⟩ := List.mem_map.mp member
  exact (apart file isDone).1 (List.prefix_refl _)

theorem Apart.notAbove {target : Location} {done : List (Location × Bytes)}
    (apart : Apart target done) : ∀ file ∈ done, ¬ Above target file.1 :=
  fun file isDone isAbove => (apart file isDone).2 isAbove.1

theorem Apart.notBelow {target : Location} {done : List (Location × Bytes)}
    (apart : Apart target done) : ∀ file ∈ done, ¬ Above file.1 target :=
  fun file isDone isAbove => (apart file isDone).1 isAbove.1

structure Restoring (start disk : PackageDisk) (done : List (Location × Bytes)) : Prop where
  entries : ∀ key, disk.names (.entry key) = start.names (.entry key)
  inodes : ∀ inode, inode < start.fresh → disk.inodes inode = start.inodes inode
  fresh : start.fresh ≤ disk.fresh
  file : ∀ file ∈ done, ∃ source inode, start.inodeOf (.entry file.2) = some source ∧
    disk.names (.path file.1) = some (.file inode) ∧ disk.inodes inode = start.inodes source
  above : ∀ location, (∃ file ∈ done, Above location file.1) →
    disk.names (.path location) = some .directory
  others : ∀ location, location ∉ done.map Prod.fst → (¬ ∃ file ∈ done, Above location file.1) →
    disk.names (.path location) = none

variable {done : List (Location × Bytes)} {key : Bytes} {target : Location} {source : Nat}

theorem Restoring.free (restoring : Restoring start disk done) (filled : target ≠ [])
    (apart : Apart target done) : ∀ location ∈ target.dropLast.inits, IsFree disk location := by
  intro location member
  have isAbove := (mem_inits_dropLast filled).mp member
  by_cases within : ∃ file ∈ done, Above location file.1
  · exact Or.inr (restoring.above location within)
  · refine Or.inl (restoring.others location ?_ within)
    intro isDone
    obtain ⟨file, isFile, rfl⟩ := List.mem_map.mp isDone
    exact apart.notBelow file isFile isAbove

theorem Restoring.absent (restoring : Restoring start disk done) (apart : Apart target done) :
    disk.names (.path target) = none :=
  restoring.others target apart.new fun ⟨file, isFile, isAbove⟩ =>
    apart.notAbove file isFile isAbove

/-- The step of the loop, when it succeeds. -/
theorem Restoring.linked {made linked : PackageDisk} (restoring : Restoring start disk done)
    (isSource : start.inodeOf (.entry key) = some source) (filled : target ≠ [])
    (apart : Apart target done) (isMade : Made target.dropLast.inits disk made)
    (isLinked : Linked made linked key target source) :
    Restoring start linked (done ++ [(target, key)]) := by
  have sourceBelow : source < start.fresh := start.allocated _ source isSource
  have kept {inode : Nat} (below : inode < disk.fresh) :
      linked.inodes inode = disk.inodes inode := by
    rw [isLinked.inodes inode (isMade.fresh ▸ below), isMade.inodes]
  have same {location : Location} (notTarget : location ≠ target)
      (notAbove : ¬ Above location target) :
      linked.names (.path location) = disk.names (.path location) := by
    rw [isLinked.others location notTarget,
      isMade.others location fun member => notAbove ((mem_inits_dropLast filled).mp member)]
  constructor
  · intro key
    rw [isLinked.entries, isMade.entries, restoring.entries]
  · intro inode below
    rw [kept (Nat.lt_of_lt_of_le below restoring.fresh), restoring.inodes inode below]
  · exact restoring.fresh.trans (isMade.fresh ▸ isLinked.fresh)
  · intro file member
    rcases List.mem_append.mp member with isDone | isNew
    · obtain ⟨source, inode, isSource, isFile, isSame⟩ := restoring.file file isDone
      have below : inode < disk.fresh :=
        disk.allocated (.path file.1) inode (by rw [isFile]; rfl)
      have notTarget : file.1 ≠ target := by
        rintro rfl
        exact apart.new (List.mem_map_of_mem isDone)
      exact ⟨source, inode, isSource, (same notTarget (apart.notBelow file isDone)).trans isFile,
        (kept below).trans isSame⟩
    · obtain rfl := List.mem_singleton.mp isNew
      obtain ⟨inode, isFile, isSame⟩ := isLinked.there
      refine ⟨source, inode, isSource, isFile, isSame.trans ?_⟩
      rw [isMade.inodes, restoring.inodes source sourceBelow]
  · rintro location ⟨file, member, isAbove⟩
    have notTarget : location ≠ target := by
      rintro rfl
      rcases List.mem_append.mp member with isDone | isNew
      · exact apart.notAbove file isDone isAbove
      · obtain rfl := List.mem_singleton.mp isNew
        exact isAbove.2 rfl
    rw [isLinked.others location notTarget]
    by_cases aboveTarget : Above location target
    · exact isMade.there location ((mem_inits_dropLast filled).mpr aboveTarget)
    · rw [isMade.others location fun inits => aboveTarget ((mem_inits_dropLast filled).mp inits)]
      rcases List.mem_append.mp member with isDone | isNew
      · exact restoring.above location ⟨file, isDone, isAbove⟩
      · obtain rfl := List.mem_singleton.mp isNew
        exact (aboveTarget isAbove).elim
  · intro location absent notAbove
    rw [List.map_append, List.mem_append, not_or] at absent
    have notTarget : location ≠ target := by simpa using absent.2
    have notAboveTarget : ¬ Above location target := fun isAbove =>
      notAbove ⟨(target, key), List.mem_append_right _ (List.mem_singleton_self _), isAbove⟩
    rw [same notTarget notAboveTarget]
    refine restoring.others location absent.1 ?_
    rintro ⟨file, isDone, isAbove⟩
    exact notAbove ⟨file, List.mem_append_left _ isDone, isAbove⟩

theorem link_restoring (leads : Location → Bytes → Location) (answer : Location → Answer)
    (restoring : Restoring start disk done)
    (isSource : start.inodeOf (.entry key) = some source) (filled : target ≠ [])
    (apart : Apart target done) :
    ((link leads answer disk key target).1 = true ↔
        Accepts (answer target) (start.inodes source).mode) ∧
      ((link leads answer disk key target).1 = true →
        Restoring start (link leads answer disk key target).2 (done ++ [(target, key)])) := by
  obtain ⟨succeeds, isMade⟩ := makeDirs_free (restoring.free filled apart)
  have isFile : disk.isFile (.entry key) = true := by
    rw [Disk.isFile, Disk.inodeOf, restoring.entries, ← Disk.inodeOf, isSource]
    rfl
  unfold link
  cases parents : (answer target).parents with
  | false => simp [Accepts, parents]
  | true =>
      rw [if_pos ⟨isFile, rfl⟩]
      simp only [createDirAll, succeeds, ↓reduceIte]
      have isMadeSource : (tryEach makeDir target.dropLast.inits disk).2.inodeOf (.entry key) =
          some source := by
        rw [Disk.inodeOf, isMade.entries, restoring.entries, ← Disk.inodeOf, isSource]
      have isMadeAbsent : (tryEach makeDir target.dropLast.inits disk).2.names (.path target) =
          none := by
        rw [isMade.others target fun member => ((mem_inits_dropLast filled).mp member).2 rfl]
        exact restoring.absent apart
      have sourceBelow : source < start.fresh := start.allocated _ source isSource
      have linkedStore := linkedStore_link_absent leads isMadeSource isMadeAbsent (answer target)
        parents
      rw [isMade.inodes, restoring.inodes source sourceBelow] at linkedStore
      exact ⟨linkedStore.1, fun linked =>
        restoring.linked isSource filled apart isMade (linkedStore.2 linked)⟩

theorem restorePackage_restoring {files : List (Path × Bytes)}
    (restoring : Restoring start disk done)
    (isSource : ∀ file ∈ files, (start.inodeOf (.entry file.2)).isSome = true)
    (filled : ∀ file ∈ files, components file.1 ≠ [])
    (apart : ∀ file ∈ files, Apart (components file.1) done)
    (separate : files.Pairwise fun first second =>
      Separate (components first.1) (components second.1)) :
    ((restorePackage leads answer files disk).1 = true ↔
        ∀ file ∈ files, ∀ source, start.inodeOf (.entry file.2) = some source →
          Accepts (answer (components file.1)) (start.inodes source).mode) ∧
      ((restorePackage leads answer files disk).1 = true →
        Restoring start (restorePackage leads answer files disk).2
          (done ++ files.map fun file => (components file.1, file.2))) := by
  induction files generalizing done disk with
  | nil =>
      refine ⟨by simp [restorePackage, tryEach], fun _ => ?_⟩
      rw [List.map_nil, List.append_nil]
      exact restoring
  | cons file files ih =>
      obtain ⟨first, rest⟩ := List.pairwise_cons.mp separate
      obtain ⟨source, isInode⟩ :=
        Option.isSome_iff_exists.mp (isSource file List.mem_cons_self)
      obtain ⟨succeeds, next⟩ := link_restoring leads answer restoring isInode
        (filled file List.mem_cons_self) (apart file List.mem_cons_self)
      have here (source' : Nat) (isSource' : start.inodeOf (.entry file.2) = some source') :
          source' = source := Option.some.inj (isSource'.symm.trans isInode)
      unfold restorePackage at ih ⊢
      by_cases linked : (link leads answer disk file.2 (components file.1)).1 = true
      · have laterApart : ∀ later ∈ files, Apart (components later.1)
            (done ++ [(components file.1, file.2)]) := by
          intro later member other isOther
          rcases List.mem_append.mp isOther with isDone | isNew
          · exact apart later (List.mem_cons_of_mem _ member) other isDone
          · obtain rfl := List.mem_singleton.mp isNew
            exact first later member
        obtain ⟨all, restored⟩ := ih (next linked)
          (fun later member => isSource later (List.mem_cons_of_mem _ member))
          (fun later member => filled later (List.mem_cons_of_mem _ member)) laterApart rest
        rw [tryEach, if_pos linked]
        constructor
        · rw [all, List.forall_mem_cons]
          constructor
          · intro accepts
            exact ⟨fun _ isSource' => here _ isSource' ▸ succeeds.mp linked, accepts⟩
          · intro accepts
            exact accepts.2
        · intro succeeded
          simpa using restored succeeded
      · rw [tryEach, if_neg linked]
        constructor
        · constructor
          · intro succeeded
            exact (linked succeeded).elim
          · intro accepts
            exact succeeds.mpr (accepts file List.mem_cons_self source isInode)
        · intro succeeded
          exact (linked succeeded).elim

end Link

/-! The places of a package. -/

theorem place_injective : Function.Injective place := by
  refine List.map_injective_iff.mpr fun first second same => ?_
  obtain ⟨text⟩ := first
  obtain ⟨other⟩ := second
  obtain rfl : text = other := by simpa using same
  rfl

theorem place_prefix_iff {first second : List FileName} :
    place first <+: place second ↔ first <+: second := by
  constructor
  · intro above
    obtain ⟨path, isAbove, same⟩ := List.prefix_map_iff.mp above
    rwa [place_injective same]
  · intro above
    exact above.map _

theorem components_relPath {names : List FileName} (filled : names ≠ []) :
    components (relPath names) = place names := components_joinNames filled

section Tree

variable {tree : PackageTree}

theorem names_filled {found : Listing.Found FileName Unit Leaf} (member : found ∈ tree.leaves) :
    found.names ≠ [] := by
  obtain ⟨name, rest, isNames, _⟩ := Listing.names_of_found member
  simp [isNames]

theorem entryOf_leaf (lawful : tree.Lawful) {found : Listing.Found FileName Unit Leaf}
    (member : found ∈ tree.leaves) : entryOf tree (place found.names) = some found.leaf.entry := by
  unfold entryOf
  cases isFound : tree.leaves.find? fun other => place other.names = place found.names with
  | none =>
      have none := List.find?_eq_none.mp isFound found member
      simp at none
  | some other =>
      have same := place_injective (by simpa using List.find?_some isFound)
      rw [lawful.eq_of_names (List.mem_of_find?_eq_some isFound) member same]

theorem not_leaf_of_directory (lawful : tree.Lawful) {dir : List FileName}
    (isDirectory : dir ∈ directories tree) {found : Listing.Found FileName Unit Leaf}
    (member : found ∈ tree.leaves) : found.names ≠ dir := by
  rintro rfl
  rcases List.mem_cons.mp isDirectory with isNil | below
  · exact names_filled member isNil
  · exact lawful.leaf_no_directory member below

theorem entryOf_directory (lawful : tree.Lawful) {dir : List FileName}
    (isDirectory : dir ∈ directories tree) : entryOf tree (place dir) = some .directory := by
  have noLeaf : (tree.leaves.find? fun found => place found.names = place dir) = none := by
    rw [List.find?_eq_none]
    intro found member
    have apart := not_leaf_of_directory lawful isDirectory member
    simpa using fun same => apart (place_injective same)
  unfold entryOf
  rw [noLeaf]
  exact if_pos (List.mem_map_of_mem isDirectory)

theorem entryOf_none {location : Location}
    (noLeaf : ∀ found ∈ tree.leaves, place found.names ≠ location)
    (noDirectory : ∀ dir ∈ directories tree, place dir ≠ location) :
    entryOf tree location = none := by
  have isNone : (tree.leaves.find? fun found => place found.names = location) = none := by
    rw [List.find?_eq_none]
    simpa using noLeaf
  unfold entryOf
  rw [isNone]
  refine if_neg fun member => ?_
  obtain ⟨dir, isDirectory, same⟩ := List.mem_map.mp member
  exact noDirectory dir isDirectory same

theorem separate_leaves (lawful : tree.Lawful) :
    tree.leaves.Pairwise fun first second => Separate (place first.names) (place second.names) := by
  refine (List.Nodup.of_map _ lawful.distinct).pairwise_of_forall_ne ?_
  intro first isFirst second isSecond apart
  have differ : first.names ≠ second.names :=
    fun same => apart (lawful.eq_of_names isFirst isSecond same)
  constructor
  · intro above
    exact differ (lawful.leaf_last isFirst second isSecond (place_prefix_iff.mp above))
  · intro above
    exact differ (lawful.leaf_last isSecond first isFirst (place_prefix_iff.mp above)).symm

theorem mem_regularFiles {file : RegularFile} : file ∈ regularFiles tree ↔
    ∃ found ∈ tree.leaves, found.names = file.names ∧
      found.leaf = .file file.content file.mode := by
  simp only [regularFiles, List.mem_filterMap, regular_eq_some]

/-- What lies above a regular file is a directory of the package. -/
theorem above_regular {location : Location} {file : RegularFile} (member : file ∈ regularFiles tree)
    (isAbove : Above location (place file.names)) :
    ∃ dir ∈ directories tree, location = place dir := by
  obtain ⟨found, isLeaf, isNames, _⟩ := mem_regularFiles.mp member
  obtain ⟨dir, above, rfl⟩ := List.prefix_map_iff.mp isAbove.1
  refine ⟨dir, ?_, rfl⟩
  by_cases isNil : dir = []
  · rw [isNil]
    exact List.mem_cons_self
  · refine List.mem_cons_of_mem _ (Listing.above_leaf isLeaf isNil (isNames ▸ above) ?_)
    rintro rfl
    exact isAbove.2 (by rw [isNames]; rfl)

end Tree

/-! The whole trip. -/

section Trip

variable {crates : Crates} {leads : Location → Bytes → Location} {answer : Location → Answer}
  {name version : Bytes} {tree : PackageTree} {disk : PackageDisk}

theorem capturePackage_stored (ideal : crates.Ideal) :
    Stored crates disk (capturePackage crates name version tree disk).2
      ((regularFiles tree).map RegularFile.content) := by
  have stored := stored_foldl ideal ((regularFiles tree).map RegularFile.content) disk
  rw [List.foldl_map] at stored
  simp only [capturePackage, walk_eq]
  exact stored

theorem mem_capturePackage {file : Path × Bytes} :
    file ∈ (capturePackage crates name version tree disk).1.files ↔
      ∃ recorded ∈ regularFiles tree,
        (relPath recorded.names, crates.blake3 recorded.content) = file := by
  simp only [capturePackage, walk_eq, List.mem_insertionSort, List.nil_append, List.mem_map, record]

theorem regular_filled {file : RegularFile} (member : file ∈ regularFiles tree) :
    file.names ≠ [] := by
  obtain ⟨found, isLeaf, isNames, _⟩ := mem_regularFiles.mp member
  exact isNames ▸ names_filled isLeaf

theorem regular_located {file : RegularFile} (member : file ∈ regularFiles tree) :
    components (relPath file.names) = place file.names :=
  components_relPath (regular_filled member)

/-- The targets of a restore are the places of the regular files. -/
theorem mem_targets {target : Location × Bytes} :
    target ∈ (capturePackage crates name version tree disk).1.files.map
        (fun file => (components file.1, file.2)) ↔
      ∃ file ∈ regularFiles tree, (place file.names, crates.blake3 file.content) = target := by
  constructor
  · intro member
    obtain ⟨file, isFile, rfl⟩ := List.mem_map.mp member
    obtain ⟨recorded, isRegular, rfl⟩ := mem_capturePackage.mp isFile
    exact ⟨recorded, isRegular, by rw [regular_located isRegular]⟩
  · rintro ⟨recorded, isRegular, rfl⟩
    refine List.mem_map.mpr ⟨_, mem_capturePackage.mpr ⟨recorded, isRegular, rfl⟩, ?_⟩
    rw [regular_located isRegular]

theorem capturePackage_separate (lawful : tree.Lawful) :
    (capturePackage crates name version tree disk).1.files.Pairwise fun first second =>
      Separate (components first.1) (components second.1) := by
  have symmetric {first second : Path × Bytes}
      (separate : Separate (components first.1) (components second.1)) :
      Separate (components second.1) (components first.1) := separate.symm
  simp only [capturePackage, walk_eq, List.nil_append]
  rw [(List.perm_insertionSort _ _).pairwise_iff symmetric, List.pairwise_map]
  unfold regularFiles
  rw [List.pairwise_filterMap]
  refine (separate_leaves lawful).imp_of_mem ?_
  intro first second isFirst isSecond separate file isFile other isOther
  have isNames := (regular_eq_some.mp isFile).1
  have isOtherNames := (regular_eq_some.mp isOther).1
  simp only [record, List.nil_append, ← isNames, ← isOtherNames]
  rwa [components_relPath (names_filled isFirst), components_relPath (names_filled isSecond)]

/-- What a successful restore leaves. -/
structure Restored (crates : Crates) (disk : PackageDisk) (tree : PackageTree)
    (restored : PackageDisk) : Prop where
  file : ∀ file ∈ regularFiles tree, entryAt restored (place file.names) =
    some (.file (storedInode crates disk file.content).content
      (storedInode crates disk file.content).mode)
  directory : ∀ location, (∃ file ∈ regularFiles tree, Above location (place file.names)) →
    entryAt restored location = some .directory
  absent : ∀ location, (∀ file ∈ regularFiles tree, place file.names ≠ location) →
    (¬ ∃ file ∈ regularFiles tree, Above location (place file.names)) →
      entryAt restored location = none

/-- The entry that a capture leaves for a file. -/
theorem captured_source (ideal : crates.Ideal) {file : RegularFile}
    (member : file ∈ regularFiles tree) :
    ∃ inode, (capturePackage crates name version tree disk).2.inodeOf
        (.entry (crates.blake3 file.content)) = some inode ∧
      (capturePackage crates name version tree disk).2.inodes inode =
        storedInode crates disk file.content :=
  (capturePackage_stored ideal).storedInode (List.mem_map_of_mem member)

theorem captured_restoring (ideal : crates.Ideal) (lawful : tree.Lawful)
    (empty : ∀ location, disk.names (.path location) = none) :
    let captured := capturePackage crates name version tree disk
    let restored := restorePackage leads answer captured.1.files captured.2
    (restored.1 = true ↔ ∀ file ∈ captured.1.files, ∀ source,
        captured.2.inodeOf (.entry file.2) = some source →
          Accepts (answer (components file.1)) (captured.2.inodes source).mode) ∧
      (restored.1 = true → Restoring captured.2 restored.2
        (captured.1.files.map fun file => (components file.1, file.2))) := by
  intro captured restored
  have stored : Stored crates disk captured.2 ((regularFiles tree).map RegularFile.content) :=
    capturePackage_stored ideal
  have start : Restoring captured.2 captured.2 [] := by
    refine ⟨fun _ => rfl, fun _ _ => rfl, Nat.le_refl _, by simp, by simp, ?_⟩
    intro location _ _
    rw [stored.paths, empty]
  have sources : ∀ file ∈ captured.1.files,
      (captured.2.inodeOf (.entry file.2)).isSome = true := by
    intro file member
    obtain ⟨recorded, isRegular, rfl⟩ := mem_capturePackage.mp member
    obtain ⟨inode, isInode, _⟩ := captured_source ideal isRegular
    exact Option.isSome_iff_exists.mpr ⟨inode, isInode⟩
  have filled : ∀ file ∈ captured.1.files, components file.1 ≠ [] := by
    intro file member
    obtain ⟨recorded, isRegular, rfl⟩ := mem_capturePackage.mp member
    rw [regular_located isRegular]
    simpa [place] using regular_filled isRegular
  exact restorePackage_restoring start sources filled (fun _ _ _ member => by simp at member)
    (capturePackage_separate lawful)

theorem restored_of_restoring (ideal : crates.Ideal) {restored : PackageDisk}
    (done : Restoring (capturePackage crates name version tree disk).2 restored
      ((capturePackage crates name version tree disk).1.files.map
        fun file => (components file.1, file.2))) : Restored crates disk tree restored := by
  constructor
  · intro file member
    obtain ⟨isSource, inode, isInode, isFile, same⟩ :=
      done.file _ (mem_targets.mpr ⟨file, member, rfl⟩)
    obtain ⟨other, isOther, isStored⟩ := captured_source ideal member
    obtain rfl : other = isSource := Option.some.inj (isOther.symm.trans isInode)
    rw [isStored] at same
    simp only [entryAt, isFile, Option.map_some, same]
  · rintro location ⟨file, member, isAbove⟩
    have isDirectory := done.above location ⟨_, mem_targets.mpr ⟨file, member, rfl⟩, isAbove⟩
    simp only [entryAt, isDirectory, Option.map_some]
  · intro location notFile notAbove
    have isNone := done.others location
      (by
        intro member
        obtain ⟨target, isDone, rfl⟩ := List.mem_map.mp member
        obtain ⟨file, isRegular, rfl⟩ := mem_targets.mp isDone
        exact notFile file isRegular rfl)
      (by
        rintro ⟨target, isDone, isAbove⟩
        obtain ⟨file, isRegular, rfl⟩ := mem_targets.mp isDone
        exact notAbove ⟨file, isRegular, isAbove⟩)
    simp only [entryAt, isNone, Option.map_none]

theorem restorePackage_restored (ideal : crates.Ideal) (lawful : tree.Lawful)
    (empty : ∀ location, disk.names (.path location) = none) :
    let captured := capturePackage crates name version tree disk
    let restored := restorePackage leads answer captured.1.files captured.2
    (restored.1 = true ↔ ∀ file ∈ regularFiles tree,
        Accepts (answer (place file.names)) (storedInode crates disk file.content).mode) ∧
      (restored.1 = true → Restored crates disk tree restored.2) := by
  intro captured restored
  obtain ⟨succeeds, restoring⟩ := captured_restoring ideal lawful empty
  refine ⟨?_, fun succeeded => restored_of_restoring ideal (restoring succeeded)⟩
  rw [succeeds]
  constructor
  · intro accepts file member
    obtain ⟨inode, isInode, isStored⟩ := captured_source ideal member
    have accepted := accepts _ (mem_capturePackage.mpr ⟨file, member, rfl⟩) inode isInode
    rwa [regular_located member, isStored] at accepted
  · intro accepts file member inode isInode
    obtain ⟨recorded, isRegular, rfl⟩ := mem_capturePackage.mp member
    obtain ⟨other, isOther, isStored⟩ := captured_source ideal isRegular
    obtain rfl : other = inode := Option.some.inj (isOther.symm.trans isInode)
    rw [regular_located isRegular, isStored]
    exact accepts recorded isRegular

theorem mem_regular_of_leaf {found : Listing.Found FileName Unit Leaf}
    (member : found ∈ tree.leaves) {content : Bytes} {mode : Nat}
    (isFile : found.leaf = .file content mode) :
    (⟨found.names, content, mode⟩ : RegularFile) ∈ regularFiles tree :=
  mem_regularFiles.mpr ⟨found, member, rfl, isFile⟩

theorem Restored.irregular {restored : PackageDisk}
    (isRestored : Restored crates disk tree restored) (lawful : tree.Lawful)
    {found : Listing.Found FileName Unit Leaf} (member : found ∈ tree.leaves)
    (notFile : ∀ content mode, found.leaf ≠ .file content mode) :
    entryAt restored (place found.names) = none := by
  refine isRestored.absent _ ?_ ?_
  · intro file isRegular same
    obtain ⟨other, isLeaf, isNames, isFile⟩ := mem_regularFiles.mp isRegular
    have isSame := lawful.eq_of_names isLeaf member (isNames.trans (place_injective same))
    exact notFile _ _ (isSame ▸ isFile)
  · rintro ⟨file, isRegular, isAbove⟩
    obtain ⟨dir, isDirectory, same⟩ := above_regular isRegular isAbove
    exact not_leaf_of_directory lawful isDirectory member (place_injective same)

theorem Restored.of_same {restored : PackageDisk} (isRestored : Restored crates disk tree restored)
    (lawful : tree.Lawful)
    (same : ∀ location, Same (entryAt restored location) (entryOf tree location))
    (accepts : ∀ file ∈ regularFiles tree,
      Accepts (answer (place file.names)) (storedInode crates disk file.content).mode) :
    Kept crates answer tree disk := by
  have sameFile {found : Listing.Found FileName Unit Leaf} (member : found ∈ tree.leaves)
      {content : Bytes} {mode : Nat} (isFile : found.leaf = .file content mode) :
      (storedInode crates disk content).content = content ∧
        (storedInode crates disk content).mode &&& executableBits = mode &&& executableBits := by
    have here := same (place found.names)
    rwa [isRestored.file _ (mem_regular_of_leaf member isFile), entryOf_leaf lawful member, isFile]
      at here
  constructor
  · intro found member
    have here := same (place found.names)
    rw [entryOf_leaf lawful member] at here
    cases isLeaf : found.leaf with
    | file content mode => exact ⟨content, mode, rfl⟩
    | symlink target =>
        rw [isRestored.irregular lawful member (by simp [isLeaf])] at here
        simp [Same] at here
    | special =>
        rw [isRestored.irregular lawful member (by simp [isLeaf])] at here
        simp [Same] at here
  · intro dir isDirectory
    have here := same (place dir)
    rw [entryOf_directory lawful isDirectory] at here
    by_cases within : ∃ file ∈ regularFiles tree, Above (place dir) (place file.names)
    · obtain ⟨file, isRegular, isAbove⟩ := within
      obtain ⟨found, isLeaf, isNames, _⟩ := mem_regularFiles.mp isRegular
      exact ⟨found, isLeaf, isNames ▸ place_prefix_iff.mp isAbove.1⟩
    · rw [isRestored.absent _ ?_ within] at here
      · simp [Same] at here
      · intro file isRegular isSame
        obtain ⟨found, isLeaf, isNames, _⟩ := mem_regularFiles.mp isRegular
        exact not_leaf_of_directory lawful isDirectory isLeaf
          (isNames.trans (place_injective isSame))
  · intro found member content mode isFile
    exact (sameFile member isFile).1
  · intro found member content mode isFile
    exact (sameFile member isFile).2
  · intro found member content mode isFile
    exact accepts _ (mem_regular_of_leaf member isFile)

theorem Restored.same {restored : PackageDisk} (isRestored : Restored crates disk tree restored)
    (lawful : tree.Lawful) (kept : Kept crates answer tree disk) (location : Location) :
    Same (entryAt restored location) (entryOf tree location) := by
  by_cases isLeaf : ∃ found ∈ tree.leaves, place found.names = location
  · obtain ⟨found, member, rfl⟩ := isLeaf
    obtain ⟨content, mode, isFile⟩ := kept.regular found member
    rw [isRestored.file _ (mem_regular_of_leaf member isFile), entryOf_leaf lawful member, isFile]
    exact ⟨kept.content found member content mode isFile,
      kept.mode found member content mode isFile⟩
  · by_cases isDirectory : ∃ dir ∈ directories tree, place dir = location
    · obtain ⟨dir, member, rfl⟩ := isDirectory
      obtain ⟨found, isFound, above⟩ := kept.filled dir member
      obtain ⟨content, mode, isFile⟩ := kept.regular found isFound
      have isAbove : Above (place dir) (place found.names) := by
        refine ⟨place_prefix_iff.mpr above, fun same => ?_⟩
        exact not_leaf_of_directory lawful member isFound (place_injective same).symm
      rw [entryOf_directory lawful member,
        isRestored.directory _ ⟨_, mem_regular_of_leaf isFound isFile, isAbove⟩]
      rfl
    · have noLeaf : ∀ found ∈ tree.leaves, place found.names ≠ location :=
        fun found member same => isLeaf ⟨found, member, same⟩
      have noDirectory : ∀ dir ∈ directories tree, place dir ≠ location :=
        fun dir member same => isDirectory ⟨dir, member, same⟩
      rw [entryOf_none noLeaf noDirectory, isRestored.absent location]
      · rfl
      · intro file isRegular same
        obtain ⟨found, member, isNames, _⟩ := mem_regularFiles.mp isRegular
        exact noLeaf found member (isNames ▸ same)
      · rintro ⟨file, isRegular, isAbove⟩
        obtain ⟨dir, member, same⟩ := above_regular isRegular isAbove
        exact noDirectory dir member same.symm

theorem kept_of_roundTrips (ideal : crates.Ideal) (lawful : tree.Lawful)
    (empty : ∀ location, disk.names (.path location) = none)
    (roundTrips : RoundTrips crates leads answer name version tree disk) :
    Kept crates answer tree disk := by
  obtain ⟨succeeds, restored⟩ := restorePackage_restored ideal lawful empty
  obtain ⟨succeeded, same⟩ := roundTrips
  exact (restored succeeded).of_same lawful same (succeeds.mp succeeded)

theorem roundTrips_of_kept (ideal : crates.Ideal) (lawful : tree.Lawful)
    (empty : ∀ location, disk.names (.path location) = none) (kept : Kept crates answer tree disk) :
    RoundTrips crates leads answer name version tree disk := by
  obtain ⟨succeeds, restored⟩ := restorePackage_restored ideal lawful empty
  have succeeded := succeeds.mpr fun file member => by
    obtain ⟨found, isLeaf, isNames, isFile⟩ := mem_regularFiles.mp member
    exact isNames ▸ kept.accepts found isLeaf _ _ isFile
  exact ⟨succeeded, (restored succeeded).same lawful kept⟩

/-- A package directory comes back as it was if and only if it has regular files only, below each
directory one, and the store has them with their executable bits. -/
theorem capture_restore_iff (ideal : crates.Ideal) (lawful : tree.Lawful)
    (empty : ∀ location, disk.names (.path location) = none) :
    RoundTrips crates leads answer name version tree disk ↔ Kept crates answer tree disk :=
  ⟨kept_of_roundTrips ideal lawful empty, roundTrips_of_kept ideal lawful empty⟩

end Trip

/-! A package of one file, executable or not. -/

def cliFile : FileName :=
  ⟨utf8 "cli.js", by decide +kernel, by decide +kernel, by decide +kernel, by decide +kernel⟩

def cliPackage (mode : Nat) : PackageTree :=
  .leaf cliFile (.file (utf8 "#!/usr/bin/env node") mode) .done

theorem cliPackage_lawful (mode : Nat) : (cliPackage mode).Lawful :=
  ⟨by simp [Listing.names], trivial⟩

def stay (location : Location) (_ : Bytes) : Location := location

theorem capture_restore_iff_cli :
    RoundTrips Crates.plain stay (fun _ => .fine) (utf8 "cli") (utf8 "1.0.0") (cliPackage 0o644)
        emptyDisk ↔
      Kept Crates.plain (fun _ => .fine) (cliPackage 0o644) emptyDisk :=
  capture_restore_iff Crates.plain_ideal (cliPackage_lawful _) fun _ => rfl

/-- An executable file is restored without its executable bits. -/
theorem executable_restored_plain :
    ¬ RoundTrips Crates.plain stay (fun _ => .fine) (utf8 "cli") (utf8 "1.0.0") (cliPackage 0o755)
      emptyDisk := by
  intro roundTrips
  have kept := kept_of_roundTrips Crates.plain_ideal (cliPackage_lawful _) (fun _ => rfl) roundTrips
  have bits := kept.mode _ List.mem_cons_self (utf8 "#!/usr/bin/env node") 0o755 rfl
  have isStored : storedInode Crates.plain emptyDisk (utf8 "#!/usr/bin/env node") =
      ⟨utf8 "#!/usr/bin/env node", createMode⟩ := rfl
  rw [isStored] at bits
  revert bits
  decide

end Rage.PackageRoundTrip
