import Mathlib.Data.List.Induction
import Rage.DeltaRoundTrip
import Rage.Extraction
import Rage.FileRestore
import Rage.LockfileKeys

/-!
The restore of packages from their files, the links in `.bin` after it, and the capture of archives,
in whatever order the system lists a directory.  System calls succeed where the tree allows them,
and the store is on the same device as the workspace.
-/

namespace Rage.ListingOrder

open Inodes LinkedStore
open FileRestore (Layout ancestors targetOf)

abbrev nodeModules (workspaceRoot : Path) : Path := FileRestore.nodeModules workspaceRoot

section

variable {π : Type} [DecidableEq π]

/-- Hard links are made, so `link` never copies. -/
def linking : Answer := { Answer.fine with copies := false }

def behind (layout : Layout π) (disk : StoreDisk π) (place : π) : Option (Dirent Bytes) :=
  (resolve layout.leads disk maxLinks place).bind fun final => disk.names (.path final)

def isDir (layout : Layout π) (disk : StoreDisk π) (place : π) : Bool :=
  behind layout disk place = some .directory

def makeDir (layout : Layout π) (place : π) (disk : StoreDisk π) : Bool × StoreDisk π :=
  if isDir layout disk place then (true, disk)
  else if disk.names (.path place) = none then (true, disk.makeDirectory (.path place))
  else (false, disk)

/-! `try_restore_from_cas`.  The json files are given in the order in which they are listed. -/

structure FileLink where
  hash : Bytes
  target : Path
  deriving DecidableEq

def FileLink.place (layout : Layout π) (file : FileLink) : π := layout.place file.target

def FileLink.above (layout : Layout π) (file : FileLink) : List π :=
  (ancestors file.target).map layout.place

def link (layout : Layout π) (file : FileLink) (disk : StoreDisk π) : Bool × StoreDisk π :=
  if disk.isFile (.entry file.hash) then
    let made := tryEach (makeDir layout) (file.above layout) disk
    if made.1 then LinkedStore.link layout.leads made.2 file.hash (file.place layout) linking
    else made
  else (false, disk)

def filesOf (workspaceRoot : Path) (package : PackageArtifact) : List FileLink :=
  package.files.map fun file => ⟨file.2, targetOf workspaceRoot package file.1⟩

def restorePackage (layout : Layout π) (workspaceRoot : Path) (package : PackageArtifact)
    (disk : StoreDisk π) : Bool × StoreDisk π :=
  tryEach (link layout) (filesOf workspaceRoot package) disk

def containsAll (disk : StoreDisk π) (packages : List PackageArtifact) : Bool :=
  packages.all fun package => package.files.all fun file => disk.isFile (.entry file.2)

def tryRestoreFromCas (layout : Layout π) (dir : Option ArtifactDir) (workspaceRoot : Path)
    (disk : StoreDisk π) : Option Bool × StoreDisk π :=
  match dir with
  | none => (some false, disk)
  | some dir =>
      match readManifests dir with
      | none => (none, disk)
      | some packages =>
          if packages.isEmpty then (some false, disk)
          else if containsAll disk packages then
            let restored := tryEach (restorePackage layout workspaceRoot) packages disk
            (if restored.1 then some true else none, restored.2)
          else (some false, disk)

/-! `create_bin_links`. -/

/-- The names in the directory that a path leads to: a function of its entries. -/
structure Directories (layout : Layout π) where
  entries : Path → StoreDisk π → Option (List Bytes)
  ofEntries : ∀ path first second,
    (∀ name, first.names (.path (layout.place (Path.join path name))) =
      second.names (.path (layout.place (Path.join path name)))) →
      entries path first = entries path second

abbrev Lister (π : Type) := Path → StoreDisk π → Option (List Bytes)

/-- A way to list directories: the same names in some order. -/
def Lists {layout : Layout π} (directories : Directories layout) (lister : Lister π) : Prop :=
  ∀ path disk, match directories.entries path disk with
    | some names => ∃ listed, lister path disk = some listed ∧ listed.Perm names
    | none => lister path disk = none

/-- `serde_json` on the text of a `package.json`, and `pathdiff`. -/
structure Manifests where
  bin : Bytes → Option Extraction.BinField
  diffPaths : Path → Path → Option Path

def readFile (layout : Layout π) (disk : StoreDisk π) (place : π) : Option Bytes :=
  (fileAt layout.leads disk place).bind fun inode =>
    if readable (disk.inodes inode).mode then some (disk.inodes inode).content else none

structure Package where
  dir : Path
  name : Bytes
  deriving DecidableEq

def binLink (layout : Layout π) (manifests : Manifests) (binDir pkgDir : Path)
    (bin : Bytes × Bytes) : BinLink π where
  targetAbs := layout.place (pkgDir.join bin.2)
  linkPath := layout.place (binDir.join bin.1)
  relTarget := (manifests.diffPaths (pkgDir.join bin.2) binDir).getD (pkgDir.join bin.2)

def binLinks (layout : Layout π) (manifests : Manifests) (binDir : Path) (package : Package)
    (disk : StoreDisk π) : List (BinLink π) :=
  if isDir layout disk (layout.place package.dir) then
    let text := readFile layout disk (layout.place (package.dir.join (utf8 "package.json")))
    match text.bind manifests.bin with
    | some field => (field.bins package.name).map (binLink layout manifests binDir package.dir)
    | none => []
  else []

def createBinLinksForPackage (layout : Layout π) (manifests : Manifests) (binDir : Path)
    (package : Package) (disk : StoreDisk π) : Bool × StoreDisk π :=
  LinkedStore.createBinLinks layout.leads (fun _ => linking)
    (binLinks layout manifests binDir package disk) disk

def isHidden (name : Bytes) : Bool := isPrefix (utf8 ".") name

def isScope (name : Bytes) : Bool := isPrefix (utf8 "@") name

def scopedPackage (scopeDir : Path) (scope inner : Bytes) : Package :=
  ⟨scopeDir.join inner, scope ++ slash :: toStringLossy inner⟩

def createForEntry (layout : Layout π) (manifests : Manifests) (lister : Lister π)
    (modules binDir : Path) (name : Bytes) (disk : StoreDisk π) : Bool × StoreDisk π :=
  let nameStr := toStringLossy name
  let path := modules.join name
  if isHidden nameStr then (true, disk)
  else if isScope nameStr then
    if isDir layout disk (layout.place path) then
      match lister path disk with
      | some inners =>
          tryEach (fun inner => createBinLinksForPackage layout manifests binDir
            (scopedPackage path nameStr inner)) inners disk
      | none => (false, disk)
    else (true, disk)
  else createBinLinksForPackage layout manifests binDir ⟨path, nameStr⟩ disk

def binDirOf (workspaceRoot : Path) : Path := (nodeModules workspaceRoot).join (utf8 ".bin")

def makeBinDir (layout : Layout π) (workspaceRoot : Path) (disk : StoreDisk π) :
    Bool × StoreDisk π :=
  tryEach (makeDir layout)
    ((ancestors (binDirOf workspaceRoot) ++ [binDirOf workspaceRoot]).map layout.place) disk

def createBinLinks (layout : Layout π) (manifests : Manifests) (lister : Lister π)
    (workspaceRoot : Path) (disk : StoreDisk π) : Bool × StoreDisk π :=
  let made := makeBinDir layout workspaceRoot disk
  if made.1 then
    match lister (nodeModules workspaceRoot) made.2 with
    | some names =>
        tryEach (createForEntry layout manifests lister (nodeModules workspaceRoot)
          (binDirOf workspaceRoot)) names made.2
    | none => (false, made.2)
  else made

/-- What a cached root task does: the links follow a restore that succeeded, and an error of theirs
is ignored. -/
def restoreFiles (layout : Layout π) (manifests : Manifests) (lister : Lister π)
    (dir : Option ArtifactDir) (workspaceRoot : Path) (disk : StoreDisk π) : StoreDisk π :=
  match tryRestoreFromCas layout dir workspaceRoot disk with
  | (some true, restored) => (createBinLinks layout manifests lister workspaceRoot restored).2
  | (_, left) => left

end

/-! `capture_from_lockfile_packages`. -/

/-- A file of the cache, with its content if it can be read. -/
structure CacheEntry where
  name : Bytes
  content : Option Bytes
  deriving DecidableEq

def isZip (package : LockfilePackage) (entry : CacheEntry) : Bool :=
  isPrefix (LockfileKeys.berryPrefix package.name package.version) (toStringLossy entry.name) &&
    isSuffix (utf8 ".zip") (toStringLossy entry.name)

def isTgz (package : LockfilePackage) (entry : CacheEntry) : Bool :=
  isPrefix (LockfileKeys.classicPrefix package.name package.version) (toStringLossy entry.name) &&
    isSuffix (utf8 ".tgz") (toStringLossy entry.name)

def findArchive (pmCache : List CacheEntry) (package : LockfilePackage) : Option Bytes :=
  ((pmCache.find? (isZip package)).or (pmCache.find? (isTgz package))).bind CacheEntry.content

def capture (crates : Crates) (pmCache : List CacheEntry) (packages : List LockfilePackage)
    (store : ArtifactStore) : ArtifactStore :=
  packages.foldl (fun store package =>
    let key := computeCasKey crates package.integrity
    if store.containsKey key then store
    else
      match findArchive pmCache package with
      | some bytes => store.putBytesKeyed key bytes
      | none => store) store

/-! What should not depend on the order. -/

section

variable {π : Type} [DecidableEq π] (layout : Layout π) (manifests : Manifests)
  (directories : Directories layout) (workspaceRoot : Path)

/-- The same tree in `node_modules`, contents, modes and links, and the same bytes in the store,
whatever the order of the json files, the directories and the cache. -/
def OrderFree (crates : Crates) (dir : Option ArtifactDir) (disk : StoreDisk π)
    (packages : List LockfilePackage) (pmCache : List CacheEntry) (store : ArtifactStore) : Prop :=
  ∀ dir' lister lister' pmCache', dir'.isSome = dir.isSome →
    (dir'.getD []).Perm (dir.getD []) → Lists directories lister → Lists directories lister' →
      pmCache'.Perm pmCache →
    treeAt (restoreFiles layout manifests lister dir workspaceRoot disk) id =
        treeAt (restoreFiles layout manifests lister' dir' workspaceRoot disk) id ∧
      capture crates pmCache packages store = capture crates pmCache' packages store

/-! No two of the places that a restore or its bins come to are in each other's way. -/

/-- Files of one place have one hash, no file is in the place of a directory, and in their places
there are directories and files, or nothing. -/
structure Separable (disk : StoreDisk π) (files : List FileLink) : Prop where
  sameHash : ∀ file ∈ files, ∀ other ∈ files, file.place layout = other.place layout →
    file.hash = other.hash
  apart : ∀ file ∈ files, ∀ other ∈ files, file.place layout ∉ other.above layout
  dirs : ∀ file ∈ files, ∀ dir ∈ file.above layout,
    disk.names (.path dir) = none ∨ isDir layout disk dir = true
  free : ∀ file ∈ files, disk.names (.path (file.place layout)) = none ∨
    (fileAt layout.leads disk (file.place layout)).isSome = true

/-- A package that `create_bin_links` comes to, from an entry of `node_modules`. -/
inductive VisitedBy (disk : StoreDisk π) (name : Bytes) : Package → Prop
  | plain (visible : isHidden (toStringLossy name) = false)
      (noScope : isScope (toStringLossy name) = false) :
      VisitedBy disk name ⟨(nodeModules workspaceRoot).join name, toStringLossy name⟩
  | inScope (inners : List Bytes) (inner : Bytes) (visible : isHidden (toStringLossy name) = false)
      (inScope : isScope (toStringLossy name) = true)
      (isDirectory :
        isDir layout disk (layout.place ((nodeModules workspaceRoot).join name)) = true)
      (listed : directories.entries ((nodeModules workspaceRoot).join name) disk = some inners)
      (member : inner ∈ inners) :
      VisitedBy disk name
        (scopedPackage ((nodeModules workspaceRoot).join name) (toStringLossy name) inner)

/-- A bin that an entry declares; it is made if its target exists. -/
def Declared (disk : StoreDisk π) (name : Bytes) (bin : BinLink π) : Prop :=
  ∃ package, VisitedBy layout directories workspaceRoot disk name package ∧
    bin ∈ binLinks layout manifests (binDirOf workspaceRoot) package disk

def MadeBy (disk : StoreDisk π) (name : Bytes) (bin : BinLink π) : Prop :=
  Declared layout manifests directories workspaceRoot disk name bin ∧
    (behind layout disk bin.targetAbs).isSome = true

/-- The places that are looked at when links are followed. -/
def route (disk : StoreDisk π) : Nat → π → List π
  | 0, _ => []
  | links + 1, place =>
      place ::
        match disk.names (.path place) with
        | some (.symlink target) => route disk links (layout.leads place target)
        | _ => []

def Avoids (disk : StoreDisk π) (links : π → Prop) (place : π) : Prop :=
  ∀ passed ∈ route layout disk maxLinks place, ¬ links passed

/-- The restore gets as far as the first link. -/
def Begun (disk : StoreDisk π) (dir : ArtifactDir) (packages : List PackageArtifact) : Prop :=
  readManifests dir = some packages ∧ packages ≠ [] ∧ containsAll disk packages = true

/-- Where the links in `.bin` are made. -/
def BinPlace (disk : StoreDisk π) (names : List Bytes) (place : π) : Prop :=
  ∃ name ∈ names, ∃ bin, MadeBy layout manifests directories workspaceRoot disk name bin ∧
    bin.linkPath = place

/-- Bins of one name have one target, none is in the place of a directory, scopes can be listed, and
nothing that is read of the packages is one of the links. -/
structure BinsApart (disk : StoreDisk π) (names : List Bytes) : Prop where
  sameText : ∀ name ∈ names, ∀ other ∈ names, ∀ bin bin',
    MadeBy layout manifests directories workspaceRoot disk name bin →
    MadeBy layout manifests directories workspaceRoot disk other bin' →
      bin.linkPath = bin'.linkPath → bin.relTarget = bin'.relTarget
  free : ∀ name ∈ names, ∀ bin, MadeBy layout manifests directories workspaceRoot disk name bin →
    disk.names (.path bin.linkPath) ≠ some .directory
  entry : ∀ name ∈ names, Avoids layout disk
    (BinPlace layout manifests directories workspaceRoot disk names)
    (layout.place ((nodeModules workspaceRoot).join name))
  scopes : ∀ name ∈ names, isHidden (toStringLossy name) = false →
    isScope (toStringLossy name) = true →
    isDir layout disk (layout.place ((nodeModules workspaceRoot).join name)) = true →
      (directories.entries ((nodeModules workspaceRoot).join name) disk).isSome = true ∧
      ∀ inner, ¬ BinPlace layout manifests directories workspaceRoot disk names
        (layout.place (((nodeModules workspaceRoot).join name).join inner))
  package : ∀ name ∈ names, ∀ package,
    VisitedBy layout directories workspaceRoot disk name package →
      Avoids layout disk (BinPlace layout manifests directories workspaceRoot disk names)
        (layout.place package.dir) ∧
      Avoids layout disk (BinPlace layout manifests directories workspaceRoot disk names)
        (layout.place (package.dir.join (utf8 "package.json"))) ∧
      ∀ bin ∈ binLinks layout manifests (binDirOf workspaceRoot) package disk,
        Avoids layout disk (BinPlace layout manifests directories workspaceRoot disk names)
          bin.targetAbs

/-- The archives of a package that are looked for have one content. -/
def Agreed (pmCache : List CacheEntry) (package : LockfilePackage) : Prop :=
  (∀ entry ∈ pmCache, ∀ other ∈ pmCache, isZip package entry = true →
    isZip package other = true → entry.content = other.content) ∧
  ((∀ entry ∈ pmCache, isZip package entry = false) →
    ∀ entry ∈ pmCache, ∀ other ∈ pmCache, isTgz package entry = true →
      isTgz package other = true → entry.content = other.content)

/-- A single package is restored in one order only.  The bins are apart in the tree in which their
links are made. -/
structure Orderly (crates : Crates) (dir : Option ArtifactDir) (disk : StoreDisk π)
    (packages : List LockfilePackage) (pmCache : List CacheEntry) (store : ArtifactStore) :
    Prop where
  restore : ∀ isDir artifacts, dir = some isDir → Begun disk isDir artifacts →
    artifacts.length ≤ 1 ∨ Separable layout disk (artifacts.flatMap (filesOf workspaceRoot))
  bins : ∀ restored names, tryRestoreFromCas layout dir workspaceRoot disk = (some true, restored) →
    (makeBinDir layout workspaceRoot restored).1 = true →
    directories.entries (nodeModules workspaceRoot) (makeBinDir layout workspaceRoot restored).2 =
      some names →
    BinsApart layout manifests directories workspaceRoot
      (makeBinDir layout workspaceRoot restored).2 names
  archives : ∀ package ∈ packages,
    store.containsKey (computeCasKey crates package.integrity) = false → Agreed pmCache package

end

/-! Where links lead on two disks. -/

section Leads

variable {π : Type} {layout : Layout π} {before after : StoreDisk π}

/-- What is there stays there, as far as a path that leads to something is concerned. -/
theorem behind_mono (kept : ∀ place entry, before.names (.path place) = some entry →
      after.names (.path place) = some entry) {place : π} {entry : Dirent Bytes}
    (isBehind : behind layout before place = some entry) :
    behind layout after place = some entry := by
  have general (links : Nat) (place : π)
      (leadsTo : (resolve layout.leads before links place).bind
        (fun final => before.names (.path final)) = some entry) :
      (resolve layout.leads after links place).bind
        (fun final => after.names (.path final)) = some entry := by
    induction links generalizing place with
    | zero => simp [resolve] at leadsTo
    | succ links ih =>
        unfold resolve at leadsTo ⊢
        cases isEntry : before.names (.path place) with
        | none => simp [isEntry] at leadsTo
        | some here =>
            rw [kept place here isEntry]
            cases here with
            | symlink target => exact ih _ (by simpa [isEntry] using leadsTo)
            | file inode =>
                simpa [isEntry, kept place _ isEntry] using leadsTo
            | directory =>
                simpa [isEntry, kept place _ isEntry] using leadsTo
  exact general maxLinks place isBehind

/-- Where no link on the way has changed, the way has not. -/
theorem resolve_avoids {links : π → Prop} {place : π} (avoids : Avoids layout before links place)
    (same : ∀ other, ¬ links other → after.names (.path other) = before.names (.path other)) :
    resolve layout.leads after maxLinks place = resolve layout.leads before maxLinks place ∧
      ∀ final, resolve layout.leads before maxLinks place = some final →
        after.names (.path final) = before.names (.path final) := by
  have general (count : Nat) (place : π)
      (passes : ∀ passed ∈ route layout before count place, ¬ links passed) :
      resolve layout.leads after count place = resolve layout.leads before count place ∧
        ∀ final, resolve layout.leads before count place = some final →
          after.names (.path final) = before.names (.path final) := by
    induction count generalizing place with
    | zero => exact ⟨rfl, fun final isFinal => by simp [resolve] at isFinal⟩
    | succ count ih =>
        have here := same place (passes place List.mem_cons_self)
        unfold resolve
        rw [here]
        cases isEntry : before.names (.path place) with
        | none =>
            refine ⟨rfl, fun final isFinal => ?_⟩
            rw [← Option.some.inj isFinal, here]
        | some entry =>
            cases entry with
            | symlink target =>
                refine ih _ fun passed member => passes passed ?_
                simp only [route, isEntry]
                exact List.mem_cons_of_mem _ member
            | file inode =>
                refine ⟨rfl, fun final isFinal => ?_⟩
                rw [← Option.some.inj isFinal, here]
            | directory =>
                refine ⟨rfl, fun final isFinal => ?_⟩
                rw [← Option.some.inj isFinal, here]
  exact general maxLinks place avoids

theorem behind_avoids {links : π → Prop} {place : π} (avoids : Avoids layout before links place)
    (same : ∀ other, ¬ links other → after.names (.path other) = before.names (.path other)) :
    behind layout after place = behind layout before place := by
  obtain ⟨sameWay, sameEnd⟩ := resolve_avoids avoids same
  unfold behind
  rw [sameWay]
  cases isFinal : resolve layout.leads before maxLinks place with
  | none => rfl
  | some final => exact sameEnd final isFinal

theorem fileAt_eq_behind {disk : StoreDisk π} (place : π) :
    fileAt layout.leads disk place = (behind layout disk place).bind Dirent.inode := by
  unfold fileAt behind Disk.inodeOf
  cases resolve layout.leads disk maxLinks place with
  | none => rfl
  | some final => rfl

theorem resolve_le {disk : StoreDisk π} {fewer more : Nat} (le : fewer ≤ more) {place final : π}
    (leadsTo : resolve layout.leads disk fewer place = some final) :
    resolve layout.leads disk more place = some final := by
  induction fewer generalizing more place with
  | zero => simp [resolve] at leadsTo
  | succ fewer ih =>
      obtain ⟨more, rfl⟩ : ∃ less, more = less + 1 := ⟨more - 1, by omega⟩
      unfold resolve at leadsTo ⊢
      split at leadsTo
      · exact ih (by omega) leadsTo
      · exact leadsTo

theorem behind_of_links {disk : StoreDisk π} {count : Nat} (enough : count ≤ maxLinks) {place : π}
    {entry : Dirent Bytes} (leadsTo : (resolve layout.leads disk count place).bind
      (fun final => disk.names (.path final)) = some entry) :
    behind layout disk place = some entry := by
  obtain ⟨final, isFinal, isEntry⟩ := Option.bind_eq_some_iff.mp leadsTo
  rw [behind, resolve_le enough isFinal]
  exact isEntry

end Leads

/-! Directories. -/

section Directories

variable {π : Type} [DecidableEq π] {layout : Layout π}

structure DirsMade (dirs : List π) (before after : StoreDisk π) : Prop where
  entries : ∀ key, after.names (.entry key) = before.names (.entry key)
  paths : ∀ place, after.names (.path place) =
    if before.names (.path place) = none ∧ place ∈ dirs then some .directory
    else before.names (.path place)
  inodes : after.inodes = before.inodes
  fresh : after.fresh = before.fresh

theorem DirsMade.kept {dirs : List π} {before after : StoreDisk π}
    (made : DirsMade dirs before after) {place : π} {entry : Dirent Bytes}
    (there : before.names (.path place) = some entry) : after.names (.path place) = some entry := by
  rw [made.paths, there]
  simp

theorem makeDir_made {disk : StoreDisk π} {dir : π}
    (free : disk.names (.path dir) = none ∨ isDir layout disk dir = true) :
    (makeDir layout dir disk).1 = true ∧ DirsMade [dir] disk (makeDir layout dir disk).2 := by
  unfold makeDir
  by_cases isDirectory : isDir layout disk dir = true
  · rw [if_pos isDirectory]
    refine ⟨rfl, fun _ => rfl, fun place => ?_, rfl, rfl⟩
    rw [if_neg]
    rintro ⟨absent, member⟩
    obtain rfl := List.mem_singleton.mp member
    simp [isDir, behind, maxLinks, resolve, absent] at isDirectory
  · have absent := free.resolve_right isDirectory
    rw [if_neg isDirectory, if_pos absent]
    refine ⟨rfl, fun key => by simp [Disk.makeDirectory, Disk.setName], fun place => ?_, rfl, rfl⟩
    by_cases here : place = dir
    · simp [Disk.makeDirectory, Disk.setName, here, absent]
    · simp [Disk.makeDirectory, Disk.setName, here]

theorem makeDirs_made {dirs : List π} {disk : StoreDisk π}
    (free : ∀ dir ∈ dirs, disk.names (.path dir) = none ∨ isDir layout disk dir = true) :
    (tryEach (makeDir layout) dirs disk).1 = true ∧
      DirsMade dirs disk (tryEach (makeDir layout) dirs disk).2 := by
  induction dirs generalizing disk with
  | nil => exact ⟨rfl, fun _ => rfl, fun _ => by simp [tryEach], rfl, rfl⟩
  | cons dir dirs ih =>
      obtain ⟨succeeds, first⟩ := makeDir_made (free dir List.mem_cons_self)
      have stillFree : ∀ other ∈ dirs, (makeDir layout dir disk).2.names (.path other) = none ∨
          isDir layout (makeDir layout dir disk).2 other = true := by
        intro other member
        rcases free other (List.mem_cons_of_mem _ member) with absent | isDirectory
        · by_cases here : other = dir
          · refine Or.inr (decide_eq_true ?_)
            have there : (makeDir layout dir disk).2.names (.path other) = some .directory := by
              rw [first.paths, here, if_pos ⟨here ▸ absent, List.mem_singleton_self _⟩]
            simp [behind, maxLinks, resolve, there]
          · refine Or.inl ?_
            rw [first.paths, absent]
            simp [here]
        · exact Or.inr (decide_eq_true
            (behind_mono (fun _ _ there => first.kept there) (of_decide_eq_true isDirectory)))
      obtain ⟨succeedsToo, later⟩ := ih stillFree
      rw [tryEach, if_pos succeeds]
      refine ⟨succeedsToo, fun key => (later.entries key).trans (first.entries key),
        fun place => ?_, later.inodes.trans first.inodes, later.fresh.trans first.fresh⟩
      rw [later.paths, first.paths]
      by_cases absent : disk.names (.path place) = none
      · by_cases here : place = dir
        · subst here
          simp [absent]
        · simp [absent, here]
      · simp [absent]

end Directories

/-! Files, each in its place. -/

section Files

variable {π : Type} {layout : Layout π} {disk now : StoreDisk π}
  {files : List FileLink} {made : FileLink → Prop}

/-- What there is when some of the files are linked, in whatever order. -/
structure Relinked (layout : Layout π) (disk : StoreDisk π) (files : List FileLink)
    (now : StoreDisk π) (made : FileLink → Prop) : Prop where
  within : ∀ file, made file → file ∈ files
  entries : ∀ key, now.names (.entry key) = disk.names (.entry key)
  inodes : now.inodes = disk.inodes
  fresh : now.fresh = disk.fresh
  linked : ∀ file, made file →
    now.names (.path (file.place layout)) = disk.names (.entry file.hash)
  above : ∀ place, (∀ file, made file → file.place layout ≠ place) →
    disk.names (.path place) = none → (∃ file, made file ∧ place ∈ file.above layout) →
      now.names (.path place) = some .directory
  others : ∀ place, (∀ file, made file → file.place layout ≠ place) →
    ¬ (disk.names (.path place) = none ∧ ∃ file, made file ∧ place ∈ file.above layout) →
      now.names (.path place) = disk.names (.path place)

theorem Relinked.start : Relinked layout disk files disk fun _ => False where
  within _ none := none.elim
  entries _ := rfl
  inodes := rfl
  fresh := rfl
  linked _ none := none.elim
  above _ _ _ none := none.elim fun _ file => file.1.elim
  others _ _ _ := rfl

/-- The same files linked make the same disk. -/
theorem Relinked.unique {other : StoreDisk π} (first : Relinked layout disk files now made)
    (second : Relinked layout disk files other made) : now = other := by
  have names : now.names = other.names := by
    funext name
    cases name with
    | entry key => rw [first.entries, second.entries]
    | path place =>
        by_cases isPlace : ∃ file, made file ∧ file.place layout = place
        · obtain ⟨file, isMade, rfl⟩ := isPlace
          rw [first.linked file isMade, second.linked file isMade]
        · have noPlace : ∀ file, made file → file.place layout ≠ place :=
            fun file isMade same => isPlace ⟨file, isMade, same⟩
          by_cases isAbove : disk.names (.path place) = none ∧
              ∃ file, made file ∧ place ∈ file.above layout
          · rw [first.above place noPlace isAbove.1 isAbove.2,
              second.above place noPlace isAbove.1 isAbove.2]
          · rw [first.others place noPlace isAbove, second.others place noPlace isAbove]
  have inodes : now.inodes = other.inodes := first.inodes.trans second.inodes.symm
  have fresh : now.fresh = other.fresh := first.fresh.trans second.fresh.symm
  cases now
  cases other
  simp only at names inodes fresh
  subst names inodes fresh
  rfl

section Separable

variable (separable : Separable layout disk files)
  (stored : ∀ file ∈ files, disk.isFile (.entry file.hash) = true)

include separable

/-- The places of the files are not among the directories. -/
theorem Separable.not_directory {file : FileLink} (member : file ∈ files) :
    isDir layout disk (file.place layout) = false := by
  rw [Bool.eq_false_iff]
  intro isDirectory
  have isBehind := of_decide_eq_true isDirectory
  rcases separable.free file member with absent | isFile
  · simp [behind, maxLinks, resolve, absent] at isBehind
  · rw [fileAt_eq_behind, isBehind] at isFile
    simp [Dirent.inode] at isFile

theorem Relinked.stays_directory (relinked : Relinked layout disk files now made) {place : π}
    (isDirectory : isDir layout disk place = true) : isDir layout now place = true := by
  have general (count : Nat) (enough : count ≤ maxLinks) (place : π)
      (leadsTo : (resolve layout.leads disk count place).bind
        (fun final => disk.names (.path final)) = some .directory) :
      (resolve layout.leads now count place).bind (fun final => now.names (.path final)) =
        some .directory := by
    induction count generalizing place with
    | zero => simp [resolve] at leadsTo
    | succ count ih =>
        have isBehind := behind_of_links enough leadsTo
        have there : disk.names (.path place) ≠ none := by
          intro absent
          simp [behind, maxLinks, resolve, absent] at isBehind
        have noPlace : ∀ file, made file → file.place layout ≠ place := by
          rintro file isMade rfl
          have notDirectory := separable.not_directory (relinked.within file isMade)
          rw [isDir, isBehind] at notDirectory
          simp at notDirectory
        have same := relinked.others place noPlace fun absent => there absent.1
        unfold resolve at leadsTo ⊢
        rw [same]
        cases isEntry : disk.names (.path place) with
        | none => exact (there isEntry).elim
        | some entry =>
            cases entry with
            | symlink target => exact ih (by omega) _ (by simpa [isEntry] using leadsTo)
            | file inode => simp [isEntry] at leadsTo
            | directory => simp [same, isEntry]
  exact decide_eq_true (general maxLinks (Nat.le_refl _) place (of_decide_eq_true isDirectory))

include stored

theorem Relinked.file_or_absent (relinked : Relinked layout disk files now made) {file : FileLink}
    (member : file ∈ files) : now.names (.path (file.place layout)) = none ∨
      (fileAt layout.leads now (file.place layout)).isSome = true := by
  have isFileHere {place : π} {other : FileLink} (isMade : made other)
      (here : other.place layout = place) :
      ∃ inode, now.names (.path place) = some (.file inode) := by
    have isStored := stored other (relinked.within other isMade)
    obtain ⟨inode, isInode⟩ := Option.isSome_iff_exists.mp isStored
    exact ⟨inode, by rw [← here, relinked.linked other isMade, Disk.names_of_inodeOf isInode]⟩
  rcases separable.free file member with absent | isFile
  · by_cases isPlace : ∃ other, made other ∧ other.place layout = file.place layout
    · obtain ⟨other, isMade, here⟩ := isPlace
      obtain ⟨inode, isEntry⟩ := isFileHere isMade here
      refine Or.inr ?_
      rw [fileAt_eq_behind]
      simp [behind, maxLinks, resolve, isEntry, Dirent.inode]
    · refine Or.inl ?_
      rw [relinked.others _ (fun other isMade here => isPlace ⟨other, isMade, here⟩), absent]
      rintro ⟨_, other, isMade, isAbove⟩
      exact separable.apart file member other (relinked.within other isMade) isAbove
  · refine Or.inr ?_
    have general (count : Nat) (place : π) (leadsTo : ((resolve layout.leads disk count place).bind
        fun final => disk.inodeOf (.path final)).isSome = true) :
        ((resolve layout.leads now count place).bind fun final =>
          now.inodeOf (.path final)).isSome = true := by
      induction count generalizing place with
      | zero => simp [resolve] at leadsTo
      | succ count ih =>
          by_cases isPlace : ∃ other, made other ∧ other.place layout = place
          · obtain ⟨other, isMade, here⟩ := isPlace
            obtain ⟨inode, isEntry⟩ := isFileHere isMade here
            simp [resolve, isEntry, Disk.inodeOf, Dirent.inode]
          · have noPlace : ∀ other, made other → other.place layout ≠ place :=
              fun other isMade here => isPlace ⟨other, isMade, here⟩
            unfold resolve at leadsTo ⊢
            cases isEntry : disk.names (.path place) with
            | none => simp [isEntry, Disk.inodeOf] at leadsTo
            | some entry =>
                have same := relinked.others place noPlace fun absent => by simp [isEntry] at absent
                rw [same, isEntry]
                cases entry with
                | symlink target => exact ih _ (by simpa [isEntry] using leadsTo)
                | file inode => simp [Disk.inodeOf, same, isEntry, Dirent.inode]
                | directory => simp [isEntry, Disk.inodeOf, Dirent.inode] at leadsTo
    exact general maxLinks _ isFile

variable [DecidableEq π]

omit separable stored in
/-- `link` onto a place that is free or has a file. -/
theorem linkedStore_link {start : StoreDisk π} {hash : Bytes} {place : π} {inode : Nat}
    (isInode : start.inodeOf (.entry hash) = some inode)
    (free : start.names (.path place) = none ∨ (fileAt layout.leads start place).isSome = true) :
    (LinkedStore.link layout.leads start hash place linking).1 = true ∧
      let linked := (LinkedStore.link layout.leads start hash place linking).2
      (∀ key, linked.names (.entry key) = start.names (.entry key)) ∧
      linked.names (.path place) = start.names (.entry hash) ∧
      (∀ other, other ≠ place → linked.names (.path other) = start.names (.path other)) ∧
      linked.inodes = start.inodes ∧ linked.fresh = start.fresh := by
  have isFile : start.isFile (.entry hash) = true := by rw [Disk.isFile, isInode]; rfl
  have cleared : clearTarget layout.leads start place linking.removes = start ∧
        start.names (.path place) = none ∨
      clearTarget layout.leads start place linking.removes = start.remove (.path place) := by
    by_cases absent : start.names (.path place) = none
    · have noFile : fileAt layout.leads start place = none := by
        rw [fileAt_eq_behind]
        simp [behind, maxLinks, resolve, absent]
      exact Or.inl ⟨by rw [clearTarget, noFile]; rfl, absent⟩
    · have isSome := free.resolve_left absent
      have notDirectory : start.names (.path place) ≠ some .directory := by
        intro isDirectory
        rw [fileAt_eq_behind] at isSome
        simp [behind, maxLinks, resolve, isDirectory, Dirent.inode] at isSome
      refine Or.inr ?_
      rw [clearTarget, if_pos isSome, removeFile, if_pos ⟨rfl, notDirectory⟩]
  unfold LinkedStore.link
  rw [if_pos ⟨isFile, rfl⟩]
  rcases cleared with ⟨isSame, absent⟩ | isRemoved
  · have linked : hardLink start hash place linking.links =
        some (start.link (.entry hash) (.path place)) := if_pos ⟨isFile, absent, rfl⟩
    simp only [isSame, linked]
    refine ⟨trivial, fun key => by simp [Disk.link, Disk.setName],
      by simp [Disk.link, Disk.setName],
      fun other apart => by simp [Disk.link, Disk.setName, apart], rfl, rfl⟩
  · have stillFile : (start.remove (.path place)).isFile (.entry hash) = true := by
      rw [Disk.isFile, Disk.inodeOf_remove, if_neg (by simp), isInode]
      rfl
    have absent : (start.remove (.path place)).names (.path place) = none := by
      simp [Disk.remove, Disk.setName]
    have linked : hardLink (start.remove (.path place)) hash place linking.links =
        some ((start.remove (.path place)).link (.entry hash) (.path place)) :=
      if_pos ⟨stillFile, absent, rfl⟩
    simp only [isRemoved, linked]
    refine ⟨trivial, fun key => by simp [Disk.link, Disk.remove, Disk.setName],
      by simp [Disk.link, Disk.remove, Disk.setName],
      fun other apart => by simp [Disk.link, Disk.remove, Disk.setName, apart], rfl, rfl⟩

omit stored [DecidableEq π] in
/-- The directories above a file can be made. -/
theorem Relinked.above_free (relinked : Relinked layout disk files now made) {file : FileLink}
    (member : file ∈ files) : ∀ dir ∈ file.above layout,
      now.names (.path dir) = none ∨ isDir layout now dir = true := by
  intro dir isAbove
  rcases separable.dirs file member dir isAbove with absent | isDirectory
  · have noPlace : ∀ other, made other → other.place layout ≠ dir := by
      rintro other isMade rfl
      exact separable.apart other (relinked.within other isMade) file member isAbove
    by_cases within : ∃ other, made other ∧ dir ∈ other.above layout
    · refine Or.inr (decide_eq_true ?_)
      have there := relinked.above dir noPlace absent within
      simp [behind, maxLinks, resolve, there]
    · refine Or.inl ?_
      rw [relinked.others dir noPlace fun both => within both.2, absent]
  · exact Or.inr (relinked.stays_directory separable isDirectory)

theorem Relinked.place_ready {start : StoreDisk π}
    (relinked : Relinked layout disk files now made) {file : FileLink} (member : file ∈ files)
    (dirs : DirsMade (file.above layout) now start) :
    start.names (.path (file.place layout)) = none ∨
      (fileAt layout.leads start (file.place layout)).isSome = true := by
  rcases relinked.file_or_absent separable stored member with absent | isSome
  · refine Or.inl ?_
    rw [dirs.paths, if_neg fun both => separable.apart file member file member both.2, absent]
  · refine Or.inr ?_
    rw [fileAt_eq_behind] at isSome ⊢
    obtain ⟨found, isFound⟩ := Option.isSome_iff_exists.mp isSome
    obtain ⟨entry, isBehind, isEntry⟩ := Option.bind_eq_some_iff.mp isFound
    rw [behind_mono (fun _ _ there => dirs.kept there) isBehind, Option.bind_some, isEntry]
    rfl

/-- One more file, once its directories are made. -/
theorem Relinked.extend {start linked : StoreDisk π}
    (relinked : Relinked layout disk files now made) {file : FileLink} (member : file ∈ files)
    (dirs : DirsMade (file.above layout) now start)
    (entries : ∀ key, linked.names (.entry key) = start.names (.entry key))
    (here : linked.names (.path (file.place layout)) = start.names (.entry file.hash))
    (elsewhere : ∀ other, other ≠ file.place layout →
      linked.names (.path other) = start.names (.path other))
    (inodes : linked.inodes = start.inodes) (fresh : linked.fresh = start.fresh) :
    Relinked layout disk files linked fun other => made other ∨ other = file := by
  constructor
  · rintro other (isMade | rfl)
    · exact relinked.within other isMade
    · exact member
  · intro key
    rw [entries, dirs.entries, relinked.entries]
  · rw [inodes, dirs.inodes, relinked.inodes]
  · rw [fresh, dirs.fresh, relinked.fresh]
  · rintro other (isMade | rfl)
    · by_cases same : other.place layout = file.place layout
      · rw [same, here, dirs.entries, relinked.entries,
          separable.sameHash other (relinked.within other isMade) file member same]
      · obtain ⟨source, isOther⟩ := Option.isSome_iff_exists.mp
          (stored other (relinked.within other isMade))
        have isEntry := relinked.linked other isMade
        rw [Disk.names_of_inodeOf isOther] at isEntry ⊢
        rw [elsewhere _ same, dirs.kept isEntry]
    · rw [here, dirs.entries, relinked.entries]
  · intro place noPlace absent within
    have apart : place ≠ file.place layout := fun same => noPlace file (Or.inr rfl) same.symm
    have noneMade : ∀ other, made other → other.place layout ≠ place :=
      fun other isMade => noPlace other (Or.inl isMade)
    rw [elsewhere place apart]
    by_cases earlier : ∃ other, made other ∧ place ∈ other.above layout
    · exact dirs.kept (relinked.above place noneMade absent earlier)
    · have stillAbsent : now.names (.path place) = none := by
        rw [relinked.others place noneMade fun both => earlier both.2, absent]
      obtain ⟨other, isMade | rfl, isAbove⟩ := within
      · exact (earlier ⟨other, isMade, isAbove⟩).elim
      · rw [dirs.paths, if_pos ⟨stillAbsent, isAbove⟩]
  · intro place noPlace notAbove
    have apart : place ≠ file.place layout := fun same => noPlace file (Or.inr rfl) same.symm
    have same : now.names (.path place) = disk.names (.path place) := by
      refine relinked.others place (fun other isMade => noPlace other (Or.inl isMade)) ?_
      rintro ⟨absent, other, isMade, isAbove⟩
      exact notAbove ⟨absent, other, Or.inl isMade, isAbove⟩
    rw [elsewhere place apart, dirs.paths, if_neg, same]
    rintro ⟨absent, isAbove⟩
    exact notAbove ⟨same ▸ absent, file, Or.inr rfl, isAbove⟩

theorem Relinked.step (relinked : Relinked layout disk files now made) {file : FileLink}
    (member : file ∈ files) : (link layout file now).1 = true ∧
      Relinked layout disk files (link layout file now).2 fun other =>
        made other ∨ other = file := by
  obtain ⟨inode, isInode⟩ := Option.isSome_iff_exists.mp (stored file member)
  have isFile : now.isFile (.entry file.hash) = true := by
    rw [Disk.isFile, Disk.inodeOf, relinked.entries, ← Disk.inodeOf, isInode]
    rfl
  obtain ⟨succeeds, dirs⟩ := makeDirs_made (relinked.above_free separable member)
  have ready := relinked.place_ready separable stored member dirs
  unfold link
  rw [if_pos isFile]
  simp only [succeeds, ↓reduceIte]
  have isSource : (tryEach (makeDir layout) (file.above layout) now).2.inodeOf (.entry file.hash) =
      some inode := by
    rw [Disk.inodeOf, dirs.entries, relinked.entries, ← Disk.inodeOf, isInode]
  obtain ⟨succeedsToo, entries, here, elsewhere, inodes, fresh⟩ := linkedStore_link isSource ready
  exact ⟨succeedsToo,
    relinked.extend separable stored member dirs entries here elsewhere inodes fresh⟩

/-- All files that the packages list, in whatever order. -/
theorem restore_relinked {packages : List PackageArtifact} {workspaceRoot : Path}
    (all : ∀ package ∈ packages, ∀ file ∈ filesOf workspaceRoot package, file ∈ files) :
    (tryEach (restorePackage layout workspaceRoot) packages disk).1 = true ∧
      Relinked layout disk files (tryEach (restorePackage layout workspaceRoot) packages disk).2
        fun file => ∃ package ∈ packages, file ∈ filesOf workspaceRoot package := by
  have onePackage : ∀ package ∈ packages, ∀ now made, Relinked layout disk files now made →
      (restorePackage layout workspaceRoot package now).1 = true ∧
        Relinked layout disk files (restorePackage layout workspaceRoot package now).2
          fun file => made file ∨ file ∈ filesOf workspaceRoot package := by
    intro package isPackage now made relinked
    have rounds : ∀ file ∈ filesOf workspaceRoot package, ∀ now made,
        Relinked layout disk files now made → (link layout file now).1 = true ∧
          Relinked layout disk files (link layout file now).2 fun other =>
            made other ∨ other = file :=
      fun file member now made relinked =>
        relinked.step separable stored (all package isPackage file member)
    obtain ⟨succeeds, next⟩ := tryEach_gather rounds relinked
    refine ⟨succeeds, ?_⟩
    simp only [exists_eq_right'] at next
    exact next
  obtain ⟨succeeds, next⟩ := tryEach_gather onePackage Relinked.start
  refine ⟨succeeds, ?_⟩
  simpa using next

end Separable

end Files

/-! The restore, whatever the order of the json files. -/

section Restore

variable {π : Type} [DecidableEq π] {layout : Layout π} {disk : StoreDisk π} {workspaceRoot : Path}

theorem readManifests_perm {first second : ArtifactDir} (perm : first.Perm second) :
    (readManifests first = none ∧ readManifests second = none) ∨
      ∃ packages others, readManifests first = some packages ∧
        readManifests second = some others ∧ packages.Perm others := by
  have files := (perm.filter fun file => isManifestName file.1).map Prod.snd
  by_cases unreadable : ManifestFile.unreadable ∈
      (first.filter fun file => isManifestName file.1).map Prod.snd
  · refine Or.inl ⟨if_pos ?_, if_pos ?_⟩
    · exact List.contains_iff_mem.mpr unreadable
    · exact List.contains_iff_mem.mpr (files.mem_iff.mp unreadable)
  · refine Or.inr ⟨_, _, if_neg ?_, if_neg ?_, files.filterMap _⟩
    · exact fun isIn => unreadable (List.contains_iff_mem.mp isIn)
    · exact fun isIn => unreadable (files.mem_iff.mpr (List.contains_iff_mem.mp isIn))

omit [DecidableEq π] in
theorem containsAll_perm {packages others : List PackageArtifact} (perm : packages.Perm others) :
    containsAll disk packages = containsAll disk others := by
  rw [Bool.eq_iff_iff, containsAll, containsAll, List.all_eq_true, List.all_eq_true]
  exact ⟨fun all package member => all package (perm.mem_iff.mpr member),
    fun all package member => all package (perm.mem_iff.mp member)⟩

theorem restorePackages_perm {packages others : List PackageArtifact} (perm : packages.Perm others)
    (contains : containsAll disk packages = true)
    (orderly : packages.length ≤ 1 ∨
      Separable layout disk (packages.flatMap (filesOf workspaceRoot))) :
    tryEach (restorePackage layout workspaceRoot) packages disk =
      tryEach (restorePackage layout workspaceRoot) others disk := by
  rcases orderly with few | separable
  · have same : packages = others := by
      match packages, few with
      | [], _ => exact (List.nil_perm.mp perm).symm
      | [package], _ => exact List.singleton_perm.mp perm
    rw [same]
  · have stored : ∀ file ∈ packages.flatMap (filesOf workspaceRoot),
        disk.isFile (.entry file.hash) = true := by
      intro file member
      obtain ⟨package, isPackage, isFile⟩ := List.mem_flatMap.mp member
      obtain ⟨listed, isListed, rfl⟩ := List.mem_map.mp isFile
      exact List.all_eq_true.mp (List.all_eq_true.mp contains package isPackage) listed isListed
    obtain ⟨succeeds, first⟩ := restore_relinked separable stored
      fun package isPackage file isFile => List.mem_flatMap.mpr ⟨package, isPackage, isFile⟩
    obtain ⟨succeedsToo, second⟩ := restore_relinked separable stored
      fun package (isOther : package ∈ others) file isFile =>
        List.mem_flatMap.mpr ⟨package, perm.mem_iff.mpr isOther, isFile⟩
    have same : (fun file => ∃ package ∈ others, file ∈ filesOf workspaceRoot package) =
        fun file => ∃ package ∈ packages, file ∈ filesOf workspaceRoot package := by
      funext file
      simp only [perm.mem_iff]
    rw [same] at second
    exact Prod.ext (succeeds.trans succeedsToo.symm) (first.unique second)

theorem tryRestoreFromCas_perm {dir dir' : Option ArtifactDir} (sameKind : dir'.isSome = dir.isSome)
    (perm : (dir'.getD []).Perm (dir.getD []))
    (orderly : ∀ isDir packages, dir = some isDir → Begun disk isDir packages →
      packages.length ≤ 1 ∨ Separable layout disk (packages.flatMap (filesOf workspaceRoot))) :
    tryRestoreFromCas layout dir workspaceRoot disk =
      tryRestoreFromCas layout dir' workspaceRoot disk := by
  cases dir with
  | none =>
      cases dir' with
      | none => rfl
      | some other => simp at sameKind
  | some isDir =>
      cases dir' with
      | none => simp at sameKind
      | some other =>
          have listed : isDir.Perm other := by simpa using perm.symm
          unfold tryRestoreFromCas
          rcases readManifests_perm listed with ⟨isNone, isNoneToo⟩ |
            ⟨packages, others, isRead, isReadToo, samePackages⟩
          · simp only [isNone, isNoneToo]
          · simp only [isRead, isReadToo]
            have sameEmpty : others.isEmpty = packages.isEmpty := by
              rw [Bool.eq_iff_iff, List.isEmpty_iff_length_eq_zero, List.isEmpty_iff_length_eq_zero,
                samePackages.length_eq]
            rw [sameEmpty, ← containsAll_perm samePackages]
            by_cases isEmpty : packages.isEmpty = true
            · rw [if_pos isEmpty, if_pos isEmpty]
            · rw [if_neg isEmpty, if_neg isEmpty]
              by_cases contains : containsAll disk packages = true
              · have begun : Begun disk isDir packages :=
                  ⟨isRead, fun none => isEmpty (List.isEmpty_iff.mpr none), contains⟩
                rw [if_pos contains, if_pos contains,
                  restorePackages_perm samePackages contains (orderly isDir packages rfl begun)]
              · rw [if_neg contains, if_neg contains]

end Restore

/-! Links in `.bin`, each in its place. -/

section Bins

variable {π : Type} {layout : Layout π} {manifests : Manifests}
  {directories : Directories layout} {workspaceRoot : Path} {disk now : StoreDisk π}
  {names : List Bytes} {made : BinLink π → Prop}

/-- What there is when some of the bins are linked, in whatever order. -/
structure Linked (layout : Layout π) (manifests : Manifests) (directories : Directories layout)
    (workspaceRoot : Path) (disk : StoreDisk π) (names : List Bytes) (now : StoreDisk π)
    (made : BinLink π → Prop) : Prop where
  within : ∀ bin, made bin →
    ∃ name ∈ names, MadeBy layout manifests directories workspaceRoot disk name bin
  entries : ∀ key, now.names (.entry key) = disk.names (.entry key)
  fresh : now.fresh = disk.fresh
  linked : ∀ bin, made bin → now.names (.path bin.linkPath) = some (.symlink bin.relTarget)
  others : ∀ place, (∀ bin, made bin → bin.linkPath ≠ place) →
    now.names (.path place) = disk.names (.path place)
  content : ∀ inode, (now.inodes inode).content = (disk.inodes inode).content
  executable : ∀ bin inode, made bin → fileAt layout.leads disk bin.targetAbs = some inode →
    (now.inodes inode).mode = (disk.inodes inode).mode ||| executableBits
  modes : ∀ inode, (∀ bin, made bin → fileAt layout.leads disk bin.targetAbs ≠ some inode) →
    (now.inodes inode).mode = (disk.inodes inode).mode

theorem Linked.start :
    Linked layout manifests directories workspaceRoot disk names disk fun _ => False where
  within _ none := none.elim
  entries _ := rfl
  fresh := rfl
  linked _ none := none.elim
  others _ _ := rfl
  content _ := rfl
  executable _ _ none := none.elim
  modes _ _ := rfl

theorem Linked.congr {other : BinLink π → Prop}
    (linked : Linked layout manifests directories workspaceRoot disk names now made)
    (same : ∀ bin, made bin ↔ other bin) :
    Linked layout manifests directories workspaceRoot disk names now other := by
  rwa [← funext fun bin => propext (same bin)]

/-- The same bins linked make the same disk. -/
theorem Linked.unique {other : StoreDisk π}
    (first : Linked layout manifests directories workspaceRoot disk names now made)
    (second : Linked layout manifests directories workspaceRoot disk names other made) :
    now = other := by
  have sameNames : now.names = other.names := by
    funext name
    cases name with
    | entry key => rw [first.entries, second.entries]
    | path place =>
        by_cases isPlace : ∃ bin, made bin ∧ bin.linkPath = place
        · obtain ⟨bin, isMade, rfl⟩ := isPlace
          rw [first.linked bin isMade, second.linked bin isMade]
        · have noPlace : ∀ bin, made bin → bin.linkPath ≠ place :=
            fun bin isMade same => isPlace ⟨bin, isMade, same⟩
          rw [first.others place noPlace, second.others place noPlace]
  have inodes : now.inodes = other.inodes := by
    funext inode
    have content := (first.content inode).trans (second.content inode).symm
    have mode : (now.inodes inode).mode = (other.inodes inode).mode := by
      by_cases isTarget : ∃ bin, made bin ∧ fileAt layout.leads disk bin.targetAbs = some inode
      · obtain ⟨bin, isMade, isFile⟩ := isTarget
        rw [first.executable bin inode isMade isFile, second.executable bin inode isMade isFile]
      · have noTarget : ∀ bin, made bin → fileAt layout.leads disk bin.targetAbs ≠ some inode :=
          fun bin isMade isFile => isTarget ⟨bin, isMade, isFile⟩
        rw [first.modes inode noTarget, second.modes inode noTarget]
    cases isFirst : now.inodes inode
    cases isSecond : other.inodes inode
    simp only [isFirst, isSecond] at content mode
    rw [content, mode]
  have fresh : now.fresh = other.fresh := first.fresh.trans second.fresh.symm
  cases now
  cases other
  simp only at sameNames inodes fresh
  subst sameNames inodes fresh
  rfl

theorem Linked.same (linked : Linked layout manifests directories workspaceRoot disk names now made)
    (place : π) (noLink : ¬ BinPlace layout manifests directories workspaceRoot disk names place) :
    now.names (.path place) = disk.names (.path place) := by
  refine linked.others place fun bin isMade here => noLink ?_
  obtain ⟨name, isName, isMadeBy⟩ := linked.within bin isMade
  exact ⟨name, isName, bin, isMadeBy, here⟩

variable [DecidableEq π]

theorem createOneBinLink_none {start : StoreDisk π} {bin : BinLink π}
    (noTarget : behind layout start bin.targetAbs = none) :
    createOneBinLink layout.leads start bin linking = (some false, start) := by
  unfold createOneBinLink
  cases isFinal : resolve layout.leads start maxLinks bin.targetAbs with
  | none => rfl
  | some final =>
      rw [behind, isFinal, Option.bind_some] at noTarget
      simp only [noTarget, ↓reduceIte]

/-- `create_one_bin_link` where its target is and the place of the link is no directory; `target` is
the file that the link is for. -/
theorem createOneBinLink_some {start : StoreDisk π} {bin : BinLink π} (target : Option Nat)
    (isTarget : (behind layout start bin.targetAbs).isSome = true)
    (free : start.names (.path bin.linkPath) ≠ some .directory)
    (isFile : ∀ linked : StoreDisk π, (∀ place, place ≠ bin.linkPath →
      linked.names (.path place) = start.names (.path place)) →
        fileAt layout.leads linked bin.targetAbs = target) :
    ∃ after, createOneBinLink layout.leads start bin linking = (some true, after) ∧
      (∀ key, after.names (.entry key) = start.names (.entry key)) ∧
      after.names (.path bin.linkPath) = some (.symlink bin.relTarget) ∧
      (∀ place, place ≠ bin.linkPath → after.names (.path place) = start.names (.path place)) ∧
      after.fresh = start.fresh ∧
      ∀ inode, after.inodes inode =
        if target = some inode then
          ⟨(start.inodes inode).content, (start.inodes inode).mode ||| executableBits⟩
        else start.inodes inode := by
  obtain ⟨entry, isBehind⟩ := Option.isSome_iff_exists.mp isTarget
  obtain ⟨final, isFinal, isEntry⟩ := Option.bind_eq_some_iff.mp isBehind
  have there : start.names (.path final) ≠ none := by simp [isEntry]
  have cleared : removeFile start bin.linkPath linking.removes =
      start.remove (.path bin.linkPath) := if_pos ⟨rfl, free⟩
  have absent : (start.remove (.path bin.linkPath)).names (.path bin.linkPath) = none := by
    simp [Disk.remove, Disk.setName]
  have linked : LinkedStore.symlink (start.remove (.path bin.linkPath)) bin.relTarget bin.linkPath =
      some (Disk.symlink (start.remove (.path bin.linkPath)) (.path bin.linkPath)
        bin.relTarget) := if_pos absent
  have elsewhere : ∀ name, name ≠ .path bin.linkPath →
      (Disk.symlink (start.remove (.path bin.linkPath)) (.path bin.linkPath)
        bin.relTarget).names name = start.names name := by
    intro name apart
    simp [Disk.symlink, Disk.remove, Disk.setName, apart]
  have here : (Disk.symlink (start.remove (.path bin.linkPath)) (.path bin.linkPath)
      bin.relTarget).names (.path bin.linkPath) = some (.symlink bin.relTarget) := by
    simp [Disk.symlink, Disk.setName]
  have isFileThen := isFile (Disk.symlink (start.remove (.path bin.linkPath)) (.path bin.linkPath)
    bin.relTarget) fun place apart => elsewhere _ (by simpa using apart)
  unfold createOneBinLink
  simp only [isFinal, there, ↓reduceIte, cleared, linked, isFileThen]
  generalize isMade : Disk.symlink (start.remove (.path bin.linkPath)) (.path bin.linkPath)
    bin.relTarget = made at elsewhere here
  have sameInodes : made.inodes = start.inodes := by rw [← isMade]; rfl
  have sameFresh : made.fresh = start.fresh := by rw [← isMade]; rfl
  have paths : ∀ place, place ≠ bin.linkPath →
      made.names (.path place) = start.names (.path place) :=
    fun place apart => elsewhere _ (by simpa using apart)
  cases target with
  | none =>
      refine ⟨made, rfl, fun key => elsewhere _ (by simp), here, paths, sameFresh, fun inode => ?_⟩
      rw [if_neg (by simp), sameInodes]
  | some inode =>
      refine ⟨_, rfl, fun key => elsewhere _ (by simp), here, paths, sameFresh, fun other => ?_⟩
      unfold Disk.setMode
      by_cases isInode : other = inode
      · rw [isInode, if_pos rfl, Disk.inodes_overwrite_self, sameInodes]
      · rw [if_neg fun same => isInode (Option.some.inj same).symm,
          Disk.inodes_overwrite_of_ne _ isInode, sameInodes]

section Apart

variable (apart : BinsApart layout manifests directories workspaceRoot disk names)

include apart

omit [DecidableEq π] in
theorem Linked.free (linked : Linked layout manifests directories workspaceRoot disk names now made)
    {name : Bytes} (isName : name ∈ names) {bin : BinLink π}
    (isMadeBy : MadeBy layout manifests directories workspaceRoot disk name bin) :
    now.names (.path bin.linkPath) ≠ some .directory := by
  by_cases earlier : ∃ other, made other ∧ other.linkPath = bin.linkPath
  · obtain ⟨other, isMade, here⟩ := earlier
    rw [← here, linked.linked other isMade]
    simp
  · rw [linked.others _ fun other isMade here => earlier ⟨other, isMade, here⟩]
    exact apart.free name isName bin isMadeBy

/-- One more link, and its target made executable. -/
theorem Linked.extend {after : StoreDisk π}
    (linked : Linked layout manifests directories workspaceRoot disk names now made)
    {name : Bytes} (isName : name ∈ names) {bin : BinLink π}
    (isMadeBy : MadeBy layout manifests directories workspaceRoot disk name bin)
    (entries : ∀ key, after.names (.entry key) = now.names (.entry key))
    (here : after.names (.path bin.linkPath) = some (.symlink bin.relTarget))
    (elsewhere : ∀ place, place ≠ bin.linkPath →
      after.names (.path place) = now.names (.path place))
    (fresh : after.fresh = now.fresh)
    (inodes : ∀ inode, after.inodes inode =
      if fileAt layout.leads disk bin.targetAbs = some inode then
        ⟨(now.inodes inode).content, (now.inodes inode).mode ||| executableBits⟩
      else now.inodes inode) :
    Linked layout manifests directories workspaceRoot disk names after fun other =>
      made other ∨ other = bin := by
  refine ⟨?_, fun key => (entries key).trans (linked.entries key),
    fresh.trans linked.fresh, ?_, ?_, ?_, ?_, ?_⟩
  · rintro other (isMade | rfl)
    · exact linked.within other isMade
    · exact ⟨name, isName, isMadeBy⟩
  · rintro other (isMade | rfl)
    · by_cases same : other.linkPath = bin.linkPath
      · obtain ⟨otherName, isOtherName, isOther⟩ := linked.within other isMade
        rw [same, here,
          apart.sameText otherName isOtherName name isName other bin isOther isMadeBy same]
      · rw [elsewhere _ same, linked.linked other isMade]
    · exact here
  · intro place noPlace
    rw [elsewhere place fun same => noPlace bin (Or.inr rfl) same.symm]
    exact linked.others place fun other isMade => noPlace other (Or.inl isMade)
  · intro inode
    rw [inodes, ← linked.content]
    split
    · rfl
    · rfl
  · intro other inode isOther isFile
    by_cases earlier : ∃ other, made other ∧ fileAt layout.leads disk other.targetAbs = some inode
    · obtain ⟨first, isMade, isFirst⟩ := earlier
      have already := linked.executable first inode isMade isFirst
      rw [inodes]
      split
      · rw [already, Nat.lor_assoc, Nat.or_self]
      · exact already
    · obtain isMade | rfl := isOther
      · exact (earlier ⟨other, isMade, isFile⟩).elim
      · rw [inodes, if_pos isFile,
          linked.modes inode fun first isMade isFirst => earlier ⟨first, isMade, isFirst⟩]
  · intro inode noTarget
    rw [inodes, if_neg (noTarget bin (Or.inr rfl))]
    exact linked.modes inode fun other isMade => noTarget other (Or.inl isMade)

theorem Linked.step (linked : Linked layout manifests directories workspaceRoot disk names now made)
    {name : Bytes} (isName : name ∈ names) {package : Package}
    (visited : VisitedBy layout directories workspaceRoot disk name package) {bin : BinLink π}
    (isBin : bin ∈ binLinks layout manifests (binDirOf workspaceRoot) package disk) :
    (createOneBinLink layout.leads now bin linking).1.isSome = true ∧
      Linked layout manifests directories workspaceRoot disk names
        (createOneBinLink layout.leads now bin linking).2 fun other =>
          made other ∨ other = bin ∧ (behind layout disk bin.targetAbs).isSome = true := by
  have avoids := (apart.package name isName package visited).2.2 bin isBin
  have sameBehind := behind_avoids avoids linked.same
  by_cases isTarget : (behind layout disk bin.targetAbs).isSome = true
  · have isMadeBy : MadeBy layout manifests directories workspaceRoot disk name bin :=
      ⟨⟨package, visited, isBin⟩, isTarget⟩
    have isPlace : BinPlace layout manifests directories workspaceRoot disk names bin.linkPath :=
      ⟨name, isName, bin, isMadeBy, rfl⟩
    obtain ⟨after, isAfter, entries, here, elsewhere, fresh, inodes⟩ :=
      createOneBinLink_some (fileAt layout.leads disk bin.targetAbs)
        (sameBehind ▸ isTarget) (linked.free apart isName isMadeBy) (by
          intro changed unchanged
          rw [fileAt_eq_behind, fileAt_eq_behind, behind_avoids avoids]
          intro place noLink
          rw [unchanged place fun same => noLink (same ▸ isPlace), linked.same place noLink])
    simp only [isAfter, isTarget, and_true]
    exact ⟨rfl, linked.extend apart isName isMadeBy entries here elsewhere fresh inodes⟩
  · have noTarget : behind layout now bin.targetAbs = none := by
      rw [sameBehind]
      simpa using isTarget
    rw [createOneBinLink_none noTarget]
    simpa [isTarget] using linked

omit [DecidableEq π] in
/-- What is read of a package is what was there before the links. -/
theorem Linked.binLinks_same
    (linked : Linked layout manifests directories workspaceRoot disk names now made) {name : Bytes}
    (isName : name ∈ names) {package : Package}
    (visited : VisitedBy layout directories workspaceRoot disk name package) :
    binLinks layout manifests (binDirOf workspaceRoot) package now =
      binLinks layout manifests (binDirOf workspaceRoot) package disk := by
  obtain ⟨dir, json, _⟩ := apart.package name isName package visited
  have sameDir : isDir layout now (layout.place package.dir) =
      isDir layout disk (layout.place package.dir) := by
    rw [isDir, isDir, behind_avoids dir linked.same]
  have sameText : readFile layout now (layout.place (package.dir.join (utf8 "package.json"))) =
      readFile layout disk (layout.place (package.dir.join (utf8 "package.json"))) := by
    unfold readFile
    rw [fileAt_eq_behind, fileAt_eq_behind, behind_avoids json linked.same]
    congr 1
    funext inode
    rw [linked.content]
    have sameMode : readable (now.inodes inode).mode = readable (disk.inodes inode).mode := by
      by_cases isTarget : ∃ bin, made bin ∧ fileAt layout.leads disk bin.targetAbs = some inode
      · obtain ⟨bin, isMade, isFile⟩ := isTarget
        have noRead : executableBits.testBit 8 = false := by decide
        rw [linked.executable bin inode isMade isFile, readable, readable, Nat.testBit_or, noRead,
          Bool.or_false]
      · rw [linked.modes inode fun bin isMade isFile => isTarget ⟨bin, isMade, isFile⟩]
    rw [sameMode]
  unfold binLinks
  rw [sameDir, sameText]

theorem Linked.package
    (linked : Linked layout manifests directories workspaceRoot disk names now made) {name : Bytes}
    (isName : name ∈ names) {package : Package}
    (visited : VisitedBy layout directories workspaceRoot disk name package) :
    (createBinLinksForPackage layout manifests (binDirOf workspaceRoot) package now).1 = true ∧
      Linked layout manifests directories workspaceRoot disk names
        (createBinLinksForPackage layout manifests (binDirOf workspaceRoot) package now).2
        fun other => made other ∨
          other ∈ binLinks layout manifests (binDirOf workspaceRoot) package disk ∧
            (behind layout disk other.targetAbs).isSome = true := by
  unfold createBinLinksForPackage LinkedStore.createBinLinks
  rw [linked.binLinks_same apart isName visited]
  have rounds : ∀ bin ∈ binLinks layout manifests (binDirOf workspaceRoot) package disk,
      ∀ now made, Linked layout manifests directories workspaceRoot disk names now made →
        (createOneBinLink layout.leads now bin linking).1.isSome = true ∧
          Linked layout manifests directories workspaceRoot disk names
            (createOneBinLink layout.leads now bin linking).2 fun other =>
              made other ∨ other = bin ∧ (behind layout disk bin.targetAbs).isSome = true :=
    fun bin isBin now made linked => linked.step apart isName visited isBin
  obtain ⟨succeeds, next⟩ :
      (tryEach (fun bin disk => ((createOneBinLink layout.leads disk bin linking).1.isSome,
        (createOneBinLink layout.leads disk bin linking).2)) (binLinks layout manifests
          (binDirOf workspaceRoot) package disk) now).1 = true ∧ _ := tryEach_gather rounds linked
  refine ⟨succeeds, next.congr fun other => or_congr_right ⟨?_, ?_⟩⟩
  · rintro ⟨bin, isBin, rfl, isTarget⟩
    exact ⟨isBin, isTarget⟩
  · rintro ⟨isBin, isTarget⟩
    exact ⟨other, isBin, rfl, isTarget⟩

/-- The packages of one scope. -/
theorem Linked.scope
    (linked : Linked layout manifests directories workspaceRoot disk names now made) {name : Bytes}
    (isName : name ∈ names) (visible : isHidden (toStringLossy name) = false)
    (inScope : isScope (toStringLossy name) = true)
    (isDirectory :
      isDir layout disk (layout.place ((nodeModules workspaceRoot).join name)) = true)
    {inners listed : List Bytes}
    (isInners : directories.entries ((nodeModules workspaceRoot).join name) disk = some inners)
    (perm : listed.Perm inners) :
    let each := fun inner => createBinLinksForPackage layout manifests (binDirOf workspaceRoot)
      (scopedPackage ((nodeModules workspaceRoot).join name) (toStringLossy name) inner)
    (tryEach each listed now).1 = true ∧
      Linked layout manifests directories workspaceRoot disk names (tryEach each listed now).2
        fun other => made other ∨
          MadeBy layout manifests directories workspaceRoot disk name other := by
  intro each
  have rounds : ∀ inner ∈ listed, ∀ now made,
      Linked layout manifests directories workspaceRoot disk names now made →
        (each inner now).1 = true ∧
        Linked layout manifests directories workspaceRoot disk names (each inner now).2
          fun other => made other ∨
            other ∈ binLinks layout manifests (binDirOf workspaceRoot)
              (scopedPackage ((nodeModules workspaceRoot).join name) (toStringLossy name)
                inner) disk ∧
              (behind layout disk other.targetAbs).isSome = true :=
    fun inner isInner now made linked => linked.package apart isName
      (.inScope inners inner visible inScope isDirectory isInners (perm.mem_iff.mp isInner))
  obtain ⟨succeeds, next⟩ := tryEach_gather rounds linked
  refine ⟨succeeds, next.congr fun bin => or_congr_right ⟨?_, ?_⟩⟩
  · rintro ⟨inner, isInner, isBin, isTarget⟩
    exact ⟨⟨_, .inScope inners inner visible inScope isDirectory isInners
      (perm.mem_iff.mp isInner), isBin⟩, isTarget⟩
  · rintro ⟨⟨package, visited, isBin⟩, isTarget⟩
    cases visited with
    | plain _ noScope => simp [inScope] at noScope
    | inScope others inner _ _ _ isOthers isInner =>
        obtain rfl := Option.some.inj (isInners.symm.trans isOthers)
        exact ⟨inner, perm.mem_iff.mpr isInner, isBin, isTarget⟩

theorem Linked.entry
    (linked : Linked layout manifests directories workspaceRoot disk names now made) {name : Bytes}
    (isName : name ∈ names) {lister : Lister π} (lists : Lists directories lister) :
    (createForEntry layout manifests lister (nodeModules workspaceRoot) (binDirOf workspaceRoot)
        name now).1 = true ∧
      Linked layout manifests directories workspaceRoot disk names
        (createForEntry layout manifests lister (nodeModules workspaceRoot) (binDirOf workspaceRoot)
          name now).2 fun other => made other ∨
            MadeBy layout manifests directories workspaceRoot disk name other := by
  unfold createForEntry
  by_cases hidden : isHidden (toStringLossy name) = true
  · rw [if_pos hidden]
    refine ⟨rfl, linked.congr fun bin => (or_iff_left ?_).symm⟩
    rintro ⟨⟨package, visited, _⟩, _⟩
    cases visited with
    | plain visible => simp [hidden] at visible
    | inScope _ _ visible => simp [hidden] at visible
  · have visible : isHidden (toStringLossy name) = false := by simpa using hidden
    rw [if_neg hidden]
    by_cases inScope : isScope (toStringLossy name) = true
    · have sameDir : isDir layout now (layout.place ((nodeModules workspaceRoot).join name)) =
          isDir layout disk (layout.place ((nodeModules workspaceRoot).join name)) := by
        rw [isDir, isDir, behind_avoids (apart.entry name isName) linked.same]
      rw [if_pos inScope, sameDir]
      by_cases isDirectory :
          isDir layout disk (layout.place ((nodeModules workspaceRoot).join name)) = true
      · obtain ⟨isListed, noLink⟩ := apart.scopes name isName visible inScope isDirectory
        obtain ⟨inners, isInners⟩ := Option.isSome_iff_exists.mp isListed
        have stillInners : directories.entries ((nodeModules workspaceRoot).join name) now =
            some inners := by
          rw [← isInners]
          exact directories.ofEntries _ _ _ fun inner => linked.same _ (noLink inner)
        have listsHere := lists ((nodeModules workspaceRoot).join name) now
        rw [stillInners] at listsHere
        obtain ⟨listed, isRead, perm⟩ := listsHere
        rw [if_pos isDirectory, isRead]
        exact linked.scope apart isName visible inScope isDirectory isInners perm
      · rw [if_neg isDirectory]
        refine ⟨rfl, linked.congr fun bin => (or_iff_left ?_).symm⟩
        rintro ⟨⟨package, visited, _⟩, _⟩
        cases visited with
        | plain _ noScope => simp [inScope] at noScope
        | inScope _ _ _ _ isDirectoryToo => exact isDirectory isDirectoryToo
    · have noScope : isScope (toStringLossy name) = false := by simpa using inScope
      rw [if_neg inScope]
      obtain ⟨succeeds, next⟩ := linked.package apart isName (.plain visible noScope)
      refine ⟨succeeds, next.congr fun bin => or_congr_right ⟨?_, ?_⟩⟩
      · rintro ⟨isBin, isTarget⟩
        exact ⟨⟨_, .plain visible noScope, isBin⟩, isTarget⟩
      · rintro ⟨⟨package, visited, isBin⟩, isTarget⟩
        cases visited with
        | plain => exact ⟨isBin, isTarget⟩
        | inScope _ _ _ isInScope => exact (inScope isInScope).elim

end Apart

/-- All bins of `node_modules`, in whatever order its directories are listed. -/
theorem createBinLinks_linked {lister : Lister π} (lists : Lists directories lister)
    (succeeds : (makeBinDir layout workspaceRoot disk).1 = true)
    (isRead : directories.entries (nodeModules workspaceRoot)
      (makeBinDir layout workspaceRoot disk).2 = some names)
    (apart : BinsApart layout manifests directories workspaceRoot
      (makeBinDir layout workspaceRoot disk).2 names) :
    Linked layout manifests directories workspaceRoot (makeBinDir layout workspaceRoot disk).2 names
      (createBinLinks layout manifests lister workspaceRoot disk).2 fun bin =>
        ∃ name ∈ names, MadeBy layout manifests directories workspaceRoot
          (makeBinDir layout workspaceRoot disk).2 name bin := by
  have listsHere := lists (nodeModules workspaceRoot) (makeBinDir layout workspaceRoot disk).2
  rw [isRead] at listsHere
  obtain ⟨listed, isListed, perm⟩ := listsHere
  unfold createBinLinks
  simp only [succeeds, ↓reduceIte, isListed]
  generalize (makeBinDir layout workspaceRoot disk).2 = start at apart
  have rounds : ∀ name ∈ listed, ∀ now made,
      Linked layout manifests directories workspaceRoot start names now made →
        (createForEntry layout manifests lister (nodeModules workspaceRoot)
          (binDirOf workspaceRoot) name now).1 = true ∧
        Linked layout manifests directories workspaceRoot start names
          (createForEntry layout manifests lister (nodeModules workspaceRoot)
            (binDirOf workspaceRoot) name now).2 fun other => made other ∨
              MadeBy layout manifests directories workspaceRoot start name other :=
    fun name isName now made linked => linked.entry apart (perm.mem_iff.mp isName) lists
  obtain ⟨_, next⟩ := tryEach_gather rounds Linked.start
  exact next.congr fun bin => by simp [perm.mem_iff]

/-- The links in `.bin`, whatever the order of the directories. -/
theorem createBinLinks_same {lister lister' : Lister π} (lists : Lists directories lister)
    (lists' : Lists directories lister')
    (orderly : ∀ names, (makeBinDir layout workspaceRoot disk).1 = true →
      directories.entries (nodeModules workspaceRoot) (makeBinDir layout workspaceRoot disk).2 =
        some names →
      BinsApart layout manifests directories workspaceRoot
        (makeBinDir layout workspaceRoot disk).2 names) :
    (createBinLinks layout manifests lister workspaceRoot disk).2 =
      (createBinLinks layout manifests lister' workspaceRoot disk).2 := by
  by_cases succeeds : (makeBinDir layout workspaceRoot disk).1 = true
  · cases isRead : directories.entries (nodeModules workspaceRoot)
        (makeBinDir layout workspaceRoot disk).2 with
    | none =>
        have unlisted := lists (nodeModules workspaceRoot) (makeBinDir layout workspaceRoot disk).2
        have unlisted' :=
          lists' (nodeModules workspaceRoot) (makeBinDir layout workspaceRoot disk).2
        rw [isRead] at unlisted unlisted'
        unfold createBinLinks
        simp only [succeeds, ↓reduceIte, unlisted, unlisted']
    | some names =>
        have apart := orderly names succeeds isRead
        exact (createBinLinks_linked lists succeeds isRead apart).unique
          (createBinLinks_linked lists' succeeds isRead apart)
  · unfold createBinLinks
    simp only [succeeds, Bool.false_eq_true, ↓reduceIte]

end Bins

/-! The archives, whatever the order of the cache. -/

section Archives

variable {pmCache other : List CacheEntry}

theorem find_content {isArchive : CacheEntry → Bool} (perm : pmCache.Perm other)
    (agreed : ∀ entry ∈ pmCache, ∀ entry' ∈ pmCache, isArchive entry = true →
      isArchive entry' = true → entry.content = entry'.content) :
    (pmCache.find? isArchive).map CacheEntry.content =
      (other.find? isArchive).map CacheEntry.content := by
  cases isFirst : pmCache.find? isArchive with
  | none =>
      have noneThere : other.find? isArchive = none := by
        rw [List.find?_eq_none] at isFirst ⊢
        exact fun entry member => isFirst entry (perm.mem_iff.mpr member)
      rw [noneThere]
  | some first =>
      have isHere := List.mem_of_find?_eq_some isFirst
      have isThere : (other.find? isArchive).isSome = true :=
        List.find?_isSome.mpr ⟨first, perm.mem_iff.mp isHere, List.find?_some isFirst⟩
      obtain ⟨second, isSecond⟩ := Option.isSome_iff_exists.mp isThere
      rw [isSecond, Option.map_some, Option.map_some]
      exact congrArg some (agreed first isHere second
        (perm.mem_iff.mpr (List.mem_of_find?_eq_some isSecond)) (List.find?_some isFirst)
        (List.find?_some isSecond))

theorem findArchive_perm {package : LockfilePackage} (perm : pmCache.Perm other)
    (agreed : Agreed pmCache package) :
    findArchive pmCache package = findArchive other package := by
  have found (archive : Option CacheEntry) :
      archive.bind CacheEntry.content = (archive.map CacheEntry.content).join := by
    cases archive <;> rfl
  have zips := find_content perm agreed.1
  unfold findArchive
  rw [found, found, Option.map_or, Option.map_or, ← zips]
  cases isZipFile : pmCache.find? (isZip package) with
  | some entry => rfl
  | none =>
      have noZip : ∀ entry ∈ pmCache, isZip package entry = false := by
        simpa using isZipFile
      rw [find_content perm (agreed.2 noZip)]

theorem containsKey_putBytesKeyed {store : ArtifactStore} {key : Bytes} (other bytes : Bytes)
    (present : store.containsKey key = true) :
    (store.putBytesKeyed other bytes).containsKey key = true := by
  unfold ArtifactStore.putBytesKeyed
  split
  · exact present
  · by_cases here : key = other
    · simp [ArtifactStore.containsKey, here]
    · simpa [ArtifactStore.containsKey, here] using present

theorem capture_perm {crates : Crates} {packages : List LockfilePackage} {store : ArtifactStore}
    (perm : pmCache.Perm other)
    (agreed : ∀ package ∈ packages,
      store.containsKey (computeCasKey crates package.integrity) = false →
        Agreed pmCache package) :
    capture crates pmCache packages store = capture crates other packages store := by
  induction packages generalizing store with
  | nil => rfl
  | cons package packages ih =>
      have later (kept : ArtifactStore)
          (grows : ∀ key, store.containsKey key = true → kept.containsKey key = true) :
          capture crates pmCache packages kept = capture crates other packages kept := by
        refine ih fun next member absent => agreed next (List.mem_cons_of_mem _ member) ?_
        rw [Bool.eq_false_iff] at absent ⊢
        exact fun present => absent (grows _ present)
      unfold capture
      rw [List.foldl_cons, List.foldl_cons]
      by_cases present : store.containsKey (computeCasKey crates package.integrity) = true
      · simp only [present, ↓reduceIte]
        exact later store fun _ => id
      · have absent := Bool.eq_false_iff.mpr present
        simp only [present, Bool.false_eq_true, ↓reduceIte,
          ← findArchive_perm perm (agreed package List.mem_cons_self absent)]
        refine later _ fun key isHere => ?_
        cases findArchive pmCache package with
        | none => exact isHere
        | some bytes => exact containsKey_putBytesKeyed _ bytes isHere

end Archives

section

variable {π : Type} [DecidableEq π] (layout : Layout π) (manifests : Manifests)
  (directories : Directories layout) (workspaceRoot : Path)

theorem orderFree_of_orderly (crates : Crates) (dir : Option ArtifactDir) (disk : StoreDisk π)
    (packages : List LockfilePackage) (pmCache : List CacheEntry) (store : ArtifactStore)
    (orderly : Orderly layout manifests directories workspaceRoot crates dir disk packages pmCache
      store) :
    OrderFree layout manifests directories workspaceRoot crates dir disk packages pmCache
      store := by
  intro dir' lister lister' pmCache' sameKind sameFiles lists lists' sameCache
  have sameRestore := tryRestoreFromCas_perm sameKind sameFiles orderly.restore
  have sameDisk : restoreFiles layout manifests lister dir workspaceRoot disk =
      restoreFiles layout manifests lister' dir' workspaceRoot disk := by
    unfold restoreFiles
    rw [← sameRestore]
    rcases isRestored : tryRestoreFromCas layout dir workspaceRoot disk with ⟨succeeds, restored⟩
    match succeeds, isRestored with
    | some true, isRestored =>
        exact createBinLinks_same lists lists' fun names =>
          orderly.bins restored names isRestored
    | some false, _ => rfl
    | none, _ => rfl
  exact ⟨by rw [sameDisk], capture_perm sameCache.symm orderly.archives⟩

end

/-! Two packages, of which one has a bin, and one archive. -/

def binText : Bytes := utf8 "../a/cli.js"

def cliPath : Path := utf8 "/w/node_modules/a/cli.js"

def cliLayout : Layout Path := ⟨id, fun place text => if text = binText then cliPath else place⟩

/-- Directories of which the entries have these names. -/
def listing : Directories cliLayout where
  entries path disk := some ([utf8 ".bin", utf8 "a", utf8 "b"].filter fun name =>
    disk.names (.path (path.join name)) ≠ none)
  ofEntries _ _ _ same := congrArg some (List.filter_congr fun name _ =>
    decide_eq_decide.mpr (not_congr (iff_of_eq (congrArg (· = none) (same name)))))

def manifestText : Bytes := utf8 "\x7b\"bin\":\"cli.js\"\x7d"

def cliManifests : Manifests where
  bin text := if text = manifestText then some (.single (utf8 "cli.js")) else none
  diffPaths target _ := if target = cliPath then some binText else none

def cliPackage : PackageArtifact :=
  ⟨utf8 "a", utf8 "1.0.0", [(utf8 "package.json", manifestText), (utf8 "cli.js", utf8 "A")]⟩

def libPackage : PackageArtifact := ⟨utf8 "b", utf8 "2.0.0", [(utf8 "index.js", utf8 "B")]⟩

def cliDir : ArtifactDir :=
  [(utf8 "a@1.0.0.json", .artifact cliPackage), (utf8 "b@2.0.0.json", .artifact libPackage)]

/-- A store with three files, in which keys and contents are the same, and `node_modules`. -/
def cliDisk : StoreDisk Path :=
  let stored := [manifestText, utf8 "A", utf8 "B", utf8 "C"].foldl (fun disk content =>
    putBytesKeyed disk content content) emptyDisk
  (stored.makeDirectory (.path (utf8 "/w"))).makeDirectory (.path (utf8 "/w/node_modules"))

def cliLockfile : List LockfilePackage := [⟨utf8 "a", utf8 "1.0.0", utf8 "sha512-a"⟩]

def cliCache : List CacheEntry :=
  [⟨utf8 "b-npm-2.0.0-91aa-8.zip", some (utf8 "PKb")⟩,
    ⟨utf8 "a-npm-1.0.0-0c2d-8.zip", some (utf8 "PKa")⟩]

def cliTree : StoreDisk Path :=
  (makeBinDir cliLayout (utf8 "/w")
    (tryRestoreFromCas cliLayout (some cliDir) (utf8 "/w") cliDisk).2).2

def cliNames : List Bytes := [utf8 ".bin", utf8 "a", utf8 "b"]

/-- The packages are restored, and the bin is linked. -/
example : (tryRestoreFromCas cliLayout (some cliDir) (utf8 "/w") cliDisk).1 = some true ∧
    (restoreFiles cliLayout cliManifests listing.entries (some cliDir) (utf8 "/w") cliDisk).names
      (.path (utf8 "/w/node_modules/.bin/a")) = some (.symlink binText) := by decide +kernel

theorem cli_names : listing.entries (nodeModules (utf8 "/w")) cliTree = some cliNames := by
  decide +kernel

theorem cli_read : readManifests cliDir = some [cliPackage, libPackage] := by decide +kernel

theorem cli_bins : (binLinks cliLayout cliManifests (binDirOf (utf8 "/w"))
    ⟨utf8 "/w/node_modules/a", utf8 "a"⟩ cliTree).map (fun bin =>
      (bin.targetAbs, bin.linkPath, bin.relTarget)) =
    [(cliPath, utf8 "/w/node_modules/.bin/a", binText)] := by decide +kernel

theorem lib_bins : (binLinks cliLayout cliManifests (binDirOf (utf8 "/w"))
    ⟨utf8 "/w/node_modules/b", utf8 "b"⟩ cliTree).length = 0 := by decide +kernel

theorem cli_visited {name : Bytes} (isName : name ∈ cliNames) {package : Package}
    (visited : VisitedBy cliLayout listing (utf8 "/w") cliTree name package) :
    package = ⟨utf8 "/w/node_modules/a", utf8 "a"⟩ ∨
      package = ⟨utf8 "/w/node_modules/b", utf8 "b"⟩ := by
  have names : ∀ name ∈ cliNames, isScope (toStringLossy name) = false ∧
      (isHidden (toStringLossy name) = true ∨
        (⟨(nodeModules (utf8 "/w")).join name, toStringLossy name⟩ : Package) =
          ⟨utf8 "/w/node_modules/a", utf8 "a"⟩ ∨
        (⟨(nodeModules (utf8 "/w")).join name, toStringLossy name⟩ : Package) =
          ⟨utf8 "/w/node_modules/b", utf8 "b"⟩) := by decide +kernel
  obtain ⟨noScope, hidden | isPackage⟩ := names name isName
  · cases visited with
    | plain visible => simp [visible] at hidden
    | inScope _ _ visible => simp [visible] at hidden
  · cases visited with
    | plain => exact isPackage
    | inScope _ _ _ isInScope => simp [noScope] at isInScope

theorem cli_declared {package : Package}
    (isPackage : package = ⟨utf8 "/w/node_modules/a", utf8 "a"⟩ ∨
      package = ⟨utf8 "/w/node_modules/b", utf8 "b"⟩) {bin : BinLink Path}
    (isBin : bin ∈ binLinks cliLayout cliManifests (binDirOf (utf8 "/w")) package cliTree) :
    bin.targetAbs = cliPath ∧ bin.linkPath = utf8 "/w/node_modules/.bin/a" ∧
      bin.relTarget = binText := by
  rcases isPackage with rfl | rfl
  · have shown := List.mem_map_of_mem (f := fun bin : BinLink Path =>
      (bin.targetAbs, bin.linkPath, bin.relTarget)) isBin
    rw [cli_bins] at shown
    simpa using shown
  · rw [List.length_eq_zero_iff.mp lib_bins] at isBin
    exact (List.not_mem_nil isBin).elim

theorem cli_avoids {place : Path}
    (past : ∀ passed ∈ route cliLayout cliTree maxLinks place,
      passed ≠ utf8 "/w/node_modules/.bin/a") :
    Avoids cliLayout cliTree (BinPlace cliLayout cliManifests listing (utf8 "/w") cliTree cliNames)
      place := by
  rintro passed isPassed ⟨name, isName, bin, ⟨⟨package, visited, isBin⟩, _⟩, here⟩
  exact past passed isPassed (here ▸ (cli_declared (cli_visited isName visited) isBin).2.1)

theorem cli_apart :
    BinsApart cliLayout cliManifests listing (utf8 "/w") cliTree cliNames where
  sameText := by
    rintro name isName other isOther bin bin' ⟨⟨_, visited, isBin⟩, _⟩ ⟨⟨_, visited', isBin'⟩, _⟩ _
    rw [(cli_declared (cli_visited isName visited) isBin).2.2,
      (cli_declared (cli_visited isOther visited') isBin').2.2]
  free := by
    rintro name isName bin ⟨⟨_, visited, isBin⟩, _⟩
    rw [(cli_declared (cli_visited isName visited) isBin).2.1]
    decide +kernel
  entry := by
    have past : ∀ name ∈ cliNames, ∀ passed ∈ route cliLayout cliTree maxLinks
        (cliLayout.place ((nodeModules (utf8 "/w")).join name)),
          passed ≠ utf8 "/w/node_modules/.bin/a" := by decide +kernel
    exact fun name isName => cli_avoids (past name isName)
  scopes := by
    have noScope : ∀ name ∈ cliNames, isScope (toStringLossy name) = false := by decide +kernel
    intro name isName _ isInScope
    simp [noScope name isName] at isInScope
  package := by
    intro name isName package visited
    have isPackage := cli_visited isName visited
    refine ⟨cli_avoids ?_, cli_avoids ?_, fun bin isBin => cli_avoids ?_⟩
    · rcases isPackage with rfl | rfl <;> decide +kernel
    · rcases isPackage with rfl | rfl <;> decide +kernel
    · rw [(cli_declared isPackage isBin).1]
      decide +kernel

theorem cli_orderly : Orderly cliLayout cliManifests listing (utf8 "/w") Crates.plain (some cliDir)
    cliDisk cliLockfile cliCache (fun _ => none) where
  restore := by
    rintro _ artifacts ⟨⟩ ⟨isRead, _⟩
    obtain rfl := Option.some.inj (cli_read.symm.trans isRead)
    refine Or.inr ⟨?_, ?_, ?_, ?_⟩ <;> decide +kernel
  bins := by
    intro restored names isRestored _ isNames
    have isTree : (makeBinDir cliLayout (utf8 "/w") restored).2 = cliTree := by
      rw [cliTree, isRestored]
    rw [isTree] at isNames ⊢
    obtain rfl := Option.some.inj (cli_names.symm.trans isNames)
    exact cli_apart
  archives := by
    have agreed : ∀ package ∈ cliLockfile,
        (∀ entry ∈ cliCache, ∀ other ∈ cliCache, isZip package entry = true →
          isZip package other = true → entry.content = other.content) ∧
        ∃ entry ∈ cliCache, isZip package entry = true := by decide +kernel
    intro package member _
    obtain ⟨zips, entry, isEntry, isZipFile⟩ := agreed package member
    refine ⟨zips, fun noZip => ?_⟩
    simp [noZip entry isEntry] at isZipFile

theorem orderFree_cli : OrderFree cliLayout cliManifests listing (utf8 "/w") Crates.plain
    (some cliDir) cliDisk cliLockfile cliCache (fun _ => none) :=
  orderFree_of_orderly cliLayout cliManifests listing (utf8 "/w") Crates.plain (some cliDir) cliDisk
    cliLockfile cliCache (fun _ => none) cli_orderly

/-! Two versions of a package, which are restored to one place. -/

def versions : List PackageArtifact :=
  [⟨utf8 "a", utf8 "1.0.0", [(utf8 "cli.js", utf8 "A")]⟩,
    ⟨utf8 "a", utf8 "1.1.0", [(utf8 "cli.js", utf8 "B")]⟩]

def versionsDir : ArtifactDir :=
  versions.map fun version => (version.name ++ utf8 "@" ++ version.version ++ utf8 ".json",
    .artifact version)

theorem lists_entries {π : Type} {layout : Layout π} (directories : Directories layout) :
    Lists directories directories.entries := by
  intro path disk
  cases directories.entries path disk with
  | none => rfl
  | some names => exact ⟨names, rfl, List.Perm.refl names⟩

/-- The version whose json file is listed last is the one that is there. -/
theorem last_version_wins : ¬ OrderFree cliLayout cliManifests listing (utf8 "/w") Crates.plain
    (some versionsDir) cliDisk [] [] (fun _ => none) := by
  intro free
  have same := (free (some versionsDir.reverse) listing.entries listing.entries [] rfl
    versionsDir.reverse_perm (lists_entries listing) (lists_entries listing) (List.Perm.refl _)).1
  have first : treeAt (restoreFiles cliLayout cliManifests listing.entries (some versionsDir)
      (utf8 "/w") cliDisk) id cliPath = some (.file (utf8 "B") createMode) := by decide +kernel
  have second : treeAt (restoreFiles cliLayout cliManifests listing.entries
      (some versionsDir.reverse) (utf8 "/w") cliDisk) id cliPath =
        some (.file (utf8 "A") createMode) := by decide +kernel
  rw [same, second] at first
  exact absurd first (by decide +kernel)

end Rage.ListingOrder
