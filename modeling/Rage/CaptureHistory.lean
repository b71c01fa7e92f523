import Mathlib.Data.Finset.Card
import Mathlib.Data.Finset.Dedup
import Mathlib.Data.Set.List
import Rage.DeclaredInputs
import Rage.RestoredInstall

/-!
Captures one after another.  Each stops after twenty new packages; what is left is for the next one.
-/

namespace Rage

/-- `capture_now` after each build, while the installed packages stay as they are. -/
def captures (crates : Crates) (fs : FileSystem) (calls : List (List PathsetPackageRef))
    (state : Option ArtifactDir × ArtifactStore) : Option ArtifactDir × ArtifactStore :=
  calls.foldl (fun state refs => captureNow crates fs refs state.1 state.2) state

namespace PathsetPackageRef

def filename (ref : PathsetPackageRef) : Bytes := packageFilename ref.name ref.version

def artifact (crates : Crates) (fs : FileSystem) (ref : PathsetPackageRef) : PackageArtifact :=
  ⟨ref.name, ref.version,
    (packageFiles fs ref.packageRoot).map fun file => (file.1, crates.blake3 file.2)⟩

def Present (fs : FileSystem) (ref : PathsetPackageRef) : Prop :=
  (fs.stat ref.packageRoot).isSome = true

instance (fs : FileSystem) (ref : PathsetPackageRef) : Decidable (ref.Present fs) :=
  inferInstanceAs (Decidable (_ = true))

end PathsetPackageRef

namespace CaptureHistory

variable (crates : Crates) (fs : FileSystem)

/-- The store holds no other content under the hash of a file of a package. -/
def Trusted (store : ArtifactStore) : Prop :=
  ∀ root, ∀ file ∈ packageFiles fs root, ∀ content,
    store (crates.blake3 file.2) = some content → content = file.2

/-- The entry is the one of a package, and the store holds the package. -/
def Genuine (refs : List PathsetPackageRef) (store : ArtifactStore) (entry : Bytes × ManifestFile) :
    Prop :=
  ∃ ref ∈ refs, ref.Present fs ∧ entry = (ref.filename, .artifact (ref.artifact crates fs)) ∧
    ∀ file ∈ packageFiles fs ref.packageRoot, store (crates.blake3 file.2) = some file.2

structure Kept (refs : List PathsetPackageRef) (dir : ArtifactDir) (store : ArtifactStore) :
    Prop where
  named : (dir.map Prod.fst).Nodup
  genuine : ∀ entry ∈ dir, Genuine crates fs refs store entry
  trusted : Trusted crates fs store

def Complete (refs : List PathsetPackageRef) (dir : ArtifactDir) : Prop :=
  ∀ ref ∈ refs, ref.Present fs → hasEntry dir ref.filename = true

/-- The names of the files that are missing. -/
def missing (refs : List PathsetPackageRef) (dir : ArtifactDir) : Finset Bytes :=
  ((refs.filter fun ref => ref.Present fs).map PathsetPackageRef.filename).toFinset \
    (dir.map Prod.fst).toFinset

variable {crates fs} {refs others : List PathsetPackageRef} {dir : ArtifactDir}
  {store : ArtifactStore}

theorem hasEntry_iff {filename : Bytes} :
    hasEntry dir filename = true ↔ filename ∈ dir.map Prod.fst := by
  simp [hasEntry]

theorem hasEntry_append {filename : Bytes} (has : hasEntry dir filename = true)
    (added : ArtifactDir) : hasEntry (dir ++ added) filename = true := by
  simp [hasEntry_iff.mp has, hasEntry_iff]

/-! One package. -/

section

variable (injective : Function.Injective crates.blake3)

include injective

theorem putBytes_file (trusted : Trusted crates fs store) {root : Path} {file : Path × Bytes}
    (isFile : file ∈ packageFiles fs root) :
    Trusted crates fs (store.putBytes crates file.2) ∧
      store.putBytes crates file.2 (crates.blake3 file.2) = some file.2 ∧
      ∀ key content, store key = some content →
        store.putBytes crates file.2 key = some content := by
  unfold ArtifactStore.putBytes ArtifactStore.putBytesKeyed ArtifactStore.containsKey
  cases known : store (crates.blake3 file.2) with
  | some content =>
      obtain rfl := trusted root file isFile content known
      simpa [known] using trusted
  | none =>
      simp only [Option.isSome_none, Bool.false_eq_true, ↓reduceIte]
      refine ⟨?_, Function.update_self .., ?_⟩
      · intro other next isOther content found
        by_cases same : next.2 = file.2
        · rw [same, Function.update_self] at found
          rw [same, Option.some.inj found]
        · rw [Function.update_of_ne fun sameKey => same (injective sameKey)] at found
          exact trusted other next isOther content found
      · intro key content found
        rw [Function.update_of_ne, found]
        rintro rfl
        simp [known] at found

theorem putFiles (root : Path) {files : List (Path × Bytes)}
    (known : ∀ file ∈ files, file ∈ packageFiles fs root) (trusted : Trusted crates fs store) :
    let after := files.foldl (fun store file => store.putBytes crates file.2) store
    Trusted crates fs after ∧
      (∀ file ∈ files, after (crates.blake3 file.2) = some file.2) ∧
      ∀ key content, store key = some content → after key = some content := by
  induction files generalizing store with
  | nil => exact ⟨trusted, by simp, fun _ _ found => found⟩
  | cons file files ih =>
      obtain ⟨stillTrusted, stored, keeps⟩ :=
        putBytes_file injective trusted (known file List.mem_cons_self)
      obtain ⟨endTrusted, endStored, endKeeps⟩ :=
        ih (fun other member => known other (List.mem_cons_of_mem file member)) stillTrusted
      refine ⟨endTrusted, ?_, fun key content found => endKeeps key content (keeps key content found)⟩
      intro other member
      rcases List.mem_cons.mp member with rfl | later
      · exact endKeeps _ _ stored
      · exact endStored other later

theorem Kept.capture (kept : Kept crates fs refs dir store) {ref : PathsetPackageRef}
    (member : ref ∈ refs) (present : ref.Present fs) (new : hasEntry dir ref.filename = false) :
    Kept crates fs refs
      (dir ++ [(ref.filename, .artifact (capturePackage crates fs store ref).1)])
      (capturePackage crates fs store ref).2 := by
  obtain ⟨trusted, stored, keeps⟩ :=
    putFiles injective ref.packageRoot (fun _ isFile => isFile) kept.trusted
  constructor
  case named =>
    rw [List.map_append, List.map_singleton, List.nodup_append]
    refine ⟨kept.named, List.nodup_singleton _, ?_⟩
    rintro name inDir other inNew rfl
    rw [List.mem_singleton.mp inNew] at inDir
    rw [hasEntry_iff.mpr inDir] at new
    simp at new
  case genuine =>
    intro entry isEntry
    rcases List.mem_append.mp isEntry with old | isNew
    · obtain ⟨origin, isRef, here, rfl, holds⟩ := kept.genuine entry old
      exact ⟨origin, isRef, here, rfl, fun file isFile => keeps _ _ (holds file isFile)⟩
    · exact ⟨ref, member, present, List.mem_singleton.mp isNew, stored⟩
  case trusted => exact trusted

/-- One call keeps the entries that are there, and adds as many as it may, or all that are missing. -/
theorem Kept.loop (kept : Kept crates fs refs dir store) {left : List PathsetPackageRef}
    (known : ∀ ref ∈ left, ref ∈ refs) (budget : Nat) :
    let after := captureLoop crates fs budget left (dir, store)
    Kept crates fs refs after.1 after.2 ∧ ∃ added, after.1 = dir ++ added ∧
      (∀ entry ∈ added, ∃ ref ∈ left, ref.Present fs ∧ entry.1 = ref.filename) ∧
      (added.length = budget ∨ Complete fs left after.1) := by
  induction left generalizing budget dir store with
  | nil =>
      have same : captureLoop crates fs budget [] (dir, store) = (dir, store) := by
        cases budget <;> rfl
      rw [same]
      exact ⟨kept, [], by simp, by simp, Or.inr (by simp [Complete])⟩
  | cons ref left ih =>
      cases budget with
      | zero => exact ⟨kept, [], by simp [captureLoop], by simp, Or.inl rfl⟩
      | succ budget =>
          have later : ∀ ref ∈ left, ref ∈ refs := fun other member =>
            known other (List.mem_cons_of_mem ref member)
          rw [captureLoop]
          split
          · rename_i skipped
            obtain ⟨isKept, added, isAdded, names, ends⟩ := ih kept later (budget + 1)
            refine ⟨isKept, added, isAdded, ?_, ends.imp id fun complete => ?_⟩
            · intro entry member
              obtain ⟨other, isLeft, here⟩ := names entry member
              exact ⟨other, List.mem_cons_of_mem ref isLeft, here⟩
            · intro other member present
              rcases List.mem_cons.mp member with rfl | isLeft
              · rw [isAdded]
                refine hasEntry_append ?_ added
                rcases Bool.or_eq_true_iff.mp skipped with has | absent
                · exact has
                · rw [Option.isNone_iff_eq_none] at absent
                  simp [PathsetPackageRef.Present, absent] at present
              · exact complete other isLeft present
          · rename_i new
            obtain ⟨fresh, notNone⟩ := Bool.or_eq_false_iff.mp (Bool.eq_false_iff.mpr new)
            have present : ref.Present fs := by
              rw [PathsetPackageRef.Present, ← Option.not_isNone, notNone]
              rfl
            obtain ⟨isKept, added, isAdded, names, ends⟩ :=
              ih (kept.capture injective (known ref List.mem_cons_self) present fresh) later budget
            refine ⟨isKept, (ref.filename, .artifact (capturePackage crates fs store ref).1) :: added,
              ?_, ?_, ?_⟩
            · exact isAdded.trans (by simp)
            · intro entry member
              rcases List.mem_cons.mp member with rfl | isAdded
              · exact ⟨ref, List.mem_cons_self, present, rfl⟩
              · obtain ⟨other, isLeft, here⟩ := names entry isAdded
                exact ⟨other, List.mem_cons_of_mem ref isLeft, here⟩
            · refine ends.imp (fun full => by simp [full]) fun complete => ?_
              intro other member isPresent
              rcases List.mem_cons.mp member with rfl | isLeft
              · have inDir : other.filename ∈ (dir ++ [(other.filename,
                    ManifestFile.artifact (capturePackage crates fs store other).1)]).map
                      Prod.fst := by
                  simp
                exact (congrArg (hasEntry · other.filename) isAdded).trans
                  (hasEntry_append (hasEntry_iff.mpr inDir) added)
              · exact complete other isLeft isPresent

theorem Kept.now {state : Option ArtifactDir × ArtifactStore}
    (kept : Kept crates fs refs (state.1.getD []) state.2) {call : List PathsetPackageRef}
    (known : ∀ ref ∈ call, ref ∈ refs) :
    let after := captureNow crates fs call state.1 state.2
    Kept crates fs refs (after.1.getD []) after.2 ∧ ∃ added,
      after.1.getD [] = state.1.getD [] ++ added ∧
      (∀ entry ∈ added, ∃ ref ∈ call, ref.Present fs ∧ entry.1 = ref.filename) ∧
      (added.length = maxNewPackagesPerCapture ∨ Complete fs call (after.1.getD [])) := by
  cases call with
  | nil => exact ⟨kept, [], by simp [captureNow], by simp, Or.inr (by simp [Complete])⟩
  | cons ref call => exact kept.loop injective known maxNewPackagesPerCapture

end

/-! What is missing. -/

theorem missing_append (added : ArtifactDir) :
    missing fs refs (dir ++ added) ⊆ missing fs refs dir := by
  apply Finset.sdiff_subset_sdiff (Finset.Subset.refl _)
  intro name member
  simp only [List.map_append, List.mem_toFinset, List.mem_append] at member ⊢
  exact Or.inl member

theorem card_missing_append {added : ArtifactDir} (named : ((dir ++ added).map Prod.fst).Nodup)
    (names : ∀ entry ∈ added, ∃ ref ∈ refs, ref.Present fs ∧ entry.1 = ref.filename) :
    (missing fs refs (dir ++ added)).card + added.length = (missing fs refs dir).card := by
  rw [List.map_append, List.nodup_append] at named
  obtain ⟨-, distinct, apart⟩ := named
  have count : ((added.map Prod.fst).toFinset).card = added.length := by
    rw [List.toFinset_card_of_nodup distinct, List.length_map]
  have inside : (added.map Prod.fst).toFinset ⊆ missing fs refs dir := by
    intro name member
    rw [List.mem_toFinset] at member
    obtain ⟨entry, isAdded, rfl⟩ := List.mem_map.mp member
    obtain ⟨ref, isRef, present, sameName⟩ := names entry isAdded
    simp only [missing, Finset.mem_sdiff, List.mem_toFinset]
    refine ⟨List.mem_map.mpr ⟨ref, by simp [isRef, present], sameName.symm⟩, fun inDir => ?_⟩
    exact apart _ inDir _ member rfl
  have split : missing fs refs (dir ++ added) =
      missing fs refs dir \ (added.map Prod.fst).toFinset := by
    rw [missing, missing, List.map_append, List.toFinset_append, sdiff_sdiff]
    rfl
  rw [split, ← count]
  exact Finset.card_sdiff_add_card_eq_card inside

theorem card_missing_le (fs : FileSystem) (refs : List PathsetPackageRef) (dir : ArtifactDir) :
    (missing fs refs dir).card ≤ refs.length :=
  calc (missing fs refs dir).card
    _ ≤ _ := Finset.card_le_card Finset.sdiff_subset
    _ ≤ _ := List.toFinset_card_le _
    _ ≤ refs.length := by
      rw [List.length_map]
      exact List.length_filter_le _ _

theorem complete_iff : Complete fs refs dir ↔ missing fs refs dir = ∅ := by
  rw [missing, Finset.sdiff_eq_empty_iff_subset]
  simp only [Complete, hasEntry_iff, Finset.subset_iff, List.mem_toFinset, List.mem_map,
    List.mem_filter, decide_eq_true_eq]
  constructor
  · rintro complete name ⟨ref, ⟨member, present⟩, rfl⟩
    exact complete ref member present
  · intro all ref member present
    exact all ⟨ref, ⟨member, present⟩, rfl⟩

section

variable (injective : Function.Injective crates.blake3)

include injective

/-- Each call for some packages takes twenty of them off those that are missing. -/
theorem Kept.captures {state : Option ArtifactDir × ArtifactStore}
    (kept : Kept crates fs others (state.1.getD []) state.2) {calls : List (List PathsetPackageRef)}
    (known : ∀ call ∈ calls, ∀ ref ∈ call, ref ∈ others) (refs : List PathsetPackageRef) :
    let after := captures crates fs calls state
    Kept crates fs others (after.1.getD []) after.2 ∧
      (missing fs refs (after.1.getD [])).card ≤
        (missing fs refs (state.1.getD [])).card - maxNewPackagesPerCapture * calls.count refs := by
  induction calls generalizing state with
  | nil => exact ⟨kept, by simp [Rage.captures]⟩
  | cons call calls ih =>
      obtain ⟨isKept, added, isAdded, names, ends⟩ :=
        kept.now injective (known call List.mem_cons_self)
      obtain ⟨endKept, fewer⟩ := ih isKept fun other member =>
        known other (List.mem_cons_of_mem call member)
      refine ⟨endKept, fewer.trans ?_⟩
      by_cases same : call = refs
      · subst same
        have one : (missing fs call ((captureNow crates fs call state.1 state.2).1.getD [])).card ≤
            (missing fs call (state.1.getD [])).card - maxNewPackagesPerCapture := by
          rcases ends with full | complete
          · have named := isKept.named
            rw [isAdded] at named ⊢
            have counted := card_missing_append named names
            omega
          · rw [complete_iff.mp complete, Finset.card_empty]
            exact Nat.zero_le _
        rw [List.count_cons_self, Nat.mul_succ]
        omega
      · have one : (missing fs refs ((captureNow crates fs call state.1 state.2).1.getD [])).card ≤
            (missing fs refs (state.1.getD [])).card := by
          rw [isAdded]
          exact Finset.card_le_card (missing_append added)
        rw [List.count_cons_of_ne same]
        exact Nat.sub_le_sub_right one _

end

/-- Nothing is left to do for packages that have their entries. -/
theorem captureLoop_complete (crates : Crates) (store : ArtifactStore)
    {left : List PathsetPackageRef} (complete : Complete fs left dir) (budget : Nat) :
    captureLoop crates fs budget left (dir, store) = (dir, store) := by
  induction left with
  | nil => cases budget <;> rfl
  | cons ref left ih =>
      cases budget with
      | zero => rfl
      | succ budget =>
          rw [captureLoop, if_pos]
          · exact ih (fun other member => complete other (List.mem_cons_of_mem ref member))
          · rw [Bool.or_eq_true]
            by_cases present : ref.Present fs
            · exact Or.inl (complete ref List.mem_cons_self present)
            · exact Or.inr (by simpa [PathsetPackageRef.Present] using present)

theorem captures_isSome {call : List PathsetPackageRef} (filled : call ≠ [])
    {calls : List (List PathsetPackageRef)} {state : Option ArtifactDir × ArtifactStore}
    (called : call ∈ calls ∨ state.1.isSome = true) :
    (captures crates fs calls state).1.isSome = true := by
  induction calls generalizing state with
  | nil => simpa [captures] using called
  | cons first calls ih =>
      apply ih
      rcases called with member | already
      · rcases List.mem_cons.mp member with rfl | later
        · right
          cases call with
          | nil => exact absurd rfl filled
          | cons ref call => rfl
        · exact Or.inl later
      · right
        show (captureNow crates fs first state.1 state.2).1.isSome = true
        unfold captureNow
        split
        · exact already
        · rfl

/-! A restore of what was captured. -/

theorem restoreFiles_isSome {packageRoot : Path} {files : List (Path × Bytes)}
    (stored : ∀ file ∈ files, store.containsKey file.2 = true) (target : FileSystem) :
    (restoreFiles store packageRoot files target).isSome = true := by
  induction files generalizing target with
  | nil => rfl
  | cons file files ih =>
      obtain ⟨content, known⟩ :=
        Option.isSome_iff_exists.mp (stored file List.mem_cons_self)
      simp only [restoreFiles, ArtifactStore.link, known, Option.map_some, Option.bind_some]
      exact ih (fun other member => stored other (List.mem_cons_of_mem file member)) _

theorem restorePackages_isSome {targetDir : Path} {packages : List PackageArtifact}
    (stored : ∀ package ∈ packages, ∀ file ∈ package.files, store.containsKey file.2 = true)
    (target : FileSystem) : (restorePackages store targetDir packages target).isSome = true := by
  induction packages generalizing target with
  | nil => rfl
  | cons package packages ih =>
      obtain ⟨restored, isRestored⟩ := Option.isSome_iff_exists.mp
        (@restoreFiles_isSome store (targetDir.join package.name) package.files
          (stored package List.mem_cons_self) target)
      rw [restorePackages, restorePackage, isRestored, Option.bind_some]
      exact ih (fun other member => stored other (List.mem_cons_of_mem package member)) _

theorem isManifestName_filename (ref : PathsetPackageRef) :
    isManifestName ref.filename = true := by
  simp only [isManifestName, isSuffix, PathsetPackageRef.filename, packageFilename,
    Bool.and_eq_true, beq_iff_eq, bne_iff_ne, List.length_append]
  refine ⟨⟨decide_eq_true (by omega), ?_⟩, fun same => ?_⟩
  · rw [Nat.add_sub_cancel_right, ← List.length_append, ← List.length_append, List.drop_left]
  · have longer := congrArg List.length same
    have mark : (utf8 "@").length = 1 := by decide
    simp only [List.length_append, mark] at longer
    omega

theorem Kept.manifests (kept : Kept crates fs refs dir store) :
    ∃ packages, readManifests dir = some packages ∧
      ∀ package, package ∈ packages ↔ ∃ entry ∈ dir, entry.2 = .artifact package := by
  have manifests : (dir.filter fun file => isManifestName file.1) = dir := by
    rw [List.filter_eq_self]
    intro entry member
    obtain ⟨ref, -, -, rfl, -⟩ := kept.genuine entry member
    exact isManifestName_filename ref
  refine ⟨_, if_neg ?_, fun package => ?_⟩
  · rw [manifests, List.contains_iff_mem]
    intro member
    obtain ⟨entry, isEntry, unreadable⟩ := List.mem_map.mp member
    obtain ⟨ref, -, -, rfl, -⟩ := kept.genuine entry isEntry
    simp at unreadable
  · rw [manifests, List.mem_filterMap]
    constructor
    · rintro ⟨manifest, inDir, isPackage⟩
      obtain ⟨entry, isEntry, rfl⟩ := List.mem_map.mp inDir
      obtain ⟨ref, -, -, rfl, -⟩ := kept.genuine entry isEntry
      exact ⟨_, isEntry, congrArg ManifestFile.artifact (Option.some.inj isPackage)⟩
    · rintro ⟨entry, isEntry, isPackage⟩
      exact ⟨entry.2, List.mem_map_of_mem isEntry, by rw [isPackage]⟩

/-- A directory with the entries of captured packages is restored. -/
theorem Kept.restores (kept : Kept crates fs refs dir store) (filled : dir ≠ [])
    (workspaceRoot : Path) (target : FileSystem) :
    ∃ packages restored, tryRestoreFromCas (some dir) workspaceRoot store target =
        (some true, restored) ∧
      restorePackages store (workspaceRoot.join (utf8 "node_modules")) packages target =
        some restored ∧
      ∀ package, package ∈ packages ↔ ∃ entry ∈ dir, entry.2 = .artifact package := by
  obtain ⟨packages, isRead, entries⟩ := kept.manifests
  have some_ : packages ≠ [] := by
    obtain ⟨entry, isEntry⟩ := List.exists_mem_of_ne_nil dir filled
    obtain ⟨ref, -, -, rfl, -⟩ := kept.genuine entry isEntry
    exact List.ne_nil_of_mem ((entries _).mpr ⟨_, isEntry, rfl⟩)
  have stored : ∀ package ∈ packages, ∀ file ∈ package.files, store.containsKey file.2 = true := by
    intro package member file isFile
    obtain ⟨entry, isEntry, isPackage⟩ := (entries package).mp member
    obtain ⟨ref, -, -, rfl, holds⟩ := kept.genuine entry isEntry
    obtain rfl := ManifestFile.artifact.inj isPackage
    obtain ⟨source, isSource, rfl⟩ := List.mem_map.mp isFile
    rw [ArtifactStore.containsKey, holds source isSource]
    rfl
  obtain ⟨restored, isRestored⟩ := Option.isSome_iff_exists.mp
    (@restorePackages_isSome store (workspaceRoot.join (utf8 "node_modules")) packages stored target)
  have all : (packages.all fun package =>
      package.files.all fun file => store.containsKey file.2) = true := by
    simpa only [List.all_eq_true] using stored
  exact ⟨packages, restored, by simp [tryRestoreFromCas, isRead, some_, all, isRestored],
    isRestored, entries⟩

/-! What a restore puts back. -/

/-- The names of the files are names. -/
def Spelled (fs : FileSystem) : Prop :=
  ∀ location ∈ fs.locations, ∀ name, Component.normal name ∈ location →
    ∃ file : FileName, file.text = name

theorem relNames_spec {base location : Location} {names : List Bytes}
    (found : FileSystem.relNames base location = some names) :
    location = base ++ names.map .normal := by
  induction base generalizing location with
  | nil =>
      rw [FileSystem.relNames] at found
      rw [List.nil_append]
      induction location generalizing names with
      | nil =>
          obtain rfl := Option.some.inj found
          rfl
      | cons component location ih =>
          rw [List.mapM_cons] at found
          obtain ⟨name, isName, later⟩ := Option.bind_eq_some_iff.mp found
          obtain ⟨rest, isRest, isNames⟩ := Option.bind_eq_some_iff.mp later
          obtain rfl := Option.some.inj isNames
          cases component with
          | normal text =>
              obtain rfl := Option.some.inj isName
              rw [List.map_cons, ← ih isRest]
          | _ => simp at isName
  | cons first base ih =>
      cases location with
      | nil => simp [FileSystem.relNames] at found
      | cons second location =>
          rw [FileSystem.relNames] at found
          split at found
          · rename_i same
            rw [same, ih found, List.cons_append]
          · simp at found

theorem fileAt_of_packageFiles (spelled : Spelled fs) {root : Path} {file : Path × Bytes}
    (isFile : file ∈ packageFiles fs root) :
    fs.fileAt (components (root.join file.1)) = some file.2 := by
  obtain ⟨walked, isWalked, isKept⟩ :=
    List.mem_filterMap.mp ((List.perm_insertionSort _ _).mem_iff.mp isFile)
  obtain ⟨location, isLocation, found⟩ : ∃ location ∈ fs.locations,
      fs.walkEntry [] (components root) location = some walked := by
    unfold FileSystem.walkFiles at isWalked
    split at isWalked
    · exact absurd isWalked List.not_mem_nil
    · exact List.mem_filterMap.mp isWalked
  unfold FileSystem.walkEntry at found
  split at found
  · rename_i name names isRel
    split at found
    · split at found
      · rename_i content readable isEntry
        obtain rfl := Option.some.inj found
        cases readable with
        | false => simp at isKept
        | true =>
            obtain rfl := Option.some.inj isKept
            have isAt := relNames_spec isRel
            obtain ⟨files, isNames⟩ : name :: names ∈ Set.range (List.map FileName.text) := by
              rw [Set.range_list_map]
              intro text member
              exact spelled location isLocation text
                (by rw [isAt]; exact List.mem_append_right _ (List.mem_map_of_mem member))
            have filled : files ≠ [] := by
              rintro rfl
              simp at isNames
            have same : components (root.join (joinNames (name :: names))) = location := by
              rw [isAt, ← isNames, components_join root (joinNames_relative filled)
                (joinNames_plain filled), components_joinNames filled, List.map_map]
              rfl
            rw [same, FileSystem.fileAt, FileSystem.nodeAt, isEntry]
            rfl
      · simp at found
    · simp at found
  · simp at found

/-- Every package is where a restore puts it. -/
def Flat (workspaceRoot : Path) (refs : List PathsetPackageRef) : Prop :=
  ∀ ref ∈ refs, ref.packageRoot = (workspaceRoot.join (utf8 "node_modules")).join ref.name

/-- The files that the entries of a directory put back. -/
theorem Kept.mem_writes (kept : Kept crates fs refs dir store) {workspaceRoot : Path}
    (flat : Flat workspaceRoot refs) {packages : List PackageArtifact}
    (entries : ∀ package, package ∈ packages ↔ ∃ entry ∈ dir, entry.2 = .artifact package)
    (write : Location × Bytes) :
    write ∈ packages.flatMap (artifactWrites store (workspaceRoot.join (utf8 "node_modules"))) ↔
      ∃ ref ∈ refs, (ref.filename, ManifestFile.artifact (ref.artifact crates fs)) ∈ dir ∧
        ∃ file ∈ packageFiles fs ref.packageRoot,
          write = (components (ref.packageRoot.join file.1), file.2) := by
  simp only [List.mem_flatMap, entries, artifactWrites, List.mem_filterMap]
  constructor
  · rintro ⟨package, ⟨entry, isEntry, isPackage⟩, hashed, isHashed, isWrite⟩
    obtain ⟨ref, isRef, -, rfl, holds⟩ := kept.genuine entry isEntry
    obtain rfl := ManifestFile.artifact.inj isPackage
    obtain ⟨file, isFile, rfl⟩ := List.mem_map.mp isHashed
    refine ⟨ref, isRef, isEntry, file, isFile, ?_⟩
    rw [holds file isFile, Option.map_some, Option.some.injEq] at isWrite
    rw [flat ref isRef]
    exact isWrite.symm
  · rintro ⟨ref, isRef, isEntry, file, isFile, rfl⟩
    obtain ⟨origin, isOrigin, -, same, holds⟩ := kept.genuine _ isEntry
    have sameArtifact : ref.artifact crates fs = origin.artifact crates fs :=
      ManifestFile.artifact.inj (congrArg Prod.snd same)
    have sameName : ref.name = origin.name := congrArg PackageArtifact.name sameArtifact
    have sameRoot : ref.packageRoot = origin.packageRoot := by
      rw [flat ref isRef, flat origin isOrigin, sameName]
    refine ⟨_, ⟨_, isEntry, rfl⟩, _, List.mem_map_of_mem isFile, ?_⟩
    rw [holds file (sameRoot ▸ isFile), flat ref isRef]
    rfl

section

variable (injective : Function.Injective crates.blake3) (trusted : Trusted crates fs store)
  (calls : List (List PathsetPackageRef))

include injective trusted

theorem kept_captures :
    Kept crates fs calls.flatten ((captures crates fs calls (none, store)).1.getD [])
      (captures crates fs calls (none, store)).2 := by
  have opened : Kept crates fs calls.flatten
      (((none, store) : Option ArtifactDir × ArtifactStore).1.getD []) store :=
    ⟨List.nodup_nil, by simp, trusted⟩
  exact (opened.captures injective (fun call member ref inCall =>
    List.mem_flatten.mpr ⟨call, member, inCall⟩) []).1

theorem complete_captures
    (enough : refs.length ≤ maxNewPackagesPerCapture * calls.count refs) :
    Complete fs refs ((captures crates fs calls (none, store)).1.getD []) := by
  have opened : Kept crates fs calls.flatten
      (((none, store) : Option ArtifactDir × ArtifactStore).1.getD []) store :=
    ⟨List.nodup_nil, by simp, trusted⟩
  have fewer := (opened.captures injective (fun call member ref inCall =>
    List.mem_flatten.mpr ⟨call, member, inCall⟩) refs).2
  have most := card_missing_le fs refs []
  rw [complete_iff, ← Finset.card_eq_zero]
  exact Nat.le_zero.mp (fewer.trans_eq (Nat.sub_eq_zero_of_le (most.trans enough)))

end

theorem mem_of_enough {calls : List (List PathsetPackageRef)} (filled : refs ≠ [])
    (enough : refs.length ≤ maxNewPackagesPerCapture * calls.count refs) : refs ∈ calls := by
  refine List.count_pos_iff.mp (Nat.pos_of_ne_zero fun none => filled ?_)
  rw [none, Nat.mul_zero] at enough
  exact List.length_eq_zero_iff.mp (Nat.le_zero.mp enough)

end CaptureHistory

namespace CaptureHistory

def leftPad : PathsetPackageRef :=
  ⟨utf8 "left-pad", utf8 "1.3.0", utf8 "/ws/node_modules/left-pad"⟩

def ms : PathsetPackageRef := ⟨utf8 "ms", utf8 "2.1.3", utf8 "/ws/node_modules/ms"⟩

def installed : FileSystem :=
  ⟨[(components (utf8 "/ws/node_modules/left-pad"), ⟨.directory, false⟩),
    (components (utf8 "/ws/node_modules/left-pad/index.js"), ⟨.file (utf8 "pad") true, false⟩),
    (components (utf8 "/ws/node_modules/ms"), ⟨.directory, false⟩),
    (components (utf8 "/ws/node_modules/ms/index.js"), ⟨.file (utf8 "ms") true, false⟩)]⟩

theorem spelled_installed : Spelled installed := by
  have names : ∀ location ∈ installed.locations, ∀ component ∈ location,
      component = .rootDir ∨ ∃ name ∈ [utf8 "ws", utf8 "node_modules", utf8 "left-pad",
        utf8 "ms", utf8 "index.js"], component = .normal name := by
    decide
  intro location isLocation name isName
  rcases names location isLocation _ isName with isRoot | ⟨text, isText, same⟩
  · nomatch isRoot
  · obtain rfl := Component.normal.inj same
    have plain : ∀ text ∈ [utf8 "ws", utf8 "node_modules", utf8 "left-pad", utf8 "ms",
        utf8 "index.js"], text ≠ [] ∧ slash ∉ text ∧ text ≠ utf8 "." ∧ text ≠ utf8 ".." := by
      decide
    obtain ⟨filled, noSlash, notDot, notDotDot⟩ := plain name isText
    exact ⟨⟨name, filled, noSlash, notDot, notDotDot⟩, rfl⟩

end CaptureHistory

end Rage
