import Rage.Machine
import Rage.PostinstallCache

/-!
Whether the entries of the store hold what their keys say.  The operations of the store and of the
caches put entries in and give files their inodes; build tools then write to those files.
-/

namespace Rage.LinkedStore

open Inodes

variable {π ρ : Type}

/-- The file holds the bytes that its key is the hash of, and they can be read. -/
structure Serves (crates : Crates) (key : Bytes) (file : Inode Bytes) : Prop where
  hash : crates.blake3 file.content = key
  readable : readable file.mode = true

def sound (crates : Crates) : Name π → Inode Bytes → Prop
  | .entry key, file => Serves crates key file
  | .path _, _ => True

def Intact (crates : Crates) (disk : StoreDisk π) : Prop := disk.Holds (sound crates)

/-! One file of an operation, or one step of a tool. -/

inductive Event (π ρ : Type)
  | putBytes (bytes : Bytes)
  | captureEntry (path : π) (rel : ρ)
  | link (hash : Bytes) (target : π) (answer : Answer)
  | restoreEntry (dest : π) (entry : ManifestEntry ρ) (answer : Answer)
  | createOneBinLink (bin : BinLink π) (answer : Answer)
  | write (path : π) (content : Bytes)
  | truncate (path : π) (length : Nat)
  | chmod (path : π) (mode : Nat)
  | create (path : π) (content : Bytes) (mode : Nat)
  | remove (path : π)
  | rename (source target : π)
  | symlink (path : π) (target : Bytes)
  | makeDirectory (path : π)

section Steps

variable [DecidableEq π] (crates : Crates) (leads : π → Bytes → π)

/-- What a tool that opens `path` for writing can write to. -/
def openFile (disk : StoreDisk π) (path : π) : Option Nat :=
  (fileAt leads disk path).filter fun inode => writable (disk.inodes inode).mode

/-- `ftruncate`, which also extends a file. -/
def resized (content : Bytes) (length : Nat) : Bytes :=
  content.take length ++ List.replicate (length - content.length) 0

def step (disk : StoreDisk π) : Event π ρ → StoreDisk π
  | .putBytes bytes => putBytes crates disk bytes
  | .captureEntry path rel => (captureEntry crates disk path rel).2
  | .link hash target answer => (link leads disk hash target answer).2
  | .restoreEntry dest entry answer => (restoreEntry leads disk dest entry answer).2
  | .createOneBinLink bin answer => (createOneBinLink leads disk bin answer).2
  | .write path content =>
      match openFile leads disk path with
      | some inode => disk.setContent inode content
      | none => disk
  | .truncate path length =>
      match openFile leads disk path with
      | some inode => disk.setContent inode (resized (disk.inodes inode).content length)
      | none => disk
  | .chmod path mode => setPermissions leads disk path mode
  | .create path content mode => disk.create (.path path) content mode
  | .remove path => disk.remove (.path path)
  | .rename source target => disk.rename (.path source) (.path target)
  | .symlink path target => Disk.symlink disk (.path path) target
  | .makeDirectory path => disk.makeDirectory (.path path)

/-! The operations are runs of these steps. -/

theorem captureDir_steps (join : ρ → π) (walked : List ρ) (disk : StoreDisk π) :
    (captureDir crates join walked disk).2 =
      (walked.map fun rel => Event.captureEntry (join rel) rel).foldl (step crates leads) disk := by
  induction walked generalizing disk with
  | nil => rfl
  | cons rel walked ih => exact ih _

theorem restorePackage_steps (answer : π → Answer) (join : Path → π)
    (files : List (Path × Bytes)) (disk : StoreDisk π) :
    ∃ linked, linked <+: files ∧ (restorePackage leads answer join files disk).2 =
      (linked.map fun file => (Event.link file.2 (join file.1) (answer (join file.1)) :
        Event π ρ)).foldl (step crates leads) disk := by
  obtain ⟨linked, within, same⟩ := tryEach_prefix (fun (file : Path × Bytes) disk =>
    link leads disk file.2 (join file.1) (answer (join file.1))) files disk
  refine ⟨linked, within, ?_⟩
  rw [List.foldl_map]
  exact same

theorem restoreEntries_steps (join : ρ → π) (answer : ρ → Answer) (manifest : PostinstallManifest ρ)
    (disk : StoreDisk π) :
    ∃ restored, restored <+: manifest ∧ (restoreEntries leads join answer manifest disk).2 =
      (restored.map fun entry => Event.restoreEntry (join entry.relPath) entry
        (answer entry.relPath)).foldl (step crates leads) disk := by
  obtain ⟨restored, within, same⟩ := tryEach_prefix (fun (entry : ManifestEntry ρ) disk =>
    restoreEntry leads disk (join entry.relPath) entry (answer entry.relPath)) manifest disk
  refine ⟨restored, within, ?_⟩
  rw [List.foldl_map]
  exact same

theorem createBinLinks_steps (answer : π → Answer) (bins : List (BinLink π))
    (disk : StoreDisk π) :
    ∃ created, created <+: bins ∧ (createBinLinks leads answer bins disk).2 =
      (created.map fun bin => (Event.createOneBinLink bin (answer bin.linkPath) :
        Event π ρ)).foldl (step crates leads) disk := by
  obtain ⟨created, within, same⟩ := tryEach_prefix (fun (bin : BinLink π) disk =>
    ((createOneBinLink leads disk bin (answer bin.linkPath)).1.isSome,
      (createOneBinLink leads disk bin (answer bin.linkPath)).2)) bins disk
  refine ⟨created, within, ?_⟩
  rw [List.foldl_map]
  exact same

/-! The file that a step writes in place, and what the file is afterwards. -/

def copyOver (disk : StoreDisk π) (key : Bytes) (target : π) : Option (Nat × Inode Bytes) :=
  match disk.inodeOf (.entry key), openFile leads disk target with
  | some source, some inode =>
      let file := disk.inodes source
      if readable file.mode then
        some (inode, ⟨if inode = source then [] else file.content, file.mode⟩)
      else none
  | _, _ => none

def writesInPlace (disk : StoreDisk π) : Event π ρ → Option (Nat × Inode Bytes)
  | .link hash target answer =>
      let cleared := clearTarget leads disk target answer.removes
      if answer.parents ∧ answer.copies ∧ hardLink cleared hash target answer.links = none then
        copyOver leads cleared hash target
      else none
  | .restoreEntry dest entry answer =>
      let cleared := removeFile disk dest answer.removes
      if answer.parents ∧ entry.kind = .regular then
        if hardLink cleared entry.contentHash dest answer.links = none then
          (copyOver leads cleared entry.contentHash dest).map fun written =>
            (written.1, if answer.chmods then { written.2 with mode := entry.mode } else written.2)
        else if answer.chmods then
          (disk.inodeOf (.entry entry.contentHash)).map fun inode =>
            (inode, { disk.inodes inode with mode := entry.mode })
        else none
      else none
  | .write path content => (openFile leads disk path).map fun inode =>
      (inode, { disk.inodes inode with content := content })
  | .truncate path length => (openFile leads disk path).map fun inode =>
      (inode, { disk.inodes inode with
        content := resized (disk.inodes inode).content length })
  | .chmod path mode => (fileAt leads disk path).map fun inode =>
      (inode, { disk.inodes inode with mode := mode })
  | _ => none

/-- What a step writes in place either belongs to no entry or is still what the entry's key says. -/
def Fits (disk : StoreDisk π) (event : Event π ρ) : Prop :=
  ∀ inode file, writesInPlace leads disk event = some (inode, file) →
    ∀ key, disk.inodeOf (.entry key) = some inode → Serves crates key file

theorem createMode_readable : readable createMode = true := by decide

/-! Paths change, the entries keep their inodes. -/

section Paths

variable {disk : StoreDisk π} {crates : Crates} (intact : Intact crates disk)

include intact

omit [DecidableEq π] in
theorem intact_overwrite_iff (inode : Nat) (file : Inode Bytes) :
    Intact crates (disk.overwrite inode file) ↔
      ∀ key, disk.inodeOf (.entry key) = some inode → Serves crates key file := by
  unfold Intact
  rw [Disk.overwrite_holds_iff intact]
  constructor
  · intro every key isEntry
    exact every (.entry key) isEntry
  · intro entries name isInode
    cases name with
    | entry key => exact entries key isInode
    | path path => trivial

theorem Intact.removeFile (path : π) (removes : Bool) :
    Intact crates (removeFile disk path removes) := by
  unfold LinkedStore.removeFile
  split
  · exact Disk.Holds.remove intact _
  · exact intact

theorem Intact.hardLink {key : Bytes} {target : π} {links : Bool} {linked : StoreDisk π}
    (done : hardLink disk key target links = some linked) : Intact crates linked := by
  obtain ⟨_, isLinked⟩ := Option.ite_none_right_eq_some.mp done
  obtain rfl := Option.some.inj isLinked
  exact Disk.Holds.link intact fun _ _ => trivial

theorem Intact.symlink {target : Bytes} {path : π} {linked : StoreDisk π}
    (done : symlink disk target path = some linked) : Intact crates linked := by
  obtain ⟨_, isLinked⟩ := Option.ite_none_right_eq_some.mp done
  obtain rfl := Option.some.inj isLinked
  exact Disk.Holds.symlink intact _ _

theorem Intact.putBytes (bytes : Bytes) : Intact crates (putBytes crates disk bytes) := by
  unfold LinkedStore.putBytes putBytesKeyed
  split
  · exact intact
  · exact Disk.Holds.create intact (⟨rfl, createMode_readable⟩ : Serves crates _ ⟨bytes, createMode⟩)

theorem Intact.captureEntry (path : π) (rel : ρ) :
    Intact crates (captureEntry crates disk path rel).2 := by
  unfold LinkedStore.captureEntry
  split
  · exact intact
  · dsimp only
    split
    · exact intact.putBytes _
    · exact intact
  · exact intact

end Paths

/-! What a copy does. -/

theorem resolve_create (disk : StoreDisk π) {links : Nat} {path final : π}
    (found : resolve leads disk links path = some final) (content : Bytes) (mode : Nat) :
    resolve leads (disk.create (.path final) content mode) links path = some final := by
  induction links generalizing path with
  | zero => simp [resolve] at found
  | succ links ih =>
      by_cases here : path = final
      · simp [resolve, Disk.create, here]
      · simp only [resolve, Disk.create, Function.update_of_ne (show Name.path path ≠ .path final by
          simpa using here)] at found ⊢
        split at found
        · exact ih found
        · exact absurd (Option.some.inj found) here

omit [DecidableEq π] in
theorem resolve_congr {disk other : StoreDisk π} (same : disk.names = other.names) (links : Nat)
    (path : π) : resolve leads disk links path = resolve leads other links path := by
  induction links generalizing path with
  | zero => rfl
  | succ links ih => simp only [resolve, same, ih]

omit [DecidableEq π] in
theorem fileAt_overwrite (disk : StoreDisk π) (inode : Nat) (file : Inode Bytes) (path : π) :
    fileAt leads (disk.overwrite inode file) path = fileAt leads disk path := by
  unfold fileAt
  rw [resolve_congr leads (disk.names_overwrite inode file)]
  rfl

theorem copy_of_copyOver {disk : StoreDisk π} {key : Bytes} {target : π} {inode : Nat}
    {file : Inode Bytes} (opened : copyOver leads disk key target = some (inode, file)) :
    copy leads disk key target = some (disk.overwrite inode file) := by
  unfold copyOver at opened
  split at opened
  · rename_i source other isSource opens
    obtain ⟨allowed, written⟩ := Option.ite_none_right_eq_some.mp opened
    obtain ⟨rfl, rfl⟩ := Prod.mk.inj (Option.some.inj written)
    obtain ⟨isFile, canWrite⟩ := Option.filter_eq_some_iff.mp opens
    obtain ⟨final, found, isInode⟩ := Option.bind_eq_some_iff.mp isFile
    have names := Disk.names_of_inodeOf isInode
    simp only [copy, isSource, found, allowed, names, canWrite, ↓reduceIte, Disk.setContent,
      Disk.overwrite_overwrite]
    by_cases same : other = source
    · simp [same]
    · have apart : source ≠ other := fun equal => same equal.symm
      simp [same, Disk.inodes_overwrite_of_ne disk apart]
  · simp at opened

theorem copy_cases {disk copied : StoreDisk π} {key : Bytes} {target : π}
    (done : copy leads disk key target = some copied) :
    (∃ final content mode, copied = disk.create (.path final) content mode ∧
      copyOver leads disk key target = none ∧ fileAt leads copied target = some disk.fresh) ∨
    ∃ inode file, copyOver leads disk key target = some (inode, file) ∧
      copied = disk.overwrite inode file ∧ fileAt leads disk target = some inode := by
  cases opened : copyOver leads disk key target with
  | none =>
      unfold copy at done
      split at done
      · rename_i source final isSource found
        obtain ⟨allowed, written⟩ := Option.ite_none_right_eq_some.mp done
        split at written
        · rename_i missing
          obtain rfl := Option.some.inj written
          refine Or.inl ⟨final, _, _, rfl, rfl, ?_⟩
          simp [fileAt, resolve_create leads disk found, Disk.inodeOf_create]
        · rename_i inode names
          obtain ⟨opens, _⟩ := Option.ite_none_right_eq_some.mp written
          have isInode : disk.inodeOf (.path final) = some inode := by
            simp [Disk.inodeOf, names, Dirent.inode]
          simp [copyOver, openFile, fileAt, found, isSource, isInode, Option.filter, opens,
            allowed] at opened
        · simp at written
      · simp at done
  | some written =>
      obtain rfl := Option.some.inj (done.symm.trans (copy_of_copyOver leads opened))
      refine Or.inr ⟨written.1, written.2, rfl, rfl, ?_⟩
      unfold copyOver at opened
      split at opened
      · rename_i source inode _ opens
        obtain ⟨_, isWritten⟩ := Option.ite_none_right_eq_some.mp opened
        obtain rfl := Option.some.inj isWritten
        exact (Option.filter_eq_some_iff.mp opens).1
      · simp at opened

theorem copyOver_of_copy_none {disk : StoreDisk π} {key : Bytes} {target : π}
    (failed : copy leads disk key target = none) : copyOver leads disk key target = none := by
  cases opened : copyOver leads disk key target with
  | none => rfl
  | some written => simp [copy_of_copyOver leads opened] at failed

/-! A step keeps the entries and writes at most one file in place. -/

inductive Effect (disk next : StoreDisk π) : Option (Nat × Inode Bytes) → Prop
  | keeps (intact : Intact crates next) : Effect disk next none
  | overwrites {inode : Nat} {file : Inode Bytes} (before : StoreDisk π)
      (intact : Intact crates before)
      (entries : ∀ key, before.inodeOf (.entry key) = disk.inodeOf (.entry key))
      (written : next = before.overwrite inode file) : Effect disk next (some (inode, file))

variable {crates}

omit [DecidableEq π] in
theorem Effect.intact_iff {disk next : StoreDisk π} {written : Option (Nat × Inode Bytes)}
    (effect : Effect crates disk next written) :
    Intact crates next ↔ ∀ inode file, written = some (inode, file) →
      ∀ key, disk.inodeOf (.entry key) = some inode → Serves crates key file := by
  cases effect with
  | keeps intact => simp [intact]
  | overwrites before intact entries isNext =>
      rw [isNext, intact_overwrite_iff intact]
      constructor
      · intro every other file' same key isEntry
        obtain ⟨rfl, rfl⟩ := Prod.mk.inj (Option.some.inj same)
        exact every key ((entries key).trans isEntry)
      · intro every key isEntry
        exact every _ _ rfl key ((entries key).symm.trans isEntry)

theorem removeFile_entry (disk : StoreDisk π) (path : π) (removes : Bool) (key : Bytes) :
    (removeFile disk path removes).inodeOf (.entry key) = disk.inodeOf (.entry key) := by
  unfold removeFile
  split
  · simp [Disk.inodeOf_remove]
  · rfl

theorem clearTarget_entry (disk : StoreDisk π) (target : π) (removes : Bool) (key : Bytes) :
    (clearTarget leads disk target removes).inodeOf (.entry key) = disk.inodeOf (.entry key) := by
  unfold clearTarget
  split
  · exact removeFile_entry disk target removes key
  · rfl

theorem Intact.clearTarget {disk : StoreDisk π} (intact : Intact crates disk) (target : π)
    (removes : Bool) : Intact crates (clearTarget leads disk target removes) := by
  unfold LinkedStore.clearTarget
  split
  · exact intact.removeFile target removes
  · exact intact

theorem Intact.createPath {disk : StoreDisk π} (intact : Intact crates disk) (path : π)
    (content : Bytes) (mode : Nat) : Intact crates (disk.create (.path path) content mode) :=
  Disk.Holds.create intact trivial

theorem copy_effect {disk before : StoreDisk π} (cleared : Intact crates before)
    (entries : ∀ key, before.inodeOf (.entry key) = disk.inodeOf (.entry key)) (key : Bytes)
    (target : π) :
    Effect crates disk ((copy leads before key target).getD before)
      (copyOver leads before key target) := by
  cases copied : copy leads before key target with
  | none =>
      rw [copyOver_of_copy_none leads copied]
      exact .keeps cleared
  | some next =>
      rcases copy_cases leads copied with
        ⟨final, content, mode, isNext, untouched, _⟩ | ⟨inode, file, opened, isNext, _⟩
      · rw [untouched, isNext]
        exact .keeps (cleared.createPath final content mode)
      · rw [opened]
        exact .overwrites before cleared entries isNext

theorem link_effect {disk : StoreDisk π} (intact : Intact crates disk) (hash : Bytes) (target : π)
    (answer : Answer) :
    Effect crates disk (link leads disk hash target answer).2
      (writesInPlace leads disk (.link hash target answer : Event π ρ)) := by
  have cleared := intact.clearTarget leads target answer.removes
  have entries := clearTarget_entry leads disk target answer.removes
  unfold link writesInPlace
  dsimp only
  generalize clearTarget leads disk target answer.removes = before at cleared entries ⊢
  by_cases present : disk.isFile (.entry hash) = true ∧ answer.parents = true
  · rw [if_pos present]
    cases linked : hardLink before hash target answer.links with
    | some next =>
        simp only [reduceCtorEq, and_false, ↓reduceIte]
        exact .keeps (cleared.hardLink linked)
    | none =>
        by_cases copies : answer.copies = true
        · have effect := copy_effect leads cleared entries hash target
          simp only [present.2, copies, and_self, ↓reduceIte]
          cases copied : copy leads before hash target with
          | none => simpa [copied] using effect
          | some next => simpa [copied] using effect
        · simp only [copies, Bool.false_eq_true, false_and, and_false, ↓reduceIte]
          exact .keeps cleared
  · rw [if_neg present]
    by_cases parents : answer.parents = true
    · have absent : before.inodeOf (.entry hash) = none := by
        rw [entries]
        simpa [parents, Disk.isFile] using present
      simp only [copyOver, absent, ite_self]
      exact .keeps intact
    · simp only [parents, Bool.false_eq_true, false_and, ↓reduceIte]
      exact .keeps intact

theorem removeFile_inodes (disk : StoreDisk π) (path : π) (removes : Bool) :
    (removeFile disk path removes).inodes = disk.inodes := by
  unfold removeFile
  split <;> rfl

/-- The file under a new name is the entry itself. -/
theorem hardLink_cases {disk linked : StoreDisk π} {key : Bytes} {target : π} {links : Bool}
    (done : hardLink disk key target links = some linked) :
    ∃ inode, disk.inodeOf (.entry key) = some inode ∧ fileAt leads linked target = some inode ∧
      linked = disk.link (.entry key) (.path target) := by
  obtain ⟨⟨isFile, _, _⟩, isLinked⟩ := Option.ite_none_right_eq_some.mp done
  obtain rfl := Option.some.inj isLinked
  obtain ⟨inode, isInode⟩ := Option.isSome_iff_exists.mp isFile
  refine ⟨inode, isInode, ?_, rfl⟩
  have names := Disk.names_of_inodeOf isInode
  simp [fileAt, maxLinks, resolve, Disk.link, Disk.setName, names, Disk.inodeOf, Dirent.inode]

theorem restoreEntry_effect {disk : StoreDisk π} (intact : Intact crates disk) (dest : π)
    (entry : ManifestEntry ρ) (answer : Answer) :
    Effect crates disk (restoreEntry leads disk dest entry answer).2
      (writesInPlace leads disk (.restoreEntry dest entry answer)) := by
  have cleared := intact.removeFile dest answer.removes
  have entries := removeFile_entry disk dest answer.removes
  have files := removeFile_inodes disk dest answer.removes
  unfold restoreEntry writesInPlace
  dsimp only
  generalize removeFile disk dest answer.removes = before at cleared entries files ⊢
  by_cases parents : answer.parents = true
  · cases kind : entry.kind with
    | symlink target =>
        simp only [parents, reduceCtorEq, and_false, ↓reduceIte]
        cases linked : symlink before target dest with
        | none => exact .keeps cleared
        | some next => exact .keeps (cleared.symlink linked)
    | regular =>
        simp only [parents, and_self, ↓reduceIte]
        cases linked : hardLink before entry.contentHash dest answer.links with
        | some placed =>
            obtain ⟨inode, isEntry, isFile, isPlaced⟩ := hardLink_cases leads linked
            simp only [Option.some_or, reduceCtorEq, ↓reduceIte]
            by_cases chmods : answer.chmods = true
            · simp only [chmods, ↓reduceIte, setPermissions, isFile, ← entries, isEntry,
                Option.map_some]
              refine .overwrites placed (cleared.hardLink linked) ?_ ?_
              · intro key
                rw [isPlaced, Disk.inodeOf_link, if_neg (by simp), entries]
              · rw [← files, isPlaced]
                rfl
            · simp only [chmods, Bool.false_eq_true, ↓reduceIte]
              exact .keeps (cleared.hardLink linked)
        | none =>
            simp only [Option.none_or, ↓reduceIte]
            cases copied : copy leads before entry.contentHash dest with
            | none =>
                rw [copyOver_of_copy_none leads copied]
                exact .keeps cleared
            | some placed =>
                rcases copy_cases leads copied with
                  ⟨final, content, mode, isPlaced, untouched, isFile⟩ |
                    ⟨inode, file, opened, isPlaced, isFile⟩
                · have created : Intact crates placed := by
                    rw [isPlaced]
                    exact cleared.createPath final content mode
                  simp only [untouched, Option.map_none]
                  by_cases chmods : answer.chmods = true
                  · simp only [chmods, ↓reduceIte, setPermissions, isFile]
                    refine .keeps ((intact_overwrite_iff created _ _).mpr ?_)
                    intro key isFresh
                    rw [isPlaced, Disk.inodeOf_create, if_neg (by simp)] at isFresh
                    exact absurd (before.allocated _ _ isFresh) (Nat.lt_irrefl _)
                  · simp only [chmods, Bool.false_eq_true, ↓reduceIte]
                    exact .keeps created
                · simp only [opened, Option.map_some]
                  refine .overwrites before cleared entries ?_
                  by_cases chmods : answer.chmods = true
                  · simp only [chmods, ↓reduceIte, setPermissions, isPlaced, fileAt_overwrite,
                      isFile, Disk.setMode, Disk.overwrite_overwrite, Disk.inodes_overwrite_self]
                  · simp only [chmods, Bool.false_eq_true, ↓reduceIte, isPlaced]
  · simp only [parents, Bool.false_eq_true, false_and, ↓reduceIte]
    exact .keeps intact

theorem readable_executable (mode : Nat) :
    readable (mode ||| executableBits) = readable mode := by
  have bit : executableBits.testBit 8 = false := by decide
  simp [readable, bit]

/-- More bits for a file do not take the owner's away. -/
theorem createOneBinLink_intact {disk : StoreDisk π} (intact : Intact crates disk)
    (bin : BinLink π) (answer : Answer) :
    Intact crates (createOneBinLink leads disk bin answer).2 := by
  unfold createOneBinLink
  split
  · exact intact
  · split
    · exact intact
    · have cleared := intact.removeFile bin.linkPath answer.removes
      dsimp only
      split
      · exact cleared
      · rename_i linked isLinked
        have created := cleared.symlink isLinked
        split
        · split
          · refine (intact_overwrite_iff created _ _).mpr fun key isEntry => ?_
            have served : Serves crates key _ := created (.entry key) _ isEntry
            exact ⟨served.hash, (readable_executable _).trans served.readable⟩
          · exact created
        · exact created

theorem step_effect {disk : StoreDisk π} (intact : Intact crates disk) (event : Event π ρ) :
    Effect crates disk (step crates leads disk event) (writesInPlace leads disk event) := by
  cases event with
  | putBytes bytes => exact .keeps (intact.putBytes bytes)
  | captureEntry path rel => exact .keeps (intact.captureEntry path rel)
  | link hash target answer => exact link_effect leads intact hash target answer
  | restoreEntry dest entry answer => exact restoreEntry_effect leads intact dest entry answer
  | createOneBinLink bin answer => exact .keeps (createOneBinLink_intact leads intact bin answer)
  | write path content =>
      cases opened : openFile leads disk path with
      | none =>
          simp only [step, writesInPlace, opened, Option.map_none]
          exact .keeps intact
      | some inode =>
          simp only [step, writesInPlace, opened, Option.map_some]
          exact .overwrites disk intact (fun _ => rfl) rfl
  | truncate path length =>
      cases opened : openFile leads disk path with
      | none =>
          simp only [step, writesInPlace, opened, Option.map_none]
          exact .keeps intact
      | some inode =>
          simp only [step, writesInPlace, opened, Option.map_some]
          exact .overwrites disk intact (fun _ => rfl) rfl
  | chmod path mode =>
      cases isFile : fileAt leads disk path with
      | none =>
          simp only [step, writesInPlace, setPermissions, isFile, Option.map_none]
          exact .keeps intact
      | some inode =>
          simp only [step, writesInPlace, setPermissions, isFile, Option.map_some]
          exact .overwrites disk intact (fun _ => rfl) rfl
  | create path content mode => exact .keeps (intact.createPath path content mode)
  | remove path => exact .keeps (Disk.Holds.remove intact _)
  | rename source target =>
      have linked : Intact crates (disk.link (.path source) (.path target)) :=
        Disk.Holds.link intact fun _ _ => trivial
      exact .keeps (Disk.Holds.remove linked _)
  | symlink path target => exact .keeps (Disk.Holds.symlink intact _ _)
  | makeDirectory path => exact .keeps (Disk.Holds.makeDirectory intact _)

theorem step_intact_iff {disk : StoreDisk π} (intact : Intact crates disk) (event : Event π ρ) :
    Intact crates (step crates leads disk event) ↔ Fits crates leads disk event :=
  (step_effect leads intact event).intact_iff

/-- What `put_bytes` is asked to keep can be read under its hash. -/
theorem putBytes_read (ideal : crates.Ideal) {disk : StoreDisk π} (intact : Intact crates disk)
    (bytes : Bytes) :
    getBytesByRawKey (putBytes crates disk bytes) (crates.blake3 bytes) = some (some bytes) := by
  have after := intact.putBytes bytes
  have present : ∃ inode, (putBytes crates disk bytes).inodeOf (.entry (crates.blake3 bytes)) =
      some inode := by
    unfold putBytes putBytesKeyed
    split
    · rename_i isFile
      exact Option.isSome_iff_exists.mp isFile
    · exact ⟨disk.fresh, by simp [Disk.inodeOf_create]⟩
  obtain ⟨inode, isEntry⟩ := present
  have served : Serves crates _ _ := after (.entry (crates.blake3 bytes)) inode isEntry
  rw [getBytesByRawKey, isEntry]
  simp only [served.readable, ↓reduceIte, ideal.injective served.hash]

end Steps

section

variable [DecidableEq π] {crates : Crates} {leads : π → Bytes → π}

def machine (crates : Crates) (leads : π → Bytes → π) (disk : StoreDisk π) (event : Event π ρ) :
    Option (StoreDisk π) :=
  some (step crates leads disk event)

theorem run_intact {start disk : StoreDisk π} (intact : Intact crates start)
    (reached : Machine.Reachable (machine crates leads) (Fits (ρ := ρ) crates leads) start disk) :
    Intact crates disk := by
  apply reached.invariant (Intact crates) intact
  intro before event after holds fits taken
  obtain rfl := Option.some.inj taken
  exact (step_intact_iff leads holds event).mpr fits

theorem entries_intact_iff (ideal : crates.Ideal) {start disk : StoreDisk π}
    (empty : ∀ key, start.names (.entry key) = none)
    (reached : Machine.Reachable (machine crates leads) (Fits (ρ := ρ) crates leads) start disk) :
    Intact crates disk ∧
    (∀ bytes, getBytesByRawKey (putBytes crates disk bytes) (crates.blake3 bytes) =
      some (some bytes)) ∧
    ∀ event : Event π ρ, Intact crates (step crates leads disk event) ↔
      Fits crates leads disk event := by
  have initial : Intact crates start := by
    intro name inode isInode
    cases name with
    | entry key => simp [Disk.inodeOf, empty] at isInode
    | path path => trivial
  have intact := run_intact initial reached
  exact ⟨intact, putBytes_read ideal intact, step_intact_iff leads intact⟩

end

def packageJson : Bytes := utf8 "node_modules/p/package.json"

def restored : List (Event Bytes Bytes) :=
  [.putBytes (utf8 "v1"), .link (Crates.plain.blake3 (utf8 "v1")) packageJson .fine]

def hereOnly (_ target : Bytes) : Bytes := target

/-- A tool that replaces a restored file leaves the entry alone. -/
theorem entries_intact_iff_replaced :
    ∃ disk, Machine.run (machine Crates.plain hereOnly) emptyDisk
      (restored ++ [.remove packageJson, .create packageJson (utf8 "v2") createMode]) = some disk ∧
    Intact Crates.plain disk ∧
    (∀ bytes, getBytesByRawKey (putBytes Crates.plain disk bytes) (Crates.plain.blake3 bytes) =
      some (some bytes)) ∧
    ∀ event : Event Bytes Bytes, Intact Crates.plain (step Crates.plain hereOnly disk event) ↔
      Fits Crates.plain hereOnly disk event := by
  refine ⟨_, rfl, entries_intact_iff Crates.plain_ideal (fun _ => rfl) (.tail
    (.create packageJson (utf8 "v2") createMode) (.tail (.remove packageJson) (.tail
    (.link (Crates.plain.blake3 (utf8 "v1")) packageJson .fine) (.tail (.putBytes (utf8 "v1"))
    .refl ?_ rfl) ?_ rfl) ?_ rfl) ?_ rfl)⟩
  · intro inode file written
    simp [writesInPlace] at written
  · intro inode file written
    have untouched : writesInPlace hereOnly (putBytes Crates.plain emptyDisk (utf8 "v1"))
        (.link (Crates.plain.blake3 (utf8 "v1")) packageJson .fine : Event Bytes Bytes) = none := by
      decide
    exact absurd (untouched.symm.trans written) (by simp)
  · intro inode file written
    simp [writesInPlace] at written
  · intro inode file written
    simp [writesInPlace] at written

/-- A tool that writes to a restored file writes to the entry. -/
theorem write_corrupts_entry :
    ∃ disk, Machine.run (machine Crates.plain hereOnly) emptyDisk
      (restored ++ [.write packageJson (utf8 "v2")]) = some disk ∧
    ¬ Intact Crates.plain disk ∧
    getBytesByRawKey (putBytes Crates.plain disk (utf8 "v1")) (Crates.plain.blake3 (utf8 "v1")) =
      some (some (utf8 "v2")) := by
  refine ⟨_, rfl, ?_, by decide⟩
  intro intact
  have served : Serves Crates.plain _ _ :=
    intact (.entry (Crates.plain.blake3 (utf8 "v1"))) 0 (by decide)
  exact absurd served.hash (by decide)

end Rage.LinkedStore
