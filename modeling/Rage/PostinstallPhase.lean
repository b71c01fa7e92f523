import Rage.StoreIntegrity

/-!
The postinstall phase for one task: restore, or run the script between two captures and store what
it changed.  An entry that is under the key of the task already stays there.
-/

namespace Rage.LinkedStore

open Inodes

variable {π ρ : Type}

/-- What a call meets: the answers of the system to the restore, what the two walks yield, and what
the script does on its way to an exit code. -/
structure Surroundings (π ρ : Type) where
  answer : ρ → Answer
  walkedBefore : List ρ
  script : List (Event π ρ)
  succeeds : Bool
  walkedAfter : List ρ

inductive Outcome
  | restored
  | cached
  | cachedNoOp
  | captureError
  | failed
  deriving DecidableEq

/-- The log lines of a call: whether it begins with a restore error, and its last line. -/
structure PhaseLog where
  restoreError : Bool
  outcome : Outcome
  deriving DecidableEq

section

variable [DecidableEq π] (crates : Crates) (leads : π → Bytes → π) (serde : Serde ρ)
  (join : ρ → π)

/-- The script between the two captures: the manifests, and the disk after the second one. -/
def runBetweenCaptures (around : Surroundings π ρ) (disk : StoreDisk π) :
    PostinstallManifest ρ × PostinstallManifest ρ × StoreDisk π :=
  let before := captureDir crates join around.walkedBefore disk
  let ran := around.script.foldl (step crates leads) before.2
  let after := captureDir crates join around.walkedAfter ran
  (before.1, after.1, after.2)

def cacheDelta (key : Bytes) (delta : PostinstallManifest ρ) (disk : StoreDisk π) :
    Outcome × StoreDisk π :=
  match storeManifest serde disk key delta with
  | (some true, stored) => (.cached, stored)
  | (some false, unchanged) => (.cachedNoOp, storeEmptySentinel unchanged key)
  | (none, unchanged) => (.captureError, unchanged)

/-- The bytes that `store_manifest` or `store_empty_sentinel` is to put under the key. -/
def bytesToStore (delta : PostinstallManifest ρ) : Option Bytes :=
  if delta.isEmpty then some emptySentinel else serde.toVec delta

variable [DecidableEq ρ]

def runPostinstallTask (key : Bytes) (around : Surroundings π ρ) (disk : StoreDisk π) :
    PhaseLog × StoreDisk π :=
  match restoreManifest leads serde join around.answer key disk with
  | (some true, restored) => (⟨false, .restored⟩, restored)
  | (restored, disk) =>
      if around.succeeds then
        let ran := runBetweenCaptures crates leads join around disk
        let cached := cacheDelta serde key (diffManifests ran.1 ran.2.1) ran.2.2
        (⟨restored.isNone, cached.1⟩, cached.2)
      else
        let before := captureDir crates join around.walkedBefore disk
        (⟨restored.isNone, .failed⟩, around.script.foldl (step crates leads) before.2)

/-! An entry that is there stays the file that it is. -/

section Entries

variable {crates}

omit [DecidableEq ρ]

theorem putBytesKeyed_entry {disk : StoreDisk π} {key : Bytes}
    (present : disk.isFile (.entry key) = true) (other bytes : Bytes) :
    (putBytesKeyed disk other bytes).inodeOf (.entry key) = disk.inodeOf (.entry key) := by
  unfold putBytesKeyed
  split
  · rfl
  · rename_i absent
    have differ : Name.entry (π := π) key ≠ .entry other := by
      intro same
      rw [same] at present
      exact absent present
    rw [Disk.inodeOf_create, if_neg differ]

theorem copy_entry {disk copied : StoreDisk π} {hash : Bytes} {target : π}
    (done : copy leads disk hash target = some copied) (key : Bytes) :
    copied.inodeOf (.entry key) = disk.inodeOf (.entry key) := by
  rcases copy_cases leads done with ⟨final, content, mode, rfl, _⟩ | ⟨inode, file, _, rfl, _⟩
  · rw [Disk.inodeOf_create, if_neg (by simp)]
  · rfl

theorem hardLink_entry {disk linked : StoreDisk π} {hash : Bytes} {target : π} {links : Bool}
    (done : hardLink disk hash target links = some linked) (key : Bytes) :
    linked.inodeOf (.entry key) = disk.inodeOf (.entry key) := by
  obtain ⟨_, isLinked⟩ := Option.ite_none_right_eq_some.mp done
  obtain rfl := Option.some.inj isLinked
  rw [Disk.inodeOf_link, if_neg (by simp)]

omit [DecidableEq π] in
theorem setPermissions_entry (disk : StoreDisk π) (path : π) (mode : Nat) (key : Bytes) :
    (setPermissions leads disk path mode).inodeOf (.entry key) = disk.inodeOf (.entry key) := by
  unfold setPermissions
  split <;> rfl

theorem symlink_entry {disk linked : StoreDisk π} {target : Bytes} {path : π}
    (done : symlink disk target path = some linked) (key : Bytes) :
    linked.inodeOf (.entry key) = disk.inodeOf (.entry key) := by
  obtain ⟨_, isLinked⟩ := Option.ite_none_right_eq_some.mp done
  obtain rfl := Option.some.inj isLinked
  rw [Disk.inodeOf_symlink, if_neg (by simp)]

theorem link_entry (disk : StoreDisk π) (hash : Bytes) (target : π) (answer : Answer)
    (key : Bytes) :
    (link leads disk hash target answer).2.inodeOf (.entry key) = disk.inodeOf (.entry key) := by
  have cleared := clearTarget_entry leads disk target answer.removes key
  unfold link
  dsimp only
  split
  · split
    · rename_i linked done
      exact (hardLink_entry done key).trans cleared
    · split
      · split
        · rename_i copied done
          exact (copy_entry leads done key).trans cleared
        · exact cleared
      · exact cleared
  · rfl

theorem restoreEntry_entry (disk : StoreDisk π) (dest : π) (entry : ManifestEntry ρ)
    (answer : Answer) (key : Bytes) :
    (restoreEntry leads disk dest entry answer).2.inodeOf (.entry key) =
      disk.inodeOf (.entry key) := by
  have cleared := removeFile_entry disk dest answer.removes key
  unfold restoreEntry
  dsimp only
  split
  · split
    · split
      · exact cleared
      · rename_i placed done
        have isPlaced : placed.inodeOf (.entry key) = disk.inodeOf (.entry key) := by
          rcases Option.or_eq_some_iff.mp done with linked | ⟨_, copied⟩
          · exact (hardLink_entry linked key).trans cleared
          · exact (copy_entry leads copied key).trans cleared
        split
        · exact (setPermissions_entry leads placed dest entry.mode key).trans isPlaced
        · exact isPlaced
    · split
      · exact cleared
      · rename_i linked done
        exact (symlink_entry done key).trans cleared
  · rfl

theorem createOneBinLink_entry (disk : StoreDisk π) (bin : BinLink π) (answer : Answer)
    (key : Bytes) :
    (createOneBinLink leads disk bin answer).2.inodeOf (.entry key) =
      disk.inodeOf (.entry key) := by
  have cleared := removeFile_entry disk bin.linkPath answer.removes key
  unfold createOneBinLink
  split
  · rfl
  · split
    · rfl
    · dsimp only
      split
      · exact cleared
      · rename_i linked done
        have isLinked := (symlink_entry done key).trans cleared
        split
        · split <;> exact isLinked
        · exact isLinked

theorem captureEntry_entry {disk : StoreDisk π} {key : Bytes}
    (present : disk.isFile (.entry key) = true) (path : π) (rel : ρ) :
    (captureEntry crates disk path rel).2.inodeOf (.entry key) = disk.inodeOf (.entry key) := by
  unfold captureEntry
  split
  · rfl
  · dsimp only
    split
    · exact putBytesKeyed_entry present _ _
    · rfl
  · rfl

theorem step_entry {disk : StoreDisk π} {key : Bytes} (present : disk.isFile (.entry key) = true)
    (event : Event π ρ) :
    (step crates leads disk event).inodeOf (.entry key) = disk.inodeOf (.entry key) := by
  cases event with
  | putBytes bytes => exact putBytesKeyed_entry present _ _
  | captureEntry path rel => exact captureEntry_entry present path rel
  | link hash target answer => exact link_entry leads disk hash target answer key
  | restoreEntry dest entry answer => exact restoreEntry_entry leads disk dest entry answer key
  | createOneBinLink bin answer => exact createOneBinLink_entry leads disk bin answer key
  | write path content =>
      simp only [step]
      split <;> rfl
  | truncate path length =>
      simp only [step]
      split <;> rfl
  | chmod path mode => exact setPermissions_entry leads disk path mode key
  | create path content mode => exact (disk.inodeOf_create _ _ _ _).trans (if_neg (by simp))
  | remove path => exact (disk.inodeOf_remove _ _).trans (if_neg (by simp))
  | rename source target =>
      rw [step, Disk.rename, Disk.inodeOf_remove, if_neg (by simp), Disk.inodeOf_link,
        if_neg (by simp)]
  | symlink path target => exact (disk.inodeOf_symlink _ _ _).trans (if_neg (by simp))
  | makeDirectory path => exact (disk.inodeOf_makeDirectory _ _).trans (if_neg (by simp))

theorem steps_entry {disk : StoreDisk π} {key : Bytes} (present : disk.isFile (.entry key) = true)
    (events : List (Event π ρ)) :
    (events.foldl (step crates leads) disk).isFile (.entry key) = true := by
  induction events generalizing disk with
  | nil => exact present
  | cons event events ih =>
      apply ih
      rw [Disk.isFile, step_entry leads present]
      exact present

end Entries

/-! A restore that ends with an error has found an entry, so nothing is written under the key. -/

section Heals

omit [DecidableEq ρ]

theorem restoreManifest_error {key : Bytes} {answer : ρ → Answer} {disk : StoreDisk π}
    (failed : (restoreManifest leads serde join answer key disk).1 = none) :
    disk.isFile (.entry key) = true := by
  unfold restoreManifest getBytesByRawKey at failed
  cases isEntry : disk.inodeOf (.entry key) with
  | none => simp [isEntry] at failed
  | some inode => simp [Disk.isFile, isEntry]

theorem restoreManifest_present {key : Bytes} (answer : ρ → Answer) {disk : StoreDisk π}
    (present : disk.isFile (.entry key) = true) :
    (restoreManifest leads serde join answer key disk).2.isFile (.entry key) = true := by
  unfold restoreManifest
  split
  · exact present
  · exact present
  · split
    · exact present
    · split
      · exact present
      · rename_i manifest _
        obtain ⟨done, _, same⟩ := restoreEntries_steps Crates.plain leads join answer manifest disk
        dsimp only
        rw [same]
        exact steps_entry leads present _

theorem runBetweenCaptures_present (around : Surroundings π ρ) {key : Bytes} {disk : StoreDisk π}
    (present : disk.isFile (.entry key) = true) :
    (runBetweenCaptures crates leads join around disk).2.2.isFile (.entry key) = true := by
  simp only [runBetweenCaptures, captureDir_steps crates leads]
  exact steps_entry leads (steps_entry leads (steps_entry leads present _) _) _

theorem cacheDelta_present {key : Bytes} (delta : PostinstallManifest ρ) {disk : StoreDisk π}
    (present : disk.isFile (.entry key) = true) : (cacheDelta serde key delta disk).2 = disk := by
  have kept (bytes : Bytes) : putBytesKeyed disk key bytes = disk := if_pos present
  unfold cacheDelta storeManifest
  split
  · rename_i done
    split at done
    · simp at done
    · split at done <;> simp_all
  · rename_i done
    split at done
    · obtain ⟨_, rfl⟩ := Prod.mk.inj done
      exact kept emptySentinel
    · split at done <;> simp at done
  · rename_i done
    split at done
    · simp at done
    · split at done <;> simp_all

theorem cacheDelta_cached {key : Bytes} {delta : PostinstallManifest ρ} {disk : StoreDisk π}
    (cached : (cacheDelta serde key delta disk).1 = .cached ∨
      (cacheDelta serde key delta disk).1 = .cachedNoOp) :
    ∃ stored, bytesToStore serde delta = some stored := by
  unfold bytesToStore
  by_cases empty : delta.isEmpty = true
  · exact ⟨emptySentinel, if_pos empty⟩
  · unfold cacheDelta storeManifest at cached
    rw [if_neg empty] at cached ⊢
    cases json : serde.toVec delta with
    | none => simp [json] at cached
    | some bytes => exact ⟨bytes, rfl⟩

end Heals

/-! What a call finds under the key when it comes to store its delta, and the delta. -/

def beforeStore (key : Bytes) (around : Surroundings π ρ) (disk : StoreDisk π) : StoreDisk π :=
  (runBetweenCaptures crates leads join around
    (restoreManifest leads serde join around.answer key disk).2).2.2

def deltaOf (key : Bytes) (around : Surroundings π ρ) (disk : StoreDisk π) :
    PostinstallManifest ρ :=
  let ran := runBetweenCaptures crates leads join around
    (restoreManifest leads serde join around.answer key disk).2
  diffManifests ran.1 ran.2.1

variable {crates leads serde join} {key : Bytes} {around : Surroundings π ρ}
  {disk after : StoreDisk π} {log : PhaseLog}

/-- After a restore error the script has run and its delta has been handed to the store. -/
theorem runPostinstallTask_cached
    (call : runPostinstallTask crates leads serde join key around disk = (log, after))
    (failed : log.restoreError = true) (cached : log.outcome = .cached ∨ log.outcome = .cachedNoOp) :
    (restoreManifest leads serde join around.answer key disk).1 = none ∧
      cacheDelta serde key (deltaOf crates leads serde join key around disk)
        (beforeStore crates leads serde join key around disk) = (log.outcome, after) := by
  unfold runPostinstallTask at call
  unfold deltaOf beforeStore
  split at call
  · obtain ⟨rfl, _⟩ := Prod.mk.inj call
    simp at failed
  · rename_i answered left _ restored
    rw [restored]
    split at call
    · obtain ⟨rfl, rfl⟩ := Prod.mk.inj call
      exact ⟨Option.isNone_iff_eq_none.mp failed, rfl⟩
    · obtain ⟨rfl, _⟩ := Prod.mk.inj call
      simp at cached

omit [DecidableEq ρ] in
/-- An entry that is restored with an error is not the sentinel. -/
theorem not_sentinel_of_error
    (failed : (restoreManifest leads serde join around.answer key disk).1 = none) :
    getBytesByRawKey disk key ≠ some (some emptySentinel) := by
  intro isSentinel
  simp [restoreManifest, isSentinel] at failed

end

/-- A serializer that knows the JSON text of one manifest. -/
def literalSerde (manifest : PostinstallManifest Bytes) (json : Bytes) : Serde Bytes where
  toVec := fun given => if given = manifest then some json else none
  fromSlice := fun text => if text = json then some manifest else none

theorem literalSerde_lawful (manifest : PostinstallManifest Bytes) {json : Bytes}
    (noSentinel : json ≠ emptySentinel) : (literalSerde manifest json).Lawful where
  roundTrip := by
    intro given text written
    obtain ⟨rfl, isJson⟩ := Option.ite_none_right_eq_some.mp written
    obtain rfl := Option.some.inj isJson
    exact if_pos rfl
  sentinel := if_neg noSentinel.symm

/-! A script that writes one file, `out`. -/

def outFile : Bytes := utf8 "out"

def outManifest : PostinstallManifest Bytes :=
  [⟨outFile, Crates.plain.blake3 (utf8 "x"), createMode, .regular⟩]

def outJson : Bytes :=
  utf8 ("[\x7b\"rel_path\":\"out\",\"content_hash\":[120,255,0]," ++
    "\"mode\":420,\"kind\":\"Regular\"\x7d]")

def outSerde : Serde Bytes := literalSerde outManifest outJson

theorem outSerde_lawful : outSerde.Lawful := literalSerde_lawful _ (by decide +kernel)

def taskKey : Bytes := utf8 "key of the task"

def writesOut : Surroundings Bytes Bytes where
  answer := fun _ => .fine
  walkedBefore := []
  script := [.create outFile (utf8 "x") createMode]
  succeeds := true
  walkedAfter := [outFile]

end Rage.LinkedStore
