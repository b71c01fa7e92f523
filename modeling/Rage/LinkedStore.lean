import Mathlib.Data.Nat.Bitwise
import Rage.ArtifactStore
import Rage.Inodes

/-!
The artifact store on a disk with hard links.  An entry of the store and the files restored from it
are names of one inode.  A path is a location whose directories are real ones, so only its last
component can be a symbolic link, and no such link leads into the store.
-/

namespace Rage.LinkedStore

open Inodes

inductive Name (π : Type)
  | entry (key : Bytes)
  | path (path : π)
  deriving DecidableEq

abbrev StoreDisk (π : Type) := Disk (Name π) Bytes Bytes

def emptyDisk {π : Type} : StoreDisk π where
  names := fun _ => none
  inodes := fun _ => ⟨[], 0⟩
  fresh := 0
  allocated := by simp

/-! Permission bits of the owner. -/

def readable (mode : Nat) : Bool := mode.testBit 8

def writable (mode : Nat) : Bool := mode.testBit 7

/-- What `File::create` gives a file under the usual mask. -/
def createMode : Nat := 0o644

def executableBits : Nat := 0o111

/-! A loop over the files of an operation, which ends at the first error (`?`). -/

section Loop

variable {α σ : Type} (act : α → σ → Bool × σ)

def tryEach : List α → σ → Bool × σ
  | [], state => (true, state)
  | item :: items, state =>
      if (act item state).1 then tryEach items (act item state).2 else act item state

theorem tryEach_prefix (items : List α) (state : σ) :
    ∃ done, done <+: items ∧
      (tryEach act items state).2 = done.foldl (fun state item => (act item state).2) state := by
  induction items generalizing state with
  | nil => exact ⟨[], List.prefix_refl [], rfl⟩
  | cons item items ih =>
      unfold tryEach
      split
      · obtain ⟨done, within, later⟩ := ih (act item state).2
        exact ⟨item :: done, List.cons_prefix_cons.mpr ⟨rfl, within⟩, later⟩
      · exact ⟨[item], by simp, rfl⟩

theorem tryEach_append (first second : List α) (state : σ) :
    tryEach act (first ++ second) state =
      if (tryEach act first state).1 then tryEach act second (tryEach act first state).2
      else tryEach act first state := by
  induction first generalizing state with
  | nil => rfl
  | cons item first ih =>
      rw [List.cons_append, tryEach, tryEach]
      by_cases succeeds : (act item state).1 = true
      · rw [if_pos succeeds, if_pos succeeds]
        exact ih (act item state).2
      · rw [if_neg succeeds, if_neg succeeds, if_neg succeeds]

/-- A loop within a loop. -/
theorem tryEach_flatMap {β : Type} (items : β → List α) (groups : List β) (state : σ) :
    tryEach (fun group => tryEach act (items group)) groups state =
      tryEach act (groups.flatMap items) state := by
  induction groups generalizing state with
  | nil => rfl
  | cons group groups ih => rw [List.flatMap_cons, tryEach_append, tryEach, ih]

/-- A loop whose rounds all succeed, each adding to what has been done. -/
theorem tryEach_gather {act : α → σ → Bool × σ} {τ : Type} {holds : σ → (τ → Prop) → Prop}
    {adds : α → τ → Prop} {items : List α}
    (each : ∀ item ∈ items, ∀ state made, holds state made →
      (act item state).1 = true ∧
        holds (act item state).2 fun result => made result ∨ adds item result)
    {state : σ} {made : τ → Prop} (start : holds state made) :
    (tryEach act items state).1 = true ∧
      holds (tryEach act items state).2 fun result =>
        made result ∨ ∃ item ∈ items, adds item result := by
  induction items generalizing state made with
  | nil =>
      have same : (fun result => made result ∨ ∃ item ∈ ([] : List α), adds item result) = made := by
        funext result
        simp
      rw [same]
      exact ⟨rfl, start⟩
  | cons item items ih =>
      obtain ⟨succeeds, next⟩ := each item List.mem_cons_self state made start
      have later := ih (fun other member => each other (List.mem_cons_of_mem _ member)) next
      have same : (fun result => (made result ∨ adds item result) ∨
          ∃ other ∈ items, adds other result) =
            fun result => made result ∨ ∃ other ∈ item :: items, adds other result := by
        funext result
        simp [or_assoc]
      rw [tryEach, if_pos succeeds]
      rwa [same] at later

theorem tryEach_map {β : Type} (item : β → α) (items : List β) (state : σ) :
    tryEach act (items.map item) state = tryEach (fun other => act (item other)) items state := by
  induction items generalizing state with
  | nil => rfl
  | cons other items ih => rw [List.map_cons, tryEach, tryEach, ih]

end Loop

/-! What the system answers where its answer does not follow from the names alone. -/

structure Answer where
  /-- `create_dir_all` of the parent. -/
  parents : Bool
  removes : Bool
  links : Bool
  /-- The error of `hard_link` is one after which `link` copies. -/
  copies : Bool
  chmods : Bool
  deriving DecidableEq

def Answer.fine : Answer := ⟨true, true, true, true, true⟩

section

variable {π : Type}

def getBytesByRawKey (disk : StoreDisk π) (key : Bytes) : Option (Option Bytes) :=
  match disk.inodeOf (.entry key) with
  | none => some none
  | some inode =>
      if readable (disk.inodes inode).mode then some (some (disk.inodes inode).content) else none

/-! `leads` is where the text of a link points to. -/

def maxLinks : Nat := 40

def resolve (leads : π → Bytes → π) (disk : StoreDisk π) : Nat → π → Option π
  | 0, _ => none
  | links + 1, path =>
      match disk.names (.path path) with
      | some (.symlink target) => resolve leads disk links (leads path target)
      | _ => some path

variable [DecidableEq π]

def putBytesKeyed (disk : StoreDisk π) (key bytes : Bytes) : StoreDisk π :=
  if disk.isFile (.entry key) then disk else disk.create (.entry key) bytes createMode

def putBytes (crates : Crates) (disk : StoreDisk π) (bytes : Bytes) : StoreDisk π :=
  putBytesKeyed disk (crates.blake3 bytes) bytes

def removeFile (disk : StoreDisk π) (path : π) (removes : Bool) : StoreDisk π :=
  if removes ∧ disk.names (.path path) ≠ some .directory then disk.remove (.path path)
  else disk

def hardLink (disk : StoreDisk π) (key : Bytes) (target : π) (links : Bool) :
    Option (StoreDisk π) :=
  if disk.isFile (.entry key) ∧ disk.names (.path target) = none ∧ links then
    some (disk.link (.entry key) (.path target))
  else none

def symlink (disk : StoreDisk π) (target : Bytes) (path : π) : Option (StoreDisk π) :=
  if disk.names (.path path) = none then some (Disk.symlink disk (.path path) target)
  else none

section Links

variable (leads : π → Bytes → π)

def fileAt (disk : StoreDisk π) (path : π) : Option Nat :=
  (resolve leads disk maxLinks path).bind fun final => disk.inodeOf (.path final)

/-- `std::fs::copy` from an entry: the destination is truncated before the source is read. -/
def copy (disk : StoreDisk π) (key : Bytes) (target : π) : Option (StoreDisk π) :=
  match disk.inodeOf (.entry key), resolve leads disk maxLinks target with
  | some source, some final =>
      let file := disk.inodes source
      if readable file.mode then
        match disk.names (.path final) with
        | none => some (disk.create (.path final) file.content file.mode)
        | some (.file inode) =>
            if writable (disk.inodes inode).mode then
              let truncated := disk.setContent inode []
              some (truncated.overwrite inode ⟨(truncated.inodes source).content, file.mode⟩)
            else none
        | _ => none
      else none
  | _, _ => none

def setPermissions (disk : StoreDisk π) (path : π) (mode : Nat) : StoreDisk π :=
  match fileAt leads disk path with
  | some inode => disk.setMode inode mode
  | none => disk

def clearTarget (disk : StoreDisk π) (target : π) (removes : Bool) : StoreDisk π :=
  if (fileAt leads disk target).isSome then removeFile disk target removes else disk

/-- `LocalArtifactStore::link`: whether it is `Ok`, and the disk that it leaves. -/
def link (disk : StoreDisk π) (hash : Bytes) (target : π) (answer : Answer) :
    Bool × StoreDisk π :=
  if disk.isFile (.entry hash) ∧ answer.parents then
    let cleared := clearTarget leads disk target answer.removes
    match hardLink cleared hash target answer.links with
    | some linked => (true, linked)
    | none =>
        if answer.copies then
          match copy leads cleared hash target with
          | some copied => (true, copied)
          | none => (false, cleared)
        else (false, cleared)
  else (false, disk)

def restorePackage (answer : π → Answer) (join : Path → π) :
    List (Path × Bytes) → StoreDisk π → Bool × StoreDisk π :=
  tryEach fun file disk => link leads disk file.2 (join file.1) (answer (join file.1))

/-- One bin of a package: the file to run, the link in `.bin` and the text of the link. -/
structure BinLink (π : Type) where
  targetAbs : π
  linkPath : π
  relTarget : Bytes

def createOneBinLink (disk : StoreDisk π) (bin : BinLink π) (answer : Answer) :
    Option Bool × StoreDisk π :=
  match resolve leads disk maxLinks bin.targetAbs with
  | none => (some false, disk)
  | some final =>
      if disk.names (.path final) = none then (some false, disk)
      else
        let cleared := removeFile disk bin.linkPath answer.removes
        match symlink cleared bin.relTarget bin.linkPath with
        | none => (none, cleared)
        | some linked =>
            match fileAt leads linked bin.targetAbs with
            | some inode =>
                if answer.chmods then
                  (some true, linked.setMode inode ((linked.inodes inode).mode ||| executableBits))
                else (some true, linked)
            | none => (some true, linked)

def createBinLinks (answer : π → Answer) : List (BinLink π) → StoreDisk π → Bool × StoreDisk π :=
  tryEach fun bin disk =>
    let created := createOneBinLink leads disk bin (answer bin.linkPath)
    (created.1.isSome, created.2)

end Links

end

end Rage.LinkedStore
