import Rage.LinkedStore

/-!
The cache of postinstall scripts: a manifest of a package directory before and after the script, the
difference stored under the key of the task, and the way back into a package directory.
-/

namespace Rage.LinkedStore

open Inodes

inductive FileKind
  | regular
  | symlink (target : Bytes)
  deriving DecidableEq

/-- `ρ` are the paths relative to a package directory. -/
structure ManifestEntry (ρ : Type) where
  relPath : ρ
  contentHash : Bytes
  mode : Nat
  kind : FileKind
  deriving DecidableEq

abbrev PostinstallManifest (ρ : Type) := List (ManifestEntry ρ)

def noHash : Bytes := List.replicate 32 0

def modeMask : Nat := 0o777

def emptySentinel : Bytes := utf8 "\x7b\"empty\":true\x7d"

/-- The functions of `serde_json` on manifests. -/
structure Serde (ρ : Type) where
  toVec : PostinstallManifest ρ → Option Bytes
  fromSlice : Bytes → Option (PostinstallManifest ρ)

/-- What is written can be read again, and the sentinel is no manifest. -/
structure Serde.Lawful {ρ : Type} (serde : Serde ρ) : Prop where
  roundTrip : ∀ manifest json, serde.toVec manifest = some json →
    serde.fromSlice json = some manifest
  sentinel : serde.fromSlice emptySentinel = none

section

variable {π ρ : Type} [DecidableEq π]

section Capture

variable (crates : Crates)

def captureEntry (disk : StoreDisk π) (path : π) (rel : ρ) :
    Option (ManifestEntry ρ) × StoreDisk π :=
  match disk.names (.path path) with
  | some (.symlink target) => (some ⟨rel, noHash, 0, .symlink target⟩, disk)
  | some (.file inode) =>
      let file := disk.inodes inode
      if readable file.mode then
        let contentHash := crates.blake3 file.content
        (some ⟨rel, contentHash, file.mode &&& modeMask, .regular⟩,
          putBytesKeyed disk contentHash file.content)
      else (none, disk)
  | _ => (none, disk)

/-- `walked` are the relative paths in the order in which the walk yields them. -/
def captureDir (join : ρ → π) : List ρ → StoreDisk π → PostinstallManifest ρ × StoreDisk π
  | [], disk => ([], disk)
  | rel :: walked, disk =>
      let captured := captureEntry crates disk (join rel) rel
      let rest := captureDir join walked captured.2
      (captured.1.toList ++ rest.1, rest.2)

end Capture

/-- Of several entries for a path the map has the last one. -/
def diffManifests [DecidableEq ρ] (before after : PostinstallManifest ρ) :
    PostinstallManifest ρ :=
  after.filter fun entry =>
    match before.reverse.find? fun other => other.relPath = entry.relPath with
    | some other => other.contentHash != entry.contentHash || other.mode != entry.mode ||
        other.kind != entry.kind
    | none => true

def storeManifest (serde : Serde ρ) (disk : StoreDisk π) (key : Bytes)
    (delta : PostinstallManifest ρ) : Option Bool × StoreDisk π :=
  if delta.isEmpty then (some false, disk)
  else
    match serde.toVec delta with
    | none => (none, disk)
    | some json => (some true, putBytesKeyed disk key json)

def storeEmptySentinel (disk : StoreDisk π) (key : Bytes) : StoreDisk π :=
  putBytesKeyed disk key emptySentinel

section Restore

variable (leads : π → Bytes → π)

/-- One turn of the loop of `restore_manifest`: whether it is `Ok`, and the disk that it leaves. -/
def restoreEntry (disk : StoreDisk π) (dest : π) (entry : ManifestEntry ρ) (answer : Answer) :
    Bool × StoreDisk π :=
  if answer.parents then
    let cleared := removeFile disk dest answer.removes
    match entry.kind with
    | .regular =>
        match (hardLink cleared entry.contentHash dest answer.links).or
          (copy leads cleared entry.contentHash dest) with
        | none => (false, cleared)
        | some placed =>
            if answer.chmods then (true, setPermissions leads placed dest entry.mode)
            else (false, placed)
    | .symlink target =>
        match symlink cleared target dest with
        | none => (false, cleared)
        | some linked => (true, linked)
  else (false, disk)

def restoreEntries (join : ρ → π) (answer : ρ → Answer) :
    PostinstallManifest ρ → StoreDisk π → Bool × StoreDisk π :=
  tryEach fun entry disk =>
    restoreEntry leads disk (join entry.relPath) entry (answer entry.relPath)

def restoreManifest (serde : Serde ρ) (join : ρ → π) (answer : ρ → Answer) (key : Bytes)
    (disk : StoreDisk π) : Option Bool × StoreDisk π :=
  match getBytesByRawKey disk key with
  | none => (none, disk)
  | some none => (some false, disk)
  | some (some bytes) =>
      if bytes = emptySentinel then (some true, disk)
      else
        match serde.fromSlice bytes with
        | none => (none, disk)
        | some manifest =>
            let restored := restoreEntries leads join answer manifest disk
            (if restored.1 then some true else none, restored.2)

end Restore

end

end Rage.LinkedStore
