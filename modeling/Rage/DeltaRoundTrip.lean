import Rage.PostinstallPhase

/-!
From a package directory before and after its script to a copy of the former, through the stored
delta.  The copy has the contents right where the store has; its modes are those of inodes, and
files that end on one inode have one mode.
-/

namespace Rage.LinkedStore

open Inodes

variable {π ρ : Type}

/-! What a package directory holds at its relative paths. -/

inductive TreeNode
  | file (content : Bytes) (mode : Nat)
  | symlink (target : Bytes)
  | directory
  deriving DecidableEq

abbrev Tree (ρ : Type) := ρ → Option TreeNode

def nodeOf (disk : StoreDisk π) : Dirent Bytes → TreeNode
  | .file inode => .file (disk.inodes inode).content (disk.inodes inode).mode
  | .symlink target => .symlink target
  | .directory => .directory

def treeAt (disk : StoreDisk π) (join : ρ → π) : Tree ρ :=
  fun rel => (disk.names (.path (join rel))).map (nodeOf disk)

def permissions (mode : Nat) : Nat := mode &&& modeMask

@[simp] theorem permissions_permissions (mode : Nat) :
    permissions (permissions mode) = permissions mode := by
  simp [permissions]

/-- The same as far as a capture can tell: content and permission bits, or target. -/
def Alike : TreeNode → TreeNode → Prop
  | .file content mode, .file other mode' => content = other ∧ permissions mode = permissions mode'
  | .symlink target, .symlink other => target = other
  | _, _ => False

/-- Every file and link of `wanted` is there, and nothing else but directories. -/
def Tree.Yields (tree wanted : Tree ρ) : Prop :=
  ∀ rel, match wanted rel with
    | none | some .directory => ∀ found, tree rel = some found → found = .directory
    | some node => ∃ found, tree rel = some found ∧ Alike found node

def Changed (before after : Tree ρ) (rel : ρ) : Prop :=
  ∃ node, after rel = some node ∧ node ≠ .directory ∧ ∀ old, before rel = some old → ¬ Alike old node

/-- The entry that a capture makes of a path. -/
def entryFor (crates : Crates) (rel : ρ) : TreeNode → Option (ManifestEntry ρ)
  | .file content mode => some ⟨rel, crates.blake3 content, permissions mode, .regular⟩
  | .symlink target => some ⟨rel, noHash, 0, .symlink target⟩
  | .directory => none

def Tree.Readable (tree : Tree ρ) : Prop :=
  ∀ rel content mode, tree rel = some (.file content mode) → readable mode = true

/-- A walk yields every path of the tree once. -/
structure Walks (tree : Tree ρ) (walked : List ρ) : Prop where
  nodup : walked.Nodup
  complete : ∀ rel, rel ∈ walked ↔ (tree rel).isSome

theorem relPath_entryFor {crates : Crates} {rel : ρ} {node : TreeNode} {entry : ManifestEntry ρ}
    (captured : entryFor crates rel node = some entry) : entry.relPath = rel := by
  cases node with
  | file content mode =>
      obtain rfl := Option.some.inj captured
      rfl
  | symlink target =>
      obtain rfl := Option.some.inj captured
      rfl
  | directory => simp [entryFor] at captured

/-! A capture makes the manifest of the tree and leaves the tree alone. -/

section Capture

variable [DecidableEq π] (crates : Crates) (join : ρ → π)

theorem treeAt_putBytesKeyed (disk : StoreDisk π) (key bytes : Bytes) :
    treeAt (putBytesKeyed disk key bytes) join = treeAt disk join := by
  unfold putBytesKeyed
  split
  · rfl
  · funext rel
    have names : (disk.create (.entry key) bytes createMode).names (.path (join rel)) =
        disk.names (.path (join rel)) := by
      simp [Disk.create]
    rw [treeAt, treeAt, names]
    cases isEntry : disk.names (.path (join rel)) with
    | none => rfl
    | some entry =>
        cases entry with
        | file inode =>
            have apart : inode ≠ disk.fresh := by
              have below := disk.allocated (.path (join rel)) inode (by simp [isEntry, Dirent.inode])
              omega
            simp [nodeOf, Disk.inodes_create_of_ne disk apart]
        | symlink target => rfl
        | directory => rfl

theorem treeAt_captureEntry (disk : StoreDisk π) (path : π) (rel : ρ) :
    treeAt (captureEntry crates disk path rel).2 join = treeAt disk join := by
  unfold captureEntry
  split
  · rfl
  · dsimp only
    split
    · exact treeAt_putBytesKeyed join disk _ _
    · rfl
  · rfl

theorem treeAt_captureDir (capturedDir : ρ → π) (walked : List ρ) (disk : StoreDisk π) :
    treeAt (captureDir crates capturedDir walked disk).2 join = treeAt disk join := by
  induction walked generalizing disk with
  | nil => rfl
  | cons rel walked ih => exact (ih _).trans (treeAt_captureEntry crates join disk _ rel)

theorem captureEntry_entryFor {disk : StoreDisk π} (readable : (treeAt disk join).Readable)
    (rel : ρ) : (captureEntry crates disk (join rel) rel).1 =
      (treeAt disk join rel).bind (entryFor crates rel) := by
  unfold captureEntry treeAt
  cases isEntry : disk.names (.path (join rel)) with
  | none => rfl
  | some entry =>
      cases entry with
      | file inode =>
          have allowed := readable rel _ _ (by simp [treeAt, isEntry, nodeOf]; exact ⟨rfl, rfl⟩)
          simp [allowed, nodeOf, entryFor, permissions]
      | symlink target => rfl
      | directory => rfl

theorem captureDir_manifest (walked : List ρ) {disk : StoreDisk π}
    (readable : (treeAt disk join).Readable) :
    (captureDir crates join walked disk).1 =
      walked.filterMap fun rel => (treeAt disk join rel).bind (entryFor crates rel) := by
  induction walked generalizing disk with
  | nil => rfl
  | cons rel walked ih =>
      have same := treeAt_captureEntry crates join disk (join rel) rel
      have still : (treeAt (captureEntry crates disk (join rel) rel).2 join).Readable := by
        rwa [same]
      rw [captureDir, ih still, same, captureEntry_entryFor crates join readable]
      cases captured : (treeAt disk join rel).bind (entryFor crates rel) with
      | none => simp [captured]
      | some entry => simp [captured]

theorem captureDir_stored {walked : List ρ} {disk : StoreDisk π}
    (readable : (treeAt disk join).Readable) {rel : ρ} (member : rel ∈ walked) {content : Bytes}
    {mode : Nat} (isFile : treeAt disk join rel = some (.file content mode)) :
    (captureDir crates join walked disk).2.isFile (.entry (crates.blake3 content)) = true := by
  induction walked generalizing disk with
  | nil => simp at member
  | cons first walked ih =>
      have same := treeAt_captureEntry crates join disk (join first) first
      have still : (treeAt (captureEntry crates disk (join first) first).2 join).Readable := by
        rwa [same]
      rcases List.mem_cons.mp member with rfl | later
      · have stored : (captureEntry crates disk (join rel) rel).2.isFile
            (.entry (crates.blake3 content)) = true := by
          obtain ⟨dirent, isDirent, isNode⟩ := Option.map_eq_some_iff.mp isFile
          cases dirent with
          | file inode =>
              have allowed := readable rel content mode isFile
              obtain ⟨rfl, rfl⟩ : (disk.inodes inode).content = content ∧
                  (disk.inodes inode).mode = mode := by simpa [nodeOf] using isNode
              simp only [captureEntry, isDirent, allowed, ↓reduceIte, putBytesKeyed]
              split
              · assumption
              · simp [Disk.isFile, Disk.inodeOf_create]
          | symlink target => simp [nodeOf] at isNode
          | directory => simp [nodeOf] at isNode
        rw [captureDir, captureDir_steps crates (fun path _ => path)]
        exact steps_entry _ stored _
      · exact ih still later (by rw [same]; exact isFile)

end Capture

/-! The difference of two manifests. -/

section Diff

variable [DecidableEq ρ] (crates : Crates)

theorem find_manifest (captured : ρ → Option (ManifestEntry ρ))
    (own : ∀ rel entry, captured rel = some entry → entry.relPath = rel) (walked : List ρ)
    (rel : ρ) :
    (walked.filterMap captured).reverse.find? (fun entry => entry.relPath = rel) =
      if rel ∈ walked then captured rel else none := by
  induction walked with
  | nil => rfl
  | cons first walked ih =>
      have head : ((captured first).toList.reverse).find? (fun entry => entry.relPath = rel) =
          if rel = first then captured first else none := by
        cases isCaptured : captured first with
        | none => simp
        | some entry =>
            have path := own first entry isCaptured
            by_cases here : rel = first
            · simp [path, here]
            · have apart : ¬ first = rel := fun same => here same.symm
              simp [path, here, apart]
      have split : ((first :: walked).filterMap captured).reverse =
          (walked.filterMap captured).reverse ++ (captured first).toList.reverse := by
        cases isCaptured : captured first <;> simp [isCaptured]
      rw [split, List.find?_append, ih, head]
      by_cases here : rel = first
      · subst here
        by_cases later : rel ∈ walked
        · simp [later]
        · simp [later]
      · simp [here]

/-- An entry of the later manifest is in the difference unless the earlier one has it as well. -/
theorem mem_diff_iff {before after : Tree ρ} {beforeWalk afterWalk : List ρ}
    (beforeWalks : Walks before beforeWalk) (afterWalks : Walks after afterWalk)
    (entry : ManifestEntry ρ) :
    entry ∈ diffManifests (beforeWalk.filterMap fun rel => (before rel).bind (entryFor crates rel))
        (afterWalk.filterMap fun rel => (after rel).bind (entryFor crates rel)) ↔
      (after entry.relPath).bind (entryFor crates entry.relPath) = some entry ∧
        (before entry.relPath).bind (entryFor crates entry.relPath) ≠ some entry := by
  have own (tree : Tree ρ) (rel : ρ) (other : ManifestEntry ρ)
      (captured : (tree rel).bind (entryFor crates rel) = some other) : other.relPath = rel := by
    obtain ⟨node, _, isEntry⟩ := Option.bind_eq_some_iff.mp captured
    exact relPath_entryFor isEntry
  have inAfter : entry ∈ (afterWalk.filterMap fun rel => (after rel).bind (entryFor crates rel)) ↔
      (after entry.relPath).bind (entryFor crates entry.relPath) = some entry := by
    rw [List.mem_filterMap]
    constructor
    · rintro ⟨rel, _, captured⟩
      have path := own after rel entry captured
      rwa [path]
    · intro captured
      refine ⟨entry.relPath, ?_, captured⟩
      rw [afterWalks.complete]
      obtain ⟨node, isNode, _⟩ := Option.bind_eq_some_iff.mp captured
      simp [isNode]
  have found := find_manifest (fun rel => (before rel).bind (entryFor crates rel)) (own before)
    beforeWalk entry.relPath
  have known : (if entry.relPath ∈ beforeWalk then
      (before entry.relPath).bind (entryFor crates entry.relPath) else none) =
        (before entry.relPath).bind (entryFor crates entry.relPath) := by
    split
    · rfl
    · rename_i unknown
      have absent : before entry.relPath = none := by
        rw [beforeWalks.complete] at unknown
        simpa using unknown
      rw [absent]
      rfl
  rw [diffManifests, List.mem_filter, inAfter]
  refine and_congr_right fun _ => ?_
  rw [found, known]
  cases captured : (before entry.relPath).bind (entryFor crates entry.relPath) with
  | none => simp
  | some other =>
      have path := own before _ other captured
      obtain ⟨rel, hash, mode, kind⟩ := entry
      obtain ⟨otherRel, otherHash, otherMode, otherKind⟩ := other
      simp_all
      grind

omit [DecidableEq ρ] in
theorem relPaths_sublist (captured : ρ → Option (ManifestEntry ρ))
    (own : ∀ rel entry, captured rel = some entry → entry.relPath = rel) (walked : List ρ) :
    ((walked.filterMap captured).map ManifestEntry.relPath).Sublist walked := by
  induction walked with
  | nil => exact List.Sublist.slnil
  | cons rel walked ih =>
      cases isCaptured : captured rel with
      | none =>
          rw [List.filterMap_cons_none isCaptured]
          exact ih.cons rel
      | some entry =>
          rw [List.filterMap_cons_some isCaptured, List.map_cons, own rel entry isCaptured]
          exact ih.cons_cons rel

theorem diff_nodup {after : Tree ρ} {afterWalk : List ρ} (afterWalks : Walks after afterWalk)
    (before : PostinstallManifest ρ) :
    ((diffManifests before
      (afterWalk.filterMap fun rel => (after rel).bind (entryFor crates rel))).map
        ManifestEntry.relPath).Nodup := by
  have sublist := relPaths_sublist (fun rel => (after rel).bind (entryFor crates rel))
    (fun rel entry captured => by
      obtain ⟨node, _, isEntry⟩ := Option.bind_eq_some_iff.mp captured
      exact relPath_entryFor isEntry) afterWalk
  exact ((List.filter_sublist.map _).trans sublist).nodup afterWalks.nodup

end Diff

/-! What a restore of a manifest does when every system call succeeds. -/

section Restore

variable [DecidableEq π] (leads : π → Bytes → π)

theorem restoreEntry_regular {disk : StoreDisk π} {dest : π} {entry : ManifestEntry ρ}
    {inode : Nat} (kind : entry.kind = .regular)
    (isEntry : disk.inodeOf (.entry entry.contentHash) = some inode)
    (noDirectory : disk.names (.path dest) ≠ some .directory) :
    restoreEntry leads disk dest entry .fine =
      (true, ((disk.remove (.path dest)).link (.entry entry.contentHash) (.path dest)).setMode inode
        entry.mode) := by
  have cleared : removeFile disk dest true = disk.remove (.path dest) := if_pos ⟨rfl, noDirectory⟩
  have stillEntry : (disk.remove (.path dest)).inodeOf (.entry entry.contentHash) = some inode := by
    rw [Disk.inodeOf_remove, if_neg (by simp), isEntry]
  have missing : (disk.remove (.path dest)).names (.path dest) = none := by
    simp [Disk.remove, Disk.setName]
  have linked : hardLink (disk.remove (.path dest)) entry.contentHash dest true =
      some ((disk.remove (.path dest)).link (.entry entry.contentHash) (.path dest)) :=
    if_pos ⟨by simp [Disk.isFile, stillEntry], missing, rfl⟩
  obtain ⟨found, isFound, isFile, _⟩ := hardLink_cases leads linked
  obtain rfl : inode = found := Option.some.inj (stillEntry.symm.trans isFound)
  simp [restoreEntry, Answer.fine, kind, cleared, linked, setPermissions, isFile]

theorem restoreEntry_symlink {disk : StoreDisk π} {dest : π} {entry : ManifestEntry ρ}
    {target : Bytes} (kind : entry.kind = .symlink target)
    (noDirectory : disk.names (.path dest) ≠ some .directory) :
    restoreEntry leads disk dest entry .fine =
      (true, (disk.remove (.path dest)).symlink (.path dest) target) := by
  have cleared : removeFile disk dest true = disk.remove (.path dest) := if_pos ⟨rfl, noDirectory⟩
  have missing : (disk.remove (.path dest)).names (.path dest) = none := by
    simp [Disk.remove, Disk.setName]
  simp [restoreEntry, Answer.fine, kind, cleared, LinkedStore.symlink, missing]

/-- What is where after the entries of `delta` have been restored below `copyDir`. -/
structure Restored (copyDir : ρ → π) (disk result : StoreDisk π) (delta : PostinstallManifest ρ) :
    Prop where
  regular : ∀ entry ∈ delta, entry.kind = .regular → ∀ inode,
    disk.inodeOf (.entry entry.contentHash) = some inode →
      result.names (.path (copyDir entry.relPath)) = some (.file inode)
  symlink : ∀ entry ∈ delta, ∀ target, entry.kind = .symlink target →
    result.names (.path (copyDir entry.relPath)) = some (.symlink target)
  kept : ∀ rel, (∀ entry ∈ delta, entry.relPath ≠ rel) →
    result.names (.path (copyDir rel)) = disk.names (.path (copyDir rel))
  content : ∀ inode, (result.inodes inode).content = (disk.inodes inode).content
  mode : ∀ inode, ((∀ entry ∈ delta, entry.kind = .regular →
      disk.inodeOf (.entry entry.contentHash) ≠ some inode) ∧
        (result.inodes inode).mode = (disk.inodes inode).mode) ∨
    ∃ entry ∈ delta, entry.kind = .regular ∧
      disk.inodeOf (.entry entry.contentHash) = some inode ∧
        (result.inodes inode).mode = entry.mode

structure RestoredEntry (copyDir : ρ → π) (disk next : StoreDisk π) (entry : ManifestEntry ρ) :
    Prop where
  regular : entry.kind = .regular → ∀ inode,
    disk.inodeOf (.entry entry.contentHash) = some inode →
      next.names (.path (copyDir entry.relPath)) = some (.file inode) ∧
        (next.inodes inode).mode = entry.mode
  symlink : ∀ target, entry.kind = .symlink target →
    next.names (.path (copyDir entry.relPath)) = some (.symlink target)
  kept : ∀ rel, rel ≠ entry.relPath →
    next.names (.path (copyDir rel)) = disk.names (.path (copyDir rel))
  entries : ∀ key, next.inodeOf (.entry key) = disk.inodeOf (.entry key)
  content : ∀ inode, (next.inodes inode).content = (disk.inodes inode).content
  mode : ∀ inode, (entry.kind = .regular →
    disk.inodeOf (.entry entry.contentHash) ≠ some inode) →
      (next.inodes inode).mode = (disk.inodes inode).mode

theorem restoreEntry_restored {copyDir : ρ → π} (injective : Function.Injective copyDir)
    {entry : ManifestEntry ρ} {disk : StoreDisk π}
    (stored : entry.kind = .regular → disk.isFile (.entry entry.contentHash) = true)
    (noDirectory : disk.names (.path (copyDir entry.relPath)) ≠ some .directory) :
    ∃ next, restoreEntry leads disk (copyDir entry.relPath) entry .fine = (true, next) ∧
      RestoredEntry copyDir disk next entry := by
  cases kind : entry.kind with
  | regular =>
      obtain ⟨inode, isEntry⟩ := Option.isSome_iff_exists.mp (stored kind)
      refine ⟨_, restoreEntry_regular leads kind isEntry noDirectory, ?_⟩
      have names := Disk.names_of_inodeOf isEntry
      constructor
      case regular =>
        intro _ found isFound
        obtain rfl := Option.some.inj (isEntry.symm.trans isFound)
        exact ⟨by simp [Disk.setMode, Disk.link, Disk.setName, Disk.remove, names],
          by simp [Disk.setMode]⟩
      case symlink => simp [kind]
      case kept =>
        intro rel apart
        have paths : copyDir rel ≠ copyDir entry.relPath := fun same => apart (injective same)
        simp [Disk.setMode, Disk.link, Disk.setName, Disk.remove, paths]
      case entries =>
        intro key
        rw [Disk.setMode, Disk.inodeOf_overwrite, Disk.inodeOf_link, if_neg (by simp),
          Disk.inodeOf_remove, if_neg (by simp)]
      case content =>
        intro other
        by_cases here : other = inode
        · simp [Disk.setMode, here]
        · simp [Disk.setMode, Disk.inodes_overwrite_of_ne _ here]
      case mode =>
        intro other elsewhere
        have apart : other ≠ inode := fun same => elsewhere kind (same ▸ isEntry)
        simp [Disk.setMode, Disk.inodes_overwrite_of_ne _ apart]
  | symlink target =>
      refine ⟨_, restoreEntry_symlink leads kind noDirectory, ?_⟩
      constructor
      case regular => simp [kind]
      case symlink => simp [kind, Disk.symlink, Disk.setName]
      case kept =>
        intro rel apart
        have paths : copyDir rel ≠ copyDir entry.relPath := fun same => apart (injective same)
        simp [Disk.symlink, Disk.setName, Disk.remove, paths]
      case entries =>
        intro key
        rw [Disk.inodeOf_symlink, if_neg (by simp), Disk.inodeOf_remove, if_neg (by simp)]
      case content => exact fun _ => rfl
      case mode => exact fun _ _ => rfl

omit [DecidableEq π] in
theorem RestoredEntry.cons {copyDir : ρ → π} {disk next result : StoreDisk π}
    {entry : ManifestEntry ρ} {delta : PostinstallManifest ρ}
    (step : RestoredEntry copyDir disk next entry)
    (fresh : entry.relPath ∉ delta.map ManifestEntry.relPath)
    (rest : Restored copyDir next result delta) :
    Restored copyDir disk result (entry :: delta) := by
  have unchanged : result.names (.path (copyDir entry.relPath)) =
      next.names (.path (copyDir entry.relPath)) :=
    rest.kept entry.relPath fun other member same => fresh (List.mem_map.mpr ⟨other, member, same⟩)
  constructor
  case regular =>
    intro other member kind inode isEntry
    rcases List.mem_cons.mp member with rfl | later
    · rw [unchanged]
      exact (step.regular kind inode isEntry).1
    · exact rest.regular other later kind inode ((step.entries _).trans isEntry)
  case symlink =>
    intro other member target kind
    rcases List.mem_cons.mp member with rfl | later
    · rw [unchanged]
      exact step.symlink target kind
    · exact rest.symlink other later target kind
  case kept =>
    intro rel apart
    rw [rest.kept rel fun other later => apart other (List.mem_cons_of_mem entry later)]
    exact step.kept rel fun same => apart entry List.mem_cons_self same.symm
  case content => exact fun inode => (rest.content inode).trans (step.content inode)
  case mode =>
    intro inode
    rcases rest.mode inode with ⟨elsewhere, same⟩ | ⟨other, later, kind, isEntry, mode⟩
    · by_cases own : entry.kind = .regular ∧ disk.inodeOf (.entry entry.contentHash) = some inode
      · exact Or.inr ⟨entry, List.mem_cons_self, own.1, own.2,
          same.trans (step.regular own.1 inode own.2).2⟩
      · refine Or.inl ⟨?_, same.trans (step.mode inode fun kind isEntry => own ⟨kind, isEntry⟩)⟩
        intro other member kind isEntry
        rcases List.mem_cons.mp member with rfl | later
        · exact own ⟨kind, isEntry⟩
        · exact elsewhere other later kind ((step.entries _).trans isEntry)
    · exact Or.inr ⟨other, List.mem_cons_of_mem entry later, kind,
        (step.entries _).symm.trans isEntry, mode⟩

theorem restoreEntries_restored {copyDir : ρ → π} (injective : Function.Injective copyDir)
    {delta : PostinstallManifest ρ} {disk : StoreDisk π}
    (nodup : (delta.map ManifestEntry.relPath).Nodup)
    (stored : ∀ entry ∈ delta, entry.kind = .regular →
      disk.isFile (.entry entry.contentHash) = true)
    (noDirectory : ∀ entry ∈ delta,
      disk.names (.path (copyDir entry.relPath)) ≠ some .directory) :
    ∃ result, restoreEntries leads copyDir (fun _ => .fine) delta disk = (true, result) ∧
      Restored copyDir disk result delta := by
  induction delta generalizing disk with
  | nil =>
      refine ⟨disk, rfl, ?_⟩
      constructor <;> simp
  | cons entry delta ih =>
      rw [List.map_cons, List.nodup_cons] at nodup
      obtain ⟨next, restored, step⟩ := restoreEntry_restored leads injective
        (stored entry List.mem_cons_self) (noDirectory entry List.mem_cons_self)
      obtain ⟨result, rest, isRestored⟩ := ih nodup.2
        (fun other member kind => by
          rw [Disk.isFile, step.entries]
          exact stored other (List.mem_cons_of_mem entry member) kind)
        (fun other member => by
          have apart : other.relPath ≠ entry.relPath := fun same =>
            nodup.1 (List.mem_map.mpr ⟨other, member, same⟩)
          rw [step.kept other.relPath apart]
          exact noDirectory other (List.mem_cons_of_mem entry member))
      refine ⟨result, ?_, ?_⟩
      · rw [restoreEntries, tryEach, restored]
        exact rest
      · exact step.cons nodup.1 isRestored

end Restore

theorem entryFor_eq_iff {crates : Crates} (ideal : crates.Ideal) {rel : ρ} {node : TreeNode}
    {entry : ManifestEntry ρ} (captured : entryFor crates rel node = some entry) (old : TreeNode) :
    entryFor crates rel old = some entry ↔ Alike old node := by
  rw [← captured]
  cases node with
  | file content mode =>
      cases old with
      | file other otherMode =>
          simp only [entryFor, Option.some.injEq, ManifestEntry.mk.injEq, true_and, and_true, Alike]
          constructor
          · rintro ⟨hash, modes⟩
            exact ⟨ideal.injective hash, modes⟩
          · rintro ⟨rfl, modes⟩
            exact ⟨rfl, modes⟩
      | symlink target => simp [entryFor, Alike]
      | directory => simp [entryFor, Alike]
  | symlink target =>
      cases old with
      | file other otherMode => simp [entryFor, Alike]
      | symlink other => simp [entryFor, Alike]
      | directory => simp [entryFor, Alike]
  | directory => simp [entryFor] at captured

/-! A script's trip: captures of its package directory before and after, and a copy of the former
directory on a disk that has the entries of the store. -/

structure Trip (π ρ : Type) where
  beforeDisk : StoreDisk π
  beforeDir : ρ → π
  beforeWalk : List ρ
  afterDisk : StoreDisk π
  afterDir : ρ → π
  afterWalk : List ρ
  copyDisk : StoreDisk π
  copyDir : ρ → π
  key : Bytes

namespace Trip

variable (crates : Crates) (leads : π → Bytes → π) (serde : Serde ρ) (trip : Trip π ρ)

def before : Tree ρ := treeAt trip.beforeDisk trip.beforeDir

def after : Tree ρ := treeAt trip.afterDisk trip.afterDir

section

variable [DecidableEq π] [DecidableEq ρ]

def delta : PostinstallManifest ρ :=
  diffManifests (captureDir crates trip.beforeDir trip.beforeWalk trip.beforeDisk).1
    (captureDir crates trip.afterDir trip.afterWalk trip.afterDisk).1

def captured : StoreDisk π := (captureDir crates trip.afterDir trip.afterWalk trip.afterDisk).2

def stored : StoreDisk π :=
  (storeManifest serde (trip.captured crates) trip.key (trip.delta crates)).2

def restored : StoreDisk π :=
  (restoreManifest leads serde trip.copyDir (fun _ => .fine) trip.key trip.copyDisk).2

/-- The trip is one of a script that deletes nothing and changes no directory into a file or back,
with readable entries, and its delta is stored under a new key. -/
structure Proper : Prop where
  beforeWalks : Walks trip.before trip.beforeWalk
  afterWalks : Walks trip.after trip.afterWalk
  beforeReadable : trip.before.Readable
  afterReadable : trip.after.Readable
  kept : ∀ rel old, trip.before rel = some old →
    ∃ node, trip.after rel = some node ∧ (old = .directory ↔ node = .directory)
  keyFree : (trip.captured crates).inodeOf (.entry trip.key) = none
  copied : treeAt trip.copyDisk trip.copyDir = trip.before
  copyInjective : Function.Injective trip.copyDir
  copyEntries : ∀ hash, (trip.stored crates serde).isFile (.entry hash) = true →
    trip.copyDisk.isFile (.entry hash) = true
  copyKey : getBytesByRawKey trip.copyDisk trip.key =
    getBytesByRawKey (trip.stored crates serde) trip.key

end

/-- The inode of the entry that the content of a file is stored in. -/
def entryInode (content : Bytes) : Option Nat :=
  trip.copyDisk.inodeOf (.entry (crates.blake3 content))

/-- A file of the later tree ends on an inode: on that of its entry if it changed, otherwise on the
one that it has in the copy. -/
def EndsOn (rel : ρ) (inode : Nat) : Prop :=
  ∃ content mode, trip.after rel = some (.file content mode) ∧
    (Changed trip.before trip.after rel ∧ trip.entryInode crates content = some inode ∨
      ¬ Changed trip.before trip.after rel ∧
        trip.copyDisk.inodeOf (.path (trip.copyDir rel)) = some inode)

/-- The delta has a text, the entries of its files hold their contents, and files that end on such
an entry's inode have one mode. -/
structure Consistent [DecidableEq π] [DecidableEq ρ] : Prop where
  written : (∀ rel, ¬ Changed trip.before trip.after rel) ∨
    (serde.toVec (trip.delta crates)).isSome
  contents : ∀ rel content mode inode, trip.after rel = some (.file content mode) →
    Changed trip.before trip.after rel → trip.entryInode crates content = some inode →
      (trip.copyDisk.inodes inode).content = content
  modes : ∀ rel content mode inode, trip.after rel = some (.file content mode) →
    Changed trip.before trip.after rel → trip.entryInode crates content = some inode →
      ∀ other otherContent otherMode, trip.after other = some (.file otherContent otherMode) →
        trip.EndsOn crates other inode → permissions otherMode = permissions mode

variable {crates leads serde trip} [DecidableEq π] [DecidableEq ρ]

theorem mem_delta_iff (ideal : crates.Ideal) (proper : trip.Proper crates serde)
    (entry : ManifestEntry ρ) :
    entry ∈ trip.delta crates ↔ ∃ node, trip.after entry.relPath = some node ∧
      entryFor crates entry.relPath node = some entry ∧
        Changed trip.before trip.after entry.relPath := by
  rw [delta, captureDir_manifest crates trip.beforeDir _ proper.beforeReadable,
    captureDir_manifest crates trip.afterDir _ proper.afterReadable]
  refine (mem_diff_iff crates proper.beforeWalks proper.afterWalks entry).trans ?_
  constructor
  · rintro ⟨inAfter, notBefore⟩
    obtain ⟨node, isNode, captured⟩ := Option.bind_eq_some_iff.mp inAfter
    refine ⟨node, isNode, captured, node, isNode, ?_, ?_⟩
    · rintro rfl
      simp [entryFor] at captured
    · intro old isOld alike
      exact notBefore (Option.bind_eq_some_iff.mpr
        ⟨old, isOld, (entryFor_eq_iff ideal captured old).mpr alike⟩)
  · rintro ⟨node, isNode, captured, changedNode, isChanged, _, differs⟩
    obtain rfl := Option.some.inj (isNode.symm.trans isChanged)
    refine ⟨Option.bind_eq_some_iff.mpr ⟨node, isNode, captured⟩, ?_⟩
    intro inBefore
    obtain ⟨old, isOld, same⟩ := Option.bind_eq_some_iff.mp inBefore
    exact differs old isOld ((entryFor_eq_iff ideal captured old).mp same)

omit [DecidableEq ρ] in
theorem exists_entryFor (crates : Crates) (rel : ρ) {node : TreeNode} (isNode : node ≠ .directory) :
    ∃ entry, entryFor crates rel node = some entry := by
  cases node with
  | file content mode => exact ⟨_, rfl⟩
  | symlink target => exact ⟨_, rfl⟩
  | directory => exact absurd rfl isNode

theorem changed_mem_delta (ideal : crates.Ideal) (proper : trip.Proper crates serde) {rel : ρ}
    {node : TreeNode} {entry : ManifestEntry ρ} (isNode : trip.after rel = some node)
    (changed : Changed trip.before trip.after rel)
    (captured : entryFor crates rel node = some entry) : entry ∈ trip.delta crates := by
  have path := relPath_entryFor captured
  rw [mem_delta_iff ideal proper, path]
  exact ⟨node, isNode, captured, changed⟩

theorem delta_eq_nil_iff (ideal : crates.Ideal) (proper : trip.Proper crates serde) :
    trip.delta crates = [] ↔ ∀ rel, ¬ Changed trip.before trip.after rel := by
  constructor
  · intro empty rel changed
    obtain ⟨node, isNode, noDirectory, _⟩ := id changed
    obtain ⟨entry, captured⟩ := exists_entryFor crates rel noDirectory
    have member := changed_mem_delta ideal proper isNode changed captured
    simp [empty] at member
  · intro same
    by_contra nonempty
    obtain ⟨entry, member⟩ := List.exists_mem_of_ne_nil _ nonempty
    obtain ⟨_, _, _, changed⟩ := (mem_delta_iff ideal proper entry).mp member
    exact same entry.relPath changed

omit [DecidableEq π] [DecidableEq ρ] in
theorem alike_of_not_changed {rel : ρ} {node : TreeNode} (isNode : trip.after rel = some node)
    (noDirectory : node ≠ .directory) (same : ¬ Changed trip.before trip.after rel) :
    ∃ old, trip.before rel = some old ∧ Alike old node := by
  by_contra differs
  exact same ⟨node, isNode, noDirectory, fun old isOld alike => differs ⟨old, isOld, alike⟩⟩

omit [DecidableEq π] [DecidableEq ρ] in
theorem not_changed_of_yields (yields : trip.before.Yields trip.after) (rel : ρ) :
    ¬ Changed trip.before trip.after rel := by
  rintro ⟨node, isNode, noDirectory, differs⟩
  have here := yields rel
  rw [isNode] at here
  cases node with
  | file content mode =>
      obtain ⟨old, isOld, alike⟩ := here
      exact differs old isOld alike
  | symlink target =>
      obtain ⟨old, isOld, alike⟩ := here
      exact differs old isOld alike
  | directory => exact noDirectory rfl

/-! The entries of the delta can be restored. -/

theorem file_stored (proper : trip.Proper crates serde) {rel : ρ} {content : Bytes} {mode : Nat}
    (isFile : trip.after rel = some (.file content mode)) :
    trip.copyDisk.isFile (.entry (crates.blake3 content)) = true := by
  have walked : rel ∈ trip.afterWalk := by
    rw [proper.afterWalks.complete, isFile]
    rfl
  have captured : (trip.captured crates).isFile (.entry (crates.blake3 content)) = true :=
    captureDir_stored crates trip.afterDir proper.afterReadable walked isFile
  apply proper.copyEntries
  unfold stored storeManifest
  split
  · exact captured
  · split
    · exact captured
    · rw [Disk.isFile, putBytesKeyed_entry captured]
      exact captured

theorem delta_stored (ideal : crates.Ideal) (proper : trip.Proper crates serde)
    {entry : ManifestEntry ρ} (member : entry ∈ trip.delta crates) (kind : entry.kind = .regular) :
    trip.copyDisk.isFile (.entry entry.contentHash) = true := by
  obtain ⟨node, isNode, captured, _⟩ := (mem_delta_iff ideal proper entry).mp member
  cases node with
  | file content mode =>
      have hash : crates.blake3 content = entry.contentHash :=
        congrArg ManifestEntry.contentHash (Option.some.inj captured)
      rw [← hash]
      exact file_stored proper isNode
  | symlink target =>
      have isLink : FileKind.symlink target = entry.kind :=
        congrArg ManifestEntry.kind (Option.some.inj captured)
      rw [kind] at isLink
      simp at isLink
  | directory => simp [entryFor] at captured

theorem delta_noDirectory (ideal : crates.Ideal) (proper : trip.Proper crates serde)
    {entry : ManifestEntry ρ} (member : entry ∈ trip.delta crates) :
    trip.copyDisk.names (.path (trip.copyDir entry.relPath)) ≠ some .directory := by
  intro isDirectory
  obtain ⟨node, isNode, captured, _⟩ := (mem_delta_iff ideal proper entry).mp member
  have old : trip.before entry.relPath = some .directory := by
    rw [← proper.copied, treeAt, isDirectory]
    rfl
  obtain ⟨other, isOther, kept⟩ := proper.kept _ _ old
  obtain rfl := Option.some.inj (isNode.symm.trans isOther)
  rw [kept.mp rfl] at captured
  simp [entryFor] at captured

/-! What is left of the restore: a delta that has a text is restored, any other leaves the copy. -/

theorem restored_of_written (ideal : crates.Ideal) (lawful : serde.Lawful)
    (proper : trip.Proper crates serde)
    (written : trip.delta crates = [] ∨ (serde.toVec (trip.delta crates)).isSome) :
    Restored trip.copyDir trip.copyDisk (trip.restored leads serde) (trip.delta crates) := by
  by_cases empty : trip.delta crates = []
  · have absent : getBytesByRawKey trip.copyDisk trip.key = some none := by
      rw [proper.copyKey, getBytesByRawKey]
      simp [stored, storeManifest, empty, proper.keyFree]
    have same : trip.restored leads serde = trip.copyDisk := by
      simp [restored, restoreManifest, absent]
    rw [same, empty]
    constructor <;> simp
  · obtain ⟨json, isJson⟩ := Option.isSome_iff_exists.mp (written.resolve_left empty)
    have parsed := lawful.roundTrip _ _ isJson
    have found : getBytesByRawKey trip.copyDisk trip.key = some (some json) := by
      rw [proper.copyKey, getBytesByRawKey]
      simp [stored, storeManifest, empty, isJson, putBytesKeyed, Disk.isFile, proper.keyFree,
        Disk.inodeOf_create, createMode_readable]
    have noSentinel : json ≠ emptySentinel := by
      rintro rfl
      simp [lawful.sentinel] at parsed
    have nodup : ((trip.delta crates).map ManifestEntry.relPath).Nodup := by
      rw [delta, captureDir_manifest crates trip.afterDir _ proper.afterReadable]
      exact diff_nodup crates proper.afterWalks _
    obtain ⟨result, ran, isRestored⟩ := restoreEntries_restored leads proper.copyInjective nodup
      (fun _ member kind => delta_stored ideal proper member kind)
      (fun _ member => delta_noDirectory ideal proper member)
    have same : trip.restored leads serde = result := by
      simp [restored, restoreManifest, found, noSentinel, parsed, ran]
    rw [same]
    exact isRestored

theorem restored_of_unwritten (proper : trip.Proper crates serde)
    (nonempty : trip.delta crates ≠ []) (unwritten : serde.toVec (trip.delta crates) = none) :
    trip.restored leads serde = trip.copyDisk := by
  have nothing : trip.stored crates serde = trip.captured crates := by
    simp [stored, storeManifest, unwritten, nonempty]
  have absent : getBytesByRawKey trip.copyDisk trip.key = some none := by
    rw [proper.copyKey, nothing, getBytesByRawKey, proper.keyFree]
  simp [restored, restoreManifest, absent]

/-! Where the files of the later tree are after the restore. -/

theorem exists_endsOn (proper : trip.Proper crates serde) {rel : ρ} {content : Bytes} {mode : Nat}
    (isFile : trip.after rel = some (.file content mode)) :
    ∃ inode, trip.EndsOn crates rel inode := by
  by_cases changed : Changed trip.before trip.after rel
  · obtain ⟨inode, isEntry⟩ := Option.isSome_iff_exists.mp (file_stored proper isFile)
    exact ⟨inode, content, mode, isFile, Or.inl ⟨changed, isEntry⟩⟩
  · obtain ⟨old, isOld, alike⟩ := alike_of_not_changed isFile (by simp) changed
    rw [← proper.copied, treeAt] at isOld
    obtain ⟨dirent, names, isNode⟩ := Option.map_eq_some_iff.mp isOld
    cases dirent with
    | file inode =>
        exact ⟨inode, content, mode, isFile, Or.inr ⟨changed, by simp [Disk.inodeOf, names,
          Dirent.inode]⟩⟩
    | symlink target => simp [nodeOf, ← isNode, Alike] at alike
    | directory => simp [nodeOf, ← isNode, Alike] at alike

section Places

variable (ideal : crates.Ideal) (proper : trip.Proper crates serde) {result : StoreDisk π}
  (isRestored : Restored trip.copyDir trip.copyDisk result (trip.delta crates))

include ideal proper isRestored

theorem names_of_endsOn {rel : ρ} {inode : Nat} (ends : trip.EndsOn crates rel inode) :
    result.names (.path (trip.copyDir rel)) = some (.file inode) := by
  obtain ⟨content, mode, isFile, ⟨changed, isEntry⟩ | ⟨same, isInode⟩⟩ := ends
  · exact isRestored.regular _ (changed_mem_delta ideal proper isFile changed rfl) rfl inode isEntry
  · rw [isRestored.kept rel fun entry member path => ?_, Disk.names_of_inodeOf isInode]
    obtain ⟨_, _, _, changed⟩ := (mem_delta_iff ideal proper entry).mp member
    exact same (path ▸ changed)

theorem treeAt_of_endsOn {rel : ρ} {inode : Nat} (ends : trip.EndsOn crates rel inode) :
    treeAt result trip.copyDir rel =
      some (.file (trip.copyDisk.inodes inode).content (result.inodes inode).mode) := by
  rw [treeAt, names_of_endsOn ideal proper isRestored ends, ← isRestored.content]
  rfl

theorem contents_of_yields (yields : (treeAt result trip.copyDir).Yields trip.after) {rel : ρ}
    {content : Bytes} {mode inode : Nat} (isFile : trip.after rel = some (.file content mode))
    (ends : trip.EndsOn crates rel inode) :
    (trip.copyDisk.inodes inode).content = content ∧
      permissions (result.inodes inode).mode = permissions mode := by
  have here := yields rel
  rw [isFile] at here
  obtain ⟨found, isFound, alike⟩ := here
  rw [treeAt_of_endsOn ideal proper isRestored ends] at isFound
  obtain rfl := Option.some.inj isFound
  exact alike

theorem mode_of_modes {rel : ρ} {content : Bytes} {mode inode : Nat}
    (modes : ∀ rel content mode inode, trip.after rel = some (.file content mode) →
      Changed trip.before trip.after rel → trip.entryInode crates content = some inode →
        ∀ other otherContent otherMode, trip.after other = some (.file otherContent otherMode) →
          trip.EndsOn crates other inode → permissions otherMode = permissions mode)
    (isFile : trip.after rel = some (.file content mode)) (ends : trip.EndsOn crates rel inode) :
    permissions (result.inodes inode).mode = permissions mode := by
  rcases isRestored.mode inode with ⟨untouched, same⟩ | ⟨entry, member, kind, isEntry, isMode⟩
  · obtain ⟨_, _, isSame, ⟨changed, isEntry⟩ | ⟨unchanged, isInode⟩⟩ := ends
    · exact absurd isEntry (untouched _ (changed_mem_delta ideal proper isSame changed rfl) rfl)
    · obtain ⟨old, isOld, alike⟩ := alike_of_not_changed isFile (by simp) unchanged
      rw [← proper.copied, treeAt, Disk.names_of_inodeOf isInode] at isOld
      obtain rfl := Option.some.inj isOld
      rw [same]
      exact alike.2
  · obtain ⟨node, isNode, captured, changed⟩ := (mem_delta_iff ideal proper entry).mp member
    cases node with
    | file restoredContent restoredMode =>
        have fields := Option.some.inj captured
        have hash : crates.blake3 restoredContent = entry.contentHash :=
          congrArg ManifestEntry.contentHash fields
        have entryMode : permissions restoredMode = entry.mode :=
          congrArg ManifestEntry.mode fields
        rw [← hash] at isEntry
        rw [isMode, ← entryMode, permissions_permissions]
        exact (modes _ _ _ _ isNode changed isEntry _ _ _ isFile ends).symm
    | symlink target =>
        have isLink : FileKind.symlink target = entry.kind :=
          congrArg ManifestEntry.kind (Option.some.inj captured)
        rw [kind] at isLink
        simp at isLink
    | directory => simp [entryFor] at captured

/-- What is no file or link of the later tree has not been touched. -/
theorem untouched_of_absent {rel : ρ} (absent : trip.after rel = none ∨
      trip.after rel = some .directory) {found : TreeNode}
    (isFound : treeAt result trip.copyDir rel = some found) : found = .directory := by
  have fresh : ∀ entry ∈ trip.delta crates, entry.relPath ≠ rel := by
    rintro entry member rfl
    obtain ⟨node, isNode, captured, _⟩ := (mem_delta_iff ideal proper entry).mp member
    rcases absent with none | directory
    · simp [none] at isNode
    · rw [directory] at isNode
      simp [← Option.some.inj isNode, entryFor] at captured
  obtain ⟨dirent, names, isNode⟩ := Option.map_eq_some_iff.mp isFound
  rw [isRestored.kept rel fresh] at names
  have wasThere : trip.before rel = some (nodeOf trip.copyDisk dirent) := by
    rw [← proper.copied, treeAt, names]
    rfl
  obtain ⟨node, isAfter, kept⟩ := proper.kept rel _ wasThere
  rcases absent with none | directory
  · simp [none] at isAfter
  · have isDirectory := kept.mpr (Option.some.inj (isAfter.symm.trans directory))
    cases dirent with
    | file inode => simp [nodeOf] at isDirectory
    | symlink target => simp [nodeOf] at isDirectory
    | directory => exact isNode.symm

theorem link_of_after {rel : ρ} {target : Bytes} (isLink : trip.after rel = some (.symlink target)) :
    treeAt result trip.copyDir rel = some (.symlink target) := by
  by_cases changed : Changed trip.before trip.after rel
  · have names := isRestored.symlink _ (changed_mem_delta ideal proper isLink changed rfl) target rfl
    rw [treeAt, names]
    rfl
  · obtain ⟨old, isOld, alike⟩ := alike_of_not_changed isLink (by simp) changed
    have fresh : ∀ entry ∈ trip.delta crates, entry.relPath ≠ rel := by
      rintro entry member rfl
      obtain ⟨_, _, _, isChanged⟩ := (mem_delta_iff ideal proper entry).mp member
      exact changed isChanged
    rw [← proper.copied, treeAt] at isOld
    obtain ⟨dirent, names, isNode⟩ := Option.map_eq_some_iff.mp isOld
    rw [treeAt, isRestored.kept rel fresh, names]
    cases dirent with
    | file inode => simp [nodeOf, ← isNode, Alike] at alike
    | symlink other =>
        have same : other = target := by simpa [nodeOf, ← isNode, Alike] using alike
        simp [nodeOf, same]
    | directory => simp [nodeOf, ← isNode, Alike] at alike

theorem yields_of_consistent (consistent : trip.Consistent crates serde) :
    (treeAt result trip.copyDir).Yields trip.after := by
  intro rel
  cases isNode : trip.after rel with
  | none => exact fun found isFound =>
      untouched_of_absent ideal proper isRestored (Or.inl isNode) isFound
  | some node =>
      cases node with
      | directory => exact fun found isFound =>
          untouched_of_absent ideal proper isRestored (Or.inr isNode) isFound
      | symlink target => exact ⟨_, link_of_after ideal proper isRestored isNode, rfl⟩
      | file content mode =>
          obtain ⟨inode, ends⟩ := exists_endsOn proper isNode
          refine ⟨_, treeAt_of_endsOn ideal proper isRestored ends, ?_,
            mode_of_modes ideal proper isRestored consistent.modes isNode ends⟩
          obtain ⟨_, _, isSame, ⟨changed, isEntry⟩ | ⟨unchanged, isInode⟩⟩ := ends
          · obtain ⟨rfl, rfl⟩ := TreeNode.file.inj (Option.some.inj (isNode.symm.trans isSame))
            exact consistent.contents rel content mode inode isNode changed isEntry
          · obtain ⟨old, isOld, alike⟩ := alike_of_not_changed isNode (by simp) unchanged
            rw [← proper.copied, treeAt, Disk.names_of_inodeOf isInode] at isOld
            obtain rfl := Option.some.inj isOld
            exact alike.1

end Places

/-- The copy is what the script left, exactly when its trip is consistent. -/
theorem delta_round_trip_iff (ideal : crates.Ideal) (lawful : serde.Lawful)
    (proper : trip.Proper crates serde) :
    (treeAt (trip.restored leads serde) trip.copyDir).Yields trip.after ↔
      trip.Consistent crates serde := by
  by_cases written : trip.delta crates = [] ∨ (serde.toVec (trip.delta crates)).isSome
  · have isRestored : Restored trip.copyDir trip.copyDisk (trip.restored leads serde)
        (trip.delta crates) := restored_of_written ideal lawful proper written
    constructor
    · intro yields
      constructor
      case written => exact written.imp_left (delta_eq_nil_iff ideal proper).mp
      case contents =>
        intro rel content mode inode isFile changed isEntry
        exact (contents_of_yields ideal proper isRestored yields isFile
          ⟨content, mode, isFile, Or.inl ⟨changed, isEntry⟩⟩).1
      case modes =>
        intro rel content mode inode isFile changed isEntry other _ _ isOther ends
        have own := contents_of_yields ideal proper isRestored yields isFile
          ⟨content, mode, isFile, Or.inl ⟨changed, isEntry⟩⟩
        have others := contents_of_yields ideal proper isRestored yields isOther ends
        exact others.2.symm.trans own.2
    · exact yields_of_consistent ideal proper isRestored
  · rw [not_or, Option.not_isSome_iff_eq_none] at written
    have same : trip.restored leads serde = trip.copyDisk :=
      restored_of_unwritten proper written.1 written.2
    constructor
    · intro yields
      rw [same, proper.copied] at yields
      exact absurd ((delta_eq_nil_iff ideal proper).mpr (not_changed_of_yields yields)) written.1
    · intro consistent
      rcases consistent.written with unchanged | isWritten
      · exact absurd ((delta_eq_nil_iff ideal proper).mpr unchanged) written.1
      · simp [written.2] at isWritten

end Trip

/-! A script that leaves two files of one content, the first of them executable. -/

def binFile : Bytes := utf8 "bin"

def libFile : Bytes := utf8 "lib"

def twoFiles : PostinstallManifest Bytes :=
  [⟨binFile, Crates.plain.blake3 (utf8 "x"), 0o755, .regular⟩,
    ⟨libFile, Crates.plain.blake3 (utf8 "x"), 0o644, .regular⟩]

def twoFilesJson : Bytes :=
  utf8 ("[\x7b\"rel_path\":\"bin\",\"content_hash\":[120,255,0]," ++
    "\"mode\":493,\"kind\":\"Regular\"\x7d," ++
    "\x7b\"rel_path\":\"lib\",\"content_hash\":[120,255,0]," ++
    "\"mode\":420,\"kind\":\"Regular\"\x7d]")

def twoFilesSerde : Serde Bytes := literalSerde twoFiles twoFilesJson

theorem twoFilesSerde_lawful : twoFilesSerde.Lawful := literalSerde_lawful _ (by decide +kernel)

/-- Paths are below the directory of the script, or below that of the copy. -/
def twoFilesDisk : StoreDisk (Bool × Bytes) :=
  (Disk.create emptyDisk (.path (false, binFile)) (utf8 "x") 0o755).create (.path (false, libFile))
    (utf8 "x") 0o644

def twoFilesStored : StoreDisk (Bool × Bytes) :=
  putBytesKeyed (captureDir Crates.plain (fun rel => (false, rel)) [binFile, libFile]
    twoFilesDisk).2 taskKey twoFilesJson

def twoFilesTrip : Trip (Bool × Bytes) Bytes where
  beforeDisk := emptyDisk
  beforeDir := fun rel => (false, rel)
  beforeWalk := []
  afterDisk := twoFilesDisk
  afterDir := fun rel => (false, rel)
  afterWalk := [binFile, libFile]
  copyDisk := twoFilesStored
  copyDir := fun rel => (true, rel)
  key := taskKey

theorem twoFiles_after (rel : Bytes) : twoFilesTrip.after rel =
    if rel = libFile then some (.file (utf8 "x") 0o644)
    else if rel = binFile then some (.file (utf8 "x") 0o755) else none := by
  by_cases isLib : rel = libFile
  · rw [isLib]
    decide +kernel
  · by_cases isBin : rel = binFile
    · rw [isBin]
      decide +kernel
    · simp [Trip.after, treeAt, twoFilesTrip, twoFilesDisk, Disk.create, emptyDisk, isLib, isBin]

theorem twoFiles_stored : twoFilesTrip.stored Crates.plain twoFilesSerde = twoFilesStored := by
  have delta : twoFilesTrip.delta Crates.plain = twoFiles := by decide +kernel
  rw [Trip.stored, storeManifest, delta]
  rfl

theorem twoFilesTrip_proper : twoFilesTrip.Proper Crates.plain twoFilesSerde where
  beforeWalks := ⟨List.nodup_nil, fun rel => by simp [Trip.before, treeAt, twoFilesTrip, emptyDisk]⟩
  afterWalks := by
    refine ⟨by decide, fun rel => ?_⟩
    rw [twoFiles_after]
    by_cases isLib : rel = libFile
    · simp [twoFilesTrip, isLib]
    · by_cases isBin : rel = binFile
      · have others : binFile ≠ libFile := by decide
        simp [twoFilesTrip, isBin, others]
      · simp [twoFilesTrip, isLib, isBin]
  beforeReadable := fun rel content mode isFile => by
    simp [Trip.before, treeAt, twoFilesTrip, emptyDisk] at isFile
  afterReadable := by
    intro rel content mode isFile
    rw [twoFiles_after] at isFile
    split at isFile
    · obtain ⟨_, rfl⟩ := TreeNode.file.inj (Option.some.inj isFile)
      decide
    · obtain ⟨_, isMode⟩ := Option.ite_none_right_eq_some.mp isFile
      obtain ⟨_, rfl⟩ := TreeNode.file.inj (Option.some.inj isMode)
      decide
  kept := fun rel old isOld => by simp [Trip.before, treeAt, twoFilesTrip, emptyDisk] at isOld
  keyFree := by decide +kernel
  copied := by
    have untouched : treeAt twoFilesStored twoFilesTrip.copyDir =
        treeAt twoFilesDisk twoFilesTrip.copyDir :=
      (treeAt_putBytesKeyed _ _ _ _).trans (treeAt_captureDir Crates.plain _ _ _ _)
    refine untouched.trans (funext fun rel => ?_)
    simp [Trip.before, treeAt, twoFilesTrip, twoFilesDisk, Disk.create, emptyDisk]
  copyInjective := fun first second same => by simpa [twoFilesTrip] using same
  copyEntries := by
    rw [twoFiles_stored]
    exact fun _ isFile => isFile
  copyKey := by decide +kernel

def linkHere (_ : Bool × Bytes) (target : Bytes) : Bool × Bytes := (false, target)

theorem delta_round_trip_iff_two_files :
    (treeAt (twoFilesTrip.restored linkHere twoFilesSerde) twoFilesTrip.copyDir).Yields
      twoFilesTrip.after ↔ twoFilesTrip.Consistent Crates.plain twoFilesSerde :=
  Trip.delta_round_trip_iff Crates.plain_ideal twoFilesSerde_lawful twoFilesTrip_proper

/-- Both files are restored as links of one entry, and the second mode is set for both. -/
theorem executable_lost :
    twoFilesTrip.Proper Crates.plain twoFilesSerde ∧
    twoFilesTrip.after binFile = some (.file (utf8 "x") 0o755) ∧
    treeAt (twoFilesTrip.restored linkHere twoFilesSerde) twoFilesTrip.copyDir binFile =
      some (.file (utf8 "x") 0o644) ∧
    ¬ (treeAt (twoFilesTrip.restored linkHere twoFilesSerde) twoFilesTrip.copyDir).Yields
      twoFilesTrip.after := by
  have isBin : twoFilesTrip.after binFile = some (.file (utf8 "x") 0o755) := by decide +kernel
  have isRestored : treeAt (twoFilesTrip.restored linkHere twoFilesSerde) twoFilesTrip.copyDir
      binFile = some (.file (utf8 "x") 0o644) := by
    decide +kernel
  refine ⟨twoFilesTrip_proper, isBin, isRestored, ?_⟩
  intro yields
  have here := yields binFile
  rw [isBin] at here
  obtain ⟨found, isFound, alike⟩ := here
  obtain rfl := Option.some.inj (isRestored.symm.trans isFound)
  exact absurd alike.2 (by decide)

end Rage.LinkedStore
