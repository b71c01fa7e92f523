import Mathlib.Logic.Function.Basic

/-!
Disks whose names lead to inodes.  Hard links are names of one inode: what is written through one of
them is read through all, while a removal or a rename changes names only.
-/

namespace Rage.Inodes

structure Inode (γ : Type) where
  content : γ
  mode : Nat
  deriving DecidableEq

inductive Dirent (τ : Type)
  | file (inode : Nat)
  | symlink (target : τ)
  | directory
  deriving DecidableEq

def Dirent.inode {τ : Type} : Dirent τ → Option Nat
  | .file inode => some inode
  | _ => none

/-- The inodes from `fresh` on were never used. -/
structure Disk (κ γ τ : Type) where
  names : κ → Option (Dirent τ)
  inodes : Nat → Inode γ
  fresh : Nat
  allocated : ∀ name inode, (names name).bind Dirent.inode = some inode → inode < fresh

namespace Disk

variable {κ γ τ : Type}

def inodeOf (disk : Disk κ γ τ) (name : κ) : Option Nat := (disk.names name).bind Dirent.inode

def isFile (disk : Disk κ γ τ) (name : κ) : Bool := (disk.inodeOf name).isSome

def read (disk : Disk κ γ τ) (name : κ) : Option γ :=
  (disk.inodeOf name).map fun inode => (disk.inodes inode).content

def overwrite (disk : Disk κ γ τ) (inode : Nat) (new : Inode γ) : Disk κ γ τ :=
  { disk with inodes := Function.update disk.inodes inode new }

def setContent (disk : Disk κ γ τ) (inode : Nat) (content : γ) : Disk κ γ τ :=
  disk.overwrite inode { disk.inodes inode with content := content }

def setMode (disk : Disk κ γ τ) (inode mode : Nat) : Disk κ γ τ :=
  disk.overwrite inode { disk.inodes inode with mode := mode }

section Names

variable [DecidableEq κ]

def setName (disk : Disk κ γ τ) (name : κ) (entry : Option (Dirent τ))
    (below : ∀ inode, entry.bind Dirent.inode = some inode → inode < disk.fresh) :
    Disk κ γ τ where
  names := Function.update disk.names name entry
  inodes := disk.inodes
  fresh := disk.fresh
  allocated := by
    intro other inode isInode
    by_cases here : other = name
    · exact below inode (by simpa [here] using isInode)
    · exact disk.allocated other inode (by simpa [here] using isInode)

def remove (disk : Disk κ γ τ) (name : κ) : Disk κ γ τ :=
  disk.setName name none (by simp)

def symlink (disk : Disk κ γ τ) (name : κ) (target : τ) : Disk κ γ τ :=
  disk.setName name (some (.symlink target)) (by simp [Dirent.inode])

def makeDirectory (disk : Disk κ γ τ) (name : κ) : Disk κ γ τ :=
  disk.setName name (some .directory) (by simp [Dirent.inode])

/-- One more name for what `source` is the name of. -/
def link (disk : Disk κ γ τ) (source target : κ) : Disk κ γ τ :=
  disk.setName target (disk.names source) (disk.allocated source)

def rename (disk : Disk κ γ τ) (source target : κ) : Disk κ γ τ :=
  (disk.link source target).remove source

/-- A new file, under a name that has none or instead of the one it has. -/
def create (disk : Disk κ γ τ) (name : κ) (content : γ) (mode : Nat) : Disk κ γ τ where
  names := Function.update disk.names name (some (.file disk.fresh))
  inodes := Function.update disk.inodes disk.fresh ⟨content, mode⟩
  fresh := disk.fresh + 1
  allocated := by
    intro other inode isInode
    by_cases here : other = name
    · have isFresh : disk.fresh = inode := by simpa [here, Dirent.inode] using isInode
      omega
    · have old := disk.allocated other inode (by simpa [here] using isInode)
      omega

end Names

/-! What an operation leaves as it is. -/

section Frames

variable (disk : Disk κ γ τ)

variable {disk} in
theorem names_of_inodeOf {name : κ} {inode : Nat} (isInode : disk.inodeOf name = some inode) :
    disk.names name = some (.file inode) := by
  obtain ⟨entry, names, isEntry⟩ := Option.bind_eq_some_iff.mp isInode
  cases entry with
  | file other => rw [names, Option.some.inj isEntry]
  | symlink target => simp [Dirent.inode] at isEntry
  | directory => simp [Dirent.inode] at isEntry

@[simp] theorem names_overwrite (inode : Nat) (new : Inode γ) :
    (disk.overwrite inode new).names = disk.names := rfl

@[simp] theorem inodeOf_overwrite (inode : Nat) (new : Inode γ) (name : κ) :
    (disk.overwrite inode new).inodeOf name = disk.inodeOf name := rfl

@[simp] theorem inodes_overwrite_self (inode : Nat) (new : Inode γ) :
    (disk.overwrite inode new).inodes inode = new := by
  simp [overwrite]

theorem inodes_overwrite_of_ne {inode other : Nat} (apart : other ≠ inode) (new : Inode γ) :
    (disk.overwrite inode new).inodes other = disk.inodes other := by
  simp [overwrite, apart]

@[simp] theorem overwrite_overwrite (inode : Nat) (first second : Inode γ) :
    (disk.overwrite inode first).overwrite inode second = disk.overwrite inode second := by
  simp [overwrite]

variable [DecidableEq κ]

theorem inodeOf_setName (changed : κ) (entry : Option (Dirent τ)) (below) (name : κ) :
    (disk.setName changed entry below).inodeOf name =
      if name = changed then entry.bind Dirent.inode else disk.inodeOf name := by
  unfold inodeOf setName
  by_cases here : name = changed
  · simp [here]
  · simp [here]

theorem inodeOf_remove (changed name : κ) :
    (disk.remove changed).inodeOf name = if name = changed then none else disk.inodeOf name :=
  disk.inodeOf_setName changed none _ name

theorem inodeOf_symlink (changed : κ) (target : τ) (name : κ) :
    (disk.symlink changed target).inodeOf name =
      if name = changed then none else disk.inodeOf name :=
  disk.inodeOf_setName changed (some (.symlink target)) _ name

theorem inodeOf_makeDirectory (changed name : κ) :
    (disk.makeDirectory changed).inodeOf name =
      if name = changed then none else disk.inodeOf name :=
  disk.inodeOf_setName changed (some .directory) _ name

theorem inodeOf_link (source target name : κ) :
    (disk.link source target).inodeOf name =
      if name = target then disk.inodeOf source else disk.inodeOf name :=
  disk.inodeOf_setName target (disk.names source) _ name

@[simp] theorem inodes_remove (name : κ) : (disk.remove name).inodes = disk.inodes := rfl

@[simp] theorem inodes_link (source target : κ) :
    (disk.link source target).inodes = disk.inodes := rfl

@[simp] theorem inodes_rename (source target : κ) :
    (disk.rename source target).inodes = disk.inodes := rfl

theorem inodeOf_create (changed : κ) (content : γ) (mode : Nat) (name : κ) :
    (disk.create changed content mode).inodeOf name =
      if name = changed then some disk.fresh else disk.inodeOf name := by
  unfold inodeOf create
  by_cases here : name = changed
  · simp [here, Dirent.inode]
  · simp [here]

theorem inodes_create_of_ne {inode : Nat} (apart : inode ≠ disk.fresh) (name : κ) (content : γ)
    (mode : Nat) : (disk.create name content mode).inodes inode = disk.inodes inode := by
  simp [create, apart]

@[simp] theorem inodes_create_fresh (name : κ) (content : γ) (mode : Nat) :
    (disk.create name content mode).inodes disk.fresh = ⟨content, mode⟩ := by
  simp [create]

end Frames

/-! No two names of one inode. -/

def Distinct (disk : Disk κ γ τ) : Prop :=
  ∀ first second inode, disk.inodeOf first = some inode → disk.inodeOf second = some inode →
    first = second

section Names

variable {disk : Disk κ γ τ} [DecidableEq κ] (distinct : disk.Distinct)

include distinct

theorem Distinct.remove (name : κ) : (disk.remove name).Distinct := by
  intro first second inode isFirst isSecond
  rw [inodeOf_remove] at isFirst isSecond
  split at isFirst
  · simp at isFirst
  · split at isSecond
    · simp at isSecond
    · exact distinct first second inode isFirst isSecond

theorem Distinct.create (name : κ) (content : γ) (mode : Nat) :
    (disk.create name content mode).Distinct := by
  intro first second inode isFirst isSecond
  rw [inodeOf_create] at isFirst isSecond
  split at isFirst
  · split at isSecond
    · simp_all
    · have below := disk.allocated _ _ isSecond
      simp only [Option.some.injEq] at isFirst
      omega
  · split at isSecond
    · have below := disk.allocated _ _ isFirst
      simp only [Option.some.injEq] at isSecond
      omega
    · exact distinct first second inode isFirst isSecond

theorem Distinct.rename (source target : κ) : (disk.rename source target).Distinct := by
  intro first second inode isFirst isSecond
  simp only [Disk.rename, inodeOf_remove, inodeOf_link] at isFirst isSecond
  grind [Distinct]

end Names

/-! A property of names and of the files they lead to. -/

def Holds (property : κ → Inode γ → Prop) (disk : Disk κ γ τ) : Prop :=
  ∀ name inode, disk.inodeOf name = some inode → property name (disk.inodes inode)

variable {disk : Disk κ γ τ} {property : κ → Inode γ → Prop}

/-- A write in place goes through all names of the inode. -/
theorem overwrite_holds_iff (holds : disk.Holds property) (inode : Nat) (new : Inode γ) :
    (disk.overwrite inode new).Holds property ↔
      ∀ name, disk.inodeOf name = some inode → property name new := by
  constructor
  · intro after name isInode
    have written := after name inode isInode
    rwa [inodes_overwrite_self] at written
  · intro written name other isOther
    by_cases here : other = inode
    · rw [here, inodes_overwrite_self]
      exact written name (here ▸ isOther)
    · rw [inodes_overwrite_of_ne disk here]
      exact holds name other isOther

section Names

variable [DecidableEq κ]

theorem Holds.setName (holds : disk.Holds property) {name : κ} {entry : Option (Dirent τ)} {below}
    (new : ∀ inode, entry.bind Dirent.inode = some inode → property name (disk.inodes inode)) :
    (disk.setName name entry below).Holds property := by
  intro other inode isInode
  rw [inodeOf_setName] at isInode
  split at isInode
  · rename_i here
    rw [here]
    exact new inode isInode
  · exact holds other inode isInode

theorem Holds.remove (holds : disk.Holds property) (name : κ) :
    (disk.remove name).Holds property :=
  holds.setName (by simp)

theorem Holds.symlink (holds : disk.Holds property) (name : κ) (target : τ) :
    (disk.symlink name target).Holds property :=
  holds.setName (by simp [Dirent.inode])

theorem Holds.makeDirectory (holds : disk.Holds property) (name : κ) :
    (disk.makeDirectory name).Holds property :=
  holds.setName (by simp [Dirent.inode])

theorem Holds.link (holds : disk.Holds property) {source target : κ}
    (new : ∀ inode, disk.inodeOf source = some inode → property target (disk.inodes inode)) :
    (disk.link source target).Holds property :=
  holds.setName new

theorem Holds.create (holds : disk.Holds property) {name : κ} {content : γ} {mode : Nat}
    (new : property name ⟨content, mode⟩) : (disk.create name content mode).Holds property := by
  intro other inode isInode
  rw [inodeOf_create] at isInode
  split at isInode
  · rename_i here
    obtain rfl := Option.some.inj isInode
    rw [inodes_create_fresh, here]
    exact new
  · have apart : inode ≠ disk.fresh := Nat.ne_of_lt (disk.allocated other inode isInode)
    rw [inodes_create_of_ne disk apart]
    exact holds other inode isInode

end Names

end Disk

end Rage.Inodes
