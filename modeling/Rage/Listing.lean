import Mathlib.Data.List.Nodup

/-!
A directory as a walk gets to see it: its entries in some order, and below a directory the entries
of that directory.
-/

namespace Rage

inductive Listing (ν δ φ : Type)
  | done
  | leaf (name : ν) (here : φ) (rest : Listing ν δ φ)
  | directory (name : ν) (dir : δ) (inner rest : Listing ν δ φ)

namespace Listing

variable {ν δ φ : Type}

/-- A leaf with its path from the top, and what is known of the directories on the path. -/
structure Found (ν δ φ : Type) where
  names : List ν
  above : List δ
  leaf : φ

def Found.under (name : ν) (dir : δ) (found : Found ν δ φ) : Found ν δ φ :=
  ⟨name :: found.names, dir :: found.above, found.leaf⟩

def leaves : Listing ν δ φ → List (Found ν δ φ)
  | .done => []
  | .leaf name here rest => ⟨[name], [], here⟩ :: rest.leaves
  | .directory name dir inner rest => inner.leaves.map (Found.under name dir) ++ rest.leaves

def names : Listing ν δ φ → List ν
  | .done => []
  | .leaf name _ rest => name :: rest.names
  | .directory name _ _ rest => name :: rest.names

/-- The directories below the top, with their paths. -/
def directories : Listing ν δ φ → List (List ν)
  | .done => []
  | .leaf _ _ rest => rest.directories
  | .directory name _ inner rest =>
      [name] :: (inner.directories.map (name :: ·) ++ rest.directories)

/-- A directory lists a name once. -/
def Lawful : Listing ν δ φ → Prop
  | .done => True
  | .leaf name _ rest => name ∉ rest.names ∧ rest.Lawful
  | .directory name _ inner rest => name ∉ rest.names ∧ inner.Lawful ∧ rest.Lawful

theorem names_of_found {listing : Listing ν δ φ} {found : Found ν δ φ}
    (member : found ∈ listing.leaves) : ∃ name rest, found.names = name :: rest ∧
      name ∈ listing.names := by
  induction listing generalizing found with
  | done => simp [leaves] at member
  | leaf name here rest ih =>
      rcases List.mem_cons.mp member with rfl | later
      · exact ⟨name, [], rfl, List.mem_cons_self⟩
      · obtain ⟨first, others, isNames, listed⟩ := ih later
        exact ⟨first, others, isNames, List.mem_cons_of_mem _ listed⟩
  | directory name dir inner rest _ ih =>
      rcases List.mem_append.mp member with within | later
      · obtain ⟨below, _, rfl⟩ := List.mem_map.mp within
        exact ⟨name, below.names, rfl, List.mem_cons_self⟩
      · obtain ⟨first, others, isNames, listed⟩ := ih later
        exact ⟨first, others, isNames, List.mem_cons_of_mem _ listed⟩

/-- A path leads to one leaf. -/
theorem Lawful.distinct {listing : Listing ν δ φ} (lawful : listing.Lawful) :
    (listing.leaves.map Found.names).Nodup := by
  induction listing with
  | done => exact List.nodup_nil
  | leaf name here rest ih =>
      refine List.nodup_cons.mpr ⟨fun member => lawful.1 ?_, ih lawful.2⟩
      obtain ⟨found, later, isNames⟩ := List.mem_map.mp member
      obtain ⟨first, others, split, listed⟩ := names_of_found later
      rw [split] at isNames
      rwa [(List.cons.inj isNames).1] at listed
  | directory name dir inner rest ihInner ihRest =>
      obtain ⟨fresh, innerLawful, restLawful⟩ := lawful
      have below : (inner.leaves.map (Found.under name dir)).map Found.names =
          (inner.leaves.map Found.names).map (name :: ·) := by
        simp [Found.under, Function.comp_def]
      rw [leaves, List.map_append, below]
      refine List.Nodup.append ?_ (ihRest restLawful) ?_
      · exact (ihInner innerLawful).map fun _ _ same => (List.cons.inj same).2
      · intro path within later
        obtain ⟨others, _, rfl⟩ := List.mem_map.mp within
        obtain ⟨found, member, isNames⟩ := List.mem_map.mp later
        obtain ⟨first, _, split, listed⟩ := names_of_found member
        rw [split] at isNames
        rw [(List.cons.inj isNames).1] at listed
        exact fresh listed

theorem Lawful.eq_of_names {listing : Listing ν δ φ} (lawful : listing.Lawful)
    {first second : Found ν δ φ} (firstFound : first ∈ listing.leaves)
    (secondFound : second ∈ listing.leaves) (same : first.names = second.names) : first = second :=
  List.inj_on_of_nodup_map lawful.distinct firstFound secondFound same

theorem names_of_directory {listing : Listing ν δ φ} {path : List ν}
    (member : path ∈ listing.directories) : ∃ name rest, path = name :: rest ∧
      name ∈ listing.names := by
  induction listing generalizing path with
  | done => simp [directories] at member
  | leaf name here rest ih =>
      obtain ⟨first, others, isNames, listed⟩ := ih member
      exact ⟨first, others, isNames, List.mem_cons_of_mem _ listed⟩
  | directory name dir inner rest _ ih =>
      rcases List.mem_cons.mp member with rfl | below
      · exact ⟨name, [], rfl, List.mem_cons_self⟩
      · rcases List.mem_append.mp below with within | later
        · obtain ⟨others, _, rfl⟩ := List.mem_map.mp within
          exact ⟨name, others, rfl, List.mem_cons_self⟩
        · obtain ⟨first, others, isNames, listed⟩ := ih later
          exact ⟨first, others, isNames, List.mem_cons_of_mem _ listed⟩

/-- What lies above a leaf is a directory. -/
theorem above_leaf {listing : Listing ν δ φ} {found : Found ν δ φ}
    (member : found ∈ listing.leaves) {path : List ν} (filled : path ≠ [])
    (above : path <+: found.names) (apart : path ≠ found.names) : path ∈ listing.directories := by
  induction listing generalizing found path with
  | done => simp [leaves] at member
  | leaf name here rest ih =>
      rcases List.mem_cons.mp member with rfl | later
      · obtain ⟨first, others, rfl⟩ := List.exists_cons_of_ne_nil filled
        obtain ⟨rfl, isNil⟩ := List.cons_prefix_cons.mp above
        exact (apart (by rw [List.prefix_nil.mp isNil])).elim
      · exact ih later filled above apart
  | directory name dir inner rest ihInner ihRest =>
      rcases List.mem_append.mp member with within | later
      · obtain ⟨below, isLeaf, rfl⟩ := List.mem_map.mp within
        obtain ⟨first, others, rfl⟩ := List.exists_cons_of_ne_nil filled
        obtain ⟨rfl, isAbove⟩ := List.cons_prefix_cons.mp above
        by_cases isNil : others = []
        · rw [isNil]
          exact List.mem_cons_self
        · have inDirectories := ihInner isLeaf isNil isAbove fun same => apart (by rw [same]; rfl)
          exact List.mem_cons_of_mem _
            (List.mem_append_left _ (List.mem_map_of_mem inDirectories))
      · exact List.mem_cons_of_mem _
          (List.mem_append_right _ (ihRest later filled above apart))

/-- No leaf is a directory. -/
theorem Lawful.leaf_no_directory {listing : Listing ν δ φ} (lawful : listing.Lawful)
    {found : Found ν δ φ} (member : found ∈ listing.leaves) :
    found.names ∉ listing.directories := by
  intro isDirectory
  induction listing generalizing found with
  | done => simp [leaves] at member
  | leaf name here rest ih =>
      obtain ⟨fresh, restLawful⟩ := lawful
      rcases List.mem_cons.mp member with rfl | later
      · have later : [name] ∈ rest.directories := isDirectory
        obtain ⟨first, others, isNames, listed⟩ := names_of_directory later
        exact fresh ((List.cons.inj isNames).1 ▸ listed)
      · exact ih restLawful later isDirectory
  | directory name dir inner rest ihInner ihRest =>
      obtain ⟨fresh, innerLawful, restLawful⟩ := lawful
      rcases List.mem_append.mp member with within | later
      · obtain ⟨below, isLeaf, rfl⟩ := List.mem_map.mp within
        rcases List.mem_cons.mp isDirectory with isTop | isBelow
        · obtain ⟨first, others, isNames, _⟩ := names_of_found isLeaf
          simp [Found.under, isNames] at isTop
        · rcases List.mem_append.mp isBelow with isInner | isRest
          · obtain ⟨others, isOthers, same⟩ := List.mem_map.mp isInner
            exact ihInner innerLawful isLeaf ((List.cons.inj same).2 ▸ isOthers)
          · obtain ⟨first, others, isNames, listed⟩ := names_of_directory isRest
            exact fresh ((List.cons.inj isNames).1 ▸ listed)
      · obtain ⟨first, others, isNames, listed⟩ := names_of_found later
        rw [isNames] at isDirectory
        rcases List.mem_cons.mp isDirectory with isTop | isBelow
        · exact fresh ((List.cons.inj isTop).1 ▸ listed)
        · rcases List.mem_append.mp isBelow with isInner | isRest
          · obtain ⟨inside, _, same⟩ := List.mem_map.mp isInner
            exact fresh ((List.cons.inj same).1 ▸ listed)
          · exact ihRest restLawful later (isNames ▸ isRest)

/-- Nothing lies below a leaf. -/
theorem Lawful.leaf_last {listing : Listing ν δ φ} (lawful : listing.Lawful)
    {found : Found ν δ φ} (member : found ∈ listing.leaves) :
    ∀ other ∈ listing.leaves, found.names <+: other.names → found.names = other.names := by
  intro other isOther above
  induction listing generalizing found other with
  | done => simp [leaves] at member
  | leaf name here rest ih =>
      obtain ⟨fresh, restLawful⟩ := lawful
      rcases List.mem_cons.mp member with rfl | later
      · rcases List.mem_cons.mp isOther with rfl | isLater
        · rfl
        · obtain ⟨first, others, isNames, listed⟩ := names_of_found isLater
          rw [isNames] at above
          exact (fresh ((List.cons_prefix_cons.mp above).1 ▸ listed)).elim
      · rcases List.mem_cons.mp isOther with rfl | isLater
        · obtain ⟨first, others, isNames, listed⟩ := names_of_found later
          rw [isNames] at above
          exact (fresh ((List.cons_prefix_cons.mp above).1 ▸ listed)).elim
        · exact ih restLawful later other isLater above
  | directory name dir inner rest ihInner ihRest =>
      obtain ⟨fresh, innerLawful, restLawful⟩ := lawful
      rcases List.mem_append.mp member with within | later
      · obtain ⟨below, isLeaf, rfl⟩ := List.mem_map.mp within
        rcases List.mem_append.mp isOther with isInner | isRest
        · obtain ⟨otherBelow, isOtherLeaf, rfl⟩ := List.mem_map.mp isInner
          have same := ihInner innerLawful isLeaf otherBelow isOtherLeaf
            (List.cons_prefix_cons.mp above).2
          exact congrArg (name :: ·) same
        · obtain ⟨first, others, isNames, listed⟩ := names_of_found isRest
          rw [isNames] at above
          exact (fresh ((List.cons_prefix_cons.mp above).1 ▸ listed)).elim
      · rcases List.mem_append.mp isOther with isInner | isRest
        · obtain ⟨first, others, isNames, listed⟩ := names_of_found later
          obtain ⟨otherBelow, _, rfl⟩ := List.mem_map.mp isInner
          rw [isNames] at above
          exact (fresh ((List.cons_prefix_cons.mp above).1 ▸ listed)).elim
        · exact ihRest restLawful later other isRest above

end Listing

end Rage
