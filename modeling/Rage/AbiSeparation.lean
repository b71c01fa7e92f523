import Rage.Abi
import Rage.PathSpelling
import Rage.StableSort

/-!
What the ABI fingerprint tells apart.  Paths and contents are hashed one after another with nothing
between them.
-/

namespace Rage

/-! The method of the TypeScript plugin, beside the function of the scheduler. -/

structure OutputFile where
  path : Path

def TypeScriptPlugin.abiFingerprint (crates : Crates) (fs : FileSystem)
    (outputs : List OutputFile) : Option Bytes :=
  let dtsPaths := (outputs.map OutputFile.path).filter isDeclarationFile
  if dtsPaths.isEmpty then none
  else
    let sorted := dtsPaths.insertionSort fun first second => Path.le first second
    some (hex (crates.blake3 (sorted.flatMap fun path =>
      match fs.read path with
      | some content => path ++ content
      | none => path)))

theorem TypeScriptPlugin.abiFingerprint_eq (crates : Crates) (fs : FileSystem)
    (outputs : List OutputFile) :
    TypeScriptPlugin.abiFingerprint crates fs outputs =
      computeAbiFingerprintFromOutputs crates fs (outputs.map OutputFile.path) := by
  have pieces : (fun path => match fs.read path with
      | some content => path ++ content
      | none => path) = fun path => path ++ (fs.read path).getD [] := by
    funext path
    cases fs.read path with
    | none => rw [Option.getD_none, List.append_nil]
    | some content => rfl
  simp only [TypeScriptPlugin.abiFingerprint, computeAbiFingerprintFromOutputs, pieces]

/-- The declaration files in the order in which they are hashed, with what reading them gives. -/
def declarations (fs : FileSystem) (files : List Path) : List (Path × Option Bytes) :=
  ((files.filter isDeclarationFile).insertionSort fun first second => Path.le first second).map
    fun path => (path, fs.read path)

def declarationText (declaration : Path × Option Bytes) : Bytes :=
  declaration.1 ++ declaration.2.getD []

/-- The same declaration files with the same contents. -/
def SameDeclarations (fs : FileSystem) (files : List Path) (now : FileSystem)
    (others : List Path) : Prop :=
  ∀ path, isDeclarationFile path = true →
    (path ∈ files ↔ path ∈ others) ∧ (path ∈ files → fs.read path = now.read path)

theorem computeAbi_eq (crates : Crates) (fs : FileSystem) (files : List Path) :
    computeAbiFingerprintFromOutputs crates fs files =
      if declarations fs files = [] then none
      else some (hex (crates.blake3 ((declarations fs files).flatMap declarationText))) := by
  have isEmpty : declarations fs files = [] ↔ (files.filter isDeclarationFile).isEmpty = true := by
    rw [declarations, List.map_eq_nil_iff, List.isEmpty_iff, ← List.length_eq_zero_iff,
      List.length_insertionSort, List.length_eq_zero_iff]
  simp only [computeAbiFingerprintFromOutputs, isEmpty]
  simp only [declarations, List.flatMap_map, declarationText]

theorem mem_declarations {fs : FileSystem} {files : List Path} {declaration : Path × Option Bytes} :
    declaration ∈ declarations fs files ↔ declaration.1 ∈ files ∧
      isDeclarationFile declaration.1 = true ∧ declaration.2 = fs.read declaration.1 := by
  simp only [declarations, List.mem_map, List.mem_insertionSort, List.mem_filter]
  constructor
  · rintro ⟨path, ⟨member, isDts⟩, rfl⟩
    exact ⟨member, isDts, rfl⟩
  · rintro ⟨member, isDts, isRead⟩
    exact ⟨declaration.1, ⟨member, isDts⟩, by rw [← isRead]⟩

theorem declarationText_ne_nil {fs : FileSystem} {files : List Path}
    {declaration : Path × Option Bytes} (member : declaration ∈ declarations fs files) :
    declarationText declaration ≠ [] := by
  intro isEmpty
  have isDts := (mem_declarations.mp member).2.1
  rw [(List.append_eq_nil_iff.mp isEmpty).1] at isDts
  exact absurd isDts (by decide)

theorem declarations_eq_iff {fs now : FileSystem} {files others : List Path}
    (distinct : (files.map components).Nodup) (othersDistinct : (others.map components).Nodup) :
    declarations fs files = declarations now others ↔ SameDeclarations fs files now others := by
  constructor
  · intro same path isDts
    have within (fs : FileSystem) (files : List Path) :
        path ∈ files ↔ (path, fs.read path) ∈ declarations fs files := by
      simp [mem_declarations, isDts]
    constructor
    · constructor
      · intro member
        have listed := (within fs files).mp member
        rw [same] at listed
        exact (mem_declarations.mp listed).1
      · intro member
        have listed := (within now others).mp member
        rw [← same] at listed
        exact (mem_declarations.mp listed).1
    · intro member
      have listed := (within fs files).mp member
      rw [same] at listed
      exact (mem_declarations.mp listed).2.2
  · intro same
    have members (path : Path) : path ∈ files.filter isDeclarationFile ↔
        path ∈ others.filter isDeclarationFile := by
      simp only [List.mem_filter]
      constructor
      · rintro ⟨member, isDts⟩
        exact ⟨(same path isDts).1.mp member, isDts⟩
      · rintro ⟨member, isDts⟩
        exact ⟨(same path isDts).1.mpr member, isDts⟩
    have sorted := StableSort.sort_eq_of_mem_iff componentsLe_antisymm componentsLe_total
      componentsLe_trans (distinct.sublist ((List.filter_sublist).map components))
      (othersDistinct.sublist ((List.filter_sublist).map components)) members
    unfold declarations
    have sortedPaths : (files.filter isDeclarationFile).insertionSort
        (fun first second => Path.le first second) =
      (others.filter isDeclarationFile).insertionSort fun first second => Path.le first second :=
        sorted
    rw [← sortedPaths]
    apply List.map_congr_left
    intro path member
    rw [List.mem_insertionSort, List.mem_filter] at member
    rw [(same path member.2).2 member.1]

/-- One declaration ends where the other one goes on: its content is continued by the declarations
behind it, or its path is continued by its content and them. -/
def GoesOn (first second : Path × Option Bytes) (rest others : List (Path × Option Bytes)) : Prop :=
  (first.1 = second.1 ∧ ∃ more, second.2.getD [] = first.2.getD [] ++ more ∧
    rest.flatMap declarationText = more ++ others.flatMap declarationText) ∨
  ∃ name, name ≠ [] ∧ second.1 = first.1 ++ name ∧
    first.2.getD [] ++ rest.flatMap declarationText =
      name ++ (second.2.getD [] ++ others.flatMap declarationText)

/-- Where the two lists first differ, text has moved over the end of a path or of a content. -/
def BoundaryMoved (left right : List (Path × Option Bytes)) : Prop :=
  ∃ common first rest second others, left = common ++ first :: rest ∧
    right = common ++ second :: others ∧ first ≠ second ∧
    (GoesOn first second rest others ∨ GoesOn second first others rest)

theorem goesOn_of_longer {first second : Path × Option Bytes}
    {rest others : List (Path × Option Bytes)} {name : Bytes} (longer : second.1 = first.1 ++ name)
    (ends : first.2.getD [] ++ rest.flatMap declarationText =
      name ++ (second.2.getD [] ++ others.flatMap declarationText)) :
    GoesOn first second rest others ∨ GoesOn second first others rest := by
  by_cases here : name = []
  · subst here
    rw [List.append_nil] at longer
    rw [List.nil_append] at ends
    rcases List.append_eq_append_iff.mp ends with ⟨more, content, tail⟩ | ⟨more, content, tail⟩
    · exact Or.inl (Or.inl ⟨longer.symm, more, content, tail⟩)
    · exact Or.inr (Or.inl ⟨longer, more, content, tail⟩)
  · exact Or.inl (Or.inr ⟨name, here, longer, ends⟩)

theorem GoesOn.same_text {first second : Path × Option Bytes}
    {rest others : List (Path × Option Bytes)} (goesOn : GoesOn first second rest others) :
    declarationText first ++ rest.flatMap declarationText =
      declarationText second ++ others.flatMap declarationText := by
  rcases goesOn with ⟨path, more, content, tail⟩ | ⟨name, _, path, tail⟩
  · simp [declarationText, path, content, tail]
  · simp [declarationText, path, tail]

theorem goesOn_iff (first second : Path × Option Bytes) (rest others : List (Path × Option Bytes)) :
    declarationText first ++ rest.flatMap declarationText =
        declarationText second ++ others.flatMap declarationText ↔
      GoesOn first second rest others ∨ GoesOn second first others rest := by
  constructor
  · intro same
    simp only [declarationText, List.append_assoc] at same
    rcases List.append_eq_append_iff.mp same with ⟨name, longer, ends⟩ | ⟨name, longer, ends⟩
    · exact goesOn_of_longer longer ends
    · exact (goesOn_of_longer longer ends).symm
  · rintro (goesOn | goesOn)
    · exact goesOn.same_text
    · exact goesOn.same_text.symm

theorem recut_iff_boundaryMoved (left right : List (Path × Option Bytes)) :
    Framing.Recut declarationText left right ↔ BoundaryMoved left right := by
  simp only [Framing.Recut, BoundaryMoved, goesOn_iff]

theorem computeAbi_eq_iff {crates : Crates} (ideal : crates.Ideal) (fs now : FileSystem)
    (files others : List Path) :
    computeAbiFingerprintFromOutputs crates fs files =
        computeAbiFingerprintFromOutputs crates now others ↔
      declarations fs files = declarations now others ∨
        BoundaryMoved (declarations fs files) (declarations now others) := by
  rw [← recut_iff_boundaryMoved, ← Framing.flatMap_eq_iff declarationText _ _
    (fun _ => declarationText_ne_nil) fun _ => declarationText_ne_nil, computeAbi_eq, computeAbi_eq]
  have filled {fs : FileSystem} {files : List Path} (some_ : declarations fs files ≠ []) :
      (declarations fs files).flatMap declarationText ≠ [] := by
    intro isEmpty
    obtain ⟨declaration, member⟩ := List.exists_mem_of_ne_nil _ some_
    exact declarationText_ne_nil member (List.flatMap_eq_nil_iff.mp isEmpty declaration member)
  by_cases none_ : declarations fs files = []
  · by_cases noneNow : declarations now others = []
    · simp [none_, noneNow]
    · simp [none_, noneNow, (filled noneNow).symm]
  · by_cases noneNow : declarations now others = []
    · simp [none_, noneNow, filled none_]
    · rw [if_neg none_, if_neg noneNow, Option.some.injEq]
      constructor
      · intro same
        exact ideal.injective (hex_injective same)
      · intro same
        rw [same]

theorem abi_separates_iff {crates : Crates} (ideal : crates.Ideal) (fs now : FileSystem)
    (files others : List Path) (distinct : (files.map components).Nodup)
    (othersDistinct : (others.map components).Nodup) :
    ((computeAbiFingerprintFromOutputs crates fs files =
        computeAbiFingerprintFromOutputs crates now others →
        SameDeclarations fs files now others) ↔
      ¬ BoundaryMoved (declarations fs files) (declarations now others)) ∧
    ∀ outputs, outputs.map OutputFile.path = files →
      TypeScriptPlugin.abiFingerprint crates fs outputs =
        computeAbiFingerprintFromOutputs crates fs files := by
  refine ⟨?_, ?_⟩
  · rw [computeAbi_eq_iff ideal, ← declarations_eq_iff distinct othersDistinct,
      ← recut_iff_boundaryMoved]
    constructor
    · intro separates recut
      exact recut.ne (separates (Or.inr recut))
    · rintro apart (same | recut)
      · exact same
      · exact (apart recut).elim
  · rintro outputs rfl
    exact TypeScriptPlugin.abiFingerprint_eq crates fs outputs

/-! Two packages' worth of declaration files that are hashed alike. -/

namespace MovedText

def first : Path := utf8 "/p/a.d.ts"

def second : Path := utf8 "/p/b.d.ts"

def before : FileSystem :=
  ⟨[(components first, ⟨.file [] true, false⟩), (components second, ⟨.file (utf8 "X") true, false⟩)]⟩

def after : FileSystem :=
  ⟨[(components first, ⟨.file (utf8 "/p/b.d.tsX") true, false⟩)]⟩

end MovedText

open MovedText in
theorem abi_separates_iff_moved :
    ((computeAbiFingerprintFromOutputs .plain before [first, second] =
        computeAbiFingerprintFromOutputs .plain after [first] →
        SameDeclarations before [first, second] after [first]) ↔
      ¬ BoundaryMoved (declarations before [first, second]) (declarations after [first])) ∧
    ∀ outputs, outputs.map OutputFile.path = [first, second] →
      TypeScriptPlugin.abiFingerprint .plain before outputs =
        computeAbiFingerprintFromOutputs .plain before [first, second] :=
  abi_separates_iff Crates.plain_ideal before after [first, second] [first] (by decide) (by decide)

/-- The text of the second file has become the content of the first one. -/
theorem abi_misses_removed_file :
    ¬ ∀ (crates : Crates), crates.Ideal → ∀ (fs now : FileSystem) (files others : List Path),
      (files.map components).Nodup → (others.map components).Nodup →
      computeAbiFingerprintFromOutputs crates fs files =
        computeAbiFingerprintFromOutputs crates now others →
      SameDeclarations fs files now others := by
  intro claimed
  have same := claimed .plain Crates.plain_ideal MovedText.before MovedText.after
    [MovedText.first, MovedText.second] [MovedText.first] (by decide) (by decide)
    (by decide +kernel) MovedText.second (by decide)
  exact absurd (same.1.mp (by simp)) (by decide)

end Rage
