import Mathlib.Algebra.GroupWithZero.Nat
import Rage.FileSystem

/-!
Paths and their spellings.  Two paths are equal when their components are; the bytes between the
components may differ.
-/

namespace Rage

/-- The component that a part between slashes gives, behind the first one. -/
def Component.ofPart (part : Bytes) : Option Component :=
  if part = [] ∨ part = utf8 "." then none
  else if part = utf8 ".." then some .parentDir
  else some (.normal part)

def leadingComponent (path : Path) : List Component :=
  if path.head? = some slash then [.rootDir]
  else if (path.splitOn slash).head? = some (utf8 ".") then [.curDir]
  else []

theorem components_eq (path : Path) :
    components path = leadingComponent path ++ (path.splitOn slash).filterMap Component.ofPart := by
  unfold leadingComponent
  simp only [components]
  split
  · rfl
  · split
    · rfl
    · rfl

theorem Path.eq_iff {first second : Path} :
    Path.eq first second = true ↔ components first = components second := by
  simp [Path.eq]

/-- A set of paths into which a path goes unless an equal one is there names the path as well. -/
theorem names_insert {paths inserted : List Path} {fresh path : Path}
    (members : ∀ other, other ∈ inserted ↔ other ∈ paths ∨ other = fresh) :
    (∃ kept ∈ if paths.any (Path.eq fresh) then paths else inserted, Path.eq kept path = true) ↔
      (∃ kept ∈ paths, Path.eq kept path = true) ∨ Path.eq fresh path = true := by
  split
  · rename_i present
    obtain ⟨kept, member, same⟩ := List.any_eq_true.mp present
    constructor
    · exact Or.inl
    · rintro (old | equal)
      · exact old
      · refine ⟨kept, member, ?_⟩
        rw [Path.eq_iff] at same equal ⊢
        rw [← same, equal]
  · simp only [members, or_and_right, exists_or, exists_eq_left]

/-! `Path::strip_prefix`. -/

def Component.text : Component → Bytes
  | .rootDir => utf8 "/"
  | .curDir => utf8 "."
  | .parentDir => utf8 ".."
  | .normal name => name

def Path.stripPrefix (path base : Path) : Option Path :=
  if components base <+: components path then
    some (joinNames (((components path).drop (components base).length).map Component.text))
  else none

/-! The colons of a path are those of its components. -/

def Component.colons : Component → Nat
  | .normal name => name.count colon
  | _ => 0

theorem count_splitOn (path : Path) :
    path.count colon = ((path.splitOn slash).map (List.count colon)).sum := by
  induction path with
  | nil => rfl
  | cons byte rest ih =>
      rw [List.splitOn_cons_eq_if_modifyHead]
      by_cases isSlash : byte = slash
      · rw [isSlash, List.count_cons_of_ne (by decide), ih]
        simp
      · obtain ⟨part, parts, isSplit⟩ := List.exists_cons_of_ne_nil (List.splitOn_ne_nil slash rest)
        simp only [isSplit, List.map_cons, List.sum_cons] at ih
        simp only [beq_iff_eq, isSlash, if_false, isSplit, List.modifyHead_cons, List.map_cons,
          List.sum_cons, List.count_cons, ih]
        omega

theorem count_ofPart (part : Bytes) :
    part.count colon = ((Component.ofPart part).map Component.colons).getD 0 := by
  unfold Component.ofPart
  split
  · rename_i dropped
    rcases dropped with rfl | rfl
    · rfl
    · decide
  · split
    · rename_i isParent
      subst isParent
      decide
    · rfl

theorem count_components (path : Path) :
    path.count colon = ((components path).map Component.colons).sum := by
  have leading : ((leadingComponent path).map Component.colons).sum = 0 := by
    unfold leadingComponent
    split
    · rfl
    · split
      · rfl
      · rfl
  rw [components_eq, List.map_append, List.sum_append, leading, Nat.zero_add, count_splitOn]
  induction path.splitOn slash with
  | nil => rfl
  | cons part parts ih =>
      rw [List.map_cons, List.sum_cons, ih, count_ofPart]
      cases isComponent : Component.ofPart part with
      | none => simp [isComponent]
      | some component => simp [isComponent]

/-- Equal paths do not go on behind a colon. -/
theorem not_colon_of_eq {first second : Path} (same : Path.eq first second = true) :
    ¬ first ++ [colon] <+: second := by
  rintro ⟨rest, rfl⟩
  have counts := count_components first
  rw [Path.eq_iff.mp same, ← count_components] at counts
  simp at counts

/-! Joining a path to a base, and a name to the first component. -/

theorem components_relative {path : Path} (relative : path.head? ≠ some slash)
    (plain : (path.splitOn slash).head? ≠ some (utf8 ".")) :
    components path = (path.splitOn slash).filterMap Component.ofPart := by
  rw [components_eq, leadingComponent, if_neg relative, if_neg plain, List.nil_append]

theorem head?_splitOn_append (base rest : Path) :
    ((base ++ slash :: rest).splitOn slash).head? = (base.splitOn slash).head? := by
  rw [List.splitOn_append_cons_self, List.head?_append_of_ne_nil _ (List.splitOn_ne_nil slash base)]

theorem components_append_slash {base rest : Path} (filled : base ≠ []) :
    components (base ++ slash :: rest) =
      components base ++ (rest.splitOn slash).filterMap Component.ofPart := by
  rw [components_eq, components_eq base, List.splitOn_append_cons_self, List.filterMap_append,
    ← List.append_assoc]
  congr 2
  unfold leadingComponent
  rw [head?_splitOn_append, List.head?_append_of_ne_nil _ filled]

theorem components_join (base : Path) {path : Path} (relative : path.head? ≠ some slash)
    (plain : (path.splitOn slash).head? ≠ some (utf8 ".")) :
    components (Path.join base path) = components base ++ components path := by
  rw [components_relative relative plain, Path.join, if_neg relative]
  by_cases isEmpty : base = []
  · subst base
    rw [if_pos (Or.inl rfl), List.nil_append, components_relative relative plain]
    rfl
  · by_cases ended : base.getLast? = some slash
    · rw [if_pos (Or.inr ended)]
      obtain ⟨start, rfl⟩ := List.getLast?_eq_some_iff.mp ended
      rw [List.append_assoc, List.singleton_append]
      by_cases root : start = []
      · subst start
        rw [components_eq, components_eq ([] ++ [slash])]
        have noMore : (([] ++ [slash] : Path).splitOn slash).filterMap Component.ofPart = [] := rfl
        have split : (([] ++ slash :: path : Path).splitOn slash) = [] :: path.splitOn slash :=
          List.splitOn_append_cons_self [] path
        rw [noMore, split, List.append_nil]
        rfl
      · rw [components_append_slash root, components_append_slash root]
        simp [Component.ofPart]
    · rw [if_neg (by simp [isEmpty, ended]), components_append_slash isEmpty]

theorem splitOn_append {α : Type} [DecidableEq α] {separator : α} {front rest : List α}
    (absent : separator ∉ front) :
    (front ++ rest).splitOn separator = (rest.splitOn separator).modifyHead (front ++ ·) := by
  induction front with
  | nil =>
      rw [List.nil_append]
      cases rest.splitOn separator with
      | nil => rfl
      | cons part parts => rfl
  | cons head front ih =>
      have isOther : (head == separator) = false := by
        simpa using fun same : head = separator => absent (by simp [same])
      rw [List.cons_append, List.splitOn_cons_eq_if_modifyHead, isOther,
        ih fun member => absent (List.mem_cons_of_mem _ member)]
      simp [Function.comp_def]

/-! Paths are ordered by their components. -/

theorem Component.lt_iff (first second : Component) : first.lt second = true ↔
    first.rank < second.rank ∨
      ∃ name other, first = .normal name ∧ second = .normal other ∧ name < other := by
  cases first <;> cases second <;> simp [Component.lt, Component.rank]

theorem Component.lt_irrefl (component : Component) : component.lt component = false := by
  cases component with
  | normal name => simp [Component.lt]
  | rootDir => rfl
  | curDir => rfl
  | parentDir => rfl

theorem Component.lt_trans {first second third : Component} (lower : first.lt second = true)
    (upper : second.lt third = true) : first.lt third = true := by
  rw [Component.lt_iff] at lower upper ⊢
  rcases lower with below | ⟨name, other, rfl, rfl, below⟩
  · rcases upper with above | ⟨other, last, rfl, rfl, _⟩
    · exact Or.inl (below.trans above)
    · exact Or.inl below
  · rcases upper with above | ⟨_, last, same, rfl, above⟩
    · exact Or.inl above
    · obtain rfl := Component.normal.inj same
      exact Or.inr ⟨name, last, rfl, rfl, List.lt_trans below above⟩

theorem Component.eq_of_rank {first second : Component} (same : first.rank = second.rank) :
    first = second ∨ ∃ name other, first = .normal name ∧ second = .normal other := by
  cases first <;> cases second <;> simp_all [Component.rank]

theorem Component.lt_or_eq_or_gt (first second : Component) :
    first.lt second = true ∨ first = second ∨ second.lt first = true := by
  rw [Component.lt_iff, Component.lt_iff]
  rcases Nat.lt_trichotomy first.rank second.rank with below | same | above
  · exact Or.inl (Or.inl below)
  · rcases Component.eq_of_rank same with equal | ⟨name, other, rfl, rfl⟩
    · exact Or.inr (Or.inl equal)
    · rcases Std.lt_trichotomy name other with below | equal | above
      · exact Or.inl (Or.inr ⟨name, other, rfl, rfl, below⟩)
      · exact Or.inr (Or.inl (by rw [equal]))
      · exact Or.inr (Or.inr (Or.inr ⟨other, name, rfl, rfl, above⟩))
  · exact Or.inr (Or.inr (Or.inl above))

theorem componentsLe_append (front rest others : List Component) :
    componentsLe (front ++ rest) (front ++ others) = componentsLe rest others := by
  induction front with
  | nil => rfl
  | cons component front ih => simp [componentsLe, ih]

theorem componentsLe_total (first second : List Component) :
    componentsLe first second = true ∨ componentsLe second first = true := by
  induction first generalizing second with
  | nil => exact Or.inl rfl
  | cons head rest ih =>
      cases second with
      | nil => exact Or.inr rfl
      | cons other others =>
          simp only [componentsLe]
          by_cases same : head = other
          · simpa [same] using ih others
          · simp only [same, Ne.symm same, if_false]
            rcases Component.lt_or_eq_or_gt head other with before | equal | after
            · exact Or.inl before
            · exact (same equal).elim
            · exact Or.inr after

theorem componentsLe_antisymm (first second : List Component)
    (lower : componentsLe first second = true) (upper : componentsLe second first = true) :
    first = second := by
  induction first generalizing second with
  | nil =>
      cases second with
      | nil => rfl
      | cons other others => simp [componentsLe] at upper
  | cons head rest ih =>
      cases second with
      | nil => simp [componentsLe] at lower
      | cons other others =>
          simp only [componentsLe] at lower upper
          by_cases same : head = other
          · subst same
            simp only [if_true] at lower upper
            rw [ih others lower upper]
          · simp only [same, Ne.symm same, if_false] at lower upper
            have loop := Component.lt_trans lower upper
            rw [Component.lt_irrefl] at loop
            simp at loop

theorem componentsLe_trans (first second third : List Component)
    (lower : componentsLe first second = true) (upper : componentsLe second third = true) :
    componentsLe first third = true := by
  induction first generalizing second third with
  | nil => rfl
  | cons head rest ih =>
      cases second with
      | nil => simp [componentsLe] at lower
      | cons middle middles =>
          cases third with
          | nil => simp [componentsLe] at upper
          | cons last lasts =>
              simp only [componentsLe] at lower upper ⊢
              by_cases same : head = middle
              · subst same
                by_cases sameLast : head = last
                · subst sameLast
                  simp only [if_true] at lower upper ⊢
                  exact ih middles lasts lower upper
                · simpa only [sameLast, if_false] using upper
              · simp only [same, if_false] at lower
                by_cases sameLast : middle = last
                · subst sameLast
                  simpa only [same, if_false] using lower
                · simp only [sameLast, if_false] at upper
                  have below := Component.lt_trans lower upper
                  have apart : head ≠ last := by
                    rintro rfl
                    rw [Component.lt_irrefl] at below
                    simp at below
                  simpa only [apart, if_false] using below

end Rage
