import Mathlib.Data.List.Basic

/-!
Streams of self-delimiting records.  A hash sees only the concatenation of the
pieces it is fed, so an argument that equal digests mean equal inputs needs the
concatenation to determine the pieces.
-/

namespace Rage.Framing

variable {α ρ : Type}

/-- No encoding from `left` can start the same stream as a different one from `right`. -/
def Unambiguous (encode : ρ → List α) (left right : List ρ) : Prop :=
  ∀ first ∈ left, ∀ second ∈ right, ∀ restLeft restRight,
    encode first ++ restLeft = encode second ++ restRight → first = second

theorem flatMap_injective (encode : ρ → List α) (nonempty : ∀ record, encode record ≠ [])
    (left right : List ρ) (unambiguous : Unambiguous encode left right)
    (same : left.flatMap encode = right.flatMap encode) : left = right := by
  induction left generalizing right with
  | nil =>
      cases right with
      | nil => rfl
      | cons second rest =>
          simp only [List.flatMap_nil, List.flatMap_cons] at same
          exact (nonempty second (List.append_eq_nil_iff.mp same.symm).1).elim
  | cons first rest ih =>
      cases right with
      | nil =>
          simp only [List.flatMap_nil, List.flatMap_cons] at same
          exact (nonempty first (List.append_eq_nil_iff.mp same).1).elim
      | cons second others =>
          simp only [List.flatMap_cons] at same
          have heads : first = second :=
            unambiguous first (by simp) second (by simp) _ _ same
          subst second
          have tails := List.append_cancel_left same
          rw [ih others (fun x mx y my => unambiguous x (by simp [mx]) y (by simp [my])) tails]

theorem split_at_first {separator : α} {field other rest more : List α}
    (fieldFree : separator ∉ field) (otherFree : separator ∉ other)
    (same : field ++ separator :: rest = other ++ separator :: more) :
    field = other ∧ rest = more := by
  induction field generalizing other with
  | nil =>
      cases other with
      | nil => simpa using same
      | cons head tail =>
          simp only [List.nil_append, List.cons_append, List.cons.injEq] at same
          exact (otherFree (by simp [same.1])).elim
  | cons head tail ih =>
      cases other with
      | nil =>
          simp only [List.nil_append, List.cons_append, List.cons.injEq] at same
          exact (fieldFree (by simp [same.1])).elim
      | cons otherHead otherTail =>
          simp only [List.cons_append, List.cons.injEq] at same
          have tails := ih (fun m => fieldFree (by simp [m])) (fun m => otherFree (by simp [m])) same.2
          exact ⟨by rw [same.1, tails.1], tails.2⟩

theorem split_at_separator {separator : α} {field other rest more : List α}
    (fieldApart : ¬ field ++ [separator] <+: other) (otherApart : ¬ other ++ [separator] <+: field)
    (same : field ++ separator :: rest = other ++ separator :: more) :
    field = other ∧ rest = more := by
  have continues {short long tail : List α} {extra : List α}
      (extends_ : long = short ++ extra) (starts : separator :: tail = extra ++ separator :: more ∨
        separator :: tail = extra ++ separator :: rest) (nonempty : extra ≠ []) :
      short ++ [separator] <+: long := by
    cases extra with
    | nil => exact (nonempty rfl).elim
    | cons head remaining =>
        have isSeparator : separator = head := by
          rcases starts with starts | starts <;>
            simp only [List.cons_append, List.cons.injEq] at starts <;> exact starts.1
        exact ⟨remaining, by rw [extends_, isSeparator]; simp⟩
  rcases List.append_eq_append_iff.mp same with ⟨extra, longer, starts⟩ | ⟨extra, longer, starts⟩
  · by_cases empty : extra = []
    · subst extra
      simpa [eq_comm] using And.intro longer starts
    · exact (fieldApart (continues longer (Or.inl starts) empty)).elim
  · by_cases empty : extra = []
    · subst extra
      simpa [eq_comm] using And.intro longer starts
    · exact (otherApart (continues longer (Or.inr starts) empty)).elim

theorem split_at_last {separator : α} {field other before earlier : List α}
    (fieldFree : separator ∉ field) (otherFree : separator ∉ other)
    (same : before ++ separator :: field = earlier ++ separator :: other) :
    before = earlier ∧ field = other := by
  have mirrored : field.reverse ++ separator :: before.reverse =
      other.reverse ++ separator :: earlier.reverse := by
    have reversed := congrArg List.reverse same
    simpa using reversed
  have parts := split_at_first (by simpa using fieldFree) (by simpa using otherFree) mirrored
  exact ⟨List.reverse_injective parts.2, List.reverse_injective parts.1⟩

theorem terminated_unambiguous (terminator : α) (left right : List (List α))
    (leftFree : ∀ field ∈ left, terminator ∉ field)
    (rightFree : ∀ field ∈ right, terminator ∉ field) :
    Unambiguous (fun field => field ++ [terminator]) left right := by
  intro first firstMem second secondMem restLeft restRight same
  simp only [List.append_assoc, List.singleton_append] at same
  exact (split_at_first (leftFree first firstMem) (rightFree second secondMem) same).1

theorem lines_injective (terminator : α) (left right : List (List α))
    (leftFree : ∀ field ∈ left, terminator ∉ field)
    (rightFree : ∀ field ∈ right, terminator ∉ field)
    (same : left.flatMap (fun field => field ++ [terminator]) =
      right.flatMap (fun field => field ++ [terminator])) : left = right :=
  flatMap_injective _ (by simp) left right
    (terminated_unambiguous terminator left right leftFree rightFree) same

/-- Two adjacent blocks of records can be told apart by any test that separates them. -/
theorem append_injective_of_class (test : ρ → Bool) {left right other others : List ρ}
    (leftIn : ∀ x ∈ left, test x = true) (rightOut : ∀ x ∈ right, test x = false)
    (otherIn : ∀ x ∈ other, test x = true) (othersOut : ∀ x ∈ others, test x = false)
    (same : left ++ right = other ++ others) : left = other ∧ right = others := by
  have kept (xs ys : List ρ) (xsIn : ∀ x ∈ xs, test x = true) (ysOut : ∀ x ∈ ys, test x = false) :
      (xs ++ ys).filter test = xs := by
    rw [List.filter_append, List.filter_eq_self.mpr xsIn,
      List.filter_eq_nil_iff.mpr (by simpa using ysOut), List.append_nil]
  have heads : left = other := by
    rw [← kept left right leftIn rightOut, same, kept other others otherIn othersOut]
  subst other
  exact ⟨rfl, List.append_cancel_left same⟩

theorem map_injective_on {β : Type} (f : ρ → β) (left right : List ρ)
    (injective : ∀ x ∈ left, ∀ y ∈ right, f x = f y → x = y)
    (same : left.map f = right.map f) : left = right := by
  induction left generalizing right with
  | nil => simpa using same.symm
  | cons first rest ih =>
      cases right with
      | nil => simp at same
      | cons second others =>
          simp only [List.map_cons, List.cons.injEq] at same
          have heads := injective first (by simp) second (by simp) same.1
          rw [heads, ih others (fun x mx y my => injective x (by simp [mx]) y (by simp [my])) same.2]

/-- Two lists of records give one stream although they differ: at the first difference, what the
one goes on with is what the other goes on with. -/
def Recut (encode : ρ → List α) (left right : List ρ) : Prop :=
  ∃ common first rest second others, left = common ++ first :: rest ∧
    right = common ++ second :: others ∧ first ≠ second ∧
    encode first ++ rest.flatMap encode = encode second ++ others.flatMap encode

theorem Recut.ne {encode : ρ → List α} {left right : List ρ} (recut : Recut encode left right) :
    left ≠ right := by
  obtain ⟨common, first, rest, second, others, rfl, rfl, differ, _⟩ := recut
  simp [differ]

theorem flatMap_eq_iff (encode : ρ → List α) (left right : List ρ)
    (leftFilled : ∀ record ∈ left, encode record ≠ [])
    (rightFilled : ∀ record ∈ right, encode record ≠ []) :
    left.flatMap encode = right.flatMap encode ↔ left = right ∨ Recut encode left right := by
  constructor
  · intro same
    induction left generalizing right with
    | nil =>
        cases right with
        | nil => exact Or.inl rfl
        | cons second others =>
            simp only [List.flatMap_nil, List.flatMap_cons] at same
            exact (rightFilled second (by simp) (List.append_eq_nil_iff.mp same.symm).1).elim
    | cons first rest ih =>
        cases right with
        | nil =>
            simp only [List.flatMap_nil, List.flatMap_cons] at same
            exact (leftFilled first (by simp) (List.append_eq_nil_iff.mp same).1).elim
        | cons second others =>
            simp only [List.flatMap_cons] at same
            by_cases heads : first = second
            · subst second
              have tails := ih others (fun record member => leftFilled record (by simp [member]))
                (fun record member => rightFilled record (by simp [member]))
                (List.append_cancel_left same)
              rcases tails with rfl | recut
              · exact Or.inl rfl
              · obtain ⟨common, one, rest, other, others, rfl, rfl, differ, goesOn⟩ := recut
                exact Or.inr ⟨first :: common, one, rest, other, others, rfl, rfl, differ, goesOn⟩
            · exact Or.inr ⟨[], first, rest, second, others, rfl, rfl, heads, same⟩
  · rintro (rfl | ⟨common, first, rest, second, others, rfl, rfl, _, goesOn⟩)
    · rfl
    · simp only [List.flatMap_append, List.flatMap_cons, goesOn]

/-- A record of one list goes on, behind a terminator, with the records that the other list has
behind the shorter one. -/
def MovedTerminator (terminator : α) (left right : List (List α)) : Prop :=
  ∃ common first rest second others more, left = common ++ first :: rest ∧
    right = common ++ second :: others ∧
    ((second = first ++ terminator :: more ∧
      rest.flatMap (fun field => field ++ [terminator]) =
        more ++ terminator :: others.flatMap fun field => field ++ [terminator]) ∨
    (first = second ++ terminator :: more ∧
      others.flatMap (fun field => field ++ [terminator]) =
        more ++ terminator :: rest.flatMap fun field => field ++ [terminator]))

theorem goes_on_behind {terminator : α} {longer shorter extra rest others : List α}
    (differ : shorter ≠ longer) (extends_ : longer = shorter ++ extra)
    (ends : terminator :: rest = extra ++ terminator :: others) :
    ∃ more, longer = shorter ++ terminator :: more ∧ rest = more ++ terminator :: others := by
  cases extra with
  | nil => exact (differ (by simpa using extends_.symm)).elim
  | cons head more =>
      simp only [List.cons_append, List.cons.injEq] at ends
      obtain ⟨rfl, tail⟩ := ends
      exact ⟨more, extends_, tail⟩

theorem recut_lines_iff (terminator : α) (left right : List (List α)) :
    Recut (fun field => field ++ [terminator]) left right ↔
      MovedTerminator terminator left right := by
  constructor
  · rintro ⟨common, first, rest, second, others, isLeft, isRight, differ, same⟩
    simp only [List.append_assoc, List.singleton_append] at same
    rcases List.append_eq_append_iff.mp same with ⟨extra, longer, ends⟩ | ⟨extra, longer, ends⟩
    · obtain ⟨more, longer, tail⟩ := goes_on_behind differ longer ends
      exact ⟨common, first, rest, second, others, more, isLeft, isRight, Or.inl ⟨longer, tail⟩⟩
    · obtain ⟨more, longer, tail⟩ := goes_on_behind differ.symm longer ends
      exact ⟨common, first, rest, second, others, more, isLeft, isRight, Or.inr ⟨longer, tail⟩⟩
  · rintro ⟨common, first, rest, second, others, more, isLeft, isRight, ⟨rfl, tail⟩ | ⟨rfl, tail⟩⟩
    · exact ⟨common, first, rest, _, others, isLeft, isRight, by simp, by simp [tail]⟩
    · exact ⟨common, _, rest, second, others, isLeft, isRight, by simp, by simp [tail]⟩

theorem not_movedTerminator (terminator : α) {left right : List (List α)}
    (leftFree : ∀ field ∈ left, terminator ∉ field)
    (rightFree : ∀ field ∈ right, terminator ∉ field) :
    ¬ MovedTerminator terminator left right := by
  rintro ⟨common, first, rest, second, others, more, rfl, rfl, ⟨rfl, _⟩ | ⟨rfl, _⟩⟩
  · exact rightFree (first ++ terminator :: more) (by simp) (by simp)
  · exact leftFree (second ++ terminator :: more) (by simp) (by simp)

end Rage.Framing
