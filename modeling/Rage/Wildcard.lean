import Mathlib.Data.List.Infix

/-!
Patterns with wildcards over any alphabet.  A wildcard stands for any run of symbols; every other
symbol of a pattern stands for one symbol, in a sense that is a parameter.
-/

namespace Rage.Wildcard

variable {π α : Type} {single : π → α → Prop}

/-- `none` is the wildcard. -/
inductive Matches (single : π → α → Prop) : List (Option π) → List α → Prop
  | nil : Matches single [] []
  | literal {symbol : π} {x : α} {rest : List (Option π)} {xs : List α} (here : single symbol x)
      (behind : Matches single rest xs) : Matches single (some symbol :: rest) (x :: xs)
  | skip {rest : List (Option π)} {xs : List α} (behind : Matches single rest xs) :
      Matches single (none :: rest) xs
  | take {rest : List (Option π)} {x : α} {xs : List α} (behind : Matches single (none :: rest) xs) :
      Matches single (none :: rest) (x :: xs)

theorem nil_iff {xs : List α} : Matches single [] xs ↔ xs = [] := by
  constructor
  · intro within
    cases within
    rfl
  · rintro rfl
    exact .nil

theorem literal_nil {symbol : π} {rest : List (Option π)} :
    ¬ Matches single (some symbol :: rest) [] := by
  rintro ⟨⟩

theorem literal_cons_iff {symbol : π} {rest : List (Option π)} {x : α} {xs : List α} :
    Matches single (some symbol :: rest) (x :: xs) ↔ single symbol x ∧ Matches single rest xs := by
  constructor
  · rintro ⟨⟩
    rename_i here behind
    exact ⟨here, behind⟩
  · rintro ⟨here, behind⟩
    exact .literal here behind

theorem wildcard_append {rest : List (Option π)} (run : List α) {xs : List α}
    (behind : Matches single (none :: rest) xs) : Matches single (none :: rest) (run ++ xs) := by
  induction run with
  | nil => exact behind
  | cons x run ih => exact .take ih

theorem wildcard_iff {rest : List (Option π)} {xs : List α} :
    Matches single (none :: rest) xs ↔ ∃ suffix, suffix <:+ xs ∧ Matches single rest suffix := by
  constructor
  · intro within
    induction xs with
    | nil =>
        cases within with
        | skip behind => exact ⟨[], List.suffix_rfl, behind⟩
    | cons x xs ih =>
        cases within with
        | skip behind => exact ⟨x :: xs, List.suffix_rfl, behind⟩
        | take behind =>
            obtain ⟨suffix, isSuffix, later⟩ := ih behind
            exact ⟨suffix, isSuffix.trans (List.suffix_cons x xs), later⟩
  · rintro ⟨suffix, ⟨run, rfl⟩, behind⟩
    exact wildcard_append run (.skip behind)

theorem wildcard_only (xs : List α) : Matches single [none] xs :=
  wildcard_iff.mpr ⟨[], List.nil_suffix, .nil⟩

/-- Wildcards side by side are one. -/
theorem wildcard_twice {rest : List (Option π)} {xs : List α} :
    Matches single (none :: none :: rest) xs ↔ Matches single (none :: rest) xs := by
  rw [wildcard_iff]
  constructor
  · rintro ⟨suffix, ⟨run, rfl⟩, behind⟩
    exact wildcard_append run behind
  · intro within
    exact ⟨xs, List.suffix_rfl, within⟩

/-! Patterns whose symbols stand for themselves. -/

section Literal

variable {text part : List α} {rest : List (Option α)}

theorem part_append_iff :
    Matches Eq (part.map some ++ rest) text ↔ ∃ more, text = part ++ more ∧ Matches Eq rest more := by
  induction part generalizing text with
  | nil => simp
  | cons x part ih =>
      cases text with
      | nil => simp [literal_nil]
      | cons y text =>
          simp only [List.map_cons, List.cons_append, literal_cons_iff, ih, List.cons.injEq]
          constructor
          · rintro ⟨rfl, more, rfl, behind⟩
            exact ⟨more, ⟨rfl, rfl⟩, behind⟩
          · rintro ⟨more, ⟨rfl, rfl⟩, behind⟩
            exact ⟨rfl, more, rfl, behind⟩

theorem part_iff : Matches Eq (part.map some) text ↔ text = part := by
  have split : Matches Eq (part.map some ++ []) text ↔
      ∃ more, text = part ++ more ∧ Matches Eq [] more := part_append_iff
  simpa [nil_iff] using split

theorem last_part_iff : Matches Eq (none :: part.map some) text ↔ part <:+ text := by
  simp only [wildcard_iff, part_iff, exists_eq_right]

/-- Behind a wildcard the first occurrence of a part is as good as any other: it leaves the most
for the next wildcard. -/
theorem inner_part_iff {remaining : List α}
    (found : ∃ front, text = front ++ (part ++ remaining))
    (first : ∀ front more, text = front ++ (part ++ more) → more <:+ remaining) :
    Matches Eq (none :: (part.map some ++ none :: rest)) text ↔
      Matches Eq (none :: rest) remaining := by
  rw [wildcard_iff]
  constructor
  · rintro ⟨suffix, ⟨front, rfl⟩, within⟩
    obtain ⟨more, rfl, behind⟩ := part_append_iff.mp within
    obtain ⟨run, rfl⟩ := first front more rfl
    exact wildcard_append run behind
  · intro behind
    obtain ⟨front, rfl⟩ := found
    exact ⟨part ++ remaining, List.suffix_append front _, part_append_iff.mpr ⟨remaining, rfl, behind⟩⟩

theorem no_inner_part (absent : ¬ part <:+: text) :
    ¬ Matches Eq (none :: (part.map some ++ rest)) text := by
  rw [wildcard_iff]
  rintro ⟨suffix, ⟨front, rfl⟩, within⟩
  obtain ⟨more, rfl, _⟩ := part_append_iff.mp within
  exact absent ⟨front, more, by simp⟩

end Literal

/-! A text in which one symbol is written for the wildcard. -/

section Written

def ofText [DecidableEq α] (star : α) (text : List α) : List (Option α) :=
  text.map fun symbol => if symbol = star then none else some symbol

/-- The parts with a wildcard between each two. -/
def joined : List (List α) → List (Option α)
  | [] => []
  | [part] => part.map some
  | part :: next :: parts => part.map some ++ none :: joined (next :: parts)

theorem joined_cons {part : List α} {parts : List (List α)} (filled : parts ≠ []) :
    joined (part :: parts) = part.map some ++ none :: joined parts := by
  cases parts with
  | nil => exact (filled rfl).elim
  | cons next parts => rfl

theorem joined_modifyHead (symbol : α) {parts : List (List α)} (filled : parts ≠ []) :
    joined (parts.modifyHead (symbol :: ·)) = some symbol :: joined parts := by
  cases parts with
  | nil => exact (filled rfl).elim
  | cons part parts =>
      cases parts with
      | nil => rfl
      | cons next parts => rfl

theorem joined_splitOn [DecidableEq α] (star : α) (text : List α) : joined (text.splitOn star) = ofText star text := by
  induction text with
  | nil => rfl
  | cons symbol text ih =>
      rw [List.splitOn_cons_eq_if_modifyHead]
      by_cases isStar : symbol = star
      · simp only [isStar, beq_self_eq_true, if_true, joined_cons (List.splitOn_ne_nil star text), ih]
        simp [ofText]
      · simp only [beq_iff_eq, isStar, if_false,
          joined_modifyHead symbol (List.splitOn_ne_nil star text), ih]
        simp [ofText, isStar]

end Written

end Rage.Wildcard
