import Mathlib.Data.List.Infix

/-!
Patterns as a backtracking matcher tries them, over any alphabet: the leftmost position wins, and
at one position the first way to match in the order in which they are tried.
-/

namespace Rage.Regex

variable {α κ β : Type}

inductive Pattern (α κ : Type)
  | text (part : List α)
  | one (accepts : α → Bool)
  | many (accepts : α → Bool)
  | optional (pattern : Pattern α κ)
  | sequence (first second : Pattern α κ)
  | group (name : κ) (pattern : Pattern α κ)

abbrev Groups (α κ : Type) := List (κ × List α)

/-- `[..]+` takes as much as it can, and at least one symbol. -/
def runMany (accepts : α → Bool) (next : List α → Option β) : List α → Option β
  | [] => none
  | x :: xs => if accepts x then (runMany accepts next xs).or (next xs) else none

/-- The first match at the start of a text from which `next` goes on. -/
def Pattern.run [DecidableEq α] : Pattern α κ → Groups α κ → List α →
    (Groups α κ → List α → Option β) → Option β
  | .text part, groups, xs, next =>
      if part <+: xs then next groups (xs.drop part.length) else none
  | .one _, _, [], _ => none
  | .one accepts, groups, x :: xs, next => if accepts x then next groups xs else none
  | .many accepts, groups, xs, next => runMany accepts (next groups) xs
  | .optional pattern, groups, xs, next => (pattern.run groups xs next).or (next groups xs)
  | .sequence first second, groups, xs, next =>
      first.run groups xs fun groups rest => second.run groups rest next
  | .group name pattern, groups, xs, next =>
      pattern.run groups xs fun groups rest =>
        next (groups ++ [(name, xs.take (xs.length - rest.length))]) rest

def Pattern.runHere [DecidableEq α] (pattern : Pattern α κ) (xs : List α) : Option (Groups α κ) :=
  pattern.run [] xs fun groups _ => some groups

def Pattern.captures [DecidableEq α] (pattern : Pattern α κ) : List α → Option (Groups α κ)
  | [] => pattern.runHere []
  | x :: xs => (pattern.runHere (x :: xs)).or (pattern.captures xs)

/-! A class before something that no symbol of the class starts is not tried twice. -/

theorem runMany_eq {accepts : α → Bool} {next : List α → Option β}
    (stuck : ∀ x xs, accepts x = true → next (x :: xs) = none) (xs : List α) :
    runMany accepts next xs =
      if xs.takeWhile accepts = [] then none else next (xs.dropWhile accepts) := by
  induction xs with
  | nil => rfl
  | cons x xs ih =>
      rw [runMany]
      cases accepted : accepts x with
      | false => simp [accepted]
      | true =>
          rw [if_pos rfl, ih, List.takeWhile_cons_of_pos accepted, if_neg (List.cons_ne_nil _ _),
            List.dropWhile_cons_of_pos accepted]
          cases xs with
          | nil => rfl
          | cons y ys =>
              cases again : accepts y with
              | false => simp [again]
              | true => simp [again, stuck y ys again]

/-! A class that stops at the start of what follows. -/

theorem takeWhile_append_stop {accepts : α → Bool} {rest : List α}
    (stops : ∀ x ∈ rest.head?, accepts x = false) (xs : List α) :
    (xs ++ rest).takeWhile accepts = xs.takeWhile accepts := by
  induction xs with
  | nil =>
      cases rest with
      | nil => rfl
      | cons x rest => exact List.takeWhile_cons_of_neg (by simp [stops x rfl])
  | cons x xs ih =>
      rw [List.cons_append, List.takeWhile_cons, List.takeWhile_cons, ih]

theorem dropWhile_append_stop {accepts : α → Bool} {rest : List α}
    (stops : ∀ x ∈ rest.head?, accepts x = false) (xs : List α) :
    (xs ++ rest).dropWhile accepts = xs.dropWhile accepts ++ rest := by
  induction xs with
  | nil =>
      cases rest with
      | nil => rfl
      | cons x rest => exact List.dropWhile_cons_of_neg (by simp [stops x rfl])
  | cons x xs ih =>
      rw [List.cons_append, List.dropWhile_cons, List.dropWhile_cons, ih]
      cases accepts x with
      | false => rfl
      | true => rfl

theorem runMany_append {accepts : α → Bool} {next : List α → Option β} {xs rest : List α}
    (stuck : ∀ x xs, accepts x = true → next (x :: xs) = none)
    (stops : ∀ x ∈ rest.head?, accepts x = false) :
    runMany accepts next (xs ++ rest) =
      if xs.takeWhile accepts = [] then none else next (xs.dropWhile accepts ++ rest) := by
  rw [runMany_eq stuck, takeWhile_append_stop stops, dropWhile_append_stop stops]

/-- What a pattern took from the front of a text. -/
theorem take_behind {front behind xs : List α} (isWhole : xs = front ++ behind) :
    xs.take (xs.length - behind.length) = front := by
  rw [isWhole, List.length_append, Nat.add_sub_cancel, List.take_left]

section Text

variable [DecidableEq α] {groups : Groups α κ} {next : Groups α κ → List α → Option β}

@[simp] theorem run_text {part xs : List α} : (Pattern.text part).run groups xs next =
    if part <+: xs then next groups (xs.drop part.length) else none := by
  rw [Pattern.run]

@[simp] theorem run_one_cons {accepts : α → Bool} {x : α} {xs : List α} :
    (Pattern.one accepts).run groups (x :: xs) next =
      if accepts x then next groups xs else none := by
  rw [Pattern.run]

@[simp] theorem run_optional {pattern : Pattern α κ} {xs : List α} :
    pattern.optional.run groups xs next =
      (pattern.run groups xs next).or (next groups xs) := by
  rw [Pattern.run]

@[simp] theorem run_sequence {first second : Pattern α κ} {xs : List α} :
    (first.sequence second).run groups xs next =
      first.run groups xs fun groups rest => second.run groups rest next := by
  rw [Pattern.run]

@[simp] theorem run_group {name : κ} {pattern : Pattern α κ} {xs : List α} :
    (pattern.group name).run groups xs next = pattern.run groups xs fun groups rest =>
      next (groups ++ [(name, xs.take (xs.length - rest.length))]) rest := by
  rw [Pattern.run]

theorem run_many {accepts : α → Bool} {xs : List α} :
    (Pattern.many accepts).run groups xs next = runMany accepts (next groups) xs := by
  rw [Pattern.run]

theorem run_many_append {accepts : α → Bool} {xs tail : List α}
    (stuck : ∀ x rest, accepts x = true → next groups (x :: rest) = none)
    (stops : ∀ x ∈ tail.head?, accepts x = false) :
    (Pattern.many accepts).run groups (xs ++ tail) next =
      if xs.takeWhile accepts = [] then none else next groups (xs.dropWhile accepts ++ tail) := by
  rw [run_many, runMany_append stuck stops]

theorem run_group_many {name : κ} {accepts : α → Bool} {xs tail : List α}
    (stuck : ∀ groups x rest, accepts x = true → next groups (x :: rest) = none)
    (stops : ∀ x ∈ tail.head?, accepts x = false) :
    ((Pattern.many accepts).group name).run groups (xs ++ tail) next =
      if xs.takeWhile accepts = [] then none
      else next (groups ++ [(name, xs.takeWhile accepts)]) (xs.dropWhile accepts ++ tail) := by
  have taken : (xs ++ tail).take ((xs ++ tail).length - (xs.dropWhile accepts ++ tail).length) =
      xs.takeWhile accepts :=
    take_behind (by rw [← List.append_assoc, List.takeWhile_append_dropWhile])
  rw [run_group, run_many]
  refine (runMany_append ?_ stops).trans ?_
  · intro x rest accepted
    exact stuck _ x rest accepted
  · rw [taken]

end Text

end Rage.Regex
