import Mathlib.Algebra.BigOperators.Group.Finset.Basic
import Mathlib.Algebra.Order.BigOperators.Group.Finset
import Mathlib.Algebra.Order.Group.Nat

/-!
What a number of parties hold together, each according to the state that it is in.
-/

namespace Rage.Tally

variable {α : Type} {count : Nat} {weight : Nat → α → Nat} {states : Nat → α}

def total (count : Nat) (weight : Nat → α → Nat) (states : Nat → α) : Nat :=
  ∑ party ∈ Finset.range count, weight party (states party)

theorem total_update (weight : Nat → α → Nat) (states : Nat → α) {party : Nat}
    (below : party < count) (state : α) :
    total count weight (Function.update states party state) + weight party (states party) =
      total count weight states + weight party state := by
  have member : party ∈ Finset.range count := Finset.mem_range.mpr below
  have rest : ∑ other ∈ (Finset.range count).erase party,
        weight other (Function.update states party state other) =
      ∑ other ∈ (Finset.range count).erase party, weight other (states other) := by
    apply Finset.sum_congr rfl
    intro other inRest
    rw [Function.update_of_ne (Finset.ne_of_mem_erase inRest)]
  have after := Finset.sum_erase_add (Finset.range count)
    (fun other => weight other (Function.update states party state other)) member
  have before := Finset.sum_erase_add (Finset.range count)
    (fun other => weight other (states other)) member
  simp only [Function.update_self] at after
  unfold total
  omega

theorem total_congr {other : Nat → α}
    (same : ∀ party < count, weight party (other party) = weight party (states party)) :
    total count weight other = total count weight states := by
  apply Finset.sum_congr rfl
  intro party member
  exact same party (Finset.mem_range.mp member)

theorem total_le_total {β : Type} {other : Nat → β → Nat} {others : Nat → β}
    (most : ∀ party < count, weight party (states party) ≤ other party (others party)) :
    total count weight states ≤ total count other others := by
  apply Finset.sum_le_sum
  intro party member
  exact most party (Finset.mem_range.mp member)

theorem exists_of_total_pos (positive : 0 < total count weight states) :
    ∃ party < count, 0 < weight party (states party) := by
  obtain ⟨party, member, isPositive⟩ := Finset.sum_pos_iff.mp positive
  exact ⟨party, Finset.mem_range.mp member, isPositive⟩

theorem total_pos {party : Nat} (below : party < count)
    (positive : 0 < weight party (states party)) : 0 < total count weight states := by
  exact Finset.sum_pos_iff.mpr ⟨party, Finset.mem_range.mpr below, positive⟩

theorem weight_le_total (weight : Nat → α → Nat) (states : Nat → α) {party : Nat}
    (below : party < count) :
    weight party (states party) ≤ total count weight states := by
  exact Finset.single_le_sum (fun other _ => Nat.zero_le (weight other (states other)))
    (Finset.mem_range.mpr below)

theorem total_eq_zero (none : ∀ party < count, weight party (states party) = 0) :
    total count weight states = 0 := by
  apply Finset.sum_eq_zero
  intro party member
  exact none party (Finset.mem_range.mp member)

end Rage.Tally
