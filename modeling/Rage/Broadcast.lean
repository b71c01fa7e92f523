import Mathlib.Data.List.Basic

/-!
A bounded broadcast channel: every receiver has a position of its own in what was sent, the
channel keeps the last `capacity` values, and a receiver that is further behind is told so.
-/

namespace Rage.Broadcast

variable {α : Type}

inductive Recv (α : Type)
  | value (sent : α)
  | lagged
  | empty
  deriving DecidableEq

/-- What a receiver at position `next` gets of the values `sent` so far. -/
def recv (capacity : Nat) (sent : List α) (next : Nat) : Recv α :=
  if next + capacity < sent.length then .lagged
  else
    match sent[next]? with
    | some value => .value value
    | none => .empty

/-- A new receiver gets what is sent from now on. -/
def subscribe (sent : List α) : Nat := sent.length

variable {capacity : Nat} {sent : List α} {next : Nat}

theorem recv_eq_value_iff {value : α} :
    recv capacity sent next = .value value ↔
      sent.length ≤ next + capacity ∧ sent[next]? = some value := by
  unfold recv
  constructor
  · intro received
    split at received
    next => contradiction
    next kept =>
      refine ⟨by omega, ?_⟩
      split at received
      · cases received
        assumption
      · contradiction
  · rintro ⟨kept, isValue⟩
    simp [Nat.not_lt.mpr kept, isValue]

theorem value_bound {value : α} (received : recv capacity sent next = .value value) :
    next < sent.length := by
  obtain ⟨bound, _⟩ := List.getElem?_eq_some_iff.mp (recv_eq_value_iff.mp received).2
  exact bound

/-- Who has read everything has read the last value. -/
theorem getLast_of_value {value : α} (received : recv capacity sent next = .value value)
    (all : next + 1 = sent.length) : sent.getLast? = some value := by
  rw [List.getLast?_eq_getElem?, ← all, Nat.add_sub_cancel]
  exact (recv_eq_value_iff.mp received).2

end Rage.Broadcast
