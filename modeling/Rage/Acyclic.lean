import Mathlib.Data.Fintype.EquivFin
import Mathlib.Data.Set.Finite.Basic
import Mathlib.Logic.Relation

/-!
Relations without cycles: a rank that falls along the edges excludes them, and in a list that is
closed under a property there is an element none of whose successors has it.
-/

namespace Rage.Acyclic

variable {α β : Type} {edge : α → α → Prop}

theorem of_rank [Preorder β] (rank : α → β) (falls : ∀ first second, edge first second →
    rank second < rank first) (item : α) : ¬ Relation.TransGen edge item item := by
  have below {first second : α} (path : Relation.TransGen edge first second) :
      rank second < rank first := by
    induction path with
    | single step => exact falls _ _ step
    | tail _ step ih => exact (falls _ _ step).trans ih
  intro cycle
  exact lt_irrefl _ (below cycle)

theorem exists_least (acyclic : ∀ item, ¬ Relation.TransGen edge item item) (items : List α)
    (property : α → Prop) (inside : ∀ item, property item → item ∈ items) {item : α}
    (here : property item) :
    ∃ least, property least ∧ ∀ next, edge least next → ¬ property next := by
  by_contra none
  push Not at none
  -- Without such an element every one that has the property has a successor with it.
  let before (first second : { item // item ∈ items }) : Prop :=
    Relation.TransGen edge second.1 first.1
  have finite : Finite { item // item ∈ items } := items.finite_toSet.to_subtype
  have irreflexive : Std.Irrefl before := ⟨fun position => acyclic position⟩
  have transitive : IsTrans _ before := ⟨fun _ _ _ one two => Relation.TransGen.trans two one⟩
  have founded : WellFounded before := Finite.wellFounded_of_trans_of_irrefl before
  have nowhere : ∀ position : { item // item ∈ items }, ¬ property position := by
    intro position
    induction position using founded.induction with
    | h position ih =>
        intro holds
        obtain ⟨next, step, nextHolds⟩ := none position holds
        exact ih ⟨next, inside next nextHolds⟩ (.single step) nextHolds
  exact nowhere ⟨item, inside item here⟩ here

end Rage.Acyclic
