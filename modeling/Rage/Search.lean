import Mathlib.Data.Finset.Insert
import Mathlib.Data.List.Dedup
import Mathlib.Data.List.Nodup
import Mathlib.Data.List.Perm.Subperm
import Mathlib.Logic.Relation

/-!
Breadth-first search.  A queue holds what is found and not visited yet; where each item goes into it
once, a universe that the search does not leave bounds its steps.
-/

namespace Rage.Search

variable {α : Type} (next : α → List α)

def Edge (first second : α) : Prop := second ∈ next first

/-- Found is what is visited or in the queue; what is visited has its neighbours found. -/
structure Searching (start : α) (visited queue found : List α) : Prop where
  parts : found.Perm (visited ++ queue)
  nodup : found.Nodup
  started : start ∈ found
  closed : ∀ item ∈ visited, ∀ other ∈ next item, other ∈ found
  reached : ∀ item ∈ found, Relation.ReflTransGen (Edge next) start item

variable {next}

theorem Searching.initial (start : α) : Searching next start [] [start] [start] where
  parts := .refl _
  nodup := List.nodup_singleton start
  started := List.mem_singleton_self start
  closed := by simp
  reached := by
    intro item member
    rw [List.mem_singleton.mp member]

/-- With nothing in the queue, what is visited is closed, and so it is all that can be reached. -/
theorem Searching.complete {start : α} {visited found : List α}
    (searching : Searching next start visited [] found) (item : α) :
    item ∈ visited ↔ Relation.ReflTransGen (Edge next) start item := by
  have same : ∀ other, other ∈ found ↔ other ∈ visited := by
    intro other
    rw [searching.parts.mem_iff, List.append_nil]
  constructor
  · intro isVisited
    exact searching.reached item ((same item).mpr isVisited)
  · intro reaches
    induction reaches with
    | refl => exact (same start).mp searching.started
    | tail _ edge ih => exact (same _).mp (searching.closed _ ih _ edge)

variable [DecidableEq α] (next)

def fresh (found : List α) (item : α) : List α := (next item).dedup.filter (· ∉ found)

/-- What is visited with the queue and with what is found so far. -/
def visits : Nat → List α → List α → List α
  | 0, _, _ => []
  | _ + 1, [], _ => []
  | steps + 1, item :: queue, found =>
      item :: visits steps (queue ++ fresh next found item) (found ++ fresh next found item)

variable {next}

theorem mem_fresh {found : List α} {item other : α} :
    other ∈ fresh next found item ↔ other ∈ next item ∧ other ∉ found := by
  simp [fresh]

theorem Searching.step {start item : α} {visited queue found : List α}
    (searching : Searching next start visited (item :: queue) found) :
    Searching next start (visited ++ [item]) (queue ++ fresh next found item)
      (found ++ fresh next found item) where
  parts := by
    have grown := searching.parts.append_right (fresh next found item)
    simpa using grown
  nodup := by
    refine List.nodup_append.mpr ⟨searching.nodup, (List.nodup_dedup _).filter _, ?_⟩
    rintro old isOld new isNew rfl
    exact (mem_fresh.mp isNew).2 isOld
  started := List.mem_append_left _ searching.started
  closed := by
    intro here isVisited other isNext
    rcases List.mem_append.mp isVisited with earlier | isItem
    · exact List.mem_append_left _ (searching.closed here earlier other isNext)
    · rw [List.mem_singleton.mp isItem] at isNext
      by_cases old : other ∈ found
      · exact List.mem_append_left _ old
      · exact List.mem_append_right _ (mem_fresh.mpr ⟨isNext, old⟩)
  reached := by
    intro other member
    rcases List.mem_append.mp member with old | new
    · exact searching.reached other old
    · have isItem : item ∈ found := searching.parts.mem_iff.mpr (by simp)
      exact (searching.reached item isItem).tail (mem_fresh.mp new).1

theorem visits_searching {start : α} {items : List α}
    (inside : ∀ item, Relation.ReflTransGen (Edge next) start item → item ∈ items)
    {steps : Nat} {visited queue found : List α}
    (searching : Searching next start visited queue found)
    (enough : items.length ≤ steps + visited.length) (item : α) :
    item ∈ visited ++ visits next steps queue found ↔
      Relation.ReflTransGen (Edge next) start item := by
  induction steps generalizing visited queue found with
  | zero =>
      have few : found.length ≤ items.length :=
        (searching.nodup.subperm fun other member =>
          inside other (searching.reached other member)).length_le
      have count := searching.parts.length_eq
      rw [List.length_append] at count
      obtain rfl : queue = [] := List.eq_nil_of_length_eq_zero (by omega)
      rw [visits, List.append_nil]
      exact searching.complete item
  | succ steps ih =>
      cases queue with
      | nil =>
          rw [visits, List.append_nil]
          exact searching.complete item
      | cons here queue =>
          have further := ih searching.step (by simp; omega)
          rw [visits]
          simpa using further

/-- A search with as many steps as there are items visits what can be reached. -/
theorem mem_visits {start : α} {items : List α}
    (inside : ∀ item, Relation.ReflTransGen (Edge next) start item → item ∈ items) (item : α) :
    item ∈ visits next items.length [start] [start] ↔
      Relation.ReflTransGen (Edge next) start item := by
  simpa using visits_searching inside (.initial start) (by simp) item

/-! A search whose queue may hold an item again and again, also one that is visited already. -/

variable (next) in
structure Draining (start : α) (visited : Finset α) (queue : List α) : Prop where
  started : start ∈ visited ∨ start ∈ queue
  closed : ∀ item ∈ visited, ∀ other ∈ next item, other ∈ visited ∨ other ∈ queue
  reached : ∀ item, item ∈ visited ∨ item ∈ queue → Relation.ReflTransGen (Edge next) start item

omit [DecidableEq α] in
theorem Draining.initial (start : α) : Draining next start ∅ [start] where
  started := Or.inr (List.mem_singleton_self start)
  closed := by simp
  reached := by
    rintro item (isVisited | isStart)
    · simp at isVisited
    · rw [List.mem_singleton.mp isStart]

omit [DecidableEq α] in
theorem Draining.skip {start item : α} {visited : Finset α} {queue : List α}
    (draining : Draining next start visited (item :: queue)) (isVisited : item ∈ visited) :
    Draining next start visited queue := by
  have shorter : ∀ other, other ∈ visited ∨ other ∈ item :: queue →
      other ∈ visited ∨ other ∈ queue := by
    rintro other (old | queued)
    · exact Or.inl old
    · rcases List.mem_cons.mp queued with rfl | later
      · exact Or.inl isVisited
      · exact Or.inr later
  exact ⟨shorter start draining.started,
    fun here isHere other isNext => shorter other (draining.closed here isHere other isNext),
    fun other member => draining.reached other (member.imp_right (List.mem_cons_of_mem _))⟩

/-- An item is visited, and what comes after it is queued if it is not visited. -/
theorem Draining.visit {start item : α} {visited : Finset α} {queue more : List α}
    (draining : Draining next start visited (item :: queue)) (isNext : ∀ other ∈ more,
      other ∈ next item)
    (queued : ∀ other ∈ next item, other ∈ insert item visited ∨ other ∈ more) :
    Draining next start (insert item visited) (queue ++ more) := by
  have kept : ∀ other, other ∈ visited ∨ other ∈ item :: queue →
      other ∈ insert item visited ∨ other ∈ queue ++ more := by
    rintro other (old | isQueued)
    · exact Or.inl (Finset.mem_insert_of_mem old)
    · rcases List.mem_cons.mp isQueued with rfl | later
      · exact Or.inl (Finset.mem_insert_self _ _)
      · exact Or.inr (List.mem_append_left _ later)
  have itemReached := draining.reached item (Or.inr List.mem_cons_self)
  refine ⟨kept start draining.started, ?_, ?_⟩
  · intro here isHere other isOther
    rcases Finset.mem_insert.mp isHere with rfl | old
    · exact (queued other isOther).imp_right (List.mem_append_right _)
    · exact kept other (draining.closed here old other isOther)
  · rintro other (isHere | isQueued)
    · rcases Finset.mem_insert.mp isHere with rfl | old
      · exact itemReached
      · exact draining.reached other (Or.inl old)
    · rcases List.mem_append.mp isQueued with old | new
      · exact draining.reached other (Or.inr (List.mem_cons_of_mem _ old))
      · exact itemReached.tail (isNext other new)

omit [DecidableEq α] in
theorem Draining.complete {start : α} {visited : Finset α}
    (draining : Draining next start visited []) (item : α) :
    item ∈ visited ↔ Relation.ReflTransGen (Edge next) start item := by
  constructor
  · exact fun isVisited => draining.reached item (Or.inl isVisited)
  · intro reaches
    induction reaches with
    | refl => exact draining.started.resolve_right List.not_mem_nil
    | tail _ edge ih => exact (draining.closed _ ih _ edge).resolve_right List.not_mem_nil

end Rage.Search
