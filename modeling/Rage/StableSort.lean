import Mathlib.Data.List.Sort

/-!
Stable sorting by a key.  What a sort leaves of the input order is the order within each key, and
the two together determine the sorted list.
-/

namespace Rage.StableSort

section

variable {α κ : Type} (key : α → κ) (le : κ → κ → Prop) [DecidableRel le]

def sort (xs : List α) : List α := xs.insertionSort fun first second => le (key first) (key second)

variable {key le}

theorem mem_sort {x : α} {xs : List α} : x ∈ sort key le xs ↔ x ∈ xs := List.mem_insertionSort _

variable (key le) in
theorem pairwise_sort (total : ∀ j k, le j k ∨ le k j)
    (trans : ∀ i j k, le i j → le j k → le i k) (xs : List α) :
    (sort key le xs).Pairwise fun first second => le (key first) (key second) := by
  have isTotal : Std.Total fun first second : α => le (key first) (key second) :=
    ⟨fun first second => total _ _⟩
  have isTrans : IsTrans α fun first second => le (key first) (key second) :=
    ⟨fun _ _ _ => trans _ _ _⟩
  exact List.pairwise_insertionSort _ xs

/-- Where the keys are distinct, the members determine the sorted list. -/
theorem sort_eq_of_mem_iff (antisymm : ∀ j k, le j k → le k j → j = k)
    (total : ∀ j k, le j k ∨ le k j) (trans : ∀ i j k, le i j → le j k → le i k) {xs ys : List α}
    (xsDistinct : (xs.map key).Nodup) (ysDistinct : (ys.map key).Nodup)
    (same : ∀ x, x ∈ xs ↔ x ∈ ys) : sort key le xs = sort key le ys := by
  have permuted : (sort key le xs).Perm (sort key le ys) := by
    have members : xs.Perm ys :=
      (List.perm_ext_iff_of_nodup xsDistinct.of_map ysDistinct.of_map).mpr same
    exact (List.perm_insertionSort _ xs).trans (members.trans (List.perm_insertionSort _ ys).symm)
  refine List.Perm.eq_of_pairwise ?_ (pairwise_sort key le total trans xs)
    (pairwise_sort key le total trans ys)
    permuted
  intro x y member other below above
  exact List.inj_on_of_nodup_map xsDistinct (mem_sort.mp member)
    ((same y).mpr (mem_sort.mp other)) (antisymm _ _ below above)

end

section

variable {α κ : Type} [DecidableEq κ] {key : α → κ} {le : κ → κ → Prop}

/-- A sorted list is determined by what it holds under each key. -/
theorem eq_of_filters (antisymm : ∀ j k, le j k → le k j → j = k) (refl : ∀ k, le k k)
    {xs ys : List α}
    (xsSorted : xs.Pairwise fun first second => le (key first) (key second))
    (ysSorted : ys.Pairwise fun first second => le (key first) (key second))
    (same : ∀ k, xs.filter (fun x => key x = k) = ys.filter fun y => key y = k) : xs = ys := by
  induction xs generalizing ys with
  | nil =>
      cases ys with
      | nil => rfl
      | cons y rest => simpa using same (key y)
  | cons x rest ih =>
      cases ys with
      | nil => simpa using same (key x)
      | cons y others =>
          have least {z : α} {zs ws : List α} {w : α}
              (sorted : (z :: zs).Pairwise fun first second => le (key first) (key second))
              (filters : (w :: ws).filter (fun v => key v = key w) =
                (z :: zs).filter fun v => key v = key w) : le (key z) (key w) := by
            have member : w ∈ (z :: zs).filter fun v => key v = key w := by simp [← filters]
            rcases List.mem_cons.mp (List.mem_of_mem_filter member) with here | later
            · rw [here]
              exact refl _
            · exact List.rel_of_pairwise_cons sorted later
          have keys : key x = key y := antisymm _ _ (least xsSorted (same (key y)).symm)
            (least ysSorted (same (key x)))
          have heads := same (key x)
          simp only [List.filter_cons, decide_true, if_true, keys, List.cons.injEq] at heads
          obtain ⟨rfl, _⟩ := heads
          congr 1
          apply ih (List.Pairwise.of_cons xsSorted) (List.Pairwise.of_cons ysSorted)
          intro k
          have whole := same k
          by_cases here : key x = k
          · simpa [List.filter_cons, here] using whole
          · simpa [List.filter_cons, here] using whole

variable [DecidableRel le]

theorem filter_orderedInsert (refl : ∀ k, le k k) (k : κ) (x : α) (xs : List α) :
    (xs.orderedInsert (fun first second => le (key first) (key second)) x).filter
      (fun y => key y = k) = (x :: xs).filter fun y => key y = k := by
  induction xs with
  | nil => rfl
  | cons y rest ih =>
      rw [List.orderedInsert_cons]
      split
      · rfl
      · rename_i after
        rw [List.filter_cons, ih]
        by_cases first : key x = k
        · have apart : key y ≠ k := by
            intro same
            exact after (by rw [first, same]; exact refl k)
          simp [first, apart]
        · simp [first, List.filter_cons]

theorem filter_sort (refl : ∀ k, le k k) (k : κ) (xs : List α) :
    (sort key le xs).filter (fun y => key y = k) = xs.filter fun y => key y = k := by
  induction xs with
  | nil => rfl
  | cons x rest ih =>
      rw [sort, List.insertionSort_cons, filter_orderedInsert refl, List.filter_cons,
        List.filter_cons]
      rw [sort] at ih
      rw [ih]

theorem sort_eq_iff (antisymm : ∀ j k, le j k → le k j → j = k) (total : ∀ j k, le j k ∨ le k j)
    (trans : ∀ i j k, le i j → le j k → le i k) (xs ys : List α) :
    sort key le xs = sort key le ys ↔
      ∀ k, xs.filter (fun x => key x = k) = ys.filter fun y => key y = k := by
  have refl (k : κ) : le k k := (total k k).elim id id
  constructor
  · intro same k
    rw [← filter_sort refl k xs, same, filter_sort refl]
  · intro same
    apply eq_of_filters antisymm refl (pairwise_sort key le total trans xs)
      (pairwise_sort key le total trans ys)
    intro k
    rw [filter_sort refl, filter_sort refl, same k]

end

end Rage.StableSort
