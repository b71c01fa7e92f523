import Mathlib.Data.List.Induction
import Mathlib.Data.List.Nodup
import Mathlib.Logic.Function.Basic

/-!
Partial maps overlaid with a list of writes, the last one winning.
-/

namespace Rage.Overlay

variable {κ ν : Type} [DecidableEq κ]

def overlay (base : κ → Option ν) : List (κ × ν) → κ → Option ν
  | [] => base
  | write :: rest => overlay (Function.update base write.1 (some write.2)) rest

theorem overlay_append (base : κ → Option ν) (first second : List (κ × ν)) :
    overlay base (first ++ second) = overlay (overlay base first) second := by
  induction first generalizing base with
  | nil => rfl
  | cons write rest ih => exact ih _

/-- Whatever holds of the base and of every write holds of the result. -/
theorem overlay_invariant (property : κ → ν → Prop) {base : κ → Option ν}
    {writes : List (κ × ν)} (initial : ∀ key value, base key = some value → property key value)
    (written : ∀ write ∈ writes, property write.1 write.2) {key : κ} {value : ν}
    (found : overlay base writes key = some value) : property key value := by
  induction writes generalizing base with
  | nil => exact initial key value found
  | cons write rest ih =>
      refine ih ?_ (fun next member => written next (List.mem_cons_of_mem _ member)) found
      intro other content holds
      by_cases same : other = write.1
      · subst other
        rw [Function.update_self, Option.some.injEq] at holds
        subst content
        exact written write (List.mem_cons_self ..)
      · rw [Function.update_of_ne same] at holds
        exact initial other content holds

theorem overlay_of_mem {base : κ → Option ν} {writes : List (κ × ν)} {key : κ} {value : ν}
    (written : (key, value) ∈ writes)
    (agree : ∀ other, (key, other) ∈ writes → other = value) :
    overlay base writes key = some value := by
  have kept (map : κ → Option ν) (rest : List (κ × ν)) (now : map key = some value)
      (agrees : ∀ other, (key, other) ∈ rest → other = value) :
      overlay map rest key = some value := by
    induction rest generalizing map with
    | nil => exact now
    | cons write rest ih =>
        refine ih _ ?_ fun other member => agrees other (List.mem_cons_of_mem _ member)
        by_cases same : key = write.1
        · have value := agrees write.2 (by simp [same])
          rw [same, Function.update_self, value]
        · rw [Function.update_of_ne same, now]
  induction writes generalizing base with
  | nil => simp at written
  | cons write rest ih =>
      have agreeRest : ∀ other, (key, other) ∈ rest → other = value :=
        fun other member => agree other (List.mem_cons_of_mem _ member)
      rcases List.mem_cons.mp written with rfl | later
      · exact kept _ rest (Function.update_self ..) agreeRest
      · exact ih later agreeRest

/-! Items kept by a key of theirs. -/

theorem foldl_update (key : ν → κ) (base : κ → Option ν) (items : List ν) :
    items.foldl (fun map item => Function.update map (key item) (some item)) base =
      overlay base (items.map fun item => (key item, item)) := by
  induction items generalizing base with
  | nil => rfl
  | cons item rest ih => exact ih _

theorem keyed_spec {key : ν → κ} {items : List ν} {found : κ} {item : ν}
    (known : items.foldl (fun map item => Function.update map (key item) (some item))
      (fun _ => none) found = some item) : item ∈ items ∧ key item = found := by
  rw [foldl_update] at known
  refine overlay_invariant (fun found item => item ∈ items ∧ key item = found) ?_ ?_ known
  · intro _ _ absent
    simp at absent
  · intro write member
    obtain ⟨item, inItems, rfl⟩ := List.mem_map.mp member
    exact ⟨inItems, rfl⟩

theorem keyed_self {key : ν → κ} {items : List ν} (distinct : (items.map key).Nodup) {item : ν}
    (member : item ∈ items) :
    items.foldl (fun map item => Function.update map (key item) (some item)) (fun _ => none)
      (key item) = some item := by
  rw [foldl_update]
  refine overlay_of_mem (List.mem_map_of_mem member) fun other written => ?_
  obtain ⟨kept, inItems, same⟩ := List.mem_map.mp written
  obtain ⟨sameKey, rfl⟩ := Prod.mk.inj same
  exact List.inj_on_of_nodup_map distinct inItems member sameKey

theorem keyed_isSome {key : ν → κ} {items : List ν} {item : ν} (member : item ∈ items) :
    ∃ kept, items.foldl (fun map item => Function.update map (key item) (some item))
      (fun _ => none) (key item) = some kept := by
  induction items using List.reverseRecOn with
  | nil => exact absurd member List.not_mem_nil
  | append_singleton rest last ih =>
      rw [List.foldl_append, List.foldl_cons, List.foldl_nil]
      by_cases here : key item = key last
      · rw [here, Function.update_self]
        exact ⟨last, rfl⟩
      · rw [Function.update_of_ne here]
        apply ih
        rcases List.mem_append.mp member with earlier | isLast
        · exact earlier
        · exact absurd (congrArg key (List.mem_singleton.mp isLast)) here

end Rage.Overlay
