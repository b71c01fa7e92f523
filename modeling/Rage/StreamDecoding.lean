import Mathlib.Data.List.Basic

/-!
Decoders that take one record off the front of a buffer.  What they take depends on nothing behind
the record, so it makes no difference how a stream is cut into reads.
-/

namespace Rage.StreamDecoding

variable {α β : Type}

structure Decoder (α β : Type) where
  decode : List α → Option (β × Nat)
  positive : ∀ xs record taken, decode xs = some (record, taken) → 0 < taken
  within : ∀ xs record taken, decode xs = some (record, taken) → taken ≤ xs.length
  stable : ∀ xs more found, decode xs = some found → decode (xs ++ more) = some found

variable (decoder : Decoder α β)

/-- The records at the front of a buffer, and what is left. -/
def drainFrom : Nat → List α → List β × List α
  | 0, xs => ([], xs)
  | fuel + 1, xs =>
      match decoder.decode xs with
      | none => ([], xs)
      | some (record, taken) =>
          let rest := drainFrom fuel (xs.drop taken)
          (record :: rest.1, rest.2)

def drain (xs : List α) : List β × List α := drainFrom decoder xs.length xs

/-- Each read is drained behind what the last one left, and so is the end of the stream. -/
def feed : List (List α) → List α → List β → List β × List α
  | [], buffer, records => (records ++ (drain decoder buffer).1, (drain decoder buffer).2)
  | read :: reads, buffer, records =>
      feed reads (drain decoder (buffer ++ read)).2 (records ++ (drain decoder (buffer ++ read)).1)

variable {decoder}

theorem drainFrom_enough {fuel : Nat} {xs : List α} (enough : xs.length ≤ fuel) :
    drainFrom decoder fuel xs = drain decoder xs := by
  rw [drain]
  generalize isMore : xs.length = more
  have enoughMore : xs.length ≤ more := Nat.le_of_eq isMore
  clear isMore
  induction fuel generalizing xs more with
  | zero =>
      have isNil : xs = [] := List.eq_nil_of_length_eq_zero (by omega)
      cases more with
      | zero => rfl
      | succ more =>
          rw [drainFrom, drainFrom]
          cases found : decoder.decode xs with
          | none => rfl
          | some taken =>
              have positive := decoder.positive xs taken.1 taken.2 found
              have within := decoder.within xs taken.1 taken.2 found
              omega
  | succ fuel ih =>
      rw [drainFrom]
      cases found : decoder.decode xs with
      | none =>
          cases more with
          | zero => rfl
          | succ more => rw [drainFrom, found]
      | some taken =>
          have positive := decoder.positive xs taken.1 taken.2 found
          have within := decoder.within xs taken.1 taken.2 found
          have shorter : (xs.drop taken.2).length < xs.length := by
            rw [List.length_drop]
            omega
          cases more with
          | zero => omega
          | succ more =>
              rw [drainFrom, found]
              simp only
              rw [ih (by omega) more (by omega)]

theorem drain_none {xs : List α} (stuck : decoder.decode xs = none) : drain decoder xs = ([], xs) := by
  rw [drain]
  cases isLength : xs.length with
  | zero => rfl
  | succ fuel => rw [drainFrom, stuck]

theorem drain_some {xs : List α} {record : β} {taken : Nat}
    (found : decoder.decode xs = some (record, taken)) :
    drain decoder xs =
      (record :: (drain decoder (xs.drop taken)).1, (drain decoder (xs.drop taken)).2) := by
  have positive := decoder.positive xs record taken found
  have within := decoder.within xs record taken found
  obtain ⟨fuel, isLength⟩ : ∃ fuel, xs.length = fuel + 1 := ⟨xs.length - 1, by omega⟩
  rw [drain, isLength, drainFrom, found]
  simp only
  rw [drainFrom_enough]
  rw [List.length_drop]
  omega

/-- Draining may stop anywhere and go on later. -/
theorem drain_append (xs more : List α) :
    drain decoder (xs ++ more) =
      ((drain decoder xs).1 ++ (drain decoder ((drain decoder xs).2 ++ more)).1,
        (drain decoder ((drain decoder xs).2 ++ more)).2) := by
  induction isLength : xs.length using Nat.strongRecOn generalizing xs with
  | ind length ih =>
      cases found : decoder.decode xs with
      | none => rw [drain_none found, List.nil_append]
      | some taken =>
          have positive := decoder.positive xs taken.1 taken.2 found
          have within := decoder.within xs taken.1 taken.2 found
          have shorter : (xs.drop taken.2).length < length := by
            rw [List.length_drop]
            omega
          rw [drain_some found, drain_some (decoder.stable xs more taken found),
            List.drop_append_of_le_length within, ih _ shorter _ rfl]
          rfl

/-- The reads make no difference. -/
theorem feed_eq (reads : List (List α)) (buffer : List α) (records : List β) :
    feed decoder reads buffer records =
      (records ++ (drain decoder (buffer ++ reads.flatten)).1,
        (drain decoder (buffer ++ reads.flatten)).2) := by
  induction reads generalizing buffer records with
  | nil => rw [feed, List.flatten_nil, List.append_nil]
  | cons read reads ih =>
      rw [feed, ih, List.flatten_cons, ← List.append_assoc,
        drain_append (buffer ++ read) reads.flatten, List.append_assoc]

end Rage.StreamDecoding
