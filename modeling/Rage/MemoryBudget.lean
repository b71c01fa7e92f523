import Mathlib.Algebra.GroupWithZero.Nat
import Mathlib.Algebra.Order.BigOperators.Group.List
import Mathlib.Algebra.Order.Group.Nat
import Mathlib.Data.List.Nodup
import Rage.Machine

/-!
The memory budget.  A guard of `reserve` holds its estimate, a guard of `reserve_cold` a permit of
the cold-start semaphore; each gives back what it holds when it is dropped.
-/

namespace Rage

def saturatingSub (left right : UInt64) : UInt64 := if right ≤ left then left - right else 0

structure BudgetState where
  capacityBytes : UInt64
  committedBytes : UInt64
  activeCount : UInt32
  deriving DecidableEq

namespace BudgetState

def remaining (state : BudgetState) : UInt64 :=
  saturatingSub state.capacityBytes state.committedBytes

def canProceed (state : BudgetState) (estimateBytes : UInt64) : Bool :=
  decide (estimateBytes ≤ state.remaining) || state.activeCount == 0

def commit (state : BudgetState) (estimateBytes : UInt64) : BudgetState :=
  { state with
    committedBytes := state.committedBytes + estimateBytes
    activeCount := state.activeCount + 1 }

def releaseBudget (state : BudgetState) (bytes : UInt64) : BudgetState :=
  { state with
    committedBytes := saturatingSub state.committedBytes bytes
    activeCount := if state.activeCount = 0 then 0 else state.activeCount - 1 }

end BudgetState

@[simp] theorem saturatingSub_toNat (left right : UInt64) :
    (saturatingSub left right).toNat = left.toNat - right.toNat := by
  unfold saturatingSub
  split
  · rename_i below
    exact UInt64.toNat_sub_of_le left right below
  · rename_i above
    rw [UInt64.le_iff_toNat_le] at above
    rw [UInt64.toNat_zero]
    omega

namespace BudgetState

theorem canProceed_iff (state : BudgetState) (estimateBytes : UInt64) :
    state.canProceed estimateBytes = true ↔
      estimateBytes.toNat ≤ state.capacityBytes.toNat - state.committedBytes.toNat ∨
        state.activeCount.toNat = 0 := by
  simp [canProceed, remaining, UInt64.le_iff_toNat_le, ← UInt32.toNat_inj]

/-- An estimate that proceeds does not overflow, if nothing is committed where nothing is active. -/
theorem no_overflow {state : BudgetState} {estimateBytes : UInt64}
    (idle : state.activeCount.toNat = 0 → state.committedBytes.toNat = 0)
    (proceeds : state.canProceed estimateBytes = true) :
    state.committedBytes.toNat + estimateBytes.toNat < 2 ^ 64 := by
  have capacity := state.capacityBytes.toNat_lt
  have committed := state.committedBytes.toNat_lt
  have estimate := estimateBytes.toNat_lt
  rcases (state.canProceed_iff estimateBytes).mp proceeds with fits | inactive
  · omega
  · have nothing := idle inactive
    omega

theorem commit_committed {state : BudgetState} {estimateBytes : UInt64}
    (fits : state.committedBytes.toNat + estimateBytes.toNat < 2 ^ 64) :
    (state.commit estimateBytes).committedBytes.toNat =
      state.committedBytes.toNat + estimateBytes.toNat :=
  (UInt64.toNat_add _ _).trans (Nat.mod_eq_of_lt fits)

theorem commit_active {state : BudgetState} {estimateBytes : UInt64}
    (few : state.activeCount.toNat + 1 < 2 ^ 32) :
    (state.commit estimateBytes).activeCount.toNat = state.activeCount.toNat + 1 := by
  have sum : (state.commit estimateBytes).activeCount.toNat =
      (state.activeCount.toNat + (1 : UInt32).toNat) % 2 ^ 32 := UInt32.toNat_add _ _
  rw [sum, UInt32.toNat_one]
  exact Nat.mod_eq_of_lt few

/-- Admitting an estimate opens the budget to no other. -/
theorem canProceed_of_commit {state : BudgetState} {estimateBytes other : UInt64}
    (fits : state.committedBytes.toNat + estimateBytes.toNat < 2 ^ 64)
    (few : state.activeCount.toNat + 1 < 2 ^ 32)
    (proceeds : (state.commit estimateBytes).canProceed other = true) :
    state.canProceed other = true := by
  rw [canProceed_iff, commit_committed fits, commit_active few] at proceeds
  rw [canProceed_iff]
  have capacity : (state.commit estimateBytes).capacityBytes = state.capacityBytes := rfl
  rw [capacity] at proceeds
  omega

@[simp] theorem releaseBudget_committed (state : BudgetState) (bytes : UInt64) :
    (state.releaseBudget bytes).committedBytes.toNat =
      state.committedBytes.toNat - bytes.toNat := by
  simp [releaseBudget]

@[simp] theorem releaseBudget_active (state : BudgetState) (bytes : UInt64) :
    (state.releaseBudget bytes).activeCount.toNat = state.activeCount.toNat - 1 := by
  unfold releaseBudget
  split
  · rename_i idle
    simp [idle]
  · rename_i active
    have positive : 1 ≤ state.activeCount := by
      rw [UInt32.le_iff_toNat_le]
      have differs : state.activeCount.toNat ≠ 0 := by
        intro zero
        exact active (UInt32.toNat_inj.mp zero)
      rw [UInt32.toNat_one]
      omega
    rw [UInt32.toNat_sub_of_le _ _ positive, UInt32.toNat_one]

@[simp] theorem releaseBudget_capacity (state : BudgetState) (bytes : UInt64) :
    (state.releaseBudget bytes).capacityBytes = state.capacityBytes := rfl

end BudgetState

/-- `id` tells the guards apart: it is their number in the order they are handed out. -/
structure MemoryGuard where
  id : Nat
  inner : Option UInt64
  coldPermit : Bool
  deriving DecidableEq

/-- `releases` lists the guards for which `release_budget` has run. -/
structure MemoryBudget where
  state : BudgetState
  coldPermits : Nat
  releases : List Nat
  deriving DecidableEq

namespace MemoryGuard

def releaseInner (guard : MemoryGuard) (budget : MemoryBudget) : MemoryGuard × MemoryBudget :=
  match guard.inner with
  | some reserved =>
      ({ guard with inner := none },
        { budget with
          state := budget.state.releaseBudget reserved
          releases := guard.id :: budget.releases })
  | none => (guard, budget)

def drop (guard : MemoryGuard) (budget : MemoryBudget) : MemoryBudget :=
  let (guard, budget) := guard.releaseInner budget
  if guard.coldPermit then { budget with coldPermits := budget.coldPermits + 1 } else budget

/-- The guard is dropped at the end, when it has nothing reserved any more. -/
def releaseWithActual (guard : MemoryGuard) (_actualPeakBytes : UInt64) (budget : MemoryBudget) :
    MemoryBudget :=
  let (guard, budget) := guard.releaseInner budget
  guard.drop budget

theorem releaseWithActual_eq_drop (guard : MemoryGuard) (actual : UInt64)
    (budget : MemoryBudget) : guard.releaseWithActual actual budget = guard.drop budget := by
  unfold releaseWithActual
  cases reserved : guard.inner with
  | none => simp [releaseInner, reserved]
  | some bytes => simp [releaseInner, reserved, drop]

@[simp] theorem drop_state (guard : MemoryGuard) (budget : MemoryBudget) :
    (guard.drop budget).state = guard.inner.elim budget.state budget.state.releaseBudget := by
  unfold drop
  cases reserved : guard.inner with
  | none =>
      simp only [releaseInner, reserved, Option.elim_none]
      split
      · rfl
      · rfl
  | some bytes =>
      simp only [releaseInner, reserved, Option.elim_some]
      split
      · rfl
      · rfl

@[simp] theorem drop_coldPermits (guard : MemoryGuard) (budget : MemoryBudget) :
    (guard.drop budget).coldPermits = budget.coldPermits + guard.coldPermit.toNat := by
  unfold drop
  cases reserved : guard.inner with
  | none =>
      cases permit : guard.coldPermit with
      | false => simp [releaseInner, reserved, permit]
      | true => simp [releaseInner, reserved, permit]
  | some bytes =>
      cases permit : guard.coldPermit with
      | false => simp [releaseInner, reserved, permit]
      | true => simp [releaseInner, reserved, permit]

@[simp] theorem drop_releases (guard : MemoryGuard) (budget : MemoryBudget) :
    (guard.drop budget).releases =
      guard.inner.elim budget.releases fun _ => guard.id :: budget.releases := by
  unfold drop
  cases reserved : guard.inner with
  | none =>
      simp only [releaseInner, reserved, Option.elim_none]
      split
      · rfl
      · rfl
  | some bytes =>
      simp only [releaseInner, reserved, Option.elim_some]
      split
      · rfl
      · rfl

end MemoryGuard

/-- `guards` are the live guards, `issued` all that were ever handed out. -/
structure BudgetRun where
  budget : MemoryBudget
  guards : List MemoryGuard
  issued : List MemoryGuard
  deriving DecidableEq

inductive BudgetEvent
  | reserve (estimateBytes : UInt64)
  | reserveCold
  | releaseWithActual (guard : MemoryGuard) (actualPeakBytes : UInt64)
  | drop (guard : MemoryGuard)

namespace BudgetRun

def initial (capacityBytes : UInt64) (coldPermits : Nat) : BudgetRun :=
  ⟨⟨⟨capacityBytes, 0, 0⟩, coldPermits, []⟩, [], []⟩

def handOut (run : BudgetRun) (budget : MemoryBudget) (inner : Option UInt64) (coldPermit : Bool) :
    BudgetRun :=
  ⟨budget, ⟨run.issued.length, inner, coldPermit⟩ :: run.guards,
    ⟨run.issued.length, inner, coldPermit⟩ :: run.issued⟩

/-- A `reserve` that cannot proceed waits and changes nothing. -/
def step (run : BudgetRun) : BudgetEvent → Option BudgetRun
  | .reserve estimateBytes =>
      if run.budget.state.canProceed estimateBytes then
        some (run.handOut { run.budget with state := run.budget.state.commit estimateBytes }
          (some estimateBytes) false)
      else none
  | .reserveCold =>
      if 0 < run.budget.coldPermits then
        some (run.handOut { run.budget with coldPermits := run.budget.coldPermits - 1 } none true)
      else none
  | .releaseWithActual guard actualPeakBytes =>
      if guard ∈ run.guards then
        some { run with
          budget := guard.releaseWithActual actualPeakBytes run.budget
          guards := run.guards.erase guard }
      else none
  | .drop guard =>
      if guard ∈ run.guards then
        some { run with budget := guard.drop run.budget, guards := run.guards.erase guard }
      else none

/-- The estimates of the live guards that `reserve` has given. -/
def reservations (run : BudgetRun) : List UInt64 := run.guards.filterMap MemoryGuard.inner

/-- Fewer than 2^32 guards are live. -/
def Few (run : BudgetRun) : BudgetEvent → Prop
  | .reserve _ => run.guards.length + 1 < 2 ^ 32
  | .reserveCold => run.guards.length + 1 < 2 ^ 32
  | _ => True

instance (run : BudgetRun) (event : BudgetEvent) : Decidable (Few run event) := by
  cases event with
  | reserve => exact inferInstanceAs (Decidable (run.guards.length + 1 < 2 ^ 32))
  | reserveCold => exact inferInstanceAs (Decidable (run.guards.length + 1 < 2 ^ 32))
  | releaseWithActual => exact inferInstanceAs (Decidable True)
  | drop => exact inferInstanceAs (Decidable True)

inductive Outcome (before after : BudgetRun) : Prop
  | reserved (estimateBytes : UInt64)
      (proceeds : before.budget.state.canProceed estimateBytes = true)
      (next : after = before.handOut
        { before.budget with state := before.budget.state.commit estimateBytes }
          (some estimateBytes) false)
  | cold (free : 0 < before.budget.coldPermits)
      (next : after = before.handOut
        { before.budget with coldPermits := before.budget.coldPermits - 1 } none true)
  | dropped (guard : MemoryGuard) (live : guard ∈ before.guards)
      (next : after = { before with
        budget := guard.drop before.budget, guards := before.guards.erase guard })

theorem step_outcome {run next : BudgetRun} {event : BudgetEvent}
    (taken : run.step event = some next) : Outcome run next := by
  cases event with
  | reserve estimateBytes =>
      obtain ⟨proceeds, moved⟩ := Option.ite_none_right_eq_some.mp taken
      exact .reserved estimateBytes proceeds (Option.some.inj moved).symm
  | reserveCold =>
      obtain ⟨free, moved⟩ := Option.ite_none_right_eq_some.mp taken
      exact .cold free (Option.some.inj moved).symm
  | releaseWithActual guard actualPeakBytes =>
      obtain ⟨live, moved⟩ := Option.ite_none_right_eq_some.mp taken
      rw [MemoryGuard.releaseWithActual_eq_drop] at moved
      exact .dropped guard live (Option.some.inj moved).symm
  | drop guard =>
      obtain ⟨live, moved⟩ := Option.ite_none_right_eq_some.mp taken
      exact .dropped guard live (Option.some.inj moved).symm

/-- What a live guard holds, and what the other guards do. -/
theorem reservations_erase {run : BudgetRun} {guard : MemoryGuard} (live : guard ∈ run.guards) :
    run.reservations.Perm
      (guard.inner.toList ++ (run.guards.erase guard).filterMap MemoryGuard.inner) := by
  have split : run.guards.Perm (guard :: run.guards.erase guard) := List.perm_cons_erase live
  have mapped := split.filterMap MemoryGuard.inner
  cases inner : guard.inner with
  | none => simpa [reservations, inner] using mapped
  | some bytes => simpa [reservations, inner] using mapped

/-- The state of the budget is the sum and the number of the reservations. -/
structure Accounted (run : BudgetRun) : Prop where
  committed : run.budget.state.committedBytes.toNat = (run.reservations.map UInt64.toNat).sum
  active : run.budget.state.activeCount.toNat = run.reservations.length
  bounded : run.budget.state.committedBytes.toNat ≤ run.budget.state.capacityBytes.toNat ∨
    (run.reservations.filter (· ≠ 0)).length = 1

namespace Accounted

variable {run next : BudgetRun}

theorem initial (capacityBytes : UInt64) (coldPermits : Nat) :
    Accounted (.initial capacityBytes coldPermits) where
  committed := by simp [BudgetRun.initial, reservations]
  active := by simp [BudgetRun.initial, reservations]
  bounded := by simp [BudgetRun.initial]

/-- An estimate that proceeds fits beside what is committed, or is alone, or is nothing. -/
theorem fits (accounted : Accounted run) {estimateBytes : UInt64}
    (proceeds : run.budget.state.canProceed estimateBytes = true) :
    run.budget.state.committedBytes.toNat + estimateBytes.toNat ≤
        run.budget.state.capacityBytes.toNat ∨ estimateBytes = 0 ∨ run.reservations = [] := by
  rcases (run.budget.state.canProceed_iff estimateBytes).mp proceeds with below | idle
  · by_cases beyond : run.budget.state.capacityBytes.toNat <
      run.budget.state.committedBytes.toNat + estimateBytes.toNat
    · right
      left
      apply UInt64.toNat_inj.mp
      rw [UInt64.toNat_zero]
      omega
    · left
      omega
  · right
    right
    rw [accounted.active] at idle
    exact List.eq_nil_of_length_eq_zero idle

theorem no_overflow (accounted : Accounted run) {estimateBytes : UInt64}
    (proceeds : run.budget.state.canProceed estimateBytes = true) :
    run.budget.state.committedBytes.toNat + estimateBytes.toNat < 2 ^ 64 := by
  apply BudgetState.no_overflow ?_ proceeds
  rw [accounted.active, accounted.committed]
  intro none
  rw [List.eq_nil_of_length_eq_zero none]
  rfl

theorem no_saturation (accounted : Accounted run) {reserved : UInt64}
    (held : reserved ∈ run.reservations) :
    reserved.toNat ≤ run.budget.state.committedBytes.toNat ∧
      1 ≤ run.budget.state.activeCount.toNat := by
  constructor
  · rw [accounted.committed]
    exact List.le_sum_of_mem (List.mem_map_of_mem held)
  · rw [accounted.active]
    exact List.length_pos_of_mem held

theorem reserve (accounted : Accounted run) (few : run.reservations.length + 1 < 2 ^ 32)
    {estimateBytes : UInt64} (proceeds : run.budget.state.canProceed estimateBytes = true)
    (isNext : next = run.handOut
      { run.budget with state := run.budget.state.commit estimateBytes }
        (some estimateBytes) false) : Accounted next := by
  have overflows := accounted.no_overflow proceeds
  have more : next.reservations = estimateBytes :: run.reservations := by
    rw [isNext]
    rfl
  have committed : next.budget.state.committedBytes.toNat =
      run.budget.state.committedBytes.toNat + estimateBytes.toNat := by
    rw [isNext]
    exact BudgetState.commit_committed overflows
  have capacity : next.budget.state.capacityBytes = run.budget.state.capacityBytes := by
    rw [isNext]
    rfl
  constructor
  · rw [committed, accounted.committed, more, List.map_cons, List.sum_cons, Nat.add_comm]
  · rw [more, List.length_cons, ← accounted.active, isNext]
    apply BudgetState.commit_active
    rwa [accounted.active]
  · rw [committed, capacity, more]
    rcases accounted.fits proceeds with fits | nothing | alone
    · exact Or.inl fits
    · subst nothing
      simpa using accounted.bounded
    · by_cases nothing : estimateBytes = 0
      · subst nothing
        simpa using accounted.bounded
      · right
        simp [alone, nothing]

theorem drop (accounted : Accounted run) {guard : MemoryGuard} (live : guard ∈ run.guards)
    (isNext : next = { run with
      budget := guard.drop run.budget, guards := run.guards.erase guard }) : Accounted next := by
  have split := reservations_erase live
  have rest : next.reservations = (run.guards.erase guard).filterMap MemoryGuard.inner := by
    rw [isNext]
    rfl
  have state : next.budget.state =
      guard.inner.elim run.budget.state run.budget.state.releaseBudget := by
    rw [isNext]
    exact guard.drop_state run.budget
  rw [← rest] at split
  have sums := (split.map UInt64.toNat).sum_eq
  have lengths := split.length_eq
  have nonzero := (split.filter (· ≠ 0)).length_eq
  rw [← accounted.committed] at sums
  rw [← accounted.active] at lengths
  cases inner : guard.inner with
  | none =>
      rw [inner, Option.elim_none] at state
      rw [inner, Option.toList_none, List.nil_append] at sums lengths nonzero
      constructor
      · rw [state, sums]
      · rw [state, lengths]
      · rw [state, ← nonzero]
        exact accounted.bounded
  | some bytes =>
      rw [inner, Option.elim_some] at state
      rw [inner, Option.toList_some, List.singleton_append] at sums lengths nonzero
      rw [List.map_cons, List.sum_cons] at sums
      rw [List.length_cons] at lengths
      constructor
      · rw [state, BudgetState.releaseBudget_committed]
        omega
      · rw [state, BudgetState.releaseBudget_active]
        omega
      · rw [state, BudgetState.releaseBudget_committed, BudgetState.releaseBudget_capacity]
        rcases accounted.bounded with below | one
        · left
          omega
        · rw [one] at nonzero
          by_cases nothing : bytes = 0
          · right
            simpa [nothing] using nonzero.symm
          · -- The guard was the one that is not zero, so the rest of the sum is.
            left
            have others : next.reservations.filter (· ≠ 0) = [] := by
              apply List.eq_nil_of_length_eq_zero
              simpa [nothing] using nonzero.symm
            have zero : (next.reservations.map UInt64.toNat).sum = 0 := by
              apply List.sum_eq_zero_iff_forall_eq_nat.mpr
              intro amount member
              obtain ⟨other, held, rfl⟩ := List.mem_map.mp member
              have isZero : other = 0 := by
                simpa using List.filter_eq_nil_iff.mp others other held
              rw [isZero, UInt64.toNat_zero]
            omega

theorem step (accounted : Accounted run) {event : BudgetEvent} (permitted : Few run event)
    (taken : run.step event = some next) : Accounted next := by
  cases event with
  | reserve estimateBytes =>
      obtain ⟨proceeds, moved⟩ := Option.ite_none_right_eq_some.mp taken
      apply accounted.reserve ?_ proceeds (Option.some.inj moved).symm
      have fewer : run.reservations.length ≤ run.guards.length := List.length_filterMap_le _ _
      have few : run.guards.length + 1 < 2 ^ 32 := permitted
      omega
  | reserveCold =>
      obtain ⟨_, moved⟩ := Option.ite_none_right_eq_some.mp taken
      obtain rfl := Option.some.inj moved
      exact ⟨accounted.committed, accounted.active, accounted.bounded⟩
  | releaseWithActual guard actualPeakBytes =>
      obtain ⟨live, moved⟩ := Option.ite_none_right_eq_some.mp taken
      rw [MemoryGuard.releaseWithActual_eq_drop] at moved
      exact accounted.drop live (Option.some.inj moved).symm
  | drop guard =>
      obtain ⟨live, moved⟩ := Option.ite_none_right_eq_some.mp taken
      exact accounted.drop live (Option.some.inj moved).symm

end Accounted

/-- Each guard that is gone has released once, and no live guard has. -/
structure Settled (run : BudgetRun) : Prop where
  below : ∀ guard ∈ run.issued, guard.id < run.issued.length
  releasesBelow : ∀ id ∈ run.budget.releases, id < run.issued.length
  distinct : (run.issued.map MemoryGuard.id).Nodup
  issuedLive : run.guards ⊆ run.issued
  liveNodup : run.guards.Nodup
  once : ∀ guard ∈ run.issued, run.budget.releases.count guard.id =
    if guard.inner.isSome ∧ guard ∉ run.guards then 1 else 0

namespace Settled

variable {run next : BudgetRun}

theorem initial (capacityBytes : UInt64) (coldPermits : Nat) :
    Settled (.initial capacityBytes coldPermits) := by
  constructor
  all_goals simp [BudgetRun.initial]

theorem handOut (settled : Settled run) {budget : MemoryBudget} {inner : Option UInt64}
    {coldPermit : Bool} (same : budget.releases = run.budget.releases) :
    Settled (run.handOut budget inner coldPermit) := by
  have older {guard : MemoryGuard} (issued : guard ∈ run.issued) :
      guard ≠ ⟨run.issued.length, inner, coldPermit⟩ := by
    rintro rfl
    exact absurd (settled.below _ issued) (Nat.lt_irrefl _)
  constructor
  · intro guard issued
    rcases List.mem_cons.mp issued with rfl | old
    · exact Nat.lt_succ_self _
    · exact Nat.lt_succ_of_lt (settled.below guard old)
  · intro id released
    simp only [BudgetRun.handOut, same] at released
    exact Nat.lt_succ_of_lt (settled.releasesBelow id released)
  · simp only [BudgetRun.handOut, List.map_cons, List.nodup_cons]
    refine ⟨?_, settled.distinct⟩
    intro repeated
    obtain ⟨guard, issued, sameId⟩ := List.mem_map.mp repeated
    have below := settled.below guard issued
    omega
  · exact List.cons_subset_cons _ settled.issuedLive
  · refine List.nodup_cons.mpr ⟨?_, settled.liveNodup⟩
    intro live
    exact older (settled.issuedLive live) rfl
  · intro guard issued
    simp only [BudgetRun.handOut, same]
    rcases List.mem_cons.mp issued with rfl | old
    · have unreleased : run.issued.length ∉ run.budget.releases := by
        intro released
        exact absurd (settled.releasesBelow _ released) (Nat.lt_irrefl _)
      simp [List.count_eq_zero_of_not_mem unreleased]
    · rw [settled.once guard old]
      simp [older old]

theorem drop (settled : Settled run) {guard : MemoryGuard} (live : guard ∈ run.guards) :
    Settled { run with budget := guard.drop run.budget, guards := run.guards.erase guard } := by
  have apart {other : MemoryGuard} (issued : other ∈ run.issued) (differ : other ≠ guard) :
      other.id ≠ guard.id := by
    intro sameId
    exact differ (List.inj_on_of_nodup_map settled.distinct issued (settled.issuedLive live) sameId)
  refine { settled with
    releasesBelow := ?_
    issuedLive := fun _ member => settled.issuedLive (List.mem_of_mem_erase member)
    liveNodup := settled.liveNodup.erase guard
    once := ?_ }
  · intro id released
    simp only [MemoryGuard.drop_releases] at released
    cases inner : guard.inner with
    | none =>
        rw [inner, Option.elim_none] at released
        exact settled.releasesBelow id released
    | some bytes =>
        rw [inner, Option.elim_some] at released
        rcases List.mem_cons.mp released with rfl | old
        · exact settled.below guard (settled.issuedLive live)
        · exact settled.releasesBelow id old
  · intro other issued
    simp only [MemoryGuard.drop_releases]
    have before := settled.once other issued
    by_cases here : other = guard
    · subst here
      rw [if_neg (fun gone => gone.2 live)] at before
      cases inner : other.inner with
      | none => simp [before]
      | some bytes =>
          have gone : other ∉ run.guards.erase other := settled.liveNodup.not_mem_erase
          simp [before, gone]
    · have kept : other ∈ run.guards.erase guard ↔ other ∈ run.guards :=
        List.mem_erase_of_ne here
      cases inner : guard.inner with
      | none => simp [before, kept]
      | some bytes =>
          have differ := apart issued here
          simp [before, kept, differ.symm]

theorem step (settled : Settled run) {event : BudgetEvent} (taken : run.step event = some next) :
    Settled next := by
  cases step_outcome taken with
  | reserved estimateBytes proceeds isNext =>
      rw [isNext]
      exact settled.handOut rfl
  | cold free isNext =>
      rw [isNext]
      exact settled.handOut rfl
  | dropped guard live isNext =>
      rw [isNext]
      exact settled.drop live

end Settled

end BudgetRun

namespace BudgetRun

theorem capacity_kept {run next : BudgetRun} {event : BudgetEvent}
    (taken : run.step event = some next) :
    next.budget.state.capacityBytes = run.budget.state.capacityBytes := by
  cases step_outcome taken with
  | reserved estimateBytes proceeds isNext =>
      rw [isNext]
      rfl
  | cold free isNext =>
      rw [isNext]
      rfl
  | dropped guard live isNext =>
      rw [isNext]
      simp only [MemoryGuard.drop_state]
      cases guard.inner with
      | none => rfl
      | some bytes => rfl

def coldGuards (run : BudgetRun) : Nat := run.guards.countP (·.coldPermit)

/-- A permit of the cold-start semaphore is free or held by one live guard. -/
theorem permits_kept {run next : BudgetRun} {event : BudgetEvent}
    (taken : run.step event = some next) :
    next.budget.coldPermits + next.coldGuards = run.budget.coldPermits + run.coldGuards := by
  cases step_outcome taken with
  | reserved estimateBytes proceeds isNext =>
      rw [isNext]
      simp [handOut, coldGuards]
  | cold free isNext =>
      rw [isNext]
      simp only [handOut, coldGuards, List.countP_cons_of_pos]
      omega
  | dropped guard live isNext =>
      have split := (List.perm_cons_erase live).countP_eq (·.coldPermit)
      rw [isNext]
      simp only [MemoryGuard.drop_coldPermits, coldGuards]
      rw [List.countP_cons] at split
      cases permit : guard.coldPermit with
      | false =>
          rw [permit] at split
          simpa using split.symm
      | true =>
          rw [permit] at split
          simp only [if_true, Bool.toNat_true] at split ⊢
          omega

theorem accounted_of_few {capacityBytes : UInt64} {coldPermits : Nat} {run : BudgetRun}
    (reached : Machine.Reachable step Few (initial capacityBytes coldPermits) run) :
    Accounted run := by
  induction reached with
  | refl => exact Accounted.initial capacityBytes coldPermits
  | tail event _ permitted taken ih => exact ih.step permitted taken

section Reached

variable {allowed : BudgetRun → BudgetEvent → Prop} {capacityBytes : UInt64} {coldPermits : Nat}
  {run : BudgetRun}

theorem capacity_of_reached
    (reached : Machine.Reachable step allowed (initial capacityBytes coldPermits) run) :
    run.budget.state.capacityBytes = capacityBytes := by
  induction reached with
  | refl => rfl
  | tail event _ _ taken ih => rw [capacity_kept taken, ih]

theorem permits_of_reached
    (reached : Machine.Reachable step allowed (initial capacityBytes coldPermits) run) :
    run.budget.coldPermits + run.coldGuards = coldPermits := by
  induction reached with
  | refl => rfl
  | tail event _ _ taken ih => rw [permits_kept taken, ih]

theorem settled_of_reached
    (reached : Machine.Reachable step allowed (initial capacityBytes coldPermits) run) :
    Settled run := by
  induction reached with
  | refl => exact Settled.initial capacityBytes coldPermits
  | tail event _ _ taken ih => exact ih.step taken

end Reached

end BudgetRun

/-- What the budget says in every state of a run with fewer than 2^32 live guards. -/
theorem budget_accounts (capacityBytes : UInt64) (coldPermits : Nat) (run : BudgetRun)
    (reached : Machine.Reachable BudgetRun.step BudgetRun.Few
      (.initial capacityBytes coldPermits) run) :
    run.budget.state.committedBytes.toNat = (run.reservations.map UInt64.toNat).sum ∧
    run.budget.state.activeCount.toNat = run.reservations.length ∧
    (∀ estimateBytes, run.budget.state.canProceed estimateBytes = true →
      run.budget.state.committedBytes.toNat + estimateBytes.toNat < 2 ^ 64) ∧
    (∀ reserved ∈ run.reservations, reserved.toNat ≤ run.budget.state.committedBytes.toNat ∧
      1 ≤ run.budget.state.activeCount.toNat) ∧
    (∀ guard ∈ run.issued, run.budget.releases.count guard.id =
      if guard.inner.isSome ∧ guard ∉ run.guards then 1 else 0) ∧
    run.budget.coldPermits + run.coldGuards = coldPermits ∧
    (run.budget.state.committedBytes ≤ capacityBytes ∨
      (run.reservations.filter (· ≠ 0)).length = 1) := by
  have accounted := BudgetRun.accounted_of_few reached
  have settled := BudgetRun.settled_of_reached reached
  refine ⟨accounted.committed, accounted.active, ?_, ?_, settled.once, ?_, ?_⟩
  · intro estimateBytes proceeds
    exact accounted.no_overflow proceeds
  · intro reserved held
    exact accounted.no_saturation held
  · exact BudgetRun.permits_of_reached reached
  · rw [UInt64.le_iff_toNat_le, ← BudgetRun.capacity_of_reached reached]
    exact accounted.bounded

/-- An estimate over the whole capacity is admitted alone, and one of nothing beside it. -/
theorem budget_accounts_oversized :
    ∃ run, Machine.run BudgetRun.step (.initial 100 2)
        [.reserve 40, .releaseWithActual ⟨0, some 40, false⟩ 30, .reserve 200, .reserve 0,
          .reserveCold] = some run ∧
      run.budget.releases.count 0 = 1 ∧ (run.reservations.filter (· ≠ 0)).length = 1 := by
  obtain ⟨run, ran, outcome⟩ : ∃ run,
      Machine.run (Machine.guarded BudgetRun.Few BudgetRun.step) (.initial 100 2)
        [.reserve 40, .releaseWithActual ⟨0, some 40, false⟩ 30, .reserve 200, .reserve 0,
          .reserveCold] = some run ∧
      (run.budget.state.committedBytes, decide (⟨0, some 40, false⟩ ∈ run.issued),
        decide (⟨0, some 40, false⟩ ∈ run.guards)) = (200, true, false) := by
    apply Option.map_eq_some_iff.mp
    decide +kernel
  simp only [Prod.mk.injEq, decide_eq_true_eq, decide_eq_false_iff_not] at outcome
  obtain ⟨committed, issued, gone⟩ := outcome
  obtain ⟨_, _, _, _, once, _, bounded⟩ :=
    budget_accounts 100 2 run (Machine.guarded_reachable ran)
  refine ⟨run, Machine.run_of_guarded ran, ?_, ?_⟩
  · simpa [gone] using once _ issued
  · rw [committed] at bounded
    exact bounded.resolve_left (by decide)

end Rage
