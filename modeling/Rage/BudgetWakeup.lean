import Rage.MemoryBudget
import Rage.Tally

/-!
How tasks wait for the memory budget.  `reserve` checks under the lock, unlocks, creates a
`Notified` future and parks on it; a release updates under the lock, unlocks and wakes the
futures that exist by then.
-/

namespace Rage

inductive ReservePhase
  | checking
  | admitted
  | refused
  | leaving
  | created (woken : Bool)
  | parked
  | running
  | updated
  | notifying
  | done
  deriving DecidableEq

namespace ReservePhase

def locks : ReservePhase → Bool
  | .admitted => true
  | .refused => true
  | .updated => true
  | _ => false

def holds : ReservePhase → Bool
  | .admitted => true
  | .running => true
  | _ => false

/-- A release is in progress from its update to its `notify_waiters`. -/
def releases : ReservePhase → Bool
  | .updated => true
  | .notifying => true
  | _ => false

/-- Refused, and not yet woken. -/
def waits : ReservePhase → Bool
  | .leaving => true
  | .created false => true
  | .parked => true
  | _ => false

/-- What `notify_waiters` does to a task. -/
def wake : ReservePhase → ReservePhase
  | .created _ => .created true
  | .parked => .checking
  | phase => phase

theorem wake_locks (phase : ReservePhase) : phase.wake.locks = phase.locks := by
  cases phase with
  | _ => rfl

theorem wake_holds (phase : ReservePhase) : phase.wake.holds = phase.holds := by
  cases phase with
  | _ => rfl

theorem wake_releases (phase : ReservePhase) : phase.wake.releases = phase.releases := by
  cases phase with
  | _ => rfl

theorem wake_waits {phase : ReservePhase} (waits : phase.wake.waits = true) : phase = .leaving := by
  cases phase with
  | leaving => rfl
  | created woken => simp [wake, ReservePhase.waits] at waits
  | _ => simp [wake, ReservePhase.waits] at waits

end ReservePhase

structure Waiters where
  state : BudgetState
  lock : Option Nat
  phase : Nat → ReservePhase

inductive WaitEvent
  | check (task : Nat)
  | unlock (task : Nat)
  | create (task : Nat)
  | park (task : Nat)
  | update (task : Nat)
  | notify (task : Nat)

namespace Waiters

def initial (capacityBytes : UInt64) : Waiters := ⟨⟨capacityBytes, 0, 0⟩, none, fun _ => .checking⟩

def setPhase (waiters : Waiters) (task : Nat) (phase : ReservePhase) : Waiters :=
  { waiters with phase := Function.update waiters.phase task phase }

def unlocked : ReservePhase → Option ReservePhase
  | .admitted => some .running
  | .refused => some .leaving
  | .updated => some .notifying
  | _ => none

/-- A future that was woken before it is polled does not wait. -/
def polled : ReservePhase → Option ReservePhase
  | .created false => some .parked
  | .created true => some .checking
  | _ => none

def step (estimates : List UInt64) (waiters : Waiters) : WaitEvent → Option Waiters
  | .check task =>
      if task < estimates.length ∧ waiters.lock = none ∧ waiters.phase task = .checking then
        if waiters.state.canProceed (estimates.getD task 0) then
          some { waiters.setPhase task .admitted with
            state := waiters.state.commit (estimates.getD task 0), lock := some task }
        else some { waiters.setPhase task .refused with lock := some task }
      else none
  | .unlock task =>
      (unlocked (waiters.phase task)).map fun phase =>
        { waiters.setPhase task phase with lock := none }
  | .create task =>
      if waiters.phase task = .leaving then some (waiters.setPhase task (.created false)) else none
  | .park task => (polled (waiters.phase task)).map fun phase => waiters.setPhase task phase
  | .update task =>
      if waiters.lock = none ∧ waiters.phase task = .running then
        some { waiters.setPhase task .updated with
          state := waiters.state.releaseBudget (estimates.getD task 0), lock := some task }
      else none
  | .notify task =>
      if waiters.phase task = .notifying then
        some { waiters with
          phase := Function.update (fun other => (waiters.phase other).wake) task .done }
      else none

/-- A task is parked that could be admitted, and no release will wake it. -/
def Lost (estimates : List UInt64) (waiters : Waiters) : Prop :=
  ∃ task < estimates.length, waiters.phase task = .parked ∧
    waiters.state.canProceed (estimates.getD task 0) = true ∧
    ∀ other < estimates.length, (waiters.phase other).releases = false

/-- The last release in progress finds no task between its unlock and its `Notified` future that
could be admitted now. -/
def Heard (estimates : List UInt64) (waiters : Waiters) : WaitEvent → Prop
  | .notify task =>
      (∀ other < estimates.length, other ≠ task → (waiters.phase other).releases = false) →
        ∀ other < estimates.length, waiters.phase other = .leaving →
          waiters.state.canProceed (estimates.getD other 0) = false
  | .check _ => waiters.state.activeCount.toNat + 1 < 2 ^ 32
  | _ => True

instance (estimates : List UInt64) (waiters : Waiters) (event : WaitEvent) :
    Decidable (Heard estimates waiters event) := by
  cases event with
  | check => exact inferInstanceAs (Decidable (waiters.state.activeCount.toNat + 1 < 2 ^ 32))
  | notify task =>
      exact inferInstanceAs (Decidable ((∀ other < estimates.length, other ≠ task →
        (waiters.phase other).releases = false) → ∀ other < estimates.length,
          waiters.phase other = .leaving →
            waiters.state.canProceed (estimates.getD other 0) = false))
  | _ => exact inferInstanceAs (Decidable True)

def estimateHeld (estimates : List UInt64) (task : Nat) (phase : ReservePhase) : Nat :=
  if phase.holds then (estimates.getD task 0).toNat else 0

def guardHeld (_ : Nat) (phase : ReservePhase) : Nat := if phase.holds then 1 else 0

/-- What holds while every release is heard. -/
structure Awake (estimates : List UInt64) (waiters : Waiters) : Prop where
  bound : ∀ task, waiters.phase task ≠ .checking → task < estimates.length
  locked : ∀ task, (waiters.phase task).locks = true → waiters.lock = some task
  committed : waiters.state.committedBytes.toNat =
    Tally.total estimates.length (estimateHeld estimates) waiters.phase
  active : waiters.state.activeCount.toNat =
    Tally.total estimates.length guardHeld waiters.phase
  refused : ∀ task, waiters.phase task = .refused →
    waiters.state.canProceed (estimates.getD task 0) = false
  waiting : ∀ task, (waiters.phase task).waits = true →
    waiters.state.canProceed (estimates.getD task 0) = true →
      ∃ other < estimates.length, (waiters.phase other).releases = true

namespace Awake

variable {estimates : List UInt64} {waiters next : Waiters}

theorem initial (estimates : List UInt64) (capacityBytes : UInt64) :
    Awake estimates (.initial capacityBytes) := by
  have nothing : Tally.total estimates.length (estimateHeld estimates)
      (Waiters.initial capacityBytes).phase = 0 :=
    Tally.total_eq_zero fun _ _ => rfl
  have noGuards : Tally.total estimates.length guardHeld
      (Waiters.initial capacityBytes).phase = 0 :=
    Tally.total_eq_zero fun _ _ => rfl
  constructor
  · intro task spawned
    exact absurd rfl spawned
  · intro task locks
    simp [Waiters.initial, ReservePhase.locks] at locks
  · rw [nothing]
    rfl
  · rw [noGuards]
    rfl
  · simp [Waiters.initial]
  · intro task waits
    simp [Waiters.initial, ReservePhase.waits] at waits

theorem idle (awake : Awake estimates waiters) (inactive : waiters.state.activeCount.toNat = 0) :
    waiters.state.committedBytes.toNat = 0 := by
  rw [awake.committed]
  rw [awake.active] at inactive
  apply Tally.total_eq_zero
  intro task below
  cases holds : (waiters.phase task).holds with
  | false => simp [estimateHeld, holds]
  | true =>
      have positive : 0 < Tally.total estimates.length guardHeld waiters.phase :=
        Tally.total_pos below (by simp [guardHeld, holds])
      omega

/-- One task moves on; the others keep their phases. -/
theorem moved (awake : Awake estimates waiters) {task : Nat} (below : task < estimates.length)
    {phase : ReservePhase} (phases : next.phase = Function.update waiters.phase task phase)
    (locked : ∀ other, (next.phase other).locks = true → next.lock = some other)
    (committed : next.state.committedBytes.toNat +
        estimateHeld estimates task (waiters.phase task) =
      waiters.state.committedBytes.toNat + estimateHeld estimates task phase)
    (active : next.state.activeCount.toNat + guardHeld task (waiters.phase task) =
      waiters.state.activeCount.toNat + guardHeld task phase)
    (opens : ∀ other, next.state.canProceed (estimates.getD other 0) = true →
      waiters.state.canProceed (estimates.getD other 0) = true ∨ phase.releases = true)
    (releases : (waiters.phase task).releases = true → phase.releases = true)
    (refused : ∀ other, next.phase other = .refused →
      next.state.canProceed (estimates.getD other 0) = false)
    (waits : phase.waits = true → (waiters.phase task).waits = true ∨
      next.state.canProceed (estimates.getD task 0) = false) : Awake estimates next := by
  have here : next.phase task = phase := by rw [phases, Function.update_self]
  have elsewhere {other : Nat} (differ : other ≠ task) :
      next.phase other = waiters.phase other := by rw [phases, Function.update_of_ne differ]
  constructor
  · intro other spawned
    by_cases same : other = task
    · rwa [same]
    · rw [elsewhere same] at spawned
      exact awake.bound other spawned
  · exact locked
  · have sum := Tally.total_update (estimateHeld estimates) waiters.phase below phase
    rw [← phases, ← awake.committed] at sum
    omega
  · have sum := Tally.total_update guardHeld waiters.phase below phase
    rw [← phases, ← awake.active] at sum
    omega
  · exact refused
  · intro other waiting proceeds
    by_cases releasing : phase.releases = true
    · exact ⟨task, below, by rwa [here]⟩
    · have proceeded := (opens other proceeds).resolve_right releasing
      have waited : (waiters.phase other).waits = true := by
        by_cases same : other = task
        · subst same
          rw [here] at waiting
          rcases waits waiting with waited | refusal
          · exact waited
          · rw [refusal] at proceeds
            exact absurd proceeds Bool.false_ne_true
        · rwa [elsewhere same] at waiting
      obtain ⟨releaser, bound, inProgress⟩ := awake.waiting other waited proceeded
      refine ⟨releaser, bound, ?_⟩
      have differ : releaser ≠ task := by
        rintro rfl
        exact releasing (releases inProgress)
      rwa [elsewhere differ]

theorem lock_taken (awake : Awake estimates waiters) (free : waiters.lock = none) {task : Nat}
    {phase : ReservePhase} (phases : next.phase = Function.update waiters.phase task phase)
    (lock : next.lock = some task) (other : Nat) (locks : (next.phase other).locks = true) :
    next.lock = some other := by
  by_cases same : other = task
  · rw [lock, same]
  · rw [phases, Function.update_of_ne same] at locks
    have held := awake.locked other locks
    rw [free] at held
    exact absurd held (by simp)

theorem none_locks (awake : Awake estimates waiters) (free : waiters.lock = none) (task : Nat) :
    (waiters.phase task).locks = false := by
  by_contra locks
  have held := awake.locked task (by simpa using locks)
  rw [free] at held
  exact absurd held (by simp)

theorem check (awake : Awake estimates waiters) {task : Nat}
    (few : waiters.state.activeCount.toNat + 1 < 2 ^ 32)
    (taken : waiters.step estimates (.check task) = some next) : Awake estimates next := by
  obtain ⟨⟨below, free, checking⟩, checked⟩ := Option.ite_none_right_eq_some.mp taken
  have notRefused (other : Nat) : waiters.phase other ≠ .refused := by
    intro isRefused
    have unlocked := awake.none_locks free other
    simp [isRefused, ReservePhase.locks] at unlocked
  split at checked
  · rename_i proceeds
    obtain rfl := Option.some.inj checked
    have fits := BudgetState.no_overflow awake.idle proceeds
    apply awake.moved below rfl (awake.lock_taken free rfl rfl)
    · simp only [BudgetState.commit_committed fits, checking]
      simp [estimateHeld, ReservePhase.holds]
    · simp only [BudgetState.commit_active few, checking]
      simp [guardHeld, ReservePhase.holds]
    · intro other opens
      exact Or.inl (BudgetState.canProceed_of_commit fits few opens)
    · simp [checking, ReservePhase.releases]
    · intro other isRefused
      by_cases same : other = task
      · simp [setPhase, same] at isRefused
      · simp only [setPhase, Function.update_of_ne same] at isRefused
        exact absurd isRefused (notRefused other)
    · simp [ReservePhase.waits]
  · rename_i refusal
    obtain rfl := Option.some.inj checked
    apply awake.moved below rfl (awake.lock_taken free rfl rfl)
    · simp [setPhase, checking, estimateHeld, ReservePhase.holds]
    · simp [setPhase, checking, guardHeld, ReservePhase.holds]
    · intro other opens
      exact Or.inl opens
    · simp [checking, ReservePhase.releases]
    · intro other isRefused
      by_cases same : other = task
      · rw [same]
        exact Bool.eq_false_iff.mpr refusal
      · simp only [setPhase, Function.update_of_ne same] at isRefused
        exact absurd isRefused (notRefused other)
    · simp [ReservePhase.waits]

/-- A step of one task that leaves the budget as it is and holds nothing more or less. -/
theorem passed (awake : Awake estimates waiters) {task : Nat} (below : task < estimates.length)
    {phase : ReservePhase} (phases : next.phase = Function.update waiters.phase task phase)
    (state : next.state = waiters.state)
    (locked : ∀ other, (next.phase other).locks = true → next.lock = some other)
    (holds : (waiters.phase task).holds = phase.holds)
    (releases : (waiters.phase task).releases = true → phase.releases = true)
    (notRefused : phase ≠ .refused)
    (waits : phase.waits = true → (waiters.phase task).waits = true ∨
      waiters.state.canProceed (estimates.getD task 0) = false) : Awake estimates next := by
  apply awake.moved below phases locked
  · rw [state, estimateHeld, holds, estimateHeld]
  · rw [state, guardHeld, holds, guardHeld]
  · intro other opens
    rw [state] at opens
    exact Or.inl opens
  · exact releases
  · intro other isRefused
    rw [state]
    apply awake.refused other
    by_cases same : other = task
    · rw [phases, same, Function.update_self] at isRefused
      exact absurd isRefused notRefused
    · rwa [phases, Function.update_of_ne same] at isRefused
  · rw [state]
    exact waits

theorem unlocked_cases {was phase : ReservePhase} (isUnlocked : unlocked was = some phase) :
    was = .admitted ∧ phase = .running ∨ was = .refused ∧ phase = .leaving ∨
      was = .updated ∧ phase = .notifying := by
  cases was with
  | admitted => exact Or.inl ⟨rfl, (Option.some.inj isUnlocked).symm⟩
  | refused => exact Or.inr (Or.inl ⟨rfl, (Option.some.inj isUnlocked).symm⟩)
  | updated => exact Or.inr (Or.inr ⟨rfl, (Option.some.inj isUnlocked).symm⟩)
  | _ => simp [unlocked] at isUnlocked

theorem unlock (awake : Awake estimates waiters) {task : Nat}
    (taken : waiters.step estimates (.unlock task) = some next) : Awake estimates next := by
  obtain ⟨phase, isUnlocked, rfl⟩ := Option.map_eq_some_iff.mp taken
  generalize was : waiters.phase task = before at isUnlocked
  have below (spawned : before ≠ .checking) : task < estimates.length :=
    awake.bound task (by rwa [was])
  -- The task has the lock, so no other one does.
  have noneLocks (locks : before.locks = true) (notLocking : phase.locks = false) (other : Nat)
      (othersLock : (Function.update waiters.phase task phase other).locks = true) :
      none = some other := by
    by_cases same : other = task
    · rw [same, Function.update_self, notLocking] at othersLock
      exact absurd othersLock Bool.false_ne_true
    · rw [Function.update_of_ne same] at othersLock
      have held := awake.locked other othersLock
      rw [awake.locked task (by rwa [was])] at held
      exact absurd (Option.some.inj held).symm same
  rcases unlocked_cases isUnlocked with ⟨rfl, rfl⟩ | ⟨rfl, rfl⟩ | ⟨rfl, rfl⟩
  · refine awake.passed (below (by simp)) (by rfl) (by rfl) (noneLocks rfl rfl) ?_ ?_ ?_ ?_
    · rw [was]
      rfl
    · simp [was, ReservePhase.releases]
    · simp
    · simp [ReservePhase.waits]
  · refine awake.passed (below (by simp)) (by rfl) (by rfl) (noneLocks rfl rfl) ?_ ?_ ?_ ?_
    · rw [was]
      rfl
    · simp [was, ReservePhase.releases]
    · simp
    · exact fun _ => Or.inr (awake.refused task was)
  · refine awake.passed (below (by simp)) (by rfl) (by rfl) (noneLocks rfl rfl) ?_ ?_ ?_ ?_
    · rw [was]
      rfl
    · simp [ReservePhase.releases]
    · simp
    · simp [ReservePhase.waits]

theorem locked_elsewhere (awake : Awake estimates waiters) {task : Nat} {phase : ReservePhase}
    (notLocking : phase.locks = false) (other : Nat)
    (locks : (Function.update waiters.phase task phase other).locks = true) :
    waiters.lock = some other := by
  by_cases same : other = task
  · rw [same, Function.update_self, notLocking] at locks
    exact absurd locks Bool.false_ne_true
  · rw [Function.update_of_ne same] at locks
    exact awake.locked other locks

theorem create (awake : Awake estimates waiters) {task : Nat}
    (taken : waiters.step estimates (.create task) = some next) : Awake estimates next := by
  obtain ⟨leaving, moved⟩ := Option.ite_none_right_eq_some.mp taken
  obtain rfl := Option.some.inj moved
  have below : task < estimates.length := awake.bound task (by simp [leaving])
  refine awake.passed below (by rfl) (by rfl) (awake.locked_elsewhere rfl) ?_ ?_ ?_ ?_
  · rw [leaving]
    rfl
  · simp [leaving, ReservePhase.releases]
  · simp
  · simp [leaving, ReservePhase.waits]

theorem park (awake : Awake estimates waiters) {task : Nat}
    (taken : waiters.step estimates (.park task) = some next) : Awake estimates next := by
  obtain ⟨phase, isPolled, rfl⟩ := Option.map_eq_some_iff.mp taken
  cases was : waiters.phase task with
  | created woken =>
      have below : task < estimates.length := awake.bound task (by simp [was])
      cases woken with
      | false =>
          obtain rfl : ReservePhase.parked = phase := by simpa [was, polled] using isPolled
          refine awake.passed below (by rfl) (by rfl) (awake.locked_elsewhere rfl) ?_ ?_ ?_ ?_
          · rw [was]
            rfl
          · simp [was, ReservePhase.releases]
          · simp
          · simp [was, ReservePhase.waits]
      | true =>
          obtain rfl : ReservePhase.checking = phase := by simpa [was, polled] using isPolled
          refine awake.passed below (by rfl) (by rfl) (awake.locked_elsewhere rfl) ?_ ?_ ?_ ?_
          · rw [was]
            rfl
          · simp [was, ReservePhase.releases]
          · simp
          · simp [ReservePhase.waits]
  | _ => simp [was, polled] at isPolled

theorem update (awake : Awake estimates waiters) {task : Nat}
    (taken : waiters.step estimates (.update task) = some next) : Awake estimates next := by
  obtain ⟨⟨free, running⟩, moved⟩ := Option.ite_none_right_eq_some.mp taken
  obtain rfl := Option.some.inj moved
  have below : task < estimates.length := awake.bound task (by simp [running])
  have holds : (waiters.phase task).holds = true := by rw [running]; rfl
  have heldEstimate : (estimates.getD task 0).toNat ≤ waiters.state.committedBytes.toNat := by
    rw [awake.committed]
    have one := Tally.weight_le_total (estimateHeld estimates) waiters.phase below
    rwa [estimateHeld, if_pos holds] at one
  have heldGuard : 1 ≤ waiters.state.activeCount.toNat := by
    rw [awake.active]
    have one := Tally.weight_le_total guardHeld waiters.phase below
    rwa [guardHeld, if_pos holds] at one
  apply awake.moved below rfl (awake.lock_taken free rfl rfl)
  · simp only [BudgetState.releaseBudget_committed, estimateHeld, running, ReservePhase.holds]
    simp only [if_true, Bool.false_eq_true, if_false]
    omega
  · simp only [BudgetState.releaseBudget_active, guardHeld, running, ReservePhase.holds]
    simp only [if_true, Bool.false_eq_true, if_false]
    omega
  · exact fun _ _ => Or.inr rfl
  · exact fun _ => rfl
  · intro other isRefused
    by_cases same : other = task
    · simp [setPhase, same] at isRefused
    · simp only [setPhase, Function.update_of_ne same] at isRefused
      have unlocked := awake.none_locks free other
      simp [isRefused, ReservePhase.locks] at unlocked
  · simp [ReservePhase.waits]

theorem notify (awake : Awake estimates waiters) {task : Nat}
    (heard : waiters.Heard estimates (.notify task))
    (taken : waiters.step estimates (.notify task) = some next) : Awake estimates next := by
  obtain ⟨notifying, moved⟩ := Option.ite_none_right_eq_some.mp taken
  have isNext := (Option.some.inj moved).symm
  have state : next.state = waiters.state := by rw [isNext]
  have lock : next.lock = waiters.lock := by rw [isNext]
  have here : next.phase task = .done := by
    rw [isNext]
    simp
  have elsewhere {other : Nat} (differ : other ≠ task) :
      next.phase other = (waiters.phase other).wake := by
    rw [isNext]
    simp [Function.update_of_ne differ]
  have below : task < estimates.length := awake.bound task (by simp [notifying])
  have holdsSame (other : Nat) : (next.phase other).holds = (waiters.phase other).holds := by
    by_cases same : other = task
    · rw [same, here, notifying]
      rfl
    · rw [elsewhere same, ReservePhase.wake_holds]
  constructor
  · intro other spawned
    by_cases same : other = task
    · rwa [same]
    · apply awake.bound
      intro checking
      rw [elsewhere same, checking] at spawned
      exact spawned rfl
  · intro other locks
    rw [lock]
    apply awake.locked
    by_cases same : other = task
    · rw [same, here] at locks
      exact absurd locks Bool.false_ne_true
    · rwa [elsewhere same, ReservePhase.wake_locks] at locks
  · rw [state, awake.committed]
    apply Eq.symm
    apply Tally.total_congr
    intro other _
    rw [estimateHeld, holdsSame, estimateHeld]
  · rw [state, awake.active]
    apply Eq.symm
    apply Tally.total_congr
    intro other _
    rw [guardHeld, holdsSame, guardHeld]
  · intro other isRefused
    rw [state]
    apply awake.refused
    by_cases same : other = task
    · simp [same, here] at isRefused
    · rw [elsewhere same] at isRefused
      cases was : waiters.phase other with
      | refused => rfl
      | _ => simp [was, ReservePhase.wake] at isRefused
  · intro other waits proceeds
    rw [state] at proceeds
    have leaving : waiters.phase other = .leaving := by
      by_cases same : other = task
      · rw [same, here] at waits
        exact absurd waits Bool.false_ne_true
      · rw [elsewhere same] at waits
        exact ReservePhase.wake_waits waits
    -- Without another release the task would be one that this release has not found.
    by_contra none
    push Not at none
    have last : ∀ releaser < estimates.length, releaser ≠ task →
        (waiters.phase releaser).releases = false := by
      intro releaser bound differ
      have quiet := none releaser bound
      rw [elsewhere differ, ReservePhase.wake_releases] at quiet
      simpa using quiet
    have bound : other < estimates.length := awake.bound other (by simp [leaving])
    have refusal := heard last other bound leaving
    rw [refusal] at proceeds
    exact Bool.false_ne_true proceeds

theorem step (awake : Awake estimates waiters) {event : WaitEvent}
    (heard : waiters.Heard estimates event)
    (taken : waiters.step estimates event = some next) : Awake estimates next := by
  cases event with
  | check task => exact awake.check heard taken
  | unlock task => exact awake.unlock taken
  | create task => exact awake.create taken
  | park task => exact awake.park taken
  | update task => exact awake.update taken
  | notify task => exact awake.notify heard taken

theorem not_lost (awake : Awake estimates waiters) : ¬ waiters.Lost estimates := by
  rintro ⟨task, below, parked, proceeds, quiet⟩
  obtain ⟨other, bound, releases⟩ :=
    awake.waiting task (by rw [parked]; rfl) proceeds
  rw [quiet other bound] at releases
  exact Bool.false_ne_true releases

theorem reachable {capacityBytes : UInt64}
    (reached : Machine.Reachable (Waiters.step estimates) (Heard estimates)
      (.initial capacityBytes) waiters) : Awake estimates waiters := by
  induction reached with
  | refl => exact initial estimates capacityBytes
  | tail event _ heard taken ih => exact ih.step heard taken

end Awake

/-- A release that is not heard can leave a task lost: the one that it missed parks. -/
theorem lost_of_unheard {estimates : List UInt64} {waiters next : Waiters} {task : Nat}
    (taken : waiters.step estimates (.notify task) = some next)
    (unheard : ¬ waiters.Heard estimates (.notify task)) :
    ∃ missed lost, Machine.run (step estimates) next [.create missed, .park missed] = some lost ∧
      lost.Lost estimates := by
  obtain ⟨notifying, moved⟩ := Option.ite_none_right_eq_some.mp taken
  have isNext := (Option.some.inj moved).symm
  simp only [Heard] at unheard
  push Not at unheard
  obtain ⟨last, missed, below, leaving, opens⟩ := unheard
  have differ : missed ≠ task := by
    rintro rfl
    simp [leaving] at notifying
  have stillLeaving : next.phase missed = .leaving := by
    rw [isNext]
    simp [Function.update_of_ne differ, leaving, ReservePhase.wake]
  have created : next.step estimates (.create missed) =
      some (next.setPhase missed (.created false)) := if_pos stillLeaving
  have parks : (next.setPhase missed (.created false)).step estimates (.park missed) =
      some ((next.setPhase missed (.created false)).setPhase missed .parked) := by
    simp [step, setPhase, polled]
  refine ⟨missed, (next.setPhase missed (.created false)).setPhase missed .parked, ?_, missed,
    below, ?_, ?_, ?_⟩
  · simp [Machine.run, created, parks]
  · simp [setPhase]
  · rw [isNext]
    simpa [setPhase] using opens
  · intro other bound
    by_cases same : other = missed
    · simp [same, setPhase, ReservePhase.releases]
    · simp only [setPhase, Function.update_of_ne same]
      rw [isNext]
      by_cases releaser : other = task
      · simp [releaser, ReservePhase.releases]
      · simp only [Function.update_of_ne releaser, ReservePhase.wake_releases]
        exact last other bound releaser

end Waiters

/-- Where each release finds what it opens the budget for, no task waits for ever; where one
does not, the task that it missed can. -/
theorem no_lost_wakeup (capacityBytes : UInt64) (estimates : List UInt64) (waiters : Waiters)
    (reached : Machine.Reachable (Waiters.step estimates) (Waiters.Heard estimates)
      (.initial capacityBytes) waiters) :
    ¬ waiters.Lost estimates ∧
    ∀ task next, waiters.step estimates (.notify task) = some next →
      ¬ waiters.Heard estimates (.notify task) →
      ∃ missed lost, Machine.run (Waiters.step estimates) next [.create missed, .park missed] =
          some lost ∧ lost.Lost estimates := by
  constructor
  · exact (Waiters.Awake.reachable reached).not_lost
  · intro task next taken unheard
    exact Waiters.lost_of_unheard taken unheard

/-! Two tasks of which the budget lets in one at a time. -/

namespace MissedRelease

def estimates : List UInt64 := [60, 60]

def oneRefused : List WaitEvent := [.check 0, .unlock 0, .check 1, .unlock 1]

def release : List WaitEvent := [.update 0, .unlock 0, .notify 0]

def heard : List WaitEvent := oneRefused ++ [.create 1, .park 1] ++ release ++ [.check 1]

def missed : List WaitEvent := oneRefused ++ release ++ [.create 1, .park 1]

end MissedRelease

theorem no_lost_wakeup_heard :
    ∃ waiters, Machine.run (Waiters.step MissedRelease.estimates) (.initial 100)
        MissedRelease.heard = some waiters ∧
      ¬ waiters.Lost MissedRelease.estimates := by
  obtain ⟨waiters, ran⟩ : ∃ waiters,
      Machine.run (Machine.guarded (Waiters.Heard MissedRelease.estimates)
        (Waiters.step MissedRelease.estimates)) (.initial 100) MissedRelease.heard =
          some waiters := by
    apply Option.isSome_iff_exists.mp
    decide +kernel
  exact ⟨waiters, Machine.run_of_guarded ran,
    (no_lost_wakeup 100 MissedRelease.estimates waiters (Machine.guarded_reachable ran)).1⟩

/-- The only release comes before the refused task has its future: it parks for ever. -/
theorem wakeup_lost :
    ¬ ∀ (capacityBytes : UInt64) (estimates : List UInt64) (waiters : Waiters),
      Machine.Reachable (Waiters.step estimates) (fun _ _ => True) (.initial capacityBytes)
        waiters → ¬ waiters.Lost estimates := by
  intro claimed
  obtain ⟨waiters, ran, outcome⟩ : ∃ waiters,
      Machine.run (Waiters.step MissedRelease.estimates) (.initial 100) MissedRelease.missed =
          some waiters ∧
        (waiters.state, waiters.phase 0, waiters.phase 1) = (⟨100, 0, 0⟩, .done, .parked) := by
    apply Option.map_eq_some_iff.mp
    decide +kernel
  simp only [Prod.mk.injEq] at outcome
  obtain ⟨state, first, second⟩ := outcome
  apply claimed 100 MissedRelease.estimates waiters
    (Machine.run_reachable (fun _ _ _ => trivial) ran)
  refine ⟨1, by decide, second, ?_, ?_⟩
  · rw [state]
    decide
  · intro other below
    obtain rfl | rfl : other = 0 ∨ other = 1 := by
      have bound : other < 2 := below
      omega
    · rw [first]
      rfl
    · rw [second]
      rfl

end Rage
