import Mathlib.Data.PNat.Defs
import Rage.CommandLife
import Rage.Liveness
import Rage.MemoryBudget
import Rage.Tally

/-!
Admission in `run_single_task_two_phase`.  A task that misses the cache takes a permit of the
subprocess semaphore and then, with the permit, a guard of the memory budget or of the cold-start
semaphore; it keeps both while its command executes.
-/

namespace Rage

/-- What the scheduler asks of the machine; `maxPermits` is the bound of `Semaphore::new`. -/
structure HostResources where
  availableParallelism : Option ℕ+
  availableMemory : UInt64
  maxPermits : Nat
  parallelFits : availableParallelism.elim 4 PNat.val ≤ maxPermits

structure ConcurrencyLimits where
  maxConcurrency : Option Nat
  coldConcurrency : Option Nat

def HostResources.cpuCount (host : HostResources) : Nat := host.availableParallelism.elim 4 PNat.val

def HostResources.available (host : HostResources) : UInt64 := max host.availableMemory 1

def effectiveConcurrency (host : HostResources) (maxConcurrency : Option Nat) : Nat :=
  maxConcurrency.getD host.cpuCount

def coldPermits (host : HostResources) (coldConcurrency : Option Nat) : Nat :=
  coldConcurrency.getD
    (min host.cpuCount (max (host.available / (1024 * 1024 * 1024) / 2).toNat 1))

/-- Where a limit is given, it is from one to the bound of `Semaphore::new`. -/
def ConcurrencyLimits.Usable (limits : ConcurrencyLimits) (host : HostResources) : Prop :=
  (∀ limit ∈ limits.maxConcurrency, 0 < limit ∧ limit ≤ host.maxPermits) ∧
    ∀ limit ∈ limits.coldConcurrency, 0 < limit ∧ limit ≤ host.maxPermits

theorem HostResources.cpuCount_pos (host : HostResources) : 0 < host.cpuCount := by
  unfold cpuCount
  cases host.availableParallelism with
  | none => simp
  | some count => exact count.pos

theorem ConcurrencyLimits.Usable.concurrency {limits : ConcurrencyLimits} {host : HostResources}
    (usable : limits.Usable host) : 0 < effectiveConcurrency host limits.maxConcurrency ∧
      effectiveConcurrency host limits.maxConcurrency ≤ host.maxPermits := by
  unfold effectiveConcurrency
  cases given : limits.maxConcurrency with
  | none => exact ⟨host.cpuCount_pos, host.parallelFits⟩
  | some limit => exact usable.1 limit given

theorem ConcurrencyLimits.Usable.cold {limits : ConcurrencyLimits} {host : HostResources}
    (usable : limits.Usable host) : 0 < coldPermits host limits.coldConcurrency ∧
      coldPermits host limits.coldConcurrency ≤ host.maxPermits := by
  unfold coldPermits
  cases given : limits.coldConcurrency with
  | none =>
      have cpus := host.cpuCount_pos
      have fits : host.cpuCount ≤ host.maxPermits := host.parallelFits
      rw [Option.getD_none]
      omega
  | some limit => exact usable.2 limit given

/-- Where a running task is; the guard of a cold start is `none`. -/
inductive Gate
  | lookup
  | queued
  | reserving (estimate : Option UInt64)
  | executing (guard : Option UInt64)
  | exited (guard : Option (Option UInt64)) (outcome : CommandOutcome)
  deriving DecidableEq

namespace Gate

def hasPermit : Gate → Bool
  | .reserving _ => true
  | .executing _ => true
  | .exited _ _ => true
  | _ => false

def guard : Gate → Option (Option UInt64)
  | .executing guard => some guard
  | .exited guard _ => guard
  | _ => none

end Gate

structure Admission where
  schedule : Schedule
  gate : Nat → Gate
  cpuPermits : Nat
  budget : BudgetState
  coldPermits : Nat

inductive AdmissionEvent
  | scheduler (event : SchedulerEvent)
  | hit (index : Nat)
  | miss (index : Nat)
  | acquire (index : Nat) (estimate : Option UInt64)
  | reserve (index : Nat)
  | exit (index : Nat) (outcome : CommandOutcome)
  | conclude (index : Nat)

/-- A panic is not a step that anyone can wait for. -/
def AdmissionEvent.panics : AdmissionEvent → Bool
  | .scheduler (.drop _ panics) => panics
  | .scheduler (.rootDrop _ panics) => panics
  | _ => false

namespace Admission

/-- `Semaphore::new` panics over its bound. -/
def initial (set : TaskSet) (host : HostResources) (limits : ConcurrencyLimits) : Option Admission :=
  if effectiveConcurrency host limits.maxConcurrency ≤ host.maxPermits ∧
      Rage.coldPermits host limits.coldConcurrency ≤ host.maxPermits then
    some {
      schedule := .initial set
      gate := fun _ => .lookup
      cpuPermits := effectiveConcurrency host limits.maxConcurrency
      budget := ⟨host.available * 3 / 4, 0, 0⟩
      coldPermits := Rage.coldPermits host limits.coldConcurrency }
  else none

def setGate (admission : Admission) (index : Nat) (gate : Gate) : Admission :=
  { admission with gate := Function.update admission.gate index gate }

def releaseGuard (admission : Admission) : Option (Option UInt64) → Admission
  | some (some reserved) => { admission with budget := admission.budget.releaseBudget reserved }
  | some none => { admission with coldPermits := admission.coldPermits + 1 }
  | none => admission

/-- A future that ends drops its guard and its permit. -/
def leave (admission : Admission) (index : Nat) (next : Schedule) : Admission :=
  { (admission.releaseGuard (admission.gate index).guard).setGate index .lookup with
    schedule := next
    cpuPermits := admission.cpuPermits + (admission.gate index).hasPermit.toNat }

/-- In loose mode the guard is released when the command has exited. -/
def afterExit (admission : Admission) (index : Nat) (task : Task) (guard : Option UInt64)
    (outcome : CommandOutcome) : Admission :=
  match task.sandboxMode, outcome with
  | .loose, .exited _ => (admission.releaseGuard (some guard)).setGate index (.exited none outcome)
  | _, _ => admission.setGate index (.exited (some guard) outcome)

def step (set : TaskSet) (admission : Admission) : AdmissionEvent → Option Admission
  | .scheduler (.finish _ _) => none
  | .scheduler (.drop index panics) =>
      (admission.schedule.step set (.drop index panics)).map (admission.leave index)
  | .scheduler event =>
      (admission.schedule.step set event).map fun next => { admission with schedule := next }
  | .hit index =>
      if admission.gate index = .lookup then
        (admission.schedule.step set (.finish index (.ok ()))).map (admission.leave index)
      else none
  | .miss index =>
      if admission.schedule.phase index = .running ∧ admission.gate index = .lookup then
        some (admission.setGate index .queued)
      else none
  | .acquire index estimate =>
      if admission.gate index = .queued ∧ 0 < admission.cpuPermits then
        some { admission.setGate index (.reserving estimate) with
          cpuPermits := admission.cpuPermits - 1 }
      else none
  | .reserve index =>
      match admission.gate index with
      | .reserving (some estimate) =>
          if admission.budget.canProceed estimate then
            some { admission.setGate index (.executing (some estimate)) with
              budget := admission.budget.commit estimate }
          else none
      | .reserving none =>
          if 0 < admission.coldPermits then
            some { admission.setGate index (.executing none) with
              coldPermits := admission.coldPermits - 1 }
          else none
      | _ => none
  | .exit index outcome =>
      match set.packages[index]?, admission.gate index with
      | some task, .executing guard => some (admission.afterExit index task guard outcome)
      | _, _ => none
  | .conclude index =>
      match set.packages[index]?, admission.gate index with
      | some task, .exited _ outcome =>
          (admission.schedule.step set (.finish index (task.result outcome))).map
            (admission.leave index)
      | _, _ => none

/-- What a future with a permit gets next: a guard of the budget, or one of the cold-start permits. -/
theorem reserve_cases {set : TaskSet} {before after : Admission} {index : Nat}
    (taken : before.step set (.reserve index) = some after) :
    (∃ estimate, before.gate index = .reserving (some estimate) ∧
      before.budget.canProceed estimate = true ∧
      after = { before.setGate index (.executing (some estimate)) with
        budget := before.budget.commit estimate }) ∨
    before.gate index = .reserving none ∧ 0 < before.coldPermits ∧
      after = { before.setGate index (.executing none) with
        coldPermits := before.coldPermits - 1 } := by
  dsimp only [Admission.step] at taken
  cases reserving : before.gate index with
  | reserving limit =>
      rw [reserving] at taken
      cases limit with
      | some estimate =>
          obtain ⟨proceeds, moved⟩ := Option.ite_none_right_eq_some.mp taken
          exact Or.inl ⟨estimate, rfl, proceeds, (Option.some.inj moved).symm⟩
      | none =>
          obtain ⟨free, moved⟩ := Option.ite_none_right_eq_some.mp taken
          exact Or.inr ⟨rfl, free, (Option.some.inj moved).symm⟩
  | _ => simp [reserving] at taken

theorem releaseGuard_schedule (admission : Admission) (guard : Option (Option UInt64)) :
    (admission.releaseGuard guard).schedule = admission.schedule := by
  rcases guard with _ | ⟨_ | reserved⟩
  · rfl
  · rfl
  · rfl

theorem releaseGuard_gate (admission : Admission) (guard : Option (Option UInt64)) :
    (admission.releaseGuard guard).gate = admission.gate := by
  rcases guard with _ | ⟨_ | reserved⟩
  · rfl
  · rfl
  · rfl

theorem releaseGuard_cpuPermits (admission : Admission) (guard : Option (Option UInt64)) :
    (admission.releaseGuard guard).cpuPermits = admission.cpuPermits := by
  rcases guard with _ | ⟨_ | reserved⟩
  · rfl
  · rfl
  · rfl

/-! What a gate holds of the subprocess semaphore, the cold-start semaphore and the budget. -/

def permitHeld (_ : Nat) (gate : Gate) : Nat := gate.hasPermit.toNat

def coldHeld (_ : Nat) (gate : Gate) : Nat := if gate.guard = some none then 1 else 0

def reservationHeld (_ : Nat) (gate : Gate) : Nat :=
  if gate.guard.any Option.isSome then 1 else 0

theorem releaseGuard_cold (admission : Admission) (gate : Gate) (index : Nat) :
    (admission.releaseGuard gate.guard).coldPermits =
      admission.coldPermits + coldHeld index gate := by
  unfold coldHeld
  rcases gate.guard with _ | ⟨_ | reserved⟩
  · simp [releaseGuard]
  · simp [releaseGuard]
  · simp [releaseGuard]

theorem releaseGuard_active (admission : Admission) (gate : Gate) (index : Nat) :
    (admission.releaseGuard gate.guard).budget.activeCount.toNat =
      admission.budget.activeCount.toNat - reservationHeld index gate := by
  unfold reservationHeld
  rcases gate.guard with _ | ⟨_ | reserved⟩
  · simp [releaseGuard]
  · simp [releaseGuard]
  · simp [releaseGuard]

/-- What the gates hold together is what is missing. -/
structure Admitted (set : TaskSet) (concurrency cold : Nat) (admission : Admission) : Prop where
  running : ∀ index, admission.gate index ≠ .lookup → admission.schedule.phase index = .running
  permits : admission.cpuPermits + Tally.total set.packages.length permitHeld admission.gate =
    concurrency
  colds : admission.coldPermits + Tally.total set.packages.length coldHeld admission.gate = cold
  active : admission.budget.activeCount.toNat ≤
    Tally.total set.packages.length reservationHeld admission.gate

namespace Admitted

variable {set : TaskSet} {concurrency cold : Nat} {before after : Admission}

/-- One gate moves on; what it takes or gives back is what its semaphores and the budget change. -/
theorem moved (admitted : Admitted set concurrency cold before) {index : Nat} {gate : Gate}
    (below : index < set.packages.length)
    (gates : after.gate = Function.update before.gate index gate)
    (running : ∀ other, after.gate other ≠ .lookup → after.schedule.phase other = .running)
    (permits : after.cpuPermits + permitHeld index gate =
      before.cpuPermits + permitHeld index (before.gate index))
    (colds : after.coldPermits + coldHeld index gate =
      before.coldPermits + coldHeld index (before.gate index))
    (active : after.budget.activeCount.toNat ≤ before.budget.activeCount.toNat -
      reservationHeld index (before.gate index) + reservationHeld index gate) :
    Admitted set concurrency cold after := by
  have permitSum := Tally.total_update permitHeld before.gate below gate
  have coldSum := Tally.total_update coldHeld before.gate below gate
  have activeSum := Tally.total_update reservationHeld before.gate below gate
  rw [← gates] at permitSum coldSum activeSum
  constructor
  · exact running
  · have was := admitted.permits
    omega
  · have was := admitted.colds
    omega
  · have was := admitted.active
    have held := Tally.weight_le_total reservationHeld before.gate below
    omega

theorem initial {host : HostResources} {limits : ConcurrencyLimits} {start : Admission}
    (built : Admission.initial set host limits = some start) :
    Admitted set (effectiveConcurrency host limits.maxConcurrency)
      (Rage.coldPermits host limits.coldConcurrency) start := by
  obtain ⟨_, isStart⟩ := Option.ite_none_right_eq_some.mp built
  obtain rfl := Option.some.inj isStart
  constructor
  · intro index entered
    exact absurd rfl entered
  · have nothing : Tally.total set.packages.length permitHeld (fun _ => Gate.lookup) = 0 :=
      Tally.total_eq_zero fun _ _ => rfl
    simp [nothing]
  · have nothing : Tally.total set.packages.length coldHeld (fun _ => Gate.lookup) = 0 :=
      Tally.total_eq_zero fun _ _ => rfl
    simp [nothing]
  · exact Nat.zero_le _

theorem ended (admitted : Admitted set concurrency cold before)
    (reached : Schedule.Reachable set before.schedule) {event : SchedulerEvent} {next : Schedule}
    (taken : before.schedule.step set event = some next) {index : Nat}
    (below : index < set.packages.length)
    (others : ∀ other, other ≠ index → event.awaits ≠ some (.package other) ∧
      event.drops ≠ some (.package other)) :
    Admitted set concurrency cold (before.leave index next) := by
  have gates : (before.leave index next).gate = Function.update before.gate index .lookup := by
    simp [leave, setGate, releaseGuard_gate]
  apply admitted.moved below gates
  · intro other entered
    by_cases here : other = index
    · simp [leave, setGate, here] at entered
    · simp only [leave, setGate, releaseGuard_gate, Function.update_of_ne here] at entered
      obtain ⟨notAwaited, notDropped⟩ := others other here
      have wasRunning : before.schedule.ownerPhase (.package other) = .running :=
        admitted.running other entered
      exact CommandRun.running_kept (Ordered.reachable reached) taken wasRunning notAwaited
        notDropped
  · simp [leave, permitHeld, Gate.hasPermit]
  · have given := releaseGuard_cold before (before.gate index) index
    simpa [leave, setGate, coldHeld, Gate.guard] using given
  · have given := releaseGuard_active before (before.gate index) index
    simp only [leave, setGate, given]
    omega

theorem passed (admitted : Admitted set concurrency cold before)
    (reached : Schedule.Reachable set before.schedule) {event : SchedulerEvent} {next : Schedule}
    (taken : before.schedule.step set event = some next)
    (notAwaited : ∀ other, event.awaits ≠ some (.package other))
    (notDropped : ∀ other, event.drops ≠ some (.package other)) :
    Admitted set concurrency cold { before with schedule := next } where
  running := by
    intro index entered
    have wasRunning : before.schedule.ownerPhase (.package index) = .running :=
      admitted.running index entered
    exact CommandRun.running_kept (Ordered.reachable reached) taken wasRunning (notAwaited index)
      (notDropped index)
  permits := admitted.permits
  colds := admitted.colds
  active := admitted.active

/-- The guard is given back at once or kept until the future ends. -/
theorem exited (admitted : Admitted set concurrency cold before) {index : Nat} {task : Task}
    {guard : Option UInt64} {outcome : CommandOutcome} (below : index < set.packages.length)
    (executing : before.gate index = .executing guard)
    (stays : ∀ {gate : Gate} (other : Nat),
      Function.update before.gate index gate other ≠ .lookup →
        before.schedule.phase other = .running) :
    Admitted set concurrency cold (before.afterExit index task guard outcome) := by
  unfold afterExit
  split
  · rename_i code _
    have gates : ((before.releaseGuard (some guard)).setGate index
          (.exited none (.exited code))).gate =
        Function.update before.gate index (.exited none (.exited code)) := by
      simp [setGate, releaseGuard_gate]
    apply admitted.moved below gates
    · intro other entered
      simp only [setGate, releaseGuard_gate, releaseGuard_schedule] at entered ⊢
      exact stays other entered
    · simp [setGate, releaseGuard_cpuPermits, executing, permitHeld, Gate.hasPermit]
    · have given := releaseGuard_cold before (.executing guard) index
      simp only [Gate.guard] at given
      simp only [setGate, given, executing]
      simp [coldHeld, Gate.guard]
    · have given := releaseGuard_active before (.executing guard) index
      simp only [Gate.guard] at given
      simp only [setGate, given, executing]
      omega
  · refine admitted.moved below (by rfl) stays ?_ ?_ ?_
    · simp [setGate, executing, permitHeld, Gate.hasPermit]
    · simp [setGate, executing, coldHeld, Gate.guard]
    · rw [executing]
      exact le_tsub_add

theorem scheduler_step {event : SchedulerEvent}
    (taken : before.step set (.scheduler event) = some after) :
    (∃ index panics next, event = .drop index panics ∧
      before.schedule.step set event = some next ∧ after = before.leave index next) ∨
    ∃ next, (∀ other, event.awaits ≠ some (.package other)) ∧
      (∀ other, event.drops ≠ some (.package other)) ∧
      before.schedule.step set event = some next ∧ after = { before with schedule := next } := by
  cases event with
  | finish index result => simp [Admission.step] at taken
  | drop index panics =>
      obtain ⟨next, isNext, rfl⟩ := Option.map_eq_some_iff.mp taken
      exact Or.inl ⟨index, panics, next, rfl, isNext, rfl⟩
  | _ =>
      obtain ⟨next, isNext, rfl⟩ := Option.map_eq_some_iff.mp taken
      exact Or.inr ⟨next, by simp [SchedulerEvent.awaits], by simp [SchedulerEvent.drops],
        isNext, rfl⟩

theorem step (admitted : Admitted set concurrency cold before)
    (reached : Schedule.Reachable set before.schedule) {event : AdmissionEvent}
    (taken : before.step set event = some after) :
    Admitted set concurrency cold after := by
  have contained := Contained.reachable reached
  have below {index : Nat} (entered : before.gate index ≠ .lookup) :
      index < set.packages.length := by
    apply contained.bound
    rw [admitted.running index entered]
    simp
  have stays {index : Nat} {gate : Gate} (running : before.schedule.phase index = .running)
      (other : Nat) (entered : Function.update before.gate index gate other ≠ .lookup) :
      before.schedule.phase other = .running := by
    by_cases here : other = index
    · rwa [here]
    · rw [Function.update_of_ne here] at entered
      exact admitted.running other entered
  cases event with
  | scheduler event =>
      rcases scheduler_step taken with ⟨index, panics, next, rfl, isNext, rfl⟩ |
        ⟨next, notAwaited, notDropped, isNext, rfl⟩
      · have known : index < set.packages.length := by
          simp only [Schedule.step] at isNext
          split at isNext
          · rename_i task isTask
            exact (List.getElem?_eq_some_iff.mp isTask).1
          · simp at isNext
        apply admitted.ended reached isNext known
        intro other differ
        exact ⟨by simp [SchedulerEvent.awaits], by simp [SchedulerEvent.drops, differ.symm]⟩
      · exact admitted.passed reached isNext notAwaited notDropped
  | hit index =>
      obtain ⟨_, finished⟩ := Option.ite_none_right_eq_some.mp taken
      obtain ⟨next, isNext, rfl⟩ := Option.map_eq_some_iff.mp finished
      obtain ⟨running, _⟩ := Option.ite_none_right_eq_some.mp isNext
      apply admitted.ended reached isNext (contained.bound index (by simp [running]))
      intro other differ
      exact ⟨by simp [SchedulerEvent.awaits, differ.symm], by simp [SchedulerEvent.drops]⟩
  | miss index =>
      obtain ⟨⟨running, lookup⟩, moved⟩ := Option.ite_none_right_eq_some.mp taken
      obtain rfl := Option.some.inj moved
      refine admitted.moved (contained.bound index (by simp [running])) (by rfl) (stays running)
        ?_ ?_ ?_
      · simp [setGate, lookup, permitHeld, Gate.hasPermit]
      · simp [setGate, lookup, coldHeld, Gate.guard]
      · simp [setGate, lookup, reservationHeld, Gate.guard]
  | acquire index estimate =>
      obtain ⟨⟨queued, free⟩, moved⟩ := Option.ite_none_right_eq_some.mp taken
      obtain rfl := Option.some.inj moved
      have entered : before.gate index ≠ .lookup := by simp [queued]
      refine admitted.moved (below entered) (by rfl) (stays (admitted.running index entered))
        ?_ ?_ ?_
      · simp [queued, permitHeld, Gate.hasPermit]
        omega
      · simp [setGate, queued, coldHeld, Gate.guard]
      · simp [setGate, queued, reservationHeld, Gate.guard]
  | reserve index =>
      rcases reserve_cases taken with ⟨estimate, reserving, _, rfl⟩ | ⟨reserving, free, rfl⟩
      · have entered : before.gate index ≠ .lookup := by simp [reserving]
        refine admitted.moved (below entered) (by rfl) (stays (admitted.running index entered))
          ?_ ?_ ?_
        · simp [setGate, reserving, permitHeld, Gate.hasPermit]
        · simp [setGate, reserving, coldHeld, Gate.guard]
        · simp [reserving, reservationHeld, Gate.guard, BudgetState.commit]
          omega
      · have entered : before.gate index ≠ .lookup := by simp [reserving]
        refine admitted.moved (below entered) (by rfl) (stays (admitted.running index entered))
          ?_ ?_ ?_
        · simp [setGate, reserving, permitHeld, Gate.hasPermit]
        · simp [reserving, coldHeld, Gate.guard]
          omega
        · simp [setGate, reserving, reservationHeld, Gate.guard]
  | exit index outcome =>
      simp only [Admission.step] at taken
      split at taken
      · rename_i task guard known executing
        obtain rfl := Option.some.inj taken
        have entered : before.gate index ≠ .lookup := by simp [executing]
        exact admitted.exited (below entered) executing (stays (admitted.running index entered))
      · simp at taken
  | conclude index =>
      simp only [Admission.step] at taken
      split at taken
      · rename_i task outcome known exited
        obtain ⟨next, isNext, rfl⟩ := Option.map_eq_some_iff.mp taken
        apply admitted.ended reached isNext (below (by simp [exited]))
        intro other differ
        exact ⟨by simp [SchedulerEvent.awaits, differ.symm], by simp [SchedulerEvent.drops]⟩
      · simp at taken

end Admitted

/-- An event moves the schedule by one of its own steps or not at all. -/
theorem step_schedule {set : TaskSet} {before after : Admission} {event : AdmissionEvent}
    (taken : before.step set event = some after) : after.schedule = before.schedule ∨
      ∃ moved, before.schedule.step set moved = some after.schedule := by
  cases event with
  | scheduler event =>
      rcases Admitted.scheduler_step taken with ⟨index, panics, next, _, isNext, rfl⟩ |
        ⟨next, _, _, isNext, rfl⟩
      · exact Or.inr ⟨event, isNext⟩
      · exact Or.inr ⟨event, isNext⟩
  | hit index =>
      obtain ⟨_, finished⟩ := Option.ite_none_right_eq_some.mp taken
      obtain ⟨next, isNext, rfl⟩ := Option.map_eq_some_iff.mp finished
      exact Or.inr ⟨_, isNext⟩
  | miss index =>
      obtain ⟨_, moved⟩ := Option.ite_none_right_eq_some.mp taken
      obtain rfl := Option.some.inj moved
      exact Or.inl rfl
  | acquire index estimate =>
      obtain ⟨_, moved⟩ := Option.ite_none_right_eq_some.mp taken
      obtain rfl := Option.some.inj moved
      exact Or.inl rfl
  | reserve index =>
      rcases reserve_cases taken with ⟨estimate, _, _, rfl⟩ | ⟨_, _, rfl⟩
      · exact Or.inl rfl
      · exact Or.inl rfl
  | exit index outcome =>
      simp only [step] at taken
      split at taken
      · rename_i task guard _ _
        obtain rfl := Option.some.inj taken
        left
        unfold afterExit
        split
        · exact releaseGuard_schedule before (some guard)
        · rfl
      · simp at taken
  | conclude index =>
      simp only [step] at taken
      split at taken
      · obtain ⟨next, isNext, rfl⟩ := Option.map_eq_some_iff.mp taken
        exact Or.inr ⟨_, isNext⟩
      · simp at taken

theorem reached_admitted {set : TaskSet} {host : HostResources} {limits : ConcurrencyLimits}
    {start admission : Admission} (built : initial set host limits = some start)
    (reached : Machine.Reachable (step set) (fun _ _ => True) start admission) :
    Schedule.Reachable set admission.schedule ∧
      Admitted set (effectiveConcurrency host limits.maxConcurrency)
        (Rage.coldPermits host limits.coldConcurrency) admission := by
  induction reached with
  | refl =>
      refine ⟨?_, Admitted.initial built⟩
      obtain ⟨_, isStart⟩ := Option.ite_none_right_eq_some.mp built
      obtain rfl := Option.some.inj isStart
      exact .initial
  | tail event _ _ taken ih =>
      obtain ⟨scheduled, admitted⟩ := ih
      refine ⟨?_, admitted.step scheduled taken⟩
      rcases step_schedule taken with same | ⟨moved, isNext⟩
      · rwa [same]
      · exact .step moved scheduled isNext

/-- Some event other than a panic can happen. -/
def Enabled (set : TaskSet) (admission : Admission) : Prop :=
  ∃ event, event.panics = false ∧ (admission.step set event).isSome = true

section Progress

variable {set : TaskSet} {concurrency cold : Nat} {admission : Admission}

theorem finish_isSome {schedule : Schedule} {index : Nat} {result : TaskResult}
    (running : schedule.phase index = .running) :
    (schedule.step set (.finish index result)).isSome = true := by
  simp [Schedule.step, running]

/-- A command exits, and a task whose command has exited concludes. -/
theorem enabled_of_command (admitted : Admitted set concurrency cold admission)
    (reached : Schedule.Reachable set admission.schedule) {index : Nat}
    (launched : (∃ guard, admission.gate index = .executing guard) ∨
      ∃ guard outcome, admission.gate index = .exited guard outcome) : Enabled set admission := by
  have entered : admission.gate index ≠ .lookup := by
    rcases launched with ⟨guard, gate⟩ | ⟨guard, outcome, gate⟩
    · simp [gate]
    · simp [gate]
  have running := admitted.running index entered
  have below : index < set.packages.length :=
    (Contained.reachable reached).bound index (by simp [running])
  have known := List.getElem?_eq_getElem below
  rcases launched with ⟨guard, gate⟩ | ⟨guard, outcome, gate⟩
  · refine ⟨.exit index (.exited 0), rfl, ?_⟩
    simp [step, known, gate]
  · refine ⟨.conclude index, rfl, ?_⟩
    simp [step, known, gate, finish_isSome running]

theorem enabled_of_guard (admitted : Admitted set concurrency cold admission)
    (reached : Schedule.Reachable set admission.schedule) {index : Nat} {held : Option UInt64}
    (guard : (admission.gate index).guard = some held) : Enabled set admission := by
  apply enabled_of_command admitted reached
  cases gate : admission.gate index with
  | executing own => exact Or.inl ⟨own, rfl⟩
  | exited own outcome => exact Or.inr ⟨own, outcome, rfl⟩
  | _ => simp [gate, Gate.guard] at guard

/-- Who has a permit goes on, or somebody does who has what it waits for. -/
theorem enabled_of_permit (admitted : Admitted set concurrency cold admission)
    (reached : Schedule.Reachable set admission.schedule) (someCold : 0 < cold) {index : Nat}
    (holds : (admission.gate index).hasPermit = true) : Enabled set admission := by
  cases gate : admission.gate index with
  | reserving estimate =>
      cases estimate with
      | none =>
          by_cases free : 0 < admission.coldPermits
          · refine ⟨.reserve index, rfl, ?_⟩
            simp [step, gate, free]
          · have sum := admitted.colds
            have positive : 0 < Tally.total set.packages.length coldHeld admission.gate := by omega
            obtain ⟨holder, _, held⟩ := Tally.exists_of_total_pos positive
            have guard : (admission.gate holder).guard = some none := by
              by_contra other
              simp [coldHeld, other] at held
            exact enabled_of_guard admitted reached guard
      | some bytes =>
          by_cases proceeds : admission.budget.canProceed bytes = true
          · refine ⟨.reserve index, rfl, ?_⟩
            simp [step, gate, proceeds]
          · have busy : admission.budget.activeCount.toNat ≠ 0 := by
              intro idle
              exact proceeds ((BudgetState.canProceed_iff _ _).mpr (Or.inr idle))
            have sum := admitted.active
            have positive : 0 < Tally.total set.packages.length reservationHeld admission.gate := by
              omega
            obtain ⟨holder, _, held⟩ := Tally.exists_of_total_pos positive
            cases guard : (admission.gate holder).guard with
            | none => simp [reservationHeld, guard] at held
            | some own => exact enabled_of_guard admitted reached guard
  | executing guard => exact enabled_of_command admitted reached (Or.inl ⟨guard, gate⟩)
  | exited guard outcome =>
      exact enabled_of_command admitted reached (Or.inr ⟨guard, outcome, gate⟩)
  | _ => simp [gate, Gate.hasPermit] at holds

theorem enabled_of_running (admitted : Admitted set concurrency cold admission)
    (reached : Schedule.Reachable set admission.schedule) (someCpu : 0 < concurrency)
    (someCold : 0 < cold) {index : Nat} (running : admission.schedule.phase index = .running) :
    Enabled set admission := by
  cases gate : admission.gate index with
  | lookup =>
      refine ⟨.miss index, rfl, ?_⟩
      simp [step, gate, running]
  | queued =>
      by_cases free : 0 < admission.cpuPermits
      · refine ⟨.acquire index none, rfl, ?_⟩
        simp [step, gate, free]
      · have sum := admitted.permits
        have positive : 0 < Tally.total set.packages.length permitHeld admission.gate := by omega
        obtain ⟨holder, _, held⟩ := Tally.exists_of_total_pos positive
        have holds : (admission.gate holder).hasPermit = true := by
          cases permit : (admission.gate holder).hasPermit with
          | true => rfl
          | false => simp [permitHeld, permit] at held
        exact enabled_of_permit admitted reached someCold holds
  | reserving estimate => exact enabled_of_permit admitted reached someCold (by rw [gate]; rfl)
  | executing guard => exact enabled_of_permit admitted reached someCold (by rw [gate]; rfl)
  | exited guard outcome => exact enabled_of_permit admitted reached someCold (by rw [gate]; rfl)

/-- An event of the schedule itself that is enabled there. -/
theorem enabled_of_schedule {event : SchedulerEvent}
    (calm : AdmissionEvent.panics (.scheduler event) = false)
    (notFinish : ∀ index result, event ≠ .finish index result)
    (enabled : (admission.schedule.step set event).isSome = true) : Enabled set admission := by
  refine ⟨.scheduler event, calm, ?_⟩
  cases event with
  | finish index result => exact absurd rfl (notFinish index result)
  | _ => simpa [step] using enabled

theorem enabled_of_ready (admitted : Admitted set concurrency cold admission)
    (reached : Schedule.Reachable set admission.schedule) (someCpu : 0 < concurrency)
    (someCold : 0 < cold) {index : Nat} (below : index < set.packages.length)
    (ready : admission.schedule.Ready (admission.schedule.phase index)) :
    Enabled set admission := by
  have known := List.getElem?_eq_getElem below
  cases phase : admission.schedule.phase index with
  | waiting receivers =>
      cases receivers with
      | nil =>
          have enabled : (admission.schedule.step set (.start index)).isSome = true := by
            simp [Schedule.step, phase]
          exact enabled_of_schedule rfl (by simp) enabled
      | cons dep rest =>
          have polled : (admission.schedule.pollReceiver dep rest).isSome = true := by
            rw [phase] at ready
            exact ready
          have enabled : (admission.schedule.step set (.poll index)).isSome = true := by
            simp [Schedule.step, phase, polled]
          exact enabled_of_schedule rfl (by simp) enabled
  | skipping =>
      have enabled : (admission.schedule.step set (.send index)).isSome = true := by
        simp [Schedule.step, phase, known]
      exact enabled_of_schedule rfl (by simp) enabled
  | finished result =>
      have enabled : (admission.schedule.step set (.send index)).isSome = true := by
        simp [Schedule.step, phase, known]
      exact enabled_of_schedule rfl (by simp) enabled
  | running => exact enabled_of_running admitted reached someCpu someCold phase
  | _ =>
      rw [phase] at ready
      exact ready.elim

theorem joinOutcome_isSome {phase : Phase} (ended : phase.Ended) :
    (Schedule.joinOutcome phase).isSome = true := by
  rcases ended with rfl | ⟨result, rfl⟩
  · rfl
  · rfl

/-- As long as the function has not returned, the run goes on. -/
theorem enabled_of_unfinished (admitted : Admitted set concurrency cold admission)
    (reached : Schedule.Reachable set admission.schedule) (someCpu : 0 < concurrency)
    (someCold : 0 < cold) (distinct : (set.packages.map Task.packageName).Nodup)
    (acyclic : ∀ package, ¬ Relation.TransGen set.Edge package package)
    (unfinished : ∀ result, admission.schedule.stage ≠ .returned result) :
    Enabled set admission := by
  have alive := Alive.reachable reached
  cases stage : admission.schedule.stage with
  | roots =>
      by_cases joined : ∀ index < set.roots.length, admission.schedule.rootJoined index = true
      · have enabled : (admission.schedule.step set .enterPackages).isSome = true := by
          have all : (List.range set.roots.length).all admission.schedule.rootJoined = true := by
            simpa using joined
          simp only [Schedule.step, stage, all, and_self, if_true]
          split
          · rfl
          · split
            · rfl
            · rfl
        exact enabled_of_schedule rfl (by simp) enabled
      · push Not at joined
        obtain ⟨index, below, notJoined⟩ := joined
        rcases alive.rootsSpawned index below with running | ended
        · have enabled : (admission.schedule.step set
              (.rootReturn index (.ok ()))).isSome = true := by
            simp [Schedule.step, running]
          exact enabled_of_schedule rfl (by simp) enabled
        · have enabled : (admission.schedule.step set (.rootJoin index)).isSome = true := by
            simp [Schedule.step, stage, notJoined, joinOutcome_isSome ended]
          exact enabled_of_schedule rfl (by simp) enabled
  | spawning next =>
      have enabled : (admission.schedule.step set .spawn).isSome = true := by
        simp [Schedule.step, stage]
      exact enabled_of_schedule rfl (by simp) enabled
  | joining =>
      by_cases joined : ∀ index < set.packages.length, admission.schedule.joined index = true
      · have enabled : (admission.schedule.step set .leave).isSome = true := by
          have all : (List.range set.packages.length).all admission.schedule.joined = true := by
            simpa using joined
          simp [Schedule.step, stage, all]
        exact enabled_of_schedule rfl (by simp) enabled
      · push Not at joined
        obtain ⟨index, below, notJoined⟩ := joined
        by_cases ended : (admission.schedule.phase index).Ended
        · have enabled : (admission.schedule.step set (.join index)).isSome = true := by
            simp [Schedule.step, stage, notJoined, joinOutcome_isSome ended]
          exact enabled_of_schedule rfl (by simp) enabled
        · obtain ⟨ready, bound, isReady⟩ := alive.exists_ready stage acyclic below ended
          exact enabled_of_ready admitted reached someCpu someCold bound isReady
  | returned result => exact absurd stage (unfinished result)
  | panicked => exact absurd stage (Schedule.not_panicked distinct reached)

end Progress

end Admission

theorem TaskSet.acyclic_of_dag {petgraph : Petgraph}
    {parseScript : Bytes → Bytes → Option Bytes} {plugins : List TaskPlugin} {fs : FileSystem}
    {workspaceRoot : Path} {dag : WorkspaceDag} {script : Bytes} {config : RageConfig}
    {tasks : List Task} (built : buildTaskListWithConfig petgraph parseScript plugins fs
      workspaceRoot dag script config = .ok tasks)
    (acyclic : ∀ package, ¬ Relation.TransGen dag.DependsOn package package)
    (scope : Bytes → Bool) (abortOnPanic : Bool) (package : Bytes) :
    ¬ Relation.TransGen (TaskSet.ofTasks (retainScope scope tasks) abortOnPanic).Edge package
      package := by
  intro cycle
  apply acyclic package
  refine Relation.TransGen.mono ?_ _ _ cycle
  rintro own dep ⟨task, member, rfl, listed, _⟩
  obtain ⟨inList, isPackage⟩ := List.mem_filter.mp member
  obtain ⟨manifest, isManifest, same⟩ :=
    buildTaskList_dependencies built (retainScope_mem inList) (by simpa using isPackage)
  exact ⟨manifest, isManifest, by rwa [← same]⟩

/-- Where both limits are usable, a run that has not returned can always go on. -/
theorem no_deadlock (petgraph : Petgraph) (parseScript : Bytes → Bytes → Option Bytes)
    (plugins : List TaskPlugin) (fs : FileSystem) (workspaceRoot : Path) (dag : WorkspaceDag)
    (acyclic : ∀ package, ¬ Relation.TransGen dag.DependsOn package package) (script : Bytes)
    (config : RageConfig) (tasks : List Task)
    (built : buildTaskListWithConfig petgraph parseScript plugins fs workspaceRoot dag script
      config = .ok tasks)
    (scope : Bytes → Bool)
    (distinct : ((TaskSet.ofTasks (retainScope scope tasks) true).packages.map
      Task.packageName).Nodup)
    (host : HostResources) (limits : ConcurrencyLimits) (usable : limits.Usable host) :
    ∃ start, Admission.initial (.ofTasks (retainScope scope tasks) true) host limits =
        some start ∧
      ∀ admission, Machine.Reachable (Admission.step (.ofTasks (retainScope scope tasks) true))
          (fun _ _ => True) start admission →
        (∀ result, admission.schedule.stage ≠ .returned result) →
          admission.Enabled (.ofTasks (retainScope scope tasks) true) := by
  obtain ⟨someCpu, cpuFits⟩ := usable.concurrency
  obtain ⟨someCold, coldFits⟩ := usable.cold
  refine ⟨_, if_pos ⟨cpuFits, coldFits⟩, ?_⟩
  intro admission reached unfinished
  obtain ⟨scheduled, admitted⟩ :=
    Admission.reached_admitted (if_pos ⟨cpuFits, coldFits⟩) reached
  exact Admission.enabled_of_unfinished admitted scheduled someCpu someCold distinct
    (TaskSet.acyclic_of_dag built acyclic scope true) unfinished

/-! One package with a task, on a machine of four processors. -/

namespace MissingScript

def aloneDag : WorkspaceDag where
  nodes := [utf8 "core"]
  edges := []
  packages := WorkspaceDag.packageMap [package "core" []]

def alone : List Task := [task "core" []]

theorem builtAlone : buildTaskListWithConfig petgraph parseScript [] (disk withScript) (utf8 "/ws")
    aloneDag (utf8 "build") config = .ok alone := by
  decide +kernel

theorem aloneAcyclic (package : Bytes) :
    ¬ Relation.TransGen aloneDag.DependsOn package package := by
  intro cycle
  obtain ⟨next, ⟨manifest, known, listed⟩, _⟩ := Relation.TransGen.head'_iff.mp cycle
  simp only [aloneDag, WorkspaceDag.packageMap, List.foldl_cons, List.foldl_nil] at known
  by_cases isCore : package = utf8 "core"
  · rw [isCore] at known
    obtain rfl := Option.some.inj known
    exact absurd listed List.not_mem_nil
  · have other : package ≠ (MissingScript.package "core" []).name := isCore
    rw [Function.update_of_ne other] at known
    exact absurd known (by simp)

def fourCores : HostResources where
  availableParallelism := some 4
  availableMemory := 17179869184
  maxPermits := 2 ^ 61 - 1
  parallelFits := by decide

def missed : List AdmissionEvent :=
  [.scheduler .enterPackages, .scheduler .spawn, .scheduler .spawn, .scheduler (.start 0), .miss 0]

end MissingScript

theorem no_deadlock_alone :
    ∃ admission, (Admission.initial (MissingScript.set MissingScript.alone) MissingScript.fourCores
        ⟨some 2, none⟩).bind (fun start =>
          Machine.run (Admission.step (MissingScript.set MissingScript.alone)) start
            MissingScript.missed) = some admission ∧
      admission.Enabled (MissingScript.set MissingScript.alone) := by
  obtain ⟨start, starts, enabled⟩ := no_deadlock MissingScript.petgraph MissingScript.parseScript []
    (MissingScript.disk MissingScript.withScript) (utf8 "/ws") MissingScript.aloneDag
    MissingScript.aloneAcyclic (utf8 "build") MissingScript.config MissingScript.alone
    MissingScript.builtAlone (fun _ => true) (by decide +kernel) MissingScript.fourCores
    ⟨some 2, none⟩ (by simp [ConcurrencyLimits.Usable, MissingScript.fourCores])
  obtain ⟨admission, ran, stage⟩ : ∃ admission,
      (Admission.initial (MissingScript.set MissingScript.alone) MissingScript.fourCores
        ⟨some 2, none⟩).bind (fun start =>
          Machine.run (Admission.step (MissingScript.set MissingScript.alone)) start
            MissingScript.missed) = some admission ∧ admission.schedule.stage = .joining := by
    apply Option.map_eq_some_iff.mp
    decide +kernel
  refine ⟨admission, ran, enabled admission ?_ ?_⟩
  · obtain ⟨other, same, fromStart⟩ := Option.bind_eq_some_iff.mp ran
    obtain rfl := Option.some.inj (starts.symm.trans same)
    exact Machine.run_reachable (fun _ _ _ => trivial) fromStart
  · simp [stage]

/-- The one task waits for a permit that there is not. -/
theorem Admission.starved {set : TaskSet} {concurrency cold : Nat} {admission : Admission}
    (admitted : Admitted set concurrency cold admission)
    (reached : Schedule.Reachable set admission.schedule) (noRoots : set.roots.length = 0)
    (one : set.packages.length = 1) (joining : admission.schedule.stage = .joining)
    (running : admission.schedule.phase 0 = .running)
    (notJoined : admission.schedule.joined 0 = false)
    (calm : admission.schedule.aborting = false) (queued : admission.gate 0 = .queued)
    (none : admission.cpuPermits = 0) : ¬ admission.Enabled set := by
  have contained := Contained.reachable reached
  have phases (index : Nat) : admission.schedule.phase index = .running ∨
      admission.schedule.phase index = .unspawned := by
    by_cases spawned : admission.schedule.phase index = .unspawned
    · exact Or.inr spawned
    · have below := contained.bound index spawned
      obtain rfl : index = 0 := by omega
      exact Or.inl running
  have rootPhases (index : Nat) : admission.schedule.rootPhase index = .unspawned := by
    by_contra spawned
    have below := contained.rootBound index spawned
    omega
  have gates (index : Nat) : admission.gate index = .queued ∨
      admission.gate index = .lookup ∧ admission.schedule.phase index = .unspawned := by
    by_cases first : index = 0
    · rw [first]
      exact Or.inl queued
    · right
      have unspawned : admission.schedule.phase index = .unspawned := by
        by_contra spawned
        have below := contained.bound index spawned
        omega
      refine ⟨?_, unspawned⟩
      by_contra entered
      simp [admitted.running index entered] at unspawned
  rintro ⟨event, noPanic, enabled⟩
  cases event with
  | scheduler event =>
      cases event with
      | rootReturn index result => simp [step, Schedule.step, rootPhases] at enabled
      | rootDrop index panics => simp [step, Schedule.step, rootPhases] at enabled
      | rootJoin index => simp [step, Schedule.step, joining] at enabled
      | enterPackages => simp [step, Schedule.step, joining] at enabled
      | spawn => simp [step, Schedule.step, joining] at enabled
      | poll index =>
          rcases phases index with phase | phase
          · simp [step, Schedule.step, phase] at enabled
          · simp [step, Schedule.step, phase] at enabled
      | start index =>
          rcases phases index with phase | phase
          · simp [step, Schedule.step, phase] at enabled
          · simp [step, Schedule.step, phase] at enabled
      | finish index result => simp [step] at enabled
      | send index =>
          rcases phases index with phase | phase
          · simp [step, Schedule.step, phase] at enabled
          · simp [step, Schedule.step, phase] at enabled
      | drop index panics =>
          obtain rfl : panics = false := noPanic
          have kept : Schedule.droppable (admission.schedule.phase index)
              admission.schedule.aborting false = false := by
            rcases phases index with phase | phase
            · rw [phase, calm]
              rfl
            · rw [phase]
              rfl
          simp only [step, Schedule.step, kept, Option.isSome_map] at enabled
          split at enabled
          · simp at enabled
          · simp at enabled
      | join index =>
          rcases phases index with phase | phase
          · simp [step, Schedule.step, phase, Schedule.joinOutcome] at enabled
          · simp [step, Schedule.step, phase, Schedule.joinOutcome] at enabled
      | leave => simp [step, Schedule.step, joining, one, notJoined] at enabled
  | hit index =>
      rcases gates index with gate | ⟨gate, phase⟩
      · simp [step, gate] at enabled
      · simp [step, gate, Schedule.step, phase] at enabled
  | miss index =>
      rcases gates index with gate | ⟨gate, phase⟩
      · simp [step, gate] at enabled
      · simp [step, phase] at enabled
  | acquire index estimate => simp [step, none] at enabled
  | reserve index =>
      rcases gates index with gate | ⟨gate, phase⟩
      · simp [step, gate] at enabled
      · simp [step, gate] at enabled
  | exit index outcome =>
      rcases gates index with gate | ⟨gate, phase⟩
      · simp [step, gate] at enabled
      · simp [step, gate] at enabled
  | conclude index =>
      rcases gates index with gate | ⟨gate, phase⟩
      · simp [step, gate] at enabled
      · simp [step, gate] at enabled

/-- With `maxConcurrency` zero the first task that misses the cache waits for ever. -/
theorem zero_concurrency_deadlocks :
    ¬ ∀ (petgraph : Petgraph) (parseScript : Bytes → Bytes → Option Bytes)
      (plugins : List TaskPlugin) (fs : FileSystem) (workspaceRoot : Path) (dag : WorkspaceDag)
      (script : Bytes) (config : RageConfig) (tasks : List Task),
      (∀ package, ¬ Relation.TransGen dag.DependsOn package package) →
      buildTaskListWithConfig petgraph parseScript plugins fs workspaceRoot dag script config =
        .ok tasks →
      ((TaskSet.ofTasks tasks true).packages.map Task.packageName).Nodup →
      ∀ (host : HostResources) (limits : ConcurrencyLimits) (start admission : Admission),
        Admission.initial (.ofTasks tasks true) host limits = some start →
        Machine.Reachable (Admission.step (.ofTasks tasks true)) (fun _ _ => True) start
          admission →
        (∀ result, admission.schedule.stage ≠ .returned result) →
          admission.Enabled (.ofTasks tasks true) := by
  intro claimed
  obtain ⟨start, starts⟩ : ∃ start, Admission.initial (.ofTasks MissingScript.alone true)
      MissingScript.fourCores ⟨some 0, none⟩ = some start := ⟨_, if_pos (by decide +kernel)⟩
  obtain ⟨admission, ran, facts⟩ : ∃ admission,
      (Admission.initial (.ofTasks MissingScript.alone true) MissingScript.fourCores
        ⟨some 0, none⟩).bind (fun start =>
          Machine.run (Admission.step (.ofTasks MissingScript.alone true)) start
            MissingScript.missed) = some admission ∧
      (admission.schedule.stage, admission.schedule.phase 0, admission.schedule.joined 0,
        admission.schedule.aborting, admission.gate 0, admission.cpuPermits) =
      (.joining, .running, false, false, .queued, 0) := by
    apply Option.map_eq_some_iff.mp
    decide +kernel
  simp only [Prod.mk.injEq] at facts
  obtain ⟨joining, running, notJoined, calm, queued, noPermit⟩ := facts
  obtain ⟨other, same, fromStart⟩ := Option.bind_eq_some_iff.mp ran
  obtain rfl := Option.some.inj (starts.symm.trans same)
  have reached : Machine.Reachable (Admission.step (.ofTasks MissingScript.alone true))
      (fun _ _ => True) start admission := Machine.run_reachable (fun _ _ _ => trivial) fromStart
  obtain ⟨scheduled, admitted⟩ := Admission.reached_admitted starts reached
  apply Admission.starved admitted scheduled (by decide +kernel) (by decide +kernel) joining running
    notJoined calm queued noPermit
  apply claimed MissingScript.petgraph MissingScript.parseScript []
    (MissingScript.disk MissingScript.withScript) (utf8 "/ws") MissingScript.aloneDag
    (utf8 "build") MissingScript.config MissingScript.alone MissingScript.aloneAcyclic
    MissingScript.builtAlone (by decide +kernel) MissingScript.fourCores ⟨some 0, none⟩ start
    admission starts reached
  simp [joining]

end Rage
