import Rage.Admission

/-!
`current_active` and `peak_active`.  A package task counts itself once it has its permit of the
subprocess semaphore; only the loose branch takes itself off again, before the permit goes.
-/

namespace Rage

/-- Where a future is between its `fetch_add` and its `fetch_sub`; `added` keeps the sum that it
compares the peak with. -/
inductive CountPoint
  | outside
  | added (cur : Nat)
  | counted
  | left
  deriving DecidableEq

def CountPoint.inside : CountPoint → Bool
  | .added _ => true
  | .counted => true
  | _ => false

/-- The event after which a future is over. -/
def AdmissionEvent.ends : AdmissionEvent → Option Nat
  | .hit index => some index
  | .conclude index => some index
  | .scheduler (.drop index _) => some index
  | _ => none

structure ActiveCount where
  admission : Admission
  point : Nat → CountPoint
  currentActive : Nat
  peakActive : Nat

inductive CountEvent
  | admission (event : AdmissionEvent)
  | fetchAdd (index : Nat)
  | fetchMax (index : Nat)

namespace ActiveCount

def initial (start : Admission) : ActiveCount := ⟨start, fun _ => .outside, 0, 0⟩

def setPoint (count : ActiveCount) (index : Nat) (point : CountPoint) : ActiveCount :=
  { count with point := Function.update count.point index point }

/-- From the permit to the `fetch_max` nothing is awaited. -/
def midway (count : ActiveCount) (index : Nat) : Bool :=
  match count.admission.gate index, count.point index with
  | .reserving _, .outside => true
  | _, .added _ => true
  | _, _ => false

def ready (count : ActiveCount) : AdmissionEvent → Bool
  | .reserve index => !count.midway index
  | .scheduler (.drop index panics) => panics || !count.midway index
  | _ => true

/-- A loose command that has exited is taken off the count; nothing else is. -/
def subtracts (set : TaskSet) (index : Nat) (outcome : CommandOutcome) : Bool :=
  match (set.packages[index]?).map Task.sandboxMode, outcome with
  | some .loose, .exited _ => true
  | _, _ => false

def follow (count : ActiveCount) (set : TaskSet) (next : Admission) :
    AdmissionEvent → ActiveCount
  | .exit index outcome =>
      if subtracts set index outcome then
        { count.setPoint index .left with
          admission := next
          currentActive := count.currentActive - 1 }
      else { count with admission := next }
  | event =>
      match event.ends with
      | some index => { count.setPoint index .outside with admission := next }
      | none => { count with admission := next }

def step (set : TaskSet) (count : ActiveCount) : CountEvent → Option ActiveCount
  | .admission event =>
      if count.ready event then
        (count.admission.step set event).map fun next => count.follow set next event
      else none
  | .fetchAdd index =>
      match count.admission.gate index, count.point index with
      | .reserving _, .outside =>
          some { count.setPoint index (.added (count.currentActive + 1)) with
            currentActive := count.currentActive + 1 }
      | _, _ => none
  | .fetchMax index =>
      match count.point index with
      | .added cur =>
          some { count.setPoint index .counted with peakActive := max count.peakActive cur }
      | _ => none

/-- How many package tasks hold a permit of the subprocess semaphore. -/
def holders (set : TaskSet) (count : ActiveCount) : Nat :=
  Tally.total set.packages.length Admission.permitHeld count.admission.gate

def Returned (count : ActiveCount) : Prop :=
  ∃ result, count.admission.schedule.stage = .returned result

/-- A future ends that has added itself and not taken itself off. -/
def leaks (count : ActiveCount) : CountEvent → Bool
  | .admission event => event.ends.any fun index => (count.point index).inside
  | _ => false

end ActiveCount

def CountEvent.acquires : CountEvent → Bool
  | .admission (.acquire _ _) => true
  | _ => false

section Property

variable (set : TaskSet) (allowed : Nat) (start : ActiveCount) (events : List CountEvent)

/-- In every state that a run comes through, the count is the number of permits that are held. -/
def CountsPermits : Prop :=
  ∀ count, Machine.Visited (ActiveCount.step set) start events count →
    count.currentActive = count.holders set

def PeakAllowed : Prop :=
  ∀ count, Machine.Visited (ActiveCount.step set) start events count → count.peakActive ≤ allowed

def Drained : Prop :=
  ∀ count, Machine.run (ActiveCount.step set) start events = some count → count.Returned →
    count.currentActive = 0

structure ExactCounters : Prop where
  equal : CountsPermits set start events
  peak : PeakAllowed set allowed start events
  drained : Drained set start events

end Property

/-! What an event does to the gates. -/

inductive GateMove (set : TaskSet) (before after : Admission) : AdmissionEvent → Prop
  | scheduler (event : SchedulerEvent) (stays : AdmissionEvent.ends (.scheduler event) = none)
      (gates : after.gate = before.gate) : GateMove set before after (.scheduler event)
  | ended (event : AdmissionEvent) (index : Nat) (ends : event.ends = some index)
      (gates : after.gate = Function.update before.gate index .lookup) :
      GateMove set before after event
  | missed (index : Nat) (was : before.gate index = .lookup)
      (gates : after.gate = Function.update before.gate index .queued) :
      GateMove set before after (.miss index)
  | acquired (index : Nat) (estimate : Option UInt64) (was : before.gate index = .queued)
      (gates : after.gate = Function.update before.gate index (.reserving estimate)) :
      GateMove set before after (.acquire index estimate)
  | reserved (index : Nat) (estimate : Option UInt64) (was : before.gate index = .reserving estimate)
      (gates : after.gate = Function.update before.gate index (.executing estimate)) :
      GateMove set before after (.reserve index)
  | exited (index : Nat) (outcome : CommandOutcome) (task : Task)
      (guard : Option UInt64) (kept : Option (Option UInt64))
      (known : set.packages[index]? = some task) (was : before.gate index = .executing guard)
      (gates : after.gate = Function.update before.gate index (.exited kept outcome)) :
      GateMove set before after (.exit index outcome)

theorem Admission.leave_gate (admission : Admission) (index : Nat) (next : Schedule) :
    (admission.leave index next).gate = Function.update admission.gate index .lookup := by
  simp [leave, setGate, releaseGuard_gate]

theorem Admission.step_gates {set : TaskSet} {before after : Admission} {event : AdmissionEvent}
    (taken : before.step set event = some after) : GateMove set before after event := by
  cases event with
  | scheduler event =>
      rcases Admitted.scheduler_step taken with ⟨index, panics, next, rfl, _, rfl⟩ |
        ⟨next, _, notDropped, _, rfl⟩
      · exact .ended _ index rfl (leave_gate before index next)
      · refine .scheduler event ?_ rfl
        cases event with
        | drop index panics => exact absurd rfl (notDropped index)
        | _ => rfl
  | hit index =>
      obtain ⟨_, finished⟩ := Option.ite_none_right_eq_some.mp taken
      obtain ⟨next, _, rfl⟩ := Option.map_eq_some_iff.mp finished
      exact .ended _ index rfl (leave_gate before index next)
  | miss index =>
      obtain ⟨⟨_, lookup⟩, moved⟩ := Option.ite_none_right_eq_some.mp taken
      obtain rfl := Option.some.inj moved
      exact .missed index lookup rfl
  | acquire index estimate =>
      obtain ⟨⟨queued, _⟩, moved⟩ := Option.ite_none_right_eq_some.mp taken
      obtain rfl := Option.some.inj moved
      exact .acquired index estimate queued rfl
  | reserve index =>
      rcases reserve_cases taken with ⟨estimate, reserving, _, rfl⟩ | ⟨reserving, _, rfl⟩
      · exact .reserved index (some estimate) reserving rfl
      · exact .reserved index none reserving rfl
  | exit index outcome =>
      simp only [step] at taken
      split at taken
      · rename_i task guard known executing
        obtain rfl := Option.some.inj taken
        unfold afterExit
        split
        · refine .exited index _ task guard none known executing ?_
          simp [setGate, releaseGuard_gate]
        · exact .exited index _ task guard (some guard) known executing rfl
      · simp at taken
  | conclude index =>
      simp only [step] at taken
      split at taken
      · obtain ⟨next, _, rfl⟩ := Option.map_eq_some_iff.mp taken
        exact .ended _ index rfl (leave_gate before index next)
      · simp at taken

namespace ActiveCount

/-- Where a future is on its way through the gates. -/
def Fits (set : TaskSet) (index : Nat) (point : CountPoint) : Gate → Prop
  | .lookup => point = .outside
  | .queued => point = .outside
  | .reserving _ => point ≠ .left
  | .executing _ => point = .counted
  | .exited _ outcome => point = if subtracts set index outcome then .left else .counted

def insideHeld (_ : Nat) (point : CountPoint) : Nat := point.inside.toNat

/-- How many futures have added themselves and not yet taken themselves off. -/
def insiders (set : TaskSet) (count : ActiveCount) : Nat :=
  Tally.total set.packages.length insideHeld count.point

structure Counting (set : TaskSet) (concurrency cold : Nat) (count : ActiveCount) : Prop where
  reached : Schedule.Reachable set count.admission.schedule
  admitted : Admission.Admitted set concurrency cold count.admission
  fits : ∀ index, Fits set index (count.point index) (count.admission.gate index)
  enough : count.insiders set ≤ count.currentActive

section Steps

variable {set : TaskSet} {concurrency cold : Nat} {before after : ActiveCount}

theorem follow_of_ends (next : Admission) {event : AdmissionEvent} {index : Nat}
    (ends : event.ends = some index) : before.follow set next event =
      { before.setPoint index .outside with admission := next } := by
  cases event with
  | exit index outcome => simp [AdmissionEvent.ends] at ends
  | _ => simp [follow, ends]

theorem follow_of_stays (next : Admission) {event : AdmissionEvent} (stays : event.ends = none)
    (notExit : ∀ index outcome, event ≠ .exit index outcome) :
    before.follow set next event = { before with admission := next } := by
  cases event with
  | exit index outcome => exact absurd rfl (notExit index outcome)
  | _ => simp [follow, stays]

theorem Counting.below (counting : Counting set concurrency cold before) (index : Nat)
    (entered : before.admission.gate index ≠ .lookup) : index < set.packages.length := by
  apply (Contained.reachable counting.reached).bound
  rw [counting.admitted.running index entered]
  simp

/-- A point other than `outside` belongs to a future that has a permit. -/
theorem Counting.entered (counting : Counting set concurrency cold before) (index : Nat)
    (point : before.point index ≠ .outside) : before.admission.gate index ≠ .lookup := by
  intro lookup
  have fits := counting.fits index
  rw [lookup] at fits
  exact point fits

/-- The gate and the point of one future move on together. -/
theorem fits_update (counting : Counting set concurrency cold before) {index : Nat}
    {point : CountPoint} (gate : Gate)
    (gates : after.admission.gate = Function.update before.admission.gate index gate)
    (points : after.point = Function.update before.point index point)
    (here : Fits set index point gate) (other : Nat) :
    Fits set other (after.point other) (after.admission.gate other) := by
  rw [gates, points]
  by_cases same : other = index
  · subst same
    simpa using here
  · rw [Function.update_of_ne same, Function.update_of_ne same]
    exact counting.fits other

theorem insiders_update (after : ActiveCount) {index : Nat} (below : index < set.packages.length)
    {point : CountPoint}
    (points : after.point = Function.update before.point index point) :
    after.insiders set + (before.point index).inside.toNat =
      before.insiders set + point.inside.toNat := by
  rw [insiders, points]
  exact Tally.total_update insideHeld before.point below point

/-- What an event adds to the count and not to those inside is what it leaks. -/
def Balanced (set : TaskSet) (before after : ActiveCount) (event : CountEvent) : Prop :=
  after.currentActive + before.insiders set =
    before.currentActive + after.insiders set + (before.leaks event).toNat

theorem Balanced.enough {event : CountEvent} (balanced : Balanced set before after event)
    (enough : before.insiders set ≤ before.currentActive) :
    after.insiders set ≤ after.currentActive := by
  unfold Balanced at balanced
  omega

theorem balanced_of_same {event : CountEvent} (points : after.point = before.point)
    (current : after.currentActive = before.currentActive) (kept : before.leaks event = false) :
    Balanced set before after event := by
  unfold Balanced insiders
  rw [points, current, kept]
  rfl

/-- An admission event that ends no future and no command leaves points and counters alone. -/
theorem quiet_step {next : Admission} (same : after = { before with admission := next })
    {event : AdmissionEvent} (stays : event.ends = none)
    (fits : ∀ index, Fits set index (before.point index) (next.gate index)) :
    (∀ index, Fits set index (after.point index) (after.admission.gate index)) ∧
      Balanced set before after (.admission event) := by
  subst same
  exact ⟨fits, balanced_of_same rfl rfl (by simp [leaks, stays])⟩

theorem Counting.ended (counting : Counting set concurrency cold before) {next : Admission}
    {event : AdmissionEvent} {index : Nat} (ends : event.ends = some index)
    (gates : next.gate = Function.update before.admission.gate index .lookup)
    (same : after = { before.setPoint index .outside with admission := next }) :
    (∀ index, Fits set index (after.point index) (after.admission.gate index)) ∧
      Balanced set before after (.admission event) := by
  subst same
  refine ⟨fits_update counting _ gates rfl rfl, ?_⟩
  by_cases outside : before.point index = .outside
  · refine balanced_of_same ?_ rfl ?_
    · exact Function.update_eq_self_iff.mpr outside.symm
    · simp [leaks, ends, outside, CountPoint.inside]
  · have sum := insiders_update { before.setPoint index .outside with admission := next }
      (counting.below index (counting.entered index outside)) rfl
    have none_ : CountPoint.outside.inside.toNat = 0 := rfl
    have leaked : before.leaks (.admission event) = (before.point index).inside := by
      simp [leaks, ends]
    unfold Balanced
    rw [leaked]
    simp only [setPoint] at sum ⊢
    omega

/-- A loose command takes itself off as it exits. -/
theorem Counting.exited (counting : Counting set concurrency cold before) {next : Admission}
    {index : Nat} {outcome : CommandOutcome} {guard : Option UInt64}
    {kept : Option (Option UInt64)} (was : before.admission.gate index = .executing guard)
    (gates : next.gate = Function.update before.admission.gate index (.exited kept outcome))
    (same : after = before.follow set next (.exit index outcome)) :
    (∀ index, Fits set index (after.point index) (after.admission.gate index)) ∧
      Balanced set before after (.admission (.exit index outcome)) := by
  have counted : before.point index = .counted := by
    have fits := counting.fits index
    rwa [was] at fits
  have below := counting.below index (by simp [was])
  subst same
  by_cases off : subtracts set index outcome = true
  · have isNext : before.follow set next (.exit index outcome) =
        { before.setPoint index .left with
          admission := next
          currentActive := before.currentActive - 1 } := by
      simp [follow, off]
    rw [isNext]
    refine ⟨fits_update counting _ gates rfl (by simp [Fits, off]), ?_⟩
    have sum := insiders_update { before.setPoint index .left with
        admission := next
        currentActive := before.currentActive - 1 } below rfl
    have one : (before.point index).inside.toNat = 1 := by simp [counted, CountPoint.inside]
    have none_ : CountPoint.left.inside.toNat = 0 := rfl
    have enough := counting.enough
    have kept : before.leaks (.admission (.exit index outcome)) = false := rfl
    unfold Balanced
    rw [kept, Bool.toNat_false]
    simp only [setPoint] at sum ⊢
    omega
  · have isNext : before.follow set next (.exit index outcome) =
        { before with admission := next } := by
      simp [follow, off]
    rw [isNext]
    refine ⟨?_, balanced_of_same rfl rfl rfl⟩
    intro other
    rw [gates]
    by_cases here : other = index
    · subst here
      simp [Fits, off, counted]
    · rw [Function.update_of_ne here]
      exact counting.fits other

theorem admission_cases {event : AdmissionEvent}
    (taken : before.step set (.admission event) = some after) :
    before.ready event = true ∧ ∃ next, before.admission.step set event = some next ∧
      after = before.follow set next event := by
  obtain ⟨isReady, moved⟩ := Option.ite_none_right_eq_some.mp taken
  obtain ⟨next, isNext, rfl⟩ := Option.map_eq_some_iff.mp moved
  exact ⟨isReady, next, isNext, rfl⟩

theorem admission_step (counting : Counting set concurrency cold before)
    {event : AdmissionEvent} (taken : before.step set (.admission event) = some after) :
    (∀ index, Fits set index (after.point index) (after.admission.gate index)) ∧
      Balanced set before after (.admission event) := by
  obtain ⟨isReady, next, isNext, rfl⟩ := admission_cases taken
  have others {index : Nat} {gate : Gate} (here : Fits set index (before.point index) gate)
      (gates : next.gate = Function.update before.admission.gate index gate) (other : Nat) :
      Fits set other (before.point other) (next.gate other) := by
    rw [gates]
    by_cases same : other = index
    · subst same
      simpa using here
    · rw [Function.update_of_ne same]
      exact counting.fits other
  cases Admission.step_gates isNext with
  | scheduler event stays gates =>
      refine quiet_step (follow_of_stays next stays (by simp)) stays ?_
      rw [gates]
      exact counting.fits
  | ended _ index ends gates => exact counting.ended ends gates (follow_of_ends next ends)
  | missed index was gates =>
      refine quiet_step (follow_of_stays next rfl (by simp)) rfl (others ?_ gates)
      have fits := counting.fits index
      rwa [was] at fits
  | acquired index estimate was gates =>
      refine quiet_step (follow_of_stays next rfl (by simp)) rfl (others ?_ gates)
      have outside : before.point index = .outside := by
        have fits := counting.fits index
        rwa [was] at fits
      simp [Fits, outside]
  | reserved index estimate was gates =>
      refine quiet_step (follow_of_stays next rfl (by simp)) rfl (others ?_ gates)
      have notLeft : before.point index ≠ .left := by
        have fits := counting.fits index
        rwa [was] at fits
      cases point : before.point index with
      | counted => rfl
      | left => exact absurd point notLeft
      | _ => simp [ready, midway, was, point] at isReady
  | exited index outcome task guard kept known was gates => exact counting.exited was gates rfl

theorem fetchAdd_step (counting : Counting set concurrency cold before) {index : Nat}
    (taken : before.step set (.fetchAdd index) = some after) :
    after.admission = before.admission ∧ after.peakActive = before.peakActive ∧
      after.point = Function.update before.point index (.added after.currentActive) ∧
      (∀ index, Fits set index (after.point index) (after.admission.gate index)) ∧
      Balanced set before after (.fetchAdd index) := by
  simp only [step] at taken
  split at taken
  · rename_i estimate reserving outside
    obtain rfl := Option.some.inj taken
    refine ⟨rfl, rfl, rfl, ?_, ?_⟩
    · refine fits_update counting (before.admission.gate index) ?_ rfl ?_
      · exact (Function.update_eq_self index before.admission.gate).symm
      · simp [reserving, Fits]
    · have sum := insiders_update { before.setPoint index (.added (before.currentActive + 1)) with
          currentActive := before.currentActive + 1 }
        (counting.below index (by simp [reserving])) rfl
      have was : (before.point index).inside.toNat = 0 := by simp [outside, CountPoint.inside]
      have one : (CountPoint.added (before.currentActive + 1)).inside.toNat = 1 := rfl
      have kept : before.leaks (.fetchAdd index) = false := rfl
      unfold Balanced
      rw [kept, Bool.toNat_false]
      simp only [setPoint] at sum ⊢
      omega
  · simp at taken

theorem fetchMax_step (counting : Counting set concurrency cold before) {index : Nat}
    (taken : before.step set (.fetchMax index) = some after) :
    ∃ cur, before.point index = .added cur ∧ after.admission = before.admission ∧
      after.currentActive = before.currentActive ∧
      after.peakActive = max before.peakActive cur ∧
      after.point = Function.update before.point index .counted ∧
      (∀ index, Fits set index (after.point index) (after.admission.gate index)) ∧
      Balanced set before after (.fetchMax index) := by
  simp only [step] at taken
  split at taken
  · rename_i cur added
    obtain rfl := Option.some.inj taken
    have entered := counting.entered index (by simp [added])
    refine ⟨cur, added, rfl, rfl, rfl, rfl, ?_, ?_⟩
    · refine fits_update counting (before.admission.gate index) ?_ rfl ?_
      · exact (Function.update_eq_self index before.admission.gate).symm
      · have fits := counting.fits index
        rw [added] at fits
        cases gate : before.admission.gate index with
        | reserving estimate => simp [Fits]
        | lookup => exact absurd gate entered
        | queued => simp [Fits, gate] at fits
        | executing guard => rfl
        | exited guard outcome =>
            simp only [Fits, gate] at fits
            split at fits
            · simp at fits
            · simp at fits
    · have sum := insiders_update { before.setPoint index .counted with
          peakActive := max before.peakActive cur } (counting.below index entered) rfl
      have was : (before.point index).inside.toNat = 1 := by simp [added, CountPoint.inside]
      have one : CountPoint.counted.inside.toNat = 1 := rfl
      have kept : before.leaks (.fetchMax index) = false := rfl
      unfold Balanced
      rw [kept, Bool.toNat_false]
      simp only [setPoint] at sum ⊢
      omega
  · simp at taken

theorem follow_admission (next : Admission) (event : AdmissionEvent) :
    (before.follow set next event).admission = next := by
  cases event with
  | exit index outcome =>
      simp only [follow]
      split
      · rfl
      · rfl
  | _ =>
      simp only [follow]
      split
      · rfl
      · rfl

theorem Counting.step (counting : Counting set concurrency cold before) {event : CountEvent}
    (taken : before.step set event = some after) :
    Counting set concurrency cold after ∧ Balanced set before after event := by
  cases event with
  | admission event =>
      obtain ⟨fits, balanced⟩ := admission_step counting taken
      obtain ⟨_, next, isNext, rfl⟩ := admission_cases taken
      refine ⟨⟨?_, ?_, fits, balanced.enough counting.enough⟩, balanced⟩
      · rw [follow_admission]
        rcases Admission.step_schedule isNext with same | ⟨event, isStep⟩
        · rw [same]
          exact counting.reached
        · exact .step event counting.reached isStep
      · rw [follow_admission]
        exact counting.admitted.step counting.reached isNext
  | fetchAdd index =>
      obtain ⟨same, _, _, fits, balanced⟩ := fetchAdd_step counting taken
      refine ⟨⟨?_, ?_, fits, balanced.enough counting.enough⟩, balanced⟩
      · exact same ▸ counting.reached
      · exact same ▸ counting.admitted
  | fetchMax index =>
      obtain ⟨cur, _, same, _, _, _, fits, balanced⟩ := fetchMax_step counting taken
      refine ⟨⟨?_, ?_, fits, balanced.enough counting.enough⟩, balanced⟩
      · exact same ▸ counting.reached
      · exact same ▸ counting.admitted

end Steps

section Runs

variable {set : TaskSet} {host : HostResources} {limits : ConcurrencyLimits} {start : Admission}
  {concurrency cold : Nat} {before after count : ActiveCount}

theorem Counting.initial (built : Admission.initial set host limits = some start) :
    Counting set (effectiveConcurrency host limits.maxConcurrency)
      (Rage.coldPermits host limits.coldConcurrency) (.initial start) := by
  have admitted := Admission.Admitted.initial built
  obtain ⟨_, isStart⟩ := Option.ite_none_right_eq_some.mp built
  obtain rfl := Option.some.inj isStart
  refine ⟨.initial, admitted, fun _ => rfl, ?_⟩
  exact (Tally.total_eq_zero fun _ _ => rfl).le

/-- The permits that are held are missing from the semaphore. -/
theorem Counting.holders_le (counting : Counting set concurrency cold count) :
    count.holders set ≤ concurrency := by
  have permits := counting.admitted.permits
  unfold holders
  omega

theorem Counting.insiders_le (counting : Counting set concurrency cold count) :
    count.insiders set ≤ count.holders set := by
  apply Tally.total_le_total
  intro index _
  have fits := counting.fits index
  unfold insideHeld Admission.permitHeld
  cases gate : count.admission.gate index with
  | lookup =>
      rw [gate] at fits
      simp [show count.point index = .outside from fits, CountPoint.inside]
  | queued =>
      rw [gate] at fits
      simp [show count.point index = .outside from fits, CountPoint.inside]
  | _ => exact Bool.toNat_le _

/-- Nobody is inside once the run has returned. -/
theorem Counting.insiders_of_returned (counting : Counting set concurrency cold count)
    (returned : count.Returned) : count.insiders set = 0 := by
  obtain ⟨result, isStage⟩ := returned
  apply Tally.total_eq_zero
  intro index _
  have stopped := CommandRun.not_running_of_returned counting.reached isStage (.package index)
  have outside : count.point index = .outside := by
    by_contra inside
    exact stopped (counting.admitted.running index (counting.entered index inside))
  simp [insideHeld, outside, CountPoint.inside]

/-! Runs in which nobody leaks. -/

structure Kept (set : TaskSet) (concurrency cold : Nat) (count : ActiveCount) : Prop
    extends Counting set concurrency cold count where
  current : count.currentActive = count.insiders set
  peak : count.peakActive ≤ concurrency
  adding : ∀ index cur, count.point index = .added cur → cur ≤ concurrency

theorem Kept.initial (built : Admission.initial set host limits = some start) :
    Kept set (effectiveConcurrency host limits.maxConcurrency)
      (Rage.coldPermits host limits.coldConcurrency) (.initial start) where
  toCounting := .initial built
  current := (Tally.total_eq_zero fun _ _ => rfl).symm
  peak := Nat.zero_le _
  adding := by simp [ActiveCount.initial]

theorem follow_points {next : Admission} {event : AdmissionEvent} {index cur : Nat}
    (added : (before.follow set next event).point index = .added cur) :
    before.point index = .added cur := by
  have moved {own : Nat} {point : CountPoint} (notAdded : ∀ cur, point ≠ .added cur)
      (added : Function.update before.point own point index = .added cur) :
      before.point index = .added cur := by
    by_cases here : index = own
    · subst here
      rw [Function.update_self] at added
      exact absurd added (notAdded cur)
    · rwa [Function.update_of_ne here] at added
  cases event with
  | exit own outcome =>
      simp only [follow] at added
      split at added
      · exact moved (by simp) added
      · exact added
  | _ =>
      simp only [follow] at added
      split at added
      · exact moved (by simp) added
      · exact added

theorem follow_peak (next : Admission) (event : AdmissionEvent) :
    (before.follow set next event).peakActive = before.peakActive := by
  cases event with
  | exit index outcome =>
      simp only [follow]
      split
      · rfl
      · rfl
  | _ =>
      simp only [follow]
      split
      · rfl
      · rfl

theorem Kept.step (kept : Kept set concurrency cold before) {event : CountEvent}
    (noLeak : before.leaks event = false) (taken : before.step set event = some after) :
    Kept set concurrency cold after := by
  obtain ⟨counting, balanced⟩ := kept.toCounting.step taken
  have current : after.currentActive = after.insiders set := by
    have was := kept.current
    unfold Balanced at balanced
    rw [noLeak, Bool.toNat_false] at balanced
    omega
  have allowed : after.currentActive ≤ concurrency := by
    rw [current]
    exact counting.insiders_le.trans counting.holders_le
  cases event with
  | admission event =>
      obtain ⟨_, next, _, rfl⟩ := admission_cases taken
      refine ⟨counting, current, ?_, ?_⟩
      · rw [follow_peak]
        exact kept.peak
      · intro index cur added
        exact kept.adding index cur (follow_points added)
  | fetchAdd own =>
      obtain ⟨_, peak, points, _⟩ := fetchAdd_step kept.toCounting taken
      refine ⟨counting, current, peak ▸ kept.peak, ?_⟩
      intro index cur added
      rw [points] at added
      by_cases here : index = own
      · subst here
        rw [Function.update_self] at added
        obtain rfl := CountPoint.added.inj added
        exact allowed
      · rw [Function.update_of_ne here] at added
        exact kept.adding index cur added
  | fetchMax own =>
      obtain ⟨sum, was, _, _, peak, points, _⟩ := fetchMax_step kept.toCounting taken
      refine ⟨counting, current, ?_, ?_⟩
      · rw [peak]
        exact max_le kept.peak (kept.adding own sum was)
      · intro index cur added
        rw [points] at added
        by_cases here : index = own
        · subst here
          simp at added
        · rw [Function.update_of_ne here] at added
          exact kept.adding index cur added

/-! Runs in which nobody gets a permit. -/

structure Idle (set : TaskSet) (concurrency cold : Nat) (count : ActiveCount) : Prop
    extends Counting set concurrency cold count where
  free : ∀ index, (count.admission.gate index).hasPermit = false
  current : count.currentActive = 0
  peak : count.peakActive = 0

theorem Idle.initial (built : Admission.initial set host limits = some start) :
    Idle set (effectiveConcurrency host limits.maxConcurrency)
      (Rage.coldPermits host limits.coldConcurrency) (.initial start) where
  toCounting := .initial built
  free := by
    obtain ⟨_, isStart⟩ := Option.ite_none_right_eq_some.mp built
    obtain rfl := Option.some.inj isStart
    intro index
    rfl
  current := rfl
  peak := rfl

theorem Idle.holders (idle : Idle set concurrency cold count) : count.holders set = 0 := by
  apply Tally.total_eq_zero
  intro index _
  simp [Admission.permitHeld, idle.free index]

theorem Idle.step (idle : Idle set concurrency cold before) {event : CountEvent}
    (noPermit : event.acquires = false) (taken : before.step set event = some after) :
    Idle set concurrency cold after := by
  obtain ⟨counting, _⟩ := idle.toCounting.step taken
  cases event with
  | admission event =>
      obtain ⟨_, next, isNext, rfl⟩ := admission_cases taken
      have passed {index : Nat} {gate : Gate} (closed : gate.hasPermit = false)
          (gates : next.gate = Function.update before.admission.gate index gate) (other : Nat) :
          (next.gate other).hasPermit = false := by
        rw [gates]
        by_cases here : other = index
        · subst here
          rwa [Function.update_self]
        · rw [Function.update_of_ne here]
          exact idle.free other
      have free : ∀ index, (next.gate index).hasPermit = false := by
        cases Admission.step_gates isNext with
        | scheduler event stays gates => exact gates ▸ idle.free
        | ended _ index ends gates => exact passed rfl gates
        | missed index was gates => exact passed rfl gates
        | acquired index estimate was gates => simp [CountEvent.acquires] at noPermit
        | reserved index estimate was gates =>
            have closed := idle.free index
            simp [was, Gate.hasPermit] at closed
        | exited index outcome task guard kept known was gates =>
            have closed := idle.free index
            simp [was, Gate.hasPermit] at closed
      refine ⟨counting, ?_, ?_, ?_⟩
      · rwa [follow_admission]
      · have enough : (before.follow set next event).currentActive ≤ before.currentActive := by
          cases event with
          | exit index outcome =>
              simp only [follow]
              split
              · exact Nat.sub_le _ _
              · exact le_rfl
          | _ =>
              simp only [follow]
              split
              · exact le_rfl
              · exact le_rfl
        rw [idle.current] at enough
        exact Nat.le_zero.mp enough
      · rw [follow_peak]
        exact idle.peak
  | fetchAdd index =>
      simp only [ActiveCount.step] at taken
      split at taken
      · rename_i estimate reserving _
        have closed := idle.free index
        simp [reserving, Gate.hasPermit] at closed
      · simp at taken
  | fetchMax index =>
      obtain ⟨cur, added, _⟩ := fetchMax_step idle.toCounting taken
      have fits := idle.fits index
      have closed := idle.free index
      cases gate : before.admission.gate index with
      | lookup => simp [Fits, gate, added] at fits
      | queued => simp [Fits, gate, added] at fits
      | _ => simp [gate, Gate.hasPermit] at closed

/-- A permit that is taken is not counted in the same step. -/
theorem acquire_uncounted (counting : Counting set concurrency cold before) {event : CountEvent}
    (acquires : event.acquires = true) (taken : before.step set event = some after) :
    after.holders set = before.holders set + 1 ∧ after.currentActive = before.currentActive := by
  cases event with
  | admission event =>
      cases event with
      | acquire index estimate =>
          obtain ⟨_, next, isNext, rfl⟩ := admission_cases taken
          obtain ⟨⟨queued, _⟩, isAfter⟩ := Option.ite_none_right_eq_some.mp isNext
          have gates : next.gate =
              Function.update before.admission.gate index (.reserving estimate) := by
            rw [← Option.some.inj isAfter]
            rfl
          refine ⟨?_, rfl⟩
          have sum := Tally.total_update Admission.permitHeld before.admission.gate
            (counting.below index (by simp [queued])) (.reserving estimate)
          rw [← gates] at sum
          have was : Admission.permitHeld index (before.admission.gate index) = 0 := by
            simp [Admission.permitHeld, queued, Gate.hasPermit]
          have now : Admission.permitHeld index (.reserving estimate) = 1 := rfl
          unfold holders
          rw [follow_admission]
          omega
      | _ => simp [CountEvent.acquires] at acquires
  | _ => simp [CountEvent.acquires] at acquires

theorem Counting.of_run (built : Admission.initial set host limits = some start)
    {events : List CountEvent}
    (ran : Machine.run (ActiveCount.step set) (.initial start) events = some count) :
    Counting set (effectiveConcurrency host limits.maxConcurrency)
      (Rage.coldPermits host limits.coldConcurrency) count := by
  have reached : Machine.Reachable (ActiveCount.step set) (fun _ _ => True) (.initial start)
      count := Machine.run_reachable (fun _ _ _ => trivial) ran
  exact reached.invariant _ (.initial built) fun _ _ _ counting _ taken => (counting.step taken).1

theorem Kept.reachable (built : Admission.initial set host limits = some start)
    (reached : Machine.Reachable (ActiveCount.step set) (fun count event => count.leaks event = false)
      (.initial start) count) :
    Kept set (effectiveConcurrency host limits.maxConcurrency)
      (Rage.coldPermits host limits.coldConcurrency) count :=
  reached.invariant _ (.initial built) fun _ _ _ kept noLeak taken => kept.step noLeak taken

theorem Idle.reachable (built : Admission.initial set host limits = some start)
    (reached : Machine.Reachable (ActiveCount.step set)
      (fun _ (event : CountEvent) => event.acquires = false) (.initial start) count) :
    Idle set (effectiveConcurrency host limits.maxConcurrency)
      (Rage.coldPermits host limits.coldConcurrency) count :=
  reached.invariant _ (.initial built) fun _ _ _ idle noPermit taken => idle.step noPermit taken

/-- The count is off by the futures that have leaked. -/
theorem currentActive_eq (built : Admission.initial set host limits = some start)
    {events : List CountEvent}
    (ran : Machine.run (step set) (.initial start) events = some count) :
    count.currentActive = count.insiders set +
      Machine.tally (step set) (fun count event => (count.leaks event).toNat) (.initial start)
        events := by
  have preserved (count : ActiveCount) (event : CountEvent) (next : ActiveCount)
      (counting : Counting set (effectiveConcurrency host limits.maxConcurrency)
        (Rage.coldPermits host limits.coldConcurrency) count)
      (taken : count.step set event = some next) := counting.step taken
  have sum := Machine.run_balance (fun (count : ActiveCount) event => (count.leaks event).toNat)
    _ currentActive (insiders set)
    (fun count event next counting taken => (preserved count event next counting taken).1)
    (fun count event next counting taken => (preserved count event next counting taken).2)
    (.initial built) ran
  have noneInside : insiders set (.initial start) = 0 := Tally.total_eq_zero fun _ _ => rfl
  have zero : (initial start).currentActive = 0 := rfl
  omega

/-- A future that concludes has leaked unless its command was a loose one that has exited. -/
theorem conclude_leaks_iff (counting : Counting set concurrency cold count) {index : Nat}
    {guard : Option (Option UInt64)} {outcome : CommandOutcome}
    (exited : count.admission.gate index = .exited guard outcome) :
    count.leaks (.admission (.conclude index)) = true ↔ subtracts set index outcome = false := by
  have fits := counting.fits index
  rw [exited] at fits
  have point : count.point index =
      if subtracts set index outcome = true then .left else .counted := fits
  cases off : subtracts set index outcome with
  | true => simp [leaks, AdmissionEvent.ends, point, off, CountPoint.inside]
  | false => simp [leaks, AdmissionEvent.ends, point, off, CountPoint.inside]

theorem countsPermits_iff (built : Admission.initial set host limits = some start)
    {events : List CountEvent} (ran : Machine.run (step set) (.initial start) events = some count) :
    CountsPermits set (.initial start) events ↔ ∀ event ∈ events, event.acquires = false := by
  constructor
  · intro equal event member
    obtain ⟨earlier, later, rfl⟩ := List.append_of_mem member
    obtain ⟨before, ranBefore, ranLater⟩ := Machine.run_append ran
    obtain ⟨after, taken, _⟩ := Machine.run_cons ranLater
    by_contra acquires
    have counting := Counting.of_run built ranBefore
    obtain ⟨more, same⟩ := acquire_uncounted counting (by simpa using acquires) taken
    have atBefore := equal before ⟨earlier, List.prefix_append _ _, ranBefore⟩
    have atAfter := equal after ⟨earlier ++ [event], by simp, by
      rw [Machine.run, List.foldlM_append]
      exact Option.bind_eq_some_iff.mpr ⟨before, ranBefore, by simpa using taken⟩⟩
    omega
  · rintro noPermit count ⟨earlier, isEarlier, ranEarlier⟩
    have idle := Idle.reachable built (Machine.run_reachable
      (fun _ event member => noPermit event (isEarlier.subset member)) ranEarlier)
    rw [idle.current, idle.holders]

end Runs

end ActiveCount

/-- A run counts the permits exactly when nobody gets one; what the counters end with is right
exactly when nobody leaks. -/
theorem counters_exact_iff (tasks : List Task) (host : HostResources) (limits : ConcurrencyLimits)
    (start : Admission) (built : Admission.initial (.ofTasks tasks true) host limits = some start)
    (events : List CountEvent) (final : ActiveCount)
    (ran : Machine.run (ActiveCount.step (.ofTasks tasks true)) (.initial start) events =
      some final) :
    (ExactCounters (.ofTasks tasks true) (effectiveConcurrency host limits.maxConcurrency)
        (.initial start) events ↔ ∀ event ∈ events, event.acquires = false) ∧
      (final.Returned →
        (PeakAllowed (.ofTasks tasks true) (effectiveConcurrency host limits.maxConcurrency)
            (.initial start) events ∧ final.currentActive = 0 ↔
          Machine.Each (ActiveCount.step (.ofTasks tasks true))
            (fun count event => count.leaks event = false) (.initial start) events)) := by
  constructor
  · constructor
    · intro exact_
      exact (ActiveCount.countsPermits_iff built ran).mp exact_.equal
    · intro noPermit
      have idle {earlier : List CountEvent} (isEarlier : earlier <+: events) {count : ActiveCount}
          (ranEarlier : Machine.run (ActiveCount.step (.ofTasks tasks true)) (.initial start)
            earlier = some count) :=
        ActiveCount.Idle.reachable built (Machine.run_reachable
          (fun _ event member => noPermit event (isEarlier.subset member)) ranEarlier)
      refine ⟨(ActiveCount.countsPermits_iff built ran).mpr noPermit, ?_, ?_⟩
      · rintro count ⟨earlier, isEarlier, ranEarlier⟩
        rw [(idle isEarlier ranEarlier).peak]
        exact Nat.zero_le _
      · intro count ranAll _
        exact (idle (List.prefix_refl _) ranAll).current
  · intro returned
    have sum := ActiveCount.currentActive_eq built ran
    have counting := ActiveCount.Counting.of_run built ran
    rw [counting.insiders_of_returned returned, Nat.zero_add] at sum
    have noLeaks : Machine.tally (ActiveCount.step (.ofTasks tasks true))
          (fun count event => (count.leaks event).toNat) (.initial start) events = 0 ↔
        Machine.Each (ActiveCount.step (.ofTasks tasks true))
          (fun count event => count.leaks event = false) (.initial start) events := by
      simpa using Machine.tally_eq_zero fun (count : ActiveCount) event =>
        (count.leaks event).toNat
    rw [← noLeaks, ← sum]
    constructor
    · exact And.right
    · intro drained
      refine ⟨?_, drained⟩
      rintro count ⟨earlier, isEarlier, ranEarlier⟩
      have each := noLeaks.mp (sum ▸ drained)
      exact (ActiveCount.Kept.reachable built ((each.earlier isEarlier).reachable ranEarlier)).peak

namespace MissingScript

/-- One task on its way from its start to the end of its command. -/
def executed (index : Nat) (outcome : CommandOutcome) : List CountEvent :=
  [.admission (.scheduler (.start index)), .admission (.miss index),
    .admission (.acquire index none), .fetchAdd index, .fetchMax index,
    .admission (.reserve index), .admission (.exit index outcome), .admission (.conclude index),
    .admission (.scheduler (.send index))]

def looseAlone : List Task := [{ task "core" [] with sandboxMode := .loose }]

def looseRun : List CountEvent :=
  [.admission (.scheduler .enterPackages), .admission (.scheduler .spawn),
    .admission (.scheduler .spawn)] ++ executed 0 (.exited 0) ++
  [.admission (.scheduler (.join 0)), .admission (.scheduler .leave)]

def strictRun : List CountEvent :=
  [.admission (.scheduler .enterPackages), .admission (.scheduler .spawn),
    .admission (.scheduler .spawn), .admission (.scheduler .spawn)] ++ executed 0 (.exited 0) ++
  executed 1 (.exited 0) ++
  [.admission (.scheduler (.join 0)), .admission (.scheduler (.join 1)),
    .admission (.scheduler .leave)]

def counters (tasks : List Task) (events : List CountEvent) : Option ActiveCount :=
  (Admission.initial (.ofTasks tasks true) fourCores ⟨some 1, none⟩).bind fun start =>
    Machine.run (ActiveCount.step (.ofTasks tasks true)) (.initial start) events

end MissingScript

theorem counters_exact_iff_loose : ∃ start final,
    Admission.initial (.ofTasks MissingScript.looseAlone true) MissingScript.fourCores
      ⟨some 1, none⟩ = some start ∧
    Machine.run (ActiveCount.step (.ofTasks MissingScript.looseAlone true)) (.initial start)
      MissingScript.looseRun = some final ∧
    final.Returned ∧
    PeakAllowed (.ofTasks MissingScript.looseAlone true) 1 (.initial start)
      MissingScript.looseRun ∧
    Machine.Each (ActiveCount.step (.ofTasks MissingScript.looseAlone true))
      (fun count event => count.leaks event = false) (.initial start) MissingScript.looseRun ∧
    ¬ ExactCounters (.ofTasks MissingScript.looseAlone true) 1 (.initial start)
      MissingScript.looseRun := by
  obtain ⟨final, counted, ends⟩ : ∃ final, MissingScript.counters MissingScript.looseAlone
      MissingScript.looseRun = some final ∧
        (final.admission.schedule.stage, final.currentActive) = (.returned (.ok ()), 0) := by
    apply Option.map_eq_some_iff.mp
    decide +kernel
  obtain ⟨returned, drained⟩ := Prod.mk.inj ends
  obtain ⟨start, built, ran⟩ := Option.bind_eq_some_iff.mp counted
  obtain ⟨exact_iff, ended⟩ := counters_exact_iff MissingScript.looseAlone
    MissingScript.fourCores ⟨some 1, none⟩ start built MissingScript.looseRun final ran
  have isReturned : final.Returned := ⟨.ok (), returned⟩
  have peak : Machine.Each (ActiveCount.step (.ofTasks MissingScript.looseAlone true))
      (fun count event => count.leaks event = false) (.initial start) MissingScript.looseRun := by
    have noLeaks := ActiveCount.currentActive_eq built ran
    rw [drained] at noLeaks
    have zero := (Nat.add_eq_zero_iff.mp noLeaks.symm).2
    simpa using (Machine.tally_eq_zero _).mp zero
  refine ⟨start, final, built, ran, isReturned, ((ended isReturned).mpr peak).1, peak, ?_⟩
  intro counts
  exact absurd (exact_iff.mp counts (.admission (.acquire 0 none))
      (by simp [MissingScript.looseRun, MissingScript.executed]))
    (by decide)

/-- Two sandboxed commands, one after the other, leave two on the count; one was allowed. -/
theorem counters_leak : ∃ start final,
    Admission.initial (.ofTasks MissingScript.pair true) MissingScript.fourCores
      ⟨some 1, none⟩ = some start ∧
    Machine.run (ActiveCount.step (.ofTasks MissingScript.pair true)) (.initial start)
      MissingScript.strictRun = some final ∧
    final.Returned ∧ final.currentActive = 2 ∧ final.peakActive = 2 ∧
    ¬ ExactCounters (.ofTasks MissingScript.pair true) 1 (.initial start)
      MissingScript.strictRun := by
  obtain ⟨final, counted, ends⟩ : ∃ final, MissingScript.counters MissingScript.pair
      MissingScript.strictRun = some final ∧
        (final.admission.schedule.stage, final.currentActive, final.peakActive) =
          (.returned (.ok ()), 2, 2) := by
    apply Option.map_eq_some_iff.mp
    decide +kernel
  obtain ⟨returned, ends⟩ := Prod.mk.inj ends
  obtain ⟨current, peak⟩ := Prod.mk.inj ends
  obtain ⟨start, built, ran⟩ := Option.bind_eq_some_iff.mp counted
  refine ⟨start, final, built, ran, ⟨.ok (), returned⟩, current, peak, ?_⟩
  intro counts
  have low := counts.peak final ⟨_, List.prefix_refl _, ran⟩
  omega

end Rage
