import Mathlib.Data.Fintype.Card
import Mathlib.Data.Fintype.EquivFin
import Rage.FirstError

/-!
The dependency channels do not block each other: where the dependencies have no cycle, some task
that has not ended can go on.
-/

namespace Rage

def Stage.spawned : Stage → Nat → Prop
  | .spawning next, index => index < next
  | .joining, _ => True
  | _, _ => False

/-- What keeps a run going: who is spawned, and that a sender lives no longer than its future. -/
structure Alive (set : TaskSet) (schedule : Schedule) : Prop where
  rootsSpawned : ∀ index < set.roots.length,
    schedule.rootPhase index = .running ∨ (schedule.rootPhase index).Ended
  spawned : ∀ index < set.packages.length, schedule.stage.spawned index →
    schedule.phase index ≠ .unspawned
  receivers : ∀ (index : Nat) (task : Task) (rest : List Bytes),
    set.packages[index]? = some task → schedule.phase index = .waiting rest →
      ∀ dep ∈ rest, set.Edge task.packageName dep
  opened : schedule.stage.inPackages → ∀ name, set.hasTask name = true →
    (schedule.channels name).isSome = true
  sender : ∀ (index : Nat) (task : Task), set.packages[index]? = some task →
    (schedule.phase index).Ended → ∀ state,
      schedule.channels task.packageName ≠ some ⟨state, true⟩

namespace Alive

variable {set : TaskSet} {before after : Schedule}

theorem initial (set : TaskSet) : Alive set (.initial set) where
  rootsSpawned := by
    intro index below
    simp [Schedule.initial, below]
  spawned := by
    intro index _ spawned
    exact spawned.elim
  receivers := by simp [Schedule.initial]
  opened := False.elim
  sender := by simp [Schedule.initial]

theorem rootsSpawned_step (alive : Alive set before) (move : Schedule.Move set before after) :
    ∀ index < set.roots.length,
      after.rootPhase index = .running ∨ (after.rootPhase index).Ended := by
  intro index below
  have was := alive.rootsSpawned index below
  cases move with
  | root moved phase running rootPhase phases same ended =>
      rw [rootPhase]
      by_cases here : index = moved
      · rw [here, Function.update_self]
        exact Or.inr ended
      · rwa [Function.update_of_ne here]
  | package moved phase live spawned phases rootPhase => rwa [rootPhase]
  | rootCollected moved outcome stage joined next => rwa [next]
  | failedRoots error stage joined failed next => rwa [next]
  | noPackages stage joined clean empty next => rwa [next]
  | entered stage joined clean next => rwa [next]
  | allSpawned moved stage known next => rwa [next]
  | spawnPanicked moved task stage known repeated next => rwa [next]
  | spawned moved task stage known next => rwa [next]
  | collected moved outcome stage joined next => rwa [next]
  | left stage joined next => rwa [next]

theorem spawned_step (alive : Alive set before) (move : Schedule.Move set before after) :
    ∀ index < set.packages.length, after.stage.spawned index →
      after.phase index ≠ .unspawned := by
  intro index below isSpawned
  have was := alive.spawned index below
  cases move with
  | root moved phase running rootPhase phases same =>
      rw [phases]
      rw [same.stage] at isSpawned
      exact was isSpawned
  | package moved phase live spawned phases rootPhase same moves =>
      rw [phases]
      rw [same.stage] at isSpawned
      by_cases here : index = moved
      · rwa [here, Function.update_self]
      · rw [Function.update_of_ne here]
        exact was isSpawned
  | rootCollected moved outcome stage joined next =>
      rw [next] at isSpawned ⊢
      exact was isSpawned
  | failedRoots error stage joined failed next =>
      rw [next] at isSpawned
      exact isSpawned.elim
  | noPackages stage joined clean empty next =>
      rw [next] at isSpawned
      exact isSpawned.elim
  | entered stage joined clean next =>
      rw [next] at isSpawned
      exact absurd isSpawned (Nat.not_lt_zero index)
  | allSpawned moved stage known next =>
      rw [next]
      apply was
      rw [stage]
      exact Nat.lt_of_lt_of_le below (List.getElem?_eq_none_iff.mp known)
  | spawnPanicked moved task stage known repeated next =>
      rw [next] at isSpawned
      exact isSpawned.elim
  | spawned moved task stage known next =>
      rw [next] at isSpawned ⊢
      by_cases here : index = moved
      · simp [here]
      · have earlier : index < moved := by
          have upTo : index < moved + 1 := isSpawned
          omega
        simp only [Function.update_of_ne here]
        apply was
        rw [stage]
        exact earlier
  | collected moved outcome stage joined next =>
      rw [next] at isSpawned ⊢
      exact was isSpawned
  | left stage joined next =>
      rw [next] at isSpawned
      exact isSpawned.elim

theorem receivers_step (alive : Alive set before) (effect : Schedule.Effect set before after) :
    ∀ (index : Nat) (task : Task) (rest : List Bytes), set.packages[index]? = some task →
      after.phase index = .waiting rest → ∀ dep ∈ rest, set.Edge task.packageName dep := by
  -- Of a future that moves to another phase than waiting nothing is to be shown.
  have kept {moved : Nat} {phase : Phase}
      (phases : after.phase = Function.update before.phase moved phase)
      (own : ∀ task rest, set.packages[moved]? = some task → phase = .waiting rest →
        ∀ dep ∈ rest, set.Edge task.packageName dep) :
      ∀ (index : Nat) (task : Task) (rest : List Bytes), set.packages[index]? = some task →
        after.phase index = .waiting rest → ∀ dep ∈ rest, set.Edge task.packageName dep := by
    intro index task rest known waiting
    rw [phases] at waiting
    by_cases here : index = moved
    · subst here
      rw [Function.update_self] at waiting
      exact own task rest known waiting
    · rw [Function.update_of_ne here] at waiting
      exact alive.receivers index task rest known waiting
  cases effect with
  | control ahead phase channels =>
      rw [phase]
      exact alive.receivers
  | opened wasRoots phase channels =>
      rw [phase]
      exact alive.receivers
  | spawned moved task known wasAhead ahead fresh phase channels =>
      apply kept phase
      intro own rest isOwn waiting dep member
      obtain rfl := Option.some.inj (known.symm.trans isOwn)
      obtain rfl := Phase.waiting.inj waiting
      exact Attributed.edge_of_receiver (List.mem_of_getElem? known) member
  | received moved dep rest sender stage waited done phase channels =>
      apply kept phase
      intro own left isOwn waiting other member
      obtain rfl := Phase.waiting.inj waiting
      exact alive.receivers moved own _ isOwn waited other (List.mem_cons_of_mem dep member)
  | skipped moved dep rest stage waited phase channels => exact kept phase (by simp)
  | started moved stage waited phase channels => exact kept phase (by simp)
  | finished moved result stage ran phase channels => exact kept phase (by simp)
  | sent moved task result state known stage was isDone phase channels => exact kept phase (by simp)
  | dropped moved task known stage was phase channels => exact kept phase (by simp)

theorem channels_kept (effect : Schedule.Effect set before after) :
    after.channels = Schedule.openChannels set ∨
      ∀ name, (before.channels name).isSome = true → (after.channels name).isSome = true := by
  have updated {moved : Bytes} {channel : Option Channel}
      (channels : after.channels = Function.update before.channels moved channel)
      (own : (before.channels moved).isSome = true → channel.isSome = true) (name : Bytes)
      (known : (before.channels name).isSome = true) : (after.channels name).isSome = true := by
    rw [channels]
    by_cases here : name = moved
    · subst here
      rw [Function.update_self]
      exact own known
    · rwa [Function.update_of_ne here]
  cases effect with
  | opened wasRoots phase channels => exact Or.inl channels
  | control ahead phase channels => exact Or.inr (by simp [channels])
  | spawned moved task known wasAhead ahead fresh phase channels =>
      exact Or.inr (by simp [channels])
  | received moved dep rest sender stage waited done phase channels =>
      exact Or.inr (by simp [channels])
  | skipped moved dep rest stage waited phase channels => exact Or.inr (by simp [channels])
  | started moved stage waited phase channels => exact Or.inr (by simp [channels])
  | finished moved result stage ran phase channels => exact Or.inr (by simp [channels])
  | sent moved task result state known stage was isDone phase channels =>
      exact Or.inr (updated channels fun _ => rfl)
  | dropped moved task known stage was phase channels =>
      exact Or.inr (updated channels (by simp))

theorem opened_step (alive : Alive set before) (move : Schedule.Move set before after)
    (effect : Schedule.Effect set before after) (opens : before.stage = .roots →
      after.stage.inPackages → after.channels = Schedule.openChannels set) :
    after.stage.inPackages → ∀ name, set.hasTask name = true →
      (after.channels name).isSome = true := by
  intro inPackages name tasked
  have fresh (channels : after.channels = Schedule.openChannels set) :
      (after.channels name).isSome = true := by
    rw [channels, Schedule.openChannels, if_pos tasked]
    rfl
  by_cases wasRoots : before.stage = .roots
  · exact fresh (opens wasRoots inPackages)
  · rcases channels_kept effect with channels | kept
    · exact fresh channels
    · apply kept name
      apply alive.opened ?_ name tasked
      cases move with
      | root moved phase running rootPhase phases same => rwa [← same.stage]
      | package moved phase live spawned phases rootPhase same => rwa [← same.stage]
      | rootCollected moved outcome stage joined next => exact absurd stage wasRoots
      | failedRoots error stage joined failed next => exact absurd stage wasRoots
      | noPackages stage joined clean empty next => exact absurd stage wasRoots
      | entered stage joined clean next => exact absurd stage wasRoots
      | allSpawned moved stage known next =>
          rw [stage]
          trivial
      | spawnPanicked moved task stage known repeated next =>
          rw [stage]
          trivial
      | spawned moved task stage known next =>
          rw [stage]
          trivial
      | collected moved outcome stage joined next =>
          rw [stage]
          trivial
      | left stage joined next =>
          rw [stage]
          trivial

theorem sender_step (alive : Alive set before) (ordered : Ordered set before)
    (effect : Schedule.Effect set before after) :
    ∀ (index : Nat) (task : Task), set.packages[index]? = some task →
      (after.phase index).Ended → ∀ state, after.channels task.packageName ≠ some ⟨state, true⟩ := by
  have living {moved : Nat} {phase : Phase}
      (phases : after.phase = Function.update before.phase moved phase)
      (channels : after.channels = before.channels) (notEnded : ¬ phase.Ended) :
      ∀ (index : Nat) (task : Task), set.packages[index]? = some task →
        (after.phase index).Ended → ∀ state,
          after.channels task.packageName ≠ some ⟨state, true⟩ := by
    intro index task known ended state
    rw [phases] at ended
    rw [channels]
    by_cases here : index = moved
    · rw [here, Function.update_self] at ended
      exact absurd ended notEnded
    · rw [Function.update_of_ne here] at ended
      exact alive.sender index task known ended state
  -- The future that ends takes its sender along.
  have closing {moved : Nat} {own : Task} {phase : Phase} {channel : Option Channel}
      (isOwn : set.packages[moved]? = some own)
      (phases : after.phase = Function.update before.phase moved phase)
      (channels : after.channels = Function.update before.channels own.packageName channel)
      (closed : ∀ state, channel ≠ some ⟨state, true⟩) :
      ∀ (index : Nat) (task : Task), set.packages[index]? = some task →
        (after.phase index).Ended → ∀ state,
          after.channels task.packageName ≠ some ⟨state, true⟩ := by
    intro index task known ended state
    rw [channels]
    by_cases name : task.packageName = own.packageName
    · rw [name, Function.update_self]
      exact closed state
    · rw [Function.update_of_ne name]
      apply alive.sender index task known ?_ state
      have differ : index ≠ moved := by
        rintro rfl
        obtain rfl := Option.some.inj (known.symm.trans isOwn)
        exact name rfl
      rwa [phases, Function.update_of_ne differ] at ended
  cases effect with
  | control ahead phase channels =>
      rw [phase, channels]
      exact alive.sender
  | opened wasRoots phase channels =>
      intro index task known ended
      have unspawned := ordered.ahead index (by rw [wasRoots]; trivial)
      rw [phase, unspawned] at ended
      simp [Phase.Ended] at ended
  | spawned moved task known wasAhead ahead fresh phase channels =>
      exact living phase channels (by simp [Phase.Ended])
  | received moved dep rest sender stage waited done phase channels =>
      exact living phase channels (by simp [Phase.Ended])
  | skipped moved dep rest stage waited phase channels =>
      exact living phase channels (by simp [Phase.Ended])
  | started moved stage waited phase channels => exact living phase channels (by simp [Phase.Ended])
  | finished moved result stage ran phase channels =>
      exact living phase channels (by simp [Phase.Ended])
  | sent moved task result state known stage was isDone phase channels =>
      exact closing known phase channels (by simp)
  | dropped moved task known stage was phase channels =>
      exact closing known phase channels (by simp)

theorem step (alive : Alive set before) (ordered : Ordered set before) {event : SchedulerEvent}
    (taken : before.step set event = some after) : Alive set after := by
  have move := Schedule.step_move taken
  have effect := Schedule.step_effect taken
  constructor
  · exact alive.rootsSpawned_step move
  · exact alive.spawned_step move
  · exact alive.receivers_step effect
  · apply alive.opened_step move effect
    intro wasRoots inPackages
    cases move with
    | entered stage joined clean next => rw [next]
    | root moved phase running rootPhase phases same =>
        rw [same.stage, wasRoots] at inPackages
        exact inPackages.elim
    | package moved phase live spawned phases rootPhase same =>
        rw [same.stage, wasRoots] at inPackages
        exact inPackages.elim
    | rootCollected moved outcome stage joined next =>
        rw [next] at inPackages
        simp [stage, Stage.inPackages] at inPackages
    | failedRoots error stage joined failed next =>
        rw [next] at inPackages
        exact inPackages.elim
    | noPackages stage joined clean empty next =>
        rw [next] at inPackages
        exact inPackages.elim
    | allSpawned moved stage known next => simp [stage] at wasRoots
    | spawnPanicked moved task stage known repeated next => simp [stage] at wasRoots
    | spawned moved task stage known next => simp [stage] at wasRoots
    | collected moved outcome stage joined next => simp [stage] at wasRoots
    | left stage joined next => simp [stage] at wasRoots
  · exact alive.sender_step ordered effect

theorem reachable {schedule : Schedule} (reached : Schedule.Reachable set schedule) :
    Alive set schedule := by
  induction reached with
  | initial => exact initial set
  | step event reached taken ih => exact ih.step (Ordered.reachable reached) taken

end Alive

/-- Of tasks with distinct names none lacks its sender. -/
theorem Schedule.not_panicked {set : TaskSet} {schedule : Schedule}
    (distinct : (set.packages.map Task.packageName).Nodup) (reached : Reachable set schedule) :
    schedule.stage ≠ .panicked := by
  induction reached with
  | initial => simp [Schedule.initial]
  | step event reached taken ih =>
      cases step_move taken with
      | root moved phase running rootPhase phases same => rwa [same.stage]
      | package moved phase live spawned phases rootPhase same => rwa [same.stage]
      | rootCollected moved outcome stage joined next => rwa [next]
      | failedRoots error stage joined failed next => simp [next]
      | noPackages stage joined clean empty next => simp [next]
      | entered stage joined clean next => simp [next]
      | allSpawned moved stage known next => simp [next]
      | spawnPanicked moved task stage known repeated next =>
          obtain ⟨other, earlier, sameName⟩ := repeated
          exact absurd sameName (Attributed.distinct_take distinct known other earlier)
      | spawned moved task stage known next => simp [next]
      | collected moved outcome stage joined next => rwa [next]
      | left stage joined next => simp [next]

/-- What a future of a package task can do next by itself. -/
def Schedule.Ready (schedule : Schedule) : Phase → Prop
  | .waiting [] => True
  | .waiting (dep :: rest) => (schedule.pollReceiver dep rest).isSome = true
  | .skipping => True
  | .running => True
  | .finished _ => True
  | _ => False

/-- A receiver only blocks while the sender of its task is there, whose future has not ended. -/
theorem Alive.blocked_on {set : TaskSet} {schedule : Schedule} (alive : Alive set schedule)
    (inPackages : schedule.stage.inPackages) {dep : Bytes} {rest : List Bytes}
    (tasked : set.hasTask dep = true) (blocked : schedule.pollReceiver dep rest = none) :
    ∃ (index : Nat) (task : Task), set.packages[index]? = some task ∧
      task.packageName = dep ∧ ¬ (schedule.phase index).Ended := by
  obtain ⟨⟨state, sender⟩, found⟩ := Option.isSome_iff_exists.mp (alive.opened inPackages dep tasked)
  have living : sender = true := by
    cases state with
    | pending =>
        cases sender with
        | true => rfl
        | false => simp [Schedule.pollReceiver, found] at blocked
    | done => simp [Schedule.pollReceiver, found] at blocked
    | failed => simp [Schedule.pollReceiver, found] at blocked
  obtain ⟨task, member, isName⟩ := List.any_eq_true.mp tasked
  obtain ⟨index, known⟩ := List.mem_iff_getElem?.mp member
  have name : task.packageName = dep := by simpa using isName
  refine ⟨index, task, known, name, ?_⟩
  intro ended
  apply alive.sender index task known ended state
  rw [name, found, living]

/-- The second task reaches the first one along dependencies. -/
def TaskSet.Before (set : TaskSet) (first second : Fin set.packages.length) : Prop :=
  Relation.TransGen set.Edge (set.packages.get second).packageName
    (set.packages.get first).packageName

theorem TaskSet.before_founded {set : TaskSet}
    (acyclic : ∀ package, ¬ Relation.TransGen set.Edge package package) :
    WellFounded set.Before := by
  have : Std.Irrefl set.Before := ⟨fun position => acyclic _⟩
  have : IsTrans (Fin set.packages.length) set.Before :=
    ⟨fun _ _ _ first second => Relation.TransGen.trans second first⟩
  exact Finite.wellFounded_of_trans_of_irrefl set.Before

/-- Without a cycle of dependencies, one of the tasks that have not ended is ready. -/
theorem Alive.exists_ready {set : TaskSet} {schedule : Schedule} (alive : Alive set schedule)
    (joining : schedule.stage = .joining)
    (acyclic : ∀ package, ¬ Relation.TransGen set.Edge package package) {index : Nat}
    (below : index < set.packages.length) (unended : ¬ (schedule.phase index).Ended) :
    ∃ ready < set.packages.length, schedule.Ready (schedule.phase ready) := by
  have inPackages : schedule.stage.inPackages := by
    rw [joining]
    trivial
  -- By induction along the dependencies: a blocked task waits for one that has not ended.
  have descent : ∀ position : Fin set.packages.length, ¬ (schedule.phase position).Ended →
      ∃ ready < set.packages.length, schedule.Ready (schedule.phase ready) := by
    intro position
    induction position using (TaskSet.before_founded acyclic).induction with
    | h position ih =>
      intro unended
      have known : set.packages[position.1]? = some (set.packages.get position) :=
        List.getElem?_eq_getElem position.2
      have here (ready : schedule.Ready (schedule.phase position)) :
          ∃ ready < set.packages.length, schedule.Ready (schedule.phase ready) :=
        ⟨position, position.2, ready⟩
      cases phase : schedule.phase position with
      | unspawned =>
          have spawned := alive.spawned position position.2 (by rw [joining]; trivial)
          exact absurd phase spawned
      | waiting receivers =>
          cases receivers with
          | nil => exact here (by rw [phase]; trivial)
          | cons dep rest =>
              cases polled : schedule.pollReceiver dep rest with
              | some next => exact here (by rw [phase, Schedule.Ready, polled]; rfl)
              | none =>
                  have edge := alive.receivers position _ _ known phase dep List.mem_cons_self
                  have tasked : set.hasTask dep = true := by
                    obtain ⟨_, _, _, _, tasked⟩ := edge
                    exact tasked
                  obtain ⟨other, task, otherKnown, isName, living⟩ :=
                    alive.blocked_on inPackages tasked polled
                  obtain ⟨bound, isTask⟩ := List.getElem?_eq_some_iff.mp otherKnown
                  have target : (set.packages.get ⟨other, bound⟩).packageName = dep := by
                    rw [← isName, ← isTask]
                    rfl
                  apply ih ⟨other, bound⟩ (Relation.TransGen.single ?_) living
                  rw [target]
                  exact edge
      | skipping => exact here (by rw [phase]; trivial)
      | running => exact here (by rw [phase]; trivial)
      | finished result => exact here (by rw [phase]; trivial)
      | returned result => exact absurd (Or.inr ⟨result, phase⟩) unended
      | dropped => exact absurd (Or.inl phase) unended
  exact descent ⟨index, below⟩ unended

end Rage
