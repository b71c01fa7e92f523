import Rage.Reconciler

/-!
Whose state the daemon shows.  It is that of the latest build as long as no earlier build ends
with another one in between.
-/

namespace Rage.Daemon

def Build.records (build : Build) (result : Option (List TaskRecord)) : List TaskRecord :=
  (result.getD []).filter fun task =>
    build.retried.all fun (package, script) => !task.isOf package script

/-- An unfinished build stands for converging, a finished one for its state and records. -/
def Build.ShownBy (build : Build) (shared : DaemonState) : Prop :=
  match build.ended with
  | none => shared.state = .converging
  | some result => shared.state = resultState result ∧ shared.tasks = build.records result

namespace Reconciler

def ShowsLatest (reconciler : Reconciler) : Prop :=
  ∀ build, reconciler.builds.head? = some build → build.ShownBy reconciler.shared

/-- A build may end while it is the latest, or once the latest has ended and shows what this one
comes to. -/
def Fits (reconciler : Reconciler) : ReconcilerEvent → Prop
  | .complete age meets =>
      ∀ build, reconciler.builds[age]? = some build → age = 0 ∨
        (∃ latest, reconciler.builds.head? = some latest ∧ latest.ended ≠ none) ∧
          reconciler.shared.finish (runBuild build.desired meets) = reconciler.shared
  | _ => True

/-- What carries `ShowsLatest`: while the latest build runs there is no record. -/
structure Current (reconciler : Reconciler) : Prop where
  latest : reconciler.ShowsLatest
  empty : ∀ build, reconciler.builds.head? = some build → build.ended = none →
    reconciler.shared.tasks = []

theorem spawned_current : spawned.Current := by
  constructor
  · simp [ShowsLatest, spawned]
  · simp [spawned]

theorem startBuild_current (reconciler : Reconciler) (desired : DesiredState) :
    (reconciler.startBuild desired).Current := by
  constructor
  · simp [ShowsLatest, startBuild, Build.ShownBy, DaemonState.converging]
  · simp [startBuild, DaemonState.converging]

theorem records_retry (build : Build) {result : Option (List TaskRecord)}
    (isEnded : build.ended = some result) (package script : Bytes) :
    (build.retry package script).records result =
      (build.records result).filter fun task => !task.isOf package script := by
  simp [Build.records, Build.retry, isEnded, List.filter_filter]

theorem handle_current {reconciler : Reconciler} (current : reconciler.Current)
    (cmd : ReconcilerCmd) : (reconciler.handle cmd).Current := by
  cases cmd with
  | setDesiredState desired => exact startBuild_current reconciler desired
  | onFilesChanged =>
      unfold handle
      cases reconciler.shared.desired with
      | none => exact current
      | some desired => exact startBuild_current reconciler desired
  | retryTask package script =>
      constructor
      case latest =>
        intro build isLatest
        simp only [handle, List.head?_map] at isLatest
        obtain ⟨before, wasLatest, rfl⟩ := Option.map_eq_some_iff.mp isLatest
        have shown := current.latest before wasLatest
        cases isEnded : before.ended with
        | none => simpa [Build.ShownBy, Build.retry, isEnded, handle, DaemonState.retain] using shown
        | some result =>
            simp only [Build.ShownBy, isEnded] at shown
            have kept : (before.retry package script).ended = some result := by
              simp [Build.retry, isEnded]
            simp only [Build.ShownBy, kept, records_retry before isEnded, handle,
              DaemonState.retain, ← shown.2]
            exact ⟨shown.1, trivial⟩
      case empty =>
        intro build isLatest running
        simp only [handle, List.head?_map] at isLatest
        obtain ⟨before, wasLatest, rfl⟩ := Option.map_eq_some_iff.mp isLatest
        have wasRunning : before.ended = none := by
          cases isEnded : before.ended with
          | none => rfl
          | some result => simp [Build.retry, isEnded] at running
        simp [handle, DaemonState.retain, current.empty before wasLatest wasRunning]

theorem resultState_ne_converging (result : Option (List TaskRecord)) :
    resultState result ≠ .converging := by
  cases result with
  | none => simp [resultState]
  | some records =>
      rw [resultState]
      split <;> simp

theorem complete_latest {reconciler : Reconciler} (current : reconciler.Current) {build : Build}
    (runs : reconciler.Runs 0 build) (meets : BuildMeets) :
    (reconciler.complete 0 build meets).Current := by
  obtain ⟨isLatest, running, _⟩ := runs
  rw [← List.head?_eq_getElem?] at isLatest
  have noTasks := current.empty build isLatest running
  obtain ⟨older, isBuilds⟩ := List.head?_eq_some_iff.mp isLatest
  constructor
  · simp [ShowsLatest, complete, isBuilds, Build.ShownBy, DaemonState.finish, noTasks,
      Build.records]
  · simp [complete, isBuilds]

theorem ShowsLatest.complete_older_iff {reconciler : Reconciler} (shows : reconciler.ShowsLatest)
    {age : Nat} {build : Build} (isBuild : reconciler.builds[age + 1]? = some build)
    (meets : BuildMeets) :
    (reconciler.complete (age + 1) build meets).ShowsLatest ↔
      (∃ latest, reconciler.builds.head? = some latest ∧ latest.ended ≠ none) ∧
        reconciler.shared.finish (runBuild build.desired meets) = reconciler.shared := by
  obtain ⟨latest, older, isBuilds⟩ : ∃ latest older, reconciler.builds = latest :: older := by
    cases isBuilds : reconciler.builds with
    | nil => simp [isBuilds] at isBuild
    | cons latest older => exact ⟨latest, older, rfl⟩
  have shown := shows latest (by simp [isBuilds])
  have heads : (reconciler.complete (age + 1) build meets).ShowsLatest ↔
      latest.ShownBy (reconciler.shared.finish (runBuild build.desired meets)) := by
    simp [ShowsLatest, complete, isBuilds]
  rw [heads, isBuilds]
  cases isEnded : latest.ended with
  | none =>
      -- the earlier build overwrites `converging`
      simp [Build.ShownBy, isEnded, DaemonState.finish, resultState_ne_converging]
  | some result =>
      simp only [Build.ShownBy, isEnded] at shown ⊢
      obtain ⟨isState, areTasks⟩ := shown
      constructor
      · rintro ⟨sameState, sameTasks⟩
        refine ⟨⟨latest, rfl, by simp [isEnded]⟩, ?_⟩
        rw [← isState] at sameState
        rw [← areTasks] at sameTasks
        simp only [DaemonState.finish] at sameState sameTasks
        simp only [DaemonState.finish, sameState, sameTasks]
      · rintro ⟨_, same⟩
        rw [same]
        exact ⟨isState, areTasks⟩

theorem complete_showsLatest_iff {reconciler : Reconciler} (current : reconciler.Current)
    {age : Nat} {build : Build} (runs : reconciler.Runs age build) (meets : BuildMeets) :
    (reconciler.complete age build meets).ShowsLatest ↔
      reconciler.Fits (.complete age meets) := by
  cases age with
  | zero =>
      have shows := (complete_latest current runs meets).latest
      simp [shows, Fits]
  | succ age => simp [current.latest.complete_older_iff runs.1, Fits, runs.1]

theorem step_showsLatest_iff {reconciler next : Reconciler} (current : reconciler.Current)
    {event : ReconcilerEvent} (taken : reconciler.step event = some next) :
    next.ShowsLatest ↔ reconciler.Fits event := by
  obtain ⟨cmd, rfl, _, rfl⟩ | ⟨rfl, _, rfl⟩ | ⟨age, meets, build, rfl, runs, rfl⟩ :=
    step_cases taken
  · simp [(handle_current current cmd).latest, Fits]
  · exact iff_of_true current.latest trivial
  · exact complete_showsLatest_iff current runs meets

theorem step_current {reconciler next : Reconciler} (current : reconciler.Current)
    {event : ReconcilerEvent} (fits : reconciler.Fits event)
    (taken : reconciler.step event = some next) : next.Current := by
  have latest := (step_showsLatest_iff current taken).mpr fits
  obtain ⟨cmd, rfl, _, rfl⟩ | ⟨rfl, _, rfl⟩ | ⟨age, meets, build, rfl, runs, rfl⟩ :=
    step_cases taken
  · exact handle_current current cmd
  · exact ⟨latest, current.empty⟩
  · cases age with
    | zero => exact complete_latest current runs meets
    | succ age =>
        refine ⟨latest, ?_⟩
        intro other isLatest running
        obtain isZero | ⟨⟨ended, wasLatest, notRunning⟩, _⟩ := fits build runs.1
        · omega
        · obtain ⟨older, isBuilds⟩ := List.head?_eq_some_iff.mp wasLatest
          have same : ended = other := by simpa [complete, isBuilds] using isLatest
          exact absurd (same ▸ running) notRunning

theorem shows_latest_iff {reconciler : Reconciler}
    (reached : Machine.Reachable step Fits spawned reconciler) :
    reconciler.ShowsLatest ∧
    ∀ event next, reconciler.step event = some next →
      (next.ShowsLatest ↔ reconciler.Fits event) := by
  have current : reconciler.Current :=
    reached.invariant Current spawned_current
      fun _ _ _ holds fits taken => step_current holds fits taken
  exact ⟨current.latest, fun _ _ taken => step_showsLatest_iff current taken⟩

def buildAll : DesiredState := ⟨utf8 "/w", utf8 "build", none⟩

def buildsNothing : BuildMeets := ⟨some [], true, fun _ => 0⟩

def cannotList : BuildMeets := ⟨none, true, fun _ => 0⟩

/-- A build that ends after the next one has ended with the same result. -/
theorem shows_latest_iff_same_result :
    ∃ reconciler, Machine.run step spawned [.command (.setDesiredState buildAll), .announce,
      .command .onFilesChanged, .announce, .complete 0 cannotList, .complete 1 cannotList] =
        some reconciler ∧
    reconciler.ShowsLatest ∧
    ∀ event next, reconciler.step event = some next →
      (next.ShowsLatest ↔ reconciler.Fits event) := by
  refine ⟨_, rfl, shows_latest_iff (.tail (.complete 1 cannotList) (.tail (.complete 0 cannotList)
    (.tail .announce (.tail (.command .onFilesChanged) (.tail .announce
    (.tail (.command (.setDesiredState buildAll)) .refl trivial rfl) trivial rfl) trivial rfl)
    trivial rfl) ?_ rfl) ?_ rfl)⟩
  · intro build _
    exact Or.inl rfl
  · intro build isBuild
    obtain rfl : (⟨buildAll, none, []⟩ : Build) = build := Option.some.inj isBuild
    exact Or.inr ⟨⟨_, rfl, by decide⟩, rfl⟩

/-- A file changes during the first build, which then ends before the second. -/
theorem older_build_shown :
    ∃ reconciler, Machine.run step spawned [.command (.setDesiredState buildAll), .announce,
      .command .onFilesChanged, .announce, .complete 1 buildsNothing] = some reconciler ∧
    reconciler.builds.head?.map Build.ended = some none ∧
    reconciler.shared.state = .ready ∧ ¬ reconciler.ShowsLatest := by
  refine ⟨_, rfl, by decide, by decide, ?_⟩
  intro shows
  have converging : BuildState.ready = .converging := shows ⟨buildAll, none, []⟩ rfl
  contradiction

end Reconciler

end Rage.Daemon
