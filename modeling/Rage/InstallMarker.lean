import Rage.RootTask
import Rage.Runs

/-!
The marker fast path.  Markers of all past fingerprints stay in the cache, and there is one
`node_modules`; the history of a workspace remembers which run worked on it last.
-/

namespace Rage

inductive InstallEvent
  | edit (fs : FileSystem)
  | run (task : Task) (effects : RootEffects)

/-- `touches` are the runs that worked on `node_modules`, the newest first, each with its
fingerprint and whether it completed; `lastFp` is the fingerprint of the last run that worked on
it or took the fast path. -/
structure InstallHistory where
  state : InstallState
  touches : List (Bytes × Bool)
  lastFp : Option Bytes

namespace InstallHistory

variable (crates : Crates) (plugin : EcosystemPlugin)

def runTask (history : InstallHistory) (task : Task) (effects : RootEffects) : InstallHistory :=
  let fp := rootTaskFingerprint crates history.state.fs task
  let run := runRootTaskTwoPhase crates plugin history.state task effects
  match run.1.touched with
  | some completed => ⟨run.2, (fp, completed) :: history.touches, some fp⟩
  | none => ⟨run.2, history.touches, if run.1.isCached then some fp else history.lastFp⟩

def step (history : InstallHistory) : InstallEvent → InstallHistory
  | .edit fs => { history with state := { history.state with fs := fs } }
  | .run task effects => history.runTask crates plugin task effects

def Installed (touches : List (Bytes × Bool)) (fp : Bytes) : Prop :=
  ∃ newer older, touches = newer ++ (fp, true) :: older ∧ ∀ touch ∈ newer, touch.1 = fp

/-- A run that ends on the marker finds the install of its own fingerprint. -/
def FreshMarker (history : InstallHistory) : InstallEvent → Prop
  | .edit _ => True
  | .run task effects =>
      (runRootTaskTwoPhase crates plugin history.state task effects).1.isCached = true →
        Installed history.touches (rootTaskFingerprint crates history.state.fs task)

def FollowsSame (history : InstallHistory) : InstallEvent → Prop
  | .edit _ => True
  | .run task effects =>
      (runRootTaskTwoPhase crates plugin history.state task effects).1.isCached = true →
        history.lastFp = some (rootTaskFingerprint crates history.state.fs task)

def start (fs : FileSystem) (store : ArtifactStore) (dirs : Bytes → Option ArtifactDir) :
    InstallHistory :=
  ⟨⟨fs, [], store, dirs⟩, [], none⟩

def MarkersCompleted (history : InstallHistory) : Prop :=
  ∀ fp ∈ history.state.markers,
    history.touches.find? (fun touch => touch.1 == fp) = some (fp, true)

structure Tracked (history : InstallHistory) : Prop where
  completed : history.MarkersCompleted
  last : history.lastFp = history.touches.head?.map Prod.fst

variable {crates : Crates} {plugin : EcosystemPlugin}

theorem runTask_completed {history : InstallHistory} (completed : history.MarkersCompleted)
    (task : Task) (effects : RootEffects) :
    (history.runTask crates plugin task effects).MarkersCompleted := by
  have effect := runRootTask_markers crates plugin history.state task effects
  unfold runTask
  generalize runRootTaskTwoPhase crates plugin history.state task effects = run at effect ⊢
  obtain ⟨outcome, after⟩ := run
  generalize rootTaskFingerprint crates history.state.fs task = fp at effect ⊢
  simp only at effect ⊢
  generalize outcome.touched = work at effect ⊢
  cases effect with
  | idle same => exact fun marker member => completed marker (same marker member)
  | completed others =>
      intro marker member
      by_cases here : marker = fp
      · simp [here]
      · rcases others marker member with older | same
        · rw [List.find?_cons_of_neg (by simpa using Ne.symm here)]
          exact completed marker older
        · exact absurd same here
  | failed others unmarked =>
      intro marker member
      have differ : fp ≠ marker := fun same => unmarked (same ▸ member)
      rw [List.find?_cons_of_neg (by simpa using differ)]
      exact completed marker (others marker member)

theorem fresh_iff_follows {history : InstallHistory} (tracked : history.Tracked)
    (event : InstallEvent) :
    history.FreshMarker crates plugin event ↔ history.FollowsSame crates plugin event := by
  cases event with
  | edit fs => exact Iff.rfl
  | run task effects =>
      refine imp_congr_right fun cached => ?_
      have completed := tracked.completed _ (runRootTask_cached cached)
      rw [tracked.last]
      generalize rootTaskFingerprint crates history.state.fs task = fp at completed ⊢
      constructor
      · rintro ⟨newer, older, touches, same⟩
        rw [touches]
        cases newer with
        | nil => rfl
        | cons touch rest => simp [same touch (List.mem_cons_self ..)]
      · intro head
        obtain ⟨⟨first, done⟩, isHead, rfl⟩ := Option.map_eq_some_iff.mp head
        obtain ⟨older, touches⟩ := List.head?_eq_some_iff.mp isHead
        rw [touches, List.find?_cons_of_pos (by simp)] at completed
        simp only [Option.some.injEq, Prod.mk.injEq, true_and] at completed
        exact ⟨[], older, by rw [touches, completed]; rfl, by simp⟩

theorem step_tracked {history : InstallHistory} (tracked : history.Tracked)
    (event : InstallEvent) (follows : history.FollowsSame crates plugin event) :
    (history.step crates plugin event).Tracked := by
  cases event with
  | edit fs => exact ⟨tracked.completed, tracked.last⟩
  | run task effects =>
      refine ⟨runTask_completed tracked.completed task effects, ?_⟩
      simp only [step, runTask]
      split
      · rfl
      · split
        · rename_i cached
          rw [← follows cached]
          exact tracked.last
        · exact tracked.last

end InstallHistory

/-- From an empty cache, in any history of edits and root-task runs, every run on the marker finds
the install of its own fingerprint exactly when each of them follows a run of that
fingerprint. -/
theorem fresh_markers_iff (crates : Crates) (plugin : EcosystemPlugin) (fs : FileSystem)
    (store : ArtifactStore) (dirs : Bytes → Option ArtifactDir) (events : List InstallEvent) :
    Runs.Each (InstallHistory.step crates plugin)
        (fun history event => history.FreshMarker crates plugin event)
        (InstallHistory.start fs store dirs) events ↔
      Runs.Each (InstallHistory.step crates plugin)
        (fun history event => history.FollowsSame crates plugin event)
        (InstallHistory.start fs store dirs) events := by
  have initial : (InstallHistory.start fs store dirs).Tracked :=
    ⟨by simp [InstallHistory.MarkersCompleted, InstallHistory.start], rfl⟩
  refine Runs.each_congr (fun history : InstallHistory => history.Tracked)
    ?_ ?_ events initial
  · intro history event tracked fresh
    exact InstallHistory.step_tracked tracked event
      ((InstallHistory.fresh_iff_follows tracked event).mp fresh)
  · intro history event tracked
    exact InstallHistory.fresh_iff_follows tracked event

/-! A lockfile is edited, installed, and put back. -/

namespace RevertedLockfile

def disk (lock installed : String) : FileSystem :=
  ⟨[(components Sample.lockfile, ⟨.file (utf8 lock) true, false⟩),
    (components (utf8 "/ws/node_modules"), ⟨.directory, false⟩),
    (components (utf8 "/ws/node_modules/lib/index.js"), ⟨.file (utf8 installed) true, false⟩)]⟩

def installs (lock : String) : RootEffects where
  install := some (0, disk lock lock)
  pmCache := fun _ _ => none
  walked := []
  binLinks := id
  postinstall := id

def parse (_ : FileSystem) (_ : Path) : Option (List LockfilePackage) := some []

def plugin : EcosystemPlugin := typeScriptPlugin .plain Sample.noArchives parse

def events : List InstallEvent :=
  [.run Sample.install (installs "1"), .edit (disk "2" "1"), .run Sample.install (installs "2"),
    .edit (disk "1" "2")]

def start : InstallHistory :=
  .start ⟨[(components Sample.lockfile, ⟨.file (utf8 "1") true, false⟩)]⟩ (fun _ => none) fun _ => none

def history : InstallHistory := Runs.final (InstallHistory.step .plain plugin) start events

theorem cached :
    (runRootTaskTwoPhase .plain plugin history.state Sample.install (installs "1")).1.isCached = true := by
  decide +kernel

theorem touched : history.touches.head?.map Prod.fst =
    some (rootTaskFingerprint .plain (disk "2" "1") Sample.install) := by
  decide +kernel

theorem differ : rootTaskFingerprint .plain history.state.fs Sample.install ≠
    rootTaskFingerprint .plain (disk "2" "1") Sample.install := by
  decide +kernel

end RevertedLockfile

/-- The run on the old lockfile ends on its marker, with the new lockfile installed. -/
theorem reverted_lockfile_stale :
    ¬ ∀ (crates : Crates) (archives : Archives)
      (parse : FileSystem → Path → Option (List LockfilePackage)) (fs : FileSystem)
      (events : List InstallEvent),
      Runs.Each (InstallHistory.step crates (typeScriptPlugin crates archives parse))
        (fun history event =>
          history.FreshMarker crates (typeScriptPlugin crates archives parse) event)
        (InstallHistory.start fs (fun _ => none) fun _ => none) events := by
  intro claimed
  have each := claimed .plain Sample.noArchives RevertedLockfile.parse
    ⟨[(components Sample.lockfile, ⟨.file (utf8 "1") true, false⟩)]⟩
    (RevertedLockfile.events ++ [.run Sample.install (RevertedLockfile.installs "1")])
  have last := ((Runs.each_append _ _ _ _).mp each).2.1
  obtain ⟨newer, older, touches, same⟩ := last RevertedLockfile.cached
  have isHead := RevertedLockfile.touched
  have touches : RevertedLockfile.history.touches =
      newer ++ (rootTaskFingerprint .plain RevertedLockfile.history.state.fs
        Sample.install, true) :: older := touches
  rw [touches] at isHead
  cases newer with
  | nil => exact RevertedLockfile.differ (Option.some.inj isHead)
  | cons touch rest =>
      have first := same touch (List.mem_cons_self ..)
      exact RevertedLockfile.differ (first.symm.trans (Option.some.inj isHead))

end Rage
