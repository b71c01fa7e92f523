import Rage.InstallView
import Rage.SharedHost
import Rage.WorkspaceKeys

/-!
Two workspaces on one host.  A workspace is separated from the others when what it looks up in the
shared state is what it would find there without them.
-/

namespace Rage

/-! The newest marker. -/

theorem argmax_filter {α : Type} (time : α → Nat) (test : α → Bool) {newest : α} (items : List α)
    (isNewest : newest ∈ items.argmax time) (kept : test newest = true) :
    newest ∈ (items.filter test).argmax time := by
  induction items using List.reverseRecOn with
  | nil => simp at isNewest
  | append_singleton before item ih =>
      rw [List.filter_append]
      cases best : before.argmax time with
      | none =>
          obtain rfl := List.argmax_eq_none.mp best
          obtain rfl : item = newest := by simpa using isNewest
          simp [kept]
      | some earlier =>
          simp only [List.argmax_concat, best] at isNewest
          split at isNewest
          · rename_i later
            obtain rfl : item = newest := by simpa using isNewest
            simp only [List.filter_cons, kept, if_true, List.filter_nil, List.argmax_concat]
            cases other : (before.filter test).argmax time with
            | none => rfl
            | some candidate =>
                have within := List.mem_of_mem_filter (List.argmax_mem other)
                have bound := List.le_of_mem_argmax within best
                have sooner : time candidate < time item := by omega
                simp only [sooner, if_true]
                rfl
          · rename_i notLater
            obtain rfl : earlier = newest := by simpa using isNewest
            have found := ih best
            by_cases keptItem : test item = true
            · rw [Option.mem_def] at found
              simp only [List.filter_cons, keptItem, if_true, List.filter_nil,
                List.argmax_concat, found, notLater, if_false]
              rfl
            · simp only [List.filter_cons, keptItem, Bool.false_eq_true, if_false, List.filter_nil,
                List.append_nil]
              exact found

/-! Two hosts that are the same for one workspace: what it looks up is the same, its own site is,
and tasks and captures in flight belong where they are. -/

section Hosts

variable (crates : Crates) (archives : Archives)
  (parseLockfile : FileSystem → Path → Option (List LockfilePackage))
  (packageRefs : FileSystem → List Path → Path → List PathsetPackageRef)
  (mine : Path) (names keys : Bytes → Prop)

structure SameShared (full alone : Host) : Prop where
  cache : SameCache crates mine names full.cache alone.cache
  store : AgreeOn keys full.store alone.store
  markers : ∀ test : Bytes → Bool, (∀ fp, test fp = true ↔ OwnRoot crates mine fp) →
    alone.markers = full.markers.filter test
  markedAt : ∀ fp, OwnRoot crates mine fp → full.markedAt fp = alone.markedAt fp
  dirs : ∀ fp, OwnRoot crates mine fp → full.dirs fp = alone.dirs fp

structure Related (full alone : Host) : Prop where
  shared : SameShared crates mine names keys full alone
  site : full.sites mine = alone.sites mine
  running : ∀ workspace, ∀ running ∈ (full.sites workspace).running,
    InWorkspace mine running.2.packagePath ↔ workspace = mine
  captures : ∀ workspace, ∀ capture ∈ (full.sites workspace).captures,
    OwnRoot crates mine capture.fp ↔ workspace = mine

def NewestOwn (host : Host) (workspace : Path) : Prop :=
  ∀ fp, host.latest = some fp → (OwnRoot crates mine fp ↔ workspace = mine)

/-- The events are those of workspaces at different paths, and the texts under the weak
fingerprints are unambiguous. -/
def Placed (host : Host) (event : HostEvent) : Prop :=
  match event.action with
  | .root task _ _ => RootedTask event.workspace task
  | .start task toolPath =>
      (InWorkspace mine task.cwd ↔ event.workspace = mine) ∧
        (((host.taskStart event.workspace task toolPath).inputs host.cache).seen crates
          (host.sites event.workspace).fs).Plain
  | .finish index exec =>
      ∀ running, (host.sites event.workspace).running[index]? = some running →
        (running.2.seen crates exec.recordFs).Plain
  | _ => True

/-- What keeps the workspace apart from the others.  Nobody else publishes under a name that its
tasks look up or stores under a key that its installs look up, and captures go to the newest
marker only when that is their own. -/
def Apart (host : Host) (event : HostEvent) : Prop :=
  match event.action with
  | .root task effects _ =>
      (event.workspace = mine →
        LooksUp crates parseLockfile keys (host.install mine)
          (rootTaskFingerprint crates (host.sites mine).fs task) task.workspaceRoot ∧
        PostinstallWithin keys effects) ∧
      (event.workspace ≠ mine →
        AgreeOn keys (host.step crates (typeScriptPlugin crates archives parseLockfile)
          packageRefs event).store host.store)
  | .start task toolPath =>
      (event.workspace = mine → ∀ dep ∈ task.depPackageNames,
        names (TwoPhaseCache.pkgNameToFilename dep)) ∧
      ∀ hit, lookupPhase crates host.cache (host.taskStart event.workspace task toolPath) =
        some hit → hit.2.2 ≠ [] → NewestOwn crates mine host event.workspace
  | .finish index exec =>
      ∀ running, (host.sites event.workspace).running[index]? = some running →
        (event.workspace ≠ mine → ∀ pathset,
          exec.result running.1.task.sandboxMode = some (0, pathset) →
          ∀ fp, exec.abiFp crates running.1.task = some fp →
            ¬ names (TwoPhaseCache.pkgNameToFilename running.1.task.packageName)) ∧
        (Host.readsForCapture running.1.task exec ≠ [] →
          NewestOwn crates mine host event.workspace)
  | .capture _ =>
      event.workspace ≠ mine →
        AgreeOn keys (host.step crates (typeScriptPlugin crates archives parseLockfile)
          packageRefs event).store host.store
  | .edit _ => True

end Hosts

section Steps

variable {crates : Crates} {archives : Archives}
  {parseLockfile : FileSystem → Path → Option (List LockfilePackage)}
  {packageRefs : FileSystem → List Path → Path → List PathsetPackageRef}
  {mine : Path} {names keys : Bytes → Prop} {full alone : Host}

theorem SameShared.withSites (shared : SameShared crates mine names keys full alone)
    (sites aloneSites : Path → Site) :
    SameShared crates mine names keys { full with sites := sites }
      { alone with sites := aloneSites } :=
  ⟨shared.cache, shared.store, shared.markers, shared.markedAt, shared.dirs⟩

theorem Related.own (related : Related crates mine names keys full alone)
    {next nextAlone : Host} (shared : SameShared crates mine names keys next nextAlone)
    {site : Site} (sites : next.sites = Function.update full.sites mine site)
    (aloneSites : nextAlone.sites = Function.update alone.sites mine site)
    (running : ∀ running ∈ site.running, InWorkspace mine running.2.packagePath)
    (captures : ∀ capture ∈ site.captures, OwnRoot crates mine capture.fp) :
    Related crates mine names keys next nextAlone := by
  refine ⟨shared, ?_, ?_, ?_⟩
  · rw [sites, aloneSites, Function.update_self, Function.update_self]
  · intro workspace
    rw [sites]
    by_cases here : workspace = mine
    · rw [here, Function.update_self]
      exact fun task member => iff_of_true (running task member) rfl
    · rw [Function.update_of_ne here]
      exact related.running workspace
  · intro workspace
    rw [sites]
    by_cases here : workspace = mine
    · rw [here, Function.update_self]
      exact fun capture member => iff_of_true (captures capture member) rfl
    · rw [Function.update_of_ne here]
      exact related.captures workspace

theorem Related.foreign (related : Related crates mine names keys full alone) {next : Host}
    (shared : SameShared crates mine names keys next alone) {workspace : Path}
    (differ : workspace ≠ mine) {site : Site}
    (sites : next.sites = Function.update full.sites workspace site)
    (running : ∀ running ∈ site.running, ¬ InWorkspace mine running.2.packagePath)
    (captures : ∀ capture ∈ site.captures, ¬ OwnRoot crates mine capture.fp) :
    Related crates mine names keys next alone := by
  refine ⟨shared, ?_, ?_, ?_⟩
  · rw [sites, Function.update_of_ne differ.symm]
    exact related.site
  · intro other
    rw [sites]
    by_cases here : other = workspace
    · rw [here, Function.update_self]
      exact fun task member => iff_of_false (running task member) differ
    · rw [Function.update_of_ne here]
      exact related.running other
  · intro other
    rw [sites]
    by_cases here : other = workspace
    · rw [here, Function.update_self]
      exact fun capture member => iff_of_false (captures capture member) differ
    · rw [Function.update_of_ne here]
      exact related.captures other

theorem Related.ownRunning (related : Related crates mine names keys full alone) :
    ∀ running ∈ (full.sites mine).running, InWorkspace mine running.2.packagePath :=
  fun running member => (related.running mine running member).mpr rfl

theorem Related.ownCaptures (related : Related crates mine names keys full alone) :
    ∀ capture ∈ (full.sites mine).captures, OwnRoot crates mine capture.fp :=
  fun capture member => (related.captures mine capture member).mpr rfl

theorem Related.foreignRunning (related : Related crates mine names keys full alone)
    {workspace : Path} (differ : workspace ≠ mine) :
    ∀ running ∈ (full.sites workspace).running, ¬ InWorkspace mine running.2.packagePath :=
  fun running member within => differ ((related.running workspace running member).mp within)

theorem Related.foreignCaptures (related : Related crates mine names keys full alone)
    {workspace : Path} (differ : workspace ≠ mine) :
    ∀ capture ∈ (full.sites workspace).captures, ¬ OwnRoot crates mine capture.fp :=
  fun capture member own => differ ((related.captures workspace capture member).mp own)

open Classical in
theorem latest_same (shared : SameShared crates mine names keys full alone)
    (newest : NewestOwn crates mine full mine) : full.latest = alone.latest := by
  have isFilter := shared.markers (fun fp => decide (OwnRoot crates mine fp)) (by simp)
  cases isLatest : full.latest with
  | none =>
      have unmarked : full.markers = [] := by
        simpa [Host.latest, findLatestInstallFingerprint] using isLatest
      rw [unmarked] at isFilter
      simp [Host.latest, findLatestInstallFingerprint, isFilter]
  | some fp =>
      have own := (newest fp isLatest).mpr rfl
      obtain ⟨⟨marker, time⟩, best, rfl⟩ := Option.map_eq_some_iff.mp isLatest
      have kept := argmax_filter Prod.snd (fun marker => decide (OwnRoot crates mine marker.1)) _
        best (by simpa using own)
      have sameList : (full.markers.map fun fp => (fp, full.markedAt fp)).filter
          (fun marker => decide (OwnRoot crates mine marker.1)) =
          alone.markers.map fun fp => (fp, alone.markedAt fp) := by
        rw [isFilter, List.filter_map]
        refine List.map_congr_left fun marker member => ?_
        have isOwn : OwnRoot crates mine marker := by
          simpa using (List.mem_filter.mp member).2
        rw [shared.markedAt marker isOwn]
      rw [sameList, Option.mem_def] at kept
      simp [Host.latest, findLatestInstallFingerprint, kept]

theorem scheduleCapture_same (shared : SameShared crates mine names keys full alone) (site : Site)
    (task : Task) (reads : List Path)
    (newest : reads ≠ [] → NewestOwn crates mine full mine) :
    full.scheduleCapture site task reads = alone.scheduleCapture site task reads := by
  unfold Host.scheduleCapture
  cases reads with
  | nil => rfl
  | cons read rest => rw [latest_same shared (newest (List.cons_ne_nil read rest))]

theorem scheduleCapture_running (host : Host) (site : Site) (task : Task) (reads : List Path) :
    (host.scheduleCapture site task reads).running = site.running := by
  unfold Host.scheduleCapture
  split
  · rfl
  · split
    · rfl
    · rfl

theorem scheduleCapture_captures (host : Host) (site : Site) (task : Task) (reads : List Path)
    (workspace : Path) (newest : reads ≠ [] → NewestOwn crates mine host workspace)
    (placed : ∀ capture ∈ site.captures, (OwnRoot crates mine capture.fp ↔ workspace = mine)) :
    ∀ capture ∈ (host.scheduleCapture site task reads).captures,
      (OwnRoot crates mine capture.fp ↔ workspace = mine) := by
  unfold Host.scheduleCapture
  cases reads with
  | nil => exact placed
  | cons read rest =>
      simp only [List.isEmpty_cons, Bool.false_eq_true, if_false]
      cases isLatest : host.latest with
      | none => exact placed
      | some fp =>
          intro capture member
          rcases List.mem_append.mp member with earlier | isNew
          · exact placed capture earlier
          · rw [List.mem_singleton.mp isNew]
            exact newest (List.cons_ne_nil read rest) fp isLatest

/-! What a root run of the workspace, or of another one, does to its markers. -/

theorem markersAfter_own {test : Bytes → Bool} {fp : Bytes} (own : test fp = true)
    (outcome : RootOutcome) (markers : List Bytes) :
    (outcome.markersAfter fp markers).filter test =
      outcome.markersAfter fp (markers.filter test) := by
  have commute : (markers.filter (· ≠ fp)).filter test = (markers.filter test).filter (· ≠ fp) := by
    rw [List.filter_filter, List.filter_filter]
    exact List.filter_congr fun marker _ => Bool.and_comm _ _
  cases outcome with
  | installed => rw [RootOutcome.markersAfter, List.filter_cons, if_pos own, commute,
      RootOutcome.markersAfter]
  | failed exitCode => exact commute
  | spawnError afterRestore => exact commute
  | cached => rfl
  | restoredLockfile disk => rfl
  | restoredFiles disk => rfl

theorem markersAfter_foreign {test : Bytes → Bool} {fp : Bytes} (foreign : test fp = false)
    (outcome : RootOutcome) (markers : List Bytes) :
    (outcome.markersAfter fp markers).filter test = markers.filter test := by
  have dropped : (markers.filter (· ≠ fp)).filter test = markers.filter test := by
    rw [List.filter_filter]
    refine List.filter_congr fun marker _ => ?_
    by_cases here : marker = fp
    · rw [here, foreign, Bool.false_and]
    · simp [here]
  cases outcome with
  | installed => rw [RootOutcome.markersAfter, List.filter_cons, foreign, dropped]; simp
  | failed exitCode => exact dropped
  | spawnError afterRestore => exact dropped
  | cached => rfl
  | restoredLockfile disk => rfl
  | restoredFiles disk => rfl

open Classical in
theorem mem_markers_own (shared : SameShared crates mine names keys full alone) {fp : Bytes}
    (own : OwnRoot crates mine fp) : fp ∈ alone.markers ↔ fp ∈ full.markers := by
  rw [shared.markers (fun fp => decide (OwnRoot crates mine fp)) (by simp)]
  simp [own]

theorem runRoot_same (archives : Archives)
    (related : Related crates mine names keys full alone) {task : Task}
    {effects : RootEffects} (rooted : RootedTask mine task)
    (looks : LooksUp crates parseLockfile keys (full.install mine)
      (rootTaskFingerprint crates (full.sites mine).fs task) task.workspaceRoot)
    (within : PostinstallWithin keys effects) :
    (full.runRoot crates (typeScriptPlugin crates archives parseLockfile) mine task effects).1 =
      (alone.runRoot crates (typeScriptPlugin crates archives parseLockfile) mine task effects).1 ∧
    SameView keys (rootTaskFingerprint crates (full.sites mine).fs task)
      (full.runRoot crates (typeScriptPlugin crates archives parseLockfile) mine task effects).2
      (alone.runRoot crates (typeScriptPlugin crates archives parseLockfile) mine task
        effects).2 := by
  have own : OwnRoot crates mine (rootTaskFingerprint crates (full.sites mine).fs task) :=
    ⟨_, task, rooted, rfl⟩
  have view : SameView keys (rootTaskFingerprint crates (full.install mine).fs task)
      (alone.install mine) (full.install mine) := by
    refine ⟨congrArg Site.fs related.site.symm, ?_, (related.shared.dirs _ own).symm⟩
    exact fun key looked => (related.shared.store key looked).symm
  have marked : rootTaskFingerprint crates (full.install mine).fs task ∈ alone.markers ↔
      rootTaskFingerprint crates (full.install mine).fs task ∈ full.markers :=
    mem_markers_own related.shared own
  obtain ⟨outcome, after⟩ := runRootTask_same view marked looks within
  exact ⟨outcome.symm, after.symm⟩

theorem afterRoot_own (related : Related crates mine names keys full alone) {task : Task}
    {effects : RootEffects} (rooted : RootedTask mine task)
    (looks : LooksUp crates parseLockfile keys (full.install mine)
      (rootTaskFingerprint crates (full.sites mine).fs task) task.workspaceRoot)
    (within : PostinstallWithin keys effects) (now : Nat) :
    Related crates mine names keys
      (full.afterRoot crates (typeScriptPlugin crates archives parseLockfile) mine task effects now)
      (alone.afterRoot crates (typeScriptPlugin crates archives parseLockfile) mine task effects
        now) := by
  obtain ⟨outcome, view⟩ := runRoot_same archives related rooted looks within
  have own : OwnRoot crates mine (rootTaskFingerprint crates (full.sites mine).fs task) :=
    ⟨_, task, rooted, rfl⟩
  have sameFp : rootTaskFingerprint crates (full.sites mine).fs task =
      rootTaskFingerprint crates (alone.sites mine).fs task := by rw [related.site]
  have site : { alone.sites mine with
        fs := (alone.runRoot crates (typeScriptPlugin crates archives parseLockfile) mine task
          effects).2.fs } =
      { full.sites mine with
        fs := (full.runRoot crates (typeScriptPlugin crates archives parseLockfile) mine task
          effects).2.fs } := by
    rw [view.fs, related.site]
  refine related.own ⟨related.shared.cache, view.store, ?_, ?_, ?_⟩ rfl ?_ related.ownRunning
    related.ownCaptures
  · intro test isOwn
    have isFp := (isOwn _).mpr own
    simp only [Host.afterRoot, Host.runRoot] at outcome ⊢
    rw [runRootTask_markersAfter, runRootTask_markersAfter, ← outcome]
    simp only [Host.install, ← sameFp, markersAfter_own isFp, related.shared.markers test isOwn]
  · intro fp ownFp
    have sameTimes := related.shared.markedAt fp ownFp
    simp only [Host.afterRoot, ← outcome, ← sameFp]
    generalize (full.runRoot crates (typeScriptPlugin crates archives parseLockfile) mine task
      effects).1 = ending
    cases ending with
    | installed =>
        by_cases here : fp = rootTaskFingerprint crates (full.sites mine).fs task
        · simp only [here, Function.update_self]
        · simp only [Function.update_of_ne here, sameTimes]
    | _ => exact sameTimes
  · intro fp ownFp
    by_cases here : fp = rootTaskFingerprint crates (full.sites mine).fs task
    · rw [here]
      exact view.dir
    · have off := runRootTask_dirs crates (typeScriptPlugin crates archives parseLockfile)
        (full.install mine) task effects here
      have aloneOff := runRootTask_dirs crates (typeScriptPlugin crates archives parseLockfile)
        (alone.install mine) task effects (sameFp ▸ here)
      exact off.trans ((related.shared.dirs fp ownFp).trans aloneOff.symm)
  · exact congrArg (Function.update alone.sites mine) site

theorem afterRoot_foreign (ideal : crates.Ideal)
    (related : Related crates mine names keys full alone) {workspace : Path} {task : Task}
    {effects : RootEffects} (rooted : RootedTask workspace task) (differ : workspace ≠ mine)
    (now : Nat)
    (stored : AgreeOn keys (full.afterRoot crates
      (typeScriptPlugin crates archives parseLockfile) workspace task effects now).store full.store) :
    Related crates mine names keys
      (full.afterRoot crates (typeScriptPlugin crates archives parseLockfile) workspace task effects
        now) alone := by
  have foreign : ¬ OwnRoot crates mine
      (rootTaskFingerprint crates (full.sites workspace).fs task) :=
    fun own => differ ((ownRoot_iff ideal _ rooted).mp own)
  have other {fp : Bytes} (own : OwnRoot crates mine fp) :
      fp ≠ rootTaskFingerprint crates (full.sites workspace).fs task := by
    rintro rfl
    exact foreign own
  refine related.foreign ⟨related.shared.cache, ?_, ?_, ?_, ?_⟩ differ rfl
    (related.foreignRunning differ) (related.foreignCaptures differ)
  · exact fun key looked => (stored key looked).trans (related.shared.store key looked)
  · intro test isOwn
    have notFp : test (rootTaskFingerprint crates (full.sites workspace).fs task) = false := by
      rw [← Bool.not_eq_true, isOwn]
      exact foreign
    simp only [Host.afterRoot, Host.runRoot]
    rw [runRootTask_markersAfter]
    simp only [Host.install]
    rw [markersAfter_foreign notFp, related.shared.markers test isOwn]
  · intro fp own
    have sameTimes := related.shared.markedAt fp own
    simp only [Host.afterRoot]
    generalize (full.runRoot crates (typeScriptPlugin crates archives parseLockfile) workspace task
      effects).1 = ending
    cases ending with
    | installed => simp only [Function.update_of_ne (other own), sameTimes]
    | _ => exact sameTimes
  · intro fp own
    have off := runRootTask_dirs crates (typeScriptPlugin crates archives parseLockfile)
      (full.install workspace) task effects (other own)
    exact off.trans (related.shared.dirs fp own)

theorem startTask_own (ideal : crates.Ideal)
    (related : Related crates mine names keys full alone) {task : Task} {toolPath : Path}
    (within : InWorkspace mine task.cwd)
    (plain : (((full.taskStart mine task toolPath).inputs full.cache).seen crates
      (full.sites mine).fs).Plain)
    (named : ∀ dep ∈ task.depPackageNames, names (TwoPhaseCache.pkgNameToFilename dep))
    (newest : ∀ hit, lookupPhase crates full.cache (full.taskStart mine task toolPath) =
      some hit → hit.2.2 ≠ [] → NewestOwn crates mine full mine) :
    (full.taskStart mine task toolPath).inputs full.cache =
        (alone.taskStart mine task toolPath).inputs alone.cache ∧
      lookupPhase crates full.cache (full.taskStart mine task toolPath) =
        lookupPhase crates alone.cache (alone.taskStart mine task toolPath) ∧
      Related crates mine names keys (full.startTask crates mine task toolPath)
        (alone.startTask crates mine task toolPath) := by
  have sameStart : full.taskStart mine task toolPath = alone.taskStart mine task toolPath := by
    simp only [Host.taskStart, related.site]
  have inputs : (full.taskStart mine task toolPath).inputs full.cache =
      (alone.taskStart mine task toolPath).inputs alone.cache := by
    rw [← sameStart]
    simp only [TaskStart.inputs, Host.taskStart, depAbiFps_same related.shared.cache named]
  have lookup : lookupPhase crates full.cache (full.taskStart mine task toolPath) =
      lookupPhase crates alone.cache (alone.taskStart mine task toolPath) := by
    rw [lookupPhase, lookupPhase, ← inputs, ← sameStart]
    exact lookup_same ideal related.shared.cache plain within
  refine ⟨inputs, lookup, ?_⟩
  simp only [Host.startTask, ← lookup]
  cases isHit : lookupPhase crates full.cache (full.taskStart mine task toolPath) with
  | none =>
      refine related.own (related.shared.withSites _ _) rfl ?_ ?_ related.ownCaptures
      · rw [inputs, sameStart, related.site]
        rfl
      · intro running member
        rcases List.mem_append.mp member with earlier | isNew
        · exact related.ownRunning running earlier
        · rw [List.mem_singleton.mp isNew]
          exact within
  | some hit =>
      obtain ⟨strongFp, entry, reads⟩ := hit
      have newest := newest _ isHit
      have site := scheduleCapture_same related.shared (full.sites mine) task reads newest
      refine related.own (related.shared.withSites _ _) rfl ?_ ?_ ?_
      · rw [site, related.site]
        rfl
      · rw [scheduleCapture_running]
        exact related.ownRunning
      · intro capture member
        exact (scheduleCapture_captures full _ task reads mine newest (related.captures mine)
          capture member).mpr rfl

theorem startTask_foreign (related : Related crates mine names keys full alone)
    {workspace : Path} (differ : workspace ≠ mine) {task : Task} {toolPath : Path}
    (outside : ¬ InWorkspace mine task.cwd)
    (newest : ∀ hit, lookupPhase crates full.cache (full.taskStart workspace task toolPath) =
      some hit → hit.2.2 ≠ [] → NewestOwn crates mine full workspace) :
    Related crates mine names keys (full.startTask crates workspace task toolPath) alone := by
  simp only [Host.startTask]
  cases isHit : lookupPhase crates full.cache (full.taskStart workspace task toolPath) with
  | none =>
      refine related.foreign (related.shared.withSites _ _) differ rfl ?_
        (related.foreignCaptures differ)
      intro running member
      rcases List.mem_append.mp member with earlier | isNew
      · exact related.foreignRunning differ running earlier
      · rw [List.mem_singleton.mp isNew]
        exact outside
  | some hit =>
      obtain ⟨strongFp, entry, reads⟩ := hit
      refine related.foreign (related.shared.withSites _ _) differ rfl ?_ ?_
      · rw [scheduleCapture_running]
        exact related.foreignRunning differ
      · intro capture member own
        exact differ ((scheduleCapture_captures full _ task reads workspace (newest _ isHit)
          (related.captures workspace) capture member).mp own)

theorem finishTask_own (ideal : crates.Ideal)
    (related : Related crates mine names keys full alone) {index : Nat} {exec : Execution}
    (plain : ∀ running, (full.sites mine).running[index]? = some running →
      (running.2.seen crates exec.recordFs).Plain)
    (newest : ∀ running, (full.sites mine).running[index]? = some running →
      Host.readsForCapture running.1.task exec ≠ [] → NewestOwn crates mine full mine) :
    Related crates mine names keys (full.finishTask crates mine index exec)
      (alone.finishTask crates mine index exec) := by
  simp only [Host.finishTask, ← related.site]
  cases isRunning : (full.sites mine).running[index]? with
  | none => exact related
  | some running =>
      obtain ⟨start, inputs⟩ := running
      have within := related.ownRunning _ (List.mem_of_getElem? isRunning)
      have cache := recordPhase_same ideal related.shared.cache start.task (plain _ isRunning)
        within
      have site := scheduleCapture_same related.shared
        { full.sites mine with
          fs := exec.recordFs, running := (full.sites mine).running.eraseIdx index }
        start.task (Host.readsForCapture start.task exec) (newest _ isRunning)
      have captures := scheduleCapture_captures full
        { full.sites mine with
          fs := exec.recordFs, running := (full.sites mine).running.eraseIdx index }
        start.task _ mine (newest _ isRunning) (related.captures mine)
      refine related.own ?_ rfl ?_ ?_ ?_
      · exact ⟨cache, related.shared.store, related.shared.markers, related.shared.markedAt,
          related.shared.dirs⟩
      · exact congrArg (Function.update alone.sites mine) site.symm
      · intro running member
        exact related.ownRunning running
          (List.mem_of_mem_eraseIdx (scheduleCapture_running full _ _ _ ▸ member))
      · intro capture member
        exact (captures capture member).mpr rfl

theorem finishTask_foreign (ideal : crates.Ideal)
    (related : Related crates mine names keys full alone) {workspace : Path}
    (differ : workspace ≠ mine) {index : Nat} {exec : Execution}
    (plain : ∀ running, (full.sites workspace).running[index]? = some running →
      (running.2.seen crates exec.recordFs).Plain)
    (apart : ∀ running, (full.sites workspace).running[index]? = some running →
      (∀ pathset, exec.result running.1.task.sandboxMode = some (0, pathset) →
        ∀ fp, exec.abiFp crates running.1.task = some fp →
          ¬ names (TwoPhaseCache.pkgNameToFilename running.1.task.packageName)) ∧
      (Host.readsForCapture running.1.task exec ≠ [] → NewestOwn crates mine full workspace)) :
    Related crates mine names keys (full.finishTask crates workspace index exec) alone := by
  simp only [Host.finishTask]
  cases isRunning : (full.sites workspace).running[index]? with
  | none => exact related
  | some running =>
      obtain ⟨start, inputs⟩ := running
      obtain ⟨unnamed, newest⟩ := apart _ isRunning
      have outside := related.foreignRunning differ _ (List.mem_of_getElem? isRunning)
      have cache := recordPhase_foreign ideal related.shared.cache (plain _ isRunning) outside
        unnamed
      have captures := scheduleCapture_captures full
        { full.sites workspace with
          fs := exec.recordFs, running := (full.sites workspace).running.eraseIdx index }
        start.task _ workspace newest (related.captures workspace)
      refine related.foreign ?_ differ rfl ?_ ?_
      · exact ⟨cache, related.shared.store, related.shared.markers, related.shared.markedAt,
          related.shared.dirs⟩
      · intro running member
        exact related.foreignRunning differ running
          (List.mem_of_mem_eraseIdx (scheduleCapture_running full _ _ _ ▸ member))
      · intro capture member own
        exact differ ((captures capture member).mp own)

theorem runCapture_own (related : Related crates mine names keys full alone) (index : Nat) :
    Related crates mine names keys (full.runCapture crates packageRefs mine index)
      (alone.runCapture crates packageRefs mine index) := by
  simp only [Host.runCapture, ← related.site]
  cases isCapture : (full.sites mine).captures[index]? with
  | none => exact related
  | some capture =>
      have own := related.ownCaptures capture (List.mem_of_getElem? isCapture)
      simp only [← related.shared.dirs _ own]
      generalize packageRefs (full.sites mine).fs capture.reads capture.workspaceRoot = refs
      obtain ⟨sameDir, agree⟩ := captureNow_agree crates (full.sites mine).fs refs
        (full.dirs capture.fp) related.shared.store
      refine related.own ?_ rfl rfl related.ownRunning ?_
      · refine ⟨related.shared.cache, agree, related.shared.markers, related.shared.markedAt, ?_⟩
        intro fp ownFp
        by_cases here : fp = capture.fp
        · simp only [Host.setSite, here, Function.update_self, sameDir]
        · simp only [Host.setSite, Function.update_of_ne here]
          exact related.shared.dirs fp ownFp
      · intro other member
        exact related.ownCaptures other (List.mem_of_mem_eraseIdx member)

theorem runCapture_foreign (related : Related crates mine names keys full alone)
    {workspace : Path} (differ : workspace ≠ mine) {index : Nat}
    (stored : AgreeOn keys (full.runCapture crates packageRefs workspace index).store full.store) :
    Related crates mine names keys (full.runCapture crates packageRefs workspace index) alone := by
  simp only [Host.runCapture] at stored ⊢
  cases isCapture : (full.sites workspace).captures[index]? with
  | none => exact related
  | some capture =>
      simp only [isCapture] at stored
      have foreign := related.foreignCaptures differ capture (List.mem_of_getElem? isCapture)
      refine related.foreign ?_ differ rfl (related.foreignRunning differ) ?_
      · refine ⟨related.shared.cache, ?_, related.shared.markers, related.shared.markedAt, ?_⟩
        · exact fun key looked => (stored key looked).trans (related.shared.store key looked)
        · intro fp ownFp
          have other : fp ≠ capture.fp := by
            rintro rfl
            exact foreign ownFp
          simp only [Host.setSite, Function.update_of_ne other]
          exact related.shared.dirs fp ownFp
      · intro other member
        exact related.foreignCaptures differ other (List.mem_of_mem_eraseIdx member)

theorem step_own (ideal : crates.Ideal) {event : HostEvent} (isMine : event.workspace = mine)
    (related : Related crates mine names keys full alone)
    (placed : Placed crates mine full event)
    (apart : Apart crates archives parseLockfile packageRefs mine names keys full event) :
    full.decision crates (typeScriptPlugin crates archives parseLockfile) event =
        alone.decision crates (typeScriptPlugin crates archives parseLockfile) event ∧
      Related crates mine names keys
        (full.step crates (typeScriptPlugin crates archives parseLockfile) packageRefs event)
        (alone.step crates (typeScriptPlugin crates archives parseLockfile) packageRefs event) := by
  obtain ⟨workspace, action⟩ := event
  obtain rfl : workspace = mine := isMine
  cases action with
  | edit fs =>
      refine ⟨rfl, related.own (related.shared.withSites _ _) rfl ?_ related.ownRunning
        related.ownCaptures⟩
      rw [related.site]
      rfl
  | root task effects now =>
      obtain ⟨looks, within⟩ := apart.1 rfl
      have same := runRoot_same archives related placed looks within
      exact ⟨congrArg Decision.install same.1, afterRoot_own related placed looks within now⟩
  | start task toolPath =>
      obtain ⟨inputs, lookup, next⟩ := startTask_own ideal related (placed.1.mpr rfl) placed.2
        (apart.1 rfl) apart.2
      refine ⟨?_, next⟩
      simp only [Host.decision, lookup, inputs]
      rw [Host.taskStart, related.site]
      rfl
  | finish index exec =>
      exact ⟨rfl, finishTask_own ideal related placed fun running isRunning =>
        (apart running isRunning).2⟩
  | capture index => exact ⟨rfl, runCapture_own related index⟩

theorem step_foreign (ideal : crates.Ideal) {event : HostEvent} (differ : event.workspace ≠ mine)
    (related : Related crates mine names keys full alone)
    (placed : Placed crates mine full event)
    (apart : Apart crates archives parseLockfile packageRefs mine names keys full event) :
    Related crates mine names keys
      (full.step crates (typeScriptPlugin crates archives parseLockfile) packageRefs event)
      alone := by
  obtain ⟨workspace, action⟩ := event
  cases action with
  | edit fs =>
      exact related.foreign (related.shared.withSites _ _) differ rfl
        (related.foreignRunning differ) (related.foreignCaptures differ)
  | root task effects now => exact afterRoot_foreign ideal related placed differ now (apart.2 differ)
  | start task toolPath =>
      exact startTask_foreign related differ (fun within => differ (placed.1.mp within)) apart.2
  | finish index exec =>
      refine finishTask_foreign ideal related differ placed fun running isRunning => ?_
      exact ⟨(apart running isRunning).1 differ, (apart running isRunning).2⟩
  | capture index => exact runCapture_foreign related differ (apart differ)

theorem empty_related (crates : Crates) (mine : Path) (names keys : Bytes → Prop)
    (disks : Path → FileSystem) : Related crates mine names keys (.empty disks) (.empty disks) where
  shared :=
    { cache := ⟨fun _ _ => rfl, fun _ _ => rfl, fun _ _ => rfl⟩
      store := fun _ _ => rfl
      markers := fun _ _ => rfl
      markedAt := fun _ _ => rfl
      dirs := fun _ _ => rfl }
  site := rfl
  running := by simp [Host.empty]
  captures := by simp [Host.empty]

end Steps

def ofWorkspace (mine : Path) (event : HostEvent) : Bool := event.workspace == mine

namespace SharedName

def mine : Path := utf8 "/ws"

def other : Path := utf8 "/other"

def app : Task := { Sample.task .strict [] with cwd := utf8 "/ws/web", depPackageNames := [utf8 "lib"] }

def library (name : String) : Task :=
  { Sample.task .strict [] with
    packageName := utf8 name, cwd := utf8 "/other/lib", workspaceRoot := other
    outputGlobs := [utf8 "dist/**"] }

def files : FileSystem :=
  ⟨[(components (utf8 "/other/lib/dist/a.d.ts"), ⟨.file (utf8 "1") true, false⟩)]⟩

def parse (_ : FileSystem) (_ : Path) : Option (List LockfilePackage) := none

def refs (_ : FileSystem) (_ : List Path) (_ : Path) : List PathsetPackageRef := []

def plugin : EcosystemPlugin := typeScriptPlugin .plain Sample.noArchives parse

def effects : RootEffects where
  install := some (0, Sample.files "1")
  pmCache := fun _ _ => none
  walked := []
  binLinks := id
  postinstall := id

def exec (fs : FileSystem) (reads : List Path) : Execution := .quiet fs (some ⟨0, reads, []⟩) none

def build (name : String) : List HostEvent :=
  [⟨other, .start (library name) (utf8 "sh")⟩, ⟨other, .finish 0 (exec files [])⟩]

def host (events : List HostEvent) : Host :=
  Runs.final (Host.step .plain plugin refs) (.empty fun _ => Sample.files "1") events

def appStart : HostEvent := ⟨mine, .start app (utf8 "sh")⟩

def weakFps (decisions : List Decision) : List Bytes :=
  decisions.map fun
    | .task weakFp _ => weakFp
    | _ => []

theorem placedBuild (name : String)
    (plain : (((host []).taskStart other (library name) (utf8 "sh")).inputs .empty |>.seen .plain
      (Sample.files "1")).Plain)
    (plainRecord : ∀ running ∈ ((host [⟨other, .start (library name) (utf8 "sh")⟩]).sites
      other).running[0]?, (running.2.seen .plain files).Plain) :
    Runs.Each (Host.step .plain plugin refs) (Placed .plain mine)
      (.empty fun _ => Sample.files "1") (build name) :=
  have outside : InWorkspace mine (utf8 "/other/lib") ↔ other = mine := by decide
  ⟨⟨outside, plain⟩, plainRecord, trivial⟩

def rerun : List HostEvent :=
  [⟨mine, .root Sample.install effects 1⟩] ++ build "util" ++
    [appStart, ⟨mine, .finish 0 (exec (Sample.files "1") [Sample.source])⟩, appStart]

theorem rooted : RootedTask mine Sample.install where
  command := by decide
  lockfile := ⟨utf8 "pnpm-lock.yaml", [], by decide, by decide, by decide, by decide⟩

theorem placedRerun : Runs.Each (Host.step .plain plugin refs) (Placed .plain mine)
    (.empty fun _ => Sample.files "1") rerun := by
  have recorded : ∀ running ∈ ((host (rerun.take 4)).sites mine).running[0]?,
      (running.2.seen .plain (Sample.files "1")).Plain := by
    decide +kernel
  have recordedUtil : ∀ running ∈ ((host (rerun.take 2)).sites other).running[0]?,
      (running.2.seen .plain files).Plain := by
    decide +kernel
  refine ⟨rooted, ⟨by decide, ?_⟩, recordedUtil, ⟨by decide, ?_⟩, recorded, ⟨by decide, ?_⟩, trivial⟩
  · decide +kernel
  · decide +kernel
  · decide +kernel

theorem newest {state : Host}
    (latest : state.latest = some (rootTaskFingerprint .plain (Sample.files "1") Sample.install)) :
    NewestOwn .plain mine state mine := by
  intro fp isLatest
  rw [latest] at isLatest
  rw [← Option.some.inj isLatest]
  exact ownRoot_iff Crates.plain_ideal _ rooted

theorem apartRerun : Runs.Each (Host.step .plain plugin refs)
    (Apart .plain Sample.noArchives parse refs mine (fun filename => filename = utf8 "lib")
      fun _ => True) (.empty fun _ => Sample.files "1") rerun := by
  have missed : lookupPhase .plain (host (rerun.take 1)).cache
      ((host (rerun.take 1)).taskStart other (library "util") (utf8 "sh")) = none := by
    decide +kernel
  have unnamed : ∀ running ∈ ((host (rerun.take 2)).sites other).running[0]?,
      TwoPhaseCache.pkgNameToFilename running.1.task.packageName ≠ utf8 "lib" ∧
        Host.readsForCapture running.1.task (exec files []) = [] := by
    decide +kernel
  have latest : (host (rerun.take 4)).latest =
      some (rootTaskFingerprint .plain (Sample.files "1") Sample.install) := by
    decide +kernel
  have later : (host (rerun.take 5)).latest =
      some (rootTaskFingerprint .plain (Sample.files "1") Sample.install) := by
    decide +kernel
  have atStart : (host (rerun.take 3)).latest =
      some (rootTaskFingerprint .plain (Sample.files "1") Sample.install) := by
    decide +kernel
  have distinct : other ≠ mine := by decide
  have named : ∀ dep ∈ app.depPackageNames,
      TwoPhaseCache.pkgNameToFilename dep = utf8 "lib" := by
    decide
  refine ⟨⟨fun _ => ⟨⟨?_, ?_⟩, ?_⟩, fun foreign => absurd rfl foreign⟩,
    ⟨fun isMine => absurd isMine distinct, ?_⟩, ?_, ⟨fun _ => named, fun _ _ _ => newest atStart⟩,
    ?_, ⟨fun _ => named, fun _ _ _ => newest later⟩, trivial⟩
  · exact fun _ _ _ _ => trivial
  · exact fun _ _ _ _ _ _ _ _ => trivial
  · exact fun fs first second agree => ⟨rfl, agree⟩
  · intro hit isHit
    exact absurd (missed.symm.trans isHit) (by simp)
  · intro running isRunning
    obtain ⟨differs, noReads⟩ := unnamed running isRunning
    exact ⟨fun _ _ _ _ _ => differs, fun reads => absurd noReads reads⟩
  · intro running isRunning
    exact ⟨fun foreign => absurd rfl foreign, fun _ => newest latest⟩

theorem differ : weakFps (Runs.observed (Host.step .plain plugin refs) (Host.decision .plain plugin)
      (ofWorkspace mine) (.empty fun _ => Sample.files "1") (build "lib" ++ [appStart])) ≠
    weakFps (Runs.observed (Host.step .plain plugin refs) (Host.decision .plain plugin)
      (ofWorkspace mine) (.empty fun _ => Sample.files "1") [appStart]) := by
  decide +kernel

end SharedName

end Rage
