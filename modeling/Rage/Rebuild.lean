import Rage.AbiCutoff
import Rage.RecordedHits

/-!
A run after which nothing changes.  The next run of the same tasks executes none of them: what the
first run has found or recorded is found again, whichever tasks came in between.
-/

namespace Rage

/-- The file in which the ABI fingerprint of a package is kept. -/
abbrev abiFile (name : Bytes) : Bytes := TwoPhaseCache.pkgNameToFilename name

namespace TwoPhaseCache

variable {crates : Crates}

/-- What a cache has, another one has as well. -/
structure Below (cache larger : TwoPhaseCache) : Prop where
  lists : ∀ weakFp, ∀ pathset ∈ cache.list weakFp, pathset ∈ larger.list weakFp
  entries : ∀ strongFp, (cache.entryFiles strongFp).isSome = true →
    (larger.entryFiles strongFp).isSome = true

theorem Below.refl (cache : TwoPhaseCache) : cache.Below cache where
  lists := fun _ _ listed => listed
  entries := fun _ present => present

theorem lookup_isSome_iff {cache : TwoPhaseCache} {fs : FileSystem} {inputs : WeakFpInputs} :
    (cache.lookupWithPathsetReads crates fs inputs).isSome = true ↔
      ∃ stored ∈ cache.list (computeWeakFingerprint crates fs inputs),
        (cache.entryFiles (computeStrongFingerprint crates fs
          (computeWeakFingerprint crates fs inputs) stored.reads)).isSome = true := by
  simp [lookupWithPathsetReads, List.findSome?_isSome_iff]

theorem Below.lookup {cache larger : TwoPhaseCache} (below : cache.Below larger) {fs : FileSystem}
    {inputs : WeakFpInputs} (hit : (cache.lookupWithPathsetReads crates fs inputs).isSome = true) :
    (larger.lookupWithPathsetReads crates fs inputs).isSome = true := by
  obtain ⟨stored, listed, present⟩ := lookup_isSome_iff.mp hit
  exact lookup_isSome_iff.mpr ⟨stored, below.lists _ stored listed, below.entries _ present⟩

theorem append_below {cache appended : TwoPhaseCache} {weakFp : Bytes} {pathset : StoredPathset}
    (done : cache.append weakFp pathset = some appended) : cache.Below appended ∧
      ∃ stored ∈ appended.list weakFp, stored = pathset ∨
        stored ∈ cache.list weakFp ∧ stored.eq pathset = true := by
  simp only [append] at done
  split at done
  · rename_i present
    obtain rfl := Option.some.inj done
    obtain ⟨stored, listed, same⟩ := List.any_eq_true.mp present
    exact ⟨.refl cache, stored, listed, Or.inr ⟨listed, same⟩⟩
  · split at done
    · obtain rfl := Option.some.inj done
      refine ⟨⟨fun fp ps listed => ?_, fun _ present => present⟩, pathset, ?_, Or.inl rfl⟩
      · by_cases same : fp = weakFp
        · subst same
          simpa [list] using Or.inl listed
        · simpa [list, same] using listed
      · simp [list]
    · simp at done

theorem record_below {cache written : TwoPhaseCache} {call : RecordCall} {strongFp : Bytes}
    (done : cache.record crates call.fs call.inputs call.pathset call.entryTemplate =
      some (strongFp, written)) : cache.Below written ∧
      ∃ stored ∈ written.list (call.weakFp crates), stored = call.pathset ∨
        stored ∈ cache.list (call.weakFp crates) ∧ stored.eq call.pathset = true := by
  simp only [record] at done
  split at done
  · simp at done
  · rename_i appended appendDone
    simp only [writeEntry] at done
    split at done
    · simp only [Option.map_some, Option.some.injEq, Prod.mk.injEq] at done
      obtain ⟨rfl, rfl⟩ := done
      obtain ⟨below, stored, listed, isStored⟩ := append_below appendDone
      refine ⟨⟨below.lists, fun fp present => ?_⟩, stored, listed, isStored⟩
      simp only [Function.update_apply]
      split
      · rfl
      · exact below.entries fp present
    · simp at done

/-- Once a call has been recorded, a lookup hits on every disk that shows what the call has seen. -/
theorem record_found {cache written : TwoPhaseCache} {call : RecordCall} {strongFp : Bytes}
    (done : cache.record crates call.fs call.inputs call.pathset call.entryTemplate =
      some (strongFp, written))
    (spelled : ∀ stored ∈ cache.list (call.weakFp crates), stored.eq call.pathset = true →
      stored.reads = call.pathset.reads) {now : FileSystem} (unchanged : call.Unchanged crates now) :
    (written.lookupWithPathsetReads crates now call.inputs).isSome = true := by
  obtain ⟨below, stored, listed, isStored⟩ := record_below done
  obtain ⟨isKey, entries, -, -⟩ := record_cases done
  have reads : stored.reads = call.pathset.reads := by
    rcases isStored with rfl | ⟨old, same⟩
    · rfl
    · exact spelled stored old same
  have key : computeStrongFingerprint crates now (call.weakFp crates) call.pathset.reads =
      strongFp := by
    have sameText := unchanged.strongText
    unfold strongText at sameText
    rw [isKey, RecordCall.strongFp, computeStrongFingerprint, computeStrongFingerprint, sameText]
  refine lookup_isSome_iff.mpr ⟨stored, by rw [unchanged.weakFp]; exact listed, ?_⟩
  rw [unchanged.weakFp, reads, key, entries, Function.update_self]
  rfl

end TwoPhaseCache

/-- The ABI fingerprints of the dependencies are the same in both caches. -/
theorem inputs_congr {cache other : TwoPhaseCache} (start : TaskStart)
    (same : ∀ dep ∈ start.task.depPackageNames,
      other.pkgAbiFiles (abiFile dep) = cache.pkgAbiFiles (abiFile dep)) :
    start.inputs other = start.inputs cache := by
  have fingerprints : depAbiFps other start.task = depAbiFps cache start.task := by
    unfold depAbiFps
    apply List.filterMap_congr
    intro dep member
    rw [TwoPhaseCache.getPkgAbiFp, TwoPhaseCache.getPkgAbiFp, same dep member]
  rw [TaskStart.inputs, TaskStart.inputs, fingerprints]

namespace Session

section

variable (crates : Crates)

/-- The start of a task on another disk. -/
def on (start : TaskStart) (fs : FileSystem) : TaskStart := { start with fs := fs }

/-- The task hits when it is started on this disk. -/
def Settled (session : Session) (fs : FileSystem) (start : TaskStart) : Prop :=
  (lookupPhase crates session.cache (on start fs)).isSome = true

/-- A step of a run after which nothing changes: a task that hits finds on the disk what will be
there in the end, and one that is executed succeeds, is recorded, and leaves what it has read as it
will be in the end.  A pathset that was stored before is spelled as that of the task. -/
def Quiet (fs : FileSystem) (session : Session) : SessionStep → Prop
  | .newRun => False
  | .start start => ∀ strongFp entry reads,
      lookupPhase crates session.cache start = some (strongFp, entry, reads) →
        RecordCall.Unchanged crates ⟨start.inputs session.cache, start.fs, ⟨reads, []⟩, entry⟩ fs
  | .finish index exec => ∀ start inputs, session.running[index]? = some (start, inputs) →
      ∃ strongFp pathset,
        (recordPhase crates session.cache start.task inputs exec).1 = .built (some strongFp) ∧
        exec.result start.task.sandboxMode = some (0, pathset) ∧
        (exec.call crates start.task inputs pathset).Unchanged crates fs ∧
        ∀ stored ∈ session.cache.list ((exec.call crates start.task inputs pathset).weakFp crates),
          stored.eq pathset = true → stored.reads = pathset.reads

def starts (steps : List SessionStep) : List TaskStart :=
  steps.filterMap fun
    | .start start => some start
    | _ => none

/-- A task ends before those start that depend on its package, or on one that shares the file of its
ABI fingerprint. -/
def DependenciesFirst (session : Session) (steps : List SessionStep) : Prop :=
  ∀ before index exec after, steps = before ++ .finish index exec :: after →
    ∀ ended inputs, (Runs.final (step crates) session before).running[index]? =
        some (ended, inputs) →
      ∀ start ∈ starts before, ∀ dep ∈ start.task.depPackageNames,
        abiFile dep ≠ abiFile ended.task.packageName

end

variable {crates : Crates}

theorem settled_of_below {session later : Session} {fs : FileSystem} {start : TaskStart}
    (settled : session.Settled crates fs start) (below : session.cache.Below later.cache)
    (same : ∀ dep ∈ start.task.depPackageNames,
      later.cache.pkgAbiFiles (abiFile dep) = session.cache.pkgAbiFiles (abiFile dep)) :
    later.Settled crates fs start := by
  unfold Settled lookupPhase at settled ⊢
  rw [inputs_congr (on start fs) same]
  exact below.lookup settled

theorem settled_of_hit {session : Session} {fs : FileSystem} {start : TaskStart} {strongFp : Bytes}
    {entry : CacheEntry} {reads : List Path}
    (hit : lookupPhase crates session.cache start = some (strongFp, entry, reads))
    (unchanged : RecordCall.Unchanged crates
      ⟨start.inputs session.cache, start.fs, ⟨reads, []⟩, entry⟩ fs) :
    session.Settled crates fs start := by
  obtain ⟨stored, listed, found⟩ := List.exists_of_findSome?_eq_some hit
  obtain ⟨other, isEntry, same⟩ := Option.map_eq_some_iff.mp found
  simp only [Prod.mk.injEq] at same
  obtain ⟨-, -, rfl⟩ := same
  have weak := unchanged.weakFp
  have text := unchanged.strongText
  simp only [RecordCall.weakFp] at weak
  simp only [strongText] at text
  refine TwoPhaseCache.lookup_isSome_iff.mpr ⟨stored, ?_, ?_⟩
  · exact weak.symm ▸ listed
  · have key : computeStrongFingerprint crates fs (computeWeakFingerprint crates fs
        ((on start fs).inputs session.cache)) stored.reads =
        computeStrongFingerprint crates start.fs (computeWeakFingerprint crates start.fs
          (start.inputs session.cache)) stored.reads := by
      rw [show (on start fs).inputs session.cache = start.inputs session.cache from rfl, weak,
        computeStrongFingerprint, computeStrongFingerprint, text]
    rw [show (on start fs).fs = fs from rfl, key, isEntry]
    rfl

/-! A task that ends. -/

theorem publishAbi_below (cache : TwoPhaseCache) (task : Task) (abiFp : Option Bytes) :
    cache.Below (publishAbi cache task abiFp) ∧
      (publishAbi cache task abiFp).pathsetFiles = cache.pathsetFiles ∧
      ∀ name, abiFile name ≠ abiFile task.packageName →
        (publishAbi cache task abiFp).pkgAbiFiles (abiFile name) =
          cache.pkgAbiFiles (abiFile name) := by
  cases abiFp with
  | none => exact ⟨.refl cache, rfl, fun _ _ => rfl⟩
  | some fp =>
      refine ⟨⟨fun _ _ listed => listed, fun _ present => present⟩, rfl, fun name differs => ?_⟩
      exact Function.update_of_ne differs _ _

/-- What an execution that is recorded leaves in the cache. -/
structure Built (crates : Crates) (cache written : TwoPhaseCache) (task : Task)
    (call : RecordCall) : Prop where
  below : cache.Below written
  abi : ∀ name, abiFile name ≠ abiFile task.packageName →
    written.pkgAbiFiles (abiFile name) = cache.pkgAbiFiles (abiFile name)
  found : (∀ stored ∈ cache.list (call.weakFp crates), stored.eq call.pathset = true →
      stored.reads = call.pathset.reads) → ∀ now, call.Unchanged crates now →
    (written.lookupWithPathsetReads crates now call.inputs).isSome = true

theorem recordPhase_built {cache : TwoPhaseCache} {task : Task} {inputs : WeakFpInputs}
    {exec : Execution} {strongFp : Bytes} {pathset : StoredPathset}
    (built : (recordPhase crates cache task inputs exec).1 = .built (some strongFp))
    (result : exec.result task.sandboxMode = some (0, pathset)) :
    Built crates cache (recordPhase crates cache task inputs exec).2 task
      (exec.call crates task inputs pathset) := by
  unfold recordPhase at built ⊢
  rw [result] at built ⊢
  simp only [if_true] at built ⊢
  obtain ⟨publishes, files, abi⟩ := publishAbi_below cache task (exec.abiFp crates task)
  cases done : (publishAbi cache task (exec.abiFp crates task)).record crates
      (exec.call crates task inputs pathset).fs (exec.call crates task inputs pathset).inputs
      (exec.call crates task inputs pathset).pathset
      (exec.call crates task inputs pathset).entryTemplate with
  | none =>
      rw [done] at built
      simp at built
  | some recorded =>
      obtain ⟨key, written⟩ := recorded
      obtain ⟨records, -⟩ := TwoPhaseCache.record_below done
      obtain ⟨-, -, kept, -⟩ := TwoPhaseCache.record_cases done
      refine ⟨⟨fun fp ps listed => records.lists fp ps (publishes.lists fp ps listed),
        fun fp present => records.entries fp (publishes.entries fp present)⟩,
        fun name differs => by rw [kept, abi name differs], fun spelled now unchanged => ?_⟩
      refine TwoPhaseCache.record_found done (fun stored listed => spelled stored ?_) unchanged
      simpa only [TwoPhaseCache.list, files] using listed

theorem finishTask_running (session : Session) (task : Task) (inputs : WeakFpInputs)
    (exec : Execution) : (session.finishTask crates task inputs exec).running = session.running := by
  unfold finishTask
  split
  · rfl
  · split
    · rfl
    · rfl

theorem step_start_cache (session : Session) (start : TaskStart) :
    (session.step crates (.start start)).cache = session.cache := by
  simp only [step, startTask]
  split
  · rfl
  · rfl

theorem step_start_misses {session : Session} {start : TaskStart}
    (misses : lookupPhase crates session.cache start = none) :
    (session.step crates (.start start)).running =
      session.running ++ [(start, start.inputs session.cache)] := by
  simp [step, startTask, misses]

/-! How far a run has come. -/

/-- The tasks that have started are in flight, with the inputs that they would have now, or hit on
the disk that there is in the end. -/
structure Progress (crates : Crates) (fs : FileSystem) (session : Session)
    (steps : List SessionStep) : Prop where
  running : ∀ start inputs, (start, inputs) ∈ session.running →
    start ∈ starts steps ∧ inputs = start.inputs session.cache
  started : ∀ start ∈ starts steps,
    (∃ inputs, (start, inputs) ∈ session.running) ∨ session.Settled crates fs start

theorem Progress.start {fs : FileSystem} {session : Session} {steps : List SessionStep}
    (progress : Progress crates fs session steps) {start : TaskStart}
    (quiet : Quiet crates fs session (.start start)) :
    Progress crates fs (session.step crates (.start start)) (steps ++ [.start start]) := by
  have isStarts : starts (steps ++ [.start start]) = starts steps ++ [start] := by
    simp [starts]
  cases found : lookupPhase crates session.cache start with
  | some hit =>
      obtain ⟨strongFp, entry, reads⟩ := hit
      have settled := settled_of_hit found (quiet strongFp entry reads found)
      have same := @step_start_cache crates session start
      have inFlight : (session.step crates (.start start)).running = session.running := by
        simp [step, startTask, found]
      constructor
      · intro other inputs member
        rw [inFlight] at member
        obtain ⟨isStart, isInputs⟩ := progress.running other inputs member
        exact ⟨by simp [isStarts, isStart], by rw [same, isInputs]⟩
      · intro other member
        rw [isStarts, List.mem_append, List.mem_singleton] at member
        rw [inFlight, Settled, same]
        rcases member with earlier | rfl
        · exact progress.started other earlier
        · exact Or.inr settled
  | none =>
      have same := @step_start_cache crates session start
      have inFlight := step_start_misses found
      constructor
      · intro other inputs member
        rw [inFlight, List.mem_append, List.mem_singleton] at member
        rw [same, isStarts]
        rcases member with earlier | isNew
        · obtain ⟨isStart, isInputs⟩ := progress.running other inputs earlier
          exact ⟨by simp [isStart], isInputs⟩
        · obtain ⟨rfl, rfl⟩ := Prod.mk.inj isNew
          exact ⟨by simp, rfl⟩
      · intro other member
        rw [isStarts, List.mem_append, List.mem_singleton] at member
        rw [inFlight, Settled, same]
        rcases member with earlier | rfl
        · rcases progress.started other earlier with ⟨inputs, isRunning⟩ | settled
          · exact Or.inl ⟨inputs, List.mem_append_left _ isRunning⟩
          · exact Or.inr settled
        · exact Or.inl ⟨_, List.mem_append_right _ (List.mem_singleton_self _)⟩

theorem Progress.finish {fs : FileSystem} {session : Session} {steps : List SessionStep}
    (progress : Progress crates fs session steps) {index : Nat} {exec : Execution}
    (quiet : Quiet crates fs session (.finish index exec))
    (first : ∀ ended inputs, session.running[index]? = some (ended, inputs) →
      ∀ start ∈ starts steps, ∀ dep ∈ start.task.depPackageNames,
        abiFile dep ≠ abiFile ended.task.packageName) :
    Progress crates fs (session.step crates (.finish index exec))
      (steps ++ [.finish index exec]) := by
  have isStarts : starts (steps ++ [.finish index exec]) = starts steps := by simp [starts]
  cases ends : session.running[index]? with
  | none =>
      have same : session.step crates (.finish index exec) = session := by
        simp [step, ends]
      rw [same]
      exact ⟨fun start inputs member => isStarts ▸ progress.running start inputs member,
        fun start member => progress.started start (isStarts ▸ member)⟩
  | some ending =>
      obtain ⟨ended, inputs⟩ := ending
      obtain ⟨strongFp, pathset, built, result, unchanged, spelled⟩ := quiet ended inputs ends
      obtain ⟨endedStart, isInputs⟩ :=
        progress.running ended inputs (List.mem_of_getElem? ends)
      have isBuilt := recordPhase_built built result
      have isCache : (session.step crates (.finish index exec)).cache =
          (recordPhase crates session.cache ended.task inputs exec).2 := by
        simp only [step, ends]
        exact finishTask_cache crates _ _ _ _
      have inFlight : (session.step crates (.finish index exec)).running =
          session.running.eraseIdx index := by
        simp only [step, ends]
        exact finishTask_running _ _ _ _
      have abi (start : TaskStart) (member : start ∈ starts steps) :
          ∀ dep ∈ start.task.depPackageNames,
            (session.step crates (.finish index exec)).cache.pkgAbiFiles (abiFile dep) =
              session.cache.pkgAbiFiles (abiFile dep) := by
        intro dep isDep
        rw [isCache]
        exact isBuilt.abi dep (first ended inputs ends start member dep isDep)
      constructor
      · intro start other member
        rw [inFlight] at member
        obtain ⟨isStart, isOther⟩ := progress.running start other (List.mem_of_mem_eraseIdx member)
        exact ⟨isStarts ▸ isStart, by rw [isOther, inputs_congr start (abi start isStart)]⟩
      · intro start member
        rw [isStarts] at member
        rcases progress.started start member with ⟨other, isRunning⟩ | settled
        · obtain ⟨position, found⟩ := List.mem_iff_getElem?.mp isRunning
          by_cases isEnd : position = index
          · subst isEnd
            rw [ends, Option.some.injEq, Prod.mk.injEq] at found
            obtain ⟨rfl, rfl⟩ := found
            refine Or.inr ?_
            have now := isBuilt.found spelled fs unchanged
            unfold Settled lookupPhase
            rw [inputs_congr (on ended fs) (abi ended member), isCache]
            rw [isInputs] at now ⊢
            exact now
          · rw [inFlight]
            exact Or.inl ⟨other, List.mem_eraseIdx_iff_getElem?.mpr ⟨position, isEnd, found⟩⟩
        · exact Or.inr (settled_of_below settled (isCache ▸ isBuilt.below) (abi start member))

theorem progress_final {fs : FileSystem} {session : Session} (idle : session.running = [])
    (steps : List SessionStep) (quiet : Runs.Each (step crates) (Quiet crates fs) session steps)
    (ordered : DependenciesFirst crates session steps) :
    Progress crates fs (Runs.final (step crates) session steps) steps := by
  induction steps using List.reverseRecOn with
  | nil => exact ⟨by simp [Runs.final, idle], by simp [starts]⟩
  | append_singleton steps next ih =>
      obtain ⟨quietBefore, quietHere, -⟩ := (Runs.each_append _ _ _ _).mp quiet
      have before := ih quietBefore fun earlier index exec after split =>
        ordered earlier index exec (after ++ [next]) (by rw [split]; simp)
      have isFinal : Runs.final (step crates) session (steps ++ [next]) =
          (Runs.final (step crates) session steps).step crates next := by
        simp [Runs.final]
      rw [isFinal]
      cases next with
      | newRun => exact quietHere.elim
      | start start => exact before.start quietHere
      | finish index exec => exact before.finish quietHere (ordered steps index exec [] rfl)

/-! The second run. -/

theorem step_settled {session : Session} {fs : FileSystem} (idle : session.running = [])
    {start : TaskStart} (settled : session.Settled crates fs start) :
    (session.step crates (.start (on start fs))).cache = session.cache ∧
      (session.step crates (.start (on start fs))).running = [] := by
  refine ⟨step_start_cache session _, ?_⟩
  obtain ⟨hit, found⟩ := Option.isSome_iff_exists.mp settled
  simp [step, startTask, found, idle]

namespace TwoPackages

open RevertedDependency (library app files)

def libraryStart : TaskStart := ⟨library, utf8 "sh", files "1" "0"⟩

def appStart : TaskStart := ⟨app, utf8 "sh", files "1" "1"⟩

def exec : Execution := .quiet (files "1" "1") (some ⟨0, [Sample.source], []⟩) none

def steps : List SessionStep :=
  [.start libraryStart, .finish 0 exec, .start appStart, .finish 0 exec]

def libraryBuilt : Session :=
  (Session.empty.step .plain (.start libraryStart)).step .plain (.finish 0 exec)

theorem library_misses : lookupPhase .plain Session.empty.cache libraryStart = none := by
  decide +kernel

theorem app_misses : lookupPhase .plain libraryBuilt.cache appStart = none := by
  decide +kernel

theorem library_runs : (Session.empty.step .plain (.start libraryStart)).running =
    [(libraryStart, libraryStart.inputs Session.empty.cache)] :=
  step_start_misses library_misses

theorem library_ends : libraryBuilt.running = [] := List.isEmpty_iff.mp (by decide +kernel)

theorem app_runs : (libraryBuilt.step .plain (.start appStart)).running =
    [(appStart, appStart.inputs libraryBuilt.cache)] := by
  rw [step_start_misses app_misses, library_ends, List.nil_append]

/-- The disk stays as it is when the task is recorded. -/
theorem quiet_finish {session : Session} {start : TaskStart} {inputs : WeakFpInputs}
    (runs : session.running = [(start, inputs)])
    (built : (recordPhase .plain session.cache start.task inputs exec).1 =
      .built (some ((exec.call .plain start.task inputs ⟨[Sample.source], []⟩).strongFp .plain)))
    (isResult : exec.result start.task.sandboxMode = some (0, ⟨[Sample.source], []⟩))
    (spelled : ∀ stored ∈ session.cache.list
        ((exec.call .plain start.task inputs ⟨[Sample.source], []⟩).weakFp .plain),
      stored.reads = [Sample.source]) :
    Session.Quiet .plain (files "1" "1") session (.finish 0 exec) := by
  intro other others found
  rw [runs] at found
  obtain ⟨rfl, rfl⟩ := Prod.mk.inj (Option.some.inj found)
  exact ⟨_, _, built, isResult, ⟨rfl, fun _ _ _ => rfl⟩, fun stored listed _ => spelled stored listed⟩

theorem quiet : Runs.Each (Session.step .plain) (Session.Quiet .plain (files "1" "1"))
    Session.empty steps := by
  refine ⟨?_, ?_, ?_, ?_, trivial⟩
  · intro strongFp entry reads hit
    rw [library_misses] at hit
    simp at hit
  · exact quiet_finish library_runs (by decide +kernel) (by decide +kernel) (by decide +kernel)
  · intro strongFp entry reads hit
    have misses := app_misses
    unfold libraryBuilt at misses
    rw [misses] at hit
    simp at hit
  · exact quiet_finish app_runs (by decide +kernel) (by decide +kernel) (by decide +kernel)

theorem ordered : Session.DependenciesFirst .plain Session.empty steps := by
  intro before index end_ after split ended inputs found start member dep isDep
  match before with
  | [] => simp [steps] at split
  | [first] =>
      obtain ⟨rfl, -⟩ := List.cons.inj split
      obtain rfl := List.mem_singleton.mp member
      simp [libraryStart, library, Sample.task] at isDep
  | [first, second] => simp [steps] at split
  | [first, second, third] =>
      simp only [steps, List.cons_append, List.nil_append, List.cons.injEq,
        SessionStep.finish.injEq] at split
      obtain ⟨rfl, rfl, rfl, ⟨rfl, rfl⟩, rfl⟩ := split
      have runs := app_runs
      unfold libraryBuilt at runs
      simp only [Runs.final, List.foldl_cons, List.foldl_nil] at found
      rw [runs] at found
      obtain ⟨rfl, -⟩ := Prod.mk.inj (Option.some.inj found)
      simp only [Session.starts, List.filterMap_cons, List.filterMap_nil, List.mem_cons,
        List.not_mem_nil, or_false] at member
      rcases member with rfl | rfl
      · simp [libraryStart, library, Sample.task] at isDep
      · obtain rfl := List.mem_singleton.mp isDep
        decide
  | first :: second :: third :: fourth :: rest => simp [steps] at split

end TwoPackages

end Session

end Rage
