import Mathlib.Logic.Relation
import Rage.Rebuild

/-!
The early cutoff over a whole history.  What a task has once found or recorded is found again until
its tool, an input or a file that it has read changes, or a dependency publishes another ABI
fingerprint.  So a run executes only what depends on an edit.
-/

namespace Rage

theorem TwoPhaseCache.Below.trans {cache larger largest : TwoPhaseCache}
    (below : cache.Below larger) (later : larger.Below largest) : cache.Below largest where
  lists := fun fp ps listed => later.lists fp ps (below.lists fp ps listed)
  entries := fun fp present => later.entries fp (below.entries fp present)

namespace Session

section

variable (crates : Crates)

/-- The ABI fingerprint that a step publishes under the name of a package is another one. -/
def Republishes (session : Session) (dep : Bytes) (fp : Option Bytes) : SessionStep → Prop
  | .finish index exec => ∃ ended inputs pathset new,
      session.running[index]? = some (ended, inputs) ∧
      exec.result ended.task.sandboxMode = some (0, pathset) ∧
      exec.abiFp crates ended.task = some new ∧
      abiFile ended.task.packageName = abiFile dep ∧ fp ≠ some new
  | _ => False

/-- What a task that starts after `before` finds in the cache, or has left there when it ends at the
end of `since`.  A pathset that was stored before is spelled as that of the task. -/
inductive Served (before : List SessionStep) (start : TaskStart) :
    List SessionStep → RecordCall → Prop
  | hit {strongFp : Bytes} {entry : CacheEntry} {reads : List Path}
      (found : lookupPhase crates (run crates before).cache start = some (strongFp, entry, reads)) :
      Served before start []
        ⟨start.inputs (run crates before).cache, start.fs, ⟨reads, []⟩, entry⟩
  | executed {between : List SessionStep} {index : Nat} {exec : Execution}
      {pathset : StoredPathset} {strongFp : Bytes}
      (runs : (run crates (before ++ .start start :: between)).running[index]? =
        some (start, start.inputs (run crates before).cache))
      (result : exec.result start.task.sandboxMode = some (0, pathset))
      (built : (recordPhase crates (run crates (before ++ .start start :: between)).cache start.task
        (start.inputs (run crates before).cache) exec).1 = .built (some strongFp))
      (spelled : ∀ stored ∈ (run crates (before ++ .start start :: between)).cache.list
          ((exec.call crates start.task (start.inputs (run crates before).cache) pathset).weakFp
            crates),
        stored.eq pathset = true → stored.reads = pathset.reads) :
      Served before start (between ++ [.finish index exec])
        (exec.call crates start.task (start.inputs (run crates before).cache) pathset)

/-- From its start on, no step publishes another ABI fingerprint of a dependency. -/
def Undisturbed (before : List SessionStep) (start : TaskStart) (later : List SessionStep) : Prop :=
  Runs.Each (step crates) (fun session next => ∀ dep ∈ start.task.depPackageNames,
      ¬ session.Republishes crates dep ((run crates before).cache.pkgAbiFiles (abiFile dep)) next)
    (run crates before) later

end

variable {crates : Crates}

theorem run_append (before later : List SessionStep) :
    run crates (before ++ later) = Runs.final (step crates) (run crates before) later := by
  simp [run, Runs.final]

/-! What a step keeps. -/

theorem recordPhase_keeps (cache : TwoPhaseCache) (task : Task) (inputs : WeakFpInputs)
    (exec : Execution) : cache.Below (recordPhase crates cache task inputs exec).2 ∧
      ∀ file, (recordPhase crates cache task inputs exec).2.pkgAbiFiles file =
          cache.pkgAbiFiles file ∨
        ∃ pathset new, exec.result task.sandboxMode = some (0, pathset) ∧
          exec.abiFp crates task = some new ∧ abiFile task.packageName = file ∧
          (recordPhase crates cache task inputs exec).2.pkgAbiFiles file = some new := by
  unfold recordPhase
  cases result : exec.result task.sandboxMode with
  | none => exact ⟨.refl cache, fun _ => Or.inl rfl⟩
  | some ended =>
      obtain ⟨exitCode, pathset⟩ := ended
      by_cases success : exitCode = 0
      · subst success
        simp only [↓reduceIte]
        obtain ⟨publishes, -, -⟩ := publishAbi_below cache task (exec.abiFp crates task)
        have abi (file : Bytes) : (publishAbi cache task (exec.abiFp crates task)).pkgAbiFiles file =
            cache.pkgAbiFiles file ∨ ∃ new, exec.abiFp crates task = some new ∧
              abiFile task.packageName = file ∧
              (publishAbi cache task (exec.abiFp crates task)).pkgAbiFiles file = some new := by
          cases exec.abiFp crates task with
          | none => exact Or.inl rfl
          | some new =>
              by_cases same : abiFile task.packageName = file
              · subst same
                exact Or.inr ⟨new, rfl, rfl, Function.update_self ..⟩
              · exact Or.inl (Function.update_of_ne (Ne.symm same) ..)
        cases done : (publishAbi cache task (exec.abiFp crates task)).record crates
            (exec.call crates task inputs pathset).fs (exec.call crates task inputs pathset).inputs
            (exec.call crates task inputs pathset).pathset
            (exec.call crates task inputs pathset).entryTemplate with
        | none =>
            refine ⟨publishes, fun file => (abi file).imp_right ?_⟩
            rintro ⟨new, isNew, isFile, value⟩
            exact ⟨pathset, new, rfl, isNew, isFile, value⟩
        | some recorded =>
            obtain ⟨key, written⟩ := recorded
            obtain ⟨-, -, kept, -⟩ := TwoPhaseCache.record_cases done
            refine ⟨publishes.trans (TwoPhaseCache.record_below done).1, fun file => ?_⟩
            simp only [kept]
            refine (abi file).imp_right ?_
            rintro ⟨new, isNew, isFile, value⟩
            exact ⟨pathset, new, rfl, isNew, isFile, value⟩
      · simp only [success, ↓reduceIte, true_or, implies_true, and_true]
        exact .refl cache

theorem step_keeps (session : Session) (next : SessionStep) :
    session.cache.Below (session.step crates next).cache ∧
      ∀ dep, (session.step crates next).cache.pkgAbiFiles (abiFile dep) =
          session.cache.pkgAbiFiles (abiFile dep) ∨
        ∃ fp, (session.step crates next).cache.pkgAbiFiles (abiFile dep) = some fp ∧
          ∀ old, old ≠ some fp → session.Republishes crates dep old next := by
  cases next with
  | newRun => exact ⟨.refl _, fun _ => Or.inl rfl⟩
  | start start =>
      rw [step_start_cache]
      exact ⟨.refl _, fun _ => Or.inl rfl⟩
  | finish index exec =>
      cases ends : session.running[index]? with
      | none =>
          have same : session.step crates (.finish index exec) = session := by simp [step, ends]
          rw [same]
          exact ⟨.refl _, fun _ => Or.inl rfl⟩
      | some ending =>
          obtain ⟨ended, inputs⟩ := ending
          have isCache : (session.step crates (.finish index exec)).cache =
              (recordPhase crates session.cache ended.task inputs exec).2 := by
            simp only [step, ends]
            exact finishTask_cache crates _ _ _ _
          rw [isCache]
          obtain ⟨below, abi⟩ := @recordPhase_keeps crates session.cache ended.task inputs exec
          refine ⟨below, fun dep => (abi (abiFile dep)).imp_right ?_⟩
          rintro ⟨pathset, new, result, isNew, isFile, value⟩
          exact ⟨new, value, fun old differs =>
            ⟨ended, inputs, pathset, new, ends, result, isNew, isFile, differs⟩⟩

theorem final_below (session : Session) (steps : List SessionStep) :
    session.cache.Below (Runs.final (step crates) session steps).cache :=
  Runs.invariant_final (fun state : Session => session.cache.Below state.cache)
    (fun state next below => below.trans (step_keeps state next).1) steps (.refl _)

/-- The published fingerprint of a package stays while no step publishes another one. -/
theorem final_abi {session : Session} {dep : Bytes} {fp : Option Bytes}
    (same : session.cache.pkgAbiFiles (abiFile dep) = fp) {steps : List SessionStep}
    (undisturbed : Runs.Each (step crates)
      (fun session next => ¬ session.Republishes crates dep fp next) session steps) :
    (Runs.final (step crates) session steps).cache.pkgAbiFiles (abiFile dep) = fp := by
  induction steps generalizing session with
  | nil => exact same
  | cons next rest ih =>
      obtain ⟨here, later⟩ := undisturbed
      refine ih ?_ later
      rcases (step_keeps session next).2 dep with kept | ⟨new, value, republishes⟩
      · rw [kept, same]
      · rw [value]
        by_contra differs
        exact here (republishes fp (Ne.symm differs))

theorem Undisturbed.inputs {before later : List SessionStep} {start : TaskStart}
    (undisturbed : Undisturbed crates before start later) (now : FileSystem) :
    (on start now).inputs (run crates (before ++ later)).cache =
      start.inputs (run crates before).cache := by
  have sameInputs : (on start now).inputs (run crates (before ++ later)).cache =
      start.inputs (run crates (before ++ later)).cache := rfl
  rw [sameInputs, run_append]
  apply inputs_congr
  intro dep listed
  apply final_abi rfl
  refine Runs.each_iff.mpr fun first next rest split => ?_
  exact Runs.each_iff.mp undisturbed first next rest split dep listed

/-- With the fingerprints that it has started with, a task finds again what it has found or left in
the cache, on every disk that shows what the record has seen. -/
theorem Served.hits {before since : List SessionStep} {start : TaskStart} {call : RecordCall}
    (served : Served crates before start since call) (after : List SessionStep) {now : FileSystem}
    (unchanged : call.Unchanged crates now)
    (same : (on start now).inputs (run crates (before ++ .start start :: (since ++ after))).cache =
      start.inputs (run crates before).cache) :
    (lookupPhase crates (run crates (before ++ .start start :: (since ++ after))).cache
      (on start now)).isSome = true := by
  unfold lookupPhase
  rw [same]
  cases served with
  | hit found =>
      have settled := settled_of_hit found unchanged
      rw [run_append]
      exact (final_below _ _).lookup settled
  | @executed between index exec pathset strongFp runs result built spelled =>
      have isBuilt := recordPhase_built built result
      have split : before ++ SessionStep.start start :: (between ++ [.finish index exec] ++ after) =
          before ++ .start start :: between ++ .finish index exec :: after := by simp
      have isCache : ((run crates (before ++ .start start :: between)).step crates
          (.finish index exec)).cache =
          (recordPhase crates (run crates (before ++ .start start :: between)).cache
            start.task (start.inputs (run crates before).cache) exec).2 := by
        simp only [step, runs]
        exact finishTask_cache crates _ _ _ _
      have later := @final_below crates ((run crates (before ++ .start start :: between)).step crates
        (.finish index exec)) after
      rw [split, run_append]
      apply later.lookup
      rw [isCache]
      exact isBuilt.found spelled now unchanged

end Session

namespace EditedLibrary

open RevertedDependency (library app files)

def libraryStart (content declarations : String) : TaskStart :=
  ⟨library, utf8 "sh", files content declarations⟩

def built (content declarations : String) : Execution :=
  .quiet (files content declarations) (some ⟨0, [Sample.source], []⟩) none

def appBuilt (content declarations : String) : Execution :=
  .quiet (files content declarations) (some ⟨0, [], []⟩) none

def appStart (content declarations : String) : TaskStart :=
  ⟨app, utf8 "sh", files content declarations⟩

def before : List SessionStep :=
  [.newRun, .start (libraryStart "1" "0"), .finish 0 (built "1" "1")]

def since : List SessionStep := [.finish 0 (appBuilt "1" "1")]

def after : List SessionStep :=
  [.newRun, .start (libraryStart "2" "1"), .finish 0 (built "2" "1")]

def seen : RecordCall :=
  (appBuilt "1" "1").call .plain app ((appStart "1" "1").inputs (Session.run .plain before).cache)
    ⟨[], []⟩

theorem idle : (Session.run .plain before).running = [] := List.isEmpty_iff.mp (by decide +kernel)

def started : Session := (Session.run .plain before).step .plain (.start (appStart "1" "1"))

def finished : Session := started.step .plain (.finish 0 (appBuilt "1" "1"))

theorem runs : started.running[0]? =
    some (appStart "1" "1", (appStart "1" "1").inputs (Session.run .plain before).cache) := by
  have misses : lookupPhase .plain (Session.run .plain before).cache (appStart "1" "1") = none := by
    decide +kernel
  rw [started, Session.step_start_misses misses, idle]
  rfl

theorem runsAgain : ∃ inputs, ((finished.step .plain .newRun).step .plain
    (.start (libraryStart "2" "1"))).running[0]? = some (libraryStart "2" "1", inputs) := by
  have misses : lookupPhase .plain (finished.step .plain .newRun).cache
      (libraryStart "2" "1") = none := by
    decide +kernel
  rw [Session.step_start_misses misses]
  exact ⟨_, rfl⟩

theorem served : Session.Served .plain before (appStart "1" "1") since seen := by
  refine @Session.Served.executed .plain before (appStart "1" "1") [] 0 (appBuilt "1" "1") ⟨[], []⟩
    (seen.strongFp .plain) ?_ (by decide +kernel) (by decide +kernel) ?_
  · rw [Session.run_append]
    exact runs
  · decide +kernel

/-- The library is executed again and publishes the fingerprint that it had. -/
theorem undisturbed : Session.Undisturbed .plain before (appStart "1" "1")
    (.start (appStart "1" "1") :: (since ++ after)) := by
  refine ⟨fun _ _ => id, ?_, fun _ _ => id, fun _ _ => id, ?_, trivial⟩
  · rintro dep listed ⟨ended, inputs, pathset, new, running, -, -, sameFile, -⟩
    obtain ⟨rfl, -⟩ := Prod.mk.inj (Option.some.inj (runs.symm.trans running))
    obtain rfl := List.mem_singleton.mp listed
    exact absurd sameFile (by decide)
  · rintro dep listed ⟨ended, inputs, pathset, new, running, -, isNew, -, differs⟩
    obtain ⟨others, found⟩ := runsAgain
    obtain ⟨rfl, -⟩ := Prod.mk.inj (Option.some.inj (found.symm.trans running))
    obtain rfl := List.mem_singleton.mp listed
    have same : (Session.run .plain before).cache.pkgAbiFiles (abiFile (utf8 "lib")) =
        (built "2" "1").abiFp .plain library := by
      decide +kernel
    exact differs (same.trans isNew)

end EditedLibrary

namespace Session

section

variable (crates : Crates)

/-- The task reads an ABI fingerprint that the other one publishes. -/
def DependsOn (task other : Task) : Prop :=
  ∃ dep ∈ task.depPackageNames, abiFile other.packageName = abiFile dep

/-- Nothing that the history has found or recorded for the task, and that no dependency has made
obsolete since, was seen by the same tool on a disk with the same inputs and reads. -/
def Edited (history : List SessionStep) (start : TaskStart) : Prop :=
  ∀ before since after origin call, history = before ++ .start origin :: (since ++ after) →
    Served crates before origin since call →
    Undisturbed crates before origin (.start origin :: (since ++ after)) →
    origin.task = start.task → origin.toolPath = start.toolPath → ¬ call.Unchanged crates start.fs

/-- The task that starts is executed. -/
def Executes (session : Session) (start : TaskStart) : Prop :=
  lookupPhase crates session.cache start = none

end

variable {crates : Crates}

/-- A task in flight has started in this run, and was executed. -/
theorem running_started {session : Session} (idle : session.running = []) {steps : List SessionStep}
    {ended : TaskStart} {inputs : WeakFpInputs}
    (member : (ended, inputs) ∈ (Runs.final (step crates) session steps).running) :
    ∃ first rest, steps = first ++ .start ended :: rest ∧
      (Runs.final (step crates) session first).Executes crates ended := by
  induction steps using List.reverseRecOn with
  | nil => simp [Runs.final, idle] at member
  | append_singleton steps next ih =>
      have isFinal : Runs.final (step crates) session (steps ++ [next]) =
          (Runs.final (step crates) session steps).step crates next := by
        simp [Runs.final]
      have before (running : (ended, inputs) ∈ (Runs.final (step crates) session steps).running) :
          ∃ first rest, steps ++ [next] = first ++ .start ended :: rest ∧
            (Runs.final (step crates) session first).Executes crates ended := by
        obtain ⟨first, rest, split, executes⟩ := ih running
        exact ⟨first, rest ++ [next], by rw [split]; simp, executes⟩
      rw [isFinal] at member
      cases next with
      | newRun => simp [step] at member
      | start start =>
          cases found : lookupPhase crates (Runs.final (step crates) session steps).cache start with
          | some hit => exact before (by simpa [step, startTask, found] using member)
          | none =>
              rw [step_start_misses found, List.mem_append, List.mem_singleton] at member
              rcases member with earlier | isNew
              · exact before earlier
              · obtain ⟨rfl, -⟩ := Prod.mk.inj isNew
                exact ⟨steps, [], rfl, found⟩
      | finish index exec =>
          refine before ?_
          cases ends : (Runs.final (step crates) session steps).running[index]? with
          | none => simpa [step, ends] using member
          | some ending =>
              simp only [step, ends, finishTask_running] at member
              exact List.mem_of_mem_eraseIdx member

/-- What is published in a run comes from a task that was executed in it. -/
theorem republisher {history earlier : List SessionStep} {dep : Bytes} {old : Option Bytes}
    {next : SessionStep}
    (republishes : (Runs.final (step crates) (run crates history) (.newRun :: earlier)).Republishes
      crates dep old next) :
    ∃ before after ended, earlier = before ++ .start ended :: after ∧
      abiFile ended.task.packageName = abiFile dep ∧
      (run crates (history ++ .newRun :: before)).Executes crates ended := by
  cases next with
  | newRun => exact republishes.elim
  | start other => exact republishes.elim
  | finish index exec =>
      obtain ⟨ended, inputs, pathset, new, running, -, -, sameFile, -⟩ := republishes
      have fresh : ((run crates history).step crates .newRun).running = [] := rfl
      obtain ⟨before, after, rfl, executed⟩ :=
        running_started fresh (List.mem_of_getElem? running)
      refine ⟨before, after, ended, rfl, sameFile, ?_⟩
      rw [run_append]
      exact executed

/-- A task that hits when nothing is published does not hit here, so something was. -/
theorem republished_of_executes {history first : List SessionStep} {start : TaskStart}
    (executes : (run crates (history ++ .newRun :: first)).Executes crates start)
    (unedited : ¬ Edited crates history start) :
    ∃ earlier rest ended, first = earlier ++ .start ended :: rest ∧
      DependsOn start.task ended.task ∧
      (run crates (history ++ .newRun :: earlier)).Executes crates ended := by
  unfold Edited at unedited
  push Not at unedited
  obtain ⟨before, since, after, origin, call, rfl, served, undisturbed, sameTask, sameTool,
    unchanged⟩ := unedited
  have isStart : on origin start.fs = start := by
    cases origin
    cases start
    simp only [on] at sameTask sameTool ⊢
    rw [sameTask, sameTool]
  by_contra alone
  push Not at alone
  have still : Undisturbed crates before origin
      (.start origin :: (since ++ (after ++ .newRun :: first))) := by
    have split : SessionStep.start origin :: (since ++ (after ++ .newRun :: first)) =
        (.start origin :: (since ++ after)) ++ .newRun :: first := by simp
    rw [split, Undisturbed, Runs.each_append]
    refine ⟨undisturbed, Runs.each_iff.mpr ?_⟩
    intro earlier next rest isSplit dep listed republishes
    cases earlier with
    | nil =>
        obtain ⟨rfl, -⟩ := List.cons.inj isSplit
        exact republishes
    | cons head earlier =>
        obtain ⟨rfl, rfl⟩ := List.cons.inj isSplit
        rw [← run_append] at republishes
        obtain ⟨opening, later, ended, rfl, sameFile, executed⟩ := republisher republishes
        exact alone opening (later ++ next :: rest) ended (by simp)
          ⟨dep, sameTask ▸ listed, sameFile⟩ executed
  have hits := served.hits (after ++ .newRun :: first) unchanged (still.inputs start.fs)
  have whole : before ++ SessionStep.start origin :: (since ++ (after ++ .newRun :: first)) =
      before ++ .start origin :: (since ++ after) ++ .newRun :: first := by simp
  rw [isStart, whole, executes] at hits
  simp at hits

end Session

end Rage
