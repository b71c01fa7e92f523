import Rage.Observation

/-!
The ABI early cutoff.  A task takes the ABI fingerprints of its dependencies from one side
file for each package name; only executions with declaration files write it.
-/

namespace Rage

/-! Digests have no white space and are not empty, so what is published is what is read. -/

theorem hex_noWhitespace (digest : Bytes) : ∀ byte ∈ hex digest,
    TwoPhaseCache.isWhitespace byte = false := by
  have digits : ∀ digit < 16, TwoPhaseCache.isWhitespace (hexDigit digit) = false := by decide
  intro byte member
  obtain ⟨source, _, digit⟩ := List.mem_flatMap.mp member
  have bound := source.toNat_lt
  simp only [List.mem_cons, List.not_mem_nil, or_false] at digit
  rcases digit with rfl | rfl
  · exact digits _ (by omega)
  · exact digits _ (by omega)

theorem dropWhile_none {text : Bytes}
    (none : ∀ byte ∈ text, TwoPhaseCache.isWhitespace byte = false) :
    text.dropWhile TwoPhaseCache.isWhitespace = text := by
  cases text with
  | nil => rfl
  | cons byte rest => simp [none byte (List.mem_cons_self ..)]

theorem trim_hex (digest : Bytes) : TwoPhaseCache.trim (hex digest) = hex digest := by
  have clean := hex_noWhitespace digest
  have reversed : ∀ byte ∈ (hex digest).reverse, TwoPhaseCache.isWhitespace byte = false :=
    fun byte member => clean byte (List.mem_reverse.mp member)
  simp [TwoPhaseCache.trim, dropWhile_none clean, dropWhile_none reversed]

theorem digest_nonempty {crates : Crates} (ideal : crates.Ideal) (text : Bytes) :
    hex (crates.blake3 text) ≠ [] := by
  intro empty
  have noDigest : crates.blake3 text = [] := by
    cases digest : crates.blake3 text with
    | nil => rfl
    | cons byte rest => simp [digest, hex] at empty
  -- An empty digest starts every other one, so all texts would be this one.
  have collides (other : Bytes) : text = other :=
    ideal.injective (ideal.prefixFree text other (crates.blake3 other) [] (by simp [noDigest]))
  have first := collides []
  have second := collides [0]
  rw [first] at second
  simp at second

namespace Session

variable (crates : Crates)

/-- Every dependency that completed in this run is in the task's inputs with the ABI fingerprint
of its result. -/
def FreshDeps (session : Session) (task : Task) : Prop :=
  ∀ dep ∈ task.depPackageNames, ∀ result, session.completed dep = some result →
    ∃ fp, result = some fp ∧ (dep, fp) ∈ depAbiFps session.cache task

def PublishedDeps (session : Session) (task : Task) : Prop :=
  ∀ dep ∈ task.depPackageNames, ∀ result, session.completed dep = some result →
    ∃ fp, result = some fp ∧
      session.published (TwoPhaseCache.pkgNameToFilename dep) = some fp

def PublishedDigests (session : Session) : Prop :=
  ∀ filename fp, session.published filename = some fp → ∃ text, fp = hex (crates.blake3 text)

variable {crates}

theorem publishedDigests_transfer {session other : Session}
    (digests : session.PublishedDigests crates) (same : other.published = session.published) :
    other.PublishedDigests crates := by
  unfold PublishedDigests
  rw [same]
  exact digests

theorem finishTask_published (crates : Crates) (session : Session) (task : Task) (inputs : WeakFpInputs)
    (exec : Execution) :
    (session.finishTask crates task inputs exec).published = session.published ∨
      (session.finishTask crates task inputs exec).published =
        (session.publish task (exec.abiFp crates task)).published := by
  unfold finishTask
  cases exec.result task.sandboxMode with
  | none => exact Or.inl rfl
  | some result =>
      by_cases success : result.1 = 0
      · simp only [success, ↓reduceIte, or_true]
      · simp only [success, ↓reduceIte, true_or]

theorem publish_digests {session : Session} (digests : session.PublishedDigests crates)
    (task : Task) (exec : Execution) :
    (session.publish task (exec.abiFp crates task)).PublishedDigests crates := by
  intro filename fp published
  cases computed : exec.abiFp crates task with
  | none =>
      simp only [publish, computed] at published
      exact digests filename fp published
  | some abi =>
      simp only [publish, computed] at published
      by_cases same : filename = TwoPhaseCache.pkgNameToFilename task.packageName
      · rw [same, Function.update_self] at published
        obtain ⟨text, isDigest⟩ := abiFingerprint_hex computed
        exact ⟨text, by rw [← Option.some.inj published, isDigest]⟩
      · rw [Function.update_of_ne same] at published
        exact digests filename fp published

theorem step_digests {session : Session} (digests : session.PublishedDigests crates)
    (next : SessionStep) : (session.step crates next).PublishedDigests crates := by
  cases next with
  | newRun => exact digests
  | start start =>
      simp only [step, startTask]
      split
      · exact digests
      · exact digests
  | finish index exec =>
      simp only [step]
      split
      · exact digests
      · rename_i start inputs _
        rcases finishTask_published crates
          { session with running := session.running.eraseIdx index } start.task inputs exec
          with same | published
        · exact publishedDigests_transfer digests same
        · exact publishedDigests_transfer (publish_digests digests start.task exec) published

theorem run_digests (crates : Crates) (steps : List SessionStep) : (run crates steps).PublishedDigests crates :=
  Runs.invariant_final (fun session : Session => session.PublishedDigests crates)
    (fun _ next digests => step_digests digests next) steps (by simp [PublishedDigests, empty])

theorem getPkgAbiFp_published {session : Session} (ideal : crates.Ideal)
    (invariant : session.Invariant crates) (digests : session.PublishedDigests crates)
    (pkgName : Bytes) :
    session.cache.getPkgAbiFp pkgName =
      session.published (TwoPhaseCache.pkgNameToFilename pkgName) := by
  rw [TwoPhaseCache.getPkgAbiFp, invariant.published]
  cases published : session.published (TwoPhaseCache.pkgNameToFilename pkgName) with
  | none => rfl
  | some fp =>
      obtain ⟨text, rfl⟩ := digests _ _ published
      simp [trim_hex, digest_nonempty ideal]

theorem mem_depAbiFps {cache : TwoPhaseCache} {task : Task} {dep fp : Bytes} :
    (dep, fp) ∈ depAbiFps cache task ↔
      dep ∈ task.depPackageNames ∧ cache.getPkgAbiFp dep = some fp := by
  simp only [depAbiFps, List.mem_filterMap, Option.map_eq_some_iff, Prod.mk.injEq]
  constructor
  · rintro ⟨name, member, value, found, rfl, rfl⟩
    exact ⟨member, found⟩
  · rintro ⟨member, found⟩
    exact ⟨dep, member, fp, found, rfl, rfl⟩

theorem freshDeps_iff {session : Session} (ideal : crates.Ideal)
    (invariant : session.Invariant crates) (digests : session.PublishedDigests crates)
    (task : Task) : session.FreshDeps task ↔ session.PublishedDeps task := by
  have published := getPkgAbiFp_published ideal invariant digests
  constructor
  · intro fresh dep member result completed
    obtain ⟨fp, isResult, listed⟩ := fresh dep member result completed
    exact ⟨fp, isResult, by rw [← published]; exact (mem_depAbiFps.mp listed).2⟩
  · intro current dep member result completed
    obtain ⟨fp, isResult, last⟩ := current dep member result completed
    exact ⟨fp, isResult, mem_depAbiFps.mpr ⟨member, by rw [published]; exact last⟩⟩

end Session

def SameDepAbi (session : Session) (task : Task) (call : RecordCall) : Prop :=
  ∀ dep ∈ task.depPackageNames, ∀ result, session.completed dep = some result →
    ∃ fp, result = some fp ∧ ∀ other, (dep, other) ∈ call.inputs.depAbiFingerprints ↔ other = fp

theorem sameDepAbi_of_fresh {crates : Crates} {session : Session} {start : TaskStart}
    {call : RecordCall} (fresh : session.FreshDeps start.task)
    (sameInputs : call.inputs.seen crates call.fs =
      (start.inputs session.cache).seen crates start.fs) :
    SameDepAbi session start.task call := by
  have sorted : sortByKey call.inputs.depAbiFingerprints =
      sortByKey (depAbiFps session.cache start.task) :=
    congrArg WeakRecord.depAbi sameInputs
  have members (pair : Bytes × Bytes) : pair ∈ call.inputs.depAbiFingerprints ↔
      pair ∈ depAbiFps session.cache start.task := by
    have sortedMember : pair ∈ sortByKey call.inputs.depAbiFingerprints ↔
        pair ∈ sortByKey (depAbiFps session.cache start.task) := by rw [sorted]
    simpa [sortByKey, List.mem_insertionSort] using sortedMember
  intro dep member result completed
  obtain ⟨fp, isResult, listed⟩ := fresh dep member result completed
  refine ⟨fp, isResult, fun other => ?_⟩
  rw [members]
  constructor
  · intro otherListed
    have first := (Session.mem_depAbiFps.mp otherListed).2
    have second := (Session.mem_depAbiFps.mp listed).2
    rw [first] at second
    exact Option.some.inj second
  · rintro rfl
    exact listed

/-- In any history of runs and edits, the ABI inputs of a task that starts are fresh exactly when
its completed dependencies were the last to publish; a hit is then for an entry recorded with
the same ABI fingerprints. -/
theorem freshDeps_iff_publishedDeps (crates : Crates) (ideal : crates.Ideal)
    (steps : List SessionStep) (start : TaskStart) :
    ((Session.run crates steps).FreshDeps start.task ↔
      (Session.run crates steps).PublishedDeps start.task) ∧
    ((Session.run crates steps).PublishedDeps start.task →
      Framed crates (Session.run crates steps).calls start.fs
        (start.inputs (Session.run crates steps).cache) →
      ∀ (strongFp : Bytes) (entry : CacheEntry) (reads : List Path),
      lookupPhase crates (Session.run crates steps).cache start = some (strongFp, entry, reads) →
      ∃ written, (Session.run crates steps).ledger.writer crates strongFp = some written ∧
        entry = written.call.stored crates ∧
        SameDepAbi (Session.run crates steps) start.task written.call) := by
  have invariant := Session.run_invariant crates steps
  have digests := Session.run_digests crates steps
  generalize Session.run crates steps = session at invariant digests ⊢
  have fresh := Session.freshDeps_iff ideal invariant digests start.task
  refine ⟨fresh, ?_⟩
  intro published framed strongFp entry reads hit
  obtain ⟨written, wrote, isStored, sameInputs, _, _⟩ :=
    Ledger.hit_records ideal invariant.sound invariant.listed framed hit
  exact ⟨written, wrote, isStored, sameDepAbi_of_fresh (fresh.mpr published) sameInputs⟩

/-! A dependency is built, edited and built again, and the edit is reverted. -/

namespace RevertedDependency

def library : Task :=
  { Sample.task .strict [utf8 "a.ts"] with
    packageName := utf8 "lib", outputGlobs := [utf8 "dist/**"] }

def app : Task :=
  { Sample.task .strict [] with cwd := utf8 "/ws/web", depPackageNames := [utf8 "lib"] }

def files (content declarations : String) : FileSystem :=
  ⟨[(components Sample.source, ⟨.file (utf8 content) true, false⟩),
    (components (utf8 "/ws/app/dist/a.d.ts"), ⟨.file (utf8 declarations) true, false⟩)]⟩

def start (content declarations : String) : SessionStep :=
  .start ⟨library, utf8 "sh", files content declarations⟩

def build (content : String) : SessionStep :=
  .finish 0 (.quiet (files content content) (some ⟨0, [], []⟩) none)

def firstTwo : List SessionStep :=
  [.newRun, start "1" "0", build "1", .newRun, start "2" "1", build "2", .newRun]

def appStart (content declarations : String) : TaskStart :=
  ⟨app, utf8 "sh", files content declarations⟩

def steps : List SessionStep := firstTwo ++ [start "1" "2"]

def unedited : List SessionStep :=
  [.newRun, start "1" "0", build "1", .start (appStart "1" "1"),
    .finish 0 (.quiet (files "1" "1") (some ⟨0, [], []⟩) none), .newRun, start "1" "1"]

def libraryAbi : Bytes :=
  (abiFingerprint .plain (files "1" "1") (utf8 "/ws/app") [utf8 "dist/**"]).getD []

def recorded : RecordCall :=
  (Execution.quiet (files "1" "1") (some ⟨0, [], []⟩) none).call .plain app
    { command := app.command, toolPath := utf8 "sh", packagePath := app.cwd,
      declaredInputGlobs := [], trackedEnv := [],
      depAbiFingerprints := [(utf8 "lib", libraryAbi)] } ⟨[], []⟩

theorem published : (Session.run .plain unedited).completed (utf8 "lib") =
      some (some libraryAbi) ∧
    (Session.run .plain unedited).published (utf8 "lib") = some libraryAbi ∧
    TwoPhaseCache.pkgNameToFilename (utf8 "lib") = utf8 "lib" := by
  decide +kernel

theorem framed : Framed .plain (Session.run .plain unedited).calls (appStart "1" "1").fs
    ((appStart "1" "1").inputs (Session.run .plain unedited).cache) := by
  constructor
  · decide +kernel
  · decide +kernel
  · decide +kernel

theorem hit : lookupPhase .plain (Session.run .plain unedited).cache (appStart "1" "1") =
    some (recorded.strongFp .plain, recorded.stored .plain, []) := by
  decide +kernel

theorem stale : (Session.run .plain steps).completed (utf8 "lib") =
      some (abiFingerprint .plain (files "1" "1") (utf8 "/ws/app") [utf8 "dist/**"]) ∧
    depAbiFps (Session.run .plain steps).cache app =
      [(utf8 "lib", (abiFingerprint .plain (files "2" "2") (utf8 "/ws/app")
        [utf8 "dist/**"]).getD [])] ∧
    abiFingerprint .plain (files "1" "1") (utf8 "/ws/app") [utf8 "dist/**"] ≠
      some ((abiFingerprint .plain (files "2" "2") (utf8 "/ws/app") [utf8 "dist/**"]).getD []) := by
  decide +kernel

end RevertedDependency

theorem freshDeps_unedited :
    ((Session.run .plain RevertedDependency.unedited).FreshDeps RevertedDependency.app ↔
      (Session.run .plain RevertedDependency.unedited).PublishedDeps RevertedDependency.app) ∧
    ∃ written, (Session.run .plain RevertedDependency.unedited).ledger.writer .plain
        (RevertedDependency.recorded.strongFp .plain) = some written ∧
      RevertedDependency.recorded.stored .plain = written.call.stored .plain ∧
      SameDepAbi (Session.run .plain RevertedDependency.unedited) RevertedDependency.app
        written.call := by
  obtain ⟨fresh, served⟩ := freshDeps_iff_publishedDeps .plain Crates.plain_ideal
    RevertedDependency.unedited (RevertedDependency.appStart "1" "1")
  refine ⟨fresh, served ?_ RevertedDependency.framed _ _ _ RevertedDependency.hit⟩
  intro dep member result completed
  obtain ⟨isCompleted, isPublished, filename⟩ := RevertedDependency.published
  obtain rfl : dep = utf8 "lib" := List.mem_singleton.mp member
  rw [isCompleted] at completed
  exact ⟨RevertedDependency.libraryAbi, (Option.some.inj completed).symm, by rw [filename, isPublished]⟩

theorem reverted_dependency_stale :
    ¬ ∀ (crates : Crates), crates.Ideal → ∀ (steps : List SessionStep) (start : TaskStart),
      (Session.run crates steps).FreshDeps start.task := by
  intro claimed
  obtain ⟨completed, inputs, differ⟩ := RevertedDependency.stale
  obtain ⟨fp, isResult, listed⟩ := claimed .plain Crates.plain_ideal RevertedDependency.steps
    (RevertedDependency.appStart "1" "2") (utf8 "lib") (List.mem_singleton_self _) _ completed
  have inList : (utf8 "lib", fp) ∈ depAbiFps (Session.run .plain RevertedDependency.steps).cache
      RevertedDependency.app := listed
  rw [inputs, List.mem_singleton, Prod.mk.injEq] at inList
  exact differ (by rw [isResult, inList.2])

end Rage
