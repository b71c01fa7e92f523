import Mathlib.Data.List.Find
import Rage.PackageTask

/-!
Which executions answer a lookup.  Loose runs and the shell fallback record an empty
pathset under the same weak fingerprint as the sandboxed runs.
-/

namespace Rage

namespace Session

variable (crates : Crates)

def calls (session : Session) : List RecordCall := session.ledger.log.map Recorded.call

def lastWithoutFiles (session : Session) (seen : WeakRecord) : Option (Recorded Executed) :=
  session.ledger.log.find? fun recorded =>
    recorded.call.inputs.seen crates recorded.call.fs == seen &&
      strongRecords recorded.call.fs recorded.call.pathset.reads == []

/-- Either the pathset that matches still has a file to hash, or the last execution without one
was observed. -/
def ObservedMatch (session : Session) (start : TaskStart) : Prop :=
  ∀ pathset, session.cache.firstMatch crates start.fs (start.inputs session.cache) = some pathset →
    strongRecords start.fs pathset.reads = [] →
      ∀ last, session.lastWithoutFiles crates
        ((start.inputs session.cache).seen crates start.fs) = some last →
          last.tag.observed = true

end Session

def ObservedUnchanged (written : Recorded Executed) (fs : FileSystem) : Prop :=
  written.tag.observed = true ∧ ∀ path ∈ written.call.pathset.reads,
    inNodeModules path = false → written.call.fs.presence path = fs.presence path

section

variable {crates : Crates} {session : Session} {fs : FileSystem} {inputs : WeakFpInputs}

theorem writer_eq_lastWithoutFiles (ideal : crates.Ideal)
    (framed : Framed crates session.calls fs inputs) {reads : List Path}
    (separated : ∀ call ∈ session.calls, Separated call.pathset.reads reads)
    (empty : strongRecords fs reads = []) :
    session.ledger.writer crates (computeStrongFingerprint crates fs
        (computeWeakFingerprint crates fs inputs) reads) =
      session.lastWithoutFiles crates (inputs.seen crates fs) := by
  unfold Ledger.writer Session.lastWithoutFiles
  apply List.find?_congr
  intro recorded member
  have called : recorded.call ∈ session.calls := List.mem_map_of_mem member
  rw [Bool.eq_iff_iff]
  simp only [beq_iff_eq, Bool.and_eq_true]
  constructor
  · intro same
    obtain ⟨sameInputs, records⟩ := records_of_same ideal (framed.recorded _ called)
      framed.current (separated _ called) same
    exact ⟨sameInputs, by rw [records, empty]⟩
  · rintro ⟨sameInputs, records⟩
    have weak := computeWeakFingerprint_congr crates _ _ _ _ sameInputs
    simp only [RecordCall.strongFp, RecordCall.weakFp, computeStrongFingerprint, weak, records,
      empty]

theorem observed_of_records (invariant : session.Invariant crates) {written : Recorded Executed}
    (member : written ∈ session.ledger.log)
    (records : strongRecords written.call.fs written.call.pathset.reads ≠ []) :
    written.tag.observed = true := by
  by_contra unobserved
  have noReads := invariant.attributed written member (by simpa using unobserved)
  exact records (by simp [noReads, StoredPathset.default, strongRecords, trackedReads, dedupBy])

end

/-- In any history of runs in any modes, a hit returns an observed execution whose reads are
unchanged exactly when the match is an observed one and the unhashed reads are unchanged. -/
theorem hit_observed_iff (crates : Crates) (ideal : crates.Ideal) (steps : List SessionStep)
    (start : TaskStart)
    (framed : Framed crates (Session.run crates steps).calls start.fs
      (start.inputs (Session.run crates steps).cache))
    (strongFp : Bytes) (entry : CacheEntry) (reads : List Path)
    (hit : lookupPhase crates (Session.run crates steps).cache start =
      some (strongFp, entry, reads)) :
    ∃ written, (Session.run crates steps).ledger.writer crates strongFp = some written ∧
      entry = written.call.stored crates ∧
      (ObservedUnchanged written start.fs ↔
        (Session.run crates steps).ObservedMatch crates start ∧
          UnhashedUnchanged written.call start.fs) := by
  have invariant := Session.run_invariant crates steps
  generalize Session.run crates steps = session at invariant framed hit ⊢
  obtain ⟨written, wrote, isStored, sameInputs, records, certified⟩ :=
    Ledger.hit_records ideal invariant.sound invariant.listed framed hit
  obtain ⟨first, isFirst, rfl, key⟩ := TwoPhaseCache.firstMatch_of_hit hit
  have logged := (Ledger.writer_spec wrote).1
  have listedCall : ∀ call ∈ session.calls, Separated call.pathset.reads first.reads := by
    have within : first ∈ session.cache.list _ := List.mem_of_find?_eq_some isFirst
    obtain ⟨source, sourceLogged, _, rfl⟩ := invariant.listed _ first within
    exact fun call member => framed.paths call member _ (List.mem_map_of_mem sourceLogged)
  refine ⟨written, wrote, isStored, ?_⟩
  constructor
  · rintro ⟨observed, unchanged⟩
    refine ⟨?_, fun path member outside _ => unchanged path member outside⟩
    intro pathset isMatch empty last isLast
    obtain rfl : first = pathset := by
      have same := isFirst.symm.trans isMatch
      simpa using same
    rw [key, writer_eq_lastWithoutFiles ideal framed listedCall empty, isLast] at wrote
    rw [Option.some.inj wrote]
    exact observed
  · rintro ⟨matched, unhashed⟩
    refine ⟨?_, (certified.mpr unhashed).reads⟩
    by_cases empty : strongRecords start.fs first.reads = []
    · rw [key, writer_eq_lastWithoutFiles ideal framed listedCall empty] at wrote
      exact matched first isFirst empty written wrote
    · exact observed_of_records invariant logged (by rw [records]; exact empty)

/-! A loose run, an edit of a file that its command reads, and a strict run. -/

namespace LooseThenStrict

def looseStart : TaskStart := Sample.start (Sample.task .loose []) "1"

def looseRun : Execution := .quiet (Sample.files "1") none (some 0)

def steps : List SessionStep := [.start looseStart, .finish 0 looseRun]

def strictStart : TaskStart := Sample.start (Sample.task .strict []) "2"

def recorded : RecordCall :=
  looseRun.call .plain looseStart.task (looseStart.inputs .empty) .default

theorem framed : Framed .plain (Session.run .plain steps).calls strictStart.fs
    (strictStart.inputs (Session.run .plain steps).cache) := by
  constructor
  · decide +kernel
  · decide +kernel
  · decide +kernel

theorem hit : lookupPhase .plain (Session.run .plain steps).cache strictStart =
    some (recorded.strongFp .plain, recorded.stored .plain, []) := by
  decide +kernel

theorem unobserved : ∀ written ∈ (Session.run .plain steps).ledger.log,
    written.tag.observed = false := by
  decide +kernel

end LooseThenStrict

theorem hit_observed_looseThenStrict :
    ∃ written, (Session.run .plain LooseThenStrict.steps).ledger.writer .plain
        (LooseThenStrict.recorded.strongFp .plain) = some written ∧
      LooseThenStrict.recorded.stored .plain = written.call.stored .plain ∧
      (ObservedUnchanged written LooseThenStrict.strictStart.fs ↔
        (Session.run .plain LooseThenStrict.steps).ObservedMatch .plain
            LooseThenStrict.strictStart ∧
          UnhashedUnchanged written.call LooseThenStrict.strictStart.fs) :=
  hit_observed_iff .plain Crates.plain_ideal LooseThenStrict.steps LooseThenStrict.strictStart
    LooseThenStrict.framed _ _ _ LooseThenStrict.hit

/-- A strict run is served the entry of a loose one. -/
theorem strict_hit_unobserved :
    ¬ ∀ (crates : Crates), crates.Ideal → ∀ (steps : List SessionStep) (start : TaskStart),
      start.task.sandboxMode ≠ .loose →
      Framed crates (Session.run crates steps).calls start.fs
        (start.inputs (Session.run crates steps).cache) →
      ∀ (strongFp : Bytes) (entry : CacheEntry) (reads : List Path),
      lookupPhase crates (Session.run crates steps).cache start = some (strongFp, entry, reads) →
      ∃ written, (Session.run crates steps).ledger.writer crates strongFp = some written ∧
        entry = written.call.stored crates ∧ ObservedUnchanged written start.fs := by
  intro claimed
  obtain ⟨written, wrote, _, observed, _⟩ := claimed .plain Crates.plain_ideal
    LooseThenStrict.steps LooseThenStrict.strictStart (by decide) LooseThenStrict.framed _ _ _
    LooseThenStrict.hit
  have unobserved := LooseThenStrict.unobserved written (Ledger.writer_spec wrote).1
  rw [unobserved] at observed
  exact absurd observed (by decide)

end Rage
