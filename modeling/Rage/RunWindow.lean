import Rage.Observation

/-!
The window of a run.  `record` computes both fingerprints from the disk after the command
has finished, while the result comes from what the command read before.
-/

namespace Rage

/-- What the execution read has the fingerprints that its entry is stored under. -/
structure Keyed (crates : Crates) (written : Recorded Executed) (strongFp : Bytes) : Prop where
  weak : computeWeakFingerprint crates written.tag.seen written.call.inputs =
    written.call.weakFp crates
  strong : computeStrongFingerprint crates written.tag.seen
    (computeWeakFingerprint crates written.tag.seen written.call.inputs)
    written.call.pathset.reads = strongFp

/-- At the record, the declared inputs, the tool and the files among the observed reads are as
the execution read them. -/
structure Undisturbed (crates : Crates) (written : Recorded Executed) : Prop where
  inputs : written.call.inputs.seen crates written.tag.seen =
    written.call.inputs.seen crates written.call.fs
  reads : strongRecords written.tag.seen written.call.pathset.reads =
    strongRecords written.call.fs written.call.pathset.reads

/-- The execution processed the inputs that a lookup through `reads` asks for. -/
structure Processed (crates : Crates) (written : Recorded Executed) (fs : FileSystem)
    (inputs : WeakFpInputs) (reads : List Path) : Prop where
  inputs : written.call.inputs.seen crates written.tag.seen = inputs.seen crates fs
  reads : strongRecords written.tag.seen written.call.pathset.reads = strongRecords fs reads

structure FramedWindows (crates : Crates) (session : Session) : Prop where
  recorded : ∀ recorded ∈ session.ledger.log,
    (recorded.call.inputs.seen crates recorded.call.fs).Plain
  seen : ∀ recorded ∈ session.ledger.log,
    (recorded.call.inputs.seen crates recorded.tag.seen).Plain
  paths : ∀ call ∈ session.calls, ∀ other ∈ session.calls,
    Separated call.pathset.reads other.pathset.reads

section

variable {crates : Crates} {written : Recorded Executed}

theorem keyed_of_undisturbed (undisturbed : Undisturbed crates written) :
    Keyed crates written (written.call.strongFp crates) := by
  have weak := computeWeakFingerprint_congr crates _ _ _ _ undisturbed.inputs
  refine ⟨weak, ?_⟩
  simp only [RecordCall.strongFp, RecordCall.weakFp, weak, computeStrongFingerprint,
    undisturbed.reads]

theorem undisturbed_of_keyed (ideal : crates.Ideal)
    (plain : (written.call.inputs.seen crates written.call.fs).Plain)
    (seenPlain : (written.call.inputs.seen crates written.tag.seen).Plain)
    (separated : Separated written.call.pathset.reads written.call.pathset.reads)
    (keyed : Keyed crates written (written.call.strongFp crates)) : Undisturbed crates written where
  inputs := computeWeakFingerprint_injective crates ideal _ _ _ _ seenPlain plain keyed.weak
  reads := (computeStrongFingerprint_injective crates ideal _ _ _ _ _ _ separated keyed.strong).2

theorem processed_iff {fs : FileSystem} {inputs : WeakFpInputs} {reads : List Path}
    (sameInputs : written.call.inputs.seen crates written.call.fs = inputs.seen crates fs)
    (records : strongRecords written.call.fs written.call.pathset.reads = strongRecords fs reads) :
    Processed crates written fs inputs reads ↔ Undisturbed crates written := by
  constructor
  · intro processed
    exact ⟨by rw [processed.inputs, sameInputs], by rw [processed.reads, records]⟩
  · intro undisturbed
    exact ⟨by rw [undisturbed.inputs, sameInputs], by rw [undisturbed.reads, records]⟩

end

/-- In any interleaving of runs and edits, an entry is keyed by what its execution read, and its
hits ask for what that execution processed, exactly when nothing disturbed the window. -/
theorem entry_keyed_iff (crates : Crates) (ideal : crates.Ideal) (steps : List SessionStep)
    (framed : FramedWindows crates (Session.run crates steps)) (strongFp : Bytes)
    (entry : CacheEntry)
    (stored : (Session.run crates steps).cache.entryFiles strongFp = some entry) :
    ∃ written, (Session.run crates steps).ledger.writer crates strongFp = some written ∧
      entry = written.call.stored crates ∧
      (Keyed crates written strongFp ↔ Undisturbed crates written) ∧
      ∀ (start : TaskStart) (reads : List Path),
        ((start.inputs (Session.run crates steps).cache).seen crates start.fs).Plain →
        lookupPhase crates (Session.run crates steps).cache start =
          some (strongFp, entry, reads) →
        (Processed crates written start.fs (start.inputs (Session.run crates steps).cache) reads ↔
          Undisturbed crates written) := by
  have invariant := Session.run_invariant crates steps
  generalize Session.run crates steps = session at invariant framed stored ⊢
  obtain ⟨written, wrote, isStored⟩ := invariant.sound strongFp entry stored
  obtain ⟨logged, key⟩ := Ledger.writer_spec wrote
  have called : written.call ∈ session.calls := List.mem_map_of_mem logged
  refine ⟨written, wrote, isStored, ⟨?_, ?_⟩, ?_⟩
  · intro keyed
    exact undisturbed_of_keyed ideal (framed.recorded _ logged) (framed.seen _ logged)
      (framed.paths _ called _ called) (key ▸ keyed)
  · intro undisturbed
    exact key ▸ keyed_of_undisturbed undisturbed
  · intro start reads plain hit
    have framedHit : Framed crates session.calls start.fs (start.inputs session.cache) := by
      refine ⟨?_, plain, framed.paths⟩
      intro call member
      obtain ⟨recorded, within, rfl⟩ := List.mem_map.mp member
      exact framed.recorded recorded within
    obtain ⟨other, otherWrote, _, sameInputs, records, _⟩ :=
      Ledger.hit_records ideal invariant.sound invariant.listed framedHit hit
    obtain rfl : other = written := by
      have same := otherWrote.symm.trans wrote
      simpa using same
    exact processed_iff sameInputs records

/-! An edit of a declared input while the command is running. -/

namespace EditedWhileRunning

def start : TaskStart := Sample.start (Sample.task .strict [utf8 "a.ts"]) "1"

def exec : Execution where
  sandbox := some ⟨0, [Sample.source], []⟩
  shell := none
  window := [Sample.files "1", Sample.files "2"]
  seen := Sample.files "1"
  genuine := fun _ => ⟨Sample.files "1", List.mem_cons_self .., rfl⟩
  recordFs := Sample.files "2"
  elapsedMs := 0
  cachedAt := 0

def steps : List SessionStep := [.start start, .finish 0 exec]

def recorded : RecordCall :=
  exec.call .plain start.task (start.inputs .empty) ⟨[Sample.source], []⟩

theorem framed : FramedWindows .plain (Session.run .plain steps) := by
  constructor
  · decide +kernel
  · decide +kernel
  · decide +kernel

theorem stored : (Session.run .plain steps).cache.entryFiles (recorded.strongFp .plain) =
    some (recorded.stored .plain) := by
  decide +kernel

theorem disturbed : ∀ written ∈ (Session.run .plain steps).ledger.log,
    written.call.inputs.seen .plain written.tag.seen ≠
      written.call.inputs.seen .plain written.call.fs := by
  decide +kernel

end EditedWhileRunning

theorem entry_keyed_editedWhileRunning :
    ∃ written, (Session.run .plain EditedWhileRunning.steps).ledger.writer .plain
        (EditedWhileRunning.recorded.strongFp .plain) = some written ∧
      EditedWhileRunning.recorded.stored .plain = written.call.stored .plain ∧
      (Keyed .plain written (EditedWhileRunning.recorded.strongFp .plain) ↔
        Undisturbed .plain written) ∧
      ∀ (start : TaskStart) (reads : List Path),
        ((start.inputs (Session.run .plain EditedWhileRunning.steps).cache).seen .plain
          start.fs).Plain →
        lookupPhase .plain (Session.run .plain EditedWhileRunning.steps).cache start =
          some (EditedWhileRunning.recorded.strongFp .plain,
            EditedWhileRunning.recorded.stored .plain, reads) →
        (Processed .plain written start.fs
            (start.inputs (Session.run .plain EditedWhileRunning.steps).cache) reads ↔
          Undisturbed .plain written) :=
  entry_keyed_iff .plain Crates.plain_ideal EditedWhileRunning.steps EditedWhileRunning.framed
    _ _ EditedWhileRunning.stored

/-- The entry of the old content is stored under the fingerprint of the new one. -/
theorem entry_not_keyed :
    ¬ ∀ (crates : Crates), crates.Ideal → ∀ (steps : List SessionStep),
      FramedWindows crates (Session.run crates steps) →
      ∀ (strongFp : Bytes) (entry : CacheEntry),
      (Session.run crates steps).cache.entryFiles strongFp = some entry →
      ∃ written, (Session.run crates steps).ledger.writer crates strongFp = some written ∧
        entry = written.call.stored crates ∧ Keyed crates written strongFp := by
  intro claimed
  obtain ⟨written, wrote, _, keyed⟩ := claimed .plain Crates.plain_ideal EditedWhileRunning.steps
    EditedWhileRunning.framed _ _ EditedWhileRunning.stored
  have logged := (Ledger.writer_spec wrote).1
  have disturbed := EditedWhileRunning.disturbed written logged
  have sameInputs := computeWeakFingerprint_injective .plain Crates.plain_ideal _ _ _ _
    (EditedWhileRunning.framed.seen written logged)
    (EditedWhileRunning.framed.recorded written logged) keyed.weak
  exact disturbed sameInputs

end Rage
