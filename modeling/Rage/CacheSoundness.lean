import Rage.TwoPhaseCache

/-!
What a hit certifies.  A run of record calls on a changing file system is replayed
from an empty cache; a lookup then returns the entry of some earlier call, and the
question is what that call and the present have in common.
-/

namespace Rage

/-- The present gives a call the inputs it had, and what it read is as it found it. -/
structure Certified (crates : Crates) (call : RecordCall) (fs : FileSystem)
    (inputs : WeakFpInputs) : Prop where
  inputs : call.inputs.seen crates call.fs = inputs.seen crates fs
  reads : ∀ path ∈ call.pathset.reads, inNodeModules path = false →
    call.fs.presence path = fs.presence path

/-! The strong fingerprint says nothing about a read that was not a readable regular file when
it was recorded, and takes an unreadable file for an empty one. -/

def Unhashed (call : RecordCall) (fs : FileSystem) (path : Path) : Prop :=
  call.fs.read path = none ∨ (fs.isFile path = true ∧ fs.read path = none)

def UnhashedUnchanged (call : RecordCall) (fs : FileSystem) : Prop :=
  ∀ path ∈ call.pathset.reads, inNodeModules path = false → Unhashed call fs path →
    call.fs.presence path = fs.presence path

section Certificate

variable {crates : Crates} {call : RecordCall} {fs : FileSystem} {inputs : WeakFpInputs}
  {reads : List Path}

theorem records_of_same (ideal : crates.Ideal)
    (plain : (call.inputs.seen crates call.fs).Plain) (currentPlain : (inputs.seen crates fs).Plain)
    (separated : Separated call.pathset.reads reads)
    (same : call.strongFp crates =
      computeStrongFingerprint crates fs (computeWeakFingerprint crates fs inputs) reads) :
    call.inputs.seen crates call.fs = inputs.seen crates fs ∧
      strongRecords call.fs call.pathset.reads = strongRecords fs reads := by
  obtain ⟨weak, records⟩ :=
    computeStrongFingerprint_injective crates ideal _ _ _ _ _ _ separated same
  exact ⟨computeWeakFingerprint_injective crates ideal _ _ _ _ plain currentPlain weak, records⟩

theorem content_of_records (records : strongRecords call.fs call.pathset.reads =
      strongRecords fs reads) {path : Path} (member : path ∈ call.pathset.reads)
    (outside : inNodeModules path = false) {content : Bytes}
    (found : call.fs.read path = some content) :
    fs.isFile path = true ∧ (fs.read path).getD [] = content := by
  obtain ⟨record, recorded, spelled, value⟩ :=
    strongRecords_covers member outside (isFile_of_read found)
  rw [records] at recorded
  obtain ⟨_, file, current⟩ := mem_strongRecords.mp recorded
  have status := stat_congr fs spelled
  constructor
  · simpa [FileSystem.isFile, status] using file
  · rw [found, Option.getD_some] at value
    rw [← value, current]
    simp [FileSystem.read, status]

theorem certified_iff (ideal : crates.Ideal)
    (plain : (call.inputs.seen crates call.fs).Plain) (currentPlain : (inputs.seen crates fs).Plain)
    (separated : Separated call.pathset.reads reads)
    (same : call.strongFp crates =
      computeStrongFingerprint crates fs (computeWeakFingerprint crates fs inputs) reads) :
    Certified crates call fs inputs ↔ UnhashedUnchanged call fs := by
  obtain ⟨sameInputs, records⟩ := records_of_same ideal plain currentPlain separated same
  constructor
  · intro certified path member outside _
    exact certified.reads path member outside
  · intro unchanged
    refine ⟨sameInputs, fun path member outside => ?_⟩
    cases before : call.fs.read path with
    | none => exact unchanged path member outside (Or.inl before)
    | some content =>
        obtain ⟨file, current⟩ := content_of_records records member outside before
        cases now : fs.read path with
        | none => exact unchanged path member outside (Or.inr ⟨file, now⟩)
        | some bytes =>
            rw [now, Option.getD_some] at current
            rw [presence_of_read before, presence_of_read now, current]

end Certificate

/-! Replaying a run of record calls. -/

namespace Ledger

variable {τ : Type} (crates : Crates)

def replay (calls : List (Recorded τ)) : Ledger τ :=
  calls.foldl (fun ledger recorded => ledger.record crates recorded.call recorded.tag) empty

def Listed (ledger : Ledger τ) : Prop :=
  ∀ weakFp, ∀ pathset ∈ ledger.cache.list weakFp,
    ∃ recorded ∈ ledger.log, recorded.call.weakFp crates = weakFp ∧
      recorded.call.pathset = pathset

variable {crates}

theorem empty_listed : (empty : Ledger τ).Listed crates := by
  intro weakFp pathset member
  simp [empty, TwoPhaseCache.empty, TwoPhaseCache.list] at member

theorem log_record (crates : Crates) (ledger : Ledger τ) (call : RecordCall) (tag : τ) :
    (ledger.record crates call tag).log = ledger.log ∨
      (ledger.record crates call tag).log = ⟨call, tag⟩ :: ledger.log := by
  unfold record
  split
  · exact Or.inl rfl
  · exact Or.inr rfl

theorem record_listed {ledger : Ledger τ} (listed : ledger.Listed crates) (call : RecordCall)
    (tag : τ) : (ledger.record crates call tag).Listed crates := by
  unfold record
  split
  · exact listed
  · rename_i strongFp written done
    obtain ⟨_, _, _, lists⟩ := TwoPhaseCache.record_cases done
    intro weakFp pathset member
    rcases lists weakFp pathset member with old | ⟨rfl, rfl⟩
    · obtain ⟨recorded, logged, facts⟩ := listed weakFp pathset old
      exact ⟨recorded, List.mem_cons_of_mem _ logged, facts⟩
    · exact ⟨⟨call, tag⟩, List.mem_cons_self .., rfl, rfl⟩

theorem replay_invariant (crates : Crates) (calls : List (Recorded τ)) :
    (replay crates calls).Sound crates ∧ (replay crates calls).Listed crates ∧
      ∀ recorded ∈ (replay crates calls).log, recorded ∈ calls := by
  refine List.foldlRecOn calls _ (motive := fun ledger : Ledger τ => ledger.Sound crates ∧
    ledger.Listed crates ∧ ∀ recorded ∈ ledger.log, recorded ∈ calls) ?_ ?_
  · exact ⟨empty_sound, empty_listed, by simp [empty]⟩
  · rintro ledger ⟨sound, listed, logged⟩ recorded member
    refine ⟨record_sound sound _ _, record_listed listed _ _, ?_⟩
    intro other within
    rcases log_record crates ledger recorded.call recorded.tag with same | longer
    · exact logged other (same ▸ within)
    · rw [longer] at within
      rcases List.mem_cons.mp within with rfl | older
      · exact member
      · exact logged other older

end Ledger

section Lookup

variable (crates : Crates)

/-! The texts under the two hashes are unambiguous for a run and a lookup after it. -/

structure Framed (calls : List RecordCall) (fs : FileSystem) (inputs : WeakFpInputs) : Prop where
  recorded : ∀ call ∈ calls, (call.inputs.seen crates call.fs).Plain
  current : (inputs.seen crates fs).Plain
  paths : ∀ call ∈ calls, ∀ other ∈ calls, Separated call.pathset.reads other.pathset.reads

variable {crates}

theorem Framed.mono {calls logged : List RecordCall} {fs : FileSystem} {inputs : WeakFpInputs}
    (framed : Framed crates calls fs inputs) (within : ∀ call ∈ logged, call ∈ calls) :
    Framed crates logged fs inputs where
  recorded := fun call member => framed.recorded call (within call member)
  current := framed.current
  paths := fun call member other others =>
    framed.paths call (within call member) other (within other others)

theorem Ledger.hit_records {τ : Type} {ledger : Ledger τ} (ideal : crates.Ideal)
    (sound : ledger.Sound crates) (listed : ledger.Listed crates) {fs : FileSystem}
    {inputs : WeakFpInputs} (framed : Framed crates (ledger.log.map Recorded.call) fs inputs)
    {strongFp : Bytes} {entry : CacheEntry} {reads : List Path}
    (hit : ledger.cache.lookupWithPathsetReads crates fs inputs = some (strongFp, entry, reads)) :
    ∃ written, ledger.writer crates strongFp = some written ∧
      entry = written.call.stored crates ∧
      written.call.inputs.seen crates written.call.fs = inputs.seen crates fs ∧
      strongRecords written.call.fs written.call.pathset.reads = strongRecords fs reads ∧
      (Certified crates written.call fs inputs ↔ UnhashedUnchanged written.call fs) := by
  obtain ⟨written, pathset, wrote, isStored, within, rfl, same⟩ := lookup_written sound hit
  obtain ⟨source, sourceLogged, _, rfl⟩ := listed _ pathset within
  have writtenCall := List.mem_map_of_mem (f := Recorded.call) (writer_spec wrote).1
  have sourceCall := List.mem_map_of_mem (f := Recorded.call) sourceLogged
  have plain := framed.recorded _ writtenCall
  have separated := framed.paths _ writtenCall _ sourceCall
  obtain ⟨sameInputs, records⟩ := records_of_same ideal plain framed.current separated same
  exact ⟨written, wrote, isStored, sameInputs, records,
    certified_iff ideal plain framed.current separated same⟩

variable (crates)

def recordAll (calls : List RecordCall) : Ledger Unit :=
  Ledger.replay crates (calls.map fun call => ⟨call, ()⟩)

variable {crates} in
theorem recordAll_calls {calls : List RecordCall} {recorded : Recorded Unit}
    (member : recorded ∈ (recordAll crates calls).log) : recorded.call ∈ calls := by
  have logged := (Ledger.replay_invariant crates _).2.2 recorded member
  obtain ⟨call, within, rfl⟩ := List.mem_map.mp logged
  exact within

/-- A hit certifies the call that wrote its entry exactly when the reads that the strong
fingerprint leaves out are unchanged. -/
theorem lookup_certifies_iff (ideal : crates.Ideal) (calls : List RecordCall) (fs : FileSystem)
    (inputs : WeakFpInputs) (framed : Framed crates calls fs inputs)
    (strongFp : Bytes) (entry : CacheEntry) (reads : List Path)
    (hit : (recordAll crates calls).cache.lookupWithPathsetReads crates fs inputs =
      some (strongFp, entry, reads)) :
    ∃ written, (recordAll crates calls).writer crates strongFp = some written ∧
      entry = written.call.stored crates ∧
      (Certified crates written.call fs inputs ↔ UnhashedUnchanged written.call fs) := by
  obtain ⟨sound, listed, _⟩ := Ledger.replay_invariant crates
    (calls.map fun call => (⟨call, ()⟩ : Recorded Unit))
  have within : ∀ call ∈ (recordAll crates calls).log.map Recorded.call, call ∈ calls := by
    intro call member
    obtain ⟨recorded, logged, rfl⟩ := List.mem_map.mp member
    exact recordAll_calls logged
  obtain ⟨written, wrote, isStored, _, _, certified⟩ :=
    Ledger.hit_records ideal sound listed (framed.mono within) hit
  exact ⟨written, wrote, isStored, certified⟩

end Lookup

/-! Two runs of one task, and a file that the second one looked for appears afterwards. -/

namespace AbsentRead

def source : Path := utf8 "/ws/app/a.ts"

def optional : Path := utf8 "/ws/app/b.ts"

def inputs : WeakFpInputs where
  command := utf8 "tsc"
  toolPath := utf8 "sh"
  packagePath := utf8 "/ws/app"
  declaredInputGlobs := []
  trackedEnv := []
  depAbiFingerprints := []

def before : FileSystem := ⟨[(components source, ⟨.file (utf8 "1") true, false⟩)]⟩

def after : FileSystem :=
  ⟨[(components source, ⟨.file (utf8 "1") true, false⟩),
    (components optional, ⟨.file (utf8 "2") true, false⟩)]⟩

def run (reads : List Path) : RecordCall where
  inputs := inputs
  fs := before
  pathset := ⟨reads, []⟩
  entryTemplate := ⟨[], utf8 "tsc", 0, 0, 0, [], none⟩

def calls : List RecordCall := [run [source], run [source, optional]]

theorem framed : Framed .plain calls after inputs := by
  constructor
  · decide +kernel
  · decide +kernel
  · decide +kernel

theorem hit : (recordAll .plain calls).cache.lookupWithPathsetReads .plain after inputs =
    some ((run [source, optional]).strongFp .plain, (run [source, optional]).stored .plain,
      [source]) := by
  decide +kernel

end AbsentRead

theorem lookup_certifies_absentRead :
    ∃ written, (recordAll .plain AbsentRead.calls).writer .plain
        ((AbsentRead.run [AbsentRead.source, AbsentRead.optional]).strongFp .plain) =
          some written ∧
      (AbsentRead.run [AbsentRead.source, AbsentRead.optional]).stored .plain =
        written.call.stored .plain ∧
      (Certified .plain written.call AbsentRead.after AbsentRead.inputs ↔
        UnhashedUnchanged written.call AbsentRead.after) :=
  lookup_certifies_iff .plain Crates.plain_ideal AbsentRead.calls AbsentRead.after
    AbsentRead.inputs AbsentRead.framed _ _ _ AbsentRead.hit

/-- The lookup through the pathset without the optional file returns the entry of the run that
found it missing. -/
theorem lookup_returns_stale_entry :
    ¬ ∀ (crates : Crates), crates.Ideal → ∀ (calls : List RecordCall) (fs : FileSystem)
      (inputs : WeakFpInputs), Framed crates calls fs inputs →
      ∀ (strongFp : Bytes) (entry : CacheEntry) (reads : List Path),
      (recordAll crates calls).cache.lookupWithPathsetReads crates fs inputs =
        some (strongFp, entry, reads) →
      ∃ written, (recordAll crates calls).writer crates strongFp = some written ∧
        entry = written.call.stored crates ∧ Certified crates written.call fs inputs := by
  intro claimed
  obtain ⟨written, wrote, isStored, certified⟩ := claimed .plain Crates.plain_ideal
    AbsentRead.calls AbsentRead.after AbsentRead.inputs AbsentRead.framed _ _ _ AbsentRead.hit
  have reads : [AbsentRead.source, AbsentRead.optional] = written.call.pathset.reads :=
    congrArg CacheEntry.pathsetReads isStored
  have logged := recordAll_calls (Ledger.writer_spec wrote).1
  have sameFs : written.call.fs = AbsentRead.before := by
    simp only [AbsentRead.calls, List.mem_cons, List.not_mem_nil, or_false] at logged
    rcases logged with first | second
    · rw [first, AbsentRead.run]
    · rw [second, AbsentRead.run]
  have unchanged := certified.reads AbsentRead.optional (by simp [← reads]) (by decide)
  rw [sameFs] at unchanged
  exact absurd unchanged (by decide)

end Rage
