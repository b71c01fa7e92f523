import Mathlib.Data.List.Induction
import Rage.PackageTask
import Rage.Utf8Text

/-!
The output that a hit prints.  It has a file of its own for each strong fingerprint, written after
the entry, with what the plain shell was heard to print; a sandboxed command prints past it.
-/

namespace Rage

structure Streams where
  stdout : Bytes
  stderr : Bytes
  deriving DecidableEq

def Streams.none : Streams := ⟨[], []⟩

/-- `String::from_utf8_lossy` on both. -/
def Streams.lossy (streams : Streams) : Streams :=
  ⟨toStringLossy streams.stdout, toStringLossy streams.stderr⟩

structure TaskOutput where
  stdout : Bytes
  stderr : Bytes
  exitCode : Int
  deriving DecidableEq

/-- Two processes print to one terminal. -/
inductive Interleaved : Bytes → Bytes → Bytes → Prop
  | nil : Interleaved [] [] []
  | first (byte : UInt8) {one other both : Bytes} (rest : Interleaved one other both) :
      Interleaved (byte :: one) other (byte :: both)
  | second (byte : UInt8) {one other both : Bytes} (rest : Interleaved one other both) :
      Interleaved one (byte :: other) (byte :: both)

/-- What the copies of a command print: one that was sandboxed, one that the plain shell ran. -/
structure Talk where
  sandboxed : Streams
  shell : Streams
  printed : Streams
  stdout : Interleaved sandboxed.stdout shell.stdout printed.stdout
  stderr : Interleaved sandboxed.stderr shell.stderr printed.stderr

/-- An execution and what it printed; it is observed when `run_sandboxed` has a result. -/
structure Spoken where
  observed : Bool
  talk : Talk

/-- `captured_stdout` and `captured_stderr`, before they become text. -/
def Spoken.captured (spoken : Spoken) : Streams :=
  if spoken.observed then .none else spoken.talk.shell

def Spoken.output (spoken : Spoken) : TaskOutput where
  stdout := spoken.captured.lossy.stdout
  stderr := spoken.captured.lossy.stderr
  exitCode := 0

/-- A call of `write_output` that is under way; `opened` once the file is truncated. -/
structure Writing where
  strongFp : Bytes
  spoken : Spoken
  opened : Bool

/-- The cache directory over many runs.  An output file that does not parse is `some none`;
`lastWrite` remembers which execution each file was last written by. -/
structure Replays where
  ledger : Ledger Spoken
  outputs : Bytes → Option (Option TaskOutput)
  writing : List Writing
  lastWrite : Bytes → Option (Option Spoken)

inductive ReplayStep
  | newRun
  | finish (task : Task) (inputs : WeakFpInputs) (exec : Execution) (talk : Talk)
  | refuse (index : Nat)
  | truncate (index : Nat)
  | write (index : Nat) (whole : Bool)

namespace Replays

def empty : Replays where
  ledger := .empty
  outputs := fun _ => none
  writing := []
  lastWrite := fun _ => none

def setOutput (replays : Replays) (strongFp : Bytes) (spoken : Option Spoken) : Replays :=
  { replays with
    outputs := Function.update replays.outputs strongFp (some (spoken.map Spoken.output))
    lastWrite := Function.update replays.lastWrite strongFp (some spoken) }

section Step

variable (crates : Crates)

/-- A command that succeeds is recorded, and where that works its output is to be written. -/
def finishTask (replays : Replays) (task : Task) (inputs : WeakFpInputs) (exec : Execution)
    (talk : Talk) : Replays :=
  match exec.result task.sandboxMode with
  | none => replays
  | some (exitCode, pathset) =>
      if exitCode = 0 then
        let published := { replays.ledger with
          cache := publishAbi replays.ledger.cache task (exec.abiFp crates task) }
        let call := exec.call crates task inputs pathset
        let spoken : Spoken := ⟨exec.observed task.sandboxMode, talk⟩
        { replays with
          ledger := published.record crates call spoken
          writing :=
            match published.cache.record crates call.fs call.inputs call.pathset
              call.entryTemplate with
            | some (strongFp, _) =>
                if strongFp.isEmpty then replays.writing
                else replays.writing ++ [⟨strongFp, spoken, false⟩]
            | none => replays.writing }
      else replays

/-- `write_output` opens its file, which truncates it, and writes; either can fail, silently. -/
def step (replays : Replays) : ReplayStep → Replays
  | .newRun => { replays with writing := [] }
  | .finish task inputs exec talk => replays.finishTask crates task inputs exec talk
  | .refuse index =>
      match replays.writing[index]? with
      | some ⟨_, _, false⟩ => { replays with writing := replays.writing.eraseIdx index }
      | _ => replays
  | .truncate index =>
      match replays.writing[index]? with
      | some ⟨strongFp, spoken, false⟩ =>
          { replays.setOutput strongFp none with
            writing := replays.writing.set index ⟨strongFp, spoken, true⟩ }
      | _ => replays
  | .write index whole =>
      match replays.writing[index]? with
      | some ⟨strongFp, spoken, true⟩ =>
          { replays.setOutput strongFp (if whole then some spoken else none) with
            writing := replays.writing.eraseIdx index }
      | _ => replays

def run (steps : List ReplayStep) : Replays := steps.foldl (step crates) empty

end Step

/-- `read_output`, and what is printed of it. -/
def replay (replays : Replays) (strongFp : Bytes) : Streams :=
  match replays.outputs strongFp with
  | some (some output) => ⟨output.stdout, output.stderr⟩
  | _ => .none

end Replays

/-- The file was last written by an execution whose shell was heard to print what the last one
printed, or nothing was printed and nothing is there to be read. -/
inductive Spoken.CoveredBy (last : Spoken) : Option (Option Spoken) → Prop
  | heard (writer : Spoken) (byShell : writer.observed = false)
      (same : writer.talk.shell.lossy = last.talk.printed.lossy) : CoveredBy last (some (some writer))
  | silent (writer : Spoken) (bySandbox : writer.observed = true)
      (nothing : last.talk.printed = .none) : CoveredBy last (some (some writer))
  | unread (nothing : last.talk.printed = .none) : CoveredBy last (some none)
  | missing (nothing : last.talk.printed = .none) : CoveredBy last none

theorem Interleaved.eq_of_nil {other both : Bytes} (merged : Interleaved [] other both) :
    both = other := by
  generalize noneFirst : ([] : Bytes) = one at merged
  induction merged with
  | nil => rfl
  | first byte rest ih => exact absurd noneFirst (by simp)
  | second byte rest ih => rw [ih noneFirst]

theorem Interleaved.only_second (bytes : Bytes) : Interleaved [] bytes bytes := by
  induction bytes with
  | nil => exact .nil
  | cons byte rest ih => exact .second byte ih

theorem Interleaved.only_first (bytes : Bytes) : Interleaved bytes [] bytes := by
  induction bytes with
  | nil => exact .nil
  | cons byte rest ih => exact .first byte ih

/-- An execution that only the plain shell ran is covered by its own file. -/
theorem Spoken.covers_itself {spoken : Spoken} (byShell : spoken.observed = false)
    (alone : spoken.talk.sandboxed = .none) : spoken.CoveredBy (some (some spoken)) := by
  refine .heard spoken byShell ?_
  have stdout := spoken.talk.stdout
  have stderr := spoken.talk.stderr
  rw [alone] at stdout stderr
  unfold Streams.lossy
  rw [stdout.eq_of_nil, stderr.eq_of_nil]

namespace Replays

theorem lossy_none : Streams.none.lossy = .none := rfl

theorem lossy_eq_none {streams : Streams} : streams.lossy = .none ↔ streams = .none := by
  constructor
  · intro empty
    obtain ⟨stdout, stderr⟩ := streams
    obtain ⟨noStdout, noStderr⟩ := Streams.mk.inj empty
    have isNil {bytes : Bytes} (none_ : toStringLossy bytes = []) : bytes = [] := by
      by_contra filled
      exact toStringLossy_ne_nil filled none_
    exact congrArg₂ Streams.mk (isNil noStdout) (isNil noStderr)
  · rintro rfl
    rfl

/-! What holds in every reachable state. -/

structure Invariant (crates : Crates) (replays : Replays) : Prop where
  sound : replays.ledger.Sound crates
  written : ∀ strongFp, replays.outputs strongFp =
    (replays.lastWrite strongFp).map (Option.map Spoken.output)

variable {crates : Crates}

theorem setOutput_written {replays : Replays} (written : ∀ strongFp, replays.outputs strongFp =
      (replays.lastWrite strongFp).map (Option.map Spoken.output)) (own : Bytes)
    (spoken : Option Spoken) (strongFp : Bytes) :
    (replays.setOutput own spoken).outputs strongFp =
      ((replays.setOutput own spoken).lastWrite strongFp).map (Option.map Spoken.output) := by
  unfold setOutput
  by_cases same : strongFp = own
  · subst same
    simp
  · simp only [Function.update_of_ne same]
    exact written strongFp

theorem publish_sound {ledger : Ledger Spoken} (sound : ledger.Sound crates) (task : Task)
    (abiFp : Option Bytes) :
    ({ ledger with cache := publishAbi ledger.cache task abiFp } : Ledger Spoken).Sound crates := by
  refine sound.weaken rfl ?_
  intro strongFp entry stored
  cases abiFp with
  | none => exact stored
  | some fp => exact stored

theorem step_invariant {replays : Replays} (invariant : replays.Invariant crates)
    (next : ReplayStep) : (replays.step crates next).Invariant crates := by
  cases next with
  | newRun => exact ⟨invariant.sound, invariant.written⟩
  | finish task inputs exec talk =>
      simp only [step, finishTask]
      split
      · exact invariant
      · split
        · exact ⟨Ledger.record_sound (publish_sound invariant.sound task _) _ _, invariant.written⟩
        · exact invariant
  | refuse index =>
      simp only [step]
      split
      · exact ⟨invariant.sound, invariant.written⟩
      · exact invariant
  | truncate index =>
      simp only [step]
      split
      · exact ⟨invariant.sound, setOutput_written invariant.written _ _⟩
      · exact invariant
  | write index whole =>
      simp only [step]
      split
      · exact ⟨invariant.sound, setOutput_written invariant.written _ _⟩
      · exact invariant

theorem run_invariant (crates : Crates) (steps : List ReplayStep) :
    (run crates steps).Invariant crates := by
  have initial : empty.Invariant crates := ⟨Ledger.empty_sound, fun _ => rfl⟩
  exact Runs.invariant_final (fun replays : Replays => replays.Invariant crates)
    (fun _ next invariant => step_invariant invariant next) steps initial

/-! The log only grows. -/

theorem step_log (crates : Crates) (replays : Replays) (next : ReplayStep) :
    ∃ newer, (replays.step crates next).ledger.log = newer ++ replays.ledger.log := by
  cases next with
  | newRun => exact ⟨[], rfl⟩
  | finish task inputs exec talk =>
      simp only [step, finishTask]
      split
      · exact ⟨[], rfl⟩
      · split
        · rename_i exitCode pathset _ _
          rcases Ledger.log_record crates { replays.ledger with
            cache := publishAbi replays.ledger.cache task (exec.abiFp crates task) }
            (exec.call crates task inputs pathset) ⟨exec.observed task.sandboxMode, talk⟩
            with same | longer
          · exact ⟨[], same⟩
          · exact ⟨[_], longer⟩
        · exact ⟨[], rfl⟩
  | refuse index =>
      simp only [step]
      split
      · exact ⟨[], rfl⟩
      · exact ⟨[], rfl⟩
  | truncate index =>
      simp only [step]
      split
      · exact ⟨[], rfl⟩
      · exact ⟨[], rfl⟩
  | write index whole =>
      simp only [step]
      split
      · exact ⟨[], rfl⟩
      · exact ⟨[], rfl⟩

theorem run_log (crates : Crates) (history later : List ReplayStep) :
    ∃ newer, (run crates (history ++ later)).ledger.log =
      newer ++ (run crates history).ledger.log := by
  induction later using List.reverseRecOn with
  | nil => exact ⟨[], by simp⟩
  | append_singleton later last ih =>
      obtain ⟨newer, grown⟩ := ih
      obtain ⟨newest, isStep⟩ := step_log crates (run crates (history ++ later)) last
      refine ⟨newest ++ newer, ?_⟩
      rw [List.append_assoc, ← grown, ← isStep, ← List.append_assoc history]
      simp [run]

theorem writer_kept (crates : Crates) {history : List ReplayStep} (later : List ReplayStep)
    {strongFp : Bytes} {recorded : Recorded Spoken}
    (wrote : (run crates history).ledger.writer crates strongFp = some recorded) :
    ∃ last, (run crates (history ++ later)).ledger.writer crates strongFp = some last := by
  obtain ⟨newer, grown⟩ := run_log crates history later
  apply Option.isSome_iff_exists.mp
  unfold Ledger.writer at wrote ⊢
  rw [grown, List.find?_append, wrote]
  simp

theorem replay_iff {replays : Replays} (invariant : replays.Invariant crates) (strongFp : Bytes)
    (last : Spoken) : replays.replay strongFp = last.talk.printed.lossy ↔
      last.CoveredBy (replays.lastWrite strongFp) := by
  have written := invariant.written strongFp
  have nothing (none_ : replays.replay strongFp = .none) :
      replays.replay strongFp = last.talk.printed.lossy ↔ last.talk.printed = .none := by
    rw [none_, eq_comm]
    exact lossy_eq_none
  cases wrote : replays.lastWrite strongFp with
  | none =>
      rw [nothing (by simp [replay, written, wrote])]
      exact ⟨.missing, fun | .missing nothing => nothing⟩
  | some spoken =>
      cases spoken with
      | none =>
          rw [nothing (by simp [replay, written, wrote])]
          exact ⟨.unread, fun | .unread nothing => nothing⟩
      | some writer =>
          have isReplay : replays.replay strongFp = writer.captured.lossy := by
            simp [replay, written, wrote, Spoken.output]
          cases observed : writer.observed with
          | true =>
              rw [nothing (by simp [isReplay, Spoken.captured, observed, lossy_none])]
              constructor
              · exact .silent writer observed
              · rintro (⟨_, byShell, _⟩ | ⟨_, _, nothing⟩)
                · simp [observed] at byShell
                · exact nothing
          | false =>
              rw [isReplay, Spoken.captured, observed]
              constructor
              · exact .heard writer observed
              · rintro (⟨_, _, same⟩ | ⟨_, bySandbox, _⟩)
                · exact same
                · simp [observed] at bySandbox

end Replays

/-- A hit finds an execution that recorded its entry; at any time after it the replay prints what
the last such execution printed exactly when the output file covers it. -/
theorem replayed_iff (crates : Crates) (history later : List ReplayStep) (fs : FileSystem)
    (inputs : WeakFpInputs) (strongFp : Bytes) (entry : CacheEntry) (reads : List Path)
    (hit : (Replays.run crates history).ledger.cache.lookupWithPathsetReads crates fs inputs =
      some (strongFp, entry, reads)) :
    ∃ last, (Replays.run crates (history ++ later)).ledger.writer crates strongFp = some last ∧
      ((Replays.run crates (history ++ later)).replay strongFp = last.tag.talk.printed.lossy ↔
        last.tag.CoveredBy ((Replays.run crates (history ++ later)).lastWrite strongFp)) := by
  have sound := (Replays.run_invariant crates history).sound
  obtain ⟨recorded, _, wrote, _⟩ := Ledger.lookup_written sound hit
  obtain ⟨last, isLast⟩ := Replays.writer_kept crates later wrote
  exact ⟨last, isLast, Replays.replay_iff (Replays.run_invariant crates _) strongFp last.tag⟩

/-! A command that greets, in a loose run and in a strict one. -/

namespace Greeting

def greeting : Streams := ⟨utf8 "hello\n", []⟩

def byShell : Talk := ⟨.none, greeting, greeting, .only_second _, .nil⟩

def bySandbox : Talk := ⟨greeting, .none, greeting, .only_first _, .nil⟩

def started (mode : SandboxMode) : TaskStart := Sample.start (Sample.task mode []) "1"

def inputs (mode : SandboxMode) : WeakFpInputs := (started mode).inputs .empty

def exec (mode : SandboxMode) : Execution :=
  .quiet (Sample.files "1") (if mode = .loose then none else some ⟨0, [Sample.source], []⟩) (some 0)

def history (mode : SandboxMode) (talk : Talk) : List ReplayStep :=
  [.finish (started mode).task (inputs mode) (exec mode) talk, .truncate 0, .write 0 true]

def recorded (mode : SandboxMode) (reads : List Path) : RecordCall :=
  (exec mode).call .plain (started mode).task (inputs mode) ⟨reads, []⟩

theorem looseHit : (Replays.run .plain (history .loose byShell)).ledger.cache.lookupWithPathsetReads
    .plain (started .loose).fs (inputs .loose) =
      some ((recorded .loose []).strongFp .plain, (recorded .loose []).stored .plain, []) := by
  decide +kernel

theorem strictHit :
    (Replays.run .plain (history .strict bySandbox)).ledger.cache.lookupWithPathsetReads
      .plain (started .strict).fs (inputs .strict) =
        some ((recorded .strict [Sample.source]).strongFp .plain,
          (recorded .strict [Sample.source]).stored .plain, [Sample.source]) := by
  decide +kernel

end Greeting

theorem replayed_iff_loose : ∃ last,
    (Replays.run .plain (Greeting.history .loose Greeting.byShell ++ [])).ledger.writer .plain
      ((Greeting.recorded .loose []).strongFp .plain) = some last ∧
    ((Replays.run .plain (Greeting.history .loose Greeting.byShell ++ [])).replay
        ((Greeting.recorded .loose []).strongFp .plain) = last.tag.talk.printed.lossy ↔
      last.tag.CoveredBy
        ((Replays.run .plain (Greeting.history .loose Greeting.byShell ++ [])).lastWrite
          ((Greeting.recorded .loose []).strongFp .plain))) :=
  replayed_iff .plain (Greeting.history .loose Greeting.byShell) [] (Greeting.started .loose).fs
    (Greeting.inputs .loose) _ _ _ Greeting.looseHit

/-- The hit on a strict run prints nothing of what it printed. -/
theorem strict_replay_silent :
    ¬ ∀ (crates : Crates) (history : List ReplayStep) (fs : FileSystem) (inputs : WeakFpInputs)
      (strongFp : Bytes) (entry : CacheEntry) (reads : List Path) (last : Recorded Spoken),
      (Replays.run crates history).ledger.cache.lookupWithPathsetReads crates fs inputs =
        some (strongFp, entry, reads) →
      (Replays.run crates history).ledger.writer crates strongFp = some last →
        (Replays.run crates history).replay strongFp = last.tag.talk.printed.lossy := by
  intro claimed
  obtain ⟨last, wrote, printed⟩ : ∃ last,
      (Replays.run .plain (Greeting.history .strict Greeting.bySandbox)).ledger.writer .plain
        ((Greeting.recorded .strict [Sample.source]).strongFp .plain) = some last ∧
        last.tag.talk.printed = Greeting.greeting := by
    apply Option.map_eq_some_iff.mp
    decide +kernel
  have replayed := claimed .plain (Greeting.history .strict Greeting.bySandbox)
    (Greeting.started .strict).fs (Greeting.inputs .strict) _ _ _ last Greeting.strictHit wrote
  rw [printed] at replayed
  exact absurd replayed (by decide +kernel)

end Rage
