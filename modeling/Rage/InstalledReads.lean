import Rage.RestoredInstall

/-!
Reads below `node_modules`.  The strong fingerprint leaves them out, and nothing else in the key
of a package task depends on what is installed.
-/

namespace Rage

/-! One workspace: its disk and install state, and the package tasks that run in it. -/

structure Checkout where
  install : InstallState
  session : Session

inductive CheckoutEvent
  | disk (event : RestoreEvent)
  | newRun
  | start (task : Task) (toolPath : Path)
  | finish (index : Nat) (exec : Execution)

namespace Checkout

def fs (checkout : Checkout) : FileSystem := checkout.install.fs

def log (checkout : Checkout) : List (Recorded Executed) := checkout.session.ledger.log

def empty (fs : FileSystem) : Checkout := ⟨⟨fs, [], fun _ => none, fun _ => none⟩, .empty⟩

section Step

variable (crates : Crates) (archives : Archives)
  (parseLockfile : FileSystem → Path → Option (List LockfilePackage))

def step (checkout : Checkout) : CheckoutEvent → Checkout
  | .disk event =>
      { checkout with
        install := restoreStep crates archives parseLockfile checkout.install event }
  | .newRun => { checkout with session := checkout.session.step crates .newRun }
  | .start task toolPath =>
      { checkout with
        session := checkout.session.step crates (.start ⟨task, toolPath, checkout.fs⟩) }
  | .finish index exec =>
      match checkout.session.running[index]? with
      | none => checkout
      | some _ =>
          { install := { checkout.install with fs := exec.recordFs }
            session := checkout.session.step crates (.finish index exec) }

/-- A task served from the cache finds the installed files of the recorded execution. -/
def FreshReads (checkout : Checkout) : CheckoutEvent → Prop
  | .start task toolPath => ∀ strongFp entry reads,
      lookupPhase crates checkout.session.cache ⟨task, toolPath, checkout.fs⟩ =
        some (strongFp, entry, reads) →
      ∃ written, checkout.session.ledger.writer crates strongFp = some written ∧
        entry = written.call.stored crates ∧
        ∀ path ∈ written.call.pathset.reads, inNodeModules path = true →
          checkout.fs.presence path = written.tag.seen.presence path
  | _ => True

/-- An event leaves the installed files that recorded executions have read, and an execution is
recorded with those that it read still in place. -/
structure KeepsReads (checkout : Checkout) (event : CheckoutEvent) : Prop where
  recorded : ∀ recorded ∈ checkout.log, ∀ path ∈ recorded.call.pathset.reads,
    inNodeModules path = true →
      (checkout.step crates archives parseLockfile event).fs.presence path =
        checkout.fs.presence path
  running : ∀ index exec, event = .finish index exec →
    ∀ running, checkout.session.running[index]? = some running →
      ∀ pathset, exec.result running.1.task.sandboxMode = some (0, pathset) →
        ∀ path ∈ pathset.reads, inNodeModules path = true →
          exec.recordFs.presence path = exec.seen.presence path

end Step

structure InPlace (crates : Crates) (checkout : Checkout) : Prop where
  session : checkout.session.Invariant crates
  reads : ∀ recorded ∈ checkout.log, ∀ path ∈ recorded.call.pathset.reads,
    inNodeModules path = true → checkout.fs.presence path = recorded.tag.seen.presence path

variable {crates : Crates} {archives : Archives}
  {parseLockfile : FileSystem → Path → Option (List LockfilePackage)}

theorem empty_inPlace (fs : FileSystem) : (empty fs).InPlace crates where
  session := Session.empty_invariant
  reads := by simp [empty, log, Session.empty, Ledger.empty]

theorem startTask_log (session : Session) (start : TaskStart) :
    (session.startTask crates start).ledger.log = session.ledger.log := by
  unfold Session.startTask
  split
  · rfl
  · rfl

theorem inPlace_of_log {checkout next : Checkout} (inPlace : checkout.InPlace crates)
    (session : next.session.Invariant crates) (log : next.log = checkout.log)
    (kept : ∀ recorded ∈ checkout.log, ∀ path ∈ recorded.call.pathset.reads,
      inNodeModules path = true → next.fs.presence path = checkout.fs.presence path) :
    next.InPlace crates := by
  refine ⟨session, fun recorded member path read installed => ?_⟩
  rw [log] at member
  rw [kept recorded member path read installed]
  exact inPlace.reads recorded member path read installed

theorem step_inPlace {checkout : Checkout} (inPlace : checkout.InPlace crates)
    (event : CheckoutEvent) (keeps : checkout.KeepsReads crates archives parseLockfile event) :
    (checkout.step crates archives parseLockfile event).InPlace crates := by
  have kept := keeps.recorded
  cases event with
  | disk event => exact inPlace_of_log inPlace inPlace.session rfl kept
  | newRun =>
      have session := Session.step_invariant inPlace.session .newRun
      exact inPlace_of_log inPlace session rfl kept
  | start task toolPath =>
      have session := Session.step_invariant inPlace.session
        (.start ⟨task, toolPath, checkout.fs⟩)
      exact inPlace_of_log inPlace session (startTask_log _ _) kept
  | finish index exec =>
      have running := keeps.running index exec rfl
      simp only [step] at kept ⊢
      cases isRunning : checkout.session.running[index]? with
      | none => exact inPlace
      | some task =>
          simp only [isRunning] at kept ⊢
          have session := Session.step_invariant inPlace.session (.finish index exec)
          have before := Session.finishTask_log crates
            { checkout.session with running := checkout.session.running.eraseIdx index }
            task.1.task task.2 exec
          simp only [Session.step, isRunning] at session ⊢
          rcases before with same | ⟨pathset, result, longer⟩
          · exact inPlace_of_log inPlace session same kept
          · refine ⟨session, fun recorded member path read installed => ?_⟩
            rw [log, longer] at member
            rcases List.mem_cons.mp member with rfl | older
            · exact running task isRunning pathset result path read installed
            · have unchanged := kept recorded older path read installed
              exact unchanged.trans (inPlace.reads recorded older path read installed)

theorem inPlace_fresh {checkout : Checkout} (inPlace : checkout.InPlace crates)
    (event : CheckoutEvent) : checkout.FreshReads crates event := by
  cases event with
  | start task toolPath =>
      intro strongFp entry reads hit
      obtain ⟨written, _, wrote, isStored, _⟩ :=
        Ledger.lookup_written inPlace.session.sound hit
      refine ⟨written, wrote, isStored, ?_⟩
      exact inPlace.reads written (Ledger.writer_spec wrote).1
  | disk event => exact trivial
  | newRun => exact trivial
  | finish index exec => exact trivial

end Checkout

namespace UpgradedDependency

def dependency : Path := utf8 "/ws/node_modules/lib/index.js"

def disk (lock installed : String) : FileSystem :=
  ⟨[(components Sample.lockfile, ⟨.file (utf8 lock) true, false⟩),
    (components Sample.source, ⟨.file (utf8 "1") true, false⟩),
    (components (utf8 "/ws/node_modules"), ⟨.directory, false⟩),
    (components dependency, ⟨.file (utf8 installed) true, false⟩)]⟩

def install (lock : String) : CheckoutEvent :=
  .disk (.run Sample.install {
    install := some (0, disk lock lock)
    pmCache := fun _ _ => none
    walked := []
    binLinks := id
    postinstall := id })

def app : Task := Sample.task .strict [utf8 "a.ts"]

def exec : Execution := .quiet (disk "1" "1") (some ⟨0, [Sample.source, dependency], []⟩) none

def build : List CheckoutEvent := [install "1", .start app (utf8 "sh"), .finish 0 exec]

def parse (_ : FileSystem) (_ : Path) : Option (List LockfilePackage) := some []

def checkout (events : List CheckoutEvent) : Checkout :=
  Runs.final (Checkout.step .plain Sample.noArchives parse) (.empty (disk "1" "0")) events

def rerun : List CheckoutEvent := build ++ [install "1", .newRun, .start app (utf8 "sh")]

def upgrade : List CheckoutEvent := build ++ [.disk (.edit (disk "2" "1")), install "2", .newRun]

def recorded : RecordCall :=
  exec.call .plain app ((TaskStart.mk app (utf8 "sh") (disk "1" "1")).inputs .empty)
    ⟨[Sample.source, dependency], []⟩

theorem hit : lookupPhase .plain (checkout upgrade).session.cache
    ⟨app, utf8 "sh", (checkout upgrade).fs⟩ =
      some (recorded.strongFp .plain, recorded.stored .plain, [Sample.source, dependency]) := by
  decide +kernel

theorem changed : ∀ written ∈ (checkout upgrade).log, dependency ∈ written.call.pathset.reads ∧
    (checkout upgrade).fs.presence dependency ≠ written.tag.seen.presence dependency := by
  decide +kernel

theorem keeps : Runs.Each (Checkout.step .plain Sample.noArchives parse)
    (fun checkout event => checkout.KeepsReads .plain Sample.noArchives parse event)
    (.empty (disk "1" "0")) rerun := by
  have idle (checkout : Checkout) (event : CheckoutEvent)
      (notFinish : ∀ index exec, event ≠ .finish index exec)
      (recorded : ∀ recorded ∈ checkout.log, ∀ path ∈ recorded.call.pathset.reads,
        inNodeModules path = true →
          (checkout.step .plain Sample.noArchives parse event).fs.presence path =
            checkout.fs.presence path) :
      checkout.KeepsReads .plain Sample.noArchives parse event :=
    ⟨recorded, fun index exec finish => absurd finish (notFinish index exec)⟩
  refine ⟨?_, ?_, ?_, ?_, ?_, ?_, trivial⟩
  · exact idle _ _ (by simp [install]) (by decide +kernel)
  · exact idle _ _ (by simp) (by decide +kernel)
  · refine ⟨by decide +kernel, ?_⟩
    intro index exec finish running _ pathset _ path _ _
    obtain ⟨_, rfl⟩ := CheckoutEvent.finish.inj finish
    rfl
  · exact idle _ _ (by simp [install]) (by decide +kernel)
  · exact idle _ _ (by simp) (by decide +kernel)
  · exact idle _ _ (by simp) (by decide +kernel)

end UpgradedDependency

end Rage
