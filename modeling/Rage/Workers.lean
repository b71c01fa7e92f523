import Mathlib.Logic.Function.Basic

/-!
Workers that share a store.  A task starts when what it waits for is done, and until it is done
itself it reads and writes the store when it likes.  What it leaves there is what it makes of the
store as it is in the end, in whatever order the workers have taken turns.
-/

namespace Rage.Workers

inductive Status
  | idle
  | working
  | done
  | failed
  deriving DecidableEq

variable {ι δ ω : Type}

/-- What a task waits for, what it leaves in a store, and what it makes of a store; that is
determined by what the store has been given and by what the task waits for. -/
structure Plan (ι δ ω : Type) where
  waitsFor : ι → ι → Prop
  outputs : δ → ι → ω
  makes : δ → ι → ω
  SameGiven : δ → δ → Prop
  equivalence : Equivalence SameGiven
  determined : ∀ first second task, SameGiven first second →
    (∀ dep, waitsFor task dep → outputs first dep = outputs second dep) →
    makes first task = makes second task

/-- `seen` is the store as a task has last read it. -/
structure State (ι δ : Type) where
  status : ι → Status
  store : δ
  seen : ι → δ

namespace State

/-- The task has started, and not failed. -/
def Begun (state : State ι δ) (task : ι) : Prop :=
  state.status task = .working ∨ state.status task = .done

end State

section

variable (plan : Plan ι δ ω)

/-- A write by a task: nothing of what is given changes, and of what has begun nothing but its own
outputs and what is made of them. -/
structure Own (before : State ι δ) (task : ι) (store : δ) : Prop where
  given : plan.SameGiven before.store store
  outputs : ∀ other, before.Begun other → other ≠ task →
    plan.outputs store other = plan.outputs before.store other
  makes : ∀ other, before.Begun other → ¬ plan.waitsFor other task →
    plan.makes store other = plan.makes before.store other

/-- A task that ends with success leaves what it makes of the store that it has read.  Any tasks that
are not done can fail. -/
inductive Step [DecidableEq ι] (before : State ι δ) : State ι δ → Prop
  | start (task : ι) (idle : before.status task = .idle)
      (ready : ∀ dep, plan.waitsFor task dep → before.status dep = .done) :
      Step before { before with
        status := Function.update before.status task .working
        seen := Function.update before.seen task before.store }
  | read (task : ι) (working : before.status task = .working) :
      Step before { before with seen := Function.update before.seen task before.store }
  | write (task : ι) (store : δ) (working : before.status task = .working)
      (own : Own plan before task store) : Step before { before with store := store }
  | finish (task : ι) (working : before.status task = .working)
      (made : plan.outputs before.store task = plan.makes (before.seen task) task) :
      Step before { before with status := Function.update before.status task .done }
  | fail (status : ι → Status) (fails : ∀ task, status task = before.status task ∨
        before.status task ≠ .done ∧ status task = .failed) :
      Step before { before with status := status }

/-- The task is done and has left what it makes of the store, and so has all that it waits for. -/
inductive Settled (status : ι → Status) (store : δ) : ι → Prop
  | intro (task : ι) (done : status task = .done)
      (made : plan.outputs store task = plan.makes store task)
      (waited : ∀ dep, plan.waitsFor task dep → Settled status store dep) :
      Settled status store task

/-- What is done in the beginning is settled. -/
inductive Reachable [DecidableEq ι] (given : δ) : State ι δ → Prop
  | opened (state : State ι δ)
      (begins : ∀ task, state.status task = .idle ∨ Settled plan state.status state.store task)
      (store : state.store = given) : Reachable given state
  | step {before after : State ι δ} (reached : Reachable given before)
      (taken : Step plan before after) : Reachable given after

/-- What holds of every reachable state. -/
structure Sound (given : δ) (state : State ι δ) : Prop where
  given : plan.SameGiven given state.store
  waited : ∀ task, state.status task = .working →
    ∀ dep, plan.waitsFor task dep → state.status dep = .done
  seen : ∀ task, state.status task = .working →
    plan.makes (state.seen task) task = plan.makes state.store task
  settled : ∀ task, state.status task = .done → Settled plan state.status state.store task

end

variable {plan : Plan ι δ ω}

namespace Settled

variable {status later : ι → Status} {store changed : δ} {task : ι}

theorem done (settled : Settled plan status store task) : status task = .done := by
  cases settled with
  | intro _ done _ _ => exact done

theorem made (settled : Settled plan status store task) :
    plan.outputs store task = plan.makes store task := by
  cases settled with
  | intro _ _ made _ => exact made

theorem waited (settled : Settled plan status store task) {dep : ι}
    (waits : plan.waitsFor task dep) : Settled plan status store dep := by
  cases settled with
  | intro _ _ _ waited => exact waited dep waits

/-- A task stays settled with what it waits for when they keep what they leave and make. -/
theorem keep (settled : Settled plan status store task) (kept : ι → Prop) (isKept : kept task)
    (closed : ∀ other dep, kept other → plan.waitsFor other dep → kept dep)
    (same : ∀ other, kept other → status other = .done → later other = .done ∧
      plan.outputs changed other = plan.outputs store other ∧
      plan.makes changed other = plan.makes store other) :
    Settled plan later changed task := by
  induction settled with
  | intro task done made _ ih =>
      obtain ⟨isDone, sameOutputs, sameMakes⟩ := same task isKept done
      refine .intro task isDone ?_ fun dep waits => ih dep waits (closed task dep isKept waits)
      rw [sameOutputs, sameMakes]
      exact made

theorem mono (settled : Settled plan status store task)
    (done : ∀ other, status other = .done → later other = .done) :
    Settled plan later store task :=
  settled.keep (fun _ => True) trivial (fun _ _ _ _ => trivial)
    fun other _ isDone => ⟨done other isDone, rfl, rfl⟩

/-- A store with the same given in which every task has its outputs says what settled tasks leave. -/
theorem agrees (settled : Settled plan status store task) {goal : δ}
    (sources : plan.SameGiven store goal)
    (correct : ∀ task, plan.outputs goal task = plan.makes goal task) :
    plan.outputs store task = plan.outputs goal task := by
  induction settled with
  | intro task _ made _ ih =>
      rw [made, correct task]
      exact plan.determined _ _ task sources ih

end Settled

variable {given : δ} {before after state : State ι δ}

namespace Sound

theorem opened
    (begins : ∀ task, state.status task = .idle ∨ Settled plan state.status state.store task)
    (store : state.store = given) : Sound plan given state where
  given := store ▸ plan.equivalence.refl _
  waited := by
    intro task working
    rcases begins task with idle | settled
    · simp [idle] at working
    · simp [settled.done] at working
  seen := by
    intro task working
    rcases begins task with idle | settled
    · simp [idle] at working
    · simp [settled.done] at working
  settled := by
    intro task done
    rcases begins task with idle | settled
    · simp [idle] at done
    · exact settled

/-- No task that has begun waits for one that is at work. -/
theorem apart (sound : Sound plan given before) {writer other : ι}
    (working : before.status writer = .working) (begun : before.Begun other) :
    ¬ plan.waitsFor other writer := by
  intro waits
  have done : before.status writer = .done := by
    rcases begun with isWorking | isDone
    · exact sound.waited other isWorking writer waits
    · exact ((sound.settled other isDone).waited waits).done
  rw [working] at done
  simp at done

theorem write (sound : Sound plan given before) {task : ι} {store : δ}
    (working : before.status task = .working) (own : Own plan before task store) :
    Sound plan given { before with store := store } where
  given := plan.equivalence.trans sound.given own.given
  waited := sound.waited
  seen := by
    intro other isWorking
    have begun : before.Begun other := Or.inl isWorking
    exact (sound.seen other isWorking).trans
      (own.makes other begun (sound.apart working begun)).symm
  settled := by
    intro other done
    refine (sound.settled other done).keep (fun _ => True) trivial (fun _ _ _ _ => trivial) ?_
    intro kept _ isDone
    have begun : before.Begun kept := Or.inr isDone
    have differ : kept ≠ task := by
      rintro rfl
      simp [working] at isDone
    exact ⟨isDone, own.outputs kept begun differ,
      own.makes kept begun (sound.apart working begun)⟩

theorem fail (sound : Sound plan given before) {status : ι → Status}
    (fails : ∀ task, status task = before.status task ∨
      before.status task ≠ .done ∧ status task = .failed) :
    Sound plan given { before with status := status } where
  given := sound.given
  waited := by
    intro other isWorking dep waits
    have was : before.status other = .working := by
      rcases fails other with same | ⟨-, failed⟩
      · exact same ▸ isWorking
      · simp [failed] at isWorking
    have isDone := sound.waited other was dep waits
    rcases fails dep with same | ⟨notDone, -⟩
    · exact same.trans isDone
    · exact absurd isDone notDone
  seen := by
    intro other isWorking
    rcases fails other with same | ⟨-, failed⟩
    · exact sound.seen other (same ▸ isWorking)
    · simp [failed] at isWorking
  settled := by
    intro other done
    have was : before.status other = .done := by
      rcases fails other with same | ⟨-, failed⟩
      · exact same ▸ done
      · simp [failed] at done
    refine (sound.settled other was).mono fun kept isDone => ?_
    rcases fails kept with same | ⟨notDone, -⟩
    · exact same.trans isDone
    · exact absurd isDone notDone

variable [DecidableEq ι]

theorem start (sound : Sound plan given before) {task : ι} (idle : before.status task = .idle)
    (ready : ∀ dep, plan.waitsFor task dep → before.status dep = .done) :
    Sound plan given { before with
      status := Function.update before.status task .working
      seen := Function.update before.seen task before.store } := by
  have keeps {other : ι} (done : before.status other = .done) :
      Function.update before.status task .working other = .done := by
    rw [Function.update_of_ne, done]
    rintro rfl
    simp [idle] at done
  constructor
  case given => exact sound.given
  case waited =>
    intro other working dep waits
    apply keeps
    by_cases here : other = task
    · exact ready dep (here ▸ waits)
    · simp only [Function.update_of_ne here] at working
      exact sound.waited other working dep waits
  case seen =>
    intro other working
    by_cases here : other = task
    · subst here
      simp only [Function.update_self]
    · simp only [Function.update_of_ne here] at working ⊢
      exact sound.seen other working
  case settled =>
    intro other done
    by_cases here : other = task
    · subst here
      simp at done
    · simp only [Function.update_of_ne here] at done
      exact (sound.settled other done).mono fun kept isDone => keeps isDone

theorem read (sound : Sound plan given before) (task : ι) :
    Sound plan given { before with
      seen := Function.update before.seen task before.store } where
  given := sound.given
  waited := sound.waited
  seen := by
    intro other working
    by_cases here : other = task
    · subst here
      simp only [Function.update_self]
    · simp only [Function.update_of_ne here]
      exact sound.seen other working
  settled := sound.settled

theorem finish (sound : Sound plan given before) {task : ι}
    (working : before.status task = .working)
    (made : plan.outputs before.store task = plan.makes (before.seen task) task) :
    Sound plan given { before with
      status := Function.update before.status task .done } := by
  have keeps {other : ι} (done : before.status other = .done) :
      Function.update before.status task .done other = .done := by
    by_cases here : other = task
    · rw [here, Function.update_self]
    · rw [Function.update_of_ne here, done]
  have settled {other : ι} (done : before.status other = .done) :
      Settled plan (Function.update before.status task .done) before.store other :=
    (sound.settled other done).mono fun kept isDone => keeps isDone
  constructor
  case given => exact sound.given
  case waited =>
    intro other isWorking dep waits
    apply keeps
    by_cases here : other = task
    · subst here
      simp at isWorking
    · simp only [Function.update_of_ne here] at isWorking
      exact sound.waited other isWorking dep waits
  case seen =>
    intro other isWorking
    by_cases here : other = task
    · subst here
      simp at isWorking
    · simp only [Function.update_of_ne here] at isWorking
      exact sound.seen other isWorking
  case settled =>
    intro other done
    by_cases here : other = task
    · subst here
      refine .intro other done (made.trans (sound.seen other working)) ?_
      intro dep waits
      exact settled (sound.waited other working dep waits)
    · simp only [Function.update_of_ne here] at done
      exact settled done

theorem step (sound : Sound plan given before) (taken : Step plan before after) :
    Sound plan given after := by
  cases taken with
  | start task idle ready => exact sound.start idle ready
  | read task working => exact sound.read task
  | write task store working own => exact sound.write working own
  | finish task working made => exact sound.finish working made
  | fail status fails => exact sound.fail fails

theorem reachable (reached : Reachable plan given state) : Sound plan given state := by
  induction reached with
  | opened state begins store => exact opened begins store
  | step reached taken ih => exact ih.step taken

end Sound

end Rage.Workers
