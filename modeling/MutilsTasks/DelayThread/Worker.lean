import Mathlib.Algebra.Order.Ring.Int
import MutilsTasks.Library.Machine

/-!
# The delay thread

`delay_thread` has a queue of actions and a worker that takes one after the other,
waits until it is due and runs it. Clients submit actions and change the delay at any
time, also from inside a task. Tasks return.

The worker's steps are those of its loop: a call of `wait_dequeue_timed`, its return with
an element or after `1s` without one, each of the three tests of `destroying`, each
reading of the clock, each sleep of `1ms`, the start of a task and its end.

The queue keeps the order of each client and no other, so `dequeue` says whose oldest
element is handed out. Time is in nanoseconds and does not go backwards; sums of times
and delays do not overflow (in C++ that is undefined). The `delay_thread` has static
storage, so `delay_amount` is zero until it is set. A task is named by how many had been
submitted before it. What has been submitted and what has been started are ghost members;
the code keeps neither.
-/

namespace MutilsTasks.DelayThread

/-- `delayed_action`. -/
structure DelayedAction where
  /-- `task`. -/
  task : ℕ
  /-- `time`. -/
  time : ℤ
  deriving DecidableEq

/-- `1s`. -/
def second : ℤ := 1000000000

/-- `1ms`. -/
def millisecond : ℤ := 1000000

/-- What the worker does next. -/
inductive Worker where
  /-- `q.wait_dequeue_timed(action, 1s)`. -/
  | calling
  /-- It waits for an element until `t`. -/
  | waiting (t : ℤ)
  /-- It has an element, and tests `destroying`. -/
  | dequeued (action : DelayedAction)
  /-- It compares `now()` with `action.time`. -/
  | testTime (action : DelayedAction)
  /-- It tests `destroying` in the loop. -/
  | inLoop (action : DelayedAction)
  /-- It sleeps until `t`. -/
  | sleeping (action : DelayedAction) (t : ℤ)
  /-- It tests `destroying` after the loop. -/
  | afterLoop (action : DelayedAction)
  /-- `action.task()`. -/
  | due (action : DelayedAction)
  /-- The task is running. -/
  | running (action : DelayedAction)
  /-- It has left its loop. -/
  | exited
  deriving DecidableEq

/-- A call of `submit_action`. -/
structure Submission where
  /-- What it has enqueued. -/
  action : DelayedAction
  /-- `now()`. -/
  time : ℤ
  /-- `delay_amount`. -/
  delay : ℤ
  deriving DecidableEq

/-- A state of the delay thread. -/
structure State where
  /-- `high_resolution_clock::now()`. -/
  now : ℤ
  /-- `delay_amount`. -/
  delayAmount : ℤ
  /-- `q`, each element with the client that has enqueued it. -/
  q : List (ℕ × DelayedAction)
  /-- `destroying`. -/
  destroying : Bool
  /-- `t`. -/
  worker : Worker
  /-- What has been submitted. -/
  submitted : List Submission
  /-- What has been started, and when. -/
  started : List (DelayedAction × ℤ)

/-- What happens next. -/
inductive Action where
  /-- A client calls `submit_action`. -/
  | submit (client : ℕ)
  /-- `set_delay` or `set_delay_highres`. -/
  | setDelay (t : ℤ)
  /-- Time passes. -/
  | tick (n : ℕ)
  /-- `wait_dequeue_timed` returns the client's oldest element. -/
  | dequeue (client : ℕ)
  /-- `wait_dequeue_timed` returns false. -/
  | timeout
  /-- The worker makes its next step. -/
  | advance
  /-- The destructor sets `destroying`. -/
  | destroy
  deriving DecidableEq

namespace State

/-- The delay thread at its construction. -/
def init (now : ℤ) : State := ⟨now, 0, [], false, .calling, [], []⟩

/-- The worker turns to `w`. -/
def goto (s : State) (w : Worker) : State := { s with worker := w }

/-- `submit_action`. -/
def submit (s : State) (client : ℕ) : State :=
  let a : DelayedAction := ⟨s.submitted.length, s.now + s.delayAmount⟩
  { s with
    q := s.q ++ [(client, a)]
    submitted := s.submitted ++ [⟨a, s.now, s.delayAmount⟩] }

/-- The worker makes its next step. -/
def advance (s : State) : Option State :=
  match s.worker with
  | .calling => some (s.goto (.waiting (s.now + second)))
  | .dequeued a => some (s.goto (if s.destroying then .exited else .testTime a))
  | .testTime a => some (s.goto (if s.now < a.time then .inLoop a else .afterLoop a))
  | .inLoop a =>
    some (s.goto (if s.destroying then .afterLoop a else .sleeping a (s.now + millisecond)))
  | .sleeping a t => if t ≤ s.now then some (s.goto (.testTime a)) else none
  | .afterLoop a => some (s.goto (if s.destroying then .exited else .due a))
  | .due a => some { s with worker := .running a, started := s.started ++ [(a, s.now)] }
  | .running _ => some (s.goto .calling)
  | .waiting _ | .exited => none

/-- **The step of the delay thread.** -/
def step (s : State) : Action → Option State
  | .submit client => some (s.submit client)
  | .setDelay t => some { s with delayAmount := t }
  | .tick n => some { s with now := s.now + n }
  | .dequeue client =>
    match s.worker, s.q.find? fun e => e.1 = client with
    | .waiting _, some e => some { s with q := s.q.erase e, worker := .dequeued e.2 }
    | _, _ => none
  | .timeout =>
    match s.worker with
    | .waiting t => if s.q = [] ∧ t ≤ s.now then some (s.goto .exited) else none
    | _ => none
  | .advance => s.advance
  | .destroy => some { s with destroying := true }

end State

/-! ### What a step does -/

/-- The worker's current action. -/
def Worker.current : Worker → Option DelayedAction
  | .dequeued a | .testTime a | .inLoop a | .sleeping a _ | .afterLoop a | .due a | .running a =>
    some a
  | .calling | .waiting _ | .exited => none

/-- **A step.** -/
inductive Moves (s : State) : Action → State → Prop
  /-- A client submits an action. -/
  | submits {client : ℕ} : Moves s (.submit client) (s.submit client)
  /-- The delay changes. -/
  | delays {t : ℤ} : Moves s (.setDelay t) { s with delayAmount := t }
  /-- Time passes. -/
  | ticks {n : ℕ} : Moves s (.tick n) { s with now := s.now + n }
  /-- The worker gets an element. -/
  | dequeues {client : ℕ} {t : ℤ} {a : DelayedAction} : s.worker = .waiting t →
      s.q.find? (fun e => e.1 = client) = some (client, a) →
      Moves s (.dequeue client) { s with q := s.q.erase (client, a), worker := .dequeued a }
  /-- It gets none. -/
  | timesOut {t : ℤ} : s.worker = .waiting t → s.q = [] → t ≤ s.now →
      Moves s .timeout (s.goto .exited)
  /-- It keeps its action. -/
  | turns {w : Worker} : w.current = s.worker.current → w ≠ .exited →
      (∀ a, w ≠ .running a) → (∀ a, w = .due a → s.worker = .afterLoop a ∧ s.destroying = false) →
      (∀ a, s.worker ≠ .running a) → (∀ a, w = .afterLoop a → s.destroying = true ∨ a.time ≤ s.now) →
      Moves s .advance (s.goto w)
  /-- It drops its action. -/
  | breaks : s.destroying = true → Moves s .advance (s.goto .exited)
  /-- It starts its action. -/
  | starts {a : DelayedAction} : s.worker = .due a →
      Moves s .advance { s with worker := .running a, started := s.started ++ [(a, s.now)] }
  /-- Its action is done. -/
  | finishes {a : DelayedAction} : s.worker = .running a → Moves s .advance (s.goto .calling)
  /-- The destructor is called. -/
  | destroys : Moves s .destroy { s with destroying := true }

namespace State

variable {s s' : State} {a : Action}

theorem advance_spec (h : s.advance = some s') : Moves s .advance s' := by
  unfold advance at h
  split at h
  · rename_i hw
    cases h
    exact .turns (by rw [hw]; rfl) nofun nofun nofun (by simp [hw]) nofun
  · rename_i x hw
    cases h
    cases hd : s.destroying with
    | true => exact .breaks hd
    | false => exact .turns (by rw [hw]; rfl) nofun nofun nofun (by simp [hw]) nofun
  · rename_i x hw
    cases h
    split
    · exact .turns (by rw [hw]; rfl) nofun nofun nofun (by simp [hw]) nofun
    · rename_i hn
      refine .turns (by rw [hw]; rfl) nofun nofun nofun (by simp [hw]) fun a e => .inr ?_
      cases e
      exact Int.not_lt.mp hn
  · rename_i x hw
    cases h
    cases hd : s.destroying with
    | true => exact .turns (by rw [hw]; rfl) nofun nofun nofun (by simp [hw]) fun _ _ => .inl hd
    | false => exact .turns (by rw [hw]; rfl) nofun nofun nofun (by simp [hw]) nofun
  · rename_i x t hw
    simp only [Option.ite_none_right_eq_some, Option.some.injEq] at h
    obtain ⟨-, rfl⟩ := h
    exact .turns (by rw [hw]; rfl) nofun nofun nofun (by simp [hw]) nofun
  · rename_i x hw
    cases h
    cases hd : s.destroying with
    | true => exact .breaks hd
    | false =>
      refine .turns (by rw [hw]; rfl) nofun nofun (fun a e => ?_) (by simp [hw]) nofun
      cases e
      exact ⟨hw, hd⟩
  · rename_i x hw
    cases h
    exact .starts hw
  · rename_i x hw
    cases h
    exact .finishes hw
  · cases h
  · cases h

theorem step_spec (h : s.step a = some s') : Moves s a s' := by
  cases a with
  | submit client =>
    cases h
    exact .submits
  | setDelay t =>
    cases h
    exact .delays
  | tick n =>
    cases h
    exact .ticks
  | dequeue client =>
    simp only [step] at h
    split at h
    · rename_i t e hw he
      cases h
      have : e.1 = client := by simpa using List.find?_some he
      subst this
      exact .dequeues hw he
    · cases h
  | timeout =>
    simp only [step] at h
    split at h
    · rename_i t hw
      simp only [Option.ite_none_right_eq_some, Option.some.injEq] at h
      obtain ⟨⟨hq, ht⟩, rfl⟩ := h
      exact .timesOut hw hq ht
    · cases h
  | advance => exact advance_spec h
  | destroy =>
    cases h
    exact .destroys

end State

end MutilsTasks.DelayThread
