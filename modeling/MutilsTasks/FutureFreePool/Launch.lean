import Mathlib.Data.Nat.Notation
import Mathlib.Logic.Function.Basic
import MutilsTasks.Library.Machine
import MutilsTasks.Library.Upto

/-!
# The pool of free futures

`FutureFreePool_impl` has `bound` slots for futures, `pending`, and a list of the ids of
the free ones, `available_ids`. `launch` takes an id with `get_pos`, hands a task to the
global pool and keeps its future in the slot. The closure that is the task holds an
`AtScopeEnd`, which puts the id back when the closure is destroyed.

The closure is the function of a `packaged_task`, which the worker's functor and
`thread_pool::push` share. The worker deletes its functor when the task has run. Where the
function is a member of the `packaged_task` it ends with the last of the two. Where the
shared state of the `packaged_task` has it, and this is what `keeps` says, it ends only when
no future refers to that state any more: the one in `pending` does, until another future is
assigned to the slot.

Any number of calls of `launch` run at once, interleaved with the tasks of earlier
calls; a call and its task have one name. A step is one access to what they share: the
locking of `m`, its unlocking, `front`, `pop_front`, `push_back`, the `push` on the
global pool, its return and the store into `pending`. The action of an `AtScopeEnd` is left
to the task, whichever thread destroys the closure.

Both `get_pos` and the action of the `AtScopeEnd` lock `m` with an expression `lock{m};`
of its own. The object it makes has no name and ends with the expression, so `m` is
unlocked before the list is touched.

`front` and `pop_front` of an empty list are undefined: the machine has no step there.
Nor has it one where the assertion in `get_pos` fails. Which calls have been made is a
ghost member.
-/

namespace MutilsTasks.FutureFreePool

/-- `bound`. -/
def bound : ℕ := 1000

/-- The initializer of `available_ids`. -/
def initialIds : List ℤ := upto bound

/-- What the task does next. -/
inductive Task where
  /-- It waits for a thread of the global pool. -/
  | queued
  /-- It runs `fun`. -/
  | running
  /-- It has run, and the worker deletes its functor. -/
  | returned
  /-- The functor is deleted, and the closure is not destroyed yet. -/
  | kept
  /-- The action of the `AtScopeEnd`: `lock{this_p->m}` locks `m`. -/
  | lock
  /-- It unlocks `m`. -/
  | unlock
  /-- `available_ids.push_back(pos)`. -/
  | pushBack
  /-- It is done. -/
  | finished
  deriving DecidableEq

/-- The closure is destroyed if it is not needed for anything else. -/
def Task.release : Task → Task
  | .kept => .lock
  | t => t

/-- Where the future of a task is. -/
inductive Stage where
  /-- `GlobalPool::push` has not returned. -/
  | pushing
  /-- It is to be stored in `pending`. -/
  | returned
  /-- It has been stored. -/
  | stored
  deriving DecidableEq

/-- What a call of `launch` does next. -/
inductive Call where
  /-- It has not been made. -/
  | idle
  /-- `lock{m}` locks `m`. -/
  | lock
  /-- It unlocks `m`. -/
  | unlock
  /-- `pos = available_ids.front()`. -/
  | front
  /-- `available_ids.pop_front()`. -/
  | popFront (pos : ℤ)
  /-- `assert(pos > -1)`. -/
  | assertPos (pos : ℤ)
  /-- `GlobalPool::push`. -/
  | push (pos : ℤ)
  /-- Its task is on the global pool. -/
  | pushed (pos : ℤ) (stage : Stage) (task : Task)
  deriving DecidableEq

/-- A state of the pool. -/
structure State where
  /-- `available_ids`. -/
  availableIds : List ℤ
  /-- Whose call has `m` locked. -/
  mutex : Option ℕ
  /-- `pending`: whose future is in a slot. -/
  pending : ℤ → Option ℕ
  /-- The calls. -/
  call : ℕ → Call
  /-- The calls that have been made. -/
  launched : List ℕ

/-- What happens next. -/
inductive Action where
  /-- Call `u` is made. -/
  | launch (u : ℕ)
  /-- Call `u` makes its next step. -/
  | advance (u : ℕ)
  /-- The task of call `u` makes its next step. -/
  | work (u : ℕ)
  deriving DecidableEq

namespace State

/-- A new pool. -/
def init : State := ⟨initialIds, none, fun _ => none, fun _ => .idle, []⟩

/-- Call `u` turns to `c`. -/
def goto (s : State) (u : ℕ) (c : Call) : State := { s with call := Function.update s.call u c }

/-- Call `u` is made. -/
def launch (s : State) (u : ℕ) : State := { s with launched := u :: s.launched }.goto u .lock

/-- The future of call `w` is overwritten: it may have been the last to refer to its closure. -/
def discard (s : State) : Option ℕ → State
  | none => s
  | some w =>
    match s.call w with
    | .pushed pos .stored t => s.goto w (.pushed pos .stored t.release)
    | _ => s

/-- Something other than the worker's functor needs the closure of call `u`. -/
def needed (keeps : Bool) (s : State) (u : ℕ) (pos : ℤ) : Stage → Bool
  | .pushing => true
  | .returned => keeps
  | .stored => keeps && s.pending pos == some u

/-- Call `u` makes its next step. -/
def advance (keeps : Bool) (s : State) (u : ℕ) : Option State :=
  match s.call u with
  | .idle => none
  | .lock => if s.mutex = none then some ({ s with mutex := some u }.goto u .unlock) else none
  | .unlock => some ({ s with mutex := none }.goto u .front)
  | .front => s.availableIds.head?.map fun pos => s.goto u (.popFront pos)
  | .popFront pos =>
    if s.availableIds = [] then none
    else some ({ s with availableIds := s.availableIds.tail }.goto u (.assertPos pos))
  | .assertPos pos => if -1 < pos then some (s.goto u (.push pos)) else none
  | .push pos => some (s.goto u (.pushed pos .pushing .queued))
  | .pushed pos .pushing t =>
    some (s.goto u (.pushed pos .returned (if keeps then t else t.release)))
  | .pushed pos .returned t =>
    some ({ s.discard (s.pending pos) with
      pending := Function.update s.pending pos (some u) }.goto u (.pushed pos .stored t))
  | .pushed _ .stored _ => none

/-- The task of call `u` makes its next step. -/
def work (keeps : Bool) (s : State) (u : ℕ) : Option State :=
  match s.call u with
  | .pushed pos b .queued => some (s.goto u (.pushed pos b .running))
  | .pushed pos b .running => some (s.goto u (.pushed pos b .returned))
  | .pushed pos b .returned =>
    some (s.goto u (.pushed pos b (if s.needed keeps u pos b then .kept else .lock)))
  | .pushed pos b .lock =>
    if s.mutex = none then some ({ s with mutex := some u }.goto u (.pushed pos b .unlock)) else none
  | .pushed pos b .unlock => some ({ s with mutex := none }.goto u (.pushed pos b .pushBack))
  | .pushed pos b .pushBack =>
    some ({ s with availableIds := s.availableIds ++ [pos] }.goto u (.pushed pos b .finished))
  | _ => none

/-- **The step of the pool.** -/
def step (keeps : Bool) (s : State) : Action → Option State
  | .launch u => if s.call u = .idle then some (s.launch u) else none
  | .advance u => s.advance keeps u
  | .work u => s.work keeps u

end State

/-! ### What a step does -/

namespace Call

/-- `get_pos` is in flight. -/
def inGetPos : Call → Bool
  | .lock | .unlock | .front | .popFront _ | .assertPos _ => true
  | _ => false

/-- What the call has removed from the list. -/
def pos : Call → Option ℤ
  | .assertPos pos | .push pos | .pushed pos _ _ => some pos
  | .idle | .lock | .unlock | .front | .popFront _ => none

/-- The id that the call has taken and its task has not put back. -/
def id : Call → Option ℤ
  | .assertPos pos | .push pos => some pos
  | .pushed pos _ t => if t = .finished then none else some pos
  | .idle | .lock | .unlock | .front | .popFront _ => none

/-- The call has been made, and its task has not put the id back. -/
def unfinished : Call → Bool
  | .idle | .pushed _ _ .finished => false
  | _ => true

/-- The front that the call has read and not removed. -/
def reading : Call → Option ℤ
  | .popFront pos => some pos
  | _ => none

/-- The slot that its future has been stored in. -/
def filed : Call → Option ℤ
  | .pushed pos .stored _ => some pos
  | _ => none

/-- From `c` to `d` nothing changes of what the call has. -/
structure Keeps (c d : Call) : Prop where
  pos : d.pos = c.pos
  id : d.id = c.id
  unfinished : d.unfinished = c.unfinished
  reading : d.reading = none
  filed : d.filed = c.filed
  idle : c ≠ .idle ∧ d ≠ .idle

end Call

/-- A closure that is released is as unfinished as before. -/
theorem Call.keeps_release (pos : ℤ) (b : Stage) (t : Task) :
    (Call.pushed pos b t).Keeps (.pushed pos b t.release) := by
  cases b <;> cases t <;> exact ⟨rfl, rfl, rfl, rfl, rfl, nofun, nofun⟩

/-- A task that is not done goes on. -/
theorem Call.Keeps.task {c : Call} {pos : ℤ} {b : Stage} {t t' : Task} (hc : c = .pushed pos b t)
    (ht : t ≠ .finished) (ht' : t' ≠ .finished) : c.Keeps (.pushed pos b t') := by
  rw [hc]
  cases b <;> cases t <;> cases t' <;>
    first | exact ⟨rfl, rfl, rfl, rfl, rfl, nofun, nofun⟩ | exact absurd rfl ht | exact absurd rfl ht'

/-- Whose step it is. -/
def Action.thread : Action → ℕ
  | .launch u | .advance u | .work u => u

/-- **A step of call `u` or of its task.** -/
inductive Moves (keeps : Bool) (s : State) (u : ℕ) : Action → State → Prop
  /-- The call is made. -/
  | launches : s.call u = .idle → Moves keeps s u (.launch u) (s.launch u)
  /-- It keeps what it has. -/
  | turns {a : Action} {m : Option ℕ} {c : Call} : (s.call u).Keeps c →
      Moves keeps s u a ({ s with mutex := m }.goto u c)
  /-- It stores its future. -/
  | stores {pos : ℤ} {t : Task} : s.call u = .pushed pos .returned t →
      Moves keeps s u (.advance u) ({ s.discard (s.pending pos) with
        pending := Function.update s.pending pos (some u) }.goto u (.pushed pos .stored t))
  /-- It reads the front of the list. -/
  | reads {pos : ℤ} : s.call u = .front → s.availableIds.head? = some pos →
      Moves keeps s u (.advance u) (s.goto u (.popFront pos))
  /-- It removes the front. -/
  | takes {pos : ℤ} : s.call u = .popFront pos → s.availableIds ≠ [] →
      Moves keeps s u (.advance u)
        ({ s with availableIds := s.availableIds.tail }.goto u (.assertPos pos))
  /-- Its task puts the id back. -/
  | returns {pos : ℤ} {b : Stage} : s.call u = .pushed pos b .pushBack →
      Moves keeps s u (.work u)
        ({ s with availableIds := s.availableIds ++ [pos] }.goto u (.pushed pos b .finished))

namespace State

variable {keeps : Bool} {s s' : State} {a : Action} {u v : ℕ}

@[simp] theorem goto_call (s : State) (u v : ℕ) (c : Call) :
    (s.goto u c).call v = if v = u then c else s.call v :=
  Function.update_apply ..

/-- What `discard` does to a call. -/
theorem discard_cases (s : State) (x : Option ℕ) (v : ℕ) : (s.discard x).call v = s.call v ∨
    ∃ pos t, x = some v ∧ s.call v = .pushed pos .stored t ∧
      (s.discard x).call v = .pushed pos .stored t.release := by
  cases x with
  | none => exact .inl rfl
  | some w =>
    simp only [discard]
    split
    · rename_i pos t hw
      rw [goto_call]
      split
      · rename_i e
        exact .inr ⟨pos, t, by rw [e], by rw [e, hw], rfl⟩
      · exact .inl rfl
    · exact .inl rfl

/-- It touches the calls only. -/
theorem discard_eq (s : State) (x : Option ℕ) :
    s.discard x = { s with call := (s.discard x).call } := by
  cases x with
  | none => rfl
  | some w =>
    simp only [discard]
    split <;> rfl

theorem advance_spec (h : s.advance keeps u = some s') : Moves keeps s u (.advance u) s' := by
  unfold advance at h
  split at h
  case h_2 hc =>
    simp only [Option.ite_none_right_eq_some, Option.some.injEq] at h
    obtain ⟨-, rfl⟩ := h
    exact .turns (by rw [hc]; exact ⟨rfl, rfl, rfl, rfl, rfl, nofun, nofun⟩)
  case h_3 hc =>
    cases h
    exact .turns (by rw [hc]; exact ⟨rfl, rfl, rfl, rfl, rfl, nofun, nofun⟩)
  case h_4 hc =>
    obtain ⟨pos, hp, rfl⟩ := Option.map_eq_some_iff.mp h
    exact .reads hc hp
  case h_5 hc =>
    simp only [Option.ite_none_left_eq_some, Option.some.injEq] at h
    obtain ⟨hn, rfl⟩ := h
    exact .takes hc hn
  case h_6 hc =>
    simp only [Option.ite_none_right_eq_some, Option.some.injEq] at h
    obtain ⟨-, rfl⟩ := h
    exact .turns (m := s.mutex) (by rw [hc]; exact ⟨rfl, rfl, rfl, rfl, rfl, nofun, nofun⟩)
  case h_7 hc =>
    cases h
    exact .turns (m := s.mutex) (by rw [hc]; exact ⟨rfl, rfl, rfl, rfl, rfl, nofun, nofun⟩)
  case h_8 pos t hc =>
    cases h
    refine .turns (m := s.mutex) ?_
    rw [hc]
    split <;> cases t <;> exact ⟨rfl, rfl, rfl, rfl, rfl, nofun, nofun⟩
  case h_9 pos t hc =>
    cases h
    exact .stores hc
  all_goals cases h

theorem work_spec (h : s.work keeps u = some s') : Moves keeps s u (.work u) s' := by
  unfold work at h
  split at h
  case h_4 hc =>
    simp only [Option.ite_none_right_eq_some, Option.some.injEq] at h
    obtain ⟨-, rfl⟩ := h
    exact .turns (.task hc nofun nofun)
  case h_5 hc =>
    cases h
    exact .turns (.task hc nofun nofun)
  case h_6 hc =>
    cases h
    exact .returns hc
  case h_3 hc =>
    cases h
    refine .turns (m := s.mutex) (.task hc nofun ?_)
    split <;> nofun
  case h_7 => cases h
  all_goals
    rename_i hc
    cases h
    exact .turns (m := s.mutex) (.task hc nofun nofun)

/-- **A step is a move of one call or of its task.** -/
theorem step_spec (h : s.step keeps a = some s') : Moves keeps s a.thread a s' := by
  cases a with
  | launch u =>
    simp only [step, Option.ite_none_right_eq_some, Option.some.injEq] at h
    obtain ⟨hc, rfl⟩ := h
    exact .launches hc
  | advance u => exact advance_spec h
  | work u => exact work_spec h

/-- The other calls stay where they are, but for one whose future is overwritten. -/
theorem call_cases_of_ne (h : s.step keeps a = some s') (hv : v ≠ a.thread) :
    s'.call v = s.call v ∨ ∃ pos p t t', s.call a.thread = .pushed p .returned t' ∧
      s.pending p = some v ∧ s.call v = .pushed pos .stored t ∧
      s'.call v = .pushed pos .stored t.release := by
  have hm := step_spec h
  generalize a.thread = u at hm hv
  cases hm with
  | @stores p t' hu =>
    have hs : ({ s.discard (s.pending p) with
        pending := Function.update s.pending p (some u) }.goto u (.pushed p .stored t')).call v =
        (s.discard (s.pending p)).call v := (goto_call _ _ _ _).trans (if_neg hv)
    rcases discard_cases s (s.pending p) v with hc | ⟨pos, t, hp, hc, hc'⟩
    · exact .inl (hs.trans hc)
    · exact .inr ⟨pos, p, t, t', hu, hp, hc, hs.trans hc'⟩
  | _ => exact .inl ((goto_call _ _ _ _).trans (if_neg hv))

end State

end MutilsTasks.FutureFreePool
