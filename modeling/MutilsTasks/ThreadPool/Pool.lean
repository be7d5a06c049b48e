import Mathlib.Algebra.Order.Ring.Int
import Mathlib.Tactic.Simps.Basic
import MutilsTasks.Library.Machine

/-!
# The thread pool

`ctpl::thread_pool` has a queue of tasks and a vector of threads. A client pushes a task
without a lock, then locks `mutex` and notifies one thread. A thread takes tasks until the
queue is empty, then waits under `mutex` for one. The owner changes the number of threads
with `resize` and ends them with `stop`; the destructor is `stop(true)`.

Any number of clients push, in any interleaving with the threads and the owner. A step is
one access to what they share: each call of the queue, each read and store of `isDone` and
of a flag, the change of `nWaiting`, the locking and unlocking of `mutex`, each notification
and each `join`. `resize` and `stop` are called from one thread, as their comments ask, so
the owner's accesses to `isStop`, `threads` and `flags` are not seen by anyone else. Threads
may wake for no reason, and tasks return: what they throw stays in their `packaged_task`.

The queue's calls are atomic, and it may hand out any of its elements. It may also refuse one that
it has: a consumer first counts itself and then finds out that there is nothing for it, and until
it has said so another one takes the element that is there for taken. A task is named by
how many had been enqueued before it, a thread by how many had been started. `std::thread`
terminates the program when it is destroyed while it is joinable; `terminated` says that it
has. `pop` and `clear_queue` may be called by anyone, and take one element after another.
What has been run, what users have removed and what `stop` has deleted are ghost members.
-/

namespace MutilsTasks.ThreadPool

/-- Who can have `mutex` locked. -/
inductive Party where
  /-- A thread of the pool. -/
  | worker (w : ℕ)
  /-- A caller of `push`. -/
  | client (c : ℕ)
  /-- The caller of `resize` and `stop`. -/
  | owner
  deriving DecidableEq

/-- What a thread of the pool does next: the lambda in `set_thread`. -/
inductive Worker where
  /-- It has not been started. -/
  | absent
  /-- `isPop = this->q.pop(_f)`. -/
  | pop
  /-- `(*_f)(i)`. -/
  | call (t : ℕ)
  /-- The task runs. -/
  | running (t : ℕ)
  /-- `if (_flag)`. -/
  | testFlag
  /-- It locks `mutex`. -/
  | lock
  /-- `++this->nWaiting`. -/
  | enter
  /-- The predicate that it waits for: `isPop = this->q.pop(_f)`. -/
  | popAgain
  /-- The predicate reads `isDone`. -/
  | readDone
  /-- The predicate reads `_flag`. -/
  | readFlag
  /-- The predicate was false: `cv.wait` unlocks `mutex` and blocks. -/
  | block
  /-- Nothing, until it is woken. -/
  | blocked
  /-- `cv.wait` locks `mutex` again. -/
  | woken
  /-- `--this->nWaiting`. -/
  | leave (f : Option ℕ)
  /-- It unlocks `mutex`. -/
  | unlock (f : Option ℕ)
  /-- It has returned. -/
  | exited
  deriving DecidableEq

/-- What a caller of `push` does next. -/
inductive Client where
  /-- Anything else. -/
  | idle
  /-- `this->q.push(_f)`. -/
  | enqueue
  /-- It locks `mutex`. -/
  | lock
  /-- `this->cv.notify_one()`. -/
  | notify
  /-- It unlocks `mutex`. -/
  | unlock
  deriving DecidableEq

/-- Why the owner calls `notify_all`. -/
inductive Reason where
  /-- `resize` has detached all but `n` threads. -/
  | shrink (n : ℕ)
  /-- `stop`. -/
  | stop
  deriving DecidableEq

/-- What the owner does next. -/
inductive Owner where
  /-- Anything else. -/
  | idle
  /-- `resize` starts threads until there are `n`. -/
  | grow (n : ℕ)
  /-- `resize` detaches the thread before place `i`, down to place `n`. -/
  | detach (i n : ℕ)
  /-- `stop(false)` sets the flag at place `i`. -/
  | setFlag (i : ℕ)
  /-- `stop(false)` empties the queue. -/
  | clear
  /-- It locks `mutex`. -/
  | lock (r : Reason)
  /-- `this->cv.notify_all()`. -/
  | notify (r : Reason)
  /-- It unlocks `mutex`. -/
  | unlock (r : Reason)
  /-- `this->threads.resize(nThreads)` and `this->flags.resize(nThreads)`. -/
  | truncate (n : ℕ)
  /-- `stop` joins the thread at place `i`. -/
  | join (i : ℕ)
  /-- `stop` empties the queue at its end. -/
  | clearLast
  /-- `this->threads.clear()` and `this->flags.clear()`. -/
  | clearThreads
  deriving DecidableEq

/-- A state of the pool and of those who use it. -/
structure State where
  /-- `q`. -/
  q : List ℕ
  /-- `isDone`. -/
  isDone : Bool
  /-- `isStop`. -/
  isStop : Bool
  /-- `nWaiting`. -/
  nWaiting : ℤ
  /-- Who has `mutex` locked. -/
  mutex : Option Party
  /-- `threads`, and with them `flags`. -/
  threads : List ℕ
  /-- The flag that a thread shares with the pool. -/
  flag : ℕ → Bool
  /-- The `i` that a thread was started with. -/
  index : ℕ → ℕ
  /-- Whether a `std::thread` is joinable. -/
  joinable : ℕ → Bool
  /-- The threads of the pool. -/
  worker : ℕ → Worker
  /-- The callers of `push`. -/
  client : ℕ → Client
  /-- The owner. -/
  owner : Owner
  /-- How many threads have been started. -/
  started : ℕ
  /-- How many tasks have been enqueued. -/
  pushed : ℕ
  /-- The tasks that have been run. -/
  ran : List ℕ
  /-- The tasks that users have taken with `pop` and `clear_queue`. -/
  removed : List ℕ
  /-- The tasks that `stop` has deleted. -/
  deleted : List ℕ
  /-- A `std::thread` was destroyed while it was joinable. -/
  terminated : Bool

/-- What happens next. -/
inductive Action where
  /-- Client `c` calls `push`. -/
  | push (c : ℕ)
  /-- Client `c` makes its next step. -/
  | client (c : ℕ)
  /-- The `notify_one` of client `c` wakes thread `w`. -/
  | notifyOne (c w : ℕ)
  /-- Thread `w` makes its next step. -/
  | work (w : ℕ)
  /-- The queue gives task `t` to thread `w`. -/
  | take (w t : ℕ)
  /-- Thread `w` wakes for no reason. -/
  | wake (w : ℕ)
  /-- A call of `pop`, or of `clear_queue` by a user, takes task `t`. -/
  | remove (t : ℕ)
  /-- The owner calls `resize(n)`. -/
  | resize (n : ℕ)
  /-- The owner calls `stop(isWait)`. -/
  | stop (isWait : Bool)
  /-- The owner makes its next step. -/
  | own
  /-- `stop` takes task `t` from the queue to delete it. -/
  | clear (t : ℕ)
  /-- Thread `w` is refused a task. -/
  | miss (w : ℕ)
  /-- `stop` is refused a task. -/
  | missOwner
  deriving DecidableEq

namespace State

/-- `init`. The constructor then calls `resize`. -/
def init : State where
  q := []
  isDone := false
  isStop := false
  nWaiting := 0
  mutex := none
  threads := []
  flag _ := false
  index _ := 0
  joinable _ := false
  worker _ := .absent
  client _ := .idle
  owner := .idle
  started := 0
  pushed := 0
  ran := []
  removed := []
  deleted := []
  terminated := false

/-- Thread `w` turns to `c`. -/
@[simps] def setWorker (s : State) (w : ℕ) (c : Worker) : State :=
  { s with worker := Function.update s.worker w c }

/-- Client `u` turns to `c`. -/
@[simps] def setClient (s : State) (u : ℕ) (c : Client) : State :=
  { s with client := Function.update s.client u c }

/-- The owner turns to `o`. -/
@[simps] def setOwner (s : State) (o : Owner) : State := { s with owner := o }

/-- `notify_all`. -/
@[simps] def notifyAll (s : State) : State :=
  { s with worker := fun w => if s.worker w = .blocked then .woken else s.worker w }

/-- No thread is blocked. -/
def noneBlocked (s : State) : Bool := (List.range s.started).all fun w => s.worker w ≠ .blocked

/-- `set_thread`: a new thread at the end of the vector. -/
@[simps] def setThread (s : State) : State :=
  { s with
    threads := s.threads ++ [s.started]
    flag := Function.update s.flag s.started false
    index := Function.update s.index s.started s.threads.length
    joinable := Function.update s.joinable s.started true
    worker := Function.update s.worker s.started .pop
    started := s.started + 1 }

/-- The threads in the list are destroyed. -/
def destroyed (s : State) (l : List ℕ) : Bool := s.terminated || l.any s.joinable

/-- Thread `w` makes its next step. -/
def work (s : State) (w : ℕ) : Option State :=
  match s.worker w with
  | .absent | .blocked | .exited => none
  | .pop => if s.q = [] then some (s.setWorker w .lock) else none
  | .call t => some (s.setWorker w (.running t))
  | .running t => some ({ s with ran := s.ran ++ [t] }.setWorker w .testFlag)
  | .testFlag => some (s.setWorker w (if s.flag w then .exited else .pop))
  | .lock =>
    if s.mutex = none then some ({ s with mutex := some (.worker w) }.setWorker w .enter) else none
  | .enter => some ({ s with nWaiting := s.nWaiting + 1 }.setWorker w .popAgain)
  | .popAgain => if s.q = [] then some (s.setWorker w .readDone) else none
  | .readDone => some (s.setWorker w (if s.isDone then .leave none else .readFlag))
  | .readFlag => some (s.setWorker w (if s.flag w then .leave none else .block))
  | .block => some ({ s with mutex := none }.setWorker w .blocked)
  | .woken =>
    if s.mutex = none then some ({ s with mutex := some (.worker w) }.setWorker w .popAgain)
    else none
  | .leave f => some ({ s with nWaiting := s.nWaiting - 1 }.setWorker w (.unlock f))
  | .unlock (some t) => some ({ s with mutex := none }.setWorker w (.call t))
  | .unlock none => some ({ s with mutex := none }.setWorker w .exited)

/-- Client `c` makes its next step. -/
def advance (s : State) (c : ℕ) : Option State :=
  match s.client c with
  | .idle => none
  | .enqueue => some ({ s with q := s.q ++ [s.pushed], pushed := s.pushed + 1 }.setClient c .lock)
  | .lock =>
    if s.mutex = none then some ({ s with mutex := some (.client c) }.setClient c .notify) else none
  | .notify => if s.noneBlocked then some (s.setClient c .unlock) else none
  | .unlock => some ({ s with mutex := none }.setClient c .idle)

/-- What the owner does after it has called `notify_all`. -/
def afterNotify : Reason → Owner
  | .shrink n => .truncate n
  | .stop => .join 0

/-- The owner makes its next step. -/
def own (s : State) : Option State :=
  match s.owner with
  | .idle => none
  | .grow n => some (if s.threads.length < n then s.setThread else s.setOwner .idle)
  | .detach i n =>
    if n < i then
      match s.threads[i - 1]? with
      | some w => some ({ s with
          flag := Function.update s.flag w true
          joinable := Function.update s.joinable w false }.setOwner (.detach (i - 1) n))
      | none => none
    else some (s.setOwner (.lock (.shrink n)))
  | .setFlag i =>
    match s.threads[i]? with
    | some w => some ({ s with flag := Function.update s.flag w true }.setOwner (.setFlag (i + 1)))
    | none => some (s.setOwner .clear)
  | .clear => if s.q = [] then some (s.setOwner (.lock .stop)) else none
  | .lock r =>
    if s.mutex = none then some ({ s with mutex := some .owner }.setOwner (.notify r)) else none
  | .notify r => some (s.notifyAll.setOwner (.unlock r))
  | .unlock r => some ({ s with mutex := none }.setOwner (afterNotify r))
  | .truncate n => some ({ s with
      threads := s.threads.take n
      terminated := s.destroyed (s.threads.drop n) }.setOwner .idle)
  | .join i =>
    match s.threads[i]? with
    | some w =>
      if s.joinable w then
        if s.worker w = .exited then
          some ({ s with joinable := Function.update s.joinable w false }.setOwner (.join (i + 1)))
        else none
      else some (s.setOwner (.join (i + 1)))
    | none => some (s.setOwner .clearLast)
  | .clearLast => if s.q = [] then some (s.setOwner .clearThreads) else none
  | .clearThreads => some ({ s with
      threads := []
      terminated := s.destroyed s.threads }.setOwner .idle)

/-- `resize`. -/
def resize (s : State) (n : ℕ) : State :=
  if !s.isStop && !s.isDone then
    if s.threads.length ≤ n then s.setOwner (.grow n) else s.setOwner (.detach s.threads.length n)
  else s

/-- `stop`. -/
def stop (s : State) (isWait : Bool) : State :=
  if isWait then
    if s.isDone || s.isStop then s else { s with isDone := true }.setOwner (.lock .stop)
  else if s.isStop then s else { s with isStop := true }.setOwner (.setFlag 0)

/-- **The step of the pool.** -/
def step (s : State) : Action → Option State
  | .push c => if s.client c = .idle then some (s.setClient c .enqueue) else none
  | .client c => s.advance c
  | .notifyOne c w =>
    if s.client c = .notify ∧ s.worker w = .blocked then
      some ((s.setClient c .unlock).setWorker w .woken)
    else none
  | .work w => s.work w
  | .take w t =>
    if t ∈ s.q then
      match s.worker w with
      | .pop => some ({ s with q := s.q.erase t }.setWorker w (.call t))
      | .popAgain => some ({ s with q := s.q.erase t }.setWorker w (.leave (some t)))
      | _ => none
    else none
  | .wake w => if s.worker w = .blocked then some (s.setWorker w .woken) else none
  | .remove t =>
    if t ∈ s.q then some { s with q := s.q.erase t, removed := s.removed ++ [t] } else none
  | .resize n => if s.owner = .idle then some (s.resize n) else none
  | .stop isWait => if s.owner = .idle then some (s.stop isWait) else none
  | .own => s.own
  | .clear t =>
    if t ∈ s.q ∧ (s.owner = .clear ∨ s.owner = .clearLast) then
      some { s with q := s.q.erase t, deleted := s.deleted ++ [t] }
    else none
  | .miss w =>
    if s.q = [] then none
    else
      match s.worker w with
      | .pop => some (s.setWorker w .lock)
      | .popAgain => some (s.setWorker w .readDone)
      | _ => none
  | .missOwner =>
    if s.q = [] then none
    else
      match s.owner with
      | .clear => some (s.setOwner (.lock .stop))
      | .clearLast => some (s.setOwner .clearThreads)
      | _ => none

end State

/-! ### What a step does -/

/-- **`q.pop` fails only if the queue is empty.** -/
def Action.sure : Action → Bool
  | .miss _ | .missOwner => false
  | _ => true

/-- **A step of thread `w` that changes nothing but where it is.** -/
inductive Turn (a : Action) (s : State) (w : ℕ) : Worker → Worker → Prop
  | misses : (a.sure = true → s.q = []) → Turn a s w .pop .lock
  | calls {t : ℕ} : Turn a s w (.call t) (.running t)
  | retires : s.flag w = true → Turn a s w .testFlag .exited
  | goesOn : s.flag w = false → Turn a s w .testFlag .pop
  | missesAgain : (a.sure = true → s.q = []) → Turn a s w .popAgain .readDone
  | done : s.isDone = true → Turn a s w .readDone (.leave none)
  | notDone : s.isDone = false → Turn a s w .readDone .readFlag
  | flagged : s.flag w = true → Turn a s w .readFlag (.leave none)
  | unflagged : s.flag w = false → Turn a s w .readFlag .block
  | wakes : Turn a s w .blocked .woken

/-- **A step of the owner that changes nothing but where it is.** -/
inductive OwnerTurn (s : State) : Action → Owner → Owner → Prop
  | grows {n : ℕ} : s.isDone = false → s.isStop = false → s.threads.length ≤ n →
      OwnerTurn s (.resize n) .idle (.grow n)
  | grown {a : Action} {n : ℕ} : n ≤ s.threads.length → OwnerTurn s a (.grow n) .idle
  | shrinks {n : ℕ} : s.isDone = false → s.isStop = false → n < s.threads.length →
      OwnerTurn s (.resize n) .idle (.detach s.threads.length n)
  | detached {a : Action} {i n : ℕ} : i ≤ n → OwnerTurn s a (.detach i n) (.lock (.shrink n))
  | allFlagged {a : Action} {i : ℕ} : s.threads.length ≤ i → OwnerTurn s a (.setFlag i) .clear
  | cleared {a : Action} : (a.sure = true → s.q = []) → OwnerTurn s a .clear (.lock .stop)
  | skips {a : Action} {i w : ℕ} : s.threads[i]? = some w → s.joinable w = false →
      OwnerTurn s a (.join i) (.join (i + 1))
  | joined {a : Action} {i : ℕ} : s.threads.length ≤ i → OwnerTurn s a (.join i) .clearLast
  | clearedLast {a : Action} : (a.sure = true → s.q = []) → OwnerTurn s a .clearLast .clearThreads

/-- **A step**, as it changes what the parties share. -/
inductive Moves (s : State) : Action → State → Prop
  /-- Nothing: `resize` or `stop` returns at once. -/
  | stays {a : Action} : Moves s a s
  /-- A thread goes on. -/
  | turns {a : Action} {w : ℕ} {c : Worker} : Turn a s w (s.worker w) c →
      Moves s a (s.setWorker w c)
  /-- A thread takes a task. -/
  | takes {a : Action} {w t : ℕ} {c : Worker} : t ∈ s.q →
      s.worker w = .pop ∧ c = .call t ∨ s.worker w = .popAgain ∧ c = .leave (some t) →
      Moves s a ({ s with q := s.q.erase t }.setWorker w c)
  /-- A task is done. -/
  | ends {a : Action} {w t : ℕ} : s.worker w = .running t →
      Moves s a ({ s with ran := s.ran ++ [t] }.setWorker w .testFlag)
  /-- A thread locks `mutex`. -/
  | locks {a : Action} {w : ℕ} {c : Worker} : s.mutex = none →
      s.worker w = .lock ∧ c = .enter ∨ s.worker w = .woken ∧ c = .popAgain →
      Moves s a ({ s with mutex := some (.worker w) }.setWorker w c)
  /-- A thread is about to wait. -/
  | enters {a : Action} {w : ℕ} : s.worker w = .enter →
      Moves s a ({ s with nWaiting := s.nWaiting + 1 }.setWorker w .popAgain)
  /-- A thread has waited. -/
  | leaves {a : Action} {w : ℕ} {f : Option ℕ} : s.worker w = .leave f →
      Moves s a ({ s with nWaiting := s.nWaiting - 1 }.setWorker w (.unlock f))
  /-- A thread unlocks `mutex`. -/
  | unlocks {a : Action} {w : ℕ} {c : Worker} : s.worker w = .block ∧ c = .blocked ∨
      (∃ t, s.worker w = .unlock (some t) ∧ c = .call t) ∨ s.worker w = .unlock none ∧ c = .exited →
      Moves s a ({ s with mutex := none }.setWorker w c)
  /-- A client begins to push. -/
  | pushes {u : ℕ} : s.client u = .idle → Moves s (.push u) (s.setClient u .enqueue)
  /-- A client enqueues its task. -/
  | enqueues {a : Action} {u : ℕ} : s.client u = .enqueue →
      Moves s a ({ s with q := s.q ++ [s.pushed], pushed := s.pushed + 1 }.setClient u .lock)
  /-- A client locks `mutex`. -/
  | clientLocks {a : Action} {u : ℕ} : s.client u = .lock → s.mutex = none →
      Moves s a ({ s with mutex := some (.client u) }.setClient u .notify)
  /-- A client wakes nobody. -/
  | notifiesNobody {a : Action} {u : ℕ} : s.client u = .notify →
      (∀ w < s.started, s.worker w ≠ .blocked) → Moves s a (s.setClient u .unlock)
  /-- A client wakes a thread. -/
  | notifies {a : Action} {u w : ℕ} : s.client u = .notify → s.worker w = .blocked →
      Moves s a ((s.setClient u .unlock).setWorker w .woken)
  /-- A client unlocks `mutex`. -/
  | clientUnlocks {a : Action} {u : ℕ} : s.client u = .unlock →
      Moves s a ({ s with mutex := none }.setClient u .idle)
  /-- A user takes a task. -/
  | removes {a : Action} {t : ℕ} : t ∈ s.q →
      Moves s a { s with q := s.q.erase t, removed := s.removed ++ [t] }
  /-- The owner deletes a task. -/
  | deletes {a : Action} {t : ℕ} : t ∈ s.q → s.owner = .clear ∨ s.owner = .clearLast →
      Moves s a { s with q := s.q.erase t, deleted := s.deleted ++ [t] }
  /-- The owner goes on. -/
  | ownerTurns {a : Action} {o : Owner} : OwnerTurn s a s.owner o → Moves s a (s.setOwner o)
  /-- The owner starts a thread. -/
  | starts {a : Action} {n : ℕ} : s.owner = .grow n → s.threads.length < n →
      Moves s a s.setThread
  /-- The owner detaches a thread. -/
  | detaches {a : Action} {i n w : ℕ} : s.owner = .detach (i + 1) n → n ≤ i →
      s.threads[i]? = some w → Moves s a ({ s with
        flag := Function.update s.flag w true
        joinable := Function.update s.joinable w false }.setOwner (.detach i n))
  /-- The owner tells a thread to stop. -/
  | flags {a : Action} {i w : ℕ} : s.owner = .setFlag i → s.threads[i]? = some w →
      Moves s a ({ s with flag := Function.update s.flag w true }.setOwner (.setFlag (i + 1)))
  /-- The owner locks `mutex`. -/
  | ownerLocks {a : Action} {r : Reason} : s.owner = .lock r → s.mutex = none →
      Moves s a ({ s with mutex := some .owner }.setOwner (.notify r))
  /-- The owner wakes all threads. -/
  | notifiesAll {a : Action} {r : Reason} : s.owner = .notify r →
      Moves s a (s.notifyAll.setOwner (.unlock r))
  /-- The owner unlocks `mutex`. -/
  | ownerUnlocks {a : Action} {r : Reason} : s.owner = .unlock r →
      Moves s a ({ s with mutex := none }.setOwner (State.afterNotify r))
  /-- The owner shortens the vector. -/
  | truncates {a : Action} {n : ℕ} : s.owner = .truncate n → Moves s a ({ s with
      threads := s.threads.take n, terminated := s.destroyed (s.threads.drop n) }.setOwner .idle)
  /-- The owner tells the threads to finish. -/
  | finishes : s.owner = .idle → s.isDone = false → s.isStop = false →
      Moves s (.stop true) ({ s with isDone := true }.setOwner (.lock .stop))
  /-- The owner tells the threads to stop. -/
  | stops {a : Action} : s.owner = .idle → s.isStop = false →
      Moves s a ({ s with isStop := true }.setOwner (.setFlag 0))
  /-- The owner joins a thread. -/
  | joins {a : Action} {i w : ℕ} : s.owner = .join i → s.threads[i]? = some w →
      s.worker w = .exited → Moves s a
        ({ s with joinable := Function.update s.joinable w false }.setOwner (.join (i + 1)))
  /-- The owner empties the vector. -/
  | clearsThreads {a : Action} : s.owner = .clearThreads → Moves s a ({ s with
      threads := [], terminated := s.destroyed s.threads }.setOwner .idle)

namespace State

variable {s s' : State} {a : Action} {w : ℕ}

theorem noneBlocked_iff : s.noneBlocked = true ↔ ∀ w < s.started, s.worker w ≠ .blocked := by
  simp [noneBlocked]

theorem work_spec (h : s.work w = some s') : Moves s a s' := by
  unfold work at h
  split at h <;> rename_i hw
  · cases h
  · cases h
  · cases h
  · obtain ⟨hq, rfl⟩ : s.q = [] ∧ s.setWorker w .lock = s' := by simpa using h
    exact .turns (hw ▸ .misses fun _ => hq)
  · cases h
    exact .turns (hw ▸ .calls)
  · cases h
    exact .ends hw
  · cases h
    cases hf : s.flag w with
    | true => exact .turns (hw ▸ .retires hf)
    | false => exact .turns (hw ▸ .goesOn hf)
  · simp only [Option.ite_none_right_eq_some, Option.some.injEq] at h
    obtain ⟨hm, rfl⟩ := h
    exact .locks hm (.inl ⟨hw, rfl⟩)
  · cases h
    exact .enters hw
  · obtain ⟨hq, rfl⟩ : s.q = [] ∧ s.setWorker w .readDone = s' := by simpa using h
    exact .turns (hw ▸ .missesAgain fun _ => hq)
  · cases h
    cases hd : s.isDone with
    | true => exact .turns (hw ▸ .done hd)
    | false => exact .turns (hw ▸ .notDone hd)
  · cases h
    cases hf : s.flag w with
    | true => exact .turns (hw ▸ .flagged hf)
    | false => exact .turns (hw ▸ .unflagged hf)
  · cases h
    exact .unlocks (.inl ⟨hw, rfl⟩)
  · simp only [Option.ite_none_right_eq_some, Option.some.injEq] at h
    obtain ⟨hm, rfl⟩ := h
    exact .locks hm (.inr ⟨hw, rfl⟩)
  · cases h
    exact .leaves hw
  · cases h
    exact .unlocks (.inr (.inl ⟨_, hw, rfl⟩))
  · cases h
    exact .unlocks (.inr (.inr ⟨hw, rfl⟩))

theorem advance_spec {u : ℕ} (h : s.advance u = some s') : Moves s a s' := by
  unfold advance at h
  split at h <;> rename_i hu
  · cases h
  · cases h
    exact .enqueues hu
  · simp only [Option.ite_none_right_eq_some, Option.some.injEq] at h
    obtain ⟨hm, rfl⟩ := h
    exact .clientLocks hu hm
  · simp only [Option.ite_none_right_eq_some, Option.some.injEq] at h
    obtain ⟨hn, rfl⟩ := h
    exact .notifiesNobody hu (noneBlocked_iff.mp hn)
  · cases h
    exact .clientUnlocks hu

theorem own_spec (h : s.own = some s') : Moves s a s' := by
  unfold own at h
  split at h <;> rename_i ho
  · cases h
  · cases h
    split
    · exact .starts ho ‹_›
    · exact .ownerTurns (ho ▸ .grown (Nat.le_of_not_lt ‹_›))
  · rename_i i n
    split at h
    · rename_i hi
      obtain ⟨j, rfl⟩ : ∃ j, i = j + 1 := ⟨i - 1, by omega⟩
      split at h <;> rename_i hw
      · cases h
        exact .detaches ho (by omega) hw
      · cases h
    · cases h
      exact .ownerTurns (ho ▸ .detached (by omega))
  · split at h <;> rename_i hw <;> cases h
    · exact .flags ho hw
    · exact .ownerTurns (ho ▸ .allFlagged (List.getElem?_eq_none_iff.mp hw))
  · obtain ⟨hq, rfl⟩ : s.q = [] ∧ s.setOwner (.lock .stop) = s' := by simpa using h
    exact .ownerTurns (ho ▸ .cleared fun _ => hq)
  · simp only [Option.ite_none_right_eq_some, Option.some.injEq] at h
    obtain ⟨hm, rfl⟩ := h
    exact .ownerLocks ho hm
  · cases h
    exact .notifiesAll ho
  · cases h
    exact .ownerUnlocks ho
  · cases h
    exact .truncates ho
  · split at h <;> rename_i hw
    · split at h
      · simp only [Option.ite_none_right_eq_some, Option.some.injEq] at h
        obtain ⟨he, rfl⟩ := h
        exact .joins ho hw he
      · rename_i hj
        cases h
        exact .ownerTurns (ho ▸ .skips hw (by simpa using hj))
    · cases h
      exact .ownerTurns (ho ▸ .joined (List.getElem?_eq_none_iff.mp hw))
  · obtain ⟨hq, rfl⟩ : s.q = [] ∧ s.setOwner .clearThreads = s' := by simpa using h
    exact .ownerTurns (ho ▸ .clearedLast fun _ => hq)
  · cases h
    exact .clearsThreads ho

theorem resize_spec {n : ℕ} (ho : s.owner = .idle) : Moves s (.resize n) (s.resize n) := by
  unfold resize
  split
  · rename_i h
    simp only [Bool.and_eq_true, Bool.not_eq_eq_eq_not, Bool.not_true] at h
    split
    · exact .ownerTurns (ho ▸ .grows h.2 h.1 ‹_›)
    · exact .ownerTurns (ho ▸ .shrinks h.2 h.1 (by omega))
  · exact .stays

theorem stop_spec {b : Bool} (ho : s.owner = .idle) : Moves s (.stop b) (s.stop b) := by
  unfold stop
  cases b with
  | true =>
    rw [if_pos rfl]
    split
    · exact .stays
    · rename_i h
      simp only [Bool.or_eq_true, not_or, Bool.not_eq_true] at h
      exact .finishes ho h.1 h.2
  | false =>
    rw [if_neg Bool.false_ne_true]
    split
    · exact .stays
    · exact .stops ho (by simpa using ‹¬ s.isStop = true›)

theorem step_spec (h : s.step a = some s') : Moves s a s' := by
  cases a with
  | push c =>
    simp only [step, Option.ite_none_right_eq_some, Option.some.injEq] at h
    obtain ⟨hc, rfl⟩ := h
    exact .pushes hc
  | client c => exact advance_spec h
  | notifyOne c w =>
    simp only [step, Option.ite_none_right_eq_some, Option.some.injEq] at h
    obtain ⟨⟨hc, hw⟩, rfl⟩ := h
    exact .notifies hc hw
  | work w => exact work_spec h
  | take w t =>
    simp only [step, Option.ite_none_right_eq_some] at h
    obtain ⟨ht, h⟩ := h
    split at h <;> rename_i hw
    · cases h
      exact .takes ht (.inl ⟨hw, rfl⟩)
    · cases h
      exact .takes ht (.inr ⟨hw, rfl⟩)
    · cases h
  | wake w =>
    simp only [step, Option.ite_none_right_eq_some, Option.some.injEq] at h
    obtain ⟨hw, rfl⟩ := h
    exact .turns (hw ▸ .wakes)
  | remove t =>
    simp only [step, Option.ite_none_right_eq_some, Option.some.injEq] at h
    obtain ⟨ht, rfl⟩ := h
    exact .removes ht
  | resize n =>
    simp only [step, Option.ite_none_right_eq_some, Option.some.injEq] at h
    obtain ⟨ho, rfl⟩ := h
    exact resize_spec ho
  | stop b =>
    simp only [step, Option.ite_none_right_eq_some, Option.some.injEq] at h
    obtain ⟨ho, rfl⟩ := h
    exact stop_spec ho
  | own => exact own_spec h
  | clear t =>
    simp only [step, Option.ite_none_right_eq_some, Option.some.injEq] at h
    obtain ⟨⟨ht, ho⟩, rfl⟩ := h
    exact .deletes ht ho
  | miss w =>
    simp only [step, Option.ite_none_left_eq_some] at h
    obtain ⟨-, h⟩ := h
    split at h <;> rename_i hw <;> cases h
    · exact .turns (hw ▸ .misses fun hn => absurd hn Bool.false_ne_true)
    · exact .turns (hw ▸ .missesAgain fun hn => absurd hn Bool.false_ne_true)
  | missOwner =>
    simp only [step, Option.ite_none_left_eq_some] at h
    obtain ⟨-, h⟩ := h
    split at h <;> rename_i ho <;> cases h
    · exact .ownerTurns (ho ▸ .cleared fun hn => absurd hn Bool.false_ne_true)
    · exact .ownerTurns (ho ▸ .clearedLast fun hn => absurd hn Bool.false_ne_true)

end State

end MutilsTasks.ThreadPool
