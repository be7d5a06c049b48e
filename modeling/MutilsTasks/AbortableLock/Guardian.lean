import MutilsTasks.Library.Machine
import Mathlib.Data.Nat.Notation
import Mathlib.Logic.Function.Basic

/-!
# The abortable lock

`abortable_locked_guardian` is a flag, `critical_region_occupied`, and a condition
variable `cv` with its own mutex. `lock_or_abort` waits under `cv.m` until the flag is
clear or `abort_condition` returns true, and sets the flag. `abortable_mutex::unlock`
clears it, and does not lock `cv.m`.

Any number of threads call `lock_or_abort` and release what it returned, in any
interleaving. A step is one access to shared memory: each read and store of the flag,
each call of `abort_condition`, the locking of `cv.m`, the release of `cv.m` together
with the blocking, and each `notify_all` is a step of its own. `abort_condition` returns,
and may return anything each time. Threads may wake for no reason.

`cv.wait` builds the `condition_held` in place that `lock_or_abort` keeps. The string
thrown after the failed assertion is what happens where assertions are compiled out;
where they are not, the program ends there. The mutex inside `abortable_mutex` exists
under `MUTILS_DEBUG` only and is left out.
-/

namespace MutilsTasks.AbortableLock

/-- How `lock_or_abort` ends. -/
inductive Ending where
  /-- It returns a `lock_t`. -/
  | locked
  /-- It returns `nullptr`. -/
  | null
  /-- It throws. -/
  | threw
  deriving DecidableEq

/-- What a thread does next. -/
inductive Pc where
  /-- Anything the user likes. -/
  | idle
  /-- `condition_held` locks `cv.m`. -/
  | lockMutex
  /-- The predicate that it waits for reads the flag. -/
  | readOccupied
  /-- The predicate calls `abort_condition`. -/
  | callAbort
  /-- The predicate was false: `std::condition_variable::wait` unlocks `cv.m` and blocks. -/
  | block
  /-- Nothing, until it is woken. -/
  | blocked
  /-- `std::condition_variable::wait` locks `cv.m` again. -/
  | woken
  /-- `who = &my_id`. -/
  | setWho
  /-- `lock_or_abort` calls `abort_condition`. -/
  | callAbortAgain
  /-- `lock_or_abort` reads the flag. -/
  | readOccupiedAgain
  /-- `abortable_mutex::lock`. -/
  | lock
  /-- The assertion fails. -/
  | fail
  /-- `condition_held::unlock`: `who = nullptr`. -/
  | clearWho (e : Ending)
  /-- `l.unlock()`. -/
  | unlockMutex (e : Ending)
  /-- `v.notify_all()`. -/
  | notifyAll (e : Ending)
  /-- `lock_or_abort` ends. -/
  | returning (e : Ending)
  /-- `abortable_mutex::unlock` clears the flag. -/
  | store
  /-- `parent.cv.v.notify_all()`. -/
  | notifyUnlocked
  deriving DecidableEq

/-- A state of the guardian and its threads. -/
structure State where
  /-- `critical_region_occupied`. -/
  occupied : Bool
  /-- Who has `cv.m` locked. -/
  mutex : Option ℕ
  /-- Whose `my_id` is `cv.held_by`. -/
  heldBy : Option ℕ
  /-- How many `lock_t`s are in the users' hands. -/
  held : ℕ
  /-- The threads. -/
  pc : ℕ → Pc

/-- What happens next. -/
inductive Action where
  /-- Thread `u` calls `lock_or_abort`. -/
  | call (u : ℕ)
  /-- `abort_condition` returns `b` to thread `u`. -/
  | abort (u : ℕ) (b : Bool)
  /-- Thread `u` wakes for no reason. -/
  | wake (u : ℕ)
  /-- Thread `u` makes its next step. -/
  | advance (u : ℕ)
  /-- Thread `u` releases a `lock_t`. -/
  | release (u : ℕ)
  deriving DecidableEq

namespace State

/-- A new guardian. -/
def init : State := ⟨false, none, none, 0, fun _ => .idle⟩

/-- Thread `u` turns to `c`. -/
def goto (s : State) (u : ℕ) (c : Pc) : State := { s with pc := Function.update s.pc u c }

/-- `std::condition_variable::notify_all`. -/
def notifyAll (s : State) : State :=
  { s with pc := fun v => if s.pc v = .blocked then .woken else s.pc v }

/-- Thread `u` makes its next step. -/
def advance (s : State) (u : ℕ) : Option State :=
  match s.pc u with
  | .idle | .callAbort | .callAbortAgain | .blocked => none
  | .lockMutex | .woken =>
    if s.mutex = none then some ({ s with mutex := some u }.goto u .readOccupied) else none
  | .readOccupied => some (s.goto u (if s.occupied then .callAbort else .setWho))
  | .block => some ({ s with mutex := none }.goto u .blocked)
  | .setWho => some ({ s with heldBy := some u }.goto u .callAbortAgain)
  | .readOccupiedAgain => some (s.goto u (if s.occupied then .fail else .lock))
  | .lock => some ({ s with occupied := true }.goto u (.clearWho .locked))
  | .fail => some (s.goto u (.clearWho .threw))
  | .clearWho e => some ({ s with heldBy := none }.goto u (.unlockMutex e))
  | .unlockMutex e => some ({ s with mutex := none }.goto u (.notifyAll e))
  | .notifyAll e => some (s.notifyAll.goto u (.returning e))
  | .returning .locked => some ({ s with held := s.held + 1 }.goto u .idle)
  | .returning _ => some (s.goto u .idle)
  | .store => some ({ s with occupied := false }.goto u .notifyUnlocked)
  | .notifyUnlocked => some (s.notifyAll.goto u .idle)

/-- **The step of the machine.** -/
def step (s : State) : Action → Option State
  | .call u => if s.pc u = .idle then some (s.goto u .lockMutex) else none
  | .abort u b =>
    match s.pc u with
    | .callAbort => some (s.goto u (if b then .setWho else .block))
    | .callAbortAgain => some (s.goto u (if b then .clearWho .null else .readOccupiedAgain))
    | _ => none
  | .wake u => if s.pc u = .blocked then some (s.goto u .woken) else none
  | .advance u => s.advance u
  | .release u =>
    if s.pc u = .idle ∧ 0 < s.held then some ({ s with held := s.held - 1 }.goto u .store) else none

end State

/-! ### What a step does -/

namespace Pc

/-- The thread has `cv.m` locked. -/
def hasMutex : Pc → Bool
  | .readOccupied | .callAbort | .block | .setWho | .callAbortAgain | .readOccupiedAgain | .lock
  | .fail | .clearWho _ | .unlockMutex _ => true
  | _ => false

/-- The thread has a `lock_t` that is locked and has not cleared the flag. -/
def hasLock : Pc → Bool
  | .clearWho e | .unlockMutex e | .notifyAll e | .returning e => e = .locked
  | .store => true
  | _ => false

/-- The thread will call `notify_all` before it can block: it has a `condition_held`, or
has cleared the flag. -/
def notifies : Pc → Bool
  | .setWho | .callAbortAgain | .readOccupiedAgain | .lock | .fail | .clearWho _ | .unlockMutex _
  | .notifyAll _ | .notifyUnlocked => true
  | _ => false

/-- The thread has seen the flag set, and is not blocked yet. -/
def misses : Pc → Bool
  | .callAbort | .block => true
  | _ => false

/-- `cv.held_by` points to the thread's `my_id`. -/
def isWho : Pc → Bool
  | .callAbortAgain | .readOccupiedAgain | .lock | .fail | .clearWho _ => true
  | _ => false

theorem hasMutex_of_isWho {c : Pc} (h : c.isWho = true) : c.hasMutex = true := by
  cases c <;> first | rfl | cases h

/-- How the thread's call is about to end. -/
def ending : Pc → Option Ending
  | .clearWho e | .unlockMutex e | .notifyAll e | .returning e => some e
  | _ => none

/-- From `c` to `d` nothing changes of what the thread has, when the flag is `o`. -/
structure Keeps (o : Bool) (c d : Pc) : Prop where
  mutex : d.hasMutex = c.hasMutex
  lock : d.hasLock = c.hasLock
  who : d.isWho = c.isWho
  notifies : c.notifies = true → d.notifies = true
  misses : d.misses = true → c.misses = true ∨ o = true
  awake : d ≠ .blocked
  decided : d = .lock → o = false
  null : d.ending = some .null → c.ending = some .null ∨ c = .callAbortAgain

instance (o : Bool) (c d : Pc) : Decidable (Keeps o c d) :=
  decidable_of_iff (d.hasMutex = c.hasMutex ∧ d.hasLock = c.hasLock ∧ d.isWho = c.isWho ∧
      (c.notifies = true → d.notifies = true) ∧ (d.misses = true → c.misses = true ∨ o = true) ∧
      d ≠ .blocked ∧ (d = .lock → o = false) ∧
      (d.ending = some .null → c.ending = some .null ∨ c = .callAbortAgain))
    ⟨fun ⟨h₁, h₂, h₃, h₄, h₅, h₆, h₇, h₈⟩ => ⟨h₁, h₂, h₃, h₄, h₅, h₆, h₇, h₈⟩,
      fun h => ⟨h.mutex, h.lock, h.who, h.notifies, h.misses, h.awake, h.decided, h.null⟩⟩

end Pc

namespace State

variable {s s' : State} {u v : ℕ} {c : Pc} {a : Action}

@[simp] theorem goto_pc (s : State) (u v : ℕ) (c : Pc) :
    (s.goto u c).pc v = if v = u then c else s.pc v :=
  Function.update_apply ..

@[simp] theorem goto_occupied (s : State) (u : ℕ) (c : Pc) :
    (s.goto u c).occupied = s.occupied := rfl

@[simp] theorem goto_mutex (s : State) (u : ℕ) (c : Pc) : (s.goto u c).mutex = s.mutex := rfl

@[simp] theorem goto_heldBy (s : State) (u : ℕ) (c : Pc) : (s.goto u c).heldBy = s.heldBy := rfl

@[simp] theorem goto_held (s : State) (u : ℕ) (c : Pc) : (s.goto u c).held = s.held := rfl

/-- What `notify_all` does to a thread. -/
theorem notifyAll_pc (s : State) (v : ℕ) : s.pc v = .blocked ∧ s.notifyAll.pc v = .woken ∨
    s.pc v ≠ .blocked ∧ s.notifyAll.pc v = s.pc v := by
  by_cases h : s.pc v = .blocked <;> simp [notifyAll, h]

/-- What does not tell a woken thread from a blocked one. -/
theorem notifyAll_apply {β : Type} {f : Pc → β} (hf : f .woken = f .blocked) (s : State) (v : ℕ) :
    f (s.notifyAll.pc v) = f (s.pc v) := by
  rcases s.notifyAll_pc v with ⟨h, h'⟩ | ⟨-, h⟩
  · rw [h, h', hf]
  · rw [h]

theorem notifyAll_ne_blocked (s : State) (v : ℕ) : s.notifyAll.pc v ≠ .blocked := by
  rcases s.notifyAll_pc v with ⟨-, h⟩ | ⟨hn, h⟩
  · simp [h]
  · rwa [h]

end State

/-- **A step of thread `u`**, as it changes what the threads share. -/
inductive Moves (s : State) (u : ℕ) : Action → State → Prop
  /-- It turns to `d`, and keeps what it has. -/
  | goes {a : Action} {c d : Pc} : s.pc u = c → c.Keeps s.occupied d → Moves s u a (s.goto u d)
  /-- It becomes the one that holds the condition. -/
  | setsWho : s.pc u = .setWho →
      Moves s u (.advance u) ({ s with heldBy := some u }.goto u .callAbortAgain)
  /-- Nobody does. -/
  | clearsWho {e : Ending} : s.pc u = .clearWho e →
      Moves s u (.advance u) ({ s with heldBy := none }.goto u (.unlockMutex e))
  /-- It locks `cv.m`. -/
  | locksMutex : s.pc u = .lockMutex ∨ s.pc u = .woken → s.mutex = none →
      Moves s u (.advance u) ({ s with mutex := some u }.goto u .readOccupied)
  /-- It unlocks `cv.m` and blocks. -/
  | blocks : s.pc u = .block → Moves s u (.advance u) ({ s with mutex := none }.goto u .blocked)
  /-- It unlocks `cv.m`. -/
  | unlocksMutex {e : Ending} : s.pc u = .unlockMutex e →
      Moves s u (.advance u) ({ s with mutex := none }.goto u (.notifyAll e))
  /-- It wakes the others. -/
  | notifies {d : Pc} : (∃ e, s.pc u = .notifyAll e ∧ d = .returning e) ∨
      s.pc u = .notifyUnlocked ∧ d = .idle → Moves s u (.advance u) (s.notifyAll.goto u d)
  /-- It sets the flag. -/
  | locks : s.pc u = .lock →
      Moves s u (.advance u) ({ s with occupied := true }.goto u (.clearWho .locked))
  /-- It clears the flag. -/
  | clears : s.pc u = .store →
      Moves s u (.advance u) ({ s with occupied := false }.goto u .notifyUnlocked)
  /-- The user gets its `lock_t`. -/
  | gives : s.pc u = .returning .locked →
      Moves s u (.advance u) ({ s with held := s.held + 1 }.goto u .idle)
  /-- It gets a `lock_t` from the user. -/
  | takes : s.pc u = .idle → 0 < s.held →
      Moves s u (.release u) ({ s with held := s.held - 1 }.goto u .store)

/-- Whose step it is. -/
def Action.thread : Action → ℕ
  | .call u | .abort u _ | .wake u | .advance u | .release u => u

namespace State

variable {s s' : State} {a : Action}

theorem advance_spec {u : ℕ} (h : s.advance u = some s') : Moves s u (.advance u) s' := by
  unfold advance at h
  split at h
  case h_5 | h_6 =>
    simp only [Option.ite_none_right_eq_some, Option.some.injEq] at h
    obtain ⟨hm, rfl⟩ := h
    exact .locksMutex (by simp [*]) hm
  case h_7 hc | h_10 hc =>
    cases h
    cases ho : s.occupied <;> exact .goes hc (by rw [ho]; decide)
  case h_12 hc =>
    cases h
    exact .goes hc (by cases s.occupied <;> decide)
  case h_17 e hn hc =>
    cases h
    cases e with
    | locked => exact absurd rfl hn
    | null | threw => exact .goes hc (by cases s.occupied <;> decide)
  all_goals cases h
  · exact .blocks ‹_›
  · exact .setsWho ‹_›
  · exact .locks ‹_›
  · exact .clearsWho ‹_›
  · exact .unlocksMutex ‹_›
  · exact .notifies (.inl ⟨_, ‹_›, rfl⟩)
  · exact .gives ‹_›
  · exact .clears ‹_›
  · exact .notifies (.inr ⟨‹_›, rfl⟩)

/-- **A step is a move of one thread.** -/
theorem step_spec (h : s.step a = some s') : Moves s a.thread a s' := by
  cases a with
  | call u =>
    simp only [step, Option.ite_none_right_eq_some, Option.some.injEq] at h
    obtain ⟨hc, rfl⟩ := h
    exact .goes hc (by cases s.occupied <;> decide)
  | abort u b =>
    simp only [step] at h
    split at h <;> cases h
    · rename_i hc
      cases b <;> exact .goes hc (by cases s.occupied <;> decide)
    · rename_i hc
      cases b <;> exact .goes hc (by cases s.occupied <;> decide)
  | wake u =>
    simp only [step, Option.ite_none_right_eq_some, Option.some.injEq] at h
    obtain ⟨hc, rfl⟩ := h
    exact .goes hc (by cases s.occupied <;> decide)
  | advance u => exact advance_spec h
  | release u =>
    simp only [step, Option.ite_none_right_eq_some, Option.some.injEq] at h
    obtain ⟨⟨hc, hh⟩, rfl⟩ := h
    exact .takes hc hh

/-- The other threads stay where they are, or are woken. -/
theorem pc_of_ne {v : ℕ} (h : s.step a = some s') (hv : v ≠ a.thread) :
    s'.pc v = s.pc v ∨ s.pc v = .blocked ∧ s'.pc v = .woken := by
  have hm := step_spec h
  generalize a.thread = u at hm hv
  cases hm with
  | notifies =>
    rw [goto_pc, if_neg hv]
    exact (s.notifyAll_pc v).symm.imp And.right id
  | _ => exact .inl (by rw [goto_pc, if_neg hv])

end State

end MutilsTasks.AbortableLock
