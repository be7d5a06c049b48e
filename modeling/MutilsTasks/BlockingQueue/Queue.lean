import Mathlib.Algebra.Order.Ring.Int
import Mathlib.Tactic.Simps.Basic
import MutilsTasks.Library.Machine
import MutilsTasks.BlockingQueue.Deadline

/-!
# The blocking queue

`BlockingConcurrentQueue` is a `ConcurrentQueue`, `inner`, and a `LightweightSemaphore`: a
signed atomic `m_count` in front of a semaphore of the kernel, `m_sema`. Enqueuers put their
elements into `inner` and signal; dequeuers first wait for as many permits as they want
elements, then take the elements out of `inner` in a loop that does not look at the clock.

Any number of threads enqueue and dequeue, in any interleaving. A step is one access to what
they share: each call of `inner`, each load, `fetch_add`, `fetch_sub` and `compare_exchange`
of `m_count`, each call of the kernel. A weak `compare_exchange` may fail for no reason.

`enqueue`, `try_dequeue`, `wait_dequeue` and `wait_dequeue_timed` are the bulk operations for
one element: `tryWait` is `tryWaitMany(1)` and `waitWithPartialSpinning` is
`waitManyWithPartialSpinning(1)`, up to the type of what they return. A timeout may run out at
any time, and a negative one never does. Where the kernel refuses the deadline, `timed_wait`
says that it was let through. Enqueuing fails when memory does.

The calls of `inner` are atomic and it may hand out any of its elements; an element is named
by how many had been enqueued before it. `m_count` does not overflow, and the number of
threads that wait fits in the `int` that `m_sema.signal` takes.
-/

namespace MutilsTasks.BlockingQueue

/-- How long a dequeuer waits. -/
inductive Patience where
  /-- `try_dequeue`: not at all. -/
  | none
  /-- `wait_dequeue_timed`: for so many microseconds. -/
  | timed (usecs : ℕ)
  /-- `wait_dequeue`: for ever. -/
  | forever
  deriving DecidableEq

/-- No part of a second. -/
def Patience.Whole : Patience → Prop
  | .timed usecs => usecs % Timespec.usecsInSec = 0
  | _ => True

/-- What a thread does next. -/
inductive Pc where
  /-- Anything else. -/
  | idle
  /-- `inner.enqueue_bulk` of `n` elements. -/
  | enqueue (n : ℕ)
  /-- `signal(n)`: `m_count.fetch_add(n)`. -/
  | fetchAdd (n : ℕ)
  /-- `m_sema.signal`: `k` more calls of `sem_post`. -/
  | post (k : ℕ)
  /-- `tryWaitMany(max)` loads `m_count`; `got` permits were granted before. -/
  | load (got max : ℕ) (p : Patience)
  /-- `tryWaitMany(max)`: `m_count.compare_exchange_weak`, when `old` was read. -/
  | cas (old : ℤ) (got max : ℕ) (p : Patience)
  /-- `waitManyWithPartialSpinning(max)` loads `m_count`, or has spun enough. -/
  | spin (spin max : ℕ) (p : Patience)
  /-- `waitManyWithPartialSpinning(max)`: `m_count.compare_exchange_strong`. -/
  | spinCas (spin : ℕ) (old : ℤ) (max : ℕ) (p : Patience)
  /-- `m_sema.wait` or `m_sema.timed_wait`. -/
  | sleep (max : ℕ) (p : Patience)
  /-- The timeout has run out: the loop loads `m_count`. -/
  | adjust (max : ℕ)
  /-- The loop calls `m_sema.try_wait`. -/
  | tryWait (max : ℕ)
  /-- The loop calls `m_count.compare_exchange_strong`. -/
  | adjustCas (old : ℤ) (max : ℕ)
  /-- It has `k` permits: `inner.try_dequeue_bulk` until it has `k` elements. -/
  | dequeue (k : ℕ)
  deriving DecidableEq

/-- A state of the queue and of those who use it. -/
structure State where
  /-- `m_count`. -/
  mCount : ℤ
  /-- The value of `m_sema`. -/
  mSema : ℕ
  /-- `inner`. -/
  inner : List ℕ
  /-- The threads. -/
  pc : ℕ → Pc
  /-- How many elements have been enqueued. -/
  enqueued : ℕ
  /-- How many deadlines the kernel has refused. -/
  refused : ℕ

/-- What happens next. -/
inductive Action where
  /-- Thread `u` calls `enqueue_bulk` with `n` elements. -/
  | enqueue (u n : ℕ)
  /-- Thread `u` calls `try_dequeue_bulk`, `wait_dequeue_bulk` or `wait_dequeue_bulk_timed`. -/
  | dequeue (u max : ℕ) (p : Patience)
  /-- Thread `u` makes its next step. -/
  | work (u : ℕ)
  /-- `inner.enqueue_bulk` fails. -/
  | fail (u : ℕ)
  /-- The weak `compare_exchange` of thread `u` fails for no reason. -/
  | casFails (u : ℕ)
  /-- The timeout of thread `u` runs out. -/
  | timeout (u : ℕ)
  /-- The kernel refuses the deadline that thread `u` has computed at time `now`. -/
  | refuse (u : ℕ) (now : Timespec)
  /-- `inner` gives element `x` to thread `u`. -/
  | take (u x : ℕ)
  deriving DecidableEq

namespace State

/-- A new queue. -/
def init : State := ⟨0, 0, [], fun _ => .idle, 0, 0⟩

/-- Thread `u` turns to `c`. -/
@[simps] def goto (s : State) (u : ℕ) (c : Pc) : State := { s with pc := Function.update s.pc u c }

theorem goto_goto (s : State) (u : ℕ) (c d : Pc) : (s.goto u c).goto u d = s.goto u d := by
  simp only [goto, Function.update_idem]

/-- `oldCount > max ? oldCount - max : 0`. -/
def newCount (old : ℤ) (max : ℕ) : ℤ := if old > max then old - max else 0

/-- `spin`. -/
def spins : ℕ := 10000

/-- `tryWaitMany` returns: `got` permits, and what the caller does about it. -/
def afterTry (got max : ℕ) : Patience → Pc
  | .none => .dequeue got
  | p => if got = 0 ∧ 0 < max then .spin spins max p else .dequeue got

/-- `if (max > 1) return 1 + tryWaitMany(max - 1); return 1;` -/
def afterOne (max : ℕ) : Pc := if 1 < max then .load 1 (max - 1) .none else .dequeue 1

/-- Thread `u` makes its next step. -/
def work (s : State) (u : ℕ) : Option State :=
  match s.pc u with
  | .idle => none
  | .enqueue n => some ({ s with
      inner := s.inner ++ List.range' s.enqueued n
      enqueued := s.enqueued + n }.goto u (.fetchAdd n))
  | .fetchAdd n =>
    let toRelease := if -s.mCount < n then -s.mCount else n
    some ({ s with mCount := s.mCount + n }.goto u (if 0 < toRelease then .post toRelease.toNat else .idle))
  | .post 0 => some (s.goto u .idle)
  | .post (k + 1) => some ({ s with mSema := s.mSema + 1 }.goto u (.post k))
  | .load got max p =>
    some (s.goto u (if 0 < s.mCount then .cas s.mCount got max p else afterTry got max p))
  | .cas old got max p =>
    if s.mCount = old then
      some ({ s with mCount := newCount old max }.goto u
        (afterTry (got + (old - newCount old max).toNat) max p))
    else some (s.goto u (if 0 < s.mCount then .cas s.mCount got max p else afterTry got max p))
  | .spin 0 max p =>
    some ({ s with mCount := s.mCount - 1 }.goto u
      (if 0 < s.mCount then afterOne max else .sleep max p))
  | .spin (k + 1) max p =>
    some (s.goto u (if 0 < s.mCount then .spinCas k s.mCount max p else .spin k max p))
  | .spinCas k old max p =>
    if s.mCount = old then
      some ({ s with mCount := newCount old max }.goto u (.dequeue (old - newCount old max).toNat))
    else some (s.goto u (.spin k max p))
  | .sleep max _ =>
    if 0 < s.mSema then some ({ s with mSema := s.mSema - 1 }.goto u (afterOne max)) else none
  | .adjust max => some (s.goto u (if 0 ≤ s.mCount then .tryWait max else .adjustCas s.mCount max))
  | .tryWait max =>
    if 0 < s.mSema then some ({ s with mSema := s.mSema - 1 }.goto u (afterOne max))
    else some (s.goto u (.adjust max))
  | .adjustCas old max =>
    if s.mCount = old then some ({ s with mCount := old + 1 }.goto u .idle)
    else some (s.goto u (.adjust max))
  | .dequeue 0 => some (s.goto u .idle)
  | .dequeue (k + 1) => if s.inner = [] then some (s.goto u (.dequeue (k + 1))) else none

/-- **The step of the queue.** -/
def step (s : State) : Action → Option State
  | .enqueue u n => if s.pc u = .idle then some (s.goto u (.enqueue n)) else none
  | .dequeue u max p => if s.pc u = .idle then some (s.goto u (.load 0 max p)) else none
  | .work u => s.work u
  | .fail u =>
    match s.pc u with
    | .enqueue _ => some (s.goto u .idle)
    | _ => none
  | .casFails u =>
    match s.pc u with
    | .cas _ got max p =>
      some (s.goto u (if 0 < s.mCount then .cas s.mCount got max p else afterTry got max p))
    | _ => none
  | .timeout u =>
    match s.pc u with
    | .sleep max (.timed _) => some (s.goto u (.adjust max))
    | _ => none
  | .refuse u now =>
    match s.pc u with
    | .sleep max (.timed usecs) =>
      -- `EINVAL` is not `ETIMEDOUT`: `timed_wait` returns true.
      if now.Valid ∧ ¬ (now.deadline usecs).Valid then
        some ({ s with refused := s.refused + 1 }.goto u (afterOne max))
      else none
    | _ => none
  | .take u x =>
    match s.pc u with
    | .dequeue (k + 1) =>
      if x ∈ s.inner then some ({ s with inner := s.inner.erase x }.goto u (.dequeue k)) else none
    | _ => none

end State

/-! ### What a step does -/

namespace Pc

/-- One, if the thread has been counted in `m_count` as one that waits. -/
def waits : Pc → ℕ
  | .sleep _ _ | .adjust _ | .tryWait _ | .adjustCas _ _ => 1
  | _ => 0

/-- How many threads the thread has yet to release. -/
def posts : Pc → ℕ
  | .post k => k
  | _ => 0

/-- How many permits the thread has that it has not used. -/
def held : Pc → ℕ
  | .load got _ _ | .cas _ got _ _ => got
  | .dequeue k => k
  | _ => 0

/-- How many elements the thread has enqueued and not signalled. -/
def unsignalled : Pc → ℕ
  | .fetchAdd n => n
  | _ => 0

/-- How long the thread is ready to wait. -/
def patience : Pc → Patience
  | .load _ _ p | .cas _ _ _ p | .spin _ _ p | .spinCas _ _ _ p | .sleep _ p => p
  | _ => .none

/-- What the thread has read of `m_count` is what brought it here, and it waits only if it
may. -/
def Ok : Pc → Prop
  | .cas old _ _ _ => 0 < old
  | .spinCas _ old _ p => 0 < old ∧ p ≠ .none
  | .spin _ _ p | .sleep _ p => p ≠ .none
  | .adjustCas old _ => old < 0
  | _ => True

/-- A thread that waits has nothing else. -/
theorem has_of_waits {c : Pc} (h : c.waits = 1) : c.posts = 0 ∧ c.held = 0 ∧ c.unsignalled = 0 := by
  cases c <;> first | exact ⟨rfl, rfl, rfl⟩ | cases h

/-- From `c` to `d` nothing changes of what the thread has. -/
structure Keeps (c d : Pc) : Prop where
  waits : d.waits = c.waits
  posts : d.posts = c.posts
  held : d.held = c.held
  unsignalled : d.unsignalled = c.unsignalled

end Pc

namespace State

theorem afterTry_cases (got max : ℕ) (p : Patience) :
    afterTry got max p = .dequeue got ∨
      got = 0 ∧ p ≠ .none ∧ afterTry got max p = .spin spins max p := by
  cases p with
  | none => exact .inl rfl
  | timed | forever =>
    simp only [afterTry]
    split
    · exact .inr ⟨by omega, by simp, rfl⟩
    · exact .inl rfl

theorem afterTry_has (got max : ℕ) (p : Patience) : (afterTry got max p).waits = 0 ∧
    (afterTry got max p).posts = 0 ∧ (afterTry got max p).held = got ∧
    (afterTry got max p).unsignalled = 0 ∧ (afterTry got max p).Ok := by
  rcases afterTry_cases got max p with h | ⟨rfl, hp, h⟩ <;> rw [h]
  · exact ⟨rfl, rfl, rfl, rfl, trivial⟩
  · exact ⟨rfl, rfl, rfl, rfl, hp⟩

theorem afterOne_has (max : ℕ) : (afterOne max).waits = 0 ∧ (afterOne max).posts = 0 ∧
    (afterOne max).held = 1 ∧ (afterOne max).unsignalled = 0 ∧ (afterOne max).Ok := by
  unfold afterOne
  split <;> exact ⟨rfl, rfl, rfl, rfl, trivial⟩

/-- A `compare_exchange` takes something, and no more than there is. -/
theorem newCount_spec {old : ℤ} (max : ℕ) (h : 0 < old) :
    0 ≤ newCount old max ∧ newCount old max ≤ old ∧ (old - newCount old max).toNat ≤ max := by
  unfold newCount
  split <;> omega

end State

/-- **A step of thread `u`**, as it changes what the threads share. -/
inductive Moves (s : State) (u : ℕ) : Action → State → Prop
  /-- It goes on, and keeps what it has. -/
  | goes {a : Action} {d : Pc} : (s.pc u).Keeps d → d.Ok → Moves s u a (s.goto u d)
  /-- It enqueues `n` elements. -/
  | enqueues {a : Action} {n : ℕ} {l : List ℕ} : s.pc u = .enqueue n → l.length = n →
      Moves s u a ({ s with inner := s.inner ++ l, enqueued := s.enqueued + n }.goto u (.fetchAdd n))
  /-- It signals `n` elements, and will release `r` threads. -/
  | signals {a : Action} {n r : ℕ} {d : Pc} : s.pc u = .fetchAdd n →
      (r : ℤ) = max 0 (min (-s.mCount) n) → d = .post r ∨ r = 0 ∧ d = .idle →
      Moves s u a ({ s with mCount := s.mCount + n }.goto u d)
  /-- It releases a thread. -/
  | posts {a : Action} {k : ℕ} : s.pc u = .post (k + 1) →
      Moves s u a ({ s with mSema := s.mSema + 1 }.goto u (.post k))
  /-- It takes `t` permits from `m_count`. -/
  | acquires {a : Action} {t : ℕ} {d : Pc} : 0 ≤ s.mCount - t → (s.pc u).waits = 0 →
      (s.pc u).posts = 0 → (s.pc u).unsignalled = 0 → d.waits = 0 → d.posts = 0 →
      d.unsignalled = 0 → d.held = (s.pc u).held + t → d.Ok →
      Moves s u a ({ s with mCount := s.mCount - t }.goto u d)
  /-- It is counted as one that waits. -/
  | registers {a : Action} {m : ℕ} {p : Patience} : s.pc u = .spin 0 m p → p ≠ .none →
      s.mCount ≤ 0 →
      Moves s u a ({ s with mCount := s.mCount - 1 }.goto u (.sleep m p))
  /-- It is let through by the kernel. -/
  | wakes {a : Action} {m : ℕ} : (s.pc u).waits = 1 → 0 < s.mSema →
      Moves s u a ({ s with mSema := s.mSema - 1 }.goto u (State.afterOne m))
  /-- It is refused by the kernel, and goes on as if it had been let through. -/
  | slips {now : Timespec} {m n : ℕ} : s.pc u = .sleep m (.timed n) → now.Valid →
      ¬ (now.deadline n).Valid →
      Moves s u (.refuse u now) ({ s with refused := s.refused + 1 }.goto u (State.afterOne m))
  /-- It gives up. -/
  | leaves {a : Action} {m : ℕ} : s.pc u = .adjustCas s.mCount m → s.mCount < 0 →
      Moves s u a ({ s with mCount := s.mCount + 1 }.goto u .idle)
  /-- It takes an element. -/
  | takes {x k : ℕ} : s.pc u = .dequeue (k + 1) → x ∈ s.inner →
      Moves s u (.take u x) ({ s with inner := s.inner.erase x }.goto u (.dequeue k))

/-- The other threads stay where they are. -/
theorem Moves.pc_of_ne {s s' : State} {u v : ℕ} {a : Action} (h : Moves s u a s') (hv : v ≠ u) :
    s'.pc v = s.pc v := by
  cases h <;> exact Function.update_of_ne hv ..

/-- Whose step it is. -/
def Action.thread : Action → ℕ
  | .enqueue u _ | .dequeue u _ _ | .work u | .fail u | .casFails u | .timeout u | .refuse u _ | .take u _ => u

namespace State

variable {s s' : State} {a : Action} {u : ℕ}

/-- `tryWaitMany` has read `m_count`. -/
theorem loaded_spec {got max : ℕ} {p : Patience} (hw : (s.pc u).waits = 0)
    (hp : (s.pc u).posts = 0) (hh : (s.pc u).held = got) (hu : (s.pc u).unsignalled = 0) :
    Moves s u a (s.goto u (if 0 < s.mCount then .cas s.mCount got max p else afterTry got max p)) := by
  split
  · rename_i hm
    exact .goes ⟨hw.symm, hp.symm, hh.symm, hu.symm⟩ hm
  · obtain ⟨h₁, h₂, h₃, h₄, h₅⟩ := afterTry_has got max p
    exact .goes ⟨h₁.trans hw.symm, h₂.trans hp.symm, h₃.trans hh.symm, h₄.trans hu.symm⟩ h₅

/-- A `compare_exchange` of `m_count` succeeds. -/
theorem exchanged_spec {old : ℤ} {max : ℕ} {d : Pc} (ho : s.mCount = old) (hpos : 0 < old)
    (hw : (s.pc u).waits = 0) (hp : (s.pc u).posts = 0) (hu : (s.pc u).unsignalled = 0)
    (hd : d.waits = 0 ∧ d.posts = 0 ∧
      d.held = (s.pc u).held + (old - newCount old max).toNat ∧ d.unsignalled = 0 ∧ d.Ok) :
    Moves s u a ({ s with mCount := newCount old max }.goto u d) := by
  have hn := newCount_spec max hpos
  have heq : newCount old max = s.mCount - ((old - newCount old max).toNat : ℕ) := by omega
  have hle : 0 ≤ s.mCount - ((old - newCount old max).toNat : ℕ) := heq ▸ hn.1
  obtain ⟨h₁, h₂, h₃, h₄, h₅⟩ := hd
  generalize (old - newCount old max).toNat = t at heq hle h₃
  rw [heq]
  exact .acquires hle hw hp hu h₁ h₂ h₄ h₃ h₅

theorem work_spec (hok : (s.pc u).Ok) (h : s.work u = some s') : Moves s u a s' := by
  unfold work at h
  split at h <;> rename_i hc
  · cases h
  · cases h
    exact .enqueues hc (List.length_range' ..)
  · rename_i n
    cases h
    have hmin : (if -s.mCount < n then -s.mCount else (n : ℤ)) = min (-s.mCount) n := by
      split <;> omega
    rw [hmin]
    split
    · exact .signals (r := (min (-s.mCount) n).toNat) hc (by omega) (.inl rfl)
    · exact .signals (r := 0) hc (by omega) (.inr ⟨rfl, rfl⟩)
  · cases h
    exact .goes (by rw [hc]; exact ⟨rfl, rfl, rfl, rfl⟩) trivial
  · cases h
    exact .posts hc
  · cases h
    exact loaded_spec (by rw [hc]; rfl) (by rw [hc]; rfl) (by rw [hc]; rfl) (by rw [hc]; rfl)
  · rename_i old got max p
    split at h <;> rename_i ho <;> cases h
    · rw [hc] at hok
      refine exchanged_spec ho hok (by rw [hc]; rfl) (by rw [hc]; rfl) (by rw [hc]; rfl) ?_
      rw [hc]
      exact afterTry_has ..
    · exact loaded_spec (by rw [hc]; rfl) (by rw [hc]; rfl) (by rw [hc]; rfl) (by rw [hc]; rfl)
  · rename_i max p
    cases h
    split
    · rename_i hm
      have ha := afterOne_has max
      exact .acquires (t := 1) (by omega) (by rw [hc]; rfl) (by rw [hc]; rfl) (by rw [hc]; rfl) ha.1
        ha.2.1 ha.2.2.2.1 (by rw [hc]; exact ha.2.2.1) ha.2.2.2.2
    · rw [hc] at hok
      exact .registers hc hok (by omega)
  · rw [hc] at hok
    cases h
    split
    · rename_i hm
      exact .goes (by rw [hc]; exact ⟨rfl, rfl, rfl, rfl⟩) ⟨hm, hok⟩
    · exact .goes (by rw [hc]; exact ⟨rfl, rfl, rfl, rfl⟩) hok
  · rename_i k old max p
    have hok' : 0 < old ∧ p ≠ .none := by
      rw [hc] at hok
      exact hok
    split at h <;> rename_i ho <;> cases h
    · refine exchanged_spec ho hok'.1 (by rw [hc]; rfl) (by rw [hc]; rfl) (by rw [hc]; rfl) ?_
      rw [hc]
      exact ⟨rfl, rfl, (Nat.zero_add _).symm, rfl, trivial⟩
    · exact .goes (by rw [hc]; exact ⟨rfl, rfl, rfl, rfl⟩) hok'.2
  · simp only [Option.ite_none_right_eq_some, Option.some.injEq] at h
    obtain ⟨hm, rfl⟩ := h
    exact .wakes (by rw [hc]; rfl) hm
  · cases h
    split
    · exact .goes (by rw [hc]; exact ⟨rfl, rfl, rfl, rfl⟩) trivial
    · exact .goes (by rw [hc]; exact ⟨rfl, rfl, rfl, rfl⟩) (by simp only [Pc.Ok]; omega)
  · split at h <;> rename_i hm <;> cases h
    · exact .wakes (by rw [hc]; rfl) hm
    · exact .goes (by rw [hc]; exact ⟨rfl, rfl, rfl, rfl⟩) trivial
  · rename_i old max
    split at h <;> rename_i ho <;> cases h
    · rw [hc] at hok
      subst ho
      exact .leaves hc hok
    · exact .goes (by rw [hc]; exact ⟨rfl, rfl, rfl, rfl⟩) trivial
  · cases h
    exact .goes (by rw [hc]; exact ⟨rfl, rfl, rfl, rfl⟩) trivial
  · simp only [Option.ite_none_right_eq_some, Option.some.injEq] at h
    obtain ⟨-, rfl⟩ := h
    exact .goes (by rw [hc]; exact ⟨rfl, rfl, rfl, rfl⟩) trivial

/-- **A step is a move of one thread.** -/
theorem step_spec (hok : (s.pc a.thread).Ok) (h : s.step a = some s') : Moves s a.thread a s' := by
  cases a with
  | enqueue u n | dequeue u max p =>
    simp only [step, Option.ite_none_right_eq_some, Option.some.injEq] at h
    obtain ⟨hc, rfl⟩ := h
    exact .goes (by simp only [Action.thread, hc]; exact ⟨rfl, rfl, rfl, rfl⟩) trivial
  | work u => exact work_spec hok h
  | fail u =>
    simp only [step] at h
    split at h <;> rename_i hc <;> cases h
    exact .goes (by simp only [Action.thread, hc]; exact ⟨rfl, rfl, rfl, rfl⟩) trivial
  | casFails u =>
    simp only [step] at h
    split at h <;> rename_i hc <;> cases h
    exact loaded_spec (by simp only [Action.thread, hc]; rfl) (by simp only [Action.thread, hc]; rfl)
      (by simp only [Action.thread, hc]; rfl) (by simp only [Action.thread, hc]; rfl)
  | timeout u =>
    simp only [step] at h
    split at h <;> rename_i hc <;> cases h
    exact .goes (by simp only [Action.thread, hc]; exact ⟨rfl, rfl, rfl, rfl⟩) trivial
  | refuse u now =>
    simp only [step] at h
    split at h <;> rename_i hc
    · simp only [Option.ite_none_right_eq_some, Option.some.injEq] at h
      obtain ⟨⟨hv, hd⟩, rfl⟩ := h
      exact .slips hc hv hd
    · cases h
  | take u x =>
    simp only [step] at h
    split at h <;> rename_i hc
    · simp only [Option.ite_none_right_eq_some, Option.some.injEq] at h
      obtain ⟨hx, rfl⟩ := h
      exact .takes hc hx
    · cases h

end State

end MutilsTasks.BlockingQueue
