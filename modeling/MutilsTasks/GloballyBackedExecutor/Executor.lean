import Mathlib.Algebra.Ring.Int.Defs
import Mathlib.Algebra.Ring.Nat
import MutilsTasks.Library.Machine
import MutilsTasks.Library.Tokens

/-!
# The executor on the global pool

`GloballyBackedExecutor_impl` keeps cells of memory, `remember_these`, and a set of their
indices, `indices`. A task takes an index out of the set, works on that cell and puts
the index back when it leaves its scope. `increase_mem` makes cells and hands their
indices to the set.

Any number of tasks run on the global pool, interleaved with one thread that calls
`increase_mem` and `set_mem_to`. A step is one access to what they share: `pop`, the lookup of
the behavior, each access to `remember_these`, the end of the behavior, the end of
`onException`, the action of the `AtScopeEnd`, and for the other thread `init` and `add`.
Behaviors, `onException`, `init` and the construction of a cell may throw. A
`SafeSet` hands out any of its elements, and `pop` waits while there is none.

`remember_these` is a `std::vector` of `unique_ptr`s, and nothing synchronises the accesses to
it. It has its cells in a storage that `_M_start` and `_M_finish` point into. `at` reads
`_M_finish` and `_M_start` to test its argument and `_M_start` again to find the cell; the
difference of two pointers into different storages may be anything. `emplace_back` writes behind
the last cell and raises `_M_finish`, if there is room. If not, it makes a larger storage with the
new cell, moves the others over one by one, which leaves null pointers, frees the old storage and
sets `_M_start` and `_M_finish`. A behavior that is called with what a null pointer or freed memory
points to goes on like any other.

`indices` holds `int`s; `increase_mem` counts in `size_t`, and `at` takes one. The
conversions between them are written out. What has been handed to `add` is a ghost
member. A `set_mem_to` that fails its first assertion does nothing, as where assertions
are compiled out.
-/

namespace MutilsTasks.GloballyBackedExecutor

/-- A `size_t` as an `int`. -/
def toInt (n : ℕ) : ℤ := Int.bmod n (2 ^ 32)

/-- An `int` as a `size_t`. -/
def toSize (i : ℤ) : ℕ := (i % (2 ^ 64 : ℕ)).toNat

/-- `SafeSet::add`. -/
def add (l : List ℤ) (i : ℤ) : List ℤ := if i ∈ l then l else l ++ [i]

/-- A `unique_ptr<Mem>` in a storage. -/
inductive Slot where
  /-- There is none, or the storage has been freed. -/
  | raw
  /-- A null pointer. -/
  | null
  /-- It points to `Mem(i)`. -/
  | mem (i : ℕ)
  deriving DecidableEq

/-- What it points to. -/
def Slot.get : Slot → Option ℕ
  | .mem i => some i
  | .raw | .null => none

/-- What a task does next. -/
inductive Task where
  /-- It has not been launched. -/
  | unlaunched
  /-- `indices.pop()`. -/
  | launched (command : ℤ)
  /-- `behaviors.at(command)`. -/
  | lookup (command memIndx : ℤ)
  /-- `remember_these.at(mem_indx)` reads `_M_finish`. -/
  | readFinish (memIndx : ℤ)
  /-- It has read that there are `size` cells up to `_M_finish`, which points into storage `finishAt`,
  and reads `_M_start`. -/
  | readStart (memIndx : ℤ) (finishAt size : ℕ)
  /-- It throws. -/
  | thrown (memIndx : ℤ)
  /-- It reads `_M_start` to find the cell. -/
  | readCell (memIndx : ℤ)
  /-- The cell, in storage `startAt`, is dereferenced. -/
  | deref (memIndx : ℤ) (startAt : ℕ)
  /-- The behavior works on `Mem(cell)`, if the pointer was one. -/
  | behaving (memIndx : ℤ) (cell : Option ℕ)
  /-- `onException`. -/
  | handling (memIndx : ℤ)
  /-- The action of the `AtScopeEnd`: `indices.add(mem_indx)`. -/
  | leaving (memIndx : ℤ) (threw : Bool)
  /-- It is done, with a result or, if `threw`, an exception. -/
  | finished (threw : Bool)
  deriving DecidableEq

/-- What the thread that grows the memory does next. -/
inductive Grower where
  /-- Anything the user likes. -/
  | idle
  /-- `remember_these.emplace_back(new Mem(i))`. -/
  | emplace (i max : ℕ)
  /-- It raises `_M_finish`. -/
  | raise (i max : ℕ)
  /-- It moves cell `k` to the new storage, or frees the old one. -/
  | move (i max k : ℕ)
  /-- It sets `_M_start`. -/
  | setStart (i max : ℕ)
  /-- It sets `_M_finish`. -/
  | setFinish (i max : ℕ)
  /-- `init(i,*remember_these.at(i))`. -/
  | init (i max : ℕ)
  /-- `indices.add(i)`. -/
  | add (i max : ℕ)
  deriving DecidableEq

/-- A state of the executor. -/
structure State where
  /-- `mem_count()`, the size of `remember_these`: how far `_M_finish` is from the beginning of its
  storage. -/
  memCount : ℕ
  /-- The storage that `_M_start` points to. -/
  start : ℕ
  /-- The storage that `_M_finish` points into. -/
  finishAt : ℕ
  /-- How many cells the storage has room for. -/
  capacity : ℕ
  /-- The storages. -/
  cell : ℕ → ℕ → Slot
  /-- `indices`. -/
  indices : List ℤ
  /-- What `increase_mem` has handed to `indices.add`. -/
  handed : List ℤ
  /-- The tasks. -/
  task : ℕ → Task
  /-- The thread that grows the memory. -/
  grower : Grower

/-- What happens next. -/
inductive Action where
  /-- Task `u` is launched. -/
  | launch (u : ℕ) (command : ℤ)
  /-- Task `u` is given an index. -/
  | pop (u : ℕ) (memIndx : ℤ)
  /-- Task `u` goes on to look up its behavior and its cell, where `d` is the difference of two
  pointers that have none. -/
  | lookup (u d : ℕ)
  /-- The behavior of task `u` ends. -/
  | behave (u : ℕ) (throws : Bool)
  /-- `onException` in task `u` ends. -/
  | handle (u : ℕ) (throws : Bool)
  /-- Task `u` leaves its scope. -/
  | leave (u : ℕ)
  /-- `increase_mem` is called. -/
  | increaseMem (howmuch : ℕ)
  /-- `set_mem_to` is called. -/
  | setMemTo (value : ℕ)
  /-- The growing thread makes its next step. -/
  | grow (throws : Bool)
  deriving DecidableEq

namespace State

/-- A new executor. -/
def init : State := ⟨0, 0, 0, 0, fun _ _ => .raw, [], [], fun _ => .unlaunched, .idle⟩

/-- Task `u` turns to `t`. -/
def goto (s : State) (u : ℕ) (t : Task) : State := { s with task := Function.update s.task u t }

/-- The growing thread turns to `g`. -/
def growTo (s : State) (g : Grower) : State := { s with grower := g }

/-- The loop of `increase_mem`, where it tests `i < max`. -/
def loop (i max : ℕ) : Grower := if i < max then .emplace i max else .idle

/-- `increase_mem`, up to its loop. -/
def increaseMem (s : State) (howmuch : ℕ) : State :=
  s.growTo (loop s.memCount ((howmuch + s.memCount) % 2 ^ 64))

/-- `set_mem_to`, up to the loop. -/
def setMemTo (s : State) (value : ℕ) : State :=
  if s.memCount < value then s.increaseMem (value - s.memCount) else s

/-- Slot `k` of storage `b` is written. -/
def write (s : State) (b k : ℕ) (x : Slot) : State :=
  { s with cell := Function.update s.cell b (Function.update (s.cell b) k x) }

/-- Storage `b` is freed. -/
def free (s : State) (b : ℕ) : State := { s with cell := Function.update s.cell b fun _ => .raw }

/-- Task `u` makes its next step in `behaviors.at(command)(mem_indx,*remember_these.at(mem_indx))`, up
to the call. -/
def lookup (behaviors : ℕ) (s : State) (u d : ℕ) : Option State :=
  match s.task u with
  | .lookup command i =>
    some (s.goto u (if toSize command < behaviors then .readFinish i else .handling i))
  | .readFinish i => some (s.goto u (.readStart i s.finishAt s.memCount))
  | .readStart i b n =>
    some (s.goto u (if toSize i < (if b = s.start then n else d) then .readCell i else .thrown i))
  | .thrown i => some (s.goto u (.handling i))
  | .readCell i => some (s.goto u (.deref i s.start))
  | .deref i b => some (s.goto u (.behaving i (s.cell b (toSize i)).get))
  | _ => none

/-- `emplace_back` begins: the cell is written behind the last one, or to a new storage. -/
def emplace (s : State) (i max : ℕ) : State :=
  if s.memCount < s.capacity then (s.write s.start s.memCount (.mem i)).growTo (.raise i max)
  else (s.write (s.start + 1) s.memCount (.mem i)).growTo (.move i max 0)

/-- Cell `k` is moved, or the old storage is freed. -/
def move (s : State) (i max k : ℕ) : State :=
  if k < s.memCount then
    ((s.write (s.start + 1) k (s.cell s.start k)).write s.start k .null).growTo (.move i max (k + 1))
  else (s.free s.start).growTo (.setStart i max)

/-- **The step of the executor**, which has `behaviors` behaviors. -/
def step (behaviors : ℕ) (s : State) : Action → Option State
  | .launch u command =>
    if s.task u = .unlaunched then some (s.goto u (.launched command)) else none
  | .pop u i =>
    match s.task u with
    | .launched command =>
      if i ∈ s.indices then
        some ({ s with indices := s.indices.erase i }.goto u (.lookup command i))
      else none
    | _ => none
  | .lookup u d => s.lookup behaviors u d
  | .behave u throws =>
    match s.task u with
    | .behaving i _ => some (s.goto u (if throws then .handling i else .leaving i false))
    | _ => none
  | .handle u throws =>
    match s.task u with
    | .handling i => some (s.goto u (.leaving i throws))
    | _ => none
  | .leave u =>
    match s.task u with
    | .leaving i threw => some ({ s with indices := add s.indices i }.goto u (.finished threw))
    | _ => none
  | .increaseMem howmuch => if s.grower = .idle then some (s.increaseMem howmuch) else none
  | .setMemTo value => if s.grower = .idle then some (s.setMemTo value) else none
  | .grow throws =>
    match s.grower, throws with
    | .idle, _ => none
    | .emplace _ _, true | .init _ _, true => some (s.growTo .idle)
    | .raise _ _, true | .move _ _ _, true | .setStart _ _, true | .setFinish _ _, true
    | .add _ _, true => none
    | .emplace i max, false => some (s.emplace i max)
    | .raise i max, false => some ({ s with memCount := s.memCount + 1 }.growTo (.init i max))
    | .move i max k, false => some (s.move i max k)
    | .setStart i max, false => some ({ s with start := s.start + 1 }.growTo (.setFinish i max))
    | .setFinish i max, false =>
      some ({ s with
        memCount := s.memCount + 1
        finishAt := s.start
        capacity := s.memCount + Nat.max s.memCount 1 }.growTo (.init i max))
    | .init i max, false => some (s.growTo (.add i max))
    | .add i max, false =>
      some ({ s with indices := add s.indices (toInt i), handed := s.handed ++ [toInt i] }.growTo
        (loop (i + 1) max))

end State

/-! ### What a step does -/

/-- The index that a task has. -/
def Task.index : Task → Option ℤ
  | .lookup _ i | .readFinish i | .readStart i _ _ | .thrown i | .readCell i | .deref i _
  | .behaving i _ | .handling i | .leaving i _ => some i
  | .unlaunched | .launched _ | .finished _ => none

/-- Whose step it is. -/
def Action.task : Action → Option ℕ
  | .launch u _ | .pop u _ | .lookup u _ | .behave u _ | .handle u _ | .leave u => some u
  | .increaseMem _ | .setMemTo _ | .grow _ => none

/-- The cell that `emplace_back` is making. -/
def Grower.making : Grower → Option ℕ
  | .emplace i _ | .raise i _ | .move i _ _ | .setStart i _ | .setFinish i _ => some i
  | .idle | .init _ _ | .add _ _ => none

/-- **A step.** -/
inductive Moves (s : State) : State → Prop
  /-- A task keeps its index, or has none. -/
  | turns {u : ℕ} {t : Task} : t.index = (s.task u).index → Moves s (s.goto u t)
  /-- A task takes an index. -/
  | pops {u : ℕ} {i : ℤ} {t : Task} : (s.task u).index = none → t.index = some i → i ∈ s.indices →
      Moves s ({ s with indices := s.indices.erase i }.goto u t)
  /-- A task puts its index back. -/
  | leaves {u : ℕ} {i : ℤ} {t : Task} : (s.task u).index = some i → t.index = none →
      Moves s ({ s with indices := add s.indices i }.goto u t)
  /-- The growing thread is called. -/
  | calls {max : ℕ} : s.grower = .idle → Moves s (s.growTo (State.loop s.memCount max))
  /-- The call has nothing to do, or something in it throws. -/
  | stops : Moves s (s.growTo .idle)
  /-- A cell is being made. -/
  | makes {b : ℕ} {m : ℕ → ℕ → Slot} {g : Grower} : s.grower.making ≠ none →
      g.making = s.grower.making → Moves s ({ s with start := b, cell := m }.growTo g)
  /-- A cell is made. -/
  | emplaces {i max b c : ℕ} : s.grower.making = some i →
      Moves s ({ s with memCount := s.memCount + 1, finishAt := b, capacity := c }.growTo
        (.init i max))
  /-- A cell is initialized. -/
  | inits {i max : ℕ} : s.grower = .init i max → Moves s (s.growTo (.add i max))
  /-- An index is handed to the set. -/
  | adds {i max : ℕ} : s.grower = .add i max →
      Moves s ({ s with indices := add s.indices (toInt i), handed := s.handed ++ [toInt i] }.growTo
        (State.loop (i + 1) max))

namespace State

variable {behaviors : ℕ} {s s' : State} {a : Action}

theorem lookup_spec {u d : ℕ} (h : s.lookup behaviors u d = some s') : Moves s s' := by
  unfold lookup at h
  split at h
  case h_1 ht =>
    cases h
    split <;> exact .turns (by rw [ht]; rfl)
  case h_3 ht =>
    cases h
    exact .turns (by rw [ht, apply_ite Task.index]; exact ite_self _)
  case h_7 => cases h
  all_goals
    rename_i ht
    cases h
    exact .turns (by rw [ht]; rfl)

theorem grow_spec {throws : Bool} (h : s.step behaviors (.grow throws) = some s') : Moves s s' := by
  cases throws with
  | true => cases hg : s.grower <;> simp only [step, hg] at h <;> cases h <;> exact .stops
  | false =>
    cases hg : s.grower with
    | idle => simp [step, hg] at h
    | emplace i max =>
      simp only [step, hg, Option.some.injEq] at h
      subst h
      unfold emplace
      split <;> exact .makes (b := s.start) (by simp [hg, Grower.making]) (by rw [hg]; rfl)
    | raise i max =>
      simp only [step, hg, Option.some.injEq] at h
      subst h
      exact .emplaces (b := s.finishAt) (c := s.capacity) (by rw [hg]; rfl)
    | move i max k =>
      simp only [step, hg, Option.some.injEq] at h
      subst h
      unfold move
      split <;> exact .makes (b := s.start) (by simp [hg, Grower.making]) (by rw [hg]; rfl)
    | setStart i max =>
      simp only [step, hg, Option.some.injEq] at h
      subst h
      exact .makes (m := s.cell) (by simp [hg, Grower.making]) (by rw [hg]; rfl)
    | setFinish i max =>
      simp only [step, hg, Option.some.injEq] at h
      subst h
      exact .emplaces (by rw [hg]; rfl)
    | init i max =>
      simp only [step, hg, Option.some.injEq] at h
      subst h
      exact .inits hg
    | add i max =>
      simp only [step, hg, Option.some.injEq] at h
      subst h
      exact .adds hg

theorem step_spec (h : s.step behaviors a = some s') : Moves s s' := by
  cases a with
  | launch u command =>
    simp only [step, Option.ite_none_right_eq_some, Option.some.injEq] at h
    obtain ⟨ht, rfl⟩ := h
    exact .turns (by rw [ht]; rfl)
  | pop u i =>
    simp only [step] at h
    split at h
    · rename_i ht
      simp only [Option.ite_none_right_eq_some, Option.some.injEq] at h
      obtain ⟨hi, rfl⟩ := h
      exact .pops (by rw [ht]; rfl) rfl hi
    · cases h
  | lookup u d => exact lookup_spec h
  | behave u throws =>
    simp only [step] at h
    split at h
    · rename_i ht
      cases h
      cases throws <;> exact .turns (by rw [ht]; rfl)
    · cases h
  | handle u throws =>
    simp only [step] at h
    split at h
    · rename_i ht
      cases h
      exact .turns (by rw [ht]; rfl)
    · cases h
  | leave u =>
    simp only [step] at h
    split at h
    · rename_i ht
      cases h
      exact .leaves (by rw [ht]; rfl) rfl
    · cases h
  | increaseMem howmuch =>
    simp only [step, Option.ite_none_right_eq_some, Option.some.injEq] at h
    obtain ⟨hg, rfl⟩ := h
    exact .calls hg
  | setMemTo value =>
    simp only [step, Option.ite_none_right_eq_some, Option.some.injEq] at h
    obtain ⟨hg, rfl⟩ := h
    unfold setMemTo
    split
    · exact .calls hg
    · rw [show s = s.growTo .idle by rw [← hg]; rfl]
      exact .stops
  | grow throws => exact grow_spec h

end State

end MutilsTasks.GloballyBackedExecutor
