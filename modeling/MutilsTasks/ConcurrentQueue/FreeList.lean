import Mathlib.Data.Nat.ModEq
import Mathlib.Tactic.Simps.Basic
import MutilsTasks.Library.Machine

/-!
# The free list of the lock-free queue

`FreeList` is where `ConcurrentQueue` keeps the blocks it does not use: a stack of nodes whose
head is changed by `compare_exchange`. A thread that wants the first node must read the node
behind it before it can move the head, and in between the first node may be taken, used and put
back on top of something else. Each node therefore has a word of 32 bits, `freeListRefs`: the
number of threads that look at it, and one more for the list, and in the upper bit whether the
node should be on the list. A node is only pushed when nobody looks at it; otherwise its bit is
set, and the last one that looks pushes it.

Any number of threads add and get nodes, in any interleaving. A step is one access to what they
share; the accesses of all threads are in one order. A node is a number, and at first all of them
are with the users. Who has a node is a ghost member.
-/

namespace MutilsTasks.ConcurrentQueue.FreeList

/-- `SHOULD_BE_ON_FREELIST`. -/
def shouldBeOnFreelist : ℕ := 2 ^ 31

/-- `refs & REFS_MASK`. -/
def masked (refs : ℕ) : ℕ := refs % 2 ^ 31

/-- `fetch_add` on a word of 32 bits. -/
def fetchAdd (refs d : ℕ) : ℕ := (refs + d) % 2 ^ 32

/-- `fetch_add(-d)`. -/
def fetchSub (refs d : ℕ) : ℕ := (refs + (2 ^ 32 - d)) % 2 ^ 32

theorem fetchAdd_of_lt {refs d : ℕ} (h : refs + d < 2 ^ 32) : fetchAdd refs d = refs + d :=
  Nat.mod_eq_of_lt h

theorem fetchSub_of_le {refs d : ℕ} (hd : d ≤ refs) (h : refs < 2 ^ 32) :
    fetchSub refs d = refs - d := by
  unfold fetchSub
  omega

/-- Who has called `add_knowing_refcount_is_zero`. -/
inductive Caller where
  /-- `add`. -/
  | add
  /-- `try_get`, which goes on with its loop. -/
  | tryGet (head : Option ℕ)
  deriving DecidableEq

/-- What a thread does next. -/
inductive Pc where
  /-- Anything else. -/
  | idle
  /-- `add(node)`: `node->freeListRefs.fetch_add(SHOULD_BE_ON_FREELIST)`. -/
  | add (node : ℕ)
  /-- `add_knowing_refcount_is_zero(node)`: `head = freeListHead.load()`. -/
  | loadHead (node : ℕ) (k : Caller)
  /-- `node->freeListNext.store(head)`. -/
  | storeNext (node : ℕ) (head : Option ℕ) (k : Caller)
  /-- `node->freeListRefs.store(1)`. -/
  | storeRefs (node : ℕ) (head : Option ℕ) (k : Caller)
  /-- `freeListHead.compare_exchange_strong(head, node)`. -/
  | push (node : ℕ) (head : Option ℕ) (k : Caller)
  /-- The `compare_exchange` has failed:
  `node->freeListRefs.fetch_add(SHOULD_BE_ON_FREELIST - 1)`. -/
  | pushFailed (node : ℕ) (head : Option ℕ) (k : Caller)
  /-- `try_get`: `head = freeListHead.load()`. -/
  | getHead
  /-- `refs = head->freeListRefs.load()`. -/
  | loadRefs (head : ℕ)
  /-- `head->freeListRefs.compare_exchange_strong(refs, refs + 1)`. -/
  | casRefs (head refs : ℕ)
  /-- `next = head->freeListNext.load()`. -/
  | loadNext (head : ℕ)
  /-- `freeListHead.compare_exchange_strong(head, next)`. -/
  | pop (head : ℕ) (next : Option ℕ)
  /-- The node has been got: `head->freeListRefs.fetch_add(-2)`. -/
  | got (head : ℕ)
  /-- The `compare_exchange` has failed: `prevHead->freeListRefs.fetch_add(-1)`. -/
  | popFailed (prevHead : ℕ) (head : Option ℕ)
  deriving DecidableEq

/-- A state of the list and of those who use it. -/
structure State where
  /-- `freeListHead`. -/
  freeListHead : Option ℕ
  /-- `freeListNext`, of each node. -/
  freeListNext : ℕ → Option ℕ
  /-- `freeListRefs`, of each node. -/
  freeListRefs : ℕ → ℕ
  /-- The threads. -/
  pc : ℕ → Pc
  /-- Whether a user has the node. -/
  user : ℕ → Bool

/-- What happens next. -/
inductive Action where
  /-- Thread `u` calls `add` with a node that it has. -/
  | add (u node : ℕ)
  /-- Thread `u` calls `try_get`. -/
  | tryGet (u : ℕ)
  /-- Thread `u` makes its next step. -/
  | work (u : ℕ)
  deriving DecidableEq

/-- The thread that makes the step. -/
def Action.thread : Action → ℕ
  | .add u _ | .tryGet u | .work u => u

namespace State

/-- A new list. -/
def init : State := ⟨none, fun _ => none, fun _ => 0, fun _ => .idle, fun _ => true⟩

/-- Thread `u` turns to `c`. -/
@[simps] def goto (s : State) (u : ℕ) (c : Pc) : State := { s with pc := Function.update s.pc u c }

/-- The word of `node` is now `refs`. -/
@[simps] def setRefs (s : State) (node refs : ℕ) : State :=
  { s with freeListRefs := Function.update s.freeListRefs node refs }

/-- A user has `node` now, or has it no more. -/
@[simps] def setUser (s : State) (node : ℕ) (b : Bool) : State :=
  { s with user := Function.update s.user node b }

/-- `while (head != nullptr)`. -/
def loop : Option ℕ → Pc
  | none => .idle
  | some head => .loadRefs head

/-- `add_knowing_refcount_is_zero` returns. -/
def after : Caller → Pc
  | .add => .idle
  | .tryGet head => loop head

/-- Thread `u` makes its next step. -/
def work (s : State) (u : ℕ) : Option State :=
  match s.pc u with
  | .idle => none
  | .add n =>
    some ((s.setRefs n (fetchAdd (s.freeListRefs n) shouldBeOnFreelist)).goto u
      (if s.freeListRefs n = 0 then .loadHead n .add else .idle))
  | .loadHead n k => some (s.goto u (.storeNext n s.freeListHead k))
  | .storeNext n h k =>
    some ({ s with freeListNext := Function.update s.freeListNext n h }.goto u (.storeRefs n h k))
  | .storeRefs n h k => some ((s.setRefs n 1).goto u (.push n h k))
  | .push n h k =>
    if s.freeListHead = h then some ({ s with freeListHead := some n }.goto u (after k))
    else some (s.goto u (.pushFailed n s.freeListHead k))
  | .pushFailed n h k =>
    some ((s.setRefs n (fetchAdd (s.freeListRefs n) (shouldBeOnFreelist - 1))).goto u
      (if s.freeListRefs n = 1 then .storeNext n h k else after k))
  | .getHead => some (s.goto u (loop s.freeListHead))
  | .loadRefs n =>
    some (s.goto u (if masked (s.freeListRefs n) = 0 then .getHead else .casRefs n (s.freeListRefs n)))
  | .casRefs n refs =>
    if s.freeListRefs n = refs then some ((s.setRefs n (fetchAdd refs 1)).goto u (.loadNext n))
    else some (s.goto u .getHead)
  | .loadNext n => some (s.goto u (.pop n (s.freeListNext n)))
  | .pop n next =>
    if s.freeListHead = some n then some ({ s with freeListHead := next }.goto u (.got n))
    else some (s.goto u (.popFailed n s.freeListHead))
  | .got n =>
    some (((s.setRefs n (fetchSub (s.freeListRefs n) 2)).setUser n true).goto u .idle)
  | .popFailed n h =>
    some ((s.setRefs n (fetchSub (s.freeListRefs n) 1)).goto u
      (if s.freeListRefs n = shouldBeOnFreelist + 1 then .loadHead n (.tryGet h) else loop h))

/-- **The step of the list.** -/
def step (s : State) : Action → Option State
  | .add u n =>
    if s.pc u = .idle ∧ s.user n = true then some ((s.setUser n false).goto u (.add n)) else none
  | .tryGet u => if s.pc u = .idle then some (s.goto u .getHead) else none
  | .work u => s.work u

end State

end MutilsTasks.ConcurrentQueue.FreeList
