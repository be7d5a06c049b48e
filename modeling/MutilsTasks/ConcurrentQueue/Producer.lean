import Mathlib.Algebra.Ring.Nat
import Mathlib.Tactic.Simps.Basic
import MutilsTasks.Library.Machine

/-!
# The elements of one producer in the lock-free queue

`ConcurrentQueue` has an `ImplicitProducer` for each thread that enqueues. Its elements have
indices, in their order, and the blocks in which they are have places for `BLOCK_SIZE` of them.
The thread itself writes an element and then raises `tailIndex`. Any number of other threads
dequeue. They do not touch `headIndex` before they know that there is an element for them:
`dequeueOptimisticCount` counts those that try, `dequeueOvercommit` those that had to give up,
and whoever finds fewer before it than there are elements takes the next index, which is then
its own. The last one that is done with a block gives it back to the free list.

A step is one access to what the threads share; the accesses of all threads are in one order.
Indices are of type `std::size_t`, with 64 bits. The block index is a map from the number of a
block to the block; that it has room, and that there is a block, may fail. The free list hands
out blocks that nobody has, in which anything may be, and other producers may do anything with
blocks that are not this one's. What has been enqueued, what has been dequeued and which blocks
this producer has are ghost members.

`nothrow` says whether the constructor of an element is `noexcept`: if it is not, the first
element of a block is constructed before the block is in the index.
-/

namespace MutilsTasks.ConcurrentQueue.Producer

/-- `BLOCK_SIZE`. -/
def blockSize : ℕ := 32

/-- `fetch_add` of `index_t`. -/
def fetchAdd (a d : ℕ) : ℕ := (a + d) % 2 ^ 64

/-- `a - b` of `index_t`. -/
def sub (a b : ℕ) : ℕ := (a + (2 ^ 64 - b)) % 2 ^ 64

/-- `circular_less_than(a, b)`. -/
def circularLessThan (a b : ℕ) : Bool := sub a b > 2 ^ 63

/-- What the producer does next: `enqueue`. -/
inductive Enqueue where
  /-- Anything else. -/
  | idle
  /-- The last block is full: `head = headIndex.load()`. -/
  | readHead (x : ℕ)
  /-- `insert_block_index_entry`, then `requisition_block`. -/
  | requisition (x : ℕ)
  /-- `newBlock->reset_empty()`. -/
  | resetEmpty (x block : ℕ)
  /-- The element is constructed before the block is inserted. -/
  | tryConstruct (x block : ℕ)
  /-- `idxEntry->value.store(newBlock)` and `tailBlock = newBlock`. -/
  | insert (x block : ℕ)
  /-- `new ((*tailBlock)[currentTailIndex]) T(element)`. -/
  | construct (x : ℕ)
  /-- `tailIndex.store(newTailIndex)`. -/
  | publish (x : ℕ)
  deriving DecidableEq

/-- What a consumer does next: `dequeue`. -/
inductive Pc where
  /-- Anything else. -/
  | idle
  /-- `tail = tailIndex.load()`. -/
  | loadTail
  /-- `overcommit = dequeueOvercommit.load()`. -/
  | loadOvercommit (tail : ℕ)
  /-- It loads `dequeueOptimisticCount`, and goes on if there seems to be an element. -/
  | loadOptimistic (tail overcommit : ℕ)
  /-- `myDequeueCount = dequeueOptimisticCount.fetch_add(1)`. -/
  | fetchOptimistic (overcommit : ℕ)
  /-- `tail = tailIndex.load()`, and goes on if there is an element. -/
  | loadTailAgain (myDequeueCount overcommit : ℕ)
  /-- `index = headIndex.fetch_add(1)`. -/
  | fetchHead
  /-- There is no element: `dequeueOvercommit.fetch_add(1)`. -/
  | addOvercommit (myDequeueCount : ℕ)
  /-- `block = get_block_index_entry_for_index(index)->value.load()`. -/
  | loadBlock (index : ℕ)
  /-- `element = std::move(el)` and `el.~T()`. -/
  | take (index block : ℕ)
  /-- `block->set_empty(index)`. -/
  | setEmpty (index block : ℕ)
  /-- The block is empty: `entry->value.store(nullptr)`. -/
  | clearEntry (index block : ℕ)
  /-- `add_block_to_free_list(block)`. -/
  | giveBack (block : ℕ)
  deriving DecidableEq

/-- A state of the producer and of those who take its elements. -/
structure State where
  /-- `tailIndex`. -/
  tailIndex : ℕ
  /-- `headIndex`. -/
  headIndex : ℕ
  /-- `dequeueOptimisticCount`. -/
  dequeueOptimisticCount : ℕ
  /-- `dequeueOvercommit`. -/
  dequeueOvercommit : ℕ
  /-- `tailBlock`. -/
  tailBlock : Option ℕ
  /-- The value of the entry of each block number in the block index. -/
  entry : ℕ → Option ℕ
  /-- The elements in each block. -/
  elements : ℕ → ℕ → Option ℕ
  /-- `elementsCompletelyDequeued`, of each block. -/
  elementsCompletelyDequeued : ℕ → ℕ
  /-- The producer. -/
  prod : Enqueue
  /-- The consumers. -/
  pc : ℕ → Pc
  /-- What has been enqueued. -/
  enqueued : List ℕ
  /-- What has been dequeued, and at which index. -/
  dequeued : List (ℕ × ℕ)
  /-- Whether this producer has the block. -/
  ours : ℕ → Bool

/-- What happens next. -/
inductive Action where
  /-- The producer calls `enqueue`. -/
  | enqueue (x : ℕ)
  /-- The producer makes its next step. -/
  | produce
  /-- The producer gets a block. -/
  | requisition (block : ℕ)
  /-- There is no room in the block index, or no block. -/
  | fail
  /-- The constructor of the element throws. -/
  | throws
  /-- Consumer `u` calls `dequeue`. -/
  | dequeue (u : ℕ)
  /-- Consumer `u` makes its next step. -/
  | work (u : ℕ)
  /-- Another producer, or a thread that takes its elements, writes into a block of its own. -/
  | foreign (block i : ℕ) (x : Option ℕ) (count : ℕ)
  deriving DecidableEq

namespace State

/-- A new producer. -/
def init : State where
  tailIndex := 0
  headIndex := 0
  dequeueOptimisticCount := 0
  dequeueOvercommit := 0
  tailBlock := none
  entry _ := none
  elements _ _ := none
  elementsCompletelyDequeued _ := 0
  prod := .idle
  pc _ := .idle
  enqueued := []
  dequeued := []
  ours _ := false

/-- Consumer `u` turns to `c`. -/
@[simps] def goto (s : State) (u : ℕ) (c : Pc) : State := { s with pc := Function.update s.pc u c }

/-- The producer turns to `c`. -/
@[simps] def turn (s : State) (c : Enqueue) : State := { s with prod := c }

/-- `x`, or raw memory, is now at place `i` of `block`. -/
@[simps] def setElement (s : State) (block i : ℕ) (x : Option ℕ) : State :=
  { s with elements := Function.update s.elements block (Function.update (s.elements block) i x) }

/-- `elementsCompletelyDequeued` of `block` is now `n`. -/
@[simps] def setCount (s : State) (block n : ℕ) : State :=
  { s with elementsCompletelyDequeued := Function.update s.elementsCompletelyDequeued block n }

/-- The entry of block number `k` is now `b`. -/
@[simps] def setEntry (s : State) (k : ℕ) (b : Option ℕ) : State :=
  { s with entry := Function.update s.entry k b }

/-- The producer has `block` now, or has it no more. -/
@[simps] def setOurs (s : State) (block : ℕ) (b : Bool) : State :=
  { s with ours := Function.update s.ours block b }

/-- The producer makes its next step. -/
def produce (nothrow : Bool) (s : State) : Option State :=
  match s.prod with
  | .idle | .requisition _ => none
  | .readHead x =>
    some (s.turn (if circularLessThan s.headIndex (fetchAdd s.tailIndex blockSize) then
      .requisition x else .idle))
  | .resetEmpty x b => some ((s.setCount b 0).turn (if nothrow then .insert x b else .tryConstruct x b))
  | .tryConstruct x b =>
    some ((s.setElement b (s.tailIndex % blockSize) (some x)).turn (.insert x b))
  | .insert x b =>
    some ({ s with tailBlock := some b }.setEntry (s.tailIndex / blockSize) (some b) |>.turn
      (if nothrow then .construct x else .publish x))
  | .construct x =>
    s.tailBlock.map fun b => (s.setElement b (s.tailIndex % blockSize) (some x)).turn (.publish x)
  | .publish x => some ({ s with
      tailIndex := fetchAdd s.tailIndex 1
      enqueued := s.enqueued ++ [x] }.turn .idle)

/-- Consumer `u` makes its next step. -/
def work (s : State) (u : ℕ) : Option State :=
  match s.pc u with
  | .idle => none
  | .loadTail => some (s.goto u (.loadOvercommit s.tailIndex))
  | .loadOvercommit tail => some (s.goto u (.loadOptimistic tail s.dequeueOvercommit))
  | .loadOptimistic tail overcommit =>
    some (s.goto u (if circularLessThan (sub s.dequeueOptimisticCount overcommit) tail then
      .fetchOptimistic overcommit else .idle))
  | .fetchOptimistic overcommit =>
    some ({ s with dequeueOptimisticCount := fetchAdd s.dequeueOptimisticCount 1 }.goto u
      (.loadTailAgain s.dequeueOptimisticCount overcommit))
  | .loadTailAgain myDequeueCount overcommit =>
    some (s.goto u (if circularLessThan (sub myDequeueCount overcommit) s.tailIndex then .fetchHead
      else .addOvercommit myDequeueCount))
  | .fetchHead =>
    some ({ s with headIndex := fetchAdd s.headIndex 1 }.goto u (.loadBlock s.headIndex))
  | .addOvercommit _ =>
    some ({ s with dequeueOvercommit := fetchAdd s.dequeueOvercommit 1 }.goto u .idle)
  | .loadBlock i => (s.entry (i / blockSize)).map fun b => s.goto u (.take i b)
  | .take i b =>
    (s.elements b (i % blockSize)).map fun x =>
      ({ s with dequeued := s.dequeued ++ [(i, x)] }.setElement b (i % blockSize) none).goto u
        (.setEmpty i b)
  | .setEmpty i b =>
    let prevVal := s.elementsCompletelyDequeued b
    some ((s.setCount b (prevVal + 1)).goto u
      (if prevVal = blockSize - 1 then .clearEntry i b else .idle))
  | .clearEntry i b => some ((s.setEntry (i / blockSize) none).goto u (.giveBack b))
  | .giveBack b => some ((s.setOurs b false).goto u .idle)

/-- **The step of the producer and its consumers.** -/
def step (nothrow : Bool) (s : State) : Action → Option State
  | .enqueue x =>
    if s.prod = .idle then
      some (s.turn (if s.tailIndex % blockSize = 0 then .readHead x else .construct x))
    else none
  | .produce => s.produce nothrow
  | .requisition b =>
    match s.prod with
    | .requisition x => if s.ours b then none else some ((s.setOurs b true).turn (.resetEmpty x b))
    | _ => none
  | .fail =>
    match s.prod with
    | .requisition _ => some (s.turn .idle)
    | _ => none
  | .throws =>
    match s.prod with
    | .tryConstruct _ b => some ((s.setOurs b false).turn .idle)
    | .construct _ => if nothrow then none else some (s.turn .idle)
    | _ => none
  | .dequeue u => if s.pc u = .idle then some (s.goto u .loadTail) else none
  | .work u => s.work u
  | .foreign b i x n =>
    if s.ours b then none else some ((s.setElement b i x).setCount b n)

end State

/-! ### Arithmetic of `index_t` -/

theorem fetchAdd_of_lt {a d : ℕ} (h : a + d < 2 ^ 64) : fetchAdd a d = a + d := Nat.mod_eq_of_lt h

theorem sub_of_le {a b : ℕ} (h : b ≤ a) (ha : a < 2 ^ 64) : sub a b = a - b := by
  unfold sub
  omega

/-- As long as the indices have not come half way around, `circular_less_than` is `<`. -/
theorem circularLessThan_iff {a b : ℕ} (ha : a < 2 ^ 63) (hb : b < 2 ^ 63) :
    circularLessThan a b = true ↔ a < b := by
  unfold circularLessThan sub
  rw [decide_eq_true_iff]
  omega

/-- The comparison that a consumer makes. -/
theorem circularLessThan_sub {m o t : ℕ} (ho : o ≤ m) (hm : m < 2 ^ 63) (ht : t < 2 ^ 63) :
    circularLessThan (sub m o) t = true ↔ m < t + o := by
  rw [sub_of_le ho (by omega), circularLessThan_iff (by omega) ht]
  omega

end MutilsTasks.ConcurrentQueue.Producer
