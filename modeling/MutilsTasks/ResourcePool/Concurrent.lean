import MutilsTasks.Library.Machine
import MutilsTasks.ResourcePool.PackProtocol
import MutilsTasks.ResourcePool.Pool

/-!
# The pool under any number of threads

Threads call `ResourcePool::acquire` and `WeakResource::lock`, copy handles and drop
them, in any interleaving. A step is one access to shared memory: a read of
`current_max_index`, a call of `recycled_indices` or `free_resources`, the unlocked
write of `remove_from_free_list`, a `borrow` under the pack's mutex, `onRelease`,
and in the destructor of a rental the put-back under the mutex, the test of
`in_free_list`, its assignment, the `enqueue` and the unlocking, each on its own. A
thread's program counter (`Pc`) is named after what it does next.

Where the code leaves a choice, the action has it: which element a queue or a set
hands out, that `try_dequeue` comes back empty-handed (it may at any time), that
`builder` or `onAcquire` throws, and whether it throws `ResourceInvalidException`.
`onRelease` returns.
-/

namespace MutilsTasks.ResourcePool

open Packs

/-! ### The machine -/

/-- What a thread does next. -/
inductive Pc where
  /-- Anything the user likes. -/
  | idle
  /-- `preferred_full` reads `current_max_index`. -/
  | readMaxIndex (c : Caller)
  /-- `preferred_full` reads `recycled_indices.size()`. -/
  | readRecycled (c : Caller)
  /-- `acquire_new_preference` reads `recycled_indices.size()`. -/
  | readSize (c : Caller)
  /-- `recycled_indices.build_or_pop`. -/
  | buildOrPop (c : Caller)
  /-- `current_max_index.fetch_add(1)`. -/
  | fetchAdd (c : Caller)
  /-- It compares `my_preference` with `max_resources`. -/
  | haveIndex (c : Caller) (myPreference : ℕ)
  /-- `acquire_with_preference` borrows from `preferred_resources.at(indx)`. -/
  | borrowPreference (c : Caller) (indx : ℕ)
  /-- `acquire_no_preference` dequeues, in its second loop if `wait`. -/
  | dequeue (c : Caller) (wait : Bool)
  /-- `cand->remove_from_free_list()`. -/
  | removeFromFreeList (c : Caller) (wait : Bool) (cand : PackId)
  /-- `cand->borrow`. -/
  | borrow (c : Caller) (wait : Bool) (cand : PackId)
  /-- It builds an `overdrawn`. -/
  | overdraw (c : Caller)
  /-- Its `LockedResource` is built, and parameters are destroyed. -/
  | returning (c : Caller)
  /-- The user's call returns. -/
  | publish (c : Caller)
  /-- An exception leaves the call, and parameters are destroyed. -/
  | unwinding (c : Caller)
  /-- `before_delete` of rental `r`. -/
  | onRelease (r : ℕ)
  /-- The destructor of rental `r` puts the object back. -/
  | putBack (r : ℕ)
  /-- It tests `in_free_list`, locked. -/
  | testInFreeList (i : ℕ)
  /-- It sets `in_free_list`. -/
  | setInFreeList (i : ℕ)
  /-- It enqueues. -/
  | enqueue (p : PackId)
  /-- It unlocks. -/
  | unlock (i : ℕ)
  /-- The rest of the `LockedResource` is destroyed. -/
  | dropPreference
  /-- An assertion has failed, a pointer dangles, or `at` is out of range. -/
  | aborted
  deriving DecidableEq

/-- A state of the machine. -/
structure State where
  /-- The pool. -/
  pool : Pool
  /-- The threads. -/
  pc : ℕ → Pc

/-- What happens next. -/
inductive Action where
  /-- Thread `u` calls `ResourcePool::acquire`. -/
  | acquire (u : ℕ)
  /-- Thread `u` calls `w.lock()`, and the rental has ended. -/
  | lock (u w : ℕ)
  /-- `h = w.lock()` or `h = w.acquire_if_locked()`, and the rental is live. -/
  | lockLive (w h : ℕ)
  /-- `w = ResourcePool::acquire_weak()`. -/
  | acquireWeak (w : ℕ)
  /-- `h' = h.clone()`. -/
  | clone (h h' : ℕ)
  /-- `w = h.weak()`, a new handle. -/
  | weak (h w : ℕ)
  /-- `w = h`, an old one. -/
  | assign (w h : ℕ)
  /-- `w` is destroyed. -/
  | dropWeak (w : ℕ)
  /-- Thread `u` destroys `h`. -/
  | dropLocked (u h : ℕ)
  /-- Thread `u` makes its next step. -/
  | advance (u : ℕ)
  /-- Thread `u` is given an element of `recycled_indices`. -/
  | pop (u i : ℕ)
  /-- Thread `u` is given an element of `free_resources`. -/
  | dequeue (u : ℕ) (p : PackId)
  /-- `try_dequeue` fails in thread `u`. -/
  | dequeueFails (u : ℕ)
  /-- `builder` throws in thread `u`, a `ResourceInvalidException` if `invalid`. -/
  | builderThrows (u : ℕ) (invalid : Bool)
  /-- `onAcquire` throws in thread `u`. -/
  | hookThrows (u : ℕ) (invalid : Bool)
  /-- The call in thread `u` returns `h`. -/
  | publish (u h : ℕ)

namespace State

/-- A freshly constructed pool. -/
def init (cfg : Config) : State := ⟨.init cfg, fun _ => .idle⟩

/-- Thread `u` turns to `c`, and the pool is `S`. -/
def goto (s : State) (u : ℕ) (S : Pool) (c : Pc) : State := ⟨S, Function.update s.pc u c⟩

/-- `borrow` ended with `b`: a `LockedResource` is built with this preference, a
`ResourceInvalidException` is caught and leads to `retry`. -/
def borrowed (s : State) (u : ℕ) (c : Caller) (preference : Option ℕ) (retry : Pc) :
    Borrowed × Packs → State
  | (.rented r, P) =>
    s.goto u ({ s.pool with packs := P }.setLocked (.result u) preference (some r)) (.returning c)
  | (.invalid, P) => s.goto u { s.pool with packs := P } retry
  | (.asserts, P) => s.goto u { s.pool with packs := P } .aborted

/-- Thread `u` fetches the counter. -/
def fetch (s : State) (u : ℕ) (c : Caller) : State :=
  s.goto u { s.pool with indices := s.pool.indices.fetchAdd }
    (.haveIndex c s.pool.indices.currentMaxIndex)

/-- The mutex of pack `p` is free, and `p` is not initialized: `builder` is called. -/
def callsBuilder (s : State) (p : PackId) : Bool :=
  s.pool.packs.mutexFree p && !(s.pool.packs.pack p).initialized

/-- The mutex of pack `p` is free, and there is an object: `onAcquire` is called. -/
def callsHook (s : State) (p : PackId) : Bool :=
  s.pool.packs.mutexFree p && s.pool.packs.hasObject p

/-- An exception leaves `borrow`: it is caught, or it leaves the user's call. -/
def thrown (s : State) (u : ℕ) (S : Pool) (c : Caller) (wait invalid : Bool) : State :=
  s.goto u S (if invalid then .dequeue c wait else .unwinding c)

/-- The next step of a thread that has no choice. -/
def advance (cfg : Config) (s : State) (u : ℕ) : Option State :=
  let S := s.pool
  match s.pc u with
  | .readMaxIndex c =>
    some (s.goto u S (if S.indices.indexExhausted cfg then .readRecycled c else .readSize c))
  | .readRecycled c =>
    some (s.goto u S
      (if S.indices.recycledIndices.length = 0 then .dequeue c false else .readSize c))
  | .readSize c =>
    some (s.goto u S (if S.indices.recycledIndices.length > 0 then .buildOrPop c else .fetchAdd c))
  | .buildOrPop c => if S.indices.recycledIndices = [] then some (s.fetch u c) else none
  | .fetchAdd c => some (s.fetch u c)
  | .haveIndex c i =>
    if i < cfg.maxResources then 
      some (s.goto u { S with indices := S.indices.makeOwner u i } (.borrowPreference c i))
    else some (s.goto u S (.dequeue c false))
  | .borrowPreference c i =>
    if i < cfg.maxResources then
      if S.packs.mutexFree (.preferred i) then
        some (s.borrowed u c (S.preference (.param u)) (.dequeue c false)
          (S.packs.borrow (.preferred i)))
      else none
    else some (s.goto u S .aborted)
  | .removeFromFreeList c wait p =>
    some (s.goto u { S with packs := S.packs.removeFromFreeList p } (.borrow c wait p))
  | .borrow c wait p =>
    if S.packs.mutexFree p then some (s.borrowed u c none (.dequeue c wait) (S.packs.borrow p))
    else none
  | .overdraw c =>
    some (s.goto u ({ S with packs := S.packs.overdraw }.setLocked (.result u) none
      (some S.packs.nextRental)) (.returning c))
  | .returning c => some (s.goto u (S.setPreference (.param u) none) (.publish c))
  | .unwinding c => some (s.goto u (S.unwound u c) .idle)
  | .onRelease r =>
    (S.packs.rental r).map fun x =>
      s.goto u { S with packs := S.packs.beforeDelete r x } (.putBack r)
  | .putBack r =>
    match S.packs.rental r with
    | none => none
    | some x =>
      match x.pack with
      | none => some (s.goto u { S with packs := S.packs.destroyOverdrawn r x } .dropPreference)
      | some (.spare j) =>
        some (s.goto u { S with packs := S.packs.putBackSpare r x j } (.enqueue (.spare j)))
      | some (.preferred i) =>
        if S.packs.mutexFree (.preferred i) then
          some (s.goto u { S with packs := S.packs.putBackPreferred u r x i } (.testInFreeList i))
        else none
  | .testInFreeList i =>
    some (s.goto u S (if (S.packs.preferred i).inFreeList then .unlock i else .setInFreeList i))
  | .setInFreeList i =>
    some (s.goto u { S with packs := S.packs.setInFreeList i } (.enqueue (.preferred i)))
  | .enqueue (.preferred i) =>
    some (s.goto u { S with packs := S.packs.enqueue (.preferred i) } (.unlock i))
  | .enqueue (.spare j) =>
    some (s.goto u { S with packs := S.packs.enqueue (.spare j) } .dropPreference)
  | .unlock i => some (s.goto u { S with packs := S.packs.unlock i } .dropPreference)
  | .dropPreference => some (s.goto u (S.setPreference (.dying u) none) .idle)
  | .idle | .dequeue _ _ | .publish _ | .aborted => none

/-- **The machine's step.** -/
def step (cfg : Config) (s : State) : Action → Option State
  | .acquire u => if s.pc u = .idle then some (s.goto u s.pool (.readMaxIndex .acquire)) else none
  | .lock u w =>
    match s.pool.weak w with
    | some x =>
      if s.pc u = .idle ∧ x.locker = none ∧ s.pool.lockable x = none then
        let S := s.pool.setWeak w (some { x with locker := some u })
        match s.pool.preference (.weak w) with
        | some o =>
          match s.pool.indices.indexOwner o with
          | some i => some (s.goto u (S.setPreference (.param u) (some o))
              (.borrowPreference (.lockPreferred w) i))
          | none => some (s.goto u S .aborted)
        | none => some (s.goto u S (.readMaxIndex (.lockNew w)))
      else none
    | none => none
  | .lockLive w h =>
    match s.pool.weak w with
    | some x =>
      match s.pool.lockable x with
      | some r =>
        if x.locker = none ∧ s.pool.Unused h then
          some ⟨s.pool.setLocked (.locked h) (s.pool.preference (.weak w)) (some r), s.pc⟩
        else none
      | none => none
    | none => none
  | .acquireWeak w =>
    if (s.pool.weak w).isNone then some ⟨s.pool.setWeak w (some {}), s.pc⟩ else none
  | .clone h h' =>
    match s.pool.rsource.ptr (.locked h) with
    | some r =>
      if s.pool.Unused h' then
        some ⟨s.pool.setLocked (.locked h') (s.pool.preference (.locked h)) (some r), s.pc⟩
      else none
    | none => none
  | .weak h w =>
    match s.pool.rsource.ptr (.locked h) with
    | some r =>
      if (s.pool.weak w).isNone then
        some ⟨(s.pool.setPreference (.weak w) (s.pool.preference (.locked h))).setWeak w
          (some { rsource := some r }), s.pc⟩
      else none
    | none => none
  | .assign w h =>
    match s.pool.weak w, s.pool.rsource.ptr (.locked h) with
    | some x, some r =>
      if x.locker = none then
        some ⟨(s.pool.setPreference (.weak w) (s.pool.preference (.locked h))).setWeak w
          (some { x with rsource := some r }), s.pc⟩
      else none
    | _, _ => none
  | .dropWeak w =>
    match s.pool.weak w with
    | some x =>
      if x.locker = none then
        some ⟨(s.pool.setPreference (.weak w) none).setWeak w none, s.pc⟩
      else none
    | none => none
  | .dropLocked u h =>
    match s.pool.rsource.ptr (.locked h) with
    | some r =>
      if s.pc u = .idle then
        let S := ((s.pool.setPreference (.dying u) (s.pool.preference (.locked h))).setLocked
          (.locked h) none none)
        some (s.goto u S (if S.rsource.expired r then .onRelease r else .dropPreference))
      else none
    | none => none
  | .advance u => s.advance cfg u
  | .pop u i =>
    match s.pc u with
    | .buildOrPop c =>
      if i ∈ s.pool.indices.recycledIndices then
        some (s.goto u { s.pool with indices := s.pool.indices.pop i } (.haveIndex c i))
      else none
    | _ => none
  | .dequeue u p =>
    match s.pc u with
    | .dequeue c wait =>
      if p ∈ s.pool.packs.freeResources then
        some (s.goto u { s.pool with packs := s.pool.packs.dequeue p }
          (.removeFromFreeList c wait p))
      else none
    | _ => none
  | .dequeueFails u =>
    match s.pc u with
    | .dequeue c false =>
      some (s.goto u s.pool (if cfg.allowOverdraws then .overdraw c else .dequeue c true))
    | _ => none
  | .builderThrows u invalid =>
    match s.pc u with
    | .borrowPreference c i =>
      if i < cfg.maxResources ∧ s.callsBuilder (.preferred i) = true then
        some (s.thrown u s.pool c false invalid)
      else none
    | .borrow c wait p =>
      if s.callsBuilder p then
        some (s.thrown u { s.pool with packs := s.pool.packs.builderThrew p } c wait invalid)
      else none
    | .overdraw c => some (s.goto u s.pool (.unwinding c))
    | _ => none
  | .hookThrows u invalid =>
    match s.pc u with
    | .borrowPreference c i =>
      if i < cfg.maxResources ∧ s.callsHook (.preferred i) = true then
        some (s.thrown u { s.pool with packs := s.pool.packs.spoil (.preferred i) } c false invalid)
      else none
    | .borrow c wait p =>
      if s.callsHook p then
        some (s.thrown u { s.pool with packs := s.pool.packs.spoil p } c wait invalid)
      else none
    | .overdraw c => some (s.goto u s.pool (.unwinding c))
    | _ => none
  | .publish u h =>
    match s.pc u with
    | .publish c =>
      if s.pool.Unused h then some (s.goto u (s.pool.returned u h c) .idle) else none
    | _ => none

end State

end MutilsTasks.ResourcePool
