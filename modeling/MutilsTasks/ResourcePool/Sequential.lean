import MutilsTasks.Library.Machine
import MutilsTasks.ResourcePool.Pool

/-!
# The pool used by one operation at a time

The functions of the pool as the code writes them, for runs in which one operation
ends before the next begins. Against the interleaved machine they add what the user
supplies: the values of the objects, the arguments `a...` of a call, `builder`,
`onAcquire` and `onRelease`, which may do anything and may throw.

An argument pack is one value. A by-value parameter that is initialized from
`std::forward<Args>(a)` leaves `moved a` behind; `builder` is a
`std::function<T*(Args...)>`, so every call of it does. A `Frame` is a call in
progress: the pool, what is left of the arguments, and a log of what the call has
done, which the code does not keep.

Where a container hands out any of its elements, `pick` says which. It is asked
afresh every time, as the user's functions are: `calls` counts.
-/

namespace MutilsTasks.ResourcePool

/-- An exception, as the pool sees it. -/
inductive Exn (E : Type) where
  /-- `ResourceInvalidException`. -/
  | resourceInvalid
  /-- Any other. -/
  | other (e : E)

/-- The user's code, and the choices of the containers. -/
structure Env (V A E : Type) where
  /-- `builder`. -/
  builder : ℕ → A → Except (Exn E) V
  /-- `T::onAcquire` on an object. -/
  onAcquire : ℕ → A → V → Except (Exn E) V
  /-- `T::onRelease` on an object. -/
  onRelease : ℕ → V → V
  /-- What a move leaves behind. -/
  moved : A → A
  /-- What `onAcquire` on an object leaves of its arguments. -/
  acquired : ℕ → A → V → A
  /-- Which element a container hands out. -/
  pick : ℕ → ℕ

/-- What a call has done. -/
inductive Event (A E : Type) where
  /-- It has called `builder` with `a`; `x` is what that threw. -/
  | builder (a : A) (x : Option (Exn E))
  /-- It has called `onAcquire` with `a`; `x` is what that threw. -/
  | onAcquire (a : A) (x : Option (Exn E))
  /-- It has found nothing to dequeue, and the packs were `P`. -/
  | overdraw (P : Packs)

/-- How a function ends. -/
inductive Outcome (E α : Type) where
  /-- It returns. -/
  | returned (r : α)
  /-- It throws. -/
  | threw (x : Exn E)
  /-- It waits for an element of an empty queue. -/
  | blocked
  /-- An assertion fails, a pointer dangles, or `at` is out of range. -/
  | aborted

/-- Between two calls. -/
structure Session (V : Type) where
  /-- The pool and its handles. -/
  pool : Pool
  /-- The values of the objects. -/
  heap : Obj → V
  /-- How often the user's code and the containers have been asked. -/
  calls : ℕ

/-- In a call. -/
structure Frame (V A E : Type) extends Session V where
  /-- `a...`. -/
  args : A
  /-- What the call has done. -/
  log : List (Event A E)

/-- The element that a container hands out. -/
def choose {α : Type} (n : ℕ) (l : List α) : Option α := l[n % l.length]?

/-- What was thrown. -/
def exn? {E α : Type} : Except (Exn E) α → Option (Exn E)
  | .ok _ => none
  | .error x => some x

variable {V A E : Type}

/-! ### Borrowing -/

namespace Frame

/-- The packs. -/
def packs (f : Frame V A E) : Packs := f.pool.packs

/-- Change the packs. -/
def setPacks (f : Frame V A E) (P : Packs) : Frame V A E := { f with pool := { f.pool with packs := P } }

/-- Change the indices. -/
def setIndices (f : Frame V A E) (I : Indices) : Frame V A E :=
  { f with pool := { f.pool with indices := I } }

/-- Change the pool. -/
def setPool (f : Frame V A E) (S : Pool) : Frame V A E := { f with pool := S }

/-- Change an object. -/
def write (f : Frame V A E) (t : Obj) (v : V) : Frame V A E :=
  { f with heap := Function.update f.heap t v }

/-- `builder(std::forward<Args>(a)...)`. -/
def callBuilder (env : Env V A E) (f : Frame V A E) : Except (Exn E) V × Frame V A E :=
  let r := env.builder f.calls f.args
  (r, { f with
    calls := f.calls + 1
    args := env.moved f.args
    log := f.log ++ [.builder f.args (exn? r)] })

/-- `on_acquire(t, std::forward<Args>(a)...)`, on an object of value `v`. -/
def callOnAcquire (env : Env V A E) (f : Frame V A E) (v : V) : Except (Exn E) V × Frame V A E :=
  let r := env.onAcquire f.calls f.args v
  (r, { f with
    calls := f.calls + 1
    args := env.acquired f.calls f.args v
    log := f.log ++ [.onAcquire f.args (exn? r)] })

/-- `initialize_if_needed`. -/
def initializeIfNeeded (env : Env V A E) (f : Frame V A E) (p : PackId) :
    Except (Exn E) Unit × Frame V A E :=
  if (f.packs.pack p).initialized then (.ok (), f)
  else
    match f.callBuilder env with
    | (.error x, g) => (.error x, g.setPacks (g.packs.builderThrew p))
    | (.ok v, g) =>
      (.ok (), (g.write (.ofPack p (g.packs.builds p)) v).setPacks (g.packs.initializeIfNeeded p))

/-- `preferred_resource::borrow` and `spare_resource::borrow`. -/
def borrow (env : Env V A E) (f : Frame V A E) (p : PackId) : Outcome E ℕ × Frame V A E :=
  match f.initializeIfNeeded env p with
  | (.error x, g) => (.threw x, g)
  | (.ok (), g) =>
    match (g.packs.pack p).resource with
    | some t =>
      match g.callOnAcquire env (g.heap t) with
      | (.error x, k) => (.threw x, k.setPacks (k.packs.spoil p))
      | (.ok v, k) => (.returned k.packs.nextRental, (k.write t v).setPacks (k.packs.rent p t))
    | none =>
      match (g.packs.lend p).1 with
      | .invalid => (.threw .resourceInvalid, g)
      | _ => (.aborted, g)

/-! ### Acquiring -/

/-- The first loop of `acquire_no_preference`, with `n` elements in the queue: the
rental, or none if there is nothing more to dequeue. -/
def tryDequeueLoop (env : Env V A E) : ℕ → Frame V A E → Outcome E (Option ℕ) × Frame V A E
  | 0, f => (.returned none, f)
  | n + 1, f =>
    match choose (env.pick f.calls) f.packs.freeResources with
    | none => (.returned none, f)
    | some cand =>
      let g := { f with calls := f.calls + 1 }.setPacks
        ((f.packs.dequeue cand).removeFromFreeList cand)
      match g.borrow env cand with
      | (.returned r, k) => (.returned (some r), k)
      | (.threw .resourceInvalid, k) => tryDequeueLoop env n k
      | (.threw x, k) => (.threw x, k)
      | (.blocked, k) => (.blocked, k)
      | (.aborted, k) => (.aborted, k)

/-- `make_shared<overdrawn>(_this, unique_ptr<T>{builder(a...)}, a...)`. -/
def makeOverdrawn (env : Env V A E) (f : Frame V A E) : Outcome E ℕ × Frame V A E :=
  match f.callBuilder env with
  | (.error x, g) => (.threw x, g)
  | (.ok v, g) =>
    match g.callOnAcquire env v with
    | (.error x, k) => (.threw x, k)
    | (.ok v', k) =>
      (.returned k.packs.nextRental,
        (k.write (.ofOverdrawn k.packs.nextRental) v').setPacks k.packs.overdraw)

/-- `LockedResource{preference, _this, rsource}`, the result. -/
def returnLocked (f : Frame V A E) (preference : Option ℕ) (r : ℕ) : Frame V A E :=
  f.setPool (f.pool.setLocked (.result 0) preference (some r))

/-- `acquire_no_preference`. Its second loop waits: the first one has left the queue
empty. -/
def acquireNoPreference (cfg : Config) (env : Env V A E) (f : Frame V A E) :
    Outcome E Unit × Frame V A E :=
  match f.tryDequeueLoop env f.packs.freeResources.length with
  | (.returned (some r), g) => (.returned (), g.returnLocked none r)
  | (.returned none, g) =>
    let g := { g with log := g.log ++ [.overdraw g.packs] }
    if cfg.allowOverdraws then
      match g.makeOverdrawn env with
      | (.returned r, k) => (.returned (), k.returnLocked none r)
      | (.threw x, k) => (.threw x, k)
      | (.blocked, k) => (.blocked, k)
      | (.aborted, k) => (.aborted, k)
    else (.blocked, g)
  | (.threw x, g) => (.threw x, g)
  | (.blocked, g) => (.blocked, g)
  | (.aborted, g) => (.aborted, g)

/-- `acquire_with_preference`, where `preference->indx` is `indx`. -/
def acquireWithPreference (cfg : Config) (env : Env V A E) (f : Frame V A E) (indx : ℕ) :
    Outcome E Unit × Frame V A E :=
  if indx < cfg.maxResources then
    match f.borrow env (.preferred indx) with
    | (.returned r, g) => (.returned (), g.returnLocked (g.pool.preference (.param 0)) r)
    | (.threw .resourceInvalid, g) => g.acquireNoPreference cfg env
    | (.threw x, g) => (.threw x, g)
    | (.blocked, g) => (.blocked, g)
    | (.aborted, g) => (.aborted, g)
  else (.aborted, f)

/-- `my_preference` in `acquire_new_preference`. -/
def takeIndex (env : Env V A E) (f : Frame V A E) : ℕ × Frame V A E :=
  match choose (env.pick f.calls) f.pool.indices.recycledIndices with
  | some i => (i, { f with calls := f.calls + 1 }.setIndices (f.pool.indices.pop i))
  | none => (f.pool.indices.currentMaxIndex, f.setIndices f.pool.indices.fetchAdd)

/-- `acquire_new_preference`. -/
def acquireNewPreference (cfg : Config) (env : Env V A E) (f : Frame V A E) :
    Outcome E Unit × Frame V A E :=
  if f.pool.indices.preferredFull cfg then f.acquireNoPreference cfg env
  else
    let (i, g) := f.takeIndex env
    if i < cfg.maxResources then
      (g.setIndices (g.pool.indices.makeOwner 0 i)).acquireWithPreference cfg env i
    else g.acquireNoPreference cfg env

end Frame

/-! ### Destroying a rental -/

/-- The destructor of rental `r`, without `onRelease`. -/
def Packs.destroyRental (P : Packs) (r : ℕ) (x : Rental) : Packs :=
  let P := P.beforeDelete r x
  let x := { x with deleted := true }
  match x.pack with
  | none => P.destroyOverdrawn r x
  | some (.spare j) => (P.putBackSpare r x j).enqueue (.spare j)
  | some (.preferred i) =>
    let P := P.putBackPreferred 0 r x i
    let P := if (P.preferred i).inFreeList then P
      else (P.setInFreeList i).enqueue (.preferred i)
    P.unlock i

/-! ### The user's operations -/

/-- What the user does. -/
inductive Op (V A : Type) where
  /-- `h = pool.acquire(a...)`. -/
  | acquire (h : ℕ) (a : A)
  /-- `w = pool.acquire_weak()`. -/
  | acquireWeak (w : ℕ)
  /-- `h = w.lock(a...)`. -/
  | lock (w h : ℕ) (a : A)
  /-- `h = w.acquire_if_locked()`. -/
  | acquireIfLocked (w h : ℕ)
  /-- `h' = h.clone()`, `h.lock()` or `h.acquire_if_locked()`. -/
  | clone (h h' : ℕ)
  /-- `w = h.weak()`, a new handle. -/
  | weak (h w : ℕ)
  /-- `w = h`, an old one. -/
  | assign (w h : ℕ)
  /-- `w` is destroyed. -/
  | dropWeak (w : ℕ)
  /-- `h` is destroyed. -/
  | dropLocked (h : ℕ)
  /-- The object of `h` is changed. -/
  | write (h : ℕ) (change : V → V)

namespace Session

/-- A freshly constructed pool. -/
def init (cfg : Config) (heap : Obj → V) : Session V := ⟨.init cfg, heap, 0⟩

/-- A call begins. -/
def enter (s : Session V) (a : A) : Frame V A E := { s with args := a, log := [] }

/-- Only the pool changes. -/
def setPool (s : Session V) (S : Pool) : Session V := { s with pool := S }

/-- How an operation ends, what it has done, and the state it leaves. -/
structure Result (V A E : Type) where
  /-- How it ends. -/
  outcome : Outcome E Unit
  /-- What it has done. -/
  log : List (Event A E)
  /-- The state it leaves. -/
  session : Session V

/-- An operation that returns and has called nothing. -/
def done (s : Session V) (S : Pool) : Result V A E := ⟨.returned (), [], s.setPool S⟩

/-- The end of the user's call `c`, which is to return `h`: parameters are destroyed. -/
def finish (h : ℕ) (c : Caller) : Outcome E Unit × Frame V A E → Result V A E
  | (.returned (), f) =>
    ⟨.returned (), f.log, f.toSession.setPool ((f.pool.setPreference (.param 0) none).returned 0 h c)⟩
  | (.threw x, f) => ⟨.threw x, f.log, f.toSession.setPool (f.pool.unwound 0 c)⟩
  | (o, f) => ⟨o, f.log, f.toSession⟩

/-- `WeakResource::lock`, on a handle that is `x`. -/
def lock (cfg : Config) (env : Env V A E) (s : Session V) (w h : ℕ) (x : WeakResource) (a : A) :
    Result V A E :=
  match s.pool.lockable x with
  | some r => s.done (s.pool.setLocked (.locked h) (s.pool.preference (.weak w)) (some r))
  | none =>
    let S := s.pool.setWeak w (some { x with locker := some 0 })
    match s.pool.preference (.weak w) with
    | some o =>
      match s.pool.indices.indexOwner o with
      | some i =>
        finish h (.lockPreferred w)
          (((s.setPool (S.setPreference (.param 0) (some o))).enter a).acquireWithPreference cfg env i)
      | none => ⟨.aborted, [], s⟩
    | none => finish h (.lockNew w) (((s.setPool S).enter a).acquireNewPreference cfg env)

/-- The destructor of `LockedResource` `h`, on rental `r`. -/
def dropLocked (env : Env V A E) (s : Session V) (h r : ℕ) : Session V :=
  let S := (s.pool.setPreference (.dying 0) (s.pool.preference (.locked h))).setLocked
    (.locked h) none none
  if S.rsource.expired r then
    match S.packs.rental r with
    | some x =>
      { pool := { S with packs := S.packs.destroyRental r x }.setPreference (.dying 0) none
        heap := match x.t with
          | some t => Function.update s.heap t (env.onRelease s.calls (s.heap t))
          | none => s.heap
        calls := s.calls + 1 }
    | none => s.setPool (S.setPreference (.dying 0) none)
  else s.setPool (S.setPreference (.dying 0) none)

/-- **An operation.** It needs the handles it is about, and a fresh name for the handle
it makes. -/
def perform (cfg : Config) (env : Env V A E) (s : Session V) : Op V A → Option (Result V A E)
  | .acquire h a =>
    if s.pool.Unused h then some (finish h .acquire ((s.enter a).acquireNewPreference cfg env))
    else none
  | .acquireWeak w =>
    if (s.pool.weak w).isNone then some (s.done (s.pool.setWeak w (some {}))) else none
  | .lock w h a =>
    match s.pool.weak w with
    | some x => if s.pool.Unused h then some (s.lock cfg env w h x a) else none
    | none => none
  | .acquireIfLocked w h =>
    match s.pool.weak w with
    | some x =>
      if s.pool.Unused h then
        match x.rsource.filter fun r => !s.pool.rsource.expired r with
        | some r =>
          some (s.done (s.pool.setLocked (.locked h) (s.pool.preference (.weak w)) (some r)))
        | none => some ⟨.threw .resourceInvalid, [], s⟩
      else none
    | none => none
  | .clone h h' =>
    match s.pool.rsource.ptr (.locked h) with
    | some r =>
      if s.pool.Unused h' then
        some (s.done (s.pool.setLocked (.locked h') (s.pool.preference (.locked h)) (some r)))
      else none
    | none => none
  | .weak h w =>
    match s.pool.rsource.ptr (.locked h) with
    | some r =>
      if (s.pool.weak w).isNone then
        some (s.done ((s.pool.setPreference (.weak w) (s.pool.preference (.locked h))).setWeak w
          (some { rsource := some r })))
      else none
    | none => none
  | .assign w h =>
    match s.pool.weak w, s.pool.rsource.ptr (.locked h) with
    | some x, some r =>
      some (s.done ((s.pool.setPreference (.weak w) (s.pool.preference (.locked h))).setWeak w
        (some { x with rsource := some r })))
    | _, _ => none
  | .dropWeak w =>
    match s.pool.weak w with
    | some _ => some (s.done ((s.pool.setPreference (.weak w) none).setWeak w none))
    | none => none
  | .dropLocked h =>
    match s.pool.rsource.ptr (.locked h) with
    | some r => some ⟨.returned (), [], s.dropLocked env h r⟩
    | none => none
  | .write h change =>
    match s.pool.rsource.ptr (.locked h) with
    | some r =>
      match (s.pool.packs.rental r).bind (·.t) with
      | some t =>
        some ⟨.returned (), [], { s with heap := Function.update s.heap t (change (s.heap t)) }⟩
      | none => some ⟨.aborted, [], s⟩
    | none => none

/-- The state after an operation that has ended. -/
def Result.after? (R : Result V A E) : Option (Session V) :=
  match R.outcome with
  | .returned _ | .threw _ => some R.session
  | .blocked | .aborted => none

/-- **The step of a sequential run.** -/
def step (cfg : Config) (env : Env V A E) (s : Session V) (o : Op V A) : Option (Session V) :=
  (s.perform cfg env o).bind Result.after?

end Session

end MutilsTasks.ResourcePool
