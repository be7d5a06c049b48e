import Mathlib.Algebra.Ring.Nat
import Mathlib.Data.List.Basic
import Mathlib.Logic.Function.Basic

/-!
# Packs, rentals and the free queue

The part of `pool_state` that holds the pooled objects: the preferred and spare
packs, the queue `free_resources` of packs that may be borrowed, and the rentals
(`rented_preferred`, `rented_spare`, `overdrawn`) that objects are lent through.
The functions below are what the code does to them in one piece — one queue
operation, one critical section, one unlocked write — and both the pool's
interleaved runs and its sequential functions are built from them.

When `builder` or `onAcquire` throws, a pack may be lost to the pool: its object is
destroyed, or the entry of a spare is not put back. The ghost member `lost` records
it; the code neither has it nor recovers the pack.

An object is named by what it was built for and how many builds that had seen
before, so two builds never give the same object. A `unique_ptr<T>` is an
`Option Obj`. Threads are numbers, and so are rentals, in the order in which they
are made.
-/

namespace MutilsTasks.ResourcePool

/-- The arguments of the pool's constructor but the builder. A vector of packs
cannot have `2 ^ 63` elements or more: its constructor would have thrown. -/
structure Config where
  /-- `max_resources`. -/
  maxResources : ℕ
  /-- `max_spares`. -/
  maxSpares : ℕ
  /-- `allow_overdraws`. -/
  allowOverdraws : Bool
  /-- `vector::max_size`. -/
  maxResources_lt : maxResources < 2 ^ 63

theorem one_lt_maxSize : 1 < 2 ^ 63 := by decide

theorem two_lt_maxSize : 2 < 2 ^ 63 := by decide

/-- What a `resource_pack*` points to. -/
inductive PackId where
  /-- `preferred_resources.at(index)`. -/
  | preferred (index : ℕ)
  /-- `spare_resources.at(index)`. -/
  | spare (index : ℕ)
  deriving DecidableEq

/-- The pool has this pack. -/
def Config.Has (cfg : Config) : PackId → Prop
  | .preferred i => i < cfg.maxResources
  | .spare j => j < cfg.maxSpares

instance (cfg : Config) (p : PackId) : Decidable (cfg.Has p) := by
  cases p <;> exact inferInstanceAs (Decidable (_ < _))

/-- A `T` that `builder` returned. -/
inductive Obj where
  /-- For a pack, its `n`th build. -/
  | ofPack (p : PackId) (n : ℕ)
  /-- For an `overdrawn`. -/
  | ofOverdrawn (r : ℕ)
  deriving DecidableEq

/-- The members of `resource_pack`. -/
structure ResourcePack where
  /-- `resource`. -/
  resource : Option Obj := none
  /-- `initialized`. -/
  initialized : Bool := false

/-- What `preferred_resource` adds to `resource_pack`. -/
structure PreferredResource where
  /-- `mut`: who has it locked. -/
  mutex : Option ℕ := none
  /-- `who_owns_me`. -/
  whoOwnsMe : Option ℕ := none
  /-- `in_free_list`. -/
  inFreeList : Bool := false

/-- A `rented_resource`: `pack` is the pack that `index` names in the class, none
for an `overdrawn`. -/
structure Rental where
  /-- Which class, and its `index`. -/
  pack : Option PackId
  /-- `t`. -/
  t : Option Obj
  /-- `deleted`. -/
  deleted : Bool := false

/-- The packs, the queue and the rentals. A rental stays in the table when it has
been destroyed; its `t` is then empty, and its number is not given again. -/
structure Packs where
  /-- The `resource_pack` part of every pack. -/
  pack : PackId → ResourcePack
  /-- The rest of `preferred_resources`. -/
  preferred : ℕ → PreferredResource
  /-- `free_resources`. -/
  freeResources : List PackId
  /-- The rentals made so far. -/
  rental : ℕ → Option Rental
  /-- The next rental's number. -/
  nextRental : ℕ
  /-- How often `builder` has succeeded for a pack. -/
  builds : PackId → ℕ
  /-- The packs that an exception has cost the pool. -/
  lost : PackId → Bool

/-- `pool_state::pool_state`: every spare is enqueued, no preferred pack is. -/
def Packs.init (cfg : Config) : Packs where
  pack := fun _ => {}
  preferred := fun _ => {}
  freeResources := (List.range cfg.maxSpares).map .spare
  rental := fun _ => none
  nextRental := 0
  builds := fun _ => 0
  lost := fun _ => false

namespace Packs

/-! ### Writing one member -/

/-- Change the `resource_pack` part of a pack. -/
def setPack (P : Packs) (p : PackId) (x : ResourcePack) : Packs :=
  { P with pack := Function.update P.pack p x }

/-- Change the rest of a preferred pack. -/
def setPreferred (P : Packs) (i : ℕ) (x : PreferredResource) : Packs :=
  { P with preferred := Function.update P.preferred i x }

/-- Change a rental. -/
def setRental (P : Packs) (r : ℕ) (x : Rental) : Packs :=
  { P with rental := Function.update P.rental r (some x) }

/-! ### The queue -/

/-- `free_resources.try_dequeue` or `wait_dequeue` hands out `p`. -/
def dequeue (P : Packs) (p : PackId) : Packs :=
  { P with freeResources := P.freeResources.erase p }

/-- `free_resources.enqueue`. -/
def enqueue (P : Packs) (p : PackId) : Packs :=
  { P with freeResources := P.freeResources ++ [p] }

/-- `remove_from_free_list`: an unlocked write for a preferred pack, nothing for a
spare. -/
def removeFromFreeList (P : Packs) : PackId → Packs
  | .preferred i => P.setPreferred i { P.preferred i with inFreeList := false }
  | .spare _ => P

/-! ### Borrowing -/

/-- The mutex that `borrow` locks is free. A spare's mutex is held by nothing else. -/
def mutexFree (P : Packs) : PackId → Bool
  | .preferred i => (P.preferred i).mutex = none
  | .spare _ => true

/-- `initialize_if_needed` with a builder that returns. -/
def initializeIfNeeded (P : Packs) (p : PackId) : Packs :=
  if (P.pack p).initialized then P
  else
    { P.setPack p { resource := some (.ofPack p (P.builds p)), initialized := true } with
      builds := Function.update P.builds p (P.builds p + 1) }

/-- `make_shared<rented_preferred>` or `make_shared<rented_spare>`: `t` moves from the
pack to the new rental, and `who_owns_me` is set to it. -/
def rent (P : Packs) (p : PackId) (t : Obj) : Packs :=
  let Q := (P.setPack p { P.pack p with resource := none }).setRental P.nextRental
    { pack := some p, t := some t }
  let Q := { Q with nextRental := P.nextRental + 1 }
  match p with
  | .preferred i => Q.setPreferred i { P.preferred i with whoOwnsMe := some P.nextRental }
  | .spare _ => Q

/-- How `borrow` ends when the builder and `onAcquire` return. -/
inductive Borrowed where
  /-- With a rental. -/
  | rented (r : ℕ)
  /-- With `ResourceInvalidException`. -/
  | invalid
  /-- On a failed `assert`. -/
  | asserts
  deriving DecidableEq

/-- The end of `borrow` once the pack is initialized: a pack that has its object
lends it; one that has not throws, if it is preferred, after
`assert(who_owns_me)`, and fails `assert(this->resource)` if it is a spare. -/
def lend (P : Packs) (p : PackId) : Borrowed × Packs :=
  match (P.pack p).resource, p with
  | some t, _ => (.rented P.nextRental, P.rent p t)
  | none, .preferred i =>
    if (P.preferred i).whoOwnsMe = none then (.asserts, P) else (.invalid, P)
  | none, .spare _ => (.asserts, P)

/-- `preferred_resource::borrow` and `spare_resource::borrow`, with a builder and an
`onAcquire` that return. -/
def borrow (P : Packs) (p : PackId) : Borrowed × Packs := (P.initializeIfNeeded p).lend p

/-- `make_shared<overdrawn>` of a one-off object. -/
def overdraw (P : Packs) : Packs :=
  { P.setRental P.nextRental { pack := none, t := some (.ofOverdrawn P.nextRental) } with
    nextRental := P.nextRental + 1 }

/-- `onAcquire` throws: `initialize_if_needed` has run, and the object that was moved out
of the pack is destroyed. -/
def spoil (P : Packs) (p : PackId) : Packs :=
  { (P.initializeIfNeeded p).setPack p { resource := none, initialized := true } with
    lost := Function.update P.lost p true }

/-- There is an object to call `onAcquire` on. -/
def hasObject (P : Packs) (p : PackId) : Bool :=
  !(P.pack p).initialized || (P.pack p).resource.isSome

/-- `builder` throws. A spare was dequeued to be borrowed, and its entry is gone. -/
def builderThrew (P : Packs) : PackId → Packs
  | .preferred _ => P
  | .spare j => { P with lost := Function.update P.lost (.spare j) true }

/-! ### Giving back -/

/-- `before_delete`, with an `onRelease` that returns. -/
def beforeDelete (P : Packs) (r : ℕ) (x : Rental) : Packs :=
  P.setRental r { x with deleted := true }

/-- `~rented_preferred` locks the pack's mutex, clears `who_owns_me` and puts the
object back. -/
def putBackPreferred (P : Packs) (u : ℕ) (r : ℕ) (x : Rental) (i : ℕ) : Packs :=
  ((P.setPreferred i { P.preferred i with mutex := some u, whoOwnsMe := none }).setPack
    (.preferred i) { P.pack (.preferred i) with resource := x.t }).setRental r { x with t := none }

/-- `source.in_free_list = true`. -/
def setInFreeList (P : Packs) (i : ℕ) : Packs :=
  P.setPreferred i { P.preferred i with inFreeList := true }

/-- `~rented_preferred` unlocks the mutex. -/
def unlock (P : Packs) (i : ℕ) : Packs :=
  P.setPreferred i { P.preferred i with mutex := none }

/-- `~rented_spare` puts the object back, without a lock. -/
def putBackSpare (P : Packs) (r : ℕ) (x : Rental) (j : ℕ) : Packs :=
  (P.setPack (.spare j) { P.pack (.spare j) with resource := x.t }).setRental r { x with t := none }

/-- `~overdrawn`, and with it the object is destroyed. -/
def destroyOverdrawn (P : Packs) (r : ℕ) (x : Rental) : Packs :=
  P.setRental r { x with t := none }

/-! ### Who has the object -/

/-- The object of rental `r`, of pack `p`, has not been put back. -/
def Rents (P : Packs) (r : ℕ) (p : PackId) : Prop :=
  ∃ x, P.rental r = some x ∧ x.pack = some p ∧ x.t ≠ none

/-- Pack `p` is rented. -/
def Rented (P : Packs) (p : PackId) : Prop := ∃ r, P.Rents r p

theorem rents_setRental {P : Packs} {r r' : ℕ} {x : Rental} {q : PackId} :
    (P.setRental r x).Rents r' q ↔
      if r' = r then x.pack = some q ∧ x.t ≠ none else P.Rents r' q := by
  by_cases h : r' = r <;> simp [Rents, setRental, h]

theorem rents_setRental_of_eq {P : Packs} {r r' : ℕ} {x y : Rental} {q : PackId}
    (hx : P.rental r = some x) (hp : y.pack = x.pack)
    (ht : y.t = x.t ∨ x.pack = none ∧ y.t = none) :
    (P.setRental r y).Rents r' q ↔ P.Rents r' q := by
  rw [rents_setRental]
  split
  · rename_i e
    subst e
    simp only [Rents, hx, Option.some.injEq, exists_eq_left', hp]
    rcases ht with ht | ⟨hn, -⟩ <;> simp [*]
  · rfl

/-! ### What `borrow` does -/

/-- `borrow` lent the object `t` of pack `p`: built for it if the pack was not
initialized, its `resource` if it was. -/
structure Lent (P : Packs) (p : PackId) (t : Obj) (Q : Packs) : Prop where
  object : if (P.pack p).initialized then (P.pack p).resource = some t else t = .ofPack p (P.builds p)
  builds : Q.builds =
    if (P.pack p).initialized then P.builds else Function.update P.builds p (P.builds p + 1)
  pack : Q.pack = Function.update P.pack p { resource := none, initialized := true }
  rental : Q.rental = Function.update P.rental P.nextRental (some { pack := some p, t := some t })
  nextRental : Q.nextRental = P.nextRental + 1
  freeResources : Q.freeResources = P.freeResources
  inFreeList : ∀ i, (Q.preferred i).inFreeList = (P.preferred i).inFreeList
  mutex : ∀ i, (Q.preferred i).mutex = (P.preferred i).mutex
  whoOwnsMe : ∀ i, (Q.preferred i).whoOwnsMe =
    if p = .preferred i then some P.nextRental else (P.preferred i).whoOwnsMe
  lost : Q.lost = P.lost

theorem initializeIfNeeded_of_initialized {P : Packs} {p : PackId}
    (h : (P.pack p).initialized = true) : P.initializeIfNeeded p = P := by
  simp [initializeIfNeeded, h]

theorem lent_rent {P : Packs} {p : PackId} {t : Obj}
    (h : ((P.initializeIfNeeded p).pack p).resource = some t) :
    P.Lent p t ((P.initializeIfNeeded p).rent p t) := by
  by_cases hi : (P.pack p).initialized = true
  · rw [initializeIfNeeded_of_initialized hi] at h ⊢
    constructor <;> cases p <;>
      simp [rent, setPack, setRental, setPreferred, hi, h, Function.update_apply] <;> grind
  · have ht : t = .ofPack p (P.builds p) := by
      simp [initializeIfNeeded, hi, setPack] at h
      exact h.symm
    constructor <;> cases p <;>
      simp [initializeIfNeeded, rent, setPack, setRental, setPreferred, hi, ht,
        Function.update_apply] <;> grind

/-- **What `borrow` does**: it lends the object, or leaves everything as it is because
the pack is initialized and its object is away. -/
theorem borrow_cases {P Q : Packs} {p : PackId} {b : Borrowed} (h : P.borrow p = (b, Q)) :
    (b = .rented P.nextRental ∧ ∃ t, P.Lent p t Q) ∨
      ((b = .invalid ∨ b = .asserts) ∧ Q = P ∧ (P.pack p).initialized = true ∧
        (P.pack p).resource = none) := by
  rw [borrow] at h
  have hn : (P.initializeIfNeeded p).nextRental = P.nextRental := by
    unfold initializeIfNeeded; split <;> rfl
  cases hr : ((P.initializeIfNeeded p).pack p).resource with
  | some t =>
    have hl : (P.initializeIfNeeded p).lend p =
        (.rented P.nextRental, (P.initializeIfNeeded p).rent p t) := by
      simp [lend, hr, hn]
    rw [hl, Prod.mk.injEq] at h
    exact .inl ⟨h.1.symm, t, h.2 ▸ lent_rent hr⟩
  | none =>
    have hi : (P.pack p).initialized = true := by
      by_contra hi
      simp [initializeIfNeeded, hi, setPack] at hr
    rw [initializeIfNeeded_of_initialized hi] at h hr
    cases p with
    | preferred i =>
      simp only [lend, hr] at h
      split at h <;> simp_all
    | spare j => simp_all [lend]

/-! ### What a throwing `onAcquire` does -/

/-- The object of pack `p` is destroyed. -/
structure Spoilt (P : Packs) (p : PackId) (Q : Packs) : Prop where
  builds : Q.builds =
    if (P.pack p).initialized then P.builds else Function.update P.builds p (P.builds p + 1)
  pack : Q.pack = Function.update P.pack p { resource := none, initialized := true }
  rental : Q.rental = P.rental
  nextRental : Q.nextRental = P.nextRental
  freeResources : Q.freeResources = P.freeResources
  preferred : Q.preferred = P.preferred
  lost : Q.lost = Function.update P.lost p true

theorem spoilt_spoil (P : Packs) (p : PackId) : P.Spoilt p (P.spoil p) := by
  by_cases hi : (P.pack p).initialized = true <;>
    constructor <;> simp [spoil, initializeIfNeeded, setPack, hi]

/-! ### What putting back does -/

/-- The object of rental `r`, of pack `p`, went back to the pack. -/
structure PutBack (P : Packs) (r : ℕ) (x : Rental) (p : PackId) (Q : Packs) : Prop where
  pack : Q.pack = Function.update P.pack p { P.pack p with resource := x.t }
  rental : Q.rental = Function.update P.rental r (some { x with t := none })
  whoOwnsMe : ∀ i, (Q.preferred i).whoOwnsMe =
    if p = .preferred i then none else (P.preferred i).whoOwnsMe
  inFreeList : ∀ i, (Q.preferred i).inFreeList = (P.preferred i).inFreeList
  nextRental : Q.nextRental = P.nextRental
  builds : Q.builds = P.builds
  freeResources : Q.freeResources = P.freeResources
  lost : Q.lost = P.lost

theorem putBack_preferred (P : Packs) (u r : ℕ) (x : Rental) (i : ℕ) :
    P.PutBack r x (.preferred i) (P.putBackPreferred u r x i) := by
  constructor <;>
    simp [putBackPreferred, setPack, setRental, setPreferred, Function.update_apply] <;> grind

theorem putBack_spare (P : Packs) (r : ℕ) (x : Rental) (j : ℕ) :
    P.PutBack r x (.spare j) (P.putBackSpare r x j) := by
  constructor <;> simp [putBackSpare, setPack, setRental]

end Packs

end MutilsTasks.ResourcePool
