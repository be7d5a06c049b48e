import MutilsTasks.Library.Tokens
import MutilsTasks.ResourcePool.Packs

/-!
# The protocol of packs and queue entries

What the pool's threads do to packs, whatever they are in the middle of
otherwise. A thread has at most one thing in hand (`Hold`): a queue entry that it
has dequeued or is about to enqueue, a pack it is about to borrow, a rental it is
destroying, or the mutex of a pack it is giving back. `PackStep` lists the
things it can do next; the interleaved machine and the sequential functions of the
pool do nothing else to packs. The last three are what an exception does.

`PackInv` is the invariant. Three facts carry it:

* a pack's object is in one place: its `resource`, or the `t` of one rental
  (`Objects`);
* a preferred pack's `in_free_list` says that its entry exists — in the queue, or
  in the hand of a thread that has dequeued it and has not cleared the flag or has
  set the flag and has not enqueued it (`flag`); so although the flag is cleared
  without the mutex, no releaser that has seen it clear can be overtaken;
* an idle preferred pack has an entry or a thread that is about to try to borrow
  it (`idle`): a dequeuer whose attempt fails leaves a pack that is rented, and its
  renter will see the flag clear.

The entries are tokens (`Tokens.Distinct`): dequeuing takes one, enqueuing puts it
back, clearing the flag drops it and setting the flag makes it.
-/

namespace MutilsTasks.ResourcePool

open Tokens

/-! ### What a thread has in hand -/

/-- What a thread has in hand. -/
inductive Hold where
  /-- Nothing of a pack. -/
  | nothing
  /-- It has dequeued `p` and not called `remove_from_free_list`. -/
  | dequeued (p : PackId)
  /-- It has called `remove_from_free_list` and not `borrow`. -/
  | borrowing (p : PackId)
  /-- It is in the destructor of rental `r`, before the object is put back. -/
  | releasing (r : ℕ)
  /-- It has put the object back, locked, and is to test `in_free_list`. -/
  | testing (i : ℕ)
  /-- It has found `in_free_list` clear. -/
  | setting (i : ℕ)
  /-- It is to enqueue `p`. -/
  | enqueuing (p : PackId)
  /-- It is to unlock the mutex. -/
  | unlocking (i : ℕ)
  deriving DecidableEq

/-- The queue entry in hand. A preferred pack's entry is spent when its flag is
cleared; a spare's when `borrow` has taken the object. -/
def Hold.entry : Hold → Option PackId
  | .dequeued p | .enqueuing p | .borrowing p@(.spare _) => some p
  | _ => none

/-- The preferred pack whose mutex is held. -/
def Hold.mutex : Hold → Option ℕ
  | .testing i | .setting i | .unlocking i | .enqueuing (.preferred i) => some i
  | _ => none

/-- The preferred pack, without an entry in hand, that the thread is about to try to
borrow or to make an entry for. -/
def Hold.pending : Hold → Option ℕ
  | .borrowing (.preferred i) | .testing i | .setting i => some i
  | _ => none

/-- What every thread has in hand. -/
abbrev Holds := ℕ → Hold

/-- Thread `u` has `x` in hand next. -/
def Holds.set (h : Holds) (u : ℕ) (x : Hold) : Holds := Function.update h u x

@[simp] theorem Holds.set_apply (h : Holds) (u v : ℕ) (x : Hold) :
    h.set u x v = if v = u then x else h v := by
  simp [Holds.set, Function.update_apply]

/-- The queue entries in hand. -/
def Holds.entry (h : Holds) (u : ℕ) : Option PackId := (h u).entry

theorem Holds.entry_set (h : Holds) (u : ℕ) (x : Hold) :
    (h.set u x).entry = Function.update h.entry u x.entry := by
  funext v
  by_cases hv : v = u <;> simp [Holds.entry, hv]

/-- A thread that turns to `x` leaves nothing pending that was not, but by `x`. -/
theorem Holds.pending_of_set {h : Holds} {u : ℕ} {x : Hold} {i : ℕ}
    (hi : ∃ v, (h.set u x v).pending = some i) :
    x.pending = some i ∨ ∃ v, (h v).pending = some i := by
  obtain ⟨v, hv⟩ := hi
  by_cases e : v = u
  · exact .inl (by simpa [e] using hv)
  · exact .inr ⟨v, by simpa [e] using hv⟩

/-- What is pending with another thread, or with `x`, stays pending. -/
theorem Holds.pending_set {h : Holds} {u : ℕ} {x : Hold} {i : ℕ}
    (hi : ∃ v, (h v).pending = some i) (hx : (h u).pending = some i → x.pending = some i) :
    ∃ v, (h.set u x v).pending = some i := by
  obtain ⟨v, hv⟩ := hi
  by_cases e : v = u
  · exact ⟨u, by simpa using hx (e ▸ hv)⟩
  · exact ⟨v, by simpa [e] using hv⟩

/-! ### Steps -/

/-- **What a thread does to the packs next.** -/
inductive PackStep (cfg : Config) (P : Packs) (h : Holds) : Packs → Holds → Prop
  /-- It dequeues any pack of the queue. -/
  | dequeue {u : ℕ} {p : PackId} : h u = .nothing → p ∈ P.freeResources →
      PackStep cfg P h (P.dequeue p) (h.set u (.dequeued p))
  /-- It calls `remove_from_free_list`. -/
  | removeFromFreeList {u : ℕ} {p : PackId} : h u = .dequeued p →
      PackStep cfg P h (P.removeFromFreeList p) (h.set u (.borrowing p))
  /-- It calls `borrow` on the pack of its preference. -/
  | borrowPreferred {i : ℕ} {b : Packs.Borrowed} {Q : Packs} : i < cfg.maxResources →
      P.mutexFree (.preferred i) = true → P.borrow (.preferred i) = (b, Q) → PackStep cfg P h Q h
  /-- It calls `borrow` on the pack it has dequeued. -/
  | borrowFree {u : ℕ} {p : PackId} {b : Packs.Borrowed} {Q : Packs} :
      h u = .borrowing p → P.mutexFree p = true → P.borrow p = (b, Q) →
      PackStep cfg P h Q (h.set u .nothing)
  /-- It makes an `overdrawn`. -/
  | overdraw : PackStep cfg P h P.overdraw h
  /-- It lets go of the last handle on rental `r` and enters the destructor. -/
  | release {u : ℕ} {r : ℕ} {x : Rental} : h u = .nothing →
      P.rental r = some x → x.t ≠ none → (∀ v, h v ≠ .releasing r) →
      PackStep cfg P h P (h.set u (.releasing r))
  /-- `before_delete`. -/
  | beforeDelete {u : ℕ} {r : ℕ} {x : Rental} : h u = .releasing r →
      P.rental r = some x → PackStep cfg P h (P.beforeDelete r x) h
  /-- `~rented_preferred` locks the mutex and puts the object back. -/
  | putBackPreferred {u : ℕ} {r : ℕ} {x : Rental} {i : ℕ} : h u = .releasing r →
      P.rental r = some x → x.pack = some (.preferred i) → P.mutexFree (.preferred i) = true →
      PackStep cfg P h (P.putBackPreferred u r x i) (h.set u (.testing i))
  /-- It finds `in_free_list` set. -/
  | testTrue {u : ℕ} {i : ℕ} : h u = .testing i → (P.preferred i).inFreeList = true →
      PackStep cfg P h P (h.set u (.unlocking i))
  /-- It finds `in_free_list` clear. -/
  | testFalse {u : ℕ} {i : ℕ} : h u = .testing i → (P.preferred i).inFreeList = false →
      PackStep cfg P h P (h.set u (.setting i))
  /-- It sets `in_free_list`. -/
  | setInFreeList {u : ℕ} {i : ℕ} : h u = .setting i →
      PackStep cfg P h (P.setInFreeList i) (h.set u (.enqueuing (.preferred i)))
  /-- It enqueues the preferred pack. -/
  | enqueuePreferred {u : ℕ} {i : ℕ} : h u = .enqueuing (.preferred i) →
      PackStep cfg P h (P.enqueue (.preferred i)) (h.set u (.unlocking i))
  /-- It unlocks the mutex. -/
  | unlock {u : ℕ} {i : ℕ} : h u = .unlocking i →
      PackStep cfg P h (P.unlock i) (h.set u .nothing)
  /-- `~rented_spare` puts the object back. -/
  | putBackSpare {u : ℕ} {r : ℕ} {x : Rental} {j : ℕ} : h u = .releasing r →
      P.rental r = some x → x.pack = some (.spare j) →
      PackStep cfg P h (P.putBackSpare r x j) (h.set u (.enqueuing (.spare j)))
  /-- It enqueues the spare. -/
  | enqueueSpare {u : ℕ} {j : ℕ} : h u = .enqueuing (.spare j) →
      PackStep cfg P h (P.enqueue (.spare j)) (h.set u .nothing)
  /-- `~overdrawn`. -/
  | destroyOverdrawn {u : ℕ} {r : ℕ} {x : Rental} : h u = .releasing r →
      P.rental r = some x → x.pack = none →
      PackStep cfg P h (P.destroyOverdrawn r x) (h.set u .nothing)
  /-- `onAcquire` throws in `borrow` on the pack of its preference. -/
  | spoilPreferred {i : ℕ} : i < cfg.maxResources → P.hasObject (.preferred i) = true →
      PackStep cfg P h (P.spoil (.preferred i)) h
  /-- `onAcquire` throws in `borrow` on the pack it has dequeued. -/
  | spoilFree {u : ℕ} {p : PackId} : h u = .borrowing p → P.hasObject p = true →
      PackStep cfg P h (P.spoil p) (h.set u .nothing)
  /-- `builder` throws in `borrow` on the pack it has dequeued. -/
  | builderThrew {u : ℕ} {p : PackId} : h u = .borrowing p → (P.pack p).initialized = false →
      PackStep cfg P h (P.builderThrew p) (h.set u .nothing)

/-! ### The invariant -/

/-- The object that rental `r` was made with. -/
def Rental.object (r : ℕ) (x : Rental) : Obj :=
  match x.pack with
  | some p => .ofPack p 0
  | none => .ofOverdrawn r

/-- **Objects**: a pack is built at most once, and its object is in its `resource` or
in the `t` of one rental, which `who_owns_me` points to, unless it is lost. -/
structure Objects (P : Packs) : Prop where
  fresh : ∀ r, P.nextRental ≤ r → P.rental r = none
  rentalObject : ∀ r x t, P.rental r = some x → x.t = some t → t = x.object r
  packObject : ∀ p t, (P.pack p).resource = some t → t = .ofPack p 0
  built : ∀ p, (P.pack p).initialized = true →
    P.builds p = 1 ∧ ((P.pack p).resource = none → P.Rented p ∨ P.lost p = true)
  unbuilt : ∀ p, (P.pack p).initialized = false →
    P.builds p = 0 ∧ (P.pack p).resource = none ∧ ¬ P.Rented p
  apart : ∀ p, P.Rented p → (P.pack p).resource = none
  one : ∀ r r' p, P.Rents r p → P.Rents r' p → r = r'
  owner : ∀ i r, (P.preferred i).whoOwnsMe = some r ↔ P.Rents r (.preferred i)

/-- **Destructors**: a rental in a destructor still has its object, and no other
thread is in its destructor. -/
structure Releases (P : Packs) (h : Holds) : Prop where
  live : ∀ u r, h u = .releasing r → ∃ x, P.rental r = some x ∧ x.t ≠ none
  one : ∀ u v r, h u = .releasing r → h v = .releasing r → u = v

/-- **The queue**: entries are distinct, `in_free_list` says that a preferred pack has
one, and every idle pack has one or a thread that has it pending. -/
structure Entries (cfg : Config) (P : Packs) (h : Holds) : Prop where
  distinct : Distinct P.freeResources h.entry
  flag : ∀ i, (P.preferred i).inFreeList = true ↔
    Somewhere P.freeResources h.entry (.preferred i)
  setting : ∀ u i, h u = .setting i → (P.preferred i).inFreeList = false
  mutex : ∀ u i, (P.preferred i).mutex = some u ↔ (h u).mutex = some i
  idle : ∀ i, (P.pack (.preferred i)).resource ≠ none →
    Somewhere P.freeResources h.entry (.preferred i) ∨ ∃ u, (h u).pending = some i
  known : ∀ i, (Somewhere P.freeResources h.entry (.preferred i) ∨ ∃ u, (h u).pending = some i) →
    i < cfg.maxResources ∧ (P.pack (.preferred i)).initialized = true
  spare : ∀ j, Somewhere P.freeResources h.entry (.spare j) ↔
    j < cfg.maxSpares ∧ ¬ P.Rented (.spare j) ∧ P.lost (.spare j) = false
  lost : ∀ j, P.lost (.spare j) = true → ¬ P.Rented (.spare j)
  rented : ∀ p, P.Rented p → cfg.Has p

/-- **The invariant of the protocol.** -/
structure PackInv (cfg : Config) (P : Packs) (h : Holds) : Prop where
  objects : Objects P
  releases : Releases P h
  entries : Entries cfg P h

variable {cfg : Config} {P Q : Packs} {h k : Holds}

/-! ### Objects -/

namespace Objects

/-- What `Objects` reads: the rest may change freely. -/
theorem congr (inv : Objects P) (hp : Q.pack = P.pack) (hr : Q.rental = P.rental)
    (hn : Q.nextRental = P.nextRental) (hb : Q.builds = P.builds) (hl : Q.lost = P.lost)
    (ho : ∀ i, (Q.preferred i).whoOwnsMe = (P.preferred i).whoOwnsMe) : Objects Q := by
  have hR : ∀ r p, Q.Rents r p ↔ P.Rents r p := fun r p => by simp only [Packs.Rents, hr]
  have hR' : ∀ p, Q.Rented p ↔ P.Rented p := fun p => by simp only [Packs.Rented, hR]
  obtain ⟨h1, h2, h3, h4, h5, h6, h7, h8⟩ := inv
  constructor <;> simpa only [hp, hr, hn, hb, hl, ho, hR, hR']

theorem rents_lt (inv : Objects P) {r : ℕ} {p : PackId} (hr : P.Rents r p) :
    r < P.nextRental := by
  by_contra hlt
  obtain ⟨x, hx, -⟩ := hr
  rw [inv.fresh r (Nat.le_of_not_lt hlt)] at hx
  cases hx

/-- An object that is lent is the first built for its pack. -/
theorem lent_eq (inv : Objects P) {p : PackId} {t : Obj} (hl : P.Lent p t Q) : t = .ofPack p 0 := by
  have ho := hl.object
  split at ho
  · exact inv.packObject p t ho
  · rename_i hi
    rw [ho, (inv.unbuilt p (by simpa using hi)).1]

/-- A pack that lends its object is not rented. -/
theorem not_rented_of_lent (inv : Objects P) {p : PackId} {t : Obj} (hl : P.Lent p t Q) :
    ¬ P.Rented p := by
  intro hr
  have ho := hl.object
  split at ho
  · rw [inv.apart p hr] at ho
    cases ho
  · rename_i hi
    exact (inv.unbuilt p (by simpa using hi)).2.2 hr

theorem rents_of_lent {p : PackId} {t : Obj} (hl : P.Lent p t Q) (r : ℕ) (q : PackId) :
    Q.Rents r q ↔ if r = P.nextRental then q = p else P.Rents r q := by
  by_cases hr : r = P.nextRental <;> simp [Packs.Rents, hl.rental, hr, eq_comm]

theorem rented_of_lent (inv : Objects P) {p : PackId} {t : Obj} (hl : P.Lent p t Q) (q : PackId) :
    Q.Rented q ↔ q = p ∨ P.Rented q := by
  simp only [Packs.Rented, rents_of_lent hl]
  constructor
  · rintro ⟨r, hr⟩
    split at hr
    · exact .inl hr
    · exact .inr ⟨r, hr⟩
  · rintro (rfl | ⟨r, hr⟩)
    · exact ⟨P.nextRental, by simp⟩
    · exact ⟨r, by rwa [if_neg (Nat.ne_of_lt (inv.rents_lt hr))]⟩

theorem lent (inv : Objects P) {p : PackId} {t : Obj} (hl : P.Lent p t Q) : Objects Q := by
  have ht := inv.lent_eq hl
  have hp := inv.not_rented_of_lent hl
  have hR := rents_of_lent hl
  have hR' := inv.rented_of_lent hl
  have hb : Q.builds p = 1 := by
    rw [hl.builds]
    split
    · rename_i hi
      exact (inv.built p hi).1
    · rename_i hi
      simp [(inv.unbuilt p (by simpa using hi)).1]
  have hb' : ∀ q, q ≠ p → Q.builds q = P.builds q := by
    intro q hq
    rw [hl.builds]
    split <;> simp [hq]
  constructor
  · intro r hr
    rw [hl.nextRental] at hr
    simpa [hl.rental, show r ≠ P.nextRental by omega] using inv.fresh r (by omega)
  · intro r x u hx hu
    rw [hl.rental, Function.update_apply] at hx
    split at hx
    · cases hx
      cases hu
      exact ht
    · exact inv.rentalObject r x u hx hu
  · intro q u hu
    rw [hl.pack, Function.update_apply] at hu
    split at hu
    · cases hu
    · exact inv.packObject q u hu
  · intro q hq
    rw [hl.pack, Function.update_apply] at hq ⊢
    by_cases hqp : q = p
    · subst hqp
      exact ⟨hb, fun _ => .inl ((hR' q).mpr (.inl rfl))⟩
    · simp only [hqp, if_false] at hq ⊢
      rw [hb' q hqp, hl.lost]
      exact ⟨(inv.built q hq).1, fun hn =>
        ((inv.built q hq).2 hn).imp_left fun h => (hR' q).mpr (.inr h)⟩
  · intro q hq
    rw [hl.pack, Function.update_apply] at hq ⊢
    by_cases hqp : q = p
    · simp [hqp] at hq
    · simp only [hqp, if_false] at hq ⊢
      rw [hb' q hqp, hR', not_or]
      exact ⟨(inv.unbuilt q hq).1, (inv.unbuilt q hq).2.1, hqp, (inv.unbuilt q hq).2.2⟩
  · intro q hq
    rw [hl.pack, Function.update_apply]
    split
    · rfl
    · exact inv.apart q (((hR' q).mp hq).resolve_left ‹_›)
  · intro r r' q hr hr'
    rw [hR] at hr hr'
    split_ifs at hr hr' with h1 h2 h2
    · rw [h1, h2]
    · exact absurd ⟨r', hr ▸ hr'⟩ hp
    · exact absurd ⟨r, hr' ▸ hr⟩ hp
    · exact inv.one r r' q hr hr'
  · intro i r
    rw [hl.whoOwnsMe, hR]
    by_cases hpi : p = .preferred i
    · subst hpi
      have : ¬ P.Rents r (.preferred i) := fun hr => hp ⟨r, hr⟩
      by_cases hr : r = P.nextRental
      · simp [hr]
      · simp [hr, Ne.symm hr, this]
    · by_cases hr : r = P.nextRental
      · subst hr
        have : ¬ P.Rents P.nextRental (.preferred i) := fun hr => Nat.lt_irrefl _ (inv.rents_lt hr)
        simp [hpi, inv.owner, this, Ne.symm hpi]
      · simp [hpi, hr, inv.owner]

theorem rents_of_putBack {r : ℕ} {x : Rental} {p : PackId} (hq : P.PutBack r x p Q) (r' : ℕ)
    (q : PackId) : Q.Rents r' q ↔ r' ≠ r ∧ P.Rents r' q := by
  by_cases hr : r' = r <;> simp [Packs.Rents, hq.rental, hr]

theorem rented_of_putBack (inv : Objects P) {r : ℕ} {x : Rental} {p : PackId}
    (hq : P.PutBack r x p Q) (hr : P.Rents r p) (q : PackId) :
    Q.Rented q ↔ q ≠ p ∧ P.Rented q := by
  simp only [Packs.Rented, rents_of_putBack hq]
  constructor
  · rintro ⟨r', hne, hr'⟩
    refine ⟨?_, r', hr'⟩
    rintro rfl
    exact hne (inv.one r' r q hr' hr)
  · rintro ⟨hne, r', hr'⟩
    refine ⟨r', ?_, hr'⟩
    rintro rfl
    obtain ⟨y, hy, hyq, -⟩ := hr
    obtain ⟨z, hz, hzq, -⟩ := hr'
    rw [hy, Option.some.injEq] at hz
    subst hz
    exact hne (Option.some.inj (hzq.symm.trans hyq))

theorem putBack (inv : Objects P) {r : ℕ} {x : Rental} {p : PackId} (hx : P.rental r = some x)
    (hxp : x.pack = some p) (hxt : x.t ≠ none) (hq : P.PutBack r x p Q) : Objects Q := by
  have hr : P.Rents r p := ⟨x, hx, hxp, hxt⟩
  have hR := rents_of_putBack hq
  have hR' := inv.rented_of_putBack hq hr
  constructor
  · intro r' hr'
    rw [hq.nextRental] at hr'
    have : r' ≠ r := fun e => by have := inv.rents_lt hr; omega
    simpa [hq.rental, this] using inv.fresh r' hr'
  · intro r' y t hy ht
    rw [hq.rental, Function.update_apply] at hy
    split at hy
    · cases hy
      cases ht
    · exact inv.rentalObject r' y t hy ht
  · intro q t ht
    rw [hq.pack, Function.update_apply] at ht
    split at ht
    · rename_i hqp
      have := inv.rentalObject r x t hx ht
      rwa [Rental.object, hxp, ← hqp] at this
    · exact inv.packObject q t ht
  · intro q hi
    rw [hq.pack, Function.update_apply] at hi ⊢
    by_cases hqp : q = p
    · simp only [hqp, if_true] at hi ⊢
      rw [hq.builds]
      exact ⟨(inv.built p hi).1, fun ht => absurd ht hxt⟩
    · simp only [hqp, if_false] at hi ⊢
      rw [hq.builds, hR', hq.lost]
      exact ⟨(inv.built q hi).1, fun ht => ((inv.built q hi).2 ht).imp_left fun h => ⟨hqp, h⟩⟩
  · intro q hi
    rw [hq.pack, Function.update_apply] at hi ⊢
    by_cases hqp : q = p
    · simp only [hqp, if_true] at hi
      exact absurd ⟨r, hr⟩ (inv.unbuilt p hi).2.2
    · simp only [hqp, if_false] at hi ⊢
      rw [hq.builds, hR']
      obtain ⟨h1, h2, h3⟩ := inv.unbuilt q hi
      exact ⟨h1, h2, fun h => h3 h.2⟩
  · intro q hrq
    obtain ⟨hne, hrq⟩ := (hR' q).mp hrq
    rw [hq.pack, Function.update_of_ne hne]
    exact inv.apart q hrq
  · intro r₁ r₂ q h₁ h₂
    exact inv.one r₁ r₂ q ((hR _ _).mp h₁).2 ((hR _ _).mp h₂).2
  · intro i r'
    rw [hq.whoOwnsMe, hR]
    by_cases hpi : p = .preferred i
    · subst hpi
      simp only [if_true, reduceCtorEq, false_iff, not_and]
      exact fun hne h => hne (inv.one r' r _ h hr)
    · simp only [hpi, if_false, inv.owner]
      refine ⟨fun h => ⟨?_, h⟩, And.right⟩
      rintro rfl
      obtain ⟨y, hy, hyp, -⟩ := h
      rw [hx, Option.some.injEq] at hy
      subst hy
      exact hpi (Option.some.inj (hxp.symm.trans hyp))

/-- A rental's record may change if its class stays, and its object too unless it is
an `overdrawn`. -/
theorem setRental (inv : Objects P) {r : ℕ} {x y : Rental} (hx : P.rental r = some x)
    (hp : y.pack = x.pack) (ht : y.t = x.t ∨ x.pack = none ∧ y.t = none) :
    Objects (P.setRental r y) := by
  have hR : ∀ r' q, (P.setRental r y).Rents r' q ↔ P.Rents r' q :=
    fun _ _ => Packs.rents_setRental_of_eq hx hp ht
  have hR' : ∀ q, (P.setRental r y).Rented q ↔ P.Rented q := fun q => by
    simp only [Packs.Rented, hR]
  obtain ⟨h1, h2, h3, h4, h5, h6, h7, h8⟩ := inv
  constructor
  · intro r' hr'
    have : r' ≠ r := fun e => by simp [e ▸ h1 r' hr'] at hx
    simpa [Packs.setRental, this] using h1 r' hr'
  · intro r' z t hz hzt
    simp only [Packs.setRental, Function.update_apply] at hz
    split at hz
    · rename_i e
      cases hz
      subst e
      rcases ht with ht | ⟨-, hn⟩
      · have := h2 r' x t hx (ht ▸ hzt)
        rwa [Rental.object, ← hp] at this
      · rw [hn] at hzt
        cases hzt
    · exact h2 r' z t hz hzt
  · exact h3
  · simp only [hR']
    exact h4
  · simp only [hR']
    exact h5
  · simp only [hR']
    exact h6
  · simpa only [hR] using h7
  · simp only [hR]
    exact h8

theorem rents_overdraw (inv : Objects P) {r : ℕ} {q : PackId} :
    P.overdraw.Rents r q ↔ P.Rents r q := by
  by_cases hr : r = P.nextRental
  · subst hr
    have : ¬ P.Rents P.nextRental q := fun h => Nat.lt_irrefl _ (inv.rents_lt h)
    simp [Packs.Rents, Packs.overdraw, Packs.setRental] at this ⊢
    exact this
  · simp [Packs.Rents, Packs.overdraw, Packs.setRental, hr]

theorem overdraw (inv : Objects P) : Objects P.overdraw := by
  have hR : ∀ r q, P.overdraw.Rents r q ↔ P.Rents r q := fun _ _ => inv.rents_overdraw
  have hR' : ∀ q, P.overdraw.Rented q ↔ P.Rented q := fun q => by simp only [Packs.Rented, hR]
  obtain ⟨h1, h2, h3, h4, h5, h6, h7, h8⟩ := inv
  constructor
  · intro r hr
    simp only [Packs.overdraw] at hr
    simpa [Packs.overdraw, Packs.setRental, show r ≠ P.nextRental by omega] using h1 r (by omega)
  · intro r x t hx ht
    simp only [Packs.overdraw, Packs.setRental, Function.update_apply] at hx
    split at hx
    · rename_i e
      cases hx
      cases ht
      rw [e]
      rfl
    · exact h2 r x t hx ht
  · exact h3
  · simp only [hR']
    exact h4
  · simp only [hR']
    exact h5
  · simp only [hR']
    exact h6
  · simpa only [hR] using h7
  · simp only [hR]
    exact h8

theorem builderThrew (inv : Objects P) (p : PackId) : Objects (P.builderThrew p) := by
  cases p with
  | preferred i => exact inv
  | spare j =>
    refine ⟨inv.fresh, inv.rentalObject, inv.packObject, fun q hi => ?_, inv.unbuilt, inv.apart,
      inv.one, inv.owner⟩
    refine ⟨(inv.built q hi).1, fun ht => ((inv.built q hi).2 ht).imp_right fun h => ?_⟩
    simp only [Packs.builderThrew, Function.update_apply]
    split
    · rfl
    · exact h

theorem spoilt (inv : Objects P) {p : PackId} (hq : P.Spoilt p Q)
    (hp : P.hasObject p = true) : Objects Q := by
  have hR : ∀ r q, Q.Rents r q ↔ P.Rents r q := fun r q => by simp only [Packs.Rents, hq.rental]
  have hR' : ∀ q, Q.Rented q ↔ P.Rented q := fun q => by simp only [Packs.Rented, hR]
  have hb : Q.builds p = 1 := by
    rw [hq.builds]
    split
    · rename_i hi
      exact (inv.built p hi).1
    · rename_i hi
      simp [(inv.unbuilt p (by simpa using hi)).1]
  have hb' : ∀ q, q ≠ p → Q.builds q = P.builds q := by
    intro q hne
    rw [hq.builds]
    split <;> simp [hne]
  constructor
  · simpa only [hq.rental, hq.nextRental] using inv.fresh
  · simpa only [hq.rental] using inv.rentalObject
  · intro q t ht
    rw [hq.pack, Function.update_apply] at ht
    split at ht
    · cases ht
    · exact inv.packObject q t ht
  · intro q hi
    rw [hq.pack, Function.update_apply] at hi ⊢
    rw [hq.lost, hR']
    by_cases hqp : q = p
    · subst hqp
      exact ⟨hb, fun _ => .inr (by simp)⟩
    · simp only [hqp, if_false] at hi ⊢
      rw [hb' q hqp, Function.update_of_ne hqp]
      exact inv.built q hi
  · intro q hi
    rw [hq.pack, Function.update_apply] at hi ⊢
    by_cases hqp : q = p
    · simp [hqp] at hi
    · simp only [hqp, if_false] at hi ⊢
      rw [hb' q hqp, hR']
      exact inv.unbuilt q hi
  · intro q hrq
    rw [hq.pack, Function.update_apply]
    split
    · rfl
    · exact inv.apart q ((hR' q).mp hrq)
  · simpa only [hR] using inv.one
  · simpa only [hR, hq.preferred] using inv.owner

/-- Every step keeps `Objects`. -/
theorem step (inv : Objects P) (rel : Releases P h) (hs : PackStep cfg P h Q k) : Objects Q := by
  cases hs with
  | dequeue | enqueuePreferred | enqueueSpare =>
    exact inv.congr rfl rfl rfl rfl rfl fun _ => rfl
  | @removeFromFreeList u p =>
    cases p with
    | preferred i =>
      refine inv.congr rfl rfl rfl rfl rfl fun i' => ?_
      simp only [Packs.removeFromFreeList, Packs.setPreferred, Function.update_apply]
      split <;> simp_all
    | spare => exact inv
  | borrowPreferred _ _ hb | borrowFree _ _ hb =>
    obtain ⟨-, t, hl⟩ | ⟨-, rfl, -⟩ := Packs.borrow_cases hb
    · exact inv.lent hl
    · exact inv
  | overdraw => exact inv.overdraw
  | release | testTrue | testFalse => exact inv
  | beforeDelete _ hx => exact inv.setRental hx rfl (.inl rfl)
  | @putBackPreferred u r x i hu hx hp =>
    obtain ⟨y, hy, ht⟩ := rel.live u r hu
    obtain rfl : x = y := Option.some.inj (hx.symm.trans hy)
    exact inv.putBack hx hp ht (Packs.putBack_preferred P u r x i)
  | @setInFreeList u i | @unlock u i =>
    refine inv.congr rfl rfl rfl rfl rfl fun i' => ?_
    simp only [Packs.setInFreeList, Packs.unlock, Packs.setPreferred, Function.update_apply]
    split <;> simp_all
  | @putBackSpare u r x j hu hx hp =>
    obtain ⟨y, hy, ht⟩ := rel.live u r hu
    obtain rfl : x = y := Option.some.inj (hx.symm.trans hy)
    exact inv.putBack hx hp ht (Packs.putBack_spare P r x j)
  | destroyOverdrawn _ hx hp => exact inv.setRental hx rfl (.inr ⟨hp, rfl⟩)
  | spoilPreferred _ hp | spoilFree _ hp => exact inv.spoilt (Packs.spoilt_spoil ..) hp
  | builderThrew => exact inv.builderThrew _

end Objects

/-! ### Destructors -/

/-- Every step keeps `Releases`. -/
theorem Releases.step (rel : Releases P h) (inv : Objects P) (hs : PackStep cfg P h Q k) :
    Releases Q k := by
  -- a record made under a fresh number is no rental that is being destroyed
  have keep : ∀ y u r, h u = .releasing r →
      ∃ x, Function.update P.rental P.nextRental (some y) r = some x ∧ x.t ≠ none := by
    intro y u r hu
    obtain ⟨x, hx, ht⟩ := rel.live u r hu
    have : r ≠ P.nextRental := fun e => by simp [inv.fresh r (Nat.le_of_eq e.symm)] at hx
    exact ⟨x, by rwa [Function.update_of_ne this], ht⟩
  obtain ⟨h1, h2⟩ := rel
  cases hs with
  | borrowPreferred _ _ hb =>
    obtain ⟨-, t, hl⟩ | ⟨-, rfl, -⟩ := Packs.borrow_cases hb
    · exact ⟨fun u r hu => hl.rental ▸ keep _ u r hu, h2⟩
    · exact ⟨h1, h2⟩
  | borrowFree _ _ hb =>
    obtain ⟨-, t, hl⟩ | ⟨-, rfl, -⟩ := Packs.borrow_cases hb
    · constructor <;> simp only [hl.rental, Holds.set_apply] <;> grind
    · constructor <;> simp only [Holds.set_apply] <;> grind
  | overdraw => exact ⟨fun u r hu => keep _ u r hu, h2⟩
  | @beforeDelete u r x hu hx =>
    refine ⟨?_, h2⟩
    simp only [Packs.beforeDelete, Packs.setRental, Function.update_apply]
    grind
  | @putBackPreferred u r x i hu hx hp =>
    have hq := (Packs.putBack_preferred P u r x i).rental
    constructor <;> simp only [hq, Holds.set_apply, Function.update_apply] <;> grind
  | @putBackSpare u r x j hu hx hp =>
    have hq := (Packs.putBack_spare P r x j).rental
    constructor <;> simp only [hq, Holds.set_apply, Function.update_apply] <;> grind
  | destroyOverdrawn =>
    constructor <;> simp only [Packs.destroyOverdrawn, Packs.setRental, Holds.set_apply,
      Function.update_apply] <;> grind
  | @removeFromFreeList u p =>
    have hq : (P.removeFromFreeList p).rental = P.rental := by cases p <;> rfl
    constructor <;> simp only [hq, Holds.set_apply] <;> grind
  | @spoilPreferred i => exact ⟨by rwa [(Packs.spoilt_spoil P (.preferred i)).rental], h2⟩
  | @spoilFree u p =>
    have hq := (Packs.spoilt_spoil P p).rental
    constructor <;> simp only [hq, Holds.set_apply] <;> grind
  | @builderThrew u p =>
    have hq : (P.builderThrew p).rental = P.rental := by cases p <;> rfl
    constructor <;> simp only [hq, Holds.set_apply] <;> grind
  | _ =>
    constructor <;> simp only [Packs.dequeue, Packs.enqueue, Packs.unlock, Packs.setInFreeList,
      Packs.setPreferred, Holds.set_apply] <;> grind

/-! ### The queue -/

namespace Entries

theorem mutex_one (ent : Entries cfg P h) {u v i : ℕ} (hu : (h u).mutex = some i)
    (hv : (h v).mutex = some i) : u = v :=
  Option.some.inj (((ent.mutex u i).mpr hu).symm.trans ((ent.mutex v i).mpr hv))

/-- A thread turns to `x` and no entry appears or is lost; whatever it had pending
and has no longer is not idle or has an entry. -/
theorem turn (ent : Entries cfg P h) {u : ℕ} {x : Hold} (hp : Q.pack = P.pack)
    (hf : Q.preferred = P.preferred) (hl : Q.lost = P.lost) (hr : ∀ p, Q.Rented p ↔ P.Rented p)
    (hd : Distinct Q.freeResources (h.set u x).entry)
    (hS : ∀ q, Somewhere Q.freeResources (h.set u x).entry q ↔ Somewhere P.freeResources h.entry q)
    (hm : x.mutex = (h u).mutex)
    (hs : ∀ i, x = .setting i → (P.preferred i).inFreeList = false)
    (hx : ∀ i, x.pending = some i → (h u).pending = some i)
    (hu : ∀ i, (h u).pending = some i → x.pending = some i ∨
      Somewhere P.freeResources h.entry (.preferred i) ∨ (P.pack (.preferred i)).resource = none) :
    Entries cfg Q (h.set u x) := by
  refine ⟨hd, ?_, fun v i hv => ?_, fun v i => ?_, fun i hi => ?_, fun i hi => ?_, ?_, ?_, ?_⟩
  · simpa only [hf, hS] using ent.flag
  · rw [hf]
    by_cases e : v = u
    · exact hs i (by simpa [e] using hv)
    · exact ent.setting v i (by simpa [e] using hv)
  · by_cases e : v = u
    · simp only [hf, e, Holds.set_apply, if_true, hm, ent.mutex u i]
    · simp only [hf, e, Holds.set_apply, if_false, ent.mutex v i]
  · rw [hp] at hi
    rw [hS]
    rcases ent.idle i hi with h₁ | h₁
    · exact .inl h₁
    · by_cases h₂ : (h u).pending = some i → x.pending = some i
      · exact .inr (Holds.pending_set h₁ h₂)
      · rw [Classical.not_imp] at h₂
        exact .inl (((hu i h₂.1).resolve_left h₂.2).resolve_right hi)
  · rw [hS] at hi
    rw [hp]
    refine ent.known i (hi.imp_right fun h₁ => ?_)
    rcases Holds.pending_of_set h₁ with h₂ | h₂
    · exact ⟨u, hx i h₂⟩
    · exact h₂
  · simpa only [hS, hr, hl] using ent.spare
  · simpa only [hr, hl] using ent.lost
  · simpa only [hr] using ent.rented

/-- A thread turns to `x` with the same entry in hand, and the queue stays. -/
theorem stay (ent : Entries cfg P h) {u : ℕ} {x : Hold} (hp : Q.pack = P.pack)
    (hf : Q.preferred = P.preferred) (hl : Q.lost = P.lost) (hr : ∀ p, Q.Rented p ↔ P.Rented p)
    (hq : Q.freeResources = P.freeResources) (he : x.entry = (h u).entry)
    (hm : x.mutex = (h u).mutex)
    (hs : ∀ i, x = .setting i → (P.preferred i).inFreeList = false)
    (hx : ∀ i, x.pending = some i → (h u).pending = some i)
    (hu : ∀ i, (h u).pending = some i → x.pending = some i ∨
      Somewhere P.freeResources h.entry (.preferred i) ∨ (P.pack (.preferred i)).resource = none) :
    Entries cfg Q (h.set u x) := by
  have hE : (h.set u x).entry = h.entry := by
    rw [Holds.entry_set, he]
    exact Function.update_eq_self u h.entry
  exact ent.turn hp hf hl hr (by rw [hE, hq]; exact ent.distinct) (by simp [hE, hq]) hm hs hx hu

/-- What `Entries` reads of the packs: the rest may change freely. -/
theorem congr (ent : Entries cfg P h) (hp : Q.pack = P.pack) (hf : Q.preferred = P.preferred)
    (hl : Q.lost = P.lost) (hr : ∀ p, Q.Rented p ↔ P.Rented p)
    (hq : Q.freeResources = P.freeResources) : Entries cfg Q h := by
  obtain ⟨h1, h2, h3, h4, h5, h6, h7, h8, h9⟩ := ent
  constructor <;> simpa only [hp, hf, hl, hr, hq]

theorem dequeue (ent : Entries cfg P h) {u : ℕ} {p : PackId} (hu : h u = .nothing)
    (hp : p ∈ P.freeResources) : Entries cfg (P.dequeue p) (h.set u (.dequeued p)) := by
  have he : h.entry u = none := by rw [Holds.entry, hu]; rfl
  refine ent.turn rfl rfl rfl (fun _ => Iff.rfl) ?_ ?_ (by rw [hu]; rfl) (by simp) (by simp [Hold.pending])
    (by simp [hu, Hold.pending])
  · rw [Holds.entry_set]
    exact ent.distinct.take he hp
  · intro q
    rw [Holds.entry_set]
    exact ent.distinct.somewhere_take he hp

theorem enqueue (ent : Entries cfg P h) {u : ℕ} {p : PackId} {x : Hold} (hu : h u = .enqueuing p)
    (he : x.entry = none) (hm : x.mutex = (h u).mutex) (hs : ∀ i, x ≠ .setting i)
    (hx : x.pending = none) :
    Entries cfg (P.enqueue p) (h.set u x) := by
  have hp : h.entry u = some p := by rw [Holds.entry, hu]; rfl
  refine ent.turn rfl rfl rfl (fun _ => Iff.rfl) ?_ ?_ hm (fun i e => absurd e (hs i)) (by simp [hx])
    (by simp [hu, Hold.pending])
  · rw [Holds.entry_set, he]
    exact ent.distinct.put hp
  · intro q
    rw [Holds.entry_set, he]
    exact ent.distinct.somewhere_put hp

/-- Clearing the flag of a preferred pack spends its entry. -/
theorem clear (ent : Entries cfg P h) {u i : ℕ} (hu : h u = .dequeued (.preferred i)) :
    Entries cfg (P.removeFromFreeList (.preferred i)) (h.set u (.borrowing (.preferred i))) := by
  have he : h.entry u = some (.preferred i) := by rw [Holds.entry, hu]; rfl
  have hS : ∀ q, Somewhere (P.removeFromFreeList (.preferred i)).freeResources
      (h.set u (.borrowing (.preferred i))).entry q ↔ q ≠ .preferred i ∧ Somewhere P.freeResources h.entry q := fun q => by
    rw [Holds.entry_set]
    exact ent.distinct.somewhere_drop he
  have hi := ent.known i (.inl (.of_hand he))
  refine ⟨?_, fun i' => ?_, fun v i' hv => ?_, fun v i' => ?_, fun i' hi' => ?_, fun i' hi' => ?_,
    fun j => ?_, ent.lost, ent.rented⟩
  · rw [Holds.entry_set]
    exact ent.distinct.drop u
  · rw [hS]
    simp only [Packs.removeFromFreeList, Packs.setPreferred, Function.update_apply]
    by_cases e : i' = i
    · simp [e]
    · simp [e, ent.flag]
  · have : v ≠ u := fun e => by simp [e] at hv
    have := ent.setting v i' (by simpa [this] using hv)
    simp only [Packs.removeFromFreeList, Packs.setPreferred, Function.update_apply]
    split <;> simp [this]
  · have hm := ent.mutex v i'
    simp only [Packs.removeFromFreeList, Packs.setPreferred, Function.update_apply, Holds.set_apply]
    by_cases e : v = u
    · subst e
      rw [hu] at hm
      split <;> simp_all [Hold.mutex]
    · split <;> simp_all
  · rw [hS]
    by_cases e : i' = i
    · exact .inr ⟨u, by simp [e, Hold.pending]⟩
    · refine (ent.idle i' hi').imp (fun h₁ => ⟨by simpa using e, h₁⟩) fun h₁ => ?_
      exact Holds.pending_set h₁ (by simp [hu, Hold.pending])
  · rw [hS] at hi'
    rcases hi' with h₁ | h₁
    · exact ent.known i' (.inl h₁.2)
    · rcases Holds.pending_of_set h₁ with h₂ | h₂
      · obtain rfl : i = i' := by simpa [Hold.pending] using h₂
        exact hi
      · exact ent.known i' (.inr h₂)
  · rw [hS]
    exact Iff.trans (by simp) (ent.spare j)

/-- Lending an object: a preferred pack is idle no more, and a spare's entry is spent. -/
theorem lent (ent : Entries cfg P h) (inv : Objects P) {p : PackId} {t : Obj} (hl : P.Lent p t Q)
    (hp : cfg.Has p) (hs : ∀ j, p ≠ .spare j) : Entries cfg Q h := by
  have hR := inv.rented_of_lent hl
  obtain ⟨h1, h2, h3, h4, h5, h6, h7, h8, h9⟩ := ent
  constructor
  · rwa [hl.freeResources]
  · simpa only [hl.inFreeList, hl.freeResources] using h2
  · simpa only [hl.inFreeList] using h3
  · simpa only [hl.mutex] using h4
  · intro i hi
    rw [hl.freeResources]
    rw [hl.pack, Function.update_apply] at hi
    split at hi
    · simp at hi
    · exact h5 i hi
  · intro i hi
    rw [hl.freeResources] at hi
    rw [hl.pack, Function.update_apply]
    split
    · exact ⟨(h6 i hi).1, rfl⟩
    · exact h6 i hi
  · intro j
    rw [hl.freeResources, h7, hR, hl.lost]
    simp [Ne.symm (hs j)]
  · intro j
    rw [hl.lost, hR]
    simpa [Ne.symm (hs j)] using h8 j
  · intro q hq
    rcases (hR q).mp hq with rfl | hq
    · exact hp
    · exact h9 q hq


/-- Lending a spare spends its entry. -/
theorem lentSpare (ent : Entries cfg P h) (inv : Objects P) {u j : ℕ} {t : Obj}
    (hl : P.Lent (.spare j) t Q) (hu : h u = .borrowing (.spare j)) :
    Entries cfg Q (h.set u .nothing) := by
  have hR := inv.rented_of_lent hl
  have he : h.entry u = some (.spare j) := by rw [Holds.entry, hu]; rfl
  have hS : ∀ q, Somewhere Q.freeResources (h.set u .nothing).entry q ↔
      q ≠ .spare j ∧ Somewhere P.freeResources h.entry q := fun q => by
    rw [Holds.entry_set, hl.freeResources]
    exact ent.distinct.somewhere_drop he
  have hp : ∀ i, (∃ v, (h.set u .nothing v).pending = some i) ↔ ∃ v, (h v).pending = some i :=
    fun i => ⟨fun h₁ => (Holds.pending_of_set h₁).resolve_left (by simp [Hold.pending]),
      fun h₁ => Holds.pending_set h₁ (by simp [hu, Hold.pending])⟩
  have hj := (ent.spare j).mp (.of_hand he)
  have hk : ∀ i, Q.pack (.preferred i) = P.pack (.preferred i) := fun i => by simp [hl.pack]
  refine ⟨?_, fun i => ?_, fun v i hv => ?_, fun v i => ?_, fun i hi => ?_, fun i hi => ?_,
    fun j' => ?_, fun j' => ?_, fun q hq => ?_⟩
  · rw [Holds.entry_set, hl.freeResources]
    exact ent.distinct.drop u
  · simp [hS, hl.inFreeList, ent.flag]
  · have : v ≠ u := fun e => by simp [e] at hv
    rw [hl.inFreeList]
    exact ent.setting v i (by simpa [this] using hv)
  · rw [hl.mutex, ent.mutex, Holds.set_apply]
    split
    · rename_i e
      simp [e, hu, Hold.mutex]
    · rfl
  · rw [hS, hp]
    simpa using ent.idle i (hk i ▸ hi)
  · rw [hS, hp] at hi
    rw [hk]
    exact ent.known i (hi.imp_left And.right)
  · rw [hS, ent.spare, hR, hl.lost]
    simp only [ne_eq, PackId.spare.injEq, not_or]
    tauto
  · rw [hl.lost, hR, PackId.spare.injEq]
    intro h₁
    have : j' ≠ j := by rintro rfl; simp [hj.2.2] at h₁
    simpa [this] using ent.lost j' h₁
  · rcases (hR q).mp hq with rfl | hq
    · exact hj.1
    · exact ent.rented q hq

theorem borrowFree (ent : Entries cfg P h) (inv : Objects P) {u : ℕ} {p : PackId}
    {b : Packs.Borrowed} (hu : h u = .borrowing p) (hb : P.borrow p = (b, Q)) :
    Entries cfg Q (h.set u .nothing) := by
  -- an attempt on a preferred pack leaves it without its object, so nothing need be pending
  have turnOff : ∀ {R : Packs} {i : ℕ}, Entries cfg R h → h u = .borrowing (.preferred i) →
      (R.pack (.preferred i)).resource = none → Entries cfg R (h.set u .nothing) := by
    intro R i entR hu hr
    refine entR.stay rfl rfl rfl (fun _ => Iff.rfl) rfl (by rw [hu]; rfl) (by rw [hu]; rfl)
      (by simp) (by simp [Hold.pending]) fun i' hi' => ?_
    obtain rfl : i = i' := by simpa [hu, Hold.pending] using hi'
    exact .inr (.inr hr)
  obtain ⟨-, t, hl⟩ | ⟨-, rfl, hi, hr⟩ := Packs.borrow_cases hb
  · cases p with
    | preferred i =>
      have hk := ent.known i (.inr ⟨u, by simp [hu, Hold.pending]⟩)
      exact turnOff (ent.lent inv hl hk.1 (by simp)) hu (by simp [hl.pack])
    | spare j => exact ent.lentSpare inv hl hu
  · cases p with
    | preferred i => exact turnOff ent hu hr
    | spare j =>
      have he : h.entry u = some (.spare j) := by rw [Holds.entry, hu]; rfl
      obtain ⟨-, h₁, h₂⟩ := (ent.spare j).mp (.of_hand he)
      rcases (inv.built _ hi).2 hr with h₃ | h₃
      · exact absurd h₃ h₁
      · rw [h₂] at h₃
        cases h₃

/-- Putting an object back under the lock: its releaser has the pack pending now. -/
theorem putBackPreferred (ent : Entries cfg P h) (inv : Objects P) {u r i : ℕ} {x : Rental}
    (hu : h u = .releasing r) (hr : P.Rents r (.preferred i))
    (hm : P.mutexFree (.preferred i) = true) :
    Entries cfg (P.putBackPreferred u r x i) (h.set u (.testing i)) := by
  have hq := Packs.putBack_preferred P u r x i
  have hR := inv.rented_of_putBack hq hr
  have hE : (h.set u (.testing i)).entry = h.entry := by
    rw [Holds.entry_set, ← Function.update_eq_self u h.entry, Holds.entry, hu]
    simp [Hold.entry]
  have hi : (P.pack (.preferred i)).initialized = true := by
    by_contra hi
    exact (inv.unbuilt _ (by simpa using hi)).2.2 ⟨r, hr⟩
  have hM : ∀ i', ((P.putBackPreferred u r x i).preferred i').mutex =
      if i' = i then some u else (P.preferred i').mutex := by
    intro i'
    simp only [Packs.putBackPreferred, Packs.setRental, Packs.setPack, Packs.setPreferred,
      Function.update_apply]
    split <;> rfl
  have hm' : ∀ v, (h v).mutex ≠ some i := fun v hv => by
    simp [Packs.mutexFree, (ent.mutex v i).mpr hv] at hm
  refine ⟨?_, fun i' => ?_, fun v i' hv => ?_, fun v i' => ?_, fun i' hi' => ?_, fun i' hi' => ?_,
    fun j => ?_, fun j => ?_, fun q hq' => ent.rented q ((hR q).mp hq').2⟩
  · rw [hE, hq.freeResources]
    exact ent.distinct
  · rw [hE, hq.freeResources, hq.inFreeList]
    exact ent.flag i'
  · have : v ≠ u := fun e => by simp [e] at hv
    rw [hq.inFreeList]
    exact ent.setting v i' (by simpa [this] using hv)
  · rw [hM, Holds.set_apply]
    by_cases e : i' = i <;> by_cases e' : v = u
    · simp [e, e', Hold.mutex]
    · simp only [e, e', if_true, if_false, Option.some.injEq, Ne.symm (Ne.intro e'), false_iff]
      exact hm' v
    · subst e'
      simp [e, Ne.symm (Ne.intro e), ent.mutex, hu, Hold.mutex]
    · simp [e, e', ent.mutex]
  · rw [hE, hq.freeResources]
    by_cases e : i' = i
    · exact .inr ⟨u, by simp [e, Hold.pending]⟩
    · rw [hq.pack, Function.update_of_ne (by simpa using e)] at hi'
      exact (ent.idle i' hi').imp_right fun h₁ => Holds.pending_set h₁ (by simp [hu, Hold.pending])
  · rw [hE, hq.freeResources] at hi'
    have hk : i' = i ∨ i' < cfg.maxResources ∧ (P.pack (.preferred i')).initialized = true := by
      rcases hi' with h₁ | h₁
      · exact .inr (ent.known i' (.inl h₁))
      · rcases Holds.pending_of_set h₁ with h₂ | h₂
        · exact .inl (by simpa [Hold.pending, eq_comm] using h₂)
        · exact .inr (ent.known i' (.inr h₂))
    rw [hq.pack, Function.update_apply]
    rcases hk with rfl | hk
    · exact ⟨ent.rented _ ⟨r, hr⟩, by simpa using hi⟩
    · refine ⟨hk.1, ?_⟩
      split
      · exact hi
      · exact hk.2
  · rw [hE, hq.freeResources, hR, ent.spare, hq.lost]
    simp
  · rw [hq.lost, hR]
    simpa using ent.lost j

/-- Putting a spare back: its releaser has its entry in hand now. -/
theorem putBackSpare (ent : Entries cfg P h) (inv : Objects P) {u r j : ℕ} {x : Rental}
    (hu : h u = .releasing r) (hr : P.Rents r (.spare j)) :
    Entries cfg (P.putBackSpare r x j) (h.set u (.enqueuing (.spare j))) := by
  have hq := Packs.putBack_spare P r x j
  have hR := inv.rented_of_putBack hq hr
  have he : h.entry u = none := by rw [Holds.entry, hu]; rfl
  have hS : ∀ q, Somewhere (P.putBackSpare r x j).freeResources
      (h.set u (.enqueuing (.spare j))).entry q ↔
        q = .spare j ∨ Somewhere P.freeResources h.entry q := fun q => by
    rw [Holds.entry_set, hq.freeResources]
    exact Tokens.Distinct.somewhere_make he
  have hp : ∀ i, (∃ v, (h.set u (.enqueuing (.spare j)) v).pending = some i) ↔
      ∃ v, (h v).pending = some i :=
    fun i => ⟨fun h₁ => (Holds.pending_of_set h₁).resolve_left (by simp [Hold.pending]),
      fun h₁ => Holds.pending_set h₁ (by simp [hu, Hold.pending])⟩
  have hk : ∀ i, (P.putBackSpare r x j).pack (.preferred i) = P.pack (.preferred i) :=
    fun i => by simp [hq.pack]
  have hf : (P.putBackSpare r x j).preferred = P.preferred := rfl
  have hj := ent.rented _ ⟨r, hr⟩
  refine ⟨?_, fun i => ?_, fun v i hv => ?_, fun v i => ?_, fun i hi => ?_, fun i hi => ?_,
    fun j' => ?_, fun j' => ?_, fun q hq' => ent.rented q ((hR q).mp hq').2⟩
  · rw [Holds.entry_set, hq.freeResources]
    exact ent.distinct.make fun h₁ => ((ent.spare j).mp h₁).2.1 ⟨r, hr⟩
  · simp [hS, hf, ent.flag]
  · have : v ≠ u := fun e => by simp [e] at hv
    rw [hf]
    exact ent.setting v i (by simpa [this] using hv)
  · rw [hf, ent.mutex, Holds.set_apply]
    split
    · rename_i e
      simp [e, hu, Hold.mutex]
    · rfl
  · rw [hS, hp]
    exact (ent.idle i (hk i ▸ hi)).imp_left .inr
  · rw [hS, hp] at hi
    rw [hk]
    exact ent.known i (hi.imp_left (Or.resolve_left · (by simp)))
  · rw [hS, ent.spare, hR, hq.lost, PackId.spare.injEq, ne_eq, PackId.spare.injEq]
    have hj : j < cfg.maxSpares := hj
    have hlost : P.lost (.spare j) = false := by
      by_contra h₁
      exact ent.lost j (by simpa using h₁) ⟨r, hr⟩
    constructor
    · rintro (rfl | ⟨h₁, h₂, h₃⟩)
      · exact ⟨hj, by simp, hlost⟩
      · exact ⟨h₁, fun h₄ => h₂ h₄.2, h₃⟩
    · rintro ⟨h₁, h₂, h₃⟩
      by_cases e : j' = j
      · exact .inl e
      · exact .inr ⟨h₁, fun h₄ => h₂ ⟨e, h₄⟩, h₃⟩
  · rw [hq.lost, hR]
    exact fun h₁ h₂ => ent.lost j' h₁ h₂.2

/-- Setting the flag makes the pack's entry. -/
theorem setInFreeList (ent : Entries cfg P h) {u i : ℕ} (hu : h u = .setting i) :
    Entries cfg (P.setInFreeList i) (h.set u (.enqueuing (.preferred i))) := by
  have he : h.entry u = none := by rw [Holds.entry, hu]; rfl
  have hS : ∀ q, Somewhere (P.setInFreeList i).freeResources
      (h.set u (.enqueuing (.preferred i))).entry q ↔
        q = .preferred i ∨ Somewhere P.freeResources h.entry q := fun q => by
    rw [Holds.entry_set]
    exact Tokens.Distinct.somewhere_make he
  have hF : ∀ i', ((P.setInFreeList i).preferred i').inFreeList =
      (decide (i' = i) || (P.preferred i').inFreeList) := fun i' => by
    simp only [Packs.setInFreeList, Packs.setPreferred, Function.update_apply]
    split <;> simp_all
  have hM : ∀ i', ((P.setInFreeList i).preferred i').mutex = (P.preferred i').mutex := fun i' => by
    simp only [Packs.setInFreeList, Packs.setPreferred, Function.update_apply]
    split <;> simp_all
  refine ⟨?_, fun i' => ?_, fun v i' hv => ?_, fun v i' => ?_, fun i' hi' => ?_, fun i' hi' => ?_,
    fun j => ?_, ent.lost, ent.rented⟩
  · rw [Holds.entry_set]
    exact ent.distinct.make fun h₁ => by simpa [(ent.flag i).mpr h₁] using ent.setting u i hu
  · rw [hF, hS, PackId.preferred.injEq, Bool.or_eq_true, decide_eq_true_eq, ent.flag]
  · have hvu : v ≠ u := fun e => by simp [e] at hv
    have hv' : h v = .setting i' := by simpa [hvu] using hv
    have : i' ≠ i := by
      rintro rfl
      exact hvu (ent.mutex_one (by rw [hv']; rfl) (by rw [hu]; rfl))
    simp [hF, this, ent.setting v i' hv']
  · rw [hM, ent.mutex, Holds.set_apply]
    split
    · rename_i e
      simp [e, hu, Hold.mutex]
    · rfl
  · rw [hS]
    by_cases e : i' = i
    · exact .inl (.inl (by rw [e]))
    · exact (ent.idle i' hi').imp .inr fun h₁ =>
        Holds.pending_set h₁ (by simp [hu, Hold.pending, Ne.symm e])
  · rw [hS] at hi'
    rcases hi' with (h₁ | h₁) | h₁
    · obtain rfl : i' = i := by simpa using h₁
      exact ent.known i' (.inr ⟨u, by rw [hu]; rfl⟩)
    · exact ent.known i' (.inl h₁)
    · exact ent.known i' (.inr ((Holds.pending_of_set h₁).resolve_left (by simp [Hold.pending])))
  · rw [hS]
    exact Iff.trans (by simp) (ent.spare j)

theorem unlock (ent : Entries cfg P h) {u i : ℕ} (hu : h u = .unlocking i) :
    Entries cfg (P.unlock i) (h.set u .nothing) := by
  have hE : (h.set u .nothing).entry = h.entry := by
    rw [Holds.entry_set, ← Function.update_eq_self u h.entry, Holds.entry, hu]
    simp [Hold.entry]
  have hF : ∀ i', ((P.unlock i).preferred i').inFreeList = (P.preferred i').inFreeList := fun i' => by
    simp only [Packs.unlock, Packs.setPreferred, Function.update_apply]
    split <;> simp_all
  have hM : ∀ i', ((P.unlock i).preferred i').mutex =
      if i' = i then none else (P.preferred i').mutex := fun i' => by
    simp only [Packs.unlock, Packs.setPreferred, Function.update_apply]
    split <;> simp_all
  refine ⟨hE ▸ ent.distinct, fun i' => ?_, fun v i' hv => ?_, fun v i' => ?_, fun i' hi' => ?_,
    fun i' hi' => ?_, hE ▸ ent.spare, ent.lost, ent.rented⟩
  · rw [hF, hE]
    exact ent.flag i'
  · have : v ≠ u := fun e => by simp [e] at hv
    rw [hF]
    exact ent.setting v i' (by simpa [this] using hv)
  · rw [hM, Holds.set_apply]
    by_cases e : v = u
    · have := ent.mutex v i'
      by_cases e' : i' = i <;> simp_all [Hold.mutex, eq_comm]
    · by_cases e' : i' = i
      · simp only [e, e', if_true, if_false, reduceCtorEq, false_iff]
        exact fun h₁ => e (ent.mutex_one h₁ (by rw [hu]; rfl))
      · simp only [e, e', if_false, ent.mutex]
  · rw [hE]
    exact (ent.idle i' hi').imp_right fun h₁ => Holds.pending_set h₁ (by simp [hu, Hold.pending])
  · rw [hE] at hi'
    exact ent.known i' (hi'.imp_right fun h₁ =>
      (Holds.pending_of_set h₁).resolve_left (by simp [Hold.pending]))

/-- A lost object of a preferred pack leaves it without one, so that it is not idle. -/
theorem spoiltPreferred (ent : Entries cfg P h) {i : ℕ} (hq : P.Spoilt (.preferred i) Q) :
    Entries cfg Q h := by
  have hR : ∀ p, Q.Rented p ↔ P.Rented p := fun p => by
    simp only [Packs.Rented, Packs.Rents, hq.rental]
  obtain ⟨h1, h2, h3, h4, h5, h6, h7, h8, h9⟩ := ent
  constructor
  · rwa [hq.freeResources]
  · simpa only [hq.preferred, hq.freeResources] using h2
  · simpa only [hq.preferred] using h3
  · simpa only [hq.preferred] using h4
  · intro i' hi'
    rw [hq.freeResources]
    rw [hq.pack, Function.update_apply] at hi'
    split at hi'
    · simp at hi'
    · exact h5 i' hi'
  · intro i' hi'
    rw [hq.freeResources] at hi'
    rw [hq.pack, Function.update_apply]
    split
    · exact ⟨(h6 i' hi').1, rfl⟩
    · exact h6 i' hi'
  · simpa [hq.freeResources, hR, hq.lost] using h7
  · simpa [hR, hq.lost] using h8
  · simpa only [hR] using h9

/-- A spare is lost, and with it the entry in hand. -/
theorem loseSpare (ent : Entries cfg P h) {u j : ℕ} (hu : h u = .borrowing (.spare j))
    (hp : ∀ i, Q.pack (.preferred i) = P.pack (.preferred i)) (hf : Q.preferred = P.preferred)
    (hr : Q.rental = P.rental) (hq : Q.freeResources = P.freeResources)
    (hl : Q.lost = Function.update P.lost (.spare j) true) :
    Entries cfg Q (h.set u .nothing) := by
  have hR : ∀ p, Q.Rented p ↔ P.Rented p := fun p => by simp only [Packs.Rented, Packs.Rents, hr]
  have he : h.entry u = some (.spare j) := by rw [Holds.entry, hu]; rfl
  have hS : ∀ q, Somewhere Q.freeResources (h.set u .nothing).entry q ↔
      q ≠ .spare j ∧ Somewhere P.freeResources h.entry q := fun q => by
    rw [Holds.entry_set, hq]
    exact ent.distinct.somewhere_drop he
  have hpend : ∀ i, (∃ v, (h.set u .nothing v).pending = some i) ↔
      ∃ v, (h v).pending = some i :=
    fun i => ⟨fun h₁ => (Holds.pending_of_set h₁).resolve_left (by simp [Hold.pending]),
      fun h₁ => Holds.pending_set h₁ (by simp [hu, Hold.pending])⟩
  have hj := (ent.spare j).mp (.of_hand he)
  refine ⟨?_, fun i => ?_, fun v i hv => ?_, fun v i => ?_, fun i hi => ?_, fun i hi => ?_,
    fun j' => ?_, fun j' => ?_, fun q hq' => ent.rented q ((hR q).mp hq')⟩
  · rw [Holds.entry_set, hq]
    exact ent.distinct.drop u
  · simp [hS, hf, ent.flag]
  · have : v ≠ u := fun e => by simp [e] at hv
    rw [hf]
    exact ent.setting v i (by simpa [this] using hv)
  · rw [hf, ent.mutex, Holds.set_apply]
    split
    · rename_i e
      simp [e, hu, Hold.mutex]
    · rfl
  · rw [hS, hpend]
    simpa using ent.idle i (hp i ▸ hi)
  · rw [hS, hpend] at hi
    rw [hp]
    exact ent.known i (hi.imp_left And.right)
  · rw [hS, ent.spare, hR, hl, Function.update_apply]
    by_cases e : j' = j <;> simp [e]
  · rw [hR, hl, Function.update_apply]
    split
    · rename_i e
      obtain rfl : j' = j := by simpa using e
      exact fun _ => hj.2.1
    · exact ent.lost j'

/-- A pack of which a thread gives up the borrowing is not idle: its object is gone, or
it is a spare and lost. -/
theorem spoilFree (ent : Entries cfg P h) {u : ℕ} {p : PackId} (hu : h u = .borrowing p)
    (hq : P.Spoilt p Q) : Entries cfg Q (h.set u .nothing) := by
  cases p with
  | preferred i =>
    refine (ent.spoiltPreferred hq).stay rfl rfl rfl (fun _ => Iff.rfl) rfl (by rw [hu]; rfl)
      (by rw [hu]; rfl) (by simp) (by simp [Hold.pending]) fun i' hi' => ?_
    obtain rfl : i = i' := by simpa [hu, Hold.pending] using hi'
    exact .inr (.inr (by simp [hq.pack]))
  | spare j =>
    exact ent.loseSpare hu (fun i => by simp [hq.pack]) hq.preferred hq.rental hq.freeResources
      hq.lost

/-- Every step keeps `Entries`. -/
theorem step (ent : Entries cfg P h) (inv : Objects P) (rel : Releases P h)
    (hs : PackStep cfg P h Q k) : Entries cfg Q k := by
  -- a rental in its destructor still has its object
  have rents : ∀ {u r x p}, h u = .releasing r → P.rental r = some x → x.pack = some p →
      P.Rents r p := by
    intro u r x p hu hx hp
    obtain ⟨y, hy, ht⟩ := rel.live u r hu
    obtain rfl : x = y := Option.some.inj (hx.symm.trans hy)
    exact ⟨x, hx, hp, ht⟩
  cases hs with
  | dequeue hu hp => exact ent.dequeue hu hp
  | @removeFromFreeList u p hu =>
    cases p with
    | preferred i => exact ent.clear hu
    | spare j =>
      exact ent.stay rfl rfl rfl (fun _ => Iff.rfl) rfl (by rw [hu]; rfl) (by rw [hu]; rfl)
        (by simp) (by simp [Hold.pending]) (by simp [hu, Hold.pending])
  | borrowPreferred hi _ hb =>
    obtain ⟨-, t, hl⟩ | ⟨-, rfl, -⟩ := Packs.borrow_cases hb
    · exact ent.lent inv hl hi (by simp)
    · exact ent
  | borrowFree hu _ hb => exact ent.borrowFree inv hu hb
  | overdraw =>
    exact ent.congr rfl rfl rfl (fun p => exists_congr fun r => inv.rents_overdraw) rfl
  | release hu =>
    exact ent.stay rfl rfl rfl (fun _ => Iff.rfl) rfl (by rw [hu]; rfl) (by rw [hu]; rfl) (by simp)
      (by simp [Hold.pending]) (by simp [hu, Hold.pending])
  | @beforeDelete u r x hu hx =>
    exact ent.congr rfl rfl rfl
      (fun p => exists_congr fun r' => Packs.rents_setRental_of_eq hx rfl (.inl rfl)) rfl
  | putBackPreferred hu hx hp hm => exact ent.putBackPreferred inv hu (rents hu hx hp) hm
  | @testTrue u i hu hf =>
    refine ent.stay rfl rfl rfl (fun _ => Iff.rfl) rfl (by rw [hu]; rfl) (by rw [hu]; rfl) (by simp)
      (by simp [Hold.pending]) fun i' hi' => ?_
    obtain rfl : i = i' := by simpa [hu, Hold.pending] using hi'
    exact .inr (.inl ((ent.flag i).mp hf))
  | testFalse hu hf =>
    refine ent.stay rfl rfl rfl (fun _ => Iff.rfl) rfl (by rw [hu]; rfl) (by rw [hu]; rfl) ?_
      (by simp [hu, Hold.pending]) (by simp [hu, Hold.pending])
    rintro i ⟨⟩
    exact hf
  | setInFreeList hu => exact ent.setInFreeList hu
  | enqueuePreferred hu => exact ent.enqueue hu rfl (by rw [hu]; rfl) (by simp) rfl
  | unlock hu => exact ent.unlock hu
  | putBackSpare hu hx hp => exact ent.putBackSpare inv hu (rents hu hx hp)
  | enqueueSpare hu => exact ent.enqueue hu rfl (by rw [hu]; rfl) (by simp) rfl
  | @destroyOverdrawn u r x hu hx hp =>
    have hR : ∀ p, (P.destroyOverdrawn r x).Rented p ↔ P.Rented p := fun p =>
      exists_congr fun r' => Packs.rents_setRental_of_eq hx rfl (.inr ⟨hp, rfl⟩)
    exact ent.stay rfl rfl rfl hR rfl (by rw [hu]; rfl) (by rw [hu]; rfl) (by simp)
      (by simp [Hold.pending]) (by simp [hu, Hold.pending])
  | spoilPreferred => exact ent.spoiltPreferred (Packs.spoilt_spoil ..)
  | spoilFree hu => exact ent.spoilFree hu (Packs.spoilt_spoil ..)
  | @builderThrew u p hu hi =>
    cases p with
    | preferred i =>
      -- a preferred pack with an entry has been built
      have hk := (ent.known i (.inr ⟨u, by simp [hu, Hold.pending]⟩)).2
      rw [hi] at hk
      cases hk
    | spare j => exact ent.loseSpare hu (fun _ => rfl) rfl rfl rfl rfl

end Entries

/-! ### The invariant -/

namespace PackInv

/-- **Every step keeps the invariant.** -/
theorem step (inv : PackInv cfg P h) (hs : PackStep cfg P h Q k) : PackInv cfg Q k :=
  ⟨inv.objects.step inv.releases hs, inv.releases.step inv.objects hs,
    inv.entries.step inv.objects inv.releases hs⟩

/-- The freshly constructed pool. -/
theorem init (cfg : Config) : PackInv cfg (Packs.init cfg) fun _ => .nothing := by
  have hR : ∀ p, ¬ (Packs.init cfg).Rented p := by rintro p ⟨r, x, hx, -⟩; cases hx
  refine ⟨?_, ?_, ?_⟩
  · constructor <;> simp [Packs.init, Packs.Rents]
    exact fun p => hR p
  · constructor <;> simp
  · have hE : ∀ q, Somewhere (Packs.init cfg).freeResources
        (Holds.entry fun _ => .nothing) q ↔ ∃ j < cfg.maxSpares, q = .spare j := by
      intro q
      simp [Somewhere, Packs.init, Holds.entry, Hold.entry, eq_comm]
    refine ⟨⟨?_, ?_, ?_⟩, fun i => ?_, ?_, ?_, ?_, fun i => ?_, fun j => ?_, fun j hj => ?_,
      fun p hp => ?_⟩
    · exact List.nodup_range.map fun a b => PackId.spare.inj
    · simp [Holds.entry, Hold.entry]
    · simp [Holds.entry, Hold.entry]
    · rw [hE]
      simp [Packs.init]
    · simp
    · simp [Packs.init, Hold.mutex]
    · simp [Packs.init]
    · rw [hE]
      simp [Hold.pending]
    · have hl : (Packs.init cfg).lost (.spare j) = false := rfl
      rw [hE]
      simp [hR, hl]
    · exact hR _
    · exact absurd hp (hR p)

end PackInv

end MutilsTasks.ResourcePool
