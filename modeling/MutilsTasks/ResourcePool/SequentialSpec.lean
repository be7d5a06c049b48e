import MutilsTasks.ResourcePool.Sequential

/-!
# What the sequential functions do

One lemma for each function: how it can end, and what it has then done to the pool.
`Borrows` is the one they rest on; the loop of `acquire_no_preference` and its callers
only choose what is borrowed. A call changes no handle but its own: `Local`.
-/

namespace MutilsTasks.ResourcePool

open Packs

variable {V A E : Type} {cfg : Config} {env : Env V A E}

theorem choose_eq_none {α : Type} {n : ℕ} {l : List α} : choose n l = none ↔ l = [] := by
  cases l with
  | nil => simp [choose]
  | cons a l =>
    have : n % (a :: l).length < (a :: l).length := Nat.mod_lt _ (Nat.succ_pos _)
    rw [choose, List.getElem?_eq_none_iff]
    exact iff_of_false (Nat.not_le_of_lt this) (List.cons_ne_nil a l)

theorem mem_of_choose {α : Type} {n : ℕ} {l : List α} {a : α} (h : choose n l = some a) : a ∈ l :=
  List.mem_of_getElem? h

/-- What `builder` threw, in order. -/
def builderExns (log : List (Event A E)) : List (Exn E) :=
  log.filterMap fun
    | .builder _ x => x
    | _ => none

/-- What `onAcquire` threw, in order. -/
def hookExns (log : List (Event A E)) : List (Exn E) :=
  log.filterMap fun
    | .onAcquire _ x => x
    | _ => none

/-- The packs when it had nothing to dequeue. -/
def overdraws (log : List (Event A E)) : List Packs :=
  log.filterMap fun
    | .overdraw P => some P
    | _ => none

@[simp] theorem overdraws_append (l k : List (Event A E)) :
    overdraws (l ++ k) = overdraws l ++ overdraws k :=
  List.filterMap_append

@[simp] theorem builderExns_append (l k : List (Event A E)) :
    builderExns (l ++ k) = builderExns l ++ builderExns k :=
  List.filterMap_append

@[simp] theorem hookExns_append (l k : List (Event A E)) :
    hookExns (l ++ k) = hookExns l ++ hookExns k :=
  List.filterMap_append

namespace Packs

theorem spoil_initializeIfNeeded (P : Packs) (p : PackId) :
    (P.initializeIfNeeded p).spoil p = P.spoil p := by
  unfold initializeIfNeeded
  split
  · rfl
  · simp [spoil, initializeIfNeeded, setPack, *]

/-- A destructor puts the object back. -/
theorem destroyRental_pack (P : Packs) (r : ℕ) (x : Rental) :
    (P.destroyRental r x).pack = match x.pack with
      | none => P.pack
      | some p => Function.update P.pack p { P.pack p with resource := x.t } := by
  obtain ⟨_ | p, t, d⟩ := x
  · rfl
  · cases p with
    | spare j => rfl
    | preferred i =>
      simp only [destroyRental]
      split <;> rfl

theorem destroyRental_rental (P : Packs) (r : ℕ) (x : Rental) :
    (P.destroyRental r x).rental =
      Function.update P.rental r (some { x with t := none, deleted := true }) := by
  have h : ∀ y : Rental, Function.update (Function.update P.rental r (some y)) r
      (some { x with t := none, deleted := true }) =
      Function.update P.rental r (some { x with t := none, deleted := true }) :=
    fun y => Function.update_idem ..
  obtain ⟨_ | p, t, d⟩ := x
  · exact h _
  · cases p with
    | spare j => exact h _
    | preferred i =>
      simp only [destroyRental]
      split <;> exact h _

end Packs

namespace Frame

/-- What a call has done but to the pool: it has asked more, `builder` has thrown `xs`
and `onAcquire` `ys`. It has not overdrawn. -/
structure After (f g : Frame V A E) (xs ys : List (Exn E)) : Prop where
  calls : f.calls ≤ g.calls
  builder : builderExns g.log = builderExns f.log ++ xs
  hook : hookExns g.log = hookExns f.log ++ ys
  overdraws : overdraws g.log = overdraws f.log

theorem After.refl (f : Frame V A E) : f.After f [] [] := ⟨Nat.le_refl _, by simp, by simp, rfl⟩

theorem After.trans {f g k : Frame V A E} {xs xs' ys ys' : List (Exn E)} (h : f.After g xs ys)
    (h' : g.After k xs' ys') : f.After k (xs ++ xs') (ys ++ ys') :=
  ⟨Nat.le_trans h.calls h'.calls, by rw [h'.builder, h.builder, List.append_assoc],
    by rw [h'.hook, h.hook, List.append_assoc], h'.overdraws.trans h.overdraws⟩

theorem After.of_eq {f g k : Frame V A E} {xs ys : List (Exn E)} (h : f.After g xs ys)
    (hc : k.calls = g.calls) (hl : k.log = g.log) : f.After k xs ys :=
  ⟨hc ▸ h.calls, hl ▸ h.builder, hl ▸ h.hook, hl ▸ h.overdraws⟩

/-- The last thing the call has done. -/
def last (f : Frame V A E) : Option (Event A E) := f.log.getLast?

@[simp] theorem setIndices_packs (f : Frame V A E) (I : Indices) :
    (f.setIndices I).packs = f.packs := rfl

variable {f g : Frame V A E} {p : PackId} {o : Outcome E ℕ}

theorem after_callBuilder (env : Env V A E) (f : Frame V A E) : f.After (f.callBuilder env).2
    (exn? (env.builder f.calls f.args)).toList [] :=
  ⟨Nat.le_succ _, by
    cases h : exn? (env.builder f.calls f.args) <;> simp [callBuilder, builderExns, h],
    by simp [callBuilder, hookExns], by simp [callBuilder, ResourcePool.overdraws]⟩

theorem after_callOnAcquire (env : Env V A E) (f : Frame V A E) (v : V) : f.After (f.callOnAcquire env v).2 []
    (exn? (env.onAcquire f.calls f.args v)).toList :=
  ⟨Nat.le_succ _, by simp [callOnAcquire, builderExns], by
    cases h : exn? (env.onAcquire f.calls f.args v) <;> simp [callOnAcquire, hookExns, h],
    by simp [callOnAcquire, ResourcePool.overdraws]⟩

/-- How `initialize_if_needed` ends. -/
theorem initializeIfNeeded_spec {r : Except (Exn E) Unit} (h : f.initializeIfNeeded env p = (r, g)) :
    (r = .ok () ∧ (f.packs.pack p).initialized = true ∧ g = f) ∨
    (r = .ok () ∧ (f.packs.pack p).initialized = false ∧
      g.pool = { f.pool with packs := f.packs.initializeIfNeeded p } ∧
      (∃ v, g.heap = Function.update f.heap (.ofPack p (f.packs.builds p)) v) ∧ f.After g [] []) ∨
    ∃ x, r = .error x ∧ (f.packs.pack p).initialized = false ∧
      env.builder f.calls f.args = .error x ∧
      g.pool = { f.pool with packs := f.packs.builderThrew p } ∧ f.After g [x] [] ∧
      g.last = some (.builder f.args (some x)) := by
  unfold initializeIfNeeded at h
  split at h
  · rename_i hi
    cases h
    exact .inl ⟨rfl, hi, rfl⟩
  · rename_i hi
    have hA := after_callBuilder env f
    rw [Bool.not_eq_true] at hi
    cases hb : env.builder f.calls f.args with
    | ok v =>
      simp only [callBuilder, hb, Prod.mk.injEq] at h hA
      obtain ⟨rfl, rfl⟩ := h
      exact .inr (.inl ⟨rfl, hi, rfl, ⟨v, rfl⟩, hA.of_eq rfl rfl⟩)
    | error x =>
      simp only [callBuilder, hb, Prod.mk.injEq] at h hA
      obtain ⟨rfl, rfl⟩ := h
      exact .inr (.inr ⟨x, rfl, hi, rfl, rfl, hA.of_eq rfl rfl, List.getLast?_concat⟩)

/-- **How `borrow` ends.** -/
inductive Borrows (env : Env V A E) (f : Frame V A E) (p : PackId) :
    Outcome E ℕ → Frame V A E → Prop
  /-- `builder` throws. -/
  | builder {x : Exn E} {g : Frame V A E} : (f.packs.pack p).initialized = false →
      env.builder f.calls f.args = .error x →
      g.pool = { f.pool with packs := f.packs.builderThrew p } → f.After g [x] [] →
      g.last = some (.builder f.args (some x)) → Borrows env f p (.threw x) g
  /-- `onAcquire` throws. -/
  | hook {x : Exn E} {g : Frame V A E} {n : ℕ} {a : A} {v : V} : f.packs.hasObject p = true →
      f.calls ≤ n → env.onAcquire n a v = .error x →
      g.pool = { f.pool with packs := f.packs.spoil p } → f.After g [] [x] →
      Borrows env f p (.threw x) g
  /-- It lends `t`, on which `onAcquire` has been called. -/
  | lent {t : Obj} {Q : Packs} {g : Frame V A E} {n : ℕ} {a : A} {v v' : V} :
      f.packs.borrow p = (.rented f.packs.nextRental, Q) → f.packs.Lent p t Q →
      ((f.packs.pack p).initialized = true → v = f.heap t) → env.onAcquire n a v = .ok v' →
      g.heap = Function.update f.heap t v' → g.pool = { f.pool with packs := Q } → f.After g [] [] →
      Borrows env f p (.returned f.packs.nextRental) g
  /-- The object is away. -/
  | invalid : f.packs.borrow p = (.invalid, f.packs) → Borrows env f p (.threw .resourceInvalid) f
  /-- An assertion fails. -/
  | asserts : f.packs.borrow p = (.asserts, f.packs) → Borrows env f p .aborted f

/-- `onAcquire`, once the pack is initialized and lends `t`. -/
theorem borrow_of_resource {k : Frame V A E} {t : Obj} (hi : f.initializeIfNeeded env p = (.ok (), k))
    (hk : k.pool = { f.pool with packs := f.packs.initializeIfNeeded p })
    (hr : (k.packs.pack p).resource = some t)
    (hv : (f.packs.pack p).initialized = true → k.heap t = f.heap t)
    (hh : ∀ v, Function.update k.heap t v = Function.update f.heap t v) (hA : f.After k [] [])
    (h : f.borrow env p = (o, g)) : f.Borrows env p o g := by
  have hkp : k.packs = f.packs.initializeIfNeeded p := by rw [packs, hk]
  have hA' := hA.trans (after_callOnAcquire env k (k.heap t))
  unfold borrow at h
  simp only [hi, hr] at h
  rw [hkp] at hr
  cases ha : env.onAcquire k.calls k.args (k.heap t) with
  | error x =>
    simp only [callOnAcquire, ha, Prod.mk.injEq] at h hA'
    obtain ⟨rfl, rfl⟩ := h
    refine .hook ?_ hA.calls ha ?_ (hA'.of_eq rfl rfl)
    · by_cases hn : (f.packs.pack p).initialized = true
      · rw [initializeIfNeeded_of_initialized hn] at hr
        simp [hasObject, hr]
      · simp [hasObject, hn]
    · rw [← spoil_initializeIfNeeded f.packs, ← hkp]
      simp [setPacks, packs, hk]
  | ok v =>
    simp only [callOnAcquire, ha, Prod.mk.injEq] at h hA'
    obtain ⟨rfl, rfl⟩ := h
    have hn : k.packs.nextRental = f.packs.nextRental := by
      rw [hkp]
      unfold Packs.initializeIfNeeded
      split <;> rfl
    show f.Borrows env p (.returned k.packs.nextRental) _
    rw [hn]
    refine .lent (Q := (f.packs.initializeIfNeeded p).rent p t) ?_ (lent_rent hr) hv ha (hh v) ?_
      (hA'.of_eq rfl rfl)
    · rw [Packs.borrow, ← hn, hkp]
      simp [lend, hr]
    · simp [setPacks, write, packs, hk]

theorem borrow_spec (h : f.borrow env p = (o, g)) : f.Borrows env p o g := by
  cases hi : f.initializeIfNeeded env p with
  | mk r k =>
    obtain ⟨rfl, hn, rfl⟩ | ⟨rfl, hn, hk, ⟨v, hh⟩, hA⟩ | ⟨x, rfl, hn, hb, hk, hA, hl⟩ :=
      initializeIfNeeded_spec hi
    · cases hr : (k.packs.pack p).resource with
      | some t =>
        refine borrow_of_resource hi ?_ hr (fun _ => rfl) (fun _ => rfl) (.refl k) h
        rw [initializeIfNeeded_of_initialized hn]
        rfl
      | none =>
        have hl : k.packs.borrow p = k.packs.lend p := by
          rw [Packs.borrow, initializeIfNeeded_of_initialized hn]
        unfold borrow at h
        simp only [hi, hr] at h
        cases p with
        | preferred i =>
          by_cases hw : (k.packs.preferred i).whoOwnsMe = none <;>
            simp only [lend, hr, hw, if_true, if_false, Prod.mk.injEq] at h hl <;>
            obtain ⟨rfl, rfl⟩ := h
          · exact .asserts hl
          · exact .invalid hl
        | spare j =>
          simp only [lend, hr, Prod.mk.injEq] at h hl
          obtain ⟨rfl, rfl⟩ := h
          exact .asserts hl
    · have hr : (k.packs.pack p).resource = some (.ofPack p (f.packs.builds p)) := by
        rw [packs, hk]
        simp [Packs.initializeIfNeeded, hn, setPack]
      exact borrow_of_resource hi hk hr (by simp [hn]) (fun v => by simp [hh]) hA h
    · unfold borrow at h
      simp only [hi, Prod.mk.injEq] at h
      obtain ⟨rfl, rfl⟩ := h
      exact .builder hn hb hk hA hl

/-- `borrow` leaves the queue as it is. -/
theorem Borrows.freeResources (h : f.Borrows env p o g) :
    g.packs.freeResources = f.packs.freeResources := by
  cases h with
  | builder _ _ hg => cases p <;> simp [packs, hg, builderThrew]
  | hook _ _ _ hg => simp [packs, hg, (spoilt_spoil f.pool.packs p).freeResources]
  | lent _ hl _ _ _ hg => simpa [packs, hg] using hl.freeResources
  | invalid | asserts => rfl

/-! ### Dequeuing -/

/-- `p` is dequeued, and removed from the free list. -/
def take (f : Frame V A E) (p : PackId) : Frame V A E :=
  { f with calls := f.calls + 1 }.setPacks ((f.packs.dequeue p).removeFromFreeList p)

@[simp] theorem take_freeResources (f : Frame V A E) (p : PackId) :
    (f.take p).packs.freeResources = f.packs.freeResources.erase p := by
  cases p <;> rfl

theorem after_take (f : Frame V A E) (p : PackId) : f.After (f.take p) [] [] :=
  ⟨Nat.le_succ _, by simp [take, setPacks], by simp [take, setPacks], rfl⟩

/-- **What the first loop of `acquire_no_preference` does.** -/
inductive Dequeues (env : Env V A E) :
    Frame V A E → Outcome E (Option ℕ) → Frame V A E → Prop
  /-- The queue is empty. -/
  | empty {f : Frame V A E} : f.packs.freeResources = [] → Dequeues env f (.returned none) f
  /-- An entry is dropped: `borrow` has thrown a `ResourceInvalidException`. -/
  | stale {f g k : Frame V A E} {p : PackId} {o : Outcome E (Option ℕ)} :
      p ∈ f.packs.freeResources → (f.take p).Borrows env p (.threw .resourceInvalid) g →
      Dequeues env g o k → Dequeues env f o k
  /-- A pack is borrowed. -/
  | lent {f g : Frame V A E} {p : PackId} {r : ℕ} : p ∈ f.packs.freeResources →
      (f.take p).Borrows env p (.returned r) g → Dequeues env f (.returned (some r)) g
  /-- `borrow` has thrown something else. -/
  | threw {f g : Frame V A E} {p : PackId} {e : E} : p ∈ f.packs.freeResources →
      (f.take p).Borrows env p (.threw (.other e)) g → Dequeues env f (.threw (.other e)) g
  /-- An assertion fails. -/
  | aborted {f g : Frame V A E} {p : PackId} : p ∈ f.packs.freeResources →
      (f.take p).Borrows env p .aborted g → Dequeues env f .aborted g

theorem dequeues_spec {n : ℕ} {o : Outcome E (Option ℕ)} (hn : f.packs.freeResources.length = n)
    (h : f.tryDequeueLoop env n = (o, g)) : Dequeues env f o g := by
  induction n generalizing f with
  | zero =>
    cases h
    exact .empty (List.length_eq_zero_iff.mp hn)
  | succ n ih =>
    unfold tryDequeueLoop at h
    cases hc : choose (env.pick f.calls) f.packs.freeResources with
    | none => simp [choose_eq_none.mp hc] at hn
    | some p =>
      have hp := mem_of_choose hc
      simp only [hc] at h
      cases hb : (f.take p).borrow env p with
      | mk b k =>
        have hB := borrow_spec hb
        have hb' : ({ f with calls := f.calls + 1 }.setPacks
            ((f.packs.dequeue p).removeFromFreeList p)).borrow env p = (b, k) := hb
        rw [hb'] at h
        obtain r | (_ | e) | _ | _ := b
        · cases h
          exact .lent hp hB
        · refine .stale hp hB (ih ?_ h)
          rw [hB.freeResources, take_freeResources, List.length_erase_of_mem hp, hn]
          rfl
        · cases h
          exact .threw hp hB
        · cases hB
        · cases h
          exact .aborted hp hB

/-- The loop does not wait. -/
theorem not_dequeues_blocked : ¬ Dequeues env f .blocked g := by
  generalize ho : (.blocked : Outcome E (Option ℕ)) = o
  intro h
  induction h with
  | stale _ _ _ ih => exact ih ho
  | _ => cases ho

/-! ### Acquiring -/

/-- The call is about to overdraw, or to wait. -/
def overdrawing (f : Frame V A E) : Frame V A E := { f with log := f.log ++ [.overdraw f.packs] }

/-- **How `acquire_no_preference` ends.** -/
inductive NoPreference (cfg : Config) (env : Env V A E) (f : Frame V A E) :
    Outcome E Unit → Frame V A E → Prop
  /-- With a pack from the queue. -/
  | lent {r : ℕ} {g : Frame V A E} : Dequeues env f (.returned (some r)) g →
      NoPreference cfg env f (.returned ()) (g.returnLocked none r)
  /-- With an exception, out of the queue's loop. -/
  | threw {x : Exn E} {g : Frame V A E} : Dequeues env f (.threw x) g →
      NoPreference cfg env f (.threw x) g
  /-- On a failed assertion. -/
  | aborted {g : Frame V A E} : Dequeues env f .aborted g → NoPreference cfg env f .aborted g
  /-- It waits. -/
  | blocked {g : Frame V A E} : Dequeues env f (.returned none) g → cfg.allowOverdraws = false →
      NoPreference cfg env f .blocked g.overdrawing
  /-- With an `overdrawn`. -/
  | overdrawn {g k : Frame V A E} {v : V} : Dequeues env f (.returned none) g →
      cfg.allowOverdraws = true →
      k.heap = Function.update g.heap (.ofOverdrawn g.packs.nextRental) v →
      k.pool = { g.pool with packs := g.packs.overdraw } → g.overdrawing.After k [] [] →
      NoPreference cfg env f (.returned ()) (k.returnLocked none g.packs.nextRental)
  /-- `builder` throws. -/
  | builder {g k : Frame V A E} {x : Exn E} : Dequeues env f (.returned none) g →
      cfg.allowOverdraws = true → env.builder g.calls g.args = .error x →
      k.pool = g.pool → g.overdrawing.After k [x] [] → k.last = some (.builder g.args (some x)) →
      NoPreference cfg env f (.threw x) k
  /-- `onAcquire` throws. -/
  | hook {g k : Frame V A E} {x : Exn E} {n : ℕ} {a : A} {v : V} :
      Dequeues env f (.returned none) g → cfg.allowOverdraws = true → g.calls ≤ n →
      env.onAcquire n a v = .error x → k.pool = g.pool → g.overdrawing.After k [] [x] →
      k.last = some (.onAcquire a (some x)) → NoPreference cfg env f (.threw x) k

/-- How the making of an `overdrawn` ends. -/
theorem makeOverdrawn_spec (h : f.makeOverdrawn env = (o, g)) :
    (∃ v, o = .returned f.packs.nextRental ∧
      g.heap = Function.update f.heap (.ofOverdrawn f.packs.nextRental) v ∧
      g.pool = { f.pool with packs := f.packs.overdraw } ∧ f.After g [] []) ∨
    (∃ x, o = .threw x ∧ env.builder f.calls f.args = .error x ∧ g.pool = f.pool ∧
      f.After g [x] [] ∧ g.last = some (.builder f.args (some x))) ∨
    ∃ x n a v, o = .threw x ∧ f.calls ≤ n ∧ env.onAcquire n a v = .error x ∧ g.pool = f.pool ∧
      f.After g [] [x] ∧ g.last = some (.onAcquire a (some x)) := by
  have hA := after_callBuilder env f
  unfold makeOverdrawn at h
  cases hb : env.builder f.calls f.args with
  | error x =>
    simp only [callBuilder, hb, Prod.mk.injEq] at h hA
    obtain ⟨rfl, rfl⟩ := h
    exact .inr (.inl ⟨x, rfl, rfl, rfl, hA.of_eq rfl rfl, List.getLast?_concat⟩)
  | ok v =>
    have hA' := hA.trans (after_callOnAcquire env (f.callBuilder env).2 v)
    simp only [callBuilder, callOnAcquire, hb] at h hA'
    cases ha : env.onAcquire (f.calls + 1) (env.moved f.args) v with
    | error x =>
      simp only [ha, Prod.mk.injEq] at h hA'
      obtain ⟨rfl, rfl⟩ := h
      exact .inr (.inr ⟨x, _, _, _, rfl, Nat.le_succ _, ha, rfl, hA'.of_eq rfl rfl,
        List.getLast?_concat⟩)
    | ok v' =>
      simp only [ha, Prod.mk.injEq] at h hA'
      obtain ⟨rfl, rfl⟩ := h
      exact .inl ⟨v', rfl, rfl, rfl, hA'.of_eq rfl rfl⟩

theorem noPreference_spec {o : Outcome E Unit} (h : f.acquireNoPreference cfg env = (o, g)) :
    NoPreference cfg env f o g := by
  unfold acquireNoPreference at h
  cases hd : f.tryDequeueLoop env f.packs.freeResources.length with
  | mk b k =>
    have hD := dequeues_spec rfl hd
    rw [hd] at h
    obtain (_ | r) | x | _ | _ := b
    · simp only at h
      split at h
      · rename_i ho
        cases hm : k.overdrawing.makeOverdrawn env with
        | mk b k' =>
          have hm' : ({ k with log := k.log ++ [.overdraw k.packs] } : Frame V A E).makeOverdrawn env =
            (b, k') := hm
          rw [hm'] at h
          obtain ⟨v, rfl, hh, hg, hA⟩ | ⟨x, rfl, hb, hg, hA, hl⟩ |
              ⟨x, n, a, v, rfl, hn, ha, hg, hA, hl⟩ :=
            makeOverdrawn_spec hm <;> cases h
          · exact .overdrawn (g := k) hD ho hh hg hA
          · exact .builder (g := k) hD ho hb hg hA hl
          · exact .hook (g := k) hD ho hn ha hg hA hl
      · rename_i ho
        cases h
        exact .blocked hD (by simpa using ho)
    · cases h
      exact .lent hD
    · cases h
      exact .threw hD
    · exact absurd hD not_dequeues_blocked
    · cases h
      exact .aborted hD

/-- **How `acquire_with_preference` ends**, where `preference->indx` is `i`. -/
inductive WithPreference (cfg : Config) (env : Env V A E) (f : Frame V A E) (i : ℕ) :
    Outcome E Unit → Frame V A E → Prop
  /-- With the preferred pack. -/
  | lent {r : ℕ} {g : Frame V A E} : i < cfg.maxResources →
      f.Borrows env (.preferred i) (.returned r) g →
      WithPreference cfg env f i (.returned ()) (g.returnLocked (g.pool.preference (.param 0)) r)
  /-- As `acquire_no_preference` ends. -/
  | fallback {g k : Frame V A E} {o : Outcome E Unit} : i < cfg.maxResources →
      f.Borrows env (.preferred i) (.threw .resourceInvalid) g → NoPreference cfg env g o k →
      WithPreference cfg env f i o k
  /-- With an exception. -/
  | threw {e : E} {g : Frame V A E} : i < cfg.maxResources →
      f.Borrows env (.preferred i) (.threw (.other e)) g →
      WithPreference cfg env f i (.threw (.other e)) g
  /-- On a failed assertion. -/
  | aborted {g : Frame V A E} : i < cfg.maxResources → f.Borrows env (.preferred i) .aborted g →
      WithPreference cfg env f i .aborted g
  /-- `at` is out of range. -/
  | outOfRange : ¬ i < cfg.maxResources → WithPreference cfg env f i .aborted f

theorem withPreference_spec {o : Outcome E Unit} {i : ℕ}
    (h : f.acquireWithPreference cfg env i = (o, g)) : WithPreference cfg env f i o g := by
  unfold acquireWithPreference at h
  split at h
  · rename_i hi
    cases hb : f.borrow env (.preferred i) with
    | mk b k =>
      have hB := borrow_spec hb
      rw [hb] at h
      obtain r | (_ | e) | _ | _ := b
      · cases h
        exact .lent hi hB
      · exact .fallback hi hB (noPreference_spec h)
      · cases h
        exact .threw hi hB
      · cases hB
      · cases h
        exact .aborted hi hB
  · rename_i hi
    cases h
    exact .outOfRange hi

/-- `my_preference` is `i`. -/
inductive TakesIndex (f : Frame V A E) (i : ℕ) (g : Frame V A E) : Prop
  /-- Recycled. -/
  | pop : i ∈ f.pool.indices.recycledIndices →
      g = { f with calls := f.calls + 1 }.setIndices (f.pool.indices.pop i) → TakesIndex f i g
  /-- Fetched. -/
  | fetchAdd : f.pool.indices.recycledIndices = [] → i = f.pool.indices.currentMaxIndex →
      g = f.setIndices f.pool.indices.fetchAdd → TakesIndex f i g

theorem TakesIndex.log {i : ℕ} (h : f.TakesIndex i g) : g.log = f.log := by
  cases h with
  | pop _ hg | fetchAdd _ _ hg => rw [hg]; rfl

theorem TakesIndex.heap {i : ℕ} (h : f.TakesIndex i g) : g.heap = f.heap := by
  cases h with
  | pop _ hg | fetchAdd _ _ hg => rw [hg]; rfl

theorem takesIndex_spec {i : ℕ} (h : f.takeIndex env = (i, g)) : f.TakesIndex i g := by
  unfold takeIndex at h
  cases hc : choose (env.pick f.calls) f.pool.indices.recycledIndices with
  | none =>
    simp only [hc, Prod.mk.injEq] at h
    obtain ⟨rfl, rfl⟩ := h
    exact .fetchAdd (choose_eq_none.mp hc) rfl rfl
  | some j =>
    simp only [hc, Prod.mk.injEq] at h
    obtain ⟨rfl, rfl⟩ := h
    exact .pop (mem_of_choose hc) rfl

/-- **How `acquire_new_preference` ends.** -/
inductive NewPreference (cfg : Config) (env : Env V A E) (f : Frame V A E) :
    Outcome E Unit → Frame V A E → Prop
  /-- There is no index for it. -/
  | full {o : Outcome E Unit} {g : Frame V A E} : f.pool.indices.preferredFull cfg = true →
      NoPreference cfg env f o g → NewPreference cfg env f o g
  /-- It prefers `i`. -/
  | prefers {i : ℕ} {g k : Frame V A E} {o : Outcome E Unit} :
      f.pool.indices.preferredFull cfg = false → f.takeIndex env = (i, g) → i < cfg.maxResources →
      WithPreference cfg env (g.setIndices (g.pool.indices.makeOwner 0 i)) i o k →
      NewPreference cfg env f o k
  /-- Its index is not below `max_resources`. -/
  | lost {i : ℕ} {g k : Frame V A E} {o : Outcome E Unit} :
      f.pool.indices.preferredFull cfg = false → f.takeIndex env = (i, g) → ¬ i < cfg.maxResources →
      NoPreference cfg env g o k → NewPreference cfg env f o k

theorem newPreference_spec {o : Outcome E Unit} (h : f.acquireNewPreference cfg env = (o, g)) :
    NewPreference cfg env f o g := by
  unfold acquireNewPreference at h
  split at h
  · rename_i hf
    exact .full hf (noPreference_spec h)
  · rename_i hf
    rw [Bool.not_eq_true] at hf
    cases ht : f.takeIndex env with
    | mk i k =>
      rw [ht] at h
      simp only at h
      split at h
      · rename_i hi
        exact .prefers hf ht hi (withPreference_spec h)
      · rename_i hi
        exact .lost hf ht hi (noPreference_spec h)

end Frame

/-! ### The user's operations -/

namespace Session

variable {s : Session V}

/-- A call of `acquire` or `WeakResource::lock` that leads into the pool: it is to return
`h`, and ends with `o` in `f`. -/
inductive Calls (cfg : Config) (env : Env V A E) (s : Session V) :
    Op V A → ℕ → Caller → Outcome E Unit → Frame V A E → Prop
  /-- Of `acquire`. -/
  | acquire {h : ℕ} {a : A} {o : Outcome E Unit} {f : Frame V A E} : s.pool.Unused h →
      (s.enter a).NewPreference cfg env o f → Calls cfg env s (.acquire h a) h .acquire o f
  /-- Of `lock`, on a handle that prefers `i`. -/
  | lockPreferred {w h i p : ℕ} {a : A} {x : WeakResource} {o : Outcome E Unit}
      {f : Frame V A E} : s.pool.weak w = some x → s.pool.Unused h → s.pool.lockable x = none →
      s.pool.preference (.weak w) = some p → s.pool.indices.indexOwner p = some i →
      ((s.setPool ((s.pool.setWeak w (some { x with locker := some 0 })).setPreference
        (.param 0) (some p))).enter a).WithPreference cfg env i o f →
      Calls cfg env s (.lock w h a) h (.lockPreferred w) o f
  /-- Of `lock`, on a handle without a preference. -/
  | lockNew {w h : ℕ} {a : A} {x : WeakResource} {o : Outcome E Unit} {f : Frame V A E} :
      s.pool.weak w = some x → s.pool.Unused h → s.pool.lockable x = none →
      s.pool.preference (.weak w) = none →
      ((s.setPool (s.pool.setWeak w (some { x with locker := some 0 }))).enter a).NewPreference
        cfg env o f →
      Calls cfg env s (.lock w h a) h (.lockNew w) o f

/-- **How an operation ends.** -/
inductive Performs (cfg : Config) (env : Env V A E) (s : Session V) :
    Op V A → Result V A E → Prop
  /-- A call ends. -/
  | call {op : Op V A} {h : ℕ} {c : Caller} {o : Outcome E Unit} {f : Frame V A E} :
      s.Calls cfg env op h c o f → Performs cfg env s op (finish h c (o, f))
  /-- `lock`, on a handle whose `index_preference` dangles. -/
  | dangling {w h : ℕ} {a : A} : (∃ p, s.pool.preference (.weak w) = some p ∧
      s.pool.indices.indexOwner p = none) → Performs cfg env s (.lock w h a) ⟨.aborted, [], s⟩
  /-- `lock`, on a handle whose rental is live. -/
  | lockLive {w h r : ℕ} {a : A} {x : WeakResource} : s.pool.weak w = some x →
      s.pool.Unused h → s.pool.lockable x = some r →
      Performs cfg env s (.lock w h a)
        (s.done (s.pool.setLocked (.locked h) (s.pool.preference (.weak w)) (some r)))
  | acquireWeak {w : ℕ} : s.pool.weak w = none →
      Performs cfg env s (.acquireWeak w) (s.done (s.pool.setWeak w (some {})))
  | acquireIfLocked {w h r : ℕ} {x : WeakResource} : s.pool.weak w = some x →
      s.pool.Unused h → x.rsource = some r → s.pool.rsource.expired r = false →
      Performs cfg env s (.acquireIfLocked w h)
        (s.done (s.pool.setLocked (.locked h) (s.pool.preference (.weak w)) (some r)))
  /-- The rental has ended. -/
  | refuses {w h : ℕ} {x : WeakResource} : s.pool.weak w = some x → s.pool.Unused h →
      (∀ r, x.rsource = some r → s.pool.rsource.expired r = true) →
      Performs cfg env s (.acquireIfLocked w h) ⟨.threw .resourceInvalid, [], s⟩
  | clone {h h' r : ℕ} : s.pool.rsource.ptr (.locked h) = some r → s.pool.Unused h' →
      Performs cfg env s (.clone h h')
        (s.done (s.pool.setLocked (.locked h') (s.pool.preference (.locked h)) (some r)))
  | weak {h w r : ℕ} : s.pool.rsource.ptr (.locked h) = some r → s.pool.weak w = none →
      Performs cfg env s (.weak h w)
        (s.done ((s.pool.setPreference (.weak w) (s.pool.preference (.locked h))).setWeak w
          (some { rsource := some r })))
  | assign {h w r : ℕ} {x : WeakResource} : s.pool.rsource.ptr (.locked h) = some r →
      s.pool.weak w = some x →
      Performs cfg env s (.assign w h)
        (s.done ((s.pool.setPreference (.weak w) (s.pool.preference (.locked h))).setWeak w
          (some { x with rsource := some r })))
  | dropWeak {w : ℕ} {x : WeakResource} : s.pool.weak w = some x →
      Performs cfg env s (.dropWeak w) (s.done ((s.pool.setPreference (.weak w) none).setWeak w none))
  | dropLocked {h r : ℕ} : s.pool.rsource.ptr (.locked h) = some r →
      Performs cfg env s (.dropLocked h) ⟨.returned (), [], s.dropLocked env h r⟩
  | write {h r : ℕ} {t : Obj} {change : V → V} : s.pool.rsource.ptr (.locked h) = some r →
      (s.pool.packs.rental r).bind (·.t) = some t →
      Performs cfg env s (.write h change)
        ⟨.returned (), [], { s with heap := Function.update s.heap t (change (s.heap t)) }⟩
  /-- The handle's object is gone. -/
  | gone {h r : ℕ} {change : V → V} : s.pool.rsource.ptr (.locked h) = some r →
      (s.pool.packs.rental r).bind (·.t) = none →
      Performs cfg env s (.write h change) ⟨.aborted, [], s⟩

theorem perform_spec {op : Op V A} {R : Result V A E} (h : s.perform cfg env op = some R) :
    s.Performs cfg env op R := by
  cases op with
  | acquire h' a =>
    simp only [perform, Option.ite_none_right_eq_some, Option.some.injEq] at h
    obtain ⟨hu, rfl⟩ := h
    exact .call (.acquire hu (Frame.newPreference_spec rfl))
  | acquireWeak w =>
    simp only [perform, Option.ite_none_right_eq_some, Option.some.injEq,
      Option.isNone_iff_eq_none] at h
    obtain ⟨hw, rfl⟩ := h
    exact .acquireWeak hw
  | lock w h' a =>
    simp only [perform] at h
    split at h
    · rename_i x hx
      simp only [Option.ite_none_right_eq_some, Option.some.injEq] at h
      obtain ⟨hu, rfl⟩ := h
      unfold lock
      split
      · rename_i r hr
        exact .lockLive hx hu hr
      · rename_i hr
        split
        · rename_i p hp
          split
          · rename_i i hi
            exact .call (.lockPreferred hx hu hr hp hi (Frame.withPreference_spec rfl))
          · rename_i hi
            exact .dangling ⟨p, hp, hi⟩
        · rename_i hp
          exact .call (.lockNew hx hu hr hp (Frame.newPreference_spec rfl))
    · cases h
  | acquireIfLocked w h' =>
    simp only [perform] at h
    split at h
    · rename_i x hx
      simp only [Option.ite_none_right_eq_some] at h
      obtain ⟨hu, h⟩ := h
      split at h
      · rename_i r hr
        cases h
        obtain ⟨hr, he⟩ := Option.filter_eq_some_iff.mp hr
        exact .acquireIfLocked hx hu hr (by simpa using he)
      · rename_i hr
        cases h
        exact .refuses hx hu fun r e => by simpa [e] using hr
    · cases h
  | clone h₁ h₂ =>
    simp only [perform] at h
    split at h
    · rename_i r hr
      simp only [Option.ite_none_right_eq_some, Option.some.injEq] at h
      obtain ⟨hu, rfl⟩ := h
      exact .clone hr hu
    · cases h
  | weak h' w =>
    simp only [perform] at h
    split at h
    · rename_i r hr
      simp only [Option.ite_none_right_eq_some, Option.some.injEq, Option.isNone_iff_eq_none] at h
      obtain ⟨hw, rfl⟩ := h
      exact .weak hr hw
    · cases h
  | assign w h' =>
    simp only [perform] at h
    split at h
    · rename_i x r hx hr
      cases h
      exact .assign hr hx
    · cases h
  | dropWeak w =>
    simp only [perform] at h
    split at h
    · rename_i x hx
      cases h
      exact .dropWeak hx
    · cases h
  | dropLocked h' =>
    simp only [perform] at h
    split at h
    · rename_i r hr
      cases h
      exact .dropLocked hr
    · cases h
  | write h' change =>
    simp only [perform] at h
    split at h
    · rename_i r hr
      split at h
      · rename_i t ht
        cases h
        exact .write hr ht
      · rename_i ht
        cases h
        exact .gone hr ht
    · cases h

/-- A step is an operation that has ended. -/
theorem step_spec {op : Op V A} {s' : Session V} (h : s.step cfg env op = some s') :
    ∃ R : Result V A E, s.Performs cfg env op R ∧ R.after? = some s' := by
  obtain ⟨R, hR, hs⟩ := Option.bind_eq_some_iff.mp h
  exact ⟨R, perform_spec hR, hs⟩

end Session

end MutilsTasks.ResourcePool
