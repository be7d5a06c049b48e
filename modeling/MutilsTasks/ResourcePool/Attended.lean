import MutilsTasks.ResourcePool.Ownership
import MutilsTasks.ResourcePool.Stacks

/-!
# Nothing is left behind

A rental that has its object is pointed to by a `LockedResource`, by the result of a call,
or is in its destructor (`Attended`). So when no thread is in the pool and no handle is left,
everything has come back: every object is in its pack, every pack in the queue, and every
index that was issued can be used again.
-/

namespace MutilsTasks.ResourcePool

open Packs Machine

variable {cfg : Config}

/-! ### Steps of the protocol -/

/-- A rental that has its object had it before, or is new. -/
theorem PackStep.live {P Q : Packs} {h k : Holds} (hs : PackStep cfg P h Q k) {r : ℕ} {x : Rental}
    (hx : Q.rental r = some x) (ht : x.t ≠ none) :
    (∃ y, P.rental r = some y ∧ y.t ≠ none) ∨ r = P.nextRental := by
  by_cases hr : r = P.nextRental
  · exact .inr hr
  refine .inl ?_
  -- one record is written, and it has no object that the rental did not have
  have key : ∀ r' y, Q.rental = Function.update P.rental r' (some y) →
      (r = r' → y.t ≠ none → ∃ z, P.rental r = some z ∧ z.t ≠ none) →
      ∃ z, P.rental r = some z ∧ z.t ≠ none := by
    intro r' y hQ hy
    rw [hQ, Function.update_apply] at hx
    split at hx
    · rename_i e
      cases hx
      exact hy e ht
    · exact ⟨x, hx, ht⟩
  cases hs with
  | borrowPreferred _ _ hb | borrowFree _ _ hb =>
    obtain ⟨-, t, hl⟩ | ⟨-, rfl, -⟩ := borrow_cases hb
    · exact key _ _ hl.rental fun e => absurd e hr
    · exact ⟨x, hx, ht⟩
  | overdraw => exact key _ _ rfl fun e => absurd e hr
  | @beforeDelete u r' y _ hy => exact key r' _ rfl fun e ht => ⟨y, e ▸ hy, ht⟩
  | putBackPreferred => exact key _ _ (Packs.putBack_preferred ..).rental fun _ ht => absurd rfl ht
  | putBackSpare => exact key _ _ (Packs.putBack_spare ..).rental fun _ ht => absurd rfl ht
  | destroyOverdrawn => exact key _ _ rfl fun _ ht => absurd rfl ht
  | @removeFromFreeList u p | @builderThrew u p => cases p <;> exact ⟨x, hx, ht⟩
  | spoilPreferred | spoilFree =>
    rw [(spoilt_spoil ..).rental] at hx
    exact ⟨x, hx, ht⟩
  | _ => exact ⟨x, hx, ht⟩

/-- Whoever leaves a destructor has put the object back. -/
theorem PackStep.releasing {P Q : Packs} {h k : Holds} (hs : PackStep cfg P h Q k) {u r : ℕ}
    (hu : h u = .releasing r) :
    k u = .releasing r ∨ ∀ x, Q.rental r = some x → x.t = none := by
  -- another thread moves
  have other : ∀ {v : ℕ} {y : Hold}, h v ≠ .releasing r → h.set v y u = .releasing r := by
    intro v y hv
    rw [Holds.set_apply, if_neg, hu]
    rintro rfl
    exact hv hu
  have put : ∀ {v r' : ℕ} {x : Rental} {y : Hold}, h v = .releasing r' →
      Q.rental = Function.update P.rental r' (some x) → x.t = none →
      h.set v y u = .releasing r ∨ ∀ x, Q.rental r = some x → x.t = none := by
    intro v r' x y hv hQ hx
    by_cases e : r = r'
    · refine .inr fun z hz => ?_
      rw [hQ, e, Function.update_self] at hz
      cases hz
      exact hx
    · exact .inl (other (by rw [hv]; simpa using Ne.symm e))
  cases hs with
  | borrowPreferred | overdraw | beforeDelete | spoilPreferred => exact .inl hu
  | putBackPreferred hv => exact put hv (Packs.putBack_preferred ..).rental rfl
  | putBackSpare hv => exact put hv (Packs.putBack_spare ..).rental rfl
  | destroyOverdrawn hv => exact put hv rfl rfl
  | dequeue hv | removeFromFreeList hv | borrowFree hv | release hv | testTrue hv | testFalse hv
  | setInFreeList hv | enqueuePreferred hv | unlock hv | enqueueSpare hv | spoilFree hv
  | builderThrew hv => exact .inl (other (by rw [hv]; simp))

namespace State

variable {s s' : State} {u : ℕ} {S : Pool} {c : Pc} {a : Action}

/-! ### Steps of the machine -/

/-- What a step does for the rentals: whoever pointed to one has left a pointer or destroys it,
and a new one is pointed to. -/
structure Minds (s s' : State) : Prop where
  ptr : ∀ v r, s.pool.rsource.ptr v = some r →
    (∃ w, s'.pool.rsource.ptr w = some r) ∨ ∃ u, s'.holds u = .releasing r
  new : s'.pool.packs.rental s.pool.packs.nextRental = none ∨
    ∃ v, s'.pool.rsource.ptr v = some s.pool.packs.nextRental

/-- **A rental that has its object is pointed to, or is in its destructor.** -/
def Attended (s : State) : Prop :=
  ∀ r x, s.pool.packs.rental r = some x → x.t ≠ none →
    (∃ v, s.pool.rsource.ptr v = some r) ∨ ∃ u, s.holds u = .releasing r

theorem init_attended (cfg : Config) : (init cfg).Attended := fun _ _ hx => by cases hx

theorem Attended.step (h : s.Attended) (hp : PackMove cfg s s') (hm : s.Minds s') : s'.Attended := by
  intro r x hx ht
  have hlive : (∃ y, s.pool.packs.rental r = some y ∧ y.t ≠ none) ∨ r = s.pool.packs.nextRental := by
    rcases hp with hp | ⟨hp, -⟩
    · exact hp.live hx ht
    · exact .inl ⟨x, hp ▸ hx, ht⟩
  rcases hlive with ⟨y, hy, hyt⟩ | rfl
  · rcases h r y hy hyt with ⟨v, hv⟩ | ⟨u, hu⟩
    · exact hm.ptr v r hv
    · rcases hp with hp | ⟨-, hh⟩
      · exact (hp.releasing hu).elim (fun hk => .inr ⟨u, hk⟩) fun hn => absurd (hn x hx) ht
      · exact .inr ⟨u, hh ▸ hu⟩
  · rcases hm.new with hn | hv
    · rw [hn] at hx
      cases hx
    · exact .inl hv

/-- The pointers and the table of rentals stay. -/
theorem Minds.quiet (inv : Objects s.pool.packs) (hr : s'.pool.rsource = s.pool.rsource)
    (hp : s'.pool.packs.rental = s.pool.packs.rental) : s.Minds s' :=
  ⟨fun v _ hv => .inl ⟨v, hr ▸ hv⟩, .inl (hp ▸ inv.fresh _ (Nat.le_refl _))⟩

/-- A rental in its destructor changes. -/
theorem Minds.destroy (inv : Objects s.pool.packs) {r : ℕ} {x y : Rental}
    (hx : s.pool.packs.rental r = some x) (hr : S.rsource = s.pool.rsource)
    (hp : S.packs.rental = Function.update s.pool.packs.rental r (some y)) :
    s.Minds (s.goto u S c) := by
  refine ⟨fun v _ hv => .inl ⟨v, hr ▸ hv⟩, .inl ?_⟩
  have hf := inv.fresh _ (Nat.le_refl s.pool.packs.nextRental)
  have hne : s.pool.packs.nextRental ≠ r := by
    rintro rfl
    rw [hf] at hx
    cases hx
  show S.packs.rental _ = none
  rw [hp, Function.update_of_ne hne, hf]

/-- A pointer that was empty is set. -/
theorem exists_assign {p : SharedPtrs Var ℕ} {v w : Var} {x : Option ℕ} {r : ℕ}
    (hv : p.ptr v = none) (hw : p.ptr w = some r) : ∃ w, (p.assign v x).ptr w = some r := by
  refine ⟨w, ?_⟩
  rw [SharedPtrs.ptr_assign_of_ne _ _ fun e => ?_, hw]
  rw [e, hv] at hw
  cases hw

/-- The pointer that is cleared has been copied. -/
theorem exists_assign_none {p : SharedPtrs Var ℕ} {v x w : Var} {r : ℕ} (hne : x ≠ v)
    (hv : p.ptr x = p.ptr v) (hw : p.ptr w = some r) : ∃ w, (p.assign v none).ptr w = some r := by
  by_cases e : w = v
  · exact ⟨x, by rw [SharedPtrs.ptr_assign_of_ne _ _ hne, hv, ← e, hw]⟩
  · exact ⟨w, by rw [SharedPtrs.ptr_assign_of_ne _ _ e, hw]⟩

/-- A call has its result. -/
theorem Minds.made {b : Borrowed × Packs} {x : Option ℕ} {d : Caller} {t : Bool}
    (inv : Objects s.pool.packs) (hu : s.pool.rsource.ptr (.result u) = none)
    (hb : (∃ Q, b = (.rented s.pool.packs.nextRental, Q)) ∨
      (b.1 = .invalid ∨ b.1 = .asserts) ∧ b.2 = s.pool.packs) :
    s.Minds (s.borrowed u d x (.dequeue d t) b) := by
  obtain ⟨b, Q⟩ := b
  rcases hb with ⟨Q, hb⟩ | ⟨rfl | rfl, hb⟩
  · obtain ⟨rfl, rfl⟩ := Prod.mk.inj hb
    refine ⟨fun v r hv => .inl ?_, .inr ⟨.result u, ?_⟩⟩
    · exact exists_assign hu hv
    · simp [State.borrowed, State.goto]
  · exact .quiet inv rfl (congrArg Packs.rental hb)
  · exact .quiet inv rfl (congrArg Packs.rental hb)

theorem borrow_made (P : Packs) (p : PackId) :
    (∃ Q, P.borrow p = (.rented P.nextRental, Q)) ∨
      ((P.borrow p).1 = .invalid ∨ (P.borrow p).1 = .asserts) ∧ (P.borrow p).2 = P := by
  cases hb : P.borrow p with
  | mk b Q =>
    obtain ⟨rfl, -⟩ | ⟨h, rfl, -⟩ := borrow_cases hb
    · exact .inl ⟨Q, rfl⟩
    · exact .inr ⟨h, rfl⟩

theorem minds_advance (inv : Objects s.pool.packs) (hS : s.Stacks)
    (hs : s.advance cfg u = some s') : s.Minds s' := by
  have hu := hS.stack u
  unfold State.advance at hs
  cases hc : s.pc u with
  | borrowPreference c i =>
    rw [hc] at hu
    simp only [hc] at hs
    split at hs
    · split at hs <;> cases hs
      exact .made inv (hu.result rfl).2 (borrow_made ..)
    · cases hs
      exact .quiet inv rfl rfl
  | borrow c wait p =>
    rw [hc] at hu
    simp only [hc] at hs
    split at hs <;> cases hs
    exact .made inv (hu.result rfl).2 (borrow_made ..)
  | overdraw c =>
    rw [hc] at hu
    simp only [hc, Option.some.injEq] at hs
    subst hs
    exact .made (t := false) inv (hu.result rfl).2 (.inl ⟨_, rfl⟩)
  | onRelease r =>
    simp only [hc, Option.map_eq_some_iff] at hs
    obtain ⟨x, hx, rfl⟩ := hs
    exact .destroy inv hx rfl rfl
  | putBack r =>
    simp only [hc] at hs
    split at hs
    · cases hs
    · rename_i x hx
      split at hs
      · cases hs
        exact .destroy inv hx rfl rfl
      · cases hs
        exact .destroy inv hx rfl (Packs.putBack_spare ..).rental
      · split at hs <;> cases hs
        exact .destroy inv hx rfl (Packs.putBack_preferred ..).rental
  | enqueue p | removeFromFreeList c wait p =>
    cases p <;> simp only [hc, Option.some.injEq] at hs <;> subst hs <;> exact .quiet inv rfl rfl
  | unwinding c =>
    simp only [hc, Option.some.injEq] at hs
    subst hs
    cases c <;> exact .quiet inv rfl rfl
  | _ =>
    simp only [hc, reduceCtorEq] at hs
    repeat' split at hs
    all_goals cases hs <;> exact .quiet inv rfl rfl

/-- The result of a call moves to the user. -/
theorem exists_moveResult {T : Pool} {h r : ℕ} {w : Var} (hn : T.rsource.ptr (.locked h) = none)
    (hw : T.rsource.ptr w = some r) : ∃ w, (T.moveResult u h).rsource.ptr w = some r := by
  obtain ⟨w', hw'⟩ := exists_assign (x := T.rsource.ptr (.result u)) hn hw
  exact exists_assign_none (x := .locked h) (by simp) (by simp) hw'

theorem minds_step (inv : Objects s.pool.packs) (hS : s.Stacks)
    (hs : s.step cfg a = some s') : s.Minds s' := by
  cases a with
  | advance u => exact minds_advance inv hS hs
  | lockLive w h' | clone h₁ h₂ =>
    simp only [State.step] at hs
    repeat' split at hs
    all_goals cases hs
    rename_i hc
    refine ⟨fun v r hv => .inl (exists_assign ?_ hv), .inl (inv.fresh _ (Nat.le_refl _))⟩
    first | exact hc | exact hc.2
  | dropLocked u h' =>
    simp only [State.step] at hs
    split at hs
    · rename_i r hr
      split at hs
      · cases hs
        refine ⟨fun v r' hv => ?_, .inl (inv.fresh _ (Nat.le_refl _))⟩
        by_cases e : v = .locked h'
        · obtain rfl : r = r' := Option.some.inj (hr.symm.trans (e ▸ hv))
          -- the last pointer goes with its rental
          cases he : (s.pool.rsource.assign (.locked h') none).expired r with
          | true => exact .inr ⟨u, by simp [he, Pc.hold]⟩
          | false => exact .inl (SharedPtrs.not_expired_iff.mp he)
        · exact .inl ⟨v, (SharedPtrs.ptr_assign_of_ne _ _ e).trans hv⟩
      · cases hs
    · cases hs
  | publish u h' =>
    simp only [State.step] at hs
    split at hs
    · rename_i c hc
      split at hs <;> cases hs
      rename_i hn
      refine ⟨fun v r hv => .inl ?_, .inl (by rw [State.goto, returned_packs]; exact inv.fresh _ (Nat.le_refl _))⟩
      cases c <;> exact exists_moveResult hn hv
    · cases hs
  | builderThrows u invalid =>
    simp only [State.step] at hs
    split at hs
    · split at hs <;> cases hs
      exact .quiet inv rfl rfl
    · rename_i p hc
      split at hs <;> cases hs
      cases p <;> exact .quiet inv rfl rfl
    · cases hs
      exact .quiet inv rfl rfl
    · cases hs
  | hookThrows u invalid =>
    simp only [State.step] at hs
    split at hs
    · split at hs <;> cases hs
      exact .quiet inv rfl (spoilt_spoil ..).rental
    · split at hs <;> cases hs
      exact .quiet inv rfl (spoilt_spoil ..).rental
    · cases hs
      exact .quiet inv rfl rfl
    · cases hs
  | _ =>
    simp only [State.step] at hs
    repeat' split at hs
    all_goals cases hs <;> exact .quiet inv rfl rfl

/-- **Every rental that has its object is attended to**, in every reachable state. -/
theorem attended_of_reach {P : State → Action → Prop} (h : Reach (State.step cfg) P (init cfg) s) :
    s.Attended :=
  h.invariant (init_attended cfg) fun _ _ _ hr hA _ hs =>
    hA.step (packMove_of_step (packInv_of_reach hr).2 hs)
      (minds_step (packInv_of_reach hr).1.objects (stacks_of_reach hr) hs)

/-! ### When everything has come back -/

/-- A thread that is idle points to nothing. -/
theorem Stacks.idle (h : s.Stacks) (hu : ∀ u, s.pc u = .idle) (u : ℕ) :
    s.pool.preference (.param u) = none ∧ s.pool.preference (.dying u) = none ∧
      s.pool.preference (.result u) = none ∧ s.pool.rsource.ptr (.result u) = none := by
  have hS := h.stack u
  rw [hu u] at hS
  exact ⟨hS.param rfl, hS.dying rfl, hS.result rfl⟩

/-- No rental is left. -/
theorem t_of_quiet (h : Reach (State.step cfg) Any (init cfg) s) (hu : ∀ u, s.pc u = .idle)
    (hl : ∀ h, s.pool.rsource.ptr (.locked h) = none) {r : ℕ} {x : Rental}
    (hx : s.pool.packs.rental r = some x) : x.t = none := by
  have hS := stacks_of_reach h
  by_contra ht
  rcases attended_of_reach h r x hx ht with ⟨v, hv⟩ | ⟨u, hr⟩
  · rcases hS.handles.rsource v (by simp [hv]) with ⟨h', rfl⟩ | ⟨u, rfl⟩
    · rw [hl h'] at hv
      cases hv
    · rw [(hS.idle hu u).2.2.2] at hv
      cases hv
  · rw [holds, hu u] at hr
    cases hr

/-- **When no thread is in the pool and no `LockedResource` is left, everything has come
back**: no rental has an object, every pack that can be borrowed is in the queue, every object
is in its pack, and no mutex is locked. When no `WeakResource` is left either, no `index_owner`
is, and every index that was issued can be used again. What an exception has cost the pool
stays lost. -/
theorem comes_back (h : Reach (State.step cfg) Any (init cfg) s) (hu : ∀ u, s.pc u = .idle)
    (hl : ∀ h, s.pool.rsource.ptr (.locked h) = none) :
    (∀ r x, s.pool.packs.rental r = some x → x.t = none) ∧
    (∀ p, cfg.Has p → s.pool.packs.lost p = false →
      ((∃ j, p = .spare j) ∨ (s.pool.packs.pack p).initialized = true) →
      p ∈ s.pool.packs.freeResources) ∧
    (∀ p, (s.pool.packs.pack p).initialized = true → s.pool.packs.lost p = false →
      (s.pool.packs.pack p).resource = some (.ofPack p 0)) ∧
    (∀ i, (s.pool.packs.preferred i).mutex = none ∧ (s.pool.packs.preferred i).whoOwnsMe = none) ∧
    ((∀ w, s.pool.weak w = none) → (∀ o, s.pool.indices.indexOwner o = none) ∧
      ∀ i < cfg.maxResources, i < s.pool.indices.fetchAdds →
        i ∈ s.pool.indices.recycledIndices) := by
  obtain ⟨inv, -⟩ := packInv_of_reach h
  have hS := stacks_of_reach h
  have ht : ∀ r x, s.pool.packs.rental r = some x → x.t = none := fun _ _ hx => t_of_quiet h hu hl hx
  have hR : ∀ p, ¬ s.pool.packs.Rented p := by
    rintro p ⟨r, x, hx, -, hxt⟩
    exact hxt (ht r x hx)
  refine ⟨ht, fun p hp hlost hi => ?_, fun p hi hlost => ?_, fun i => ⟨?_, ?_⟩, fun hw => ?_⟩
  · refine (queued_or_inTransit inv hlost hp hi (hR p)).resolve_right ?_
    rintro ⟨u, hi⟩
    simp [hu u] at hi
  · cases hr : (s.pool.packs.pack p).resource with
    | none => exact absurd (((inv.objects.built p hi).2 hr).resolve_right (by simp [hlost])) (hR p)
    | some t => rw [inv.objects.packObject p t hr]
  · cases hm : (s.pool.packs.preferred i).mutex with
    | none => rfl
    | some u =>
      have := (inv.entries.mutex u i).mp hm
      rw [holds, hu u] at this
      cases this
  · cases ho : (s.pool.packs.preferred i).whoOwnsMe with
    | none => rfl
    | some r => exact absurd ⟨r, (inv.objects.owner i r).mp ho⟩ (hR _)
  · have hno : ∀ o, s.pool.indices.indexOwner o = none := by
      intro o
      cases ho : s.pool.indices.indexOwner o with
      | none => rfl
      | some i =>
        obtain ⟨v, hv⟩ := (owners_of_reach h).shared o i ho
        have hv' : s.pool.preference v = none := by
          cases v with
          | locked h' => exact hS.handles.locked h' (hl h')
          | weak w => exact hS.handles.weak w (hw w)
          | param u => exact (hS.idle hu u).1
          | result u => exact (hS.idle hu u).2.2.1
          | dying u => exact (hS.idle hu u).2.1
        exact absurd (hv.symm.trans hv') (by simp)
    refine ⟨hno, fun i hi hlt => ?_⟩
    rcases (kept_of_reach h i hi hlt).cases with hm | ⟨u, hx⟩ | ⟨o, hx⟩
    · exact hm
    · rw [taken, hu u] at hx
      cases hx
    · rw [hno o] at hx
      cases hx

/-- One object is acquired and given back. -/
theorem comes_back_one : ∃ s, run (State.step oneEach) (init oneEach) (acquireOne ++ releaseOne) =
    some s ∧ .preferred 0 ∈ s.pool.packs.freeResources ∧ 0 ∈ s.pool.indices.recycledIndices := by
  obtain ⟨s, hs, hp, hn, he, hw, hi, hlost, hf⟩ : ∃ s, run (State.step oneEach) (init oneEach)
      (acquireOne ++ releaseOne) = some s ∧ s.pc 0 = .idle ∧ s.pool.packs.nextRental = 1 ∧
      s.pool.rsource.expired 0 = true ∧ (∀ w, s.pool.weak w = none) ∧
      (s.pool.packs.pack (.preferred 0)).initialized = true ∧
      s.pool.packs.lost (.preferred 0) = false ∧ s.pool.indices.fetchAdds = 1 :=
    ⟨_, rfl, rfl, rfl, rfl, fun _ => rfl, rfl, rfl, rfl⟩
  have hr : Reach (State.step oneEach) Any (init oneEach) s := .of_run _ (fun _ _ _ => trivial) hs
  obtain ⟨inv, live⟩ := packInv_of_reach hr
  have hu : ∀ u, s.pc u = .idle := by
    intro u
    by_cases e : u = 0
    · rw [e, hp]
    · refine pc_of_run (fun a ha => ?_) hs
      simp only [acquireOne, releaseOne, List.mem_append, List.mem_cons, List.mem_replicate,
        List.not_mem_nil, or_false] at ha
      rcases ha with (((rfl | ⟨-, rfl⟩) | rfl) | rfl | ⟨-, rfl⟩) <;>
        simpa [Action.thread] using Ne.symm e
  have hl : ∀ h, s.pool.rsource.ptr (.locked h) = none := by
    intro h
    cases hh : s.pool.rsource.ptr (.locked h) with
    | none => rfl
    | some r =>
      obtain ⟨⟨x, hx, -⟩, -⟩ := live _ r hh
      by_cases e : r = 0
      · exact absurd (e ▸ hh) (SharedPtrs.expired_iff.mp he _)
      · rw [inv.objects.fresh r (by omega)] at hx
        cases hx
  have hback := comes_back hr hu hl
  refine ⟨s, hs, hback.2.1 _ (by decide) hlost (.inr hi), ?_⟩
  exact (hback.2.2.2.2 hw).2 0 (by decide) (by omega)

end State

end MutilsTasks.ResourcePool
