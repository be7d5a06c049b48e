import MutilsTasks.ResourcePool.Attempts
import MutilsTasks.ResourcePool.BuilderFailure

/-!
# What a throwing `onAcquire` leaves behind

When `borrow` calls `onAcquire`, the object has been moved out of the pack and into a
rental that is not yet made. If `onAcquire` throws, the members of that rental are
destroyed, and the object with them. The pack stays `initialized`, so `builder` is not
called for it again, and there is no rental that could put an object back.

`Wrecked` says this of a pack. It holds after every attempt in which `onAcquire` throws,
whatever the call does next, and it lasts (`wrecked_step`). From then on every `borrow`
of the pack fails its assertion: `assert(who_owns_me)` of a preferred pack,
`assert(this->resource)` of a spare.
-/

namespace MutilsTasks.ResourcePool

open Packs Machine

variable {V A E : Type} {cfg : Config} {env : Env V A E}

namespace Packs

/-- **A pack is usable** if it has its object or is to be built, and the queue has its
entry, as it has that of every spare and of every preferred pack that has been built. -/
structure Usable (P : Packs) (p : PackId) : Prop where
  object : (P.pack p).initialized = false ∨ (P.pack p).resource ≠ none
  entry : (∃ j, p = .spare j) ∨ (P.pack p).initialized = true → p ∈ P.freeResources

/-- The object has gone, and no rental has it. -/
structure Wrecked (P : Packs) (p : PackId) : Prop where
  gone : P.Gone p
  unrented : ¬ P.Rented p

variable {P Q : Packs} {p : PackId}

theorem Wrecked.not_usable (w : P.Wrecked p) : ¬ P.Usable p := by
  intro h
  have ho := h.object
  rw [w.gone] at ho
  simp at ho

theorem Wrecked.congr (w : P.Wrecked p) (hp : Q.pack = P.pack) (hr : Q.rental = P.rental) :
    Q.Wrecked p := by
  constructor
  · rw [Gone, hp]
    exact w.gone
  · rintro ⟨r, hR⟩
    rw [Rents, hr] at hR
    exact w.unrented ⟨r, hR⟩

/-- A wrecked pack lends nothing. -/
theorem Wrecked.ne_of_lent {q : PackId} {t : Obj} (w : P.Wrecked p) (hl : P.Lent q t Q) :
    p ≠ q := by
  rintro rfl
  have ho := hl.object
  rw [w.gone] at ho
  cases ho

/-- What is destroyed is a rental, and a wrecked pack has none. -/
theorem Wrecked.destroyRental {r : ℕ} {x : Rental} (w : P.Wrecked p) (hx : P.rental r = some x)
    (ht : x.t ≠ none) : (P.destroyRental r x).Wrecked p := by
  have hne : ∀ q, x.pack = some q → p ≠ q := by
    rintro q hq rfl
    exact w.unrented ⟨r, x, hx, hq, ht⟩
  constructor
  · rw [Gone, destroyRental_pack]
    cases hq : x.pack with
    | none => exact w.gone
    | some q => exact (Function.update_of_ne (hne q hq) ..).trans w.gone
  · rintro ⟨r', y, hy, hp, hy'⟩
    rw [destroyRental_rental, Function.update_apply] at hy
    split at hy
    · cases hy
      exact hy' rfl
    · exact w.unrented ⟨r', y, hy, hp, hy'⟩

end Packs

/-! ### Attempts -/

namespace Frame

variable {f g : Frame V A E} {p : PackId} {bs : List (Attempt V A E)}

/-- **`borrow` of a wrecked pack fails an assertion.** -/
theorem borrow_of_wrecked (inv : Objects f.packs) (w : f.packs.Wrecked p) :
    f.borrow env p = (.aborted, f) := by
  have hp : f.packs.pack p = ⟨none, true⟩ := w.gone
  have hi : f.initializeIfNeeded env p = (.ok (), f) := by
    rw [initializeIfNeeded, if_pos (by rw [hp])]
  have hl : (f.packs.lend p).1 = .asserts := by
    cases p with
    | spare j => simp [lend, hp]
    | preferred i =>
      cases hw : (f.packs.preferred i).whoOwnsMe with
      | none => simp [lend, hp, hw]
      | some r => exact absurd ⟨r, (inv.owner i r).mp hw⟩ w.unrented
  unfold borrow
  simp only [hi, hp, hl]

theorem packs_of_initializeIfNeeded (h : f.initializeIfNeeded env p = (.ok (), g)) :
    g.packs = f.packs.initializeIfNeeded p := by
  rcases initializeIfNeeded_spec h with ⟨-, hi, rfl⟩ | ⟨-, -, hg, -⟩ | ⟨x, hx, -⟩
  · rw [initializeIfNeeded_of_initialized hi]
  · rw [packs, hg]
  · cases hx

/-- A pack that has an object for `onAcquire` is not rented. -/
theorem not_rented_of_hook {t : Obj} (inv : Objects f.packs)
    (hr : ((f.packs.initializeIfNeeded p).pack p).resource = some t) : ¬ f.packs.Rented p := by
  intro hR
  cases hi : (f.packs.pack p).initialized with
  | false => exact (inv.unbuilt p hi).2.2 hR
  | true =>
    rw [initializeIfNeeded_of_initialized hi, inv.apart p hR] at hr
    cases hr

/-- **An `onAcquire` that throws wrecks the pack.** -/
theorem wrecked_of_hook {o : Outcome E ℕ} (inv : Objects f.packs) (h : f.borrow env p = (o, g))
    (hx : Attempt.HookThrows env ⟨p, f⟩) : g.packs.Wrecked p := by
  obtain ⟨k, t, x, hi, hr, hx⟩ := hx
  have hk := packs_of_initializeIfNeeded hi
  unfold borrow at h
  simp only [hi, hr, callOnAcquire, hx, Prod.mk.injEq] at h
  obtain ⟨-, rfl⟩ := h
  have hS := spoilt_spoil k.packs p
  constructor
  · show (k.packs.spoil p).pack p = _
    rw [hS.pack, Function.update_self]
  · rintro ⟨r, y, hy, hR⟩
    have hy' : (k.packs.spoil p).rental r = some y := hy
    rw [hS.rental, hk] at hy'
    refine not_rented_of_hook inv (hk ▸ hr) ⟨r, y, ?_, hR⟩
    rw [← hy']
    unfold Packs.initializeIfNeeded
    split <;> rfl

/-- `borrow` keeps `Objects`, and wrecked packs stay wrecked. -/
theorem Borrows.wrecked {o : Outcome E ℕ} (inv : Objects f.packs) (h : f.Borrows env p o g) :
    Objects g.packs ∧ ∀ q, f.packs.Wrecked q → g.packs.Wrecked q := by
  have hG : ∀ q, f.packs.Gone q → g.packs.Gone q := fun q => h.gone
  suffices key : Objects g.packs ∧ ∀ q, f.packs.Wrecked q → ¬ g.packs.Rented q from
    ⟨key.1, fun q w => ⟨hG q w.gone, key.2 q w⟩⟩
  cases h with
  | builder _ _ hg =>
    have hgp : g.packs = f.packs.builderThrew p := by rw [packs, hg]
    rw [hgp]
    refine ⟨inv.builderThrew p, fun q w hR => w.unrented ?_⟩
    cases p <;> exact hR
  | hook ho _ _ hg =>
    have hgp : g.packs = f.packs.spoil p := by rw [packs, hg]
    have hS := spoilt_spoil f.packs p
    rw [hgp]
    refine ⟨inv.spoilt hS ho, fun q w hR => w.unrented ?_⟩
    simpa only [Rented, Rents, hS.rental] using hR
  | @lent t Q _ _ _ _ _ _ hl _ _ _ hg =>
    have hgp : g.packs = Q := by rw [packs, hg]
    rw [hgp]
    refine ⟨inv.lent hl, fun q w hR => ?_⟩
    rcases (inv.rented_of_lent hl q).mp hR with e | hR
    · exact w.ne_of_lent hl e
    · exact w.unrented hR
  | invalid | asserts => exact ⟨inv, fun _ w => w.unrented⟩

theorem makeOverdrawn_wrecked {o : Outcome E ℕ} (inv : Objects f.packs)
    (h : f.makeOverdrawn env = (o, g)) :
    Objects g.packs ∧ ∀ q, f.packs.Wrecked q → g.packs.Wrecked q := by
  obtain ⟨v, -, -, hg, -⟩ | ⟨x, -, -, hg, -⟩ | ⟨x, n, a, v, -, -, -, hg, -⟩ := makeOverdrawn_spec h
  · have hgp : g.packs = f.packs.overdraw := by rw [packs, hg]
    rw [hgp]
    refine ⟨inv.overdraw, fun q w => ⟨w.gone, ?_⟩⟩
    rintro ⟨r, hR⟩
    exact w.unrented ⟨r, inv.rents_overdraw.mp hR⟩
  · rw [packs, hg]
    exact ⟨inv, fun _ w => w⟩
  · rw [packs, hg]
    exact ⟨inv, fun _ w => w⟩

theorem Aside.wrecked (h : f.Aside g) (inv : Objects f.packs) :
    Objects g.packs ∧ ∀ q, f.packs.Wrecked q → g.packs.Wrecked q :=
  ⟨inv.congr h.pack h.rental h.nextRental h.builds h.lost h.owner,
    fun _ w => w.congr h.pack h.rental⟩

/-- **A pack on which `onAcquire` throws is wrecked at the end of the call**, and so is
every pack that was before. -/
theorem Serves.wrecked {o : Outcome E Unit} (h : Serves env f bs o g) (inv : Objects f.packs) :
    Objects g.packs ∧ (∀ q, f.packs.Wrecked q → g.packs.Wrecked q) ∧
      ∀ b ∈ bs, b.HookThrows env → g.packs.Wrecked b.pack := by
  induction h with
  | ends hb =>
    obtain ⟨inv', hw⟩ := (borrow_spec hb).wrecked inv
    refine ⟨inv', hw, fun b hm hx => ?_⟩
    rw [List.mem_singleton] at hm
    subst hm
    exact wrecked_of_hook inv hb hx
  | fails hb _ ih =>
    obtain ⟨inv', hw⟩ := (borrow_spec hb).wrecked inv
    obtain ⟨inv'', hw', hx'⟩ := ih inv'
    refine ⟨inv'', fun q w => hw' q (hw q w), fun b hm hx => ?_⟩
    rcases List.mem_cons.mp hm with rfl | hm
    · exact hw' _ (wrecked_of_hook inv hb hx)
    · exact hx' b hm hx
  | @overdraws f g o hm =>
    obtain ⟨inv', hw⟩ := makeOverdrawn_wrecked (f := f.overdrawing) inv hm
    exact ⟨inv', hw, by simp⟩
  | waits | outOfRange => exact ⟨inv, fun _ w => w, by simp⟩
  | first ha _ ih =>
    obtain ⟨inv', hw⟩ := ha.wrecked inv
    obtain ⟨inv'', hw', hx⟩ := ih inv'
    exact ⟨inv'', fun q w => hw' q (hw q w), hx⟩
  | last _ ha ih =>
    obtain ⟨inv', hw, hx⟩ := ih inv
    obtain ⟨inv'', hw'⟩ := ha.wrecked inv'
    exact ⟨inv'', fun q w => hw' q (hw q w), fun b hm h => hw' _ (hx b hm h)⟩

end Frame

/-! ### Runs -/

namespace Session

variable {heap : Obj → V} {s s' : Session V} {op : Op V A} {R : Result V A E} {p : PackId}
  {b : Attempt V A E}

theorem finish_packs (h : ℕ) (c : Caller) (o : Outcome E Unit) (f : Frame V A E) :
    (finish h c (o, f)).session.pool.packs = f.packs := by
  obtain u | x | _ | _ := o <;> cases c <;> rfl

theorem objects (hr : Reach (step cfg env) Any (init cfg heap) s) : Objects s.pool.packs :=
  (reached hr).2.packInv.objects

theorem wrecked_of_attempt (hr : Reach (step cfg env) Any (init cfg heap) s)
    (hp : s.perform cfg env op = some R) (hb : b ∈ s.attempts cfg env op)
    (hx : b.HookThrows env) : R.session.pool.packs.Wrecked b.pack := by
  obtain ⟨ha, -⟩ | ⟨h, c, o, f, f₀, rfl, hf, -, -, hs⟩ := serves hp
  · rw [ha] at hb
    cases hb
  · rw [finish_packs]
    exact (hs.wrecked (hf ▸ objects hr)).2.2 b hb hx

theorem wrecked_dropLocked {h r : ℕ} (hr : Reach (step cfg env) Any (init cfg heap) s)
    (hp : s.pool.rsource.ptr (.locked h) = some r) (w : s.pool.packs.Wrecked p) :
    (s.dropLocked env h r).pool.packs.Wrecked p := by
  obtain ⟨⟨x, hx, ht⟩, -⟩ := (reached hr).2.liveRefs _ _ hp
  have hx' : s.pool.packs.rental r = some x := hx
  by_cases he : (s.pool.rsource.assign (.locked h) none).expired r = true
  · simpa [dropLocked, he, hx'] using w.destroyRental hx' ht
  · simpa [dropLocked, he, setPool] using w

/-- **A wrecked pack stays wrecked.** -/
theorem wrecked_step (hr : Reach (step cfg env) Any (init cfg heap) s)
    (hs : s.step cfg env op = some s') (w : s.pool.packs.Wrecked p) :
    s'.pool.packs.Wrecked p := by
  obtain ⟨R, hR, ha⟩ := Option.bind_eq_some_iff.mp hs
  cases perform_spec hR with
  | @call _ h c o f hc =>
    obtain ⟨-, ho⟩ | ⟨h', c', o', f', f₀, he, hf, -, -, hS⟩ := serves hR
    · rw [Result.after?, ho hc.asksPool] at ha
      cases ha
    · rw [he] at ha
      rw [(finish_eq ha).1]
      exact (hS.wrecked (hf ▸ objects hr)).2.1 p (hf ▸ w)
  | dangling | gone => cases ha
  | refuses | acquireWeak | write | lockLive | acquireIfLocked | clone | weak | assign | dropWeak =>
    cases ha
    exact w.congr rfl rfl
  | dropLocked hp =>
    cases ha
    exact wrecked_dropLocked hr hp w

theorem wrecked_of_reach (hr : Reach (step cfg env) Any (init cfg heap) s)
    (h : Reach (step cfg env) Any s s') (w : s.pool.packs.Wrecked p) :
    s'.pool.packs.Wrecked p := by
  induction h with
  | refl => exact w
  | tail h _ hs ih => exact wrecked_step (hr.trans h) hs ih

/-- **A pack on which `onAcquire` throws is never usable again**: not when the call ends,
and in every later state `borrow` fails an assertion. -/
theorem unusable_of_hook (hr : Reach (step cfg env) Any (init cfg heap) s)
    (hp : s.perform cfg env op = some R) (hb : b ∈ s.attempts cfg env op)
    (hx : b.HookThrows env) : ¬ R.session.pool.packs.Usable b.pack ∧
      ∀ s₁ s', R.after? = some s₁ → Reach (step cfg env) Any s₁ s' →
        ∀ f : Frame V A E, f.packs = s'.pool.packs → f.borrow env b.pack = (.aborted, f) := by
  have w := wrecked_of_attempt hr hp hb hx
  refine ⟨w.not_usable, fun s₁ s' ha h f hf => ?_⟩
  have hs : s.step cfg env op = some s₁ := by
    rw [step, hp]
    exact ha
  have hr₁ : Reach (step cfg env) Any (init cfg heap) s₁ := .tail hr trivial hs
  have w₁ : s₁.pool.packs.Wrecked b.pack := by
    obtain ⟨o, l, k⟩ := R
    obtain u | x | _ | _ := o <;> cases ha <;> exact w
  have w' := wrecked_of_reach hr₁ h w₁
  exact Frame.borrow_of_wrecked (hf ▸ objects (hr₁.trans h)) (hf ▸ w')

/-- User code whose `onAcquire` always throws. -/
def refusing : Env Unit Unit Unit := { quiet with onAcquire := fun _ _ _ => .error (.other ()) }

theorem unusable_of_hook_acquire : ∃ (R : Result Unit Unit Unit) (b : Attempt Unit Unit Unit),
    (init twoPreferred fun _ => ()).perform twoPreferred refusing (.acquire 0 ()) = some R ∧
      b.pack = .preferred 0 ∧ ¬ R.session.pool.packs.Usable b.pack ∧
      ∀ s₁ s', R.after? = some s₁ → Reach (step twoPreferred refusing) Any s₁ s' →
        ∀ f : Frame Unit Unit Unit, f.packs = s'.pool.packs →
          f.borrow refusing b.pack = (.aborted, f) :=
  ⟨_, _, rfl, rfl, @unusable_of_hook Unit Unit Unit twoPreferred refusing (fun _ => ()) _
    (.acquire 0 ()) _ ⟨.preferred 0, _⟩ .refl rfl List.mem_cons_self ⟨_, _, _, rfl, rfl, rfl⟩⟩

/-- **A throwing `onAcquire` costs the pool a pack**: here the preferred one, which the
next call of `acquire` tries again. -/
theorem hook_costs_pack : ¬ ∀ (cfg : Config) (env : Env Unit Unit Unit) (heap : Obj → Unit)
    (s : Session Unit) (op : Op Unit Unit) (R : Result Unit Unit Unit) (b : Attempt Unit Unit Unit),
    Reach (step cfg env) Any (init cfg heap) s → s.perform cfg env op = some R →
      b ∈ s.attempts cfg env op → b.HookThrows env → R.session.pool.packs.Usable b.pack := by
  intro h
  obtain ⟨ho, -⟩ := @h twoPreferred refusing (fun _ => ()) _ (.acquire 0 ()) _ ⟨.preferred 0, _⟩ .refl
    rfl List.mem_cons_self ⟨_, _, _, rfl, rfl, rfl⟩
  revert ho
  decide

end Session

end MutilsTasks.ResourcePool
