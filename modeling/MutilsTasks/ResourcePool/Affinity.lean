import MutilsTasks.ResourcePool.Capacity

/-!
# Affinity

A `WeakResource` keeps its preference, and gets its preferred pack's object back
whenever that is free, as its last holder left it.

`Effect` says what an operation does to packs, rentals and objects. From it comes that
nobody touches the object of a pack that is not rented (`LeftIn`), and `affinity` puts
that together with what the operations do to handles and indices.
-/

namespace MutilsTasks.ResourcePool

open Packs Machine

variable {V A E : Type} {cfg : Config} {env : Env V A E}

namespace Session

/-! ### What an operation does -/

/-- **What an operation does** to packs, rentals and objects. -/
inductive Effect (env : Env V A E) (s : Session V) (op : Op V A) (s' : Session V) : Prop
  /-- Nothing. -/
  | quiet : s.Alike s' → Effect env s op s'
  /-- It lends an object. -/
  | lends {f g : Frame V A E} {p : PackId} {t : Obj} : s.Alike f.toSession → f.Lends env p t g →
      s'.pool.packs = g.packs → s'.heap = g.heap → Effect env s op s'
  /-- It makes an `overdrawn`. -/
  | overdraws {v : V} : s'.pool.packs.pack = s.pool.packs.pack →
      s'.pool.packs.rental = Function.update s.pool.packs.rental s.pool.packs.nextRental
        (some { pack := none, t := some (.ofOverdrawn s.pool.packs.nextRental) }) →
      s'.heap = Function.update s.heap (.ofOverdrawn s.pool.packs.nextRental) v → Effect env s op s'
  /-- It destroys a rental. -/
  | releases {h r : ℕ} {x : Rental} {t : Obj} : op = .dropLocked h →
      s.pool.rsource.ptr (.locked h) = some r → s.pool.packs.rental r = some x → x.t = some t →
      s'.pool.packs = s.pool.packs.destroyRental r x →
      s'.heap = Function.update s.heap t (env.onRelease s.calls (s.heap t)) → Effect env s op s'
  /-- It writes to an object. -/
  | writes {h r : ℕ} {x : Rental} {t : Obj} {v : V} : s.pool.rsource.ptr (.locked h) = some r →
      s.pool.packs.rental r = some x → x.t = some t → s'.pool = s.pool →
      s'.heap = Function.update s.heap t v → Effect env s op s'

variable {heap : Obj → V} {s s' : Session V} {s₀ : State} {op : Op V A} {c : Caller}
  {f g : Frame V A E} {i : ℕ}

theorem effect_noPreference (hn : env.NoThrow)
    (hR : Reached cfg env s₀ (alone f.pool (.dequeue c false)))
    (hd : f.NoPreference cfg env (.returned ()) g) (ha : s.Alike f.toSession)
    (hp : s'.pool.packs = g.packs) (hh : s'.heap = g.heap) : s.Effect env op s' := by
  rcases hR.noPreference_of_noThrow hn hd with ⟨k, p, t, -, -, -, hk, hl, -⟩ |
    ⟨k, -, hk, -, -, -, ho | ⟨-, -, hg, v, hv⟩⟩
  · exact .lends (ha.trans hk.alike) hl hp hh
  · cases ho
  · have hk' := ha.trans hk.alike
    have hpacks : s'.pool.packs = k.packs.overdraw := hp.trans hg
    refine .overdraws (v := v) ?_ ?_ ?_
    · rw [hpacks, ← hk'.pack]
      rfl
    · rw [hpacks, ← hk'.rental, ← hk'.nextRental]
      rfl
    · rw [hh, hv, ← ha.heap, ← ha.nextRental]
      rfl

theorem effect_withPreference (hn : env.NoThrow)
    (hR : Reached cfg env s₀ (alone f.pool (.borrowPreference c i))) (hi : i < cfg.maxResources)
    (hw : f.WithPreference cfg env i (.returned ()) g) (ha : s.Alike f.toSession)
    (hp : s'.pool.packs = g.packs) (hh : s'.heap = g.heap) : s.Effect env op s' := by
  rcases hR.withPreference_of_noThrow hn hi hw with ⟨t, -, -, -, hl, -⟩ | ⟨-, hR, hd⟩
  · exact .lends ha hl hp hh
  · exact effect_noPreference hn hR hd ha hp hh

theorem effect_dropLocked {h r : ℕ} (hr : Reached cfg env s₀ (alone s.pool .idle))
    (hp : s.pool.rsource.ptr (.locked h) = some r) :
    s.Effect env (.dropLocked h : Op V A) (s.dropLocked env h r) := by
  obtain ⟨⟨x, hx, ht⟩, -⟩ := hr.liveRefs _ _ hp
  have hx' : s.pool.packs.rental r = some x := hx
  obtain ⟨t, ht⟩ := Option.ne_none_iff_exists'.mp ht
  by_cases he : (s.pool.rsource.assign (.locked h) none).expired r = true
  · refine .releases rfl hp hx ht ?_ ?_ <;> simp [dropLocked, he, hx', ht]
  · refine .quiet ⟨?_, ?_, ?_, ?_, ?_⟩ <;> simp [dropLocked, he, setPool]

theorem effect (hn : env.NoThrow) (tidy : s.pool.Tidy)
    (hr : Reached cfg env s₀ (alone s.pool .idle))
    (hm : s.pool.indices.fetchAdds ≤ cfg.maxResources) (hs : s.step cfg env op = some s') :
    s.Effect env op s' := by
  obtain ⟨R, hR, hs⟩ := step_spec hs
  cases hR with
  | @call _ h c o f hc =>
    obtain ⟨f₀, hf₀, hp, -, hb⟩ := hr.begins tidy hc
    obtain u | x | _ | _ := o
    · obtain ⟨hp', -, hh'⟩ := finish_eq hs
      have ha : s.Alike f₀.toSession := by
        rw [hf₀]
        exact ⟨by rw [setPool, hp], by rw [setPool, hp], by rw [setPool, hp], by rw [setPool, hp], rfl⟩
      cases hb with
      | new hi _ hR hw =>
        rcases hR.newPreference_cases (by rwa [hi]) hw with ⟨-, hR, hd⟩ | ⟨i, k, -, ht, hi, hR, hw⟩
        · exact effect_noPreference hn hR hd ha hp' hh'
        · refine effect_withPreference hn hR hi hw (ha.trans ?_) hp' hh'
          have ht := Frame.takesIndex_spec ht
          have hk : k.packs = f₀.packs := by rw [Frame.packs, ht.pool.1]; rfl
          exact ⟨congrArg Packs.pack hk, congrArg Packs.rental hk, congrArg Packs.nextRental hk,
            congrArg Packs.builds hk, ht.heap⟩
      | preferred _ _ ho _ hR hw =>
        exact effect_withPreference hn hR (hr.owners.owned _ _ ho) hw ha hp' hh'
    · exact absurd rfl (hb.ne_threw hn hr hm x)
    · cases hs
    · cases hs
  | dangling | gone => cases hs
  | refuses | acquireWeak | lockLive | acquireIfLocked | clone | weak | assign | dropWeak =>
    cases hs
    exact .quiet ⟨rfl, rfl, rfl, rfl, rfl⟩
  | write hp ht =>
    cases hs
    obtain ⟨x, hx, ht⟩ := Option.bind_eq_some_iff.mp ht
    exact .writes hp hx ht rfl rfl
  | dropLocked hp =>
    cases hs
    exact effect_dropLocked hr hp

/-! ### The object of a pack that is not rented -/

/-- `h` is a handle on object `t`. -/
def Denotes (s : Session V) (h : ℕ) (t : Obj) : Prop :=
  ∃ r x, s.pool.rsource.ptr (.locked h) = some r ∧ s.pool.packs.rental r = some x ∧ x.t = some t

namespace Effect

variable {p : PackId}

/-- The rental of pack `p` goes on, unless it is destroyed. -/
theorem rented (he : s.Effect env op s') (inv : Objects s.pool.packs)
    (hp : s.pool.packs.Rented p) : s'.pool.packs.Rented p ∨
      ∃ h, op = .dropLocked h ∧ s.Denotes h (.ofPack p 0) ∧ s'.heap (.ofPack p 0) =
        env.onRelease s.calls (s.heap (.ofPack p 0)) := by
  obtain ⟨r, hr⟩ := hp
  have hlt := inv.rents_lt hr
  cases he with
  | quiet ha => exact .inl ((ha.rented p).mpr ⟨r, hr⟩)
  | @lends f g q t ha hl hg =>
    refine .inl ⟨r, ?_⟩
    have hne : r ≠ f.packs.nextRental := Nat.ne_of_lt (ha.nextRental ▸ hlt)
    rw [hg, Objects.rents_of_lent hl.lent, if_neg hne]
    simpa [Rents, ha.rental, Frame.packs] using hr
  | overdraws _ hrent _ =>
    refine .inl ⟨r, ?_⟩
    simpa [Rents, hrent, Nat.ne_of_lt hlt] using hr
  | @releases h r' x t hop hpt hx ht hP hh =>
    by_cases e : r = r'
    · subst e
      obtain ⟨y, hy, hyp, -⟩ := hr
      rw [hx, Option.some.injEq] at hy
      subst hy
      have hto : t = .ofPack p 0 := by
        have := inv.rentalObject r x t hx ht
        rwa [Rental.object, hyp] at this
      subst hto
      exact .inr ⟨h, hop, ⟨r, x, hpt, hx, ht⟩, by rw [hh, Function.update_self]⟩
    · refine .inl ⟨r, ?_⟩
      simpa [Rents, hP, destroyRental_rental, Function.update_of_ne e] using hr
  | writes _ _ _ hP _ =>
    rw [hP]
    exact .inl ⟨r, hr⟩

/-- The object of a pack that is not rented stays as it is. -/
theorem heap_eq (he : s.Effect env op s') (inv : Objects s.pool.packs)
    (hp : ¬ s.pool.packs.Rented p) (hp' : ¬ s'.pool.packs.Rented p) :
    s'.heap (.ofPack p 0) = s.heap (.ofPack p 0) := by
  -- an object of a rental is not that of pack `p`
  have other : ∀ r x t, s.pool.packs.rental r = some x → x.t = some t → t ≠ .ofPack p 0 := by
    rintro r x t hx ht rfl
    have ho := inv.rentalObject r x _ hx ht
    cases hxp : x.pack with
    | none => simp [Rental.object, hxp] at ho
    | some q =>
      simp only [Rental.object, hxp, Obj.ofPack.injEq, and_true] at ho
      exact hp ⟨r, x, hx, ho ▸ hxp, by simp [ht]⟩
  cases he with
  | quiet ha => rw [ha.heap]
  | @lends f g q t ha hl hg hh =>
    obtain ⟨n, a, v, v', -, -, hheap⟩ := hl.heap
    have hne : p ≠ q := by
      rintro rfl
      exact hp' ⟨_, by rw [hg, Objects.rents_of_lent hl.lent, if_pos rfl]⟩
    rw [hh, hheap, hl.object, Function.update_of_ne (by simpa using hne), ha.heap]
  | overdraws _ _ hh => rw [hh, Function.update_of_ne (by simp)]
  | releases _ _ hx ht _ hh => rw [hh, Function.update_of_ne (other _ _ _ hx ht).symm]
  | writes _ hx ht _ hh => rw [hh, Function.update_of_ne (other _ _ _ hx ht).symm]

/-- A pack is built when it is first rented. -/
theorem initialized (he : s.Effect env op s') (hp' : ¬ s'.pool.packs.Rented p)
    (hi : (s'.pool.packs.pack p).initialized = true) :
    (s.pool.packs.pack p).initialized = true := by
  cases he with
  | quiet ha => rwa [← ha.pack]
  | @lends f g q t ha hl hg _ =>
    rw [hg, hl.initialized] at hi
    refine hi.elim (fun e => ?_) fun h => by rwa [← ha.pack]
    exact absurd ⟨_, by rw [hg, Objects.rents_of_lent hl.lent, if_pos rfl, e]⟩ hp'
  | overdraws hP _ _ => rwa [← hP]
  | releases _ _ _ _ hP _ =>
    rw [hP, destroyRental_initialized] at hi
    exact hi
  | writes _ _ _ hP _ => rwa [← hP]

end Effect

/-- **`v` is what the last holder left** in the object of pack `p`, as `onRelease` has
changed it, and no one has held it since. -/
inductive LeftIn (cfg : Config) (env : Env V A E) (heap : Obj → V) (p : PackId) (v : V) :
    Session V → Prop
  /-- The last handle on it is destroyed. -/
  | drop {s s' : Session V} {h : ℕ} : Reach (step cfg env) Any (init cfg heap) s →
      s.Denotes h (.ofPack p 0) → s.step cfg env (.dropLocked h) = some s' →
      ¬ s'.pool.packs.Rented p → v = env.onRelease s.calls (s.heap (.ofPack p 0)) →
      LeftIn cfg env heap p v s'
  /-- Another operation. -/
  | other {s s' : Session V} {op : Op V A} : LeftIn cfg env heap p v s →
      s.step cfg env op = some s' → ¬ s'.pool.packs.Rented p → LeftIn cfg env heap p v s'

/-- **The object of a pack that is not rented is as its last holder left it.** -/
theorem leftIn (hn : env.NoThrow) (h : Reach (step cfg env) Any (init cfg heap) s) {p : PackId}
    (hi : (s.pool.packs.pack p).initialized = true) (hp : ¬ s.pool.packs.Rented p) :
    s.LeftIn cfg env heap p (s.heap (.ofPack p 0)) := by
  induction h with
  | refl => simp [init, Pool.init, Packs.init] at hi
  | @tail s₁ s₂ op hrun _ hs ih =>
    obtain ⟨tidy, hr⟩ := reached hrun
    have inv : Objects s₁.pool.packs := hr.packInv.objects
    have he := effect hn tidy hr (fetchAdds_le hrun) hs
    by_cases hp₀ : s₁.pool.packs.Rented p
    · obtain ⟨h, rfl, hd, hv⟩ := (he.rented inv hp₀).resolve_left hp
      rw [hv]
      exact .drop hrun hd hs hp rfl
    · rw [he.heap_eq inv hp₀ hp]
      exact .other (ih (he.initialized hp hi) hp₀) hs hp

/-! ### Preferences -/

/-- `v.index_preference->indx`. -/
def index (s : Session V) (v : Var) : Option ℕ :=
  (s.pool.preference v).bind s.pool.indices.indexOwner

/-- `lock` leaves the preference of its handle as it is, if it has one. -/
theorem preference_lock {w h o : ℕ} {a : A} (tidy : s.pool.Tidy)
    (ho : s.pool.preference (.weak w) = some o) (hs : s.step cfg env (.lock w h a) = some s') :
    s'.pool.preference (.weak w) = some o := by
  obtain ⟨R, hR, hs⟩ := step_spec hs
  cases hR with
  | call hc =>
    have hheir : ∀ {n c e f}, s.Calls cfg env (.lock w h a) n c e f → c.heir ≠ some (.weak w) := by
      intro n c e f hc
      cases hc with
      | lockPreferred => simp [Caller.heir]
      | lockNew _ _ _ hp => simp [hp] at ho
    obtain ⟨r, -, hr⟩ | hu := hc.ends tidy hs
    · rw [hr.preference, if_neg (by simpa using hheir hc), ho]
    · rw [hu.preference, ho]
  | dangling => cases hs
  | lockLive =>
    cases hs
    simpa [done, setPool] using ho

/-- **`lock` leaves the index as it is.** -/
theorem index_lock {w h : ℕ} {a : A} (hr : Reach (step cfg env) Any (init cfg heap) s)
    (hi : s.index (.weak w) = some i) (hs : s.step cfg env (.lock w h a) = some s') :
    s'.index (.weak w) = some i := by
  obtain ⟨o, ho, hi⟩ := Option.bind_eq_some_iff.mp hi
  have ho' := preference_lock (reached hr).1 ho hs
  have hR := reached_from hr (Reach.single (P := Any) trivial hs)
  have := State.indexOwner_of_reach hR.1 hR.2 hi ho'
  rw [index, ho']
  exact this

/-! ### Getting the object back -/

/-- The handle that a call returns. -/
theorem denotes_finish {h r : ℕ} {x : Rental} {t : Obj}
    (hr : f.pool.rsource.ptr (.result 0) = some r) (hx : f.packs.rental r = some x)
    (ht : x.t = some t) :
    (finish h c ((.returned () : Outcome E Unit), f)).session.Denotes h t := by
  refine ⟨r, x, ?_, by cases c <;> exact hx, ht⟩
  show (Pool.returned _ _ _ _).rsource.ptr (.locked h) = _
  rw [Pool.returned_ptr]
  simpa using hr

/-- `acquire_no_preference` lends no object of a pack that is rented, or waits. -/
theorem noPreference_other (hn : env.NoThrow) {o : Outcome E Unit} {h : ℕ} {p : PackId}
    (hR : Reached cfg env s₀ (alone f.pool (.dequeue c false)))
    (hd : f.NoPreference cfg env o g) (hp : f.packs.Rented p) :
    (o = .returned () ∧ ∃ t, (finish h c (o, g)).session.Denotes h t ∧ t ≠ .ofPack p 0) ∨
      o = .blocked ∧ cfg.allowOverdraws = false ∧
        ∀ p ∈ f.packs.freeResources, f.packs.Rented p := by
  rcases hR.noPreference_of_noThrow hn hd with ⟨k, q, t, rfl, hr, -, hk, hl, -⟩ |
    ⟨k, -, hk, hall, -, -, rfl | ⟨rfl, hr, hg, -⟩⟩
  · refine .inl ⟨rfl, t, denotes_finish (x := { pack := some q, t := some t }) hr ?_ rfl, ?_⟩
    · rw [hl.lent.rental, hk.nextRental, Function.update_self]
    · rw [hl.object]
      rintro h
      rw [Obj.ofPack.injEq] at h
      exact hl.free (h.1 ▸ (hk.rented p).mpr hp)
  · refine .inr ⟨rfl, ?_, hall⟩
    cases hd with
    | blocked => assumption
  · refine .inl ⟨rfl, .ofOverdrawn f.packs.nextRental, denotes_finish
      (x := { pack := none, t := some (.ofOverdrawn f.packs.nextRental) }) hr ?_ rfl, by simp⟩
    rw [hg, ← hk.nextRental]
    simp [overdraw, setRental]

/-- What `lock` does with a preference for `i`. -/
inductive Locks (cfg : Config) (env : Env V A E) (heap : Obj → V) (s : Session V) (h i : ℕ)
    (R : Result V A E) : Prop
  /-- It returns the object of pack `i`, as the last holder left it. -/
  | own {n : ℕ} {a : A} {v v' : V} : ¬ s.pool.packs.Rented (.preferred i) →
      R.outcome = .returned () → R.session.Denotes h (.ofPack (.preferred i) 0) →
      R.session.pool.packs.builds = s.pool.packs.builds →
      s.LeftIn cfg env heap (.preferred i) v → env.onAcquire n a v = .ok v' →
      R.session.heap (.ofPack (.preferred i) 0) = v' → Locks cfg env heap s h i R
  /-- That is away: it returns another object. -/
  | another {t : Obj} : s.pool.packs.Rented (.preferred i) → R.outcome = .returned () →
      R.session.Denotes h t → t ≠ .ofPack (.preferred i) 0 → Locks cfg env heap s h i R
  /-- That is away: it waits. -/
  | waits : s.pool.packs.Rented (.preferred i) → R.outcome = .blocked →
      cfg.allowOverdraws = false →
      (∀ p ∈ s.pool.packs.freeResources, s.pool.packs.Rented p) → Locks cfg env heap s h i R

theorem Calls.lock_eq {w h n : ℕ} {a : A} {o : Outcome E Unit}
    (hc : s.Calls cfg env (.lock w h a) n c o f) : c.handle = some w ∧ n = h := by
  cases hc <;> exact ⟨rfl, rfl⟩

theorem step_of_perform {R : Result V A E} (hp : s.perform cfg env op = some R)
    (ho : R.outcome = .returned ()) : s.step cfg env op = some R.session := by
  simp [step, hp, Result.after?, ho]

/-- The index stays when the call waits. -/
theorem index_blocked {w h o : ℕ} {a : A} (ho : s.pool.preference (.weak w) = some o)
    (hi : s.pool.indices.indexOwner o = some i)
    (hc : s.Calls cfg env (.lock w h a) h c .blocked f)
    (hR : Reached cfg env (alone s.pool .idle) (alone f.pool (.dequeue c false))) :
    (finish h c ((.blocked : Outcome E Unit), f)).session.index (.weak w) = some i := by
  obtain ⟨-, T, he, hT⟩ := hc.entered
  have hp : f.pool.preference (.weak w) = some o := by
    rw [hT.preference _ (by simp) (by simp), he.cases.2.1 _ (by simp), ho]
  have := State.indexOwner_of_reach hR.1 hR.2 hi hp
  show (f.pool.preference (.weak w)).bind f.pool.indices.indexOwner = some i
  rw [hp]
  exact this

/-- **`lock` on a handle that prefers `i`.** -/
theorem lock_preferred (hn : env.NoThrow) (hr : Reach (step cfg env) Any (init cfg heap) s)
    {w h : ℕ} {a : A} {x : WeakResource} {R : Result V A E} (hx : s.pool.weak w = some x)
    (hl : s.pool.lockable x = none) (hidx : s.index (.weak w) = some i)
    (hp : s.perform cfg env (.lock w h a) = some R) :
    R.session.index (.weak w) = some i ∧ s.Locks cfg env heap h i R := by
  obtain ⟨o, ho, hi⟩ := Option.bind_eq_some_iff.mp hidx
  obtain ⟨tidy, -⟩ := reached hr
  have hR₀ := reached_from hr (Reach.refl (P := Any))
  cases perform_spec hp with
  | @call _ h c o' f hc =>
    obtain ⟨f₀, hf₀, hpacks, -, hb⟩ := hR₀.begins tidy hc
    obtain ⟨hcw, rfl⟩ := hc.lock_eq
    cases hb with
    | new _ hh => simp [hh w hcw] at ho
    | @preferred w' p j hc' hpw hj _ hR hw =>
      subst hc'
      obtain rfl : w' = w := by simpa [Caller.handle] using hcw
      obtain rfl : o = p := by simpa [ho] using hpw
      obtain rfl : i = j := by simpa [hi] using hj
      have hlt := hR₀.owners.owned _ _ hi
      rcases hR.withPreference_of_noThrow hn hlt hw with ⟨t, rfl, hres, -, hl, -⟩ | ⟨hrent, hRd, hd⟩
      · have hfree : ¬ s.pool.packs.Rented (.preferred i) := by
          rw [← hpacks]
          exact hl.free
        have hinit : (s.pool.packs.pack (.preferred i)).initialized = true :=
          (issued hn hr i hlt).mpr ((hR₀.indexInv rfl (fetchAdds_le hr)).below i (.inr ⟨.inr o, hi⟩))
        have hinit' : (f₀.packs.pack (.preferred i)).initialized = true := by
          rwa [Frame.packs, hpacks]
        obtain ⟨n, b, v, v', hv, ha, hheap⟩ := hl.heap
        obtain rfl := hl.object
        refine ⟨index_lock hr hidx (step_of_perform hp rfl), .own hfree rfl ?_ ?_
          (leftIn hn hr hinit hfree) (?_ : env.onAcquire n b _ = .ok v') ?_⟩
        · exact denotes_finish (x := { pack := some (.preferred i), t := some (.ofPack (.preferred i) 0) })
            hres (by rw [hl.lent.rental, Function.update_self]) rfl
        · show f.packs.builds = _
          rw [hl.lent.builds, if_pos hinit', Frame.packs, hpacks]
        · rw [← ha, hv hinit', hf₀]
          rfl
        · show f.heap _ = v'
          rw [hheap, Function.update_self]
      · have hrent' : s.pool.packs.Rented (.preferred i) := by rwa [Frame.packs, hpacks] at hrent
        rcases noPreference_other (h := h) hn hRd hd hrent with ⟨rfl, t, ht, hne⟩ | ⟨rfl, hall, hq⟩
        · exact ⟨index_lock hr hidx (step_of_perform hp rfl), .another hrent' rfl ht hne⟩
        · rw [Frame.packs, hpacks] at hq
          exact ⟨index_blocked ho hi hc (hRd.noPreference_blocked hd), .waits hrent' rfl hall hq⟩
  | dangling hd =>
    obtain ⟨p, hp', hi'⟩ := hd
    rw [ho, Option.some.injEq] at hp'
    rw [← hp', hi] at hi'
    cases hi'
  | lockLive hx' _ hl' => 
    rw [hx, Option.some.injEq] at hx'
    rw [← hx', hl] at hl'
    cases hl'

/-- **`lock` on a handle without a preference**: the handle carries that of the result. -/
theorem lock_new {w h : ℕ} {a : A} {x : WeakResource} (tidy : s.pool.Tidy)
    (hx : s.pool.weak w = some x) (hl : s.pool.lockable x = none)
    (ho : s.pool.preference (.weak w) = none) (hs : s.step cfg env (.lock w h a) = some s') :
    s'.pool.preference (.weak w) = s'.pool.preference (.locked h) := by
  obtain ⟨R, hR, hs⟩ := step_spec hs
  cases hR with
  | call hc =>
    have hends := hc.ends tidy hs
    cases hc with
    | lockPreferred _ _ _ hp => simp [hp] at ho
    | lockNew _ hu =>
      obtain ⟨r, -, hr⟩ | hr := hends
      · rw [hr.preference, hr.preference, if_pos (.inr rfl), if_pos (.inl rfl)]
      · rw [hr.preference, hr.preference, ho, tidy.locked h hu]
  | dangling => cases hs
  | lockLive hx' _ hl' =>
    rw [hx, Option.some.injEq] at hx'
    rw [← hx', hl] at hl'
    cases hl'

/-! ### Sharing a rental -/

/-- No step assigns another handle to `w` or destroys it. -/
def KeepsHandle (w : ℕ) (_ : Session V) : Op V A → Prop
  | .assign w' _ | .dropWeak w' => w' ≠ w
  | _ => True

/-- `h'` is a new handle on object `t`, and nothing has changed but handles. -/
structure Repeats (s s' : Session V) (h' : ℕ) (t : Obj) : Prop where
  denotes : s'.Denotes h' t
  packs : s'.pool.packs = s.pool.packs
  fetchAdds : s'.pool.indices.fetchAdds = s.pool.indices.fetchAdds
  recycledIndices : s'.pool.indices.recycledIndices = s.pool.indices.recycledIndices
  indexOwner : s'.pool.indices.indexOwner = s.pool.indices.indexOwner

theorem repeats_setLocked {h' r : ℕ} {x : Rental} {t : Obj} (tidy : s.pool.Tidy)
    (hu : s.pool.Unused h') (hx : s.pool.packs.rental r = some x) (ht : x.t = some t)
    (o : Option ℕ) : s.Repeats (s.setPool (s.pool.setLocked (.locked h') o (some r))) h' t := by
  have hp : s.pool.indices.preference.ptr (.locked h') = none := tidy.locked h' hu
  have hI : s.pool.indices.setPreference (.locked h') o =
      { s.pool.indices with preference := s.pool.indices.preference.assign (.locked h') o } :=
    Indices.setPreference_eq _ _ _ (by simp [hp])
  refine ⟨⟨r, x, by simp [setPool], hx, ht⟩, rfl, ?_, ?_, ?_⟩ <;> simp [setPool, hI]

/-- `lock` and `acquire_if_locked` copy a handle whose rental is live. -/
theorem lock_live {w h' r : ℕ} (hR : Reached cfg env s₀ (alone s.pool .idle))
    (hw : s.pool.weak w = some ⟨some r, none⟩) (hr : ∃ v, s.pool.rsource.ptr v = some r)
    (hu : s.pool.Unused h') :
    (∀ a, s.step cfg env (.lock w h' a) = some
      (s.setPool (s.pool.setLocked (.locked h') (s.pool.preference (.weak w)) (some r)))) ∧
    s.step cfg env (.acquireIfLocked w h') = some
      (s.setPool (s.pool.setLocked (.locked h') (s.pool.preference (.weak w)) (some r))) := by
  have he : s.pool.rsource.expired r = false := SharedPtrs.not_expired_iff.mpr hr
  have hl := hR.lockable (x := ⟨some r, none⟩) rfl he
  refine ⟨fun a => ?_, ?_⟩
  · simp [step, perform, lock, hw, hu, hl, done, Result.after?]
  · have hf : (some r).filter (fun r => !s.pool.rsource.expired r) = some r := by
      simp [Option.filter, he]
    simp [step, perform, hw, hu, hf, done, Result.after?]

theorem repeats_clone {l h' r : ℕ} {x : Rental} {t : Obj} (tidy : s.pool.Tidy)
    (hl : s.pool.rsource.ptr (.locked l) = some r) (hu : s.pool.Unused h')
    (hx : s.pool.packs.rental r = some x) (ht : x.t = some t) :
    ∃ s', s.step cfg env (.clone l h' : Op V A) = some s' ∧ s.Repeats s' h' t := by
  refine ⟨_, ?_, repeats_setLocked tidy hu hx ht (s.pool.preference (.locked l))⟩
  simp [step, perform, hl, hu, done, Result.after?]

/-- `l.weak()` is locked and destroyed. -/
theorem repeats_weak {l w' h' r : ℕ} {a : A} {x : Rental} {t : Obj} (tidy : s.pool.Tidy)
    (hR : Reached cfg env s₀ (alone s.pool .idle)) (hl : s.pool.rsource.ptr (.locked l) = some r)
    (hw : s.pool.weak w' = none) (hu : s.pool.Unused h') (hx : s.pool.packs.rental r = some x)
    (ht : x.t = some t) :
    ∃ s', run (step cfg env) s [.weak l w', .lock w' h' a, .dropWeak w'] = some s' ∧
      s.Repeats s' h' t := by
  have hne : Var.locked l ≠ .locked h' := by
    intro e
    rw [e, hu] at hl
    cases hl
  let o := s.pool.preference (.locked l)
  let s₁ := s.setPool ((s.pool.setPreference (.weak w') o).setWeak w' (some ⟨some r, none⟩))
  have h₁ : s.step cfg env (.weak l w' : Op V A) = some s₁ := by
    simp [step, perform, hl, hw, done, Result.after?, s₁, o]
  let s₂ := s₁.setPool (s₁.pool.setLocked (.locked h') (s₁.pool.preference (.weak w')) (some r))
  have h₂ : s₁.step cfg env (.lock w' h' a) = some s₂ :=
    (lock_live (hR.step tidy h₁) (by simp [s₁, setPool]) ⟨_, hl⟩ hu).1 a
  let s₃ := s₂.setPool ((s₂.pool.setPreference (.weak w') none).setWeak w' none)
  have h₃ : s₂.step cfg env (.dropWeak w' : Op V A) = some s₃ := by
    simp [step, perform, done, Result.after?, s₁, s₂, s₃, setPool]
  -- no `index_owner` is destroyed on the way
  have e₁ : s₁.pool.indices = { s.pool.indices with
      preference := s.pool.indices.preference.assign (.weak w') o } :=
    Indices.setPreference_eq _ _ _ (by simp [show s.pool.indices.preference.ptr (.weak w') = none
      from tidy.weak w' hw])
  have hp₁ : s₁.pool.indices.preference.ptr (.locked h') = none := by
    rw [e₁]
    simpa using show s.pool.indices.preference.ptr (.locked h') = none from tidy.locked h' hu
  have e₂ : s₂.pool.indices = { s₁.pool.indices with
      preference := s₁.pool.indices.preference.assign (.locked h') (s₁.pool.preference (.weak w')) } :=
    Indices.setPreference_eq _ _ _ (by simp [hp₁])
  have e₃ : s₃.pool.indices = { s₂.pool.indices with
      preference := s₂.pool.indices.preference.assign (.weak w') none } := by
    refine Indices.setPreference_eq _ _ _ fun p hp => ⟨.locked l, by simp, ?_⟩
    have : o = some p := by simpa [e₂, e₁] using hp
    rw [e₂, SharedPtrs.ptr_assign_of_ne _ _ hne, e₁, SharedPtrs.ptr_assign_of_ne _ _ (by simp)]
    exact this
  refine ⟨s₃, by simp [run, h₁, h₂, h₃], ⟨r, x, ?_, hx, ht⟩, rfl, ?_, ?_, ?_⟩
  · simp [s₃, s₂, setPool]
  all_goals rw [e₃, e₂, e₁]

/-- While its rental has a handle, `w` stays on it. -/
theorem weak_kept {w r : ℕ} {s₁ s₂ : Session V}
    (hr : Reach (step cfg env) Any (init cfg heap) s₁)
    (hrun : Reach (step cfg env) (KeepsHandle w) s₁ s₂)
    (hlt : r < s₁.pool.packs.nextRental) (hw : s₁.pool.weak w = some ⟨some r, none⟩)
    (hp : ∃ v, s₂.pool.rsource.ptr v = some r) : s₂.pool.weak w = some ⟨some r, none⟩ := by
  induction hrun with
  | refl => exact hw
  | @tail s₂ s₃ op hrun hk hs ih =>
    have hrun' := hr.trans (hrun.mono fun _ _ _ => trivial)
    have hR₂ := reached_from hr hrun
    have hR₃ := reached_from hrun' (Reach.single (P := Any) trivial hs)
    have hlt' := Nat.lt_of_lt_of_le hlt (State.nextRental_of_reach hR₂.1 hR₂.2)
    obtain ⟨hp', -⟩ := State.rental_of_reach hR₃.1 hR₃.2 hp hlt'
    have hw' := ih hp'
    have tidy := (reached hrun').1
    obtain ⟨R, hR, hs⟩ := step_spec hs
    cases hR with
    | @call _ h c o f hc =>
      have hne : c.handle ≠ some w := by
        intro e
        have hl := hR₂.lockable (S := s₂.pool) (x := ⟨some r, none⟩) rfl (SharedPtrs.not_expired_iff.mpr hp')
        cases hc with
        | acquire => cases e
        | lockPreferred hx _ hn | lockNew hx _ hn =>
          obtain rfl := Option.some.inj e
          rw [hw', Option.some.injEq] at hx
          rw [← hx, hl] at hn
          cases hn
      obtain ⟨r', -, hr⟩ | hu := hc.ends tidy hs
      · rw [hr.weak, if_neg hne, hw']
      · rw [hu.weak, hw']
    | dangling | gone => cases hs
    | refuses | lockLive | acquireIfLocked | clone | write =>
      cases hs
      exact hw'
    | @acquireWeak w' hn | @weak _ w' _ _ hn =>
      cases hs
      have hne : w ≠ w' := by
        rintro rfl
        rw [hw'] at hn
        cases hn
      show Function.update _ _ _ w = _
      rw [Function.update_of_ne hne]
      exact hw'
    | @assign _ w' | @dropWeak w' =>
      cases hs
      have hne : w' ≠ w := hk
      show Function.update _ _ _ w = _
      rw [Function.update_of_ne hne.symm]
      exact hw'
    | dropLocked =>
      cases hs
      rw [dropLocked_pool]
      exact hw'

/-- After a `lock` that returns, the handle is on the rental of the result. -/
theorem weak_lock {w h r : ℕ} {a : A} (hr : Reach (step cfg env) Any (init cfg heap) s)
    (hs : s.step cfg env (.lock w h a) = some s') (hp : s'.pool.rsource.ptr (.locked h) = some r) :
    s'.pool.weak w = some ⟨some r, none⟩ := by
  have tidy := (reached hr).1
  obtain ⟨R, hR, hs'⟩ := step_spec hs
  cases hR with
  | call hc =>
    obtain ⟨hcw, rfl⟩ := hc.lock_eq
    obtain ⟨r', -, hr'⟩ | hu := hc.ends tidy hs'
    · rw [hr'.rsource, if_pos rfl] at hp
      rw [hr'.weak, if_pos hcw, hp]
    · have := hc.entered.1
      rw [hu.rsource, this] at hp
      cases hp
  | dangling => cases hs'
  | @lockLive _ _ r' _ x hx _ hl =>
    cases hs'
    obtain ⟨hxr, -⟩ := Option.filter_eq_some_iff.mp hl
    have hlk := tidy.locker w x hx
    obtain ⟨xr, xl⟩ := x
    simp only [done, setPool, Pool.setLocked_rsource, SharedPtrs.ptr_assign_self] at hp hxr hlk ⊢
    rw [Pool.setLocked_weak, hx, hxr, hlk, hp]

/-- **Affinity**, in every state that a sequential run reaches, of a `WeakResource` `w`.

1. `w.lock()` leaves the preference of `w` as it is, if there is one.
2. If `w` prefers `i` and its last rental has ended, `w.lock()` returns the object that
was built for pack `i`, as its last holder left it, if pack `i` is not rented; otherwise
it returns another object, or waits if overdraws are disabled and every pack in the queue
is rented. `w` keeps `i`.
3. If `w` has no preference and its last rental has ended, it has the preference of
`l = w.lock()` afterwards.
4. From `l = w.lock()` until the last handle on the rental of `l` is destroyed, `clone()` and
`weak().lock()` on a handle of the rental return a handle on the same object, and change
neither packs, nor queue, nor indices. So do `w.lock()` and `w.acquire_if_locked()` as long as no
other handle is assigned to `w`. -/
theorem affinity (hn : env.NoThrow) (hr : Reach (step cfg env) Any (init cfg heap) s) {w : ℕ} :
    (∀ h a i s', s.index (.weak w) = some i → s.step cfg env (.lock w h a) = some s' →
      s'.index (.weak w) = some i) ∧
    (∀ x h a i R, s.pool.weak w = some x → s.pool.lockable x = none →
      s.index (.weak w) = some i → s.perform cfg env (.lock w h a) = some R →
      R.session.index (.weak w) = some i ∧ s.Locks cfg env heap h i R) ∧
    (∀ x h a s', s.pool.weak w = some x → s.pool.lockable x = none →
      s.pool.preference (.weak w) = none → s.step cfg env (.lock w h a) = some s' →
      s'.pool.preference (.weak w) = s'.pool.preference (.locked h)) ∧
    ∀ h a s₁ s₂ r t, s.step cfg env (.lock w h a) = some s₁ →
      s₁.pool.rsource.ptr (.locked h) = some r → s₁.Denotes h t →
      Reach (step cfg env) Any s₁ s₂ → (∃ v, s₂.pool.rsource.ptr v = some r) →
      ∀ h', s₂.pool.Unused h' →
        (Reach (step cfg env) (KeepsHandle w) s₁ s₂ →
          (∀ b, ∃ s₃, s₂.step cfg env (.lock w h' b) = some s₃ ∧ s₂.Repeats s₃ h' t) ∧
          ∃ s₃, s₂.step cfg env (.acquireIfLocked w h') = some s₃ ∧ s₂.Repeats s₃ h' t) ∧
        ∀ l, s₂.pool.rsource.ptr (.locked l) = some r →
          (∃ s₃, s₂.step cfg env (.clone l h') = some s₃ ∧ s₂.Repeats s₃ h' t) ∧
          ∀ w' b, s₂.pool.weak w' = none →
            ∃ s₃, run (step cfg env) s₂ [.weak l w', .lock w' h' b, .dropWeak w'] = some s₃ ∧
              s₂.Repeats s₃ h' t := by
  refine ⟨fun h a i s' hi hs => index_lock hr hi hs,
    fun x h a i R hx hl hi hp => lock_preferred hn hr hx hl hi hp,
    fun x h a s' hx hl ho hs => lock_new (reached hr).1 hx hl ho hs, ?_⟩
  intro h a s₁ s₂ r t hs hp hd hrun hv h' hu
  have hr₁ : Reach (step cfg env) Any (init cfg heap) s₁ := .tail hr trivial hs
  have hr₂ := hr₁.trans hrun
  obtain ⟨tidy, hR⟩ := reached hr₂
  have hR₁ := reached_from hr₁ hrun
  obtain ⟨r', x, hp', hx, ht⟩ := hd
  obtain rfl : r = r' := by simpa [hp] using hp'
  have hlt : r < s₁.pool.packs.nextRental := by
    by_contra hle
    have := (reached hr₁).2.packInv.objects.fresh r (Nat.le_of_not_lt hle)
    exact absurd (hx.symm.trans this) (by simp)
  have hx₂ : s₂.pool.packs.rental r = some x :=
    (State.rental_of_reach hR₁.1 hR₁.2 hv hlt).2.trans hx
  refine ⟨fun hkeep => ?_, fun l hl =>
    ⟨repeats_clone tidy hl hu hx₂ ht, fun w' b hw' => repeats_weak tidy hR hl hw' hu hx₂ ht⟩⟩
  have hw := weak_kept hr₁ hkeep hlt (weak_lock hr hs hp) hv
  obtain ⟨hlock, hacq⟩ := lock_live hR hw hv hu
  exact ⟨fun b => ⟨_, hlock b, repeats_setLocked tidy hu hx₂ ht _⟩,
    ⟨_, hacq, repeats_setLocked tidy hu hx₂ ht _⟩⟩

/-- A weak handle outlives the `LockedResource` it was made from. -/
def outlive : List (Op Unit Unit) := [.acquire 0 (), .weak 0 0, .dropLocked 0]

theorem affinity_outlive : ∃ s s₁ : Session Unit,
    run (step twoPreferred quiet) (init twoPreferred fun _ => ()) outlive = some s ∧
      s.step twoPreferred quiet (.lock 0 1 ()) = some s₁ ∧ s₁.index (.weak 0) = some 0 ∧
      ∃ s₂, s₁.step twoPreferred quiet (.lock 0 2 ()) = some s₂ ∧
        s₁.Repeats s₂ 2 (.ofPack (.preferred 0) 0) := by
  refine ⟨_, _, rfl, rfl, ?_⟩
  have h := @affinity Unit Unit Unit twoPreferred quiet (fun _ => ()) _ quiet_noThrow
    (Reach.of_run outlive (fun _ _ _ => trivial) rfl) 0
  refine ⟨h.1 1 () 0 _ rfl rfl, ?_⟩
  exact (h.2.2.2 1 () _ _ 1 (.ofPack (.preferred 0) 0) rfl rfl ⟨_, _, rfl, rfl, rfl⟩ .refl
    ⟨.locked 1, rfl⟩ 2 rfl).1 .refl |>.1 ()

/-- `w` is not destroyed. -/
def KeepsAlive (w : ℕ) (_ : Session V) (op : Op V A) : Prop := op ≠ .dropWeak w

/-- Another `LockedResource` is assigned to the handle. -/
def reassign : List (Op Unit Unit) := [.acquire 1 (), .assign 0 1]

/-- **Once another handle is assigned to `w`, `w.lock()` returns another object**, although
the rental of the first `w.lock()` goes on. -/
theorem lock_after_assign : ¬ ∀ (cfg : Config) (env : Env Unit Unit Unit) (heap : Obj → Unit)
    (s s₁ s₂ s₃ : Session Unit) (w h r h' : ℕ) (t : Obj), env.NoThrow →
      Reach (step cfg env) Any (init cfg heap) s → s.step cfg env (.lock w h ()) = some s₁ →
      s₁.pool.rsource.ptr (.locked h) = some r → s₁.Denotes h t →
      Reach (step cfg env) (KeepsAlive w) s₁ s₂ → (∃ v, s₂.pool.rsource.ptr v = some r) →
      s₂.step cfg env (.lock w h' ()) = some s₃ → s₃.Denotes h' t := by
  intro h
  obtain ⟨r, x, hr, hx, ht⟩ := h twoPreferred quiet (fun _ => ()) _ _ _ _ 0 0 0 2
    (.ofPack (.preferred 0) 0) quiet_noThrow
    (Reach.of_run [.acquireWeak 0] (fun _ _ _ => trivial) rfl) rfl rfl ⟨_, _, rfl, rfl, rfl⟩
    (Reach.of_run reassign (by simp [reassign, KeepsAlive]) rfl) ⟨.locked 0, rfl⟩ rfl
  obtain rfl : 1 = r := Option.some.inj hr
  obtain rfl := Option.some.inj hx
  cases ht

end Session

end MutilsTasks.ResourcePool
