import MutilsTasks.ResourcePool.SequentialNoThrow

/-!
# When a call overdraws

A call overdraws, or waits, when it has found nothing to dequeue. Every spare is then
rented, and so is every preferred pack that has been built. In a sequential run the
packs that have been built are those whose index has been issued (`Issued`), so the
pool is full exactly if every index has been issued.

A call that goes to the queue because the pack it prefers is rented does not look for
an index that has not been issued. `overdraws_when_full` says when that goes wrong.
-/

namespace MutilsTasks.ResourcePool

open Packs Machine

variable {V A E : Type} {cfg : Config} {env : Env V A E}

/-! ### Issued indices -/

/-- **The packs that have been built are those whose index has been issued.** -/
def Pool.Issued (cfg : Config) (S : Pool) : Prop :=
  ∀ i < cfg.maxResources,
    (S.packs.pack (.preferred i)).initialized = true ↔ i < S.indices.fetchAdds

namespace Frame

variable {f g k : Frame V A E} {p : PackId} {t : Obj}

theorem Lends.initialized (h : f.Lends env p t g) (q : PackId) :
    (g.packs.pack q).initialized = true ↔ q = p ∨ (f.packs.pack q).initialized = true := by
  rw [h.lent.pack, Function.update_apply]
  split <;> simp [*]

end Frame

namespace Reached

variable {s₀ : State} {d : Caller} {f g : Frame V A E} {i : ℕ} {S : Pool} {c : Pc}

/-- A pack in the queue has been built. -/
theorem initialized_of_mem (h : Reached cfg env s₀ (alone S c)) (hc : c.hold = .nothing)
    (hi : .preferred i ∈ S.packs.freeResources) :
    (S.packs.pack (.preferred i)).initialized = true :=
  ((h.packInv_nothing hc).entries.known i (.inl (.inl hi))).2

theorem initialized_noPreference (hn : env.NoThrow)
    (h : Reached cfg env s₀ (alone f.pool (.dequeue d false)))
    (hd : f.NoPreference cfg env (.returned ()) g) (j : ℕ) :
    (g.packs.pack (.preferred j)).initialized = (f.packs.pack (.preferred j)).initialized := by
  rcases h.noPreference_of_noThrow hn hd with ⟨k, p, t, -, -, hp, hk, hl, -⟩ |
    ⟨k, -, hk, -, -, -, ho | ⟨-, -, hg, -⟩⟩
  · have hi : (.preferred j : PackId) = p → (f.packs.pack (.preferred j)).initialized = true :=
      fun e => h.initialized_of_mem rfl (e ▸ hp)
    rw [Bool.eq_iff_iff, hl.initialized, hk.pack]
    exact ⟨fun h => h.elim hi id, .inr⟩
  · cases ho
  · rw [hg, ← hk.pack]
    rfl

theorem initialized_withPreference (hn : env.NoThrow)
    (h : Reached cfg env s₀ (alone f.pool (.borrowPreference d i))) (hi : i < cfg.maxResources)
    (hw : f.WithPreference cfg env i (.returned ()) g) (j : ℕ) :
    (g.packs.pack (.preferred j)).initialized = true ↔
      j = i ∨ (f.packs.pack (.preferred j)).initialized = true := by
  rcases h.withPreference_of_noThrow hn hi hw with ⟨t, -, -, -, hl, -⟩ | ⟨hr, hR, hd⟩
  · rw [hl.initialized, PackId.preferred.injEq]
  · rw [hR.initialized_noPreference hn hd]
    have hb : (f.packs.pack (.preferred i)).initialized = true := by
      by_contra hb
      exact (h.packInv.objects.unbuilt _ (Bool.not_eq_true _ ▸ hb)).2.2 hr
    refine ⟨.inr, ?_⟩
    rintro (rfl | h)
    · exact hb
    · exact h

theorem issued_newPreference (hn : env.NoThrow)
    (h : Reached cfg env s₀ (alone f.pool (.readMaxIndex d)))
    (hm : f.pool.indices.fetchAdds ≤ cfg.maxResources) (hI : f.pool.Issued cfg)
    (hw : f.NewPreference cfg env (.returned ()) g) : g.pool.Issued cfg := by
  intro j hj
  rcases h.newPreference_cases hm hw with ⟨-, hR, hd⟩ | ⟨i, k, hf, ht, hi, hR, hw⟩
  · rw [hd.fetchAdds, ← hI j hj]
    exact Bool.eq_iff_iff.mp (hR.initialized_noPreference hn hd j)
  · have ht := Frame.takesIndex_spec ht
    have hk : k.packs = f.packs := by rw [Frame.packs, ht.pool.1]; rfl
    have hg := hw.fetchAdds
    simp only [Frame.setIndices, Indices.makeOwner_fetchAdds] at hg
    refine (hR.initialized_withPreference hn hi hw j).trans ?_
    rw [hg]
    show j = i ∨ (k.packs.pack (.preferred j)).initialized = true ↔ _
    rw [hk]
    refine (or_congr_right (hI j hj)).trans ?_
    rcases (h.lt_of_takesIndex hm hf ht).2 with ⟨hi', he⟩ | ⟨hi', he⟩ <;> rw [he] <;> omega

end Reached

namespace Session

variable {heap : Obj → V} {s s' : Session V} {op : Op V A} {P : Session V → Op V A → Prop}

theorem destroyRental_initialized (P : Packs) (r : ℕ) (x : Rental) (p : PackId) :
    ((P.destroyRental r x).pack p).initialized = (P.pack p).initialized := by
  cases hp : x.pack with
  | none => simp [destroyRental_pack, hp]
  | some q =>
    simp only [destroyRental_pack, hp, Function.update_apply]
    split <;> simp [*]

/-- Destroying a `LockedResource` initializes nothing. -/
theorem dropLocked_initialized (s : Session V) (h r : ℕ) (p : PackId) :
    ((s.dropLocked env h r).pool.packs.pack p).initialized =
      (s.pool.packs.pack p).initialized := by
  by_cases he : (s.pool.rsource.assign (.locked h) none).expired r = true <;>
    cases hx : s.pool.packs.rental r <;>
    simp [dropLocked, he, hx, setPool, destroyRental_initialized]

/-- **Every operation keeps it.** -/
theorem issued_step (hn : env.NoThrow) (tidy : s.pool.Tidy)
    (hr : Reached cfg env (State.init cfg) (alone s.pool .idle))
    (hm : s.pool.indices.fetchAdds ≤ cfg.maxResources) (hI : s.pool.Issued cfg)
    (hs : s.step cfg env op = some s') : s'.pool.Issued cfg := by
  obtain ⟨R, hR, hs⟩ := step_spec hs
  cases hR with
  | @call _ h c o f hc =>
    obtain ⟨f₀, -, hp, -, hb⟩ := hr.begins tidy hc
    obtain u | x | _ | _ := o
    · obtain ⟨hp', hf', -⟩ := finish_eq hs
      have hI' : f.pool.Issued cfg := by
        cases hb with
        | new hi _ hR hw =>
          refine hR.issued_newPreference hn (by rwa [hi]) (fun j hj => ?_) hw
          rw [hp, hi]
          exact hI j hj
        | @preferred w p i _ _ ho hi hR hw =>
          have hlt := hr.owners.owned p i ho
          have hlt' := (hr.indexInv rfl hm).below i (.inr ⟨.inr p, ho⟩)
          intro j hj
          refine (hR.initialized_withPreference hn hlt hw j).trans ?_
          rw [hw.fetchAdds, hi, Indices.setPreference_fetchAdds, ← hI j hj, Frame.packs, hp]
          refine ⟨fun h => h.elim (fun e => ?_) id, .inr⟩
          exact (hI j hj).mpr (e ▸ hlt')
      intro j hj
      rw [hp', hf']
      exact hI' j hj
    · exact absurd rfl (hb.ne_threw hn hr hm x)
    · cases hs
    · cases hs
  | dangling | gone => cases hs
  | refuses | acquireWeak | write =>
    cases hs
    exact hI
  | lockLive | acquireIfLocked | clone | weak | assign | dropWeak =>
    cases hs
    intro j hj
    simpa [done, setPool] using hI j hj
  | dropLocked =>
    cases hs
    intro j hj
    rw [dropLocked_initialized, dropLocked_pool]
    simpa using hI j hj

/-- **In a sequential run the packs that have been built are the issued ones.** -/
theorem issued (hn : env.NoThrow) (h : Reach (step cfg env) P (init cfg heap) s) :
    s.pool.Issued cfg := by
  induction h with
  | refl =>
    intro i _
    simp [init, Pool.init, Packs.init, Indices.init]
  | tail hr _ hs ih =>
    exact issued_step hn (reached hr).1 (reached hr).2 (fetchAdds_le hr) ih hs

end Session

/-! ### Overdrawing -/

/-- Every pack is rented. -/
def Packs.Full (cfg : Config) (P : Packs) : Prop := ∀ p, cfg.Has p → P.Rented p

namespace Reached

variable {s₀ : State} {c : Pc} {d : Caller} {S : Pool} {f g : Frame V A E} {o : Outcome E Unit}
  {n i : ℕ}

/-- When the queue is empty, all packs are rented but those that have not been built. -/
theorem full_iff (hn : env.NoThrow) (h : Reached cfg env s₀ (alone S c)) (hc : c.hold = .nothing)
    (hf : S.packs.freeResources = [])
    (hI : ∀ i < cfg.maxResources, (S.packs.pack (.preferred i)).initialized = true ↔ i < n) :
    S.packs.Full cfg ↔ cfg.maxResources ≤ n := by
  constructor
  · intro hF
    by_contra hlt
    have hr := hF (.preferred n) (Nat.lt_of_not_le hlt)
    have hi := (hI n (Nat.lt_of_not_le hlt)).not.mpr (Nat.lt_irrefl n)
    exact (h.packInv.objects.unbuilt _ (Bool.not_eq_true _ ▸ hi)).2.2 hr
  · intro hle p hp
    by_contra hr
    cases p with
    | spare j => simpa [hf] using h.spare_mem hn hc hp hr
    | preferred i =>
      have hi := (hI i hp).mpr (Nat.lt_of_lt_of_le hp hle)
      simpa [hf] using h.preferred_mem hn hc hi hr

/-- `acquire_no_preference` overdraws if every pack in the queue is rented. -/
theorem overdraws_noPreference (hn : env.NoThrow)
    (h : Reached cfg env s₀ (alone f.pool (.dequeue d false)))
    (hd : f.NoPreference cfg env o g) (hf : overdraws f.log = [])
    (hI : ∀ i < cfg.maxResources, (f.packs.pack (.preferred i)).initialized = true ↔ i < n) :
    (∀ P ∈ overdraws g.log, P.Full cfg) ↔
      cfg.maxResources ≤ n ∨ ∃ p ∈ f.packs.freeResources, ¬ f.packs.Rented p := by
  rcases h.noPreference_of_noThrow hn hd with ⟨k, p, t, -, -, hp, hk, hl, hlog⟩ |
    ⟨k, he, hk, hall, hR, hlog, -⟩
  · have hr : ¬ f.packs.Rented p := fun hr => hl.free ((hk.rented p).mpr hr)
    simpa [hlog, hf] using .inr ⟨p, hp, hr⟩
  · have hF : k.packs.Full cfg ↔ cfg.maxResources ≤ n :=
      hR.full_iff hn rfl he (by rwa [← Frame.packs, hk.pack])
    rw [hlog, hf, List.nil_append, List.forall_mem_singleton, hF]
    refine ⟨.inl, ?_⟩
    rintro (h | ⟨p, hp, hr⟩)
    · exact h
    · exact absurd (hall p hp) hr

/-- `acquire_with_preference` does not overdraw if its pack is not rented. -/
theorem overdraws_withPreference (hn : env.NoThrow)
    (h : Reached cfg env s₀ (alone f.pool (.borrowPreference d i))) (hi : i < cfg.maxResources)
    (hw : f.WithPreference cfg env i o g) (hf : overdraws f.log = [])
    (hI : ∀ i < cfg.maxResources, (f.packs.pack (.preferred i)).initialized = true ↔ i < n) :
    (∀ P ∈ overdraws g.log, P.Full cfg) ↔ cfg.maxResources ≤ n ∨
      (∃ p ∈ f.packs.freeResources, ¬ f.packs.Rented p) ∨ ¬ f.packs.Rented (.preferred i) := by
  rcases h.withPreference_of_noThrow hn hi hw with ⟨t, -, -, -, hl, hlog⟩ | ⟨hr, hR, hd⟩
  · simp [hlog, hf, hl.free]
  · simpa [hr] using hR.overdraws_noPreference hn hd hf hI

end Reached

namespace Session

/-- The index that `acquire_new_preference` takes. -/
def newIndex (cfg : Config) (env : Env V A E) (s : Session V) : Option ℕ :=
  if s.pool.indices.preferredFull cfg then none
  else some ((choose (env.pick s.calls) s.pool.indices.recycledIndices).getD
    s.pool.indices.currentMaxIndex)

/-- The index of the preferred pack that the call tries first. -/
def prefers (cfg : Config) (env : Env V A E) (s : Session V) : Op V A → Option ℕ
  | .acquire _ _ => s.newIndex cfg env
  | .lock w _ _ =>
    match s.pool.preference (.weak w) with
    | some p => s.pool.indices.indexOwner p
    | none => s.newIndex cfg env
  | _ => none

/-- The operation is `acquire`, or `lock` on a handle whose rental has ended. -/
def AsksPool (s : Session V) : Op V A → Prop
  | .acquire _ _ => True
  | .lock w _ _ => ∃ x, s.pool.weak w = some x ∧ s.pool.lockable x = none
  | _ => False

theorem Calls.asksPool {s : Session V} {op : Op V A} {h : ℕ} {c : Caller} {o : Outcome E Unit}
    {f : Frame V A E} (hc : s.Calls cfg env op h c o f) : s.AsksPool op := by
  cases hc with
  | acquire => trivial
  | lockPreferred hx _ hl | lockNew hx _ hl => exact ⟨_, hx, hl⟩

/-- **It is served, or rightly not**: every index has been issued, or a pack in the queue
is not rented, or the one it tries first is not. -/
def Served (cfg : Config) (env : Env V A E) (s : Session V) (op : Op V A) : Prop :=
  cfg.maxResources ≤ s.pool.indices.currentMaxIndex ∨
    (∃ p ∈ s.pool.packs.freeResources, ¬ s.pool.packs.Rented p) ∨
    ∃ i, s.prefers cfg env op = some i ∧ ¬ s.pool.packs.Rented (.preferred i)

variable {heap : Obj → V} {s : Session V} {op : Op V A} {R : Result V A E}

theorem newIndex_of_takeIndex {f k : Frame V A E} {i : ℕ} (hf : f.toSession = s.setPool f.pool)
    (hi : f.pool.indices = s.pool.indices) (hp : f.pool.indices.preferredFull cfg = false)
    (ht : f.takeIndex env = (i, k)) : s.newIndex cfg env = some i := by
  have hc : f.calls = s.calls := by rw [hf]; rfl
  rw [Frame.takeIndex, hc, hi] at ht
  rw [newIndex, ← hi, hp, hi]
  cases hch : choose (env.pick s.calls) s.pool.indices.recycledIndices <;>
    simp only [hch, Prod.mk.injEq] at ht <;> simp [ht.1]

theorem prefers_of_new {h : ℕ} {c : Caller} {o : Outcome E Unit} {f : Frame V A E}
    (hc : s.Calls cfg env op h c o f)
    (hw : ∀ w, c.handle = some w → s.pool.preference (.weak w) = none) :
    s.prefers cfg env op = s.newIndex cfg env := by
  cases hc with
  | acquire => rfl
  | lockPreferred _ _ _ hp =>
    rw [hw _ rfl] at hp
    cases hp
  | lockNew _ _ _ hp => simp [prefers, hp]

theorem prefers_of_preferred {h w p : ℕ} {o : Outcome E Unit} {f : Frame V A E}
    (hc : s.Calls cfg env op h (.lockPreferred w) o f) (hp : s.pool.preference (.weak w) = some p) :
    s.prefers cfg env op = s.pool.indices.indexOwner p := by
  cases hc with
  | lockPreferred => simp [prefers, hp]

theorem finish_log (h : ℕ) (c : Caller) (o : Outcome E Unit) (f : Frame V A E) :
    (finish h c (o, f)).log = f.log := by
  obtain u | x | _ | _ := o <;> rfl

/-- **A call overdraws, or waits, only when the pool is full — exactly if** every index
has been issued, or the queue has a pack that is not rented, or the preferred pack that
the call tries first is not rented. In every other state some preferred pack has never
been built, and the call overdraws all the same. -/
theorem overdraws_when_full (hn : env.NoThrow)
    (h : Reach (step cfg env) Any (init cfg heap) s) (hp : s.perform cfg env op = some R) :
    (∀ P ∈ overdraws R.log, P.Full cfg) ↔ (s.AsksPool op → s.Served cfg env op) := by
  obtain ⟨tidy, hr⟩ := reached h
  have hm := fetchAdds_le h
  have hlt := cfg.maxResources_lt
  have hI := issued hn h
  have hc : s.pool.indices.currentMaxIndex = s.pool.indices.fetchAdds :=
    Nat.mod_eq_of_lt (by omega)
  cases perform_spec hp with
  | @call op h c o f hcall =>
    obtain ⟨f₀, hf₀, hpacks, hlog, hb⟩ := hr.begins tidy hcall
    have hl₀ : overdraws f₀.log = [] := by rw [hlog]; rfl
    have hI₀ : ∀ i < cfg.maxResources, (f₀.packs.pack (.preferred i)).initialized = true ↔
        i < s.pool.indices.fetchAdds := by rwa [Frame.packs, hpacks]
    have hask := hcall.asksPool
    rw [finish_log, Served, hc]
    refine Iff.trans ?_ ⟨fun h _ => h, fun h => h hask⟩
    cases hb with
    | new hi hh hR hw =>
      rw [prefers_of_new hcall hh]
      rcases hR.newPreference_cases (by rwa [hi]) hw with
        ⟨hfull, hR, hd⟩ | ⟨i, k, hfull, ht, hlt, hR, hw⟩
      · rw [hR.overdraws_noPreference hn hd hl₀ hI₀, newIndex, ← hi, if_pos hfull, Frame.packs, hpacks]
        simp
      · have ht' := Frame.takesIndex_spec ht
        have hk : k.packs = s.pool.packs := by
          rw [Frame.packs, ht'.pool.1]
          exact hpacks
        have hkl : overdraws k.log = [] := by rw [ht'.log, hl₀]
        have hkI : ∀ i < cfg.maxResources,
            (k.packs.pack (.preferred i)).initialized = true ↔ i < s.pool.indices.fetchAdds := by
          rwa [hk]
        have key := hR.overdraws_withPreference hn hlt hw hkl hkI
        rw [Frame.setIndices_packs, hk] at key
        rw [key, newIndex_of_takeIndex hf₀ hi hfull ht]
        simp
    | @preferred w p i hcw hpw hi hI hR hw =>
      subst hcw
      rw [hR.overdraws_withPreference hn (hr.owners.owned p i hi) hw hl₀ hI₀,
        prefers_of_preferred hcall hpw, hi, Frame.packs, hpacks]
      simp
  | @dangling w h a hd =>
    obtain ⟨p, hp, hi⟩ := hd
    obtain ⟨i, hi'⟩ := hr.owners.live _ _ hp
    exact absurd (hi.symm.trans hi') (by simp)
  | lockLive hx _ hl => simp [overdraws, done, AsksPool, hx, hl]
  | _ => simp [overdraws, done, AsksPool]

/-- Two preferred packs and no spare. -/
def twoPreferred : Config := ⟨2, 0, true, two_lt_maxSize⟩

/-- Two weak handles on one `LockedResource` outlive it, and the first one is locked. -/
def share : List (Op Unit Unit) :=
  [.acquire 0 (), .weak 0 0, .weak 0 1, .dropLocked 0, .lock 0 1 ()]

theorem overdraws_when_full_share : ∃ (s : Session Unit) (R : Result Unit Unit Unit),
    run (step twoPreferred quiet) (init twoPreferred fun _ => ()) share = some s ∧
      s.perform twoPreferred quiet (.lock 1 2 ()) = some R ∧
      ((∀ P ∈ overdraws R.log, P.Full twoPreferred) ↔
        (s.AsksPool (.lock 1 2 () : Op Unit Unit) → s.Served twoPreferred quiet (.lock 1 2 ()))) := by
  refine ⟨_, _, rfl, rfl, ?_⟩
  exact @overdraws_when_full Unit Unit Unit twoPreferred quiet (fun _ => ()) _ _ _ quiet_noThrow
    (Reach.of_run share (fun _ _ _ => trivial) rfl) rfl

/-- The rentals: the first of pack `0`, in its three states, and the second. -/
def rentedOnce : ℕ → Option Rental :=
  let first : Rental := ⟨some (.preferred 0), some (.ofPack (.preferred 0) 0), false⟩
  let made := Function.update (fun _ => none) 0 (some first)
  let dying := Function.update made 0 (some { first with deleted := true })
  let dead := Function.update dying 0 (some { first with deleted := true, t := none })
  Function.update dead 1 (some first)

/-- **A call overdraws although a preferred pack has never been built**: the second weak
handle finds the pack it prefers rented, and the queue's only entry is that pack's. -/
theorem overdraws_when_not_full : ¬ ∀ (cfg : Config) (env : Env Unit Unit Unit)
    (heap : Obj → Unit) (s : Session Unit) (op : Op Unit Unit) (R : Result Unit Unit Unit),
    env.NoThrow → Reach (step cfg env) Any (init cfg heap) s → s.perform cfg env op = some R →
      ∀ P ∈ overdraws R.log, P.Full cfg := by
  intro h
  obtain ⟨P, hP, hr⟩ : ∃ P : Packs, P.Full twoPreferred ∧ P.rental = rentedOnce :=
    ⟨_, @h twoPreferred quiet (fun _ => ()) _ (.lock 1 2 ()) _ quiet_noThrow
      (Reach.of_run share (fun _ _ _ => trivial) rfl) rfl _ (List.mem_singleton.mpr rfl), rfl⟩
  obtain ⟨r, x, hx, hp, -⟩ := hP (.preferred 1) (by decide)
  simp only [hr, rentedOnce, Function.update_apply] at hx
  grind

end Session
end MutilsTasks.ResourcePool
