import MutilsTasks.ResourcePool.SequentialRefines

/-!
# Sequential calls without exceptions

What the functions do when `builder` and `onAcquire` return, in states that the
machine reaches: a `borrow` lends the object exactly if the pack is not rented, so
the loop of `acquire_no_preference` drops the entries of rented packs until it finds
another, and `acquire_with_preference` falls back exactly if its pack is rented.
-/

namespace MutilsTasks.ResourcePool

open Packs Machine

variable {V A E : Type} {cfg : Config} {env : Env V A E}

/-- The packs, the rentals and the objects are the same. -/
structure Session.Alike (s k : Session V) : Prop where
  pack : k.pool.packs.pack = s.pool.packs.pack
  rental : k.pool.packs.rental = s.pool.packs.rental
  nextRental : k.pool.packs.nextRental = s.pool.packs.nextRental
  builds : k.pool.packs.builds = s.pool.packs.builds
  heap : k.heap = s.heap

theorem Session.Alike.refl (s : Session V) : s.Alike s := ⟨rfl, rfl, rfl, rfl, rfl⟩

theorem Session.Alike.trans {s k l : Session V} (h : s.Alike k) (h' : k.Alike l) : s.Alike l :=
  ⟨h'.pack.trans h.pack, h'.rental.trans h.rental, h'.nextRental.trans h.nextRental,
    h'.builds.trans h.builds, h'.heap.trans h.heap⟩

theorem Session.Alike.rented {s k : Session V} (h : s.Alike k) (p : PackId) :
    k.pool.packs.Rented p ↔ s.pool.packs.Rented p := by
  simp [Packs.Rented, Packs.Rents, h.rental]

namespace Frame

/-- The call lends object `t` of pack `p`, on which `onAcquire` has been called. -/
structure Lends (env : Env V A E) (f : Frame V A E) (p : PackId) (t : Obj) (g : Frame V A E) :
    Prop where
  free : ¬ f.packs.Rented p
  object : t = .ofPack p 0
  lent : f.packs.Lent p t g.packs
  heap : ∃ n a v v', ((f.packs.pack p).initialized = true → v = f.heap t) ∧
    env.onAcquire n a v = .ok v' ∧ g.heap = Function.update f.heap t v'

/-- Entries of the queue have been dropped, and the containers asked. -/
structure Drained (f g : Frame V A E) : Prop where
  alike : f.Alike g.toSession
  overdraws : overdraws g.log = overdraws f.log

variable {f g k : Frame V A E} {p : PackId}

theorem Drained.refl (f : Frame V A E) : f.Drained f := ⟨.refl _, rfl⟩

theorem Drained.trans (h : f.Drained g) (h' : g.Drained k) : f.Drained k :=
  ⟨h.alike.trans h'.alike, h'.overdraws.trans h.overdraws⟩

theorem drained_take (f : Frame V A E) (p : PackId) : f.Drained (f.take p) := by
  cases p <;> exact ⟨⟨rfl, rfl, rfl, rfl, rfl⟩, rfl⟩

theorem Drained.rented (h : f.Drained g) (p : PackId) : g.packs.Rented p ↔ f.packs.Rented p :=
  h.alike.rented p

theorem Drained.nextRental (h : f.Drained g) : g.packs.nextRental = f.packs.nextRental :=
  h.alike.nextRental

theorem Drained.pack (h : f.Drained g) : g.packs.pack = f.packs.pack := h.alike.pack

end Frame

namespace Reached

variable {s₀ : State} {c : Pc} {d : Caller} {p : PackId} {f g : Frame V A E}

/-- **`borrow` lends the object exactly if the pack is not rented.** -/
theorem borrow_of_noThrow (hn : env.NoThrow) (h : Reached cfg env s₀ (alone f.pool c))
    (hp : (∃ i, p = .preferred i) ∨ c.hold = .borrowing p) {o : Outcome E ℕ}
    (hb : f.Borrows env p o g) :
    (o = .threw .resourceInvalid ∧ g = f ∧ f.packs.Rented p) ∨
      ∃ t, o = .returned f.packs.nextRental ∧ f.Lends env p t g ∧ overdraws g.log = overdraws f.log := by
  cases hb with
  | builder _ hx => exact absurd hx (hn.builder _ _ _)
  | hook _ _ hx => exact absurd hx (hn.onAcquire _ _ _ _)
  | @lent t Q g n a v v' _ hl hv ha hh hg hA =>
    have hQ : g.packs = Q := by rw [Frame.packs, hg]
    exact .inr ⟨t, rfl, ⟨h.packInv.objects.not_rented_of_lent hl, h.packInv.objects.lent_eq hl, hQ ▸ hl,
      n, a, v, v', hv, ha, hh⟩,
      hA.overdraws⟩
  | invalid hi =>
    obtain ⟨hb, -⟩ | ⟨-, -, hi, hr⟩ := borrow_cases hi
    · cases hb
    · exact .inl ⟨rfl, rfl, h.rented hn hi hr⟩
  | asserts ha =>
    refine absurd rfl (State.borrow_ne_asserts h.packInv (h.lost hn p) ?_ ha)
    exact hp.imp_right fun hc => ⟨0, hc⟩

/-- **The loop drops entries of rented packs**, until it finds a pack that is not. -/
theorem dequeues_of_noThrow (hn : env.NoThrow)
    (h : Reached cfg env s₀ (alone f.pool (.dequeue d false))) {o : Outcome E (Option ℕ)}
    (hd : Frame.Dequeues env f o g) :
    (o = .returned none ∧ g.packs.freeResources = [] ∧ f.Drained g ∧
      ∀ p ∈ f.packs.freeResources, f.packs.Rented p) ∨
    ∃ k p t, o = .returned (some f.packs.nextRental) ∧ p ∈ f.packs.freeResources ∧ f.Drained k ∧
      k.Lends env p t g ∧ overdraws g.log = overdraws f.log := by
  induction hd with
  | empty hf => exact .inl ⟨rfl, hf, .refl _, by simp [hf]⟩
  | @stale f g k p o hp hb _ ih =>
    have hB := h.take hp
    have hD := Frame.drained_take f p
    obtain ⟨-, rfl, hr⟩ | ⟨t, ho, -⟩ := hB.borrow_of_noThrow hn (.inr rfl) hb
    · rcases ih (hB.borrow hb) with ⟨ho, hg, hk, hall⟩ | ⟨k', p', t, ho, hp', hk, hl, hlog⟩
      · refine .inl ⟨ho, hg, hD.trans hk, fun q hq => ?_⟩
        by_cases e : q = p
        · rw [e, ← hD.rented]
          exact hr
        · rw [← hD.rented]
          exact hall q (by rw [Frame.take_freeResources]; exact (List.mem_erase_of_ne e).mpr hq)
      · refine .inr ⟨k', p', t, ?_, ?_, hD.trans hk, hl, hlog.trans hD.overdraws⟩
        · rw [ho, hD.nextRental]
        · rw [Frame.take_freeResources] at hp'
          exact List.mem_of_mem_erase hp'
    · cases ho
  | @lent f g p r hp hb =>
    have hD := Frame.drained_take f p
    obtain ⟨ho, -⟩ | ⟨t, ho, hl, hlog⟩ := (h.take hp).borrow_of_noThrow hn (.inr rfl) hb
    · cases ho
    · cases ho
      exact .inr ⟨f.take p, p, t, by rw [hD.nextRental], hp, hD, hl, hlog.trans hD.overdraws⟩
  | threw hp hb | aborted hp hb =>
    obtain ⟨ho, -⟩ | ⟨t, ho, -⟩ := (h.take hp).borrow_of_noThrow hn (.inr rfl) hb <;> cases ho

/-- **`acquire_no_preference`** finds a pack in the queue that is not rented, or every
pack in it is, and it overdraws or waits. -/
theorem noPreference_of_noThrow (hn : env.NoThrow)
    (h : Reached cfg env s₀ (alone f.pool (.dequeue d false))) {o : Outcome E Unit}
    (hd : f.NoPreference cfg env o g) :
    (∃ k p t, o = .returned () ∧ g.pool.rsource.ptr (.result 0) = some f.packs.nextRental ∧
      p ∈ f.packs.freeResources ∧ f.Drained k ∧ k.Lends env p t g ∧
      overdraws g.log = overdraws f.log) ∨
    ∃ k, k.packs.freeResources = [] ∧ f.Drained k ∧ (∀ p ∈ f.packs.freeResources, f.packs.Rented p) ∧
      Reached cfg env s₀ (alone k.pool (.dequeue d false)) ∧
      overdraws g.log = overdraws f.log ++ [k.packs] ∧
      (o = .blocked ∨ o = .returned () ∧
        g.pool.rsource.ptr (.result 0) = some f.packs.nextRental ∧ g.packs = k.packs.overdraw ∧
        ∃ v, g.heap = Function.update f.heap (.ofOverdrawn f.packs.nextRental) v) := by
  have key : ∀ k, overdraws (k : Frame V A E).overdrawing.log = overdraws k.log ++ [k.packs] := by
    intro k
    rw [Frame.overdrawing, overdraws_append]
    rfl
  cases hd with
  | @lent r g hd =>
    obtain ⟨ho, -⟩ | ⟨k, p, t, ho, hp, hk, hl, hlog⟩ := h.dequeues_of_noThrow hn hd
    · cases ho
    · cases ho
      exact .inl ⟨k, p, t, rfl, by simp [Frame.returnLocked, Frame.setPool], hp, hk,
        ⟨hl.free, hl.object, hl.lent, hl.heap⟩, hlog⟩
  | threw hd | aborted hd =>
    obtain ⟨ho, -⟩ | ⟨k, p, t, ho, -⟩ := h.dequeues_of_noThrow hn hd <;> cases ho
  | @blocked k hd ha =>
    obtain ⟨-, hf, hk, hall⟩ | ⟨k, p, t, ho, -⟩ := h.dequeues_of_noThrow hn hd
    · exact .inr ⟨k, hf, hk, hall, h.dequeues hd, by rw [key, hk.overdraws], .inl rfl⟩
    · cases ho
  | @overdrawn k g v hd ha hh hg hA =>
    obtain ⟨-, hf, hk, hall⟩ | ⟨k, p, t, ho, -⟩ := h.dequeues_of_noThrow hn hd
    · refine .inr ⟨k, hf, hk, hall, h.dequeues hd, ?_, .inr ⟨rfl, ?_, ?_, v, ?_⟩⟩
      · exact hA.overdraws.trans (by rw [key, hk.overdraws])
      · simp [Frame.returnLocked, Frame.setPool, hk.nextRental]
      · simp [Frame.returnLocked, Frame.setPool, Frame.packs, hg]
      · rw [← hk.alike.heap, ← hk.nextRental, ← hh]
        rfl
    · cases ho
  | builder _ _ hx => exact absurd hx (hn.builder _ _ _)
  | hook _ _ _ hx => exact absurd hx (hn.onAcquire _ _ _ _)

/-- **`acquire_with_preference`** lends its pack, or that is rented and it goes on as
`acquire_no_preference`. -/
theorem withPreference_of_noThrow (hn : env.NoThrow) {i : ℕ}
    (h : Reached cfg env s₀ (alone f.pool (.borrowPreference d i))) (hi : i < cfg.maxResources)
    {o : Outcome E Unit} (hw : f.WithPreference cfg env i o g) :
    (∃ t, o = .returned () ∧ g.pool.rsource.ptr (.result 0) = some f.packs.nextRental ∧
      g.pool.preference (.result 0) = f.pool.preference (.param 0) ∧
      f.Lends env (.preferred i) t g ∧ overdraws g.log = overdraws f.log) ∨
    f.packs.Rented (.preferred i) ∧ Reached cfg env s₀ (alone f.pool (.dequeue d false)) ∧
      f.NoPreference cfg env o g := by
  cases hw with
  | @lent r g _ hb =>
    obtain ⟨ho, -⟩ | ⟨t, ho, hl, hlog⟩ := h.borrow_of_noThrow hn (.inl ⟨i, rfl⟩) hb
    · cases ho
    · cases ho
      refine .inl ⟨t, rfl, by simp [Frame.returnLocked, Frame.setPool], ?_,
        ⟨hl.free, hl.object, hl.lent, hl.heap⟩, hlog⟩
      rw [Frame.returnLocked, Frame.setPool, Pool.setLocked_preference, if_pos rfl, hb.pool]
      rfl
  | fallback _ hb hd =>
    obtain ⟨-, rfl, hr⟩ | ⟨t, ho, -⟩ := h.borrow_of_noThrow hn (.inl ⟨i, rfl⟩) hb
    · exact .inr ⟨hr, h.borrowPreference hi hb, hd⟩
    · cases ho
  | threw _ hb | aborted _ hb =>
    obtain ⟨ho, -⟩ | ⟨t, ho, -⟩ := h.borrow_of_noThrow hn (.inl ⟨i, rfl⟩) hb <;> cases ho
  | outOfRange hn => exact absurd hi hn

/-- **`acquire_new_preference`** goes on as `acquire_no_preference` if `preferred_full`,
and with the preference it has taken otherwise. -/
theorem newPreference_cases (h : Reached cfg env s₀ (alone f.pool (.readMaxIndex d)))
    (hm : f.pool.indices.fetchAdds ≤ cfg.maxResources) {o : Outcome E Unit}
    (hn : f.NewPreference cfg env o g) :
    f.pool.indices.preferredFull cfg = true ∧ Reached cfg env s₀ (alone f.pool (.dequeue d false)) ∧
      f.NoPreference cfg env o g ∨
    ∃ i k, f.pool.indices.preferredFull cfg = false ∧ f.takeIndex env = (i, k) ∧
      i < cfg.maxResources ∧ Reached cfg env s₀
        (alone (k.setIndices (k.pool.indices.makeOwner 0 i)).pool (.borrowPreference d i)) ∧
      (k.setIndices (k.pool.indices.makeOwner 0 i)).WithPreference cfg env i o g := by
  cases hn with
  | full hf hn => exact .inl ⟨hf, h.full hf, hn⟩
  | @prefers i k _ _ hf ht hi hw =>
    exact .inr ⟨i, k, hf, ht, hi, (h.takesIndex hf ht).prefers hi, hw⟩
  | lost hf ht hi _ => exact absurd (h.lt_of_takesIndex hm hf (Frame.takesIndex_spec ht)).1 hi

theorem NoPreference.ne_threw (hn : env.NoThrow)
    (h : Reached cfg env s₀ (alone f.pool (.dequeue d false))) {o : Outcome E Unit}
    (hd : f.NoPreference cfg env o g) (x : Exn E) : o ≠ .threw x := by
  rintro rfl
  obtain ⟨k, p, t, ho, -⟩ | ⟨k, -, -, -, -, -, ho | ⟨ho, -⟩⟩ := h.noPreference_of_noThrow hn hd <;>
    cases ho

/-- **No call throws.** -/
theorem Begins.ne_threw (hn : env.NoThrow) {s : Session V} {c : Caller} {o : Outcome E Unit}
    {f₀ : Frame V A E} (hr : Reached cfg env s₀ (alone s.pool .idle))
    (hm : s.pool.indices.fetchAdds ≤ cfg.maxResources) (hb : Begins cfg env s₀ s c o f₀ f)
    (x : Exn E) : o ≠ .threw x := by
  have key : ∀ {f₁ : Frame V A E} {i}, Reached cfg env s₀ (alone f₁.pool (.borrowPreference c i)) →
      i < cfg.maxResources → f₁.WithPreference cfg env i o f → o ≠ .threw x := by
    intro f₁ i hR hi hw
    rcases hR.withPreference_of_noThrow hn hi hw with ⟨t, rfl, -⟩ | ⟨-, hR, hd⟩
    · simp
    · exact NoPreference.ne_threw hn hR hd x
  cases hb with
  | new hi _ hR hw =>
    rcases hR.newPreference_cases (by rwa [hi]) hw with ⟨-, hR, hd⟩ | ⟨i, k, -, -, hi, hR, hw⟩
    · exact NoPreference.ne_threw hn hR hd x
    · exact key hR hi hw
  | preferred _ _ ho _ hR hw => exact key hR (hr.owners.owned _ _ ho) hw

end Reached

end MutilsTasks.ResourcePool
