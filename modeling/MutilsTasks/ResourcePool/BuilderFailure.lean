import MutilsTasks.ResourcePool.Capacity

/-!
# When a failing builder costs the pool nothing

`builder` runs inside `borrow`, when the call has already changed the pool: it has taken
an index, or has dequeued the pack it is about to build. What the index cost comes back
with the `index_owner`. What the queue gave does not: a spare whose first `builder`
throws has left the queue for good. And a `ResourceInvalidException` does not reach the
user if it is thrown inside `borrow`, whoever throws it.

`costless_iff` says when a call in which `builder` throws leaves the pool as it was.
-/

namespace MutilsTasks.ResourcePool

open Packs Machine

variable {V A E : Type} {cfg : Config} {env : Env V A E}

/-- The object is away, and no other will be built. -/
def Packs.Gone (P : Packs) (p : PackId) : Prop := P.pack p = ⟨none, true⟩

/-! ### Hooks that throw -/

namespace Frame

variable {f g : Frame V A E} {p : PackId}

/-- An object has gone. -/
def Spoils (f g : Frame V A E) : Prop := ∃ p, ¬ f.packs.Gone p ∧ g.packs.Gone p

theorem Borrows.gone {o : Outcome E ℕ} (h : f.Borrows env p o g) {q : PackId}
    (hq : f.packs.Gone q) : g.packs.Gone q := by
  have key : ∀ {Q : Packs}, Q.pack = Function.update f.packs.pack p ⟨none, true⟩ → Q.Gone q := by
    intro Q hQ
    rw [Gone, hQ, Function.update_apply]
    split
    · rfl
    · exact hq
  cases h with
  | builder _ _ hg => cases p <;> simpa [Gone, packs, hg, builderThrew] using hq
  | hook _ _ _ hg =>
    rw [packs, hg]
    exact key (spoilt_spoil ..).pack
  | lent _ hl _ _ _ hg =>
    rw [packs, hg]
    exact key hl.pack
  | invalid | asserts => exact hq

theorem Dequeues.gone {o : Outcome E (Option ℕ)} (h : Dequeues env f o g) {q : PackId}
    (hq : f.packs.Gone q) : g.packs.Gone q := by
  have key : ∀ {k : Frame V A E} {p}, k.packs.Gone q → (k.take p).packs.Gone q := by
    intro k p hk
    cases p <;> exact hk
  induction h with
  | empty => exact hq
  | stale _ hb _ ih => exact ih (hb.gone (key hq))
  | lent _ hb | threw _ hb | aborted _ hb => exact hb.gone (key hq)

theorem NoPreference.gone {o : Outcome E Unit} (h : f.NoPreference cfg env o g) {q : PackId}
    (hq : f.packs.Gone q) : g.packs.Gone q := by
  cases h with
  | lent hd | threw hd | aborted hd | blocked hd => exact hd.gone hq
  | overdrawn hd _ _ hk | builder hd _ _ hk | hook hd _ _ _ hk =>
    have := hd.gone hq
    simpa [Gone, returnLocked, setPool, packs, hk, overdraw, setRental] using this

/-- `onAcquire` has thrown on no object, or that object has gone. -/
theorem Borrows.hooks {o : Outcome E ℕ} (h : f.Borrows env p o g) :
    hookExns g.log = hookExns f.log ∨ f.Spoils g := by
  cases h with
  | builder _ _ _ hA | lent _ _ _ _ _ _ hA => exact .inl (by simpa using hA.hook)
  | hook ho _ _ hg =>
    refine .inr ⟨p, fun hp => ?_, ?_⟩
    · rw [Gone] at hp
      simp [hasObject, hp] at ho
    · rw [Gone, packs, hg, (spoilt_spoil ..).pack, Function.update_self]
  | invalid | asserts => exact .inl rfl

theorem spoils_take (h : (f.take p).Spoils g) : f.Spoils g := by
  cases p <;> exact h

theorem Dequeues.hooks {o : Outcome E (Option ℕ)} (h : Dequeues env f o g) :
    hookExns g.log = hookExns f.log ∨ f.Spoils g := by
  induction h with
  | empty => exact .inl rfl
  | stale _ hb hd ih =>
    obtain he | ⟨q, hf, hg⟩ := hb.hooks
    · obtain he' | ⟨q, hf, hg⟩ := ih
      · exact .inl (he'.trans he)
      · exact .inr (spoils_take ⟨q, fun hq => hf (hb.gone hq), hg⟩)
    · exact .inr (spoils_take ⟨q, hf, hd.gone hg⟩)
  | lent _ hb | threw _ hb | aborted _ hb => exact hb.hooks.imp_right spoils_take

theorem overdrawing_exns (f : Frame V A E) : builderExns f.overdrawing.log = builderExns f.log ∧
    hookExns f.overdrawing.log = hookExns f.log := by
  rw [overdrawing, hookExns_append, builderExns_append]
  exact ⟨List.append_nil _, List.append_nil _⟩

/-- `onAcquire` has thrown nothing, or an object has gone, or that is how the call ends. -/
theorem NoPreference.hooks {o : Outcome E Unit} (h : f.NoPreference cfg env o g) :
    hookExns g.log = hookExns f.log ∨ f.Spoils g ∨ ∃ a x, g.last = some (.onAcquire a x) := by
  cases h with
  | lent hd | threw hd | aborted hd => exact hd.hooks.imp_right .inl
  | @blocked k hd => exact k.overdrawing_exns.2.symm ▸ hd.hooks.imp_right .inl
  | @overdrawn k k' v hd _ _ hk hA =>
    obtain he | ⟨q, hf, hg⟩ := hd.hooks
    · exact .inl (by simpa [returnLocked, setPool, k.overdrawing_exns, he] using hA.hook)
    · exact .inr (.inl ⟨q, hf, by simpa [Gone, returnLocked, setPool, packs, hk, overdraw, setRental]
        using hg⟩)
  | @builder k _ x hd _ _ hk hA =>
    obtain he | ⟨q, hf, hg⟩ := hd.hooks
    · exact .inl (by simpa [k.overdrawing_exns, he] using hA.hook)
    · exact .inr (.inl ⟨q, hf, by simpa [Gone, packs, hk] using hg⟩)
  | hook _ _ _ _ _ _ hl => exact .inr (.inr ⟨_, _, hl⟩)

theorem WithPreference.hooks {i : ℕ} {o : Outcome E Unit} (h : f.WithPreference cfg env i o g) :
    hookExns g.log = hookExns f.log ∨ f.Spoils g ∨ ∃ a x, g.last = some (.onAcquire a x) := by
  cases h with
  | lent _ hb | threw _ hb | aborted _ hb => exact hb.hooks.imp_right .inl
  | fallback _ hb hn =>
    obtain he | ⟨q, hf, hg⟩ := hb.hooks
    · obtain he' | ⟨q, hf, hg⟩ | hl := hn.hooks
      · exact .inl (he'.trans he)
      · exact .inr (.inl ⟨q, fun hq => hf (hb.gone hq), hg⟩)
      · exact .inr (.inr hl)
    · exact .inr (.inl ⟨q, hf, hn.gone hg⟩)
  | outOfRange => exact .inl rfl

/-! ### The queue -/

/-- What is thrown is a `ResourceInvalidException`, or one of the user's. -/
theorem Borrows.after {o : Outcome E ℕ} (h : f.Borrows env p o g) :
    ∃ xs ys, f.After g xs ys ∧ ∀ e, o = .threw (.other e) → xs ++ ys ≠ [] := by
  cases h with
  | builder _ _ _ hA | hook _ _ _ _ hA => exact ⟨_, _, hA, by simp⟩
  | lent _ _ _ _ _ _ hA => exact ⟨_, _, hA, by simp⟩
  | invalid | asserts => exact ⟨_, _, .refl f, by simp⟩

theorem Dequeues.after {o : Outcome E (Option ℕ)} (h : Dequeues env f o g) :
    ∃ xs ys, f.After g xs ys ∧ ∀ x, o = .threw x → xs ++ ys ≠ [] := by
  induction h with
  | empty => exact ⟨_, _, .refl _, by simp⟩
  | stale _ hb _ ih =>
    obtain ⟨_, _, hA, -⟩ := hb.after
    obtain ⟨_, _, hA', hx⟩ := ih
    refine ⟨_, _, ((after_take ..).trans hA).trans hA', fun x ho he => hx x ho ?_⟩
    simp only [List.append_eq_nil_iff] at he ⊢
    exact ⟨he.1.2, he.2.2⟩
  | threw _ hb =>
    obtain ⟨_, _, hA, hx⟩ := hb.after
    exact ⟨_, _, (after_take ..).trans hA, fun x _ => hx _ rfl⟩
  | lent _ hb | aborted _ hb =>
    obtain ⟨_, _, hA, -⟩ := hb.after
    exact ⟨_, _, (after_take ..).trans hA, by simp⟩

theorem After.overdrawing {k : Frame V A E} {xs ys xs' ys' : List (Exn E)} (h : f.After k xs ys)
    (h' : k.overdrawing.After g xs' ys') : builderExns g.log = builderExns f.log ++ (xs ++ xs') ∧
      hookExns g.log = hookExns f.log ++ (ys ++ ys') := by
  rw [h'.builder, h'.hook, k.overdrawing_exns.1, k.overdrawing_exns.2, h.builder, h.hook]
  exact ⟨List.append_assoc .., List.append_assoc ..⟩

/-- Out of `acquire_no_preference` come only the user's exceptions. -/
theorem NoPreference.after {o : Outcome E Unit} (h : f.NoPreference cfg env o g) :
    ∃ xs ys, builderExns g.log = builderExns f.log ++ xs ∧ hookExns g.log = hookExns f.log ++ ys ∧
      ∀ x, o = .threw x → xs ++ ys ≠ [] := by
  cases h with
  | lent hd | aborted hd =>
    obtain ⟨_, _, hA, -⟩ := hd.after
    exact ⟨_, _, hA.builder, hA.hook, by simp⟩
  | threw hd =>
    obtain ⟨_, _, hA, hx⟩ := hd.after
    exact ⟨_, _, hA.builder, hA.hook, fun x _ => hx _ rfl⟩
  | @blocked k hd =>
    obtain ⟨_, _, hA, -⟩ := hd.after
    exact ⟨_, _, k.overdrawing_exns.1.trans hA.builder, k.overdrawing_exns.2.trans hA.hook, by simp⟩
  | overdrawn hd _ _ _ hA' =>
    obtain ⟨xs, ys, hA, -⟩ := hd.after
    exact ⟨_, _, (hA.overdrawing hA').1, (hA.overdrawing hA').2, by simp⟩
  | builder hd _ _ _ hA' | hook hd _ _ _ _ hA' =>
    obtain ⟨xs, ys, hA, -⟩ := hd.after
    exact ⟨_, _, (hA.overdrawing hA').1, (hA.overdrawing hA').2, by simp⟩

/-- The loop enqueues nothing. -/
theorem Dequeues.subset {o : Outcome E (Option ℕ)} (h : Dequeues env f o g) :
    g.packs.freeResources ⊆ f.packs.freeResources := by
  induction h with
  | empty => exact fun _ h => h
  | @stale f _ _ p _ _ hb _ ih =>
    rw [hb.freeResources, take_freeResources] at ih
    exact fun _ hq => List.mem_of_mem_erase (ih hq)
  | @lent f _ p _ _ hb | @threw f _ p _ _ hb | @aborted f _ p _ hb =>
    rw [hb.freeResources, take_freeResources]
    exact fun _ => List.mem_of_mem_erase

/-- An unbuilt spare has left the queue. -/
def LosesSpare (f g : Frame V A E) : Prop :=
  ∃ j, .spare j ∈ f.packs.freeResources ∧ (f.packs.pack (.spare j)).initialized = false ∧
    .spare j ∉ g.packs.freeResources

end Frame

namespace Reached

variable {s₀ : State} {c : Pc} {d : Caller} {p : PackId} {f g : Frame V A E} {i : ℕ}

theorem rented_of_invalid (h : Reached cfg env s₀ (alone f.pool c))
    (hi : f.packs.borrow p = (.invalid, f.packs)) : f.packs.Rented p := by
  obtain ⟨hb, -⟩ | ⟨-, -, hn, hr⟩ := borrow_cases hi
  · cases hb
  · rw [Packs.borrow, initializeIfNeeded_of_initialized hn] at hi
    cases p with
    | spare j => simp [lend, hr] at hi
    | preferred i =>
      cases hw : (f.packs.preferred i).whoOwnsMe with
      | none => simp [lend, hr, hw] at hi
      | some r => exact ⟨r, (h.packInv.objects.owner i r).mp hw⟩

/-- A pack that is taken from the queue to be built leaves it, and is a spare. -/
theorem losesSpare (h : Reached cfg env s₀ (alone f.pool (.dequeue d false)))
    (hp : p ∈ f.packs.freeResources) (hn : (f.packs.pack p).initialized = false)
    (hg : g.packs.freeResources ⊆ (f.take p).packs.freeResources) : f.LosesSpare g := by
  have inv := h.packInv_nothing rfl
  cases p with
  | preferred i =>
    rw [Frame.packs, h.initialized_of_mem rfl hp] at hn
    cases hn
  | spare j =>
    refine ⟨j, hp, hn, fun hm => ?_⟩
    rw [Frame.take_freeResources] at hg
    exact (List.Nodup.mem_erase_iff inv.entries.distinct.nodup).mp (hg hm) |>.1 rfl

/-- **The loop, with an `onAcquire` that returns**: it loses a spare, or `builder` throws
nothing, and only entries of rented packs are dropped. -/
theorem dequeues_cases (h : Reached cfg env s₀ (alone f.pool (.dequeue d false)))
    {o : Outcome E (Option ℕ)} (hd : Frame.Dequeues env f o g) (hk : hookExns g.log = hookExns f.log) :
    f.LosesSpare g ∨ builderExns g.log = builderExns f.log ∧ (∀ x, o ≠ .threw x) ∧
      (o = .returned none → f.Drained g ∧ ∀ p ∈ f.packs.freeResources, f.packs.Rented p) := by
  induction hd with
  | empty hf => exact .inr ⟨rfl, by simp, fun _ => ⟨.refl _, by simp [hf]⟩⟩
  | @stale f g k p o hp hb hd ih =>
    have hB := h.take hp
    have hs := hd.subset
    rw [hb.freeResources] at hs
    obtain ⟨_, ys, hA, -⟩ := hb.after
    obtain ⟨_, ys', hA', -⟩ := hd.after
    have hy : ys = [] ∧ ys' = [] := by
      have := hA'.hook.symm.trans hk
      rw [hA.hook, (Frame.after_take f p).hook] at this
      simpa using this
    cases hb with
    | builder hn => exact .inl (h.losesSpare hp (by cases p <;> exact hn) hs)
    | hook _ _ _ _ hx => simpa [hy] using hx.hook.symm.trans hA.hook
    | invalid hi =>
      have hr := hB.rented_of_invalid hi
      rcases ih (hB.borrow (.invalid hi)) (hA'.hook.trans (by simp [hy])) with
        ⟨j, hj, hn, hg⟩ | ⟨hl, ho, hall⟩
      · rw [Frame.take_freeResources] at hj
        exact .inl ⟨j, List.mem_of_mem_erase hj, by cases p <;> exact hn, hg⟩
      · refine .inr ⟨hl, ho, fun e => ⟨(Frame.drained_take f p).trans (hall e).1, fun q hq => ?_⟩⟩
        rw [← (Frame.drained_take f p).rented]
        by_cases e' : q = p
        · exact e' ▸ hr
        · refine (hall e).2 q ?_
          rw [Frame.take_freeResources]
          exact (List.mem_erase_of_ne e').mpr hq
  | lent hp hb =>
    cases hb with
    | lent _ _ _ _ _ _ hA => exact .inr ⟨hA.builder.trans (List.append_nil _), by simp, by simp⟩
  | @threw f g p e hp hb =>
    have hs := hb.freeResources
    cases hb with
    | builder hn => exact .inl (h.losesSpare hp (by cases p <;> exact hn)
      (hs ▸ List.Subset.refl _))
    | hook _ _ _ _ hA => simpa [Frame.take, Frame.setPacks] using hA.hook.symm.trans hk
  | aborted hp hb =>
    cases hb with
    | asserts => exact .inr ⟨rfl, by simp, by simp⟩

end Reached

/-! ### Calls -/

/-- **The call has not harmed the packs**: it ends with what `builder` has thrown, and has
dropped entries of rented packs at most. -/
structure Frame.Unharmed (f g : Frame V A E) (o : Outcome E Unit) : Prop where
  propagates : ∃ a x, g.last = some (.builder a (some x)) ∧ builderExns g.log = [x] ∧ o = .threw x
  entries : ∀ p ∈ f.packs.freeResources, ¬ f.packs.Rented p → p ∈ g.packs.freeResources
  pack : g.packs.pack = f.packs.pack
  rental : g.packs.rental = f.packs.rental

theorem Frame.Unharmed.not_spoils {f g : Frame V A E} {o : Outcome E Unit} (h : f.Unharmed g o) :
    ¬ (f.Spoils g ∨ ∃ a x, g.last = some (.onAcquire a x)) := by
  rintro (⟨p, hf, hg⟩ | ⟨a, x, hl⟩)
  · rw [Gone, h.pack] at hg
    exact hf hg
  · obtain ⟨a', x', hl', -⟩ := h.propagates
    rw [hl] at hl'
    cases hl'

/-- `builder` is called for the preferred pack first. -/
theorem Frame.WithPreference.unbuilt {f g : Frame V A E} {i : ℕ} {o : Outcome E Unit}
    (hw : f.WithPreference cfg env i o g) (hi : i < cfg.maxResources)
    (hn : (f.packs.pack (.preferred i)).initialized = false)
    (hk : hookExns g.log = hookExns f.log) :
    builderExns g.log = builderExns f.log ∨
    (∃ e a, o = .threw (.other e) ∧ g.last = some (.builder a (some (.other e))) ∧
      builderExns g.log = builderExns f.log ++ [.other e] ∧ g.packs = f.packs) ∨
    ∃ xs, builderExns g.log = builderExns f.log ++ .resourceInvalid :: xs ∧
      ∀ x, o = .threw x → xs ≠ [] := by
  cases hw with
  | lent _ hb =>
    cases hb with
    | lent _ _ _ _ _ _ hA => exact .inl (hA.builder.trans (List.append_nil _))
  | @fallback k _ _ _ hb hd =>
    obtain ⟨xs, ys, hx, hy, hne⟩ := hd.after
    cases hb with
    | builder _ _ _ hA =>
      refine .inr (.inr ⟨xs, by rw [hx, hA.builder, List.append_assoc]; rfl, fun x ho he => ?_⟩)
      have hy' : ys = [] := by simpa [hy, hA.hook] using hk
      exact hne x ho (by simp [he, hy'])
    | hook _ _ _ _ hA => simp [hy, hA.hook] at hk
    | invalid hb =>
      obtain ⟨hb, -⟩ | ⟨-, -, hi, -⟩ := borrow_cases hb
      · cases hb
      · rw [hn] at hi
        cases hi
  | threw _ hb =>
    cases hb with
    | builder _ _ hg hA hl =>
      exact .inr (.inl ⟨_, _, rfl, hl, hA.builder, by rw [Frame.packs, hg]; rfl⟩)
    | hook _ _ _ _ hA => simp [hA.hook] at hk
  | aborted _ hb =>
    cases hb with
    | asserts => exact .inl rfl
  | outOfRange hn => exact absurd hi hn

namespace Reached

variable {s₀ : State} {d : Caller} {f g : Frame V A E} {i : ℕ} {o : Outcome E Unit}

/-- How `acquire_no_preference` ends, with an `onAcquire` that returns. -/
theorem noPreference_cases (h : Reached cfg env s₀ (alone f.pool (.dequeue d false)))
    (hn : f.NoPreference cfg env o g) (hk : hookExns g.log = hookExns f.log) :
    f.LosesSpare g ∨ (builderExns g.log = builderExns f.log ∧ ∀ x, o ≠ .threw x) ∨
      ∃ k a x, o = .threw x ∧ g.last = some (.builder a (some x)) ∧
        builderExns g.log = builderExns f.log ++ [x] ∧ g.packs = k.packs ∧ f.Drained k ∧
        ∀ p ∈ f.packs.freeResources, f.packs.Rented p := by
  cases hn with
  | @lent r g hd =>
    obtain hl | ⟨hl, -⟩ := h.dequeues_cases hd hk
    · exact .inl hl
    · exact .inr (.inl ⟨hl, by simp⟩)
  | threw hd =>
    obtain hl | ⟨-, ho, -⟩ := h.dequeues_cases hd hk
    · exact .inl hl
    · exact absurd rfl (ho _)
  | aborted hd =>
    obtain hl | ⟨hl, -⟩ := h.dequeues_cases hd hk
    · exact .inl hl
    · exact .inr (.inl ⟨hl, by simp⟩)
  | @blocked k hd =>
    obtain hl | ⟨hl, -⟩ := h.dequeues_cases hd (k.overdrawing_exns.2.symm.trans hk)
    · exact .inl hl
    · exact .inr (.inl ⟨k.overdrawing_exns.1.trans hl, by simp⟩)
  | @overdrawn k k' v hd _ _ hg hA =>
    have hk' : hookExns k.log = hookExns f.log := by
      rw [← k.overdrawing_exns.2, ← List.append_nil (hookExns k.overdrawing.log), ← hA.hook]
      exact hk
    obtain ⟨j, hj, hn, hm⟩ | ⟨hl, -⟩ := h.dequeues_cases hd hk'
    · refine .inl ⟨j, hj, hn, ?_⟩
      have hp : k'.packs = k.packs.overdraw := by rw [Frame.packs, hg]
      show _ ∉ k'.packs.freeResources
      rw [hp]
      exact hm
    · refine .inr (.inl ⟨?_, by simp⟩)
      simpa [Frame.returnLocked, Frame.setPool, k.overdrawing_exns, hl] using hA.builder
  | @builder k _ x hd _ _ hg hA hlast =>
    have hp : g.packs = k.packs := by rw [Frame.packs, hg]; rfl
    have hk' : hookExns k.log = hookExns f.log := by
      rw [← k.overdrawing_exns.2, ← List.append_nil (hookExns k.overdrawing.log), ← hA.hook, hk]
    obtain ⟨j, hj, hn, hm⟩ | ⟨hl, -, hall⟩ := h.dequeues_cases hd hk'
    · exact .inl ⟨j, hj, hn, hp ▸ hm⟩
    · refine .inr (.inr ⟨k, _, x, rfl, hlast, ?_, hp, hall rfl⟩)
      rw [hA.builder, k.overdrawing_exns.1, hl]
  | @hook k _ x n a v hd _ _ _ hg hA =>
    obtain ⟨_, ys, hD, -⟩ := hd.after
    have := hA.hook.symm.trans hk
    simp [k.overdrawing_exns.2, hD.hook] at this

/-- **`acquire_no_preference`, when `builder` throws.** -/
theorem unharmed_noPreference (h : Reached cfg env s₀ (alone f.pool (.dequeue d false)))
    (hn : f.NoPreference cfg env o g) (hf : f.log = []) (hb : builderExns g.log ≠ []) :
    f.Unharmed g o ↔ hookExns g.log = [] ∧ ∀ j, .spare j ∈ f.packs.freeResources →
      (f.packs.pack (.spare j)).initialized = true := by
  have hk₀ : hookExns f.log = [] := by rw [hf]; rfl
  have hb₀ : builderExns f.log = [] := by rw [hf]; rfl
  by_cases hk : hookExns g.log = []
  · rcases h.noPreference_cases hn (hk.trans hk₀.symm) with
      ⟨j, hj, hn, hm⟩ | ⟨hl, -⟩ | ⟨k, a, x, ho, hlast, hl, hg, hD, hall⟩
    · have hr : ¬ f.packs.Rented (.spare j) := (h.packInv.objects.unbuilt _ hn).2.2
      refine ⟨fun hU => absurd (hU.entries _ hj hr) hm, fun ⟨_, hall⟩ => ?_⟩
      rw [hall j hj] at hn
      cases hn
    · exact absurd (hl.trans hb₀) hb
    · refine ⟨fun _ => ⟨hk, fun j hj => ?_⟩, fun _ => ⟨⟨a, x, hlast, by rw [hl, hb₀]; rfl, ho⟩,
        fun p hp hr => absurd (hall p hp) hr, by rw [hg, hD.pack], by rw [hg]; exact hD.alike.rental⟩⟩
      by_contra hi
      exact (h.packInv.objects.unbuilt _ (Bool.not_eq_true _ ▸ hi)).2.2 (hall _ hj)
  · have hs := hn.hooks.resolve_left fun e => hk (e.trans hk₀)
    exact ⟨fun hU => absurd hs hU.not_spoils, fun h => absurd h.1 hk⟩

/-- `builder` is not called for the preferred pack. -/
theorem withPreference_built (hn : (f.packs.pack (.preferred i)).initialized = true)
    (h : Reached cfg env s₀ (alone f.pool (.borrowPreference d i))) (hi : i < cfg.maxResources)
    (hw : f.WithPreference cfg env i o g) (hk : hookExns g.log = hookExns f.log) :
    builderExns g.log = builderExns f.log ∨
      Reached cfg env s₀ (alone f.pool (.dequeue d false)) ∧ f.NoPreference cfg env o g := by
  cases hw with
  | lent _ hb =>
    cases hb with
    | lent _ _ _ _ _ _ hA => exact .inl (hA.builder.trans (List.append_nil _))
  | fallback _ hb hd =>
    have hR := h.borrowPreference hi hb
    obtain ⟨_, ys, -, hy, -⟩ := hd.after
    cases hb with
    | builder hn' =>
      rw [hn] at hn'
      cases hn'
    | hook _ _ _ _ hA => simp [hy, hA.hook] at hk
    | invalid => exact .inr ⟨hR, hd⟩
  | threw _ hb =>
    cases hb with
    | builder hn' =>
      rw [hn] at hn'
      cases hn'
    | hook _ _ _ _ hA => simp [hA.hook] at hk
  | aborted _ hb =>
    cases hb with
    | asserts => exact .inl rfl
  | outOfRange hn => exact absurd hi hn

/-- **`acquire_with_preference`, when `builder` throws.** -/
theorem unharmed_withPreference (h : Reached cfg env s₀ (alone f.pool (.borrowPreference d i)))
    (hi : i < cfg.maxResources) (hw : f.WithPreference cfg env i o g) (hf : f.log = [])
    (hb : builderExns g.log ≠ []) : f.Unharmed g o ↔ hookExns g.log = [] ∧
      ((f.packs.pack (.preferred i)).initialized = false → .resourceInvalid ∉ builderExns g.log) ∧
      ((f.packs.pack (.preferred i)).initialized = true → ∀ j, .spare j ∈ f.packs.freeResources →
        (f.packs.pack (.spare j)).initialized = true) := by
  have hk₀ : hookExns f.log = [] := by rw [hf]; rfl
  have hb₀ : builderExns f.log = [] := by rw [hf]; rfl
  by_cases hk : hookExns g.log = []
  · cases hn : (f.packs.pack (.preferred i)).initialized with
    | false =>
      rcases hw.unbuilt hi hn (hk.trans hk₀.symm) with
        hl | ⟨e, a, ho, hlast, hl, hg⟩ | ⟨xs, hl, hne⟩
      · exact absurd (hl.trans hb₀) hb
      · rw [hb₀, List.nil_append] at hl
        refine ⟨fun _ => ⟨hk, by simp [hl], nofun⟩, fun _ => ⟨⟨a, _, hlast, hl, ho⟩, ?_, ?_, ?_⟩⟩
        · exact fun p hp _ => hg ▸ hp
        · rw [hg]
        · rw [hg]
      · rw [hb₀, List.nil_append] at hl
        refine ⟨fun hU => ?_, fun ⟨_, hr, _⟩ => absurd (by simp [hl]) (hr rfl)⟩
        obtain ⟨a, x, -, hx, ho⟩ := hU.propagates
        rw [hl, List.cons_eq_cons] at hx
        exact absurd hx.2 (hne x ho)
    | true =>
      rcases h.withPreference_built hn hi hw (hk.trans hk₀.symm) with hl | ⟨hR, hd⟩
      · exact absurd (hl.trans hb₀) hb
      · simpa using hR.unharmed_noPreference hd hf hb
  · have hs := hw.hooks.resolve_left fun e => hk (e.trans hk₀)
    exact ⟨fun hU => absurd hs hU.not_spoils, fun h => absurd h.1 hk⟩

end Reached

/-! ### What it costs -/

namespace Session

/-- **The failing `builder` has cost the pool nothing.** -/
structure Costless (s : Session V) (R : Result V A E) : Prop where
  /-- The call ends with what `builder` has thrown. -/
  propagates : ∃ a x, R.log.getLast? = some (.builder a (some x)) ∧ builderExns R.log = [x] ∧
    R.outcome = .threw x
  /-- Every pack in the queue that was not rented is still there. -/
  entries : ∀ p ∈ s.pool.packs.freeResources, ¬ s.pool.packs.Rented p →
    p ∈ R.session.pool.packs.freeResources
  /-- Every pack has its object and its flag. -/
  pack : R.session.pool.packs.pack = s.pool.packs.pack
  /-- The rentals are the same. -/
  rental : R.session.pool.packs.rental = s.pool.packs.rental
  /-- Every issued index that was not owned is in `recycled_indices`, also the one that
  the call has taken. -/
  index : ∀ i < R.session.pool.indices.fetchAdds, (∀ o, s.pool.indices.indexOwner o ≠ some i) →
    i ∈ R.session.pool.indices.recycledIndices

/-- The call tries a preferred pack first that has not been built. -/
def PrefersUnbuilt (cfg : Config) (env : Env V A E) (s : Session V) (op : Op V A) : Prop :=
  ∃ i, s.prefers cfg env op = some i ∧ (s.pool.packs.pack (.preferred i)).initialized = false

/-- **The user's code fails where it does no harm**: `onAcquire` throws nothing; if
`builder` is called for a preferred pack first, it throws no `ResourceInvalidException`;
if it is not, every spare in the queue has been built. -/
def FailsWell (cfg : Config) (env : Env V A E) (s : Session V) (op : Op V A)
    (log : List (Event A E)) : Prop :=
  hookExns log = [] ∧ (s.PrefersUnbuilt cfg env op → .resourceInvalid ∉ builderExns log) ∧
    (¬ s.PrefersUnbuilt cfg env op → ∀ j, .spare j ∈ s.pool.packs.freeResources →
      (s.pool.packs.pack (.spare j)).initialized = true)

variable {heap : Obj → V} {s : Session V} {op : Op V A} {R : Result V A E} {h : ℕ} {c : Caller}
  {o : Outcome E Unit} {f f₀ : Frame V A E}

theorem finish_outcome (h : ℕ) (c : Caller) (o : Outcome E Unit) (f : Frame V A E) :
    (finish h c (o, f)).outcome = o := by
  obtain u | x | _ | _ := o <;> rfl

theorem Calls.unwound {x : Exn E} (tidy : s.pool.Tidy)
    (hc : s.Calls cfg env op h c (.threw x) f) : s.pool.Unwound (f.pool.unwound 0 c) := by
  obtain ⟨-, T, he, hT⟩ := hc.entered
  exact tidy.unwinds he hT (by simp)

/-- **The index that a call takes is recycled if it throws.** -/
theorem recycled_of_threw {x : Exn E} (hr : Reach (step cfg env) Any (init cfg heap) s)
    (hc : s.Calls cfg env op h c (.threw x) f)
    (hp : s.perform cfg env op = some (finish h c (.threw x, f))) {i : ℕ}
    (hi : i < (finish h c (.threw x, f)).session.pool.indices.fetchAdds)
    (hn : ∀ o, s.pool.indices.indexOwner o ≠ some i) :
    i ∈ (finish h c (.threw x, f)).session.pool.indices.recycledIndices := by
  have hs : s.step cfg env op = some (finish h c (.threw x, f)).session := by
    rw [step, hp]
    rfl
  have hr' : Reach (step cfg env) Any (init cfg heap) (finish h c (.threw x, f)).session :=
    .tail hr trivial hs
  have hm := fetchAdds_le hr'
  have hR := reached_from hr (.tail (.refl (P := Any)) trivial hs)
  rcases ((hR.indexInv rfl hm).issued i (Nat.lt_of_lt_of_le hi hm)).mpr hi with hm | ⟨u | p, hu⟩
  · exact hm
  · cases hu
  · obtain ⟨v, hv⟩ := hR.owners.shared p i hu
    have hv' : s.pool.preference v = some p := by
      rw [← (hc.unwound (reached hr).1).preference v]
      exact hv
    obtain ⟨j, hj⟩ := (reached hr).2.owners.live v p hv'
    have he := (State.indexOwner_of_reach hR.1 hR.2 hj hv).symm.trans hu
    exact absurd (hj.trans he) (hn p)

theorem costless_iff_unharmed (hr : Reach (step cfg env) Any (init cfg heap) s)
    (hc : s.Calls cfg env op h c o f) (hp : s.perform cfg env op = some (finish h c (o, f)))
    (hf : f₀.pool.packs = s.pool.packs) :
    s.Costless (finish h c (o, f)) ↔ f₀.Unharmed f o := by
  have hs : ∀ x, o = .threw x → (finish h c (o, f)).session.pool.packs = f.packs := by
    rintro x rfl
    exact (finish_eq (h := h) (c := c) (o := .threw x) rfl).1
  have hf' : f₀.packs = s.pool.packs := hf
  constructor
  · intro hC
    obtain ⟨a, x, hlast, hl, ho⟩ := hC.propagates
    rw [finish_log] at hlast hl
    rw [finish_outcome] at ho
    have hs := hs x ho
    refine ⟨⟨a, x, hlast, hl, ho⟩, ?_, ?_, ?_⟩
    · rw [hf', ← hs]
      exact hC.entries
    · rw [hf', ← hs]
      exact hC.pack
    · rw [hf', ← hs]
      exact hC.rental
  · intro hU
    obtain ⟨a, x, hlast, hl, ho⟩ := hU.propagates
    have hs := hs x ho
    refine ⟨⟨a, x, ?_, ?_, ?_⟩, ?_, ?_, ?_, ?_⟩
    · rw [finish_log]
      exact hlast
    · rw [finish_log]
      exact hl
    · rw [finish_outcome]
      exact ho
    · rw [hs, ← hf']
      exact hU.entries
    · rw [hs, ← hf']
      exact hU.pack
    · rw [hs, ← hf']
      exact hU.rental
    · subst ho
      exact fun i => recycled_of_threw hr hc hp

/-- A call that tries a preferred pack first. -/
theorem unharmed_iff_failsWell {s₀ : State} {k : Frame V A E} {i : ℕ}
    (hR : Reached cfg env s₀ (alone k.pool (.borrowPreference c i))) (hi : i < cfg.maxResources)
    (hw : k.WithPreference cfg env i o f) (hl : k.log = []) (hk : k.packs = s.pool.packs)
    (hp : s.prefers cfg env op = some i) (hb : builderExns f.log ≠ []) :
    k.Unharmed f o ↔ s.FailsWell cfg env op f.log := by
  have hP : s.PrefersUnbuilt cfg env op ↔
      (s.pool.packs.pack (.preferred i)).initialized = false := by
    simp [PrefersUnbuilt, hp]
  rw [hR.unharmed_withPreference hi hw hl hb, hk, FailsWell, hP, Bool.not_eq_false]

/-- **A call in which `builder` throws costs the pool nothing — exactly if** it fails
where that does no harm. -/
theorem costless_iff (hr : Reach (step cfg env) Any (init cfg heap) s)
    (hp : s.perform cfg env op = some R) (hb : builderExns R.log ≠ []) :
    s.Costless R ↔ s.FailsWell cfg env op R.log := by
  obtain ⟨tidy, hR₀⟩ := reached hr
  have hm := fetchAdds_le hr
  cases perform_spec hp with
  | @call op h c o f hc =>
    obtain ⟨f₀, hf₀, hpacks, hlog, hbegin⟩ := hR₀.begins tidy hc
    rw [finish_log] at hb ⊢
    cases hbegin with
    | new hi hh hR hw =>
      have hpref := prefers_of_new hc hh
      rcases hR.newPreference_cases (by rwa [hi]) hw with
        ⟨hfull, hR, hd⟩ | ⟨i, k, hfull, ht, hlt, hR, hw⟩
      · have hn : ¬ s.PrefersUnbuilt cfg env op := by
          simp [PrefersUnbuilt, hpref, newIndex, ← hi, hfull]
        rw [costless_iff_unharmed hr hc hp hpacks, hR.unharmed_noPreference hd hlog hb, FailsWell,
          Frame.packs, hpacks]
        simp [hn]
      · have ht' := Frame.takesIndex_spec ht
        have hk : k.packs = s.pool.packs := by
          rw [Frame.packs, ht'.pool.1]
          exact hpacks
        have hU := unharmed_iff_failsWell hR hlt hw (ht'.log.trans hlog) hk
          (hpref.trans (newIndex_of_takeIndex hf₀ hi hfull ht)) hb
        refine Iff.trans (costless_iff_unharmed hr hc hp ?_) hU
        exact hk
    | @preferred w p i hcw hpw hi hI hR hw =>
      subst hcw
      rw [costless_iff_unharmed hr hc hp hpacks]
      exact unharmed_iff_failsWell hR (hR₀.owners.owned p i hi) hw hlog hpacks
        ((prefers_of_preferred hc hpw).trans hi) hb
  | _ => exact absurd rfl hb

/-- User code whose `builder` always throws. -/
def failing : Env Unit Unit Unit := { quiet with builder := fun _ _ => .error (.other ()) }

theorem costless_iff_acquire : ∃ R : Result Unit Unit Unit,
    (init twoPreferred fun _ => ()).perform twoPreferred failing (.acquire 0 ()) = some R ∧
      ((init twoPreferred fun _ => ()).Costless R ↔
        (init twoPreferred fun _ => ()).FailsWell twoPreferred failing (.acquire 0 ()) R.log) :=
  ⟨_, rfl, @costless_iff Unit Unit Unit twoPreferred failing (fun _ => ()) _ (.acquire 0 ()) _ .refl
    rfl (List.cons_ne_nil _ _)⟩

/-- No preferred pack and one spare. -/
def oneSpare : Config := ⟨0, 1, true, Nat.two_pow_pos 63⟩

/-- **A builder that fails costs the pool a spare**: its entry is not put back. -/
theorem builder_costs_spare : ¬ ∀ (cfg : Config) (env : Env Unit Unit Unit) (heap : Obj → Unit)
    (s : Session Unit) (op : Op Unit Unit) (R : Result Unit Unit Unit),
    Reach (step cfg env) Any (init cfg heap) s → s.perform cfg env op = some R →
      builderExns R.log ≠ [] → s.Costless R := by
  intro h
  have hC := @h oneSpare failing (fun _ => ()) _ (.acquire 0 ()) _ .refl rfl (List.cons_ne_nil _ _)
  have hm := hC.entries (.spare 0) (by decide) (by rintro ⟨r, x, hx, -⟩; cases hx)
  revert hm
  decide

end Session

end MutilsTasks.ResourcePool
