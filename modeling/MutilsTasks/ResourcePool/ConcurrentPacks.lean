import MutilsTasks.ResourcePool.Concurrent

/-!
# The packs under the machine

The interleaved machine keeps the protocol of packs and queue entries: a step of a
thread is a step of `PackStep` or leaves the packs and everything in hand as they
are (`packMove_of_step`).

What the protocol asks for in return is that a destructor begins only for a live
rental, and once. That is the invariant of the counted pointers, `LiveRefs`.
-/

namespace MutilsTasks.ResourcePool

open Packs

/-- What a thread has of the packs at `c`. -/
def Pc.hold : Pc → Hold
  | .removeFromFreeList _ _ p => .dequeued p
  | .borrow _ _ p => .borrowing p
  | .onRelease r | .putBack r => .releasing r
  | .testInFreeList i => .testing i
  | .setInFreeList i => .setting i
  | .enqueue p => .enqueuing p
  | .unlock i => .unlocking i
  | _ => .nothing

/-- A rental changes only in the hands of its destructor. -/
theorem PackStep.rental_eq {cfg : Config} {P Q : Packs} {h k : Holds} {r : ℕ}
    (hs : PackStep cfg P h Q k) (inv : Objects P) (hr : P.rental r ≠ none)
    (hu : ∀ u, h u ≠ .releasing r) : Q.rental r = P.rental r := by
  have hne : r ≠ P.nextRental := fun e => hr (inv.fresh r (Nat.le_of_eq e.symm))
  -- a record written for another rental
  have other : ∀ r' y, r' ≠ r → Function.update P.rental r' (some y) r = P.rental r :=
    fun r' y hne => Function.update_of_ne (Ne.symm hne) ..
  cases hs with
  | borrowPreferred _ _ hb | borrowFree _ _ hb =>
    obtain ⟨-, t, hl⟩ | ⟨-, rfl, -⟩ := borrow_cases hb
    · exact hl.rental ▸ other _ _ (Ne.symm hne)
    · rfl
  | overdraw => exact other _ _ (Ne.symm hne)
  | beforeDelete hv | destroyOverdrawn hv => exact other _ _ fun e => hu _ (e ▸ hv)
  | putBackPreferred hv =>
    exact (Packs.putBack_preferred ..).rental ▸ other _ _ fun e => hu _ (e ▸ hv)
  | putBackSpare hv => exact (Packs.putBack_spare ..).rental ▸ other _ _ fun e => hu _ (e ▸ hv)
  | @removeFromFreeList u p | @builderThrew u p => cases p <;> rfl
  | spoilPreferred | spoilFree => rw [(spoilt_spoil ..).rental]
  | _ => rfl

/-- Rentals are numbered upwards. -/
theorem PackStep.nextRental_le {cfg : Config} {P Q : Packs} {h k : Holds}
    (hs : PackStep cfg P h Q k) : P.nextRental ≤ Q.nextRental := by
  cases hs with
  | borrowPreferred _ _ hb | borrowFree _ _ hb =>
    obtain ⟨-, t, hl⟩ | ⟨-, rfl, -⟩ := borrow_cases hb
    · rw [hl.nextRental]
      exact Nat.le_succ _
    · exact Nat.le_refl _
  | overdraw => exact Nat.le_succ _
  | @removeFromFreeList u p | @builderThrew u p => cases p <;> exact Nat.le_refl _
  | spoilPreferred | spoilFree => rw [(spoilt_spoil ..).nextRental]
  | _ => exact Nat.le_refl _

namespace State

/-! ### Steps of the protocol -/

/-- What every thread has of the packs. -/
def holds (s : State) : Holds := fun u => (s.pc u).hold

@[simp] theorem holds_goto (s : State) (u : ℕ) (S : Pool) (c : Pc) :
    (s.goto u S c).holds = s.holds.set u c.hold := by
  funext v
  by_cases h : v = u <;> simp [holds, goto, h]

theorem holds_goto_of_eq {s : State} {u : ℕ} {S : Pool} {c : Pc} (h : c.hold = (s.pc u).hold) :
    (s.goto u S c).holds = s.holds := by
  funext v
  by_cases e : v = u
  · rw [holds_goto, Holds.set_apply, if_pos e, h, e]
    rfl
  · simp [e]

/-- A rental that is pointed to is live, and not in its destructor. -/
def LiveRefs (s : State) : Prop :=
  ∀ v r, s.pool.rsource.ptr v = some r →
    (∃ x, s.pool.packs.rental r = some x ∧ x.t ≠ none) ∧ ∀ u, s.holds u ≠ .releasing r

/-- A step of the protocol, or none. -/
def PackMove (cfg : Config) (s s' : State) : Prop :=
  PackStep cfg s.pool.packs s.holds s'.pool.packs s'.holds ∨
    s'.pool.packs = s.pool.packs ∧ s'.holds = s.holds

variable {cfg : Config} {s s' : State} {u : ℕ} {S : Pool} {c : Pc} {a : Action}

theorem PackMove.quiet (hS : S.packs = s.pool.packs) (hc : c.hold = (s.pc u).hold) :
    PackMove cfg s (s.goto u S c) :=
  .inr ⟨hS, holds_goto_of_eq hc⟩

theorem PackMove.loud (h : PackStep cfg s.pool.packs s.holds S.packs (s.holds.set u c.hold)) :
    PackMove cfg s (s.goto u S c) :=
  .inl ((holds_goto s u S c).symm ▸ h)

theorem PackMove.still (h : PackStep cfg s.pool.packs s.holds S.packs s.holds)
    (hc : c.hold = (s.pc u).hold) : PackMove cfg s (s.goto u S c) :=
  .inl ((holds_goto_of_eq hc).symm ▸ h)

/-- Where `borrow` leads. -/
theorem borrowed_eq (s : State) (u : ℕ) (c : Caller) (x : Option ℕ) (retry : Pc)
    (hr : retry.hold = .nothing) (b : Borrowed × Packs) :
    ∃ S d, s.borrowed u c x retry b = s.goto u S d ∧ S.packs = b.2 ∧ d.hold = .nothing := by
  obtain ⟨r | _ | _, P⟩ := b
  · exact ⟨_, _, rfl, by simp, rfl⟩
  · exact ⟨_, _, rfl, rfl, hr⟩
  · exact ⟨_, _, rfl, rfl, rfl⟩

/-- What a thread does when it has no choice. -/
theorem packMove_advance (h : s.advance cfg u = some s') : PackMove cfg s s' := by
  unfold advance at h
  cases hc : s.pc u with
  | readMaxIndex c | readRecycled c | readSize c =>
    simp only [hc, Option.some.injEq] at h
    subst h
    exact .quiet rfl (by rw [hc]; split <;> rfl)
  | fetchAdd c =>
    simp only [hc, Option.some.injEq] at h
    subst h
    exact .quiet rfl (by rw [hc]; rfl)
  | buildOrPop c | haveIndex c i =>
    simp only [hc] at h
    split at h <;> cases h <;> exact .quiet rfl (by rw [hc]; rfl)
  | returning c | dropPreference =>
    simp only [hc, Option.some.injEq] at h
    subst h
    exact .quiet (by simp) (by rw [hc]; rfl)
  | unwinding c =>
    simp only [hc, Option.some.injEq] at h
    subst h
    exact .quiet (by cases c <;> rfl) (by rw [hc]; rfl)
  | borrowPreference c i =>
    simp only [hc] at h
    split at h
    · rename_i hi
      split at h
      · rename_i hm
        cases h
        obtain ⟨S, d, he, hS, hd⟩ := borrowed_eq s u c (s.pool.preference (.param u))
          (.dequeue c false) rfl (s.pool.packs.borrow (.preferred i))
        rw [he]
        exact .still (hS ▸ .borrowPreferred hi hm rfl) (by rw [hc, hd]; rfl)
      · cases h
    · cases h
      exact .quiet rfl (by rw [hc]; rfl)
  | removeFromFreeList c wait p =>
    simp only [hc, Option.some.injEq] at h
    subst h
    exact .loud (.removeFromFreeList (by simp [holds, hc, Pc.hold]))
  | borrow c wait p =>
    simp only [hc] at h
    split at h
    · rename_i hm
      cases h
      obtain ⟨S, d, he, hS, hd⟩ := borrowed_eq s u c none
        (.dequeue c wait) rfl (s.pool.packs.borrow p)
      rw [he]
      exact .loud (hS ▸ hd ▸ .borrowFree (by simp [holds, hc, Pc.hold]) hm rfl)
    · cases h
  | overdraw c =>
    simp only [hc, Option.some.injEq] at h
    subst h
    exact .still (by simpa using .overdraw) (by rw [hc]; rfl)
  | onRelease r =>
    simp only [hc, Option.map_eq_some_iff] at h
    obtain ⟨x, hx, rfl⟩ := h
    exact .still (.beforeDelete (u := u) (by simp [holds, hc, Pc.hold]) hx) (by rw [hc]; rfl)
  | putBack r =>
    have hu : s.holds u = .releasing r := by simp [holds, hc, Pc.hold]
    simp only [hc] at h
    split at h
    · cases h
    · rename_i x hx
      split at h
      · rename_i hp
        cases h
        exact .loud (.destroyOverdrawn hu hx hp)
      · rename_i j hp
        cases h
        exact .loud (.putBackSpare hu hx hp)
      · rename_i i hp
        split at h
        · rename_i hm
          cases h
          exact .loud (.putBackPreferred hu hx hp hm)
        · cases h
  | testInFreeList i =>
    have hu : s.holds u = .testing i := by simp [holds, hc, Pc.hold]
    simp only [hc, Option.some.injEq] at h
    subst h
    cases hf : (s.pool.packs.preferred i).inFreeList with
    | true => exact .loud (by simpa using .testTrue hu hf)
    | false => exact .loud (by simpa using .testFalse hu hf)
  | setInFreeList i =>
    simp only [hc, Option.some.injEq] at h
    subst h
    exact .loud (.setInFreeList (by simp [holds, hc, Pc.hold]))
  | enqueue p =>
    have hu : s.holds u = .enqueuing p := by simp [holds, hc, Pc.hold]
    cases p with
    | preferred i =>
      simp only [hc, Option.some.injEq] at h
      subst h
      exact .loud (.enqueuePreferred hu)
    | spare j =>
      simp only [hc, Option.some.injEq] at h
      subst h
      exact .loud (.enqueueSpare hu)
  | unlock i =>
    simp only [hc, Option.some.injEq] at h
    subst h
    exact .loud (.unlock (by simp [holds, hc, Pc.hold]))
  | idle | dequeue | publish | aborted => simp [hc] at h

theorem returned_packs (S : Pool) (u h : ℕ) (c : Caller) : (S.returned u h c).packs = S.packs := by
  cases c <;> rfl

theorem PackMove.thrown {d : Caller} {wait invalid : Bool}
    (h : PackStep cfg s.pool.packs s.holds S.packs (s.holds.set u .nothing)) :
    PackMove cfg s (s.thrown u S d wait invalid) :=
  .loud (by cases invalid <;> exact h)

/-- **The packs under the machine**: a step is a step of the protocol, or none. -/
theorem packMove_of_step (live : s.LiveRefs) (h : s.step cfg a = some s') :
    PackMove cfg s s' := by
  cases a with
  | advance u => exact packMove_advance h
  | acquire u =>
    simp only [step, Option.ite_none_right_eq_some, Option.some.injEq] at h
    obtain ⟨hc, rfl⟩ := h
    exact .quiet rfl (by rw [hc]; rfl)
  | lock u w =>
    simp only [step] at h
    split at h
    · split at h
      · rename_i hc
        repeat' split at h
        all_goals
          cases h
          exact .quiet rfl (by rw [hc.1]; rfl)
      · cases h
    · cases h
  | lockLive w h' | clone h' h'' | weak h' w | assign w h' | dropWeak w | acquireWeak w =>
    simp only [step] at h
    repeat' split at h
    all_goals first
      | cases h; done
      | (cases h; exact .inr ⟨by simp, rfl⟩)
  | dropLocked u h' =>
    simp only [step] at h
    split at h
    · rename_i r hr
      split at h
      · rename_i hc
        cases h
        have hu : s.holds u = .nothing := by simp [holds, hc, Pc.hold]
        split
        · obtain ⟨⟨x, hx, ht⟩, hn⟩ := live _ _ hr
          exact .loud (by simpa using .release hu hx ht hn)
        · exact .quiet (by simp) (by rw [hc]; rfl)
      · cases h
    · cases h
  | pop u i =>
    simp only [step] at h
    split at h
    · rename_i c hc
      split at h
      · cases h
        exact .quiet rfl (by rw [hc]; rfl)
      · cases h
    · cases h
  | dequeue u p =>
    simp only [step] at h
    split at h
    · rename_i c wait hc
      split at h
      · rename_i hp
        cases h
        exact .loud (.dequeue (by simp [holds, hc, Pc.hold]) hp)
      · cases h
    · cases h
  | dequeueFails u =>
    simp only [step] at h
    split at h
    · rename_i c hc
      cases h
      exact .quiet rfl (by rw [hc]; split <;> rfl)
    · cases h
  | builderThrows u invalid =>
    simp only [step] at h
    split at h
    · rename_i c i hc
      split at h
      · cases h
        exact .quiet rfl (by rw [hc]; split <;> rfl)
      · cases h
    · rename_i c wait p hc
      split at h
      · rename_i hb
        cases h
        rw [callsBuilder, Bool.and_eq_true, Bool.not_eq_true'] at hb
        exact .thrown (.builderThrew (by simp [holds, hc, Pc.hold]) hb.2)
      · cases h
    · rename_i c hc
      cases h
      exact .quiet rfl (by rw [hc]; rfl)
    · cases h
  | hookThrows u invalid =>
    simp only [step] at h
    split at h
    · rename_i c i hc
      split at h
      · rename_i hi
        cases h
        rw [callsHook, Bool.and_eq_true] at hi
        exact .still (.spoilPreferred hi.1 hi.2.2) (by rw [hc]; split <;> rfl)
      · cases h
    · rename_i c wait p hc
      split at h
      · rename_i hb
        cases h
        rw [callsHook, Bool.and_eq_true] at hb
        exact .thrown (.spoilFree (by simp [holds, hc, Pc.hold]) hb.2)
      · cases h
    · rename_i c hc
      cases h
      exact .quiet rfl (by rw [hc]; rfl)
    · cases h
  | publish u h' =>
    simp only [step] at h
    split at h
    · rename_i c hc
      split at h
      · cases h
        exact .quiet (returned_packs _ _ _ _) (by rw [hc]; rfl)
      · cases h
    · cases h


/-! ### References -/

/-- What a step does to the references: pointers are copied or point to a new rental,
and a destructor begins when none is left. -/
structure RefMove (s s' : State) : Prop where
  ptr : ∀ v r, s'.pool.rsource.ptr v = some r → (∃ w, s.pool.rsource.ptr w = some r) ∨
    r = s.pool.packs.nextRental ∧ ∃ x, s'.pool.packs.rental r = some x ∧ x.t ≠ none
  releasing : ∀ u r, s'.holds u = .releasing r →
    s.holds u = .releasing r ∨ ∀ v, s'.pool.rsource.ptr v ≠ some r

theorem RefMove.copy {S : Pool}
    (hS : ∀ v r, S.rsource.ptr v = some r → ∃ w, s.pool.rsource.ptr w = some r)
    (hc : c.hold = (s.pc u).hold ∨ ∀ r, c.hold ≠ .releasing r) : RefMove s (s.goto u S c) := by
  refine ⟨fun v r h => .inl (hS v r h), fun w r hv => .inl ?_⟩
  rw [holds_goto, Holds.set_apply] at hv
  split at hv
  · rename_i e
    rcases hc with hc | hc
    · rwa [e, holds, ← hc]
    · exact absurd hv (hc r)
  · exact hv

theorem RefMove.still {S : Pool} (hS : S.rsource = s.pool.rsource)
    (hc : c.hold = (s.pc u).hold ∨ ∀ r, c.hold ≠ .releasing r) : RefMove s (s.goto u S c) :=
  .copy (fun v _ h => ⟨v, hS ▸ h⟩) hc

/-- A copy of a pointer. -/
theorem exists_ptr_of_assign {p : SharedPtrs Var ℕ} {v w : Var} {x : Option ℕ} {r : ℕ}
    (hx : x = some r → ∃ w, p.ptr w = some r) (h : (p.assign v x).ptr w = some r) :
    ∃ w, p.ptr w = some r := by
  rw [SharedPtrs.ptr_assign] at h
  split at h
  · exact hx h
  · exact ⟨w, h⟩

theorem refMove_borrowed {x : Option ℕ} {retry : Pc} {b : Borrowed × Packs} {p : PackId}
    (hr : retry.hold = .nothing) (hb : s.pool.packs.borrow p = b) :
    RefMove s (s.borrowed u d x retry b) := by
  obtain ⟨b, Q⟩ := b
  obtain ⟨rfl, t, hl⟩ | ⟨hb, hQ, -⟩ := borrow_cases hb
  · refine ⟨fun v r h => ?_, fun v r hv => .inl ?_⟩
    · simp only [borrowed, goto, Pool.setLocked_rsource] at h
      rw [SharedPtrs.ptr_assign] at h
      split at h
      · cases h
        refine .inr ⟨rfl, { pack := some p, t := some t }, ?_, by simp⟩
        simp [borrowed, goto, hl.rental]
      · exact .inl ⟨v, h⟩
    · simp only [borrowed, holds_goto, Holds.set_apply, Pc.hold] at hv
      grind
  · rcases hb with rfl | rfl
    · exact .still rfl (.inr (by simp [hr]))
    · exact .still rfl (.inr (by simp [Pc.hold]))

theorem refMove_advance (h : s.advance cfg u = some s') : RefMove s s' := by
  unfold advance at h
  cases hc : s.pc u with
  | readMaxIndex c | readRecycled c | readSize c =>
    simp only [hc, Option.some.injEq] at h
    subst h
    exact .still rfl (.inr (by split <;> simp [Pc.hold]))
  | fetchAdd c =>
    simp only [hc, Option.some.injEq] at h
    subst h
    exact .still rfl (.inr (by simp [Pc.hold]))
  | buildOrPop c | haveIndex c i =>
    simp only [hc] at h
    split at h <;> cases h <;> exact .still rfl (.inr (by simp [Pc.hold]))
  | returning c | dropPreference =>
    simp only [hc, Option.some.injEq] at h
    subst h
    exact .still (by simp) (.inr (by simp [Pc.hold]))
  | unwinding c =>
    simp only [hc, Option.some.injEq] at h
    subst h
    exact .still (by cases c <;> rfl) (.inr (by simp [Pc.hold]))
  | borrowPreference c i =>
    simp only [hc] at h
    split at h
    · split at h
      · cases h
        exact refMove_borrowed rfl rfl
      · cases h
    · cases h
      exact .still rfl (.inr (by simp [Pc.hold]))
  | borrow c wait p =>
    simp only [hc] at h
    split at h
    · cases h
      exact refMove_borrowed rfl rfl
    · cases h
  | overdraw c =>
    simp only [hc, Option.some.injEq] at h
    subst h
    refine ⟨fun v r h => ?_, fun v r hv => .inl ?_⟩
    · simp only [goto, Pool.setLocked_rsource] at h
      rw [SharedPtrs.ptr_assign] at h
      split at h
      · cases h
        refine .inr ⟨rfl, { pack := none, t := some (.ofOverdrawn s.pool.packs.nextRental) }, ?_,
          by simp⟩
        simp [goto, Packs.overdraw, Packs.setRental]
      · exact .inl ⟨v, h⟩
    · simp only [holds_goto, Holds.set_apply, Pc.hold] at hv
      grind
  | onRelease r =>
    simp only [hc, Option.map_eq_some_iff] at h
    obtain ⟨x, hx, rfl⟩ := h
    exact .still rfl (.inl (by rw [hc]; rfl))
  | putBack r =>
    simp only [hc] at h
    repeat' split at h
    all_goals first
      | cases h; done
      | (cases h; exact .still rfl (.inr (by simp [Pc.hold])))
  | testInFreeList i =>
    simp only [hc, Option.some.injEq] at h
    subst h
    exact .still rfl (.inr (by split <;> simp [Pc.hold]))
  | removeFromFreeList c wait p | setInFreeList i | unlock i =>
    simp only [hc, Option.some.injEq] at h
    subst h
    exact .still rfl (.inr (by simp [Pc.hold]))
  | enqueue p =>
    cases p <;> simp only [hc, Option.some.injEq] at h <;> subst h <;>
      exact .still rfl (.inr (by simp [Pc.hold]))
  | idle | dequeue | publish | aborted => simp [hc] at h

theorem refMove_user {S : Pool}
    (hS : ∀ v r, S.rsource.ptr v = some r → ∃ w, s.pool.rsource.ptr w = some r) :
    RefMove s ⟨S, s.pc⟩ :=
  ⟨fun v r h => .inl (hS v r h), fun _ _ h => .inl h⟩

theorem exists_ptr_of_returned {S : Pool} {u h : ℕ} {c : Caller} {v : Var} {r : ℕ}
    (hv : (S.returned u h c).rsource.ptr v = some r) : ∃ w, S.rsource.ptr w = some r := by
  have key : ∀ T : Pool, T.rsource = S.rsource →
      (T.moveResult u h).rsource.ptr v = some r → ∃ w, S.rsource.ptr w = some r := by
    intro T hT hv
    simp only [Pool.moveResult, Pool.setLocked_rsource, hT] at hv
    obtain ⟨w, hw⟩ := exists_ptr_of_assign (by simp) hv
    exact exists_ptr_of_assign (fun e => ⟨_, e⟩) hw
  cases c with
  | acquire => exact key _ rfl hv
  | lockPreferred w => exact key (S.setWeak w _) rfl hv
  | lockNew w => exact key ((S.setPreference (.weak w) _).setWeak w _) rfl hv

theorem refMove_of_step (h : s.step cfg a = some s') : RefMove s s' := by
  cases a with
  | advance u => exact refMove_advance h
  | acquire u =>
    simp only [step, Option.ite_none_right_eq_some, Option.some.injEq] at h
    obtain ⟨hc, rfl⟩ := h
    exact .still rfl (.inr (by simp [Pc.hold]))
  | lock u w =>
    simp only [step] at h
    split at h
    · split at h
      · repeat' split at h
        all_goals
          cases h
          exact .still rfl (.inr (by simp [Pc.hold]))
      · cases h
    · cases h
  | lockLive w h' =>
    simp only [step] at h
    split at h
    · split at h
      · rename_i x hx r hr
        split at h
        · cases h
          refine refMove_user fun v r' hv => ?_
          rw [Pool.setLocked_rsource] at hv
          exact exists_ptr_of_assign (fun e => e ▸ Pool.exists_of_lockable hr) hv
        · cases h
      · cases h
    · cases h
  | clone h₁ h₂ =>
    simp only [step] at h
    split at h
    · rename_i r hr
      split at h
      · cases h
        refine refMove_user fun v r' hv => ?_
        rw [Pool.setLocked_rsource] at hv
        exact exists_ptr_of_assign (fun e => ⟨_, e ▸ hr⟩) hv
      · cases h
    · cases h
  | weak h' w | assign w h' | dropWeak w | acquireWeak w =>
    simp only [step] at h
    repeat' split at h
    all_goals first
      | cases h; done
      | (cases h; exact refMove_user fun v r' hv => ⟨v, by simpa using hv⟩)
  | dropLocked u h' =>
    simp only [step] at h
    split at h
    · rename_i r hr
      split at h
      · cases h
        have hp : ∀ v r', (s.pool.rsource.assign (.locked h') none).ptr v = some r' →
            ∃ w, s.pool.rsource.ptr w = some r' := fun v r' hv => exists_ptr_of_assign (by simp) hv
        split
        · rename_i he
          rw [Pool.setLocked_rsource, Pool.setPreference_rsource] at he
          refine ⟨fun v r' hv => .inl (hp v r' (by simpa [goto] using hv)), fun v r' hv => ?_⟩
          rw [holds_goto, Holds.set_apply] at hv
          split at hv
          · obtain rfl : r = r' := by simpa [Pc.hold] using hv
            refine .inr fun v hv => ?_
            exact SharedPtrs.expired_iff.mp he v (by simpa [goto] using hv)
          · exact .inl hv
        · exact .copy (fun v r' hv => hp v r' (by simpa using hv)) (.inr (by simp [Pc.hold]))
      · cases h
    · cases h
  | pop u i | dequeue u p =>
    simp only [step] at h
    split at h
    · split at h
      · cases h
        exact .still rfl (.inr (by simp [Pc.hold]))
      · cases h
    · cases h
  | dequeueFails u =>
    simp only [step] at h
    split at h
    · cases h
      exact .still rfl (.inr (by split <;> simp [Pc.hold]))
    · cases h
  | builderThrows u invalid | hookThrows u invalid =>
    simp only [step] at h
    repeat' split at h
    all_goals first
      | cases h; done
      | (cases h; exact .still rfl (.inr (by cases invalid <;> simp [Pc.hold])))
  | publish u h' =>
    simp only [step] at h
    split at h
    · split at h
      · cases h
        exact .copy (fun v r hv => exists_ptr_of_returned hv) (.inr (by simp [Pc.hold]))
      · cases h
    · cases h

/-- **References under the machine.** -/
theorem LiveRefs.step (live : s.LiveRefs) (inv : PackInv cfg s.pool.packs s.holds)
    (hp : PackMove cfg s s') (hr : RefMove s s') : s'.LiveRefs := by
  have fresh : ∀ u, s.holds u ≠ .releasing s.pool.packs.nextRental := by
    intro u hu
    obtain ⟨x, hx, -⟩ := inv.releases.live u _ hu
    simp [inv.objects.fresh _ (Nat.le_refl _)] at hx
  intro v r hv
  have hn : (∀ u, s.holds u ≠ .releasing r) → ∀ u, s'.holds u ≠ .releasing r := by
    intro h u hu
    rcases hr.releasing u r hu with h' | h'
    · exact h u h'
    · exact h' v hv
  rcases hr.ptr v r hv with ⟨w, hw⟩ | ⟨rfl, hx⟩
  · obtain ⟨hx, hu⟩ := live w r hw
    refine ⟨?_, hn hu⟩
    rcases hp with hp | ⟨hp, -⟩
    · obtain ⟨x, hx, ht⟩ := hx
      exact ⟨x, (hp.rental_eq inv.objects (by simp [hx]) hu).trans hx, ht⟩
    · rwa [hp]
  · exact ⟨hx, hn fresh⟩

/-- **The protocol's invariant holds of every reachable state.** -/
theorem packInv_of_reach {P : State → Action → Prop} (h : Machine.Reach (step cfg) P (init cfg) s) :
    PackInv cfg s.pool.packs s.holds ∧ s.LiveRefs := by
  induction h with
  | refl => exact ⟨PackInv.init cfg, fun v r hv => by simp [init, Pool.init] at hv⟩
  | tail _ _ hs ih =>
    obtain ⟨inv, live⟩ := ih
    have hp := packMove_of_step live hs
    refine ⟨?_, live.step inv hp (refMove_of_step hs)⟩
    rcases hp with hp | ⟨hp, hh⟩
    · exact inv.step hp
    · rw [hp, hh]
      exact inv

/-! ### Rentals over a run -/

theorem nextRental_of_reach {P : State → Action → Prop} {s₀ : State}
    (h₀ : Machine.Reach (step cfg) P (init cfg) s₀) (h : Machine.Reach (step cfg) P s₀ s) :
    s₀.pool.packs.nextRental ≤ s.pool.packs.nextRental := by
  induction h with
  | refl => exact Nat.le_refl _
  | tail hr _ hs ih =>
    rcases packMove_of_step (packInv_of_reach (h₀.trans hr)).2 hs with hp | ⟨hp, -⟩
    · exact Nat.le_trans ih hp.nextRental_le
    · rwa [hp]

/-- **A rental that is pointed to was pointed to before**, unless it has been made since,
and it has not changed. -/
theorem rental_of_reach {P : State → Action → Prop} {s₀ : State} {r : ℕ}
    (h₀ : Machine.Reach (step cfg) P (init cfg) s₀) (h : Machine.Reach (step cfg) P s₀ s)
    (hr : ∃ v, s.pool.rsource.ptr v = some r) (hlt : r < s₀.pool.packs.nextRental) :
    (∃ v, s₀.pool.rsource.ptr v = some r) ∧
      s.pool.packs.rental r = s₀.pool.packs.rental r := by
  induction h with
  | refl => exact ⟨hr, rfl⟩
  | tail hrun _ hs ih =>
    obtain ⟨inv, live⟩ := packInv_of_reach (h₀.trans hrun)
    obtain ⟨v, hv⟩ := hr
    have hle := nextRental_of_reach h₀ hrun
    obtain ⟨w, hw⟩ := ((refMove_of_step hs).ptr v r hv).resolve_right fun h =>
      Nat.lt_irrefl r (Nat.lt_of_lt_of_le hlt (h.1 ▸ hle))
    obtain ⟨hx, heq⟩ := ih ⟨w, hw⟩
    obtain ⟨⟨x, hx', -⟩, hu⟩ := live w r hw
    refine ⟨hx, ?_⟩
    rcases packMove_of_step live hs with hp | ⟨hp, -⟩
    · rw [hp.rental_eq inv.objects (by simp [hx']) hu, heq]
    · rw [hp, heq]

/-! ### What exceptions cost -/

/-- No `onAcquire` throws, and no `builder` while its thread has a queue entry in hand. -/
def KeepsPacks (s : State) (a : Action) : Prop :=
  (∀ u invalid, a = .builderThrows u invalid → ∀ c wait p, s.pc u ≠ .borrow c wait p) ∧
    ∀ u invalid, a ≠ .hookThrows u invalid

theorem lost_borrowed {x : Option ℕ} {retry : Pc} {d : Caller} {p : PackId} :
    (s.borrowed u d x retry (s.pool.packs.borrow p)).pool.packs.lost = s.pool.packs.lost := by
  cases hb : s.pool.packs.borrow p with
  | mk b Q =>
    obtain ⟨rfl, t, hl⟩ | ⟨rfl | rfl, rfl, -⟩ := borrow_cases hb
    · exact hl.lost
    · rfl
    · rfl

theorem lost_advance (h : s.advance cfg u = some s') : s'.pool.packs.lost = s.pool.packs.lost := by
  unfold advance at h
  cases hc : s.pc u with
  | borrowPreference c i =>
    simp only [hc] at h
    split at h
    · split at h <;> cases h
      exact lost_borrowed
    · cases h
      rfl
  | borrow c wait p =>
    simp only [hc] at h
    split at h <;> cases h
    exact lost_borrowed
  | onRelease r =>
    simp only [hc, Option.map_eq_some_iff] at h
    obtain ⟨x, -, rfl⟩ := h
    rfl
  | enqueue p | removeFromFreeList c wait p =>
    cases p <;> simp only [hc, Option.some.injEq] at h <;> subst h <;> rfl
  | unwinding c =>
    simp only [hc, Option.some.injEq] at h
    subst h
    cases c <;> rfl
  | _ =>
    simp only [hc, reduceCtorEq] at h
    repeat' split at h
    all_goals cases h <;> rfl

/-- Only exceptions lose packs. -/
theorem lost_of_step (ha : s.KeepsPacks a) (h : s.step cfg a = some s') :
    s'.pool.packs.lost = s.pool.packs.lost := by
  cases a with
  | advance u => exact lost_advance h
  | builderThrows u invalid =>
    simp only [step] at h
    split at h
    · split at h <;> cases h
      rfl
    · rename_i hc
      exact absurd hc (ha.1 u invalid rfl _ _ _)
    · cases h
      rfl
    · cases h
  | hookThrows u invalid => exact absurd rfl (ha.2 u invalid)
  | publish u h' =>
    simp only [step] at h
    repeat' split at h
    all_goals cases h <;> exact congrArg Packs.lost (returned_packs _ _ _ _)
  | _ =>
    simp only [step] at h
    repeat' split at h
    all_goals cases h <;> rfl

theorem lost_of_reach (h : Machine.Reach (step cfg) KeepsPacks (init cfg) s) (p : PackId) :
    s.pool.packs.lost p = false := by
  induction h with
  | refl => rfl
  | tail _ ha hs ih => rw [lost_of_step ha hs, ih]

end State

end MutilsTasks.ResourcePool
