import MutilsTasks.ResourcePool.Concurrent

/-!
# The indices under the machine

Every step of the interleaved machine, also one with an exception, is a run
of the indices' protocol (`indexMove_of_step`): most are no step of it or one, and
the end of a call copies and clears several `index_preference`s. So both invariants
of the indices hold of every reachable state.
-/

namespace MutilsTasks.ResourcePool

open Packs

/-- The index a thread has taken and not built an `index_owner` for. -/
def Pc.taken : Pc → Option ℕ
  | .haveIndex _ i => some i
  | _ => none

namespace State

/-- The indices that threads have taken. -/
def taken (s : State) : Taken := fun u => (s.pc u).taken

variable {cfg : Config} {s s' : State} {u : ℕ} {S : Pool} {c : Pc} {a : Action}

@[simp] theorem taken_goto (s : State) (u : ℕ) (S : Pool) (c : Pc) :
    (s.goto u S c).taken = Function.update s.taken u c.taken := by
  funext v
  by_cases h : v = u <;> simp [taken, goto, h]

theorem taken_goto_of_eq (h : c.taken = (s.pc u).taken) : (s.goto u S c).taken = s.taken := by
  rw [taken_goto, h]
  exact Function.update_eq_self u s.taken

/-- A run of the indices' protocol. -/
def IndexMove (cfg : Config) (s s' : State) : Prop :=
  IndexRun cfg (s.pool.indices, s.taken) (s'.pool.indices, s'.taken)

theorem IndexMove.quiet (hS : S.indices = s.pool.indices) (hc : c.taken = (s.pc u).taken) :
    IndexMove cfg s (s.goto u S c) := by
  rw [IndexMove, taken_goto_of_eq hc]
  exact hS ▸ .refl

theorem IndexMove.one (h : IndexStep cfg s.pool.indices s.taken S.indices
    (Function.update s.taken u c.taken)) : IndexMove cfg s (s.goto u S c) := by
  rw [IndexMove, taken_goto]
  exact .single h

/-- Copies and deletions of preferences. -/
theorem IndexRun.setPreference {a : Indices × Taken} {I : Indices} {k : Taken} {v : Var}
    {x : Option ℕ} (h : IndexRun cfg a (I, k))
    (hx : ∀ o, x = some o → ∃ w, I.preference.ptr w = some o) :
    IndexRun cfg a (I.setPreference v x, k) :=
  h.tail (.setPreference hx)

theorem IndexMove.prefs (h : IndexRun cfg (s.pool.indices, s.taken) (S.indices, s.taken))
    (hc : c.taken = (s.pc u).taken) : IndexMove cfg s (s.goto u S c) := by
  rw [IndexMove, taken_goto_of_eq hc]
  exact h

theorem indexMove_borrowed {d : Caller} {x : Option ℕ} {retry : Pc} {b : Borrowed × Packs}
    (hc : (s.pc u).taken = none) (hr : retry.taken = none)
    (hx : ∀ o, x = some o → ∃ w, s.pool.indices.preference.ptr w = some o) :
    IndexMove cfg s (s.borrowed u d x retry b) := by
  obtain ⟨r | _ | _, P⟩ := b
  · exact .prefs (IndexRun.setPreference .refl hx) (by rw [hc]; rfl)
  · exact .quiet rfl (by rw [hc, hr])
  · exact .quiet rfl (by rw [hc]; rfl)

theorem indexMove_advance (h : s.advance cfg u = some s') : IndexMove cfg s s' := by
  unfold advance at h
  cases hc : s.pc u with
  | readMaxIndex c | readRecycled c | readSize c | testInFreeList =>
    simp only [hc, Option.some.injEq] at h
    subst h
    exact .quiet rfl (by rw [hc]; split <;> rfl)
  | fetchAdd c =>
    simp only [hc, Option.some.injEq] at h
    subst h
    exact .one (.fetchAdd (by rw [taken, hc]; rfl))
  | buildOrPop c =>
    simp only [hc] at h
    split at h <;> cases h
    exact .one (.fetchAdd (by rw [taken, hc]; rfl))
  | haveIndex c i =>
    have hu : s.taken u = some i := by rw [taken, hc]; rfl
    simp only [hc] at h
    split at h <;> cases h
    · exact .one (.makeOwner hu ‹_›)
    · exact .one (.lose hu ‹_›)
  | returning c | dropPreference =>
    simp only [hc, Option.some.injEq] at h
    subst h
    exact .prefs (IndexRun.setPreference .refl (by simp)) (by rw [hc]; rfl)
  | unwinding c =>
    simp only [hc, Option.some.injEq] at h
    subst h
    exact .prefs (by cases c <;> exact IndexRun.setPreference .refl (by simp)) (by rw [hc]; rfl)
  | borrowPreference c i =>
    simp only [hc] at h
    split at h
    · split at h <;> cases h
      exact indexMove_borrowed (by rw [hc]; rfl) rfl fun o ho => ⟨_, ho⟩
    · cases h
      exact .quiet rfl (by rw [hc]; rfl)
  | borrow c wait p =>
    simp only [hc] at h
    split at h <;> cases h
    exact indexMove_borrowed (by rw [hc]; rfl) rfl (by simp)
  | overdraw c =>
    simp only [hc, Option.some.injEq] at h
    subst h
    exact .prefs (IndexRun.setPreference .refl (by simp)) (by rw [hc]; rfl)
  | onRelease r =>
    simp only [hc, Option.map_eq_some_iff] at h
    obtain ⟨x, hx, rfl⟩ := h
    exact .quiet rfl (by rw [hc]; rfl)
  | putBack r =>
    simp only [hc] at h
    repeat' split at h
    all_goals first
      | cases h; done
      | (cases h; exact .quiet rfl (by rw [hc]; rfl))
  | removeFromFreeList c wait p | setInFreeList i | unlock i =>
    simp only [hc, Option.some.injEq] at h
    subst h
    exact .quiet rfl (by rw [hc]; rfl)
  | enqueue p =>
    cases p <;> simp only [hc, Option.some.injEq] at h <;> subst h <;>
      exact .quiet rfl (by rw [hc]; rfl)
  | idle | dequeue | publish | aborted => simp [hc] at h

theorem indexRun_returned (S : Pool) (k : Taken) (u h : ℕ) (c : Caller) :
    IndexRun cfg (S.indices, k) ((S.returned u h c).indices, k) := by
  have key : ∀ T : Pool, IndexRun cfg (S.indices, k) (T.indices, k) →
      IndexRun cfg (S.indices, k) ((T.moveResult u h).indices, k) := fun T hT =>
    IndexRun.setPreference (IndexRun.setPreference hT fun o ho => ⟨_, ho⟩) (by simp)
  cases c with
  | acquire => exact key S .refl
  | lockPreferred w => exact key (S.setWeak w _) .refl
  | lockNew w =>
    exact key ((S.setPreference (.weak w) _).setWeak w _)
      (IndexRun.setPreference .refl fun o ho => ⟨_, ho⟩)

/-- **The indices under the machine.** -/
theorem indexMove_of_step (h : s.step cfg a = some s') : IndexMove cfg s s' := by
  cases a with
  | advance u => exact indexMove_advance h
  | acquire u =>
    simp only [step, Option.ite_none_right_eq_some, Option.some.injEq] at h
    obtain ⟨hc, rfl⟩ := h
    exact .quiet rfl (by rw [hc]; rfl)
  | lock u w =>
    simp only [step] at h
    split at h
    · split at h
      · rename_i hc
        split at h
        · rename_i o ho
          split at h <;> cases h
          · exact .prefs (IndexRun.setPreference .refl fun o' ho' => ⟨_, ho' ▸ ho⟩)
              (by rw [hc.1]; rfl)
          · exact .quiet rfl (by rw [hc.1]; rfl)
        · cases h
          exact .quiet rfl (by rw [hc.1]; rfl)
      · cases h
    · cases h
  | lockLive w h' | clone h' h'' | weak h' w | assign w h' | dropWeak w =>
    simp only [step] at h
    repeat' split at h
    all_goals first
      | cases h; done
      | (cases h; exact IndexRun.setPreference .refl (by simp))
      | (cases h; exact IndexRun.setPreference .refl fun o ho => ⟨_, ho⟩)
  | acquireWeak w =>
    simp only [step] at h
    split at h <;> cases h
    exact .refl
  | dropLocked u h' =>
    simp only [step] at h
    split at h
    · split at h
      · rename_i hc
        cases h
        refine .prefs (IndexRun.setPreference (IndexRun.setPreference .refl fun o ho => ⟨_, ho⟩)
          (by simp)) (by rw [hc]; split <;> rfl)
      · cases h
    · cases h
  | pop u i =>
    simp only [step] at h
    split at h
    · rename_i c hc
      split at h <;> cases h
      exact .one (.pop (by rw [taken, hc]; rfl) ‹_›)
    · cases h
  | dequeue u p =>
    simp only [step] at h
    split at h
    · rename_i c wait hc
      split at h <;> cases h
      exact .quiet rfl (by rw [hc]; rfl)
    · cases h
  | dequeueFails u =>
    simp only [step] at h
    split at h
    · rename_i c hc
      cases h
      exact .quiet rfl (by rw [hc]; split <;> rfl)
    · cases h
  | builderThrows u invalid | hookThrows u invalid =>
    simp only [step] at h
    split at h
    · rename_i hc
      split at h <;> cases h
      exact .quiet rfl (by rw [hc]; cases invalid <;> rfl)
    · rename_i hc
      split at h <;> cases h
      exact .quiet rfl (by rw [hc]; cases invalid <;> rfl)
    · rename_i hc
      cases h
      exact .quiet rfl (by rw [hc]; rfl)
    · cases h
  | publish u h' =>
    simp only [step] at h
    split at h
    · rename_i c hc
      split at h <;> cases h
      exact .prefs (indexRun_returned _ _ _ _ _) (by rw [hc]; rfl)
    · cases h

/-! ### The invariants -/

theorem indexRun_of_reach {P : State → Action → Prop} (h : Machine.Reach (step cfg) P (init cfg) s) :
    IndexRun cfg (.init, fun _ => none) (s.pool.indices, s.taken) := by
  induction h with
  | refl => exact .refl
  | tail _ _ hs ih => exact ih.trans (indexMove_of_step hs)

/-- The owners in every reachable state. -/
theorem owners_of_reach {P : State → Action → Prop} (h : Machine.Reach (step cfg) P (init cfg) s) :
    Owners cfg s.pool.indices :=
  (Owners.init cfg).run (indexRun_of_reach h)

/-- **The indices in every reachable state**, while the counter has not wrapped. -/
theorem indexInv_of_reach {P : State → Action → Prop} (h : Machine.Reach (step cfg) P (init cfg) s)
    (hs : s.pool.indices.fetchAdds < 2 ^ 64) : IndexInv cfg s.pool.indices s.taken :=
  (IndexInv.init cfg).run (Owners.init cfg) hs (indexRun_of_reach h)

/-- No index that was issued is lost. -/
theorem kept_of_reach {P : State → Action → Prop} (h : Machine.Reach (step cfg) P (init cfg) s) :
    s.pool.indices.Kept cfg s.taken := by
  have h₀ : Indices.init.Kept cfg fun _ => none := fun _ _ hlt => absurd hlt (Nat.not_lt_zero _)
  exact h₀.run (Owners.init cfg) (indexRun_of_reach h)

/-- **The index of an `index_owner` does not change** while it is pointed to. -/
theorem indexOwner_of_reach {P : State → Action → Prop} {s₀ : State} {v : Var} {o i : ℕ}
    (h₀ : Machine.Reach (step cfg) P (init cfg) s₀) (h : Machine.Reach (step cfg) P s₀ s)
    (ho : s₀.pool.indices.indexOwner o = some i) (hv : s.pool.preference v = some o) :
    s.pool.indices.indexOwner o = some i := by
  have hrun : IndexRun cfg (s₀.pool.indices, s₀.taken) (s.pool.indices, s.taken) := by
    clear hv
    induction h with
    | refl => exact .refl
    | tail _ _ hs ih => exact ih.trans (indexMove_of_step hs)
  obtain ⟨j, hj⟩ := (owners_of_reach (h₀.trans h)).live v o hv
  rcases (owners_of_reach h₀).indexOwner_run hrun ho with hi | hi <;>
    have hi' : s.pool.indices.indexOwner o = _ := hi
  · exact hi'
  · rw [hi'] at hj
    cases hj

end State

end MutilsTasks.ResourcePool
