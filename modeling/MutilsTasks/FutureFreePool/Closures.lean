import MutilsTasks.FutureFreePool.Ids

/-!
# Where the closures of the tasks end

Where the shared state of a `packaged_task` keeps its function (`keeps`), the future in
`pending` keeps the closure, and with it the id. It would be destroyed when another future is
assigned to the slot, but that takes a call with the same id. So as long as no two calls have
one id, no closure is ever destroyed, and no id ever comes back.

Where the `packaged_task` has the function, the closure is destroyed with the worker's functor,
or at the end of `GlobalPool::push` if that comes later.
-/

namespace MutilsTasks.FutureFreePool

open Machine Tokens

/-- The closure of the task has not been destroyed. -/
def Task.intact : Task → Bool
  | .queued | .running | .returned | .kept => true
  | _ => false

namespace State

variable {keeps : Bool} {s s' : State} {a : Action} {u v : ℕ} {c : Call}

/-- **What has become of the closures.** -/
structure Closures (keeps : Bool) (s : State) : Prop where
  /-- What the shared state keeps is not destroyed. -/
  intact : keeps = true → ∀ u pos b t, s.call u = .pushed pos b t → t.intact = true
  /-- A future that was stored is still in its slot. -/
  owner : keeps = true → ∀ u pos, (s.call u).filed = some pos → s.pending pos = some u
  /-- What the `packaged_task` keeps is destroyed when `GlobalPool::push` returns. -/
  brief : keeps = false → ∀ u pos b, s.call u = .pushed pos b .kept → b = .pushing

theorem init_closures (keeps : Bool) : init.Closures keeps := ⟨nofun, nofun, nofun⟩

namespace Closures

/-- One call moves on, and `pending` stays. -/
theorem goto (h : s.Closures keeps) {l : List ℤ} {m : Option ℕ} {us : List ℕ}
    (hi : keeps = true → ∀ pos b t, c = .pushed pos b t → t.intact = true)
    (ho : keeps = true → ∀ pos, c.filed = some pos → s.pending pos = some u)
    (hb : keeps = false → ∀ pos b, c = .pushed pos b .kept → b = .pushing) :
    ({ s with availableIds := l, mutex := m, launched := us }.goto u c).Closures keeps := by
  refine ⟨fun hk v pos b t hv => ?_, fun hk v pos hv => ?_, fun hk v pos b hv => ?_⟩ <;>
    rw [goto_call] at hv <;> split at hv
  · exact hi hk pos b t hv
  · exact h.intact hk v pos b t hv
  · rename_i e
    exact e ▸ ho hk pos hv
  · exact h.owner hk v pos hv
  · exact hb hk pos b hv
  · exact h.brief hk v pos b hv

/-- A call that is not on the global pool yet. -/
theorem goto_early (h : s.Closures keeps) {l : List ℤ} {m : Option ℕ} {us : List ℕ}
    (hc : ∀ pos b t, c ≠ .pushed pos b t) :
    ({ s with availableIds := l, mutex := m, launched := us }.goto u c).Closures keeps := by
  refine h.goto (fun _ pos b t e => absurd e (hc pos b t)) (fun _ pos e => ?_)
    fun _ pos b e => absurd e (hc pos b .kept)
  cases c with
  | pushed pos b t => exact absurd rfl (hc pos b t)
  | _ => cases e

/-- A task goes on, whose closure is intact and is not kept. -/
theorem goto_task (h : s.Closures keeps) {pos : ℤ} {b : Stage} {t t' : Task}
    (hc : s.call u = .pushed pos b t) (hi : keeps = true → t'.intact = true)
    (hb : keeps = false → t' = .kept → b = .pushing) {l : List ℤ} {m : Option ℕ} :
    ({ s with availableIds := l, mutex := m }.goto u (.pushed pos b t')).Closures keeps := by
  refine h.goto (fun hk _ _ _ e => ?_) (fun hk p e => ?_) fun hk _ _ e => ?_
  · cases e
    exact hi hk
  · refine h.owner hk u p ?_
    rw [hc]
    cases b <;> exact e
  · cases e
    exact hb hk rfl

/-- A task whose closure is intact has an id. -/
theorem hand_of_intact {pos : ℤ} {b : Stage} {t : Task} (hc : s.call u = .pushed pos b t)
    (ht : t.intact = true) : s.hand u = some pos := by
  rw [hand, hc]
  cases t <;> first | rfl | cases ht

/-- **No closure is destroyed with the future that is overwritten.** -/
theorem discard_eq_self (h : s.Closures keeps) (inv : s.Inv) {pos : ℤ} {t : Task}
    (hu : s.call u = .pushed pos .returned t) : s.discard (s.pending pos) = s := by
  cases hw : s.pending pos with
  | none => rfl
  | some w =>
    simp only [discard]
    split
    · rename_i p t' hc
      have ht' : t' ≠ .kept := by
        rintro rfl
        cases keeps with
        | false =>
          have := h.brief rfl w p .stored hc
          cases this
        | true =>
          -- it would be the future of a call with the same id
          have hp : p = pos := by
            have := inv.filed pos w hw
            rw [hc] at this
            exact Option.some.inj this
          have h₁ := hand_of_intact hc rfl
          have h₂ := hand_of_intact hu (h.intact rfl u _ _ _ hu)
          obtain rfl := inv.distinct.one u w pos h₂ (hp ▸ h₁)
          rw [hu] at hc
          cases hc
      have hr : t'.release = t' := by cases t' <;> first | rfl | exact absurd rfl ht'
      rw [hr, State.goto, ← hc, Function.update_eq_self]
    · rfl

theorem advance (h : s.Closures keeps) (inv : s.Inv) (hs : s.advance keeps u = some s') :
    s'.Closures keeps := by
  unfold State.advance at hs
  cases hc : s.call u with
  | idle => simp [hc] at hs
  | lock =>
    simp only [hc, Option.ite_none_right_eq_some, Option.some.injEq] at hs
    obtain ⟨-, rfl⟩ := hs
    exact h.goto_early nofun
  | unlock =>
    simp only [hc, Option.some.injEq] at hs
    subst hs
    exact h.goto_early nofun
  | front =>
    simp only [hc, Option.map_eq_some_iff] at hs
    obtain ⟨pos, -, rfl⟩ := hs
    exact h.goto_early nofun
  | popFront pos =>
    simp only [hc, Option.ite_none_left_eq_some, Option.some.injEq] at hs
    obtain ⟨-, rfl⟩ := hs
    exact h.goto_early nofun
  | assertPos pos =>
    simp only [hc, Option.ite_none_right_eq_some, Option.some.injEq] at hs
    obtain ⟨-, rfl⟩ := hs
    exact h.goto_early nofun
  | push pos =>
    simp only [hc, Option.some.injEq] at hs
    subst hs
    refine h.goto (fun _ _ _ _ e => ?_) nofun nofun
    cases e
    rfl
  | pushed pos b t =>
    cases b with
    | pushing =>
      simp only [hc, Option.some.injEq] at hs
      subst hs
      refine h.goto (fun hk _ _ _ e => ?_) nofun fun hk _ _ e => ?_
      · cases e
        rw [if_pos hk]
        exact h.intact hk u _ _ _ hc
      · simp only [hk, Bool.false_eq_true, if_false] at e
        cases t <;> cases e
    | returned =>
      simp only [hc, Option.some.injEq] at hs
      rw [h.discard_eq_self inv hc] at hs
      subst hs
      refine ⟨fun hk v p b t' hv => ?_, fun hk v p hv => ?_, fun hk v p b hv => ?_⟩ <;>
        rw [goto_call] at hv <;> split at hv
      · cases hv
        exact h.intact hk u _ _ _ hc
      · exact h.intact hk v p b t' hv
      · cases hv
        rename_i e
        rw [e]
        exact Function.update_self ..
      · -- another call has its future in another slot
        rename_i hvu
        have hp : p ≠ pos := by
          rintro rfl
          cases hcv : s.call v with
          | pushed q b t' =>
            have h₁ := hand_of_intact hcv (h.intact hk v _ _ _ hcv)
            have h₂ := hand_of_intact hc (h.intact hk u _ _ _ hc)
            have hq : q = p := by
              rw [hcv] at hv
              cases b <;> cases hv
              rfl
            exact hvu (inv.distinct.one v u p (hq ▸ h₁) h₂)
          | _ => rw [hcv] at hv; cases hv
        exact (Function.update_of_ne hp ..).trans (h.owner hk v p hv)
      · cases hv
        exact absurd (h.brief hk u _ _ hc) nofun
      · exact h.brief hk v p b hv
    | stored => simp [hc] at hs

theorem work (h : s.Closures keeps) (hs : s.work keeps u = some s') : s'.Closures keeps := by
  -- what the shared state keeps is intact
  have goes : ∀ {pos b t} {t' : Task}, s.call u = .pushed pos b t → t.intact = false →
      keeps = true → t'.intact = true := by
    intro pos b t t' hc ht hk
    rw [h.intact hk u pos b t hc] at ht
    cases ht
  unfold State.work at hs
  split at hs
  case h_1 hc =>
    cases hs
    exact h.goto_task hc (fun _ => rfl) fun _ e => by cases e
  case h_2 hc =>
    cases hs
    exact h.goto_task hc (fun _ => rfl) fun _ e => by cases e
  case h_3 pos b hc =>
    cases hs
    refine h.goto_task hc (fun hk => ?_) fun hk e => ?_
    · have hn : s.needed keeps u pos b = true := by
        cases b with
        | pushing => rfl
        | returned => exact hk
        | stored =>
          have := h.owner hk u pos (by rw [hc]; rfl)
          simp [needed, hk, this]
      rw [if_pos hn]
      rfl
    · cases b with
      | pushing => rfl
      | returned | stored => simp [needed, hk] at e
  case h_4 hc =>
    simp only [Option.ite_none_right_eq_some, Option.some.injEq] at hs
    obtain ⟨-, rfl⟩ := hs
    exact h.goto_task hc (goes hc rfl) fun _ e => by cases e
  case h_5 hc =>
    cases hs
    exact h.goto_task hc (goes hc rfl) fun _ e => by cases e
  case h_6 hc =>
    cases hs
    exact h.goto_task hc (goes hc rfl) fun _ e => by cases e
  case h_7 => cases hs

/-- **Every step keeps it.** -/
theorem step (h : s.Closures keeps) (inv : s.Inv) (hs : s.step keeps a = some s') :
    s'.Closures keeps := by
  cases a with
  | launch u =>
    simp only [State.step, Option.ite_none_right_eq_some, Option.some.injEq] at hs
    obtain ⟨-, rfl⟩ := hs
    exact h.goto_early fun _ _ _ e => by cases e
  | advance u => exact h.advance inv hs
  | work u => exact h.work hs

/-- The other calls stay where they are. -/
theorem call_of_ne (h : s.Closures keeps) (inv : s.Inv) (hs : s.step keeps a = some s')
    (hv : v ≠ a.thread) : s'.call v = s.call v := by
  have hm := step_spec hs
  generalize a.thread = u at hm hv
  cases hm with
  | stores hu =>
    rw [h.discard_eq_self inv hu]
    exact (goto_call _ _ _ _).trans (if_neg hv)
  | _ => exact (goto_call _ _ _ _).trans (if_neg hv)

/-- **Where the shared state keeps the function, no id comes back.** -/
theorem unfinished_eq (h : s.Closures true) (inv : s.Inv) : s.unfinished = s.launched.length := by
  rw [unfinished, List.countP_eq_length]
  intro u hu
  have hne := (inv.launched u).mp hu
  cases hc : s.call u with
  | idle => exact absurd hc hne
  | pushed pos b t =>
    have ht := h.intact rfl u pos b t hc
    cases t <;> first | rfl | cases ht
  | _ => rfl

end Closures

end State

end MutilsTasks.FutureFreePool
