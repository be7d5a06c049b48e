import MutilsTasks.DelayThread.Worker

/-!
# When the delay thread abandons its queue

The condition of the worker's loop is that `wait_dequeue_timed` has returned an element.
A second without one ends the loop, whether or not the `delay_thread` is being destroyed,
and nothing restarts it: what is submitted from then on stays in the queue.

No action is lost on the way, so as long as the worker does not time out too early
(`Patient`), everything that has been submitted has been started, is in the worker's
hands or is in the queue of a worker that is running.
-/

namespace MutilsTasks.DelayThread

open Machine

namespace State

variable {s s' : State} {a : Action} {now : ℤ}

/-- Where a submitted action is. -/
def Accounted (s : State) (x : DelayedAction) : Prop :=
  (∃ t, (x, t) ∈ s.started) ∨ s.worker.current = some x ∨ ∃ client, (client, x) ∈ s.q

/-- **The queue is not abandoned.** -/
def Attended (s : State) : Prop :=
  s.destroying = false → s.worker ≠ .exited ∧ ∀ x ∈ s.submitted, s.Accounted x.action

/-- The worker does not time out before it is to stop. -/
def Patient (s : State) (a : Action) : Prop := a = .timeout → s.destroying = true

/-- **What holds in every reachable state.** -/
structure Tracked (s : State) : Prop where
  running : ∀ a, s.worker = .running a → ∃ t, (a, t) ∈ s.started
  places : s.destroying = false → ∀ x ∈ s.submitted, s.Accounted x.action

theorem init_tracked (now : ℤ) : (init now).Tracked := ⟨nofun, fun _ _ h => nomatch h⟩

/-- **Every step keeps it.** -/
theorem Tracked.step (inv : s.Tracked) (h : s.step a = some s') : s'.Tracked := by
  cases step_spec h with
  | @submits client =>
    refine ⟨inv.running, fun hd x hx => ?_⟩
    rcases List.mem_append.mp hx with hx | hx
    · exact (inv.places hd x hx).imp_right (Or.imp_right fun ⟨c, hc⟩ =>
        ⟨c, List.mem_append_left _ hc⟩)
    · rw [List.mem_singleton] at hx
      subst hx
      exact .inr (.inr ⟨client, List.mem_append_right _ (List.mem_singleton_self _)⟩)
  | delays | ticks => exact ⟨inv.running, inv.places⟩
  | @dequeues client t x hw he =>
    refine ⟨nofun, fun hd y hy => ?_⟩
    rcases inv.places hd y hy with hs | hc | ⟨c, hc⟩
    · exact .inl hs
    · rw [hw] at hc
      cases hc
    · by_cases e : (c, y.action) = (client, x)
      · cases e
        exact .inr (.inl rfl)
      · exact .inr (.inr ⟨c, (List.mem_erase_of_ne e).mpr hc⟩)
  | timesOut hw hq =>
    refine ⟨nofun, fun hd y hy => ?_⟩
    rcases inv.places hd y hy with hs | hc | ⟨c, hc⟩
    · exact .inl hs
    · rw [hw] at hc
      cases hc
    · rw [hq] at hc
      cases hc
  | turns hc _ hr =>
    refine ⟨fun a ha => absurd ha (hr a), fun hd y hy => ?_⟩
    rw [Accounted, goto, hc]
    exact inv.places hd y hy
  | breaks hd => exact ⟨nofun, fun hd' => absurd (hd'.symm.trans hd) nofun⟩
  | @starts x hw =>
    refine ⟨fun a ha => ?_, fun hd y hy => ?_⟩
    · cases ha
      exact ⟨s.now, List.mem_append_right _ (List.mem_singleton_self _)⟩
    · rcases inv.places hd y hy with ⟨t, ht⟩ | hc | hq
      · exact .inl ⟨t, List.mem_append_left _ ht⟩
      · rw [hw] at hc
        exact .inr (.inl hc)
      · exact .inr (.inr hq)
  | finishes hw =>
    refine ⟨nofun, fun hd y hy => ?_⟩
    rcases inv.places hd y hy with hs | hc | hq
    · exact .inl hs
    · rw [hw] at hc
      cases hc
      exact .inl (inv.running _ hw)
    · exact .inr (.inr hq)
  | destroys => exact ⟨inv.running, nofun⟩

/-- **A patient worker stays** until it is to stop. -/
theorem ne_exited_step (hp : s.Patient a) (hw : s.destroying = false → s.worker ≠ .exited)
    (h : s.step a = some s') : s'.destroying = false → s'.worker ≠ .exited := by
  cases step_spec h with
  | submits | delays | ticks => exact hw
  | dequeues | starts | finishes => exact fun _ he => by cases he
  | timesOut => exact fun hd => absurd (hd.symm.trans (hp rfl)) nofun
  | turns _ hn => exact fun _ => hn
  | breaks hd => exact fun hd' => absurd (hd'.symm.trans hd) nofun
  | destroys => exact nofun

theorem attended_of_reach (h : Reach step Patient (init now) s) : s.Attended := by
  have h₁ : s.Tracked := h.invariant (init_tracked now) fun _ _ _ _ inv _ hs => inv.step hs
  have h₂ : s.destroying = false → s.worker ≠ .exited :=
    h.invariant (I := fun s => s.destroying = false → s.worker ≠ .exited)
      (fun _ he => by cases he) fun _ _ _ _ inv hp hs => ne_exited_step hp inv hs
  exact fun hd => ⟨h₂ hd, h₁.places hd⟩

/-- **The queue is attended in every run in which the worker is patient**, and is not any
more after a step in which it is not. -/
theorem attended_iff_patient (now : ℤ) (s s' : State) (a : Action) :
    (Reach step Patient (init now) s → s.Attended) ∧
    (s.step a = some s' → ¬ s.Patient a → ¬ s'.Attended) := by
  refine ⟨attended_of_reach, fun hs hp hA => ?_⟩
  simp only [Patient, Classical.not_imp, Bool.not_eq_true] at hp
  obtain ⟨rfl, hd⟩ := hp
  cases step_spec hs with
  | timesOut => exact (hA hd).1 rfl

/-- Client `7` submits an action, and the worker gets it just before it would time out. -/
def justInTime : List Action := [.advance, .tick 999999999, .setDelay 5, .submit 7, .dequeue 7]

theorem attended_iff_patient_justInTime :
    ∃ s, run step (init 0) justInTime = some s ∧ s.submitted.length = 1 ∧ s.q = [] ∧ s.Attended := by
  obtain ⟨s, hs, hl, hq⟩ : ∃ s, run step (init 0) justInTime = some s ∧ s.submitted.length = 1 ∧
      s.q = [] := ⟨_, rfl, rfl, rfl⟩
  refine ⟨s, hs, hl, hq, (attended_iff_patient 0 s s .advance).1 (.of_run justInTime ?_ hs)⟩
  rintro t a ha rfl
  simp [justInTime] at ha

/-- A second passes without a submission. -/
def quietSecond : List Action := [.advance, .tick 1000000000, .timeout]

/-- **The worker abandons its queue** after a second without a submission. -/
theorem queue_abandoned : ¬ ∀ (now : ℤ) (s : State), Reach step Any (init now) s → s.Attended := by
  intro h
  obtain ⟨s, hs, hd, hw⟩ : ∃ s, run step (init 0) quietSecond = some s ∧ s.destroying = false ∧
      s.worker = .exited := ⟨_, rfl, rfl, rfl⟩
  exact (h 0 s (.of_run quietSecond (fun _ _ _ => trivial) hs) hd).1 hw

end State

end MutilsTasks.DelayThread
