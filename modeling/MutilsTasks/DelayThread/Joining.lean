import MutilsTasks.DelayThread.Worker

/-!
# The end of the delay thread

The destructor sets `destroying` and joins the worker. From then on the worker has at most five
steps left, and each of them can be made a second later at the latest, so `join` returns
(`joins`). Nothing is started any more, but for an action that had passed the last test of
`destroying`. Whatever is still in the queue is never run.
-/

namespace MutilsTasks.DelayThread

open Machine

/-- The step is the worker's. -/
def Action.own : Action → Bool
  | .advance | .dequeue _ | .timeout => true
  | _ => false

/-- How many steps are left to the worker when `destroying` is set. -/
def Worker.left : Worker → ℕ
  | .exited => 0
  | .dequeued _ | .afterLoop _ => 1
  | .inLoop _ | .waiting _ => 2
  | .testTime _ | .calling => 3
  | .sleeping _ _ | .running _ => 4
  | .due _ => 5

theorem Worker.left_le (w : Worker) : w.left ≤ 5 := by cases w <;> simp [left]

namespace State

variable {s s' : State} {a : Action} {now : ℤ}

/-! ### The steps that are left -/

/-- What has been started since, if the worker was at `w`. -/
def Starts (s s' : State) : Prop :=
  s'.started = s.started ∨ ∃ x t, s.worker = .due x ∧ s'.started = s.started ++ [(x, t)]

/-- **A step once `destroying` is set.** -/
theorem left_step (hd : s.destroying = true) (hs : s.step a = some s') :
    s'.destroying = true ∧
      (if a.own then s'.worker.left < s.worker.left else s'.worker = s.worker) ∧
      s.Starts s' ∧ ∀ x, s'.worker = .due x → s.worker = .due x ∧ s'.started = s.started := by
  cases a with
  | submit | setDelay | tick =>
    cases hs
    exact ⟨hd, rfl, .inl rfl, fun x hx => ⟨hx, rfl⟩⟩
  | destroy =>
    cases hs
    exact ⟨rfl, rfl, .inl rfl, fun x hx => ⟨hx, rfl⟩⟩
  | dequeue client =>
    simp only [step] at hs
    split at hs
    · rename_i hw _
      cases hs
      exact ⟨hd, by simp [hw, Action.own, Worker.left], .inl rfl, by simp⟩
    · cases hs
  | timeout =>
    simp only [step] at hs
    split at hs
    · rename_i hw
      split at hs <;> cases hs
      exact ⟨hd, by simp [hw, Action.own, Worker.left, goto], .inl rfl, by simp [goto]⟩
    · cases hs
  | advance =>
    simp only [step, advance] at hs
    split at hs
    case h_7 x hw =>
      cases hs
      exact ⟨hd, by simp [hw, Action.own, Worker.left], .inr ⟨x, s.now, hw, rfl⟩, by simp⟩
    case h_5 x t hw =>
      split at hs <;> cases hs
      exact ⟨hd, by simp [hw, Action.own, Worker.left, goto], .inl rfl, by simp [goto]⟩
    case h_3 x hw =>
      cases hs
      split <;> exact ⟨hd, by simp [hw, Action.own, Worker.left, goto], .inl rfl, by simp [goto]⟩
    all_goals first
      | cases hs; done
      | (rename_i hw
         cases hs
         exact ⟨hd, by simp [hw, hd, Action.own, Worker.left, goto], .inl rfl, by simp [hd, goto]⟩)

/-- **A run once `destroying` is set.** -/
theorem left_run {as : List Action} (hd : s.destroying = true) (hr : run step s as = some s') :
    as.countP Action.own + s'.worker.left ≤ s.worker.left ∧ s.Starts s' := by
  induction as generalizing s with
  | nil =>
    cases hr
    exact ⟨by simp, .inl rfl⟩
  | cons a as ih =>
    obtain ⟨s₁, h₁, h₂⟩ := Option.bind_eq_some_iff.mp hr
    obtain ⟨hd₁, hw, hst, hdue⟩ := left_step hd h₁
    obtain ⟨hle, hst₁⟩ := ih hd₁ h₂
    refine ⟨?_, ?_⟩
    · rw [List.countP_cons]
      cases ho : a.own with
      | true =>
        rw [ho, if_pos rfl] at hw
        simp only [if_true]
        omega
      | false =>
        rw [ho] at hw
        simp only [Bool.false_eq_true, if_false] at hw ⊢
        rw [← hw]
        omega
    · rcases hst₁ with he | ⟨x, t, hx, he⟩
      · exact hst.imp he.trans fun ⟨x, t, hx, he'⟩ => ⟨x, t, hx, he.trans he'⟩
      · obtain ⟨hx', he'⟩ := hdue x hx
        exact .inr ⟨x, t, hx', by rw [he, he']⟩

/-! ### The time they take -/

/-- The worker waits for a second at most. -/
def Prompt (s : State) : Prop :=
  (∀ t, s.worker = .waiting t → t ≤ s.now + second) ∧
    ∀ x t, s.worker = .sleeping x t → t ≤ s.now + second

theorem prompt_step (h : s.Prompt) (hs : s.step a = some s') : s'.Prompt := by
  obtain ⟨h₁, h₂⟩ := h
  cases a with
  | submit | setDelay | destroy =>
    cases hs
    exact ⟨h₁, h₂⟩
  | tick n =>
    cases hs
    refine ⟨fun t ht => ?_, fun x t ht => ?_⟩
    · have := h₁ t ht
      show t ≤ s.now + n + second
      omega
    · have := h₂ x t ht
      show t ≤ s.now + n + second
      omega
  | dequeue client =>
    simp only [step] at hs
    split at hs <;> cases hs
    exact ⟨by simp, by simp⟩
  | timeout =>
    simp only [step] at hs
    split at hs
    · split at hs <;> cases hs
      exact ⟨by simp [goto], by simp [goto]⟩
    · cases hs
  | advance =>
    simp only [step, advance] at hs
    repeat' split at hs
    all_goals cases hs
    all_goals
      constructor <;> simp [goto, millisecond, second]

/-- **The worker can go on within a second.** -/
theorem exists_own (h : s.Prompt) (hw : s.worker ≠ .exited) : ∃ (n : ℕ) (a : Action),
    (n : ℤ) ≤ second ∧ a.own = true ∧ (run step s [.tick n, a]).isSome = true := by
  -- most steps can be made at once
  have now : ∀ a : Action, a.own = true → (s.step a).isSome = true → ∃ (n : ℕ) (a : Action),
      (n : ℤ) ≤ second ∧ a.own = true ∧ (run step s [.tick n, a]).isSome = true := by
    intro a ha hs
    obtain ⟨s₁, hs⟩ := Option.isSome_iff_exists.mp hs
    have h0 : s.step (.tick 0) = some s := by simp [step]
    exact ⟨0, a, by decide, ha, by simp [run, h0, hs]⟩
  cases hc : s.worker with
  | exited => exact absurd hc hw
  | waiting t =>
    cases hq : s.q with
    | nil =>
      have ht := h.1 t hc
      refine ⟨(t - s.now).toNat, .timeout, by simp only [second] at *; omega, rfl, ?_⟩
      have hle : t ≤ s.now + max (t - s.now) 0 := by omega
      simp [run, step, hc, hq, hle]
    | cons e q => exact now (.dequeue e.1) rfl (by simp [step, hc, hq])
  | sleeping x t =>
    have ht := h.2 x t hc
    refine ⟨(t - s.now).toNat, .advance, by simp only [second] at *; omega, rfl, ?_⟩
    have hle : t ≤ s.now + max (t - s.now) 0 := by omega
    simp [run, step, advance, hc, hle]
  | _ => exact now .advance rfl (by simp [step, advance, hc])

/-- **The destructor returns**: in every run from a state in which `destroying` is set, the
worker makes at most five steps and starts nothing but an action that had passed the last test;
and until it has left its loop its next step can be made a second later at the latest. -/
theorem joins (h : Reach step Any (init now) s) (hd : s.destroying = true) :
    (∀ as s', run step s as = some s' → as.countP Action.own ≤ 5 ∧ s.Starts s') ∧
    (s.worker ≠ .exited → ∃ (n : ℕ) (a : Action), (n : ℤ) ≤ second ∧ a.own = true ∧
      (run step s [.tick n, a]).isSome = true) := by
  have hp : s.Prompt := h.invariant (I := Prompt) ⟨by simp [init], by simp [init]⟩
    fun _ _ _ _ ih _ hs => prompt_step ih hs
  refine ⟨fun as s' hr => ?_, exists_own hp⟩
  obtain ⟨hle, hst⟩ := left_run hd hr
  have := s.worker.left_le
  exact ⟨by omega, hst⟩

/-- The destructor is called while the worker waits for an action to be due. -/
def destroyed : List Action := [.setDelay 5, .submit 0, .advance, .dequeue 0, .advance, .advance, .destroy]

theorem joins_destroyed : ∃ s, run step (init 0) destroyed = some s ∧
    ∀ as s', run step s as = some s' → as.countP Action.own ≤ 5 ∧ s.Starts s' := by
  obtain ⟨s, hs, hd⟩ : ∃ s, run step (init 0) destroyed = some s ∧ s.destroying = true := ⟨_, rfl, rfl⟩
  exact ⟨s, hs, (joins (.of_run destroyed (fun _ _ _ => trivial) hs) hd).1⟩

end State

end MutilsTasks.DelayThread
