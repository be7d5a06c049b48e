import MutilsTasks.AbortableLock.Exclusion

/-!
# When the abortable lock fails

Once it has waited, `lock_or_abort` calls `abort_condition` again and then reads the flag
again. The flag is set only under `cv.m`, so a thread that has been let through because it
was clear finds it clear. A thread that has been let through because `abort_condition` was
true relies on `abort_condition` being true once more. If it is not, and the flag is still
set, the assertion in the last branch fails.
-/

namespace MutilsTasks.AbortableLock

open Machine

/-- The thread is in the last branch, or has thrown there. -/
def Pc.failing : Pc → Bool
  | .fail | .clearWho .threw | .unlockMutex .threw | .notifyAll .threw | .returning .threw => true
  | _ => false

namespace State

variable {s s' : State} {u v : ℕ} {a : Action}

/-- `lock_or_abort` has returned what it should. -/
def Unfailing (s : State) : Prop :=
  ∀ u, s.pc u ≠ .fail ∧
    ∀ e, (s.pc u).ending = some e → e = .null ∨ e = .locked ∧ s.occupied = true

/-- After the waiting `abort_condition` does not return false while the flag is set. -/
def Steady (s : State) (a : Action) : Prop :=
  ∀ u, a = .abort u false → s.pc u = .callAbortAgain → s.occupied = false

/-- The flag is set by `abortable_mutex::lock` only. -/
theorem occupied_cases (h : s.step a = some s') (ho : s'.occupied = true) :
    s.occupied = true ∨ s.pc a.thread = .lock := by
  have hm := step_spec h
  generalize a.thread = u at hm
  cases hm with
  | locks hc => exact .inr hc
  | clears => cases ho
  | _ => exact .inl ho

/-- What the steps that `abort_condition` has no part in lead to. -/
theorem advance_pc (h : s.advance u = some s') : s'.pc u ≠ .readOccupiedAgain ∧
    ((s'.pc u).failing = true →
      (s.pc u).failing = true ∨ s.pc u = .readOccupiedAgain ∧ s.occupied = true) := by
  cases hc : s.pc u with
  | idle | callAbort | callAbortAgain | blocked => simp [advance, hc] at h
  | lockMutex | woken =>
    simp only [advance, hc, Option.ite_none_right_eq_some, Option.some.injEq] at h
    obtain ⟨-, rfl⟩ := h
    simp [Pc.failing]
  | readOccupied | readOccupiedAgain =>
    simp only [advance, hc, Option.some.injEq] at h
    subst h
    cases ho : s.occupied <;> simp [Pc.failing]
  | returning e =>
    cases e <;> simp only [advance, hc, Option.some.injEq] at h <;> subst h <;> simp [Pc.failing]
  | clearWho e | unlockMutex e | notifyAll e =>
    simp only [advance, hc, Option.some.injEq] at h
    subst h
    cases e <;> simp [Pc.failing]
  | block | setWho | lock | fail | store | notifyUnlocked =>
    simp only [advance, hc, Option.some.injEq] at h
    subst h
    simp [Pc.failing]

/-- A thread reads the flag again after `abort_condition` has returned false again. -/
theorem readAgain_cases (h : s.step a = some s') (hv : s'.pc v = .readOccupiedAgain) :
    s.pc v = .readOccupiedAgain ∧ v ≠ a.thread ∨
      s.pc v = .callAbortAgain ∧ a = .abort v false ∧ s'.occupied = s.occupied := by
  by_cases e : v = a.thread
  · cases a with
    | call u =>
      obtain rfl : v = u := e
      simp only [step, Option.ite_none_right_eq_some, Option.some.injEq] at h
      obtain ⟨-, rfl⟩ := h
      simp at hv
    | abort u b =>
      obtain rfl : v = u := e
      cases hc : s.pc v <;> simp only [step, hc] at h <;> cases h
      · cases b <;> simp at hv
      · cases b with
        | true => simp at hv
        | false => exact .inr ⟨rfl, rfl, rfl⟩
    | wake u =>
      obtain rfl : v = u := e
      simp only [step, Option.ite_none_right_eq_some, Option.some.injEq] at h
      obtain ⟨-, rfl⟩ := h
      simp at hv
    | advance u =>
      obtain rfl : v = u := e
      exact absurd hv (advance_pc h).1
    | release u =>
      obtain rfl : v = u := e
      simp only [step, Option.ite_none_right_eq_some, Option.some.injEq] at h
      obtain ⟨-, rfl⟩ := h
      simp at hv
  · rcases pc_of_ne h e with hp | ⟨-, hp⟩ <;> rw [hp] at hv
    · exact .inl ⟨hv, e⟩
    · cases hv

/-- A thread fails if it reads again that the flag is set. -/
theorem failing_cases (h : s.step a = some s') (hv : (s'.pc v).failing = true) :
    (s.pc v).failing = true ∨ s.pc v = .readOccupiedAgain ∧ s.occupied = true := by
  by_cases e : v = a.thread
  · cases a with
    | advance u =>
      obtain rfl : v = u := e
      exact (advance_pc h).2 hv
    | abort u b =>
      obtain rfl : v = u := e
      cases hc : s.pc v <;> simp only [step, hc] at h <;> cases h <;> cases b <;>
        simp [Pc.failing] at hv
    | call u | wake u | release u =>
      obtain rfl : v = u := e
      simp only [step, Option.ite_none_right_eq_some, Option.some.injEq] at h
      obtain ⟨-, rfl⟩ := h
      simp [Pc.failing] at hv
  · rcases pc_of_ne h e with hp | ⟨-, hp⟩ <;> rw [hp] at hv
    · exact .inl hv
    · cases hv

/-- **What holds in the runs in which `abort_condition` is steady**: a thread that reads the
flag again finds it clear. -/
structure Sure (s : State) : Prop where
  clear : ∀ u, s.pc u = .readOccupiedAgain → s.occupied = false
  safe : ∀ u, (s.pc u).failing = false

theorem init_sure : init.Sure := ⟨nofun, fun _ => rfl⟩

theorem Sure.step (hS : s.Sure) (inv : s.Exclusive) (ha : s.Steady a) (h : s.step a = some s') :
    s'.Sure where
  clear v hv := by
    rcases readAgain_cases h hv with ⟨hc, hne⟩ | ⟨hc, rfl, ho⟩
    · -- nobody else can set the flag, as the thread has `cv.m`
      rw [← Bool.not_eq_true]
      intro ho
      rcases occupied_cases h ho with ho | hl
      · rw [hS.clear v hc] at ho
        cases ho
      · exact hne (inv.eq_of_hasMutex (by rw [hc]; rfl) (by rw [hl]; rfl))
    · rw [ho]
      exact ha v rfl hc
  safe v := by
    rw [← Bool.not_eq_true]
    intro hv
    rcases failing_cases h hv with hv | ⟨hc, ho⟩
    · rw [hS.safe v] at hv
      cases hv
    · rw [hS.clear v hc] at ho
      cases ho

theorem Sure.not_fails (hS : s.Sure) (inv : s.Exclusive) : s.Unfailing := by
  intro u
  have hu := hS.safe u
  constructor
  · intro hc
    rw [hc] at hu
    cases hu
  intro e he
  cases e with
  | null => exact .inl rfl
  | locked =>
    have hl : (s.pc u).hasLock = true := by
      cases hc : s.pc u <;> rw [hc] at he <;> cases he <;> rfl
    exact .inr ⟨rfl, inv.occupied.mpr (.of_hand (hand_eq_some.mpr hl))⟩
  | threw => cases hc : s.pc u <;> rw [hc] at he hu <;> cases he <;> cases hu

/-- **`lock_or_abort` does not fail in a run in which `abort_condition` is steady**: a call
that has waited returns `nullptr` or a `lock_t` that is locked. Where `abort_condition` is not,
the call may fail at once. -/
theorem unfailing (s s' : State) (a : Action) :
    (Reach step Steady init s → s.Unfailing) ∧
    (s.step a = some s' → ¬ s.Steady a → ∃ u s'', s'.step (.advance u) = some s'' ∧
      s''.pc u = .fail) := by
  refine ⟨fun h => ?_, fun hs ha => ?_⟩
  · have key : s.Exclusive ∧ s.Sure := by
      apply h.invariant (I := fun s => s.Exclusive ∧ s.Sure) ⟨init_exclusive, init_sure⟩
      intro t b t' _ ih hb hs
      exact ⟨ih.1.step hs, ih.2.step ih.1 hb hs⟩
    exact key.2.not_fails key.1
  · simp only [Steady, not_forall, Bool.not_eq_false] at ha
    obtain ⟨u, rfl, hc, ho⟩ := ha
    simp only [step, hc, Option.some.injEq] at hs
    subst hs
    refine ⟨u, (s.goto u .readOccupiedAgain).goto u .fail, ?_, ?_⟩
    · simp [step, advance, ho]
    · simp

/-- Thread `0` has the lock. Thread `1` is told twice to abort, and gives up. -/
def givingUp : List Action :=
  locking 0 ++ [.call 1, .advance 1, .advance 1, .abort 1 true, .advance 1, .abort 1 true, .advance 1,
    .advance 1, .advance 1]

/-- The step is no change of mind while the lock is not free. -/
def firm (s : State) : Action → Bool
  | .abort u false => s.pc u != .callAbortAgain || !s.occupied
  | _ => true

theorem Steady.of_firm (h : s.firm a = true) : s.Steady a := by
  rintro u rfl hc
  simpa [firm, hc] using h

theorem unfailing_givingUp :
    ∃ s, run step init givingUp = some s ∧ s.pc 1 = .returning .null ∧ s.Unfailing := by
  obtain ⟨s, hg, hs, hc⟩ : ∃ s,
      run (fun s a => if s.firm a = true then step s a else none) init givingUp = some s ∧
      run step init givingUp = some s ∧ s.pc 1 = .returning .null := ⟨_, rfl, rfl, rfl⟩
  exact ⟨s, hs, hc, (unfailing s s (.call 0)).1
    ((Reach.of_guarded givingUp hg).mono fun _ _ => .of_firm)⟩

/-- Thread `0` has the lock. Thread `1` is told to abort, and then is not. -/
def changedMind : List Action :=
  locking 0 ++ [.call 1, .advance 1, .advance 1, .abort 1 true, .advance 1, .abort 1 false,
    .advance 1]

/-- **The assertion fails.** -/
theorem lock_or_abort_fails : ¬ ∀ s, Reach step Any init s → ∀ u, s.pc u ≠ .fail := by
  intro h
  obtain ⟨s, hs, hc⟩ : ∃ s, run step init changedMind = some s ∧ s.pc 1 = .fail :=
    ⟨_, rfl, rfl⟩
  exact h s (.of_run changedMind (fun _ _ _ => trivial) hs) 1 hc

end State

end MutilsTasks.AbortableLock
