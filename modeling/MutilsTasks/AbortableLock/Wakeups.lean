import MutilsTasks.AbortableLock.Exclusion

/-!
# Lost wake-ups of the abortable lock

`abortable_mutex::unlock` clears the flag and calls `notify_all` without `cv.m`. A thread
that has seen the flag set, but is not blocked yet, misses that call. It then sleeps
beside a free lock, unless another `notify_all` is still to come.

`Timely` is the condition on a run under which that does not happen: a `notify_all` is
not the last one to come while the flag is clear and a thread is on its way to sleep.
-/

namespace MutilsTasks.AbortableLock

open Machine

namespace Pc

/-- The thread's next step is a `notify_all`. -/
def wakes : Pc → Bool
  | .notifyAll _ | .notifyUnlocked => true
  | _ => false

/-- The thread is blocked, or has seen the flag set and will block. -/
def sleeps : Pc → Bool
  | .blocked => true
  | c => c.misses

end Pc

namespace State

variable {s s' : State} {u w : ℕ} {d : Pc} {a : Action}

/-- **A lost wake-up**: the lock is free, a thread is blocked, and no `notify_all` is
still to come. -/
def LostWakeup (s : State) : Prop :=
  s.occupied = false ∧ (∃ u, s.pc u = .blocked) ∧ ∀ u, (s.pc u).notifies = false

/-- **The step is no `notify_all` that comes too early**: if it is one, the flag is clear
and a thread has seen it set, then another `notify_all` is still to come. -/
def Timely (s : State) (a : Action) : Prop :=
  ∀ u, a = .advance u → (s.pc u).wakes = true → s.occupied = false →
    (∃ w, (s.pc w).misses = true) → ∃ v, v ≠ u ∧ (s.pc v).notifies = true

/-- While the lock is free, somebody will wake the threads that sleep. -/
def Covered (s : State) : Prop :=
  s.occupied = false → (∃ w, (s.pc w).sleeps = true) → ∃ v, (s.pc v).notifies = true

theorem init_covered : init.Covered := fun _ ⟨_, hw⟩ => by cases hw

namespace Covered

theorem not_lostWakeup (hC : s.Covered) : ¬ s.LostWakeup := by
  rintro ⟨ho, ⟨u, hu⟩, hn⟩
  obtain ⟨v, hv⟩ := hC ho ⟨u, by rw [hu]; rfl⟩
  rw [hn v] at hv
  cases hv

/-- A move that is no `notify_all`. -/
theorem goto (hC : s.Covered) {s' : State} (hp : s'.pc = Function.update s.pc u d)
    (ho : s'.occupied = false → s.occupied = false)
    (hn : (s.pc u).notifies = true → d.notifies = true)
    (hd : d.sleeps = true → s'.occupied = false → (s.pc u).sleeps = true) : s'.Covered := by
  intro hf ⟨w, hw⟩
  have hw' : ∃ w, (s.pc w).sleeps = true := by
    by_cases e : w = u
    · subst e
      rw [hp, Function.update_self] at hw
      exact ⟨w, hd hw hf⟩
    · rw [hp, Function.update_of_ne e] at hw
      exact ⟨w, hw⟩
  obtain ⟨v, hv⟩ := hC (ho hf) hw'
  by_cases e : v = u
  · subst e
    exact ⟨v, by rw [hp, Function.update_self]; exact hn hv⟩
  · exact ⟨v, by rw [hp, Function.update_of_ne e]; exact hv⟩

/-- **Every timely step keeps it.** -/
theorem step (hC : s.Covered) (ht : s.Timely a) (h : s.step a = some s') : s'.Covered := by
  obtain ⟨u, hu⟩ : ∃ u, Moves s u a s' := ⟨_, step_spec h⟩
  cases hu with
  | @goes _ c d hc hk =>
    refine hC.goto rfl id (hc ▸ hk.notifies) fun hd ho => ?_
    have hm : d.misses = true := by
      have := hk.awake
      cases d <;> first | exact hd | exact absurd rfl this
    rcases hk.misses hm with hm | ho'
    · rw [hc]
      cases c <;> first | exact hm | rfl
    · exact absurd (ho'.symm.trans ho) nofun
  | setsWho hc | clearsWho hc | unlocksMutex hc =>
    exact hC.goto rfl id (fun _ => rfl) nofun
  | locksMutex hc =>
    refine hC.goto rfl id (fun hn => ?_) nofun
    rcases hc with hc | hc <;> rw [hc] at hn <;> cases hn
  | blocks hc =>
    refine hC.goto rfl id (fun hn => ?_) fun _ _ => by rw [hc]; rfl
    rw [hc] at hn
    cases hn
  | @notifies d hd =>
    intro ho ⟨w, hw⟩
    have hwakes : (s.pc u).wakes = true := by
      rcases hd with ⟨e, he, -⟩ | ⟨he, -⟩ <;> rw [he] <;> rfl
    have hds : d.sleeps = false := by
      rcases hd with ⟨e, -, rfl⟩ | ⟨-, rfl⟩ <;> rfl
    have hwu : w ≠ u := by
      rintro rfl
      rw [goto_pc, if_pos rfl, hds] at hw
      cases hw
    rw [goto_pc, if_neg hwu] at hw
    have hm : (s.pc w).misses = true := by
      rw [← notifyAll_apply (f := Pc.misses) rfl]
      have := s.notifyAll_ne_blocked w
      generalize s.notifyAll.pc w = c at hw this
      cases c <;> first | exact hw | exact absurd rfl this
    obtain ⟨v, hv, hn⟩ := ht u rfl hwakes ho ⟨w, hm⟩
    refine ⟨v, ?_⟩
    rw [goto_pc, if_neg hv, notifyAll_apply (f := Pc.notifies) rfl]
    exact hn
  | locks hc => exact fun ho => nomatch ho
  | clears hc => exact fun _ _ => ⟨u, by rw [goto_pc, if_pos rfl]; rfl⟩
  | gives hc | takes hc =>
    refine hC.goto rfl id (fun hn => ?_) nofun
    rw [hc] at hn
    cases hn

end Covered

/-! ### A `notify_all` that comes too early -/

theorem reach_blocked_of_block (hc : s.pc w = .block) : ∃ s', Reach step Any s s' ∧
    s'.occupied = s.occupied ∧ ∀ v, s'.pc v = if v = w then .blocked else s.pc v := by
  refine ⟨{ s with mutex := none }.goto w .blocked, .single (a := .advance w) trivial ?_, rfl,
    fun v => goto_pc ..⟩
  simp [step, advance, hc]

/-- A thread on its way to sleep gets there. -/
theorem reach_blocked (hw : (s.pc w).misses = true) : ∃ s', Reach step Any s s' ∧
    s'.occupied = s.occupied ∧ ∀ v, s'.pc v = if v = w then .blocked else s.pc v := by
  cases hc : s.pc w with
  | block => exact reach_blocked_of_block hc
  | callAbort =>
    have h₁ : s.step (.abort w false) = some (s.goto w .block) := by simp [step, hc]
    obtain ⟨s', hr, ho, hp⟩ := reach_blocked_of_block (s := s.goto w .block) (w := w) (by simp)
    refine ⟨s', .head trivial h₁ hr, ho, fun v => ?_⟩
    rw [hp, goto_pc]
    split <;> rfl
  | _ => simp [hc, Pc.misses] at hw

/-- What a `notify_all` does. -/
theorem advance_of_wakes (hu : (s.pc u).wakes = true) (h : s.advance u = some s') :
    ∃ d, s' = s.notifyAll.goto u d ∧ d.notifies = false := by
  cases hc : s.pc u with
  | notifyAll e =>
    simp only [advance, hc, Option.some.injEq] at h
    exact ⟨_, h.symm, rfl⟩
  | notifyUnlocked =>
    simp only [advance, hc, Option.some.injEq] at h
    exact ⟨_, h.symm, rfl⟩
  | _ => simp [hc, Pc.wakes] at hu

/-- **After a `notify_all` that comes too early, a wake-up may be lost.** -/
theorem reach_lostWakeup (hs : s.step a = some s') (ht : ¬ s.Timely a) :
    ∃ s'', Reach step Any s' s'' ∧ s''.LostWakeup := by
  simp only [Timely, not_forall, not_exists, not_and] at ht
  obtain ⟨u, rfl, hu, ho, ⟨w, hw⟩, hn⟩ := ht
  obtain ⟨d, rfl, hd⟩ := advance_of_wakes hu hs
  have hwu : w ≠ u := by
    rintro rfl
    cases hc : s.pc w <;> simp [hc, Pc.wakes, Pc.misses] at hu hw
  have hw' : ((s.notifyAll.goto u d).pc w).misses = true := by
    rw [goto_pc, if_neg hwu, notifyAll_apply (f := Pc.misses) rfl]
    exact hw
  obtain ⟨s'', hr, ho', hp⟩ := reach_blocked hw'
  refine ⟨s'', hr, ho'.trans ho, ⟨w, by rw [hp, if_pos rfl]⟩, fun v => ?_⟩
  rw [hp]
  split
  · rfl
  · rw [goto_pc]
    split
    · exact hd
    · rename_i hv
      rw [notifyAll_apply (f := Pc.notifies) rfl, ← Bool.not_eq_true]
      exact hn v hv

/-- A thread that does nothing is idle. -/
theorem idle_of_run {as : List Action} (h : run step init as = some s)
    (hu : ∀ a ∈ as, a.thread ≠ u) : s.pc u = .idle := by
  apply run_invariant (I := fun t => t.pc u = .idle) rfl ?_ h
  intro t a ha t' ht hs
  rcases pc_of_ne hs (hu a ha).symm with hp | ⟨hp, -⟩
  · exact hp.trans ht
  · rw [ht] at hp
    cases hp

/-- **No wake-up is lost in a run in which every `notify_all` is timely**, and where one is
not, a wake-up may be lost. -/
theorem lost_wakeups (s s' : State) (a : Action) :
    (Reach step Timely init s → ¬ s.LostWakeup) ∧
    (s.step a = some s' → ¬ s.Timely a → ∃ s'', Reach step Any s' s'' ∧ s''.LostWakeup) :=
  ⟨fun h => (h.invariant init_covered fun _ _ _ _ hC ht hs => hC.step ht hs).not_lostWakeup,
    reach_lostWakeup⟩

/-- Thread `0` has the lock. Thread `1` sees that and blocks, and then thread `0` releases the lock,
but has not called `notify_all`. -/
def earlySleeper : List Action :=
  locking 0 ++ [.call 1, .advance 1, .advance 1, .abort 1 false, .advance 1, .release 0, .advance 0]

/-- The step is no `notify_all` beside a free lock. -/
def silent (s : State) : Action → Bool
  | .advance u => !(s.pc u).wakes || s.occupied
  | _ => true

theorem Timely.of_silent (h : s.silent a = true) : s.Timely a := by
  rintro u rfl hw ho
  simp [silent, hw, ho] at h

theorem lost_wakeups_earlySleeper :
    ∃ s, run step init (earlySleeper ++ [.advance 0]) = some s ∧ s.pc 1 = .woken ∧
      ¬ s.LostWakeup := by
  obtain ⟨s, hg, hs, h₀, h₁⟩ : ∃ s,
      run (fun s a => if s.silent a = true then step s a else none) init earlySleeper = some s ∧
      run step init earlySleeper = some s ∧ s.pc 0 = .notifyUnlocked ∧ s.pc 1 = .blocked :=
    ⟨_, rfl, rfl, rfl, rfl⟩
  have hstep : s.step (.advance 0) = some (s.notifyAll.goto 0 .idle) := by
    simp only [step, advance, h₀]
  have hpc : (s.notifyAll.goto 0 .idle).pc 1 = .woken := by simp [notifyAll, h₁]
  refine ⟨s.notifyAll.goto 0 .idle, ?_, hpc, ?_⟩
  · rw [run_append, hs]
    exact congrArg (Option.bind · some) hstep
  refine (lost_wakeups (s.notifyAll.goto 0 .idle) s (.call 0)).1
    (.tail ((Reach.of_guarded earlySleeper hg).mono fun _ _ => .of_silent) ?_ hstep)
  -- nobody is on its way to sleep: thread `1` sleeps already
  rintro u - - - ⟨w, hw⟩
  by_cases e : w = 0 ∨ w = 1
  · rcases e with rfl | rfl
    · rw [h₀] at hw; cases hw
    · rw [h₁] at hw; cases hw
  · rw [idle_of_run hs fun a ha e' => e ?_] at hw
    · cases hw
    · have : ∀ a ∈ earlySleeper, a.thread = 0 ∨ a.thread = 1 := by decide
      exact e' ▸ this a ha

/-- Thread `0` has the lock. Thread `1` sees that, and blocks when thread `0` has
released it. -/
def lateSleeper : List Action :=
  locking 0 ++ [.call 1, .advance 1, .advance 1, .abort 1 false, .release 0, .advance 0, .advance 0,
    .advance 1]

/-- **A wake-up is lost.** -/
theorem wakeup_lost : ¬ ∀ s, Reach step Any init s → ¬ s.LostWakeup := by
  intro h
  obtain ⟨s, hs, ho, h₀, h₁⟩ : ∃ s, run step init lateSleeper = some s ∧ s.occupied = false ∧
      s.pc 0 = .idle ∧ s.pc 1 = .blocked := ⟨_, rfl, rfl, rfl, rfl⟩
  refine h s (.of_run lateSleeper (fun _ _ _ => trivial) hs) ⟨ho, ⟨1, h₁⟩, fun u => ?_⟩
  by_cases hu : u = 0 ∨ u = 1
  · rcases hu with rfl | rfl
    · rw [h₀]; rfl
    · rw [h₁]; rfl
  · rw [idle_of_run hs (fun a ha e => hu ?_)]
    · rfl
    · have : ∀ a ∈ lateSleeper, a.thread = 0 ∨ a.thread = 1 := by decide
      exact e ▸ this a ha

end State

end MutilsTasks.AbortableLock
