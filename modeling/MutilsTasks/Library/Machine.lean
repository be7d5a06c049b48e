import Mathlib.Data.List.Induction

/-!
# Machines and their runs

A machine is a function `step : σ → α → Option σ`: in a state, an action is
either not enabled (`none`) or leads to the next state. The choices of a
scheduler, of a container that hands out any of its elements, or of a user's
callback are all in the action, so `step` itself is a function and runs can be
computed.

`Reach step P s₀ s` says that some run leads from `s₀` to `s` with every one of
its steps meeting `P`, a condition on the state before the step and the action.
An invariant is proved once for `step` and holds of every reachable state
(`Reach.invariant`); a simulation is proved once for `step` and carries every run
over (`Reach.simulate`).
-/

namespace MutilsTasks.Machine

universe u v w x

variable {σ : Type u} {α : Type v} {τ : Type w} {β : Type x}

/-- The run of a list of actions. -/
def run (step : σ → α → Option σ) : σ → List α → Option σ
  | s, [] => some s
  | s, a :: as => (step s a).bind fun s' => run step s' as

theorem run_append (step : σ → α → Option σ) (s : σ) (as bs : List α) :
    run step s (as ++ bs) = (run step s as).bind fun s' => run step s' bs := by
  induction as generalizing s with
  | nil => rfl
  | cons a as ih =>
    rw [List.cons_append, run, run, Option.bind_assoc]
    exact congrArg _ (funext fun s' => ih s')

/-- **Reachability** by steps that meet `P`. -/
inductive Reach (step : σ → α → Option σ) (P : σ → α → Prop) (s₀ : σ) : σ → Prop
  /-- No step. -/
  | refl : Reach step P s₀ s₀
  /-- One more step. -/
  | tail {s s' : σ} {a : α} : Reach step P s₀ s → P s a → step s a = some s' →
      Reach step P s₀ s'

/-- No condition on the steps. -/
def Any (_ : σ) (_ : α) : Prop := True

namespace Reach

variable {step : σ → α → Option σ} {P Q : σ → α → Prop} {s₀ s s' : σ}

theorem single {a : α} (hP : P s a) (h : step s a = some s') : Reach step P s s' :=
  .tail .refl hP h

theorem trans {t : σ} (h₁ : Reach step P s₀ s) (h₂ : Reach step P s t) : Reach step P s₀ t := by
  induction h₂ with
  | refl => exact h₁
  | tail _ hP hs ih => exact .tail ih hP hs

theorem head {a : α} {t : σ} (hP : P s₀ a) (hs : step s₀ a = some s) (h : Reach step P s t) :
    Reach step P s₀ t :=
  (single hP hs).trans h

/-- Weaker conditions allow more runs. -/
theorem mono (hPQ : ∀ s a, P s a → Q s a) (h : Reach step P s₀ s) : Reach step Q s₀ s := by
  induction h with
  | refl => exact .refl
  | tail _ hP hs ih => exact .tail ih (hPQ _ _ hP) hs

/-- **The invariant rule.** The step may use that its prestate is reachable. -/
theorem invariant {I : σ → Prop} (h₀ : I s₀)
    (hI : ∀ s a s', Reach step P s₀ s → I s → P s a → step s a = some s' → I s')
    (h : Reach step P s₀ s) : I s := by
  induction h with
  | refl => exact h₀
  | tail hr hP hs ih => exact hI _ _ _ hr ih hP hs

/-- **The simulation rule**: a map that takes every step to a run takes every run
to a run. -/
theorem simulate {step' : τ → β → Option τ} {P' : τ → β → Prop} {f : σ → τ}
    (hf : ∀ s a s', Reach step P s₀ s → P s a → step s a = some s' →
      Reach step' P' (f s) (f s'))
    (h : Reach step P s₀ s) : Reach step' P' (f s₀) (f s) := by
  induction h with
  | refl => exact .refl
  | tail hr hP hs ih => exact ih.trans (hf _ _ _ hr hP hs)

/-- A computed run of which every step is checked. -/
theorem of_guarded [∀ s a, Decidable (P s a)] (as : List α)
    (h : run (fun s a => if P s a then step s a else none) s₀ as = some s) :
    Reach step P s₀ s := by
  induction as generalizing s₀ with
  | nil =>
    simp only [run, Option.some.injEq] at h
    exact h ▸ .refl
  | cons a as ih =>
    obtain ⟨s₁, h₁, h₂⟩ := Option.bind_eq_some_iff.mp h
    obtain ⟨hP, hs⟩ := Option.ite_none_right_eq_some.mp h₁
    exact head hP hs (ih h₂)

/-- A computed run is a run. -/
theorem of_run (as : List α) (hP : ∀ s, ∀ a ∈ as, P s a) (h : run step s₀ as = some s) :
    Reach step P s₀ s := by
  induction as generalizing s₀ with
  | nil =>
    simp only [run, Option.some.injEq] at h
    exact h ▸ .refl
  | cons a as ih =>
    obtain ⟨s₁, h₁, h₂⟩ := Option.bind_eq_some_iff.mp h
    exact head (hP s₀ a (by simp)) h₁ (ih (fun s b hb => hP s b (by simp [hb])) h₂)

end Reach

/-- **The invariant rule for a computed run**, of which only its own actions matter. -/
theorem run_invariant {step : σ → α → Option σ} {s₀ s : σ} {as : List α} {I : σ → Prop} (h₀ : I s₀)
    (hI : ∀ s, ∀ a ∈ as, ∀ s', I s → step s a = some s' → I s') (h : run step s₀ as = some s) :
    I s := by
  have hr : Reach step (fun _ a => a ∈ as) s₀ s := .of_run as (fun _ _ ha => ha) h
  exact hr.invariant h₀ fun s a s' _ ih ha hs => hI s a ha s' ih hs

/-- **The history rule**: an invariant may speak of the actions so far. -/
theorem run_history {step : σ → α → Option σ} {s₀ s : σ} {as : List α} {I : List α → σ → Prop}
    (h₀ : I [] s₀) (hI : ∀ as s a s', I as s → step s a = some s' → I (as ++ [a]) s')
    (h : run step s₀ as = some s) : I as s := by
  induction as using List.reverseRecOn generalizing s with
  | nil =>
    simp only [run, Option.some.injEq] at h
    exact h ▸ h₀
  | append_singleton as a ih =>
    rw [run_append] at h
    obtain ⟨s₁, h₁, h₂⟩ := Option.bind_eq_some_iff.mp h
    obtain ⟨s₂, h₂, h₃⟩ := Option.bind_eq_some_iff.mp h₂
    cases h₃
    exact hI as s₁ a _ (ih h₁) h₂

/-- **The measure rule**: where each of the actions lowers a measure, there are no more of
them than it says. -/
theorem length_le_of_run {step : σ → α → Option σ} {W : σ → ℕ → Prop} {Q : α → Prop} {s s' : σ}
    {as : List α} {n : ℕ}
    (hW : ∀ s a s' n, Q a → W s n → step s a = some s' → ∃ m, m < n ∧ W s' m)
    (hQ : ∀ a ∈ as, Q a) (hn : W s n) (h : run step s as = some s') : as.length ≤ n := by
  induction as generalizing s n with
  | nil => exact Nat.zero_le n
  | cons a as ih =>
    obtain ⟨s₁, h₁, h₂⟩ := Option.bind_eq_some_iff.mp h
    obtain ⟨m, hm, hs₁⟩ := hW s a s₁ n (hQ a List.mem_cons_self) hn h₁
    have hlen : as.length ≤ m := ih (fun b hb => hQ b (List.mem_cons_of_mem a hb)) hs₁ h₂
    rw [List.length_cons]
    omega

/-- Where there are no more of the actions than `n`, they lead to a state in which none of them is
enabled. -/
theorem exists_stuck {step : σ → α → Option σ} {Q : α → Prop} {s : σ} {n : ℕ}
    (h : ∀ as s', (∀ a ∈ as, Q a) → run step s as = some s' → as.length ≤ n) :
    ∃ as s', (∀ a ∈ as, Q a) ∧ run step s as = some s' ∧ ∀ a, Q a → step s' a = none := by
  induction n generalizing s with
  | zero =>
    refine ⟨[], s, fun a ha => absurd ha List.not_mem_nil, rfl, fun a ha => ?_⟩
    by_contra hs
    obtain ⟨s', hs⟩ := Option.ne_none_iff_exists'.mp hs
    have := h [a] s' (fun b hb => List.mem_singleton.mp hb ▸ ha) (by rw [run, hs]; rfl)
    exact absurd this (Nat.not_succ_le_zero 0)
  | succ n ih =>
    by_cases hstuck : ∀ a, Q a → step s a = none
    · exact ⟨[], s, fun a ha => absurd ha List.not_mem_nil, rfl, hstuck⟩
    · obtain ⟨a, ha, hs⟩ : ∃ a, Q a ∧ step s a ≠ none := by simpa using hstuck
      obtain ⟨s₁, hs⟩ := Option.ne_none_iff_exists'.mp hs
      have cons : ∀ as s', run step s₁ as = some s' → run step s (a :: as) = some s' := by
        intro as s' hr
        rw [run, hs]
        exact hr
      obtain ⟨as, s', has, hr, hn⟩ := ih fun as s' has hr => Nat.le_of_succ_le_succ
        (h (a :: as) s' (List.forall_mem_cons.mpr ⟨ha, has⟩) (cons as s' hr))
      exact ⟨a :: as, s', List.forall_mem_cons.mpr ⟨ha, has⟩, cons as s' hr, hn⟩

end MutilsTasks.Machine
