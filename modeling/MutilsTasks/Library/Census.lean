import Mathlib.Data.Finset.Card
import Mathlib.Logic.Function.Basic

/-!
# Counting the parties at a stage

A program with any number of parties is often counted: how many are in a section of the
code, how many hold something. `Census f p n` says that exactly `n` parties are in a state
that meets `p`, where `f` gives the state of each. When one party moves, the count stays, or
goes up or down by one, as the party stays, enters or leaves.
-/

namespace MutilsTasks

universe u v

variable {ι : Type u} {σ : Type v}

/-- **Exactly `n` parties are in a state that meets `p`.** -/
def Census (f : ι → σ) (p : σ → Bool) (n : ℕ) : Prop :=
  ∃ F : Finset ι, (∀ u, u ∈ F ↔ p (f u) = true) ∧ F.card = n

namespace Census

variable {f : ι → σ} {p : σ → Bool} {n : ℕ} {u : ι} {x : σ}

theorem zero (h : ∀ u, p (f u) = false) : Census f p 0 := by
  refine ⟨∅, fun u => ?_, Finset.card_empty⟩
  rw [h u]
  exact iff_of_false (Finset.notMem_empty u) nofun

theorem eq_zero (c : Census f p n) (h : ∀ u, p (f u) = false) : n = 0 := by
  obtain ⟨F, hF, rfl⟩ := c
  rw [Finset.card_eq_zero, Finset.eq_empty_iff_forall_notMem]
  intro u hu
  rw [hF, h u] at hu
  cases hu

theorem pos (c : Census f p n) (hu : p (f u) = true) : 0 < n := by
  obtain ⟨F, hF, rfl⟩ := c
  exact Finset.card_pos.mpr ⟨u, (hF u).mpr hu⟩

/-- Finitely many parties can be counted. -/
theorem exists_of_lt {f : ℕ → σ} {k : ℕ} (h : ∀ u, p (f u) = true → u < k) :
    ∃ n, Census f p n := by
  refine ⟨_, (Finset.range k).filter fun u => p (f u) = true, fun u => ?_, rfl⟩
  rw [Finset.mem_filter, Finset.mem_range]
  exact and_iff_right_of_imp (h u)

/-- Those that are counted come from those that were, and none has gone. -/
theorem eq_of_iff {g : ι → σ} (c : Census f p n) (h : ∀ u, p (g u) = p (f u)) : Census g p n := by
  obtain ⟨F, hF, hn⟩ := c
  exact ⟨F, fun u => by rw [hF, h], hn⟩

variable [DecidableEq ι]

theorem keep (c : Census f p n) (hx : p x = p (f u)) : Census (Function.update f u x) p n := by
  obtain ⟨F, hF, hn⟩ := c
  refine ⟨F, fun v => ?_, hn⟩
  by_cases h : v = u
  · rw [h, Function.update_self, hx, hF]
  · rw [Function.update_of_ne h, hF]

/-- A party comes. -/
theorem enter (c : Census f p n) (hu : p (f u) = false) (hx : p x = true) :
    Census (Function.update f u x) p (n + 1) := by
  obtain ⟨F, hF, rfl⟩ := c
  have hn : u ∉ F := by
    rw [hF, hu]
    exact nofun
  refine ⟨insert u F, fun v => ?_, Finset.card_insert_of_notMem hn⟩
  rw [Finset.mem_insert]
  by_cases h : v = u
  · rw [h, Function.update_self]
    exact iff_of_true (.inl rfl) hx
  · rw [Function.update_of_ne h, hF]
    exact or_iff_right h

/-- A party goes. -/
theorem leave (c : Census f p n) (hu : p (f u) = true) (hx : p x = false) :
    ∃ m, n = m + 1 ∧ Census (Function.update f u x) p m := by
  obtain ⟨F, hF, rfl⟩ := c
  have hm : u ∈ F := (hF u).mpr hu
  refine ⟨(F.erase u).card, (Finset.card_erase_add_one hm).symm, F.erase u, fun v => ?_, rfl⟩
  rw [Finset.mem_erase]
  by_cases h : v = u
  · rw [h, Function.update_self, hx]
    exact iff_of_false (fun h' => h'.1 rfl) nofun
  · rw [Function.update_of_ne h, hF]
    exact and_iff_right h

end Census

end MutilsTasks
