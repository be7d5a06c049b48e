import Mathlib.Algebra.BigOperators.Group.Finset.Piecewise
import Mathlib.Algebra.Order.BigOperators.Group.Finset
import Mathlib.Algebra.Order.Group.Nat
import MutilsTasks.Library.Census

/-!
# Adding up what the parties have

`Tally f w n` says that what all parties have comes to `n`, where `f` gives the state of each
and `w` what a party in that state has. When one party moves, the sum changes by as much as
what that party has. Each party has at most the sum. Where the parties that have something
are counted (`Census`), the sum is bounded, and so is what it grows by when many get more at
once.
-/

namespace MutilsTasks

universe u v

variable {ι : Type u} {σ : Type v}

/-- **What the parties have comes to `n`.** -/
def Tally (f : ι → σ) (w : σ → ℕ) (n : ℕ) : Prop :=
  ∃ F : Finset ι, (∀ u, u ∉ F → w (f u) = 0) ∧ ∑ u ∈ F, w (f u) = n

namespace Tally

variable {f : ι → σ} {w : σ → ℕ} {n m : ℕ} {u : ι}

theorem zero (h : ∀ u, w (f u) = 0) : Tally f w 0 := ⟨∅, fun u _ => h u, Finset.sum_empty⟩

theorem eq_zero (t : Tally f w n) (h : ∀ u, w (f u) = 0) : n = 0 := by
  obtain ⟨F, -, rfl⟩ := t
  exact Finset.sum_eq_zero fun u _ => h u

theorem le (t : Tally f w n) (u : ι) : w (f u) ≤ n := by
  obtain ⟨F, hF, rfl⟩ := t
  by_cases hu : u ∈ F
  · exact Finset.single_le_sum (f := fun u => w (f u)) (fun _ _ => Nat.zero_le _) hu
  · rw [hF u hu]
    exact Nat.zero_le _

/-- Each of `k` parties has at most `b`, and the others have nothing. -/
theorem le_mul {p : σ → Bool} {k b : ℕ} (t : Tally f w n) (c : Census f p k)
    (h₀ : ∀ u, p (f u) = false → w (f u) = 0) (hb : ∀ u, w (f u) ≤ b) : n ≤ k * b := by
  obtain ⟨F, -, rfl⟩ := t
  obtain ⟨C, hC, rfl⟩ := c
  have hzero : ∀ u ∈ F, u ∉ C → w (f u) = 0 := fun u _ hu =>
    h₀ u (Bool.not_eq_true _ ▸ (hC u).not.mp hu)
  calc ∑ u ∈ F, w (f u)
    _ ≤ ∑ u ∈ C, w (f u) := Finset.sum_le_sum_of_ne_zero fun u hu hne => by
        by_contra hn
        exact hne (hzero u hu hn)
    _ ≤ C.card * b := Finset.sum_le_card_nsmul C _ b fun u _ => hb u

/-- Each of `k` parties gets at most `d`, and the others nothing. -/
theorem grow {τ ρ : Type*} {g : ι → τ} {v : τ → ℕ} {h : ι → ρ} {p : ρ → Bool} {k d : ℕ}
    (t : Tally f w n) (c : Census h p k) (h₀ : ∀ u, p (h u) = false → v (g u) ≤ w (f u))
    (hd : ∀ u, v (g u) ≤ w (f u) + d) : ∃ m ≤ n + k * d, Tally g v m := by
  classical
  obtain ⟨F, hF, rfl⟩ := t
  obtain ⟨C, hC, rfl⟩ := c
  have hout : ∀ u, u ∉ C → v (g u) ≤ w (f u) := fun u hu =>
    h₀ u (Bool.not_eq_true _ ▸ (hC u).not.mp hu)
  refine ⟨∑ u ∈ F ∪ C, v (g u), ?_, F ∪ C, fun u hu => ?_, rfl⟩
  · have hsum : ∑ u ∈ F, w (f u) = ∑ u ∈ F ∪ C, w (f u) :=
      Finset.sum_subset Finset.subset_union_left fun u _ hu => hF u hu
    have hgain : ∑ u ∈ F ∪ C, (if u ∈ C then d else 0) = C.card * d := by
      rw [Finset.sum_ite_mem, Finset.union_inter_cancel_right]
      exact Finset.sum_const_nat fun _ _ => rfl
    rw [hsum, ← hgain, ← Finset.sum_add_distrib]
    refine Finset.sum_le_sum fun u _ => ?_
    split
    · exact hd u
    · exact hout u ‹_›
  · rw [Finset.mem_union, not_or] at hu
    exact Nat.le_zero.mp (hF u hu.1 ▸ hout u hu.2)

variable [DecidableEq ι]

/-- A party moves. -/
theorem update (t : Tally f w n) (u : ι) (x : σ) (h : m + w (f u) = n + w x) :
    Tally (Function.update f u x) w m := by
  have hle := t.le u
  obtain ⟨F, hF, rfl⟩ := t
  refine ⟨insert u F, fun v hv => ?_, ?_⟩
  · rw [Finset.mem_insert, not_or] at hv
    rw [Function.update_of_ne hv.1, hF v hv.2]
  · have hrest : ∑ v ∈ F.erase u, w (Function.update f u x v) = ∑ v ∈ F.erase u, w (f v) :=
      Finset.sum_congr rfl fun v hv => by rw [Function.update_of_ne (Finset.ne_of_mem_erase hv)]
    have hnew : ∑ v ∈ insert u F, w (Function.update f u x v) =
        w x + ∑ v ∈ F.erase u, w (f v) := by
      rw [← Finset.insert_erase (Finset.mem_insert_self u F),
        Finset.sum_insert (Finset.notMem_erase u _), Function.update_self, Finset.erase_insert_eq_erase,
        hrest]
    have hold : ∑ v ∈ F, w (f v) = w (f u) + ∑ v ∈ F.erase u, w (f v) := by
      by_cases hu : u ∈ F
      · exact (Finset.add_sum_erase F _ hu).symm
      · rw [Finset.erase_eq_of_notMem hu, hF u hu, Nat.zero_add]
    omega

theorem move (t : Tally f w n) (u : ι) (x : σ) :
    Tally (Function.update f u x) w (n + w x - w (f u)) := by
  have hle := t.le u
  exact t.update u x (by omega)

end Tally

end MutilsTasks
