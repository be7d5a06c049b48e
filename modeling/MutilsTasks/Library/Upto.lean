import Mathlib.Algebra.Order.Ring.Int
import Mathlib.Data.List.Nodup
import Mathlib.Data.List.Range

/-!
# The integers below a number

Programs number their slots from zero and keep the numbers in signed integers. `upto n` is
the list of the integers `0`, `1`, up to but not including `n`.
-/

namespace MutilsTasks

/-- The integers `0,..n`. -/
def upto (n : ℕ) : List ℤ := (List.range n).map fun i : ℕ => (i : ℤ)

variable {n : ℕ} {i : ℤ}

theorem mem_upto : i ∈ upto n ↔ 0 ≤ i ∧ i < n := by
  simp only [upto, List.mem_map, List.mem_range]
  constructor
  · rintro ⟨k, hk, rfl⟩
    omega
  · intro h
    exact ⟨i.toNat, by omega, Int.toNat_of_nonneg h.1⟩

theorem nodup_upto (n : ℕ) : (upto n).Nodup :=
  List.nodup_range.map Int.ofNat_injective

@[simp] theorem length_upto (n : ℕ) : (upto n).length = n := by
  rw [upto, List.length_map, List.length_range]

end MutilsTasks
