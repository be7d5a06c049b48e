import Mathlib.Logic.Function.Basic

/-!
# Things that are in one place

Where each of many things is can be said by a function. What a program keeps about a place then
says which things the function has there, and a thing that moves between two other places does
not change that.
-/

namespace MutilsTasks

universe u v

variable {α : Type u} {β : Type v} [DecidableEq α] {place : α → β} {P : α → Prop} {a : α} {p q : β}

/-- A thing that moves neither from nor to `p`. -/
theorem iff_of_elsewhere (h : ∀ b, P b ↔ place b = p) (hfrom : place a ≠ p) (hto : q ≠ p) (b : α) :
    P b ↔ Function.update place a q b = p := by
  by_cases e : b = a
  · rw [e, Function.update_self, h]
    exact iff_of_false hfrom hto
  · rw [Function.update_of_ne e, h]

/-- A thing that moves to `p`. -/
theorem iff_of_here {P' : α → Prop} (h : ∀ b, P b ↔ place b = p) (hhere : P' a)
    (hothers : ∀ b, b ≠ a → (P' b ↔ P b)) (b : α) : P' b ↔ Function.update place a p b = p := by
  by_cases e : b = a
  · rw [e, Function.update_self]
    exact iff_of_true hhere rfl
  · rw [Function.update_of_ne e, hothers b e, h]

/-- A thing that moves away from `p`. -/
theorem iff_of_gone {P' : α → Prop} (h : ∀ b, P b ↔ place b = p) (hq : q ≠ p) (hgone : ¬ P' a)
    (hothers : ∀ b, b ≠ a → (P' b ↔ P b)) (b : α) : P' b ↔ Function.update place a q b = p := by
  by_cases e : b = a
  · rw [e, Function.update_self]
    exact iff_of_false hgone hq
  · rw [Function.update_of_ne e, hothers b e, h]

end MutilsTasks
