import Mathlib.Data.List.Nodup
import Mathlib.Logic.Function.Basic

/-!
# Linked lists

Nodes that name the next one, in a memory that may hold any number of others: `Linked next p l`
says that the nodes from `p` on are those of `l`, and that the last of them names none. There is
only one such list, no node is in it twice, and what is written elsewhere does not change it.
-/

namespace MutilsTasks

universe u

variable {α : Type u}

/-- **The nodes from a pointer on.** -/
inductive Linked (next : α → Option α) : Option α → List α → Prop
  | nil : Linked next none []
  | cons {a : α} {l : List α} : Linked next (next a) l → Linked next (some a) (a :: l)

namespace Linked

variable {next : α → Option α} {p : Option α} {a : α} {l m : List α}

theorem eq_nil (h : Linked next none l) : l = [] := by
  cases h
  rfl

theorem exists_cons (h : Linked next (some a) l) : ∃ m, l = a :: m ∧ Linked next (next a) m := by
  cases h with
  | cons h => exact ⟨_, rfl, h⟩

theorem unique (h : Linked next p l) (h' : Linked next p m) : l = m := by
  induction h generalizing m with
  | nil => exact h'.eq_nil.symm
  | cons _ ih =>
    obtain ⟨m, rfl, hm⟩ := h'.exists_cons
    rw [ih hm]

/-- From a node of the list on there is a list that is no longer. -/
theorem exists_from (h : Linked next p l) (ha : a ∈ l) :
    ∃ m, Linked next (some a) m ∧ m.length ≤ l.length := by
  induction h with
  | nil => cases ha
  | @cons b l hl ih =>
    rcases List.mem_cons.mp ha with rfl | ha
    · exact ⟨_, .cons hl, Nat.le_refl _⟩
    · obtain ⟨m, hm, hle⟩ := ih ha
      exact ⟨m, hm, Nat.le_succ_of_le hle⟩

/-- A list that ends has no node twice. -/
theorem nodup (h : Linked next p l) : l.Nodup := by
  induction h with
  | nil => exact List.nodup_nil
  | @cons a l hl ih =>
    refine List.nodup_cons.mpr ⟨fun ha => ?_, ih⟩
    obtain ⟨m, hm, hle⟩ := hl.exists_from ha
    have : m = a :: l := hm.unique (.cons hl)
    rw [this, List.length_cons] at hle
    omega

/-- A node that is not in the list is changed. -/
theorem update [DecidableEq α] (h : Linked next p l) (ha : a ∉ l) (x : Option α) :
    Linked (Function.update next a x) p l := by
  induction h with
  | nil => exact .nil
  | @cons b l hl ih =>
    rw [List.mem_cons, not_or] at ha
    refine .cons ?_
    rw [Function.update_of_ne (Ne.symm ha.1)]
    exact ih ha.2

end Linked

end MutilsTasks
