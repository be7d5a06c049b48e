import Mathlib.Data.List.Nodup

/-!
# A queue with lanes

A queue that keeps the order of each producer and no other: an element is put at the end, and
what is taken is the first of somebody's elements. So the elements of each producer are a
queue of their own, first in, first out (`lane`), and the other lanes do not notice.
-/

namespace MutilsTasks

universe u v

variable {κ : Type u} {π : Type v} [DecidableEq κ]

/-- The elements of `c`, in their order. -/
def lane (c : κ) (l : List (κ × π)) : List (κ × π) := l.filter fun e => e.1 = c

@[simp] theorem lane_nil (c : κ) : lane c ([] : List (κ × π)) = [] := rfl

@[simp] theorem lane_append (c : κ) (l m : List (κ × π)) : lane c (l ++ m) = lane c l ++ lane c m :=
  List.filter_append ..

theorem mem_lane {c : κ} {l : List (κ × π)} {e : κ × π} : e ∈ lane c l ↔ e ∈ l ∧ e.1 = c := by
  simp [lane]

section Taking

variable [DecidableEq π] {c : κ} {l : List (κ × π)} {e : κ × π}

/-- The first element of `c` is taken: it is the first of its lane, and leaves the others as
they are. -/
theorem lane_of_find (h : l.find? (fun e => e.1 = c) = some e) (d : κ) :
    lane d l = lane d [e] ++ lane d (l.erase e) := by
  obtain ⟨he, as, bs, rfl, has⟩ := List.find?_eq_some_iff_append.mp h
  have he : e.1 = c := by simpa using he
  have hnot : e ∉ as := fun hm => by simpa [he] using has e hm
  rw [List.erase_append_right _ hnot, List.erase_cons_head, lane_append, lane_append,
    ← List.singleton_append, lane_append]
  by_cases hd : e.1 = d
  · -- nothing of this lane is before it
    have : lane d as = [] := by
      refine List.filter_eq_nil_iff.mpr fun x hx => ?_
      simpa [← hd, he] using has x hx
    rw [this, List.nil_append, List.nil_append]
  · have : lane d [e] = [] := by simp [lane, hd]
    rw [this, List.nil_append, List.nil_append]

/-- How often an element is there can be seen in its lane. -/
theorem count_lane (e : κ × π) (l : List (κ × π)) : (lane e.1 l).count e = l.count e :=
  List.count_filter (by simp)

/-- What is in a prefix of every lane is there once, if everything is. -/
theorem nodup_of_lanes {m : List (κ × π)} (h : ∀ c, lane c m <+: lane c l) (hl : l.Nodup) :
    m.Nodup := by
  rw [List.nodup_iff_count_le_one] at hl ⊢
  intro e
  have hle := (h e.1).sublist.count_le e
  rw [count_lane, count_lane] at hle
  exact Nat.le_trans hle (hl e)

end Taking

end MutilsTasks
