import Mathlib.Data.Finset.Card
import Mathlib.Data.List.Nodup
import Mathlib.Logic.Function.Basic

/-!
# Tokens

A container of distinct tokens and the hands that take them out: a free list and
the threads that have popped from it, a set of indices and their owners. A token
is in the container or in one hand, never in two places (`Distinct`). Every
program that uses such a container does some of five things: it takes a token into an
empty hand, puts one back, drops one, and makes one in a hand or in the container. Each keeps the tokens
distinct, and each says what it does to the set of tokens there are
(`Somewhere`).
-/

namespace MutilsTasks.Tokens

universe u v

variable {ι : Type u} {π : Type v}

/-- Token `p` is in the container or in a hand. -/
def Somewhere (store : List π) (hand : ι → Option π) (p : π) : Prop :=
  p ∈ store ∨ ∃ u, hand u = some p

/-- Token `p` is in this place: in the container (`none`) or in the hand of `u`. -/
def At (store : List π) (hand : ι → Option π) (p : π) : Option ι → Prop
  | none => p ∈ store
  | some u => hand u = some p

/-- **No token is in two places.** -/
structure Distinct (store : List π) (hand : ι → Option π) : Prop where
  nodup : store.Nodup
  apart : ∀ u p, hand u = some p → p ∉ store
  one : ∀ u v p, hand u = some p → hand v = some p → u = v

variable {store : List π} {hand : ι → Option π} {p q : π} {u : ι}

theorem somewhere_iff_at : Somewhere store hand p ↔ ∃ w, At store hand p w := by
  constructor
  · rintro (h | ⟨u, h⟩)
    · exact ⟨none, h⟩
    · exact ⟨some u, h⟩
  · rintro ⟨_ | u, h⟩
    · exact .inl h
    · exact .inr ⟨u, h⟩

theorem somewhere_perm {store' : List π} (h : store.Perm store') :
    Somewhere store hand p ↔ Somewhere store' hand p :=
  or_congr_left h.mem_iff

theorem Somewhere.of_mem (h : p ∈ store) : Somewhere store hand p := .inl h

theorem Somewhere.of_hand (h : hand u = some p) : Somewhere store hand p := .inr ⟨u, h⟩

namespace Distinct

theorem at_unique (d : Distinct store hand) {w w' : Option ι} (h : At store hand p w)
    (h' : At store hand p w') : w = w' := by
  cases w with
  | none =>
    cases w' with
    | none => rfl
    | some v => exact absurd h (d.apart v p h')
  | some u =>
    cases w' with
    | none => exact absurd h' (d.apart u p h)
    | some v => rw [d.one u v p h h']

/-- **Every token is counted once**: in the container or at the hand that has it. -/
theorem length_add_card (d : Distinct store hand) {S : Finset π} {H : Finset ι}
    (hS : ∀ p, Somewhere store hand p ↔ p ∈ S) (hH : ∀ u, u ∈ H ↔ ∃ p, hand u = some p) :
    store.length + H.card = S.card := by
  classical
  have hstore : S.filter (· ∈ store) = store.toFinset := by
    ext p
    rw [Finset.mem_filter, List.mem_toFinset, ← hS]
    exact ⟨And.right, fun h => ⟨.of_mem h, h⟩⟩
  have hhand : H.card = (S.filter (· ∉ store)).card := by
    have key : ∀ u ∈ H, ∃ p, hand u = some p := fun u hu => (hH u).mp hu
    refine Finset.card_bij (fun u hu => (key u hu).choose) (fun u hu => ?_) (fun u hu v hv e => ?_)
      (fun p hp => ?_)
    · have h := (key u hu).choose_spec
      exact Finset.mem_filter.mpr ⟨(hS _).mp (.of_hand h), d.apart u _ h⟩
    · apply d.one u v _ (key u hu).choose_spec
      rw [e]
      exact (key v hv).choose_spec
    · obtain ⟨hp, hn⟩ := Finset.mem_filter.mp hp
      obtain ⟨u, hu⟩ := ((hS p).mpr hp).resolve_left hn
      have hH' : u ∈ H := (hH u).mpr ⟨p, hu⟩
      exact ⟨u, hH', Option.some.inj ((key u hH').choose_spec.symm.trans hu)⟩
  rw [hhand, ← List.toFinset_card_of_nodup d.nodup, ← hstore]
  exact Finset.card_filter_add_card_filter_not (· ∈ store)

/-! ### The order in the container -/

theorem perm {store' : List π} (d : Distinct store hand) (h : store.Perm store') :
    Distinct store' hand :=
  ⟨h.nodup d.nodup, fun u p hu hp => d.apart u p hu (h.mem_iff.mpr hp), d.one⟩

/-! ### Making a token in the container -/

theorem add (d : Distinct store hand) (hp : ¬ Somewhere store hand p) :
    Distinct (store ++ [p]) hand := by
  refine ⟨?_, fun v q hv hq => ?_, d.one⟩
  · rw [List.nodup_append]
    refine ⟨d.nodup, by simp, fun a ha b hb e => ?_⟩
    rw [List.mem_singleton] at hb
    exact hp (.of_mem (hb ▸ e ▸ ha))
  · rcases List.mem_append.mp hq with hq | hq
    · exact d.apart v q hv hq
    · rw [List.mem_singleton] at hq
      exact hp (.of_hand (hq ▸ hv))

theorem somewhere_add : Somewhere (store ++ [p]) hand q ↔ q = p ∨ Somewhere store hand q := by
  rw [Somewhere, List.mem_append, List.mem_singleton, Somewhere]
  tauto

variable [DecidableEq ι]

/-- The hands other than `u` do not move. -/
theorem exists_update_of_empty (hu : hand u = none) (x : Option π) :
    (∃ v, Function.update hand u x v = some q) ↔ x = some q ∨ ∃ v, hand v = some q := by
  constructor
  · rintro ⟨v, hv⟩
    by_cases h : v = u
    · subst h
      exact .inl (by simpa using hv)
    · exact .inr ⟨v, by simpa [h] using hv⟩
  · rintro (rfl | ⟨v, hv⟩)
    · exact ⟨u, by simp⟩
    · have : v ≠ u := fun e => by simp [e, hu] at hv
      exact ⟨v, by simpa [this] using hv⟩

theorem exists_update_none (d : Distinct store hand) (hu : hand u = some p) :
    (∃ v, Function.update hand u none v = some q) ↔ q ≠ p ∧ ∃ v, hand v = some q := by
  constructor
  · rintro ⟨v, hv⟩
    by_cases h : v = u
    · simp [h] at hv
    · rw [Function.update_of_ne h] at hv
      exact ⟨fun e => h (d.one v u p (e ▸ hv) hu), v, hv⟩
  · rintro ⟨hq, v, hv⟩
    have : v ≠ u := fun e => hq (Option.some.inj (hv.symm.trans (e ▸ hu)))
    exact ⟨v, by simpa [this] using hv⟩

/-! ### Taking a token -/

theorem take [DecidableEq π] (d : Distinct store hand) (hu : hand u = none) (hp : p ∈ store) :
    Distinct (store.erase p) (Function.update hand u (some p)) := by
  refine ⟨d.nodup.erase p, fun v q hv hq => ?_, fun v w q hv hw => ?_⟩
  · by_cases h : v = u
    · subst h
      obtain rfl : p = q := by simpa using hv
      exact (d.nodup.mem_erase_iff.mp hq).1 rfl
    · exact d.apart v q (by simpa [h] using hv) (List.mem_of_mem_erase hq)
  · by_cases hvu : v = u <;> by_cases hwu : w = u
    · rw [hvu, hwu]
    · obtain rfl : p = q := by simpa [hvu] using hv
      exact absurd hp (d.apart w p (by simpa [hwu] using hw))
    · obtain rfl : p = q := by simpa [hwu] using hw
      exact absurd hp (d.apart v p (by simpa [hvu] using hv))
    · exact d.one v w q (by simpa [hvu] using hv) (by simpa [hwu] using hw)

theorem somewhere_take [DecidableEq π] (d : Distinct store hand) (hu : hand u = none)
    (hp : p ∈ store) : Somewhere (store.erase p) (Function.update hand u (some p)) q ↔
      Somewhere store hand q := by
  rw [Somewhere, exists_update_of_empty hu, d.nodup.mem_erase_iff, Somewhere, Option.some.injEq]
  constructor
  · rintro (⟨-, h⟩ | rfl | h)
    · exact .inl h
    · exact .inl hp
    · exact .inr h
  · rintro (h | h)
    · by_cases hq : q = p
      · exact .inr (.inl hq.symm)
      · exact .inl ⟨hq, h⟩
    · exact .inr (.inr h)

/-! ### Dropping a token -/

theorem drop (d : Distinct store hand) (u : ι) : Distinct store (Function.update hand u none) := by
  have key : ∀ v q, Function.update hand u none v = some q → hand v = some q := by
    intro v q hv
    by_cases h : v = u
    · simp [h] at hv
    · simpa [h] using hv
  exact ⟨d.nodup, fun v q hv => d.apart v q (key v q hv),
    fun v w q hv hw => d.one v w q (key v q hv) (key w q hw)⟩

theorem somewhere_drop (d : Distinct store hand) (hu : hand u = some p) :
    Somewhere store (Function.update hand u none) q ↔ q ≠ p ∧ Somewhere store hand q := by
  rw [Somewhere, d.exists_update_none hu, Somewhere]
  constructor
  · rintro (h | ⟨hq, h⟩)
    · exact ⟨fun e => d.apart u p hu (e ▸ h), .inl h⟩
    · exact ⟨hq, .inr h⟩
  · rintro ⟨hq, h | h⟩
    · exact .inl h
    · exact .inr ⟨hq, h⟩

/-! ### Putting a token back -/

theorem put (d : Distinct store hand) (hu : hand u = some p) :
    Distinct (store ++ [p]) (Function.update hand u none) := by
  refine ⟨?_, fun v q hv hq => ?_, (d.drop u).one⟩
  · rw [List.nodup_append]
    refine ⟨d.nodup, by simp, fun a ha b hb e => ?_⟩
    rw [List.mem_singleton] at hb
    exact d.apart u p hu (hb ▸ e ▸ ha)
  · rcases List.mem_append.mp hq with hq | hq
    · exact (d.drop u).apart v q hv hq
    · rw [List.mem_singleton] at hq
      exact ((d.somewhere_drop hu).mp (.of_hand hv)).1 hq

theorem somewhere_put (d : Distinct store hand) (hu : hand u = some p) :
    Somewhere (store ++ [p]) (Function.update hand u none) q ↔ Somewhere store hand q := by
  rw [Somewhere, d.exists_update_none hu, List.mem_append, List.mem_singleton, Somewhere]
  constructor
  · rintro ((h | rfl) | ⟨-, h⟩)
    · exact .inl h
    · exact .inr ⟨u, hu⟩
    · exact .inr h
  · rintro (h | h)
    · exact .inl (.inl h)
    · by_cases hq : q = p
      · exact .inl (.inr hq)
      · exact .inr ⟨hq, h⟩

/-! ### Making a token -/

theorem make (d : Distinct store hand) (hp : ¬ Somewhere store hand p) :
    Distinct store (Function.update hand u (some p)) := by
  refine ⟨d.nodup, fun v q hv hq => ?_, fun v w q hv hw => ?_⟩
  · by_cases h : v = u
    · obtain rfl : p = q := by simpa [h] using hv
      exact hp (.of_mem hq)
    · exact d.apart v q (by simpa [h] using hv) hq
  · by_cases hvu : v = u <;> by_cases hwu : w = u
    · rw [hvu, hwu]
    · obtain rfl : p = q := by simpa [hvu] using hv
      exact absurd (.of_hand (by simpa [hwu] using hw)) hp
    · obtain rfl : p = q := by simpa [hwu] using hw
      exact absurd (.of_hand (by simpa [hvu] using hv)) hp
    · exact d.one v w q (by simpa [hvu] using hv) (by simpa [hwu] using hw)

theorem somewhere_make (hu : hand u = none) :
    Somewhere store (Function.update hand u (some p)) q ↔ q = p ∨ Somewhere store hand q := by
  rw [Somewhere, exists_update_of_empty hu, Somewhere, Option.some.injEq, eq_comm (a := q)]
  tauto

end Distinct

end MutilsTasks.Tokens
