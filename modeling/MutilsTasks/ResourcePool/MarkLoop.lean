import MutilsTasks.Library.Tally
import MutilsTasks.ResourcePool.Overdrawn

/-!
# The loop that raises the high-water mark

The constructor of `overdrawn` goes round its loop again when its `compare_exchange_strong`
fails, and then another constructor's has succeeded since the `load`. That one has left the
loop, so the constructors cannot keep each other in it: `k` of them are done after at most
`k * (3 * k + 7)` steps, however they are interleaved, and none of them ever waits
(`lock_free`).
-/

namespace MutilsTasks.ResourcePool.Overdrawn

open Machine

/-- The step is a constructor's. -/
def Action.advances : Action → Bool
  | .advance _ => true
  | .construct _ | .destroy _ => false

namespace Rental

/-- More than the steps that are left to a constructor, where the mark is `mark` and it may cost
`k` others a round of the loop to leave it. -/
def weight (k mark : ℕ) : Rental → ℕ
  | .unbuilt | .built | .destroyed => 0
  | .sum _ => 1
  | .count _ => 2
  | .exchange _ cand => (if cand = mark then 3 else 6) + (3 * k + 1)
  | .load _ => 4 + (3 * k + 1)
  | .test _ => 5 + (3 * k + 1)
  | .increment => 6 + (3 * k + 1)

theorem weight_le (k mark : ℕ) (r : Rental) : r.weight k mark ≤ 3 * k + 7 := by
  cases r <;> simp only [weight] <;> first | omega | (split <;> omega)

theorem weight_of_not_constructing {k mark : ℕ} {r : Rental} (h : r.constructing = false) :
    r.weight k mark = 0 := by
  cases r <;> first | rfl | cases h

/-- A change of the mark costs a constructor a round. -/
theorem weight_mark (k mark mark' : ℕ) (r : Rental) : r.weight k mark' ≤ r.weight k mark + 3 := by
  cases r with
  | exchange overBy cand =>
    simp only [weight]
    split <;> split <;> omega
  | _ => exact Nat.le_add_right _ 3

end Rental

namespace State

variable {s s' : State} {a : Action} {u k n : ℕ} {r : Rental}

/-- At most `k` constructors are in flight, and what is left to them comes to `n`. -/
def Weighs (k : ℕ) (s : State) (n : ℕ) : Prop :=
  (∃ b ≤ k, Census s.rental Rental.constructing b) ∧
    Tally s.rental (Rental.weight k s.maxOverdraw) n

/-- No constructor is called. -/
theorem constructing_goto {b : ℕ} (hc : Census s.rental Rental.constructing b)
    (hu : (s.rental u).constructing = true) (r : Rental) :
    ∃ d ≤ b, Census (s.goto u r).rental Rental.constructing d := by
  cases hr : r.constructing with
  | true => exact ⟨b, Nat.le_refl b, hc.keep (hr.trans hu.symm)⟩
  | false =>
    obtain ⟨d, rfl, hd⟩ := hc.leave hu hr
    exact ⟨d, Nat.le_succ d, hd⟩

/-- A constructor makes a step that leaves the mark as it is. -/
theorem Weighs.turn (h : s.Weighs k n) (hp : s'.rental = (s.goto u r).rental)
    (hm : s'.maxOverdraw = s.maxOverdraw) (hu : (s.rental u).constructing = true)
    (hlt : r.weight k s.maxOverdraw < (s.rental u).weight k s.maxOverdraw) :
    ∃ m, m < n ∧ s'.Weighs k m := by
  obtain ⟨⟨b, hb, hc⟩, ht⟩ := h
  have hle := ht.le u
  obtain ⟨d, hd, hc'⟩ := constructing_goto hc hu r
  refine ⟨n + r.weight k s.maxOverdraw - (s.rental u).weight k s.maxOverdraw, by omega,
    ⟨d, by omega, hp ▸ hc'⟩, ?_⟩
  rw [hp, hm]
  exact ht.update u r (by omega)

/-- A constructor sets the mark, and leaves the loop. -/
theorem Weighs.raise (h : s.Weighs k n) {overBy cand : ℕ} (hu : s.rental u = .exchange overBy cand)
    (he : s.maxOverdraw = cand) :
    ∃ m, m < n ∧ ({ s with maxOverdraw := overBy }.goto u (.count overBy)).Weighs k m := by
  obtain ⟨⟨b, hb, hc⟩, ht⟩ := h
  have hcu : (s.rental u).constructing = true := by rw [hu]; rfl
  -- the constructor itself has its round paid for, and `3 * k` more
  have ht₁ : Tally (s.goto u (.count overBy)).rental (Rental.weight k s.maxOverdraw)
      (n + 2 - (3 + (3 * k + 1))) := by
    have hw : (s.rental u).weight k s.maxOverdraw = 3 + (3 * k + 1) := by
      rw [hu, he]
      simp [Rental.weight]
    have hle := ht.le u
    rw [hw] at hle
    exact ht.update u (.count overBy) (by rw [hw]; show _ = n + 2; omega)
  obtain ⟨d, hd, hc'⟩ := constructing_goto hc hcu (.count overBy)
  obtain ⟨m, hm, ht₂⟩ := ht₁.grow (v := Rental.weight k overBy) hc'
    (fun v hv => by rw [Rental.weight_of_not_constructing hv]; exact Nat.zero_le _)
    fun v => Rental.weight_mark k s.maxOverdraw overBy _
  have hdk : d * 3 ≤ 3 * k := by omega
  have hle : 3 + (3 * k + 1) ≤ n := by
    have := ht.le u
    rw [hu, he] at this
    simpa [Rental.weight] using this
  exact ⟨m, by omega, ⟨d, by omega, hc'⟩, ht₂⟩

/-- **Every step of a constructor leaves less to do.** -/
theorem Weighs.step (h : s.Weighs k n) (ha : a.advances = true) (hs : s.step a = some s') :
    ∃ m, m < n ∧ s'.Weighs k m := by
  cases a with
  | advance u =>
    simp only [State.step, State.advance] at hs
    cases hr : s.rental u with
    | unbuilt | built | destroyed => simp [hr] at hs
    | test overBy =>
      simp only [hr, Option.some.injEq] at hs
      subst hs
      split <;> exact h.turn rfl rfl (by rw [hr]; rfl) (by simp [hr, Rental.weight] <;> omega)
    | load overBy =>
      simp only [hr, Option.some.injEq] at hs
      subst hs
      exact h.turn rfl rfl (by rw [hr]; rfl) (by simp [hr, Rental.weight])
    | exchange overBy cand =>
      simp only [hr, Option.some.injEq, State.exchange] at hs
      subst hs
      split
      · exact h.raise hr ‹_›
      · have hne : cand ≠ s.maxOverdraw := fun e => ‹¬ s.maxOverdraw = cand› e.symm
        exact h.turn rfl rfl (by rw [hr]; rfl) (by simp [hr, Rental.weight, hne])
    | increment | count | sum =>
      simp only [hr, Option.some.injEq] at hs
      subst hs
      exact h.turn rfl rfl (by rw [hr]; rfl) (by simp [hr, Rental.weight])
  | _ => cases ha

/-- **The constructors are lock-free**: when `k` of them are in flight, they are done after at
most `k * (3 * k + 7)` steps, unless another is called, and none of them ever waits for another. -/
theorem lock_free (hk : Census s.rental Rental.constructing k) {as : List Action}
    (has : ∀ a ∈ as, a.advances = true) (hr : run step s as = some s') :
    as.length ≤ k * (3 * k + 7) ∧
      ∀ u, (s'.rental u).constructing = true → ∃ s'', s'.step (.advance u) = some s'' := by
  constructor
  · obtain ⟨F, hF, hcard⟩ := hk
    have hc : Census s.rental Rental.constructing k := ⟨F, hF, hcard⟩
    have ht : Tally s.rental (Rental.weight k s.maxOverdraw)
        (∑ u ∈ F, (s.rental u).weight k s.maxOverdraw) :=
      ⟨F, fun u hu => Rental.weight_of_not_constructing (by simpa using (hF u).not.mp hu), rfl⟩
    calc as.length
      _ ≤ ∑ u ∈ F, (s.rental u).weight k s.maxOverdraw :=
        length_le_of_run (W := Weighs k) (fun _ _ _ _ ha hW hs => hW.step ha hs) has
          ⟨⟨k, Nat.le_refl k, hc⟩, ht⟩ hr
      _ ≤ k * (3 * k + 7) :=
        ht.le_mul hc (fun u => Rental.weight_of_not_constructing) fun u => Rental.weight_le k _ _
  · intro u hu
    cases hc : s'.rental u with
    | unbuilt | built | destroyed =>
      rw [hc] at hu
      cases hu
    | _ => simp [step, advance, hc]

/-- Two rentals are constructed at once, and one of them has to go round again. -/
def goRound : List Action := [.advance 0, .advance 1, .advance 0, .advance 1, .advance 0, .advance 1,
  .advance 1, .advance 0, .advance 0]

theorem lock_free_goRound : ∃ s s', run step init [.construct 0, .construct 1] = some s ∧
    run step s goRound = some s' ∧ s'.rental 0 = .count 1 ∧ goRound.length ≤ 2 * (3 * 2 + 7) := by
  obtain ⟨s', hr, h₀⟩ : ∃ s', run step ((init.goto 0 .increment).goto 1 .increment) goRound = some s' ∧
      s'.rental 0 = .count 1 := ⟨_, rfl, rfl⟩
  have hc : Census ((init.goto 0 .increment).goto 1 .increment).rental Rental.constructing 2 :=
    ((Census.zero fun _ => rfl).enter rfl rfl).enter rfl rfl
  exact ⟨_, s', rfl, hr, h₀, (lock_free hc (by decide) hr).1⟩

end State

end MutilsTasks.ResourcePool.Overdrawn
