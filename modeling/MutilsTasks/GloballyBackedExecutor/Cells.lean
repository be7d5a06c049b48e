import MutilsTasks.GloballyBackedExecutor.Executor

/-!
# The indices of the executor

The indices that `increase_mem` has handed to the set are tokens (`Tokens.Distinct`): each
is in the set or with one task. A new index is the number of cells there were, so it has
not been handed out before. That is so while the indices are `int`s: with more than `2 ^ 31`
cells the conversion of an index is negative.
-/

namespace MutilsTasks.GloballyBackedExecutor

open Machine Tokens

theorem toInt_of_lt {n : ℕ} (h : n < 2 ^ 31) : toInt n = n :=
  Int.bmod_eq_of_le (by omega) (by omega)

theorem toSize_of_lt {i : ℤ} {n : ℕ} (h₀ : 0 ≤ i) (h : i < n) (hn : n ≤ 2 ^ 31) :
    toSize i = i.toNat := by
  rw [toSize, Int.emod_eq_of_lt h₀ (by omega)]

theorem add_of_notMem {l : List ℤ} {i : ℤ} (h : i ∉ l) : add l i = l ++ [i] := if_neg h

theorem mem_add {l : List ℤ} {i j : ℤ} : j ∈ add l i ↔ j ∈ l ∨ j = i := by
  unfold add
  split
  · rename_i h
    exact ⟨.inl, fun hj => hj.elim id fun e => e ▸ h⟩
  · rw [List.mem_append, List.mem_singleton]

namespace State

variable {behaviors : ℕ} {s s' : State} {a : Action} {u : ℕ} {t : Task}

/-- The index that a task has. -/
def hand (s : State) (u : ℕ) : Option ℤ := (s.task u).index

/-- Where the indices are. -/
structure Held (s : State) : Prop where
  distinct : Distinct s.indices s.hand
  handed : ∀ i, Somewhere s.indices s.hand i ↔ i ∈ s.handed
  below : ∀ i ∈ s.handed, 0 ≤ i ∧ i < s.memCount

/-- **What holds in every reachable state** with at most `2 ^ 31` cells. -/
structure Inv (s : State) : Prop extends s.Held where
  emplacing : ∀ i, s.grower.making = some i → i = s.memCount
  adding : ∀ i max, s.grower = .init i max ∨ s.grower = .add i max →
    i + 1 = s.memCount ∧ (i : ℤ) ∉ s.handed

theorem init_inv : init.Inv where
  distinct := ⟨List.nodup_nil, nofun, nofun⟩
  handed i := iff_of_false (by rintro (h | ⟨u, h⟩) <;> cases h) List.not_mem_nil
  below := nofun
  emplacing := nofun
  adding := nofun

theorem hand_goto (s : State) (u : ℕ) (t : Task) :
    (s.goto u t).hand = Function.update s.hand u t.index := by
  funext v
  by_cases h : v = u <;> simp [hand, goto, h]

theorem hand_goto_of_eq (h : t.index = (s.task u).index) : (s.goto u t).hand = s.hand := by
  rw [hand_goto, h]
  exact Function.update_eq_self u s.hand

theorem loop_cases (i max : ℕ) : loop i max = .emplace i max ∨ loop i max = .idle := by
  unfold loop
  split
  · exact .inl rfl
  · exact .inr rfl

/-- The growing thread tests its loop condition. -/
theorem Held.loops (inv : s.Held) (max : ℕ) : (s.growTo (loop s.memCount max)).Inv where
  distinct := inv.distinct
  handed := inv.handed
  below := inv.below
  emplacing i h := by
    rcases loop_cases s.memCount max with e | e <;> rw [growTo, e] at h <;> cases h
    rfl
  adding i m h := by
    rcases loop_cases s.memCount max with e | e <;> rw [growTo, e] at h <;> simp at h

namespace Inv

/-- An index is handed to the set. -/
theorem adds (inv : s.Inv) (hm : s.memCount ≤ 2 ^ 31) {i max : ℕ} (hg : s.grower = .add i max) :
    ({ s with indices := add s.indices (toInt i), handed := s.handed ++ [toInt i] }.growTo
      (loop (i + 1) max)).Inv := by
  obtain ⟨hi, hn⟩ := inv.adding i max (.inr hg)
  have hn' : ¬ Somewhere s.indices s.hand i := (inv.handed i).not.mpr hn
  rw [toInt_of_lt (by omega), add_of_notMem fun h => hn' (.of_mem h), hi]
  have held : { s with indices := s.indices ++ [(i : ℤ)], handed := s.handed ++ [(i : ℤ)] }.Held := by
    refine ⟨inv.distinct.add hn', fun j => ?_, fun j hj => ?_⟩
    · rw [List.mem_append, List.mem_singleton, or_comm, ← inv.handed]
      exact Distinct.somewhere_add
    · rcases List.mem_append.mp hj with hj | hj
      · exact inv.below j hj
      · rw [List.mem_singleton] at hj
        show 0 ≤ j ∧ j < s.memCount
        omega
  exact held.loops max

/-- A task takes an index or puts one back. -/
theorem goto (inv : s.Inv) {l : List ℤ} (hd : Distinct l (Function.update s.hand u t.index))
    (hs : ∀ i, Somewhere l (Function.update s.hand u t.index) i ↔ Somewhere s.indices s.hand i) :
    ({ s with indices := l }.goto u t).Inv := by
  have hh : ({ s with indices := l }.goto u t).hand = Function.update s.hand u t.index :=
    hand_goto ..
  refine ⟨⟨?_, fun i => ?_, inv.below⟩, inv.emplacing, inv.adding⟩
  · rw [hh]
    exact hd
  · rw [hh]
    exact (hs i).trans (inv.handed i)

/-- **Every step keeps it.** -/
theorem step (inv : s.Inv) (hm : s'.memCount ≤ 2 ^ 31) (h : s.step behaviors a = some s') :
    s'.Inv := by
  cases step_spec h with
  | @turns u t ht =>
    have hh : Function.update s.hand u t.index = s.hand := by
      rw [ht]
      exact Function.update_eq_self u s.hand
    exact inv.goto (by rw [hh]; exact inv.distinct) fun i => by rw [hh]
  | pops hu ht hi =>
    refine inv.goto ?_ fun j => ?_ <;> rw [ht]
    · exact inv.distinct.take hu hi
    · exact inv.distinct.somewhere_take hu hi
  | @leaves u i t hu ht =>
    rw [add_of_notMem (inv.distinct.apart u i hu)]
    refine inv.goto ?_ fun j => ?_ <;> rw [ht]
    · exact inv.distinct.put hu
    · exact inv.distinct.somewhere_put hu
  | calls => exact inv.loops _
  | stops => exact ⟨⟨inv.distinct, inv.handed, inv.below⟩, nofun, fun j m h => by simp [growTo] at h⟩
  | @makes _ _ g hg hg' =>
    refine ⟨⟨inv.distinct, inv.handed, inv.below⟩, fun i h => inv.emplacing i (hg'.symm.trans h), ?_⟩
    intro i m h
    have hn : g.making ≠ none := by rwa [hg']
    have h' : g = .init i m ∨ g = .add i m := h
    rcases h' with rfl | rfl <;> exact absurd rfl hn
  | @emplaces i max _ _ hg =>
    have hi := inv.emplacing i hg
    refine ⟨⟨inv.distinct, inv.handed, fun j hj => ?_⟩, nofun, fun j m h => ?_⟩
    · have := inv.below j hj
      show 0 ≤ j ∧ j < ((s.memCount + 1 : ℕ) : ℤ)
      omega
    · obtain ⟨rfl, -⟩ : i = j ∧ max = m := by simpa [growTo] using h
      refine ⟨congrArg (· + 1) hi, fun hj => ?_⟩
      have := inv.below i hj
      omega
  | @inits i max hg =>
    refine ⟨⟨inv.distinct, inv.handed, inv.below⟩, nofun, fun j m h => ?_⟩
    obtain ⟨rfl, -⟩ : i = j ∧ max = m := by simpa [growTo] using h
    exact inv.adding i max (.inl hg)
  | adds hg => exact inv.adds hm hg

end Inv

theorem memCount_le (h : s.step behaviors a = some s') : s.memCount ≤ s'.memCount := by
  cases step_spec h with
  | emplaces => exact Nat.le_succ _
  | _ => exact Nat.le_refl _

theorem inv_of_reach {P : State → Action → Prop} (h : Reach (step behaviors) P init s)
    (hm : s.memCount ≤ 2 ^ 31) : s.Inv := by
  induction h with
  | refl => exact init_inv
  | tail _ _ hs ih => exact (ih (Nat.le_trans (memCount_le hs) hm)).step hm hs

/-- A task that is named by none of the actions stays where it is. -/
theorem task_of_ne (h : s.step behaviors a = some s') (hu : a.task ≠ some u) :
    s'.task u = s.task u := by
  have key : ∀ {v : ℕ}, some v ≠ some u → ∀ {s₁ : State} {t : Task}, s₁.task = s.task →
      (s₁.goto v t).task u = s.task u := by
    intro v hv s₁ t e
    have hne : u ≠ v := fun e => hv (congrArg some e.symm)
    rw [goto, e]
    exact Function.update_of_ne hne ..
  cases a with
  | launch v command =>
    simp only [step, Option.ite_none_right_eq_some, Option.some.injEq] at h
    obtain ⟨-, rfl⟩ := h
    exact key hu rfl
  | pop v i =>
    simp only [step] at h
    split at h
    · simp only [Option.ite_none_right_eq_some, Option.some.injEq] at h
      obtain ⟨-, rfl⟩ := h
      exact key hu rfl
    · cases h
  | lookup v d =>
    simp only [step, lookup] at h
    split at h <;> cases h <;> exact key hu rfl
  | behave v throws | handle v throws | leave v =>
    simp only [step] at h
    split at h <;> cases h
    exact key hu rfl
  | increaseMem howmuch =>
    simp only [step, Option.ite_none_right_eq_some, Option.some.injEq] at h
    obtain ⟨-, rfl⟩ := h
    rfl
  | setMemTo value =>
    simp only [step, Option.ite_none_right_eq_some, Option.some.injEq] at h
    obtain ⟨-, rfl⟩ := h
    unfold setMemTo
    split <;> rfl
  | grow throws =>
    cases hg : s.grower <;> cases throws <;> simp only [step, hg] at h <;> cases h <;>
      first | rfl | (unfold emplace; split <;> rfl) | (unfold move; split <;> rfl)

theorem task_of_run {as : List Action} (h : run (step behaviors) s as = some s')
    (hu : ∀ a ∈ as, a.task ≠ some u) : s'.task u = s.task u := by
  apply run_invariant (I := fun t => t.task u = s.task u) rfl ?_ h
  intro t a ha t' ih hs
  exact (task_of_ne hs (hu a ha)).trans ih

/-- Two cells are made, and a task works on one of them. -/
def twoCells : List Action :=
  .setMemTo 2 :: List.replicate 13 (.grow false) ++
    [.launch 0 0, .pop 0 1, .lookup 0 0, .lookup 0 0, .lookup 0 0, .lookup 0 0, .lookup 0 0]

end State

end MutilsTasks.GloballyBackedExecutor
