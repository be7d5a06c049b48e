import MutilsTasks.ResourcePool.ConcurrentIndices

/-!
# Preference indices are partitioned

An index below `max_resources` is in exactly one of four conditions, in every state
that any number of threads reach while fewer than `2 ^ 64` values of
`current_max_index` were fetched; `builder` may throw (`index_partition`). In a state
with no call in flight `preferred_full` says that every index is owned, as long as
`current_max_index + 1` has not wrapped; with `2 ^ 64 - 1` values fetched it has
(`preferredFull_wraps`).
-/

namespace MutilsTasks.ResourcePool.State

open Machine

variable {cfg : Config} {s s' : State} {u : ℕ}

/-- The four conditions of an index. -/
inductive IndexPlace where
  /-- Not issued yet. -/
  | unissued
  /-- In `recycled_indices`. -/
  | recycled
  /-- Taken by the `acquire_new_preference` of thread `u`. -/
  | taken (u : ℕ)
  /-- Owned by the live `index_owner` `o`. -/
  | owned (o : ℕ)

/-- Index `i` is in this condition. -/
def IndexAt (s : State) (i : ℕ) : IndexPlace → Prop
  | .unissued => s.pool.indices.currentMaxIndex ≤ i
  | .recycled => i ∈ s.pool.indices.recycledIndices
  | .taken u => ∃ c, s.pc u = .haveIndex c i
  | .owned o => s.pool.indices.indexOwner o = some i

theorem taken_eq_some {i : ℕ} : s.taken u = some i ↔ ∃ c, s.pc u = .haveIndex c i := by
  unfold taken
  cases s.pc u <;> simp [Pc.taken, eq_comm]

/-- Each condition but the first is a place of the token. -/
theorem at_of_indexAt {i : ℕ} {l : IndexPlace} (h : s.IndexAt i l) (hl : l ≠ .unissued) :
    Tokens.At s.pool.indices.recycledIndices (s.pool.indices.hand s.taken) i
      (match l with
        | .unissued | .recycled => none
        | .taken u => some (.inl u)
        | .owned o => some (.inr o)) := by
  cases l with
  | unissued => exact absurd rfl hl
  | recycled => exact h
  | taken u => exact taken_eq_some.mpr h
  | owned o => exact h

theorem exists_unique_indexAt (inv : IndexInv cfg s.pool.indices s.taken)
    (hs : s.pool.indices.fetchAdds < 2 ^ 64) {i : ℕ} (hi : i < cfg.maxResources) :
    ∃! l, s.IndexAt i l := by
  have hc : s.pool.indices.currentMaxIndex = s.pool.indices.fetchAdds := Nat.mod_eq_of_lt hs
  by_cases hlt : i < s.pool.indices.fetchAdds
  · have hun : ¬ s.IndexAt i .unissued := by
      rw [IndexAt, hc]
      omega
    obtain ⟨l, hl⟩ : ∃ l, s.IndexAt i l := by
      rcases (inv.issued i hi).mpr hlt with h | ⟨u | o, h⟩
      · exact ⟨.recycled, h⟩
      · exact ⟨.taken u, taken_eq_some.mp h⟩
      · exact ⟨.owned o, h⟩
    have ne : ∀ {l}, s.IndexAt i l → l ≠ .unissued := by
      rintro l h rfl
      exact hun h
    refine ⟨l, hl, fun l' hl' => ?_⟩
    have := inv.distinct.at_unique (at_of_indexAt hl (ne hl)) (at_of_indexAt hl' (ne hl'))
    have h₁ := ne hl
    have h₂ := ne hl'
    rcases l with _ | _ | u | o <;> rcases l' with _ | _ | u' | o' <;> simp_all
  · have hun : s.pool.indices.currentMaxIndex ≤ i := by omega
    refine ⟨.unissued, hun, fun l' hl' => ?_⟩
    by_contra hne
    have := Tokens.somewhere_iff_at.mpr ⟨_, at_of_indexAt hl' hne⟩
    exact hlt (inv.below i this)

/-- **Preference indices are partitioned.** Fewer than `2 ^ 64` values fetched: every
index below `max_resources` is in exactly one condition, no index is recycled twice,
and no `index_owner` has an index that `max_resources` does not bound. Fewer than
`2 ^ 64 - 1`, and no call in flight: `preferred_full` says that every index is owned. -/
theorem index_partition (h : Reach (step cfg) Any (init cfg) s)
    (hs : s.pool.indices.fetchAdds < 2 ^ 64) :
    (∀ i < cfg.maxResources, ∃! l, s.IndexAt i l) ∧
    s.pool.indices.recycledIndices.Nodup ∧
    (∀ o i, s.pool.indices.indexOwner o = some i → i < cfg.maxResources) ∧
    (s.pool.indices.fetchAdds < 2 ^ 64 - 1 → (∀ u, s.pc u = .idle) →
      (s.pool.indices.preferredFull cfg = true ↔
        ∀ i < cfg.maxResources, ∃ o, s.pool.indices.indexOwner o = some i)) := by
  have inv := indexInv_of_reach h hs
  refine ⟨fun i hi => exists_unique_indexAt inv hs hi, inv.distinct.nodup,
    (owners_of_reach h).owned, fun hlt hu => inv.preferredFull_iff (fun u => ?_) (by omega)⟩
  rw [taken, hu]
  rfl

/-- A pool of one preferred pack and no spare. -/
def onePreferred : Config := ⟨1, 0, true, one_lt_maxSize⟩

theorem index_partition_one : ∃ s, run (step onePreferred) (init onePreferred)
    (.acquire 0 :: List.replicate 4 (.advance 0)) = some s ∧ ∃! l, s.IndexAt 0 l := by
  refine ⟨_, rfl, ?_⟩
  have h := @index_partition onePreferred _ (Reach.of_run
    (.acquire 0 :: List.replicate 4 (.advance 0)) (fun _ _ _ => trivial) rfl) (by decide)
  exact h.1 0 (by decide)

/-! ### The last value but one -/

/-- A thread that has passed `preferred_full` fetches an index that is too large, finds
nothing to dequeue, and its `builder` throws. -/
theorem reach_lose (hu : s.pc u = .fetchAdd .acquire) (ho : cfg.allowOverdraws = true)
    (hi : ¬ s.pool.indices.currentMaxIndex < cfg.maxResources)
    (hp : s.pool.indices.preference.ptr (.param u) = none) :
    Reach (step cfg) Any s
      (s.goto u { s.pool with indices := s.pool.indices.fetchAdd } .idle) := by
  have h : run (step cfg) s [.advance u, .advance u, .dequeueFails u, .builderThrows u false,
      .advance u] = some (s.goto u { s.pool with indices := s.pool.indices.fetchAdd } .idle) := by
    have hq : (s.pool.indices.fetchAdd.setPreference (.param u) none) = s.pool.indices.fetchAdd := by
      simp [Indices.setPreference, Indices.fetchAdd, hp, SharedPtrs.assign_none_eq_self]
    simp [run, step, advance, hu, fetch, goto, hi, ho, Pool.unwound, Pool.setPreference, hq]
  exact Reach.of_run _ (fun _ _ _ => trivial) h

/-- `m` values were fetched, and nothing else was done to the pool. -/
def fetched (m : ℕ) : Pool :=
  { Pool.init onePreferred with indices := { Indices.init with fetchAdds := m } }

/-- Any number of threads pass `preferred_full` while no index has been issued. -/
theorem reach_waiting (n : ℕ) : Reach (step onePreferred) Any (init onePreferred)
    ⟨fetched 0, fun u => if u < n then .fetchAdd .acquire else .idle⟩ := by
  induction n with
  | zero => exact .refl
  | succ n ih =>
    refine ih.trans (Reach.of_run [.acquire n, .advance n, .advance n]
      (fun _ _ _ => trivial) ?_)
    have hpc : Function.update (fun u => if u < n then Pc.fetchAdd .acquire else .idle) n
        (.fetchAdd .acquire) = fun u => if u < n + 1 then Pc.fetchAdd .acquire else .idle := by
      funext u
      grind [Function.update_apply]
    simp [run, step, advance, goto, fetched, Indices.indexExhausted, Indices.currentMaxIndex,
      Indices.init, onePreferred, hpc]

/-- The first of them has taken index `0`, and the next ones have lost. -/
theorem reach_lost {n m : ℕ} (hm : m < n) (hn : n < 2 ^ 64) :
    Reach (step onePreferred) Any (init onePreferred) ⟨fetched (m + 1), fun u =>
      if u = 0 then .haveIndex .acquire 0 else
        if u < m + 1 then .idle else if u < n then .fetchAdd .acquire else .idle⟩ := by
  induction m with
  | zero =>
    refine (reach_waiting n).trans (Reach.single (a := .advance 0) trivial ?_)
    have hpc : Function.update (fun u => if u < n then Pc.fetchAdd .acquire else .idle) 0
        (.haveIndex .acquire 0) = fun u => if u = 0 then .haveIndex .acquire 0 else
          if u < 0 + 1 then .idle else if u < n then Pc.fetchAdd .acquire else .idle := by
      funext u
      grind [Function.update_apply]
    simp [step, advance, hm, fetch, goto, fetched, Indices.currentMaxIndex, Indices.init,
      Indices.fetchAdd, hpc]
  | succ m ih =>
    refine (ih (by omega)).trans ?_
    have hpc : Function.update (fun u => if u = 0 then Pc.haveIndex .acquire 0 else
        if u < m + 1 then .idle else if u < n then .fetchAdd .acquire else .idle) (m + 1) .idle =
        fun u => if u = 0 then .haveIndex .acquire 0 else
          if u < m + 1 + 1 then .idle else if u < n then Pc.fetchAdd .acquire else .idle := by
      funext u
      grind [Function.update_apply]
    have h := @reach_lose onePreferred ⟨fetched (m + 1), fun u =>
      if u = 0 then .haveIndex .acquire 0 else
        if u < m + 1 then .idle else if u < n then .fetchAdd .acquire else .idle⟩ (m + 1)
      (by simp [hm]) rfl ?_ rfl
    · rw [goto, hpc] at h
      exact h
    · show ¬ (m + 1) % 2 ^ 64 < 1
      omega

/-- **`current_max_index + 1` wraps.** With one preferred pack, `2 ^ 64 - 1` threads that
pass `preferred_full` before any of them fetches leave a state in which no call is in
flight, fewer than `2 ^ 64` values were fetched and the only index is owned, and
`preferred_full` says no. -/
theorem preferredFull_wraps : ¬ ∀ (cfg : Config) (s : State), Reach (step cfg) Any (init cfg) s →
    s.pool.indices.fetchAdds < 2 ^ 64 → (∀ u, s.pc u = .idle) →
    (s.pool.indices.preferredFull cfg = true ↔
      ∀ i < cfg.maxResources, ∃ o, s.pool.indices.indexOwner o = some i) := by
  intro claim
  have hr := reach_lost (n := 2 ^ 64 - 1) (m := 2 ^ 64 - 2) (by decide) (by decide)
  have hpc : (fun u => if u = 0 then Pc.haveIndex .acquire 0 else if u < 2 ^ 64 - 2 + 1 then .idle
      else if u < 2 ^ 64 - 1 then .fetchAdd .acquire else .idle) =
      Function.update (fun _ => Pc.idle) 0 (.haveIndex .acquire 0) := by
    funext u
    grind [Function.update_apply]
  rw [hpc] at hr
  obtain ⟨s, hs, hf, ho, hi⟩ : ∃ s, run (step onePreferred)
      ⟨fetched (2 ^ 64 - 2 + 1), Function.update (fun _ => Pc.idle) 0 (.haveIndex .acquire 0)⟩
      [.advance 0, .advance 0, .advance 0, .publish 0 0] = some s ∧
      s.pool.indices.fetchAdds = 2 ^ 64 - 1 ∧ s.pool.indices.indexOwner 0 = some 0 ∧
      ∀ u, s.pc u = .idle := by
    refine ⟨_, rfl, rfl, rfl, fun u => ?_⟩
    by_cases h : u = 0
    · subst h
      rfl
    · change Function.update (Function.update (Function.update (Function.update (Function.update
        (fun _ => Pc.idle) 0 _) 0 _) 0 _) 0 _) 0 _ u = _
      simp [h]
  have h := claim onePreferred s (hr.trans (Reach.of_run _ (fun _ _ _ => trivial) hs))
    (by rw [hf]; decide) hi
  have hfull : s.pool.indices.preferredFull onePreferred = true := by
    refine h.mpr fun i hlt => ⟨0, ?_⟩
    obtain rfl : i = 0 := Nat.lt_one_iff.mp hlt
    exact ho
  simp [Indices.preferredFull, Indices.indexExhausted, Indices.currentMaxIndex, hf] at hfull

end MutilsTasks.ResourcePool.State
