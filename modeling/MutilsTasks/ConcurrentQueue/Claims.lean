import Mathlib.Data.Finset.Max
import MutilsTasks.Library.Census
import MutilsTasks.ConcurrentQueue.Producer

/-!
# Nobody takes an index beyond the tail

A consumer that tries gets a number, and it may take an index if its number, less the numbers
that were given up before it, is below the tail. How many had been given up it has read before
it got its number, so that all of those are smaller, but it may have been long ago. And others
with greater numbers may take an index before it does.

Still those that may take an index are never more than there are elements (`Counts`): of the
numbers up to the greatest of them, at least as many have been given up as that one had read.
So the indices that are taken stay below the tail.
-/

namespace MutilsTasks.ConcurrentQueue.Producer

open Machine

namespace Pc

/-- The number of a consumer that has not taken an index, and not given up. -/
def attempt : Pc → Option ℕ
  | .loadTailAgain m _ | .addOvercommit m => some m
  | _ => none

/-- The consumer has a number. -/
def tries (c : Pc) : Bool := c.attempt.isSome

/-- The consumer is about to take an index. -/
def may : Pc → Bool
  | .fetchHead => true
  | _ => false

/-- What the consumer has read of `dequeueOvercommit`, before it has a number. -/
def read : Pc → Option ℕ
  | .loadOptimistic _ overcommit | .fetchOptimistic overcommit => some overcommit
  | _ => none

/-- What the consumer has read of `dequeueOvercommit`, and its number. -/
def readBefore : Pc → Option (ℕ × ℕ)
  | .loadTailAgain m overcommit => some (m, overcommit)
  | _ => none

end Pc

namespace State

variable {nothrow : Bool} {s t s' : State} {a : Action} {u v : ℕ} {c : Pc} {C G : Finset ℕ}

/-- The indices have not come half way around. -/
def Small (s : State) (_ : Action) : Prop :=
  s.tailIndex + blockSize < 2 ^ 63 ∧ s.dequeueOptimisticCount < 2 ^ 63

instance (s : State) (a : Action) : Decidable (s.Small a) := inferInstanceAs (Decidable (_ ∧ _))

/-- How many numbers below `m` have been given up. -/
def below (C : Finset ℕ) (m : ℕ) : ℕ := (C.filter (· < m)).card

theorem below_le (C : Finset ℕ) (m : ℕ) : below C m ≤ m := by
  have hsub : C.filter (· < m) ⊆ Finset.range m := fun x hx =>
    Finset.mem_range.mpr (Finset.mem_filter.mp hx).2
  simpa [below] using Finset.card_le_card hsub

theorem below_mono {C C' : Finset ℕ} (h : C ⊆ C') (m : ℕ) : below C m ≤ below C' m :=
  Finset.card_le_card (Finset.filter_subset_filter _ h)

/-- When all are below `m`. -/
theorem below_eq (h : ∀ x ∈ C, x < u) : below C u = C.card := by
  rw [below, Finset.filter_true_of_mem h]

/-- **The counters**: the numbers in `C` have been given up, those in `G` may take an index, or
have taken one. -/
structure Counts (s : State) (C G : Finset ℕ) : Prop where
  overcommit : s.dequeueOvercommit = C.card
  given : ∀ m ∈ C, m < s.dequeueOptimisticCount
  granted : ∀ m ∈ G, m < s.dequeueOptimisticCount
  disjoint : Disjoint C G
  attempt : ∀ v m, (s.pc v).attempt = some m → m < s.dequeueOptimisticCount ∧ m ∉ C ∧ m ∉ G
  one : ∀ v w m, (s.pc v).attempt = some m → (s.pc w).attempt = some m → v = w
  head : ∃ k, Census s.pc Pc.may k ∧ s.headIndex + k = G.card
  tries : ∃ j, Census s.pc Pc.tries j ∧ s.dequeueOptimisticCount = C.card + G.card + j
  bound : ∀ m ∈ G, m < s.tailIndex + below C m
  read : ∀ v o, (s.pc v).read = some o → o ≤ C.card
  readBefore : ∀ v m o, (s.pc v).readBefore = some (m, o) → o ≤ below C m

theorem init_counts : init.Counts ∅ ∅ where
  overcommit := rfl
  given m h := absurd h (Finset.notMem_empty m)
  granted m h := absurd h (Finset.notMem_empty m)
  disjoint := Finset.disjoint_empty_left ∅
  attempt v m h := by simp [init, Pc.attempt] at h
  one v w m h := by simp [init, Pc.attempt] at h
  head := ⟨0, .zero fun _ => rfl, rfl⟩
  tries := ⟨0, .zero fun _ => rfl, rfl⟩
  bound m h := absurd h (Finset.notMem_empty m)
  read v o h := by simp [init, Pc.read] at h
  readBefore v m o h := by simp [init, Pc.readBefore] at h

/-- **There are no more that may take an index, or have taken one, than there are elements.** -/
theorem Counts.card_le (h : s.Counts C G) : G.card ≤ s.tailIndex := by
  by_cases hG : G.Nonempty
  · -- up to the greatest of them
    have hm := G.max'_mem hG
    generalize hmax : G.max' hG = m at hm
    have hle : ∀ x ∈ G, x ≤ m := fun x hx => hmax ▸ G.le_max' x hx
    have hdisj : Disjoint (C.filter (· < m)) G := h.disjoint.mono_left (Finset.filter_subset _ _)
    have hsub : C.filter (· < m) ∪ G ⊆ Finset.range (m + 1) := by
      intro x hx
      rw [Finset.mem_range]
      rcases Finset.mem_union.mp hx with hx | hx
      · have := (Finset.mem_filter.mp hx).2
        omega
      · have := hle x hx
        omega
    have hcard := Finset.card_le_card hsub
    rw [Finset.card_union_of_disjoint hdisj, Finset.card_range] at hcard
    have hbound := h.bound m hm
    rw [below] at hbound
    omega
  · rw [Finset.not_nonempty_iff_eq_empty] at hG
    simp [hG]

/-- The indices that are taken are below the tail. -/
theorem Counts.head_le (h : s.Counts C G) : s.headIndex ≤ s.tailIndex := by
  obtain ⟨k, -, hk⟩ := h.head
  have := h.card_le
  omega

/-- An index is there for a consumer that may take one. -/
theorem Counts.head_lt (h : s.Counts C G) (hu : s.pc u = .fetchHead) : s.headIndex < s.tailIndex := by
  obtain ⟨k, hc, hk⟩ := h.head
  have hpos : 0 < k := hc.pos (u := u) (by rw [hu]; rfl)
  have := h.card_le
  omega

theorem Counts.overcommit_le (h : s.Counts C G) :
    s.dequeueOvercommit ≤ s.dequeueOptimisticCount := by
  obtain ⟨j, -, hj⟩ := h.tries
  have := h.overcommit
  omega

/-- The rule for what consumers do elsewhere, and for the producer. -/
theorem Counts.quiet (h : s.Counts C G) (hpc : t.pc = Function.update s.pc u c)
    (hO : t.dequeueOptimisticCount = s.dequeueOptimisticCount)
    (hV : t.dequeueOvercommit = s.dequeueOvercommit) (hH : t.headIndex = s.headIndex)
    (hT : s.tailIndex ≤ t.tailIndex) (ha : c.attempt = (s.pc u).attempt)
    (hm : c.may = (s.pc u).may) (hr : ∀ o, c.read = some o → o ≤ C.card)
    (hb : c.readBefore = none) : t.Counts C G := by
  have hat : ∀ v, (t.pc v).attempt = (s.pc v).attempt := by
    intro v
    rw [hpc]
    by_cases e : v = u
    · rw [e, Function.update_self, ha]
    · rw [Function.update_of_ne e]
  obtain ⟨k, hk, hhead⟩ := h.head
  obtain ⟨j, hj, htries⟩ := h.tries
  refine
    { overcommit := hV ▸ h.overcommit
      given := hO ▸ h.given
      granted := hO ▸ h.granted
      disjoint := h.disjoint
      attempt := ?_
      one := ?_
      head := ⟨k, hpc ▸ hk.keep hm, hH ▸ hhead⟩
      tries := ⟨j, hpc ▸ hj.keep (by rw [Pc.tries, Pc.tries, ha]), hO ▸ htries⟩
      bound := ?_
      read := ?_
      readBefore := ?_ }
  · intro v m hv
    rw [hO]
    exact h.attempt v m (hat v ▸ hv)
  · intro v w m hv hw
    exact h.one v w m (hat v ▸ hv) (hat w ▸ hw)
  · intro m hm
    have := h.bound m hm
    omega
  · intro v o hv
    rw [hpc] at hv
    by_cases e : v = u
    · rw [e, Function.update_self] at hv
      exact hr o hv
    · rw [Function.update_of_ne e] at hv
      exact h.read v o hv
  · intro v m o hv
    rw [hpc] at hv
    by_cases e : v = u
    · rw [e, Function.update_self, hb] at hv
      cases hv
    · rw [Function.update_of_ne e] at hv
      exact h.readBefore v m o hv

/-- A step of the producer. -/
theorem Counts.same (h : s.Counts C G) (hpc : t.pc = s.pc)
    (hO : t.dequeueOptimisticCount = s.dequeueOptimisticCount)
    (hV : t.dequeueOvercommit = s.dequeueOvercommit) (hH : t.headIndex = s.headIndex)
    (hT : s.tailIndex ≤ t.tailIndex) : t.Counts C G := by
  refine
    { overcommit := hV ▸ h.overcommit
      given := hO ▸ h.given
      granted := hO ▸ h.granted
      disjoint := h.disjoint
      attempt := hO ▸ hpc ▸ h.attempt
      one := hpc ▸ h.one
      head := hH ▸ hpc ▸ h.head
      tries := hO ▸ hpc ▸ h.tries
      bound := ?_
      read := hpc ▸ h.read
      readBefore := hpc ▸ h.readBefore }
  intro m hm
  have := h.bound m hm
  omega

/-- A consumer gets its number. -/
theorem Counts.number (h : s.Counts C G) (hsmall : s.dequeueOptimisticCount < 2 ^ 63) {o : ℕ}
    (hc : s.pc u = .fetchOptimistic o) :
    ({ s with dequeueOptimisticCount := fetchAdd s.dequeueOptimisticCount 1 }.goto u
      (.loadTailAgain s.dequeueOptimisticCount o)).Counts C G := by
  have hO : fetchAdd s.dequeueOptimisticCount 1 = s.dequeueOptimisticCount + 1 :=
    fetchAdd_of_lt (by omega)
  obtain ⟨k, hk, hhead⟩ := h.head
  obtain ⟨j, hj, htries⟩ := h.tries
  have hattempt : ∀ v m, (Function.update s.pc u (.loadTailAgain s.dequeueOptimisticCount o) v).attempt
      = some m → v = u ∧ m = s.dequeueOptimisticCount ∨ v ≠ u ∧ (s.pc v).attempt = some m := by
    intro v m hv
    by_cases e : v = u
    · rw [e, Function.update_self] at hv
      exact .inl ⟨e, (Option.some.inj hv).symm⟩
    · rw [Function.update_of_ne e] at hv
      exact .inr ⟨e, hv⟩
  refine
    { overcommit := h.overcommit
      given := ?_
      granted := ?_
      disjoint := h.disjoint
      attempt := ?_
      one := ?_
      head := ⟨k, hk.keep (by rw [hc]; rfl), hhead⟩
      tries := ⟨j + 1, hj.enter (by rw [hc]; rfl) rfl, ?_⟩
      bound := h.bound
      read := ?_
      readBefore := ?_ }
  · intro m hm
    have := h.given m hm
    simp only [goto_dequeueOptimisticCount]
    omega
  · intro m hm
    have := h.granted m hm
    simp only [goto_dequeueOptimisticCount]
    omega
  · intro v m hv
    simp only [goto_dequeueOptimisticCount]
    rcases hattempt v m hv with ⟨-, rfl⟩ | ⟨-, hv⟩
    · refine ⟨by omega, ?_, ?_⟩
      · intro hm
        exact absurd (h.given _ hm) (Nat.lt_irrefl _)
      · intro hm
        exact absurd (h.granted _ hm) (Nat.lt_irrefl _)
    · obtain ⟨hlt, hn⟩ := h.attempt v m hv
      exact ⟨by omega, hn⟩
  · intro v w m hv hw
    rcases hattempt v m hv with ⟨hv, e⟩ | ⟨-, hv⟩ <;> rcases hattempt w m hw with ⟨hw, e'⟩ | ⟨-, hw⟩
    · rw [hv, hw]
    · exact absurd (e ▸ (h.attempt w m hw).1) (Nat.lt_irrefl _)
    · exact absurd (e' ▸ (h.attempt v m hv).1) (Nat.lt_irrefl _)
    · exact h.one v w m hv hw
  · simp only [goto_dequeueOptimisticCount]
    omega
  · intro v o' hv
    by_cases e : v = u
    · simp [e, Pc.read] at hv
    · simp only [goto_pc, Function.update_of_ne e] at hv
      exact h.read v o' hv
  · intro v m o' hv
    by_cases e : v = u
    · simp only [goto_pc, e, Function.update_self, Pc.readBefore, Option.some.injEq,
        Prod.mk.injEq] at hv
      obtain ⟨rfl, rfl⟩ := hv
      -- all that were given up have smaller numbers
      rw [below_eq h.given]
      exact h.read u o (by rw [hc]; rfl)
    · simp only [goto_pc, Function.update_of_ne e] at hv
      exact h.readBefore v m o' hv

/-- Nobody else has the number of a consumer that has decided. -/
theorem Counts.others (h : s.Counts C G) {m : ℕ} (hu : (s.pc u).attempt = some m)
    (hc : c.attempt = none) {n : ℕ} (hv : (Function.update s.pc u c v).attempt = some n) :
    (s.pc v).attempt = some n ∧ n ≠ m := by
  have hne : v ≠ u := by
    rintro rfl
    rw [Function.update_self, hc] at hv
    cases hv
  rw [Function.update_of_ne hne] at hv
  exact ⟨hv, fun e => hne (h.one v u m (e ▸ hv) hu)⟩

/-- A consumer finds that there is an element for it. -/
theorem Counts.grant (h : s.Counts C G) {m o : ℕ} (hc : s.pc u = .loadTailAgain m o)
    (hlt : m < s.tailIndex + o) : (s.goto u .fetchHead).Counts C (insert m G) := by
  have hat : (s.pc u).attempt = some m := by rw [hc]; rfl
  obtain ⟨hmO, hmC, hmG⟩ := h.attempt u m hat
  have ho : o ≤ below C m := h.readBefore u m o (by rw [hc]; rfl)
  obtain ⟨k, hk, hhead⟩ := h.head
  obtain ⟨j, hj, htries⟩ := h.tries
  obtain ⟨j, rfl, hj'⟩ := hj.leave (u := u) (x := .fetchHead) (by rw [hc]; rfl) rfl
  have hcard : (insert m G).card = G.card + 1 := Finset.card_insert_of_notMem hmG
  refine
    { overcommit := h.overcommit
      given := h.given
      granted := ?_
      disjoint := ?_
      attempt := ?_
      one := ?_
      head := ⟨k + 1, hk.enter (by rw [hc]; rfl) rfl, ?_⟩
      tries := ⟨j, hj', ?_⟩
      bound := ?_
      read := ?_
      readBefore := ?_ }
  · intro x hx
    rcases Finset.mem_insert.mp hx with rfl | hx
    · exact hmO
    · exact h.granted x hx
  · rw [Finset.disjoint_insert_right]
    exact ⟨hmC, h.disjoint⟩
  · intro v x hv
    obtain ⟨hv, hne⟩ := h.others hat rfl hv
    obtain ⟨h₁, h₂, h₃⟩ := h.attempt v x hv
    exact ⟨h₁, h₂, by rw [Finset.mem_insert, not_or]; exact ⟨hne, h₃⟩⟩
  · intro v w x hv hw
    exact h.one v w x (h.others hat rfl hv).1 (h.others hat rfl hw).1
  · simp only [goto_headIndex]
    omega
  · simp only [goto_dequeueOptimisticCount]
    omega
  · intro x hx
    rcases Finset.mem_insert.mp hx with rfl | hx
    · simp only [goto_tailIndex]
      omega
    · exact h.bound x hx
  · intro v o' hv
    by_cases e : v = u
    · simp [e, Pc.read] at hv
    · simp only [goto_pc, Function.update_of_ne e] at hv
      exact h.read v o' hv
  · intro v x o' hv
    by_cases e : v = u
    · simp [e, Pc.readBefore] at hv
    · simp only [goto_pc, Function.update_of_ne e] at hv
      exact h.readBefore v x o' hv

/-- A consumer finds that there is none. -/
theorem Counts.refuse (h : s.Counts C G) {m o : ℕ} (hc : s.pc u = .loadTailAgain m o) :
    (s.goto u (.addOvercommit m)).Counts C G :=
  h.quiet rfl rfl rfl rfl (Nat.le_refl _) (by rw [hc]; rfl) (by rw [hc]; rfl) (by simp [Pc.read]) rfl

/-- A consumer takes an index. -/
theorem Counts.takeIndex (h : s.Counts C G) (hc : s.pc u = .fetchHead)
    (hsmall : s.tailIndex < 2 ^ 63) :
    ({ s with headIndex := fetchAdd s.headIndex 1 }.goto u (.loadBlock s.headIndex)).Counts C G := by
  have hlt := h.head_lt hc
  have hH : fetchAdd s.headIndex 1 = s.headIndex + 1 := fetchAdd_of_lt (by omega)
  obtain ⟨k, hk, hhead⟩ := h.head
  obtain ⟨k, rfl, hk'⟩ := hk.leave (u := u) (x := .loadBlock s.headIndex) (by rw [hc]; rfl) rfl
  obtain ⟨j, hj, htries⟩ := h.tries
  have hat : ∀ v, (Function.update s.pc u (.loadBlock s.headIndex) v).attempt = (s.pc v).attempt := by
    intro v
    by_cases e : v = u
    · rw [e, Function.update_self, hc]
      rfl
    · rw [Function.update_of_ne e]
  refine
    { overcommit := h.overcommit
      given := h.given
      granted := h.granted
      disjoint := h.disjoint
      attempt := fun v m hv => h.attempt v m (hat v ▸ hv)
      one := fun v w m hv hw => h.one v w m (hat v ▸ hv) (hat w ▸ hw)
      head := ⟨k, hk', ?_⟩
      tries := ⟨j, hj.keep (by rw [hc]; rfl), htries⟩
      bound := h.bound
      read := ?_
      readBefore := ?_ }
  · simp only [goto_headIndex]
    omega
  · intro v o hv
    by_cases e : v = u
    · simp [e, Pc.read] at hv
    · simp only [goto_pc, Function.update_of_ne e] at hv
      exact h.read v o hv
  · intro v m o hv
    by_cases e : v = u
    · simp [e, Pc.readBefore] at hv
    · simp only [goto_pc, Function.update_of_ne e] at hv
      exact h.readBefore v m o hv

/-- A consumer gives up. -/
theorem Counts.giveUp (h : s.Counts C G) {m : ℕ} (hc : s.pc u = .addOvercommit m)
    (hsmall : s.dequeueOptimisticCount < 2 ^ 63) :
    ({ s with dequeueOvercommit := fetchAdd s.dequeueOvercommit 1 }.goto u .idle).Counts
      (insert m C) G := by
  have hle := h.overcommit_le
  have hV : fetchAdd s.dequeueOvercommit 1 = s.dequeueOvercommit + 1 := fetchAdd_of_lt (by omega)
  have hat : (s.pc u).attempt = some m := by rw [hc]; rfl
  obtain ⟨hmO, hmC, hmG⟩ := h.attempt u m hat
  obtain ⟨k, hk, hhead⟩ := h.head
  obtain ⟨j, hj, htries⟩ := h.tries
  obtain ⟨j, rfl, hj'⟩ := hj.leave (u := u) (x := .idle) (by rw [hc]; rfl) rfl
  have hcard : (insert m C).card = C.card + 1 := Finset.card_insert_of_notMem hmC
  have hsub : C ⊆ insert m C := Finset.subset_insert m C
  refine
    { overcommit := ?_
      given := ?_
      granted := h.granted
      disjoint := ?_
      attempt := ?_
      one := ?_
      head := ⟨k, hk.keep (by rw [hc]; rfl), hhead⟩
      tries := ⟨j, hj', ?_⟩
      bound := ?_
      read := ?_
      readBefore := ?_ }
  · simp only [goto_dequeueOvercommit]
    rw [hV, hcard, h.overcommit]
  · intro x hx
    rcases Finset.mem_insert.mp hx with rfl | hx
    · exact hmO
    · exact h.given x hx
  · rw [Finset.disjoint_insert_left]
    exact ⟨hmG, h.disjoint⟩
  · intro v x hv
    obtain ⟨hv, hne⟩ := h.others hat rfl hv
    obtain ⟨h₁, h₂, h₃⟩ := h.attempt v x hv
    exact ⟨h₁, by rw [Finset.mem_insert, not_or]; exact ⟨hne, h₂⟩, h₃⟩
  · intro v w x hv hw
    exact h.one v w x (h.others hat rfl hv).1 (h.others hat rfl hw).1
  · simp only [goto_dequeueOptimisticCount]
    omega
  · intro x hx
    have := h.bound x hx
    have := below_mono hsub x
    simp only [goto_tailIndex]
    omega
  · intro v o hv
    by_cases e : v = u
    · simp [e, Pc.read] at hv
    · simp only [goto_pc, Function.update_of_ne e] at hv
      have := h.read v o hv
      omega
  · intro v x o hv
    by_cases e : v = u
    · simp [e, Pc.readBefore] at hv
    · simp only [goto_pc, Function.update_of_ne e] at hv
      have := h.readBefore v x o hv
      have := below_mono hsub x
      omega

/-- A consumer goes on. -/
theorem Counts.work (h : s.Counts C G) (hsmall : s.Small a) (hs : s.work u = some s') :
    ∃ C' G', s'.Counts C' G' := by
  obtain ⟨hT, hO⟩ := hsmall
  unfold State.work at hs
  cases hc : s.pc u with
  | idle => simp [hc] at hs
  | loadTail =>
    simp only [hc, Option.some.injEq] at hs
    subst hs
    exact ⟨C, G, h.quiet rfl rfl rfl rfl (Nat.le_refl _) (by rw [hc]; rfl) (by rw [hc]; rfl)
      (by simp [Pc.read]) rfl⟩
  | loadOvercommit tail =>
    simp only [hc, Option.some.injEq] at hs
    subst hs
    refine ⟨C, G, h.quiet rfl rfl rfl rfl (Nat.le_refl _) (by rw [hc]; rfl) (by rw [hc]; rfl)
      (fun o ho => ?_) rfl⟩
    simp only [Pc.read, Option.some.injEq] at ho
    rw [← ho, h.overcommit]
  | loadOptimistic tail o =>
    simp only [hc, Option.some.injEq] at hs
    subst hs
    refine ⟨C, G, h.quiet rfl rfl rfl rfl (Nat.le_refl _) ?_ ?_ ?_ ?_⟩
    · rw [hc]
      split <;> rfl
    · rw [hc]
      split <;> rfl
    · intro o' ho
      refine h.read u o' ?_
      rw [hc]
      split at ho
      · exact ho
      · cases ho
    · split <;> rfl
  | fetchOptimistic o =>
    simp only [hc, Option.some.injEq] at hs
    subst hs
    exact ⟨C, G, h.number hO hc⟩
  | loadTailAgain m o =>
    simp only [hc, Option.some.injEq] at hs
    subst hs
    have ho : o ≤ m := Nat.le_trans (h.readBefore u m o (by rw [hc]; rfl)) (below_le C m)
    have hm : m < s.dequeueOptimisticCount := (h.attempt u m (by rw [hc]; rfl)).1
    split
    · rename_i hlt
      exact ⟨C, _, h.grant hc ((circularLessThan_sub ho (by omega) (by omega)).mp hlt)⟩
    · exact ⟨C, G, h.refuse hc⟩
  | fetchHead =>
    simp only [hc, Option.some.injEq] at hs
    subst hs
    exact ⟨C, G, h.takeIndex hc (by omega)⟩
  | addOvercommit m =>
    simp only [hc, Option.some.injEq] at hs
    subst hs
    exact ⟨_, G, h.giveUp hc hO⟩
  | loadBlock i | take i b =>
    simp only [hc, Option.map_eq_some_iff] at hs
    obtain ⟨x, -, rfl⟩ := hs
    exact ⟨C, G, h.quiet rfl rfl rfl rfl (Nat.le_refl _) (by rw [hc]; rfl) (by rw [hc]; rfl)
      (by simp [Pc.read]) rfl⟩
  | setEmpty i b =>
    simp only [hc, Option.some.injEq] at hs
    subst hs
    split <;> exact ⟨C, G, h.quiet rfl rfl rfl rfl (Nat.le_refl _) (by rw [hc]; rfl)
      (by rw [hc]; rfl) (by simp [Pc.read]) rfl⟩
  | clearEntry i b | giveBack b =>
    simp only [hc, Option.some.injEq] at hs
    subst hs
    exact ⟨C, G, h.quiet rfl rfl rfl rfl (Nat.le_refl _) (by rw [hc]; rfl) (by rw [hc]; rfl)
      (by simp [Pc.read]) rfl⟩

/-- The producer goes on. -/
theorem Counts.produce (h : s.Counts C G) (hsmall : s.Small a) (hs : s.produce nothrow = some s') :
    s'.Counts C G := by
  have hT : s.tailIndex ≤ fetchAdd s.tailIndex 1 := by
    have := hsmall.1
    rw [fetchAdd_of_lt (by omega)]
    omega
  unfold State.produce at hs
  cases hp : s.prod with
  | idle | requisition x => simp [hp] at hs
  | construct x =>
    simp only [hp, Option.map_eq_some_iff] at hs
    obtain ⟨b, -, rfl⟩ := hs
    exact h.same rfl rfl rfl rfl (Nat.le_refl _)
  | publish x =>
    simp only [hp, Option.some.injEq] at hs
    subst hs
    exact h.same rfl rfl rfl rfl hT
  | _ =>
    simp only [hp, Option.some.injEq] at hs
    subst hs
    exact h.same rfl rfl rfl rfl (Nat.le_refl _)

theorem Counts.step (h : s.Counts C G) (hsmall : s.Small a) (hs : s.step nothrow a = some s') :
    ∃ C' G', s'.Counts C' G' := by
  cases a with
  | work u => exact h.work hsmall hs
  | produce => exact ⟨C, G, h.produce hsmall hs⟩
  | dequeue u =>
    simp only [State.step, Option.ite_none_right_eq_some, Option.some.injEq] at hs
    obtain ⟨hc, rfl⟩ := hs
    exact ⟨C, G, h.quiet rfl rfl rfl rfl (Nat.le_refl _) (by rw [hc]; rfl) (by rw [hc]; rfl)
      (by simp [Pc.read]) rfl⟩
  | enqueue x | requisition b | fail | throws | foreign b i x n =>
    simp only [State.step] at hs
    repeat' split at hs
    all_goals cases hs
    all_goals exact ⟨C, G, h.same rfl rfl rfl rfl (Nat.le_refl _)⟩

theorem counts_of_reach (h : Reach (step nothrow) Small init s) : ∃ C G, s.Counts C G :=
  h.invariant (I := fun s : State => ∃ C G, s.Counts C G) ⟨_, _, init_counts⟩
    fun _ _ _ _ ⟨_, _, hC⟩ ha hs => hC.step ha hs

end State

end MutilsTasks.ConcurrentQueue.Producer
