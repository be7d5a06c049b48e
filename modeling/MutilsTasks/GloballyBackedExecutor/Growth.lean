import MutilsTasks.GloballyBackedExecutor.Cells
import MutilsTasks.Library.Upto

/-!
# When growing the memory fails

`increase_mem` makes a cell, calls `init` on it and hands its index to the set, in this
order, and derives its first index from the number of cells. A cell whose construction
throws does not exist, and the next call makes it. A cell whose `init` throws exists and
is counted, but its index is never handed to the set: no later call does it, as it starts
behind the cell.

A log keeps which `init`s have completed and which have thrown (`Logged`). Every cell is
in the log once, as completed or as thrown, and the set holds the indices of the completed
ones.
-/

namespace MutilsTasks.GloballyBackedExecutor

open Machine

/-- Only the thread that grows the memory acts. -/
def Action.grows : Action → Bool
  | .increaseMem _ | .setMemTo _ | .grow _ => true
  | _ => false

/-- The cell whose `init` completes. -/
def State.completes (s : State) (a : Action) : List ℕ :=
  match s.grower, a with
  | .init i _, .grow false => [i]
  | _, _ => []

/-- The cell whose `init` throws. -/
def State.throws (s : State) (a : Action) : List ℕ :=
  match s.grower, a with
  | .init i _, .grow true => [i]
  | _, _ => []

/-- An executor with a log of its `init`s. -/
structure Logged where
  /-- The executor. -/
  state : State
  /-- The cells whose `init` has completed. -/
  completed : List ℕ
  /-- The cells whose `init` has thrown. -/
  thrown : List ℕ

namespace Logged

/-- A new executor. -/
def init : Logged := ⟨.init, [], []⟩

/-- **The step of the executor**, logged. -/
def step (behaviors : ℕ) (l : Logged) (a : Action) : Option Logged :=
  (l.state.step behaviors a).map fun s =>
    ⟨s, l.completed ++ l.state.completes a, l.thrown ++ l.state.throws a⟩

/-- Every cell is usable, and has been initialized once. -/
structure Sound (l : Logged) : Prop where
  usable : ∀ i : ℤ, i ∈ l.state.indices ↔ 0 ≤ i ∧ i < l.state.memCount
  count : l.state.indices.length = l.state.memCount
  once : ∀ n < l.state.memCount, l.completed.count n = 1

/-- **A step of the thread that grows the memory.** -/
inductive Grows (l : Logged) : Logged → Prop
  /-- It is called. -/
  | calls {max : ℕ} : l.state.grower = .idle →
      Grows l ⟨l.state.growTo (State.loop l.state.memCount max), l.completed, l.thrown⟩
  /-- The call has nothing to do. -/
  | returns : l.state.grower = .idle → Grows l ⟨l.state, l.completed, l.thrown⟩
  /-- A cell is being made. -/
  | makes {b : ℕ} {m : ℕ → ℕ → Slot} {g : Grower} : l.state.grower.making ≠ none →
      g.making = l.state.grower.making →
      Grows l ⟨{ l.state with start := b, cell := m }.growTo g, l.completed, l.thrown⟩
  /-- A cell is made. -/
  | emplaces {i max b c : ℕ} : l.state.grower.making = some i →
      Grows l ⟨{ l.state with memCount := l.state.memCount + 1, finishAt := b, capacity := c }.growTo
        (.init i max), l.completed, l.thrown⟩
  /-- The construction of a cell throws. -/
  | drops {i max : ℕ} : l.state.grower = .emplace i max →
      Grows l ⟨l.state.growTo .idle, l.completed, l.thrown⟩
  /-- `init` completes. -/
  | completes {i max : ℕ} : l.state.grower = .init i max →
      Grows l ⟨l.state.growTo (.add i max), l.completed ++ [i], l.thrown⟩
  /-- `init` throws. -/
  | throws {i max : ℕ} : l.state.grower = .init i max →
      Grows l ⟨l.state.growTo .idle, l.completed, l.thrown ++ [i]⟩
  /-- An index is handed to the set. -/
  | adds {i max : ℕ} : l.state.grower = .add i max →
      Grows l ⟨{ l.state with
        indices := add l.state.indices (toInt i)
        handed := l.state.handed ++ [toInt i] }.growTo (State.loop (i + 1) max),
        l.completed, l.thrown⟩

variable {behaviors : ℕ} {l l' : Logged} {a : Action}

theorem step_spec (ha : a.grows = true) (h : l.step behaviors a = some l') : l.Grows l' := by
  obtain ⟨s, hs, rfl⟩ := Option.map_eq_some_iff.mp h
  cases a with
  | increaseMem howmuch =>
    simp only [State.step, Option.ite_none_right_eq_some, Option.some.injEq] at hs
    obtain ⟨hg, rfl⟩ := hs
    simp only [State.completes, State.throws, hg, List.append_nil]
    exact .calls hg
  | setMemTo value =>
    simp only [State.step, Option.ite_none_right_eq_some, Option.some.injEq] at hs
    obtain ⟨hg, rfl⟩ := hs
    simp only [State.completes, State.throws, hg, List.append_nil, State.setMemTo]
    split
    · exact .calls hg
    · exact .returns hg
  | grow throws =>
    cases hg : l.state.grower with
    | idle => simp [State.step, hg] at hs
    | emplace i max =>
      cases throws <;> simp only [State.step, hg, Option.some.injEq] at hs <;> subst hs <;>
        simp only [State.completes, State.throws, hg, List.append_nil]
      · unfold State.emplace
        split <;> exact .makes (b := l.state.start) (by simp [hg, Grower.making]) (by rw [hg]; rfl)
      · exact .drops hg
    | raise i max | setFinish i max =>
      cases throws <;> simp only [State.step, hg, Option.some.injEq] at hs <;> cases hs
      simp only [State.completes, State.throws, hg, List.append_nil]
      exact .emplaces (b := _) (c := _) (by rw [hg]; rfl)
    | move i max k =>
      cases throws <;> simp only [State.step, hg, Option.some.injEq] at hs <;> cases hs
      simp only [State.completes, State.throws, hg, List.append_nil]
      unfold State.move
      split <;> exact .makes (b := l.state.start) (by simp [hg, Grower.making]) (by rw [hg]; rfl)
    | setStart i max =>
      cases throws <;> simp only [State.step, hg, Option.some.injEq] at hs <;> cases hs
      simp only [State.completes, State.throws, hg, List.append_nil]
      exact .makes (m := l.state.cell) (by simp [hg, Grower.making]) (by rw [hg]; rfl)
    | init i max =>
      cases throws <;> simp only [State.step, hg, Option.some.injEq] at hs <;> subst hs <;>
        simp only [State.completes, State.throws, hg, List.append_nil]
      · exact .completes hg
      · exact .throws hg
    | add i max =>
      cases throws with
      | true => simp [State.step, hg] at hs
      | false =>
        simp only [State.step, hg, Option.some.injEq] at hs
        subst hs
        simp only [State.completes, State.throws, hg, List.append_nil]
        exact .adds hg
  | _ => cases ha

end Logged

/-! ### The books -/

/-- How many cells are in the log. -/
def State.booked (s : State) : ℕ :=
  match s.grower with
  | .init i _ => i
  | _ => s.memCount

/-- The cell whose index is about to be handed to the set. -/
def State.adding (s : State) : Option ℕ :=
  match s.grower with
  | .add i _ => some i
  | _ => none

/-- A cell that is being made is not in the log. -/
theorem State.booked_of_making {s : State} (h : s.grower.making ≠ none) :
    s.booked = s.memCount ∧ s.adding = none := by
  unfold State.booked State.adding
  cases hg : s.grower <;> first | exact ⟨rfl, rfl⟩ | exact absurd (by rw [hg]; rfl) h

theorem nodup_add {l : List ℤ} {i : ℤ} (h : l.Nodup) : (add l i).Nodup := by
  unfold add
  split
  · exact h
  · rename_i hn
    rw [List.nodup_append]
    refine ⟨h, List.nodup_singleton i, fun a ha b hb e => hn ?_⟩
    rw [List.mem_singleton] at hb
    exact hb ▸ e ▸ ha

/-- The first `b` cells are in the log, each once. -/
def Once (completed thrown : List ℕ) (b : ℕ) : Prop :=
  ∀ n, completed.count n + thrown.count n = if n < b then 1 else 0

/-- The set holds the indices of the completed cells, but for one that is about to be added. -/
structure Listed (indices : List ℤ) (completed : List ℕ) (adding : Option ℕ) : Prop where
  mem : ∀ j, j ∈ indices ↔ ∃ n ∈ completed, adding ≠ some n ∧ toInt n = j
  adding : ∀ n, adding = some n → n ∈ completed
  nodup : indices.Nodup

section Books

variable {completed thrown : List ℕ} {indices : List ℤ} {b i : ℕ}

theorem Once.notMem (h : Once completed thrown b) : b ∉ completed := by
  have hb := h b
  rw [if_neg (Nat.lt_irrefl b)] at hb
  apply List.count_eq_zero.mp
  omega

theorem Once.complete (h : Once completed thrown b) : Once (completed ++ [b]) thrown (b + 1) := by
  intro n
  have hn := h n
  rw [List.count_append, List.count_singleton]
  simp only [beq_iff_eq]
  split <;> split at hn <;> split <;> omega

theorem Once.throw (h : Once completed thrown b) : Once completed (thrown ++ [b]) (b + 1) := by
  have h' : Once thrown completed b := fun n => (Nat.add_comm _ _).trans (h n)
  exact fun n => (Nat.add_comm _ _).trans (h'.complete n)

/-- If none has thrown, the first `b` cells have completed. -/
theorem Once.mem_completed (h : Once completed [] b) (n : ℕ) : n ∈ completed ↔ n < b := by
  have hn := h n
  rw [List.count_nil, Nat.add_zero] at hn
  rw [← List.count_pos_iff, hn]
  split <;> omega

/-- The set then holds the numbers of the cells, as long as they are `int`s. -/
theorem Listed.mem_iff (h : Listed indices completed none) (ho : Once completed [] b)
    (hb : b ≤ 2 ^ 31) (j : ℤ) : j ∈ indices ↔ 0 ≤ j ∧ j < b := by
  rw [h.mem]
  constructor
  · rintro ⟨n, hn, -, rfl⟩
    rw [ho.mem_completed] at hn
    rw [toInt_of_lt (by omega)]
    omega
  · intro hj
    have hn : j.toNat < b := by omega
    refine ⟨j.toNat, (ho.mem_completed _).mpr hn, nofun, ?_⟩
    rw [toInt_of_lt (by omega), Int.toNat_of_nonneg hj.1]

theorem Listed.complete (h : Listed indices completed none) (hb : b ∉ completed) :
    Listed indices (completed ++ [b]) (some b) where
  mem j := by
    rw [h.mem]
    constructor
    · rintro ⟨n, hn, -, hj⟩
      refine ⟨n, List.mem_append_left _ hn, fun e => hb ?_, hj⟩
      cases e
      exact hn
    · rintro ⟨n, hn, hne, hj⟩
      rcases List.mem_append.mp hn with hn | hn
      · exact ⟨n, hn, nofun, hj⟩
      · rw [List.mem_singleton] at hn
        exact absurd (congrArg some hn.symm) hne
  adding n e := by
    cases e
    exact List.mem_append_right _ (List.mem_singleton_self _)
  nodup := h.nodup

theorem Listed.add (h : Listed indices completed (some i)) :
    Listed (add indices (toInt i)) completed none where
  mem j := by
    rw [mem_add, h.mem]
    constructor
    · rintro (⟨n, hn, -, hj⟩ | hj)
      · exact ⟨n, hn, nofun, hj⟩
      · exact ⟨i, h.adding i rfl, nofun, hj.symm⟩
    · rintro ⟨n, hn, -, hj⟩
      by_cases e : n = i
      · exact .inr (by rw [← hj, e])
      · exact .inl ⟨n, hn, fun e' => e (Option.some.inj e').symm, hj⟩
  adding := nofun
  nodup := nodup_add h.nodup

end Books

namespace Logged

variable {behaviors : ℕ} {l l' : Logged} {a : Action}

/-- **What holds in every reachable state** without tasks. -/
structure Booked (l : Logged) : Prop where
  emplacing : ∀ i, l.state.grower.making = some i → i = l.state.memCount
  ahead : ∀ i max, l.state.grower = .init i max ∨ l.state.grower = .add i max →
    i + 1 = l.state.memCount
  once : Once l.completed l.thrown l.state.booked
  listed : Listed l.state.indices l.completed l.state.adding

/-- The thread tests its loop condition. -/
theorem booked_loop {s : State} {completed thrown : List ℕ} {i max : ℕ} (hi : i = s.memCount)
    (ho : Once completed thrown s.memCount) (hl : Listed s.indices completed none) :
    Booked ⟨s.growTo (State.loop i max), completed, thrown⟩ := by
  rcases State.loop_cases i max with e | e <;> rw [e]
  · refine ⟨fun j h => ?_, fun j m h => ?_, ho, hl⟩
    · cases h
      exact hi
    · rcases h with h | h <;> cases h
  · refine ⟨nofun, fun j m h => ?_, ho, hl⟩
    rcases h with h | h <;> cases h

/-- **Every step keeps the books.** -/
theorem Booked.step (h : l.Booked) (ha : a.grows = true) (hs : l.step behaviors a = some l') :
    l'.Booked := by
  obtain ⟨emplacing, ahead, once, listed⟩ := h
  cases step_spec ha hs with
  | calls hg =>
    rw [State.booked, hg] at once
    rw [State.adding, hg] at listed
    exact booked_loop rfl once listed
  | returns =>
    exact ⟨emplacing, ahead, once, listed⟩
  | drops hg =>
    rw [State.booked, hg] at once
    rw [State.adding, hg] at listed
    refine ⟨nofun, fun j m e => ?_, once, listed⟩
    rcases e with e | e <;> cases e
  | @makes b cell g hg hg' =>
    obtain ⟨hb, hn⟩ := State.booked_of_making hg
    obtain ⟨hb', hn'⟩ := State.booked_of_making
      (s := { l.state with start := b, cell := cell }.growTo g) (hg'.trans_ne hg)
    refine ⟨fun i e => emplacing i (hg'.symm.trans e), fun j m e => ?_, ?_, ?_⟩
    · have e' : g = .init j m ∨ g = .add j m := e
      rcases e' with rfl | rfl <;> exact absurd hg'.symm hg
    · show Once l.completed l.thrown (State.booked _)
      rw [hb']
      rwa [hb] at once
    · show Listed l.state.indices l.completed (State.adding _)
      rw [hn']
      rwa [hn] at listed
  | @emplaces i max _ _ hg =>
    have hi := emplacing i hg
    obtain ⟨hb, hn⟩ := State.booked_of_making (s := l.state) (by rw [hg]; nofun)
    rw [hb] at once
    rw [hn] at listed
    refine ⟨nofun, fun j m e => ?_, ?_, listed⟩
    · rcases e with e | e <;> cases e
      show i + 1 = l.state.memCount + 1
      omega
    · show Once l.completed l.thrown i
      rw [hi]
      exact once
  | @completes i max hg =>
    have hi := ahead i max (.inl hg)
    rw [State.booked, hg] at once
    rw [State.adding, hg] at listed
    refine ⟨nofun, fun j m e => ?_, ?_, listed.complete once.notMem⟩
    · rcases e with e | e <;> cases e
      exact hi
    · show Once (l.completed ++ [i]) l.thrown l.state.memCount
      rw [← hi]
      exact once.complete
  | @throws i max hg =>
    have hi := ahead i max (.inl hg)
    rw [State.booked, hg] at once
    rw [State.adding, hg] at listed
    refine ⟨nofun, fun j m e => ?_, ?_, listed⟩
    · rcases e with e | e <;> cases e
    · show Once l.completed (l.thrown ++ [i]) l.state.memCount
      rw [← hi]
      exact once.throw
  | @adds i max hg =>
    have hi := ahead i max (.inr hg)
    rw [State.booked, hg] at once
    rw [State.adding, hg] at listed
    exact booked_loop hi once listed.add

end Logged

end MutilsTasks.GloballyBackedExecutor
