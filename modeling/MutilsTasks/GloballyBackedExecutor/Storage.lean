import MutilsTasks.GloballyBackedExecutor.Cells

/-!
# When the cells of the executor are not shared

No two tasks have one index, but a task finds its cell through `remember_these`, which another
thread may be changing. When `emplace_back` has to make a larger storage it moves the cells, frees
the old storage and then sets the pointers. A task that has read one of the pointers before works on
what is left in the old storage, and one that reads the two pointers between the stores tests its
index against a difference that means nothing.

As long as no task is between its first read and its last while a new storage is made (`Apart`), each
task works on the cell of its index (`Stored`), and no cell is shared.
-/

namespace MutilsTasks.GloballyBackedExecutor

open Machine

/-- The task has read a pointer, and has not dereferenced its cell. -/
def Task.reads : Task → Bool
  | .readStart _ _ _ | .readCell _ | .deref _ _ => true
  | _ => false

/-- A new storage is being made. -/
def Grower.reallocates : Grower → Bool
  | .move _ _ _ | .setStart _ _ | .setFinish _ _ => true
  | _ => false

namespace State

variable {behaviors : ℕ} {s s' : State} {a : Action} {u : ℕ} {t : Task} {g : Grower}

/-- **No cell is shared.** -/
structure Unshared (s : State) : Prop where
  /-- An index that has been handed out is in the set or with a task. -/
  handed : ∀ i, i ∈ s.handed ↔ i ∈ s.indices ∨ ∃ u, s.hand u = some i
  /-- It is not in both. -/
  apart : ∀ u i, s.hand u = some i → i ∉ s.indices
  /-- One task has it. -/
  one : ∀ u v i, s.hand u = some i → s.hand v = some i → u = v
  /-- It is below `mem_count()`. -/
  below : ∀ i ∈ s.handed, 0 ≤ i ∧ i < s.memCount
  /-- No two behaviors work on one cell. -/
  cells : ∀ u v i j c, s.task u = .behaving i (some c) → s.task v = .behaving j (some c) → u = v
  /-- A behavior works on the cell of its index. -/
  own : ∀ u i c, s.task u = .behaving i c → c = some (toSize i)
  /-- `at` does not throw. -/
  found : ∀ u i, s.task u ≠ .thrown i
  /-- A task that is done has put its index back. -/
  finished : ∀ u threw, s.task u = .finished threw → s.hand u = none

/-- **No new storage is made while a task looks up its cell**: none is begun when a task has read a
pointer, and no task begins when one is being made. -/
def Apart (s : State) (a : Action) : Prop :=
  (a = .grow false → ¬ s.memCount < s.capacity → (∃ i max, s.grower = .emplace i max) →
    ∀ u, (s.task u).reads = false) ∧
  ∀ u d i, a = .lookup u d → s.task u = .readFinish i → s.grower.reallocates = false

/-! ### Where the cells are -/

/-- **The cells, while `remember_these` grows.** -/
def Cells (s : State) : Prop :=
  match s.grower with
  | .move _ _ k => (∀ j < k, s.cell (s.start + 1) j = .mem j) ∧
      (∀ j, k ≤ j → j < s.memCount → s.cell s.start j = .mem j) ∧
      s.cell (s.start + 1) s.memCount = .mem s.memCount ∧ k ≤ s.memCount
  | .setStart _ _ => ∀ j ≤ s.memCount, s.cell (s.start + 1) j = .mem j
  | .raise _ _ | .setFinish _ _ => ∀ j ≤ s.memCount, s.cell s.start j = .mem j
  | _ => ∀ j < s.memCount, s.cell s.start j = .mem j

/-- What a task has read of `remember_these` is right. -/
def Right (s : State) : Task → Prop
  | .readStart i b n => b = s.start ∧ toSize i < n
  | .deref _ b => b = s.start
  | .behaving i c => c = some (toSize i)
  | .thrown _ => False
  | _ => True

/-- **What holds in every state of a run** that keeps the storages and the tasks apart. -/
structure Stored (s : State) : Prop where
  cells : s.Cells
  same : s.grower.reallocates = false → s.finishAt = s.start
  reading : s.grower.reallocates = true → ∀ u, (s.task u).reads = false
  right : ∀ u, s.Right (s.task u)

theorem init_stored : init.Stored := by
  refine ⟨fun j hj => absurd hj (Nat.not_lt_zero j), fun _ => rfl, nofun, fun u => ?_⟩
  trivial

namespace Stored

/-- A task moves on. -/
theorem goto (h : s.Stored) {l : List ℤ} (ht : t.reads = true → s.grower.reallocates = false)
    (hr : s.Right t) : ({ s with indices := l }.goto u t).Stored := by
  refine ⟨h.cells, h.same, fun hg v => ?_, fun v => ?_⟩
  · show ((Function.update s.task u t) v).reads = false
    by_cases e : v = u
    · rw [e, Function.update_self, ← Bool.not_eq_true]
      intro hreads
      exact absurd ((ht hreads).symm.trans hg) Bool.false_ne_true
    · rw [Function.update_of_ne e]
      exact h.reading hg v
  · show s.Right ((Function.update s.task u t) v)
    by_cases e : v = u
    · rw [e, Function.update_self]
      exact hr
    · rw [Function.update_of_ne e]
      exact h.right v

/-- A task moves on that will not dereference. -/
theorem goto_unread (h : s.Stored) {l : List ℤ} (ht : t.reads = false) (hr : s.Right t) :
    ({ s with indices := l }.goto u t).Stored :=
  h.goto (fun e => absurd (ht.symm.trans e) Bool.false_ne_true) hr

/-- What a task has read stays right where `_M_start` stays. -/
theorem right_of_start {t : Task} (h : s.Right t) (hs : s'.start = s.start) : s'.Right t := by
  cases t <;> first | exact h | (unfold Right at h ⊢; rwa [hs])

/-- What a task that is not reading has read is right in any case. -/
theorem right_of_not_reads {t : Task} (h : s.Right t) (ht : t.reads = false) : s'.Right t := by
  cases t <;> first | exact h | cases ht

/-- A new storage is being made: nobody reads. -/
theorem reallocate {n b f c : ℕ} {cell : ℕ → ℕ → Slot} (h : s.Stored)
    (hno : ∀ u, (s.task u).reads = false)
    (hcells : Cells ⟨n, b, f, c, cell, s.indices, s.handed, s.task, g⟩)
    (hsame : g.reallocates = false → f = b) :
    Stored ⟨n, b, f, c, cell, s.indices, s.handed, s.task, g⟩ :=
  ⟨hcells, hsame, fun _ => hno, fun u => right_of_not_reads (h.right u) (hno u)⟩

/-- The growing thread goes on in the same storage. -/
theorem growTo (h : s.Stored) {n c : ℕ} {cell : ℕ → ℕ → Slot} {l m : List ℤ}
    (hg : s.grower.reallocates = false) (hg' : g.reallocates = false)
    (hcells : Cells ⟨n, s.start, s.finishAt, c, cell, l, m, s.task, g⟩) :
    Stored ⟨n, s.start, s.finishAt, c, cell, l, m, s.task, g⟩ := by
  refine ⟨hcells, fun _ => h.same hg, fun e => ?_, fun u => right_of_start (h.right u) rfl⟩
  rw [hg'] at e
  cases e

/-- The cell of an index is in the storage that `_M_start` points to, unless a new one is being
made. -/
theorem cell_eq (h : s.Stored) (hg : s.grower.reallocates = false) {j : ℕ} (hj : j < s.memCount) :
    s.cell s.start j = .mem j := by
  have hc := h.cells
  unfold Cells at hc
  cases hgr : s.grower with
  | move | setStart | setFinish =>
    rw [hgr] at hg
    cases hg
  | raise i max =>
    rw [hgr] at hc
    exact hc j hj.le
  | idle | emplace | init | add =>
    rw [hgr] at hc
    exact hc j hj

/-- It tests its loop condition. -/
theorem loops (h : s.Stored) {l m : List ℤ} {i max : ℕ} (hg : s.grower.reallocates = false) :
    Stored ⟨s.memCount, s.start, s.finishAt, s.capacity, s.cell, l, m, s.task, loop i max⟩ := by
  have hcell : ∀ j < s.memCount, s.cell s.start j = .mem j := fun j hj => h.cell_eq hg hj
  rcases loop_cases i max with e | e <;> rw [e] <;> exact h.growTo hg rfl hcell

/-- Where the indices are, a task's is below the number of the cells. -/
theorem size_lt (inv : s.Inv) (hm : s.memCount ≤ 2 ^ 31) {i : ℤ} (hu : s.hand u = some i) :
    toSize i = i.toNat ∧ 0 ≤ i ∧ toSize i < s.memCount := by
  obtain ⟨h₀, hlt⟩ := inv.below i ((inv.handed i).mp (.of_hand hu))
  have := toSize_of_lt h₀ hlt hm
  exact ⟨this, h₀, by omega⟩

theorem lookup (h : s.Stored) (inv : s.Inv) (hm : s.memCount ≤ 2 ^ 31) {d : ℕ}
    (ha : s.Apart (.lookup u d)) (hs : s.lookup behaviors u d = some s') : s'.Stored := by
  unfold State.lookup at hs
  -- while a task reads no new storage is made
  have hreads : (s.task u).reads = true → s.grower.reallocates = false := by
    intro hr
    rw [← Bool.not_eq_true]
    intro hg
    rw [h.reading hg u] at hr
    cases hr
  split at hs
  case h_1 hc =>
    cases hs
    split
    · exact h.goto_unread rfl trivial
    · exact h.goto_unread rfl trivial
  case h_2 i hc =>
    cases hs
    have hg := ha.2 u d i rfl hc
    refine h.goto (fun _ => hg) ⟨h.same hg, ?_⟩
    exact (size_lt (u := u) inv hm (by rw [hand, hc]; rfl)).2.2
  case h_3 i b n hc =>
    cases hs
    obtain ⟨hb, hlt⟩ : b = s.start ∧ toSize i < n := by
      have := h.right u
      rwa [hc] at this
    rw [if_pos hb, if_pos hlt]
    exact h.goto (fun _ => hreads (by rw [hc]; rfl)) trivial
  case h_4 i hc =>
    have := h.right u
    rw [hc] at this
    exact this.elim
  case h_5 i hc =>
    cases hs
    exact h.goto (fun _ => hreads (by rw [hc]; rfl)) rfl
  case h_6 i b hc =>
    cases hs
    have hb : b = s.start := by
      have := h.right u
      rwa [hc] at this
    refine h.goto_unread rfl ?_
    have hlt := (size_lt (u := u) inv hm (by rw [hand, hc]; rfl)).2.2
    have hcell := h.cell_eq (hreads (by rw [hc]; rfl)) hlt
    show (s.cell b (toSize i)).get = some (toSize i)
    rw [hb, hcell]
    rfl
  case h_7 => cases hs

/-- A cell is written behind the last one, or to a new storage. -/
theorem emplace (h : s.Stored) (inv : s.Inv) {i max : ℕ} (hg : s.grower = .emplace i max)
    (ha : s.Apart (.grow false)) : (s.emplace i max).Stored := by
  have hi : i = s.memCount := inv.emplacing i (by rw [hg]; rfl)
  have hre : s.grower.reallocates = false := by rw [hg]; rfl
  have hcell : ∀ j < s.memCount, s.cell s.start j = .mem j := fun j hj => h.cell_eq hre hj
  unfold State.emplace
  split
  · refine h.growTo (c := s.capacity) (l := s.indices) (m := s.handed) hre rfl fun j hj => ?_
    show Function.update s.cell s.start _ s.start j = .mem j
    rw [Function.update_self]
    by_cases e : j = s.memCount
    · rw [e, Function.update_self, hi]
    · rw [Function.update_of_ne e]
      exact hcell j (Nat.lt_of_le_of_ne hj e)
  · rename_i hfull
    refine h.reallocate (ha.1 rfl hfull ⟨i, max, hg⟩) ⟨nofun, fun j _ hj => ?_, ?_, Nat.zero_le _⟩ nofun
    · show Function.update s.cell (s.start + 1) _ s.start j = .mem j
      rw [Function.update_of_ne (Nat.ne_of_lt (Nat.lt_succ_self _))]
      exact hcell j hj
    · have hnew : Function.update s.cell (s.start + 1)
          (Function.update (s.cell (s.start + 1)) s.memCount (.mem i)) (s.start + 1) s.memCount =
          .mem i := by
        rw [Function.update_self, Function.update_self]
      exact hnew.trans (congrArg _ hi)

/-- A cell is moved, or the old storage is freed. -/
theorem move (h : s.Stored) {i max k : ℕ} (hg : s.grower = .move i max k) :
    (s.move i max k).Stored := by
  have hno := h.reading (by rw [hg]; rfl)
  obtain ⟨hnew, hold, hlast, hk⟩ : (∀ j < k, s.cell (s.start + 1) j = .mem j) ∧
      (∀ j, k ≤ j → j < s.memCount → s.cell s.start j = .mem j) ∧
      s.cell (s.start + 1) s.memCount = .mem s.memCount ∧ k ≤ s.memCount := by
    have hc := h.cells
    rw [Cells, hg] at hc
    exact hc
  have hne : s.start ≠ s.start + 1 := Nat.ne_of_lt (Nat.lt_succ_self _)
  unfold State.move
  split
  · rename_i hlt
    -- the two storages after the move
    have hcell : ∀ b j, Function.update (Function.update s.cell (s.start + 1)
        (Function.update (s.cell (s.start + 1)) k (s.cell s.start k))) s.start
        (Function.update (Function.update s.cell (s.start + 1)
          (Function.update (s.cell (s.start + 1)) k (s.cell s.start k)) s.start) k .null) b j =
        if b = s.start then (if j = k then .null else s.cell s.start j)
        else if b = s.start + 1 ∧ j = k then s.cell s.start k else s.cell b j := by
      intro b j
      by_cases hb : b = s.start
      · subst hb
        rw [Function.update_self, if_pos rfl, Function.update_of_ne hne]
        exact Function.update_apply ..
      · rw [Function.update_of_ne hb, if_neg hb]
        by_cases hb' : b = s.start + 1
        · subst hb'
          rw [Function.update_self, Function.update_apply]
          simp
        · rw [Function.update_of_ne hb', if_neg fun e => hb' e.1]
    refine h.reallocate hno ⟨fun j hj => ?_, fun j hkj hj => ?_, ?_, hlt⟩ nofun
    · refine (hcell (s.start + 1) j).trans ?_
      rw [if_neg hne.symm]
      split
      · rename_i e
        rw [e.2]
        exact hold k le_rfl hlt
      · rename_i e
        exact hnew j (by omega)
    · refine (hcell s.start j).trans ?_
      rw [if_pos rfl, if_neg (by omega)]
      exact hold j (by omega) hj
    · refine (hcell (s.start + 1) s.memCount).trans ?_
      rw [if_neg hne.symm, if_neg (by omega)]
      exact hlast
  · rename_i hlt
    refine h.reallocate hno (fun j hj => ?_) nofun
    show Function.update s.cell s.start _ (s.start + 1) j = .mem j
    rw [Function.update_of_ne hne.symm]
    have hle : j ≤ s.memCount := hj
    by_cases e : j = s.memCount
    · rw [e]
      exact hlast
    · exact hnew j (by omega)

theorem grow (h : s.Stored) (inv : s.Inv) {throws : Bool} (ha : s.Apart (.grow throws))
    (hs : s.step behaviors (.grow throws) = some s') : s'.Stored := by
  cases throws with
  | true =>
    cases hg : s.grower with
    | emplace i max | init i max =>
      simp only [State.step, hg, Option.some.injEq] at hs
      subst hs
      exact h.growTo (by rw [hg]; rfl) rfl fun j hj => h.cell_eq (by rw [hg]; rfl) hj
    | _ => simp [State.step, hg] at hs
  | false =>
    cases hg : s.grower with
    | idle => simp [State.step, hg] at hs
    | emplace i max =>
      simp only [State.step, hg, Option.some.injEq] at hs
      exact hs ▸ h.emplace inv hg ha
    | raise i max =>
      simp only [State.step, hg, Option.some.injEq] at hs
      subst hs
      have hc := h.cells
      rw [Cells, hg] at hc
      exact h.growTo (by rw [hg]; rfl) rfl fun j hj => hc j (Nat.le_of_lt_succ hj)
    | move i max k =>
      simp only [State.step, hg, Option.some.injEq] at hs
      exact hs ▸ h.move hg
    | setStart i max =>
      simp only [State.step, hg, Option.some.injEq] at hs
      subst hs
      have hc := h.cells
      rw [Cells, hg] at hc
      exact h.reallocate (h.reading (by rw [hg]; rfl)) hc fun e => by cases e
    | setFinish i max =>
      simp only [State.step, hg, Option.some.injEq] at hs
      subst hs
      have hc := h.cells
      rw [Cells, hg] at hc
      exact h.reallocate (h.reading (by rw [hg]; rfl)) (fun j hj => hc j (Nat.le_of_lt_succ hj))
        fun _ => rfl
    | init i max =>
      simp only [State.step, hg, Option.some.injEq] at hs
      subst hs
      exact h.growTo (by rw [hg]; rfl) rfl fun j hj => h.cell_eq (by rw [hg]; rfl) hj
    | add i max =>
      simp only [State.step, hg, Option.some.injEq] at hs
      subst hs
      exact h.loops (by rw [hg]; rfl)

/-- **Every step keeps it**, if no new storage is made while a task looks up its cell. -/
theorem step (h : s.Stored) (inv : s.Inv) (hm : s.memCount ≤ 2 ^ 31) (ha : s.Apart a)
    (hs : s.step behaviors a = some s') : s'.Stored := by
  cases a with
  | launch u command =>
    simp only [State.step, Option.ite_none_right_eq_some, Option.some.injEq] at hs
    obtain ⟨-, rfl⟩ := hs
    exact h.goto_unread rfl trivial
  | pop u i =>
    simp only [State.step] at hs
    split at hs
    · simp only [Option.ite_none_right_eq_some, Option.some.injEq] at hs
      obtain ⟨-, rfl⟩ := hs
      exact h.goto_unread rfl trivial
    · cases hs
  | lookup u d => exact h.lookup inv hm ha hs
  | behave u throws =>
    simp only [State.step] at hs
    split at hs <;> cases hs
    cases throws <;> exact h.goto_unread rfl trivial
  | handle u throws | leave u =>
    simp only [State.step] at hs
    split at hs <;> cases hs
    exact h.goto_unread rfl trivial
  | increaseMem howmuch =>
    simp only [State.step, Option.ite_none_right_eq_some, Option.some.injEq] at hs
    obtain ⟨hg, rfl⟩ := hs
    exact h.loops (by rw [hg]; rfl)
  | setMemTo value =>
    simp only [State.step, Option.ite_none_right_eq_some, Option.some.injEq] at hs
    obtain ⟨hg, rfl⟩ := hs
    unfold State.setMemTo
    split
    · exact h.loops (by rw [hg]; rfl)
    · exact h
  | grow throws => exact h.grow inv ha hs

end Stored

/-- What the runs keep that have at most `2 ^ 31` cells. -/
theorem stored_of_reach (h : Reach (step behaviors) Apart init s) (hm : s.memCount ≤ 2 ^ 31) :
    s.Stored := by
  induction h with
  | refl => exact init_stored
  | tail hr ha hs ih =>
    have hm' := Nat.le_trans (memCount_le hs) hm
    exact (ih hm').step (inv_of_reach hr hm') hm' ha hs

/-- **No cell is shared, in a run in which no new storage is made while a task looks up its cell**
and there are at most `2 ^ 31` cells, whatever the behaviors, `onException` and `init` do. -/
theorem unshared (h : Reach (step behaviors) Apart init s) (hm : s.memCount ≤ 2 ^ 31) :
    s.Unshared := by
  have inv := inv_of_reach h hm
  have hs := stored_of_reach h hm
  have own : ∀ u i c, s.task u = .behaving i c → c = some (toSize i) := by
    intro u i c hu
    have := hs.right u
    rwa [hu] at this
  refine ⟨fun i => (inv.handed i).symm, inv.distinct.apart, inv.distinct.one, inv.below, ?_, own,
    ?_, ?_⟩
  · intro u v i j c hu hv
    have hu' : s.hand u = some i := by rw [hand, hu]; rfl
    have hv' : s.hand v = some j := by rw [hand, hv]; rfl
    obtain ⟨hi, hi₀, -⟩ := Stored.size_lt inv hm hu'
    obtain ⟨hj, hj₀, -⟩ := Stored.size_lt inv hm hv'
    have he : toSize i = toSize j :=
      Option.some.inj ((own u i _ hu).symm.trans (own v j _ hv))
    have : i = j := by omega
    exact inv.distinct.one u v i hu' (this ▸ hv')
  · intro u i hu
    have := hs.right u
    rw [hu] at this
    exact this
  · intro u threw hu
    rw [hand, hu]
    rfl

/-- `Apart`, computed from task `0`. -/
def aside (s : State) (a : Action) : Bool :=
  (a.task == none || a.task == some 0) &&
  (a != .grow false || decide (s.memCount < s.capacity) || !(s.task 0).reads ||
    match s.grower with
      | .emplace _ _ => false
      | _ => true) &&
  match a, s.task 0 with
    | .lookup _ _, .readFinish _ => !s.grower.reallocates
    | _, _ => true

theorem reach_of_aside (h : Reach (step behaviors) (fun s a => s.aside a = true) init s) :
    Reach (step behaviors) Apart init s ∧ ∀ v, v ≠ 0 → s.task v = .unlaunched := by
  induction h with
  | refl => exact ⟨.refl, fun _ _ => rfl⟩
  | @tail s s' a _ ha hs ih =>
    obtain ⟨hr, hother⟩ := ih
    simp only [aside, Bool.and_eq_true] at ha
    obtain ⟨⟨h₀, h₁⟩, h₂⟩ := ha
    refine ⟨hr.tail ⟨?_, ?_⟩ hs, fun v hv => ?_⟩
    · rintro rfl hfull ⟨i, max, hg⟩ u
      by_cases e : u = 0
      · simpa [hfull, hg, e] using h₁
      · rw [hother u e]
        rfl
    · rintro u d i rfl hu
      by_cases e : u = 0
      · rw [e] at hu
        simpa [hu] using h₂
      · rw [hother u e] at hu
        cases hu
    · rw [task_of_ne hs, hother v hv]
      intro e
      simp only [e, Bool.or_eq_true, beq_iff_eq] at h₀
      rcases h₀ with h₀ | h₀ <;> cases h₀
      exact hv rfl

/-- Three cells are made, and a fourth one while a task looks up its cell. There is room for it. -/
def inPlace : List Action :=
  .setMemTo 3 :: List.replicate 21 (.grow false) ++
    [.launch 0 0, .pop 0 1, .lookup 0 0, .lookup 0 0, .increaseMem 1, .grow false, .lookup 0 0,
      .grow false, .lookup 0 0, .grow false, .lookup 0 0]

theorem unshared_inPlace : ∃ s, run (step 1) init inPlace = some s ∧ s.memCount = 4 ∧
    s.task 0 = .behaving 1 (some 1) ∧ s.Unshared := by
  obtain ⟨s, hg, hs, hm, ht⟩ : ∃ s,
      run (fun s a => if s.aside a = true then step 1 s a else none) init inPlace = some s ∧
      run (step 1) init inPlace = some s ∧ s.memCount = 4 ∧ s.task 0 = .behaving 1 (some 1) :=
    ⟨_, rfl, rfl, rfl, rfl⟩
  exact ⟨s, hs, hm, ht, unshared (reach_of_aside (.of_guarded inPlace hg)).1 (by rw [hm]; decide)⟩

/-- A task has found its cell. Before it dereferences it, a second cell is made, and the first one is
moved. -/
def movedAway : List Action :=
  .setMemTo 1 :: List.replicate 6 (.grow false) ++
    [.launch 0 0, .pop 0 0, .lookup 0 0, .lookup 0 0, .lookup 0 0, .lookup 0 0, .increaseMem 1,
      .grow false, .grow false, .lookup 0 0]

/-- **A behavior works on a null pointer.** -/
theorem cell_moved_away : ¬ ∀ (behaviors : ℕ) (s : State), Reach (step behaviors) Any init s →
    s.memCount ≤ 2 ^ 31 → s.Unshared := by
  intro h
  obtain ⟨s, hs, ht⟩ : ∃ s, run (step 1) init movedAway = some s ∧
      (s.memCount, s.task 0) = (1, .behaving 0 none) := Option.map_eq_some_iff.mp (by decide +kernel)
  obtain ⟨hm, ht⟩ := Prod.mk.inj ht
  have hu := h 1 s (.of_run movedAway (fun _ _ _ => trivial) hs) (by rw [hm]; decide)
  cases hu.own 0 0 none ht

end State

end MutilsTasks.GloballyBackedExecutor
