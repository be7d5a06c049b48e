import MutilsTasks.GloballyBackedExecutor.Cells
import MutilsTasks.Library.Tally
import MutilsTasks.Library.Upto

/-!
# When the executor comes to rest

A task waits only in `pop`, where it has no index, and a task that has one puts it back
whatever the behavior and `onException` throw. So the indices that are free and the tasks that
have one are always as many as `increase_mem` has handed out (`working_add_free`), and when
nothing goes on by itself every index is back in the set (`stuck_iff_tasks_done`). If a task still
waits then, no index has ever been handed out: `set_mem_to` has not been called, or something
in it has thrown at the first cell of each call.
-/

namespace MutilsTasks.GloballyBackedExecutor

open Machine Tokens

/-- The step is a task's, or is made by the thread that grows the memory. -/
def Action.inner : Action → Bool
  | .pop _ _ | .lookup _ _ | .behave _ _ | .handle _ _ | .leave _ | .grow _ => true
  | .launch _ _ | .increaseMem _ | .setMemTo _ => false

/-- The task has an index. -/
def Task.works (t : Task) : Bool := t.index.isSome

namespace State

variable {behaviors : ℕ} {s s' : State} {a : Action} {u n : ℕ}

/-- No index is handed out twice. -/
theorem nodup_handed (h : Reach (step behaviors) Any init s) (hm : s.memCount ≤ 2 ^ 31) :
    s.handed.Nodup := by
  induction h with
  | refl => exact List.nodup_nil
  | @tail s s' a hr _ hs ih =>
    have hm' : s.memCount ≤ 2 ^ 31 := Nat.le_trans (memCount_le hs) hm
    cases step_spec hs with
    | @adds i max hg =>
      obtain ⟨hi, hn⟩ := (inv_of_reach hr hm').adding i max (.inr hg)
      show (s.handed ++ [toInt i]).Nodup
      rw [toInt_of_lt (by omega)]
      exact List.nodup_append.mpr ⟨ih hm', List.nodup_singleton _, fun j hj k hk e =>
        hn (List.mem_singleton.mp hk ▸ e ▸ hj)⟩
    | _ => exact ih hm'

/-- **Every index is free or with a task that works**, so the tasks that work at once are no more
than there are cells, whatever throws. -/
theorem working_add_free (h : Reach (step behaviors) Any init s) (hm : s.memCount ≤ 2 ^ 31)
    (hn : Census s.task Task.works n) :
    n + s.indices.length = s.handed.length ∧ s.handed.length ≤ s.memCount := by
  have inv := inv_of_reach h hm
  have hnodup := nodup_handed h hm
  obtain ⟨F, hF, rfl⟩ := hn
  constructor
  · have hlen := inv.distinct.length_add_card (S := s.handed.toFinset) (H := F)
      (fun i => (inv.handed i).trans List.mem_toFinset.symm) fun u => by
        rw [hF, Task.works, Option.isSome_iff_exists]
        rfl
    rw [List.toFinset_card_of_nodup hnodup] at hlen
    omega
  · have hsub : s.handed ⊆ upto s.memCount := fun i hi => mem_upto.mpr (inv.below i hi)
    have hle := (hnodup.subperm hsub).length_le
    rwa [length_upto] at hle

theorem working_add_free_twoCells : ∃ s, run (step 1) init twoCells = some s ∧
    Census s.task Task.works 1 ∧ 1 + s.indices.length = 2 := by
  obtain ⟨s, hs, h₀, hh⟩ : ∃ s, run (step 1) init twoCells = some s ∧
      s.task 0 = .behaving 1 (some 1) ∧ s.handed = [0, 1] ∧ s.memCount = 2 :=
    ⟨_, rfl, rfl, by decide, rfl⟩
  have ht : s.task = Function.update init.task 0 (.behaving 1 (some 1)) := by
    funext u
    by_cases hu : u = 0
    · rw [hu, h₀, Function.update_self]
    · rw [Function.update_of_ne hu, task_of_run hs fun a ha e => hu ?_]
      have : ∀ a ∈ twoCells, a.task = none ∨ a.task = some 0 := by decide
      rcases this a ha with e' | e' <;> rw [e'] at e <;> cases e
      rfl
  have hc : Census s.task Task.works 1 := ht ▸ (Census.zero fun _ => rfl).enter rfl rfl
  have hr : Reach (step 1) Any init s := .of_run twoCells (fun _ _ _ => trivial) hs
  refine ⟨s, hs, hc, ?_⟩
  have := (working_add_free hr (by rw [hh.2]; decide) hc).1
  rwa [hh.1] at this

/-! ### When nothing happens -/

/-- **Nothing happens by itself.** -/
def Stuck (behaviors : ℕ) (s : State) : Prop := ∀ a, a.inner = true → s.step behaviors a = none

/-- **The executor is at rest.** -/
structure Rests (s : State) : Prop where
  grower : s.grower = .idle
  tasks : ∀ u, s.task u = .unlaunched ∨ (∃ threw, s.task u = .finished threw) ∨
    ∃ command, s.task u = .launched command
  /-- Every index is back. -/
  free : s.indices.Perm s.handed
  /-- A task waits only if there has never been an index. -/
  waiting : ∀ u command, s.task u = .launched command → s.handed = []

theorem Stuck.grower (h : s.Stuck behaviors) : s.grower = .idle := by
  have hg := h (.grow false) rfl
  cases hc : s.grower with
  | idle => rfl
  | _ => simp [State.step, hc] at hg

theorem Stuck.tasks (h : s.Stuck behaviors) (u : ℕ) : s.task u = .unlaunched ∨
    (∃ threw, s.task u = .finished threw) ∨
    ∃ command, s.task u = .launched command ∧ s.indices = [] := by
  cases hc : s.task u with
  | unlaunched => exact .inl rfl
  | finished threw => exact .inr (.inl ⟨threw, rfl⟩)
  | launched command =>
    refine .inr (.inr ⟨command, rfl, List.eq_nil_iff_forall_not_mem.mpr fun i hi => ?_⟩)
    have := h (.pop u i) rfl
    simp [State.step, hc, hi] at this
  | lookup | readFinish | readStart | thrown | readCell | deref =>
    have := h (.lookup u 0) rfl
    simp [State.step, State.lookup, hc] at this
  | behaving i c =>
    have := h (.behave u false) rfl
    simp [State.step, hc] at this
  | handling i =>
    have := h (.handle u false) rfl
    simp [State.step, hc] at this
  | leaving i threw =>
    have := h (.leave u) rfl
    simp [State.step, hc] at this

/-- No task has an index. -/
theorem Stuck.hand (h : s.Stuck behaviors) (u : ℕ) : s.hand u = none := by
  unfold State.hand
  rcases h.tasks u with hc | ⟨threw, hc⟩ | ⟨command, hc, -⟩ <;> rw [hc] <;> rfl

theorem Stuck.rests (h : s.Stuck behaviors) (inv : s.Inv) (hnodup : s.handed.Nodup) : s.Rests := by
  have hmem : ∀ i, i ∈ s.indices ↔ i ∈ s.handed := by
    intro i
    rw [← inv.handed]
    exact (or_iff_left fun ⟨u, hu⟩ => by rw [h.hand u] at hu; cases hu).symm
  refine ⟨h.grower, fun u => ?_, (List.perm_ext_iff_of_nodup inv.distinct.nodup hnodup).mpr hmem,
    fun u command hu => ?_⟩
  · exact (h.tasks u).imp_right fun ht => ht.imp_right fun ⟨command, hc, _⟩ => ⟨command, hc⟩
  · rcases h.tasks u with hc | ⟨threw, hc⟩ | ⟨-, -, he⟩
    · rw [hu] at hc
      cases hc
    · rw [hu] at hc
      cases hc
    · apply List.eq_nil_iff_forall_not_mem.mpr
      intro i hi
      rw [← hmem, he] at hi
      cases hi

theorem Rests.stuck (h : s.Rests) : s.Stuck behaviors := by
  intro a ha
  cases a with
  | pop u i =>
    rcases h.tasks u with hc | ⟨threw, hc⟩ | ⟨command, hc⟩
    · simp [State.step, hc]
    · simp [State.step, hc]
    · have he : s.indices = [] := (h.waiting u command hc ▸ h.free).eq_nil
      simp [State.step, hc, he]
  | lookup u | behave u | handle u | leave u =>
    rcases h.tasks u with hc | ⟨threw, hc⟩ | ⟨command, hc⟩ <;> simp [State.step, State.lookup, hc]
  | grow throws => simp [State.step, h.grower]
  | _ => cases ha

/-- **The executor is stuck exactly when it is at rest**: every task that has been launched is
done, and every index is back, or no index has ever been handed out. -/
theorem stuck_iff_tasks_done (h : Reach (step behaviors) Any init s) (hm : s.memCount ≤ 2 ^ 31) :
    s.Stuck behaviors ↔ s.Rests :=
  ⟨fun hs => hs.rests (inv_of_reach h hm) (nodup_handed h hm), Rests.stuck⟩

theorem stuck_iff_tasks_done_twoCells : ∃ s, run (step 1) init twoCells = some s ∧
    ¬ s.Rests := by
  obtain ⟨s, hs, ht, hm⟩ : ∃ s, run (step 1) init twoCells = some s ∧ s.task 0 = .behaving 1 (some 1) ∧
      s.memCount = 2 := ⟨_, rfl, rfl, rfl⟩
  have hr : Reach (step 1) Any init s := .of_run twoCells (fun _ _ _ => trivial) hs
  refine ⟨s, hs, fun hR => ?_⟩
  have := (stuck_iff_tasks_done hr (by rw [hm]; decide)).mpr hR (.behave 0 false) rfl
  simp [step, ht] at this

/-! ### Every task gets to its end -/

end State

/-- How many steps are left to a task. -/
def Task.weight : Task → ℕ
  | .unlaunched | .finished _ => 0
  | .launched _ => 9
  | .lookup _ _ => 8
  | .readFinish _ => 7
  | .readStart _ _ _ => 6
  | .readCell _ => 5
  | .deref _ _ => 4
  | .behaving _ _ | .thrown _ => 3
  | .handling _ => 2
  | .leaving _ _ => 1

namespace State

variable {behaviors : ℕ} {s s' : State} {a : Action} {u n : ℕ} {t : Task}

/-- Task `u` goes on to `t`, which leaves it less to do. -/
structure Advances (s s' : State) (u : ℕ) (t : Task) : Prop where
  task : s'.task = Function.update s.task u t
  less : t.weight < (s.task u).weight
  launched : t ≠ .unlaunched
  grower : s'.grower = s.grower
  memCount : s'.memCount = s.memCount
  handed : s'.handed = s.handed

/-- A task goes on to look up its behavior and its cell. -/
theorem lookup_cases {d : ℕ} (h : s.lookup behaviors u d = some s') :
    ∃ t, s' = s.goto u t ∧ t.weight < (s.task u).weight ∧ t ≠ .unlaunched := by
  unfold State.lookup at h
  split at h
  case h_1 hc =>
    cases h
    refine ⟨_, rfl, ?_, ?_⟩ <;> split <;> simp [hc, Task.weight]
  case h_3 b n hc =>
    cases h
    generalize (if b = s.start then n else d) = m
    refine ⟨_, rfl, ?_, ?_⟩ <;> split <;> simp [hc, Task.weight]
  case h_7 => cases h
  all_goals
    rename_i hc
    cases h
    exact ⟨_, rfl, by simp [hc, Task.weight], by simp⟩

/-- Where the memory does not grow, a task goes on. -/
theorem advances_of_step (hg : s.grower = .idle) (ha : a.inner = true)
    (hs : s.step behaviors a = some s') : ∃ u t, s.Advances s' u t := by
  cases a with
  | pop u i =>
    simp only [State.step] at hs
    split at hs
    · rename_i hc
      simp only [Option.ite_none_right_eq_some, Option.some.injEq] at hs
      obtain ⟨-, rfl⟩ := hs
      exact ⟨u, _, rfl, by simp [hc, Task.weight], by simp, rfl, rfl, rfl⟩
    · cases hs
  | lookup u d =>
    obtain ⟨t, rfl, hw, ht⟩ := lookup_cases hs
    exact ⟨u, t, rfl, hw, ht, rfl, rfl, rfl⟩
  | behave u throws =>
    simp only [State.step] at hs
    split at hs
    · rename_i hc
      cases throws <;> cases hs <;>
        exact ⟨u, _, rfl, by simp [hc, Task.weight], by simp, rfl, rfl, rfl⟩
    · cases hs
  | handle u throws | leave u =>
    simp only [State.step] at hs
    split at hs
    · rename_i hc
      cases hs
      exact ⟨u, _, rfl, by simp [hc, Task.weight], by simp, rfl, rfl, rfl⟩
    · cases hs
  | grow throws => simp [State.step, hg] at hs
  | _ => cases ha

/-- No call of `increase_mem` is in progress, and what is left to the tasks comes to `n`. -/
def Weighs (s : State) (n : ℕ) : Prop := s.grower = .idle ∧ Tally s.task Task.weight n

/-- **Every step of a task leaves it less to do.** -/
theorem Weighs.step (h : s.Weighs n) (ha : a.inner = true) (hs : s.step behaviors a = some s') :
    ∃ m, m < n ∧ s'.Weighs m := by
  obtain ⟨u, t, hA⟩ := advances_of_step h.1 ha hs
  have hle := h.2.le u
  have hlt := hA.less
  exact ⟨_, by omega, hA.grower.trans h.1, hA.task ▸ h.2.move u t⟩

theorem weighs_of_reach (h : Reach (step behaviors) Any init s) (hg : s.grower = .idle) :
    ∃ n, s.Weighs n := by
  have key : ∃ n, Tally s.task Task.weight n := by
    refine h.invariant (I := fun s => ∃ n, Tally s.task Task.weight n) ⟨0, .zero fun _ => rfl⟩ ?_
    rintro s a s' - ⟨n, hn⟩ - hs
    cases step_spec hs with
    | turns | pops | leaves => exact ⟨_, hn.move _ _⟩
    | _ => exact ⟨n, hn⟩
  exact key.imp fun n hn => ⟨hg, hn⟩

/-- What the steps of the tasks do not change, and what a task keeps. -/
structure Goes (s s' : State) : Prop where
  grower : s'.grower = .idle
  memCount : s'.memCount = s.memCount
  handed : s'.handed = s.handed
  launched : ∀ u, s.task u ≠ .unlaunched → s'.task u ≠ .unlaunched

theorem goes_of_run {as : List Action} (hg : s.grower = .idle) (has : ∀ a ∈ as, a.inner = true)
    (hr : run (step behaviors) s as = some s') : s.Goes s' := by
  refine run_invariant (I := s.Goes) ⟨hg, rfl, rfl, fun _ h => h⟩ (fun t a ha t' hG hs => ?_) hr
  obtain ⟨v, x, hA⟩ := advances_of_step hG.grower (has a ha) hs
  refine ⟨hA.grower.trans hG.grower, hA.memCount.trans hG.memCount, hA.handed.trans hG.handed,
    fun u hu => ?_⟩
  rw [hA.task]
  by_cases e : u = v
  · rw [e, Function.update_self]
    exact hA.launched
  · rw [Function.update_of_ne e]
    exact hG.launched u hu

/-- **Every task that has been launched gets to its end** when an index has been handed out and no
call of `increase_mem` is in progress: only so many steps happen until another call or launch,
and once nothing happens any more the task is done, whatever throws. -/
theorem tasks_finish (h : Reach (step behaviors) Any init s) (hm : s.memCount ≤ 2 ^ 31)
    (hg : s.grower = .idle) (hne : s.handed ≠ []) : ∃ n, s.Weighs n ∧
    ∀ as s', (∀ a ∈ as, a.inner = true) → run (step behaviors) s as = some s' → as.length ≤ n ∧
      (s'.Stuck behaviors → ∀ u, s.task u ≠ .unlaunched → ∃ threw, s'.task u = .finished threw) := by
  obtain ⟨n, hn⟩ := weighs_of_reach h hg
  refine ⟨n, hn, fun as s' has hr => ⟨?_, fun hstuck u hu => ?_⟩⟩
  · exact length_le_of_run (fun _ _ _ _ ha hW hs => hW.step ha hs) has hn hr
  · have hG := goes_of_run hg has hr
    have hm' : s'.memCount ≤ 2 ^ 31 := hG.memCount ▸ hm
    have hreach : Reach (step behaviors) Any init s' := h.trans (.of_run as (fun _ _ _ => trivial) hr)
    have hrests := hstuck.rests (inv_of_reach hreach hm') (nodup_handed hreach hm')
    rcases hrests.tasks u with hc | hc | ⟨command, hc⟩
    · exact absurd hc (hG.launched u hu)
    · exact hc
    · exact absurd (hG.handed.symm.trans (hrests.waiting u command hc)) hne

/-- The task works on its cell, and its behavior throws. -/
theorem tasks_finish_twoCells : ∃ s s', run (step 1) init twoCells = some s ∧
    run (step 1) s [.behave 0 true, .handle 0 true, .leave 0] = some s' ∧
    s'.task 0 = .finished true ∧ ∃ n, 3 ≤ n ∧ s.Weighs n := by
  obtain ⟨s, s', hs, hr, ht, hg, hh, hm⟩ : ∃ s s', run (step 1) init twoCells = some s ∧
      run (step 1) s [.behave 0 true, .handle 0 true, .leave 0] = some s' ∧
      s'.task 0 = .finished true ∧ s.grower = .idle ∧ s.handed.length = 2 ∧ s.memCount = 2 :=
    ⟨_, _, rfl, rfl, rfl, rfl, rfl, rfl⟩
  have hne : s.handed ≠ [] := List.ne_nil_of_length_pos (by omega)
  obtain ⟨n, hn, hb⟩ := tasks_finish (.of_run twoCells (fun _ _ _ => trivial) hs)
    (by rw [hm]; decide) hg hne
  exact ⟨s, s', hs, hr, ht, n, (hb _ s' (by decide) hr).1, hn⟩

end State

end MutilsTasks.GloballyBackedExecutor
