import MutilsTasks.Library.Tokens
import MutilsTasks.ThreadPool.Rest

/-!
# The tasks of the pool

A task that has been enqueued is in one place: in the queue, with one thread, run, taken by
a user or deleted by `stop`. So it is run at most once, and a `packaged_task` is never called
again (`one_place`).
-/

namespace MutilsTasks.ThreadPool

open Machine Tokens

/-- The task that the thread has taken and not finished. -/
def Worker.task : Worker → Option ℕ
  | .call t | .running t => some t
  | .leave f | .unlock f => f
  | _ => none

/-- Where a task can be. -/
inductive Place where
  /-- In the queue. -/
  | queued
  /-- With a thread. -/
  | held (w : ℕ)
  /-- It has been run. -/
  | ran
  /-- A user has taken it with `pop` or `clear_queue`. -/
  | removed
  /-- `stop` has deleted it. -/
  | deleted
  deriving DecidableEq

namespace State

variable {s s' : State} {a : Action} {t w : ℕ}

/-- Task `t` is in this place. -/
def At (s : State) (t : ℕ) : Place → Prop
  | .queued => t ∈ s.q
  | .held w => (s.worker w).task = some t
  | .ran => t ∈ s.ran
  | .removed => t ∈ s.removed
  | .deleted => t ∈ s.deleted

/-- The tasks that no thread has. -/
def store (s : State) : List ℕ := s.q ++ (s.ran ++ (s.removed ++ s.deleted))

/-- The tasks that the threads have. -/
def hand (s : State) (w : ℕ) : Option ℕ := (s.worker w).task

/-- **No task is in two places, and none is lost.** -/
structure Kept (s : State) : Prop where
  distinct : Distinct s.store s.hand
  all : ∀ t, Somewhere s.store s.hand t ↔ t < s.pushed

theorem init_kept : init.Kept where
  distinct := ⟨List.nodup_nil, nofun, nofun⟩
  all t := by simp [Somewhere, init, store, hand, Worker.task]

theorem Kept.of_perm {l : List ℕ} {f : ℕ → Option ℕ} {n : ℕ} (d : Distinct l f)
    (hall : ∀ t, Somewhere l f t ↔ t < n) (hl : l.Perm s.store) (hf : s.hand = f)
    (hn : s.pushed = n) : s.Kept := by
  refine ⟨hf ▸ d.perm hl, fun t => ?_⟩
  rw [hf, hn, ← hall t]
  exact (somewhere_perm hl).symm

/-- The tasks stay where they are, or change their place in the lists. -/
theorem Kept.perm (h : s.Kept) (hs : s.store.Perm s'.store) (hh : s'.hand = s.hand)
    (hp : s'.pushed = s.pushed) : s'.Kept :=
  .of_perm h.distinct h.all hs hh hp

theorem hand_setWorker (s : State) (w : ℕ) (c : Worker) :
    (s.setWorker w c).hand = Function.update s.hand w c.task := by
  funext v
  by_cases e : v = w
  · simp [hand, e]
  · simp [hand, e]

theorem hand_setWorker_of_eq {c : Worker} (h : c.task = (s.worker w).task) :
    (s.setWorker w c).hand = s.hand := by
  rw [hand_setWorker, h]
  exact Function.update_eq_self w s.hand

theorem Turn.task {c d : Worker} (h : Turn a s w c d) : d.task = c.task := by
  cases h <;> rfl

theorem hand_notifyAll (s : State) : s.notifyAll.hand = s.hand := by
  funext v
  by_cases e : s.worker v = .blocked
  · simp [hand, e, Worker.task]
  · simp [hand, e]

/-- A task leaves the queue for another list. -/
theorem store_perm_of_mem (ht : t ∈ s.q) {l m n : List ℕ}
    (h : (t :: (s.ran ++ (s.removed ++ s.deleted))).Perm (l ++ (m ++ n))) :
    s.store.Perm (s.q.erase t ++ (l ++ (m ++ n))) := by
  refine ((List.perm_cons_erase ht).append_right _).trans ?_
  refine List.perm_middle.symm.trans ?_
  exact List.Perm.append_left _ h

theorem Kept.step (h : s.Kept) (hn : s.Numbered) (hs : Moves s a s') : s'.Kept := by
  cases hs with
  | turns ht => exact h.perm .rfl (hand_setWorker_of_eq (Turn.task ht)) rfl
  | @takes _ w t c ht hw =>
    have hw' : s.hand w = none ∧ c.task = some t := by
      rcases hw with ⟨hw, rfl⟩ | ⟨hw, rfl⟩ <;> simp [hand, hw, Worker.task]
    have hst : s.store.erase t = s.q.erase t ++ (s.ran ++ (s.removed ++ s.deleted)) :=
      List.erase_append_left _ ht
    have hmem : t ∈ s.store := List.mem_append_left _ ht
    refine .of_perm (h.distinct.take hw'.1 hmem)
      (fun u => (h.distinct.somewhere_take hw'.1 hmem).trans (h.all u)) (.of_eq hst) ?_ rfl
    rw [hand_setWorker, hw'.2]
    rfl
  | @ends _ w t hw =>
    have hw' : s.hand w = some t := by simp [hand, hw, Worker.task]
    refine .of_perm (h.distinct.put hw')
      (fun u => (h.distinct.somewhere_put hw').trans (h.all u)) ?_ (hand_setWorker ..) rfl
    refine List.perm_iff_count.mpr fun u => ?_
    simp only [store, setWorker_q, setWorker_ran, setWorker_removed, setWorker_deleted,
      List.count_append]
    omega
  | @enqueues _ u hu =>
    have hnew : ¬ Somewhere s.store s.hand s.pushed := by
      rw [h.all]
      exact Nat.lt_irrefl _
    refine .of_perm (n := s.pushed + 1) (h.distinct.add hnew) (fun v => ?_) ?_ rfl rfl
    · refine Distinct.somewhere_add.trans ?_
      rw [h.all v]
      omega
    · refine List.perm_iff_count.mpr fun u => ?_
      simp only [store, setClient_q, setClient_ran, setClient_removed, setClient_deleted,
        List.count_append]
      omega
  | @removes _ t ht =>
    refine h.perm (store_perm_of_mem ht (List.perm_iff_count.mpr fun u => ?_)) rfl rfl
    simp only [List.count_append, List.count_cons, List.count_nil]
    omega
  | @deletes _ t ht =>
    refine h.perm (store_perm_of_mem ht (List.perm_iff_count.mpr fun u => ?_)) rfl rfl
    simp only [List.count_append, List.count_cons, List.count_nil]
    omega
  | locks _ hw =>
    refine h.perm .rfl (hand_setWorker_of_eq ?_) rfl
    rcases hw with ⟨hw, rfl⟩ | ⟨hw, rfl⟩ <;> simp [hw, Worker.task]
  | enters hw | leaves hw =>
    exact h.perm .rfl (hand_setWorker_of_eq (by rw [hw]; rfl)) rfl
  | unlocks hw =>
    refine h.perm .rfl (hand_setWorker_of_eq ?_) rfl
    rcases hw with ⟨hw, rfl⟩ | ⟨t, hw, rfl⟩ | ⟨hw, rfl⟩ <;> simp [hw, Worker.task]
  | notifies _ hw =>
    exact h.perm .rfl (hand_setWorker_of_eq (s := s.setClient _ _) (by simp [hw, Worker.task])) rfl
  | starts =>
    refine h.perm .rfl (funext fun v => ?_) rfl
    by_cases e : v = s.started
    · rw [e]
      simp [hand, (hn s.started).mpr le_rfl, Worker.task]
    · simp [hand, e]
  | notifiesAll => exact h.perm .rfl (hand_notifyAll s) rfl
  | _ => exact h.perm .rfl rfl rfl

theorem kept_of_reach {P : State → Action → Prop} (h : Reach step P init s) : s.Kept :=
  h.invariant init_kept fun _ _ _ hr hK _ hs => hK.step (waiting_of_reach hr).numbered (step_spec hs)

theorem exists_at_iff (s : State) (t : ℕ) : (∃ p, s.At t p) ↔ Somewhere s.store s.hand t := by
  simp only [Somewhere, store, hand, List.mem_append]
  constructor
  · rintro ⟨p, hp⟩
    cases p with
    | queued => exact .inl (.inl hp)
    | held w => exact .inr ⟨w, hp⟩
    | ran => exact .inl (.inr (.inl hp))
    | removed => exact .inl (.inr (.inr (.inl hp)))
    | deleted => exact .inl (.inr (.inr (.inr hp)))
  · rintro ((hp | hp | hp | hp) | ⟨w, hp⟩)
    · exact ⟨.queued, hp⟩
    · exact ⟨.ran, hp⟩
    · exact ⟨.removed, hp⟩
    · exact ⟨.deleted, hp⟩
    · exact ⟨.held w, hp⟩

theorem Kept.at_unique (h : s.Kept) {p p' : Place} (hp : s.At t p) (hp' : s.At t p') : p = p' := by
  have hnd := h.distinct.nodup
  simp only [store, List.nodup_append, List.mem_append] at hnd
  obtain ⟨-, ⟨-, ⟨-, -, hrd⟩, hr⟩, hq⟩ := hnd
  have key : ∀ {p w}, s.At t p → s.At t (.held w) → p = .held w := by
    intro p w hp hw
    have hns := h.distinct.apart w t hw
    simp only [store, List.mem_append, not_or] at hns
    cases p with
    | held v => rw [h.distinct.one v w t hp hw]
    | queued => exact absurd hp hns.1
    | ran => exact absurd hp hns.2.1
    | removed => exact absurd hp hns.2.2.1
    | deleted => exact absurd hp hns.2.2.2
  cases p with
  | held w => exact (key hp' hp).symm
  | queued =>
    cases p' with
    | queued => rfl
    | held w => exact key hp hp'
    | ran => exact absurd rfl (hq t hp t (.inl hp'))
    | removed => exact absurd rfl (hq t hp t (.inr (.inl hp')))
    | deleted => exact absurd rfl (hq t hp t (.inr (.inr hp')))
  | ran =>
    cases p' with
    | ran => rfl
    | held w => exact key hp hp'
    | queued => exact absurd rfl (hq t hp' t (.inl hp))
    | removed => exact absurd rfl (hr t hp t (.inl hp'))
    | deleted => exact absurd rfl (hr t hp t (.inr hp'))
  | removed =>
    cases p' with
    | removed => rfl
    | held w => exact key hp hp'
    | queued => exact absurd rfl (hq t hp' t (.inr (.inl hp)))
    | ran => exact absurd rfl (hr t hp' t (.inl hp))
    | deleted => exact absurd rfl (hrd t hp t hp')
  | deleted =>
    cases p' with
    | deleted => rfl
    | held w => exact key hp hp'
    | queued => exact absurd rfl (hq t hp' t (.inr (.inr hp)))
    | ran => exact absurd rfl (hr t hp' t (.inr hp))
    | removed => exact absurd rfl (hrd t hp' t hp)

/-- **A task is enqueued exactly when it is in one place**, and it is there once. -/
theorem one_place (h : Reach step Any init s) : (∀ t, t < s.pushed ↔ ∃! p, s.At t p) ∧
    s.q.Nodup ∧ s.ran.Nodup ∧ s.removed.Nodup ∧ s.deleted.Nodup := by
  have hK := kept_of_reach h
  constructor
  · intro t
    rw [← hK.all t, ← exists_at_iff]
    constructor
    · rintro ⟨p, hp⟩
      exact ⟨p, hp, fun p' hp' => hK.at_unique hp' hp⟩
    · rintro ⟨p, hp, -⟩
      exact ⟨p, hp⟩
  · have hnd := hK.distinct.nodup
    simp only [store, List.nodup_append] at hnd
    exact ⟨hnd.1, hnd.2.1.1, hnd.2.1.2.1.1, hnd.2.1.2.1.2.1⟩

theorem one_place_oneTask : ∃ s, run step init oneTask = some s ∧ s.pushed = 1 ∧ ∃! p, s.At 0 p := by
  obtain ⟨s, hs, hp⟩ : ∃ s, run step init oneTask = some s ∧ s.pushed = 1 := ⟨_, rfl, rfl⟩
  have h := one_place (.of_run oneTask (fun _ _ _ => trivial) hs)
  exact ⟨s, hs, hp, (h.1 0).mp (by rw [hp]; decide)⟩

end State

end MutilsTasks.ThreadPool
