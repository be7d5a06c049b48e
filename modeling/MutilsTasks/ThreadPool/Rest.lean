import MutilsTasks.ThreadPool.Threads

/-!
# When the pool comes to rest

The pool is at rest when nothing in it will happen until somebody outside calls it: no
client is in the middle of `push`, the owner is in neither `resize` nor `stop`, and every
thread is blocked or has returned. It never gets stuck anywhere else (`Stuck.rests`):
`mutex` is not kept by anyone who waits, and a thread that `stop` joins will return. Unless a
thread was refused a task, no task in the queue waits for a thread that sleeps (`Stuck.idle`).
-/

namespace MutilsTasks.ThreadPool

open Machine

/-- The step is made by the pool, or by a caller who is in it. No thread wakes for no reason. -/
def Action.inner : Action → Bool
  | .client _ | .notifyOne _ _ | .work _ | .take _ _ | .own | .clear _ | .miss _ | .missOwner => true
  | _ => false

/-- The thread is not in its code. -/
def Worker.rests : Worker → Bool
  | .absent | .blocked | .exited => true
  | _ => false

namespace State

variable {s s' : State} {a : Action} {w u : ℕ}

/-- **Nothing in the pool can happen.** -/
def Stuck (s : State) : Prop := ∀ a, a.inner = true → s.step a = none

/-- **The pool is at rest.** -/
structure Rests (s : State) : Prop where
  mutex : s.mutex = none
  clients : ∀ u, s.client u = .idle
  owner : s.owner = .idle
  workers : ∀ w, (s.worker w).rests = true
  /-- A thread that sleeps was not told to stop. -/
  asleep : ∀ w, s.worker w = .blocked → s.isDone = false ∧ s.flag w = false

/-- **A thread that sleeps has nothing to do.** -/
def Idle (s : State) : Prop := ∀ w, s.worker w = .blocked → s.q = []

theorem Stuck.work (h : s.Stuck) (w : ℕ) : s.work w = none := h (.work w) rfl

theorem Stuck.advance (h : s.Stuck) (u : ℕ) : s.advance u = none := h (.client u) rfl

theorem Stuck.own (h : s.Stuck) : s.own = none := h .own rfl

/-- A thread that calls the queue is answered. -/
theorem Stuck.not_pops (h : s.Stuck) (hw : s.worker w = .pop ∨ s.worker w = .popAgain) : False := by
  cases hq : s.q with
  | nil =>
    have := h.work w
    rcases hw with hw | hw <;> simp [State.work, hw, hq] at this
  | cons t q =>
    have := h (.take w t) rfl
    rcases hw with hw | hw <;> simp [State.step, hw, hq] at this

theorem Stuck.not_clears (h : s.Stuck) (ho : s.owner = .clear ∨ s.owner = .clearLast) : False := by
  cases hq : s.q with
  | nil =>
    have := h.own
    rcases ho with ho | ho <;> simp [State.own, ho, hq] at this
  | cons t q =>
    have := h (.clear t) rfl
    simp [State.step, ho, hq] at this

/-- Whoever has `mutex` locked goes on. -/
theorem Stuck.mutex (h : s.Stuck) (hl : s.Locked) : s.mutex = none := by
  rw [Option.eq_none_iff_forall_ne_some]
  intro p hp
  have hin : s.inside p = true := (hl p).mpr hp
  cases p with
  | worker w =>
    have hw := h.work w
    cases hc : s.worker w with
    | popAgain => exact h.not_pops (.inr hc)
    | unlock f => cases f <;> simp [State.work, hc] at hw
    | enter | readDone | readFlag | block | leave => simp [State.work, hc] at hw
    | _ => simp [inside, hc, Worker.hasMutex] at hin
  | client u =>
    have hu := h.advance u
    cases hc : s.client u with
    | notify =>
      have hn : s.noneBlocked = false := by simpa [State.advance, hc] using hu
      rw [← Bool.not_eq_true, noneBlocked_iff] at hn
      obtain ⟨w, -, hw⟩ : ∃ w < s.started, s.worker w = .blocked := by simpa using hn
      have := h (.notifyOne u w) rfl
      simp [State.step, hc, hw] at this
    | unlock => simp [State.advance, hc] at hu
    | _ => simp [inside, hc, Client.hasMutex] at hin
  | owner =>
    have ho := h.own
    cases hc : s.owner with
    | notify | unlock => simp [State.own, hc] at ho
    | _ => simp [inside, hc, Owner.hasMutex] at hin

theorem Stuck.workers (h : s.Stuck) (hl : s.Locked) (w : ℕ) : (s.worker w).rests = true := by
  have hm := h.mutex hl
  have hw := h.work w
  cases hc : s.worker w with
  | absent | blocked | exited => rfl
  | pop => exact (h.not_pops (.inl hc)).elim
  | popAgain => exact (h.not_pops (.inr hc)).elim
  | unlock f => cases f <;> simp [State.work, hc] at hw
  | lock | woken => simp [State.work, hc, hm] at hw
  | _ => simp [State.work, hc] at hw

theorem Stuck.clients (h : s.Stuck) (hl : s.Locked) (u : ℕ) : s.client u = .idle := by
  have hm := h.mutex hl
  have hu := h.advance u
  cases hc : s.client u with
  | idle => rfl
  | enqueue | unlock => simp [State.advance, hc] at hu
  | lock => simp [State.advance, hc, hm] at hu
  | notify =>
    have : s.mutex = some (.client u) := (hl (.client u)).mp (by simp [inside, hc, Client.hasMutex])
    rw [hm] at this
    cases this

/-- A thread that is joined was told to stop, so it does not sleep for ever. -/
theorem Stuck.exited_of_join (h : s.Stuck) (hW : s.Waiting) (hR : s.Roster) {i : ℕ}
    (ho : s.owner = .join i) (hw : s.threads[i]? = some w) : s.worker w = .exited := by
  have hr := h.workers hW.locked w
  cases hc : s.worker w with
  | exited => rfl
  | absent =>
    have := (hW.numbered w).mp hc
    have := hR.lt w (List.mem_of_getElem? hw)
    omega
  | blocked =>
    have htold : s.isDone = true ∨ s.flag w = true := by
      refine (hR.stopping (by rw [ho]; rfl)).imp_right fun hs => ?_
      rw [hR.flag i w hw, ho]
      exact hs
    have ht : s.owner.tells = true := by
      refine hW.told w (htold.imp (fun hd => ⟨hd, .inr ?_⟩) fun hf => ⟨hf, ?_⟩) <;> rw [hc] <;> rfl
    rw [ho] at ht
    cases ht
  | _ => simp [hc, Worker.rests] at hr

theorem Stuck.owner (h : s.Stuck) (hW : s.Waiting) (hR : s.Roster) : s.owner = .idle := by
  have hm := h.mutex hW.locked
  have hown := h.own
  cases ho : s.owner with
  | idle => rfl
  | clear => exact (h.not_clears (.inl ho)).elim
  | clearLast => exact (h.not_clears (.inr ho)).elim
  | grow n => simp [State.own, ho] at hown
  | detach i n =>
    simp only [State.own, ho] at hown
    split at hown
    · have := (hR.detach i n ho).2
      rw [List.getElem?_eq_getElem (by omega)] at hown
      cases hown
    · cases hown
  | setFlag i =>
    simp only [State.own, ho] at hown
    split at hown <;> cases hown
  | join i =>
    simp only [State.own, ho] at hown
    split at hown <;> rename_i hw
    · simp only [h.exited_of_join hW hR ho hw, if_true] at hown
      split at hown <;> cases hown
    · cases hown
  | lock r => simp [State.own, ho, hm] at hown
  | _ => simp [State.own, ho] at hown

theorem Stuck.rests (h : s.Stuck) (hW : s.Waiting) (hR : s.Roster) : s.Rests where
  mutex := h.mutex hW.locked
  clients := h.clients hW.locked
  owner := h.owner hW hR
  workers := h.workers hW.locked
  asleep w hw := by
    have ho := h.owner hW hR
    have hnot : ¬ (s.isDone = true ∨ s.flag w = true) := by
      intro ht
      have : s.owner.tells = true := by
        refine hW.told w (ht.imp (fun hd => ⟨hd, .inr ?_⟩) fun hf => ⟨hf, ?_⟩) <;> rw [hw] <;> rfl
      rw [ho] at this
      cases this
    simpa only [not_or, Bool.not_eq_true] using hnot

/-- Nobody is left who would notify, or look. -/
theorem Stuck.idle (h : s.Stuck) (hl : s.Locked) (hS : s.Served) : s.Idle := by
  intro w hw
  obtain ⟨n, m, cn, cm, hb⟩ := hS
  obtain rfl : n = 0 := cn.eq_zero fun u => by rw [h.clients hl u]; rfl
  obtain rfl : m = 0 := by
    refine cm.eq_zero fun v => ?_
    have hv := h.workers hl v
    cases hc : s.worker v <;> first | rfl | simp [hc, Worker.rests] at hv
  exact List.length_eq_zero_iff.mp (Nat.le_zero.mp (hb w (by rw [hw]; rfl)))

theorem roster_of_reach {P : State → Action → Prop} (h : Reach step P init s) : s.Roster :=
  h.invariant init_roster fun _ _ _ hr hR _ hs => hR.step (waiting_of_reach hr).numbered (step_spec hs)

/-- At rest nothing happens. -/
theorem Rests.stuck (h : s.Rests) : s.Stuck := by
  have hp : ∀ w, s.worker w ≠ .pop ∧ s.worker w ≠ .popAgain := by
    intro w
    have hw := h.workers w
    constructor <;> intro hc <;> simp [hc, Worker.rests] at hw
  intro a ha
  cases a with
  | client u => simp [step, advance, h.clients u]
  | notifyOne u w => simp [step, h.clients u]
  | work w =>
    have hw := h.workers w
    cases hc : s.worker w <;> simp [hc, Worker.rests] at hw <;> simp [step, State.work, hc]
  | take w t =>
    simp only [step]
    split
    · split
      · exact absurd ‹_› (hp w).1
      · exact absurd ‹_› (hp w).2
      · rfl
    · rfl
  | own => simp [step, State.own, h.owner]
  | clear t => simp [step, h.owner]
  | miss w =>
    simp only [step]
    split
    · rfl
    · split
      · exact absurd ‹_› (hp w).1
      · exact absurd ‹_› (hp w).2
      · rfl
  | missOwner => simp [step, h.owner]
  | _ => cases ha

/-- **The pool is stuck exactly when it is at rest**, and then no thread sleeps beside a task, where
`q.pop` fails only if the queue is empty. -/
theorem stuck_iff_rests (h : Reach step Any init s) :
    (s.Stuck ↔ s.Rests) ∧ (Reach step Sure init s → s.Stuck → s.Idle) := by
  have hW := waiting_of_reach h
  refine ⟨⟨fun hs => hs.rests hW (roster_of_reach h), Rests.stuck⟩, fun hr hs => ?_⟩
  exact hs.idle hW.locked (served_of_reach hr)

/-- A thread runs a task and waits for the next one. -/
def oneTask : List Action := [.resize 1, .own, .own, .push 0, .client 0, .take 0 0, .work 0] ++
  List.replicate 3 (.client 0) ++ List.replicate 9 (.work 0)

theorem oneTask_sure (t : State) : ∀ a ∈ oneTask, Sure t a :=
  (by decide : ∀ a ∈ oneTask, Action.sure a = true)

theorem stuck_iff_rests_oneTask : ∃ s, run step init oneTask = some s ∧ s.worker 0 = .blocked ∧
    (s.Stuck ↔ s.Rests) ∧ (s.Stuck → s.Idle) := by
  obtain ⟨s, hs, hw⟩ : ∃ s, run step init oneTask = some s ∧ s.worker 0 = .blocked := ⟨_, rfl, rfl⟩
  have h := stuck_iff_rests (.of_run oneTask (fun _ _ _ => trivial) hs)
  exact ⟨s, hs, hw, h.1, h.2 (.of_run oneTask (fun t => oneTask_sure t) hs)⟩

end State

end MutilsTasks.ThreadPool
