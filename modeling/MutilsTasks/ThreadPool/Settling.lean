import MutilsTasks.Library.Tally
import MutilsTasks.ThreadPool.Stopping

/-!
# The pool comes to rest

A thread that is woken looks at the queue, reads `isDone` and its flag, and goes back to
sleep: a few steps, which its waker pays for. A task costs a few more. So as long as nobody
calls the pool and no thread wakes for no reason, only so many steps happen in it
(`Weighs.step`), and they end with the pool at rest (`comes_to_rest`), in whatever order its
threads, its clients and its owner go on. If the pool then has a thread and was not stopped,
everything that has been pushed has been run, but for what users have taken out (`ran_of_stuck`).
-/

namespace MutilsTasks.ThreadPool

open Machine

/-- More than the steps that are left to a thread which gets no task and is not woken. -/
def Worker.weight : Worker → ℕ
  | .absent | .blocked | .exited => 0
  | .block | .unlock none => 1
  | .readFlag => 3
  | .leave none => 2
  | .readDone => 4
  | .popAgain => 5
  | .enter | .woken => 6
  | .lock => 7
  | .pop => 8
  | .testFlag => 9
  | .running _ => 10
  | .call _ => 11
  | .unlock (some _) => 12
  | .leave (some _) => 13

/-- What a client has to do, with the task that it brings and the thread that it wakes. -/
def Client.weight : Client → ℕ
  | .idle => 0
  | .unlock => 1
  | .notify => 8
  | .lock => 9
  | .enqueue => 19

/-- What the owner has to do, with the threads that it starts and wakes, where `len` threads are in
the vector and `started` have been started. -/
def Owner.weight (len started : ℕ) : Owner → ℕ
  | .idle => 0
  | .grow n => 9 * (n - len) + 1
  | .truncate _ | .clearThreads => 1
  | .clearLast => 2
  | .join i => (len - i) + 3
  | .unlock _ => len + 4
  | .notify _ => len + 5 + 6 * started
  | .lock _ => len + 6 + 6 * started
  | .clear => len + 7 + 6 * started
  | .detach i n => (i - n) + (len + 7 + 6 * started)
  | .setFlag i => (len - i) + (len + 8 + 6 * started)

namespace State

variable {s s' : State} {a : Action} {w u n : ℕ} {c : Worker} {d : Client}

/-! ### The measure -/

/-- What is left to do comes to `n`. -/
def Weighs (s : State) (n : ℕ) : Prop :=
  ∃ T C, Tally s.worker Worker.weight T ∧ Tally s.client Client.weight C ∧
    n = T + C + 9 * s.q.length + s.owner.weight s.threads.length s.started

theorem Weighs.worker (h : s.Weighs n) (hw : s'.worker = Function.update s.worker w c)
    (hc : s'.client = s.client) (ho : s'.owner = s.owner) (hl : s'.threads = s.threads)
    (hst : s'.started = s.started)
    (hlt : c.weight + 9 * s'.q.length < (s.worker w).weight + 9 * s.q.length) :
    ∃ m, m < n ∧ s'.Weighs m := by
  obtain ⟨T, C, hT, hC, rfl⟩ := h
  have hle := hT.le w
  refine ⟨_, ?_, T + c.weight - (s.worker w).weight, C, hw ▸ hT.move w c, hc ▸ hC, rfl⟩
  rw [ho, hl, hst]
  omega

theorem Weighs.client (h : s.Weighs n) (hc : s'.client = Function.update s.client u d)
    (hw : s'.worker = s.worker) (ho : s'.owner = s.owner) (hl : s'.threads = s.threads)
    (hst : s'.started = s.started)
    (hlt : d.weight + 9 * s'.q.length < (s.client u).weight + 9 * s.q.length) :
    ∃ m, m < n ∧ s'.Weighs m := by
  obtain ⟨T, C, hT, hC, rfl⟩ := h
  have hle := hC.le u
  refine ⟨_, ?_, T, C + d.weight - (s.client u).weight, hw ▸ hT, hc ▸ hC.move u d, rfl⟩
  rw [ho, hl, hst]
  omega

theorem Weighs.owner (h : s.Weighs n) (hw : s'.worker = s.worker) (hc : s'.client = s.client)
    (hlt : 9 * s'.q.length + s'.owner.weight s'.threads.length s'.started <
      9 * s.q.length + s.owner.weight s.threads.length s.started) : ∃ m, m < n ∧ s'.Weighs m := by
  obtain ⟨T, C, hT, hC, rfl⟩ := h
  exact ⟨_, by omega, T, C, hw ▸ hT, hc ▸ hC, rfl⟩

theorem Weighs.work (h : s.Weighs n) (hs : s.work w = some s') : ∃ m, m < n ∧ s'.Weighs m := by
  unfold State.work at hs
  cases hc : s.worker w with
  | absent | blocked | exited => simp [hc] at hs
  | pop | popAgain =>
    simp only [hc, Option.ite_none_right_eq_some, Option.some.injEq] at hs
    obtain ⟨-, rfl⟩ := hs
    exact h.worker rfl rfl rfl rfl rfl (by simp [hc, Worker.weight])
  | lock | woken =>
    simp only [hc, Option.ite_none_right_eq_some, Option.some.injEq] at hs
    obtain ⟨-, rfl⟩ := hs
    exact h.worker rfl rfl rfl rfl rfl (by simp [hc, Worker.weight])
  | testFlag | readDone | readFlag =>
    simp only [hc, Option.some.injEq] at hs
    subst hs
    split <;> exact h.worker rfl rfl rfl rfl rfl (by simp [hc, Worker.weight])
  | leave f | unlock f =>
    cases f <;> simp only [hc, Option.some.injEq] at hs <;> subst hs <;>
      exact h.worker rfl rfl rfl rfl rfl (by simp [hc, Worker.weight])
  | call | running | enter | block =>
    simp only [hc, Option.some.injEq] at hs
    subst hs
    exact h.worker rfl rfl rfl rfl rfl (by simp [hc, Worker.weight])

theorem Weighs.advance (h : s.Weighs n) (hs : s.advance u = some s') : ∃ m, m < n ∧ s'.Weighs m := by
  unfold State.advance at hs
  cases hc : s.client u with
  | idle => simp [hc] at hs
  | lock | notify =>
    simp only [hc, Option.ite_none_right_eq_some, Option.some.injEq] at hs
    obtain ⟨-, rfl⟩ := hs
    exact h.client rfl rfl rfl rfl rfl (by simp [hc, Client.weight])
  | enqueue | unlock =>
    simp only [hc, Option.some.injEq] at hs
    subst hs
    exact h.client rfl rfl rfl rfl rfl (by simp [hc, Client.weight] <;> omega)

/-- The owner wakes all threads. -/
theorem Weighs.notifyAll (h : s.Weighs n) (hN : s.Numbered) {r : Reason} (ho : s.owner = .notify r) :
    ∃ m, m < n ∧ (s.notifyAll.setOwner (.unlock r)).Weighs m := by
  obtain ⟨T, C, hT, hC, rfl⟩ := h
  have hc : Census s.worker (fun c => c ≠ .absent) s.started :=
    ⟨Finset.range s.started, fun w => by rw [Finset.mem_range]; simpa using (hN w).not.symm,
      Finset.card_range _⟩
  obtain ⟨T', hT', ht⟩ := hT.grow (g := s.notifyAll.worker) (v := Worker.weight) (d := 6) hc
    (fun w hw => by
      have : s.worker w = .absent := by simpa using hw
      simp [this])
    fun w => by
      rw [notifyAll_worker]
      split
      · exact Nat.le_add_left _ _
      · exact Nat.le_add_right _ _
  refine ⟨_, ?_, T', C, ht, hC, rfl⟩
  simp only [setOwner_q, notifyAll_q, setOwner_owner, setOwner_threads, notifyAll_threads, ho,
    Owner.weight]
  omega

theorem Weighs.own (h : s.Weighs n) (hN : s.Numbered) (hs : s.own = some s') :
    ∃ m, m < n ∧ s'.Weighs m := by
  unfold State.own at hs
  cases ho : s.owner with
  | idle => simp [ho] at hs
  | grow k =>
    simp only [ho, Option.some.injEq] at hs
    subst hs
    split
    · obtain ⟨T, C, hT, hC, rfl⟩ := h
      have habsent : s.worker s.started = .absent := (hN _).mpr (Nat.le_refl _)
      have hT' := hT.move s.started .pop
      rw [habsent] at hT'
      refine ⟨_, ?_, _, C, hT', hC, rfl⟩
      simp only [setThread_q, setThread_owner, setThread_threads, ho, Owner.weight, Worker.weight,
        List.length_append, List.length_singleton]
      omega
    · exact h.owner rfl rfl (by simp [ho, Owner.weight])
  | detach i k =>
    simp only [ho] at hs
    split at hs
    · split at hs <;> cases hs
      exact h.owner rfl rfl (by simp [ho, Owner.weight]; omega)
    · cases hs
      exact h.owner rfl rfl (by simp [ho, Owner.weight]; omega)
  | setFlag i =>
    simp only [ho] at hs
    split at hs <;> cases hs
    · rename_i v hv
      have hi : i < s.threads.length := (List.getElem?_eq_some_iff.mp hv).1
      exact h.owner rfl rfl (by simp [ho, Owner.weight]; omega)
    · exact h.owner rfl rfl (by simp [ho, Owner.weight]; omega)
  | join i =>
    simp only [ho] at hs
    split at hs
    · rename_i v hv
      have hi : i < s.threads.length := (List.getElem?_eq_some_iff.mp hv).1
      split at hs
      · split at hs <;> cases hs
        exact h.owner rfl rfl (by simp [ho, Owner.weight]; omega)
      · cases hs
        exact h.owner rfl rfl (by simp [ho, Owner.weight]; omega)
    · cases hs
      exact h.owner rfl rfl (by simp [ho, Owner.weight])
  | clear | clearLast | lock =>
    simp only [ho, Option.ite_none_right_eq_some, Option.some.injEq] at hs
    obtain ⟨-, rfl⟩ := hs
    exact h.owner rfl rfl (by simp [ho, Owner.weight])
  | notify r =>
    simp only [ho, Option.some.injEq] at hs
    subst hs
    exact h.notifyAll hN ho
  | unlock r =>
    simp only [ho, Option.some.injEq] at hs
    subst hs
    cases r <;> exact h.owner rfl rfl (by simp [ho, Owner.weight, afterNotify])
  | truncate | clearThreads =>
    simp only [ho, Option.some.injEq] at hs
    subst hs
    exact h.owner rfl rfl (by simp [ho, Owner.weight])

/-- **Every step in the pool leaves less to do.** -/
theorem Weighs.step (h : s.Weighs n) (hN : s.Numbered) (ha : a.inner = true)
    (hs : s.step a = some s') : ∃ m, m < n ∧ s'.Weighs m := by
  cases a with
  | client u => exact h.advance hs
  | notifyOne u w =>
    simp only [State.step, Option.ite_none_right_eq_some, Option.some.injEq] at hs
    obtain ⟨⟨hu, hw⟩, rfl⟩ := hs
    obtain ⟨T, C, hT, hC, rfl⟩ := h
    have hT' := hT.move w .woken
    have hC' := hC.move u .unlock
    have hle := hC.le u
    rw [hw] at hT'
    rw [hu] at hC' hle
    refine ⟨_, ?_, _, _, hT', hC', rfl⟩
    simp only [Worker.weight, Client.weight, setWorker_q, setClient_q, setWorker_owner,
      setClient_owner, setWorker_threads, setClient_threads, setWorker_started,
      setClient_started] at hle ⊢
    omega
  | work w => exact h.work hs
  | take w t =>
    simp only [State.step] at hs
    split at hs
    · rename_i ht
      have hlen : (s.q.erase t).length + 1 = s.q.length := List.length_erase_add_one ht
      split at hs <;> cases hs <;> rename_i hc <;>
        exact h.worker rfl rfl rfl rfl rfl (by simp only [hc, Worker.weight, setWorker_q]; omega)
    · cases hs
  | own => exact h.own hN hs
  | clear t =>
    simp only [State.step, Option.ite_none_right_eq_some, Option.some.injEq] at hs
    obtain ⟨⟨ht, -⟩, rfl⟩ := hs
    have hlen : (s.q.erase t).length + 1 = s.q.length := List.length_erase_add_one ht
    exact h.owner rfl rfl (by simp only; omega)
  | miss w =>
    simp only [State.step, Option.ite_none_left_eq_some] at hs
    obtain ⟨-, hs⟩ := hs
    split at hs <;> cases hs <;> rename_i hc <;>
      exact h.worker rfl rfl rfl rfl rfl (by simp [hc, Worker.weight])
  | missOwner =>
    simp only [State.step, Option.ite_none_left_eq_some] at hs
    obtain ⟨-, hs⟩ := hs
    split at hs <;> cases hs <;> rename_i ho <;>
      exact h.owner rfl rfl (by simp [ho, Owner.weight])
  | _ => cases ha

theorem weighs_of_reach {P : State → Action → Prop} (h : Reach step P init s) : ∃ n, s.Weighs n := by
  have hN := (waiting_of_reach h).numbered
  have clients : ∃ C, Tally s.client Client.weight C := by
    refine h.invariant (I := fun s => ∃ C, Tally s.client Client.weight C) ⟨0, .zero fun _ => rfl⟩ ?_
    rintro s a s' - ⟨C, hC⟩ - hs
    cases step_spec hs with
    | pushes | enqueues | clientLocks | notifiesNobody | notifies | clientUnlocks =>
      exact ⟨_, hC.move _ _⟩
    | _ => exact ⟨C, hC⟩
  obtain ⟨C, hC⟩ := clients
  have hT : Tally s.worker Worker.weight (∑ w ∈ Finset.range s.started, (s.worker w).weight) := by
    refine ⟨_, fun w hw => ?_, rfl⟩
    rw [Finset.mem_range, Nat.not_lt] at hw
    rw [(hN w).mpr hw]
    rfl
  exact ⟨_, _, C, hT, hC, rfl⟩

/-- Whoever can be refused a task can be given one. -/
theorem stuck_of_sure (h : ∀ a, a.inner = true ∧ a.sure = true → s.step a = none) : s.Stuck := by
  intro a ha
  cases hsure : a.sure with
  | true => exact h a ⟨ha, hsure⟩
  | false =>
    cases hq : s.q with
    | nil =>
      cases a with
      | miss | missOwner => simp [State.step, hq]
      | _ => cases hsure
    | cons t q =>
      have ht : t ∈ s.q := by simp [hq]
      cases a with
      | miss w =>
        have hw := h (.take w t) ⟨rfl, rfl⟩
        cases hc : s.worker w <;> simp_all [step]
      | missOwner =>
        have ho := h (.clear t) ⟨rfl, rfl⟩
        cases hc : s.owner <;> simp_all [step]
      | _ => cases hsure

/-- **The pool comes to rest**: from every reachable state only so many steps happen in it until
somebody calls it again or a thread wakes for no reason, in whatever order they are made, and
the steps lead to a state in which the pool is at rest. If `q.pop` failed only on an empty queue,
no thread sleeps there beside a task. -/
theorem comes_to_rest (h : Reach step Any init s) : ∃ n, s.Weighs n ∧
    (∀ as s', (∀ a ∈ as, a.inner = true) → run step s as = some s' → as.length ≤ n) ∧
    ∃ as s', (∀ a ∈ as, a.inner = true) ∧ run step s as = some s' ∧ s'.Rests ∧
      (Reach step Sure init s → s'.Idle) := by
  obtain ⟨n, hn⟩ := weighs_of_reach h
  have hb : ∀ as s', (∀ a ∈ as, a.inner = true) → run step s as = some s' → as.length ≤ n := by
    intro as s' has hr
    refine length_le_of_run (W := fun t m => Reach step Any init t ∧ t.Weighs m) ?_ has ⟨h, hn⟩ hr
    rintro t a t' m ha ⟨ht, hW⟩ hs
    obtain ⟨k, hk, hW'⟩ := hW.step (waiting_of_reach ht).numbered ha hs
    exact ⟨k, hk, .tail ht trivial hs, hW'⟩
  -- a run in which nobody is refused a task
  have hb' : ∀ as s', (∀ a ∈ as, a.inner = true ∧ a.sure = true) → run step s as = some s' →
      as.length ≤ n := fun as s' has hr => hb as s' (fun a ha => (has a ha).1) hr
  obtain ⟨as, s', has, hr, hnone⟩ := exists_stuck hb'
  have hstuck : s'.Stuck := stuck_of_sure hnone
  have hreach : Reach step Any init s' := h.trans (.of_run as (fun _ _ _ => trivial) hr)
  have hW := waiting_of_reach hreach
  refine ⟨n, hn, hb, as, s', fun a ha => (has a ha).1, hr, hstuck.rests hW (roster_of_reach hreach),
    fun hsure => ?_⟩
  have hsure' : Reach step Sure init s' := hsure.trans (.of_run as (fun _ a ha => (has a ha).2) hr)
  exact hstuck.idle hW.locked (served_of_reach hsure')

/-- A task has been pushed, and no thread has looked yet. -/
theorem comes_to_rest_pushed : ∃ s, run step init [.resize 1, .own, .own, .push 0, .client 0] = some s ∧
    s.q = [0] ∧ ∃ as s', run step s as = some s' ∧ s'.Rests ∧ s'.Idle := by
  obtain ⟨s, hs, hq⟩ : ∃ s, run step init [.resize 1, .own, .own, .push 0, .client 0] = some s ∧
      s.q = [0] := ⟨_, rfl, rfl⟩
  have hsure : Reach step Sure init s := .of_run _ (fun _ a ha =>
    (by decide : ∀ a ∈ [.resize 1, .own, .own, .push 0, .client 0], Action.sure a = true) a ha) hs
  obtain ⟨n, -, -, as, s', -, hr, hR, hI⟩ := comes_to_rest (hsure.mono fun _ _ _ => trivial)
  exact ⟨s, hs, hq, as, s', hr, hR, hI hsure⟩

/-! ### Everything has been run -/

/-- A thread leaves its loop only when it was told to, and only `stop` deletes tasks. -/
structure Dismissed (s : State) : Prop where
  told : ∀ w, (s.worker w).gone = true → s.isDone = true ∨ s.flag w = true
  deleted : s.isDone = false → s.isStop = false → s.deleted = []

theorem init_dismissed : init.Dismissed := ⟨nofun, fun _ _ => rfl⟩

/-- The rule for a step of a thread. -/
theorem Dismissed.worker {t : State} (h : s.Dismissed) (hw : t.worker = Function.update s.worker w c)
    (hd : t.isDone = s.isDone) (hi : t.isStop = s.isStop) (hf : t.flag = s.flag)
    (hdel : t.deleted = s.deleted)
    (hc : c.gone = true → s.isDone = true ∨ s.flag w = true) : t.Dismissed := by
  refine ⟨fun v hv => ?_, fun h₁ h₂ => hdel ▸ h.deleted (hd ▸ h₁) (hi ▸ h₂)⟩
  rw [hd, hf]
  by_cases e : v = w
  · rw [e] at hv ⊢
    rw [hw, Function.update_self] at hv
    exact hc hv
  · rw [hw, Function.update_of_ne e] at hv
    exact h.told v hv

theorem Dismissed.step (h : s.Dismissed) (hR : s.Roster) (hs : Moves s a s') : s'.Dismissed := by
  cases hs with
  | @turns _ w c ht =>
    refine h.worker (w := w) (c := c) rfl rfl rfl rfl rfl fun hc => ?_
    generalize hx : s.worker w = x at ht
    cases ht <;> first | exact .inl ‹_› | exact .inr ‹_› | cases hc
  | takes _ hw =>
    refine h.worker rfl rfl rfl rfl rfl ?_
    rcases hw with ⟨-, rfl⟩ | ⟨-, rfl⟩ <;> simp [Worker.gone]
  | locks _ hw =>
    refine h.worker rfl rfl rfl rfl rfl ?_
    rcases hw with ⟨-, rfl⟩ | ⟨-, rfl⟩ <;> simp [Worker.gone]
  | ends | enters => exact h.worker rfl rfl rfl rfl rfl (by simp [Worker.gone])
  | @leaves _ w f hw =>
    refine h.worker rfl rfl rfl rfl rfl fun hc => h.told w ?_
    rw [hw]
    cases f <;> first | rfl | cases hc
  | @unlocks _ w c hw =>
    refine h.worker rfl rfl rfl rfl rfl fun hc => h.told w ?_
    rcases hw with ⟨-, rfl⟩ | ⟨t, -, rfl⟩ | ⟨hw, rfl⟩
    · cases hc
    · cases hc
    · rw [hw]
      rfl
  | notifies => exact h.worker rfl rfl rfl rfl rfl (by simp [Worker.gone])
  | starts =>
    refine ⟨fun v hv => ?_, h.deleted⟩
    by_cases e : v = s.started
    · simp [e, Worker.gone] at hv
    · have hv' := h.told v (by simpa [e] using hv)
      simpa [e] using hv'
  | @detaches _ i n v | @flags _ i v =>
    refine ⟨fun w hw => (h.told w hw).imp_right fun hf => ?_, h.deleted⟩
    by_cases e : w = v <;> simp [e, hf]
  | deletes _ ho =>
    -- the owner deletes tasks in `stop` only
    have hstop : s.owner.stopping = true := by rcases ho with ho | ho <;> rw [ho] <;> rfl
    refine ⟨h.told, fun hd hi => ?_⟩
    rcases hR.stopping hstop with h' | h'
    · exact absurd (hd.symm.trans h') Bool.false_ne_true
    · exact absurd (hi.symm.trans h') Bool.false_ne_true
  | notifiesAll =>
    refine ⟨fun w hw => h.told w ?_, h.deleted⟩
    by_cases e : s.worker w = .blocked
    · simp [e, Worker.gone] at hw
    · simpa [e] using hw
  | finishes => exact ⟨fun _ _ => .inl rfl, by simp⟩
  | stops => exact ⟨h.told, by simp⟩
  | _ => exact ⟨h.told, h.deleted⟩

theorem dismissed_of_reach {P : State → Action → Prop} (h : Reach step P init s) : s.Dismissed :=
  h.invariant init_dismissed fun _ _ _ hr hD _ hs => hD.step (roster_of_reach hr) (step_spec hs)

/-- **When nothing happens any more in a pool that has a thread and was not stopped, everything
that was pushed has been run**, or was taken out by a user, if `q.pop` failed only on an empty queue. -/
theorem ran_of_stuck (h : Reach step Sure init s) (hs : s.Stuck) (hd : s.isDone = false)
    (hi : s.isStop = false) (hne : s.threads ≠ []) :
    s.q = [] ∧ ∀ t < s.pushed, t ∈ s.ran ∨ t ∈ s.removed := by
  have hW := waiting_of_reach h
  have hR := roster_of_reach h
  have hD := dismissed_of_reach h
  have hrests := hs.rests hW hR
  -- the first thread sleeps
  obtain ⟨w, hw⟩ : ∃ w, s.threads[0]? = some w :=
    ⟨_, List.getElem?_eq_getElem (List.length_pos_of_ne_nil hne)⟩
  have hblocked : s.worker w = .blocked := by
    have hr := hrests.workers w
    cases hc : s.worker w with
    | blocked => rfl
    | absent =>
      have := (hW.numbered w).mp hc
      have := hR.lt w (List.mem_of_getElem? hw)
      omega
    | exited =>
      have hflag := hR.flag 0 w hw
      rw [hrests.owner, hi] at hflag
      rcases hD.told w (by rw [hc]; rfl) with h' | h'
      · exact absurd (hd.symm.trans h') Bool.false_ne_true
      · rw [hflag] at h'
        cases h'
    | _ => simp [hc, Worker.rests] at hr
  have hq : s.q = [] := hs.idle hW.locked (served_of_reach h) w hblocked
  refine ⟨hq, fun t ht => ?_⟩
  obtain ⟨p, hp⟩ := (exists_at_iff s t).mpr (((kept_of_reach h).all t).mpr ht)
  cases p with
  | queued =>
    have : t ∈ s.q := hp
    rw [hq] at this
    cases this
  | held v =>
    have hp' : (s.worker v).task = some t := hp
    have hr := hrests.workers v
    cases hc : s.worker v with
    | absent | blocked | exited => simp [hc, Worker.task] at hp'
    | _ => simp [hc, Worker.rests] at hr
  | ran => exact .inl hp
  | removed => exact .inr hp
  | deleted =>
    have : t ∈ s.deleted := hp
    rw [hD.deleted hd hi] at this
    cases this

/-- The thread of `oneTask` sleeps, and its client has returned. -/
theorem rests_oneTask : ∃ s, run step init oneTask = some s ∧ s.pushed = 1 ∧ s.isDone = false ∧
    s.isStop = false ∧ s.threads = [0] ∧ s.Rests := by
  obtain ⟨s, hs, hp, hd, hi, ht, hm, ho, hst, hc, hw, hf⟩ : ∃ s, run step init oneTask = some s ∧
      s.pushed = 1 ∧ s.isDone = false ∧ s.isStop = false ∧ s.threads = [0] ∧ s.mutex = none ∧
      s.owner = .idle ∧ s.started = 1 ∧ s.client 0 = .idle ∧ s.worker 0 = .blocked ∧
      s.flag 0 = false := ⟨_, rfl, rfl, rfl, rfl, rfl, rfl, rfl, rfl, rfl, rfl, rfl⟩
  have hr : Reach step Any init s := .of_run oneTask (fun _ _ _ => trivial) hs
  have habsent : ∀ w, w ≠ 0 → s.worker w = .absent := fun w hne =>
    ((waiting_of_reach hr).numbered w).mpr (by omega)
  refine ⟨s, hs, hp, hd, hi, ht, hm, fun u => ?_, ho, fun w => ?_, fun w hb => ⟨hd, ?_⟩⟩
  · by_cases e : u = 0
    · rw [e, hc]
    · exact client_eq_idle hs (by simpa [oneTask] using e)
  · by_cases e : w = 0
    · rw [e, hw]
      rfl
    · rw [habsent w e]
      rfl
  · by_cases e : w = 0
    · rw [e, hf]
    · rw [habsent w e] at hb
      cases hb

theorem ran_of_stuck_oneTask : ∃ s, run step init oneTask = some s ∧ (0 ∈ s.ran ∨ 0 ∈ s.removed) := by
  obtain ⟨s, hs, hp, hd, hi, ht, hR⟩ := rests_oneTask
  have h := ran_of_stuck (.of_run oneTask (fun t => oneTask_sure t) hs) hR.stuck hd hi (by simp [ht])
  exact ⟨s, hs, h.2 0 (by rw [hp]; decide)⟩

end State

end MutilsTasks.ThreadPool
