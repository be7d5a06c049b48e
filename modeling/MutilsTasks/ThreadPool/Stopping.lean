import MutilsTasks.ThreadPool.Tasks

/-!
# The end of the pool

`stop(true)` says that "all the functions in the queue are run". A thread leaves when it has
found the queue empty and then reads `isDone`, and a push that is in progress can put its
task in between. Where no push overlaps `stop(true)`, no thread is refused a task and the vector
has a thread, nothing is deleted, and what has been enqueued has been run when `stop` returns, but
for what is in the hands of detached threads (`drained`).

When `stop` has returned, every thread that was not detached has returned too. A thread whose
flag is set takes at most one more task (`takes_le_one`).
-/

namespace MutilsTasks.ThreadPool

open Machine

namespace Worker

/-- The thread has found the queue empty and has `mutex` locked. -/
def sees : Worker → Bool
  | .readDone | .readFlag | .block => true
  | _ => false

/-- The thread has left its loop because the queue was empty. -/
def gone : Worker → Bool
  | .leave none | .unlock none | .exited => true
  | _ => false

theorem hasMutex_of_sees {c : Worker} (h : c.sees = true) : c.hasMutex = true := by
  cases c <;> first | rfl | cases h

end Worker

/-- How many tasks the thread can still take, when its flag is set. -/
def Worker.more : Worker → ℕ
  | .call _ | .running _ | .testFlag | .leave _ | .unlock _ | .exited => 0
  | _ => 1

/-- The owner is in a `resize` that detaches threads. -/
def Owner.shrinks : Owner → Bool
  | .detach _ _ | .lock (.shrink _) | .notify (.shrink _) | .unlock (.shrink _) | .truncate _ => true
  | _ => false

namespace State

variable {s s' : State} {a : Action} {t w : ℕ}

/-! ### What a thread has seen of the queue -/

/-- **A thread that has found the queue empty has missed nothing** but tasks of clients that
have yet to notify. -/
def Seen (s : State) : Prop :=
  ∃ n, Census s.client Client.owes n ∧ ∀ w, (s.worker w).sees = true → s.q.length ≤ n

theorem init_seen : init.Seen := ⟨0, .zero fun _ => rfl, nofun⟩

/-- The rule for a step of a thread. -/
theorem Seen.worker {t : State} {c : Worker} (h : s.Seen)
    (hw : t.worker = Function.update s.worker w c) (hu : t.client = s.client)
    (hq : t.q.length ≤ s.q.length)
    (hc : c.sees = true → (s.worker w).sees = true ∨ t.q = []) : t.Seen := by
  obtain ⟨n, cn, hb⟩ := h
  refine ⟨n, hu ▸ cn, fun v hv => ?_⟩
  rw [hw] at hv
  by_cases e : v = w
  · rw [e, Function.update_self] at hv
    rcases hc hv with hs | hs
    · exact hq.trans (hb w hs)
    · simp [hs]
  · rw [Function.update_of_ne e] at hv
    exact hq.trans (hb v hv)

/-- The rule for a step of a client with `mutex` locked, or of the owner. -/
theorem Seen.of_inside {t : State} {p : Party} (hu : ∃ n, Census t.client Client.owes n)
    (hl : s.Locked) (hp : s.inside p = true) (hp' : ∀ w, p ≠ .worker w)
    (hw : ∀ w, (t.worker w).sees = true → (s.worker w).sees = true) : t.Seen := by
  obtain ⟨n, cn⟩ := hu
  refine ⟨n, cn, fun w hv => ?_⟩
  have hin : s.inside (.worker w) = true := Worker.hasMutex_of_sees (hw w hv)
  exact absurd (hl.eq hp hin) (hp' w)

theorem Seen.step (h : s.Seen) (hl : s.Locked) (ha : a.sure = true) (hs : Moves s a s') : s'.Seen := by
  cases hs with
  | @turns _ w c ht =>
    refine h.worker (w := w) (c := c) rfl rfl le_rfl fun hc => ?_
    generalize s.worker w = d at ht
    cases ht <;> first | exact .inl rfl | exact .inr (‹_ → _› ha) | cases hc
  | takes ht hw =>
    refine h.worker (c := _) rfl rfl List.length_erase_le ?_
    rcases hw with ⟨-, rfl⟩ | ⟨-, rfl⟩ <;> simp [Worker.sees]
  | ends | enters | leaves => exact h.worker (c := _) rfl rfl le_rfl (by simp [Worker.sees])
  | locks _ hw =>
    refine h.worker (c := _) rfl rfl le_rfl ?_
    rcases hw with ⟨-, rfl⟩ | ⟨-, rfl⟩ <;> simp [Worker.sees]
  | unlocks hw =>
    refine h.worker (c := _) rfl rfl le_rfl ?_
    rcases hw with ⟨-, rfl⟩ | ⟨t, -, rfl⟩ | ⟨-, rfl⟩ <;> simp [Worker.sees]
  | pushes hu =>
    obtain ⟨n, cn, hb⟩ := h
    exact ⟨n, cn.keep (by rw [hu]; rfl), hb⟩
  | enqueues hu =>
    obtain ⟨n, cn, hb⟩ := h
    refine ⟨n + 1, cn.enter (by rw [hu]; rfl) rfl, fun w hw => ?_⟩
    have : s.q.length ≤ n := hb w hw
    simpa using this
  | clientLocks hu =>
    obtain ⟨n, cn, hb⟩ := h
    exact ⟨n, cn.keep (by rw [hu]; rfl), hb⟩
  | @clientUnlocks _ u hu =>
    obtain ⟨n, cn, hb⟩ := h
    exact ⟨n, cn.keep (by rw [hu]; rfl), hb⟩
  | @notifiesNobody _ u hu =>
    obtain ⟨n, cn, -⟩ := h
    obtain ⟨n, rfl, cn'⟩ := cn.leave (u := u) (x := .unlock) (by rw [hu]; rfl) rfl
    exact .of_inside (p := .client u) ⟨n, cn'⟩ hl (by simp [inside, hu, Client.hasMutex]) (by simp)
      fun _ hw => hw
  | @notifies _ u w hu hw =>
    obtain ⟨n, cn, -⟩ := h
    obtain ⟨n, rfl, cn'⟩ := cn.leave (u := u) (x := .unlock) (by rw [hu]; rfl) rfl
    refine .of_inside (p := .client u) ⟨n, cn'⟩ hl (by simp [inside, hu, Client.hasMutex]) (by simp) ?_
    intro v hv
    by_cases e : v = w
    · simp [e, Worker.sees] at hv
    · simpa [e] using hv
  | removes | deletes =>
    obtain ⟨n, cn, hb⟩ := h
    exact ⟨n, cn, fun w hw => List.length_erase_le.trans (hb w hw)⟩
  | starts => exact h.worker (c := .pop) (w := s.started) rfl rfl le_rfl (by simp [Worker.sees])
  | notifiesAll ho =>
    obtain ⟨n, cn, -⟩ := h
    refine .of_inside (p := .owner) ⟨n, cn⟩ hl (by simp [inside, ho, Owner.hasMutex]) (by simp) ?_
    intro v hv
    by_cases e : s.worker v = .blocked
    · simp [e, Worker.sees] at hv
    · simpa [e] using hv
  | _ => exact h

/-! ### Runs in which no push overlaps `stop(true)` -/

/-- **No push overlaps `stop(true)`**: none is in progress when it is called, and none is
begun later. The pool has a thread then. -/
def Calm (s : State) (a : Action) : Prop :=
  (a = .stop true → s.threads ≠ [] ∧ ∀ u, s.client u = .idle) ∧
    ∀ u, a = .push u → s.isDone = false

/-- **After `stop(true)` nobody pushes.** -/
def Quiet (s : State) : Prop := s.isDone = true → ∀ u, s.client u = .idle

theorem Quiet.step (h : s.Quiet) (ha : s.Calm a) (hs : Moves s a s') : s'.Quiet := by
  have key : ∀ u, s.client u ≠ .idle → s.isDone = true → ∀ v, s'.client v = .idle :=
    fun u hu hd => absurd (h hd u) hu
  cases hs with
  | @pushes u hu => exact fun hd => absurd ((ha.2 u rfl).symm.trans hd) nofun
  | finishes => exact fun _ => (ha.1 rfl).2
  | enqueues hu | clientLocks hu | notifiesNobody hu | notifies hu | clientUnlocks hu =>
    exact key _ (by rw [hu]; nofun)
  | _ => exact h

/-- **A thread that was not told to stop leaves when there is nothing to do.** -/
def Gone (s : State) : Prop :=
  ∀ w, s.flag w = false → (s.worker w).gone = true → s.isDone = true ∧ s.q = []

/-- The rule for a step of a thread. -/
theorem Gone.worker {t : State} {c : Worker} (h : s.Gone)
    (hw : t.worker = Function.update s.worker w c)
    (ht : t.isDone = s.isDone ∧ (∀ v, v = w ∨ t.flag v = s.flag v) ∧ (s.q = [] → t.q = []))
    (hc : t.flag w = false → c.gone = true →
      s.flag w = false ∧ (s.worker w).gone = true ∨ s.isDone = true ∧ s.q = []) : t.Gone := by
  obtain ⟨hd, hf, hq⟩ := ht
  have key : ∀ v, t.flag v = false → (t.worker v).gone = true → s.isDone = true ∧ s.q = [] := by
    intro v hv hg
    rw [hw] at hg
    by_cases e : v = w
    · subst e
      rw [Function.update_self] at hg
      exact (hc hv hg).elim (fun h' => h v h'.1 h'.2) id
    · rw [Function.update_of_ne e] at hg
      exact h v (((hf v).resolve_left e).symm.trans hv) hg
  intro v hv hg
  obtain ⟨hd', hq'⟩ := key v hv hg
  exact ⟨hd.trans hd', hq hq'⟩

theorem Gone.step (h : s.Gone) (hQ : s.Quiet) (hS : s.Seen) (hs : Moves s a s') : s'.Gone := by
  cases hs with
  | @turns _ w c ht =>
    refine h.worker (w := w) (c := c) rfl ⟨rfl, fun _ => .inr rfl, id⟩ fun hf hc => ?_
    generalize hw : s.worker w = d at ht
    cases ht with
    | done hd =>
      obtain ⟨n, cn, hb⟩ := hS
      obtain rfl : n = 0 := cn.eq_zero fun u => by rw [hQ hd u]; rfl
      exact .inr ⟨hd, List.length_eq_zero_iff.mp (Nat.le_zero.mp (hb w (by rw [hw]; rfl)))⟩
    | retires ht | flagged ht => exact absurd (ht.symm.trans hf) nofun
    | _ => cases hc
  | takes ht hw =>
    have hne : s.q ≠ [] := List.ne_nil_of_mem ht
    refine h.worker (c := _) rfl ⟨rfl, fun _ => .inr rfl, fun hq => absurd hq hne⟩ ?_
    rcases hw with ⟨-, rfl⟩ | ⟨-, rfl⟩ <;> nofun
  | ends | enters => exact h.worker (c := _) rfl ⟨rfl, fun _ => .inr rfl, id⟩ nofun
  | locks _ hw =>
    refine h.worker (c := _) rfl ⟨rfl, fun _ => .inr rfl, id⟩ ?_
    rcases hw with ⟨-, rfl⟩ | ⟨-, rfl⟩ <;> nofun
  | @leaves _ w f hw =>
    refine h.worker (c := _) rfl ⟨rfl, fun _ => .inr rfl, id⟩ fun hf hg => .inl ⟨hf, ?_⟩
    rw [hw]
    cases f with
    | none => rfl
    | some t => cases hg
  | unlocks hw =>
    refine h.worker (c := _) rfl ⟨rfl, fun _ => .inr rfl, id⟩ fun hf hg => .inl ⟨hf, ?_⟩
    rcases hw with ⟨-, rfl⟩ | ⟨t, -, rfl⟩ | ⟨hw, -⟩
    · cases hg
    · cases hg
    · rw [hw]
      rfl
  | enqueues hu =>
    intro v hv hg
    have hc := hQ (h v hv hg).1
    exact absurd ((hc _).symm.trans hu) nofun
  | notifies =>
    exact h.worker (t := (s.setClient _ _).setWorker _ _) (c := .woken) rfl
      ⟨rfl, fun _ => .inr rfl, id⟩ nofun
  | removes ht | deletes ht =>
    intro v hv hg
    exact absurd (h v hv hg).2 (List.ne_nil_of_mem ht)
  | starts =>
    refine h.worker (c := .pop) (w := s.started) rfl ⟨rfl, fun v => ?_, id⟩ nofun
    by_cases e : v = s.started
    · exact .inl e
    · exact .inr (by simp [e])
  | @detaches _ i n w _ _ _ | @flags _ i w _ _ =>
    intro v hv hg
    by_cases e : v = w
    · simp [e] at hv
    · exact h v (by simpa [e] using hv) hg
  | notifiesAll =>
    intro v hv hg
    by_cases e : s.worker v = .blocked
    · simp [e, Worker.gone] at hg
    · exact h v hv (by simpa [e] using hg)
  | finishes => exact fun v hv hg => ⟨rfl, (h v hv hg).2⟩
  | _ => exact h

/-- The owner has joined the threads, or does nothing. -/
def joinedAll (s : State) : Prop :=
  s.owner = .idle ∨ s.owner = .clearLast ∨ s.owner = .clearThreads

/-- **`stop(true)` finds nothing to delete.** -/
structure Drained (s : State) : Prop where
  threads : s.isDone = true → s.isStop = false → s.owner.stopping = true → s.threads ≠ []
  q : s.isDone = true → s.isStop = false → s.joinedAll → s.q = []
  deleted : s.isStop = false → s.deleted = []

theorem init_drained : init.Drained := ⟨nofun, nofun, fun _ => rfl⟩

theorem Drained.q_of_joined (h : s.Drained) (hG : s.Gone) (hR : s.Roster) (hd : s.isDone = true)
    (hs : s.isStop = false) {i : ℕ} (ho : s.owner = .join i) (hi : s.threads.length ≤ i) :
    s.q = [] := by
  have hne := h.threads hd hs (by rw [ho]; rfl)
  have hlen : 0 < s.threads.length := List.length_pos_iff.mpr hne
  obtain ⟨w, hw⟩ : ∃ w, s.threads[0]? = some w := ⟨_, List.getElem?_eq_getElem hlen⟩
  have he : s.worker w = .exited := hR.joined 0 w hw (by simp [ho, Owner.joined]; omega)
  have hf : s.flag w = false := by
    rw [hR.flag 0 w hw, ho]
    exact hs
  exact (hG w hf (by rw [he]; rfl)).2

/-- `stop(true)` has not been called. -/
theorem Drained.of_isDone (h : s.Drained) {t : State} (hd : t.isDone = false)
    (hs : t.isStop = s.isStop) (hx : t.deleted = s.deleted) : t.Drained where
  threads h₁ := by simp [hd] at h₁
  q h₁ := by simp [hd] at h₁
  deleted h₁ := hx.trans (h.deleted (hs.symm.trans h₁))

/-- The owner stays in `stop`, and has not joined all threads. -/
theorem Drained.of_stopping (h : s.Drained) {t : State}
    (ht : t.owner.stopping = true → s.owner.stopping = true) (hj : ¬ t.joinedAll)
    (he : t.threads = s.threads ∧ t.isDone = s.isDone ∧ t.isStop = s.isStop ∧
      t.deleted = s.deleted) : t.Drained := by
  obtain ⟨h₁, h₂, h₃, h₄⟩ := he
  refine ⟨fun hd hs ho => ?_, fun _ _ hj' => absurd hj' hj, fun hs => ?_⟩
  · rw [h₁]
    exact h.threads (h₂ ▸ hd) (h₃ ▸ hs) (ht ho)
  · rw [h₄]
    exact h.deleted (h₃ ▸ hs)

theorem Roster.isDone_eq_false (h : s.Roster) (ho : s.owner.stopping = false)
    (hi : s.owner ≠ .idle) : s.isDone = false := by
  have := h.unstopped ho hi
  simp only [not_or, Bool.not_eq_true] at this
  exact this.1

theorem Drained.ownerTurn (h : s.Drained) (hG : s.Gone) (hR : s.Roster) (ha : a.sure = true)
    {o : Owner} (ht : OwnerTurn s a s.owner o) : (s.setOwner o).Drained := by
  have hd := hR.isDone_eq_false
  have hst := h.of_stopping (t := s.setOwner o)
  generalize ho : s.owner = o' at ht hd hst
  cases ht with
  | grows hd₁ | shrinks hd₁ => exact h.of_isDone hd₁ rfl rfl
  | grown | detached => exact h.of_isDone (hd rfl (by simp)) rfl rfl
  | allFlagged | cleared | skips =>
    exact hst (fun _ => rfl) (by simp [joinedAll]) ⟨rfl, rfl, rfl, rfl⟩
  | joined hi =>
    exact ⟨fun hd hs _ => h.threads hd hs (by rw [ho]; rfl),
      fun hd hs _ => h.q_of_joined hG hR hd hs ho hi, h.deleted⟩
  | clearedLast hq =>
    exact ⟨fun hd hs _ => h.threads hd hs (by rw [ho]; rfl), fun _ _ _ => hq ha, h.deleted⟩

theorem Drained.step (h : s.Drained) (hQ : s.Quiet) (hG : s.Gone) (hR : s.Roster)
    (ha : s.Calm a) (hsure : a.sure = true) (hs : Moves s a s') : s'.Drained := by
  have hd := hR.isDone_eq_false
  have hne : ∀ {t}, t ∈ s.q → s.isDone = true → s.isStop = false → ¬ s.joinedAll :=
    fun ht hd hs hj => List.ne_nil_of_mem ht (h.q hd hs hj)
  cases hs with
  | takes ht => exact ⟨h.threads, fun hd hs hj => absurd hj (hne ht hd hs), h.deleted⟩
  | removes ht => exact ⟨h.threads, fun hd hs hj => absurd hj (hne ht hd hs), h.deleted⟩
  | @enqueues _ u hc =>
    refine ⟨h.threads, fun hd => ?_, h.deleted⟩
    have := hQ hd u
    rw [hc] at this
    cases this
  | deletes ht ho =>
    refine ⟨h.threads, fun hd hs hj => absurd hj (hne ht hd hs), fun hs => ?_⟩
    have hs' : s.isStop = false := hs
    rcases ho with ho | ho
    · have := hR.aborting (by rw [ho]; rfl)
      rw [hs'] at this
      cases this
    · have hd : s.isDone = true := (hR.stopping (by rw [ho]; rfl)).resolve_right (by simp [hs'])
      exact absurd (.inr (.inl ho)) (hne ht hd hs')
  | ownerTurns ht => exact h.ownerTurn hG hR hsure ht
  | starts ho =>
    have hst : s.owner.stopping = false := by
      rw [ho]
      rfl
    exact h.of_isDone (hd hst (by simp [ho])) rfl rfl
  | detaches ho | truncates ho =>
    exact h.of_isDone (hd (by rw [ho]; rfl) (by simp [ho])) rfl rfl
  | flags ho | joins ho =>
    exact h.of_stopping (fun _ => by rw [ho]; rfl) (by simp [joinedAll]) ⟨rfl, rfl, rfl, rfl⟩
  | @ownerLocks _ r ho | @notifiesAll _ r ho =>
    refine h.of_stopping (fun ht => ?_) (by simp [joinedAll]) ⟨rfl, rfl, rfl, rfl⟩
    rw [ho]
    cases r <;> first | rfl | cases ht
  | @ownerUnlocks _ r ho =>
    refine h.of_stopping (fun ht => ?_) ?_ ⟨rfl, rfl, rfl, rfl⟩
    · rw [ho]
      cases r <;> first | rfl | cases ht
    · cases r <;> simp [joinedAll, afterNotify]
  | finishes => exact ⟨fun _ _ _ => (ha.1 rfl).1, fun _ _ => by simp [joinedAll], h.deleted⟩
  | stops => exact ⟨by simp, by simp, by simp⟩
  | clearsThreads ho =>
    exact ⟨by simp [Owner.stopping], fun hd hs _ => h.q hd hs (.inr (.inr ho)), h.deleted⟩
  | _ => exact ⟨h.threads, h.q, h.deleted⟩

/-- No push overlaps `stop(true)`, and `q.pop` fails only if the queue is empty. -/
def SureAndCalm (s : State) (a : Action) : Prop := Sure s a ∧ s.Calm a

/-- What holds in every state of a run in which no push overlaps `stop(true)`. -/
structure Ending (s : State) : Prop where
  seen : s.Seen
  quiet : s.Quiet
  gone : s.Gone
  drained : s.Drained

theorem init_ending : init.Ending where
  seen := init_seen
  quiet := nofun
  gone := nofun
  drained := init_drained

theorem ending_of_reach (h : Reach step SureAndCalm init s) : s.Ending := by
  refine h.invariant init_ending fun s a s' hr hE ⟨hsure, ha⟩ hs => ?_
  have hm := step_spec hs
  have hR := roster_of_reach hr
  exact ⟨hE.seen.step (waiting_of_reach hr).locked hsure hm, hE.quiet.step ha hm,
    hE.gone.step hE.quiet hE.seen hm, hE.drained.step hE.quiet hE.gone hR ha hsure hm⟩

/-- **When `stop(true)` has returned, everything has been run** but what users have taken
and what detached threads are running, and `stop` has deleted nothing. -/
theorem drained (h : Reach step SureAndCalm init s) (hs : s.isStop = false) : s.deleted = [] ∧
    (s.isDone = true → s.owner = .idle → s.q = [] ∧ ∀ t < s.pushed,
      t ∈ s.ran ∨ t ∈ s.removed ∨ ∃ w, s.flag w = true ∧ (s.worker w).task = some t) := by
  have hE := ending_of_reach h
  have hR := roster_of_reach h
  refine ⟨hE.drained.deleted hs, fun hd ho => ?_⟩
  have hq : s.q = [] := hE.drained.q hd hs (.inl ho)
  refine ⟨hq, fun t ht => ?_⟩
  obtain ⟨p, hp⟩ := (exists_at_iff s t).mpr (((kept_of_reach h).all t).mpr ht)
  cases p with
  | queued =>
    have : t ∈ s.q := hp
    rw [hq] at this
    cases this
  | held w =>
    have hp' : (s.worker w).task = some t := hp
    refine .inr (.inr ⟨w, ?_, hp'⟩)
    have hlt : w < s.started := Nat.lt_of_not_le fun hle => by
      rw [((waiting_of_reach h).numbered w).mpr hle] at hp'
      cases hp'
    have hnil : s.threads = [] := (hR.stopped (.inl hd) (by rw [ho]; rfl)).1
    refine (hR.released w hlt (by rw [hnil]; exact List.not_mem_nil)).resolve_right fun he => ?_
    rw [he] at hp'
    cases hp'
  | ran => exact .inl hp
  | removed => exact .inr (.inl hp)
  | deleted =>
    have : t ∈ s.deleted := hp
    rw [hE.drained.deleted hs] at this
    cases this

/-- One thread is started and one task pushed. -/
def onePush : List Action := [.resize 1, .own, .own, .push 0] ++ List.replicate 4 (.client 0)

/-- `stop(true)` goes to its end, and the thread runs the task meanwhile. -/
def stopped : List Action :=
  List.replicate 3 .own ++ .take 0 0 :: List.replicate 10 (.work 0) ++ List.replicate 4 .own

/-- Only `stop(true)` sets `isDone`. -/
theorem isDone_eq_false (h : Reach step (fun _ a => a ≠ .stop true) init s) : s.isDone = false := by
  refine h.invariant (I := fun s => s.isDone = false) rfl fun s a s' _ hd ha hs => ?_
  cases step_spec hs with
  | finishes => exact absurd rfl ha
  | _ => exact hd

/-- Who has not called `push` is idle. -/
theorem client_eq_idle {as : List Action} {u : ℕ} (h : run step init as = some s)
    (hu : .push u ∉ as) : s.client u = .idle := by
  refine run_invariant (I := fun s => s.client u = .idle) rfl (fun s a ha s' hc hs => ?_) h
  have key : ∀ v c, s.client v ≠ .idle → Function.update s.client v c u = .idle := by
    intro v c hv
    have : u ≠ v := by
      rintro rfl
      exact hv hc
    rwa [Function.update_of_ne this]
  cases step_spec hs with
  | @pushes v _ =>
    have : u ≠ v := by
      rintro rfl
      exact hu ha
    rwa [setClient_client, Function.update_of_ne this]
  | enqueues hv | clientLocks hv | notifiesNobody hv | notifies hv | clientUnlocks hv =>
    exact key _ _ (by rw [hv]; nofun)
  | _ => exact hc

theorem drained_onePush : ∃ s, run step init (onePush ++ .stop true :: stopped) = some s ∧
    s.ran = [0] ∧ s.deleted = [] := by
  obtain ⟨s₁, h₁, hc⟩ : ∃ s, run step init onePush = some s ∧
      (s.client 0, s.threads) = (.idle, [0]) := Option.map_eq_some_iff.mp (by decide +kernel)
  obtain ⟨hc, ht⟩ := Prod.mk.inj hc
  have hu : ∀ u, s₁.client u = .idle := by
    intro u
    by_cases e : u = 0
    · rw [e, hc]
    · exact client_eq_idle h₁ (by simpa [onePush] using e)
  obtain ⟨s, hs, hr⟩ : ∃ s, run step init (onePush ++ .stop true :: stopped) = some s ∧
      (s.ran, s.isStop) = ([0], false) := Option.map_eq_some_iff.mp (by decide +kernel)
  obtain ⟨hr, hf⟩ := Prod.mk.inj hr
  obtain ⟨s₂, h₂, h₃⟩ : ∃ s₂, s₁.step (.stop true) = some s₂ ∧ run step s₂ stopped = some s := by
    rw [run_append, h₁, Option.bind_some, run] at hs
    exact Option.bind_eq_some_iff.mp hs
  have r₁ : Reach step (fun _ a => a.sure = true ∧ a ≠ .stop true) init s₁ :=
    .of_run onePush (fun _ a ha => by revert a; decide) h₁
  have r₁' : Reach step SureAndCalm init s₁ := r₁.simulate (f := id) fun t a t' hr ha ht =>
    .single ⟨ha.1, fun e => absurd e ha.2,
      fun _ _ => isDone_eq_false (hr.mono fun _ _ h => h.2)⟩ ht
  have r₂ : Reach step SureAndCalm s₂ s := by
    refine .of_run stopped (fun t a ha => ?_) h₃
    have : a = .own ∨ a = .take 0 0 ∨ a = .work 0 := by
      revert a
      decide
    rcases this with rfl | rfl | rfl <;> exact ⟨rfl, by simp [Calm]⟩
  have hstop : s₁.SureAndCalm (.stop true) := ⟨rfl, fun _ => ⟨by simp [ht], hu⟩, by simp⟩
  have r := (r₁'.tail hstop h₂).trans r₂
  exact ⟨s, hs, hr, (drained r hf).1⟩

/-- A push that overlaps `stop(true)`: the thread has found the queue empty before the task
came, and reads `isDone` after that. -/
def overlapping : List Action := [.resize 1, .own, .own, .work 0, .work 0, .work 0, .work 0, .push 0,
  .client 0, .stop true, .work 0, .work 0, .work 0, .own, .own, .own, .own, .own, .clear 0, .own, .own]

example : (run step init overlapping).map (fun s => (s.owner, s.ran, s.deleted)) =
    some (.idle, [], [0]) := by
  decide +kernel

/-! ### What is left of the threads -/

/-- `resize` detaches no thread. -/
def Grows (s : State) (a : Action) : Prop := ∀ n, a = .resize n → s.threads.length ≤ n

/-- **No thread has been detached**: what is not in the vector has returned. -/
structure Attached (s : State) : Prop where
  owner : s.owner.shrinks = false
  exited : ∀ w < s.started, w ∉ s.threads → s.worker w = .exited

theorem init_attached : init.Attached := ⟨rfl, fun _ h => absurd h (Nat.not_lt_zero _)⟩

theorem Attached.step (h : s.Attached) (hn : s.Numbered) (hR : s.Roster) (ha : s.Grows a)
    (hs : Moves s a s') : s'.Attached := by
  have hx : ∀ w, s.worker w = .exited → s'.worker w = .exited := fun w => exited_of_moves hn hs
  have keep : s'.started = s.started → s'.threads = s.threads →
      ∀ w < s'.started, w ∉ s'.threads → s'.worker w = .exited := by
    intro h₁ h₂ w hw hl
    rw [h₁] at hw
    rw [h₂] at hl
    exact hx w (h.exited w hw hl)
  have ho := h.owner
  cases hs with
  | ownerTurns ht =>
    refine ⟨?_, keep rfl rfl⟩
    generalize s.owner = o at ht ho
    cases ht with
    | shrinks _ _ hn => exact absurd (ha _ rfl) (Nat.not_le.mpr hn)
    | detached => cases ho
    | _ => rfl
  | starts =>
    refine ⟨ho, fun w hw hl => ?_⟩
    have hl' : w ∉ s.threads ∧ w ≠ s.started := by simpa using hl
    have hlt : w < s.started := by
      have : w < s.started + 1 := hw
      omega
    exact hx w (h.exited w hlt hl'.1)
  | detaches hd | truncates hd =>
    rw [hd] at ho
    cases ho
  | @ownerLocks _ r hd | @notifiesAll _ r hd =>
    refine ⟨?_, keep rfl rfl⟩
    rw [hd] at ho
    cases r with
    | shrink n => cases ho
    | stop => rfl
  | @ownerUnlocks _ r hd =>
    refine ⟨?_, keep rfl rfl⟩
    rw [hd] at ho
    cases r with
    | shrink n => cases ho
    | stop => rfl
  | flags | joins | finishes | stops => exact ⟨rfl, keep rfl rfl⟩
  | clearsThreads hd =>
    refine ⟨rfl, fun w hw _ => hx w ?_⟩
    by_cases hmem : w ∈ s.threads
    · obtain ⟨j, hj⟩ := List.mem_iff_getElem?.mp hmem
      exact hR.joined j w hj (by rw [hd]; rfl)
    · exact h.exited w hw hmem
  | _ => exact ⟨ho, keep rfl rfl⟩

theorem attached_of_reach (h : Reach step Grows init s) : s.Attached :=
  h.invariant init_attached fun _ _ _ hr hA ha hs =>
    hA.step (waiting_of_reach hr).numbered (roster_of_reach hr) ha (step_spec hs)

/-- **When `stop` has returned, every thread has**, and none was destroyed while it was
joinable. Those that `resize` has detached have been told to return. -/
theorem returned_of_stopped (h : Reach step Any init s) (ho : s.owner = .idle)
    (hd : s.isDone = true ∨ s.isStop = true) : s.threads = [] ∧ s.terminated = false ∧
    (∀ w < s.started, s.worker w = .exited ∨ s.flag w = true) ∧
    (Reach step Grows init s → ∀ w < s.started, s.worker w = .exited) := by
  have hR := roster_of_reach h
  have hnil : s.threads = [] := (hR.stopped hd (by rw [ho]; rfl)).1
  have hn : ∀ w, w ∉ s.threads := fun w => by rw [hnil]; exact List.not_mem_nil
  exact ⟨hnil, hR.alive, fun w hw => (hR.released w hw (hn w)).symm,
    fun hg w hw => (attached_of_reach hg).exited w hw (hn w)⟩

theorem returned_of_stopped_onePush : ∃ s, run step init (onePush ++ .stop true :: stopped) = some s ∧
    s.threads = [] ∧ s.terminated = false := by
  obtain ⟨s, hs, hr⟩ : ∃ s, run step init (onePush ++ .stop true :: stopped) = some s ∧
      (s.owner, s.isDone) = (.idle, true) := Option.map_eq_some_iff.mp (by decide +kernel)
  obtain ⟨ho, hd⟩ := Prod.mk.inj hr
  have h := returned_of_stopped (.of_run _ (fun _ _ _ => trivial) hs) ho (.inl hd)
  exact ⟨s, hs, h.1, h.2.1⟩

/-! ### A thread whose flag is set -/

/-- Thread `w` takes a task. -/
def isTake (w : ℕ) : Action → Bool
  | .take v _ => v = w
  | _ => false

/-- A thread that was told to stop has been started. -/
theorem lt_of_flag (h : Reach step Any init s) (hf : s.flag w = true) : w < s.started := by
  refine h.invariant (I := fun s => ∀ w, s.flag w = true → w < s.started) nofun ?_ w hf
  intro s a s' hr hI _ hs w hf
  have hR := roster_of_reach hr
  cases step_spec hs with
  | starts =>
    have : w = s.started ∨ w < s.started := by
      by_cases e : w = s.started
      · exact .inl e
      · exact .inr (hI w (by simpa [e] using hf))
    show w < s.started + 1
    omega
  | @detaches _ i n v _ _ hv | @flags _ i v _ hv =>
    by_cases e : w = v
    · exact e ▸ hR.lt v (List.mem_of_getElem? hv)
    · exact hI w (by simpa [e] using hf)
  | _ => exact hI w hf

/-- A thread that can take no more tasks stays like that, and a flag stays set. -/
theorem more_le_of_moves (hw : w < s.started) (hf : s.flag w = true)
    (hs : Moves s a s') : s'.flag w = true ∧ w < s'.started ∧
      (s'.worker w).more ≤ (s.worker w).more := by
  have key : ∀ v c, c.more ≤ (s.worker v).more →
      (Function.update s.worker v c w).more ≤ (s.worker w).more := by
    intro v c hc
    by_cases e : w = v
    · rw [e, Function.update_self]
      exact hc
    · rw [Function.update_of_ne e]
  cases hs with
  | @turns _ v c ht =>
    refine ⟨hf, hw, ?_⟩
    by_cases e : w = v
    · subst e
      rw [setWorker_worker, Function.update_self]
      generalize s.worker w = d at ht
      cases ht with
      | goesOn hf' => exact absurd (hf'.symm.trans hf) nofun
      | _ => simp [Worker.more]
    · simp [e]
  | takes _ hv | locks _ hv =>
    refine ⟨hf, hw, key _ _ ?_⟩
    rcases hv with ⟨hv, rfl⟩ | ⟨hv, rfl⟩ <;> simp [hv, Worker.more]
  | unlocks hv =>
    refine ⟨hf, hw, key _ _ ?_⟩
    rcases hv with ⟨hv, rfl⟩ | ⟨t, hv, rfl⟩ | ⟨hv, rfl⟩ <;> simp [hv, Worker.more]
  | ends hv | enters hv | leaves hv | notifies _ hv =>
    refine ⟨hf, hw, key _ _ ?_⟩
    simp [hv, Worker.more]
  | starts =>
    have hne : w ≠ s.started := hw.ne
    refine ⟨by simpa [hne] using hf, hw.trans (Nat.lt_succ_self _), by simp [hne]⟩
  | @detaches _ i n v | @flags _ i v =>
    refine ⟨?_, hw, le_rfl⟩
    by_cases e : w = v <;> simp [e, hf]
  | notifiesAll =>
    refine ⟨hf, hw, ?_⟩
    by_cases e : s.worker w = .blocked
    · simp [e, Worker.more]
    · simp [e]
  | _ => exact ⟨hf, hw, le_rfl⟩

theorem more_of_take (h : s.step (.take w t) = some s') :
    (s.worker w).more = 1 ∧ (s'.worker w).more = 0 := by
  simp only [step, Option.ite_none_right_eq_some] at h
  obtain ⟨-, h⟩ := h
  split at h <;> rename_i hw
  · cases h
    simp [hw, Worker.more]
  · cases h
    simp [hw, Worker.more]
  · cases h

/-- **A thread takes at most one more task after its flag was set.** -/
theorem takes_le_one (h : Reach step Any init s) (hf : s.flag w = true) {as : List Action}
    (hr : run step s as = some s') : as.countP (isTake w) ≤ 1 := by
  have key : ∀ (as : List Action) (s : State), Reach step Any init s → s.flag w = true →
      run step s as = some s' → as.countP (isTake w) ≤ (s.worker w).more := by
    intro as
    induction as with
    | nil => exact fun _ _ _ _ => Nat.zero_le _
    | cons a as ih =>
      intro s h hf hr
      obtain ⟨s₁, h₁, h₂⟩ := Option.bind_eq_some_iff.mp hr
      obtain ⟨hf₁, -, hle⟩ := more_le_of_moves (lt_of_flag h hf) hf (step_spec h₁)
      have hcount := ih s₁ (h.tail trivial h₁) hf₁ h₂
      rw [List.countP_cons]
      cases ht : isTake w a with
      | false =>
        simp only [Bool.false_eq_true, if_false]
        omega
      | true =>
        obtain ⟨t, rfl⟩ : ∃ t, a = .take w t := by
          cases a with
          | take v t =>
            obtain rfl : v = w := by simpa [isTake] using ht
            exact ⟨t, rfl⟩
          | _ => cases ht
        have := more_of_take h₁
        simp only [if_true]
        omega
  refine (key as s h hf hr).trans ?_
  cases s.worker w <;> simp [Worker.more]

/-- A thread is detached before it looks at the queue for the first time. -/
def detached : List Action := [.resize 1, .own, .own, .push 0, .client 0, .resize 0, .own]

theorem takes_le_one_detached : ∃ s s', run step init detached = some s ∧
    run step s [.take 0 0, .work 0, .work 0, .work 0] = some s' ∧ s'.worker 0 = .exited ∧
    List.countP (isTake 0) [.take 0 0, .work 0, .work 0, .work 0] ≤ 1 := by
  obtain ⟨s', hs', he⟩ : ∃ s', run step init (detached ++ [.take 0 0, .work 0, .work 0, .work 0]) =
      some s' ∧ s'.worker 0 = .exited := Option.map_eq_some_iff.mp (by decide +kernel)
  obtain ⟨s, hs, hf⟩ : ∃ s, run step init detached = some s ∧ s.flag 0 = true :=
    Option.map_eq_some_iff.mp (by decide +kernel)
  rw [run_append, hs, Option.bind_some] at hs'
  exact ⟨s, s', hs, hs', he, takes_le_one (.of_run _ (fun _ _ _ => trivial) hs) hf hs'⟩

end State

end MutilsTasks.ThreadPool
