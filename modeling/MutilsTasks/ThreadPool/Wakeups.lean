import MutilsTasks.Library.Census
import MutilsTasks.Library.Mutex
import MutilsTasks.ThreadPool.Pool

/-!
# No thread of the pool sleeps beside work

`push` enqueues its task before it locks `mutex`, and a thread looks at the queue with
`mutex` locked before it blocks. A thread that has found the queue empty and a task that
comes later are therefore never without a notification between them: unless a thread was
refused a task, while a thread is blocked there are at most as many tasks in the queue as
clients that have yet to notify and threads that have been woken and have yet to look (`Served`).

In the same way a thread that is blocked has not been told to stop, unless the owner has yet
to call `notify_all` (`Told`). `nWaiting` counts the threads between its two changes.
-/

namespace MutilsTasks.ThreadPool

open Machine

namespace Worker

/-- The thread has `mutex` locked. -/
def hasMutex : Worker → Bool
  | .enter | .popAgain | .readDone | .readFlag | .block | .leave _ | .unlock _ => true
  | _ => false

/-- The thread will look at the queue because it was woken, or is about to wait. -/
def looks : Worker → Bool
  | .popAgain | .woken => true
  | _ => false

/-- The thread has found the queue empty, and will not look again unless it is woken. -/
def missed : Worker → Bool
  | .readDone | .readFlag | .block | .blocked => true
  | _ => false

/-- The thread has read its flag and will not read it again unless it is woken. -/
def asleep : Worker → Bool
  | .block | .blocked => true
  | _ => false

/-- The thread is counted in `nWaiting`. -/
def waits : Worker → Bool
  | .popAgain | .readDone | .readFlag | .block | .blocked | .woken | .leave _ => true
  | _ => false

end Worker

namespace Client

/-- The client has `mutex` locked. -/
def hasMutex : Client → Bool
  | .notify | .unlock => true
  | _ => false

/-- The client has enqueued its task and has yet to notify. -/
def owes : Client → Bool
  | .lock | .notify => true
  | _ => false

end Client

namespace Owner

/-- The owner has `mutex` locked. -/
def hasMutex : Owner → Bool
  | .notify _ | .unlock _ => true
  | _ => false

/-- The owner has yet to call `notify_all`. -/
def tells : Owner → Bool
  | .detach _ _ | .setFlag _ | .clear | .lock _ | .notify _ => true
  | _ => false

end Owner

namespace State

variable {s s' : State} {a : Action} {w : ℕ}

/-- The party is where it has `mutex` locked. -/
def inside (s : State) : Party → Bool
  | .worker w => (s.worker w).hasMutex
  | .client u => (s.client u).hasMutex
  | .owner => s.owner.hasMutex

theorem inside_setWorker (s : State) (w : ℕ) (c : Worker) (p : Party) :
    (s.setWorker w c).inside p = if p = .worker w then c.hasMutex else s.inside p := by
  cases p with
  | worker v =>
    by_cases h : v = w
    · subst h
      simp [inside]
    · simp [inside, h]
  | client u | owner => simp [inside]

theorem inside_setClient (s : State) (u : ℕ) (c : Client) (p : Party) :
    (s.setClient u c).inside p = if p = .client u then c.hasMutex else s.inside p := by
  cases p with
  | client v =>
    by_cases h : v = u
    · subst h
      simp [inside]
    · simp [inside, h]
  | worker u | owner => simp [inside]

theorem inside_setOwner (s : State) (o : Owner) (p : Party) :
    (s.setOwner o).inside p = if p = .owner then o.hasMutex else s.inside p := by
  cases p <;> simp [inside]

theorem inside_notifyAll (s : State) (p : Party) : s.notifyAll.inside p = s.inside p := by
  cases p with
  | worker v =>
    by_cases h : s.worker v = .blocked <;> simp [inside, h, Worker.hasMutex]
  | client u | owner => rfl

/-- A started thread is somewhere in its code. -/
def Numbered (s : State) : Prop := ∀ w, s.worker w = .absent ↔ s.started ≤ w

/-- **Only the party that has `mutex` locked is inside.** -/
abbrev Locked (s : State) : Prop := Guards s.inside s.mutex

end State

/-! ### The numbers of the threads -/

namespace Turn

variable {a : Action} {s : State} {w : ℕ} {c d : Worker}

theorem keeps (h : Turn a s w c d) : c ≠ .absent ∧ d ≠ .absent ∧ d.hasMutex = c.hasMutex ∧
    d.waits = c.waits := by
  cases h <;> exact ⟨nofun, nofun, rfl, rfl⟩

end Turn

namespace OwnerTurn

variable {s : State} {a : Action} {o o' : Owner}

theorem keeps (h : OwnerTurn s a o o') :
    o'.hasMutex = o.hasMutex ∧ (o.tells = true → o'.tells = true) := by
  cases h <;> exact ⟨rfl, by simp [Owner.tells]⟩

end OwnerTurn

namespace State

variable {s s' : State} {a : Action} {w : ℕ}

theorem Numbered.of_setWorker (h : s.Numbered) {c : Worker} (hw : s.worker w ≠ .absent)
    (hc : c ≠ .absent) : (s.setWorker w c).Numbered := by
  intro v
  by_cases e : v = w
  · subst e
    simpa [hc] using (h v).not.mp hw
  · simpa [e] using h v

theorem Numbered.step (h : s.Numbered) (hs : Moves s a s') : s'.Numbered := by
  cases hs with
  | turns ht => exact h.of_setWorker ht.keeps.1 ht.keeps.2.1
  | takes _ hw => 
    refine Numbered.of_setWorker (s := { s with q := _ }) h ?_ ?_ <;>
      rcases hw with ⟨hw, rfl⟩ | ⟨hw, rfl⟩ <;> simp [hw]
  | ends hw => exact Numbered.of_setWorker (s := { s with ran := _ }) h (by simp [hw]) nofun
  | locks _ hw =>
    refine Numbered.of_setWorker (s := { s with mutex := _ }) h ?_ ?_ <;>
      rcases hw with ⟨hw, rfl⟩ | ⟨hw, rfl⟩ <;> simp [hw]
  | enters hw | leaves hw =>
    exact Numbered.of_setWorker (s := { s with nWaiting := _ }) h (by simp [hw]) nofun
  | unlocks hw =>
    refine Numbered.of_setWorker (s := { s with mutex := _ }) h ?_ ?_ <;>
      rcases hw with ⟨hw, rfl⟩ | ⟨t, hw, rfl⟩ | ⟨hw, rfl⟩ <;> simp [hw]
  | notifies _ hw =>
    exact Numbered.of_setWorker (s := s.setClient _ _) h (by simp [hw]) nofun
  | notifiesAll =>
    intro v
    by_cases hv : s.worker v = .blocked
    · simpa [hv] using (h v).not.mp (by simp [hv])
    · simpa [hv] using h v
  | starts =>
    intro v
    by_cases e : v = s.started
    · simp [e]
    · have := h v
      simp only [setThread_worker, setThread_started, Function.update_of_ne e, this]
      omega
  | _ => exact h

/-! ### The mutex -/

theorem Locked.keepWorker (h : s.Locked) {c : Worker}
    (hc : c.hasMutex = (s.worker w).hasMutex) : (s.setWorker w c).Locked := by
  refine Guards.keep h fun p => ?_
  rw [inside_setWorker]
  split
  · rename_i e
    rw [e, hc]
    rfl
  · rfl

theorem Locked.keepClient (h : s.Locked) {u : ℕ} {c : Client}
    (hc : c.hasMutex = (s.client u).hasMutex) : (s.setClient u c).Locked := by
  refine Guards.keep h fun p => ?_
  rw [inside_setClient]
  split
  · rename_i e
    rw [e, hc]
    rfl
  · rfl

theorem Locked.keepOwner (h : s.Locked) {o : Owner} (ho : o.hasMutex = s.owner.hasMutex) :
    (s.setOwner o).Locked := by
  refine Guards.keep h fun p => ?_
  rw [inside_setOwner]
  split
  · rename_i e
    rw [e, ho]
    rfl
  · rfl

theorem Locked.free (h : s.Locked) (hm : s.mutex = none) : Guards s.inside none := by
  rw [← hm]
  exact h

theorem Locked.step (h : s.Locked) (hn : s.Numbered) (hs : Moves s a s') : s'.Locked := by
  cases hs with
  | stays | removes | deletes => exact h
  | turns ht => exact h.keepWorker ht.keeps.2.2.1
  | takes _ hw =>
    refine Locked.keepWorker (s := { s with q := _ }) h ?_
    rcases hw with ⟨hw, rfl⟩ | ⟨hw, rfl⟩ <;> rw [hw] <;> rfl
  | ends hw =>
    refine Locked.keepWorker (s := { s with ran := _ }) h ?_
    rw [hw]
    rfl
  | enters hw | leaves hw =>
    refine Locked.keepWorker (s := { s with nWaiting := _ }) h ?_
    rw [hw]
    rfl
  | @locks _ w c hm hw =>
    refine Guards.lock (p := Party.worker w) (h.free hm) fun p => ?_
    rw [inside_setWorker]
    rcases hw with ⟨-, rfl⟩ | ⟨-, rfl⟩ <;> rfl
  | @unlocks _ w c hw =>
    refine Guards.unlock (p := Party.worker w) h ?_ fun p => ?_
    · rcases hw with ⟨hw, -⟩ | ⟨t, hw, -⟩ | ⟨hw, -⟩ <;> simp [inside, hw, Worker.hasMutex]
    · rw [inside_setWorker]
      rcases hw with ⟨-, rfl⟩ | ⟨t, -, rfl⟩ | ⟨-, rfl⟩ <;> rfl
  | pushes hu | notifiesNobody hu =>
    refine h.keepClient ?_
    rw [hu]
    rfl
  | @notifies _ u w hu hw =>
    have h' : (s.setClient u .unlock).Locked := h.keepClient (by rw [hu]; rfl)
    exact h'.keepWorker (by simp [hw, Worker.hasMutex])
  | enqueues hu =>
    refine Locked.keepClient (s := { s with q := _, pushed := _ }) h ?_
    rw [hu]
    rfl
  | @clientLocks _ u _ hm =>
    exact Guards.lock (p := Party.client u) (h.free hm) fun p => inside_setClient ..
  | @clientUnlocks _ u hu =>
    refine Guards.unlock (p := Party.client u) h ?_ fun p => inside_setClient ..
    simp [inside, hu, Client.hasMutex]
  | ownerTurns ht => exact h.keepOwner ht.keeps.1
  | starts =>
    refine Guards.keep h fun p => ?_
    cases p with
    | worker v =>
      by_cases e : v = s.started
      · rw [e]
        simp [inside, (hn s.started).mpr le_rfl, Worker.hasMutex]
      · simp [inside, e]
    | client u | owner => rfl
  | detaches ho | flags ho | joins ho | truncates ho | clearsThreads ho | finishes ho | stops ho =>
    refine Guards.keep h fun p => (inside_setOwner ..).trans ?_
    cases p <;> simp [inside, ho, Owner.hasMutex]
  | ownerLocks _ hm =>
    exact Guards.lock (p := Party.owner) (h.free hm) fun p => inside_setOwner ..
  | notifiesAll ho =>
    refine Guards.keep h fun p => (inside_setOwner ..).trans ?_
    rw [inside_notifyAll]
    cases p <;> simp [inside, ho, Owner.hasMutex]
  | @ownerUnlocks _ r ho =>
    refine Guards.unlock (p := Party.owner) h ?_ fun p => (inside_setOwner ..).trans ?_
    · simp [inside, ho, Owner.hasMutex]
    · cases r <;> rfl

/-- Whoever has found the queue empty is blocked, when a party that is no thread has `mutex`. -/
theorem Locked.blocked_of_missed (h : s.Locked) {p : Party} (hp : s.inside p = true)
    (hp' : ∀ w, p ≠ .worker w) (hm : (s.worker w).missed = true) : s.worker w = .blocked := by
  have hin : (s.worker w).hasMutex = false := by
    rw [← Bool.not_eq_true]
    exact fun hw => hp' w (h.eq hp hw)
  cases hw : s.worker w <;> simp_all [Worker.missed, Worker.hasMutex]

/-! ### Work and those who sleep -/

/-- **Who sleeps has nothing to do**: if a thread has found the queue empty, there are at
most as many tasks as clients that have yet to notify and threads that look. -/
def Served (s : State) : Prop :=
  ∃ n m, Census s.client Client.owes n ∧ Census s.worker Worker.looks m ∧
    ∀ w, (s.worker w).missed = true → s.q.length ≤ n + m

theorem init_served : init.Served :=
  ⟨0, 0, .zero fun _ => rfl, .zero fun _ => rfl, nofun⟩

/-- The rule for a step of a thread. -/
theorem Served.worker {t : State} {c : Worker} (h : s.Served)
    (hw : t.worker = Function.update s.worker w c) (hu : t.client = s.client)
    (hq : t.q.length ≤ s.q.length)
    (hm : c.missed = true → (s.worker w).missed = true ∨ t.q = [])
    (hl : (s.worker w).looks = true → c.looks = true ∨ t.q.length < s.q.length ∨ t.q = []) :
    t.Served := by
  obtain ⟨n, m, cn, cm, hb⟩ := h
  have hb' : ∀ v, (t.worker v).missed = true → s.q.length ≤ n + m ∨ t.q.length = 0 := by
    intro v hv
    rw [hw] at hv
    by_cases e : v = w
    · rw [e, Function.update_self] at hv
      exact (hm hv).imp (hb w) (by simp)
    · rw [Function.update_of_ne e] at hv
      exact .inl (hb v hv)
  have hcn : Census t.client Client.owes n := hu ▸ cn
  cases hl₁ : (s.worker w).looks with
  | false =>
    cases hl₂ : c.looks with
    | false =>
      refine ⟨n, m, hcn, hw ▸ cm.keep (hl₂.trans hl₁.symm), fun v hv => ?_⟩
      have := hb' v hv
      omega
    | true =>
      refine ⟨n, m + 1, hcn, hw ▸ cm.enter hl₁ hl₂, fun v hv => ?_⟩
      have := hb' v hv
      omega
  | true =>
    cases hl₂ : c.looks with
    | true =>
      refine ⟨n, m, hcn, hw ▸ cm.keep (hl₂.trans hl₁.symm), fun v hv => ?_⟩
      have := hb' v hv
      omega
    | false =>
      obtain ⟨m, rfl, cm'⟩ := cm.leave hl₁ hl₂
      refine ⟨n, m, hcn, hw ▸ cm', fun v hv => ?_⟩
      have h₁ := hb' v hv
      have h₂ : t.q.length < s.q.length ∨ t.q.length = 0 := by simpa [hl₂] using hl hl₁
      omega

/-- The rule for a step of a client. -/
theorem Served.client {t : State} {u : ℕ} {c : Client} (h : s.Served)
    (hu : t.client = Function.update s.client u c) (hw : t.worker = s.worker)
    (hq : t.q.length ≤ s.q.length ∨
      (s.client u).owes = false ∧ c.owes = true ∧ t.q.length ≤ s.q.length + 1)
    (hl : (s.client u).owes = true → c.owes = true ∨ ∀ w, (s.worker w).missed = false) :
    t.Served := by
  obtain ⟨n, m, cn, cm, hb⟩ := h
  have hb' : ∀ v, (t.worker v).missed = true → s.q.length ≤ n + m := fun v hv => hb v (hw ▸ hv)
  have hcm : Census t.worker Worker.looks m := hw ▸ cm
  cases hl₁ : (s.client u).owes with
  | false =>
    cases hl₂ : c.owes with
    | false =>
      refine ⟨n, m, hu ▸ cn.keep (hl₂.trans hl₁.symm), hcm, fun v hv => ?_⟩
      have h₁ := hb' v hv
      have h₂ : t.q.length ≤ s.q.length := by simpa [hl₂] using hq
      omega
    | true =>
      refine ⟨n + 1, m, hu ▸ cn.enter hl₁ hl₂, hcm, fun v hv => ?_⟩
      have := hb' v hv
      omega
  | true =>
    have hq' : t.q.length ≤ s.q.length := by simpa [hl₁] using hq
    cases hl₂ : c.owes with
    | true =>
      refine ⟨n, m, hu ▸ cn.keep (hl₂.trans hl₁.symm), hcm, fun v hv => ?_⟩
      have := hb' v hv
      omega
    | false =>
      obtain ⟨n, rfl, cn'⟩ := cn.leave hl₁ hl₂
      refine ⟨n, m, hu ▸ cn', hcm, fun v hv => ?_⟩
      have : (s.worker v).missed = false := ((hl hl₁).resolve_left (by simp [hl₂])) v
      rw [hw, this] at hv
      cases hv

/-- Nobody is left asleep by a party that wakes everybody. -/
theorem Served.of_none {t : State} (hn : t.Numbered) (hu : ∃ n, Census t.client Client.owes n)
    (hm : ∀ w, (t.worker w).missed = false) : t.Served := by
  obtain ⟨n, cn⟩ := hu
  have hlt : ∀ w, (t.worker w).looks = true → w < t.started := by
    intro w hw
    refine Nat.lt_of_not_le fun h => ?_
    rw [(hn w).mpr h] at hw
    cases hw
  obtain ⟨m, cm⟩ := Census.exists_of_lt hlt
  refine ⟨n, m, cn, cm, fun w hw => ?_⟩
  rw [hm w] at hw
  cases hw

theorem Served.step (h : s.Served) (hn : s.Numbered) (hl : s.Locked) (ha : a.sure = true)
    (hs : Moves s a s') : s'.Served := by
  have hn' : s'.Numbered := hn.step hs
  cases hs with
  | @turns _ w c ht =>
    refine h.worker (w := w) (c := c) rfl rfl le_rfl (fun hm => ?_) (fun hk => ?_)
    · generalize s.worker w = d at ht
      cases ht <;> simp_all [Worker.missed]
    · generalize s.worker w = d at ht hk
      cases ht <;> simp_all [Worker.looks]
  | @takes _ w t c ht hw =>
    have hlen : (s.q.erase t).length + 1 = s.q.length := List.length_erase_add_one ht
    refine h.worker (w := w) (c := c) rfl rfl ?_ (fun hm => ?_) (fun _ => .inr (.inl ?_))
    · show (s.q.erase t).length ≤ _
      omega
    · rcases hw with ⟨-, rfl⟩ | ⟨-, rfl⟩ <;> cases hm
    · show (s.q.erase t).length < _
      omega
  | ends hw | leaves hw =>
    exact h.worker (c := _) rfl rfl le_rfl nofun (by simp [hw, Worker.looks])
  | enters hw => exact h.worker (c := _) rfl rfl le_rfl nofun (by simp [Worker.looks])
  | locks _ hw =>
    refine h.worker (c := _) rfl rfl le_rfl ?_ ?_ <;>
      rcases hw with ⟨hw, rfl⟩ | ⟨hw, rfl⟩ <;> simp [hw, Worker.looks, Worker.missed]
  | unlocks hw =>
    refine h.worker (c := _) rfl rfl le_rfl ?_ ?_ <;>
      rcases hw with ⟨hw, rfl⟩ | ⟨t, hw, rfl⟩ | ⟨hw, rfl⟩ <;>
      simp [hw, Worker.looks, Worker.missed]
  | pushes hu | clientUnlocks hu =>
    exact h.client (c := _) rfl rfl (.inl le_rfl) (by simp [hu, Client.owes])
  | enqueues hu =>
    exact h.client (c := _) rfl rfl (.inr ⟨by rw [hu]; rfl, rfl, by simp⟩) (by simp [Client.owes])
  | clientLocks => exact h.client (c := _) rfl rfl (.inl le_rfl) (by simp [Client.owes])
  | @notifiesNobody _ u hu hb =>
    refine h.client (c := _) rfl rfl (.inl le_rfl) fun _ => .inr fun w => ?_
    rw [← Bool.not_eq_true]
    intro hm
    have hw : s.worker w = .blocked :=
      hl.blocked_of_missed (p := .client u) (by simp [inside, hu, Client.hasMutex]) nofun hm
    have hlt : w < s.started := Nat.lt_of_not_le fun hle => by
      rw [(hn w).mpr hle] at hw
      cases hw
    exact hb w hlt hw
  | @notifies _ u w hu hw =>
    obtain ⟨n, m, cn, cm, hb⟩ := h
    obtain ⟨n, rfl, cn'⟩ := cn.leave (u := u) (x := .unlock) (by rw [hu]; rfl) rfl
    have cm' := cm.enter (u := w) (x := .woken) (by rw [hw]; rfl) rfl
    refine ⟨n, m + 1, cn', cm', fun v _ => ?_⟩
    have : s.q.length ≤ n + 1 + m := hb w (by rw [hw]; rfl)
    show s.q.length ≤ _
    omega
  | starts =>
    exact h.worker (c := .pop) (w := s.started) rfl rfl le_rfl nofun
      (by simp [(hn s.started).mpr le_rfl, Worker.looks])
  | removes | deletes =>
    obtain ⟨n, m, cn, cm, hb⟩ := h
    exact ⟨n, m, cn, cm, fun w hw => List.length_erase_le.trans (hb w hw)⟩
  | @notifiesAll _ r ho =>
    obtain ⟨n, -, cn, -⟩ := h
    refine .of_none hn' ⟨n, cn⟩ fun w => ?_
    rw [← Bool.not_eq_true]
    intro hm
    by_cases hw : s.worker w = .blocked
    · simp [hw, Worker.missed] at hm
    · simp only [setOwner_worker, notifyAll_worker, hw, if_false] at hm
      exact hw (hl.blocked_of_missed (p := .owner) (by simp [inside, ho, Owner.hasMutex]) nofun hm)
  | _ => exact h

/-! ### Orders and those who sleep -/

/-- **Who sleeps was not told to stop**, unless the owner has yet to call `notify_all`. -/
def Told (s : State) : Prop :=
  ∀ w, s.isDone = true ∧ (s.worker w = .readFlag ∨ (s.worker w).asleep = true) ∨
    s.flag w = true ∧ (s.worker w).asleep = true → s.owner.tells = true

theorem init_told : init.Told := fun w h => by
  rcases h with ⟨h, -⟩ | ⟨h, -⟩ <;> cases h

/-- The rule for a step of a thread. -/
theorem Told.worker {t : State} {c : Worker} (h : s.Told)
    (hw : t.worker = Function.update s.worker w c)
    (ht : t.isDone = s.isDone ∧ t.owner = s.owner ∧ ∀ v, v = w ∨ t.flag v = s.flag v)
    (hr : c = .readFlag → s.isDone = false)
    (ha : c.asleep = true → t.flag w = s.flag w ∧ ((s.worker w).asleep = true ∨
      s.worker w = .readFlag ∧ s.flag w = false)) : t.Told := by
  obtain ⟨hd, ho, hf⟩ := ht
  intro v hv
  rw [ho]
  rw [hw, hd] at hv
  apply h v
  by_cases e : v = w
  · subst e
    rw [Function.update_self] at hv
    rcases hv with ⟨hd', hv | hv⟩ | ⟨hfl, hv⟩
    · rw [hr hv] at hd'
      cases hd'
    · rcases (ha hv).2 with hv | ⟨hv, -⟩
      · exact .inl ⟨hd', .inr hv⟩
      · exact .inl ⟨hd', .inl hv⟩
    · obtain ⟨hfe, hv⟩ := ha hv
      rw [hfe] at hfl
      rcases hv with hv | ⟨-, hv⟩
      · exact .inr ⟨hfl, hv⟩
      · rw [hv] at hfl
        cases hfl
  · rwa [Function.update_of_ne e, (hf v).resolve_left e] at hv

/-- The rule for a step of the owner that tells nobody anything. -/
theorem Told.owner {t : State} (h : s.Told) (ho : s.owner.tells = false)
    (ht : t.worker = s.worker ∧ t.isDone = s.isDone ∧ t.flag = s.flag) : t.Told := by
  obtain ⟨hw, hd, hf⟩ := ht
  intro v hv
  rw [hw, hd, hf] at hv
  have := h v hv
  rw [ho] at this
  cases this

theorem Told.step (h : s.Told) (hl : s.Locked) (hs : Moves s a s') : s'.Told := by
  cases hs with
  | @turns _ w c ht =>
    refine h.worker (w := w) (c := c) rfl ⟨rfl, rfl, fun _ => .inr rfl⟩ (fun hc => ?_) fun hc => ?_
    · generalize s.worker w = d at ht
      cases ht <;> first | assumption | cases hc
    · generalize s.worker w = d at ht
      cases ht <;> first | exact ⟨rfl, .inr ⟨rfl, ‹_›⟩⟩ | cases hc
  | takes _ hw =>
    refine h.worker (c := _) rfl ⟨rfl, rfl, fun _ => .inr rfl⟩ ?_ ?_ <;>
      rcases hw with ⟨-, rfl⟩ | ⟨-, rfl⟩ <;> nofun
  | locks _ hw =>
    refine h.worker (c := _) rfl ⟨rfl, rfl, fun _ => .inr rfl⟩ ?_ ?_ <;>
      rcases hw with ⟨-, rfl⟩ | ⟨-, rfl⟩ <;> nofun
  | ends | enters | leaves =>
    exact h.worker (c := _) rfl ⟨rfl, rfl, fun _ => .inr rfl⟩ nofun nofun
  | unlocks hw =>
    refine h.worker (c := _) rfl ⟨rfl, rfl, fun _ => .inr rfl⟩ ?_ ?_ <;>
      rcases hw with ⟨hw, rfl⟩ | ⟨t, hw, rfl⟩ | ⟨hw, rfl⟩ <;> simp [hw, Worker.asleep]
  | notifies =>
    exact h.worker (t := (s.setClient _ _).setWorker _ _) (c := .woken) rfl
      ⟨rfl, rfl, fun _ => .inr rfl⟩ nofun nofun
  | starts ho =>
    refine h.worker (c := .pop) (w := s.started) rfl ⟨rfl, rfl, fun v => ?_⟩ nofun nofun
    by_cases e : v = s.started
    · exact .inl e
    · exact .inr (by simp [e])
  | ownerTurns ht => exact fun v hv => ht.keeps.2 (h v hv)
  | detaches | flags | finishes | stops | ownerLocks => exact fun _ _ => rfl
  | notifiesAll ho =>
    intro v hv
    have hin : s.inside .owner = true := by simp [inside, ho, Owner.hasMutex]
    have hm : (s.worker v).missed = true := by
      by_cases hb : s.worker v = .blocked
      · simp [hb, Worker.missed]
      · simp only [setOwner_worker, notifyAll_worker, hb, if_false] at hv
        cases hw : s.worker v <;> simp_all [Worker.missed, Worker.asleep]
    have hb : s.worker v = .blocked := hl.blocked_of_missed (p := Party.owner) hin nofun hm
    simp [hb, Worker.asleep] at hv
  | ownerUnlocks ho | truncates ho | joins ho | clearsThreads ho =>
    exact h.owner (by rw [ho]; rfl) ⟨rfl, rfl, rfl⟩
  | _ => exact h

/-! ### The number of those who wait -/

/-- **`nWaiting` counts the threads that wait.** -/
def Counted (s : State) : Prop := ∃ k : ℕ, Census s.worker Worker.waits k ∧ s.nWaiting = k

theorem init_counted : init.Counted := ⟨0, .zero fun _ => rfl, rfl⟩

/-- The rule for a step of a thread that does not change `nWaiting`. -/
theorem Counted.worker {t : State} {c : Worker} (h : s.Counted)
    (hw : t.worker = Function.update s.worker w c) (hn : t.nWaiting = s.nWaiting)
    (hc : c.waits = (s.worker w).waits) : t.Counted := by
  obtain ⟨k, ck, hk⟩ := h
  exact ⟨k, hw ▸ ck.keep hc, hn.trans hk⟩

theorem Counted.step (h : s.Counted) (hn : s.Numbered) (hs : Moves s a s') : s'.Counted := by
  cases hs with
  | turns ht => exact h.worker (c := _) rfl rfl ht.keeps.2.2.2
  | takes _ hw =>
    refine h.worker (c := _) rfl rfl ?_
    rcases hw with ⟨hw, rfl⟩ | ⟨hw, rfl⟩ <;> simp [hw, Worker.waits]
  | locks _ hw =>
    refine h.worker (c := _) rfl rfl ?_
    rcases hw with ⟨hw, rfl⟩ | ⟨hw, rfl⟩ <;> simp [hw, Worker.waits]
  | unlocks hw =>
    refine h.worker (c := _) rfl rfl ?_
    rcases hw with ⟨hw, rfl⟩ | ⟨t, hw, rfl⟩ | ⟨hw, rfl⟩ <;> simp [hw, Worker.waits]
  | ends hw => exact h.worker (c := _) rfl rfl (by rw [hw]; rfl)
  | notifies _ hw =>
    exact h.worker (t := (s.setClient _ _).setWorker _ _) (c := .woken) rfl rfl (by rw [hw]; rfl)
  | starts =>
    refine h.worker (c := .pop) (w := s.started) rfl rfl ?_
    rw [(hn s.started).mpr le_rfl]
    rfl
  | @enters _ w hw =>
    obtain ⟨k, ck, hk⟩ := h
    refine ⟨k + 1, ck.enter (by rw [hw]; rfl) rfl, ?_⟩
    show s.nWaiting + 1 = _
    omega
  | @leaves _ w f hw =>
    obtain ⟨k, ck, hk⟩ := h
    obtain ⟨k, rfl, ck'⟩ := ck.leave (u := w) (x := .unlock f) (by rw [hw]; rfl) rfl
    refine ⟨k, ck', ?_⟩
    show s.nWaiting - 1 = _
    omega
  | notifiesAll =>
    obtain ⟨k, ck, hk⟩ := h
    refine ⟨k, ck.eq_of_iff fun v => ?_, hk⟩
    by_cases hv : s.worker v = .blocked
    · simp [hv, Worker.waits]
    · simp [hv]
  | _ => exact h

/-! ### Over whole runs -/

/-- What holds in every state that the pool reaches. -/
structure Waiting (s : State) : Prop where
  numbered : s.Numbered
  locked : s.Locked
  told : s.Told
  counted : s.Counted

theorem init_waiting : init.Waiting where
  numbered w := by simp [init]
  locked p := by cases p <;> simp [init, inside, Worker.hasMutex, Client.hasMutex, Owner.hasMutex]
  told := init_told
  counted := init_counted

theorem Waiting.step (h : s.Waiting) (hs : Moves s a s') : s'.Waiting where
  numbered := h.numbered.step hs
  locked := h.locked.step h.numbered hs
  told := h.told.step h.locked hs
  counted := h.counted.step h.numbered hs

theorem waiting_of_reach {P : State → Action → Prop} (h : Reach step P init s) : s.Waiting :=
  h.invariant init_waiting fun _ _ _ _ hw _ hs => hw.step (step_spec hs)

/-- `q.pop` fails only if the queue is empty. -/
def Sure (_ : State) (a : Action) : Prop := a.sure = true

theorem served_of_reach (h : Reach step Sure init s) : s.Served := by
  refine h.invariant init_served fun t a t' hr hS ha hs => ?_
  have hW := waiting_of_reach hr
  exact hS.step hW.numbered hW.locked ha (step_spec hs)

/-- **No thread sleeps beside work**, or beside an order to stop, where `q.pop` fails only if
the queue is empty. -/
theorem queued_le_of_blocked (h : Reach step Sure init s) (hw : s.worker w = .blocked) :
    (∃ n m, Census s.client Client.owes n ∧ Census s.worker Worker.looks m ∧ s.q.length ≤ n + m) ∧
    (s.isDone = true ∨ s.flag w = true → s.owner.tells = true) := by
  have hW := waiting_of_reach h
  obtain ⟨n, m, cn, cm, hb⟩ := served_of_reach h
  have ha : (s.worker w).asleep = true := by
    rw [hw]
    rfl
  refine ⟨⟨n, m, cn, cm, hb w (by rw [hw]; rfl)⟩, fun ht => hW.told w ?_⟩
  exact ht.imp (fun hd => ⟨hd, .inr ha⟩) fun hf => ⟨hf, ha⟩

/-- A thread sleeps, and a task has come for it that was not notified yet. -/
theorem queued_le_of_blocked_run : ∃ s, run step init ([.resize 1, .own, .own] ++
      List.replicate 7 (.work 0) ++ [.push 0, .client 0]) = some s ∧ s.q = [0] ∧
    ∃ n m, Census s.client Client.owes n ∧ Census s.worker Worker.looks m ∧ 1 ≤ n + m := by
  obtain ⟨s, hs, hr⟩ : ∃ s, run step init ([.resize 1, .own, .own] ++ List.replicate 7 (.work 0) ++
      [.push 0, .client 0]) = some s ∧ (s.worker 0, s.q) = (.blocked, [0]) :=
    Option.map_eq_some_iff.mp (by decide +kernel)
  obtain ⟨hw, hq⟩ := Prod.mk.inj hr
  have hr : Reach step Sure init s :=
    .of_run _ (fun _ a ha => (by decide : ∀ a ∈ [.resize 1, .own, .own] ++ List.replicate 7 (.work 0) ++
      [.push 0, .client 0], Action.sure a = true) a ha) hs
  obtain ⟨⟨n, m, cn, cm, hb⟩, -⟩ := queued_le_of_blocked hr hw
  exact ⟨s, hs, hq, n, m, cn, cm, by simpa [hq] using hb⟩

/-- A thread that is refused a task may sleep beside it. -/
example : ∃ s, Reach step Any init s ∧ s.worker 0 = .blocked ∧ s.q = [0] ∧ s.client 0 = .idle := by
  obtain ⟨s, hs, hr⟩ : ∃ s, run step init ([.resize 1, .own, .own, .push 0, .client 0, .client 0,
      .client 0, .client 0, .miss 0, .work 0, .work 0, .miss 0] ++ List.replicate 3 (.work 0)) = some s ∧
      (s.worker 0, s.q, s.client 0) = (.blocked, [0], .idle) :=
    Option.map_eq_some_iff.mp (by decide +kernel)
  obtain ⟨hw, hr⟩ := Prod.mk.inj hr
  exact ⟨s, .of_run _ (fun _ _ _ => trivial) hs, hw, Prod.mk.inj hr⟩

end State

end MutilsTasks.ThreadPool
