import MutilsTasks.Library.Tally
import MutilsTasks.BlockingQueue.Queue

/-!
# The permits of the blocking queue

Whoever is counted as one that waits is owed something: either `m_count` is below zero on its
behalf, or the kernel's semaphore has been raised for it, or a thread is about to raise it.
And every element is accounted for: a permit for it can be taken, or is on its way through
the kernel, or has been granted and not used, or has not been signalled yet (`Balanced`).

So a thread that was let through finds its elements, and the loop around `inner.try_dequeue`
ends. A thread sleeps only when all elements have been promised to others, and a timed call
gives up only then.
-/

namespace MutilsTasks.BlockingQueue

open Machine

/-- The step is made by a thread in a call. Memory does not fail, and no weak
`compare_exchange` fails for no reason. -/
def Action.inner : Action → Bool
  | .work _ | .timeout _ | .take _ _ => true
  | _ => false

namespace State

variable {s s' t : State} {a : Action} {u v : ℕ} {c d : Pc}

/-- Those that wait are owed as much as they are, and one more for each that was refused. -/
def Owed (s : State) (W P : ℕ) : Prop := (W + s.refused : ℤ) = max 0 (-s.mCount) + s.mSema + P

/-- Every element is accounted for, and one more for each that was refused. -/
def Accounted (s : State) (P H U : ℕ) : Prop :=
  (s.inner.length + s.refused : ℤ) = max 0 s.mCount + s.mSema + P + H + U

/-- **The books of the queue**: what those that wait, those that release, those that have
permits and those that have not signalled yet come to. -/
structure Books (s : State) (W P H U : ℕ) : Prop where
  waits : Tally s.pc Pc.waits W
  posts : Tally s.pc Pc.posts P
  held : Tally s.pc Pc.held H
  unsignalled : Tally s.pc Pc.unsignalled U
  owed : s.Owed W P
  accounted : s.Accounted P H U

/-- **The queue is balanced.** -/
structure Balanced (s : State) : Prop where
  ok : ∀ u, (s.pc u).Ok
  books : ∃ W P H U, s.Books W P H U

theorem init_balanced : init.Balanced where
  ok _ := trivial
  books := ⟨0, 0, 0, 0, .zero fun _ => rfl, .zero fun _ => rfl, .zero fun _ => rfl,
    .zero fun _ => rfl, rfl, rfl⟩

/-- The rule for a move of thread `u`: it is enough to look at the numbers. -/
theorem Balanced.goto (h : s.Balanced) (hp : t.pc = Function.update s.pc u d) (hd : d.Ok)
    (hn : ∀ W P H U W' P' H' U' : ℕ, W' + (s.pc u).waits = W + d.waits →
      P' + (s.pc u).posts = P + d.posts → H' + (s.pc u).held = H + d.held →
      U' + (s.pc u).unsignalled = U + d.unsignalled → s.Owed W P → s.Accounted P H U →
      t.Owed W' P' ∧ t.Accounted P' H' U') : t.Balanced := by
  refine ⟨fun v => ?_, ?_⟩
  · rw [hp]
    by_cases e : v = u
    · rw [e, Function.update_self]
      exact hd
    · rw [Function.update_of_ne e]
      exact h.ok v
  · obtain ⟨W, P, H, U, hb⟩ := h.books
    have eW := Nat.sub_add_cancel ((hb.waits.le u).trans (Nat.le_add_right W d.waits))
    have eP := Nat.sub_add_cancel ((hb.posts.le u).trans (Nat.le_add_right P d.posts))
    have eH := Nat.sub_add_cancel ((hb.held.le u).trans (Nat.le_add_right H d.held))
    have eU := Nat.sub_add_cancel ((hb.unsignalled.le u).trans (Nat.le_add_right U d.unsignalled))
    obtain ⟨ho, ha⟩ := hn W P H U _ _ _ _ eW eP eH eU hb.owed hb.accounted
    exact ⟨_, _, _, _, hp ▸ hb.waits.update u d eW, hp ▸ hb.posts.update u d eP,
      hp ▸ hb.held.update u d eH, hp ▸ hb.unsignalled.update u d eU, ho, ha⟩

theorem Balanced.step (h : s.Balanced) (hs : s.step a = some s') : s'.Balanced := by
  have hm := step_spec (h.ok a.thread) hs
  generalize a.thread = u at hm
  cases hm with
  | goes hk hd =>
    refine h.goto rfl hd fun W P H U W' P' H' U' hW hP hH hU ho ha => ?_
    obtain rfl : W' = W := by have := hk.waits; omega
    obtain rfl : P' = P := by have := hk.posts; omega
    obtain rfl : H' = H := by have := hk.held; omega
    obtain rfl : U' = U := by have := hk.unsignalled; omega
    exact ⟨ho, ha⟩
  | @enqueues _ n l hc hl =>
    refine h.goto (d := .fetchAdd n) rfl trivial fun W P H U W' P' H' U' hW hP hH hU ho ha => ?_
    simp only [hc, Pc.waits, Pc.posts, Pc.held, Pc.unsignalled] at hW hP hH hU
    simp only [Owed, Accounted, goto_mCount, goto_mSema, goto_refused, goto_inner, List.length_append] at ho ha ⊢
    omega
  | @signals _ n r d hc hr hd =>
    have hd' : d.waits = 0 ∧ d.posts = r ∧ d.held = 0 ∧ d.unsignalled = 0 ∧ d.Ok := by
      rcases hd with rfl | ⟨rfl, rfl⟩ <;> exact ⟨rfl, rfl, rfl, rfl, trivial⟩
    obtain ⟨h₁, h₂, h₃, h₄, h₅⟩ := hd'
    refine h.goto (d := d) rfl h₅ fun W P H U W' P' H' U' hW hP hH hU ho ha => ?_
    rw [h₁] at hW
    rw [h₂] at hP
    rw [h₃] at hH
    rw [h₄] at hU
    simp only [hc, Pc.waits, Pc.posts, Pc.held, Pc.unsignalled] at hW hP hH hU
    simp only [Owed, Accounted, goto_mCount, goto_mSema, goto_refused, goto_inner] at ho ha ⊢
    omega
  | @posts _ k hc =>
    refine h.goto (d := .post k) rfl trivial fun W P H U W' P' H' U' hW hP hH hU ho ha => ?_
    simp only [hc, Pc.waits, Pc.posts, Pc.held, Pc.unsignalled] at hW hP hH hU
    simp only [Owed, Accounted, goto_mCount, goto_mSema, goto_refused, goto_inner] at ho ha ⊢
    omega
  | @acquires _ t d hle hw hp hu h₁ h₂ h₄ h₃ h₅ =>
    refine h.goto (d := d) rfl h₅ fun W P H U W' P' H' U' hW hP hH hU ho ha => ?_
    simp only [Owed, Accounted, goto_mCount, goto_mSema, goto_refused, goto_inner] at ho ha ⊢
    omega
  | @registers _ m p hc hp hle =>
    refine h.goto (d := .sleep m p) rfl hp fun W P H U W' P' H' U' hW hP hH hU ho ha => ?_
    simp only [hc, Pc.waits, Pc.posts, Pc.held, Pc.unsignalled] at hW hP hH hU
    simp only [Owed, Accounted, goto_mCount, goto_mSema, goto_refused, goto_inner] at ho ha ⊢
    omega
  | @wakes _ m hw hpos =>
    obtain ⟨hp, hh, hu⟩ := Pc.has_of_waits hw
    obtain ⟨h₁, h₂, h₃, h₄, h₅⟩ := afterOne_has m
    refine h.goto (d := afterOne m) rfl h₅ fun W P H U W' P' H' U' hW hP hH hU ho ha => ?_
    simp only [Owed, Accounted, goto_mCount, goto_mSema, goto_refused, goto_inner] at ho ha ⊢
    omega
  | @slips now m n hc hv hd =>
    obtain ⟨h₁, h₂, h₃, h₄, h₅⟩ := afterOne_has m
    refine h.goto (d := afterOne m) rfl h₅ fun W P H U W' P' H' U' hW hP hH hU ho ha => ?_
    rw [h₁] at hW
    rw [h₂] at hP
    rw [h₃] at hH
    rw [h₄] at hU
    simp only [hc, Pc.waits, Pc.posts, Pc.held, Pc.unsignalled] at hW hP hH hU
    simp only [Owed, Accounted, goto_mCount, goto_mSema, goto_refused, goto_inner] at ho ha ⊢
    omega
  | @leaves _ m hc hneg =>
    refine h.goto (d := .idle) rfl trivial fun W P H U W' P' H' U' hW hP hH hU ho ha => ?_
    simp only [hc, Pc.waits, Pc.posts, Pc.held, Pc.unsignalled] at hW hP hH hU
    simp only [Owed, Accounted, goto_mCount, goto_mSema, goto_refused, goto_inner] at ho ha ⊢
    omega
  | @takes x k hc hx =>
    refine h.goto (d := .dequeue k) rfl trivial fun W P H U W' P' H' U' hW hP hH hU ho ha => ?_
    have hlen : (s.inner.erase x).length + 1 = s.inner.length := List.length_erase_add_one hx
    simp only [hc, Pc.waits, Pc.posts, Pc.held, Pc.unsignalled] at hW hP hH hU
    simp only [Owed, Accounted, goto_mCount, goto_mSema, goto_refused, goto_inner] at ho ha ⊢
    omega

theorem balanced_of_reach {P : State → Action → Prop} (h : Reach step P init s) : s.Balanced :=
  h.invariant init_balanced fun _ _ _ _ hB _ hs => hB.step hs

/-! ### Whoever is let through finds its elements -/

/-- The permits that threads have are covered by elements but for those that the kernel has
refused to grant. -/
theorem Balanced.held_le (hB : s.Balanced) : ∃ W P H U, s.Books W P H U ∧
    H ≤ s.inner.length + s.refused := by
  obtain ⟨W, P, H, U, hb⟩ := hB.books
  have ha := hb.accounted
  simp only [Accounted] at ha
  exact ⟨W, P, H, U, hb, by omega⟩

/-- The timeouts are whole seconds, as that of the delay thread is. -/
def WholeSeconds (_ : State) : Action → Prop
  | .dequeue _ _ p => p.Whole
  | _ => True

/-- No thread waits for a part of a second. -/
def Whole (s : State) : Prop := s.refused = 0 ∧ ∀ u, (s.pc u).patience.Whole

theorem init_whole : init.Whole := ⟨rfl, fun _ => trivial⟩

theorem whole_afterTry {p : Patience} (hw : p.Whole) (got max : ℕ) :
    (afterTry got max p).patience.Whole := by
  rcases afterTry_cases got max p with h | ⟨-, -, h⟩ <;> rw [h]
  · trivial
  · exact hw

theorem whole_afterOne (max : ℕ) : (afterOne max).patience.Whole := by
  unfold afterOne
  split <;> trivial

theorem whole_loaded {p : Patience} (hw : p.Whole) (got max : ℕ) :
    (if 0 < s.mCount then .cas s.mCount got max p else afterTry got max p : Pc).patience.Whole := by
  split
  · exact hw
  · exact whole_afterTry hw got max

/-- A thread goes on waiting for as long as it meant to, or stops. -/
theorem whole_work (hw : (s.pc u).patience.Whole) (h : s.work u = some s') :
    s'.refused = s.refused ∧ (s'.pc u).patience.Whole := by
  unfold work at h
  split at h <;> rename_i hc <;> rw [hc] at hw
  all_goals
    repeat' split at h
    all_goals cases h
    all_goals refine ⟨rfl, ?_⟩
    all_goals simp only [goto_pc, Function.update_self]
    all_goals first
      | exact hw
      | exact whole_afterTry hw ..
      | exact whole_afterOne _
      | exact whole_loaded hw ..
      | trivial
      | split <;> trivial

theorem Whole.step (hB : s.Balanced) (hW : s.Whole) (ha : WholeSeconds s a)
    (h : s.step a = some s') : s'.Whole := by
  have hframe : ∀ v, v ≠ a.thread → s'.pc v = s.pc v := fun v =>
    (step_spec (hB.ok a.thread) h).pc_of_ne
  have key : s'.refused = 0 ∧ (s'.pc a.thread).patience.Whole := by
    cases a with
    | dequeue u max p =>
      simp only [State.step, Option.ite_none_right_eq_some, Option.some.injEq] at h
      obtain ⟨-, rfl⟩ := h
      refine ⟨hW.1, ?_⟩
      rw [Action.thread, goto_pc, Function.update_self]
      exact ha
    | work u => 
      obtain ⟨he, hw⟩ := whole_work (hW.2 u) h
      exact ⟨he.trans hW.1, hw⟩
    | casFails u =>
      simp only [State.step] at h
      split at h <;> rename_i hc <;> cases h
      have hw := hW.2 u
      rw [hc] at hw
      refine ⟨hW.1, ?_⟩
      rw [Action.thread, goto_pc, Function.update_self]
      exact whole_loaded hw ..
    | refuse u now =>
      -- The kernel takes the deadline.
      simp only [State.step] at h
      split at h <;> rename_i hc
      · simp only [Option.ite_none_right_eq_some, Option.some.injEq] at h
        obtain ⟨⟨hv, hd⟩, -⟩ := h
        have hw := hW.2 u
        rw [hc] at hw
        exact absurd (Timespec.deadline_valid_of_whole hv hw) hd
      · cases h
    | enqueue u n =>
      simp only [State.step, Option.ite_none_right_eq_some, Option.some.injEq] at h
      obtain ⟨-, rfl⟩ := h
      refine ⟨hW.1, ?_⟩
      rw [Action.thread, goto_pc, Function.update_self]
      trivial
    | fail u | timeout u =>
      simp only [State.step] at h
      split at h <;> rename_i hc <;> cases h
      refine ⟨hW.1, ?_⟩
      rw [Action.thread, goto_pc, Function.update_self]
      trivial
    | take u x =>
      simp only [State.step] at h
      split at h <;> rename_i hc
      · simp only [Option.ite_none_right_eq_some, Option.some.injEq] at h
        obtain ⟨-, rfl⟩ := h
        refine ⟨hW.1, ?_⟩
        rw [Action.thread, goto_pc, Function.update_self]
        trivial
      · cases h
  refine ⟨key.1, fun v => ?_⟩
  by_cases e : v = a.thread
  · exact e ▸ key.2
  · rw [hframe v e]
    exact hW.2 v

/-- **Where the timeouts are whole seconds, whoever is let through finds its elements**: the
permits that threads have are covered by elements, and so is each thread's part, so that the
loop around `inner.try_dequeue` ends. -/
theorem covered (h : Reach step WholeSeconds init s) :
    (∃ W P H U, s.Books W P H U ∧ H ≤ s.inner.length) ∧
    ∀ u k, s.pc u = .dequeue k → k ≤ s.inner.length := by
  have hW : s.Whole := h.invariant init_whole fun _ _ _ hr hW ha hs =>
    hW.step (balanced_of_reach hr) ha hs
  obtain ⟨W, P, H, U, hb, hH⟩ := (balanced_of_reach h).held_le
  rw [hW.1, Nat.add_zero] at hH
  refine ⟨⟨W, P, H, U, hb, hH⟩, fun u k hu => ?_⟩
  have : (s.pc u).held ≤ H := hb.held.le u
  rw [hu] at this
  exact this.trans hH

/-- One thread enqueues two elements and another one is to have one of them. -/
def oneToTake : List Action :=
  [.enqueue 0 2, .work 0, .work 0, .dequeue 1 1 (.timed 1000000), .work 1, .work 1]

theorem covered_oneToTake : ∃ s, run step init oneToTake = some s ∧ s.pc 1 = .dequeue 1 ∧
    1 ≤ s.inner.length := by
  obtain ⟨s, hs, hu⟩ : ∃ s, run step init oneToTake = some s ∧ s.pc 1 = .dequeue 1 :=
    Option.map_eq_some_iff.mp (by decide +kernel)
  have hr : Reach step WholeSeconds init s := .of_run oneToTake (fun _ a ha => by
    simp only [oneToTake, List.mem_cons, List.not_mem_nil, or_false] at ha
    rcases ha with rfl | rfl | rfl | rfl | rfl | rfl <;> trivial) hs
  exact ⟨s, hs, hu, (covered hr).2 1 1 hu⟩

/-! ### Nobody sleeps beside an element that is free -/

/-- No thread is between its `inner.enqueue` and the end of its signal. -/
def NoSignal (s : State) : Prop := ∀ u, (s.pc u).unsignalled = 0 ∧ (s.pc u).posts = 0

theorem Balanced.eq_held (hB : s.Balanced) (hu : (s.pc u).waits = 1) (hS : s.mSema = 0)
    (hn : s.NoSignal) : Tally s.pc Pc.held (s.inner.length + s.refused) ∧ s.mCount < 0 := by
  obtain ⟨W, P, H, U, hb⟩ := hB.books
  obtain rfl : P = 0 := hb.posts.eq_zero fun v => (hn v).2
  obtain rfl : U = 0 := hb.unsignalled.eq_zero fun v => (hn v).1
  have hW := hb.waits.le u
  have ho := hb.owed
  have ha := hb.accounted
  simp only [Owed, Accounted] at ho ha
  have hlen : s.inner.length + s.refused = H := by omega
  exact ⟨hlen ▸ hb.held, by omega⟩

/-- **While a thread sleeps, every element has been promised to a thread with a permit**,
unless a signal is in progress or the kernel is about to let somebody through. -/
theorem promised_of_sleep (h : Reach step Any init s) {m : ℕ} {p : Patience}
    (hu : s.pc u = .sleep m p) (hS : s.mSema = 0) (hn : s.NoSignal) :
    Tally s.pc Pc.held (s.inner.length + s.refused) ∧ s.mCount < 0 :=
  (balanced_of_reach h).eq_held (u := u) (by rw [hu]; rfl) hS hn

/-- A thread spins until it has spun enough. -/
theorem reach_spun {k m : ℕ} {p : Patience} (hm : s.mCount ≤ 0) (hu : s.pc u = .spin k m p) :
    Reach step Any s (s.goto u (.spin 0 m p)) := by
  induction k generalizing s with
  | zero =>
    have : s.goto u (.spin 0 m p) = s := by
      rw [goto, ← hu, Function.update_eq_self]
    rw [this]
    exact .refl
  | succ k ih =>
    have hs : s.step (.work u) = some (s.goto u (.spin k m p)) := by
      simp [step, work, hu, Int.not_lt.mpr hm]
    have := ih (s := s.goto u (.spin k m p)) hm (by simp)
    rw [goto_goto] at this
    exact .head trivial hs this

/-- One thread sleeps at a new queue. -/
def oneAsleep (p : Patience) : State := { init.goto 0 (.sleep 1 p) with mCount := -1 }

theorem reach_oneAsleep {p : Patience} (hp : p ≠ .none) : Reach step Any init (oneAsleep p) := by
  have h₁ : Reach step Any init (init.goto 0 (.spin spins 1 p)) := by
    refine .of_run [.dequeue 0 1 p, .work 0] (fun _ _ _ => trivial) ?_
    cases p with
    | none => exact absurd rfl hp
    | timed | forever => simp [run, step, work, init, afterTry, goto, Function.update_idem]
  have h₂ := reach_spun (s := init.goto 0 (.spin spins 1 p)) (u := 0) (k := spins) (m := 1) (p := p)
    le_rfl (by simp)
  rw [goto_goto] at h₂
  refine (h₁.trans h₂).tail (a := .work 0) trivial ?_
  simp [step, work, init, oneAsleep, goto, Function.update_idem]

/-- A thread that was refused looks for an element that is not there. -/
example : ∃ s, Reach step Any init s ∧ s.pc 0 = .dequeue 1 ∧ s.inner = [] :=
  ⟨_, (reach_oneAsleep (p := .timed 1) (by simp)).tail (a := .refuse 0 ⟨5, 999999000⟩) trivial rfl,
    rfl, rfl⟩

/-- Thread `1` enqueues an element and wakes thread `0`, which has its permit when thread `2` begins to
wait. -/
def oneWoken : List Action :=
  [.enqueue 1 1, .work 1, .work 1, .work 1, .work 1, .work 0, .dequeue 2 1 .forever, .work 2]

/-- Thread `0` has the permit for the one element. Thread `2` sleeps. -/
theorem promised_of_sleep_oneWoken : ∃ s, Reach step Any init s ∧ s.pc 2 = .sleep 1 .forever ∧
    s.inner = [0] ∧ Tally s.pc Pc.held 1 ∧ s.mCount < 0 := by
  obtain ⟨s₁, hs₁, h₀, h₁, h₂, hc, hi, hm, hr, hp⟩ : ∃ s, run step (oneAsleep .forever) oneWoken = some s ∧
      s.pc 0 = .dequeue 1 ∧ s.pc 1 = .idle ∧ s.pc 2 = .spin spins 1 .forever ∧ s.mCount = 0 ∧
      s.inner = [0] ∧ s.mSema = 0 ∧ s.refused = 0 ∧
      ∀ v, v ≠ 0 → v ≠ 1 → v ≠ 2 → s.pc v = .idle := by
    refine ⟨_, rfl, rfl, rfl, rfl, rfl, rfl, rfl, rfl, fun v h₀ h₁ h₂ => ?_⟩
    simp [goto, oneAsleep, init, h₀, h₁, h₂]
  have hr₁ : Reach step Any init s₁ := (reach_oneAsleep (p := .forever) (by simp)).trans
    (.of_run oneWoken (fun _ _ _ => trivial) hs₁)
  have hr₂ := reach_spun (s := s₁) (u := 2) (k := spins) (m := 1) (p := .forever) hc.le h₂
  let s : State := { s₁ with mCount := -1 }.goto 2 (.sleep 1 .forever)
  have hs : (s₁.goto 2 (.spin 0 1 .forever)).step (.work 2) = some s := by
    simp [step, work, hc, goto, Function.update_idem, s]
  have hreach : Reach step Any init s := (hr₁.trans hr₂).tail trivial hs
  have hno : s.NoSignal := by
    intro v
    by_cases e₂ : v = 2
    · simp [s, goto, e₂, Pc.unsignalled, Pc.posts]
    by_cases e₀ : v = 0
    · simp [s, goto, e₀, h₀, Pc.unsignalled, Pc.posts]
    by_cases e₁ : v = 1
    · simp [s, goto, e₁, h₁, Pc.unsignalled, Pc.posts]
    · simp [s, goto, e₂, hp v e₀ e₁ e₂, Pc.unsignalled, Pc.posts]
  have h := promised_of_sleep (u := 2) (m := 1) (p := .forever) hreach (by simp [s]) hm hno
  refine ⟨s, hreach, by simp [s], hi, ?_, h.2⟩
  have hlen : s.inner.length + s.refused = 1 := by
    show s₁.inner.length + s₁.refused = 1
    rw [hi, hr]
    rfl
  exact hlen ▸ h.1

/-! ### Giving up -/

/-- **A timed call gives up only when no element is free.** If nobody else dequeues, every
element that is there was enqueued by a thread that has not signalled yet. -/
theorem promised_of_gaveUp (h : Reach step Any init s) {old : ℤ} {m : ℕ}
    (hu : s.pc u = .adjustCas old m) (hs : s.step (.work u) = some s') (hi : s'.pc u = .idle) :
    (∃ P H U, Tally s.pc Pc.posts P ∧ Tally s.pc Pc.held H ∧ Tally s.pc Pc.unsignalled U ∧
      s.inner.length + s.refused = s.mSema + P + H + U) ∧
    ((∀ v, v ≠ u → (s.pc v).waits = 0 ∧ (s.pc v).held = 0) →
      ∃ U, Tally s.pc Pc.unsignalled U ∧ s.inner.length ≤ U) := by
  have hB := balanced_of_reach h
  obtain ⟨W, P, H, U, hb⟩ := hB.books
  have ho := hb.owed
  have ha := hb.accounted
  simp only [Owed, Accounted] at ho ha
  have hneg : s.mCount < 0 := by
    have hold : old < 0 := by
      have := hB.ok u
      rw [hu] at this
      exact this
    simp only [step, work, hu] at hs
    split at hs <;> rename_i hm <;> cases hs
    · omega
    · simp at hi
  refine ⟨⟨P, H, U, hb.posts, hb.held, hb.unsignalled, by omega⟩, fun halone => ?_⟩
  have hW : W = 1 := by
    have t := hb.waits.update u .idle (m := W - 1) (by
      have := hb.waits.le u
      rw [hu] at this ⊢
      simp only [Pc.waits] at this ⊢
      omega)
    have hz := t.eq_zero fun v => by
      by_cases e : v = u
      · rw [e, Function.update_self]
        rfl
      · rw [Function.update_of_ne e]
        exact (halone v e).1
    have := hb.waits.le u
    rw [hu] at this
    simp only [Pc.waits] at this
    omega
  have hH : H = 0 := hb.held.eq_zero fun v => by
    by_cases e : v = u
    · rw [e, hu]
      rfl
    · exact (halone v e).2
  exact ⟨U, hb.unsignalled, by omega⟩

/-- A thread waits for an element, and its timeout runs out. -/
theorem promised_of_gaveUp_oneAsleep : ∃ s s', Reach step Any init s ∧
    s.step (.work 0) = some s' ∧ s'.pc 0 = .idle ∧
    ∃ U, Tally s.pc Pc.unsignalled U ∧ s.inner.length ≤ U := by
  obtain ⟨s, hs, hu, hm, hp⟩ : ∃ s, run step (oneAsleep (.timed 1)) [.timeout 0, .work 0] = some s ∧
      s.pc 0 = .adjustCas (-1) 1 ∧ s.mCount = -1 ∧ ∀ v, v ≠ 0 → s.pc v = .idle := by
    refine ⟨_, rfl, rfl, rfl, fun v hv => ?_⟩
    simp [goto, oneAsleep, init, hv]
  obtain ⟨s', hs', hi'⟩ : ∃ s', s.step (.work 0) = some s' ∧ s'.pc 0 = .idle := by
    refine ⟨{ s with mCount := -1 + 1 }.goto 0 .idle, ?_, by simp⟩
    simp [step, work, hu, hm]
  have hr := (reach_oneAsleep (p := .timed 1) (by simp)).trans
    (.of_run [.timeout 0, .work 0] (fun _ _ _ => trivial) hs)
  refine ⟨s, s', hr, hs', hi', (promised_of_gaveUp hr hu hs' hi').2 fun v hv => ?_⟩
  rw [hp v hv]
  exact ⟨rfl, rfl⟩

/-- **The loop after a timeout does not spin for nothing**: `m_count` is below zero, so that
it can give up, or the kernel can let it through, or a thread is about to release one. -/
theorem settles_of_adjust (h : Reach step Any init s) (hu : (s.pc u).waits = 1) :
    s.mCount < 0 ∨ 0 < s.mSema ∨ ∃ v k, s.pc v = .post (k + 1) := by
  obtain ⟨W, P, H, U, hb⟩ := (balanced_of_reach h).books
  have hW := hb.waits.le u
  rw [hu] at hW
  have ho := hb.owed
  simp only [Owed] at ho
  by_cases hpos : s.mCount < 0 ∨ 0 < s.mSema
  · exact hpos.imp_right .inl
  · simp only [not_or] at hpos
    have hP : P ≠ 0 := by omega
    obtain ⟨v, hv⟩ : ∃ v, (s.pc v).posts ≠ 0 := by
      by_contra hno
      exact hP (hb.posts.eq_zero fun v => not_not.mp fun hv => hno ⟨v, hv⟩)
    refine .inr (.inr ⟨v, ?_⟩)
    cases hc : s.pc v with
    | post k =>
      obtain ⟨k, rfl⟩ : ∃ j, k = j + 1 := ⟨k - 1, by rw [hc] at hv; simp only [Pc.posts] at hv; omega⟩
      exact ⟨k, rfl⟩
    | _ => simp [hc, Pc.posts] at hv

/-- The timeout of thread `0` runs out while thread `1` is about to release it. -/
theorem settles_of_adjust_oneAsleep : ∃ s, Reach step Any init s ∧ s.pc 0 = .adjust 1 ∧ ¬ s.mCount < 0 ∧
    (s.mCount < 0 ∨ 0 < s.mSema ∨ ∃ v k, s.pc v = .post (k + 1)) := by
  obtain ⟨s, hs, hu, hm⟩ : ∃ s,
      run step (oneAsleep (.timed 1)) [.timeout 0, .enqueue 1 1, .work 1, .work 1] = some s ∧
      s.pc 0 = .adjust 1 ∧ s.mCount = 0 := ⟨_, rfl, rfl, rfl⟩
  have hr := (reach_oneAsleep (p := .timed 1) (by simp)).trans
    (.of_run [.timeout 0, .enqueue 1 1, .work 1, .work 1] (fun _ _ _ => trivial) hs)
  refine ⟨s, hr, hu, by rw [hm]; exact Int.lt_irrefl 0, settles_of_adjust (u := 0) hr ?_⟩
  rw [hu]
  rfl

/-! ### When the queue comes to rest -/

/-- **Nothing in the queue can happen.** -/
def Stuck (s : State) : Prop := ∀ a, a.inner = true → s.step a = none

/-- **The queue is at rest**: who is in a call waits for ever, and has nothing to wait for. -/
structure Rests (s : State) : Prop where
  threads : ∀ u, s.pc u = .idle ∨ ∃ m, s.pc u = .sleep m .forever
  asleep : ∀ u m, s.pc u = .sleep m .forever → s.mSema = 0 ∧ s.inner = []

theorem Stuck.threads (h : s.Stuck) (hB : s.Balanced) (u : ℕ) :
    s.pc u = .idle ∨ ∃ m, s.pc u = .sleep m .forever ∧ s.mSema = 0 := by
  have hw : s.work u = none := h (.work u) rfl
  cases hc : s.pc u with
  | idle => exact .inl rfl
  | sleep m p =>
    have hS : s.mSema = 0 := by simpa [work, hc] using hw
    cases p with
    | none =>
      have := hB.ok u
      rw [hc] at this
      exact absurd rfl this
    | timed =>
      have := h (.timeout u) rfl
      simp [step, hc] at this
    | forever => exact .inr ⟨m, rfl, hS⟩
  | dequeue k =>
    cases k with
    | zero => simp [work, hc] at hw
    | succ k =>
      cases hi : s.inner with
      | nil => simp [work, hc, hi] at hw
      | cons x l =>
        have := h (.take u x) rfl
        simp [step, hc, hi] at this
  | post k => cases k <;> simp [work, hc] at hw
  | spin k => cases k <;> simp [work, hc] at hw
  | cas | spinCas | tryWait | adjustCas =>
    simp only [work, hc] at hw
    split at hw <;> cases hw
  | _ => simp [work, hc] at hw

/-- **The queue is stuck exactly when it is at rest.** -/
theorem stuck_iff (h : Reach step Any init s) : s.Stuck ↔ s.Rests := by
  constructor
  · intro hs
    have ht := hs.threads (balanced_of_reach h)
    refine ⟨fun u => (ht u).imp_right fun ⟨m, hm, _⟩ => ⟨m, hm⟩, fun u m hu => ?_⟩
    have hz : ∀ v, (s.pc v).unsignalled = 0 ∧ (s.pc v).posts = 0 ∧ (s.pc v).held = 0 := by
      intro v
      rcases ht v with hv | ⟨m, hv, -⟩ <;> rw [hv] <;> exact ⟨rfl, rfl, rfl⟩
    have hS : s.mSema = 0 := by
      rcases ht u with hv | ⟨-, -, hS⟩
      · rw [hu] at hv
        cases hv
      · exact hS
    have hlen := ((balanced_of_reach h).eq_held (u := u) (by rw [hu]; rfl) hS fun v =>
      ⟨(hz v).1, (hz v).2.1⟩).1.eq_zero fun v => (hz v).2.2
    exact ⟨hS, List.length_eq_zero_iff.mp (by omega)⟩
  · intro hs a ha
    cases a with
    | work u =>
      rcases hs.threads u with hu | ⟨m, hu⟩
      · simp [step, work, hu]
      · simp [step, work, hu, (hs.asleep u m hu).1]
    | timeout u => rcases hs.threads u with hu | ⟨m, hu⟩ <;> simp [step, hu]
    | take u x => rcases hs.threads u with hu | ⟨m, hu⟩ <;> simp [step, hu]
    | _ => cases ha

/-- Thread `0` has been woken, and has an element to get. -/
theorem stuck_iff_oneWoken : ∃ s, Reach step Any init s ∧ s.inner = [0] ∧ (s.Stuck ↔ s.Rests) := by
  obtain ⟨s, hs, hi⟩ : ∃ s, run step (oneAsleep .forever) oneWoken = some s ∧ s.inner = [0] :=
    ⟨_, rfl, rfl⟩
  have hr := (reach_oneAsleep (p := .forever) (by simp)).trans
    (.of_run oneWoken (fun _ _ _ => trivial) hs)
  exact ⟨s, hr, hi, stuck_iff hr⟩

end State

end MutilsTasks.BlockingQueue
