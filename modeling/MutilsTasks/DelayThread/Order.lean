import MutilsTasks.DelayThread.Worker

/-!
# The order of the delayed actions

With one client the queue is first in, first out, so the actions are in a line: those that
have been started, the one in the worker's hands, those in the queue (`Lined`). The worker
takes an action out of the line only when it leaves its loop, and starts nothing after that.

The deadline of an action is fixed when it is submitted. The inner loop ends when the
deadline has passed or when `destroying` is set, and the test after it tells the two apart.
-/

namespace MutilsTasks.DelayThread

open Machine

/-- The action that the worker has and has not started. -/
def Worker.pending : Worker → List DelayedAction
  | .dequeued a | .testTime a | .inLoop a | .sleeping a _ | .afterLoop a | .due a => [a]
  | .calling | .waiting _ | .running _ | .exited => []

theorem Worker.pending_of_current {w : Worker} (hw : ∀ a, w ≠ .running a) :
    w.pending = w.current.toList := by
  cases w with
  | running a => exact absurd rfl (hw a)
  | _ => rfl

namespace State

variable {s s' : State} {a : Action} {now : ℤ} {c : ℕ}

/-- Nobody but client `c` submits. -/
def Sole (c : ℕ) (_ : State) (a : Action) : Prop := ∀ client, a = .submit client → client = c

/-- The worker is about to observe that `destroying` is set, in one of its three tests. -/
def Observes (s : State) : Prop :=
  s.destroying = true ∧ ∃ a, s.worker = .dequeued a ∨ s.worker = .inLoop a ∨ s.worker = .afterLoop a

/-- The actions that have been submitted. -/
def line (s : State) : List DelayedAction := s.submitted.map Submission.action

/-- The actions that have been started. -/
def begun (s : State) : List DelayedAction := s.started.map Prod.fst

/-! ### The line -/

/-- **Where the actions are.** -/
structure Lined (c : ℕ) (s : State) : Prop where
  sole : ∀ e ∈ s.q, e.1 = c
  line : s.worker ≠ .exited → s.line = s.begun ++ s.worker.pending ++ s.q.map Prod.snd
  begun : s.begun <+: s.line
  names : s.line.map DelayedAction.task = List.range s.submitted.length

theorem init_lined (c : ℕ) (now : ℤ) : (init now).Lined c :=
  ⟨nofun, fun _ => rfl, List.prefix_rfl, rfl⟩

/-- Of one client the oldest element is the first. -/
theorem Lined.head_of_find (h : s.Lined c) {client : ℕ} {x : DelayedAction}
    (he : s.q.find? (fun e => e.1 = client) = some (client, x)) : ∃ q, s.q = (client, x) :: q := by
  cases hq : s.q with
  | nil =>
    rw [hq] at he
    cases he
  | cons e q =>
    have hm : (client, x) ∈ s.q := List.mem_of_find?_eq_some he
    have h₁ : client = c := h.sole _ hm
    have h₂ : e.1 = c := h.sole e (by rw [hq]; exact List.mem_cons_self)
    rw [hq, List.find?_cons_of_pos (by simp [h₁, h₂])] at he
    exact ⟨q, by rw [Option.some.inj he]⟩

/-- **Every step keeps the line.** -/
theorem Lined.step (h : s.Lined c) (ha : s.Sole c a) (hs : s.step a = some s') : s'.Lined c := by
  cases step_spec hs with
  | @submits client =>
    have hline : (s.submit client).line = s.line ++ [⟨s.submitted.length, s.now + s.delayAmount⟩] := by
      simp [State.line, submit]
    refine ⟨fun e he => ?_, fun hw => ?_, ?_, ?_⟩
    · rcases List.mem_append.mp he with he | he
      · exact h.sole e he
      · rw [List.mem_singleton] at he
        rw [he]
        exact ha client rfl
    · rw [hline, h.line hw]
      simp [submit, State.begun]
    · rw [hline]
      exact h.begun.trans (List.prefix_append _ _)
    · rw [hline, List.map_append, h.names]
      simp [submit, List.range_succ]
  | delays | ticks | destroys => exact ⟨h.sole, h.line, h.begun, h.names⟩
  | @dequeues client t x hw he =>
    obtain ⟨q, hq⟩ := h.head_of_find he
    refine ⟨fun e hm => h.sole e (List.mem_of_mem_erase hm), fun _ => ?_, h.begun, h.names⟩
    have hl := h.line (by simp [hw])
    rw [hw, hq] at hl
    show s.line = s.begun ++ [x] ++ (s.q.erase (client, x)).map Prod.snd
    rw [hl, hq, List.erase_cons_head]
    simp [Worker.pending]
  | timesOut => exact ⟨h.sole, fun hw => absurd rfl hw, h.begun, h.names⟩
  | breaks => exact ⟨h.sole, fun hw => absurd rfl hw, h.begun, h.names⟩
  | @turns w hc hw hr hd hr' =>
    refine ⟨h.sole, fun _ => ?_, h.begun, h.names⟩
    have hp : w.pending = s.worker.pending := by
      rw [Worker.pending_of_current hr, Worker.pending_of_current hr', hc]
    show s.line = s.begun ++ w.pending ++ s.q.map Prod.snd
    rw [hp]
    apply h.line
    intro he
    simp [State.step, advance, he] at hs
  | @starts x hw =>
    have hl := h.line (by simp [hw])
    have hb : ({ s with worker := .running x, started := s.started ++ [(x, s.now)] } : State).begun =
        s.begun ++ [x] := by
      simp [State.begun]
    have hl' : s.line = s.begun ++ [x] ++ [] ++ s.q.map Prod.snd := by
      rw [hl, hw]
      simp [Worker.pending]
    refine ⟨h.sole, fun _ => ?_, ?_, h.names⟩
    · rw [hb]
      exact hl'
    · rw [hb]
      show s.begun ++ [x] <+: s.line
      rw [hl', List.append_nil]
      exact List.prefix_append _ _
  | finishes hw =>
    refine ⟨h.sole, fun _ => ?_, h.begun, h.names⟩
    have hl := h.line (by simp [hw])
    rw [hw] at hl
    exact hl

/-! ### The deadlines -/

/-- **What the clock has to do with it.** -/
structure Timed (s : State) : Prop where
  submitted : ∀ x ∈ s.submitted, x.action.time = x.time + x.delay
  started : ∀ e ∈ s.started, e.1.time ≤ e.2
  afterLoop : ∀ a, s.worker = .afterLoop a → s.destroying = true ∨ a.time ≤ s.now
  due : ∀ a, s.worker = .due a → a.time ≤ s.now

theorem init_timed (now : ℤ) : (init now).Timed := ⟨nofun, nofun, nofun, nofun⟩

/-- **Every step keeps it.** -/
theorem Timed.step (h : s.Timed) (hs : s.step a = some s') : s'.Timed := by
  cases step_spec hs with
  | @submits client =>
    refine ⟨fun x hx => ?_, h.started, h.afterLoop, h.due⟩
    rcases List.mem_append.mp hx with hx | hx
    · exact h.submitted x hx
    · rw [List.mem_singleton] at hx
      rw [hx]
  | delays => exact ⟨h.submitted, h.started, h.afterLoop, h.due⟩
  | @ticks n =>
    refine ⟨h.submitted, h.started, fun a ha => (h.afterLoop a ha).imp_right fun ht => ?_,
      fun a ha => ?_⟩
    · show a.time ≤ s.now + n
      omega
    · have ht := h.due a ha
      show a.time ≤ s.now + n
      omega
  | dequeues => exact ⟨h.submitted, h.started, nofun, nofun⟩
  | timesOut => exact ⟨h.submitted, h.started, nofun, nofun⟩
  | breaks => exact ⟨h.submitted, h.started, nofun, nofun⟩
  | finishes => exact ⟨h.submitted, h.started, nofun, nofun⟩
  | turns _ _ _ hd _ hl =>
    refine ⟨h.submitted, h.started, hl, fun a ha => ?_⟩
    obtain ⟨hw, hn⟩ := hd a ha
    apply (h.afterLoop a hw).resolve_left
    rw [hn]
    nofun
  | @starts x hw =>
    refine ⟨h.submitted, fun e he => ?_, nofun, nofun⟩
    rcases List.mem_append.mp he with he | he
    · exact h.started e he
    · rw [List.mem_singleton] at he
      rw [he]
      exact h.due x hw
  | destroys => exact ⟨h.submitted, h.started, fun _ _ => .inl rfl, h.due⟩

/-! ### The end -/

/-- The worker has observed that `destroying` is set. -/
def Stopped (s : State) : Prop :=
  s.destroying = true ∧ (s.worker = .exited ∨ ∃ a, s.worker = .afterLoop a)

theorem Observes.stopped (h : s.Observes) (hs : s.step .advance = some s') :
    s'.Stopped ∧ s'.started = s.started := by
  obtain ⟨hd, a, hw | hw | hw⟩ := h <;>
    simp only [step, advance, hw, hd, if_true, Option.some.injEq] at hs <;> subst hs
  · exact ⟨⟨hd, .inl rfl⟩, rfl⟩
  · exact ⟨⟨hd, .inr ⟨a, rfl⟩⟩, rfl⟩
  · exact ⟨⟨hd, .inl rfl⟩, rfl⟩

/-- A worker that has stopped starts nothing. -/
theorem Stopped.step (h : s.Stopped) (hs : s.step a = some s') :
    s'.Stopped ∧ s'.started = s.started := by
  obtain ⟨hd, hw⟩ := h
  cases a with
  | advance =>
    rcases hw with hw | ⟨x, hw⟩
    · simp [State.step, advance, hw] at hs
    · exact Observes.stopped ⟨hd, x, .inr (.inr hw)⟩ hs
  | dequeue client =>
    rcases hw with hw | ⟨x, hw⟩ <;> simp [State.step, hw] at hs
  | timeout =>
    rcases hw with hw | ⟨x, hw⟩ <;> simp [State.step, hw] at hs
  | submit client =>
    cases hs
    exact ⟨⟨hd, hw⟩, rfl⟩
  | setDelay t =>
    cases hs
    exact ⟨⟨hd, hw⟩, rfl⟩
  | tick n =>
    cases hs
    exact ⟨⟨hd, hw⟩, rfl⟩
  | destroy =>
    cases hs
    exact ⟨⟨rfl, hw⟩, rfl⟩

theorem Stopped.reach {P : State → Action → Prop} (h : s.Stopped) (hr : Reach State.step P s s') :
    s'.started = s.started := by
  have key : s'.Stopped ∧ s'.started = s.started := by
    apply hr.invariant (I := fun t => t.Stopped ∧ t.started = s.started) ⟨h, rfl⟩
    intro t b t' _ ih _ hs
    obtain ⟨ht, he⟩ := ih.1.step hs
    exact ⟨ht, he.trans ih.2⟩
  exact key.2

/-- **Delayed actions run in order, once, and never early**, whatever happens to the delay and
whenever the `delay_thread` is destroyed: what has been started is a prefix of what has been
submitted, no task twice, each after its submission by at least the delay of that time, and
nothing is started once the worker has observed that `destroying` is set. -/
theorem in_order (h : Reach step (Sole c) (init now) s) :
    s.begun <+: s.line ∧ (s.begun.map DelayedAction.task).Nodup ∧
    (∀ e ∈ s.started, ∃ x ∈ s.submitted, x.action = e.1 ∧ x.time + x.delay ≤ e.2) ∧
    ∀ s' s'', s.Observes → s.step .advance = some s' → Reach step (Sole c) s' s'' →
      s''.started = s.started := by
  have hl : s.Lined c := h.invariant (init_lined c now) fun _ _ _ _ ih ha hs => ih.step ha hs
  have ht : s.Timed := h.invariant (init_timed now) fun _ _ _ _ ih _ hs => ih.step hs
  refine ⟨hl.begun, ?_, fun e he => ?_, fun s' s'' ho hs hr => ?_⟩
  · have hp := hl.begun.map DelayedAction.task
    rw [hl.names] at hp
    exact hp.sublist.nodup List.nodup_range
  · have hm : e.1 ∈ s.line := hl.begun.subset (List.mem_map_of_mem he)
    obtain ⟨x, hx, hxe⟩ := List.mem_map.mp hm
    have h₁ := ht.submitted x hx
    have h₂ := ht.started e he
    rw [hxe] at h₁
    exact ⟨x, hx, hxe, by omega⟩
  · obtain ⟨hst, he⟩ := ho.stopped hs
    exact (hst.reach hr).trans he

/-- The delay shrinks between two submissions, and the second action is started after the
first. -/
def shrinking : List Action :=
  [.setDelay 5000000, .submit 0, .setDelay 1, .submit 0, .advance, .dequeue 0, .advance, .advance,
    .advance, .tick 5000000, .advance, .advance, .advance, .advance, .advance, .advance, .dequeue 0,
    .advance, .advance, .advance, .advance]

theorem in_order_shrinking : ∃ s, run step (init 0) shrinking = some s ∧ s.started.length = 2 ∧
    s.begun <+: s.line ∧ (s.begun.map DelayedAction.task).Nodup ∧
    (∀ e ∈ s.started, ∃ x ∈ s.submitted, x.action = e.1 ∧ x.time + x.delay ≤ e.2) ∧
    ∀ s' s'', s.Observes → s.step .advance = some s' → Reach step (Sole 0) s' s'' →
      s''.started = s.started := by
  have hsole : ∀ (t : State), ∀ a ∈ shrinking, t.Sole 0 a := by
    intro t a ha client e
    subst e
    simpa [shrinking] using ha
  obtain ⟨s, hs, hn⟩ : ∃ s, run step (init 0) shrinking = some s ∧ s.started.length = 2 :=
    ⟨_, rfl, rfl⟩
  exact ⟨s, hs, hn, in_order (.of_run shrinking hsole hs)⟩

end State

end MutilsTasks.DelayThread
