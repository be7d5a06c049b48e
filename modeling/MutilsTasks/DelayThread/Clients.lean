import MutilsTasks.Library.Lanes
import MutilsTasks.DelayThread.Order

/-!
# Any number of clients

The queue keeps the order of each client, and so does the worker: the actions of one client are
started in the order in which it has submitted them, each once and none early, whatever other
clients do (`in_client_order`). Between two clients anything may happen: the queue hands out
whose action it likes.

An action does not say who has submitted it. `L` and `B` below are what has been submitted and
what has been started, each with its client.
-/

namespace MutilsTasks.DelayThread

open Machine

/-- Who has submitted, in order. -/
def clients : List Action → List ℕ
  | [] => []
  | .submit client :: as => client :: clients as
  | _ :: as => clients as

theorem clients_append (as bs : List Action) : clients (as ++ bs) = clients as ++ clients bs := by
  induction as with
  | nil => rfl
  | cons a as ih => cases a <;> simp [clients, ih]

namespace State

variable {s s' : State} {a : Action} {as : List Action} {now : ℤ} {L B p : List (ℕ × DelayedAction)}

/-- **Where the actions of each client are**: those that have been started, the one in the
worker's hands, those in the queue. -/
structure InLanes (as : List Action) (s : State) (L B p : List (ℕ × DelayedAction)) : Prop where
  who : L.map Prod.fst = clients as
  line : L.map Prod.snd = s.line
  begun : B.map Prod.snd = s.begun
  pending : p.map Prod.snd = s.worker.pending
  lanes : s.worker ≠ .exited → ∀ c, lane c L = lane c (B ++ p ++ s.q)
  started : ∀ c, lane c B <+: lane c L
  names : s.line.map DelayedAction.task = List.range s.submitted.length

/-- No action moves. -/
theorem InLanes.stay (h : s.InLanes as L B p) (ha : clients [a] = []) (hl : s'.submitted = s.submitted)
    (hb : s'.started = s.started) (hp : s'.worker.pending = s.worker.pending)
    (hw : s'.worker ≠ .exited → s.worker ≠ .exited) (hq : s'.q = s.q) :
    s'.InLanes (as ++ [a]) L B p where
  who := by rw [clients_append, ha, List.append_nil, h.who]
  line := by rw [h.line, State.line, State.line, hl]
  begun := by rw [h.begun, State.begun, State.begun, hb]
  pending := by rw [h.pending, hp]
  lanes hx c := by rw [hq, h.lanes (hw hx) c]
  started := h.started
  names := by rw [State.line, hl, ← h.names, State.line]

theorem InLanes.step (h : s.InLanes as L B p) (hs : s.step a = some s') :
    ∃ L B p, s'.InLanes (as ++ [a]) L B p := by
  cases step_spec hs with
  | @submits client =>
    let x : DelayedAction := ⟨s.submitted.length, s.now + s.delayAmount⟩
    have hline : (s.submit client).line = s.line ++ [x] := by simp [State.line, submit, x]
    refine ⟨L ++ [(client, x)], B, p, ?_, ?_, h.begun, h.pending, fun hw c => ?_, fun c => ?_, ?_⟩
    · rw [clients_append, List.map_append, h.who]
      rfl
    · rw [hline, List.map_append, h.line]
      rfl
    · have hq : (s.submit client).q = s.q ++ [(client, x)] := rfl
      rw [hq, lane_append, h.lanes hw c]
      simp
    · rw [lane_append]
      exact (h.started c).trans (List.prefix_append _ _)
    · rw [hline, List.map_append, h.names]
      simp [submit, List.range_succ, x]
  | delays | ticks | destroys => exact ⟨L, B, p, h.stay rfl rfl rfl rfl id rfl⟩
  | @dequeues client t x hw he =>
    refine ⟨L, B, [(client, x)], ?_, h.line, h.begun, rfl, fun _ c => ?_, h.started, h.names⟩
    · rw [clients_append, h.who]
      exact (List.append_nil _).symm
    · have hp : p = [] := by simpa [hw, Worker.pending] using h.pending
      show lane c L = lane c (B ++ [(client, x)] ++ s.q.erase (client, x))
      rw [h.lanes (by simp [hw]) c, hp, List.append_nil, lane_append, lane_of_find he, lane_append,
        lane_append, List.append_assoc]
  | timesOut hw =>
    refine ⟨L, B, [], ?_, h.line, h.begun, rfl, fun hx => absurd rfl hx, h.started, h.names⟩
    rw [clients_append, h.who]
    exact (List.append_nil _).symm
  | breaks =>
    refine ⟨L, B, [], ?_, h.line, h.begun, rfl, fun hx => absurd rfl hx, h.started, h.names⟩
    rw [clients_append, h.who]
    exact (List.append_nil _).symm
  | @turns w hc _ hr _ hr' =>
    have hp : w.pending = s.worker.pending := by
      rw [Worker.pending_of_current hr, Worker.pending_of_current hr', hc]
    refine ⟨L, B, p, h.stay rfl rfl rfl hp (fun _ he => ?_) rfl⟩
    simp [State.step, advance, he] at hs
  | @starts x hw =>
    obtain ⟨client, rfl⟩ : ∃ client, p = [(client, x)] := by
      have hp := h.pending
      rw [hw] at hp
      obtain ⟨e, rfl⟩ : ∃ e, p = [e] := List.length_eq_one_iff.mp (by simpa [Worker.pending] using congrArg List.length hp)
      exact ⟨e.1, by simpa [Worker.pending, Prod.ext_iff] using hp⟩
    have hl := h.lanes (by simp [hw])
    refine ⟨L, B ++ [(client, x)], [], ?_, h.line, ?_, rfl, fun _ c => ?_, fun c => ?_, h.names⟩
    · rw [clients_append, h.who]
      exact (List.append_nil _).symm
    · rw [List.map_append, h.begun]
      simp [State.begun]
    · simpa using hl c
    · rw [hl c, lane_append c (B ++ [(client, x)]) s.q]
      exact List.prefix_append _ _
  | @finishes x hw =>
    refine ⟨L, B, p, h.stay rfl rfl rfl ?_ (fun _ => by simp [hw]) rfl⟩
    rw [hw]
    rfl

theorem inLanes_of_run (h : run State.step (init now) as = some s) : ∃ L B p, s.InLanes as L B p := by
  refine run_history (I := fun as s => ∃ L B p, s.InLanes as L B p) ?_ ?_ h
  · exact ⟨[], [], [], rfl, rfl, rfl, rfl, fun _ _ => rfl, fun _ => List.prefix_rfl, rfl⟩
  · rintro as s a s' ⟨L, B, p, hI⟩ hs
    exact hI.step hs

/-- **The actions of each client run in order, once, and never early**, with any number of
clients, in every run. -/
theorem in_client_order (h : run State.step (init now) as = some s) :
    ∃ L B : List (ℕ × DelayedAction), L.map Prod.fst = clients as ∧ L.map Prod.snd = s.line ∧
      B.map Prod.snd = s.begun ∧ (∀ c, lane c B <+: lane c L) ∧
      (s.begun.map DelayedAction.task).Nodup ∧
      ∀ e ∈ s.started, ∃ x ∈ s.submitted, x.action = e.1 ∧ x.time + x.delay ≤ e.2 := by
  obtain ⟨L, B, p, hI⟩ := inLanes_of_run h
  have ht : s.Timed := run_invariant (init_timed now) (fun _ _ _ _ ih hs => ih.step hs) h
  have hmem : ∀ e ∈ B, e ∈ L := fun e he =>
    (mem_lane.mp ((hI.started e.1).subset (mem_lane.mpr ⟨he, rfl⟩))).1
  have hnames : (L.map fun e => e.2.task).Nodup := by
    have : L.map (fun e => e.2.task) = s.line.map DelayedAction.task := by
      rw [← hI.line, List.map_map]
      rfl
    rw [this, hI.names]
    exact List.nodup_range
  refine ⟨L, B, hI.who, hI.line, hI.begun, hI.started, ?_, fun e he => ?_⟩
  · have hB : B.Nodup := nodup_of_lanes hI.started hnames.of_map
    rw [← hI.begun, List.map_map]
    exact hB.map_on fun x hx y hy e => List.inj_on_of_nodup_map hnames (hmem x hx) (hmem y hy) e
  · have hb : e.1 ∈ B.map Prod.snd := hI.begun ▸ List.mem_map_of_mem he
    obtain ⟨b, hb, hbe⟩ := List.mem_map.mp hb
    have hm : e.1 ∈ s.line := by
      rw [← hI.line, ← hbe]
      exact List.mem_map_of_mem (hmem b hb)
    obtain ⟨x, hx, hxe⟩ := List.mem_map.mp hm
    have h₁ := ht.submitted x hx
    have h₂ := ht.started e he
    rw [hxe] at h₁
    exact ⟨x, hx, hxe, by omega⟩

/-- Two clients submit, and the second one is served first. -/
def overtaking : List Action :=
  [.submit 1, .submit 2, .submit 1, .advance, .dequeue 2] ++ List.replicate 6 .advance ++
    .dequeue 1 :: List.replicate 4 .advance

theorem in_client_order_overtaking : ∃ s, run State.step (init 0) overtaking = some s ∧
    s.begun.map DelayedAction.task = [1, 0] ∧ ∃ L B : List (ℕ × DelayedAction),
      L.map Prod.fst = [1, 2, 1] ∧ B.map Prod.snd = s.begun ∧ ∀ c, lane c B <+: lane c L := by
  obtain ⟨s, hs, hb⟩ : ∃ s, run State.step (init 0) overtaking = some s ∧
      s.begun.map DelayedAction.task = [1, 0] := ⟨_, rfl, rfl⟩
  obtain ⟨L, B, hL, -, hB, hlanes, -⟩ := in_client_order hs
  exact ⟨s, hs, hb, L, B, hL, hB, hlanes⟩

end State

end MutilsTasks.DelayThread
