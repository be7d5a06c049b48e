import MutilsTasks.FutureFreePool.Closures

/-!
# When the list of free ids runs empty

An id is taken when a task is submitted and comes back when its closure is destroyed. The
global pool queues any number of tasks, and nothing in `launch` counts them: `get_pos` reads
the front of the list without a test, and its assertion looks at what has been read.

Here one operation is performed at a time, so the mutex plays no part. `get_pos` finds an
id as long as at each call of `launch` the closures of fewer than `bound` earlier calls are
still there, and finds none when those of `bound` are. Where the shared state of a
`packaged_task` keeps its function these are all earlier calls: then `bound` calls are all that
can ever be made, even if each task has run before the next call.
-/

namespace MutilsTasks.FutureFreePool

open Machine

/-- No operation of the call is in progress: it has not been made, or it has returned and
its task waits or has run. -/
def Call.atRest : Call → Bool
  | .idle | .pushed _ .stored .queued | .pushed _ .stored .kept | .pushed _ .stored .finished => true
  | _ => false

/-- Its task does not wait and does not run. -/
def Call.hasRun : Call → Bool
  | .idle | .pushed _ _ .kept | .pushed _ _ .finished => true
  | _ => false

/-- The call is executing `get_pos` and has not removed an id. -/
def Call.takes : Call → Bool
  | .lock | .unlock | .front | .popFront _ => true
  | _ => false

theorem Call.inGetPos_of_takes {c : Call} (h : c.takes = true) :
    c.inGetPos = true ∧ c.id = none := by
  cases c <;> first | exact ⟨rfl, rfl⟩ | cases h

/-- A call at rest that is unfinished has an id. -/
theorem Call.id_of_atRest {c : Call} (hr : c.atRest = true) (hun : c.unfinished = true) :
    ∃ id, c.id = some id := by
  cases c with
  | pushed pos b t =>
    cases t <;> first | exact ⟨pos, rfl⟩ | cases hun
  | idle => cases hun
  | _ => cases hr

namespace State

variable {keeps : Bool} {s s' : State} {a : Action} {u v : ℕ}

/-- A call of `launch` or a completion begins only when no other operation is in progress. -/
def OneAtATime (s : State) (a : Action) : Prop :=
  (s.call a.thread).atRest = true → ∀ v, (s.call v).atRest = true

/-- **`get_pos` does not take an id from an empty list**, and no index is out of bounds. -/
structure InBounds (s : State) : Prop where
  taken : ∀ u, (s.call u).takes = true → s.availableIds ≠ []
  index : ∀ u pos b t, s.call u = .pushed pos b t → 0 ≤ pos ∧ pos < bound

/-- At most one operation is in progress. -/
def Solo (s : State) : Prop :=
  ∀ u v, (s.call u).atRest = false → (s.call v).atRest = false → u = v

theorem Solo.step (hs : s.Solo) (inv : s.Inv) (hc : s.Closures keeps) (ha : s.OneAtATime a)
    (h : s.step keeps a = some s') : s'.Solo := by
  have key : ∀ v, (s'.call v).atRest = false → v = a.thread := by
    intro v hv
    by_cases e : v = a.thread
    · exact e
    · rw [hc.call_of_ne inv h e] at hv
      cases hu : (s.call a.thread).atRest with
      | true =>
        rw [ha hu v] at hv
        cases hv
      | false => exact hs v _ hv hu
  intro v w hv hw
  rw [key v hv, key w hw]

/-- One at a time, no call reads the front of another. -/
theorem Solo.alone (hs : s.Solo) (a : Action) : s.Alone a := by
  intro u _ hu v
  cases hv : s.call v with
  | popFront pos =>
    obtain rfl := hs u v (by rw [hu]; rfl) (by rw [hv]; rfl)
    rw [hu] at hv
    cases hv
  | _ => rfl

/-- What a call has removed from the list is an id. -/
def Indexed (s : State) : Prop :=
  ∀ u pos, (s.call u).pos = some pos → 0 ≤ pos ∧ pos < bound

theorem Indexed.goto (hi : s.Indexed) {c : Call}
    (hc : ∀ pos, c.pos = some pos → 0 ≤ pos ∧ pos < bound) : (s.goto u c).Indexed := by
  intro v pos hv
  rw [goto_call] at hv
  split at hv
  · exact hc pos hv
  · exact hi v pos hv

theorem Indexed.step (hi : s.Indexed) (inv : s.Inv) (hcl : s.Closures keeps)
    (h : s.step keeps a = some s') : s'.Indexed := by
  obtain ⟨u, hu⟩ : ∃ u, Moves keeps s u a s' := ⟨_, step_spec h⟩
  cases hu with
  | launches => exact hi.goto nofun
  | turns hk => exact hi.goto fun pos hp => hi u pos (hk.pos.symm.trans hp)
  | @stores pos t hc =>
    rw [hcl.discard_eq_self inv hc]
    refine hi.goto fun q hq => hi u q ?_
    rw [hc]
    exact hq
  | reads => exact hi.goto nofun
  | @takes pos hc =>
    refine hi.goto fun q hq => ?_
    cases hq
    obtain ⟨ids, hids⟩ := List.head?_eq_some_iff.mp (inv.front u pos (by rw [hc]; rfl))
    exact (inv.ids pos).mp (.of_mem (by rw [hids]; exact List.mem_cons_self))
  | @returns pos b hc =>
    refine hi.goto fun q hq => hi u q ?_
    rw [hc]
    exact hq

/-- **What holds in every state of a run** of one operation at a time. -/
structure Orderly (keeps : Bool) (s : State) : Prop where
  inv : s.Inv
  closures : s.Closures keeps
  solo : s.Solo
  indexed : s.Indexed

theorem orderly_of_reach (h : Reach (step keeps) OneAtATime init s) : s.Orderly keeps := by
  apply h.invariant ⟨init_inv, init_closures keeps, nofun, nofun⟩
  rintro t b t' - ⟨inv, hc, hs, hi⟩ hb h
  exact ⟨inv.step (hs.alone b) h, hc.step inv h, hs.step inv hc hb h, hi.step inv hc h⟩

theorem unfinished_of_few (h : Reach (step keeps) (fun s a => s.Few a ∧ s.OneAtATime a) init s) :
    s.unfinished ≤ bound := by
  have key : s.unfinished ≤ bound ∧ Reach (step keeps) OneAtATime init s := by
    induction h with
    | refl => exact ⟨Nat.zero_le _, .refl⟩
    | tail _ hp hs ih =>
      exact ⟨(orderly_of_reach ih.2).inv.unfinished_le hp.1 ih.1 hs, .tail ih.2 hp.2 hs⟩
  exact key.1

/-- At rest, the unfinished tasks are those that have an id. -/
theorem Inv.unfinished_le_holders (inv : s.Inv) (hr : ∀ v, (s.call v).atRest = true) :
    s.unfinished ≤ s.holders.card := by
  have hnodup : (s.launched.filter fun v => (s.call v).unfinished).Nodup := inv.nodup.filter _
  rw [unfinished, List.countP_eq_length_filter, ← List.toFinset_card_of_nodup hnodup]
  apply Finset.card_le_card
  intro v hv
  obtain ⟨-, hun⟩ := List.mem_filter.mp (List.mem_toFinset.mp hv)
  apply inv.mem_holders.mpr
  exact Call.id_of_atRest (hr v) hun

/-- **A call finds no id when `bound` tasks are unfinished.** -/
theorem availableIds_eq_nil (inv : s.Inv) (hr : ∀ v, (s.call v).atRest = true)
    (hb : bound ≤ s.unfinished) : s.availableIds = [] := by
  have h₁ := inv.unfinished_le_holders hr
  have h₂ := inv.length_add_holders
  apply List.eq_nil_of_length_eq_zero
  omega

/-- **`get_pos` finds an id, and every index is in bounds, as long as at each call the closures of
fewer than `bound` calls are still there**; a call that is made when those of `bound` are does not
find one. Where the shared state keeps the function, all closures are still there. -/
theorem taken_in_bounds (keeps : Bool) (s s' : State) (a : Action) :
    (Reach (step keeps) (fun s a => s.Few a ∧ s.OneAtATime a) init s → s.InBounds) ∧
    (Reach (step keeps) OneAtATime init s → s.OneAtATime a → s.step keeps a = some s' → ¬ s.Few a →
      ¬ s'.InBounds) ∧
    (Reach (step true) OneAtATime init s → s.unfinished = s.launched.length) := by
  refine ⟨fun h => ?_, fun h ha hs hb hin => ?_, fun h => ?_⟩
  · obtain ⟨inv, -, -, hi⟩ := orderly_of_reach (h.mono fun _ _ => And.right)
    refine ⟨fun u hu => ?_, fun u pos b t hu => hi u pos (by rw [hu]; rfl)⟩
    have := inv.card_le_length (unfinished_of_few h) {u} fun v hv => by
      rw [hand, Finset.mem_singleton.mp hv]
      exact Call.inGetPos_of_takes hu
    exact List.ne_nil_of_length_pos this
  · simp only [Few, not_forall] at hb
    obtain ⟨u, rfl, hb⟩ := hb
    simp only [step, Option.ite_none_right_eq_some, Option.some.injEq] at hs
    obtain ⟨hu, rfl⟩ := hs
    have hr : ∀ v, (s.call v).atRest = true := ha (by
      show (s.call u).atRest = true
      rw [hu]
      rfl)
    have hnil := availableIds_eq_nil (orderly_of_reach h).inv hr (Nat.not_lt.mp hb)
    exact hin.taken u (by simp [launch, Call.takes]) hnil
  · obtain ⟨inv, hc, -, -⟩ := orderly_of_reach h
    exact hc.unfinished_eq inv

/-- `Few` and `OneAtATime`, computed from the calls that have been made. -/
def fewInTurn (s : State) (a : Action) : Bool :=
  (match a with
    | .launch _ => s.unfinished < bound
    | _ => true) &&
  (!(s.call a.thread).atRest || s.launched.all fun v => (s.call v).atRest)

theorem reach_of_fewInTurn (h : Reach (step keeps) (fun s a => s.fewInTurn a = true) init s) :
    Reach (step keeps) (fun s a => s.Few a ∧ s.OneAtATime a) init s := by
  induction h with
  | refl => exact .refl
  | @tail s s' a _ ha hs ih =>
    have inv := (orderly_of_reach (ih.mono fun _ _ => And.right)).inv
    obtain ⟨hf, ho⟩ := Bool.and_eq_true_iff.mp ha
    refine ih.tail ⟨?_, fun hr v => ?_⟩ hs
    · rintro u rfl
      exact of_decide_eq_true hf
    · by_cases hv : v ∈ s.launched
      · rw [hr] at ho
        exact List.all_eq_true.mp ho v hv
      · rw [inv.launched, not_not] at hv
        rw [hv]
        rfl

/-- A call is made and its task runs, and then another one. The shared state keeps the functions. -/
def oneAfterAnother : List Action :=
  .launch 0 :: List.replicate 8 (.advance 0) ++ List.replicate 3 (.work 0) ++
    .launch 1 :: List.replicate 8 (.advance 1)

theorem taken_in_bounds_oneAfterAnother : ∃ s, run (step true) init oneAfterAnother = some s ∧
    s.call 0 = .pushed 0 .stored .kept ∧ s.call 1 = .pushed 1 .stored .queued ∧ s.InBounds ∧
    s.unfinished = 2 := by
  obtain ⟨ids, hids⟩ := initialIds_eq
  obtain ⟨s, hg, hs, h₀, h₁, hl⟩ : ∃ s,
      run (fun s a => if s.fewInTurn a = true then step true s a else none) init oneAfterAnother =
        some s ∧
      run (step true) init oneAfterAnother = some s ∧ s.call 0 = .pushed 0 .stored .kept ∧
      s.call 1 = .pushed 1 .stored .queued ∧ s.launched.length = 2 := by
    rw [init, hids]
    exact ⟨_, rfl, rfl, rfl, rfl, rfl⟩
  have hr := reach_of_fewInTurn (.of_guarded oneAfterAnother hg)
  have h := taken_in_bounds true s s (.launch 2)
  exact ⟨s, hs, h₀, h₁, h.1 hr, (h.2.2 (hr.mono fun _ _ => And.right)).trans hl⟩

/-! ### A thousand and one calls -/

/-- A call is made only when the tasks of all earlier ones have run. -/
def Served (s : State) (a : Action) : Prop :=
  ∀ u, a = .launch u → ∀ v, (s.call v).hasRun = true

/-- One operation at a time, and where the shared state keeps the functions a call is made only when
all tasks have run. -/
def Slow (keeps : Bool) (s : State) (a : Action) : Prop :=
  s.OneAtATime a ∧ (keeps = true → s.Served a)

/-- In the middle of a call nothing else begins. -/
theorem reach_advance (hr : (s.call u).atRest = false) (h : s.advance keeps u = some s') :
    Reach (step keeps) (Slow keeps) s s' := by
  refine .single (a := .advance u) ⟨fun h' => ?_, fun _ w e => by cases e⟩ h
  exact absurd (hr.symm.trans h') Bool.false_ne_true

/-- A call from its beginning to its end. -/
theorem reach_launch {pos : ℤ} {ids : List ℤ} (hr : ∀ v, (s.call v).atRest = true)
    (hrun : keeps = true → ∀ v, (s.call v).hasRun = true) (hu : s.call u = .idle)
    (hm : s.mutex = none) (hids : s.availableIds = pos :: ids) (hpos : -1 < pos)
    (hp : s.pending pos = none) :
    ∃ s', Reach (step keeps) (Slow keeps) s s' ∧ s'.mutex = none ∧ s'.launched = u :: s.launched ∧
      s'.pending pos = some u ∧ s'.call = Function.update s.call u (.pushed pos .stored .queued) := by
  let busy (l : List ℤ) (m : Option ℕ) (p : ℤ → Option ℕ) (c : Call) : State :=
    { availableIds := l, mutex := m, pending := p, call := Function.update s.call u c,
      launched := u :: s.launched }
  have next : ∀ {l m p c t}, c.atRest = false → (busy l m p c).advance keeps u = some t →
      Reach (step keeps) (Slow keeps) (busy l m p c) t := by
    intro l m p c t hc h
    apply reach_advance ?_ h
    rw [show (busy l m p c).call u = c from Function.update_self ..]
    exact hc
  have h₀ : Reach (step keeps) (Slow keeps) s (busy (pos :: ids) none s.pending .lock) := by
    apply Reach.single (a := .launch u)
    · exact ⟨fun _ => hr, fun hk _ _ => hrun hk⟩
    · simp [step, hu, launch, goto, busy, hids, hm]
  have h₁ := h₀.trans (next rfl (t := busy (pos :: ids) (some u) s.pending .unlock)
    (by simp [advance, goto, busy]))
  have h₂ := h₁.trans (next rfl (t := busy (pos :: ids) none s.pending .front)
    (by simp [advance, goto, busy]))
  have h₃ := h₂.trans (next rfl (t := busy (pos :: ids) none s.pending (.popFront pos))
    (by simp [advance, goto, busy]))
  have h₄ := h₃.trans (next rfl (t := busy ids none s.pending (.assertPos pos))
    (by simp [advance, goto, busy]))
  have h₅ := h₄.trans (next rfl (t := busy ids none s.pending (.push pos))
    (by simp [advance, goto, busy, hpos]))
  have h₆ := h₅.trans (next rfl (t := busy ids none s.pending (.pushed pos .pushing .queued))
    (by simp [advance, goto, busy]))
  have h₇ := h₆.trans (next rfl (t := busy ids none s.pending (.pushed pos .returned .queued))
    (by simp [advance, goto, busy, Task.release]))
  have h₈ := h₇.trans (next rfl (t := busy ids none (Function.update s.pending pos (some u))
    (.pushed pos .stored .queued)) (by simp [advance, goto, busy, discard, hp]))
  exact ⟨_, h₈, rfl, rfl, Function.update_self .., rfl⟩

/-- A task runs, and its closure is kept. -/
theorem reach_kept {pos : ℤ} (hr : ∀ v, (s.call v).atRest = true)
    (hu : s.call u = .pushed pos .stored .queued) (hp : s.pending pos = some u) :
    Reach (step true) (Slow true) s (s.goto u (.pushed pos .stored .kept)) := by
  have served : ∀ t : State, t.Served (.work u) := fun t w e => by cases e
  have slow : ∀ {t : State} {c : Call}, c.atRest = false → t.call u = c → t.Slow true (.work u) := by
    refine fun {t c} hc ht => ⟨fun h => ?_, fun _ => served t⟩
    have h' : (t.call u).atRest = true := h
    rw [ht, hc] at h'
    cases h'
  have h₁ : Reach (step true) (Slow true) s (s.goto u (.pushed pos .stored .running)) := by
    refine .single (a := .work u) ⟨fun _ => hr, fun _ => served s⟩ ?_
    simp [step, work, hu]
  have h₂ : Reach (step true) (Slow true) s (s.goto u (.pushed pos .stored .returned)) :=
    h₁.tail (a := .work u) (slow (c := .pushed pos .stored .running) rfl (by simp))
      (by simp [step, work, goto])
  exact h₂.tail (a := .work u) (slow (c := .pushed pos .stored .returned) rfl (by simp))
    (by simp [step, work, goto, needed, hp])

/-- Where a call is when nothing is in progress and it has been made. -/
def settled (keeps : Bool) (pos : ℤ) : Call := .pushed pos .stored (if keeps then .kept else .queued)

/-- After `n` calls, one after the other. Their tasks have run if the shared state keeps the
functions, and none has if not. -/
theorem reach_calls (keeps : Bool) (n : ℕ) (hn : n ≤ bound) :
    ∃ s, Reach (step keeps) (Slow keeps) init s ∧
      (∀ v, s.call v = .idle ∨ ∃ pos, s.call v = settled keeps pos) ∧ (∀ v, n ≤ v → s.call v = .idle) ∧
      s.mutex = none ∧ s.unfinished = n := by
  induction n with
  | zero => exact ⟨init, .refl, fun _ => .inl rfl, fun _ _ => rfl, rfl, rfl⟩
  | succ n ih =>
    obtain ⟨s, hs, hset, hi, hm, hn'⟩ := ih (Nat.le_of_succ_le hn)
    have inv := (orderly_of_reach (hs.mono fun _ _ => And.left)).inv
    -- fewer than `bound` calls have an id, so there is one in the list
    have hheld := inv.holders_add_le ∅ fun u hu => absurd hu (Finset.notMem_empty u)
    have hlen := inv.length_add_holders
    rw [Finset.card_empty] at hheld
    obtain ⟨pos, ids, hids⟩ : ∃ pos ids, s.availableIds = pos :: ids :=
      List.exists_cons_of_length_pos (by omega)
    have hmem : pos ∈ s.availableIds := by rw [hids]; exact List.mem_cons_self
    have hpos := (inv.ids pos).mp (.of_mem hmem)
    have hn₀ := hi n (Nat.le_refl n)
    have hr : ∀ v, (s.call v).atRest = true := by
      intro v
      rcases hset v with e | ⟨p, e⟩ <;> rw [e]
      · rfl
      · cases keeps <;> rfl
    have hrun : keeps = true → ∀ v, (s.call v).hasRun = true := by
      rintro rfl v
      rcases hset v with e | ⟨p, e⟩ <;> rw [e] <;> rfl
    -- its slot is free, as no call has it
    have hp : s.pending pos = none := by
      rw [Option.eq_none_iff_forall_ne_some]
      intro w hw
      have hfw := inv.filed pos w hw
      rcases hset w with e | ⟨p, e⟩ <;> rw [e] at hfw
      · cases hfw
      · obtain rfl : p = pos := Option.some.inj hfw
        refine inv.distinct.apart w p ?_ hmem
        rw [hand, e]
        cases keeps <;> rfl
    obtain ⟨t, ht, hm', hl, hpt, hc⟩ := reach_launch hr hrun hn₀ hm hids (by omega) hp
    have hun : t.unfinished = n + 1 := by rw [inv.unfinished_cons hn₀ hl hc rfl, hn']
    have hct : t.call n = .pushed pos .stored .queued := by rw [hc, Function.update_self]
    have hother : ∀ v, v ≠ n → t.call v = s.call v := fun v hv => by
      rw [hc, Function.update_of_ne hv]
    cases keeps with
    | false =>
      refine ⟨t, hs.trans ht, fun v => ?_, fun v hv => ?_, hm', hun⟩
      · by_cases hvn : v = n
        · exact .inr ⟨pos, hvn ▸ hct⟩
        · rw [hother v hvn]
          exact hset v
      · rw [hother v (by omega)]
        exact hi v (by omega)
    | true =>
      have hrt : ∀ v, (t.call v).atRest = true := by
        intro v
        by_cases hvn : v = n
        · rw [hvn, hct]
          rfl
        · rw [hother v hvn]
          exact hr v
      have hk := hs.trans (ht.trans (reach_kept hrt hct hpt))
      have hl' : (t.goto n (.pushed pos .stored .kept)).launched.length = n + 1 := by
        have h₀ := (orderly_of_reach (hs.mono fun _ _ => And.left))
        show t.launched.length = n + 1
        rw [hl, List.length_cons, ← h₀.closures.unfinished_eq h₀.inv, hn']
      have h₁ := orderly_of_reach (hk.mono fun _ _ => And.left)
      refine ⟨_, hk, fun v => ?_, fun v hv => ?_, hm', (h₁.closures.unfinished_eq h₁.inv).trans hl'⟩
      · rw [goto_call]
        split
        · exact .inr ⟨pos, rfl⟩
        · rw [hother v ‹_›]
          exact hset v
      · rw [goto_call, if_neg (by omega), hother v (by omega)]
        exact hi v (by omega)

theorem exists_not_inBounds (keeps : Bool) :
    ∃ s, Reach (step keeps) (Slow keeps) init s ∧ ¬ s.InBounds := by
  obtain ⟨s, hs, hset, hi, -, hn⟩ := reach_calls keeps bound (Nat.le_refl bound)
  have hr : ∀ v, (s.call v).atRest = true ∧ (keeps = true → (s.call v).hasRun = true) := by
    intro v
    rcases hset v with e | ⟨p, e⟩ <;> rw [e]
    · exact ⟨rfl, fun _ => rfl⟩
    · cases keeps <;> exact ⟨rfl, fun _ => by first | rfl | contradiction⟩
  have hnil := availableIds_eq_nil (orderly_of_reach (hs.mono fun _ _ => And.left)).inv
    (fun v => (hr v).1) hn.ge
  refine ⟨s.launch bound, hs.tail (a := .launch bound) ⟨fun _ v => (hr v).1, fun hk _ _ v => (hr v).2 hk⟩
    ?_, fun hin => hin.taken bound ?_ hnil⟩
  · rw [step, if_pos (hi bound (Nat.le_refl bound))]
  · rw [launch, goto_call, if_pos rfl]
    rfl

/-- **`get_pos` takes an id from an empty list.** Where the shared state keeps the functions it does
so even if every task has run before the next call. -/
theorem availableIds_exhausted : (¬ ∀ s, Reach (step false) OneAtATime init s → s.InBounds) ∧
    ¬ ∀ s, Reach (step true) (fun s a => s.OneAtATime a ∧ s.Served a) init s → s.InBounds := by
  refine ⟨fun h => ?_, fun h => ?_⟩
  · obtain ⟨s, hs, hn⟩ := exists_not_inBounds false
    exact hn (h s (hs.mono fun _ _ => And.left))
  · obtain ⟨s, hs, hn⟩ := exists_not_inBounds true
    exact hn (h s (hs.mono fun _ _ ha => ⟨ha.1, ha.2 rfl⟩))

end State

end MutilsTasks.FutureFreePool
