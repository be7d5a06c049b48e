import MutilsTasks.FutureFreePool.Closures
import MutilsTasks.Library.Mutex

/-!
# When the pool of free futures comes to rest

Whoever has `m` locked unlocks it next, and in a run in which every id is where it should be
(`ids_apart`) no call finds the list empty and no assertion fails. So nothing waits in the
pool but for `m`, and that not for long: the pool is stuck only when every call has returned
and every task has run. Then each id is in the list or with one call, whose closure the future in
its slot keeps (`stuck_iff_ids_back`). Where nothing keeps the closures all of the ids are back, in
the order in which the tasks were done.
-/

namespace MutilsTasks.FutureFreePool

open Machine Tokens

/-- The call or its task has `m` locked. -/
def Call.hasMutex : Call → Bool
  | .unlock | .pushed _ _ .unlock => true
  | _ => false

namespace State

variable {keeps : Bool} {s s' : State} {a : Action} {u : ℕ} {c : Call}

/-- Who has `m` locked is between locking and unlocking it. -/
def Locked (s : State) : Prop := Guards (fun u => (s.call u).hasMutex) s.mutex

theorem hasMutex_goto (s : State) (u : ℕ) (c : Call) (v : ℕ) :
    ((s.goto u c).call v).hasMutex = if v = u then c.hasMutex else (s.call v).hasMutex := by
  rw [goto_call]
  split <;> rfl

namespace Locked

variable {l : List ℤ} {p : ℤ → Option ℕ} {cs : List ℕ}

/-- The call goes on without `m`, or with it. -/
theorem keep (h : s.Locked) (hc : c.hasMutex = (s.call u).hasMutex) :
    (State.goto { s with availableIds := l, pending := p, launched := cs } u c).Locked := by
  apply Guards.keep h
  intro v
  rw [hasMutex_goto]
  split
  · rename_i e
    rw [e]
    exact hc
  · rfl

theorem lock (h : s.Locked) (hm : s.mutex = none) (hc : c.hasMutex = true) :
    (State.goto { s with mutex := some u } u c).Locked := by
  unfold Locked at h
  rw [hm] at h
  refine Guards.lock h fun v => ?_
  rw [hasMutex_goto, hc]

theorem unlock (h : s.Locked) (hu : (s.call u).hasMutex = true) (hc : c.hasMutex = false) :
    (State.goto { s with mutex := none } u c).Locked := by
  refine Guards.unlock h hu fun v => ?_
  rw [hasMutex_goto, hc]

theorem discard (h : s.Locked) (x : Option ℕ) : (s.discard x).Locked := by
  rw [s.discard_eq x]
  refine Guards.keep h fun v => ?_
  rcases s.discard_cases x v with e | ⟨pos, t, -, e, e'⟩
  · exact congrArg Call.hasMutex e
  · show ((s.discard x).call v).hasMutex = _
    rw [e, e']
    cases t <;> rfl

theorem advance (h : s.Locked) (hs : s.advance keeps u = some s') : s'.Locked := by
  unfold State.advance at hs
  cases hc : s.call u with
  | idle => simp [hc] at hs
  | lock =>
    simp only [hc, Option.ite_none_right_eq_some, Option.some.injEq] at hs
    obtain ⟨hm, rfl⟩ := hs
    exact h.lock hm rfl
  | unlock =>
    simp only [hc, Option.some.injEq] at hs
    subst hs
    exact h.unlock (by rw [hc]; rfl) rfl
  | front =>
    simp only [hc, Option.map_eq_some_iff] at hs
    obtain ⟨pos, -, rfl⟩ := hs
    exact h.keep (by rw [hc]; rfl)
  | popFront pos =>
    simp only [hc, Option.ite_none_left_eq_some, Option.some.injEq] at hs
    obtain ⟨-, rfl⟩ := hs
    exact h.keep (by rw [hc]; rfl)
  | assertPos pos =>
    simp only [hc, Option.ite_none_right_eq_some, Option.some.injEq] at hs
    obtain ⟨-, rfl⟩ := hs
    exact h.keep (by rw [hc]; rfl)
  | push pos =>
    simp only [hc, Option.some.injEq] at hs
    subst hs
    exact h.keep (by rw [hc]; rfl)
  | pushed pos b t =>
    cases b with
    | pushing =>
      simp only [hc, Option.some.injEq] at hs
      subst hs
      refine h.keep ?_
      rw [hc]
      cases keeps <;> cases t <;> rfl
    | returned =>
      simp only [hc, Option.some.injEq] at hs
      subst hs
      refine (h.discard (s.pending pos)).keep ?_
      rcases s.discard_cases (s.pending pos) u with e | ⟨p, t', -, e, -⟩
      · rw [e, hc]
        cases t <;> rfl
      · rw [hc] at e
        cases e
    | stored => simp [hc] at hs

theorem work (h : s.Locked) (hs : s.work keeps u = some s') : s'.Locked := by
  unfold State.work at hs
  split at hs
  case h_3 pos b hc =>
    cases hs
    refine h.keep ?_
    rw [hc]
    split <;> rfl
  case h_4 hc =>
    simp only [Option.ite_none_right_eq_some, Option.some.injEq] at hs
    obtain ⟨hm, rfl⟩ := hs
    exact h.lock hm rfl
  case h_5 hc =>
    cases hs
    exact h.unlock (by rw [hc]; rfl) rfl
  case h_7 => cases hs
  all_goals
    rename_i hc
    cases hs
    exact h.keep (by rw [hc]; rfl)

/-- **Every step keeps it.** -/
theorem step (h : s.Locked) (hs : s.step keeps a = some s') : s'.Locked := by
  cases a with
  | launch u =>
    simp only [State.step, Option.ite_none_right_eq_some, Option.some.injEq] at hs
    obtain ⟨hc, rfl⟩ := hs
    exact h.keep (by rw [hc]; rfl)
  | advance u => exact h.advance hs
  | work u => exact h.work hs

end Locked

theorem locked_of_reach {P : State → Action → Prop} (h : Reach (step keeps) P init s) : s.Locked := by
  refine h.invariant (fun v => ?_) fun _ _ _ _ hl _ hs => hl.step hs
  exact iff_of_false nofun nofun

/-- **Nothing in the pool can happen.** -/
def Stuck (keeps : Bool) (s : State) : Prop := ∀ u, s.advance keeps u = none ∧ s.work keeps u = none

/-- **The pool is at rest**: all calls have returned, all tasks have run, and every id is back unless
the future in its slot keeps it. -/
structure Rests (keeps : Bool) (s : State) : Prop where
  mutex : s.mutex = none
  calls : ∀ u, s.call u = .idle ∨
    ∃ pos, s.call u = .pushed pos .stored (if keeps then .kept else .finished) ∧
      (keeps = true → s.pending pos = some u)
  partitioned : s.Partitioned
  ids : keeps = false → s.availableIds.Perm initialIds

/-- Whoever has `m` locked can go on. -/
theorem Stuck.mutex (h : s.Stuck keeps) (hl : s.Locked) : s.mutex = none := by
  rw [Option.eq_none_iff_forall_ne_some]
  intro u hm
  have hin : (s.call u).hasMutex = true := (hl u).mpr hm
  obtain ⟨hadv, hwork⟩ := h u
  cases hc : s.call u with
  | unlock => simp [State.advance, hc] at hadv
  | pushed pos b t =>
    cases t with
    | unlock => simp [State.work, hc] at hwork
    | _ => simp [hc, Call.hasMutex] at hin
  | _ => simp [hc, Call.hasMutex] at hin

theorem Stuck.calls (h : s.Stuck keeps) (hl : s.Locked) (inv : s.Inv) (hd : s.Defined) (u : ℕ) :
    s.call u = .idle ∨ ∃ pos, s.call u = .pushed pos .stored .kept ∨
      s.call u = .pushed pos .stored .finished := by
  have hm := h.mutex hl
  obtain ⟨hadv, hwork⟩ := h u
  cases hc : s.call u with
  | idle => exact .inl rfl
  | lock => simp [State.advance, hc, hm] at hadv
  | unlock | push => simp [State.advance, hc] at hadv
  | front =>
    have hne := hd u (.inl hc)
    simp [State.advance, hc, hne] at hadv
  | popFront pos =>
    have hne := hd u (.inr ⟨pos, hc⟩)
    simp [State.advance, hc, hne] at hadv
  | assertPos pos =>
    -- an id is not negative
    have hpos := (inv.ids pos).mp (.of_hand (u := u) (by rw [hand, hc]; rfl))
    simp only [State.advance, hc] at hadv
    split at hadv
    · cases hadv
    · omega
  | pushed pos b t =>
    cases b with
    | pushing | returned => simp [State.advance, hc] at hadv
    | stored =>
      cases t with
      | kept => exact .inr ⟨pos, .inl rfl⟩
      | finished => exact .inr ⟨pos, .inr rfl⟩
      | lock => simp [State.work, hc, hm] at hwork
      | _ => simp [State.work, hc] at hwork

/-- When no call has an id, all of them are in the list. -/
theorem Inv.perm (inv : s.Inv) (hh : ∀ u, s.hand u = none) : s.availableIds.Perm initialIds := by
  refine (List.perm_ext_iff_of_nodup inv.distinct.nodup (nodup_upto bound)).mpr fun id => ?_
  rw [mem_upto, ← inv.ids]
  exact (or_iff_left fun ⟨u, hu⟩ => by rw [hh u] at hu; cases hu).symm

theorem Rests.stuck (h : s.Rests keeps) : s.Stuck keeps := by
  intro u
  rcases h.calls u with hc | ⟨pos, hc, -⟩
  · simp [State.advance, State.work, hc]
  · cases keeps <;> simp [State.advance, State.work, hc]

theorem closures_of_reach (h : Reach (step keeps) (fun s a => s.Few a ∧ s.Alone a) init s) :
    s.Closures keeps :=
  h.invariant (init_closures keeps) fun _ _ _ hr hc _ hs => hc.step (inv_of_reach hr).1 hs

/-- **The pool is stuck exactly when every task that was launched has run and every id is
back or kept by the future in its slot**, in a run with at most `bound` unfinished tasks in which
no call reads the front of another: there is no deadlock over `m`, no id is lost, and no call
fails. -/
theorem stuck_iff_ids_back (h : Reach (step keeps) (fun s a => s.Few a ∧ s.Alone a) init s) :
    s.Stuck keeps ↔ s.Rests keeps := by
  obtain ⟨inv, hn⟩ := inv_of_reach h
  have hcl := closures_of_reach h
  refine ⟨fun hs => ?_, Rests.stuck⟩
  have hcalls : ∀ u, s.call u = .idle ∨
      ∃ pos, s.call u = .pushed pos .stored (if keeps then .kept else .finished) ∧
        (keeps = true → s.pending pos = some u) := by
    intro u
    refine (hs.calls (locked_of_reach h) inv (inv.defined hn) u).imp_right ?_
    rintro ⟨pos, hc⟩
    refine ⟨pos, ?_, fun hk => hcl.owner hk u pos (by rcases hc with hc | hc <;> rw [hc] <;> rfl)⟩
    cases keeps with
    | true => exact hc.resolve_right fun hf => absurd (hcl.intact rfl u _ _ _ hf) Bool.false_ne_true
    | false => exact hc.resolve_left fun hf => by cases hcl.brief rfl u _ _ hf
  refine ⟨hs.mutex (locked_of_reach h), hcalls, inv.partitioned, fun hk => inv.perm fun u => ?_⟩
  rw [hand]
  rcases hcalls u with hc | ⟨pos, hc, -⟩ <;> rw [hc]
  · rfl
  · rw [hk]
    rfl

/-- A call is made, and its task runs to its end. -/
def oneDone (keeps : Bool) : List Action :=
  .launch 0 :: List.replicate 8 (.advance 0) ++ List.replicate (if keeps then 3 else 6) (.work 0)

/-- The id `0` is with call `0` where the shared state keeps the functions, and at the end of the list
where it does not. -/
theorem stuck_iff_ids_back_oneDone :
    (∃ s, run (step true) init (oneDone true) = some s ∧ s.call 0 = .pushed 0 .stored .kept ∧
      (s.Stuck true ↔ s.Rests true)) ∧
    ∃ s, run (step false) init (oneDone false) = some s ∧ s.call 0 = .pushed 0 .stored .finished ∧
      (s.Stuck false ↔ s.Rests false) := by
  obtain ⟨ids, hids⟩ := initialIds_eq
  obtain ⟨s, hg, hs, hc⟩ : ∃ s,
      run (fun s a => if s.fewAlone a = true then step true s a else none) init (oneDone true) =
        some s ∧
      run (step true) init (oneDone true) = some s ∧ s.call 0 = .pushed 0 .stored .kept := by
    rw [init, hids]
    exact ⟨_, rfl, rfl, rfl⟩
  obtain ⟨t, hg', ht, hc'⟩ : ∃ s,
      run (fun s a => if s.fewAlone a = true then step false s a else none) init (oneDone false) =
        some s ∧
      run (step false) init (oneDone false) = some s ∧ s.call 0 = .pushed 0 .stored .finished := by
    rw [init, hids]
    exact ⟨_, rfl, rfl, rfl⟩
  exact ⟨⟨s, hs, hc, stuck_iff_ids_back (reach_of_fewAlone (.of_guarded _ hg))⟩,
    t, ht, hc', stuck_iff_ids_back (reach_of_fewAlone (.of_guarded _ hg'))⟩

end State

end MutilsTasks.FutureFreePool
