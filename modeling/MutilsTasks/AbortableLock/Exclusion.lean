import MutilsTasks.AbortableLock.Guardian
import MutilsTasks.Library.Tokens

/-!
# The abortable lock excludes

A locked `lock_t` is a token: `abortable_mutex::lock` makes it, in the hands of the
thread that calls `lock_or_abort`, the user gets it and gives it to whoever releases
it, and the store of `abortable_mutex::unlock` destroys it. There is never a second one
(`Tokens.Distinct`), and the flag is set exactly while there is one.

The flag is cleared without `cv.m`, but it is set only under `cv.m`. What a thread has
read under `cv.m` can only have changed to clear, and that is what `lock_or_abort` needs
to know when it sets it.
-/

namespace MutilsTasks.AbortableLock

open Machine Tokens

namespace State

variable {s s' : State} {u v : ℕ} {c : Pc} {a : Action}

/-- The `lock_t` that a thread has. -/
def hand (s : State) (u : ℕ) : Option Unit := if (s.pc u).hasLock then some () else none

/-- The `lock_t`s that the users have. -/
def users (s : State) : List Unit := List.replicate s.held ()

/-- **What holds in every reachable state.** -/
structure Exclusive (s : State) : Prop where
  mutex : ∀ u, s.mutex = some u ↔ (s.pc u).hasMutex = true
  who : ∀ u, s.heldBy = some u ↔ (s.pc u).isWho = true
  decided : ∀ u, s.pc u = .lock → s.occupied = false
  distinct : Distinct s.users s.hand
  occupied : s.occupied = true ↔ Somewhere s.users s.hand ()

theorem hand_goto (s : State) (u : ℕ) (c : Pc) :
    (s.goto u c).hand = Function.update s.hand u (if c.hasLock then some () else none) := by
  funext v
  by_cases h : v = u <;> simp [hand, h]

theorem hand_notifyAll (s : State) : s.notifyAll.hand = s.hand := by
  funext v
  simp only [hand, notifyAll_apply (f := Pc.hasLock) rfl]

theorem hand_goto_of_eq (h : c.hasLock = (s.pc u).hasLock) : (s.goto u c).hand = s.hand := by
  rw [hand_goto, h]
  exact Function.update_eq_self u s.hand

theorem init_exclusive : init.Exclusive := by
  have hh : init.hand = fun _ => none := rfl
  have hu : init.users = [] := rfl
  refine ⟨fun u => ?_, fun u => ?_, fun u h => ?_, ?_, ?_⟩
  · exact iff_of_false nofun nofun
  · exact iff_of_false nofun nofun
  · cases h
  · rw [hh, hu]
    exact ⟨List.nodup_nil, nofun, nofun⟩
  · rw [hh, hu]
    exact iff_of_false nofun (by simp [Somewhere])

namespace Exclusive

/-- One thread has `cv.m`. -/
theorem eq_of_hasMutex (inv : s.Exclusive) (hu : (s.pc u).hasMutex = true)
    (hv : (s.pc v).hasMutex = true) : u = v :=
  Option.some.inj (((inv.mutex u).mpr hu).symm.trans ((inv.mutex v).mpr hv))

/-- Whether a thread has something, when `u` turns to `c`. -/
theorem mutex_goto (inv : s.Exclusive) (h : c.hasMutex = (s.pc u).hasMutex) (v : ℕ) :
    s.mutex = some v ↔ ((s.goto u c).pc v).hasMutex = true := by
  by_cases e : v = u
  · simp [e, h, inv.mutex]
  · simp [e, inv.mutex]

theorem who_goto (inv : s.Exclusive) (h : c.isWho = (s.pc u).isWho) (v : ℕ) :
    s.heldBy = some v ↔ ((s.goto u c).pc v).isWho = true := by
  by_cases e : v = u
  · simp [e, h, inv.who]
  · simp [e, inv.who]

/-- A move that leaves the flag and the `lock_t`s alone. -/
theorem goto (inv : s.Exclusive) {m w : Option ℕ} (hl : c.hasLock = (s.pc u).hasLock)
    (hm : ∀ v, m = some v ↔ ((s.goto u c).pc v).hasMutex = true)
    (hw : ∀ v, w = some v ↔ ((s.goto u c).pc v).isWho = true)
    (hd : c = .lock → s.occupied = false) :
    ({ s with mutex := m, heldBy := w }.goto u c).Exclusive where
  mutex := hm
  who := hw
  decided v := by
    by_cases e : v = u
    · simpa [e] using hd
    · simpa [e] using inv.decided v
  distinct := by
    show Distinct s.users (s.goto u c).hand
    rw [hand_goto_of_eq hl]
    exact inv.distinct
  occupied := by
    show s.occupied = true ↔ Somewhere s.users (s.goto u c).hand ()
    rw [hand_goto_of_eq hl]
    exact inv.occupied

/-- A move of a `lock_t`. -/
theorem token (inv : s.Exclusive) {o : Bool} {n : ℕ} (hm : c.hasMutex = (s.pc u).hasMutex)
    (hw : c.isWho = (s.pc u).isWho) (hn : c ≠ .lock)
    (hd : ∀ v, v ≠ u → s.pc v = .lock → o = false)
    (hD : Distinct (List.replicate n ()) (Function.update s.hand u (if c.hasLock then some () else none)))
    (hO : o = true ↔ Somewhere (List.replicate n ())
      (Function.update s.hand u (if c.hasLock then some () else none)) ()) :
    ({ s with occupied := o, held := n }.goto u c).Exclusive where
  mutex := inv.mutex_goto hm
  who := inv.who_goto hw
  decided v := by
    by_cases e : v = u
    · simpa [e] using fun h => absurd h hn
    · simpa [e] using hd v e
  distinct := by
    rw [hand_goto]
    exact hD
  occupied := by
    rw [hand_goto]
    exact hO

/-- `notify_all`. -/
theorem notifyAll (inv : s.Exclusive) : s.notifyAll.Exclusive where
  mutex v := by
    rw [notifyAll_apply (f := Pc.hasMutex) rfl]
    exact inv.mutex v
  who v := by
    rw [notifyAll_apply (f := Pc.isWho) rfl]
    exact inv.who v
  decided v hv := by
    rcases s.notifyAll_pc v with ⟨-, h⟩ | ⟨-, h⟩ <;> rw [h] at hv
    · cases hv
    · exact inv.decided v hv
  distinct := by
    rw [hand_notifyAll]
    exact inv.distinct
  occupied := by
    rw [hand_notifyAll]
    exact inv.occupied

/-- A thread that has `cv.m` unlocks it. -/
theorem mutex_none (inv : s.Exclusive) (hu : (s.pc u).hasMutex = true) (hc : c.hasMutex = false)
    (v : ℕ) : (none : Option ℕ) = some v ↔ ((s.goto u c).pc v).hasMutex = true := by
  refine iff_of_false nofun fun hv => ?_
  by_cases e : v = u
  · simp [e, hc] at hv
  · exact e (inv.eq_of_hasMutex (by simpa [e] using hv) hu)

/-- **Every step keeps it.** -/
theorem step (inv : s.Exclusive) (h : s.step a = some s') : s'.Exclusive := by
  obtain ⟨u, hu⟩ : ∃ u, Moves s u a s' := ⟨_, step_spec h⟩
  cases hu with
  | @goes _ c d hc hk =>
    exact inv.goto (hc ▸ hk.lock) (inv.mutex_goto (hc ▸ hk.mutex)) (inv.who_goto (hc ▸ hk.who))
      hk.decided
  | setsWho hc =>
    have hm : (s.pc u).hasMutex = true := by rw [hc]; rfl
    refine inv.goto ?_ (inv.mutex_goto ?_) (fun v => ?_) nofun
    · rw [hc]; rfl
    · rw [hc]; rfl
    · by_cases e : v = u
      · simp [e, Pc.isWho]
      · have : ¬ (s.pc v).isWho = true := fun h => e (inv.eq_of_hasMutex (Pc.hasMutex_of_isWho h) hm)
        simpa [e, Ne.symm e] using this
  | clearsWho hc =>
    have hm : (s.pc u).hasMutex = true := by rw [hc]; rfl
    refine inv.goto ?_ (inv.mutex_goto ?_) (fun v => iff_of_false nofun fun h => ?_) nofun
    · rw [hc]; rfl
    · rw [hc]; rfl
    · by_cases e : v = u
      · simp [e, Pc.isWho] at h
      · rw [goto_pc, if_neg e] at h
        exact e (inv.eq_of_hasMutex (Pc.hasMutex_of_isWho h) hm)
  | locksMutex hc hm =>
    refine inv.goto ?_ (fun v => ?_) (inv.who_goto ?_) nofun
    · rcases hc with hc | hc <;> rw [hc] <;> rfl
    · by_cases e : v = u
      · simp [e, Pc.hasMutex]
      · simpa [e, Ne.symm e, hm] using inv.mutex v
    · rcases hc with hc | hc <;> rw [hc] <;> rfl
  | blocks hc | unlocksMutex hc =>
    refine inv.goto ?_ (inv.mutex_none ?_ rfl) (inv.who_goto ?_) nofun <;> rw [hc] <;> rfl
  | @notifies d hd =>
    have inv := inv.notifyAll
    have hc : ∃ c, s.notifyAll.pc u = c ∧ d.hasLock = c.hasLock ∧ d.hasMutex = c.hasMutex ∧
        d.isWho = c.isWho ∧ d ≠ .lock := by
      rcases s.notifyAll_pc u with ⟨hb, -⟩ | ⟨-, hb⟩
      · rcases hd with ⟨e, he, -⟩ | ⟨he, -⟩ <;> rw [hb] at he <;> cases he
      · rcases hd with ⟨e, he, rfl⟩ | ⟨he, rfl⟩ <;> exact ⟨_, hb.trans he, rfl, rfl, rfl, nofun⟩
    obtain ⟨c, hc, hl, hm, hw, hn⟩ := hc
    exact inv.goto (hc ▸ hl) (inv.mutex_goto (hc ▸ hm)) (inv.who_goto (hc ▸ hw)) fun h => absurd h hn
  | locks hc =>
    have ho := inv.decided u hc
    have hs : ¬ Somewhere s.users s.hand () := by rw [← inv.occupied, ho]; nofun
    have hh : s.hand u = none := by simp [hand, hc, Pc.hasLock]
    refine inv.token ?_ ?_ nofun (fun v e hv => ?_) (inv.distinct.make hs)
      (iff_of_true rfl ((Distinct.somewhere_make hh).mpr (.inl rfl)))
    · rw [hc]; rfl
    · rw [hc]; rfl
    · exact absurd (inv.eq_of_hasMutex (by rw [hv]; rfl) (by rw [hc]; rfl)) e
  | clears hc =>
    have hh : s.hand u = some () := by simp [hand, hc, Pc.hasLock]
    refine inv.token ?_ ?_ nofun (fun _ _ _ => rfl) (inv.distinct.drop u) (iff_of_false nofun ?_)
    · rw [hc]; rfl
    · rw [hc]; rfl
    · intro hs
      exact ((inv.distinct.somewhere_drop hh).mp hs).1 rfl
  | gives hc =>
    have hh : s.hand u = some () := by simp [hand, hc, Pc.hasLock]
    have hn : List.replicate (s.held + 1) () = s.users ++ [()] := List.replicate_succ'
    refine inv.token ?_ ?_ nofun (fun v _ => inv.decided v) ?_ ?_
    · rw [hc]; rfl
    · rw [hc]; rfl
    · rw [hn]
      exact inv.distinct.put hh
    · rw [hn, inv.occupied]
      exact (inv.distinct.somewhere_put hh).symm
  | takes hc hh =>
    have hn : s.hand u = none := by simp [hand, hc, Pc.hasLock]
    have hm : () ∈ s.users := List.mem_replicate.mpr ⟨by omega, rfl⟩
    have he : List.replicate (s.held - 1) () = s.users.erase () := by
      rw [users, List.erase_replicate_self]
    refine inv.token ?_ ?_ nofun (fun v _ => inv.decided v) ?_ ?_
    · rw [hc]; rfl
    · rw [hc]; rfl
    · rw [he]
      exact inv.distinct.take hn hm
    · rw [he, inv.occupied]
      exact (inv.distinct.somewhere_take hn hm).symm

end Exclusive

theorem exclusive_of_reach {P : State → Action → Prop} (h : Reach step P init s) : s.Exclusive :=
  h.invariant init_exclusive fun _ _ _ _ inv _ hs => inv.step hs

/-! ### How a call ends -/

/-- A thread is about to return `nullptr` because it already was, or because
`abort_condition` has just returned true. -/
theorem null_cases (h : s.step a = some s') (hv : (s'.pc v).ending = some .null) :
    (s.pc v).ending = some .null ∧ a ≠ .call v ∨ s.pc v = .callAbortAgain ∧ a = .abort v true := by
  by_cases e : v = a.thread
  · subst e
    by_cases hc : s.pc a.thread = .callAbortAgain
    · refine .inr ⟨hc, ?_⟩
      cases a with
      | abort u b =>
        have hc' : s.pc u = .callAbortAgain := hc
        cases b with
        | true => rfl
        | false =>
          simp only [step, hc', Option.some.injEq] at h
          subst h
          simp [Action.thread, Pc.ending] at hv
      | _ => simp_all [step, advance, Action.thread]
    · have hn : ∀ w, a ≠ .call w := by
        rintro w rfl
        simp only [step, Option.ite_none_right_eq_some, Option.some.injEq] at h
        obtain ⟨-, rfl⟩ := h
        simp [Action.thread, Pc.ending] at hv
      refine .inl ⟨?_, hn _⟩
      have hm := step_spec h
      generalize a.thread = u at hm hv hc ⊢
      cases hm with
      | goes hd hk =>
        rw [goto_pc, if_pos rfl] at hv
        exact hd ▸ (hk.null hv).resolve_right (hd ▸ hc)
      | notifies hd =>
        rcases hd with ⟨e, he, rfl⟩ | ⟨-, rfl⟩
        · rw [goto_pc, if_pos rfl] at hv
          rw [he]
          exact hv
        · simp [Pc.ending] at hv
      | clearsWho he | unlocksMutex he =>
        rw [goto_pc, if_pos rfl] at hv
        rw [he]
        exact hv
      | _ => simp [Pc.ending] at hv
  · refine .inl ⟨?_, fun ha => e (ha ▸ rfl)⟩
    rcases pc_of_ne h e with hp | ⟨-, hp⟩ <;> rw [hp] at hv
    · exact hv
    · cases hv

/-- **`lock_or_abort` returns `nullptr` only if `abort_condition` has returned true after
the waiting**, in the same call. -/
theorem null_of_reach (h : Reach step Any init s) (hu : (s.pc u).ending = some .null) :
    ∃ s₁ s₂, Reach step Any init s₁ ∧ s₁.pc u = .callAbortAgain ∧
      s₁.step (.abort u true) = some s₂ ∧ Reach step (fun _ a => a ≠ .call u) s₂ s := by
  induction h with
  | refl => cases hu
  | @tail s s' a hr _ hs ih =>
    rcases null_cases hs hu with ⟨hu, ha⟩ | ⟨hc, rfl⟩
    · obtain ⟨s₁, s₂, h₁, hc, h₂, h₃⟩ := ih hu
      exact ⟨s₁, s₂, h₁, hc, h₂, .tail h₃ ha hs⟩
    · exact ⟨s, s', hr, hc, hs, .refl⟩

/-! ### Mutual exclusion -/

theorem mem_users : () ∈ s.users ↔ 0 < s.held := by
  rw [users, List.mem_replicate, Nat.pos_iff_ne_zero]
  exact and_iff_left rfl

theorem hand_eq_some : s.hand u = some () ↔ (s.pc u).hasLock = true := by
  cases h : (s.pc u).hasLock <;> simp [hand, h]

/-- **The abortable lock excludes**, whatever `abort_condition` returns: there is at most
one `lock_t` that has not cleared the flag, with a user or in a call; the flag is set
exactly while there is one; and a call that returns `nullptr` has been told to abort
after the waiting. -/
theorem mutual_exclusion (h : Reach step Any init s) :
    (s.held ≤ 1 ∧ (∀ u, (s.pc u).hasLock = true → s.held = 0) ∧
      ∀ u v, (s.pc u).hasLock = true → (s.pc v).hasLock = true → u = v) ∧
    (s.occupied = true ↔ 0 < s.held ∨ ∃ u, (s.pc u).hasLock = true) ∧
    ∀ u, s.pc u = .returning .null → ∃ s₁ s₂, Reach step Any init s₁ ∧
      s₁.pc u = .callAbortAgain ∧ s₁.step (.abort u true) = some s₂ ∧
      Reach step (fun _ a => a ≠ .call u) s₂ s := by
  have inv := exclusive_of_reach h
  refine ⟨⟨?_, fun u hu => ?_, fun u v hu hv => ?_⟩, ?_, fun u hu => null_of_reach h (by rw [hu]; rfl)⟩
  · have := inv.distinct.nodup
    rwa [users, List.nodup_replicate] at this
  · have := inv.distinct.apart u () (hand_eq_some.mpr hu)
    rw [mem_users] at this
    exact Nat.eq_zero_of_not_pos this
  · exact inv.distinct.one u v () (hand_eq_some.mpr hu) (hand_eq_some.mpr hv)
  · rw [inv.occupied, Somewhere, mem_users]
    simp only [hand_eq_some]

/-- Thread `u` gets the lock, unless it has to wait. -/
def locking (u : ℕ) : List Action :=
  [.call u, .advance u, .advance u, .advance u, .abort u false, .advance u, .advance u, .advance u,
    .advance u, .advance u, .advance u]

theorem mutual_exclusion_locking : ∃ s, run step init (locking 0) = some s ∧ s.held = 1 ∧
    (s.held ≤ 1 ∧ (∀ u, (s.pc u).hasLock = true → s.held = 0) ∧
      ∀ u v, (s.pc u).hasLock = true → (s.pc v).hasLock = true → u = v) ∧
    (s.occupied = true ↔ 0 < s.held ∨ ∃ u, (s.pc u).hasLock = true) ∧
    ∀ u, s.pc u = .returning .null → ∃ s₁ s₂, Reach step Any init s₁ ∧
      s₁.pc u = .callAbortAgain ∧ s₁.step (.abort u true) = some s₂ ∧
      Reach step (fun _ a => a ≠ .call u) s₂ s :=
  ⟨_, rfl, rfl, mutual_exclusion (.of_run (locking 0) (fun _ _ _ => trivial) rfl)⟩

end State

end MutilsTasks.AbortableLock
