import MutilsTasks.AbortableLock.Wakeups
import MutilsTasks.Library.Tally

/-!
# Waiting for the abortable lock

A waiting thread that is let through calls `notify_all` itself, when it releases the
condition, and so may wake the others for nothing; they look again and go back to sleep. They
do not keep each other awake: `k` threads make no more than `k * (11 * k + 12)` steps before
a user has to do something (`quiets`). Then every thread that is in the guardian is blocked,
`cv.m` is free, and either a user has the `lock_t` or a wake-up has been lost
(`stuck_iff_kept`).
-/

namespace MutilsTasks.AbortableLock

open Machine

/-- The step is made in the guardian, or by its `abort_condition`. No thread wakes for no
reason. -/
def Action.inner : Action → Bool
  | .abort _ _ | .advance _ => true
  | .call _ | .wake _ | .release _ => false

namespace Pc

/-- The thread is in the guardian. -/
def busy (c : Pc) : Bool := c ≠ .idle

/-- How many steps are left to the thread, if nobody wakes it. -/
def steps : Pc → ℕ
  | .idle | .blocked => 0
  | .returning _ | .block | .notifyUnlocked => 1
  | .notifyAll _ | .store => 2
  | .unlockMutex _ => 3
  | .clearWho _ => 4
  | .lock | .fail => 5
  | .readOccupiedAgain => 6
  | .callAbortAgain => 7
  | .setWho => 8
  | .callAbort => 9
  | .readOccupied => 10
  | .lockMutex | .woken => 11

/-- A `notify_all` is left to the thread, when it is let through. -/
def willNotify : Pc → Bool
  | .idle | .returning _ => false
  | _ => true

/-- What the thread has to do, where a `notify_all` may wake `k` threads. -/
def weight (k : ℕ) (c : Pc) : ℕ := c.steps + if c.willNotify then 11 * k + 1 else 0

theorem weight_le (k : ℕ) (c : Pc) : c.weight k ≤ 11 * k + 12 := by
  have hs : c.steps ≤ 11 := by cases c <;> simp [steps]
  unfold weight
  split <;> omega

theorem weight_of_not_busy {k : ℕ} {c : Pc} (h : c.busy = false) : c.weight k = 0 := by
  obtain rfl : c = .idle := by simpa [busy] using h
  rfl

end Pc

namespace State

variable {s s' : State} {u : ℕ} {c : Pc} {a : Action} {k n : ℕ}

/-! ### The measure -/

/-- At most `k` threads are in the guardian, and what they have to do comes to `n`. -/
def Weighs (k : ℕ) (s : State) (n : ℕ) : Prop :=
  (∃ b ≤ k, Census s.pc Pc.busy b) ∧ Tally s.pc (Pc.weight k) n

/-- No thread comes into the guardian. -/
theorem busy_goto {b : ℕ} (hc : Census s.pc Pc.busy b) (hu : (s.pc u).busy = true) (c : Pc) :
    ∃ d ≤ b, Census (s.goto u c).pc Pc.busy d := by
  cases hbusy : c.busy with
  | true => exact ⟨b, Nat.le_refl b, hc.keep (hbusy.trans hu.symm)⟩
  | false =>
    obtain ⟨d, rfl, hd⟩ := hc.leave hu hbusy
    exact ⟨d, Nat.le_succ d, hd⟩

/-- A thread in the guardian makes a step. -/
theorem Weighs.turn (h : s.Weighs k n) (hp : s'.pc = (s.goto u c).pc) (hu : (s.pc u).busy = true)
    (hlt : c.weight k < (s.pc u).weight k) : ∃ m, m < n ∧ s'.Weighs k m := by
  obtain ⟨⟨b, hb, hc⟩, ht⟩ := h
  have hle := ht.le u
  obtain ⟨d, hd, hc'⟩ := busy_goto hc hu c
  refine ⟨n + c.weight k - (s.pc u).weight k, by omega, ⟨d, by omega, hp ▸ hc'⟩, ?_⟩
  rw [hp]
  exact ht.update u c (by omega)

/-- What a woken thread has to do. -/
theorem weight_notifyAll (s : State) (k v : ℕ) :
    (s.notifyAll.pc v).weight k ≤ (s.pc v).weight k + 11 := by
  rcases s.notifyAll_pc v with ⟨hb, h⟩ | ⟨-, h⟩ <;> rw [h]
  · rw [hb]
    simp only [Pc.weight, Pc.steps, Pc.willNotify, if_true]
    omega
  · exact Nat.le_add_right _ _

/-- A thread wakes the others. -/
theorem Weighs.notify (h : s.Weighs k n) (hu : (s.pc u).busy = true) (hb : s.pc u ≠ .blocked)
    (hlt : c.weight k + 11 * k < (s.pc u).weight k) :
    ∃ m, m < n ∧ (s.notifyAll.goto u c).Weighs k m := by
  obtain ⟨⟨b, hbk, hc⟩, ht⟩ := h
  have hsame : s.notifyAll.pc u = s.pc u := by
    rcases s.notifyAll_pc u with ⟨h, -⟩ | ⟨-, h⟩
    · exact absurd h hb
    · exact h
  obtain ⟨m, hm, ht'⟩ := ht.grow (g := s.notifyAll.pc) hc
    (fun v hv => by
      rcases s.notifyAll_pc v with ⟨h, -⟩ | ⟨-, h⟩
      · rw [h] at hv
        cases hv
      · rw [h])
    (s.weight_notifyAll k)
  have hle := ht'.le u
  rw [hsame] at hle
  have hc' : Census s.notifyAll.pc Pc.busy b :=
    hc.eq_of_iff fun v => notifyAll_apply (f := Pc.busy) rfl s v
  obtain ⟨d, hd, hc''⟩ := busy_goto hc' (by rw [hsame]; exact hu) c
  refine ⟨m + c.weight k - (s.pc u).weight k, by omega, ⟨d, by omega, hc''⟩, ?_⟩
  exact ht'.update u c (by rw [hsame]; omega)

theorem Weighs.advance (h : s.Weighs k n) (hs : s.advance u = some s') :
    ∃ m, m < n ∧ s'.Weighs k m := by
  unfold State.advance at hs
  cases hc : s.pc u with
  | idle | callAbort | callAbortAgain | blocked => simp [hc] at hs
  | lockMutex | woken =>
    simp only [hc, Option.ite_none_right_eq_some, Option.some.injEq] at hs
    obtain ⟨-, rfl⟩ := hs
    exact h.turn rfl (by rw [hc]; rfl) (by simp [hc, Pc.weight, Pc.steps, Pc.willNotify])
  | readOccupied | readOccupiedAgain =>
    simp only [hc, Option.some.injEq] at hs
    subst hs
    split <;> exact h.turn rfl (by rw [hc]; rfl) (by simp [hc, Pc.weight, Pc.steps, Pc.willNotify])
  | returning e =>
    cases e <;> simp only [hc, Option.some.injEq] at hs <;> subst hs <;>
      exact h.turn rfl (by rw [hc]; rfl) (by simp [hc, Pc.weight, Pc.steps, Pc.willNotify])
  | notifyAll e | notifyUnlocked =>
    simp only [hc, Option.some.injEq] at hs
    subst hs
    refine h.notify (by rw [hc]; rfl) (by rw [hc]; nofun) ?_
    simp [hc, Pc.weight, Pc.steps, Pc.willNotify]
    omega
  | block | setWho | lock | fail | clearWho | unlockMutex | store =>
    simp only [hc, Option.some.injEq] at hs
    subst hs
    exact h.turn rfl (by rw [hc]; rfl) (by simp [hc, Pc.weight, Pc.steps, Pc.willNotify])

/-- **Every step in the guardian leaves less to do.** -/
theorem Weighs.step (h : s.Weighs k n) (ha : a.inner = true) (hs : s.step a = some s') :
    ∃ m, m < n ∧ s'.Weighs k m := by
  cases a with
  | abort u b =>
    simp only [State.step] at hs
    split at hs <;> cases hs <;> rename_i hc <;> cases b <;>
      exact h.turn rfl (by rw [hc]; rfl) (by simp [hc, Pc.weight, Pc.steps, Pc.willNotify])
  | advance u => exact h.advance hs
  | _ => cases ha

/-- **Threads do not keep each other awake**: when `k` threads are in the guardian, they make at
most `k * (11 * k + 12)` steps before a user calls, releases a `lock_t`, or a thread wakes for
no reason, whatever `abort_condition` returns. -/
theorem quiets (hk : Census s.pc Pc.busy k) {as : List Action} (has : ∀ a ∈ as, a.inner = true)
    (hr : run step s as = some s') : as.length ≤ k * (11 * k + 12) := by
  obtain ⟨F, hF, hcard⟩ := hk
  have ht : Tally s.pc (Pc.weight k) (∑ u ∈ F, (s.pc u).weight k) :=
    ⟨F, fun u hu => Pc.weight_of_not_busy (by simpa using (hF u).not.mp hu), rfl⟩
  have hc : Census s.pc Pc.busy k := ⟨F, hF, hcard⟩
  calc as.length
    _ ≤ ∑ u ∈ F, (s.pc u).weight k :=
      length_le_of_run (W := Weighs k) (fun _ _ _ _ ha hW hs => hW.step ha hs) has
        ⟨⟨k, Nat.le_refl k, hc⟩, ht⟩ hr
    _ ≤ k * (11 * k + 12) :=
      ht.le_mul hc (fun u => Pc.weight_of_not_busy) fun u => Pc.weight_le k _

/-- A thread that has called and is let through. -/
theorem quiets_locking : ∃ s s', run step init [.call 0] = some s ∧
    run step s (locking 0).tail = some s' ∧ s'.held = 1 ∧ (locking 0).tail.length ≤ 23 := by
  obtain ⟨s', hr, hh⟩ : ∃ s', run step (init.goto 0 .lockMutex) (locking 0).tail = some s' ∧
      s'.held = 1 := ⟨_, rfl, rfl⟩
  have hc : Census (init.goto 0 .lockMutex).pc Pc.busy 1 := (Census.zero fun _ => rfl).enter rfl rfl
  exact ⟨_, s', rfl, hr, hh, quiets hc (by decide) hr⟩

/-! ### When nothing happens -/

/-- **Nothing in the guardian can happen.** -/
def Stuck (s : State) : Prop := ∀ a, a.inner = true → s.step a = none

/-- **Every thread in the guardian is blocked**, beside a `lock_t` that a user keeps or a
wake-up that has been lost. -/
structure Kept (s : State) : Prop where
  mutex : s.mutex = none
  heldBy : s.heldBy = none
  threads : ∀ u, s.pc u = .idle ∨ s.pc u = .blocked
  asleep : ∀ u, s.pc u = .blocked → s.held = 1 ∨ s.LostWakeup

/-- Whoever has `cv.m` locked can go on. -/
theorem Stuck.mutex (h : s.Stuck) (inv : s.Exclusive) : s.mutex = none := by
  rw [Option.eq_none_iff_forall_ne_some]
  intro u hm
  have hadv := h (.advance u) rfl
  have hin := (inv.mutex u).mp hm
  cases hc : s.pc u with
  | callAbort | callAbortAgain =>
    have := h (.abort u true) rfl
    simp [State.step, hc] at this
  | readOccupied | block | setWho | readOccupiedAgain | lock | fail | clearWho | unlockMutex =>
    simp [State.step, State.advance, hc] at hadv
  | _ => simp [hc, Pc.hasMutex] at hin

theorem Stuck.threads (h : s.Stuck) (inv : s.Exclusive) (u : ℕ) :
    s.pc u = .idle ∨ s.pc u = .blocked := by
  have hm := h.mutex inv
  have hadv := h (.advance u) rfl
  cases hc : s.pc u with
  | idle => exact .inl rfl
  | blocked => exact .inr rfl
  | callAbort | callAbortAgain =>
    have := h (.abort u true) rfl
    simp [State.step, hc] at this
  | lockMutex | woken => simp [State.step, State.advance, hc, hm] at hadv
  | returning e => cases e <;> simp [State.step, State.advance, hc] at hadv
  | _ => simp [State.step, State.advance, hc] at hadv

/-- A thread that sleeps beside a set flag waits for a user. -/
theorem Stuck.held (h : s.Stuck) (inv : s.Exclusive) (ho : s.occupied = true) : s.held = 1 := by
  have hone : s.held ≤ 1 := by
    have := inv.distinct.nodup
    rwa [users, List.nodup_replicate] at this
  have hpos : 0 < s.held := by
    rcases inv.occupied.mp ho with hm | ⟨u, hu⟩
    · exact mem_users.mp hm
    · have hl := hand_eq_some.mp hu
      rcases h.threads inv u with hc | hc <;> rw [hc] at hl <;> cases hl
  omega

theorem Stuck.kept (h : s.Stuck) (inv : s.Exclusive) : s.Kept where
  mutex := h.mutex inv
  heldBy := by
    rw [Option.eq_none_iff_forall_ne_some]
    intro u hu
    have hw := (inv.who u).mp hu
    rcases h.threads inv u with hc | hc <;> rw [hc] at hw <;> cases hw
  threads := h.threads inv
  asleep u hu := by
    cases ho : s.occupied with
    | true => exact .inl (h.held inv ho)
    | false =>
      refine .inr ⟨ho, ⟨u, hu⟩, fun v => ?_⟩
      rcases h.threads inv v with hc | hc <;> rw [hc] <;> rfl

theorem Kept.stuck (h : s.Kept) : s.Stuck := by
  intro a ha
  cases a with
  | abort u b => rcases h.threads u with hc | hc <;> simp [State.step, hc]
  | advance u => rcases h.threads u with hc | hc <;> simp [State.step, State.advance, hc]
  | _ => cases ha

/-- **The guardian is stuck exactly when every thread in it sleeps** while a user keeps the
`lock_t`, or has missed the wake-up; where every `notify_all` is timely, only while a user keeps
it. -/
theorem stuck_iff_kept (h : Reach step Any init s) : (s.Stuck ↔ s.Kept) ∧
    (Reach step Timely init s → s.Stuck → ∀ u, s.pc u = .blocked → s.held = 1) := by
  have inv := exclusive_of_reach h
  refine ⟨⟨fun hs => hs.kept inv, Kept.stuck⟩, fun ht hs u hu => ?_⟩
  have hlost : ¬ s.LostWakeup :=
    (ht.invariant init_covered fun _ _ _ _ hC ht hs => hC.step ht hs).not_lostWakeup
  exact ((hs.kept inv).asleep u hu).resolve_right hlost

/-- Thread `0` has the lock, and thread `1` is blocked. -/
def oneSleeps : List Action :=
  locking 0 ++ [.call 1, .advance 1, .advance 1, .abort 1 false, .advance 1]

theorem stuck_iff_kept_oneSleeps : ∃ s, run step init oneSleeps = some s ∧ s.pc 1 = .blocked ∧
    s.held = 1 ∧ (s.Stuck ↔ s.Kept) := by
  obtain ⟨s, hs, hb, hh⟩ : ∃ s, run step init oneSleeps = some s ∧ s.pc 1 = .blocked ∧ s.held = 1 :=
    ⟨_, rfl, rfl, rfl⟩
  exact ⟨s, hs, hb, hh, (stuck_iff_kept (.of_run oneSleeps (fun _ _ _ => trivial) hs)).1⟩

end State

end MutilsTasks.AbortableLock
