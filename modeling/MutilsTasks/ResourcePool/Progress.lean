import MutilsTasks.Library.Tally
import MutilsTasks.ResourcePool.Attended

/-!
# The pool settles

The steps inside the pool are those of the calls and destructors in progress, with the builders
and hooks that they run, which return or throw. There are only so many of them before users have
to do something (`settles`): a call goes on from one pack to the next as long as there are
entries in the queue, also after an exception, and a destructor makes at most one. When no such
step is left, no thread is in a destructor or holds a mutex, and a call waits only for an
empty queue (`settled_iff_rests`). Then handles hold everything that the pool has (`lent_of_stuck`).
-/

namespace MutilsTasks.ResourcePool

open Packs Machine

/-- A call or a destructor goes on. The builders and hooks that it runs return or throw. -/
def Action.inner : Action → Bool
  | .advance _ | .pop _ _ | .dequeue _ _ | .dequeueFails _ => true
  | .builderThrows _ _ | .hookThrows _ _ => true
  | _ => false

/-- More than the steps inside the pool that are left to a thread, if it dequeues nothing and
its entries count for three. -/
def Pc.weight : Pc → ℕ
  | .idle | .publish _ | .aborted => 0
  | .returning _ | .unwinding _ | .dropPreference => 1
  | .overdraw _ | .dequeue _ true | .unlock _ => 2
  | .dequeue _ false | .borrow _ true _ => 3
  | .borrowPreference _ _ | .borrow _ false _ | .removeFromFreeList _ true _ => 4
  | .haveIndex _ _ | .removeFromFreeList _ false _ => 5
  | .fetchAdd _ | .buildOrPop _ | .enqueue _ => 6
  | .readSize _ | .setInFreeList _ => 7
  | .readRecycled _ | .testInFreeList _ => 8
  | .readMaxIndex _ | .putBack _ => 9
  | .onRelease _ => 10

namespace State

variable {cfg : Config} {s s' : State} {u : ℕ} {S : Pool} {c : Pc} {a : Action}

/-! ### The measure -/

/-- The state weighs `n`. -/
def Weighs (s : State) (n : ℕ) : Prop :=
  ∃ T, Tally s.pc Pc.weight T ∧ n = T + 3 * s.pool.packs.freeResources.length

theorem weighs_of_reach {P : State → Action → Prop} (h : Reach (State.step cfg) P (init cfg) s) :
    ∃ n, s.Weighs n := by
  have key : ∃ T, Tally s.pc Pc.weight T := by
    refine h.invariant (I := fun s => ∃ T, Tally s.pc Pc.weight T) ⟨0, .zero fun _ => rfl⟩ ?_
    rintro s a s' - ⟨T, hT⟩ - hs
    rcases pc_of_step hs with hp | ⟨u, c, -, hp⟩
    · exact ⟨T, hp ▸ hT⟩
    · have hle := hT.le u
      exact ⟨T + c.weight - (s.pc u).weight, hp ▸ hT.update u c (by omega)⟩
  obtain ⟨T, hT⟩ := key
  exact ⟨_, T, hT, rfl⟩

theorem builderThrew_freeResources (P : Packs) (p : PackId) :
    (P.builderThrew p).freeResources = P.freeResources := by
  cases p <;> rfl

theorem spoil_freeResources (P : Packs) (p : PackId) : (P.spoil p).freeResources = P.freeResources := by
  cases p <;> unfold Packs.spoil Packs.initializeIfNeeded <;> split <;> rfl

/-- A thread moves to where there is less to do. -/
theorem Weighs.goto {n : ℕ} (h : s.Weighs n)
    (hlt : c.weight + 3 * S.packs.freeResources.length <
      (s.pc u).weight + 3 * s.pool.packs.freeResources.length) :
    ∃ m, m < n ∧ (s.goto u S c).Weighs m := by
  obtain ⟨T, hT, rfl⟩ := h
  have hle := hT.le u
  refine ⟨_, ?_, T + c.weight - (s.pc u).weight, hT.update u c (by omega), rfl⟩
  show _ + 3 * S.packs.freeResources.length < _
  omega

/-- It leaves the queue as it is. -/
theorem Weighs.turn {n : ℕ} (h : s.Weighs n)
    (hq : S.packs.freeResources = s.pool.packs.freeResources) (hlt : c.weight < (s.pc u).weight) :
    ∃ m, m < n ∧ (s.goto u S c).Weighs m :=
  h.goto (hq ▸ Nat.add_lt_add_right hlt _)

theorem Weighs.borrowed {n : ℕ} {x : Option ℕ} {d : Caller} {wait : Bool} {p : PackId} (h : s.Weighs n)
    (hlt : (Pc.dequeue d wait).weight < (s.pc u).weight) :
    ∃ m, m < n ∧ (s.borrowed u d x (.dequeue d wait) (s.pool.packs.borrow p)).Weighs m := by
  cases hb : s.pool.packs.borrow p with
  | mk b Q =>
    have hpos : 1 < (Pc.dequeue d wait).weight := by cases wait <;> simp [Pc.weight]
    obtain ⟨rfl, t, hl⟩ | ⟨rfl | rfl, rfl, -⟩ := borrow_cases hb
    · exact h.turn hl.freeResources (hpos.trans hlt)
    · exact h.turn rfl hlt
    · exact h.turn rfl (Nat.zero_lt_of_lt hlt)

theorem Weighs.advance {n : ℕ} (h : s.Weighs n) (hs : s.advance cfg u = some s') :
    ∃ m, m < n ∧ s'.Weighs m := by
  unfold State.advance at hs
  cases hc : s.pc u with
  | borrowPreference c i =>
    simp only [hc] at hs
    split at hs
    · split at hs <;> cases hs
      exact h.borrowed (by simp [hc, Pc.weight])
    · cases hs
      exact h.turn rfl (by simp [hc, Pc.weight])
  | borrow c wait p =>
    simp only [hc] at hs
    split at hs <;> cases hs
    exact h.borrowed (by cases wait <;> simp [hc, Pc.weight])
  | readMaxIndex c | readRecycled c | readSize c | testInFreeList i =>
    simp only [hc, Option.some.injEq] at hs
    subst hs
    split <;> exact h.turn rfl (by simp [hc, Pc.weight])
  | onRelease r =>
    simp only [hc, Option.map_eq_some_iff] at hs
    obtain ⟨x, -, rfl⟩ := hs
    exact h.turn rfl (by simp [hc, Pc.weight])
  | enqueue p =>
    cases p <;> simp only [hc, Option.some.injEq] at hs <;> subst hs <;>
      exact h.goto (by simp only [hc, Pc.weight, Packs.enqueue, List.length_append,
        List.length_singleton]; omega)
  | removeFromFreeList c wait p =>
    simp only [hc, Option.some.injEq] at hs
    subst hs
    cases p <;> exact h.turn rfl (by cases wait <;> simp [hc, Pc.weight])
  | unwinding c =>
    simp only [hc, Option.some.injEq] at hs
    subst hs
    cases c <;> exact h.turn rfl (by simp [hc, Pc.weight])
  | putBack r =>
    simp only [hc] at hs
    repeat' split at hs
    all_goals first
      | cases hs; done
      | (cases hs; exact h.turn rfl (by simp [hc, Pc.weight]))
  | buildOrPop c | haveIndex c i =>
    simp only [hc] at hs
    split at hs <;> cases hs <;> exact h.turn rfl (by simp [hc, Pc.weight])
  | fetchAdd c | overdraw c | returning c | setInFreeList i | unlock i | dropPreference =>
    simp only [hc, Option.some.injEq] at hs
    subst hs
    exact h.turn rfl (by simp [hc, Pc.weight])
  | idle | dequeue | publish | aborted => simp [hc] at hs

/-- An exception leads to the next pack or out of the call. -/
theorem Weighs.thrown {n : ℕ} {d : Caller} {wait invalid : Bool} (h : s.Weighs n)
    (hq : S.packs.freeResources = s.pool.packs.freeResources)
    (hlt : (Pc.dequeue d wait).weight < (s.pc u).weight) :
    ∃ m, m < n ∧ (s.thrown u S d wait invalid).Weighs m := by
  refine h.turn hq ?_
  cases invalid with
  | true => exact hlt
  | false =>
    have : (Pc.unwinding d).weight < (Pc.dequeue d wait).weight := by cases wait <;> simp [Pc.weight]
    exact this.trans hlt

/-- **Every step inside the pool leaves less to do.** -/
theorem Weighs.step {n : ℕ} (h : s.Weighs n) (ha : a.inner = true) (hs : s.step cfg a = some s') :
    ∃ m, m < n ∧ s'.Weighs m := by
  cases a with
  | advance u => exact h.advance hs
  | pop u i =>
    simp only [State.step] at hs
    split at hs
    · rename_i c hc
      split at hs <;> cases hs
      exact h.turn rfl (by simp [hc, Pc.weight])
    · cases hs
  | dequeue u p =>
    simp only [State.step] at hs
    split at hs
    · rename_i c wait hc
      split at hs <;> cases hs
      rename_i hp
      have hlen : (s.pool.packs.freeResources.erase p).length + 1 =
          s.pool.packs.freeResources.length := List.length_erase_add_one hp
      refine h.goto ?_
      cases wait <;> simp only [hc, Pc.weight, Packs.dequeue] <;> omega
    · cases hs
  | dequeueFails u =>
    simp only [State.step] at hs
    split at hs
    · rename_i c hc
      cases hs
      split <;> exact h.turn rfl (by simp [hc, Pc.weight])
    · cases hs
  | builderThrows u invalid =>
    simp only [State.step] at hs
    split at hs
    · rename_i c i hc
      split at hs <;> cases hs
      exact h.thrown rfl (by simp [hc, Pc.weight])
    · rename_i c wait p hc
      split at hs <;> cases hs
      exact h.thrown (builderThrew_freeResources ..) (by cases wait <;> simp [hc, Pc.weight])
    · rename_i c hc
      cases hs
      exact h.turn rfl (by simp [hc, Pc.weight])
    · cases hs
  | hookThrows u invalid =>
    simp only [State.step] at hs
    split at hs
    · rename_i c i hc
      split at hs <;> cases hs
      exact h.thrown (spoil_freeResources ..) (by simp [hc, Pc.weight])
    · rename_i c wait p hc
      split at hs <;> cases hs
      exact h.thrown (spoil_freeResources ..) (by cases wait <;> simp [hc, Pc.weight])
    · rename_i c hc
      cases hs
      exact h.turn rfl (by simp [hc, Pc.weight])
    · cases hs
  | _ => cases ha

/-- **The pool settles**: from every reachable state there are only so many steps until a user
has to do something, whatever the threads are doing and in whatever order they go on. -/
theorem settles (h : Reach (State.step cfg) Any (init cfg) s) : ∃ n, s.Weighs n ∧
    ∀ as s', (∀ a ∈ as, a.inner = true) → run (State.step cfg) s as = some s' → as.length ≤ n := by
  obtain ⟨n, hn⟩ := weighs_of_reach h
  refine ⟨n, hn, fun as s' has hr => ?_⟩
  exact length_le_of_run (fun _ _ _ _ ha hW hs => hW.step ha hs) has hn hr

theorem settles_acquire : ∃ s, run (State.step oneEach) (init oneEach) [.acquire 0] = some s ∧
    ∃ n, ∀ as s', (∀ a ∈ as, a.inner = true) → run (State.step oneEach) s as = some s' →
      as.length ≤ n := by
  obtain ⟨s, hs⟩ : ∃ s, run (State.step oneEach) (init oneEach) [.acquire 0] = some s := ⟨_, rfl⟩
  obtain ⟨n, -, hn⟩ := settles (.of_run [.acquire 0] (fun _ _ _ => trivial) hs)
  exact ⟨s, hs, n, hn⟩

/-! ### When the pool has settled -/

/-- **Nothing inside the pool can happen.** -/
def Stuck (cfg : Config) (s : State) : Prop := ∀ a, a.inner = true → s.step cfg a = none

/-- **The pool is at rest**: whoever is in it waits, and the queue is empty. -/
structure Rests (s : State) : Prop where
  threads : ∀ u, s.pc u = .idle ∨ (∃ c, s.pc u = .publish c) ∨ s.pc u = .aborted ∨
    ∃ c, s.pc u = .dequeue c true
  empty : ∀ u c, s.pc u = .dequeue c true → s.pool.packs.freeResources = []

/-- Whoever holds a mutex can go on. -/
theorem advance_of_mutex {i : ℕ} (hm : (s.holds u).mutex = some i) : s.advance cfg u ≠ none := by
  unfold holds at hm
  unfold State.advance
  cases hc : s.pc u with
  | enqueue p =>
    cases p with
    | preferred i => simp
    | spare j =>
      rw [hc] at hm
      cases hm
  | testInFreeList | setInFreeList | unlock => simp
  | borrow _ _ p | removeFromFreeList _ _ p => simp [hc, Pc.hold, Hold.mutex] at hm
  | _ =>
    rw [hc] at hm
    cases hm

/-- So no mutex stays locked. -/
theorem mutexFree_of_stuck (inv : PackInv cfg s.pool.packs s.holds) (h : s.Stuck cfg) (p : PackId) :
    s.pool.packs.mutexFree p = true := by
  cases p with
  | spare j => rfl
  | preferred i =>
    cases hm : (s.pool.packs.preferred i).mutex with
    | none => simp [mutexFree, hm]
    | some v => exact absurd (h (.advance v) rfl) (advance_of_mutex ((inv.entries.mutex v i).mp hm))

theorem Stuck.rests (h : s.Stuck cfg) (inv : PackInv cfg s.pool.packs s.holds) : s.Rests := by
  have hm := mutexFree_of_stuck inv h
  have hdeq : ∀ u c wait, s.pc u = .dequeue c wait → s.pool.packs.freeResources = [] := by
    intro u c wait hc
    by_contra hne
    obtain ⟨p, hp⟩ := List.exists_mem_of_ne_nil _ hne
    have := h (.dequeue u p) rfl
    simp [State.step, hc, hp] at this
  refine ⟨fun u => ?_, fun u c => hdeq u c true⟩
  have hadv : s.advance cfg u = none := h (.advance u) rfl
  -- a rental in its destructor is in the table
  have hlive : ∀ r, s.holds u = .releasing r → ∃ x, s.pool.packs.rental r = some x := fun r hr =>
    (inv.releases.live u r hr).imp fun _ h => h.1
  unfold State.advance at hadv
  cases hc : s.pc u with
  | idle => exact .inl rfl
  | publish c => exact .inr (.inl ⟨c, rfl⟩)
  | aborted => exact .inr (.inr (.inl rfl))
  | dequeue c wait =>
    cases wait with
    | true => exact .inr (.inr (.inr ⟨c, rfl⟩))
    | false =>
      have := h (.dequeueFails u) rfl
      simp [State.step, hc] at this
  | buildOrPop c =>
    cases hr : s.pool.indices.recycledIndices with
    | nil => simp [hc, hr] at hadv
    | cons i l =>
      have := h (.pop u i) rfl
      simp [State.step, hc, hr] at this
  | borrowPreference c i =>
    simp only [hc, hm (.preferred i), if_true] at hadv
    split at hadv <;> cases hadv
  | borrow c wait p => simp [hc, hm p] at hadv
  | onRelease r =>
    obtain ⟨x, hx⟩ := hlive r (by rw [holds, hc]; rfl)
    simp [hc, hx] at hadv
  | putBack r =>
    obtain ⟨x, hx⟩ := hlive r (by rw [holds, hc]; rfl)
    simp only [hc, hx] at hadv
    split at hadv
    · cases hadv
    · cases hadv
    · rename_i i hp
      simp [hm (.preferred i)] at hadv
  | haveIndex c i =>
    simp only [hc] at hadv
    split at hadv <;> cases hadv
  | enqueue p => cases p <;> simp [hc] at hadv
  | _ => simp [hc] at hadv

theorem Rests.stuck (h : s.Rests) : s.Stuck cfg := by
  intro a ha
  cases a with
  | advance u =>
    rcases h.threads u with hu | ⟨c, hu⟩ | hu | ⟨c, hu⟩ <;> simp [State.step, State.advance, hu]
  | pop u i => rcases h.threads u with hu | ⟨c, hu⟩ | hu | ⟨c, hu⟩ <;> simp [State.step, hu]
  | dequeue u p =>
    rcases h.threads u with hu | ⟨c, hu⟩ | hu | ⟨c, hu⟩
    · simp [State.step, hu]
    · simp [State.step, hu]
    · simp [State.step, hu]
    · simp [State.step, hu, h.empty u c hu]
  | dequeueFails u | builderThrows u | hookThrows u =>
    rcases h.threads u with hu | ⟨c, hu⟩ | hu | ⟨c, hu⟩ <;> simp [State.step, hu]
  | _ => cases ha

/-- **The pool is stuck exactly when it is at rest.** -/
theorem settled_iff_rests (h : Reach (State.step cfg) Any (init cfg) s) : s.Stuck cfg ↔ s.Rests :=
  ⟨fun hs => hs.rests (packInv_of_reach h).1, Rests.stuck⟩

/-- A pool of one pack, and no overdraws. -/
def oneToWaitFor : Config := ⟨1, 0, false, one_lt_maxSize⟩

/-- One thread has its object, and another one waits for it. -/
def oneWaits : List Action :=
  acquireOne ++ [.acquire 1, .advance 1, .advance 1, .dequeueFails 1]

theorem rests_oneWaits : ∃ s, run (State.step oneToWaitFor) (init oneToWaitFor) oneWaits = some s ∧
    s.pc 1 = .dequeue .acquire true ∧ s.pool.packs.lost (.preferred 0) = false ∧
    (s.pool.packs.pack (.preferred 0)).initialized = true ∧ s.Rests := by
  obtain ⟨s, hs, h₀, h₁, hl, hi, hq⟩ : ∃ s, run (State.step oneToWaitFor) (init oneToWaitFor)
      oneWaits = some s ∧ s.pc 0 = .idle ∧ s.pc 1 = .dequeue .acquire true ∧
      s.pool.packs.lost (.preferred 0) = false ∧
      (s.pool.packs.pack (.preferred 0)).initialized = true ∧ s.pool.packs.freeResources = [] :=
    ⟨_, rfl, rfl, rfl, rfl, rfl, rfl⟩
  refine ⟨s, hs, h₁, hl, hi, fun u => ?_, fun _ _ _ => hq⟩
  by_cases e₀ : u = 0
  · exact .inl (e₀ ▸ h₀)
  by_cases e₁ : u = 1
  · exact .inr (.inr (.inr ⟨.acquire, e₁ ▸ h₁⟩))
  · refine .inl (pc_of_run (fun a ha => ?_) hs)
    simp only [oneWaits, acquireOne, List.mem_append, List.mem_cons, List.mem_replicate,
      List.not_mem_nil, or_false] at ha
    rcases ha with ((rfl | ⟨-, rfl⟩) | rfl) | rfl | rfl | rfl | rfl <;>
      simp [Action.thread, Ne.symm e₀, Ne.symm e₁]

theorem settled_iff_rests_oneWaits : ∃ s, run (State.step oneToWaitFor) (init oneToWaitFor) oneWaits =
    some s ∧ s.pc 1 = .dequeue .acquire true ∧ s.Stuck oneToWaitFor := by
  obtain ⟨s, hs, hw, -, -, hR⟩ := rests_oneWaits
  exact ⟨s, hs, hw, (settled_iff_rests (.of_run oneWaits (fun _ _ _ => trivial) hs)).mpr hR⟩

/-- **A call waits for ever only while handles hold everything**: when nothing inside the pool
can happen and a call is waiting, every spare and every preferred pack that has been built is
lent to a `LockedResource`, or to the result of a call, but for those that an exception has
cost the pool. -/
theorem lent_of_stuck (h : Reach (State.step cfg) Any (init cfg) s) (hs : s.Stuck cfg)
    {d : Caller} (hw : s.pc u = .dequeue d true) {p : PackId} (hp : cfg.Has p)
    (hi : (∃ j, p = .spare j) ∨ (s.pool.packs.pack p).initialized = true) :
    s.pool.packs.lost p = true ∨ ∃ r, s.pool.packs.Rents r p ∧
      ∃ v, s.pool.rsource.ptr v = some r ∧
        ((∃ h, v = .locked h) ∨ ∃ u c, v = .result u ∧ s.pc u = .publish c) := by
  obtain ⟨inv, -⟩ := packInv_of_reach h
  have hR : s.Rests := hs.rests inv
  have hS := stacks_of_reach h
  cases hl : s.pool.packs.lost p with
  | true => exact .inl rfl
  | false =>
  right
  have hrented : s.pool.packs.Rented p := by
    by_contra hr
    rcases queued_or_inTransit inv hl hp hi hr with hq | ⟨v, hv⟩
    · rw [hR.empty u d hw] at hq
      cases hq
    · rcases hR.threads v with hc | ⟨c, hc⟩ | hc | ⟨c, hc⟩ <;> simp [hc] at hv
  obtain ⟨r, x, hx, hxp, hxt⟩ := hrented
  refine ⟨r, ⟨x, hx, hxp, hxt⟩, ?_⟩
  rcases attended_of_reach h r x hx hxt with ⟨v, hv⟩ | ⟨v, hv⟩
  · refine ⟨v, hv, ?_⟩
    rcases hS.handles.rsource v (by simp [hv]) with hh | ⟨u', rfl⟩
    · exact .inl hh
    · -- the result of a call that has one
      rcases hR.threads u' with hc | ⟨c, hc⟩ | hc | ⟨c, hc⟩
      · exact absurd hv (by simp [((hS.stack u').result (by rw [hc]; rfl)).2])
      · exact .inr ⟨u', c, rfl, hc⟩
      · exact absurd hv (by simp [((hS.stack u').result (by rw [hc]; rfl)).2])
      · exact absurd hv (by simp [((hS.stack u').result (by rw [hc]; rfl)).2])
  · rcases hR.threads v with hc | ⟨c, hc⟩ | hc | ⟨c, hc⟩ <;> rw [holds, hc] at hv <;> cases hv

theorem lent_of_stuck_oneWaits : ∃ s, run (State.step oneToWaitFor) (init oneToWaitFor) oneWaits =
    some s ∧ s.pc 1 = .dequeue .acquire true ∧ ∃ r, s.pool.packs.Rents r (.preferred 0) := by
  obtain ⟨s, hs, hw, hl, hi, hR⟩ := rests_oneWaits
  have hlent := lent_of_stuck (.of_run oneWaits (fun _ _ _ => trivial) hs) hR.stuck hw
    (p := .preferred 0) (by decide) (.inr hi)
  obtain ⟨r, hr, -⟩ := hlent.resolve_left (by simp [hl])
  exact ⟨s, hs, hw, r, hr⟩

end State

end MutilsTasks.ResourcePool
