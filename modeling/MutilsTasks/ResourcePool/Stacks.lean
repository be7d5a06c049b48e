import MutilsTasks.ResourcePool.ConcurrentIndices
import MutilsTasks.ResourcePool.ConcurrentPacks

/-!
# The pointers on the stacks

A thread has three handles on its stack that are nobody else's: the parameter of
`acquire_with_preference`, the `LockedResource` that a call is about to return, and the one
that it is destroying. Outside the call they are empty (`Stacks`), so a rental that has its
object is pointed to by a handle, or is in its destructor (`Attended`).
-/

namespace MutilsTasks.ResourcePool

open Packs Machine

/-! ### Where a thread is -/

namespace Pc

/-- In a call whose parameters have not been destroyed. -/
@[simp] def inCall : Pc → Bool
  | .readMaxIndex _ | .readRecycled _ | .readSize _ | .buildOrPop _ | .fetchAdd _
  | .haveIndex _ _ | .borrowPreference _ _ | .dequeue _ _ | .removeFromFreeList _ _ _
  | .borrow _ _ _ | .overdraw _ | .returning _ | .unwinding _ | .aborted => true
  | _ => false

/-- In a call that has a result. -/
@[simp] def hasResult : Pc → Bool
  | .returning _ | .publish _ => true
  | _ => false

/-- In the destructor of a `LockedResource`. -/
@[simp] def inDestructor : Pc → Bool
  | .onRelease _ | .putBack _ | .testInFreeList _ | .setInFreeList _ | .enqueue _ | .unlock _
  | .dropPreference => true
  | _ => false

end Pc

/-! ### The invariant -/

namespace Pool

/-- **The stack of thread `u`**, which is at `c`: the handles that are not in use are empty. -/
structure Stack (S : Pool) (u : ℕ) (c : Pc) : Prop where
  param : c.inCall = false → S.preference (.param u) = none
  dying : c.inDestructor = false → S.preference (.dying u) = none
  result : c.hasResult = false →
    S.preference (.result u) = none ∧ S.rsource.ptr (.result u) = none
  ready : c.hasResult = true → S.rsource.ptr (.result u) ≠ none

/-- **The user's handles**: those that are not there are empty. -/
structure Handles (S : Pool) : Prop where
  locked : ∀ h, S.rsource.ptr (.locked h) = none → S.preference (.locked h) = none
  weak : ∀ w, S.weak w = none → S.preference (.weak w) = none
  rsource : ∀ v, S.rsource.ptr v ≠ none → (∃ h, v = .locked h) ∨ ∃ u, v = .result u

/-- The stack of thread `u` is the same. -/
def SameStack (S T : Pool) (u : ℕ) : Prop :=
  T.preference (.param u) = S.preference (.param u) ∧
    T.preference (.dying u) = S.preference (.dying u) ∧
    T.preference (.result u) = S.preference (.result u) ∧
    T.rsource.ptr (.result u) = S.rsource.ptr (.result u)

variable {S T : Pool} {u : ℕ} {c d : Pc}

theorem Stack.congr (h : S.Stack u c) (e : S.SameStack T u) (h₁ : d.inCall = false → c.inCall = false)
    (h₂ : d.inDestructor = false → c.inDestructor = false)
    (h₃ : d.hasResult = c.hasResult) : T.Stack u d := by
  obtain ⟨e₁, e₂, e₃, e₄⟩ := e
  constructor
  · rw [e₁]
    exact fun hd => h.param (h₁ hd)
  · rw [e₂]
    exact fun hd => h.dying (h₂ hd)
  · rw [e₃, e₄]
    exact fun hd => h.result (h₃ ▸ hd)
  · rw [e₄]
    exact fun hd => h.ready (h₃ ▸ hd)

theorem Handles.congr (h : S.Handles) (hp : T.indices.preference = S.indices.preference)
    (hr : T.rsource = S.rsource) (hw : T.weak = S.weak) : T.Handles := by
  obtain ⟨h₁, h₂, h₃⟩ := h
  constructor <;> simpa only [preference, hp, hr, hw]

theorem Handles.setWeak (h : S.Handles) {w : ℕ} {x : Option WeakResource}
    (hx : x = none → S.preference (.weak w) = none) : (S.setWeak w x).Handles := by
  refine ⟨h.locked, fun w' hw' => ?_, h.rsource⟩
  rw [setWeak_weak, Function.update_apply] at hw'
  split at hw'
  · rename_i e
    exact e ▸ hx hw'
  · exact h.weak w' hw'

theorem Handles.setPreference_weak (h : S.Handles) {w : ℕ} (x : Option ℕ) (y : WeakResource) :
    ((S.setPreference (.weak w) x).setWeak w (some y)).Handles := by
  refine ⟨fun h' hn => ?_, fun w' hw' => ?_, h.rsource⟩
  · simpa using h.locked h' hn
  · by_cases e : w' = w
    · simp [e] at hw'
    · simpa [e] using h.weak w' (by simpa [e] using hw')

theorem Handles.setLocked (h : S.Handles) {i : ℕ} {x y : Option ℕ} (hx : y = none → x = none) :
    (S.setLocked (.locked i) x y).Handles := by
  refine ⟨fun k hn => ?_, fun w hw => ?_, fun v hv => ?_⟩
  · rw [setLocked_rsource, SharedPtrs.ptr_assign] at hn
    rw [setLocked_preference]
    split at hn
    · rename_i e
      rw [if_pos e, hx hn]
    · rename_i e
      rw [if_neg e, h.locked k hn]
  · simpa using h.weak w hw
  · by_cases e : v = .locked i
    · exact .inl ⟨i, e⟩
    · exact h.rsource v (by simpa [SharedPtrs.ptr_assign, e] using hv)

/-- A pointer on a stack changes. -/
theorem Handles.setPreference_stack (h : S.Handles) {v : Var} (x : Option ℕ)
    (hv : (∃ u, v = .param u) ∨ ∃ u, v = .dying u) : (S.setPreference v x).Handles := by
  rcases hv with ⟨u, rfl⟩ | ⟨u, rfl⟩ <;>
    exact ⟨fun k hk => by simpa using h.locked k hk, fun w hw => by simpa using h.weak w hw, h.rsource⟩

/-- A result moves to the user. -/
theorem Handles.moveResult (h : S.Handles) {u h' : ℕ} (hx : S.rsource.ptr (.result u) ≠ none) :
    (S.moveResult u h').Handles := by
  have hL := h.setLocked (i := h') (x := S.preference (.result u)) (y := S.rsource.ptr (.result u))
    fun e => absurd e hx
  refine ⟨fun k hk => ?_, fun w hw => ?_, fun v hv => ?_⟩
  · simpa [Pool.moveResult] using hL.locked k (by simpa [Pool.moveResult, SharedPtrs.ptr_assign] using hk)
  · simpa [Pool.moveResult] using hL.weak w hw
  · rw [Pool.moveResult, setLocked_rsource, SharedPtrs.ptr_assign] at hv
    split at hv
    · exact absurd rfl hv
    · exact hL.rsource v hv

end Pool

/-- The thread that makes the step, if one does. -/
def Action.thread : Action → Option ℕ
  | .acquire u | .lock u _ | .dropLocked u _ | .advance u | .pop u _ | .dequeue u _
  | .dequeueFails u | .builderThrows u _ | .hookThrows u _ | .publish u _ => some u
  | .lockLive _ _ | .acquireWeak _ | .clone _ _ | .weak _ _ | .assign _ _ | .dropWeak _ => none

namespace State

/-- **The pointers of a state.** -/
structure Stacks (s : State) : Prop where
  stack : ∀ u, s.pool.Stack u (s.pc u)
  handles : s.pool.Handles

variable {cfg : Config} {s s' : State} {u : ℕ} {S : Pool} {c : Pc} {a : Action}

theorem init_stacks (cfg : Config) : (init cfg).Stacks where
  stack _ := ⟨fun _ => rfl, fun _ => rfl, fun _ => ⟨rfl, rfl⟩, fun hc => by cases hc⟩
  handles := ⟨fun _ _ => rfl, fun _ _ => rfl, fun _ hv => absurd rfl hv⟩

theorem Stacks.goto (h : s.Stacks) (hne : ∀ v, v ≠ u → s.pool.SameStack S v) (hu : S.Stack u c)
    (hH : S.Handles) : (s.goto u S c).Stacks := by
  refine ⟨fun v => ?_, hH⟩
  by_cases e : v = u
  · subst e
    simpa [State.goto] using hu
  · have hpc : (s.goto u S c).pc v = s.pc v := Function.update_of_ne e ..
    rw [hpc]
    exact (h.stack v).congr (hne v e) id id rfl

/-- No pointer changes. -/
theorem Stacks.quiet (h : s.Stacks) (hp : S.indices.preference = s.pool.indices.preference)
    (hr : S.rsource = s.pool.rsource) (hw : S.weak = s.pool.weak)
    (h₁ : c.inCall = false → (s.pc u).inCall = false)
    (h₂ : c.inDestructor = false → (s.pc u).inDestructor = false)
    (h₃ : c.hasResult = (s.pc u).hasResult) : (s.goto u S c).Stacks := by
  have hsame : ∀ v, s.pool.SameStack S v := fun v => by
    simp only [Pool.SameStack, Pool.preference, hp, hr, and_self]
  exact h.goto (fun v _ => hsame v) ((h.stack u).congr (hsame u) h₁ h₂ h₃)
    (h.handles.congr hp hr hw)

/-- A user's handle changes. -/
theorem Stacks.user (h : s.Stacks) (hs : ∀ u, s.pool.SameStack S u) (hH : S.Handles) :
    Stacks ⟨S, s.pc⟩ :=
  ⟨fun u => (h.stack u).congr (hs u) id id rfl, hH⟩

/-- `borrow` has returned. -/
theorem Stacks.borrowed {x : Option ℕ} {d : Caller} {t : Bool} {b : Borrowed × Packs}
    (h : s.Stacks) (hd : (s.pc u).inDestructor = false) (hr : (s.pc u).hasResult = false) :
    (s.borrowed u d x (.dequeue d t) b).Stacks := by
  have hu := h.stack u
  obtain ⟨r | _ | _, P⟩ := b
  · refine h.goto (fun v hv => ?_) ⟨by simp, fun _ => ?_, by simp, by simp⟩
      ⟨fun h' hn => ?_, fun w hw => ?_, fun v hv => ?_⟩
    · simp [Pool.SameStack, hv]
    · simpa using hu.dying hd
    · simpa using h.handles.locked h' (by simpa [SharedPtrs.ptr_assign] using hn)
    · simpa using h.handles.weak w hw
    · by_cases e : v = .result u
      · exact .inr ⟨u, e⟩
      · exact h.handles.rsource v (by simpa [SharedPtrs.ptr_assign, e] using hv)
  · exact h.quiet rfl rfl rfl (by simp) (fun _ => hd) hr.symm
  · exact h.quiet rfl rfl rfl (by simp) (fun _ => hd) hr.symm

/-- A pointer on the stack is cleared. -/
theorem Stacks.clear (h : s.Stacks) {v : Var} (hv : v = .param u ∨ v = .dying u)
    (hu : (s.pool.setPreference v none).Stack u c) :
    (s.goto u (s.pool.setPreference v none) c).Stacks := by
  refine h.goto (fun w hw => ?_) hu (h.handles.setPreference_stack none (hv.imp (⟨u, ·⟩) (⟨u, ·⟩)))
  rcases hv with rfl | rfl <;> simp [Pool.SameStack, hw]

theorem Stacks.advance (h : s.Stacks) (hs : s.advance cfg u = some s') : s'.Stacks := by
  have hu := h.stack u
  unfold State.advance at hs
  cases hc : s.pc u with
  | readMaxIndex c | readRecycled c | readSize c | testInFreeList i =>
    simp only [hc, Option.some.injEq] at hs
    subst hs
    split <;> exact h.quiet rfl rfl rfl (by simp [hc]) (by simp [hc]) (by simp [hc])
  | fetchAdd c | removeFromFreeList c wait p | setInFreeList i | unlock i =>
    simp only [hc, Option.some.injEq] at hs
    subst hs
    exact h.quiet rfl rfl rfl (by simp [hc]) (by simp [hc]) (by simp [hc])
  | enqueue p =>
    cases p <;> simp only [hc, Option.some.injEq] at hs <;> subst hs <;>
      exact h.quiet rfl rfl rfl (by simp [hc]) (by simp [hc]) (by simp [hc])
  | buildOrPop c =>
    simp only [hc] at hs
    split at hs <;> cases hs
    exact h.quiet rfl rfl rfl (by simp [hc]) (by simp [hc]) (by simp [hc])
  | haveIndex c i =>
    simp only [hc] at hs
    split at hs <;> cases hs
    · rw [hc] at hu
      refine h.goto (fun v hv => ?_) ⟨by simp, fun _ => ?_, fun _ => ?_, by simp⟩
        ⟨fun h' hn => ?_, fun w hw => ?_, h.handles.rsource⟩
      · simp [Pool.SameStack, Pool.preference, Indices.makeOwner, hv]
      · simpa [Pool.preference, Indices.makeOwner] using hu.dying rfl
      · simpa [Pool.preference, Indices.makeOwner] using hu.result rfl
      · simpa [Pool.preference, Indices.makeOwner] using h.handles.locked h' hn
      · simpa [Pool.preference, Indices.makeOwner] using h.handles.weak w hw
    · exact h.quiet rfl rfl rfl (by simp) (by simp [hc]) (by simp [hc])
  | borrowPreference c i =>
    simp only [hc] at hs
    split at hs
    · split at hs <;> cases hs
      exact h.borrowed (by rw [hc]; rfl) (by rw [hc]; rfl)
    · cases hs
      exact h.quiet rfl rfl rfl (by simp) (by simp [hc]) (by simp [hc])
  | borrow c wait p =>
    simp only [hc] at hs
    split at hs <;> cases hs
    exact h.borrowed (by rw [hc]; rfl) (by rw [hc]; rfl)
  | overdraw c =>
    simp only [hc, Option.some.injEq] at hs
    subst hs
    exact h.borrowed (x := none) (d := c) (t := false)
      (b := (.rented s.pool.packs.nextRental, s.pool.packs.overdraw)) (by rw [hc]; rfl)
      (by rw [hc]; rfl)
  | returning c =>
    simp only [hc, Option.some.injEq] at hs
    subst hs
    rw [hc] at hu
    exact h.clear (.inl rfl) ⟨fun _ => by simp, fun _ => by simpa using hu.dying rfl, by simp,
      fun _ => by simpa using hu.ready rfl⟩
  | dropPreference =>
    simp only [hc, Option.some.injEq] at hs
    subst hs
    rw [hc] at hu
    exact h.clear (.inr rfl) ⟨fun _ => by simpa using hu.param rfl, fun _ => by simp,
      fun _ => by simpa using hu.result rfl, by simp⟩
  | unwinding c =>
    simp only [hc, Option.some.injEq] at hs
    subst hs
    rw [hc] at hu
    cases c with
    | acquire =>
      exact h.clear (.inl rfl) ⟨fun _ => by simp, fun _ => by simpa using hu.dying rfl,
        fun _ => by simpa using hu.result rfl, by simp⟩
    | lockPreferred w | lockNew w =>
      refine h.goto (fun v hv => by simp [Pool.SameStack, Pool.unwound, hv])
        ⟨fun _ => by simp [Pool.unwound], fun _ => by simpa [Pool.unwound] using hu.dying rfl,
          fun _ => by simpa [Pool.unwound] using hu.result rfl, by simp⟩
        ((h.handles.setPreference_stack none (.inl ⟨u, rfl⟩)).setWeak fun hx => ?_)
      simpa using h.handles.weak w (by simpa using hx)
  | onRelease r =>
    simp only [hc, Option.map_eq_some_iff] at hs
    obtain ⟨x, hx, rfl⟩ := hs
    exact h.quiet rfl rfl rfl (by simp [hc]) (by simp [hc]) (by simp [hc])
  | putBack r =>
    simp only [hc] at hs
    repeat' split at hs
    all_goals first
      | cases hs; done
      | (cases hs; exact h.quiet rfl rfl rfl (by simp [hc]) (by simp [hc]) (by simp [hc]))
  | idle | dequeue | publish | aborted => simp [hc] at hs

/-- The result of the call in thread `u` moves to the user. -/
theorem Stacks.moved {d : Caller} {h' : ℕ} {T : Pool} (h : s.Stacks)
    (hT : ∀ v, s.pool.SameStack T v) (hH : T.Handles) (hu : s.pool.Stack u (.publish d)) :
    (s.goto u (T.moveResult u h') .idle).Stacks := by
  have hu' := hu.congr (hT u) (d := .publish d) id id rfl
  refine h.goto (fun v hv => ?_) ⟨fun _ => ?_, fun _ => ?_, fun _ => ?_, by simp⟩
    (hH.moveResult (hu'.ready rfl))
  · obtain ⟨e₁, e₂, e₃, e₄⟩ := hT v
    simpa [Pool.SameStack, Pool.moveResult, hv] using ⟨e₁, e₂, e₃, e₄⟩
  · simpa [Pool.moveResult] using hu'.param rfl
  · simpa [Pool.moveResult] using hu'.dying rfl
  · simp [Pool.moveResult]

/-- The call in thread `u` returns. -/
theorem Stacks.published {d : Caller} {h' : ℕ} (h : s.Stacks) (hu : s.pool.Stack u (.publish d)) :
    (s.goto u (s.pool.returned u h' d) .idle).Stacks := by
  cases d with
  | acquire => exact h.moved (fun v => ⟨rfl, rfl, rfl, rfl⟩) h.handles hu
  | lockPreferred w =>
    exact h.moved (fun v => ⟨rfl, rfl, rfl, rfl⟩) (h.handles.setWeak (by simp)) hu
  | lockNew w =>
    exact h.moved (fun v => by simp [Pool.SameStack]) (h.handles.setPreference_weak _ _) hu

theorem Stacks.step (h : s.Stacks) (hs : s.step cfg a = some s') : s'.Stacks := by
  cases a with
  | advance u => exact h.advance hs
  | acquire u =>
    simp only [State.step, Option.ite_none_right_eq_some, Option.some.injEq] at hs
    obtain ⟨hc, rfl⟩ := hs
    exact h.quiet rfl rfl rfl (by simp) (by simp [hc]) (by simp [hc])
  | lock u w =>
    simp only [State.step] at hs
    split at hs
    · rename_i x hx
      split at hs
      · rename_i hc
        have hW : (s.pool.setWeak w (some { x with locker := some u })).Handles :=
          h.handles.setWeak (by simp)
        have hu := h.stack u
        rw [hc.1] at hu
        split at hs
        · split at hs <;> cases hs
          · refine h.goto (fun v hv => by simp [Pool.SameStack, hv])
              ⟨by simp, fun _ => by simpa using hu.dying rfl, fun _ => by simpa using hu.result rfl,
                by simp⟩ (hW.setPreference_stack _ (.inl ⟨u, rfl⟩))
          · exact h.goto (fun v _ => by simp [Pool.SameStack])
              (hu.congr (by simp [Pool.SameStack]) (by simp) (by simp) rfl) hW
        · cases hs
          exact h.goto (fun v _ => by simp [Pool.SameStack])
            (hu.congr (by simp [Pool.SameStack]) (by simp) (by simp) rfl) hW
      · cases hs
    · cases hs
  | lockLive w h' =>
    simp only [State.step] at hs
    repeat' split at hs
    all_goals cases hs
    refine h.user (fun u => ?_) (h.handles.setLocked (by simp))
    simp [Pool.SameStack]
  | acquireWeak w =>
    simp only [State.step] at hs
    split at hs <;> cases hs
    exact h.user (fun u => by simp [Pool.SameStack]) (h.handles.setWeak (by simp))
  | clone h₁ h₂ =>
    simp only [State.step] at hs
    repeat' split at hs
    all_goals cases hs
    exact h.user (fun u => by simp [Pool.SameStack]) (h.handles.setLocked (by simp))
  | weak h' w | assign w h' =>
    simp only [State.step] at hs
    repeat' split at hs
    all_goals cases hs
    exact h.user (fun u => by simp [Pool.SameStack]) (h.handles.setPreference_weak _ _)
  | dropWeak w =>
    simp only [State.step] at hs
    repeat' split at hs
    all_goals cases hs
    refine h.user (fun u => by simp [Pool.SameStack])
      ⟨fun k hk => ?_, fun w' hw' => ?_, h.handles.rsource⟩
    · simpa using h.handles.locked k hk
    · by_cases e : w' = w
      · simp [e]
      · simpa [e] using h.handles.weak w' (by simpa [e] using hw')
  | dropLocked u h' =>
    simp only [State.step] at hs
    split at hs
    · split at hs
      · rename_i hc
        cases hs
        have hu := h.stack u
        rw [hc] at hu
        have hH := (h.handles.setPreference_stack (s.pool.preference (.locked h'))
          (v := .dying u) (.inr ⟨u, rfl⟩)).setLocked (i := h') (x := none) (y := none) fun _ => rfl
        have hne : ∀ v, v ≠ u → s.pool.SameStack ((s.pool.setPreference (.dying u)
            (s.pool.preference (.locked h'))).setLocked (.locked h') none none) v :=
          fun v hv => by simp [Pool.SameStack, hv]
        split <;> exact h.goto hne ⟨fun _ => by simpa using hu.param rfl, by simp,
          fun _ => by simpa using hu.result rfl, by simp⟩ hH
      · cases hs
    · cases hs
  | pop u i | dequeue u p =>
    simp only [State.step] at hs
    split at hs
    · rename_i hc
      split at hs <;> cases hs
      exact h.quiet rfl rfl rfl (by simp) (by simp [hc]) (by simp [hc])
    · cases hs
  | dequeueFails u =>
    simp only [State.step] at hs
    split at hs
    · rename_i hc
      cases hs
      split <;> exact h.quiet rfl rfl rfl (by simp) (by simp [hc]) (by simp [hc])
    · cases hs
  | builderThrows u invalid | hookThrows u invalid =>
    simp only [State.step] at hs
    split at hs
    · rename_i hc
      split at hs <;> cases hs
      cases invalid <;> exact h.quiet rfl rfl rfl (by simp) (by simp [hc]) (by simp [hc])
    · rename_i hc
      split at hs <;> cases hs
      cases invalid <;> exact h.quiet rfl rfl rfl (by simp) (by simp [hc]) (by simp [hc])
    · rename_i hc
      cases hs
      exact h.quiet rfl rfl rfl (by simp) (by simp [hc]) (by simp [hc])
    · cases hs
  | publish u h' =>
    simp only [State.step] at hs
    split at hs
    · rename_i c hc
      split at hs <;> cases hs
      have hu := h.stack u
      rw [hc] at hu
      exact h.published hu
    · cases hs

theorem stacks_of_reach {P : State → Action → Prop} (h : Reach (State.step cfg) P (init cfg) s) :
    s.Stacks :=
  h.invariant (init_stacks cfg) fun _ _ _ _ hS _ hs => hS.step hs

/-! ### Other threads -/

/-- A step leaves the threads where they are, but for one. -/
theorem pc_of_advance (hs : s.advance cfg u = some s') : ∃ c, s'.pc = Function.update s.pc u c := by
  unfold State.advance at hs
  cases hc : s.pc u with
  | borrowPreference c i =>
    simp only [hc] at hs
    repeat' split at hs
    all_goals cases hs
    · obtain ⟨T, d, he, -, -⟩ := borrowed_eq s u c (s.pool.preference (.param u)) (.dequeue c false)
        rfl (s.pool.packs.borrow (.preferred i))
      exact ⟨d, by rw [he]; rfl⟩
    · exact ⟨_, rfl⟩
  | borrow c wait p =>
    simp only [hc] at hs
    split at hs <;> cases hs
    obtain ⟨T, d, he, -, -⟩ := borrowed_eq s u c none (.dequeue c wait) rfl (s.pool.packs.borrow p)
    exact ⟨d, by rw [he]; rfl⟩
  | onRelease r =>
    simp only [hc, Option.map_eq_some_iff] at hs
    obtain ⟨x, hx, rfl⟩ := hs
    exact ⟨_, rfl⟩
  | enqueue p => cases p <;> simp only [hc, Option.some.injEq] at hs <;> subst hs <;> exact ⟨_, rfl⟩
  | _ =>
    simp only [hc, reduceCtorEq] at hs
    repeat' split at hs
    all_goals cases hs <;> exact ⟨_, rfl⟩

theorem pc_of_step (hs : s.step cfg a = some s') :
    s'.pc = s.pc ∨ ∃ u c, a.thread = some u ∧ s'.pc = Function.update s.pc u c := by
  cases a with
  | advance u =>
    obtain ⟨c, hc⟩ := pc_of_advance hs
    exact .inr ⟨u, c, rfl, hc⟩
  | lockLive | acquireWeak | clone | weak | assign | dropWeak =>
    simp only [State.step] at hs
    repeat' split at hs
    all_goals cases hs <;> exact .inl rfl
  | _ =>
    simp only [State.step] at hs
    repeat' split at hs
    all_goals cases hs <;> exact .inr ⟨_, _, rfl, rfl⟩

/-- A thread that makes no step stays where it is. -/
theorem pc_of_run {as : List Action} {v : ℕ} (has : ∀ a ∈ as, a.thread ≠ some v)
    (h : run (State.step cfg) s as = some s') : s'.pc v = s.pc v := by
  refine run_invariant (I := fun t => t.pc v = s.pc v) rfl (fun t a ha t' ht hs => ?_) h
  rcases pc_of_step hs with hp | ⟨u, c, hu, hp⟩
  · rw [hp, ht]
  · have hne : v ≠ u := fun e => has a ha (e ▸ hu)
    rw [hp, Function.update_of_ne hne, ht]

end State

end MutilsTasks.ResourcePool
