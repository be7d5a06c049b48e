import MutilsTasks.ResourcePool.SequentialSpec

/-!
# Handles in a sequential run

Between two calls every handle is the user's: `Tidy`. A call of `acquire` or
`WeakResource::lock` changes no handle but the one it makes, the one it is called on
and, while it runs, its own (`Called`, `Returned`, `Unwound`).
-/

namespace MutilsTasks.ResourcePool

open Packs

variable {V A E : Type} {cfg : Config} {env : Env V A E}

/-! ### What a call changes -/

/-- A call that ends with `o` changes no handle but its own. -/
structure Pool.Called (S T : Pool) (o : Outcome E Unit) : Prop where
  weak : T.weak = S.weak
  rsource : ∀ v, v ≠ .result 0 → T.rsource.ptr v = S.rsource.ptr v
  preference : ∀ v, v ≠ .result 0 → v ≠ .param 0 → T.preference v = S.preference v
  returns : o = .returned () → ∃ r, T.rsource.ptr (.result 0) = some r
  fails : o ≠ .returned () → T.rsource.ptr (.result 0) = S.rsource.ptr (.result 0) ∧
    T.preference (.result 0) = S.preference (.result 0)

/-- It does not matter what the parameter was. -/
theorem Pool.Called.of_eq {S S' T : Pool} {o : Outcome E Unit} (h : S'.Called T o)
    (hw : S'.weak = S.weak) (hr : S'.rsource = S.rsource)
    (hp : ∀ v, v ≠ .param 0 → S'.preference v = S.preference v) : S.Called T o := by
  refine ⟨h.weak.trans hw, fun v hv => by rw [h.rsource v hv, hr], fun v hv hv' => ?_, h.returns,
    fun ho => ?_⟩
  · rw [h.preference v hv hv', hp v hv']
  · rw [(h.fails ho).1, (h.fails ho).2, hr, hp _ (by simp)]
    exact ⟨rfl, rfl⟩

namespace Frame

variable {f g : Frame V A E}

/-- `borrow` changes the packs. -/
theorem Borrows.pool {p : PackId} {o : Outcome E ℕ} (h : f.Borrows env p o g) :
    g.pool = { f.pool with packs := g.packs } := by
  cases h with
  | builder _ _ hg | hook _ _ _ hg | lent _ _ _ _ _ hg => simp [packs, hg]
  | invalid | asserts => rfl

theorem Dequeues.pool {o : Outcome E (Option ℕ)} (h : Dequeues env f o g) :
    g.pool = { f.pool with packs := g.packs } := by
  induction h with
  | empty => rfl
  | stale _ hb _ ih => rw [ih, hb.pool]; rfl
  | lent _ hb | threw _ hb | aborted _ hb => rw [hb.pool]; rfl

/-- `acquire_no_preference` changes the packs and its result, which has no preference. -/
theorem NoPreference.pool {o : Outcome E Unit} (h : f.NoPreference cfg env o g) :
    (∃ r, o = .returned () ∧
      g.pool = { f.pool with packs := g.packs }.setLocked (.result 0) none (some r)) ∨
    o ≠ .returned () ∧ g.pool = { f.pool with packs := g.packs } := by
  cases h with
  | @lent r g hd =>
    refine .inl ⟨r, rfl, ?_⟩
    rw [returnLocked, setPool, hd.pool]
    rfl
  | threw hd | aborted hd => exact .inr ⟨by simp, hd.pool⟩
  | blocked hd => exact .inr ⟨by simp, hd.pool⟩
  | @overdrawn g k v hd _ _ hk =>
    refine .inl ⟨g.packs.nextRental, rfl, ?_⟩
    rw [returnLocked, setPool, hk, hd.pool]
    rfl
  | builder hd _ _ hk | hook hd _ _ _ hk =>
    refine .inr ⟨by simp, ?_⟩
    rw [hk, packs, hk]
    exact hd.pool

theorem NoPreference.called {o : Outcome E Unit} (h : f.NoPreference cfg env o g) :
    f.pool.Called g.pool o := by
  obtain ⟨r, rfl, hg⟩ | ⟨ho, hg⟩ := h.pool <;> rw [hg] <;>
    constructor <;> simp +contextual [*]

theorem WithPreference.called {o : Outcome E Unit} {i : ℕ} (h : f.WithPreference cfg env i o g) :
    f.pool.Called g.pool o := by
  cases h with
  | @lent r g hi hb =>
    rw [returnLocked, setPool, hb.pool]
    constructor <;> simp +contextual
  | fallback hi hb hn =>
    exact hn.called.of_eq (by rw [hb.pool]) (by rw [hb.pool]) (by simp [hb.pool])
  | threw _ hb | aborted _ hb =>
    rw [hb.pool]
    constructor <;> simp +contextual
  | outOfRange => constructor <;> simp

/-- Taking an index changes no handle. -/
theorem TakesIndex.pool {i : ℕ} (h : f.TakesIndex i g) :
    g.pool = { f.pool with indices := g.pool.indices } ∧
      g.pool.indices.preference = f.pool.indices.preference := by
  cases h with
  | pop _ hg | fetchAdd _ _ hg => rw [hg]; exact ⟨rfl, rfl⟩

theorem NewPreference.called {o : Outcome E Unit} (h : f.NewPreference cfg env o g) :
    f.pool.Called g.pool o := by
  cases h with
  | full _ hn => exact hn.called
  | prefers _ ht _ hw =>
    have ht := takesIndex_spec ht
    refine hw.called.of_eq ?_ ?_ fun v hv => ?_
    · rw [setIndices, ht.pool.1]
    · rw [setIndices, ht.pool.1]
    · simp [setIndices, Pool.preference, Indices.makeOwner, ht.pool.2, hv]
  | lost _ ht _ hn =>
    have ht := takesIndex_spec ht
    refine hn.called.of_eq ?_ ?_ fun v _ => ?_
    · rw [ht.pool.1]
    · rw [ht.pool.1]
    · rw [Pool.preference, ht.pool.2]
      rfl

end Frame

/-! ### What is left of it -/

/-- The `WeakResource` that the call is about. -/
def Caller.handle : Caller → Option ℕ
  | .acquire => none
  | .lockPreferred w | .lockNew w => some w

/-- The handle that is given the preference of the result. -/
def Caller.heir : Caller → Option Var
  | .acquire | .lockPreferred _ => none
  | .lockNew w => some (.weak w)

theorem Caller.handle_of_heir {c : Caller} {v : Var} (h : c.heir = some v) :
    ∃ w, c.handle = some w ∧ v = .weak w := by
  cases c with
  | lockNew w => exact ⟨w, rfl, (Option.some.inj h).symm⟩
  | acquire | lockPreferred => cases h

/-- A call has returned `h`, with preference `x` and rental `r`. -/
structure Pool.Returned (S T : Pool) (h : ℕ) (c : Caller) (x : Option ℕ) (r : ℕ) : Prop where
  rsource : ∀ v, T.rsource.ptr v = if v = .locked h then some r else S.rsource.ptr v
  preference : ∀ v, T.preference v =
    if v = .locked h ∨ c.heir = some v then x else S.preference v
  weak : ∀ w, T.weak w = if c.handle = some w then some ⟨some r, none⟩ else S.weak w

/-- A call has thrown. -/
structure Pool.Unwound (S T : Pool) : Prop where
  rsource : ∀ v, T.rsource.ptr v = S.rsource.ptr v
  preference : ∀ v, T.preference v = S.preference v
  weak : ∀ w, T.weak w = S.weak w

/-- **Between two calls**, the handles are the user's. -/
structure Pool.Tidy (S : Pool) : Prop where
  locker : ∀ w x, S.weak w = some x → x.locker = none
  rsource : ∀ v, S.rsource.ptr v ≠ none → ∃ h, v = .locked h
  locked : ∀ h, S.Unused h → S.preference (.locked h) = none
  weak : ∀ w, S.weak w = none → S.preference (.weak w) = none
  preference : ∀ v, S.preference v ≠ none → (∃ h, v = .locked h) ∨ ∃ w, v = .weak w

/-- The pool at the beginning of a call. -/
inductive Pool.Entered (S : Pool) : Caller → Pool → Prop
  /-- Of `acquire`. -/
  | acquire : Entered S .acquire S
  /-- Of `lock`, with a preference. -/
  | lockPreferred {w o : ℕ} {x : WeakResource} : S.weak w = some x →
      S.preference (.weak w) = some o →
      Entered S (.lockPreferred w)
        ((S.setWeak w (some { x with locker := some 0 })).setPreference (.param 0) (some o))
  /-- Of `lock`, without one. -/
  | lockNew {w : ℕ} {x : WeakResource} : S.weak w = some x → S.preference (.weak w) = none →
      Entered S (.lockNew w) (S.setWeak w (some { x with locker := some 0 }))

namespace Pool

variable {S T U : Pool} {h u : ℕ} {c : Caller} {o : Outcome E Unit} {x : Option ℕ} {r : ℕ}

theorem returned_ptr (S : Pool) (u h : ℕ) (c : Caller) (v : Var) :
    (S.returned u h c).rsource.ptr v = if v = .result u then none
      else if v = .locked h then S.rsource.ptr (.result u) else S.rsource.ptr v := by
  cases c <;> simp [Pool.returned, moveResult, SharedPtrs.ptr_assign]

theorem returned_preference (S : Pool) (u h : ℕ) (c : Caller) (v : Var) :
    (S.returned u h c).preference v = if v = .result u then none
      else if v = .locked h ∨ c.heir = some v then S.preference (.result u)
      else S.preference v := by
  cases c <;> simp [Pool.returned, moveResult, Caller.heir]
  grind

theorem returned_weak (S : Pool) (u h : ℕ) (c : Caller) (w : ℕ) : (S.returned u h c).weak w =
    if c.handle = some w then some ⟨S.rsource.ptr (.result u), none⟩ else S.weak w := by
  cases c <;> simp [Pool.returned, moveResult, Caller.handle, Function.update_apply, eq_comm]

theorem unwound_ptr (S : Pool) (u : ℕ) (c : Caller) (v : Var) :
    (S.unwound u c).rsource.ptr v = S.rsource.ptr v := by
  cases c <;> rfl

theorem unwound_preference (S : Pool) (u : ℕ) (c : Caller) (v : Var) :
    (S.unwound u c).preference v = if v = .param u then none else S.preference v := by
  cases c <;> simp [Pool.unwound]

theorem unwound_weak (S : Pool) (u : ℕ) (c : Caller) (w : ℕ) : (S.unwound u c).weak w =
    if c.handle = some w then (S.weak w).map fun x => { x with locker := none } else S.weak w := by
  cases c <;> simp [Pool.unwound, Caller.handle, Function.update_apply, eq_comm] <;> grind

/-- What `Entered` changes. -/
theorem Entered.cases (he : S.Entered c T) : T.rsource = S.rsource ∧
    (∀ v, v ≠ .param 0 → T.preference v = S.preference v) ∧
    ∀ w, if c.handle = some w then
      ∃ x, S.weak w = some x ∧ T.weak w = some { x with locker := some 0 }
      else T.weak w = S.weak w := by
  cases he with
  | acquire => simp [Caller.handle]
  | lockPreferred hw | lockNew hw =>
    refine ⟨rfl, fun v hv => by simp [hv], fun w' => ?_⟩
    simp only [Caller.handle, Option.some.injEq, setPreference_weak, setWeak_weak]
    split
    · rename_i e
      exact e ▸ ⟨_, hw, Function.update_self ..⟩
    · rename_i e
      exact Function.update_of_ne (Ne.symm e) ..

namespace Tidy

theorem ofCall (tidy : S.Tidy) (u : ℕ) : S.rsource.ptr (.result u) = none ∧
    S.preference (.result u) = none ∧ S.preference (.param u) = none := by
  refine ⟨?_, ?_, ?_⟩ <;> by_contra hn
  · simpa using tidy.rsource _ hn
  · simpa using tidy.preference _ hn
  · simpa using tidy.preference _ hn

/-- How a call that returns leaves the handles. -/
theorem returns (tidy : S.Tidy) (he : S.Entered c T) (hc : T.Called U (.returned () : Outcome E Unit))
    (hr : U.rsource.ptr (.result 0) = some r) :
    S.Returned ((U.setPreference (.param 0) none).returned 0 h c) h c (U.preference (.result 0)) r := by
  obtain ⟨h1, h2, h3⟩ := tidy.ofCall 0
  obtain ⟨e1, e2, e3⟩ := he.cases
  refine ⟨fun v => ?_, fun v => ?_, fun w => ?_⟩
  · have := hc.rsource v
    simp only [returned_ptr, setPreference_rsource, hr]
    grind
  · have := hc.preference v
    have hh : ∀ w, c.heir ≠ some (.result w) ∧ c.heir ≠ some (.param w) := by
      cases c <;> simp [Caller.heir]
    simp only [returned_preference, setPreference_preference]
    grind
  · have := e3 w
    simp only [returned_weak, setPreference_weak, setPreference_rsource, hr, hc.weak]
    grind

/-- How a call that throws leaves the handles. -/
theorem unwinds (tidy : S.Tidy) (he : S.Entered c T) (hc : T.Called U o)
    (ho : o ≠ .returned ()) : S.Unwound (U.unwound 0 c) := by
  obtain ⟨h1, h2, h3⟩ := tidy.ofCall 0
  obtain ⟨e1, e2, e3⟩ := he.cases
  obtain ⟨f1, f2⟩ := hc.fails ho
  refine ⟨fun v => ?_, fun v => ?_, fun w => ?_⟩
  · have := hc.rsource v
    rw [unwound_ptr]
    grind
  · have := hc.preference v
    rw [unwound_preference]
    grind
  · have hw := e3 w
    rw [unwound_weak, hc.weak]
    split at hw
    · obtain ⟨⟨r, l⟩, hx, ht⟩ := hw
      have hl := tidy.locker w _ hx
      simp_all
    · simp_all

theorem of_returned (tidy : S.Tidy) (hr : S.Returned T h c x r) : T.Tidy where
  locker w y hw := by
    rw [hr.weak] at hw
    split at hw
    · cases hw
      rfl
    · exact tidy.locker w y hw
  rsource v hv := by
    rw [hr.rsource] at hv
    split at hv
    · exact ⟨h, ‹_›⟩
    · exact tidy.rsource v hv
  locked h' hv := by
    rw [Unused, hr.rsource] at hv
    split at hv
    · cases hv
    · rename_i hne
      rw [hr.preference, if_neg]
      · exact tidy.locked h' hv
      · rintro (e | e)
        · exact hne e
        · obtain ⟨w, -, e⟩ := Caller.handle_of_heir e
          cases e
  weak w hw := by
    rw [hr.weak] at hw
    split at hw
    · cases hw
    · rename_i hne
      rw [hr.preference, if_neg]
      · exact tidy.weak w hw
      · rintro (e | e)
        · cases e
        · obtain ⟨w', hw', e⟩ := Caller.handle_of_heir e
          cases e
          exact hne hw'
  preference v hv := by
    rw [hr.preference] at hv
    split at hv
    · rename_i he
      rcases he with rfl | e
      · exact .inl ⟨h, rfl⟩
      · obtain ⟨w, -, e⟩ := Caller.handle_of_heir e
        exact .inr ⟨w, e⟩
    · exact tidy.preference v hv

theorem of_unwound (tidy : S.Tidy) (hu : S.Unwound T) : T.Tidy where
  locker w y hw := tidy.locker w y (hu.weak w ▸ hw)
  rsource v hv := tidy.rsource v (hu.rsource v ▸ hv)
  locked h hv := by
    rw [hu.preference]
    exact tidy.locked h (by rw [Unused, ← hu.rsource]; exact hv)
  weak w hw := by
    rw [hu.preference]
    exact tidy.weak w (hu.weak w ▸ hw)
  preference v hv := tidy.preference v (hu.preference v ▸ hv)

/-! ### The other operations -/

/-- `LockedResource` `h` points to a rental. -/
theorem setLocked (tidy : S.Tidy) (h : ℕ) (x : Option ℕ) (r : ℕ) :
    (S.setLocked (.locked h) x (some r)).Tidy where
  locker := tidy.locker
  rsource v hv := by
    by_cases e : v = .locked h
    · exact ⟨h, e⟩
    · exact tidy.rsource v (by simpa [e] using hv)
  locked h' hu := by
    by_cases e : h' = h
    · simp [Unused, e] at hu
    · have := tidy.locked h' (by simpa [Unused, e] using hu)
      simpa [e] using this
  weak w hw := by simpa using tidy.weak w hw
  preference v hv := by
    by_cases e : v = .locked h
    · exact .inl ⟨h, e⟩
    · exact tidy.preference v (by simpa [e] using hv)

/-- `LockedResource` `h` is gone. -/
theorem dropLocked (tidy : S.Tidy) (h : ℕ) (hw : T.weak = S.weak)
    (hr : T.rsource = S.rsource.assign (.locked h) none)
    (hp : ∀ v, T.preference v = if v = .locked h then none else S.preference v) : T.Tidy where
  locker w y hy := tidy.locker w y (hw ▸ hy)
  rsource v hv := by
    by_cases e : v = .locked h
    · exact ⟨h, e⟩
    · exact tidy.rsource v (by simpa [hr, e] using hv)
  locked h' hu := by
    by_cases e : h' = h
    · simp [hp, e]
    · have := tidy.locked h' (by simpa [Unused, hr, e] using hu)
      simpa [hp, e] using this
  weak w hw' := by simpa [hp] using tidy.weak w (hw ▸ hw')
  preference v hv := by
    by_cases e : v = .locked h
    · exact .inl ⟨h, e⟩
    · exact tidy.preference v (by simpa [hp, e] using hv)

/-- `WeakResource` `w` is made or assigned to. -/
theorem setWeak (tidy : S.Tidy) (w : ℕ) (x : Option ℕ) (y : Option ℕ) :
    ((S.setPreference (.weak w) x).setWeak w (some ⟨y, none⟩)).Tidy where
  locker w' z hz := by
    by_cases e : w' = w
    · simp only [setWeak_weak, e, Function.update_self, Option.some.injEq] at hz
      rw [← hz]
    · exact tidy.locker w' z (by simpa [e] using hz)
  rsource := tidy.rsource
  locked h hu := by simpa using tidy.locked h hu
  weak w' hw := by
    by_cases e : w' = w
    · simp [e] at hw
    · have := tidy.weak w' (by simpa [e] using hw)
      simpa [e] using this
  preference v hv := by
    by_cases e : v = .weak w
    · exact .inr ⟨w, e⟩
    · exact tidy.preference v (by simpa [e] using hv)

/-- `WeakResource` `w` is gone. -/
theorem dropWeak (tidy : S.Tidy) (w : ℕ) :
    ((S.setPreference (.weak w) none).setWeak w none).Tidy where
  locker w' z hz := by
    by_cases e : w' = w
    · simp [e] at hz
    · exact tidy.locker w' z (by simpa [e] using hz)
  rsource := tidy.rsource
  locked h hu := by simpa using tidy.locked h hu
  weak w' hw := by
    by_cases e : w' = w
    · simp [e]
    · have := tidy.weak w' (by simpa [e] using hw)
      simpa [e] using this
  preference v hv := by
    by_cases e : v = .weak w
    · exact .inr ⟨w, e⟩
    · exact tidy.preference v (by simpa [e] using hv)

theorem init (cfg : Config) : (Pool.init cfg).Tidy := by
  constructor <;> simp [Pool.init, Pool.preference, Indices.init]

end Tidy

end Pool

namespace Session

variable {s s' : Session V} {op : Op V A} {h : ℕ} {c : Caller} {o : Outcome E Unit}
  {f : Frame V A E} {R : Result V A E}

/-- What the destructor of a `LockedResource` does to the pool. -/
theorem dropLocked_pool (env : Env V A E) (s : Session V) (h r : ℕ) :
    (s.dropLocked env h r).pool =
      { (s.pool.setPreference (.dying 0) (s.pool.preference (.locked h))).setLocked
        (.locked h) none none with packs := (s.dropLocked env h r).pool.packs }.setPreference
          (.dying 0) none := by
  by_cases he : (s.pool.rsource.assign (.locked h) none).expired r = true <;>
    cases hx : s.pool.packs.rental r <;> simp [dropLocked, he, hx, setPool] <;> rfl

theorem dropLocked_preference (env : Env V A E) (s : Session V) (h r : ℕ) (v : Var) :
    (s.dropLocked env h r).pool.preference v =
      if v = .dying 0 ∨ v = .locked h then none else s.pool.preference v := by
  rw [dropLocked_pool, Pool.setPreference_preference, Pool.preference_mk,
    Pool.setLocked_preference, Pool.setPreference_preference]
  grind

/-- The handles at the beginning of a call and at its end. -/
theorem Calls.entered (hc : s.Calls cfg env op h c o f) : s.pool.Unused h ∧
    ∃ T, s.pool.Entered c T ∧ T.Called f.pool o := by
  cases hc with
  | acquire hu hn => exact ⟨hu, _, .acquire, hn.called⟩
  | lockPreferred hx hu _ hp _ hn => exact ⟨hu, _, .lockPreferred hx hp, hn.called⟩
  | lockNew hx hu _ hp hn => exact ⟨hu, _, .lockNew hx hp, hn.called⟩

/-- What a call leaves of the handles. -/
theorem Calls.ends (tidy : s.pool.Tidy) (hc : s.Calls cfg env op h c o f)
    (hs : (finish h c (o, f)).after? = some s') :
    (∃ r, f.pool.rsource.ptr (.result 0) = some r ∧
      s.pool.Returned s'.pool h c (f.pool.preference (.result 0)) r) ∨ s.pool.Unwound s'.pool := by
  obtain ⟨-, T, he, hT⟩ := hc.entered
  obtain u | x | _ | _ := o
  · cases hs
    obtain ⟨r, hr⟩ := hT.returns rfl
    exact .inl ⟨r, hr, tidy.returns he hT hr⟩
  · cases hs
    exact .inr (tidy.unwinds he hT (by simp))
  · cases hs
  · cases hs

/-- **Every operation leaves the handles to the user.** -/
theorem tidy_step (tidy : s.pool.Tidy) (hs : s.step cfg env op = some s') : s'.pool.Tidy := by
  obtain ⟨R, hR, hs⟩ := step_spec hs
  cases hR with
  | call hc =>
    obtain ⟨r, -, hr⟩ | hu := hc.ends tidy hs
    · exact tidy.of_returned hr
    · exact tidy.of_unwound hu
  | dangling | gone => cases hs
  | lockLive | acquireIfLocked | clone =>
    cases hs
    exact tidy.setLocked ..
  | @acquireWeak w hw =>
    cases hs
    have := tidy.setWeak w none none
    rwa [Pool.setPreference_none (tidy.weak w hw)] at this
  | refuses | write =>
    cases hs
    exact tidy
  | weak =>
    cases hs
    exact tidy.setWeak ..
  | @assign h w r x _ hx =>
    cases hs
    rw [tidy.locker w x hx]
    exact tidy.setWeak ..
  | dropWeak =>
    cases hs
    exact tidy.dropWeak _
  | @dropLocked h r =>
    cases hs
    refine tidy.dropLocked h (by rw [dropLocked_pool]; rfl) (by rw [dropLocked_pool]; rfl)
      fun v => ?_
    rw [dropLocked_preference]
    have := tidy.preference (.dying 0)
    grind

end Session

/-! ### The counter -/

namespace Frame

variable {f g : Frame V A E} {o : Outcome E Unit} {i : ℕ}

theorem NoPreference.fetchAdds (h : f.NoPreference cfg env o g) :
    g.pool.indices.fetchAdds = f.pool.indices.fetchAdds := by
  obtain ⟨r, -, hg⟩ | ⟨-, hg⟩ := h.pool <;> rw [hg]
  rw [Pool.setLocked_indices, Indices.setPreference_fetchAdds]

theorem WithPreference.fetchAdds (h : f.WithPreference cfg env i o g) :
    g.pool.indices.fetchAdds = f.pool.indices.fetchAdds := by
  cases h with
  | lent _ hb =>
    rw [returnLocked, setPool, Pool.setLocked_indices, Indices.setPreference_fetchAdds, hb.pool]
  | fallback _ hb hn => rw [hn.fetchAdds, hb.pool]
  | threw _ hb | aborted _ hb => rw [hb.pool]
  | outOfRange => rfl

/-- The counter is fetched only below `max_resources`. -/
theorem TakesIndex.fetchAdds (h : f.TakesIndex i g)
    (hf : f.pool.indices.preferredFull cfg = false)
    (hm : f.pool.indices.fetchAdds ≤ cfg.maxResources) :
    g.pool.indices.fetchAdds = f.pool.indices.fetchAdds ∨
      i = f.pool.indices.fetchAdds ∧ i < cfg.maxResources ∧
        g.pool.indices.fetchAdds = f.pool.indices.fetchAdds + 1 := by
  cases h with
  | pop _ hg =>
    rw [hg]
    exact .inl rfl
  | fetchAdd hr hi hg =>
    have hlt := cfg.maxResources_lt
    rw [Indices.preferredFull, hr] at hf
    have hc : f.pool.indices.currentMaxIndex = f.pool.indices.fetchAdds :=
      Nat.mod_eq_of_lt (by omega)
    have hi' : i = f.pool.indices.fetchAdds := hi.trans hc
    have hf' : ¬ cfg.maxResources < (f.pool.indices.fetchAdds + 1) % 2 ^ 64 := by
      simpa [Indices.indexExhausted, hc] using hf
    rw [Nat.mod_eq_of_lt (by omega)] at hf'
    exact .inr ⟨hi', by omega, by rw [hg]; rfl⟩

theorem NewPreference.fetchAdds_le (h : f.NewPreference cfg env o g)
    (hm : f.pool.indices.fetchAdds ≤ cfg.maxResources) :
    g.pool.indices.fetchAdds ≤ cfg.maxResources := by
  cases h with
  | full _ hn => rwa [hn.fetchAdds]
  | prefers hf ht _ hw =>
    rw [hw.fetchAdds]
    have := (takesIndex_spec ht).fetchAdds hf hm
    simp only [setIndices, Indices.makeOwner_fetchAdds]
    omega
  | lost hf ht _ hn =>
    rw [hn.fetchAdds]
    have := (takesIndex_spec ht).fetchAdds hf hm
    omega

end Frame

namespace Session

variable {heap : Obj → V} {s s' : Session V} {op : Op V A} {P : Session V → Op V A → Prop}

/-- The end of a call concerns its handles only. -/
theorem finish_eq {h : ℕ} {c : Caller} {o : Outcome E Unit} {f : Frame V A E}
    (hs : (finish h c (o, f)).after? = some s') : s'.pool.packs = f.pool.packs ∧
      s'.pool.indices.fetchAdds = f.pool.indices.fetchAdds ∧ s'.heap = f.heap := by
  obtain u | x | _ | _ := o
  · cases hs
    cases c <;> exact ⟨rfl, by simp [finish, setPool, Pool.returned, Pool.moveResult], rfl⟩
  · cases hs
    cases c <;> exact ⟨rfl, by simp [finish, setPool, Pool.unwound], rfl⟩
  · cases hs
  · cases hs

theorem fetchAdds_step (hs : s.step cfg env op = some s')
    (hm : s.pool.indices.fetchAdds ≤ cfg.maxResources) :
    s'.pool.indices.fetchAdds ≤ cfg.maxResources := by
  obtain ⟨R, hR, hs⟩ := step_spec hs
  cases hR with
  | @call _ h c o f hc =>
    have hf : f.pool.indices.fetchAdds ≤ cfg.maxResources := by
      cases hc with
      | acquire _ hn => exact hn.fetchAdds_le hm
      | lockPreferred _ _ _ _ _ hn =>
        rw [hn.fetchAdds]
        simpa [enter, setPool] using hm
      | lockNew _ _ _ _ hn => exact hn.fetchAdds_le hm
    rwa [(finish_eq hs).2.1]
  | dangling | gone => cases hs
  | refuses | acquireWeak | write =>
    cases hs
    exact hm
  | lockLive | acquireIfLocked | clone | weak | assign | dropWeak =>
    cases hs
    simpa [setPool, done] using hm
  | dropLocked =>
    cases hs
    rw [dropLocked_pool]
    simpa using hm

/-- **In a sequential run the counter stays within `max_resources`.** -/
theorem fetchAdds_le (h : Machine.Reach (step cfg env) P (init cfg heap) s) :
    s.pool.indices.fetchAdds ≤ cfg.maxResources := by
  induction h with
  | refl => exact Nat.zero_le _
  | tail _ _ hs ih => exact fetchAdds_step hs ih

end Session

end MutilsTasks.ResourcePool
