import MutilsTasks.ResourcePool.Indices

/-!
# The pool and its handles

A `pool_state` with every handle on it: `LockedResource`s and `WeakResource`s in
the user's hands, and the ones on the stack of a call. A handle is a name with two
pointers, `index_preference` and `rsource`. What a `WeakResource` observes through
its `std::weak_ptr` is not counted.

Assigning to an `rsource` does not destroy the rental it leaves unshared: that
destructor has several steps, and they are the caller's.
-/

namespace MutilsTasks.ResourcePool

/-- The user's call that a thread is in. -/
inductive Caller where
  /-- `ResourcePool::acquire`. -/
  | acquire
  /-- `WeakResource::lock` on a handle with a preference. -/
  | lockPreferred (w : ℕ)
  /-- `WeakResource::lock` on a handle without. -/
  | lockNew (w : ℕ)
  deriving DecidableEq

/-- What a `WeakResource` has besides its `index_preference`. -/
structure WeakResource where
  /-- `rsource`, which may have expired. -/
  rsource : Option ℕ := none
  /-- The thread that is in `lock`: a handle is not shared between threads. -/
  locker : Option ℕ := none

/-- The pool and its handles. -/
structure Pool where
  /-- Packs, queue and rentals. -/
  packs : Packs
  /-- Counter, recycled indices, `index_owner`s and every `index_preference`. -/
  indices : Indices
  /-- Every `rsource` that is a `std::shared_ptr`. -/
  rsource : SharedPtrs Var ℕ
  /-- The `WeakResource`s. -/
  weak : ℕ → Option WeakResource

namespace Pool

/-- The pool as its constructor leaves it. -/
def init (cfg : Config) : Pool where
  packs := .init cfg
  indices := .init
  rsource := .empty
  weak := fun _ => none

/-! ### Pointers -/

/-- What `v.index_preference` points to. -/
def preference (S : Pool) (v : Var) : Option ℕ := S.indices.preference.ptr v

/-- `v.index_preference = x`. -/
def setPreference (S : Pool) (v : Var) (x : Option ℕ) : Pool :=
  { S with indices := S.indices.setPreference v x }

/-- `v.rsource = x`. A rental left unshared is the caller's to destroy. -/
def setRsource (S : Pool) (v : Var) (x : Option ℕ) : Pool :=
  { S with rsource := S.rsource.assign v x }

/-- `WeakResource` `w` becomes `x`. -/
def setWeak (S : Pool) (w : ℕ) (x : Option WeakResource) : Pool :=
  { S with weak := Function.update S.weak w x }

/-- `LockedResource` `v` becomes one with these pointers. -/
def setLocked (S : Pool) (v : Var) (preference rsource : Option ℕ) : Pool :=
  (S.setPreference v preference).setRsource v rsource

/-- `rsource.lock()` and the test `locked && locked->t` on it. -/
def lockable (S : Pool) (x : WeakResource) : Option ℕ :=
  x.rsource.filter fun r =>
    !S.rsource.expired r && (S.packs.rental r).any fun y => y.t.isSome

/-! ### The end of a call -/

/-- The result of the call in thread `u` moves to `h`. -/
def moveResult (S : Pool) (u h : ℕ) : Pool :=
  (S.setLocked (.locked h) (S.preference (.result u)) (S.rsource.ptr (.result u))).setLocked
    (.result u) none none

/-- The user's call returns `h`: `lock` first updates its handle. -/
def returned (S : Pool) (u h : ℕ) : Caller → Pool
  | .acquire => S.moveResult u h
  | .lockPreferred w => (S.setWeak w (some ⟨S.rsource.ptr (.result u), none⟩)).moveResult u h
  | .lockNew w =>
    ((S.setPreference (.weak w) (S.preference (.result u))).setWeak w
      (some ⟨S.rsource.ptr (.result u), none⟩)).moveResult u h

/-- An exception leaves the user's call. -/
def unwound (S : Pool) (u : ℕ) : Caller → Pool
  | .acquire => S.setPreference (.param u) none
  | .lockPreferred w | .lockNew w =>
    (S.setPreference (.param u) none).setWeak w
      ((S.weak w).map fun x => { x with locker := none })

/-- No `LockedResource` has this name. -/
def Unused (S : Pool) (h : ℕ) : Prop := S.rsource.ptr (.locked h) = none

instance (S : Pool) (h : ℕ) : Decidable (S.Unused h) := inferInstanceAs (Decidable (_ = _))

@[simp] theorem setPreference_packs (S : Pool) (v : Var) (x : Option ℕ) :
    (S.setPreference v x).packs = S.packs := rfl

@[simp] theorem setPreference_rsource (S : Pool) (v : Var) (x : Option ℕ) :
    (S.setPreference v x).rsource = S.rsource := rfl

@[simp] theorem setPreference_weak (S : Pool) (v : Var) (x : Option ℕ) :
    (S.setPreference v x).weak = S.weak := rfl

@[simp] theorem setPreference_indices (S : Pool) (v : Var) (x : Option ℕ) :
    (S.setPreference v x).indices = S.indices.setPreference v x := rfl

@[simp] theorem setWeak_packs (S : Pool) (w : ℕ) (x : Option WeakResource) :
    (S.setWeak w x).packs = S.packs := rfl

@[simp] theorem setWeak_rsource (S : Pool) (w : ℕ) (x : Option WeakResource) :
    (S.setWeak w x).rsource = S.rsource := rfl

@[simp] theorem setWeak_indices (S : Pool) (w : ℕ) (x : Option WeakResource) :
    (S.setWeak w x).indices = S.indices := rfl

@[simp] theorem setLocked_packs (S : Pool) (v : Var) (x y : Option ℕ) :
    (S.setLocked v x y).packs = S.packs := rfl

@[simp] theorem setLocked_rsource (S : Pool) (v : Var) (x y : Option ℕ) :
    (S.setLocked v x y).rsource = S.rsource.assign v y := rfl

@[simp] theorem setLocked_indices (S : Pool) (v : Var) (x y : Option ℕ) :
    (S.setLocked v x y).indices = S.indices.setPreference v x := rfl

@[simp] theorem setLocked_weak (S : Pool) (v : Var) (x y : Option ℕ) :
    (S.setLocked v x y).weak = S.weak := rfl

@[simp] theorem setWeak_weak (S : Pool) (w : ℕ) (x : Option WeakResource) :
    (S.setWeak w x).weak = Function.update S.weak w x := rfl

@[simp] theorem preference_mk (S : Pool) (P : Packs) (R : SharedPtrs Var ℕ)
    (W : ℕ → Option WeakResource) : preference ⟨P, S.indices, R, W⟩ = S.preference := rfl

@[simp] theorem setWeak_preference (S : Pool) (w : ℕ) (x : Option WeakResource) :
    (S.setWeak w x).preference = S.preference := rfl

@[simp] theorem setPreference_preference (S : Pool) (v w : Var) (x : Option ℕ) :
    (S.setPreference v x).preference w = if w = v then x else S.preference w := by
  simp [preference, SharedPtrs.ptr_assign]

@[simp] theorem setLocked_preference (S : Pool) (v w : Var) (x y : Option ℕ) :
    (S.setLocked v x y).preference w = if w = v then x else S.preference w :=
  S.setPreference_preference v w x

theorem setPreference_none {S : Pool} {v : Var} (h : S.preference v = none) :
    S.setPreference v none = S := by
  have h' : S.indices.preference.ptr v = none := h
  simp [setPreference, Indices.setPreference, h', SharedPtrs.assign_none_eq_self]

/-- What `rsource.lock()` returns is shared by someone. -/
theorem exists_of_lockable {S : Pool} {x : WeakResource} {r : ℕ} (h : S.lockable x = some r) :
    ∃ v, S.rsource.ptr v = some r := by
  obtain ⟨-, h⟩ := Option.filter_eq_some_iff.mp h
  rw [Bool.and_eq_true, Bool.not_eq_true'] at h
  exact SharedPtrs.not_expired_iff.mp h.1

end Pool

end MutilsTasks.ResourcePool
