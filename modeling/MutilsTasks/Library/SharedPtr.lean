import Mathlib.Data.Finset.Basic

/-!
# Shared ownership

The part of a program's heap that is reached through counted pointers. A pointer
variable `v : ν` is empty or shares one object `o : ω`; the control block of `o`
keeps who shares it. The program sees of it what `std::shared_ptr` and
`std::weak_ptr` show: the object a variable points to, and whether an object has
expired. The control block here keeps the set of the sharing variables where the
implementation keeps its size, and that the two sides agree is a field
(`mem_sharers`), so it never has to be proved again.

Every operation on the variables is one `assign`: copying, moving and destroying
a pointer assign to one or two variables. An object's destructor is due when an
`assign` leaves it expired.
-/

namespace MutilsTasks

universe u v

/-- The counted pointers of a program: what each variable points to, and the
control block of each object. -/
structure SharedPtrs (ν : Type u) (ω : Type v) where
  /-- What a variable points to. -/
  ptr : ν → Option ω
  /-- The variables that share an object. -/
  sharers : ω → Finset ν
  /-- The two agree. -/
  mem_sharers : ∀ v o, v ∈ sharers o ↔ ptr v = some o

namespace SharedPtrs

variable {ν : Type u} {ω : Type v}

attribute [simp] mem_sharers

/-- Every variable is empty. -/
def empty : SharedPtrs ν ω := ⟨fun _ => none, fun _ => ∅, by simp⟩

section Operations

variable [DecidableEq ν] [DecidableEq ω]

/-- `v = x`: `v` lets go of what it shared and shares `x`. -/
def assign (p : SharedPtrs ν ω) (v : ν) (x : Option ω) : SharedPtrs ν ω where
  ptr := Function.update p.ptr v x
  sharers := fun o => if x = some o then insert v (p.sharers o) else (p.sharers o).erase v
  mem_sharers := by
    intro w o
    by_cases hw : w = v
    · subst hw
      by_cases hx : x = some o <;> simp [hx]
    · by_cases hx : x = some o <;> simp [hx, hw]

/-- `to = std::move(from)`. -/
def move (p : SharedPtrs ν ω) (src dst : ν) : SharedPtrs ν ω :=
  (p.assign dst (p.ptr src)).assign src none

@[simp] theorem ptr_assign_self (p : SharedPtrs ν ω) (v : ν) (x : Option ω) :
    (p.assign v x).ptr v = x := by
  simp [assign]

theorem ptr_assign (p : SharedPtrs ν ω) (v w : ν) (x : Option ω) :
    (p.assign v x).ptr w = if w = v then x else p.ptr w := by
  simp [assign, Function.update_apply]

@[simp] theorem ptr_assign_of_ne (p : SharedPtrs ν ω) {v w : ν} (x : Option ω) (h : w ≠ v) :
    (p.assign v x).ptr w = p.ptr w := by
  simp [assign, h]

/-- Clearing an empty variable. -/
theorem assign_none_eq_self (p : SharedPtrs ν ω) {v : ν} (h : p.ptr v = none) :
    p.assign v none = p := by
  obtain ⟨ptr, sharers, mem⟩ := p
  have hptr : Function.update ptr v none = ptr := by
    rw [← h]
    exact Function.update_eq_self v ptr
  have hsh : ∀ o, (sharers o).erase v = sharers o := fun o => by simp_all
  simp [assign, hptr, hsh]

end Operations

/-- Nothing shares `o`: `weak_ptr::expired`, and the moment its destructor is due. -/
def expired [DecidableEq ν] (p : SharedPtrs ν ω) (o : ω) : Bool := p.sharers o = ∅

@[simp] theorem ptr_empty (v : ν) : (empty : SharedPtrs ν ω).ptr v = none := rfl

section Expiry

variable [DecidableEq ν]

/-- An object has expired when no variable points to it. -/
theorem expired_iff {p : SharedPtrs ν ω} {o : ω} : p.expired o = true ↔ ∀ v, p.ptr v ≠ some o := by
  simp [expired, Finset.eq_empty_iff_forall_notMem]

theorem not_expired_iff {p : SharedPtrs ν ω} {o : ω} :
    p.expired o = false ↔ ∃ v, p.ptr v = some o := by
  rw [← Bool.not_eq_true, expired_iff]
  simp

@[simp] theorem expired_empty (o : ω) : (empty : SharedPtrs ν ω).expired o = true := by
  simp [expired_iff]

end Expiry

end SharedPtrs

end MutilsTasks
