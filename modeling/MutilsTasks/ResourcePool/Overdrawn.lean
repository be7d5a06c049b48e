import Mathlib.Algebra.Order.Ring.Nat
import Mathlib.Data.Nat.Notation
import Mathlib.Logic.Function.Basic
import MutilsTasks.Library.Machine

/-!
# The counters of the overdrawn rentals

`pool_state` counts its overdrawn rentals in four atomic variables: how many there are,
how many there have been, the sum of the counts that their constructors saw, and the
highest of these counts. The constructor of `overdrawn` updates them, and its destructor
the first.

Any number of threads construct and destroy overdrawn rentals, in any interleaving. A
step is one access to an atomic variable. A rental is named; the base class and the
hooks, which touch none of the counters, are left out, so `construct` stands for the
moment at which the base class is built, and `destroy` for the decrement.

The counters are `atomic_ullong`s and wrap. What the increments have returned, what has
been constructed and how many have been destroyed are ghost members.
-/

namespace MutilsTasks.ResourcePool.Overdrawn

/-- What a rental does next. -/
inductive Rental where
  /-- It does not exist. -/
  | unbuilt
  /-- `over_by = ++overdrawn_count`. -/
  | increment
  /-- The condition of the loop: `max_overdraw < over_by`. -/
  | test (overBy : ℕ)
  /-- `cand = max_overdraw.load()`. -/
  | load (overBy : ℕ)
  /-- `max_overdraw.compare_exchange_strong(cand,over_by)`. -/
  | exchange (overBy cand : ℕ)
  /-- `number_overdraws++`. -/
  | count (overBy : ℕ)
  /-- `sum_overdraws.fetch_add(over_by)`. -/
  | sum (overBy : ℕ)
  /-- It is constructed. -/
  | built
  /-- It is destroyed. -/
  | destroyed
  deriving DecidableEq

/-- A state of the counters and the rentals. -/
structure State where
  /-- `overdrawn_count`. -/
  overdrawnCount : ℕ
  /-- `max_overdraw`. -/
  maxOverdraw : ℕ
  /-- `number_overdraws`. -/
  numberOverdraws : ℕ
  /-- `sum_overdraws`. -/
  sumOverdraws : ℕ
  /-- The rentals. -/
  rental : ℕ → Rental
  /-- What the increments have returned. -/
  increments : List ℕ
  /-- The `over_by`s of the rentals that have been constructed. -/
  constructed : List ℕ
  /-- How many rentals have been destroyed. -/
  destroyed : ℕ

/-- What happens next. -/
inductive Action where
  /-- The constructor of rental `u` is called. -/
  | construct (u : ℕ)
  /-- It makes its next step. -/
  | advance (u : ℕ)
  /-- Rental `u` is destroyed. -/
  | destroy (u : ℕ)
  deriving DecidableEq

/-- A counter after an addition. -/
def wrap (n : ℕ) : ℕ := n % 2 ^ 64

namespace State

/-- The counters of a new pool. -/
def init : State := ⟨0, 0, 0, 0, fun _ => .unbuilt, [], [], 0⟩

/-- Rental `u` turns to `r`. -/
def goto (s : State) (u : ℕ) (r : Rental) : State :=
  { s with rental := Function.update s.rental u r }

/-- `over_by = ++overdrawn_count`. -/
def increment (s : State) (u : ℕ) : State :=
  let overBy := wrap (s.overdrawnCount + 1)
  { s with
    overdrawnCount := overBy
    increments := s.increments ++ [overBy] }.goto u (.test overBy)

/-- `max_overdraw.compare_exchange_strong(cand,over_by)`, and the `break` where it succeeds. -/
def exchange (s : State) (u overBy cand : ℕ) : State :=
  if s.maxOverdraw = cand then { s with maxOverdraw := overBy }.goto u (.count overBy)
  else s.goto u (.test overBy)

/-- The constructor of rental `u` makes its next step. -/
def advance (s : State) (u : ℕ) : Option State :=
  match s.rental u with
  | .unbuilt | .built | .destroyed => none
  | .increment => some (s.increment u)
  | .test overBy =>
    some (s.goto u (if s.maxOverdraw < overBy then .load overBy else .count overBy))
  | .load overBy => some (s.goto u (.exchange overBy s.maxOverdraw))
  | .exchange overBy cand => some (s.exchange u overBy cand)
  | .count overBy =>
    some ({ s with numberOverdraws := wrap (s.numberOverdraws + 1) }.goto u (.sum overBy))
  | .sum overBy =>
    some ({ s with
      sumOverdraws := wrap (s.sumOverdraws + overBy)
      constructed := s.constructed ++ [overBy] }.goto u .built)

/-- The destructor: `overdrawn_count--`. -/
def destroy (s : State) (u : ℕ) : State :=
  { s with
    overdrawnCount := wrap (2 ^ 64 - 1 + s.overdrawnCount)
    destroyed := s.destroyed + 1 }.goto u .destroyed

/-- **The step of the counters.** -/
def step (s : State) : Action → Option State
  | .construct u => if s.rental u = .unbuilt then some (s.goto u .increment) else none
  | .advance u => s.advance u
  | .destroy u => if s.rental u = .built then some (s.destroy u) else none

end State

/-! ### What a step does -/

namespace Rental

/-- The constructor is in flight. -/
def constructing : Rental → Bool
  | .unbuilt | .built | .destroyed => false
  | _ => true

/-- The constructor has incremented the first counter, and not yet the second. -/
def counting : Rental → Bool
  | .test _ | .load _ | .exchange _ _ | .count _ => true
  | _ => false

/-- The constructor has incremented the second counter, and is not done. -/
def summing : Rental → Bool
  | .sum _ => true
  | _ => false

/-- The rental exists. -/
def isBuilt (r : Rental) : Bool := r = .built

/-- The constructor has tested the mark and not loaded it again. -/
def loads : Rental → Bool
  | .load _ => true
  | _ => false

/-- The constructor has not made sure that the mark has reached its `over_by`. -/
def raising : Rental → Option ℕ
  | .test overBy | .load overBy | .exchange overBy _ => some overBy
  | _ => none

end Rental

/-- Whose step it is. -/
def Action.rental : Action → ℕ
  | .construct u | .advance u | .destroy u => u

/-- **A step of rental `u`.** -/
inductive Moves (s : State) (u : ℕ) : State → Prop
  /-- Its constructor is called. -/
  | begins : s.rental u = .unbuilt → Moves s u (s.goto u .increment)
  /-- It increments the count. -/
  | increments : s.rental u = .increment → Moves s u (s.increment u)
  /-- It keeps on raising the mark. -/
  | turns {overBy : ℕ} {r : Rental} : (s.rental u).raising = some overBy →
      s.rental u ≠ .exchange overBy s.maxOverdraw → r.raising = some overBy →
      Moves s u (s.goto u r)
  /-- The mark is high enough. -/
  | leaves {overBy : ℕ} : s.rental u = .test overBy → overBy ≤ s.maxOverdraw →
      Moves s u (s.goto u (.count overBy))
  /-- It sets the mark. -/
  | raises {overBy cand : ℕ} : s.rental u = .exchange overBy cand → s.maxOverdraw = cand →
      Moves s u ({ s with maxOverdraw := overBy }.goto u (.count overBy))
  /-- It is counted. -/
  | counts {overBy : ℕ} : s.rental u = .count overBy →
      Moves s u ({ s with numberOverdraws := wrap (s.numberOverdraws + 1) }.goto u (.sum overBy))
  /-- Its `over_by` is added. -/
  | adds {overBy : ℕ} : s.rental u = .sum overBy →
      Moves s u ({ s with
        sumOverdraws := wrap (s.sumOverdraws + overBy)
        constructed := s.constructed ++ [overBy] }.goto u .built)
  /-- It is destroyed. -/
  | ends : s.rental u = .built → Moves s u (s.destroy u)

namespace State

variable {s s' : State} {a : Action} {u v : ℕ}

@[simp] theorem goto_rental (s : State) (u v : ℕ) (r : Rental) :
    (s.goto u r).rental v = if v = u then r else s.rental v :=
  Function.update_apply ..

theorem advance_spec (h : s.advance u = some s') : Moves s u s' := by
  unfold advance at h
  split at h
  case h_4 hr =>
    cases h
    exact .increments hr
  case h_5 overBy hr =>
    cases h
    have hu : (s.rental u).raising = some overBy := by rw [hr]; rfl
    split
    · exact .turns hu (by rw [hr]; nofun) rfl
    · rename_i hn
      exact .leaves hr (Nat.not_lt.mp hn)
  case h_6 overBy hr =>
    cases h
    have hu : (s.rental u).raising = some overBy := by rw [hr]; rfl
    exact .turns hu (by rw [hr]; nofun) rfl
  case h_7 overBy cand hr =>
    cases h
    have hu : (s.rental u).raising = some overBy := by rw [hr]; rfl
    unfold exchange
    split
    · rename_i he
      exact .raises hr he
    · rename_i he
      refine .turns hu (fun e => he ?_) rfl
      rw [hr] at e
      injection e with _ e
      exact e.symm
  case h_8 hr =>
    cases h
    exact .counts hr
  case h_9 hr =>
    cases h
    exact .adds hr
  all_goals cases h

/-- **A step is a move of one rental.** -/
theorem step_spec (h : s.step a = some s') : Moves s a.rental s' := by
  cases a with
  | construct u =>
    simp only [step, Option.ite_none_right_eq_some, Option.some.injEq] at h
    obtain ⟨hr, rfl⟩ := h
    exact .begins hr
  | advance u => exact advance_spec h
  | destroy u =>
    simp only [step, Option.ite_none_right_eq_some, Option.some.injEq] at h
    obtain ⟨hr, rfl⟩ := h
    exact .ends hr

end State

end MutilsTasks.ResourcePool.Overdrawn
