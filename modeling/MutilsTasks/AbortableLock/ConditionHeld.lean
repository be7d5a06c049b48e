import MutilsTasks.Library.Machine
import Mathlib.Data.Nat.Notation
import Mathlib.Logic.Function.Basic

/-!
# The guard of the condition variable

`condition_variable::wait` returns a `condition_held`, a guard with a `unique_lock` on the
mutex `m` of the condition variable. Its first constructor points `held_by` to the guard's
own `my_id`, and `unlock` clears it. The move constructor moves the `unique_lock` and leaves
`held_by` alone; the destructor calls `unlock`, whatever the `unique_lock` owns.

Guards are made by `wait` and by moves, unlocked and destroyed, one operation at a time and
in any order, each guard destroyed once. `wait` is the moment at which it succeeds: it has
locked `m` and its predicate is true. `wait` builds its result in place. A user calls
`unlock` only on a guard that owns `m`.

`unique_lock::unlock` throws when it owns nothing; out of the destructor that ends the
program. The numbers of successful waits and of unlocks are ghost members.

The guard rests on being destroyed where it was made, and on not having been unlocked
before. `abortable_locked_guardian` keeps to that.
-/

namespace MutilsTasks.ConditionHeld

open Machine

/-- A `condition_held`. -/
inductive Guard where
  /-- It has not been constructed. -/
  | unbuilt
  /-- Its `l` owns `m`. -/
  | owning
  /-- Its `l` owns nothing. -/
  | empty
  /-- It is destroyed. -/
  | destroyed
  deriving DecidableEq

/-- A state of the condition variable and its guards. -/
structure State where
  /-- Whether `m` is locked. -/
  locked : Bool
  /-- Whose `my_id` `held_by` points to. -/
  heldBy : Option ℕ
  /-- The guards. -/
  guard : ℕ → Guard
  /-- Whether the program has been terminated. -/
  terminated : Bool
  /-- How many calls of `wait` have returned. -/
  waits : ℕ
  /-- How often a guard has unlocked `m`. -/
  unlocks : ℕ

/-- An operation. -/
inductive Action where
  /-- `wait` returns guard `g`. -/
  | wait (g : ℕ)
  /-- Guard `dst` is constructed from guard `src`. -/
  | move (src dst : ℕ)
  /-- A user calls `unlock` on guard `g`. -/
  | unlock (g : ℕ)
  /-- Guard `g` is destroyed. -/
  | destroy (g : ℕ)
  deriving DecidableEq

namespace State

/-- A new condition variable. -/
def init : State := ⟨false, none, fun _ => .unbuilt, false, 0, 0⟩

/-- Guard `g` turns to `x`. -/
def turn (s : State) (g : ℕ) (x : Guard) : State := { s with guard := Function.update s.guard g x }

/-- The constructor that locks, where `who` is `held_by`. -/
def construct (s : State) (g : ℕ) : State :=
  { s with locked := true, heldBy := some g, waits := s.waits + 1 }.turn g .owning

/-- The move constructor. -/
def move (s : State) (src dst : ℕ) : State := (s.turn dst (s.guard src)).turn src .empty

/-- `condition_held::unlock`: `who = nullptr; l.unlock()`, and whether that throws. -/
def unlock (s : State) (g : ℕ) : State × Bool :=
  if s.guard g = .owning then
    ({ s with locked := false, heldBy := none, unlocks := s.unlocks + 1 }.turn g .empty, false)
  else ({ s with heldBy := none }, true)

/-- The destructor. -/
def destroy (s : State) (g : ℕ) : State :=
  if (s.unlock g).2 then { (s.unlock g).1 with terminated := true }
  else (s.unlock g).1.turn g .destroyed

/-- Whether guard `g` exists. -/
def live (s : State) (g : ℕ) : Bool := s.guard g = .owning ∨ s.guard g = .empty

/-- **An operation.** -/
def step (s : State) (a : Action) : Option State :=
  if s.terminated then none
  else
    match a with
    | .wait g => if s.guard g = .unbuilt ∧ s.locked = false then some (s.construct g) else none
    | .move src dst => if s.live src ∧ s.guard dst = .unbuilt then some (s.move src dst) else none
    | .unlock g => if s.guard g = .owning then some (s.unlock g).1 else none
    | .destroy g => if s.live g then some (s.destroy g) else none

/-! ### Guards that stay where they are -/

variable {s s' : State} {a : Action} {g : ℕ}

/-- **A guard releases its mutex exactly once, and `held_by` is truthful.** -/
structure Truthful (s : State) : Prop where
  /-- No guard has unlocked what it does not own. -/
  alive : s.terminated = false
  /-- `m` has been unlocked once for each wait, but for the one whose guard still owns it. -/
  once : s.waits = s.unlocks + if s.locked then 1 else 0
  /-- `m` is locked while a guard owns it. -/
  locked : s.locked = true ↔ ∃ g, s.guard g = .owning
  /-- `held_by` points to the guard that owns `m`. -/
  heldBy : ∀ g, s.heldBy = some g ↔ s.guard g = .owning

/-- A guard that owns `m` is not moved from, and one that does not is not destroyed. -/
def Careful (s : State) (a : Action) : Prop :=
  ∀ g, (∀ dst, a = .move g dst → s.guard g ≠ .owning) ∧ (a = .destroy g → s.guard g ≠ .empty)

theorem init_truthful : init.Truthful :=
  ⟨rfl, rfl, iff_of_false nofun nofun, fun _ => iff_of_false nofun nofun⟩

/-- At most one guard owns `m`. -/
theorem Truthful.eq_of_owning (h : s.Truthful) {g g' : ℕ} (hg : s.guard g = .owning)
    (hg' : s.guard g' = .owning) : g = g' :=
  Option.some.inj (((h.heldBy g).mpr hg).symm.trans ((h.heldBy g').mpr hg'))

@[simp] theorem turn_guard (s : State) (g g' : ℕ) (x : Guard) :
    (s.turn g x).guard g' = if g' = g then x else s.guard g' :=
  Function.update_apply ..

/-- The guard that owns `m` unlocks it. -/
theorem Truthful.release (h : s.Truthful) (hg : s.guard g = .owning) {f : ℕ → Guard}
    (hf : ∀ g', f g' = .owning ↔ g' ≠ g ∧ s.guard g' = .owning) :
    Truthful { s with locked := false, heldBy := none, unlocks := s.unlocks + 1, guard := f } := by
  have hl : s.locked = true := h.locked.mpr ⟨g, hg⟩
  have hn : ∀ g', f g' ≠ .owning := by
    intro g' hg'
    obtain ⟨hne, ho⟩ := (hf g').mp hg'
    exact hne (h.eq_of_owning ho hg)
  refine ⟨h.alive, ?_, ?_, fun g' => iff_of_false nofun (hn g')⟩
  · have ho := h.once
    rw [hl] at ho
    exact ho
  · exact iff_of_false nofun fun ⟨g', hg'⟩ => hn g' hg'

/-- **Every careful operation keeps it.** -/
theorem Truthful.step (h : s.Truthful) (ha : s.Careful a) (hs : s.step a = some s') :
    s'.Truthful := by
  simp only [State.step, h.alive, Bool.false_eq_true, if_false] at hs
  cases a with
  | wait g =>
    simp only [Option.ite_none_right_eq_some, Option.some.injEq] at hs
    obtain ⟨⟨hg, hl⟩, rfl⟩ := hs
    have hn : ∀ g', s.guard g' ≠ .owning := by
      intro g' hg'
      rw [h.locked.mpr ⟨g', hg'⟩] at hl
      cases hl
    refine ⟨h.alive, ?_, iff_of_true rfl ⟨g, ?_⟩, fun g' => ?_⟩
    · have ho := h.once
      rw [hl] at ho
      exact congrArg (· + 1) ho
    · rw [construct, turn_guard, if_pos rfl]
    · rw [construct, turn_guard]
      split
      · rename_i e
        exact iff_of_true (congrArg some e.symm) rfl
      · rename_i e
        exact iff_of_false (fun e' => e (Option.some.inj e').symm) (hn g')
  | move src dst =>
    simp only [Option.ite_none_right_eq_some, Option.some.injEq] at hs
    obtain ⟨⟨hsrc, hdst⟩, rfl⟩ := hs
    have he : s.guard src = .empty := by
      have hno := (ha src).1 dst rfl
      simpa [live, hno] using hsrc
    have hsame : ∀ g', (s.move src dst).guard g' = .owning ↔ s.guard g' = .owning := by
      intro g'
      rw [State.move, turn_guard, turn_guard]
      split
      · rename_i e
        rw [e, he]
      · split
        · rename_i e
          rw [e, he, hdst]
          exact iff_of_false nofun nofun
        · exact Iff.rfl
    refine ⟨h.alive, h.once, ?_, fun g' => (h.heldBy g').trans (hsame g').symm⟩
    exact h.locked.trans (exists_congr fun g' => (hsame g').symm)
  | unlock g =>
    simp only [Option.ite_none_right_eq_some, Option.some.injEq] at hs
    obtain ⟨hg, rfl⟩ := hs
    rw [State.unlock, if_pos hg]
    apply h.release hg
    intro g'
    by_cases e : g' = g <;> simp [e]
  | destroy g =>
    simp only [Option.ite_none_right_eq_some, Option.some.injEq] at hs
    obtain ⟨hlive, rfl⟩ := hs
    have hg : s.guard g = .owning := by
      have hne := (ha g).2 rfl
      simpa [live, hne] using hlive
    rw [State.destroy, State.unlock, if_pos hg]
    apply h.release hg
    intro g'
    by_cases e : g' = g <;> simp [e]

/-- What an operation that is not careful leaves behind. -/
theorem Truthful.not_step (h : s.Truthful) (ha : ¬ s.Careful a) (hs : s.step a = some s') :
    ¬ s'.Truthful := by
  intro h'
  simp only [State.step, h.alive, Bool.false_eq_true, if_false] at hs
  simp only [Careful, not_forall, not_and_or, ne_eq, not_not] at ha
  obtain ⟨g, ⟨dst, rfl, hg⟩ | ⟨rfl, hg⟩⟩ := ha
  · -- `held_by` points to the guard that has been moved from
    simp only [Option.ite_none_right_eq_some, Option.some.injEq] at hs
    obtain ⟨⟨-, hdst⟩, rfl⟩ := hs
    have hne : dst ≠ g := by
      rintro rfl
      rw [hg] at hdst
      cases hdst
    have ho : (s.move g dst).guard dst = .owning := by
      rw [State.move, turn_guard, if_neg hne, turn_guard, if_pos rfl, hg]
    have hheld : s.heldBy = some dst := (h'.heldBy dst).mpr ho
    rw [(h.heldBy g).mpr hg] at hheld
    exact hne (Option.some.inj hheld).symm
  · -- the destructor unlocks what the guard does not own
    simp only [Option.ite_none_right_eq_some, Option.some.injEq] at hs
    obtain ⟨-, rfl⟩ := hs
    have halive := h'.alive
    simp [State.destroy, State.unlock, hg] at halive

/-- **Guards are truthful in a run of careful operations**, and an operation that is not
careful makes them not. -/
theorem truthful_iff_careful (s s' : State) (a : Action) (h : Reach State.step Careful init s) :
    s.Truthful ∧ (s.step a = some s' → (s'.Truthful ↔ s.Careful a)) := by
  have ht : s.Truthful := h.invariant init_truthful fun _ _ _ _ ht ha hs => ht.step ha hs
  refine ⟨ht, fun hs => ⟨fun h' => ?_, fun ha => ht.step ha hs⟩⟩
  by_contra ha
  exact ht.not_step ha hs h'

/-- A guard unlocks and is moved from, and then another one waits and is destroyed. -/
def unlockedFirst : List Action := [.wait 0, .unlock 0, .move 0 2, .wait 1, .destroy 1]

/-- Whether the operation is careful. -/
def careful (s : State) : Action → Bool
  | .move g _ => s.guard g != .owning
  | .destroy g => s.guard g != .empty
  | _ => true

theorem Careful.of_careful (h : s.careful a = true) : s.Careful a := by
  refine fun g => ⟨?_, ?_⟩
  · rintro dst rfl
    simpa [careful] using h
  · rintro rfl
    simpa [careful] using h

theorem truthful_iff_careful_unlockedFirst : ∃ s, run State.step init unlockedFirst = some s ∧
    s.waits = 2 ∧ s.unlocks = 2 ∧ s.Truthful ∧
    ((s.destroy 0).Truthful ↔ s.Careful (.destroy 0)) := by
  obtain ⟨s, hg, hs, hw, hu, hd⟩ : ∃ s,
      run (fun s a => if s.careful a = true then s.step a else none) init unlockedFirst = some s ∧
      run State.step init unlockedFirst = some s ∧ s.waits = 2 ∧ s.unlocks = 2 ∧
      s.step (.destroy 0) = some (s.destroy 0) := ⟨_, rfl, rfl, rfl, rfl, rfl⟩
  have h := truthful_iff_careful s (s.destroy 0) (.destroy 0)
    ((Reach.of_guarded unlockedFirst hg).mono fun _ _ => .of_careful)
  exact ⟨s, hs, hw, hu, h.1, h.2 hd⟩

/-- A guard is moved from, and the guards are destroyed. -/
def movedFrom : List Action := [.wait 0, .move 0 1, .destroy 1, .destroy 0]

/-- **The destructor of a guard that has been moved from ends the program.** -/
theorem terminated_of_move : ¬ ∀ s, Reach State.step Any init s → s.Truthful := by
  intro h
  obtain ⟨s, hs, ht⟩ : ∃ s, run State.step init movedFrom = some s ∧ s.terminated = true :=
    ⟨_, rfl, rfl⟩
  have := (h s (.of_run movedFrom (fun _ _ _ => trivial) hs)).alive
  rw [ht] at this
  cases this

end State

end MutilsTasks.ConditionHeld
