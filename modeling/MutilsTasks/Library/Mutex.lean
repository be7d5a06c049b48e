import Mathlib.Logic.Function.Basic

/-!
# A mutex and the sections it guards

`Guards f m` says that the party that has locked the mutex, if there is one, is the only one
inside a section that the mutex guards: `f` tells who is inside, and `m` who has it locked.
A party that locks it goes inside, and one that unlocks it leaves.
-/

namespace MutilsTasks

universe u

variable {ι : Type u}

/-- **Who has locked the mutex is inside, and nobody else is.** -/
def Guards (f : ι → Bool) (m : Option ι) : Prop := ∀ p, f p = true ↔ m = some p

namespace Guards

variable {f g : ι → Bool} {m : Option ι} {p q : ι}

theorem keep (h : Guards f m) (hg : ∀ q, g q = f q) : Guards g m := fun q => by
  rw [hg, h q]

theorem eq (h : Guards f m) (hp : f p = true) (hq : f q = true) : p = q :=
  Option.some.inj (((h p).mp hp).symm.trans ((h q).mp hq))

theorem outside (h : Guards f none) (p : ι) : f p = false := by
  rw [← Bool.not_eq_true, h p]
  nofun

variable [DecidableEq ι]

theorem lock (h : Guards f none) (hg : ∀ q, g q = if q = p then true else f q) :
    Guards g (some p) := by
  intro q
  rw [hg, Option.some.injEq]
  by_cases e : q = p
  · simp [e]
  · simp [e, h.outside q, Ne.symm e]

theorem unlock (h : Guards f m) (hp : f p = true) (hg : ∀ q, g q = if q = p then false else f q) :
    Guards g none := by
  intro q
  rw [hg]
  by_cases e : q = p
  · simp [e]
  · have : f q = false := by
      rw [← Bool.not_eq_true]
      exact fun hq => e (h.eq hq hp)
    simp [e, this]

end Guards

end MutilsTasks
