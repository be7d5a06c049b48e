import Mathlib.Algebra.BigOperators.Group.List.Basic
import MutilsTasks.Library.Census
import MutilsTasks.ResourcePool.Overdrawn

/-!
# When the high-water mark is exact

The constructor of `overdrawn` tests `max_overdraw`, loads it again into `cand`, and swaps
its `over_by` in if `max_overdraw` is still `cand`. Between the test and the load another
constructor may have raised the mark past `over_by`; the swap then lowers it.

As long as no constructor raises the mark while another one is between its test and its load
(`Undisturbed`), what is loaded is below the `over_by` that is swapped in. So the mark never goes
down, and whenever no constructor is in flight it is the highest of all the counts that were
seen. The other counters are exact in any case.
-/

namespace MutilsTasks.ResourcePool.Overdrawn

open Machine

/-- The highest of `l`, or `0`. -/
def highest (l : List ℕ) : ℕ := l.foldr max 0

theorem le_highest {l : List ℕ} {x : ℕ} (h : x ∈ l) : x ≤ highest l := by
  induction l with
  | nil => cases h
  | cons y l ih =>
    rcases List.mem_cons.mp h with rfl | h
    · exact Nat.le_max_left _ _
    · exact Nat.le_trans (ih h) (Nat.le_max_right _ _)

theorem highest_le {l : List ℕ} {m : ℕ} (h : ∀ x ∈ l, x ≤ m) : highest l ≤ m := by
  induction l with
  | nil => exact Nat.zero_le m
  | cons y l ih =>
    apply Nat.max_le.mpr
    exact ⟨h y List.mem_cons_self, ih fun x hx => h x (List.mem_cons_of_mem y hx)⟩

/-- A bound that is attained. -/
theorem eq_highest {l : List ℕ} {m : ℕ} (h : ∀ x ∈ l, x ≤ m) (hm : m = 0 ∨ m ∈ l) :
    m = highest l := by
  apply Nat.le_antisymm
  · rcases hm with rfl | hm
    · exact Nat.zero_le _
    · exact le_highest hm
  · exact highest_le h

theorem wrap_of_lt {n : ℕ} (h : n < 2 ^ 64) : wrap n = n := Nat.mod_eq_of_lt h

namespace State

variable {s s' : State} {a : Action} {u : ℕ}

/-- No constructor is in flight. -/
def Quiet (s : State) : Prop := ∀ u, (s.rental u).constructing = false

/-- **The counters are exact.** -/
structure Exact (s : State) : Prop where
  max : s.maxOverdraw = highest s.increments
  number : s.numberOverdraws = s.constructed.length
  sum : s.sumOverdraws = s.constructed.sum
  count : s.overdrawnCount + s.destroyed = s.constructed.length

/-- No counter reaches `2 ^ 64`. -/
def Below (s : State) (a : Action) : Prop :=
  match s.rental a.rental with
  | .increment => s.overdrawnCount + 1 < 2 ^ 64
  | .count _ => s.numberOverdraws + 1 < 2 ^ 64
  | .sum overBy => s.sumOverdraws + overBy < 2 ^ 64
  | _ => True

instance (s : State) (a : Action) : Decidable (s.Below a) := by
  unfold Below
  cases s.rental a.rental <;> infer_instance

/-- **No constructor raises the mark while another one is between its loop test and its load**: a
`compare_exchange_strong` that is to succeed finds none there. -/
def Undisturbed (s : State) (a : Action) : Prop :=
  ∀ overBy, s.rental a.rental = .exchange overBy s.maxOverdraw →
    ∀ v overBy', s.rental v ≠ .load overBy'

/-- A `compare_exchange_strong` does not succeed with a `cand` above its `over_by`. -/
def Fresh (s : State) (a : Action) : Prop :=
  ∀ overBy cand, s.rental a.rental = .exchange overBy cand → s.maxOverdraw = cand → cand ≤ overBy

/-! ### What is counted -/

/-- **The counts in every reachable state**: `i` rentals are between the two increments, `j`
between the second and the end of the constructor, and `k` exist. -/
structure Counted (s : State) (i j k : ℕ) : Prop where
  counting : Census s.rental Rental.counting i
  summing : Census s.rental Rental.summing j
  built : Census s.rental Rental.isBuilt k
  count : s.overdrawnCount + s.destroyed = s.increments.length
  small : s.overdrawnCount < 2 ^ 64
  incremented : s.increments.length = s.numberOverdraws + i
  number : s.numberOverdraws = s.constructed.length + j
  constructed : s.constructed.length = s.destroyed + k
  sum : s.sumOverdraws = s.constructed.sum

theorem init_counted : init.Counted 0 0 0 where
  counting := .zero fun _ => rfl
  summing := .zero fun _ => rfl
  built := .zero fun _ => rfl
  count := rfl
  small := Nat.two_pow_pos 64
  incremented := rfl
  number := rfl
  constructed := rfl
  sum := rfl

variable {i j k : ℕ}

/-- A rental that stays where it is counted. -/
theorem Counted.goto (h : s.Counted i j k) {r : Rental}
    (hi : r.counting = (s.rental u).counting) (hj : r.summing = (s.rental u).summing)
    (hk : r.isBuilt = (s.rental u).isBuilt) : (s.goto u r).Counted i j k where
  counting := h.counting.keep hi
  summing := h.summing.keep hj
  built := h.built.keep hk
  count := h.count
  small := h.small
  incremented := h.incremented
  number := h.number
  constructed := h.constructed
  sum := h.sum

/-- A rental that is raising the mark is between the increments. -/
theorem stage_of_raising {r : Rental} {x : ℕ} (h : r.raising = some x) :
    r.counting = true ∧ r.summing = false ∧ r.isBuilt = false := by
  cases r <;> first | exact ⟨rfl, rfl, rfl⟩ | cases h

/-- **Every step keeps the counts**, as long as no counter reaches `2 ^ 64`. -/
theorem Counted.step (h : s.Counted i j k) (ha : s.Below a) (hs : s.step a = some s') :
    ∃ i j k, s'.Counted i j k := by
  have hm := step_spec hs
  unfold Below at ha
  generalize a.rental = u at hm ha
  cases hm with
  | begins hr => exact ⟨i, j, k, h.goto (by rw [hr]; rfl) (by rw [hr]; rfl) (by rw [hr]; rfl)⟩
  | @turns x r hx _ hr =>
    obtain ⟨h₁, h₂, h₃⟩ := stage_of_raising hx
    obtain ⟨h₁', h₂', h₃'⟩ := stage_of_raising hr
    exact ⟨i, j, k, h.goto (h₁'.trans h₁.symm) (h₂'.trans h₂.symm) (h₃'.trans h₃.symm)⟩
  | leaves hr => exact ⟨i, j, k, h.goto (by rw [hr]; rfl) (by rw [hr]; rfl) (by rw [hr]; rfl)⟩
  | @raises x cand hr =>
    have h' := h.goto (u := u) (r := .count x) (by rw [hr]; rfl) (by rw [hr]; rfl) (by rw [hr]; rfl)
    exact ⟨i, j, k, h'.counting, h'.summing, h'.built, h.count, h.small, h.incremented, h.number,
      h.constructed, h.sum⟩
  | increments hr =>
    rw [hr] at ha
    have hw := wrap_of_lt ha
    refine ⟨i + 1, j, k, h.counting.enter (by rw [hr]; rfl) rfl, h.summing.keep (by rw [hr]; rfl),
      h.built.keep (by rw [hr]; rfl), ?_, ?_, ?_, h.number, h.constructed, h.sum⟩
    · show wrap (s.overdrawnCount + 1) + s.destroyed = (s.increments ++ [_]).length
      rw [hw, List.length_append, List.length_singleton, ← h.count]
      omega
    · show wrap (s.overdrawnCount + 1) < 2 ^ 64
      rw [hw]
      exact ha
    · show (s.increments ++ [_]).length = s.numberOverdraws + (i + 1)
      rw [List.length_append, List.length_singleton, h.incremented]
      omega
  | @counts x hr =>
    rw [hr] at ha
    have hw := wrap_of_lt ha
    obtain ⟨m, rfl, hm⟩ := h.counting.leave (x := .sum x) (by rw [hr]; rfl) rfl
    refine ⟨m, j + 1, k, hm, h.summing.enter (by rw [hr]; rfl) rfl, h.built.keep (by rw [hr]; rfl),
      h.count, h.small, ?_, ?_, h.constructed, h.sum⟩
    · show s.increments.length = wrap (s.numberOverdraws + 1) + m
      rw [hw, h.incremented]
      omega
    · show wrap (s.numberOverdraws + 1) = s.constructed.length + (j + 1)
      rw [hw, h.number]
      omega
  | @adds x hr =>
    rw [hr] at ha
    have hw := wrap_of_lt ha
    obtain ⟨m, rfl, hm⟩ := h.summing.leave (x := .built) (by rw [hr]; rfl) rfl
    refine ⟨i, m, k + 1, h.counting.keep (by rw [hr]; rfl), hm,
      h.built.enter (by rw [hr]; rfl) rfl, h.count, h.small, h.incremented, ?_, ?_, ?_⟩
    · show s.numberOverdraws = (s.constructed ++ [x]).length + m
      rw [List.length_append, List.length_singleton, h.number]
      omega
    · show (s.constructed ++ [x]).length = s.destroyed + (k + 1)
      rw [List.length_append, List.length_singleton, h.constructed]
      omega
    · show wrap (s.sumOverdraws + x) = (s.constructed ++ [x]).sum
      rw [hw, h.sum, List.sum_append, List.sum_singleton]
  | ends hr =>
    have hpos := h.built.pos (u := u) (by rw [hr]; rfl)
    have h₁ := h.count
    have h₂ := h.small
    have h₃ := h.incremented
    have h₄ := h.number
    have h₅ := h.constructed
    have hw : wrap (2 ^ 64 - 1 + s.overdrawnCount) = s.overdrawnCount - 1 := by
      rw [wrap]
      omega
    obtain ⟨m, rfl, hm⟩ := h.built.leave (x := .destroyed) (by rw [hr]; rfl) rfl
    refine ⟨i, j, m, h.counting.keep (by rw [hr]; rfl), h.summing.keep (by rw [hr]; rfl), hm,
      ?_, ?_, h.incremented, h.number, ?_, h.sum⟩
    · show wrap (2 ^ 64 - 1 + s.overdrawnCount) + (s.destroyed + 1) = s.increments.length
      omega
    · show wrap (2 ^ 64 - 1 + s.overdrawnCount) < 2 ^ 64
      omega
    · show s.constructed.length = s.destroyed + 1 + m
      omega

/-! ### What has been tested -/

/-- **What is loaded is below what will be swapped in**, and so is what is about to be loaded. -/
structure Tested (s : State) : Prop where
  loading : ∀ v x, s.rental v = .load x → s.maxOverdraw < x
  loaded : ∀ v x cand, s.rental v = .exchange x cand → cand < x

theorem init_tested : init.Tested := ⟨nofun, nofun⟩

/-- A rental moves, and the mark stays. -/
theorem Tested.goto (h : s.Tested) {r : Rental} {o n t d : ℕ} {is cs : List ℕ}
    (hl : ∀ x, r = .load x → s.maxOverdraw < x) (he : ∀ x cand, r = .exchange x cand → cand < x) :
    (State.goto ⟨o, s.maxOverdraw, n, t, s.rental, is, cs, d⟩ u r).Tested := by
  refine ⟨fun v x hv => ?_, fun v x cand hv => ?_⟩ <;> rw [goto_rental] at hv <;> split at hv
  · exact hl x hv
  · exact h.loading v x hv
  · exact he x cand hv
  · exact h.loaded v x cand hv

theorem Tested.advance (h : s.Tested) (ha : s.Undisturbed (.advance u))
    (hs : s.advance u = some s') : s'.Tested := by
  unfold State.advance at hs
  cases hr : s.rental u with
  | unbuilt | built | destroyed => simp [hr] at hs
  | increment | count x | sum x =>
    simp only [hr, Option.some.injEq] at hs
    subst hs
    exact h.goto nofun nofun
  | test x =>
    simp only [hr, Option.some.injEq] at hs
    subst hs
    refine h.goto (fun y e => ?_) fun y cand e => ?_ <;> split at e <;> cases e
    assumption
  | load x =>
    simp only [hr, Option.some.injEq] at hs
    subst hs
    refine h.goto nofun fun y cand e => ?_
    cases e
    exact h.loading u x hr
  | exchange x cand =>
    simp only [hr, Option.some.injEq] at hs
    subst hs
    unfold State.exchange
    split
    · -- nobody has tested the mark that is replaced and not loaded it
      rename_i he
      have hno := ha x (by rw [he]; exact hr)
      refine ⟨fun v y hv => ?_, fun v y c hv => ?_⟩ <;> rw [goto_rental] at hv <;> split at hv
      · cases hv
      · exact absurd hv (hno v y)
      · cases hv
      · exact h.loaded v y c hv
    · exact h.goto nofun nofun

/-- **Every step keeps it**, if no constructor is disturbed. -/
theorem Tested.step (h : s.Tested) (ha : s.Undisturbed a) (hs : s.step a = some s') : s'.Tested := by
  cases a with
  | construct u =>
    simp only [State.step, Option.ite_none_right_eq_some, Option.some.injEq] at hs
    obtain ⟨-, rfl⟩ := hs
    exact h.goto (fun _ e => by cases e) fun _ _ e => by cases e
  | advance u => exact h.advance ha hs
  | destroy u =>
    simp only [State.step, Option.ite_none_right_eq_some, Option.some.injEq] at hs
    obtain ⟨-, rfl⟩ := hs
    exact h.goto (fun _ e => by cases e) fun _ _ e => by cases e

/-- So no swap lowers the mark. -/
theorem Tested.fresh (h : s.Tested) : s.Fresh a := by
  intro x cand hr _
  exact (h.loaded _ x cand hr).le

/-! ### The mark -/

/-- **The mark in every reachable state.** -/
structure Marked (s : State) : Prop where
  reached : ∀ x ∈ s.increments, x ≤ s.maxOverdraw ∨ ∃ u, (s.rental u).raising = some x
  attained : s.maxOverdraw = 0 ∨ s.maxOverdraw ∈ s.increments
  seen : ∀ u x, (s.rental u).raising = some x → x ∈ s.increments

theorem init_marked : init.Marked := ⟨nofun, .inl rfl, nofun⟩

/-- A rental moves: what it was raising the mark to has been reached, or it goes on. -/
theorem Marked.goto (h : s.Marked) {r : Rental}
    (hu : ∀ x, (s.rental u).raising = some x → x ≤ s.maxOverdraw ∨ r.raising = some x)
    (hr : ∀ x, r.raising = some x → x ∈ s.increments) : (s.goto u r).Marked where
  reached x hx := by
    rcases h.reached x hx with hm | ⟨v, hv⟩
    · exact .inl hm
    · by_cases e : v = u
      · subst e
        apply (hu x hv).imp_right
        intro hx
        exact ⟨v, by rw [goto_rental, if_pos rfl, hx]⟩
      · exact .inr ⟨v, by rw [goto_rental, if_neg e, hv]⟩
  attained := h.attained
  seen v x hv := by
    rw [goto_rental] at hv
    split at hv
    · exact hr x hv
    · exact h.seen v x hv

/-- **Every step keeps it**, if the swap does not lower the mark. -/
theorem Marked.step (h : s.Marked) (ha : s.Fresh a) (hs : s.step a = some s') : s'.Marked := by
  have hm := step_spec hs
  unfold Fresh at ha
  generalize a.rental = u at hm ha
  cases hm with
  | begins hr => exact h.goto (by rw [hr]; nofun) nofun
  | increments hr =>
    refine ⟨fun x hx => ?_, h.attained.imp_right (List.mem_append_left _), fun v x hv => ?_⟩
    · rcases List.mem_append.mp hx with hx | hx
      · apply (h.reached x hx).imp_right
        rintro ⟨v, hv⟩
        have e : v ≠ u := by
          rintro rfl
          rw [hr] at hv
          cases hv
        exact ⟨v, by rw [increment, goto_rental, if_neg e, hv]⟩
      · rw [List.mem_singleton] at hx
        subst hx
        exact .inr ⟨u, by rw [increment, goto_rental, if_pos rfl]; rfl⟩
    · rw [increment, goto_rental] at hv
      split at hv
      · cases hv
        exact List.mem_append_right _ (List.mem_singleton_self _)
      · exact List.mem_append_left _ (h.seen v x hv)
  | @turns x r hx _ hr =>
    have he : r.raising = (s.rental u).raising := hr.trans hx.symm
    exact h.goto (fun y hy => .inr (he.trans hy)) fun y hy => h.seen u y (he.symm.trans hy)
  | @leaves x hr hle =>
    refine h.goto (fun y hy => .inl ?_) nofun
    rw [hr] at hy
    cases hy
    exact hle
  | @raises x cand hr he =>
    have hle := ha x cand hr he
    have hx : (s.rental u).raising = some x := by rw [hr]; rfl
    have ht : { s with maxOverdraw := x }.Marked := by
      refine ⟨fun y hy => (h.reached y hy).imp_left fun hy' => ?_, .inr (h.seen u x hx), h.seen⟩
      show y ≤ x
      omega
    refine ht.goto (fun y hy => ?_) nofun
    have : some x = some y := hx.symm.trans hy
    cases this
    exact .inl (Nat.le_refl _)
  | counts hr =>
    have ht : { s with numberOverdraws := wrap (s.numberOverdraws + 1) }.Marked :=
      ⟨h.reached, h.attained, h.seen⟩
    exact ht.goto (fun x hx => by rw [hr] at hx; cases hx) nofun
  | @adds x hr =>
    have ht : { s with
        sumOverdraws := wrap (s.sumOverdraws + x)
        constructed := s.constructed ++ [x] }.Marked := ⟨h.reached, h.attained, h.seen⟩
    exact ht.goto (fun y hy => by rw [hr] at hy; cases hy) nofun
  | ends hr =>
    have ht : { s with
        overdrawnCount := wrap (2 ^ 64 - 1 + s.overdrawnCount)
        destroyed := s.destroyed + 1 }.Marked := ⟨h.reached, h.attained, h.seen⟩
    exact ht.goto (fun y hy => by rw [hr] at hy; cases hy) nofun

theorem constructing_of_counting {r : Rental} (h : r.constructing = false) :
    r.counting = false ∧ r.summing = false ∧ r.raising = none := by
  cases r <;> first | exact ⟨rfl, rfl, rfl⟩ | cases h

/-- Between the constructors, the invariants say that the counters are exact. -/
theorem Counted.exact (h : s.Counted i j k) (hm : s.Marked) (hq : s.Quiet) : s.Exact := by
  have hi : i = 0 := h.counting.eq_zero fun u => (constructing_of_counting (hq u)).1
  have hj : j = 0 := h.summing.eq_zero fun u => (constructing_of_counting (hq u)).2.1
  have hcount := h.count
  have hinc := h.incremented
  have hnumber := h.number
  refine ⟨eq_highest (fun x hx => ?_) hm.attained, by omega, h.sum, by omega⟩
  rcases hm.reached x hx with hx | ⟨u, hu⟩
  · exact hx
  · rw [(constructing_of_counting (hq u)).2.2] at hu
    cases hu

/-- A swap that is fresh does not lower the mark, and no other step does. -/
theorem Fresh.maxOverdraw_le (hf : s.Fresh a) (hs : s.step a = some s') :
    s.maxOverdraw ≤ s'.maxOverdraw := by
  have hm := step_spec hs
  unfold Fresh at hf
  generalize a.rental = u at hm hf
  cases hm with
  | @raises x cand hr he =>
    have hle := hf x cand hr he
    show s.maxOverdraw ≤ x
    omega
  | _ => exact Nat.le_refl _

/-- **The high-water mark never goes down and is exact between the constructors**, in a run in
which no constructor raises the mark between the test and the load of another. Where one has
raised it past the `over_by` of another there, the mark goes down in the next two steps of that
one. -/
theorem high_water (s s' : State) (a : Action) :
    (Reach step (fun s a => s.Below a ∧ s.Undisturbed a) init s → (s.Quiet → s.Exact) ∧
      (s.Undisturbed a → s.step a = some s' → s.maxOverdraw ≤ s'.maxOverdraw)) ∧
    (∀ v overBy, s.rental v = .load overBy → overBy < s.maxOverdraw →
      ∃ t, run step s [.advance v, .advance v] = some t ∧ t.maxOverdraw < s.maxOverdraw) := by
  refine ⟨fun h => ?_, fun v x hv hlt => ?_⟩
  · have key : (∃ i j k, s.Counted i j k) ∧ s.Marked ∧ s.Tested := by
      apply h.invariant (I := fun s => (∃ i j k, s.Counted i j k) ∧ s.Marked ∧ s.Tested)
      · exact ⟨⟨0, 0, 0, init_counted⟩, init_marked, init_tested⟩
      · rintro t b t' - ⟨⟨i, j, k, hc⟩, hm, ht⟩ hb hs
        exact ⟨hc.step hb.1 hs, hm.step ht.fresh hs, ht.step hb.2 hs⟩
    obtain ⟨⟨i, j, k, hc⟩, hm, ht⟩ := key
    exact ⟨hc.exact hm, fun _ hs => ht.fresh.maxOverdraw_le hs⟩
  · refine ⟨{ s with maxOverdraw := x }.goto v (.count x), ?_, hlt⟩
    simp [run, step, advance, hv, exchange, goto]

theorem rental_of_ne (h : s.step a = some s') (hu : u ≠ a.rental) : s'.rental u = s.rental u := by
  have hm := step_spec h
  generalize a.rental = v at hm hu
  cases hm <;> exact (goto_rental _ _ _ _).trans (if_neg hu)

/-- A rental that takes no part in a checked run stays where it is. -/
theorem rental_of_run {as : List Action}
    (h : run (fun s a => if s.Below a then s.step a else none) s as = some s')
    (hu : ∀ a ∈ as, a.rental ≠ u) : s'.rental u = s.rental u := by
  apply run_invariant (I := fun t => t.rental u = s.rental u) rfl ?_ h
  intro t a ha t' ih hs
  exact (rental_of_ne (Option.ite_none_right_eq_some.mp hs).2 (hu a ha).symm).trans ih

/-- `Undisturbed`, computed from the first two rentals. -/
def calm (s : State) (a : Action) : Bool :=
  a.rental < 2 && match s.rental a.rental with
    | .exchange _ cand => cand != s.maxOverdraw || !((s.rental 0).loads || (s.rental 1).loads)
    | _ => true

theorem reach_of_calm (h : Reach step (fun s a => s.Below a ∧ s.calm a = true) init s) :
    Reach step (fun s a => s.Below a ∧ s.Undisturbed a) init s ∧
      ∀ v, 2 ≤ v → s.rental v = .unbuilt := by
  induction h with
  | refl => exact ⟨.refl, fun _ _ => rfl⟩
  | @tail s s' a _ ha hs ih =>
    obtain ⟨hr, hother⟩ := ih
    obtain ⟨h₂, hcalm⟩ := Bool.and_eq_true_iff.mp ha.2
    have h₂' : a.rental < 2 := of_decide_eq_true h₂
    refine ⟨hr.tail ⟨ha.1, fun x he v y hv => ?_⟩ hs, fun v hv => ?_⟩
    · rw [he] at hcalm
      simp only [bne_self_eq_false, Bool.false_or, Bool.not_eq_true', Bool.or_eq_false_iff] at hcalm
      by_cases h₀ : v = 0
      · rw [← h₀, hv] at hcalm
        cases hcalm.1
      by_cases h₁ : v = 1
      · rw [← h₁, hv] at hcalm
        cases hcalm.2
      · rw [hother v (by omega)] at hv
        cases hv
    · rw [rental_of_ne hs (by omega)]
      exact hother v hv

/-- Both rentals are constructed at once. The second one raises the mark before the first tests it. -/
def raisedFirst : List Action :=
  [.construct 0, .construct 1, .advance 0, .advance 1, .advance 1, .advance 1, .advance 1, .advance 0,
    .advance 0, .advance 1, .advance 1, .advance 0, .destroy 1]

theorem high_water_raisedFirst : ∃ s, run step init raisedFirst = some s ∧ s.maxOverdraw = 2 ∧
    s.overdrawnCount = 1 ∧ s.Exact := by
  obtain ⟨s, hg, hs, hm, hc, h₀, h₁⟩ : ∃ s,
      run (fun s a => if s.Below a ∧ s.calm a = true then step s a else none) init raisedFirst =
        some s ∧
      run step init raisedFirst = some s ∧ s.maxOverdraw = 2 ∧ s.overdrawnCount = 1 ∧
      s.rental 0 = .built ∧ s.rental 1 = .destroyed := ⟨_, rfl, rfl, rfl, rfl, rfl, rfl⟩
  obtain ⟨hr, hother⟩ := reach_of_calm (.of_guarded raisedFirst hg)
  refine ⟨s, hs, hm, hc, ((high_water s s (.construct 2)).1 hr).1 fun u => ?_⟩
  by_cases e₀ : u = 0
  · rw [e₀, h₀]
    rfl
  by_cases e₁ : u = 1
  · rw [e₁, h₁]
    rfl
  · rw [hother u (by omega)]
    rfl

/-- The first rental tests the mark before the second raises it, and loads it after. -/
def staleTest : List Action :=
  [.construct 0, .construct 1, .advance 0, .advance 1, .advance 0, .advance 1, .advance 1,
    .advance 1, .advance 0, .advance 0, .advance 0, .advance 0, .advance 1, .advance 1]

/-- **The mark is below a count that was seen.** -/
theorem mark_lowered : ¬ ∀ s, Reach step Below init s → s.Quiet → s.Exact := by
  intro h
  obtain ⟨s, hs, hmax, hinc, h₀, h₁⟩ : ∃ s,
      run (fun s a => if s.Below a then s.step a else none) init staleTest = some s ∧
      s.maxOverdraw = 1 ∧ s.increments = [1, 2] ∧ s.rental 0 = .built ∧ s.rental 1 = .built :=
    ⟨_, rfl, rfl, rfl, rfl, rfl⟩
  have hq : s.Quiet := by
    intro u
    by_cases hu : u = 0 ∨ u = 1
    · rcases hu with rfl | rfl
      · rw [h₀]; rfl
      · rw [h₁]; rfl
    · rw [rental_of_run hs fun a ha e => hu ?_]
      · rfl
      · have : ∀ a ∈ staleTest, a.rental = 0 ∨ a.rental = 1 := by decide
        exact e ▸ this a ha
  have he := (h s (.of_guarded staleTest hs) hq).max
  rw [hmax, hinc] at he
  exact absurd he (by decide)

end State

end MutilsTasks.ResourcePool.Overdrawn
