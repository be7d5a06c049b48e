import MutilsTasks.ConcurrentQueue.FreeListPlaces

/-!
# The free list when nobody calls it

While calls are in progress a node that was added may be pending, and `try_get` may come back
empty-handed although there is one. When no call is in progress nothing is left of that: all
nodes that were added and not got are on the list. A thread that calls then, and is not
disturbed, finds a stack.
-/

namespace MutilsTasks.ConcurrentQueue.FreeList

open Machine

namespace State

variable {s : State} {u n : ℕ} {L : List ℕ} {pl : ℕ → Place}

/-- A node is with a user or on the list, and its word says so. -/
theorem Places.at_rest (h : s.Places L pl) (hi : ∀ u, s.pc u = .idle) (n : ℕ) :
    s.user n = true ∧ n ∉ L ∧ s.freeListRefs n = 0 ∨
      s.user n = false ∧ n ∈ L ∧ s.freeListRefs n = 1 := by
  obtain ⟨r, hr, hw⟩ := h.refs n
  obtain rfl : r = 0 := hr.eq_zero fun u => by rw [hi u]; rfl
  have heq := hw.eq
  have ha := hw.allows
  have huser := h.user n
  rw [h.list]
  cases hp : pl n with
  | user =>
    rw [hp] at heq huser
    exact .inl ⟨huser.mpr rfl, by simp, heq⟩
  | list =>
    rw [hp] at heq huser
    exact .inr ⟨by simpa using huser, rfl, heq⟩
  | thread u st =>
    have := (h.thread n u st).mpr hp
    rw [hi u] at this
    cases this
  | pending =>
    rw [hp] at ha
    exact absurd ha (Nat.lt_irrefl 0)

theorem run_addAlone (hu : s.pc u = .idle) (hn : s.user n = true) (hr : s.freeListRefs n = 0) :
    run step s (addAlone u n) = some { s with
      freeListHead := some n
      freeListNext := Function.update s.freeListNext n s.freeListHead
      freeListRefs := Function.update s.freeListRefs n 1
      user := Function.update s.user n false } := by
  have hpc : Function.update s.pc u .idle = s.pc := by rw [← hu, Function.update_eq_self]
  simp [addAlone, List.replicate, run, step, hu, hn, work, goto, setRefs, setUser, hr, after, hpc]

theorem run_getAlone (hu : s.pc u = .idle) (hh : s.freeListHead = some n)
    (hr : s.freeListRefs n = 1) : run step s (getAlone u) = some { s with
      freeListHead := s.freeListNext n
      freeListRefs := Function.update s.freeListRefs n 0
      user := Function.update s.user n true } := by
  have hpc : Function.update s.pc u .idle = s.pc := by rw [← hu, Function.update_eq_self]
  simp [getAlone, List.replicate, run, step, hu, work, goto, setRefs, setUser, hh, hr, loop, masked,
    fetchAdd, fetchSub, hpc]

/-- **When no call is in progress no node is lost**: those that were added and not got are on the
list. A thread that calls and is not disturbed pushes its node, and gets the one that was pushed
last. -/
theorem none_lost (h : Reach step Few init s) (hi : ∀ u, s.pc u = .idle) :
    (∃ L, Linked s.freeListNext s.freeListHead L ∧ ∀ n, n ∈ L ↔ s.user n = false) ∧
    (∀ u n, s.user n = true → run step s (addAlone u n) = some { s with
      freeListHead := some n
      freeListNext := Function.update s.freeListNext n s.freeListHead
      freeListRefs := Function.update s.freeListRefs n 1
      user := Function.update s.user n false }) ∧
    ∀ u n, s.freeListHead = some n → run step s (getAlone u) = some { s with
      freeListHead := s.freeListNext n
      freeListRefs := Function.update s.freeListRefs n 0
      user := Function.update s.user n true } := by
  obtain ⟨L, pl, hP⟩ := places_of_reach h
  have hrest := hP.at_rest hi
  refine ⟨⟨L, hP.linked, ?_⟩, ?_, ?_⟩
  · intro n
    rcases hrest n with ⟨hu, hL, -⟩ | ⟨hu, hL, -⟩ <;> simp [hu, hL]
  · intro u n hn
    rcases hrest n with ⟨-, -, hr⟩ | ⟨hu, -, -⟩
    · exact run_addAlone (hi u) hn hr
    · rw [hn] at hu
      cases hu
  · intro u n hh
    have hL : n ∈ L := by
      have hl := hP.linked
      rw [hh] at hl
      obtain ⟨m, rfl, -⟩ := hl.exists_cons
      exact List.mem_cons_self
    rcases hrest n with ⟨-, hn, -⟩ | ⟨-, -, hr⟩
    · exact absurd hL hn
    · exact run_getAlone (hi u) hh hr

/-- A node has been added. -/
theorem none_lost_added : ∃ s, run step init (addAlone 0 3) = some s ∧
    ∃ L, Linked s.freeListNext s.freeListHead L ∧ ∀ n, n ∈ L ↔ s.user n = false := by
  have hs := run_addAlone (s := init) (u := 0) (n := 3) rfl rfl rfl
  have hr : Reach step Few init _ := .of_run _ (fun _ a ha => by
    have : ∀ a ∈ addAlone 0 3, a.thread < threads := by decide
    exact this a ha) hs
  exact ⟨_, hs, (none_lost hr fun _ => rfl).1⟩

end State

end MutilsTasks.ConcurrentQueue.FreeList
