import MutilsTasks.Library.Census
import MutilsTasks.Library.Linked
import MutilsTasks.Library.Places
import MutilsTasks.ConcurrentQueue.FreeList

/-!
# Where the nodes of the free list are

A node is with a user, with a thread that adds or gets it, on the list, or pending: it should be
on the list, but somebody still looks at it. Its word tells which, together with the number of
threads that look at it (`Places`). While anybody looks at a node nobody writes its
`freeListNext`, so that the head is always moved to the right node, although the node may have
been taken and put back in between.

So every node is in one place, and one that is got is with nobody else.
-/

namespace MutilsTasks.ConcurrentQueue.FreeList

open Machine

/-- How far a thread has come with a node that it has. -/
inductive Stage where
  /-- It has been handed in. -/
  | added
  /-- Nobody looks at it, and it should be on the list. -/
  | alone
  /-- It counts as one that is on the list. -/
  | counted
  deriving DecidableEq

/-- Where a node is. -/
inductive Place where
  /-- A user has it. -/
  | user
  /-- Thread `u` has it. -/
  | thread (u : ℕ) (st : Stage)
  /-- It is on the list. -/
  | list
  /-- It should be on the list, and the last one that looks at it will see to that. -/
  | pending
  deriving DecidableEq

namespace Place

/-- What the word of a node in this place is, but for those that look at it. -/
def base : Place → ℕ
  | .user | .thread _ .added => 0
  | .thread _ .alone | .pending => shouldBeOnFreelist
  | .thread _ .counted | .list => 1

/-- How many may look at a node in this place. -/
def Allows : Place → ℕ → Prop
  | .thread _ .alone, r => r = 0
  | .pending, r => 0 < r
  | _, _ => True

/-- The word of a node in this place at which `r` threads look. -/
structure Word (p : Place) (refs r : ℕ) : Prop where
  eq : refs = p.base + r
  allows : p.Allows r

namespace Word

variable {p : Place} {refs r : ℕ}

/-- One more looks at the node, when somebody already does or the list counts. -/
theorem look (h : p.Word refs r) (hm : masked refs ≠ 0) (hr : r ≤ 2 ^ 31 - 2) :
    p.Word (fetchAdd refs 1) (r + 1) := by
  obtain ⟨rfl, ha⟩ := h
  have hb : p.base ≤ 2 ^ 31 := by unfold base; split <;> simp [shouldBeOnFreelist]
  refine ⟨?_, ?_⟩
  · rw [fetchAdd_of_lt (by omega)]
    omega
  · cases p with
    | thread u st =>
      cases st with
      | alone =>
        obtain rfl : r = 0 := ha
        simp [base, masked, shouldBeOnFreelist] at hm
      | _ => trivial
    | pending => exact Nat.succ_pos r
    | _ => trivial

/-- One less looks at the node, and others still do, or somebody has it. -/
theorem leave (h : p.Word refs (r + 1)) (hr : r + 1 ≤ 2 ^ 31 - 2)
    (hn : refs ≠ shouldBeOnFreelist + 1) : p.Word (fetchSub refs 1) r := by
  obtain ⟨rfl, ha⟩ := h
  have hb : p.base ≤ 2 ^ 31 := by unfold base; split <;> simp [shouldBeOnFreelist]
  refine ⟨?_, ?_⟩
  · rw [fetchSub_of_le (by omega) (by omega)]
    omega
  · cases p with
    | thread u st =>
      cases st with
      | alone => cases ha
      | _ => trivial
    | pending =>
      simp only [base] at hn
      show 0 < r
      omega
    | _ => trivial

/-- The last one that looks at a node that should be on the list. -/
theorem last (h : p.Word refs (r + 1)) (hr : r + 1 ≤ 2 ^ 31 - 2)
    (he : refs = shouldBeOnFreelist + 1) : p = .pending ∧ r = 0 := by
  obtain ⟨heq, ha⟩ := h
  cases p with
  | thread u st =>
    cases st with
    | alone => cases ha
    | _ =>
      simp only [base, shouldBeOnFreelist] at heq he
      omega
  | pending =>
    simp only [base] at heq
    exact ⟨rfl, by omega⟩
  | _ =>
    simp only [base, shouldBeOnFreelist] at heq he
    omega

end Word

end Place

namespace Pc

/-- The node that the thread has. -/
def has : Pc → Option (ℕ × Stage)
  | .add n => some (n, .added)
  | .loadHead n _ | .storeNext n _ _ | .storeRefs n _ _ => some (n, .alone)
  | .push n _ _ | .pushFailed n _ _ | .got n => some (n, .counted)
  | _ => none

/-- The node that the thread looks at. -/
def looksAt : Pc → Option ℕ
  | .loadNext n | .pop n _ | .got n | .popFailed n _ => some n
  | _ => none

/-- Whether the thread looks at `n`. -/
def looks (n : ℕ) (c : Pc) : Bool := c.looksAt = some n

/-- One, if the thread looks at `n`. -/
def sees (n : ℕ) (c : Pc) : ℕ := if c.looks n then 1 else 0

/-- The node of which the thread knows the next one. -/
def link : Pc → Option (ℕ × Option ℕ)
  | .storeRefs n h _ | .push n h _ | .pop n h => some (n, h)
  | _ => none

/-- What the thread has read of a word is not zero. -/
def Ok : Pc → Prop
  | .casRefs _ refs => masked refs ≠ 0
  | _ => True

theorem sees_congr {c d : Pc} (h : c.looksAt = d.looksAt) (n : ℕ) : c.sees n = d.sees n := by
  rw [sees, sees, looks, looks, h]

theorem sees_of_looksAt {n : ℕ} {c : Pc} (h : c.looksAt = some n) : c.sees n = 1 := by
  simp [sees, looks, h]

theorem sees_of_none {n : ℕ} {c : Pc} (h : c.looksAt = none) : c.sees n = 0 := by
  simp [sees, looks, h]

theorem sees_of_ne {m n : ℕ} {c : Pc} (h : c.looksAt = some n) (hne : m ≠ n) : c.sees m = 0 := by
  simp [sees, looks, h, hne.symm]

end Pc

namespace State

variable {s t s' : State} {a : Action} {u v n : ℕ} {c : Pc}

/-- There are so few threads that those that look at a node can be counted in 31 bits. -/
def threads : ℕ := 2 ^ 31 - 2

/-- The step is made by one of the threads. -/
def Few (_ : State) (a : Action) : Prop := a.thread < threads

instance (s : State) (a : Action) : Decidable (s.Few a) := inferInstanceAs (Decidable (_ < _))

/-- **Every node is in its place.** -/
structure Places (s : State) (L : List ℕ) (pl : ℕ → Place) : Prop where
  linked : Linked s.freeListNext s.freeListHead L
  list : ∀ n, n ∈ L ↔ pl n = .list
  user : ∀ n, s.user n = true ↔ pl n = .user
  thread : ∀ n v st, (s.pc v).has = some (n, st) ↔ pl n = .thread v st
  refs : ∀ n, ∃ r, Census s.pc (Pc.looks n) r ∧ (pl n).Word (s.freeListRefs n) r
  link : ∀ v n x, (s.pc v).link = some (n, x) → s.freeListNext n = x
  ok : ∀ v, (s.pc v).Ok
  few : ∀ v, s.pc v ≠ .idle → v < threads

theorem init_places : init.Places [] fun _ => .user where
  linked := .nil
  list n := by simp
  user n := by simp [init]
  thread n v st := by simp [init, Pc.has]
  refs n := ⟨0, .zero fun v => by simp [init, Pc.looks, Pc.looksAt], rfl, trivial⟩
  link v n x h := by simp [init, Pc.link] at h
  ok v := trivial
  few v h := absurd rfl h

section

variable {L L' : List ℕ} {pl pl' : ℕ → Place}

theorem Places.le_threads (h : s.Places L pl) {r : ℕ} (hr : Census s.pc (Pc.looks n) r) :
    r ≤ threads := by
  obtain ⟨F, hF, rfl⟩ := hr
  have hsub : F ⊆ Finset.range threads := fun v hv => by
    refine Finset.mem_range.mpr (h.few v fun e => ?_)
    have := (hF v).mp hv
    simp [e, Pc.looks, Pc.looksAt] at this
  simpa using Finset.card_le_card hsub

/-- How many look at `n` when thread `u` has moved. -/
theorem looks_update {f : ℕ → Pc} {r : ℕ} (hr : Census f (Pc.looks n) r) (u : ℕ) (c : Pc) :
    ∃ r', Census (Function.update f u c) (Pc.looks n) r' ∧ r' + (f u).sees n = r + c.sees n := by
  cases ho : (f u).looks n <;> cases hc : c.looks n
  · exact ⟨r, hr.keep (by rw [hc, ho]), by simp [Pc.sees, ho, hc]⟩
  · exact ⟨r + 1, hr.enter ho hc, by simp [Pc.sees, ho, hc]⟩
  · obtain ⟨m, rfl, hm⟩ := hr.leave ho hc
    exact ⟨m, hm, by simp [Pc.sees, ho, hc]⟩
  · exact ⟨r, hr.keep (by rw [hc, ho]), by simp [Pc.sees, ho, hc]⟩

/-- The rule for a move of thread `u`. -/
theorem Places.goto (h : s.Places L pl) (hu : u < threads) (hpc : t.pc = Function.update s.pc u c)
    (hL : Linked t.freeListNext t.freeListHead L') (hlist : ∀ n, n ∈ L' ↔ pl' n = .list)
    (huser : ∀ n, t.user n = true ↔ pl' n = .user)
    (hthread : ∀ n v st, (t.pc v).has = some (n, st) ↔ pl' n = .thread v st)
    (hw : ∀ n r r', r ≤ threads → (s.pc u).sees n ≤ r → r' + (s.pc u).sees n = r + c.sees n →
      (pl n).Word (s.freeListRefs n) r → (pl' n).Word (t.freeListRefs n) r')
    (hlink : ∀ n x, c.link = some (n, x) → t.freeListNext n = x)
    (hnext : ∀ v, v ≠ u → ∀ n x, (s.pc v).link = some (n, x) → t.freeListNext n = s.freeListNext n)
    (hok : c.Ok) : t.Places L' pl' where
  linked := hL
  list := hlist
  user := huser
  thread := hthread
  refs n := by
    obtain ⟨r, hr, hword⟩ := h.refs n
    obtain ⟨r', hr', e⟩ := looks_update hr u c
    refine ⟨r', hpc ▸ hr', hw n r r' (h.le_threads hr) ?_ e hword⟩
    rw [Pc.sees]
    split
    · exact hr.pos ‹_›
    · exact Nat.zero_le r
  link v n x := by
    rw [hpc]
    by_cases e : v = u
    · rw [e, Function.update_self]
      exact hlink n x
    · rw [Function.update_of_ne e]
      exact fun hv => (hnext v e n x hv).trans (h.link v n x hv)
  ok v := by
    rw [hpc]
    by_cases e : v = u
    · rw [e, Function.update_self]
      exact hok
    · rw [Function.update_of_ne e]
      exact h.ok v
  few v hv := by
    by_cases e : v = u
    · exact e ▸ hu
    · rw [hpc, Function.update_of_ne e] at hv
      exact h.few v hv

/-- The rule for a move that leaves the nodes where they are. -/
theorem Places.turn (h : s.Places L pl) (hu : u < threads) (hpc : t.pc = Function.update s.pc u c)
    (hh : t.freeListHead = s.freeListHead) (hn : t.freeListNext = s.freeListNext)
    (huser : t.user = s.user) (hhas : c.has = (s.pc u).has)
    (hw : ∀ n r r', r ≤ threads → (s.pc u).sees n ≤ r → r' + (s.pc u).sees n = r + c.sees n →
      (pl n).Word (s.freeListRefs n) r → (pl n).Word (t.freeListRefs n) r')
    (hlink : ∀ n x, c.link = some (n, x) → s.freeListNext n = x) (hok : c.Ok) : t.Places L pl := by
  refine h.goto hu hpc (by rw [hh, hn]; exact h.linked) h.list (by rw [huser]; exact h.user)
    (fun n v st => ?_) hw (fun n x hx => by rw [hn]; exact hlink n x hx)
    (fun _ _ _ _ _ => by rw [hn]) hok
  rw [← h.thread n v st, hpc]
  by_cases e : v = u
  · rw [e, Function.update_self, hhas]
  · rw [Function.update_of_ne e]

/-- The rule for a move that does not touch the words either. -/
theorem Places.quiet (h : s.Places L pl) (hu : u < threads) (hhas : c.has = (s.pc u).has)
    (hlooks : c.looksAt = (s.pc u).looksAt)
    (hlink : ∀ n x, c.link = some (n, x) → s.freeListNext n = x) (hok : c.Ok) :
    (s.goto u c).Places L pl := by
  refine h.turn hu rfl rfl rfl rfl hhas (fun n r r' _ _ e hword => ?_) hlink hok
  have hs := Pc.sees_congr hlooks n
  obtain rfl : r' = r := by omega
  exact hword

/-- The rule for a move of thread `u` that takes node `n` from one place to another. -/
theorem Places.place (h : s.Places L pl) (hu : u < threads) {q : Place}
    (hpc : t.pc = Function.update s.pc u c)
    (hL : Linked t.freeListNext t.freeListHead L')
    (hlist : ∀ m, m ∈ L' ↔ Function.update pl n q m = .list)
    (huser : ∀ m, t.user m = true ↔ Function.update pl n q m = .user)
    (hold : ∀ m st, (s.pc u).has = some (m, st) → m = n)
    (hnew : ∀ m st, c.has = some (m, st) ↔ m = n ∧ q = .thread u st)
    (hothers : ∀ v st, v ≠ u → pl n ≠ .thread v st ∧ q ≠ .thread v st)
    (hsame : ∀ m, m ≠ n → t.freeListRefs m = s.freeListRefs m ∧ c.sees m = (s.pc u).sees m)
    (hw : ∀ r r', r ≤ threads → (s.pc u).sees n ≤ r → r' + (s.pc u).sees n = r + c.sees n →
      (pl n).Word (s.freeListRefs n) r → q.Word (t.freeListRefs n) r')
    (hlink : ∀ m x, c.link = some (m, x) → t.freeListNext m = x)
    (hnext : ∀ v, v ≠ u → ∀ m x, (s.pc v).link = some (m, x) → t.freeListNext m = s.freeListNext m)
    (hok : c.Ok) : t.Places L' (Function.update pl n q) := by
  refine h.goto hu hpc hL hlist huser ?_ ?_ hlink hnext hok
  · intro m v st
    rw [hpc]
    by_cases ev : v = u
    · subst ev
      rw [Function.update_self, hnew]
      by_cases em : m = n
      · rw [em, Function.update_self]
        exact and_iff_right rfl
      · rw [Function.update_of_ne em, ← h.thread]
        exact iff_of_false (fun hm => em hm.1) fun hm => em (hold m st hm)
    · rw [Function.update_of_ne ev, h.thread]
      by_cases em : m = n
      · rw [em, Function.update_self]
        exact iff_of_false (hothers v st ev).1 (hothers v st ev).2
      · rw [Function.update_of_ne em]
  · intro m r r' hr hs e hword
    by_cases em : m = n
    · subst em
      rw [Function.update_self]
      exact hw r r' hr hs e hword
    · obtain ⟨h₁, h₂⟩ := hsame m em
      obtain rfl : r' = r := by omega
      rw [Function.update_of_ne em, h₁]
      exact hword

/-- The rule for a move of thread `u` with the node that it has, which stays with it or becomes
pending. -/
theorem Places.own (h : s.Places L pl) (hu : u < threads) {st : Stage} {q : Place}
    (ho : (s.pc u).has = some (n, st)) (hpc : t.pc = Function.update s.pc u c)
    (hL : Linked t.freeListNext t.freeListHead L) (huser : t.user = s.user)
    (hq : (c.has = none ∧ q = .pending) ∨ ∃ st', c.has = some (n, st') ∧ q = .thread u st')
    (hrefs : ∀ m, m ≠ n → t.freeListRefs m = s.freeListRefs m)
    (hlooks : c.looksAt = (s.pc u).looksAt)
    (hw : ∀ r, r ≤ threads → (pl n).Word (s.freeListRefs n) r → q.Word (t.freeListRefs n) r)
    (hlink : ∀ m x, c.link = some (m, x) → t.freeListNext m = x)
    (hnext : ∀ v, v ≠ u → ∀ m x, (s.pc v).link = some (m, x) → t.freeListNext m = s.freeListNext m)
    (hok : c.Ok) : t.Places L (Function.update pl n q) := by
  have hpl : pl n = .thread u st := (h.thread n u st).mp ho
  have hlist : q ≠ .list := by rcases hq with ⟨-, rfl⟩ | ⟨st', -, rfl⟩ <;> simp
  have huser' : q ≠ .user := by rcases hq with ⟨-, rfl⟩ | ⟨st', -, rfl⟩ <;> simp
  have hothers : ∀ v st', v ≠ u → pl n ≠ .thread v st' ∧ q ≠ .thread v st' := by
    intro v st' hv
    refine ⟨by simp [hpl, hv.symm], ?_⟩
    rcases hq with ⟨-, rfl⟩ | ⟨st₁, -, rfl⟩ <;> simp [hv.symm]
  refine h.place hu hpc hL (iff_of_elsewhere h.list (by simp [hpl]) hlist)
    (huser ▸ iff_of_elsewhere h.user (by simp [hpl]) huser') ?_ ?_ hothers (fun m hm => ⟨hrefs m hm,
    Pc.sees_congr hlooks m⟩) ?_ hlink hnext hok
  · intro m st' hm
    rw [ho] at hm
    exact (Prod.mk.inj (Option.some.inj hm)).1.symm
  · intro m st'
    rcases hq with ⟨hc, rfl⟩ | ⟨st₁, hc, rfl⟩ <;> simp [hc, eq_comm]
  · intro r r' hr _ e hword
    have := Pc.sees_congr hlooks n
    obtain rfl : r' = r := by omega
    exact hw _ hr hword

theorem loop_plain (h : Option ℕ) : (loop h).has = none ∧ (loop h).looksAt = none ∧
    (loop h).link = none ∧ (loop h).Ok := by
  cases h <;> exact ⟨rfl, rfl, rfl, trivial⟩

theorem after_plain (k : Caller) : (after k).has = none ∧ (after k).looksAt = none ∧
    (after k).link = none ∧ (after k).Ok := by
  cases k with
  | add => exact ⟨rfl, rfl, rfl, trivial⟩
  | tryGet h => exact loop_plain h

/-! ### The steps that change something -/

/-- Nobody looks at a node that is to be pushed. -/
theorem Places.unseen (h : s.Places L pl) (hn : pl n = .thread u .alone) (v : ℕ) :
    (s.pc v).looksAt ≠ some n := by
  intro hv
  obtain ⟨r, hr, hw⟩ := h.refs n
  rw [hn] at hw
  have hpos : 0 < r := hr.pos (u := v) (by simp [Pc.looks, hv])
  have hzero : r = 0 := hw.allows
  omega

/-- Who knows the next node of a node has it or looks at it. -/
theorem Pc.has_or_looksAt {x : Option ℕ} (hl : c.link = some (n, x)) :
    (∃ st, c.has = some (n, st)) ∨ c.looksAt = some n := by
  cases c <;> simp only [Pc.link, reduceCtorEq, Option.some.injEq, Prod.mk.injEq] at hl
  · exact .inl ⟨.alone, by rw [Pc.has, hl.1]⟩
  · exact .inl ⟨.counted, by rw [Pc.has, hl.1]⟩
  · exact .inr (by rw [Pc.looksAt, hl.1])

theorem Places.add (h : s.Places L pl) (hu : u < threads) (hc : s.pc u = .add n) :
    ∃ pl', ((s.setRefs n (fetchAdd (s.freeListRefs n) shouldBeOnFreelist)).goto u
      (if s.freeListRefs n = 0 then .loadHead n .add else .idle)).Places L pl' := by
  have ho : (s.pc u).has = some (n, .added) := by rw [hc]; rfl
  have hpl : pl n = .thread u .added := (h.thread n u _).mp ho
  have hrefs : ∀ m, m ≠ n → (s.setRefs n (fetchAdd (s.freeListRefs n) shouldBeOnFreelist)).freeListRefs m
      = s.freeListRefs m := fun m hm => Function.update_of_ne hm _ _
  by_cases hz : s.freeListRefs n = 0
  · -- nobody looks at the node
    rw [if_pos hz]
    refine ⟨_, h.own (q := .thread u .alone) hu ho rfl h.linked rfl (.inr ⟨.alone, rfl, rfl⟩) hrefs
      (by rw [hc]; rfl) (fun r _ hw => ?_) (by simp [Pc.link]) (fun _ _ _ _ _ => rfl) trivial⟩
    rw [hpl] at hw
    have heq := hw.eq
    simp only [Place.base] at heq
    obtain rfl : r = 0 := by omega
    exact ⟨by simp [hz, fetchAdd, Place.base, shouldBeOnFreelist], rfl⟩
  · rw [if_neg hz]
    refine ⟨_, h.own (q := .pending) hu ho rfl h.linked rfl (.inl ⟨rfl, rfl⟩) hrefs (by rw [hc]; rfl)
      (fun r hr hw => ?_) (by simp [Pc.link]) (fun _ _ _ _ _ => rfl) trivial⟩
    rw [hpl] at hw
    have heq := hw.eq
    simp only [Place.base, threads] at heq hr
    refine ⟨?_, show 0 < r by omega⟩
    simp only [goto_freeListRefs, setRefs_freeListRefs, Function.update_self, Place.base]
    rw [fetchAdd_of_lt (by simp only [shouldBeOnFreelist]; omega)]
    omega

theorem Places.storeNext (h : s.Places L pl) (hu : u < threads) {x : Option ℕ} {k : Caller}
    (hc : s.pc u = .storeNext n x k) :
    ∃ pl', ({ s with freeListNext := Function.update s.freeListNext n x }.goto u
      (.storeRefs n x k)).Places L pl' := by
  have ho : (s.pc u).has = some (n, .alone) := by rw [hc]; rfl
  have hpl : pl n = .thread u .alone := (h.thread n u _).mp ho
  have hL : n ∉ L := by rw [h.list, hpl]; simp
  refine ⟨_, h.own (q := .thread u .alone) hu ho rfl (h.linked.update hL x) rfl (.inr ⟨.alone, rfl,
    rfl⟩) (fun _ _ => rfl) (by rw [hc]; rfl) (fun r _ hw => hpl ▸ hw) ?_ ?_ trivial⟩
  · intro m y hm
    simp only [Pc.link, Option.some.injEq, Prod.mk.injEq] at hm
    obtain ⟨rfl, rfl⟩ := hm
    exact Function.update_self ..
  · intro v hv m y hm
    -- nobody else knows the next one of this node
    refine Function.update_of_ne ?_ _ _
    rintro rfl
    rcases Pc.has_or_looksAt hm with ⟨st, hst⟩ | hl
    · have := (h.thread m v st).mp hst
      rw [hpl] at this
      exact hv (Place.thread.inj this).1.symm
    · exact h.unseen hpl v hl

theorem Places.storeRefs (h : s.Places L pl) (hu : u < threads) {x : Option ℕ} {k : Caller}
    (hc : s.pc u = .storeRefs n x k) :
    ∃ pl', ((s.setRefs n 1).goto u (.push n x k)).Places L pl' := by
  have ho : (s.pc u).has = some (n, .alone) := by rw [hc]; rfl
  have hpl : pl n = .thread u .alone := (h.thread n u _).mp ho
  refine ⟨_, h.own (q := .thread u .counted) hu ho rfl h.linked rfl (.inr ⟨.counted, rfl, rfl⟩)
    (fun m hm => Function.update_of_ne hm _ _) (by rw [hc]; rfl) (fun r _ hw => ?_)
    (fun m y hm => h.link u m y (by rw [hc]; exact hm)) (fun _ _ _ _ _ => rfl) trivial⟩
  rw [hpl] at hw
  obtain rfl : r = 0 := hw.allows
  exact ⟨Function.update_self .., trivial⟩

theorem Places.push (h : s.Places L pl) (hu : u < threads) {k : Caller}
    (hc : s.pc u = .push n s.freeListHead k) :
    ∃ pl', ({ s with freeListHead := some n }.goto u (after k)).Places (n :: L) pl' := by
  have ho : (s.pc u).has = some (n, .counted) := by rw [hc]; rfl
  have hpl : pl n = .thread u .counted := (h.thread n u _).mp ho
  have hnext : s.freeListNext n = s.freeListHead := h.link u n _ (by rw [hc]; rfl)
  obtain ⟨h₁, h₂, h₃, h₄⟩ := after_plain k
  have hlooks : (after k).looksAt = (s.pc u).looksAt := by rw [h₂, hc]; rfl
  have hlist : ∀ m, m ∈ n :: L ↔ Function.update pl n .list m = .list :=
    iff_of_here h.list List.mem_cons_self fun m e => by
      rw [List.mem_cons]
      exact or_iff_right e
  refine ⟨_, h.place (q := .list) hu rfl ?_ hlist (iff_of_elsewhere h.user (by simp [hpl])
    (by simp)) ?_ (fun m st => by simp [h₁]) (fun v st hv => by simp [hpl, hv.symm]) (fun m _ =>
    ⟨rfl, Pc.sees_congr hlooks m⟩) ?_ (by simp [h₃]) (fun _ _ _ _ _ => rfl) h₄⟩
  · refine .cons ?_
    show Linked s.freeListNext (s.freeListNext n) L
    rw [hnext]
    exact h.linked
  · intro m st hm
    rw [ho] at hm
    exact (Prod.mk.inj (Option.some.inj hm)).1.symm
  · intro r r' _ _ e hw
    have := Pc.sees_congr hlooks n
    obtain rfl : r' = r := by omega
    rw [hpl] at hw
    exact ⟨hw.eq, trivial⟩

theorem Places.pushFailed (h : s.Places L pl) (hu : u < threads) {x : Option ℕ} {k : Caller}
    (hc : s.pc u = .pushFailed n x k) :
    ∃ pl', ((s.setRefs n (fetchAdd (s.freeListRefs n) (shouldBeOnFreelist - 1))).goto u
      (if s.freeListRefs n = 1 then .storeNext n x k else after k)).Places L pl' := by
  have ho : (s.pc u).has = some (n, .counted) := by rw [hc]; rfl
  have hpl : pl n = .thread u .counted := (h.thread n u _).mp ho
  have hrefs : ∀ m, m ≠ n → (s.setRefs n (fetchAdd (s.freeListRefs n)
      (shouldBeOnFreelist - 1))).freeListRefs m = s.freeListRefs m :=
    fun m hm => Function.update_of_ne hm _ _
  obtain ⟨h₁, h₂, h₃, h₄⟩ := after_plain k
  by_cases hz : s.freeListRefs n = 1
  · -- nobody looks at the node any more
    rw [if_pos hz]
    refine ⟨_, h.own (q := .thread u .alone) hu ho rfl h.linked rfl (.inr ⟨.alone, rfl, rfl⟩) hrefs
      (by rw [hc]; rfl) (fun r _ hw => ?_) (by simp [Pc.link]) (fun _ _ _ _ _ => rfl) trivial⟩
    rw [hpl] at hw
    have heq := hw.eq
    simp only [Place.base] at heq
    obtain rfl : r = 0 := by omega
    exact ⟨by simp [hz, fetchAdd, Place.base, shouldBeOnFreelist], rfl⟩
  · rw [if_neg hz]
    refine ⟨_, h.own (q := .pending) hu ho rfl h.linked rfl (.inl ⟨h₁, rfl⟩) hrefs
      (by rw [h₂, hc]; rfl) (fun r hr hw => ?_) (by simp [h₃]) (fun _ _ _ _ _ => rfl) h₄⟩
    rw [hpl] at hw
    have heq := hw.eq
    simp only [Place.base, threads] at heq hr
    refine ⟨?_, show 0 < r by omega⟩
    simp only [goto_freeListRefs, setRefs_freeListRefs, Function.update_self, Place.base]
    rw [fetchAdd_of_lt (by simp only [shouldBeOnFreelist]; omega)]
    simp only [shouldBeOnFreelist]
    omega

theorem Places.casRefs (h : s.Places L pl) (hu : u < threads)
    (hc : s.pc u = .casRefs n (s.freeListRefs n)) :
    ((s.setRefs n (fetchAdd (s.freeListRefs n) 1)).goto u (.loadNext n)).Places L pl := by
  have hm : masked (s.freeListRefs n) ≠ 0 := by simpa [hc, Pc.Ok] using h.ok u
  refine h.turn hu rfl rfl rfl rfl (by rw [hc]; rfl) (fun m r r' hr _ e hw => ?_) (by simp [Pc.link])
    trivial
  rw [hc, Pc.sees_of_none rfl, Nat.add_zero] at e
  by_cases em : m = n
  · subst em
    rw [Pc.sees_of_looksAt rfl] at e
    simpa [e] using hw.look hm hr
  · rw [Pc.sees_of_ne rfl em] at e
    simpa [em, e] using hw

theorem Places.pop (h : s.Places L pl) (hu : u < threads) {x : Option ℕ} (hc : s.pc u = .pop n x)
    (hh : s.freeListHead = some n) :
    ∃ L' pl', ({ s with freeListHead := x }.goto u (.got n)).Places L' pl' := by
  have hx : s.freeListNext n = x := h.link u n x (by rw [hc]; rfl)
  have hnodup := h.linked.nodup
  have hlinked := h.linked
  rw [hh] at hlinked
  obtain ⟨L', rfl, hL'⟩ := hlinked.exists_cons
  rw [hx] at hL'
  have hpl : pl n = .list := (h.list n).mp List.mem_cons_self
  have hlist : ∀ m, m ∈ L' ↔ Function.update pl n (.thread u .counted) m = .list :=
    iff_of_gone h.list (by simp) (List.nodup_cons.mp hnodup).1 fun m e => by
      rw [List.mem_cons]
      exact (or_iff_right e).symm
  refine ⟨L', _, h.place (q := .thread u .counted) hu rfl hL' hlist
    (iff_of_elsewhere h.user (by simp [hpl]) (by simp)) (by simp [hc, Pc.has])
    (fun m st => by simp [Pc.has, eq_comm]) (fun v st hv => by simp [hpl, hv.symm])
    (fun m _ => ⟨rfl, Pc.sees_congr (by rw [hc]; rfl) m⟩) (fun r r' _ _ e hw => ?_) (by simp [Pc.link])
    (fun _ _ _ _ _ => rfl) trivial⟩
  have := Pc.sees_congr (c := .got n) (d := s.pc u) (by rw [hc]; rfl) n
  obtain rfl : r' = r := by omega
  rw [hpl] at hw
  exact ⟨hw.eq, trivial⟩

theorem Places.got (h : s.Places L pl) (hu : u < threads) (hc : s.pc u = .got n) :
    ∃ pl', (((s.setRefs n (fetchSub (s.freeListRefs n) 2)).setUser n true).goto u .idle).Places L
      pl' := by
  have ho : (s.pc u).has = some (n, .counted) := by rw [hc]; rfl
  have hpl : pl n = .thread u .counted := (h.thread n u _).mp ho
  have huser : ∀ m, Function.update s.user n true m = true ↔ Function.update pl n .user m = .user :=
    iff_of_here h.user (Function.update_self ..) fun m e => by rw [Function.update_of_ne e]
  refine ⟨_, h.place (q := .user) hu rfl h.linked (iff_of_elsewhere h.list (by simp [hpl])
    (by simp)) huser ?_ (by simp [Pc.has]) (fun v st hv => by simp [hpl, hv.symm]) ?_ ?_
    (by simp [Pc.link]) (fun _ _ _ _ _ => rfl) trivial⟩
  · intro m st hm
    rw [ho] at hm
    exact (Prod.mk.inj (Option.some.inj hm)).1.symm
  · intro m hm
    rw [hc, Pc.sees_of_none rfl, Pc.sees_of_ne rfl hm]
    exact ⟨Function.update_of_ne hm _ _, rfl⟩
  · intro r r' hr hs e hw
    rw [hc, Pc.sees_of_looksAt rfl] at hs e
    rw [Pc.sees_of_none rfl, Nat.add_zero] at e
    rw [hpl] at hw
    have heq := hw.eq
    simp only [Place.base, threads] at heq hr
    refine ⟨?_, trivial⟩
    simp only [goto_freeListRefs, setUser_freeListRefs, setRefs_freeListRefs, Function.update_self,
      Place.base]
    rw [fetchSub_of_le (by omega) (by omega)]
    omega

theorem Places.popFailed (h : s.Places L pl) (hu : u < threads) {x : Option ℕ}
    (hc : s.pc u = .popFailed n x) :
    ∃ pl', ((s.setRefs n (fetchSub (s.freeListRefs n) 1)).goto u
      (if s.freeListRefs n = shouldBeOnFreelist + 1 then .loadHead n (.tryGet x)
        else loop x)).Places L pl' := by
  obtain ⟨h₁, h₂, h₃, h₄⟩ := loop_plain x
  by_cases he : s.freeListRefs n = shouldBeOnFreelist + 1
  · -- the node should be on the list, and nobody else looks at it
    rw [if_pos he]
    obtain ⟨r, hr, hw⟩ := h.refs n
    have hpos : 0 < r := hr.pos (u := u) (by simp [hc, Pc.looks, Pc.looksAt])
    obtain ⟨r, rfl⟩ := Nat.exists_eq_succ_of_ne_zero hpos.ne'
    have hpl : pl n = .pending := (hw.last (h.le_threads hr) he).1
    refine ⟨_, h.place (n := n) (q := .thread u .alone) hu rfl h.linked (iff_of_elsewhere h.list
      (by simp [hpl]) (by simp)) (iff_of_elsewhere h.user (by simp [hpl]) (by simp)) (by simp [hc,
      Pc.has]) (fun m st => by simp [Pc.has, eq_comm]) (fun v st hv => by simp [hpl, hv.symm]) ?_ ?_
      (by simp [Pc.link]) (fun _ _ _ _ _ => rfl) trivial⟩
    · intro m hm
      rw [hc, Pc.sees_of_none rfl, Pc.sees_of_ne rfl hm]
      exact ⟨Function.update_of_ne hm _ _, rfl⟩
    · intro r r' hr hs e hw
      rw [hc, Pc.sees_of_looksAt rfl] at hs e
      rw [Pc.sees_of_none rfl, Nat.add_zero] at e
      subst e
      obtain ⟨-, rfl⟩ := hw.last hr he
      refine ⟨?_, rfl⟩
      simp [he, fetchSub, Place.base, shouldBeOnFreelist]
  · rw [if_neg he]
    refine ⟨pl, h.turn hu rfl rfl rfl rfl (by rw [h₁, hc]; rfl) (fun m r r' hr hs e hw => ?_)
      (by simp [h₃]) h₄⟩
    rw [Pc.sees_of_none h₂, Nat.add_zero] at e
    by_cases em : m = n
    · subst em
      rw [hc, Pc.sees_of_looksAt rfl] at e
      subst e
      simpa using hw.leave hr he
    · rw [hc, Pc.sees_of_ne rfl em] at e
      subst e
      simpa [em] using hw

/-- **A thread goes on.** -/
theorem Places.work (h : s.Places L pl) (hu : u < threads) (hs : s.work u = some s') :
    ∃ L' pl', s'.Places L' pl' := by
  unfold State.work at hs
  cases hc : s.pc u with
  | idle => simp [hc] at hs
  | add n =>
    simp only [hc, Option.some.injEq] at hs
    subst hs
    exact ⟨L, h.add hu hc⟩
  | loadHead n k =>
    simp only [hc, Option.some.injEq] at hs
    subst hs
    exact ⟨L, pl, h.quiet hu (by rw [hc]; rfl) (by rw [hc]; rfl) (by simp [Pc.link]) trivial⟩
  | storeNext n x k =>
    simp only [hc, Option.some.injEq] at hs
    subst hs
    exact ⟨L, h.storeNext hu hc⟩
  | storeRefs n x k =>
    simp only [hc, Option.some.injEq] at hs
    subst hs
    exact ⟨L, h.storeRefs hu hc⟩
  | push n x k =>
    simp only [hc] at hs
    split at hs
    · rename_i e
      cases hs
      exact ⟨_, h.push hu (e ▸ hc)⟩
    · cases hs
      exact ⟨L, pl, h.quiet hu (by rw [hc]; rfl) (by rw [hc]; rfl) (by simp [Pc.link]) trivial⟩
  | pushFailed n x k =>
    simp only [hc, Option.some.injEq] at hs
    subst hs
    exact ⟨L, h.pushFailed hu hc⟩
  | getHead =>
    simp only [hc, Option.some.injEq] at hs
    subst hs
    obtain ⟨h₁, h₂, h₃, h₄⟩ := loop_plain s.freeListHead
    exact ⟨L, pl, h.quiet hu (by rw [hc, h₁]; rfl) (by rw [hc, h₂]; rfl) (by simp [h₃]) h₄⟩
  | loadRefs n =>
    simp only [hc, Option.some.injEq] at hs
    subst hs
    split
    · exact ⟨L, pl, h.quiet hu (by rw [hc]; rfl) (by rw [hc]; rfl) (by simp [Pc.link]) trivial⟩
    · exact ⟨L, pl, h.quiet hu (by rw [hc]; rfl) (by rw [hc]; rfl) (by simp [Pc.link]) ‹_›⟩
  | casRefs n refs =>
    simp only [hc] at hs
    split at hs
    · rename_i e
      subst e
      cases hs
      exact ⟨L, pl, h.casRefs hu hc⟩
    · cases hs
      exact ⟨L, pl, h.quiet hu (by rw [hc]; rfl) (by rw [hc]; rfl) (by simp [Pc.link]) trivial⟩
  | loadNext n =>
    simp only [hc, Option.some.injEq] at hs
    subst hs
    exact ⟨L, pl, h.quiet hu (by rw [hc]; rfl) (by rw [hc]; rfl) (by simp [Pc.link]) trivial⟩
  | pop n x =>
    simp only [hc] at hs
    split at hs
    · cases hs
      exact h.pop hu hc ‹_›
    · cases hs
      exact ⟨L, pl, h.quiet hu (by rw [hc]; rfl) (by rw [hc]; rfl) (by simp [Pc.link]) trivial⟩
  | got n =>
    simp only [hc, Option.some.injEq] at hs
    subst hs
    exact ⟨L, h.got hu hc⟩
  | popFailed n x =>
    simp only [hc, Option.some.injEq] at hs
    subst hs
    exact ⟨L, h.popFailed hu hc⟩

/-- A user hands a node in. -/
theorem Places.call (h : s.Places L pl) (hu : u < threads) (hc : s.pc u = .idle)
    (hn : s.user n = true) : ∃ pl', ((s.setUser n false).goto u (.add n)).Places L pl' := by
  have hpl : pl n = .user := (h.user n).mp hn
  have hlooks : (Pc.add n).looksAt = (s.pc u).looksAt := by rw [hc]; rfl
  have huser : ∀ m, Function.update s.user n false m = true ↔
      Function.update pl n (.thread u .added) m = .user :=
    iff_of_gone h.user (by simp) (by simp) fun m e => by rw [Function.update_of_ne e]
  refine ⟨_, h.place (q := .thread u .added) hu rfl h.linked
    (iff_of_elsewhere h.list (by simp [hpl]) (by simp)) huser (by simp [hc, Pc.has])
    (fun m st => by simp [Pc.has, eq_comm]) (fun v st hv => by simp [hpl, hv.symm])
    (fun m _ => ⟨rfl, Pc.sees_congr hlooks m⟩) (fun r r' _ _ e hw => ?_) (by simp [Pc.link])
    (fun _ _ _ _ _ => rfl) trivial⟩
  have := Pc.sees_congr hlooks n
  obtain rfl : r' = r := by omega
  rw [hpl] at hw
  exact ⟨hw.eq, trivial⟩

theorem Places.step (h : s.Places L pl) (ha : s.Few a) (hs : s.step a = some s') :
    ∃ L' pl', s'.Places L' pl' := by
  cases a with
  | add u n =>
    simp only [State.step, Option.ite_none_right_eq_some, Option.some.injEq] at hs
    obtain ⟨⟨hc, hn⟩, rfl⟩ := hs
    exact ⟨L, h.call ha hc hn⟩
  | tryGet u =>
    simp only [State.step, Option.ite_none_right_eq_some, Option.some.injEq] at hs
    obtain ⟨hc, rfl⟩ := hs
    exact ⟨L, pl, h.quiet ha (by rw [hc]; rfl) (by rw [hc]; rfl) (by simp [Pc.link]) trivial⟩
  | work u => exact h.work ha hs

end

theorem places_of_reach (h : Reach step Few init s) : ∃ L pl, s.Places L pl :=
  h.invariant (I := fun s : State => ∃ L pl, s.Places L pl) ⟨[], _, init_places⟩
    fun _ _ _ _ ⟨_, _, hP⟩ ha hs => hP.step ha hs

/-! ### The results -/

variable {L : List ℕ} {pl : ℕ → Place}

/-- Node `n` is in place `p`, where the nodes on the list are those of `L`. -/
def At (s : State) (L : List ℕ) (n : ℕ) : Place → Prop
  | .user => s.user n = true
  | .thread u st => (s.pc u).has = some (n, st)
  | .list => n ∈ L
  | .pending => shouldBeOnFreelist < s.freeListRefs n

/-- Where a node is can be seen. -/
theorem Places.at_iff (h : s.Places L pl) (p : Place) : s.At L n p ↔ pl n = p := by
  cases p with
  | user => exact h.user n
  | thread u st => exact h.thread n u st
  | list => exact h.list n
  | pending =>
    obtain ⟨r, hr, hw⟩ := h.refs n
    have hle := h.le_threads hr
    obtain ⟨heq, ha⟩ := hw
    simp only [At, threads] at hle ⊢
    rw [heq]
    cases hp : pl n with
    | thread u st =>
      cases st with
      | alone =>
        rw [hp] at ha
        obtain rfl : r = 0 := ha
        simp [Place.base]
      | _ =>
        simp only [Place.base, shouldBeOnFreelist, reduceCtorEq, iff_false]
        omega
    | pending =>
      rw [hp] at ha
      have hpos : 0 < r := ha
      simp only [Place.base, iff_true]
      omega
    | _ =>
      simp only [Place.base, shouldBeOnFreelist, reduceCtorEq, iff_false]
      omega

/-- The bit of a node that a thread has counts, or was handed in, is not set. -/
theorem Places.refs_lt (h : s.Places L pl) (hc : s.pc u = .add n ∨ s.pc u = .got n) :
    s.freeListRefs n < shouldBeOnFreelist := by
  obtain ⟨r, hr, hw⟩ := h.refs n
  have hle := h.le_threads hr
  have heq := hw.eq
  have hpl : pl n = .thread u .added ∨ pl n = .thread u .counted := by
    rcases hc with hc | hc
    · exact .inl ((h.thread n u _).mp (by rw [hc]; rfl))
    · exact .inr ((h.thread n u _).mp (by rw [hc]; rfl))
  rcases hpl with hpl | hpl <;> rw [hpl] at heq <;>
    simp only [Place.base, shouldBeOnFreelist, threads] at heq hle ⊢ <;> omega

/-- **Every node is in one place**, the list has an end and no node twice, and the bit of a node
that is handed in or got is not set. -/
theorem held_once (h : Reach step Few init s) : ∃ L, Linked s.freeListNext s.freeListHead L ∧
    L.Nodup ∧ (∀ n, ∃! p, s.At L n p) ∧
    ∀ u n, s.pc u = .add n ∨ s.pc u = .got n → s.freeListRefs n < shouldBeOnFreelist := by
  obtain ⟨L, pl, hP⟩ := places_of_reach h
  refine ⟨L, hP.linked, hP.linked.nodup, fun n => ⟨pl n, (hP.at_iff _).mpr rfl, fun p hp => ?_⟩,
    fun u n hc => hP.refs_lt hc⟩
  exact ((hP.at_iff p).mp hp).symm

/-- A call of `add`, and its steps. -/
def addAlone (u n : ℕ) : List Action := .add u n :: List.replicate 5 (.work u)

/-- A call of `try_get`, and its steps. -/
def getAlone (u : ℕ) : List Action := .tryGet u :: List.replicate 6 (.work u)

/-- While thread `1` looks at the first node, thread `0` gets both and hands the first one in
again. -/
def handedInAgain : List Action := addAlone 0 1 ++ addAlone 0 0 ++
  .tryGet 1 :: List.replicate 4 (.work 1) ++ getAlone 0 ++ getAlone 0 ++ [.add 0 0, .work 0]

theorem held_once_handedInAgain : ∃ s, run step init handedInAgain = some s ∧
    s.pc 1 = .pop 0 (some 1) ∧ s.freeListRefs 0 = shouldBeOnFreelist + 1 ∧
    ∃ L, Linked s.freeListNext s.freeListHead L ∧ ∀ n, ∃! p, s.At L n p := by
  obtain ⟨s, hs, hc, hr⟩ : ∃ s, run step init handedInAgain = some s ∧ s.pc 1 = .pop 0 (some 1) ∧
      s.freeListRefs 0 = shouldBeOnFreelist + 1 := ⟨_, rfl, rfl, rfl⟩
  have hreach : Reach step Few init s := .of_run _ (fun _ a ha => by
    have : ∀ a ∈ handedInAgain, a.thread < threads := by decide
    exact this a ha) hs
  obtain ⟨L, hL, -, hat, -⟩ := held_once hreach
  exact ⟨s, hs, hc, hr, L, hL, hat⟩

end State

end MutilsTasks.ConcurrentQueue.FreeList
