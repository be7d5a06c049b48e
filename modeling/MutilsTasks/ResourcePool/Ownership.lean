import MutilsTasks.ResourcePool.ConcurrentIndices
import MutilsTasks.ResourcePool.ConcurrentPacks

/-!
# Every pooled object has one owner, and the queue loses no pack

Two readings of the protocol's invariant on the interleaved machine, for runs in
which `builder` and `onAcquire` do not throw.

* `exclusive_ownership`: each pack is built at most once, its object is in the pack
  or in one rental of it, no object is in two places, every handle has an object,
  and no assertion fails.
* `free_queue`: no pack is in `free_resources` twice, `in_free_list` says whether a
  preferred pack's entry exists, and a pack that is not rented is in the queue or in
  the hands of a thread that will borrow it or enqueue it.
-/

namespace MutilsTasks.ResourcePool

open Machine Packs

/-- `builder` and `onAcquire` return. -/
def NoThrow (_ : State) (a : Action) : Prop :=
  ∀ u invalid, a ≠ .builderThrows u invalid ∧ a ≠ .hookThrows u invalid

namespace State

variable {cfg : Config} {s s' : State} {u : ℕ} {a : Action}

theorem keepsPacks_of_noThrow (h : NoThrow s a) : s.KeepsPacks a :=
  ⟨fun u invalid e => absurd e (h u invalid).1, fun u invalid => (h u invalid).2⟩

/-! ### No thread aborts -/

/-- Where no assertion has failed and `preferred_resources.at` is in range. -/
def Safe (cfg : Config) : Pc → Prop
  | .aborted => False
  | .borrowPreference _ i => i < cfg.maxResources
  | _ => True

/-- `borrow` fails no assertion. -/
theorem borrow_ne_asserts {P Q : Packs} {h : Holds} {p : PackId} {b : Borrowed}
    (inv : PackInv cfg P h) (hl : P.lost p = false)
    (hp : (∃ i, p = .preferred i) ∨ ∃ u, h u = .borrowing p)
    (hb : P.borrow p = (b, Q)) : b ≠ .asserts := by
  rintro rfl
  obtain ⟨hb', -⟩ | ⟨-, -, hi, hr⟩ := borrow_cases hb
  · cases hb'
  have hrented := ((inv.objects.built p hi).2 hr).resolve_right (by simp [hl])
  cases p with
  | preferred i =>
    obtain ⟨r, hr'⟩ := hrented
    rw [Packs.borrow, initializeIfNeeded_of_initialized hi] at hb
    simp [lend, hr, (inv.objects.owner i r).mpr hr'] at hb
  | spare j =>
    obtain ⟨u, hu⟩ := hp.resolve_left (by simp)
    have he : h.entry u = some (.spare j) := by rw [Holds.entry, hu]; rfl
    exact ((inv.entries.spare j).mp (.of_hand he)).2.1 hrented

theorem safe_goto {S : Pool} {c : Pc} (hs : ∀ v, Safe cfg (s.pc v)) (hc : Safe cfg c) (v : ℕ) :
    Safe cfg ((s.goto u S c).pc v) := by
  by_cases e : v = u <;> simp [goto, e, hc, hs]

theorem safe_borrowed {p : PackId} {c : Caller} {x : Option ℕ} {retry : Pc}
    (inv : PackInv cfg s.pool.packs s.holds) (hl : ∀ p, s.pool.packs.lost p = false)
    (hs : ∀ v, Safe cfg (s.pc v))
    (hp : (∃ i, p = .preferred i) ∨ ∃ u, s.holds u = .borrowing p) (hr : Safe cfg retry) (v : ℕ) :
    Safe cfg ((s.borrowed u c x retry (s.pool.packs.borrow p)).pc v) := by
  cases hb : s.pool.packs.borrow p with
  | mk b Q =>
    cases b with
    | rented r => exact safe_goto hs (by trivial) v
    | invalid => exact safe_goto hs hr v
    | asserts => exact absurd rfl (borrow_ne_asserts inv (hl p) hp hb)

theorem safe_step (inv : PackInv cfg s.pool.packs s.holds)
    (hl : ∀ p, s.pool.packs.lost p = false) (own : Owners cfg s.pool.indices)
    (hs : ∀ v, Safe cfg (s.pc v)) (h : s.step cfg a = some s') (v : ℕ) : Safe cfg (s'.pc v) := by
  cases a with
  | advance u =>
    simp only [step, advance] at h
    cases hc : s.pc u with
    | borrowPreference c i =>
      have hi : i < cfg.maxResources := by simpa [hc, Safe] using hs u
      simp only [hc, hi, if_true] at h
      split at h <;> cases h
      exact safe_borrowed inv hl hs (.inl ⟨i, rfl⟩) (by trivial) v
    | borrow c wait p =>
      simp only [hc] at h
      split at h <;> cases h
      exact safe_borrowed inv hl hs (.inr ⟨u, by simp [holds, hc, Pc.hold]⟩) (by trivial) v
    | haveIndex c i =>
      simp only [hc] at h
      split at h <;> cases h
      · exact safe_goto hs (by simpa [Safe]) v
      · exact safe_goto hs (by trivial) v
    | onRelease r =>
      simp only [hc, Option.map_eq_some_iff] at h
      obtain ⟨x, -, rfl⟩ := h
      exact safe_goto hs (by trivial) v
    | enqueue p =>
      cases p <;> simp only [hc, Option.some.injEq] at h <;> subst h <;> exact safe_goto hs (by trivial) v
    | _ =>
      simp only [hc, reduceCtorEq] at h
      repeat' split at h
      all_goals first
        | cases h; done
        | (cases h; exact safe_goto hs (by trivial) v)
  | lock u w =>
    simp only [step] at h
    split at h
    · split at h
      · split at h
        · rename_i o ho
          obtain ⟨i, hi⟩ := own.live _ o ho
          simp only [hi, Option.some.injEq] at h
          subst h
          exact safe_goto hs (by exact own.owned o i hi) v
        · cases h
          exact safe_goto hs (by trivial) v
      · cases h
    · cases h
  | _ =>
    simp only [step] at h
    repeat' split at h
    all_goals first
      | cases h; done
      | (cases h; exact hs v)
      | (cases h; exact safe_goto hs (by trivial) v)
      | (cases h; exact safe_goto hs (by split <;> trivial) v)

/-- **No thread aborts.** -/
theorem safe_of_reach (h : Reach (step cfg) KeepsPacks (init cfg) s) (u : ℕ) :
    Safe cfg (s.pc u) := by
  induction h generalizing u with
  | refl => trivial
  | tail hr _ hs ih =>
    exact safe_step (packInv_of_reach hr).1 (lost_of_reach hr) (owners_of_reach hr) ih hs u

/-! ### Objects -/

/-- Where a pool's object can be. -/
inductive Place where
  /-- The `resource` of a pack. -/
  | pack (p : PackId)
  /-- The `t` of a rental. -/
  | rental (r : ℕ)
  deriving DecidableEq

/-- Object `t` is at this place. -/
def ObjectAt (s : State) (t : Obj) : Place → Prop
  | .pack p => (s.pool.packs.pack p).resource = some t
  | .rental r => ∃ x, s.pool.packs.rental r = some x ∧ x.t = some t

/-- The pack itself, or a rental of it. -/
def PlaceOf (s : State) (p : PackId) (l : Place) : Prop :=
  l = .pack p ∨ ∃ r x, l = .rental r ∧ s.pool.packs.rental r = some x ∧ x.pack = some p

/-- An object tells which pack's it is. -/
theorem placeOf_of_objectAt (inv : Objects s.pool.packs) {p : PackId} {n : ℕ} {l : Place}
    (h : s.ObjectAt (.ofPack p n) l) : s.PlaceOf p l := by
  cases l with
  | pack q =>
    obtain ⟨rfl, -⟩ : p = q ∧ n = 0 := by simpa using inv.packObject q _ h
    exact .inl rfl
  | rental r =>
    obtain ⟨x, hx, ht⟩ := h
    have ho := inv.rentalObject r x _ hx ht
    cases hp : x.pack with
    | none => simp [Rental.object, hp] at ho
    | some q =>
      obtain ⟨rfl, -⟩ : p = q ∧ n = 0 := by simpa [Rental.object, hp] using ho
      exact .inr ⟨r, x, rfl, hx, hp⟩

/-- **No object is in two places.** -/
theorem objectAt_unique (inv : Objects s.pool.packs) {t : Obj} {l l' : Place}
    (h : s.ObjectAt t l) (h' : s.ObjectAt t l') : l = l' := by
  cases t with
  | ofPack p n =>
    have rents : ∀ r x, s.ObjectAt (.ofPack p n) (.rental r) → s.pool.packs.rental r = some x →
        x.pack = some p → s.pool.packs.Rents r p := by
      rintro r x ⟨y, hy, ht⟩ hx hp
      obtain rfl : x = y := Option.some.inj (hx.symm.trans hy)
      exact ⟨x, hx, hp, by simp [ht]⟩
    obtain rfl | ⟨r, x, rfl, hx, hp⟩ := placeOf_of_objectAt inv h <;>
      obtain rfl | ⟨r', x', rfl, hx', hp'⟩ := placeOf_of_objectAt inv h'
    · rfl
    · rw [ObjectAt, inv.apart p ⟨r', rents r' x' h' hx' hp'⟩] at h
      cases h
    · rw [ObjectAt, inv.apart p ⟨r, rents r x h hx hp⟩] at h'
      cases h'
    · rw [inv.one r r' p (rents r x h hx hp) (rents r' x' h' hx' hp')]
  | ofOverdrawn m =>
    have only : ∀ l, s.ObjectAt (.ofOverdrawn m) l → l = .rental m := by
      rintro (q | r) h
      · cases inv.packObject q _ h
      · obtain ⟨x, hx, ht⟩ := h
        have ho := inv.rentalObject r x _ hx ht
        cases hp : x.pack with
        | none => simpa [Rental.object, hp, eq_comm] using ho
        | some q => simp [Rental.object, hp] at ho
    rw [only l h, only l' h']

/-- A pack that was built has its object somewhere. -/
theorem exists_objectAt (inv : Objects s.pool.packs) {p : PackId}
    (hl : s.pool.packs.lost p = false) (h : s.pool.packs.builds p = 1) :
    ∃ l, s.ObjectAt (.ofPack p 0) l := by
  have hi : (s.pool.packs.pack p).initialized = true := by
    by_contra hi
    simp [(inv.unbuilt p (by simpa using hi)).1] at h
  cases hr : (s.pool.packs.pack p).resource with
  | some t => exact ⟨.pack p, by rw [ObjectAt, hr, inv.packObject p t hr]⟩
  | none =>
    obtain ⟨r, x, hx, hp, ht⟩ := ((inv.built p hi).2 hr).resolve_right (by simp [hl])
    obtain ⟨t, ht⟩ := Option.ne_none_iff_exists'.mp ht
    refine ⟨.rental r, x, hx, ?_⟩
    rw [ht, inv.rentalObject r x t hx ht, Rental.object, hp]

theorem builds_le_one (inv : Objects s.pool.packs) (p : PackId) : s.pool.packs.builds p ≤ 1 := by
  by_cases hi : (s.pool.packs.pack p).initialized = true
  · exact Nat.le_of_eq (inv.built p hi).1
  · simp [(inv.unbuilt p (by simpa using hi)).1]

/-- **Every pooled object has one owner.** In every state that any number of threads
reach: each pack has been built at most once, and then its object is in exactly one
place, the pack or a rental of it; no object of the pool is in two places, so two
handles on one object are handles on one rental; a handle's rental has its object,
and is not being destroyed; `who_owns_me` points to the rental of its pack; and no
assertion has failed. -/
theorem exclusive_ownership (h : Reach (step cfg) NoThrow (init cfg) s) :
    (∀ p, s.pool.packs.builds p ≤ 1 ∧ (s.pool.packs.builds p = 1 →
      (∃! l, s.ObjectAt (.ofPack p 0) l) ∧ ∀ l, s.ObjectAt (.ofPack p 0) l → s.PlaceOf p l)) ∧
    (∀ t l l', s.ObjectAt t l → s.ObjectAt t l' → l = l') ∧
    (∀ v r, s.pool.rsource.ptr v = some r →
      (∃ t, s.ObjectAt t (.rental r)) ∧ ∀ u, s.pc u ≠ .onRelease r ∧ s.pc u ≠ .putBack r) ∧
    (∀ i r, (s.pool.packs.preferred i).whoOwnsMe = some r ↔
      s.pool.packs.Rents r (.preferred i)) ∧
    ∀ u, s.pc u ≠ .aborted := by
  have h' := h.mono fun _ _ => keepsPacks_of_noThrow
  obtain ⟨inv, live⟩ := packInv_of_reach h
  have obj := inv.objects
  refine ⟨fun p => ⟨builds_le_one obj p, fun hb => ⟨?_, fun l => placeOf_of_objectAt obj⟩⟩,
    fun t l l' => objectAt_unique obj, fun v r hv => ⟨?_, fun u => ⟨?_, ?_⟩⟩, obj.owner, fun u hu => ?_⟩
  · obtain ⟨l, hl⟩ := exists_objectAt obj (lost_of_reach h' p) hb
    exact ⟨l, hl, fun l' hl' => objectAt_unique obj hl' hl⟩
  · obtain ⟨⟨x, hx, ht⟩, -⟩ := live v r hv
    obtain ⟨t, ht⟩ := Option.ne_none_iff_exists'.mp ht
    exact ⟨t, x, hx, ht⟩
  · exact fun hu => (live v r hv).2 u (by rw [holds, hu]; rfl)
  · exact fun hu => (live v r hv).2 u (by rw [holds, hu]; rfl)
  · have := safe_of_reach h' u
    rwa [hu] at this

/-- A pool of one preferred and one spare pack. -/
def oneEach : Config := ⟨1, 1, true, one_lt_maxSize⟩

/-- Thread `0` acquires `LockedResource` `0`. -/
def acquireOne : List Action :=
  .acquire 0 :: List.replicate 6 (.advance 0) ++ [.publish 0 0]

/-- Thread `0` destroys it. -/
def releaseOne : List Action := .dropLocked 0 0 :: List.replicate 7 (.advance 0)

theorem noThrow_one : ∀ s, ∀ a ∈ acquireOne ++ releaseOne, NoThrow s a := by
  intro s a ha
  simp [acquireOne, releaseOne] at ha
  rcases ha with rfl | rfl | rfl | rfl | rfl <;> simp [NoThrow]

theorem exclusive_ownership_one : ∃ s, run (step oneEach) (init oneEach) acquireOne = some s ∧
    ∃! l, s.ObjectAt (.ofPack (.preferred 0) 0) l := by
  refine ⟨_, rfl, ?_⟩
  have h := @exclusive_ownership oneEach _ (Reach.of_run acquireOne
    (fun s a ha => noThrow_one s a (List.mem_append_left _ ha)) rfl)
  exact ((h.1 (.preferred 0)).2 rfl).1

/-! ### The queue -/

/-- The three places of a preferred pack's entry. -/
inductive EntryPlace where
  /-- In `free_resources`. -/
  | queued
  /-- With a thread that has dequeued it and not cleared `in_free_list`. -/
  | dequeued (u : ℕ)
  /-- With a thread that has set `in_free_list` and not enqueued it. -/
  | enqueuing (u : ℕ)

/-- The entry of preferred pack `i` is there. -/
def EntryAt (s : State) (i : ℕ) : EntryPlace → Prop
  | .queued => .preferred i ∈ s.pool.packs.freeResources
  | .dequeued u => ∃ c wait, s.pc u = .removeFromFreeList c wait (.preferred i)
  | .enqueuing u => s.pc u = .enqueue (.preferred i)

/-- Pack `p` is on its way: a thread has dequeued it and not finished its attempt to
borrow it, or its rental's destructor has put the object back and not finished its
`enqueue`. -/
def InTransit (s : State) (p : PackId) : Prop :=
  ∃ u, (∃ c wait, s.pc u = .removeFromFreeList c wait p ∨ s.pc u = .borrow c wait p) ∨
    s.pc u = .enqueue p ∨
    ∃ i, p = .preferred i ∧ (s.pc u = .testInFreeList i ∨ s.pc u = .setInFreeList i)

theorem entry_preferred {u i : ℕ} : s.holds.entry u = some (.preferred i) ↔
    s.EntryAt i (.dequeued u) ∨ s.EntryAt i (.enqueuing u) := by
  unfold Holds.entry holds
  cases hc : s.pc u with
  | borrow c wait p => cases p <;> simp [EntryAt, hc, Pc.hold, Hold.entry]
  | _ => simp [EntryAt, hc, Pc.hold, Hold.entry]

theorem inTransit_of_entry {u : ℕ} {p : PackId} (h : s.holds.entry u = some p) : s.InTransit p := by
  refine ⟨u, ?_⟩
  unfold Holds.entry holds at h
  cases hc : s.pc u with
  | borrow c wait q => cases q <;> simp_all [Pc.hold, Hold.entry]
  | _ => simp_all [Pc.hold, Hold.entry]

theorem inTransit_of_pending {u i : ℕ} (h : (s.holds u).pending = some i) :
    s.InTransit (.preferred i) := by
  refine ⟨u, ?_⟩
  unfold holds at h
  cases hc : s.pc u with
  | borrow c wait q => cases q <;> simp_all [Pc.hold, Hold.pending]
  | _ => simp_all [Pc.hold, Hold.pending]

/-- The places of an entry are the places of the token. -/
theorem exists_unique_entryAt (inv : PackInv cfg s.pool.packs s.holds) {i : ℕ} :
    (s.pool.packs.preferred i).inFreeList = true ↔ ∃! l, s.EntryAt i l := by
  rw [inv.entries.flag i, Tokens.somewhere_iff_at]
  -- each place of the entry is a place of the token, and determined by it
  have key : ∀ l, s.EntryAt i l → Tokens.At s.pool.packs.freeResources s.holds.entry (.preferred i)
      (match l with | .queued => none | .dequeued u | .enqueuing u => some u) := by
    rintro (_ | u | u) h
    · exact h
    · exact entry_preferred.mpr (.inl h)
    · exact entry_preferred.mpr (.inr h)
  constructor
  · rintro ⟨w, hw⟩
    obtain ⟨l, hl⟩ : ∃ l, s.EntryAt i l := by
      cases w with
      | none => exact ⟨.queued, hw⟩
      | some u => exact (entry_preferred.mp hw).elim (fun h => ⟨_, h⟩) fun h => ⟨_, h⟩
    refine ⟨l, hl, fun l' hl' => ?_⟩
    have := inv.entries.distinct.at_unique (key l hl) (key l' hl')
    rcases l with _ | u | u <;> rcases l' with _ | u' | u' <;> simp at this
    · rfl
    · rw [this]
    · subst this
      obtain ⟨c, wait, hc⟩ := hl
      rw [EntryAt, hc] at hl'
      cases hl'
    · subst this
      obtain ⟨c, wait, hc⟩ := hl'
      rw [EntryAt, hc] at hl
      cases hl
    · rw [this]
  · rintro ⟨l, hl, -⟩
    exact ⟨_, key l hl⟩

/-- All packs there are, preferred and spare. -/
def allPacks (cfg : Config) : List PackId :=
  (List.range cfg.maxResources).map .preferred ++ (List.range cfg.maxSpares).map .spare

theorem mem_allPacks {p : PackId} : p ∈ allPacks cfg ↔ cfg.Has p := by
  cases p <;> simp [allPacks, Config.Has]

theorem length_freeResources_le (inv : PackInv cfg s.pool.packs s.holds) :
    s.pool.packs.freeResources.length ≤ cfg.maxResources + cfg.maxSpares := by
  have hsub : s.pool.packs.freeResources ⊆ allPacks cfg := by
    intro p hp
    rw [mem_allPacks]
    cases p with
    | preferred i => exact (inv.entries.known i (.inl (.of_mem hp))).1
    | spare j => exact ((inv.entries.spare j).mp (.of_mem hp)).1
  simpa [allPacks] using (inv.entries.distinct.nodup.subperm hsub).length_le

/-- A pack that is not rented is queued or on its way. -/
theorem queued_or_inTransit (inv : PackInv cfg s.pool.packs s.holds) {p : PackId}
    (hl : s.pool.packs.lost p = false) (hp : cfg.Has p) (hi : (∃ j, p = .spare j) ∨ (s.pool.packs.pack p).initialized = true)
    (hr : ¬ s.pool.packs.Rented p) : p ∈ s.pool.packs.freeResources ∨ s.InTransit p := by
  have key : Tokens.Somewhere s.pool.packs.freeResources s.holds.entry p →
      p ∈ s.pool.packs.freeResources ∨ s.InTransit p :=
    Or.imp_right fun ⟨_, h⟩ => inTransit_of_entry h
  cases p with
  | preferred i =>
    have hi := hi.resolve_left (by simp)
    rcases inv.entries.idle i fun h => hr (((inv.objects.built _ hi).2 h).resolve_right (by simp [hl])) with
      h | ⟨u, h⟩
    · exact key h
    · exact .inr (inTransit_of_pending h)
  | spare j => exact key ((inv.entries.spare j).mpr ⟨hp, hr, hl⟩)

/-- **The free queue never loses and never duplicates a pack.** In every state that
any number of threads reach: no pack is queued twice; `in_free_list` is set exactly
when the pack's entry is in one of its three places; a preferred pack that was built
and a spare pack are queued or on their way unless they are rented, and queued when
no call and no destructor is in progress. -/
theorem free_queue (h : Reach (step cfg) NoThrow (init cfg) s) :
    (s.pool.packs.freeResources.Nodup ∧
      s.pool.packs.freeResources.length ≤ cfg.maxResources + cfg.maxSpares) ∧
    (∀ i, (s.pool.packs.preferred i).inFreeList = true ↔ ∃! l, s.EntryAt i l) ∧
    (∀ p, cfg.Has p → ((∃ j, p = .spare j) ∨ (s.pool.packs.pack p).initialized = true) →
      ¬ s.pool.packs.Rented p → p ∈ s.pool.packs.freeResources ∨ s.InTransit p) ∧
    ((∀ u, s.pc u = .idle) →
      ∀ p, cfg.Has p → ((∃ j, p = .spare j) ∨ (s.pool.packs.pack p).initialized = true) →
        ¬ s.pool.packs.Rented p → p ∈ s.pool.packs.freeResources) := by
  have hl := lost_of_reach (h.mono fun _ _ => keepsPacks_of_noThrow)
  obtain ⟨inv, -⟩ := packInv_of_reach h
  refine ⟨⟨inv.entries.distinct.nodup, length_freeResources_le inv⟩,
    fun i => exists_unique_entryAt inv, fun p => queued_or_inTransit inv (hl p),
    fun hu p hp hi hr => ?_⟩
  refine (queued_or_inTransit inv (hl p) hp hi hr).resolve_right ?_
  rintro ⟨u, h⟩
  simp [hu u] at h

theorem free_queue_one : ∃ s, run (step oneEach) (init oneEach) (acquireOne ++ releaseOne) = some s ∧
    ∃! l, s.EntryAt 0 l := by
  refine ⟨_, rfl, ?_⟩
  have h := @free_queue oneEach _ (Reach.of_run _ noThrow_one rfl)
  exact (h.2.1 0).mp rfl

end State

end MutilsTasks.ResourcePool
