import MutilsTasks.FutureFreePool.Launch
import MutilsTasks.Library.Tokens

/-!
# When no two tasks have one id

The ids are tokens (`Tokens.Distinct`): each is in `available_ids` or with one call. That
rests on `get_pos` removing the id that it has read. The mutex does not see to it, as it
is unlocked before the list is read, so a second call may read the same front. In a run in
which no call reads the front between the `front` and the `pop_front` of another
(`Alone`), the ids stay where they should be.

`Few` bounds the number of unfinished tasks, where a call counts from the moment it is
made. It is what `front` and `pop_front` need to be defined.
-/

namespace MutilsTasks.FutureFreePool

open Machine Tokens

namespace State

variable {keeps : Bool} {s s' : State} {a : Action} {u v : ℕ} {c : Call}

/-- The id that a call has. -/
def hand (s : State) (u : ℕ) : Option ℤ := (s.call u).id

/-- How many calls have been made whose tasks have not put their ids back. -/
def unfinished (s : State) : ℕ := s.launched.countP fun u => (s.call u).unfinished

/-- **The ids are partitioned** into the free ones and those of the unfinished tasks. -/
structure Partitioned (s : State) : Prop where
  /-- An id is in the list once or with one task, and not both. -/
  parts : ∀ id : ℤ, 0 ≤ id → id < bound →
    s.availableIds.count id = 1 ∧ (∀ u, s.hand u ≠ some id) ∨
    s.availableIds.count id = 0 ∧ ∃! u, s.hand u = some id
  /-- What is in the list is an id. -/
  available : ∀ id ∈ s.availableIds, 0 ≤ id ∧ id < bound
  /-- What a task has is an id. -/
  held : ∀ u id, s.hand u = some id → 0 ≤ id ∧ id < bound
  /-- No two unfinished tasks have the same. -/
  one : ∀ u v id, s.hand u = some id → s.hand v = some id → u = v

/-- No `get_pos` is in flight. -/
def Quiet (s : State) : Prop := ∀ u, (s.call u).inGetPos = false

/-- The calls that are about to execute `front` or `pop_front` do so on a list that is not
empty. -/
def Defined (s : State) : Prop :=
  ∀ u, s.call u = .front ∨ (∃ pos, s.call u = .popFront pos) → s.availableIds ≠ []

/-- A call is made only when fewer than `bound` are unfinished. -/
def Few (s : State) (a : Action) : Prop := ∀ u, a = .launch u → s.unfinished < bound

/-- A call reads the front only when no other has read it and not removed it. -/
def Alone (s : State) (a : Action) : Prop :=
  ∀ u, a = .advance u → s.call u = .front → ∀ v, (s.call v).reading = none

/-! ### Where the ids are -/

/-- **What holds in every reachable state.** -/
structure Inv (s : State) : Prop where
  distinct : Distinct s.availableIds s.hand
  ids : ∀ id : ℤ, Somewhere s.availableIds s.hand id ↔ 0 ≤ id ∧ id < bound
  front : ∀ u pos, (s.call u).reading = some pos → s.availableIds.head? = some pos
  alone : ∀ u v p q, (s.call u).reading = some p → (s.call v).reading = some q → u = v
  nodup : s.launched.Nodup
  launched : ∀ u, u ∈ s.launched ↔ s.call u ≠ .idle
  filed : ∀ pos u, s.pending pos = some u → (s.call u).filed = some pos

theorem init_inv : init.Inv := by
  have hand : ∀ u p, init.hand u ≠ some p := nofun
  have ids : init.availableIds = initialIds := by simp only [init]
  refine ⟨⟨?_, fun u p h => absurd h (hand u p), fun u v p h => absurd h (hand u p)⟩,
    fun p => ?_, nofun, nofun, List.nodup_nil, fun u => ?_, nofun⟩
  · rw [ids]
    exact nodup_upto bound
  · rw [ids, ← mem_upto]
    exact ⟨fun h => h.resolve_right fun ⟨u, hu⟩ => hand u p hu, .inl⟩
  · exact iff_of_false List.not_mem_nil fun h => h rfl

theorem hand_goto (s : State) (u : ℕ) (c : Call) :
    (s.goto u c).hand = Function.update s.hand u c.id := by
  funext v
  by_cases h : v = u <;> simp [hand, h]

theorem hand_goto_of_eq (h : c.id = (s.call u).id) : (s.goto u c).hand = s.hand := by
  rw [hand_goto, h]
  exact Function.update_eq_self u s.hand

/-- A call has read the front after a step of `u` only if it had before, or is `u`. -/
theorem reading_goto (hc : c.reading = none) {pos : ℤ}
    (h : ((s.goto u c).call v).reading = some pos) : v ≠ u ∧ (s.call v).reading = some pos := by
  rw [goto_call] at h
  split at h
  · rw [hc] at h
    cases h
  · exact ⟨‹_›, h⟩

theorem mem_launched_goto (h : ∀ v, v ∈ s.launched ↔ s.call v ≠ .idle) (hu : s.call u ≠ .idle)
    (hc : c ≠ .idle) (v : ℕ) : v ∈ s.launched ↔ (s.goto u c).call v ≠ .idle := by
  rw [goto_call, h]
  split
  · rename_i e
    exact iff_of_true (e ▸ hu) hc
  · exact Iff.rfl

/-- A call that keeps its id leaves every id where it is. -/
theorem Inv.ids_goto (inv : s.Inv) (h : c.id = (s.call u).id) :
    Distinct s.availableIds (s.goto u c).hand ∧
      ∀ id : ℤ, Somewhere s.availableIds (s.goto u c).hand id ↔ 0 ≤ id ∧ id < bound := by
  rw [hand_goto_of_eq h]
  exact ⟨inv.distinct, inv.ids⟩

/-- A call whose future is not in a slot moves on. -/
theorem Inv.filed_goto (inv : s.Inv) (hu : (s.call u).filed = none) {p : ℤ}
    (h : s.pending p = some v) : ((s.goto u c).call v).filed = some p := by
  have hv := inv.filed p v h
  have hvu : v ≠ u := by
    rintro rfl
    rw [hu] at hv
    cases hv
  rw [goto_call, if_neg hvu, hv]

/-- Calls that keep what they have. -/
theorem Inv.of_keeps (inv : s.Inv) {f : ℕ → Call} {m : Option ℕ}
    (hf : ∀ v, f v = s.call v ∨ (s.call v).Keeps (f v)) :
    Inv { s with call := f, mutex := m } := by
  have hh : State.hand { s with call := f, mutex := m } = s.hand := by
    funext v
    rcases hf v with e | hk
    · exact congrArg Call.id e
    · exact hk.id
  have hr : ∀ v pos, (f v).reading = some pos → (s.call v).reading = some pos := by
    intro v pos hv
    rcases hf v with e | hk
    · exact e ▸ hv
    · rw [hk.reading] at hv
      cases hv
  refine ⟨?_, fun id => ?_, fun v pos hv => inv.front v pos (hr v pos hv),
    fun v w p q hv hw => inv.alone v w p q (hr v p hv) (hr w q hw), inv.nodup, fun v => ?_,
    fun p v hp => ?_⟩
  · rw [hh]
    exact inv.distinct
  · rw [hh]
    exact inv.ids id
  · rcases hf v with e | hk
    · exact (inv.launched v).trans (not_congr (e ▸ Iff.rfl))
    · exact (inv.launched v).trans (iff_of_true hk.idle.1 hk.idle.2)
  · rcases hf v with e | hk
    · exact (congrArg Call.filed e).trans (inv.filed p v hp)
    · exact hk.filed.trans (inv.filed p v hp)

theorem Inv.turn (inv : s.Inv) {m : Option ℕ} (hk : (s.call u).Keeps c) :
    ({ s with mutex := m }.goto u c).Inv := by
  refine inv.of_keeps (f := Function.update s.call u c) fun v => ?_
  by_cases e : v = u
  · rw [e, Function.update_self]
    exact .inr hk
  · exact .inl (Function.update_of_ne e ..)

theorem Inv.discard (inv : s.Inv) (x : Option ℕ) : (s.discard x).Inv := by
  rw [s.discard_eq x]
  refine inv.of_keeps (m := s.mutex) fun v => ?_
  rcases s.discard_cases x v with e | ⟨pos, t, -, hc, hc'⟩
  · exact .inl e
  · rw [hc', hc]
    exact .inr (Call.keeps_release ..)

/-- A future is stored. -/
theorem Inv.store (inv : s.Inv) {pos : ℤ} {t : Task} (hc : s.call u = .pushed pos .returned t) :
    ({ s with pending := Function.update s.pending pos (some u) }.goto u
      (.pushed pos .stored t)).Inv := by
  have hid : (Call.pushed pos .stored t).id = (s.call u).id := by rw [hc]; rfl
  have hids := inv.ids_goto hid
  have hne : s.call u ≠ .idle := by rw [hc]; nofun
  refine ⟨hids.1, hids.2, fun v q hv => ?_, fun v w p q hv hw => ?_, inv.nodup, ?_, fun p v hp => ?_⟩
  · exact inv.front v q (reading_goto rfl hv).2
  · exact inv.alone v w p q (reading_goto rfl hv).2 (reading_goto rfl hw).2
  · exact mem_launched_goto inv.launched hne nofun
  · have hp' : Function.update s.pending pos (some u) p = some v := hp
    rw [Function.update_apply] at hp'
    split at hp'
    · rename_i e
      cases hp'
      rw [goto_call, if_pos rfl, e]
      rfl
    · exact inv.filed_goto (by rw [hc]; rfl) hp'

/-- **Every step keeps it**, if no call reads the front of another. -/
theorem Inv.step (inv : s.Inv) (ha : s.Alone a) (h : s.step keeps a = some s') : s'.Inv := by
  obtain ⟨u, hu⟩ : ∃ u, Moves keeps s u a s' := ⟨_, step_spec h⟩
  cases hu with
  | launches hc =>
    have hids := inv.ids_goto (u := u) (c := .lock) (by rw [hc]; rfl)
    refine ⟨hids.1, hids.2, fun v pos hv => ?_, fun v w p q hv hw => ?_, ?_, fun v => ?_,
      fun p v hp => inv.filed_goto (by rw [hc]; rfl) hp⟩
    · exact inv.front v pos (reading_goto rfl hv).2
    · exact inv.alone v w p q (reading_goto rfl hv).2 (reading_goto rfl hw).2
    · apply inv.nodup.cons
      intro hm
      exact (inv.launched u).mp hm hc
    · rw [launch, goto_call]
      show v ∈ u :: s.launched ↔ _
      rw [List.mem_cons, inv.launched]
      split
      · exact iff_of_true (.inl ‹_›) nofun
      · exact or_iff_right ‹_›
  | turns hk => exact inv.turn hk
  | @stores pos t hc =>
    have hc' : (s.discard (s.pending pos)).call u = .pushed pos .returned t := by
      rcases s.discard_cases (s.pending pos) u with e | ⟨p, t', -, e, -⟩
      · rw [e, hc]
      · rw [hc] at e
        cases e
    have hp : (s.discard (s.pending pos)).pending = s.pending := by rw [discard_eq]
    have := (inv.discard (s.pending pos)).store hc'
    rwa [hp] at this
  | @reads pos hc hp =>
    have hids := inv.ids_goto (u := u) (c := .popFront pos) (by rw [hc]; rfl)
    have key : ∀ v q, ((s.goto u (.popFront pos)).call v).reading = some q → v = u ∧ q = pos := by
      intro v q hv
      rw [goto_call] at hv
      split at hv
      · exact ⟨‹_›, (Option.some.inj hv).symm⟩
      · rw [ha u rfl hc v] at hv
        cases hv
    refine ⟨hids.1, hids.2, fun v q hv => ?_, fun v w p q hv hw => ?_, inv.nodup, ?_,
      fun p v hp => inv.filed_goto (by rw [hc]; rfl) hp⟩
    · rw [(key v q hv).2]
      exact hp
    · rw [(key v p hv).1, (key w q hw).1]
    · exact mem_launched_goto inv.launched (by rw [hc]; nofun) nofun
  | @takes pos hc hn =>
    have hr : (s.call u).reading = some pos := by rw [hc]; rfl
    have hu : s.hand u = none := by rw [hand, hc]; rfl
    obtain ⟨ids, hids⟩ : ∃ ids, s.availableIds = pos :: ids :=
      List.head?_eq_some_iff.mp (inv.front u pos hr)
    have hm : pos ∈ s.availableIds := by rw [hids]; exact List.mem_cons_self
    have ht : s.availableIds.tail = s.availableIds.erase pos := by
      rw [hids, List.erase_cons_head]
      rfl
    have hh : ({ s with availableIds := s.availableIds.tail }.goto u (.assertPos pos)).hand =
        Function.update s.hand u (some pos) := hand_goto ..
    -- the call that removes the front is the only one that has read it
    have key : ∀ v q, ¬ (({ s with availableIds := s.availableIds.tail }.goto u
        (.assertPos pos)).call v).reading = some q := by
      intro v q hv
      obtain ⟨hvu, hv'⟩ := reading_goto rfl hv
      exact hvu (inv.alone v u q pos hv' hr)
    refine ⟨?_, fun id => ?_, fun v q hv => absurd hv (key v q),
      fun v w p q hv => absurd hv (key v p), inv.nodup, ?_,
      fun p v hp => inv.filed_goto (by rw [hc]; rfl) hp⟩
    · rw [hh]
      show Distinct s.availableIds.tail _
      rw [ht]
      exact inv.distinct.take hu hm
    · rw [hh, ← inv.ids]
      show Somewhere s.availableIds.tail _ _ ↔ _
      rw [ht]
      exact inv.distinct.somewhere_take hu hm
    · exact mem_launched_goto inv.launched (by rw [hc]; nofun) nofun
  | @returns pos b hc =>
    have hu : s.hand u = some pos := by rw [hand, hc]; rfl
    have hh : ({ s with availableIds := s.availableIds ++ [pos] }.goto u
        (.pushed pos b .finished)).hand = Function.update s.hand u none := hand_goto ..
    refine ⟨?_, fun id => ?_, fun v q hv => ?_, fun v w p q hv hw => ?_, inv.nodup, ?_,
      fun p v hp => ?_⟩
    · rw [hh]
      exact inv.distinct.put hu
    · rw [hh, ← inv.ids]
      exact inv.distinct.somewhere_put hu
    · have := inv.front v q (reading_goto rfl hv).2
      show (s.availableIds ++ [pos]).head? = some q
      rw [List.head?_append, this]
      rfl
    · exact inv.alone v w p q (reading_goto rfl hv).2 (reading_goto rfl hw).2
    · exact mem_launched_goto inv.launched (by rw [hc]; nofun) nofun
    · have hv := inv.filed p v hp
      rw [goto_call]
      split
      · rename_i e
        rw [e, hc] at hv
        cases b <;> exact hv
      · exact hv

/-! ### How many tasks are unfinished -/

theorem unfinished_of_id {id : ℤ} (h : c.id = some id) : c.unfinished = true := by
  cases c with
  | pushed pos b t => cases t <;> first | rfl | cases h
  | _ => first | rfl | cases h

theorem unfinished_of_inGetPos (h : c.inGetPos = true) : c.unfinished = true := by
  cases c <;> first | rfl | cases h

theorem ne_idle_of_unfinished (h : c.unfinished = true) : c ≠ .idle := by
  rintro rfl
  cases h

theorem unfinished_goto_le (h : c.unfinished = true → (s.call u).unfinished = true) :
    (s.goto u c).unfinished ≤ s.unfinished := by
  apply List.countP_mono_left
  intro v _ hv
  rw [goto_call] at hv
  split at hv
  · rename_i e
    exact e ▸ h hv
  · exact hv

theorem unfinished_discard_le (x : Option ℕ) : (s.discard x).unfinished ≤ s.unfinished := by
  rw [s.discard_eq x]
  apply List.countP_mono_left
  intro v _ hv
  rcases s.discard_cases x v with e | ⟨pos, t, -, hc, hc'⟩
  · exact e ▸ hv
  · have hv' : ((s.discard x).call v).unfinished = true := hv
    rw [hc', (Call.keeps_release pos .stored t).unfinished] at hv'
    rw [hc]
    exact hv'

/-- A call adds one. -/
theorem Inv.unfinished_cons (inv : s.Inv) (hu : s.call u = .idle) (hl : s'.launched = u :: s.launched)
    (hc : s'.call = Function.update s.call u c) (hun : c.unfinished = true) :
    s'.unfinished = s.unfinished + 1 := by
  have htail : s.launched.countP (fun v => (s'.call v).unfinished) = s.unfinished := by
    apply List.countP_congr
    intro v hv
    have hvu : v ≠ u := by
      rintro rfl
      exact (inv.launched v).mp hv hu
    rw [hc, Function.update_of_ne hvu]
  have hhead : (s'.call u).unfinished = true := by
    rw [hc, Function.update_self]
    exact hun
  rw [unfinished, hl, List.countP_cons, htail, if_pos hhead]

/-- **At most `bound` tasks are unfinished**, if a call is made only when fewer are. -/
theorem Inv.unfinished_le (inv : s.Inv) (ha : s.Few a) (hs : s.unfinished ≤ bound)
    (h : s.step keeps a = some s') : s'.unfinished ≤ bound := by
  obtain ⟨u, hu⟩ : ∃ u, Moves keeps s u a s' := ⟨_, step_spec h⟩
  cases hu with
  | launches hc =>
    have h₁ := ha u rfl
    have h₂ : (s.launch u).unfinished = s.unfinished + 1 := inv.unfinished_cons hc rfl rfl rfl
    omega
  | turns hk => exact Nat.le_trans (unfinished_goto_le fun h => hk.unfinished ▸ h) hs
  | @stores pos t hc =>
    have hd := unfinished_discard_le (s := s) (s.pending pos)
    refine Nat.le_trans (unfinished_goto_le (s := { s.discard (s.pending pos) with
      pending := _ }) fun h => ?_) (hd.trans hs)
    show ((s.discard (s.pending pos)).call u).unfinished = true
    rcases s.discard_cases (s.pending pos) u with e | ⟨p, t', -, e, -⟩
    · rw [e, hc]
      cases t <;> first | rfl | cases h
    · rw [hc] at e
      cases e
  | reads hc => exact Nat.le_trans (unfinished_goto_le fun _ => by rw [hc]; rfl) hs
  | takes hc => exact Nat.le_trans (unfinished_goto_le fun _ => by rw [hc]; rfl) hs
  | returns hc => exact Nat.le_trans (unfinished_goto_le fun _ => by rw [hc]; rfl) hs

/-- The calls that have an id. -/
def holders (s : State) : Finset ℕ := s.launched.toFinset.filter fun u => (s.hand u).isSome

theorem Inv.mem_holders (inv : s.Inv) : u ∈ s.holders ↔ ∃ id, s.hand u = some id := by
  rw [holders, Finset.mem_filter, List.mem_toFinset, inv.launched, Option.isSome_iff_exists]
  constructor
  · exact And.right
  · rintro ⟨id, hid⟩
    exact ⟨ne_idle_of_unfinished (unfinished_of_id hid), id, hid⟩

/-- The ids in the list and the calls that have one are `bound` together. -/
theorem Inv.length_add_holders (inv : s.Inv) :
    s.availableIds.length + s.holders.card = bound := by
  have hids : ∀ id, Somewhere s.availableIds s.hand id ↔ id ∈ (upto bound).toFinset := by
    intro id
    rw [inv.ids, List.mem_toFinset, mem_upto]
  rw [inv.distinct.length_add_card hids fun u => inv.mem_holders,
    List.toFinset_card_of_nodup (nodup_upto bound), length_upto]

/-- A call that has an id is unfinished, and so is one that will have one. -/
theorem Inv.holders_add_le (inv : s.Inv) (us : Finset ℕ)
    (hus : ∀ u ∈ us, (s.call u).inGetPos = true ∧ s.hand u = none) :
    s.holders.card + us.card ≤ s.unfinished := by
  have hdisjoint : Disjoint s.holders us := by
    rw [Finset.disjoint_left]
    intro u hu hu'
    obtain ⟨id, hid⟩ := inv.mem_holders.mp hu
    rw [(hus u hu').2] at hid
    cases hid
  have hsub : s.holders ∪ us ⊆ (s.launched.filter fun u => (s.call u).unfinished).toFinset := by
    intro u hu
    have hun : (s.call u).unfinished = true := by
      rcases Finset.mem_union.mp hu with hu | hu
      · obtain ⟨id, hid⟩ := inv.mem_holders.mp hu
        exact unfinished_of_id hid
      · exact unfinished_of_inGetPos (hus u hu).1
    rw [List.mem_toFinset, List.mem_filter]
    exact ⟨(inv.launched u).mpr (ne_idle_of_unfinished hun), hun⟩
  rw [← Finset.card_union_of_disjoint hdisjoint, unfinished, List.countP_eq_length_filter]
  exact (Finset.card_le_card hsub).trans (List.toFinset_card_le _)

/-- **There is an id for every call that has none yet**, if at most `bound` are unfinished. -/
theorem Inv.card_le_length (inv : s.Inv) (hs : s.unfinished ≤ bound) (us : Finset ℕ)
    (hus : ∀ u ∈ us, (s.call u).inGetPos = true ∧ s.hand u = none) :
    us.card ≤ s.availableIds.length := by
  have h₁ := inv.holders_add_le us hus
  have h₂ := inv.length_add_holders
  omega

/-! ### Who has an id -/

/-- **Every id is where it should be.** -/
structure Sound (s : State) : Prop where
  partitioned : s.Quiet → s.Partitioned
  one : ∀ u v id, s.hand u = some id → s.hand v = some id → u = v
  defined : s.Defined

theorem Inv.partitioned (inv : s.Inv) : s.Partitioned where
  parts id h₀ h₁ := by
    rcases (inv.ids id).mpr ⟨h₀, h₁⟩ with hm | ⟨u, hu⟩
    · exact .inl ⟨List.count_eq_one_of_mem inv.distinct.nodup hm,
        fun u hu => inv.distinct.apart u id hu hm⟩
    · exact .inr ⟨List.count_eq_zero_of_not_mem (inv.distinct.apart u id hu), u, hu,
        fun v hv => inv.distinct.one v u id hv hu⟩
  available id h := (inv.ids id).mp (.of_mem h)
  held u id h := (inv.ids id).mp (.of_hand h)
  one := inv.distinct.one

theorem Inv.defined (inv : s.Inv) (hs : s.unfinished ≤ bound) : s.Defined := by
  intro u hu
  have hu' : (s.call u).inGetPos = true ∧ s.hand u = none := by
    rw [hand]
    rcases hu with h | ⟨pos, h⟩ <;> rw [h] <;> exact ⟨rfl, rfl⟩
  have h := inv.card_le_length hs {u} fun v hv => by
    rw [Finset.mem_singleton.mp hv]
    exact hu'
  rw [Finset.card_singleton] at h
  exact List.ne_nil_of_length_pos h

/-- What the runs keep that bound the tasks and do not read a front twice. -/
theorem inv_of_reach (h : Reach (step keeps) (fun s a => s.Few a ∧ s.Alone a) init s) :
    s.Inv ∧ s.unfinished ≤ bound := by
  apply h.invariant (I := fun s => s.Inv ∧ s.unfinished ≤ bound)
  · exact ⟨init_inv, Nat.zero_le _⟩
  · intro t a t' _ ih ha hs
    exact ⟨ih.1.step ha.2 hs, ih.1.unfinished_le ha.1 ih.2 hs⟩

/-- **A front that is read twice is given out twice.** -/
theorem reach_shared (inv : s.Inv) (hn : s.unfinished ≤ bound) (ha : ¬ s.Alone a)
    (hs : s.step keeps a = some s') : ∃ s'', Reach (step keeps) Few s' s'' ∧
      ∃ u v id, u ≠ v ∧ s''.hand u = some id ∧ s''.hand v = some id := by
  simp only [Alone, not_forall] at ha
  obtain ⟨u, rfl, hu, v, hv⟩ := ha
  obtain ⟨pos, hv⟩ : ∃ pos, s.call v = .popFront pos := by
    cases hc : s.call v with
    | popFront pos => exact ⟨pos, rfl⟩
    | _ => rw [hc] at hv; exact absurd rfl hv
  have hne : u ≠ v := by
    rintro rfl
    rw [hu] at hv
    cases hv
  -- there are two more ids in the list, as neither call has one yet
  have hlen : 2 ≤ s.availableIds.length := by
    have := inv.card_le_length hn {u, v} fun w hw => by
      rw [hand]
      rcases Finset.mem_insert.mp hw with rfl | hw
      · rw [hu]
        exact ⟨rfl, rfl⟩
      · rw [Finset.mem_singleton.mp hw, hv]
        exact ⟨rfl, rfl⟩
    rwa [Finset.card_pair hne] at this
  obtain ⟨ids, hids⟩ : ∃ ids, s.availableIds = pos :: ids :=
    List.head?_eq_some_iff.mp (inv.front v pos (by rw [hv]; rfl))
  have hids' : ids ≠ [] := by
    rintro rfl
    rw [hids] at hlen
    simp at hlen
  obtain rfl : s' = s.goto u (.popFront pos) := by
    simpa [step, advance, hu, hids, eq_comm] using hs
  let t : State := { s.goto u (.popFront pos) with availableIds := ids }.goto u (.assertPos pos)
  let t' : State := { t with availableIds := ids.tail }.goto v (.assertPos pos)
  have h₁ : (s.goto u (.popFront pos)).step keeps (.advance u) = some t := by
    simp [step, advance, goto, hids, t]
  have hv' : t.call v = .popFront pos := by
    simp [t, hne.symm, hv]
  have h₂ : t.step keeps (.advance v) = some t' := by
    have : t.availableIds = ids := rfl
    simp [step, advance, hv', this, hids', t']
  refine ⟨t', (Reach.single (fun w e => by cases e) h₁).trans
    (.single (fun w e => by cases e) h₂), u, v, pos, hne, ?_, ?_⟩
  · simp [hand, t', t, hne, Call.id]
  · simp [hand, t', Call.id]

/-- **No two unfinished tasks have one id** in a run with at most `bound` unfinished tasks
in which no call reads the front of another; and where a call does, two tasks may. -/
theorem ids_apart (keeps : Bool) (s s' : State) (a : Action)
    (h : Reach (step keeps) (fun s a => s.Few a ∧ s.Alone a) init s) :
    s.Sound ∧ (s.step keeps a = some s' → ¬ s.Alone a →
      ∃ s'', Reach (step keeps) Few s' s'' ∧ ¬ s''.Sound) := by
  obtain ⟨inv, hn⟩ := inv_of_reach h
  refine ⟨⟨fun _ => inv.partitioned, inv.distinct.one, inv.defined hn⟩, fun hs ha => ?_⟩
  obtain ⟨s'', hr, u, v, id, hne, hu, hv⟩ := reach_shared inv hn ha hs
  exact ⟨s'', hr, fun sound => hne (sound.one u v id hu hv)⟩

/-- `Few` and `Alone`, computed from the calls that have been made. -/
def fewAlone (s : State) : Action → Bool
  | .launch _ => s.unfinished < bound
  | .advance u => s.call u != .front || s.launched.all fun v => (s.call v).reading == none
  | .work _ => true

theorem reach_of_fewAlone (h : Reach (step keeps) (fun s a => s.fewAlone a = true) init s) :
    Reach (step keeps) (fun s a => s.Few a ∧ s.Alone a) init s := by
  induction h with
  | refl => exact .refl
  | @tail s s' a _ ha hs ih =>
    obtain ⟨inv, -⟩ := inv_of_reach ih
    refine ih.tail ⟨?_, ?_⟩ hs
    · rintro u rfl
      exact of_decide_eq_true ha
    · rintro u rfl hu v
      have hall : ∀ w ∈ s.launched, (s.call w).reading = none := by
        simpa [fewAlone, hu] using ha
      by_cases hv : v ∈ s.launched
      · exact hall v hv
      · rw [inv.launched, not_not] at hv
        rw [hv]
        rfl

theorem initialIds_eq : ∃ ids, initialIds = 0 :: 1 :: ids := by
  rw [initialIds, upto, bound, List.range_succ_eq_map, List.range_succ_eq_map]
  exact ⟨_, rfl⟩

/-- Two calls take turns. The task of the first one runs before its future is stored. -/
def takingTurns : List Action :=
  [.launch 0, .launch 1, .advance 0, .advance 0, .advance 0, .advance 1, .advance 0, .advance 1,
    .advance 1, .advance 0, .advance 0, .work 0, .work 0, .advance 1, .work 0, .advance 0, .work 0,
    .work 0, .work 0, .advance 0]

theorem ids_apart_takingTurns : ∃ s, run (step false) init takingTurns = some s ∧
    s.call 0 = .pushed 0 .stored .finished ∧ s.call 1 = .assertPos 1 ∧ s.Sound := by
  obtain ⟨ids, hids⟩ := initialIds_eq
  obtain ⟨s, hg, hs, h₀, h₁⟩ : ∃ s,
      run (fun s a => if s.fewAlone a = true then step false s a else none) init takingTurns = some s ∧
      run (step false) init takingTurns = some s ∧ s.call 0 = .pushed 0 .stored .finished ∧
      s.call 1 = .assertPos 1 := by
    rw [init, hids]
    exact ⟨_, rfl, rfl, rfl, rfl⟩
  exact ⟨s, hs, h₀, h₁, (ids_apart false s s (.launch 0)
    (reach_of_fewAlone (.of_guarded takingTurns hg))).1⟩

/-- Two calls read the front before either removes it. -/
def frontTwice : List Action :=
  [.launch 0, .launch 1, .advance 0, .advance 0, .advance 1, .advance 1, .advance 0, .advance 1,
    .advance 0, .advance 1, .advance 0, .advance 1]

theorem length_launched_step (h : s.step keeps a = some s') :
    s'.launched.length ≤ s.launched.length + 1 := by
  obtain ⟨u, hu⟩ : ∃ u, Moves keeps s u a s' := ⟨_, step_spec h⟩
  cases hu with
  | launches => exact Nat.le_refl _
  | stores =>
    rw [discard_eq]
    exact Nat.le_succ _
  | _ => exact Nat.le_succ _

/-- A run of at most `bound` steps does not make more calls. -/
theorem reach_of_run {as : List Action} (h : run (step keeps) s as = some s')
    (hb : s.launched.length + as.length ≤ bound) : Reach (step keeps) Few s s' := by
  induction as generalizing s with
  | nil =>
    cases h
    exact .refl
  | cons a as ih =>
    obtain ⟨t, h₁, h₂⟩ := Option.bind_eq_some_iff.mp h
    have hl := length_launched_step h₁
    have hc : s.unfinished ≤ s.launched.length := List.countP_le_length
    rw [List.length_cons] at hb
    apply Reach.head ?_ h₁ (ih h₂ (by omega))
    intro u _
    omega

/-- A call that takes no part in a run is not made. -/
theorem idle_of_run {as : List Action} (h : run (step keeps) s as = some s')
    (hv : ∀ a ∈ as, a.thread ≠ v) (hi : s.call v = .idle) : s'.call v = .idle := by
  apply run_invariant (I := fun t => t.call v = .idle) hi ?_ h
  intro t a ha t' ih hs
  rcases call_cases_of_ne hs (hv a ha).symm with e | ⟨pos, p, t₁, t₂, -, -, hc, -⟩
  · exact e.trans ih
  · rw [ih] at hc
    cases hc

theorem exists_shared (keeps : Bool) : ∃ s, Reach (step keeps) Few init s ∧ s.Quiet ∧
    s.hand 0 = some 0 ∧ s.hand 1 = some 0 := by
  obtain ⟨ids, hids⟩ := initialIds_eq
  obtain ⟨s, hs, h₀, h₁⟩ : ∃ s, run (step keeps) init frontTwice = some s ∧ s.call 0 = .push 0 ∧
      s.call 1 = .push 0 := by
    rw [init, hids]
    exact ⟨_, rfl, rfl, rfl⟩
  refine ⟨s, reach_of_run hs (by decide), fun u => ?_, by rw [hand, h₀]; rfl, by rw [hand, h₁]; rfl⟩
  by_cases hu : u = 0 ∨ u = 1
  · rcases hu with rfl | rfl
    · rw [h₀]; rfl
    · rw [h₁]; rfl
  · rw [idle_of_run hs (fun a ha e => hu ?_) rfl]
    · rfl
    · have : ∀ a ∈ frontTwice, a.thread = 0 ∨ a.thread = 1 := by decide
      exact e ▸ this a ha

/-- **Two tasks have one id**, wherever the closures are. -/
theorem id_shared : (¬ ∀ s, Reach (step true) Few init s → s.Quiet → s.Partitioned) ∧
    ¬ ∀ s, Reach (step false) Few init s → s.Quiet → s.Partitioned := by
  refine ⟨fun h => ?_, fun h => ?_⟩
  · obtain ⟨s, hr, hq, h₀, h₁⟩ := exists_shared true
    exact absurd ((h s hr hq).one 0 1 0 h₀ h₁) Nat.zero_ne_one
  · obtain ⟨s, hr, hq, h₀, h₁⟩ := exists_shared false
    exact absurd ((h s hr hq).one 0 1 0 h₀ h₁) Nat.zero_ne_one

end State

end MutilsTasks.FutureFreePool
