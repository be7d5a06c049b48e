import Mathlib.Data.Sum.Basic
import Mathlib.Logic.Relation
import MutilsTasks.Library.SharedPtr
import MutilsTasks.Library.Tokens
import MutilsTasks.ResourcePool.Packs

/-!
# Preference indices

The part of `pool_state` that hands out preferences: the counter
`current_max_index`, the set `recycled_indices`, the live `index_owner`s and every
`index_preference` that shares one. A new preference is a recycled index or the next
value of the counter, and it is used only below `max_resources`; the destructor of
its `index_owner` recycles it. Assigning to an `index_preference` destroys the
`index_owner` it leaves unshared, in one piece with the call of `add`.

`IndexStep` lists what happens to the indices. There are two invariants. `Owners`
relates pointers and `index_owner`s. `IndexInv` says that an index below
`max_resources` is not issued yet or in exactly one place — recycled, taken by a
thread that has not built its `index_owner`, or owned. The indices that have been
issued are tokens (`Tokens.Distinct`), and the hands are the threads and the owners.

`current_max_index` is a `size_t`. `IndexInv` holds of every state before which
fewer than `2 ^ 64` values were fetched. `preferred_full` compares `max_resources`
with `current_max_index + 1`, and that sum is `0` one fetch earlier.
-/

namespace MutilsTasks.ResourcePool

open Tokens

/-- A place that holds an `index_preference` or an `rsource`. -/
inductive Var where
  /-- A `LockedResource` of the user. -/
  | locked (h : ℕ)
  /-- A `WeakResource` of the user. -/
  | weak (w : ℕ)
  /-- The parameter `preference` of `acquire_with_preference`, in thread `u`. -/
  | param (u : ℕ)
  /-- The `LockedResource` that a call in thread `u` is to return. -/
  | result (u : ℕ)
  /-- The `LockedResource` that thread `u` is destroying. -/
  | dying (u : ℕ)
  deriving DecidableEq

/-- The counter, the recycled indices and the `index_owner`s. -/
structure Indices where
  /-- How often `current_max_index.fetch_add(1)` was called. -/
  fetchAdds : ℕ
  /-- `recycled_indices`. -/
  recycledIndices : List ℕ
  /-- The `indx` of a live `index_owner`. -/
  indexOwner : ℕ → Option ℕ
  /-- The next `index_owner`'s number. -/
  nextOwner : ℕ
  /-- Every `index_preference`. -/
  preference : SharedPtrs Var ℕ

/-- The members' initial values. -/
def Indices.init : Indices where
  fetchAdds := 0
  recycledIndices := []
  indexOwner := fun _ => none
  nextOwner := 0
  preference := .empty

namespace Indices

/-- `current_max_index`, an atomic `size_t`. -/
def currentMaxIndex (I : Indices) : ℕ := I.fetchAdds % 2 ^ 64

/-- `max_resources < (current_max_index + 1)`. -/
def indexExhausted (cfg : Config) (I : Indices) : Bool :=
  cfg.maxResources < (I.currentMaxIndex + 1) % 2 ^ 64

/-- `preferred_full`. -/
def preferredFull (cfg : Config) (I : Indices) : Bool :=
  I.indexExhausted cfg && I.recycledIndices.length == 0

/-- `current_max_index.fetch_add(1)`; it returns `currentMaxIndex`. -/
def fetchAdd (I : Indices) : Indices := { I with fetchAdds := I.fetchAdds + 1 }

/-- `recycled_indices.build_or_pop` returns an element. -/
def pop (I : Indices) (i : ℕ) : Indices :=
  { I with recycledIndices := I.recycledIndices.erase i }

/-- `recycled_indices.add`. -/
def add (I : Indices) (i : ℕ) : Indices :=
  if i ∈ I.recycledIndices then I else { I with recycledIndices := I.recycledIndices ++ [i] }

/-- `~index_owner` of owner `o`, whose `indx` is `i`. -/
def destroyOwner (I : Indices) (o i : ℕ) : Indices :=
  { I with indexOwner := Function.update I.indexOwner o none }.add i

/-- `v.index_preference = x`: the `index_owner` that was shared is destroyed if nothing
shares it any more. -/
def setPreference (I : Indices) (v : Var) (x : Option ℕ) : Indices :=
  let J := { I with preference := I.preference.assign v x }
  match I.preference.ptr v with
  | none => J
  | some o =>
    match I.indexOwner o with
    | none => J
    | some i => if J.preference.expired o then J.destroyOwner o i else J

/-- `make_shared<index_owner>`, for the parameter of `acquire_with_preference`. -/
def makeOwner (I : Indices) (u i : ℕ) : Indices :=
  { I with
    indexOwner := Function.update I.indexOwner I.nextOwner (some i)
    nextOwner := I.nextOwner + 1 }.setPreference (.param u) (some I.nextOwner)

end Indices

/-! ### Steps -/

/-- The indices that threads have taken and not built an `index_owner` for. -/
abbrev Taken := ℕ → Option ℕ

/-- **What happens to the indices next.** -/
inductive IndexStep (cfg : Config) (I : Indices) (k : Taken) : Indices → Taken → Prop
  /-- A thread fetches the counter. -/
  | fetchAdd {u : ℕ} : k u = none →
      IndexStep cfg I k I.fetchAdd (Function.update k u (some I.currentMaxIndex))
  /-- A thread is given a recycled index. -/
  | pop {u i : ℕ} : k u = none → i ∈ I.recycledIndices →
      IndexStep cfg I k (I.pop i) (Function.update k u (some i))
  /-- `my_preference < max_resources`: it builds the `index_owner`. -/
  | makeOwner {u i : ℕ} : k u = some i → i < cfg.maxResources →
      IndexStep cfg I k (I.makeOwner u i) (Function.update k u none)
  /-- It lost the race and forgets the index. -/
  | lose {u i : ℕ} : k u = some i → ¬ i < cfg.maxResources →
      IndexStep cfg I k I (Function.update k u none)
  /-- An `index_preference` is copied or cleared. -/
  | setPreference {v : Var} {x : Option ℕ} : (∀ o, x = some o → ∃ w, I.preference.ptr w = some o) →
      IndexStep cfg I k (I.setPreference v x) k

/-- Any number of steps. -/
def IndexRun (cfg : Config) : Indices × Taken → Indices × Taken → Prop :=
  Relation.ReflTransGen fun a b => IndexStep cfg a.1 a.2 b.1 b.2

/-! ### Pointers and owners -/

/-- **The owners**: an `index_preference` points to a live `index_owner`, and a live
`index_owner` is shared. -/
structure Owners (cfg : Config) (I : Indices) : Prop where
  live : ∀ v o, I.preference.ptr v = some o → ∃ i, I.indexOwner o = some i
  shared : ∀ o i, I.indexOwner o = some i → ∃ v, I.preference.ptr v = some o
  owned : ∀ o i, I.indexOwner o = some i → i < cfg.maxResources
  fresh : ∀ o, I.nextOwner ≤ o → I.indexOwner o = none

namespace Indices

variable (I : Indices) (v : Var) (x : Option ℕ) (i o : ℕ)

@[simp] theorem add_indexOwner : (I.add i).indexOwner = I.indexOwner := by
  unfold add; split <;> rfl

@[simp] theorem add_nextOwner : (I.add i).nextOwner = I.nextOwner := by
  unfold add; split <;> rfl

@[simp] theorem add_preference : (I.add i).preference = I.preference := by
  unfold add; split <;> rfl

@[simp] theorem add_fetchAdds : (I.add i).fetchAdds = I.fetchAdds := by
  unfold add; split <;> rfl

/-- `setPreference` in two parts: the pointer, and the owner it leaves. -/
theorem setPreference_cases :
    I.setPreference v x = { I with preference := I.preference.assign v x } ∧
      (∀ o i, I.preference.ptr v = some o → I.indexOwner o = some i →
        ∃ w, (I.preference.assign v x).ptr w = some o) ∨
    ∃ o i, I.preference.ptr v = some o ∧ I.indexOwner o = some i ∧
      (∀ w, (I.preference.assign v x).ptr w ≠ some o) ∧
      I.setPreference v x = { I with preference := I.preference.assign v x }.destroyOwner o i := by
  unfold setPreference
  cases hv : I.preference.ptr v with
  | none => simp
  | some o =>
    cases ho : I.indexOwner o with
    | none => exact .inl ⟨by simp only [ho], by rintro _ i ⟨⟩ h; rw [ho] at h; cases h⟩
    | some i =>
      simp only [ho]
      split
      · rename_i he
        exact .inr ⟨o, i, rfl, ho, SharedPtrs.expired_iff.mp he, rfl⟩
      · rename_i he
        refine .inl ⟨rfl, ?_⟩
        rintro _ _ ⟨⟩ -
        exact SharedPtrs.not_expired_iff.mp (by simpa using he)

/-- Nothing is destroyed if what it pointed to is shared. -/
theorem setPreference_eq (h : ∀ o, I.preference.ptr v = some o →
      ∃ w, w ≠ v ∧ I.preference.ptr w = some o) :
    I.setPreference v x = { I with preference := I.preference.assign v x } := by
  obtain ⟨h', -⟩ | ⟨o, i, hv, -, hno, -⟩ := I.setPreference_cases v x
  · exact h'
  · obtain ⟨w, hne, hw⟩ := h o hv
    exact absurd (by rw [SharedPtrs.ptr_assign_of_ne _ _ hne, hw]) (hno w)

@[simp] theorem setPreference_preference :
    (I.setPreference v x).preference = I.preference.assign v x := by
  obtain ⟨h, -⟩ | ⟨o, i, -, -, -, h⟩ := I.setPreference_cases v x <;> simp [h, destroyOwner]

@[simp] theorem setPreference_nextOwner : (I.setPreference v x).nextOwner = I.nextOwner := by
  obtain ⟨h, -⟩ | ⟨o, i, -, -, -, h⟩ := I.setPreference_cases v x <;> simp [h, destroyOwner]

@[simp] theorem setPreference_fetchAdds : (I.setPreference v x).fetchAdds = I.fetchAdds := by
  obtain ⟨h, -⟩ | ⟨o, i, -, -, -, h⟩ := I.setPreference_cases v x <;> simp [h, destroyOwner]

@[simp] theorem makeOwner_fetchAdds (u : ℕ) : (I.makeOwner u i).fetchAdds = I.fetchAdds := by
  simp [makeOwner]

end Indices

variable {cfg : Config} {I J : Indices} {k l : Taken} {i o u : ℕ}

/-- An `index_owner` is not given another index. -/
theorem IndexStep.indexOwner (h : IndexStep cfg I k J l) (ho : o < I.nextOwner) :
    o < J.nextOwner ∧ (J.indexOwner o = I.indexOwner o ∨ J.indexOwner o = none) := by
  have assign : ∀ (K : Indices) (v : Var) (x : Option ℕ),
      (K.setPreference v x).indexOwner o = K.indexOwner o ∨
        (K.setPreference v x).indexOwner o = none := by
    intro K v x
    obtain ⟨h, -⟩ | ⟨o', i, -, -, -, h⟩ := K.setPreference_cases v x
    · exact .inl (by rw [h])
    · by_cases e : o = o' <;> simp [h, Indices.destroyOwner, e]
  cases h with
  | fetchAdd | pop | lose => exact ⟨ho, .inl rfl⟩
  | setPreference => exact ⟨by simpa using ho, assign ..⟩
  | @makeOwner u i =>
    refine ⟨by simpa [Indices.makeOwner] using Nat.lt_succ_of_lt ho, ?_⟩
    have := assign { I with
      indexOwner := Function.update I.indexOwner I.nextOwner (some i)
      nextOwner := I.nextOwner + 1 } (.param u) (some I.nextOwner)
    simpa [Indices.makeOwner, Function.update_of_ne (Nat.ne_of_lt ho)] using this

namespace Owners

theorem init (cfg : Config) : Owners cfg .init := by
  constructor <;> simp [Indices.init]

/-- What `Owners` reads. -/
theorem congr (inv : Owners cfg I) (hp : J.preference = I.preference)
    (ho : J.indexOwner = I.indexOwner) (hn : J.nextOwner = I.nextOwner) : Owners cfg J := by
  obtain ⟨h1, h2, h3, h4⟩ := inv
  constructor <;> simpa only [hp, ho, hn]

/-- Assigning keeps the owners, also where the new owner is not shared yet. -/
theorem setPreference {v : Var} {x : Option ℕ} (live : ∀ v o, I.preference.ptr v = some o →
      ∃ i, I.indexOwner o = some i)
    (shared : ∀ o i, I.indexOwner o = some i → x = some o ∨ ∃ v, I.preference.ptr v = some o)
    (owned : ∀ o i, I.indexOwner o = some i → i < cfg.maxResources)
    (fresh : ∀ o, I.nextOwner ≤ o → I.indexOwner o = none)
    (hx : ∀ o, x = some o → ∃ i, I.indexOwner o = some i) : Owners cfg (I.setPreference v x) := by
  have hl : ∀ w o, (I.preference.assign v x).ptr w = some o → ∃ i, I.indexOwner o = some i := by
    intro w o h
    rw [SharedPtrs.ptr_assign] at h
    split at h
    · exact hx o h
    · exact live w o h
  have hs : ∀ o i, I.preference.ptr v ≠ some o → I.indexOwner o = some i →
      ∃ w, (I.preference.assign v x).ptr w = some o := by
    intro o i hv ho
    rcases shared o i ho with h | ⟨w, hw⟩
    · exact ⟨v, by simpa using h⟩
    · have : w ≠ v := fun e => hv (e ▸ hw)
      exact ⟨w, by simpa [this] using hw⟩
  obtain ⟨h, hv⟩ | ⟨o, i, hv, ho, he, h⟩ := I.setPreference_cases v x <;> rw [h]
  · refine ⟨hl, fun o i ho => ?_, owned, fresh⟩
    by_cases e : I.preference.ptr v = some o
    · exact hv o i e ho
    · exact hs o i e ho
  · refine ⟨fun w o' hw => ?_, fun o' j ho' => ?_, fun o' j ho' => ?_, fun o' ho' => ?_⟩
    · simp only [Indices.destroyOwner, Indices.add_preference, Indices.add_indexOwner] at hw ⊢
      have : o' ≠ o := fun e => he w (e ▸ hw)
      rw [Function.update_of_ne this]
      exact hl w o' hw
    · simp only [Indices.destroyOwner, Indices.add_preference, Indices.add_indexOwner,
        Function.update_apply] at ho' ⊢
      split at ho'
      · cases ho'
      · rename_i hne
        exact hs o' j (fun e => hne (Option.some.inj (e.symm.trans hv))) ho'
    · simp only [Indices.destroyOwner, Indices.add_indexOwner, Function.update_apply] at ho'
      split at ho'
      · cases ho'
      · exact owned o' j ho'
    · simp only [Indices.destroyOwner, Indices.add_indexOwner, Indices.add_nextOwner,
        Function.update_apply] at ho' ⊢
      split
      · rfl
      · exact fresh o' ho'

theorem makeOwner (inv : Owners cfg I) (u : ℕ) (hi : i < cfg.maxResources) :
    Owners cfg (I.makeOwner u i) := by
  refine setPreference (fun v o h => ?_) (fun o j h => ?_) (fun o j h => ?_) (fun o h => ?_)
    fun o h => ?_
  · obtain ⟨j, hj⟩ := inv.live v o h
    have : o ≠ I.nextOwner := fun e => by simp [inv.fresh o (Nat.le_of_eq e.symm)] at hj
    exact ⟨j, by simpa [this] using hj⟩
  · simp only [Function.update_apply] at h
    split at h
    · rename_i e
      exact .inl (by rw [e])
    · exact .inr (inv.shared o j h)
  · simp only [Function.update_apply] at h
    split at h
    · cases h
      exact hi
    · exact inv.owned o j h
  · have hlt : I.nextOwner < o := h
    simp only [Function.update_of_ne (Nat.ne_of_gt hlt)]
    exact inv.fresh o (Nat.le_of_lt hlt)
  · cases h
    exact ⟨i, by simp⟩

/-- Every step keeps the owners. -/
theorem step (inv : Owners cfg I) (h : IndexStep cfg I k J l) : Owners cfg J := by
  cases h with
  | fetchAdd | pop => exact inv.congr rfl rfl rfl
  | makeOwner hu hi => exact inv.makeOwner _ hi
  | lose => exact inv
  | setPreference hx =>
    refine setPreference inv.live (fun o i h => .inr (inv.shared o i h)) inv.owned inv.fresh ?_
    intro o ho
    obtain ⟨w, hw⟩ := hx o ho
    exact inv.live w o hw

theorem run {a b : Indices × Taken} (inv : Owners cfg a.1) (h : IndexRun cfg a b) :
    Owners cfg b.1 := by
  induction h with
  | refl => exact inv
  | tail _ hs ih => exact ih.step hs

/-- The `indx` of an `index_owner` is constant. -/
theorem indexOwner_run {a b : Indices × Taken} (inv : Owners cfg a.1) (h : IndexRun cfg a b)
    {o i : ℕ} (ho : a.1.indexOwner o = some i) :
    b.1.indexOwner o = some i ∨ b.1.indexOwner o = none := by
  have hlt : o < a.1.nextOwner := by
    by_contra hle
    rw [inv.fresh o (Nat.le_of_not_lt hle)] at ho
    cases ho
  have : o < b.1.nextOwner ∧ (b.1.indexOwner o = some i ∨ b.1.indexOwner o = none) := by
    induction h with
    | refl => exact ⟨hlt, .inl ho⟩
    | tail _ hs ih =>
      obtain ⟨hlt', h⟩ := hs.indexOwner ih.1
      refine ⟨hlt', ?_⟩
      rcases h with h | h
      · rw [h]
        exact ih.2
      · exact .inr h
  exact this.2

end Owners

/-! ### The invariant -/

/-- The hands that may hold an index: threads and `index_owner`s. -/
def Indices.hand (I : Indices) (k : Taken) : ℕ ⊕ ℕ → Option ℕ := Sum.elim k I.indexOwner

/-- An index that was issued and not lost is somewhere. -/
def Indices.Somewhere (I : Indices) (k : Taken) (i : ℕ) : Prop :=
  Tokens.Somewhere I.recycledIndices (I.hand k) i

/-- **The invariant of the indices.** -/
structure IndexInv (cfg : Config) (I : Indices) (k : Taken) : Prop where
  distinct : Distinct I.recycledIndices (I.hand k)
  issued : ∀ i, i < cfg.maxResources → (I.Somewhere k i ↔ i < I.fetchAdds)
  below : ∀ i, I.Somewhere k i → i < I.fetchAdds
  recycled : ∀ i ∈ I.recycledIndices, i < cfg.maxResources

theorem IndexStep.fetchAdds_le (h : IndexStep cfg I k J l) : I.fetchAdds ≤ J.fetchAdds := by
  cases h with
  | fetchAdd => exact Nat.le_succ _
  | makeOwner | setPreference => simp [Indices.makeOwner]
  | _ => exact Nat.le_refl _

theorem IndexRun.fetchAdds_le {a b : Indices × Taken} (h : IndexRun cfg a b) :
    a.1.fetchAdds ≤ b.1.fetchAdds := by
  induction h with
  | refl => exact Nat.le_refl _
  | tail _ hs ih => exact Nat.le_trans ih hs.fetchAdds_le

namespace IndexInv

theorem init (cfg : Config) : IndexInv cfg .init fun _ => none := by
  have hh : ∀ u, Indices.init.hand (fun _ => none) u = none := by
    rintro (u | o) <;> rfl
  have hS : ∀ i, ¬ Indices.init.Somewhere (fun _ => none) i := by
    rintro i (h | ⟨u, h⟩)
    · cases h
    · simp [hh] at h
  refine ⟨⟨List.nodup_nil, ?_, ?_⟩, fun i _ => ?_, fun i hi => absurd hi (hS i), ?_⟩
  · simp [hh]
  · simp [hh]
  · exact ⟨fun h => absurd h (hS i), fun h => absurd h (Nat.not_lt_zero i)⟩
  · simp [Indices.init]

/-- A thread takes an index; the owners stay. -/
theorem hand_update (I : Indices) (k : Taken) (u : ℕ) (x : Option ℕ) :
    I.hand (Function.update k u x) = Function.update (I.hand k) (.inl u) x :=
  Sum.update_elim_inl.symm

theorem fetchAdd (inv : IndexInv cfg I k) (hI : I.fetchAdds < 2 ^ 64) (hu : k u = none) :
    IndexInv cfg I.fetchAdd (Function.update k u (some I.currentMaxIndex)) := by
  have hc : I.currentMaxIndex = I.fetchAdds := Nat.mod_eq_of_lt hI
  have hn : ¬ Tokens.Somewhere I.recycledIndices (I.hand k) I.fetchAdds :=
    fun h => Nat.lt_irrefl _ (inv.below _ h)
  have hS : ∀ j, I.fetchAdd.Somewhere (Function.update k u (some I.currentMaxIndex)) j ↔
      j = I.fetchAdds ∨ I.Somewhere k j := by
    intro j
    rw [Indices.Somewhere, hand_update, hc]
    exact Distinct.somewhere_make (by simpa [Indices.hand] using hu)
  refine ⟨?_, fun j hj => ?_, fun j hj => ?_, inv.recycled⟩
  · rw [hand_update, hc]
    exact inv.distinct.make hn
  · rw [hS, inv.issued j hj]
    exact (Nat.lt_succ_iff_lt_or_eq.trans or_comm).symm
  · rw [Indices.fetchAdd]
    rcases (hS j).mp hj with rfl | hj
    · exact Nat.lt_succ_self _
    · exact Nat.lt_succ_of_lt (inv.below j hj)

theorem pop (inv : IndexInv cfg I k) (hu : k u = none) (hi : i ∈ I.recycledIndices) :
    IndexInv cfg (I.pop i) (Function.update k u (some i)) := by
  have he : I.hand k (.inl u) = none := by simpa [Indices.hand] using hu
  have hS : ∀ j, (I.pop i).Somewhere (Function.update k u (some i)) j ↔ I.Somewhere k j := by
    intro j
    rw [Indices.Somewhere, hand_update]
    exact inv.distinct.somewhere_take he hi
  refine ⟨?_, fun j hj => ?_, fun j hj => ?_, fun j hj => ?_⟩
  · rw [hand_update]
    exact inv.distinct.take he hi
  · rw [hS]
    exact inv.issued j hj
  · exact inv.below j ((hS j).mp hj)
  · exact inv.recycled j (List.mem_of_mem_erase hj)

/-- The index passes from the thread's hand to a new owner's. -/
theorem allocate (inv : IndexInv cfg I k) (own : Owners cfg I) (hu : k u = some i) :
    IndexInv cfg { I with
      indexOwner := Function.update I.indexOwner I.nextOwner (some i)
      nextOwner := I.nextOwner + 1 } (Function.update k u none) := by
  have he : I.hand k (.inl u) = some i := by simpa [Indices.hand] using hu
  have hn : I.hand k (.inr I.nextOwner) = none := by
    simpa [Indices.hand] using own.fresh _ (Nat.le_refl _)
  have hh : Sum.elim (Function.update k u none)
      (Function.update I.indexOwner I.nextOwner (some i)) =
      Function.update (Function.update (I.hand k) (.inl u) none) (.inr I.nextOwner) (some i) := by
    rw [Indices.hand, Sum.update_elim_inl, Sum.update_elim_inr]
  have hd : ¬ Tokens.Somewhere I.recycledIndices
      (Function.update (I.hand k) (.inl u) none) i := by
    rw [inv.distinct.somewhere_drop he]
    exact fun h => h.1 rfl
  have hS : ∀ j, Tokens.Somewhere I.recycledIndices (Sum.elim (Function.update k u none)
      (Function.update I.indexOwner I.nextOwner (some i))) j ↔ I.Somewhere k j := by
    intro j
    rw [hh]
    refine (Distinct.somewhere_make (by simpa using hn)).trans ?_
    refine (or_congr_right (inv.distinct.somewhere_drop he)).trans ?_
    by_cases e : j = i
    · have hi : I.Somewhere k i := .inr ⟨_, he⟩
      simp [e, hi]
    · simp [e, Indices.Somewhere]
  refine ⟨?_, fun j hj => ?_, fun j hj => ?_, inv.recycled⟩
  · simp only [Indices.hand, hh]
    exact (inv.distinct.drop _).make hd
  · exact (hS j).trans (inv.issued j hj)
  · exact inv.below j ((hS j).mp hj)

theorem lose (inv : IndexInv cfg I k) (hu : k u = some i) (hi : ¬ i < cfg.maxResources) :
    IndexInv cfg I (Function.update k u none) := by
  have he : I.hand k (.inl u) = some i := by simpa [Indices.hand] using hu
  have hS : ∀ j, I.Somewhere (Function.update k u none) j ↔ j ≠ i ∧ I.Somewhere k j := by
    intro j
    rw [Indices.Somewhere, hand_update]
    exact inv.distinct.somewhere_drop he
  refine ⟨?_, fun j hj => ?_, fun j hj => ?_, inv.recycled⟩
  · rw [hand_update]
    exact inv.distinct.drop _
  · rw [hS, inv.issued j hj]
    exact and_iff_right (by rintro rfl; exact hi hj)
  · exact inv.below j ((hS j).mp hj).2

/-- What `IndexInv` reads. -/
theorem congr (inv : IndexInv cfg I k) (hf : J.fetchAdds = I.fetchAdds)
    (hr : J.recycledIndices = I.recycledIndices) (ho : J.indexOwner = I.indexOwner) :
    IndexInv cfg J k := by
  obtain ⟨h1, h2, h3, h4⟩ := inv
  constructor <;> simpa only [Indices.Somewhere, Indices.hand, hf, hr, ho]

/-- `~index_owner` recycles an index that is not in the set. -/
theorem destroyOwner_eq (inv : IndexInv cfg I k) (ho : I.indexOwner o = some i) :
    I.destroyOwner o i =
      { I with
        indexOwner := Function.update I.indexOwner o none
        recycledIndices := I.recycledIndices ++ [i] } := by
  have : i ∉ I.recycledIndices := inv.distinct.apart (.inr o) i (by simpa [Indices.hand] using ho)
  simp [Indices.destroyOwner, Indices.add, this]

theorem destroyOwner (inv : IndexInv cfg I k) (ho : I.indexOwner o = some i)
    (hi : i < cfg.maxResources) : IndexInv cfg (I.destroyOwner o i) k := by
  have he : I.hand k (.inr o) = some i := by simpa [Indices.hand] using ho
  rw [inv.destroyOwner_eq ho]
  have hh : Sum.elim k (Function.update I.indexOwner o none) =
      Function.update (I.hand k) (.inr o) none := Sum.update_elim_inr.symm
  have hS : ∀ j, Tokens.Somewhere (I.recycledIndices ++ [i])
      (Sum.elim k (Function.update I.indexOwner o none)) j ↔ I.Somewhere k j := by
    intro j
    rw [hh]
    exact inv.distinct.somewhere_put he
  refine ⟨?_, fun j hj => ?_, fun j hj => ?_, fun j hj => ?_⟩
  · simp only [Indices.hand, hh]
    exact inv.distinct.put he
  · exact (hS j).trans (inv.issued j hj)
  · exact inv.below j ((hS j).mp hj)
  · rcases List.mem_append.mp hj with hj | hj
    · exact inv.recycled j hj
    · rw [List.mem_singleton.mp hj]
      exact hi

theorem setPreference (inv : IndexInv cfg I k)
    (owned : ∀ o i, I.indexOwner o = some i → i < cfg.maxResources) (v : Var) (x : Option ℕ) :
    IndexInv cfg (I.setPreference v x) k := by
  have inv' : IndexInv cfg { I with preference := I.preference.assign v x } k :=
    inv.congr rfl rfl rfl
  obtain ⟨h, -⟩ | ⟨o, i, -, ho, -, h⟩ := I.setPreference_cases v x <;> rw [h]
  · exact inv'
  · exact inv'.destroyOwner ho (owned o i ho)

theorem makeOwner (inv : IndexInv cfg I k) (own : Owners cfg I) (hu : k u = some i)
    (hi : i < cfg.maxResources) : IndexInv cfg (I.makeOwner u i) (Function.update k u none) := by
  refine (inv.allocate own hu).setPreference (fun o j h => ?_) _ _
  simp only [Function.update_apply] at h
  split at h
  · cases h
    exact hi
  · exact own.owned o j h

/-- **Every step keeps the invariant**, while the counter has not wrapped. -/
theorem step (inv : IndexInv cfg I k) (own : Owners cfg I) (hI : J.fetchAdds < 2 ^ 64)
    (h : IndexStep cfg I k J l) : IndexInv cfg J l := by
  cases h with
  | fetchAdd hu => exact inv.fetchAdd (Nat.lt_of_succ_lt hI) hu
  | pop hu hi => exact inv.pop hu hi
  | makeOwner hu hi => exact inv.makeOwner own hu hi
  | lose hu hi => exact inv.lose hu hi
  | setPreference => exact inv.setPreference own.owned _ _

theorem run {a b : Indices × Taken} (inv : IndexInv cfg a.1 a.2) (own : Owners cfg a.1)
    (hb : b.1.fetchAdds < 2 ^ 64) (h : IndexRun cfg a b) : IndexInv cfg b.1 b.2 := by
  induction h with
  | refl => exact inv
  | tail hr hs ih =>
    exact (ih (Nat.lt_of_le_of_lt hs.fetchAdds_le hb)).step (own.run hr) hb hs

/-! ### What it says -/

/-- Every issued index below `max_resources` is owned, when nothing is recycled or
taken. -/
theorem owned_of_issued (inv : IndexInv cfg I k) (hk : ∀ u, k u = none)
    (hr : I.recycledIndices = []) (hi : i < cfg.maxResources) (hlt : i < I.fetchAdds) :
    ∃ o, I.indexOwner o = some i := by
  rcases (inv.issued i hi).mpr hlt with h | ⟨u | o, h⟩
  · rw [hr] at h
    cases h
  · simp [Indices.hand, hk] at h
  · exact ⟨o, by simpa [Indices.hand] using h⟩

/-- **`preferred_full`**, when no thread has taken an index: it says that every index
is owned. -/
theorem preferredFull_iff (inv : IndexInv cfg I k) (hk : ∀ u, k u = none)
    (hI : I.fetchAdds + 1 < 2 ^ 64) :
    I.preferredFull cfg = true ↔ ∀ i < cfg.maxResources, ∃ o, I.indexOwner o = some i := by
  have hc : (I.currentMaxIndex + 1) % 2 ^ 64 = I.fetchAdds + 1 := by
    rw [Indices.currentMaxIndex, Nat.mod_eq_of_lt (Nat.lt_of_succ_lt hI), Nat.mod_eq_of_lt hI]
  rw [Indices.preferredFull, Indices.indexExhausted, hc, Bool.and_eq_true, decide_eq_true_eq,
    beq_iff_eq, List.length_eq_zero_iff]
  constructor
  · rintro ⟨h, hr⟩ i hi
    exact inv.owned_of_issued hk hr hi (by omega)
  · intro h
    refine ⟨?_, ?_⟩
    · by_contra hlt
      obtain ⟨o, ho⟩ := h I.fetchAdds (by omega)
      exact Nat.lt_irrefl _ (inv.below _ (.inr ⟨.inr o, by simpa [Indices.hand] using ho⟩))
    · rw [List.eq_nil_iff_forall_not_mem]
      intro i hi
      obtain ⟨o, ho⟩ := h i (inv.recycled i hi)
      exact inv.distinct.apart (.inr o) i (by simpa [Indices.hand] using ho) hi

end IndexInv

/-! ### What is issued is kept -/

/-- **Every index below `max_resources` that was issued is somewhere**, also when the counter has
wrapped. -/
def Indices.Kept (cfg : Config) (I : Indices) (k : Taken) : Prop :=
  ∀ i < cfg.maxResources, i < I.fetchAdds → I.Somewhere k i

namespace Indices.Somewhere

/-- What an index may be in. -/
theorem cases (h : I.Somewhere k i) :
    i ∈ I.recycledIndices ∨ (∃ u, k u = some i) ∨ ∃ o, I.indexOwner o = some i := by
  rcases h with h | ⟨u | o, h⟩
  · exact .inl h
  · exact .inr (.inl ⟨u, h⟩)
  · exact .inr (.inr ⟨o, h⟩)

theorem of_recycled (h : i ∈ I.recycledIndices) : I.Somewhere k i := .of_mem h

theorem of_taken (h : k u = some i) : I.Somewhere k i := .inr ⟨.inl u, h⟩

theorem of_owner (h : I.indexOwner o = some i) : I.Somewhere k i := .inr ⟨.inr o, h⟩

/-- A thread that has none takes an index. -/
theorem take {j : ℕ} (h : I.Somewhere k i) (hu : k u = none) :
    I.Somewhere (Function.update k u (some j)) i := by
  rcases h.cases with h | ⟨v, h⟩ | ⟨o, h⟩
  · exact of_recycled h
  · have hv : v ≠ u := by
      rintro rfl
      rw [hu] at h
      cases h
    exact of_taken (u := v) (by rw [Function.update_of_ne hv, h])
  · exact of_owner h

/-- A thread gives up another one. -/
theorem drop {j : ℕ} (h : I.Somewhere k i) (hu : k u = some j) (hj : i ≠ j) :
    I.Somewhere (Function.update k u none) i := by
  rcases h.cases with h | ⟨v, h⟩ | ⟨o, h⟩
  · exact of_recycled h
  · have hv : v ≠ u := by
      rintro rfl
      rw [hu] at h
      exact hj (Option.some.inj h).symm
    exact of_taken (u := v) (by rw [Function.update_of_ne hv, h])
  · exact of_owner h

/-- The index of an `index_owner` that is destroyed is recycled. -/
theorem setPreference (h : I.Somewhere k i) (v : Var) (x : Option ℕ) :
    (I.setPreference v x).Somewhere k i := by
  obtain ⟨e, -⟩ | ⟨o, j, -, ho, -, e⟩ := I.setPreference_cases v x <;> rw [e]
  · exact h
  have hadd : ∀ l ∈ I.recycledIndices,
      l ∈ ({ I with preference := I.preference.assign v x }.destroyOwner o j).recycledIndices := by
    intro l hl
    rw [Indices.destroyOwner, Indices.add]
    split
    · exact hl
    · exact List.mem_append_left _ hl
  rcases h.cases with h | ⟨u, h⟩ | ⟨o', h⟩
  · exact of_recycled (hadd i h)
  · exact of_taken h
  · by_cases eo : o' = o
    · obtain rfl : i = j := by
        rw [eo, ho] at h
        exact (Option.some.inj h).symm
      refine of_recycled ?_
      rw [Indices.destroyOwner, Indices.add]
      split
      · assumption
      · exact List.mem_append_right _ (List.mem_singleton_self _)
    · exact of_owner (o := o') (by simp [Indices.destroyOwner, eo, h])

/-- Only an index that is not below `max_resources` is lost. -/
theorem step (h : I.Somewhere k i) (own : Owners cfg I) (hi : i < cfg.maxResources)
    (hs : IndexStep cfg I k J l) : J.Somewhere l i := by
  cases hs with
  | fetchAdd hu => exact Somewhere.take (I := I) h hu
  | @pop u j hu hj =>
    by_cases e : i = j
    · exact of_taken (u := u) (by rw [Function.update_self, e])
    · rcases (h.take (j := j) hu).cases with h | ⟨v, h⟩ | ⟨o, h⟩
      · exact of_recycled ((List.mem_erase_of_ne e).mpr h)
      · exact of_taken h
      · exact of_owner h
  | @makeOwner u j hu hj =>
    refine Somewhere.setPreference ?_ _ _
    by_cases e : i = j
    · exact of_owner (o := I.nextOwner) (by simp [e])
    · rcases (h.drop hu e).cases with h | ⟨v, h⟩ | ⟨o, h⟩
      · exact of_recycled h
      · exact of_taken h
      · have ho : o ≠ I.nextOwner := by
          rintro rfl
          rw [own.fresh _ (Nat.le_refl _)] at h
          cases h
        exact of_owner (o := o) (by simp [ho, h])
  | lose hu hj => exact h.drop hu fun e => hj (e ▸ hi)
  | setPreference => exact h.setPreference _ _

end Indices.Somewhere

namespace Indices.Kept

/-- **Every step keeps them.** -/
theorem step (h : I.Kept cfg k) (own : Owners cfg I) (hs : IndexStep cfg I k J l) : J.Kept cfg l := by
  intro i hi hlt
  by_cases hlt' : i < I.fetchAdds
  · exact (h i hi hlt').step own hi hs
  · cases hs with
    | @fetchAdd u hu =>
      -- the index that has just been issued
      obtain rfl : i = I.fetchAdds := Nat.le_antisymm (Nat.le_of_lt_succ hlt) (Nat.le_of_not_lt hlt')
      have hc : I.currentMaxIndex = I.fetchAdds := by
        have := cfg.maxResources_lt
        exact Nat.mod_eq_of_lt (by omega)
      exact .of_taken (u := u) (by rw [Function.update_self, hc])
    | makeOwner | setPreference => exact absurd hlt (by simpa using hlt')
    | _ => exact absurd hlt hlt'

theorem run {a b : Indices × Taken} (h : a.1.Kept cfg a.2) (own : Owners cfg a.1)
    (hr : IndexRun cfg a b) : b.1.Kept cfg b.2 := by
  induction hr with
  | refl => exact h
  | tail hr hs ih => exact ih.step (own.run hr) hs

end Indices.Kept

end MutilsTasks.ResourcePool
