import MutilsTasks.ResourcePool.Capacity

/-!
# The attempts of a call

A call tries packs until one is lent to it: the preferred one, if there is one, and then
what the queue hands out, for as long as `borrow` throws a `ResourceInvalidException`.
When the queue has nothing more, it makes an `overdrawn` or waits.

The functions below list the attempts, each with the frame in which it is made; they
follow the functions of the pool branch by branch. `Serves` ties the list to what the
call does, and what an attempt leaves to the next is shown by induction on it.
-/

namespace MutilsTasks.ResourcePool

open Packs

variable {V A E : Type} {cfg : Config} {env : Env V A E}

/-- How a call ends whose last function ends so. -/
def Outcome.void {α : Type} : Outcome E α → Outcome E Unit
  | .returned _ => .returned ()
  | .threw x => .threw x
  | .blocked => .blocked
  | .aborted => .aborted

/-- A call of `borrow`. -/
structure Attempt (V A E : Type) where
  /-- Of which pack. -/
  pack : PackId
  /-- What the call has come to. -/
  frame : Frame V A E

/-- The pack lends its object. -/
def Attempt.Lends (env : Env V A E) (b : Attempt V A E) : Prop :=
  ∃ r, (b.frame.borrow env b.pack).1 = .returned r

/-- `onAcquire` throws, on the pack's object. -/
def Attempt.HookThrows (env : Env V A E) (b : Attempt V A E) : Prop :=
  ∃ g t x, b.frame.initializeIfNeeded env b.pack = (.ok (), g) ∧
    (g.packs.pack b.pack).resource = some t ∧ env.onAcquire g.calls g.args (g.heap t) = .error x

/-- `onAcquire` throws, as call `n` of the user's code, on the pack's object, of value `v`. -/
def Attempt.HookThrowsOn (env : Env V A E) (b : Attempt V A E) (n : ℕ) (v : V) : Prop :=
  ∃ g t x, b.frame.initializeIfNeeded env b.pack = (.ok (), g) ∧
    (g.packs.pack b.pack).resource = some t ∧ g.calls = n ∧ g.heap t = v ∧
      env.onAcquire n g.args v = .error x

namespace Frame

/-! ### The lists -/

/-- Of the first loop of `acquire_no_preference`, with `n` elements in the queue. -/
def loopAttempts (env : Env V A E) : ℕ → Frame V A E → List (Attempt V A E)
  | 0, _ => []
  | n + 1, f =>
    match choose (env.pick f.calls) f.packs.freeResources with
    | none => []
    | some cand =>
      ⟨cand, f.take cand⟩ ::
        match (f.take cand).borrow env cand with
        | (.threw .resourceInvalid, g) => loopAttempts env n g
        | _ => []

/-- Of `acquire_no_preference`. -/
def noPreferenceAttempts (env : Env V A E) (f : Frame V A E) : List (Attempt V A E) :=
  f.loopAttempts env f.packs.freeResources.length

/-- Of `acquire_with_preference`, where `preference->indx` is `indx`. -/
def withPreferenceAttempts (cfg : Config) (env : Env V A E) (f : Frame V A E) (indx : ℕ) :
    List (Attempt V A E) :=
  if indx < cfg.maxResources then
    ⟨.preferred indx, f⟩ ::
      match f.borrow env (.preferred indx) with
      | (.threw .resourceInvalid, g) => g.noPreferenceAttempts env
      | _ => []
  else []

/-- Of `acquire_new_preference`. -/
def newPreferenceAttempts (cfg : Config) (env : Env V A E) (f : Frame V A E) :
    List (Attempt V A E) :=
  if f.pool.indices.preferredFull cfg then f.noPreferenceAttempts env
  else
    let (i, g) := f.takeIndex env
    if i < cfg.maxResources then
      (g.setIndices (g.pool.indices.makeOwner 0 i)).withPreferenceAttempts cfg env i
    else g.noPreferenceAttempts env

end Frame

/-- Of a call. -/
def Session.attempts (cfg : Config) (env : Env V A E) (s : Session V) :
    Op V A → List (Attempt V A E)
  | .acquire _ a => (s.enter a).newPreferenceAttempts cfg env
  | .lock w _ a =>
    match s.pool.weak w with
    | some x =>
      match s.pool.lockable x with
      | some _ => []
      | none =>
        let S := s.pool.setWeak w (some { x with locker := some 0 })
        match s.pool.preference (.weak w) with
        | some o =>
          match s.pool.indices.indexOwner o with
          | some i =>
            ((s.setPool (S.setPreference (.param 0) (some o))).enter a).withPreferenceAttempts cfg env i
          | none => []
        | none => ((s.setPool S).enter a).newPreferenceAttempts cfg env
    | none => []
  | _ => []

namespace Frame

variable {f g : Frame V A E}

/-! ### What the call does -/

/-- What a call does besides borrowing and building: it takes an index, dequeues, and
holds its result. -/
structure Aside (f g : Frame V A E) : Prop where
  pack : g.packs.pack = f.packs.pack
  rental : g.packs.rental = f.packs.rental
  nextRental : g.packs.nextRental = f.packs.nextRental
  builds : g.packs.builds = f.packs.builds
  lost : g.packs.lost = f.packs.lost
  owner : ∀ i, (g.packs.preferred i).whoOwnsMe = (f.packs.preferred i).whoOwnsMe
  args : g.args = f.args
  log : g.log = f.log

theorem Aside.of_packs (hp : g.packs = f.packs) (ha : g.args = f.args) (hl : g.log = f.log) :
    f.Aside g :=
  ⟨by rw [hp], by rw [hp], by rw [hp], by rw [hp], by rw [hp], fun i => by rw [hp], ha, hl⟩

theorem aside_take (f : Frame V A E) (p : PackId) : f.Aside (f.take p) := by
  cases p with
  | spare j => exact ⟨rfl, rfl, rfl, rfl, rfl, fun _ => rfl, rfl, rfl⟩
  | preferred i =>
    refine ⟨rfl, rfl, rfl, rfl, rfl, fun j => ?_, rfl, rfl⟩
    by_cases h : j = i
    · subst h
      simp [take, setPacks, packs, removeFromFreeList, dequeue, setPreferred]
    · simp [take, setPacks, packs, removeFromFreeList, dequeue, setPreferred, h]

theorem TakesIndex.aside {i : ℕ} (h : f.TakesIndex i g) : f.Aside g := by
  cases h with
  | pop _ hg | fetchAdd _ _ hg =>
    rw [hg]
    exact .of_packs rfl rfl rfl

/-- **The rest of a call**: it makes the attempts `bs`, and ends with `o` in the last
frame. -/
inductive Serves (env : Env V A E) :
    Frame V A E → List (Attempt V A E) → Outcome E Unit → Frame V A E → Prop
  /-- An attempt ends it. -/
  | ends {f g : Frame V A E} {p : PackId} {o : Outcome E ℕ} : f.borrow env p = (o, g) →
      o ≠ .threw .resourceInvalid → Serves env f [⟨p, f⟩] o.void g
  /-- An attempt fails, and it goes on. -/
  | fails {f g k : Frame V A E} {p : PackId} {bs : List (Attempt V A E)} {o : Outcome E Unit} :
      f.borrow env p = (.threw .resourceInvalid, g) → Serves env g bs o k →
      Serves env f (⟨p, f⟩ :: bs) o k
  /-- It makes an `overdrawn`. -/
  | overdraws {f g : Frame V A E} {o : Outcome E ℕ} : f.overdrawing.makeOverdrawn env = (o, g) →
      Serves env f [] o.void g
  /-- It waits. -/
  | waits {f : Frame V A E} : Serves env f [] .blocked f.overdrawing
  /-- `at` is out of range. -/
  | outOfRange {f : Frame V A E} : Serves env f [] .aborted f
  /-- It does something else first. -/
  | first {f g k : Frame V A E} {bs : List (Attempt V A E)} {o : Outcome E Unit} : f.Aside g →
      Serves env g bs o k → Serves env f bs o k
  /-- It does something else last. -/
  | last {f g k : Frame V A E} {bs : List (Attempt V A E)} {o : Outcome E Unit} :
      Serves env f bs o g → g.Aside k → Serves env f bs o k

/-- What comes after the loop of `acquire_no_preference` makes no attempts. -/
theorem serves_loop {n : ℕ} {o : Outcome E (Option ℕ)} (hn : f.packs.freeResources.length = n)
    (h : f.tryDequeueLoop env n = (o, g)) :
    (o ≠ .returned none → Serves env f (f.loopAttempts env n) o.void g) ∧
    (o = .returned none → ∀ o' k, Serves env g [] o' k →
      Serves env f (f.loopAttempts env n) o' k) := by
  induction n generalizing f with
  | zero =>
    cases h
    exact ⟨fun hne => absurd rfl hne, fun _ _ _ hs => hs⟩
  | succ n ih =>
    unfold tryDequeueLoop at h
    unfold loopAttempts
    cases hc : choose (env.pick f.calls) f.packs.freeResources with
    | none => simp [choose_eq_none.mp hc] at hn
    | some p =>
      have hp := mem_of_choose hc
      have ht := f.aside_take p
      simp only [hc] at h ⊢
      cases hb : (f.take p).borrow env p with
      | mk b k =>
        have hb' : ({ f with calls := f.calls + 1 }.setPacks
            ((f.packs.dequeue p).removeFromFreeList p)).borrow env p = (b, k) := hb
        rw [hb'] at h
        obtain r | (_ | e) | _ | _ := b
        case threw.resourceInvalid =>
          have hk : k.packs.freeResources.length = n := by
            rw [(borrow_spec hb).freeResources, take_freeResources, List.length_erase_of_mem hp, hn]
            rfl
          obtain ⟨hne, he⟩ := ih hk h
          exact ⟨fun ho => .first ht (.fails hb (hne ho)),
            fun ho o' l hs => .first ht (.fails hb (he ho o' l hs))⟩
        all_goals
          cases h
          exact ⟨fun _ => .first ht (.ends hb (by simp)), by simp⟩

theorem serves_noPreference {o : Outcome E Unit} (h : f.acquireNoPreference cfg env = (o, g)) :
    Serves env f (f.noPreferenceAttempts env) o g := by
  unfold acquireNoPreference at h
  cases hd : f.tryDequeueLoop env f.packs.freeResources.length with
  | mk b k =>
    obtain ⟨hne, he⟩ := serves_loop rfl hd
    rw [hd] at h
    obtain (_ | r) | x | _ | _ := b
    · simp only at h
      split at h
      · cases hm : k.overdrawing.makeOverdrawn env with
        | mk b l =>
          have hm' : ({ k with log := k.log ++ [.overdraw k.packs] } : Frame V A E).makeOverdrawn env =
            (b, l) := hm
          have hs := he rfl _ _ (.overdraws hm)
          rw [hm'] at h
          obtain r | x | _ | _ := b <;> cases h
          · exact .last hs (.of_packs rfl rfl rfl)
          all_goals exact hs
      · cases h
        exact he rfl _ _ .waits
    · cases h
      exact .last (hne (by simp)) (.of_packs rfl rfl rfl)
    · cases h
      exact hne (by simp)
    · cases h
      exact hne (by simp)
    · cases h
      exact hne (by simp)

theorem serves_withPreference {o : Outcome E Unit} {i : ℕ}
    (h : f.acquireWithPreference cfg env i = (o, g)) :
    Serves env f (f.withPreferenceAttempts cfg env i) o g := by
  unfold acquireWithPreference at h
  unfold withPreferenceAttempts
  split at h
  · rename_i hi
    rw [if_pos hi]
    cases hb : f.borrow env (.preferred i) with
    | mk b k =>
      rw [hb] at h
      obtain r | (_ | e) | _ | _ := b
      case returned =>
        cases h
        exact .last (.ends hb (by simp)) (.of_packs rfl rfl rfl)
      case threw.resourceInvalid => exact .fails hb (serves_noPreference h)
      all_goals
        cases h
        exact .ends hb (by simp)
  · rename_i hi
    rw [if_neg hi]
    cases h
    exact .outOfRange

theorem serves_newPreference {o : Outcome E Unit} (h : f.acquireNewPreference cfg env = (o, g)) :
    Serves env f (f.newPreferenceAttempts cfg env) o g := by
  unfold acquireNewPreference at h
  unfold newPreferenceAttempts
  split at h
  · rename_i hf
    rw [if_pos hf]
    exact serves_noPreference h
  · rename_i hf
    rw [if_neg hf]
    cases ht : f.takeIndex env with
    | mk i k =>
      have hk := (takesIndex_spec ht).aside
      rw [ht] at h
      simp only at h ⊢
      split at h
      · rename_i hi
        rw [if_pos hi]
        refine .first hk (.first ?_ (serves_withPreference h))
        exact .of_packs rfl rfl rfl
      · rename_i hi
        rw [if_neg hi]
        exact .first hk (serves_noPreference h)

end Frame

/-! ### Calls -/

/-- The arguments of a call. -/
def Op.arguments : Op V A → Option A
  | .acquire _ a | .lock _ _ a => some a
  | _ => none

namespace Session

variable {s : Session V} {op : Op V A} {R : Result V A E}

/-- **A call makes its attempts**, if it leads into the pool. -/
theorem serves (hp : s.perform cfg env op = some R) :
    (s.attempts cfg env op = [] ∧ (s.AsksPool op → R.outcome = .aborted)) ∨
    ∃ h c o f f₀, R = finish h c (o, f) ∧ f₀.packs = s.pool.packs ∧ f₀.log = [] ∧
      op.arguments = some f₀.args ∧ Frame.Serves env f₀ (s.attempts cfg env op) o f := by
  cases op with
  | acquire h a =>
    simp only [perform, Option.ite_none_right_eq_some, Option.some.injEq] at hp
    obtain ⟨-, rfl⟩ := hp
    exact .inr ⟨h, .acquire, _, _, s.enter a, rfl, rfl, rfl, rfl, Frame.serves_newPreference rfl⟩
  | lock w h a =>
    simp only [perform] at hp
    split at hp
    · rename_i x hx
      simp only [Option.ite_none_right_eq_some, Option.some.injEq] at hp
      obtain ⟨-, rfl⟩ := hp
      cases hl : s.pool.lockable x with
      | some r => exact .inl ⟨by simp [attempts, hx, hl], by simp [AsksPool, hx, hl]⟩
      | none =>
        cases ho : s.pool.preference (.weak w) with
        | some o =>
          cases hi : s.pool.indices.indexOwner o with
          | some i =>
            let S := (s.pool.setWeak w (some { x with locker := some 0 })).setPreference (.param 0)
              (some o)
            cases hw : ((s.setPool S).enter a).acquireWithPreference cfg env i with
            | mk o' f =>
              refine .inr ⟨h, .lockPreferred w, o', f, (s.setPool S).enter a, ?_, rfl, rfl, rfl, ?_⟩
              · simp only [lock, hl, ho, hi]
                rw [← hw]
              · simp only [attempts, hx, hl, ho, hi]
                exact Frame.serves_withPreference hw
          | none => exact .inl ⟨by simp [attempts, hx, hl, ho, hi], by simp [lock, hl, ho, hi]⟩
        | none =>
          let S := s.pool.setWeak w (some { x with locker := some 0 })
          cases hn : ((s.setPool S).enter a).acquireNewPreference cfg env with
          | mk o f =>
            refine .inr ⟨h, .lockNew w, o, f, (s.setPool S).enter a, ?_, rfl, rfl, rfl, ?_⟩
            · simp only [lock, hl, ho]
              rw [← hn]
            · simp only [attempts, hx, hl, ho]
              exact Frame.serves_newPreference hn
    · cases hp
  | _ => exact .inl ⟨rfl, False.elim⟩

end Session

end MutilsTasks.ResourcePool
