import MutilsTasks.ResourcePool.Attempts

/-!
# What the user's code receives

The functions of the pool pass `std::forward<Args>(a)...` on more than once: to `builder`
and then to the rental's constructor, to the next pack after a `ResourceInvalidException`,
and twice where an `overdrawn` is made. Each `builder` and each `onAcquire` therefore
receives what the ones before it in the same call have left of `a...`, and only the first
is sure to receive what the caller has passed.

`Serving` describes the log of a call that returns in these terms, whichever way it is
served. `receives_iff` says for which calls all of them receive the caller's arguments.
-/

namespace MutilsTasks.ResourcePool

open Packs Machine

variable {V A E : Type} {cfg : Config} {env : Env V A E}

/-! ### Logs -/

/-- What `builder` and `onAcquire` have received, in order. -/
def received (log : List (Event A E)) : List A :=
  log.filterMap fun
    | .builder a _ | .onAcquire a _ => some a
    | .overdraw _ => none

/-- `builder` has been called. -/
def Builds (log : List (Event A E)) : Prop := ∃ a x, .builder a x ∈ log

theorem builds_append (l k : List (Event A E)) : Builds (l ++ k) ↔ Builds l ∨ Builds k := by
  simp only [Builds, List.mem_append, exists_or]

theorem not_builds_nil : ¬ Builds ([] : List (Event A E)) := by simp [Builds]

theorem builds_builder (a : A) (x : Option (Exn E)) : Builds [Event.builder a x] := ⟨a, x, by simp⟩

theorem not_builds_onAcquire (a : A) (x : Option (Exn E)) : ¬ Builds [Event.onAcquire a x] := by
  simp [Builds]

/-- **The log of a call that returns**, whose arguments are `a`: each of the user's
functions receives what the one before it has left, and the last is the `onAcquire` that
returns. The list `K` has the calls and objects with which `onAcquire` has thrown. -/
inductive Serving (env : Env V A E) : List (ℕ × V) → A → List (Event A E) → Prop
  /-- `onAcquire` returns. -/
  | lends {a : A} : Serving env [] a [.onAcquire a none]
  /-- `builder` is called. -/
  | builder {K : List (ℕ × V)} {a : A} {x : Option (Exn E)} {l : List (Event A E)} :
      Serving env K (env.moved a) l → Serving env K a (.builder a x :: l)
  /-- `onAcquire` throws. -/
  | hook {K : List (ℕ × V)} {n : ℕ} {v : V} {a : A} {x : Exn E} {l : List (Event A E)} :
      Serving env K (env.acquired n a v) l → Serving env ((n, v) :: K) a (.onAcquire a (some x) :: l)
  /-- There is nothing more to dequeue. -/
  | overdraw {K : List (ℕ × V)} {a : A} {P : Packs} {l : List (Event A E)} : Serving env K a l →
      Serving env K a (.overdraw P :: l)

/-- The first one receives the arguments. -/
theorem Serving.mem_received {K : List (ℕ × V)} {a : A} {l : List (Event A E)} (h : Serving env K a l) :
    a ∈ received l := by
  induction h with
  | lends | builder | hook => exact List.mem_cons_self
  | overdraw _ ih => exact ih

/-- What has been called before the last `onAcquire` leaves `a` as it is. -/
def Leaves (env : Env V A E) (K : List (ℕ × V)) (l : List (Event A E)) (a : A) : Prop :=
  (Builds l → env.moved a = a) ∧ ∀ k ∈ K, env.acquired k.1 a k.2 = a

/-- All receive `a` if the first does. -/
theorem Serving.received_iff_of_left {K : List (ℕ × V)} {a b : A} {l : List (Event A E)}
    (h : Serving env K b l) (hb : (∀ c ∈ received l, c = b) ↔ Leaves env K l b) :
    (∀ c ∈ received l, c = a) ↔ b = a ∧ Leaves env K l a := by
  constructor
  · intro hc
    obtain rfl : b = a := hc _ h.mem_received
    exact ⟨rfl, hb.mp hc⟩
  · rintro ⟨rfl, hl⟩
    exact hb.mpr hl

/-- **All receive the arguments — exactly if** a move leaves them as they are or `builder`
is not called, and each `onAcquire` that throws leaves them as they are. -/
theorem Serving.received_iff {K : List (ℕ × V)} {a : A} {l : List (Event A E)}
    (h : Serving env K a l) : (∀ c ∈ received l, c = a) ↔ Leaves env K l a := by
  induction h with
  | @lends a => simp [received, not_builds_onAcquire, Leaves]
  | @builder K a x l hl ih =>
    have hb : Builds (.builder a x :: l) := (builds_append [.builder a x] l).mpr (.inl (builds_builder a x))
    have hr : (∀ c ∈ received (.builder a x :: l), c = a) ↔ ∀ c ∈ received l, c = a := by
      simp [received]
    rw [hr, hl.received_iff_of_left ih, Leaves, Leaves]
    exact ⟨fun h => ⟨fun _ => h.1, h.2.2⟩, fun h => ⟨h.1 hb, fun _ => h.1 hb, h.2⟩⟩
  | @hook K n v a x l hl ih =>
    have hb : Builds (.onAcquire a (some x) :: l) ↔ Builds l :=
      (builds_append [.onAcquire a (some x)] l).trans (or_iff_right (not_builds_onAcquire a _))
    have hr : (∀ c ∈ received (.onAcquire a (some x) :: l), c = a) ↔ ∀ c ∈ received l, c = a := by
      simp [received]
    rw [hr, hl.received_iff_of_left ih, Leaves, Leaves, hb, List.forall_mem_cons]
    exact and_left_comm
  | @overdraw K a P l _ ih =>
    have hb : Builds (.overdraw P :: l) ↔ Builds l := by simp [Builds]
    have hr : received (.overdraw P :: l) = received l := by simp [received]
    rw [Leaves, hb, hr]
    exact ih

/-! ### Attempts -/

namespace Frame

variable {f g : Frame V A E} {p : PackId} {bs : List (Attempt V A E)}

theorem initializeIfNeeded_log {r : Except (Exn E) Unit}
    (h : f.initializeIfNeeded env p = (r, g)) : ∃ l, g.log = f.log ++ l ∧
      (Builds l ↔ (f.packs.pack p).initialized = false) ∧
      ∀ K k, Serving env K g.args k → Serving env K f.args (l ++ k) := by
  unfold initializeIfNeeded at h
  split at h
  · rename_i hi
    cases h
    exact ⟨[], by simp, by simp [hi, not_builds_nil], fun _ _ hk => hk⟩
  · rename_i hi
    have hi' : (f.packs.pack p).initialized = false := by simpa using hi
    have hg : g.log = f.log ++ [.builder f.args (exn? (env.builder f.calls f.args))] ∧
        g.args = env.moved f.args := by
      cases hb : env.builder f.calls f.args <;> simp only [callBuilder, hb, Prod.mk.injEq] at h <;>
        obtain ⟨-, rfl⟩ := h <;> exact ⟨rfl, rfl⟩
    exact ⟨_, hg.1, iff_of_true (builds_builder ..) hi', fun K k hk => .builder (hg.2 ▸ hk)⟩

theorem hookThrowsOn_iff {k : Frame V A E} {n : ℕ} {v : V}
    (hi : f.initializeIfNeeded env p = (.ok (), k)) : Attempt.HookThrowsOn env ⟨p, f⟩ n v ↔
      ∃ t x, (k.packs.pack p).resource = some t ∧ k.calls = n ∧ k.heap t = v ∧
        env.onAcquire n k.args v = .error x := by
  constructor
  · rintro ⟨k', t, x, hk, ht, hx⟩
    obtain rfl : k' = k := (Prod.mk.inj (hk.symm.trans hi)).2
    exact ⟨t, x, ht, hx⟩
  · rintro ⟨t, x, ht, hx⟩
    exact ⟨k, t, x, hi, ht, hx⟩

/-- **What `borrow` adds to the log.** -/
theorem borrow_log {o : Outcome E ℕ} (h : f.borrow env p = (o, g)) : ∃ l K, g.log = f.log ++ l ∧
    (Builds l ↔ (f.packs.pack p).initialized = false) ∧
    (∀ n v, (n, v) ∈ K ↔ Attempt.HookThrowsOn env ⟨p, f⟩ n v) ∧
    (∀ r, o = .returned r → Serving env K f.args l) ∧
    ((∀ r, o ≠ .returned r) → ∀ L k, Serving env L g.args k → Serving env (K ++ L) f.args (l ++ k)) := by
  cases hi : f.initializeIfNeeded env p with
  | mk r k =>
    obtain ⟨l, hl, hb, hs⟩ := initializeIfNeeded_log hi
    unfold borrow at h
    rw [hi] at h
    cases r with
    | error x =>
      simp only [Prod.mk.injEq] at h
      obtain ⟨rfl, rfl⟩ := h
      refine ⟨l, [], hl, hb, fun n v => iff_of_false List.not_mem_nil ?_, by simp, fun _ => hs⟩
      rintro ⟨k', t, y, hk, -⟩
      rw [hi] at hk
      cases hk
    | ok =>
      cases hr : (k.packs.pack p).resource with
      | none =>
        have hg : g = k ∧ ∀ r, o ≠ .returned r := by
          simp only [hr] at h
          split at h <;> cases h <;> exact ⟨rfl, by simp⟩
        obtain ⟨rfl, ho⟩ := hg
        refine ⟨l, [], hl, hb, fun n v => iff_of_false List.not_mem_nil ?_,
          fun r e => absurd e (ho r), fun _ => hs⟩
        simp [hookThrowsOn_iff hi, hr]
      | some t =>
        simp only [hr] at h
        have hb' : ∀ x, Builds (l ++ [.onAcquire k.args x]) ↔
            (f.packs.pack p).initialized = false := by
          intro x
          rw [builds_append, or_iff_left (not_builds_onAcquire _ x)]
          exact hb
        cases ha : env.onAcquire k.calls k.args (k.heap t) with
        | error x =>
          simp only [callOnAcquire, ha, Prod.mk.injEq] at h
          obtain ⟨rfl, rfl⟩ := h
          refine ⟨l ++ [.onAcquire k.args (some x)], [(k.calls, k.heap t)], ?_, hb' _, fun n v => ?_,
            by simp, fun _ K m hm => ?_⟩
          · rw [← List.append_assoc, ← hl]
            rfl
          · rw [hookThrowsOn_iff hi, List.mem_singleton, Prod.mk.injEq]
            constructor
            · rintro ⟨rfl, rfl⟩
              exact ⟨t, x, hr, rfl, rfl, ha⟩
            · rintro ⟨t', y, hr', rfl, rfl, -⟩
              obtain rfl : t = t' := Option.some.inj (hr.symm.trans hr')
              exact ⟨rfl, rfl⟩
          · rw [List.append_assoc]
            exact hs _ _ (.hook hm)
        | ok v =>
          simp only [callOnAcquire, ha, Prod.mk.injEq] at h
          obtain ⟨rfl, rfl⟩ := h
          refine ⟨l ++ [.onAcquire k.args none], [], ?_, hb' _,
            fun n v => iff_of_false List.not_mem_nil ?_, fun _ _ => hs _ _ .lends,
            fun hne => absurd rfl (hne _)⟩
          · rw [← List.append_assoc, ← hl]
            rfl
          · rw [hookThrowsOn_iff hi]
            rintro ⟨t', y, hr', rfl, rfl, hy⟩
            obtain rfl : t = t' := Option.some.inj (hr.symm.trans hr')
            rw [ha] at hy
            cases hy

theorem makeOverdrawn_log {r : ℕ} (h : f.makeOverdrawn env = (.returned r, g)) :
    g.log = f.log ++ [.builder f.args none, .onAcquire (env.moved f.args) none] := by
  unfold makeOverdrawn at h
  cases hb : env.builder f.calls f.args with
  | error x => simp [callBuilder, hb] at h
  | ok v =>
    cases ha : env.onAcquire (f.calls + 1) (env.moved f.args) v with
    | error x => simp [callBuilder, callOnAcquire, hb, ha] at h
    | ok v' =>
      simp only [callBuilder, callOnAcquire, hb, ha, Prod.mk.injEq] at h
      obtain ⟨-, rfl⟩ := h
      exact List.append_assoc ..

theorem returned_of_void {o : Outcome E ℕ} (h : o.void = .returned ()) : ∃ r, o = .returned r := by
  cases o with
  | returned r => exact ⟨r, rfl⟩
  | threw | blocked | aborted => cases h

/-- **What a call that returns has logged**: it calls `builder` if it tries a pack that is
not built or is lent none, and `onAcquire` throws where an attempt says so. -/
theorem Serves.log {o : Outcome E Unit} (h : Serves env f bs o g) (ho : o = .returned ()) :
    ∃ l K, g.log = f.log ++ l ∧ Serving env K f.args l ∧
      (Builds l ↔ (∃ b ∈ bs, (b.frame.packs.pack b.pack).initialized = false) ∨
        ∀ b ∈ bs, ¬ b.Lends env) ∧
      ∀ n v, (n, v) ∈ K ↔ ∃ b ∈ bs, b.HookThrowsOn env n v := by
  induction h with
  | @ends f g p o hb =>
    obtain ⟨r, rfl⟩ := returned_of_void ho
    obtain ⟨l, K, hl, hB, hx, hs, -⟩ := borrow_log hb
    have hL : Attempt.Lends env ⟨p, f⟩ := ⟨r, by rw [hb]⟩
    exact ⟨l, K, hl, hs r rfl, by simp [hB, hL], fun n v => by simp [hx]⟩
  | @fails f g k p bs o hb _ ih =>
    obtain ⟨l, K, hl, hB, hx, -, hs⟩ := borrow_log hb
    obtain ⟨l', K', hl', hs', hB', hx'⟩ := ih ho
    have hL : ¬ Attempt.Lends env ⟨p, f⟩ := by
      rintro ⟨r, hr⟩
      rw [hb] at hr
      cases hr
    refine ⟨l ++ l', K ++ K', by rw [hl', hl, List.append_assoc], hs (by simp) _ _ hs', ?_,
      fun n v => ?_⟩
    · rw [builds_append, hB, hB']
      simp [hL, or_assoc]
    · rw [List.mem_append, hx, hx']
      simp
  | @overdraws f g o hm =>
    obtain ⟨r, rfl⟩ := returned_of_void ho
    refine ⟨_, [], ?_, .overdraw (P := f.packs) (.builder (x := none) .lends), ?_, ?_⟩
    · rw [makeOverdrawn_log hm]
      exact List.append_assoc ..
    · simp [Builds]
    · simp
  | waits | outOfRange => cases ho
  | first ha _ ih => simpa only [ha.args, ha.log] using ih ho
  | last _ ha ih => simpa only [ha.log] using ih ho

/-- `borrow` initializes no other pack, and none is uninitialized again. -/
theorem Borrows.uninitialized {o : Outcome E ℕ} (h : f.Borrows env p o g) (q : PackId) :
    ((g.packs.pack q).initialized = false → (f.packs.pack q).initialized = false) ∧
      (q ≠ p → (f.packs.pack q).initialized = false → (g.packs.pack q).initialized = false) := by
  have key : ∀ Q : Packs, Q.pack = Function.update f.packs.pack p ⟨none, true⟩ →
      ((Q.pack q).initialized = false → (f.packs.pack q).initialized = false) ∧
      (q ≠ p → (f.packs.pack q).initialized = false → (Q.pack q).initialized = false) := by
    intro Q hQ
    rw [hQ, Function.update_apply]
    split
    · rename_i e
      exact ⟨by simp, fun hne => absurd e hne⟩
    · exact ⟨id, fun _ => id⟩
  cases h with
  | builder _ _ hg =>
    have hp : g.packs.pack = f.packs.pack := by
      rw [packs, hg]
      cases p <;> rfl
    rw [hp]
    exact ⟨id, fun _ => id⟩
  | hook _ _ _ hg =>
    rw [packs, hg]
    exact key _ (spoilt_spoil ..).pack
  | lent _ hl _ _ _ hg =>
    rw [packs, hg]
    exact key _ hl.pack
  | invalid | asserts => exact ⟨id, fun _ => id⟩

/-- A pack that is not built when the call begins is not built when it is first tried. -/
theorem Serves.uninitialized {o : Outcome E Unit} (h : Serves env f bs o g) :
    (∃ b ∈ bs, (b.frame.packs.pack b.pack).initialized = false) ↔
      ∃ b ∈ bs, (f.packs.pack b.pack).initialized = false := by
  induction h with
  | ends => simp
  | @fails f g k p bs o hb _ ih =>
    have hu := (borrow_spec hb).uninitialized
    simp only [List.mem_cons, exists_eq_or_imp, ih]
    constructor
    · rintro (hp | ⟨b, hm, hb⟩)
      · exact .inl hp
      · exact .inr ⟨b, hm, (hu b.pack).1 hb⟩
    · rintro (hp | ⟨b, hm, hb⟩)
      · exact .inl hp
      · by_cases e : b.pack = p
        · exact .inl (e ▸ hb)
        · exact .inr ⟨b, hm, (hu b.pack).2 e hb⟩
  | overdraws | waits | outOfRange => simp
  | first ha _ ih => rw [ih, ha.pack]
  | last _ _ ih => exact ih

theorem initializeIfNeeded_built (env : Env V A E) (hi : (f.packs.pack p).initialized = true) :
    f.initializeIfNeeded env p = (.ok (), f) := by
  rw [initializeIfNeeded, if_pos hi]

/-- A pack that is built lends no object: it has none, and it has had one exactly if `onAcquire`
has thrown on it. The other packs stay. -/
theorem borrow_built (hi : (f.packs.pack p).initialized = true)
    (h : f.borrow env p = (.threw .resourceInvalid, g)) :
    (g.packs.pack p).resource = none ∧ (∀ q, q ≠ p → g.packs.pack q = f.packs.pack q) ∧
      ((f.packs.pack p).resource ≠ none → ∃ n v, Attempt.HookThrowsOn env ⟨p, f⟩ n v) := by
  have hif := initializeIfNeeded_built env hi
  unfold borrow at h
  rw [hif] at h
  cases hr : (f.packs.pack p).resource with
  | none =>
    simp only [hr] at h
    split at h <;> cases h
    exact ⟨hr, fun _ _ => rfl, fun hne => absurd rfl hne⟩
  | some t =>
    simp only [hr] at h
    cases ha : env.onAcquire f.calls f.args (f.heap t) with
    | ok v => simp [callOnAcquire, ha] at h
    | error x =>
      simp only [callOnAcquire, ha, Prod.mk.injEq] at h
      obtain ⟨-, rfl⟩ := h
      have hp : ∀ k : Frame V A E, (k.setPacks (k.packs.spoil p)).packs.pack =
          Function.update k.packs.pack p ⟨none, true⟩ := fun k => (spoilt_spoil ..).pack
      refine ⟨by rw [hp, Function.update_self], fun q hq => by rw [hp, Function.update_of_ne hq]; rfl,
        fun _ => ⟨f.calls, f.heap t, (hookThrowsOn_iff hif).mpr ⟨t, x, hr, rfl, rfl, ha⟩⟩⟩

/-- `borrow` of a pack that is built returns the pack's object, on which `onAcquire` has not thrown. -/
theorem borrow_returned {r : ℕ} (hi : (f.packs.pack p).initialized = true)
    (h : f.borrow env p = (.returned r, g)) :
    (f.packs.pack p).resource ≠ none ∧ ∀ n v, ¬ Attempt.HookThrowsOn env ⟨p, f⟩ n v := by
  have hif := initializeIfNeeded_built env hi
  unfold borrow at h
  rw [hif] at h
  cases hr : (f.packs.pack p).resource with
  | none =>
    simp only [hr] at h
    split at h <;> cases h
  | some t =>
    simp only [hr] at h
    refine ⟨by simp, fun n v hx => ?_⟩
    obtain ⟨t', x, hr', rfl, rfl, ha⟩ := (hookThrowsOn_iff hif).mp hx
    obtain rfl : t = t' := Option.some.inj (hr.symm.trans hr')
    simp [callOnAcquire, ha] at h

/-- **Among packs that were built, one lends exactly if** one had its object when the call began and
`onAcquire` throws on it in no attempt. -/
theorem Serves.lends_iff {o : Outcome E Unit} (h : Serves env f bs o g) (ho : o = .returned ())
    (hi : ∀ b ∈ bs, (f.packs.pack b.pack).initialized = true) :
    (∃ b ∈ bs, b.Lends env) ↔ ∃ b ∈ bs, (f.packs.pack b.pack).resource ≠ none ∧
      ∀ c ∈ bs, c.pack = b.pack → ∀ n v, ¬ c.HookThrowsOn env n v := by
  induction h with
  | @ends f g p o hb =>
    obtain ⟨r, rfl⟩ := returned_of_void ho
    have hL : Attempt.Lends env ⟨p, f⟩ := ⟨r, by rw [hb]⟩
    obtain ⟨hr, hx⟩ := borrow_returned (hi _ (List.mem_singleton_self _)) hb
    simp [hL, hr, hx]
  | @fails f g k p bs o hb _ ih =>
    have hip : (f.packs.pack p).initialized = true := hi _ List.mem_cons_self
    obtain ⟨hnone, hq, hhook⟩ := borrow_built hip hb
    have hig : ∀ b ∈ bs, (g.packs.pack b.pack).initialized = true := by
      intro b hm
      rw [← Bool.not_eq_false]
      intro hu
      have := ((borrow_spec hb).uninitialized b.pack).1 hu
      rw [hi b (List.mem_cons_of_mem _ hm)] at this
      cases this
    have hL : ¬ Attempt.Lends env ⟨p, f⟩ := by
      rintro ⟨r, hr⟩
      rw [hb] at hr
      cases hr
    have hcons : (∃ b ∈ (⟨p, f⟩ : Attempt V A E) :: bs, b.Lends env) ↔ ∃ b ∈ bs, b.Lends env := by
      simp [hL]
    rw [hcons, ih ho hig]
    constructor
    · rintro ⟨b, hm, hr, hx⟩
      have hne : b.pack ≠ p := by
        intro e
        rw [e] at hr
        exact hr hnone
      refine ⟨b, List.mem_cons_of_mem _ hm, by rwa [← hq _ hne], fun c hc e => ?_⟩
      rcases List.mem_cons.mp hc with rfl | hc
      · exact absurd e.symm hne
      · exact hx c hc e
    · rintro ⟨b, hm, hr, hx⟩
      -- `onAcquire` has thrown on what pack `p` had
      have hne : b.pack ≠ p := by
        intro e
        rw [e] at hr
        obtain ⟨n, v, ht⟩ := hhook hr
        exact hx ⟨p, f⟩ List.mem_cons_self e.symm n v ht
      rcases List.mem_cons.mp hm with rfl | hm
      · exact absurd rfl hne
      · exact ⟨b, hm, by rwa [hq _ hne], fun c hc e => hx c (List.mem_cons_of_mem _ hc) e⟩
  | overdraws | waits | outOfRange => simp
  | first ha _ ih =>
    rw [ha.pack] at ih
    exact ih ho hi
  | last _ _ ih => exact ih ho hi

end Frame

/-! ### Calls -/

namespace Session

/-- **Every pack that the call tries has been built before it**, and one of them has its object then
and `onAcquire` throws on it in no attempt: the call does not come to an `overdrawn`. -/
def ServedBuilt (cfg : Config) (env : Env V A E) (s : Session V) (op : Op V A) : Prop :=
  (∀ b ∈ s.attempts cfg env op, (s.pool.packs.pack b.pack).initialized = true) ∧
    ∃ b ∈ s.attempts cfg env op, (s.pool.packs.pack b.pack).resource ≠ none ∧
      ∀ c ∈ s.attempts cfg env op, c.pack = b.pack → ∀ n v, ¬ c.HookThrowsOn env n v

variable {s : Session V} {op : Op V A} {R : Result V A E} {a : A}

/-- **`builder` and `onAcquire` receive the caller's arguments — exactly if** a move
leaves the arguments as they are or the call is served without building, and each `onAcquire`
that throws in an attempt leaves them as they are. -/
theorem receives_iff (hp : s.perform cfg env op = some R) (hq : s.AsksPool op)
    (ho : R.outcome = .returned ()) (ha : op.arguments = some a) :
    (∀ c ∈ received R.log, c = a) ↔ (env.moved a = a ∨ s.ServedBuilt cfg env op) ∧
      ∀ b ∈ s.attempts cfg env op, ∀ n v, b.HookThrowsOn env n v → env.acquired n a v = a := by
  obtain ⟨-, hab⟩ | ⟨h, c, o, f, f₀, rfl, hf, hl, harg, hs⟩ := serves hp
  · rw [ho] at hab
    cases hab hq
  · obtain rfl : f₀.args = a := Option.some.inj (harg.symm.trans ha)
    have ho' : o = .returned () := by
      obtain u | x | _ | _ := o <;> cases ho
      rfl
    obtain ⟨l, K, hlog, hS, hB, hx⟩ := hs.log ho'
    rw [hl, List.nil_append] at hlog
    have hlog' : (finish h c (o, f)).log = l := by rw [finish_log, hlog]
    have hb : ¬ Builds l ↔ s.ServedBuilt cfg env op := by
      have hbuilt : ¬ Builds l ↔ (∀ b ∈ s.attempts cfg env op,
          (f₀.packs.pack b.pack).initialized = true) ∧ ∃ b ∈ s.attempts cfg env op, b.Lends env := by
        rw [hB, hs.uninitialized]
        simp
      rw [hbuilt, ServedBuilt, ← hf]
      exact and_congr_right fun hi => hs.lends_iff ho' hi
    rw [hlog', hS.received_iff, Leaves, ← hb, imp_iff_not_or, or_comm]
    refine and_congr_right fun _ => ⟨fun hK b hm n v hx' => hK (n, v) ((hx n v).mpr ⟨b, hm, hx'⟩), ?_⟩
    rintro hK ⟨n, v⟩ hk
    obtain ⟨b, hm, hx'⟩ := (hx n v).mp hk
    exact hK b hm n v hx'

/-- User code with arguments that a move empties. -/
def emptying : Env Unit (Option ℕ) Unit where
  builder _ _ := .ok ()
  onAcquire _ _ _ := .ok ()
  onRelease _ _ := ()
  moved _ := none
  acquired _ a _ := a
  pick _ := 0

/-- A pack is built, and given back. -/
def onceBuilt : List (Op Unit (Option ℕ)) := [.acquire 0 (some 5), .dropLocked 0]

theorem receives_iff_onceBuilt : ∃ (s : Session Unit) (R : Result Unit (Option ℕ) Unit),
    run (step twoPreferred emptying) (init twoPreferred fun _ => ()) onceBuilt = some s ∧
      s.perform twoPreferred emptying (.acquire 0 (some 5)) = some R ∧
      ((∀ c ∈ received R.log, c = some 5) ↔
        (emptying.moved (some 5) = some 5 ∨ s.ServedBuilt twoPreferred emptying (.acquire 0 (some 5))) ∧
        ∀ b ∈ s.attempts twoPreferred emptying (.acquire 0 (some 5)), ∀ n v,
          b.HookThrowsOn emptying n v → emptying.acquired n (some 5) v = some 5) :=
  ⟨_, _, rfl, rfl, receives_iff rfl trivial rfl rfl⟩

/-- **`onAcquire` does not receive the caller's arguments** when the same call builds the
object: `builder` has them. -/
theorem arguments_moved : ¬ ∀ (cfg : Config) (env : Env Unit (Option ℕ) Unit) (heap : Obj → Unit)
    (s : Session Unit) (op : Op Unit (Option ℕ)) (R : Result Unit (Option ℕ) Unit) (a : Option ℕ),
    Reach (step cfg env) Any (init cfg heap) s → s.perform cfg env op = some R → s.AsksPool op →
      R.outcome = .returned () → op.arguments = some a → ∀ c ∈ received R.log, c = a := by
  intro h
  have hc := @h twoPreferred emptying (fun _ => ()) _ (.acquire 0 (some 5)) _ (some 5) .refl rfl
    trivial rfl rfl none (List.mem_cons_of_mem _ List.mem_cons_self)
  cases hc

end Session

end MutilsTasks.ResourcePool
