import MutilsTasks.ResourcePool.Ownership
import MutilsTasks.ResourcePool.SequentialHandles

/-!
# Sequential runs are runs of the machine

An operation of a sequential run is a run of the interleaved machine in which only
thread `0` takes steps, from idle to idle (`reached_step`). What holds of the
machine's reachable states holds between the operations of a sequential run, and
also in the middle of one: `Reached` follows thread `0` through a call.

A `builder` or an `onAcquire` that never throws gives a run without their exceptions.
-/

namespace MutilsTasks.ResourcePool

open Packs Machine

variable {V A E : Type} {cfg : Config} {env : Env V A E}

/-- The exceptions that the user's code can throw. -/
def Allowed (env : Env V A E) (_ : State) (a : Action) : Prop :=
  (∀ u invalid, a = .builderThrows u invalid → ∃ n a x, env.builder n a = .error x) ∧
  (∀ u invalid, a = .hookThrows u invalid → ∃ n a v x, env.onAcquire n a v = .error x)

/-- Thread `0` is at `c`, and no other thread does anything. -/
def alone (S : Pool) (c : Pc) : State := ⟨S, fun u => if u = 0 then c else .idle⟩

/-- The machine reaches `s₀`, and `s` from there. -/
def Reached (cfg : Config) (env : Env V A E) (s₀ s : State) : Prop :=
  Reach (State.step cfg) (Allowed env) (State.init cfg) s₀ ∧
    Reach (State.step cfg) (Allowed env) s₀ s

theorem alone_goto (S S' : Pool) (c c' : Pc) : (alone S c).goto 0 S' c' = alone S' c' := by
  unfold alone State.goto
  congr 1
  funext u
  by_cases h : u = 0 <;> simp [h]

@[simp] theorem alone_pool (S : Pool) (c : Pc) : (alone S c).pool = S := rfl

@[simp] theorem alone_pc (S : Pool) (c : Pc) : (alone S c).pc 0 = c := rfl

/-- Is it a `ResourceInvalidException`? -/
def Exn.isInvalid : Exn E → Bool
  | .resourceInvalid => true
  | .other _ => false

namespace Reached

variable {s₀ s s' : State} {S S' : Pool} {c c' : Pc} {d : Caller} {wait : Bool} {p : PackId}
  {f g k : Frame V A E}

theorem packInv (h : Reached cfg env s₀ s) : PackInv cfg s.pool.packs s.holds :=
  (State.packInv_of_reach (h.1.trans h.2)).1

theorem liveRefs (h : Reached cfg env s₀ s) : s.LiveRefs :=
  (State.packInv_of_reach (h.1.trans h.2)).2

/-- Thread `0` acts. -/
theorem act {k : Pc} (h : Reached cfg env s₀ (alone S c)) {a : Action}
    (ha : Allowed env (alone S c) a)
    (hs : (alone S c).step cfg a = some ((alone S c).goto 0 S' k)) :
    Reached cfg env s₀ (alone S' k) :=
  ⟨h.1, .tail h.2 ha (by rwa [alone_goto] at hs)⟩

/-- Thread `0` makes its next step. -/
theorem advance {k : Pc} (h : Reached cfg env s₀ (alone S c))
    (hs : (alone S c).advance cfg 0 = some ((alone S c).goto 0 S' k)) :
    Reached cfg env s₀ (alone S' k) :=
  h.act (a := .advance 0) (by simp [Allowed]) hs

/-! ### Borrowing -/

/-- Only thread `0` could have it locked. -/
theorem mutexFree (h : Reached cfg env s₀ (alone S c)) (hc : c.hold.mutex = none) (p : PackId) :
    S.packs.mutexFree p = true := by
  cases p with
  | spare j => rfl
  | preferred i =>
    cases hm : (S.packs.preferred i).mutex with
    | none => simp [Packs.mutexFree, hm]
    | some u =>
      have := (h.packInv.entries.mutex u i).mp hm
      by_cases e : u = 0 <;> simp [State.holds, alone, e, hc] at this
      simp [Pc.hold, Hold.mutex] at this

/-- Where `borrow` leads thread `0`. -/
def After (cfg : Config) (env : Env V A E) (s₀ : State) (d : Caller) (preference : Option ℕ)
    (g : Frame V A E) : Outcome E ℕ → Prop
  | .returned r => Reached cfg env s₀ (alone (g.returnLocked preference r).pool (.returning d))
  | .threw x => Reached cfg env s₀
      (alone g.pool (if x.isInvalid then .dequeue d false else .unwinding d))
  | _ => True

/-- A `borrow` of a pack from the queue. -/
theorem borrow (h : Reached cfg env s₀ (alone f.pool (.borrow d false p))) {o : Outcome E ℕ}
    (hb : f.Borrows env p o g) : After cfg env s₀ d none g o := by
  have hm : f.pool.packs.mutexFree p = true := h.mutexFree rfl p
  cases hb with
  | @builder x g hi hx hg =>
    have hi' : (f.pool.packs.pack p).initialized = false := hi
    show Reached ..
    rw [hg]
    refine h.act (a := .builderThrows 0 x.isInvalid) ⟨fun _ _ _ => ⟨_, _, _, hx⟩, by simp⟩ ?_
    simp [State.step, State.callsBuilder, State.thrown, hm, hi', Frame.packs]
  | @hook x g n a v ho _ hx hg =>
    have ho' : f.pool.packs.hasObject p = true := ho
    show Reached ..
    rw [hg]
    refine h.act (a := .hookThrows 0 x.isInvalid) ⟨by simp, fun _ _ _ => ⟨_, _, _, _, hx⟩⟩ ?_
    simp [State.step, State.callsHook, State.thrown, hm, ho', Frame.packs]
  | @lent t Q g n a v v' hl _ _ _ _ hg =>
    have hl' : f.pool.packs.borrow p = (.rented f.packs.nextRental, Q) := hl
    refine h.advance ?_
    simp [State.advance, hm, hl', State.borrowed, Frame.returnLocked, Frame.setPool, hg]
  | invalid hl =>
    have hl' : f.pool.packs.borrow p = (.invalid, f.pool.packs) := hl
    refine h.advance ?_
    simp [State.advance, hm, hl', State.borrowed, Exn.isInvalid]
  | asserts => trivial

/-- A `borrow` of the preferred pack. -/
theorem borrowPreference {i : ℕ} (h : Reached cfg env s₀ (alone f.pool (.borrowPreference d i)))
    (hi : i < cfg.maxResources) {o : Outcome E ℕ} (hb : f.Borrows env (.preferred i) o g) :
    After cfg env s₀ d (g.pool.preference (.param 0)) g o := by
  have hm : f.pool.packs.mutexFree (.preferred i) = true := h.mutexFree rfl _
  cases hb with
  | @builder x g hn hx hg =>
    have hn' : (f.pool.packs.pack (.preferred i)).initialized = false := hn
    show Reached ..
    rw [hg]
    refine h.act (a := .builderThrows 0 x.isInvalid) ⟨fun _ _ _ => ⟨_, _, _, hx⟩, by simp⟩ ?_
    simp [State.step, State.callsBuilder, State.thrown, hm, hn', hi, builderThrew, Frame.packs]
  | @hook x g n a v ho _ hx hg =>
    have ho' : f.pool.packs.hasObject (.preferred i) = true := ho
    show Reached ..
    rw [hg]
    refine h.act (a := .hookThrows 0 x.isInvalid) ⟨by simp, fun _ _ _ => ⟨_, _, _, _, hx⟩⟩ ?_
    simp [State.step, State.callsHook, State.thrown, hm, ho', hi, Frame.packs]
  | @lent t Q g n a v v' hl _ _ _ _ hg =>
    have hl' : f.pool.packs.borrow (.preferred i) = (.rented f.packs.nextRental, Q) := hl
    refine h.advance ?_
    simp [State.advance, hi, hm, hl', State.borrowed, Frame.returnLocked, Frame.setPool, hg]
  | invalid hl =>
    have hl' : f.pool.packs.borrow (.preferred i) = (.invalid, f.pool.packs) := hl
    refine h.advance ?_
    simp [State.advance, hi, hm, hl', State.borrowed, Exn.isInvalid]
  | asserts => trivial

/-! ### Dequeuing -/

theorem take (h : Reached cfg env s₀ (alone f.pool (.dequeue d false)))
    (hp : p ∈ f.packs.freeResources) :
    Reached cfg env s₀ (alone (f.take p).pool (.borrow d false p)) := by
  have hp' : p ∈ f.pool.packs.freeResources := hp
  have h₁ : Reached cfg env s₀
      (alone { f.pool with packs := f.packs.dequeue p } (.removeFromFreeList d false p)) := by
    refine h.act (a := .dequeue 0 p) (by simp [Allowed]) ?_
    simp [State.step, hp', Frame.packs]
  exact h₁.advance rfl

/-- Where the loop leads. -/
def AfterLoop (cfg : Config) (env : Env V A E) (s₀ : State) (d : Caller) (g : Frame V A E) :
    Outcome E (Option ℕ) → Prop
  | .returned none => Reached cfg env s₀ (alone g.pool (.dequeue d false))
  | .returned (some r) => Reached cfg env s₀ (alone (g.returnLocked none r).pool (.returning d))
  | .threw _ => Reached cfg env s₀ (alone g.pool (.unwinding d))
  | _ => True

theorem dequeues {o : Outcome E (Option ℕ)} (h : Reached cfg env s₀ (alone f.pool (.dequeue d false)))
    (hd : Frame.Dequeues env f o g) : AfterLoop cfg env s₀ d g o := by
  induction hd with
  | empty => exact h
  | stale hp hb _ ih => exact ih ((h.take hp).borrow hb)
  | lent hp hb => exact (h.take hp).borrow hb
  | threw hp hb => exact (h.take hp).borrow hb
  | aborted => trivial

/-! ### Acquiring -/

/-- Where a call leads. -/
def Ends (cfg : Config) (env : Env V A E) (s₀ : State) (d : Caller) (g : Frame V A E) :
    Outcome E Unit → Prop
  | .returned () => Reached cfg env s₀ (alone g.pool (.returning d))
  | .threw _ => Reached cfg env s₀ (alone g.pool (.unwinding d))
  | _ => True

theorem overdraw (h : Reached cfg env s₀ (alone S (.dequeue d false)))
    (ho : cfg.allowOverdraws = true) : Reached cfg env s₀ (alone S (.overdraw d)) := by
  refine h.act (a := .dequeueFails 0) (by simp [Allowed]) ?_
  simp [State.step, ho]

theorem noPreference {o : Outcome E Unit} (h : Reached cfg env s₀ (alone f.pool (.dequeue d false)))
    (hn : f.NoPreference cfg env o g) : Ends cfg env s₀ d g o := by
  cases hn with
  | lent hd => exact h.dequeues hd
  | threw hd => exact h.dequeues hd
  | aborted | blocked => trivial
  | @overdrawn g k v hd ho _ hk =>
    refine (overdraw (h.dequeues hd) ho).advance ?_
    rw [Frame.returnLocked, Frame.setPool, hk]
    rfl
  | @builder g k x hd ho hx hk =>
    show Reached ..
    rw [hk]
    exact (overdraw (h.dequeues hd) ho).act (a := .builderThrows 0 false)
      ⟨fun _ _ _ => ⟨_, _, _, hx⟩, by simp⟩ rfl
  | @hook g k x n a v hd ho _ hx hk =>
    show Reached ..
    rw [hk]
    exact (overdraw (h.dequeues hd) ho).act (a := .hookThrows 0 false)
      ⟨by simp, fun _ _ _ => ⟨_, _, _, _, hx⟩⟩ rfl

/-- It waits where it dequeues. -/
theorem noPreference_blocked (h : Reached cfg env s₀ (alone f.pool (.dequeue d false)))
    (hn : f.NoPreference cfg env .blocked g) :
    Reached cfg env s₀ (alone g.pool (.dequeue d false)) := by
  cases hn with
  | blocked hd => exact h.dequeues hd

theorem withPreference {o : Outcome E Unit} {i : ℕ}
    (h : Reached cfg env s₀ (alone f.pool (.borrowPreference d i)))
    (hn : f.WithPreference cfg env i o g) : Ends cfg env s₀ d g o := by
  cases hn with
  | lent hi hb => exact h.borrowPreference hi hb
  | fallback hi hb hn => exact noPreference (h.borrowPreference hi hb) hn
  | threw hi hb => exact h.borrowPreference hi hb
  | aborted | outOfRange => trivial

theorem takesIndex {i : ℕ} (h : Reached cfg env s₀ (alone f.pool (.readMaxIndex d)))
    (hf : f.pool.indices.preferredFull cfg = false) (ht : f.takeIndex env = (i, g)) :
    Reached cfg env s₀ (alone g.pool (.haveIndex d i)) := by
  have h₁ : Reached cfg env s₀ (alone f.pool (.readSize d)) := by
    rw [Indices.preferredFull, Bool.and_eq_false_iff] at hf
    by_cases he : f.pool.indices.indexExhausted cfg = true
    · have hr : f.pool.indices.recycledIndices ≠ [] := by simpa [he] using hf
      have h₂ : Reached cfg env s₀ (alone f.pool (.readRecycled d)) :=
        h.advance (by simp [State.advance, he])
      exact h₂.advance (by simp [State.advance, hr])
    · exact h.advance (by simp [State.advance, he])
  cases Frame.takesIndex_spec ht with
  | pop hi hg =>
    have hl : f.pool.indices.recycledIndices ≠ [] := List.ne_nil_of_mem hi
    have h₂ : Reached cfg env s₀ (alone f.pool (.buildOrPop d)) :=
      h₁.advance (by simp [State.advance, List.length_pos_iff, hl])
    exact h₂.act (a := .pop 0 i) (by simp [Allowed])
      (by simp [State.step, hi, hg, Frame.setIndices])
  | fetchAdd hr hi hg =>
    have h₂ : Reached cfg env s₀ (alone f.pool (.fetchAdd d)) :=
      h₁.advance (by simp [State.advance, hr])
    exact h₂.advance (by rw [hg, hi]; rfl)

/-- No index is left. -/
theorem full (h : Reached cfg env s₀ (alone f.pool (.readMaxIndex d)))
    (hf : f.pool.indices.preferredFull cfg = true) :
    Reached cfg env s₀ (alone f.pool (.dequeue d false)) := by
  rw [Indices.preferredFull, Bool.and_eq_true, beq_iff_eq, List.length_eq_zero_iff] at hf
  have h₁ : Reached cfg env s₀ (alone f.pool (.readRecycled d)) :=
    h.advance (by simp [State.advance, hf.1])
  exact h₁.advance (by simp [State.advance, hf.2])

/-- An `index_owner` is made. -/
theorem prefers {i : ℕ} (h : Reached cfg env s₀ (alone f.pool (.haveIndex d i)))
    (hi : i < cfg.maxResources) : Reached cfg env s₀
      (alone (f.setIndices (f.pool.indices.makeOwner 0 i)).pool (.borrowPreference d i)) :=
  h.advance (by simp [State.advance, hi, Frame.setIndices])

theorem newPreference {o : Outcome E Unit} (h : Reached cfg env s₀ (alone f.pool (.readMaxIndex d)))
    (hn : f.NewPreference cfg env o g) : Ends cfg env s₀ d g o := by
  cases hn with
  | full hf hn => exact (h.full hf).noPreference hn
  | prefers hf ht hi hw => exact ((h.takesIndex hf ht).prefers hi).withPreference hw
  | @lost i g k o hf ht hi hn =>
    exact noPreference ((h.takesIndex hf ht).advance (by simp [State.advance, hi])) hn

/-! ### Destroying a rental -/

/-- A copy of a handle. -/
theorem user (h : Reached cfg env s₀ (alone S c)) {a : Action} (ha : Allowed env (alone S c) a)
    (hs : (alone S c).step cfg a = some ⟨S', (alone S c).pc⟩) : Reached cfg env s₀ (alone S' c) :=
  ⟨h.1, .tail h.2 ha hs⟩

/-- The destructor of a rental. -/
theorem destroyRental {r : ℕ} {x : Rental} (h : Reached cfg env s₀ (alone S (.onRelease r)))
    (hx : S.packs.rental r = some x) :
    Reached cfg env s₀ (alone { S with packs := S.packs.destroyRental r x } .dropPreference) := by
  have h₁ : Reached cfg env s₀ (alone { S with packs := S.packs.beforeDelete r x } (.putBack r)) :=
    h.advance (by simp [State.advance, hx])
  have hx' : (S.packs.beforeDelete r x).rental r = some { x with deleted := true } :=
    Function.update_self ..
  rw [Packs.destroyRental]
  cases hp : x.pack with
  | none => exact h₁.advance (by simp [State.advance, hx', hp])
  | some p =>
    cases p with
    | spare j =>
      have h₂ := h₁.advance (k := .enqueue (.spare j)) (by simp [State.advance, hx', hp]; rfl)
      exact h₂.advance rfl
    | preferred i =>
      have hm := h₁.mutexFree rfl (.preferred i)
      have h₂ := h₁.advance (k := .testInFreeList i) (by simp [State.advance, hx', hp, hm]; rfl)
      simp only
      split
      · rename_i hf
        have h₃ := h₂.advance (k := .unlock i) (by simp [State.advance, hf]; rfl)
        exact h₃.advance rfl
      · rename_i hf
        have h₃ := h₂.advance (k := .setInFreeList i) (by simp [State.advance, hf]; rfl)
        exact ((h₃.advance rfl).advance rfl).advance rfl

/-! ### Operations -/

/-- The end of a call. -/
theorem finish {T : Pool} {h : ℕ} {o : Outcome E Unit} {σ : Session V}
    (hc : T.Called f.pool o) (hu : T.Unused h) (he : Ends cfg env s₀ d f o)
    (hs : (Session.finish h d (o, f)).after? = some σ) : Reached cfg env s₀ (alone σ.pool .idle) := by
  obtain u | x | _ | _ := o
  · cases hs
    have h₁ : Reached cfg env s₀ (alone (f.pool.setPreference (.param 0) none) (.publish d)) :=
      advance he rfl
    have hu' : (f.pool.setPreference (.param 0) none).Unused h := by
      rw [Pool.Unused, Pool.setPreference_rsource, hc.rsource _ (by simp)]
      exact hu
    exact h₁.act (a := .publish 0 h) (by simp [Allowed]) (by simp [State.step, hu']; rfl)
  · cases hs
    exact advance he rfl
  · cases hs
  · cases hs

/-- The beginning of a call. -/
inductive Begins (cfg : Config) (env : Env V A E) (s₀ : State) (s : Session V) (c : Caller)
    (o : Outcome E Unit) (f₀ f : Frame V A E) : Prop
  /-- Without a preference. -/
  | new : f₀.pool.indices = s.pool.indices →
      (∀ w, c.handle = some w → s.pool.preference (.weak w) = none) →
      Reached cfg env s₀ (alone f₀.pool (.readMaxIndex c)) → f₀.NewPreference cfg env o f →
      Begins cfg env s₀ s c o f₀ f
  /-- With the preference of the handle. -/
  | preferred {w p i : ℕ} : c = .lockPreferred w → s.pool.preference (.weak w) = some p →
      s.pool.indices.indexOwner p = some i →
      f₀.pool.indices = s.pool.indices.setPreference (.param 0) (some p) →
      Reached cfg env s₀ (alone f₀.pool (.borrowPreference c i)) →
      f₀.WithPreference cfg env i o f → Begins cfg env s₀ s c o f₀ f

theorem begins {s : Session V} {op : Op V A} {h : ℕ} {o : Outcome E Unit}
    (hr : Reached cfg env s₀ (alone s.pool .idle)) (tidy : s.pool.Tidy)
    (hc : s.Calls cfg env op h d o f) : ∃ f₀ : Frame V A E, f₀.toSession = s.setPool f₀.pool ∧
      f₀.pool.packs = s.pool.packs ∧ f₀.log = [] ∧ Begins cfg env s₀ s d o f₀ f := by
  cases hc with
  | acquire hu hn =>
    exact ⟨_, rfl, rfl, rfl, .new rfl (by simp [Caller.handle])
      (hr.act (a := .acquire 0) (by simp [Allowed]) (by simp [State.step]; rfl)) hn⟩
  | @lockPreferred w h i p a x o f hx hu hl hp hi hn =>
    refine ⟨_, rfl, rfl, rfl, .preferred rfl hp hi rfl ?_ hn⟩
    refine hr.act (a := .lock 0 w) (by simp [Allowed]) ?_
    simp [State.step, hx, tidy.locker w x hx, hl, hp, hi]
    rfl
  | @lockNew w h a x o f hx hu hl hp hn =>
    refine ⟨_, rfl, rfl, rfl, .new rfl (by simp [Caller.handle, hp]) ?_ hn⟩
    refine hr.act (a := .lock 0 w) (by simp [Allowed]) ?_
    simp [State.step, hx, tidy.locker w x hx, hl, hp]
    rfl

/-- A call. -/
theorem call {s σ : Session V} {op : Op V A} {h : ℕ} {o : Outcome E Unit}
    (hr : Reached cfg env s₀ (alone s.pool .idle)) (tidy : s.pool.Tidy)
    (hc : s.Calls cfg env op h d o f) (hs : (Session.finish h d (o, f)).after? = some σ) :
    Reached cfg env s₀ (alone σ.pool .idle) := by
  obtain ⟨hu, T, he, hT⟩ := hc.entered
  have hu' : T.Unused h := by
    rw [Pool.Unused, he.cases.1]
    exact hu
  obtain ⟨f₀, -, -, -, hb⟩ := hr.begins tidy hc
  refine finish hT hu' ?_ hs
  cases hb with
  | new _ _ hR hn => exact hR.newPreference hn
  | preferred _ _ _ _ hR hn => exact hR.withPreference hn

/-- The destructor of a `LockedResource`. -/
theorem dropLocked {s : Session V} {h r : ℕ} (hr : Reached cfg env s₀ (alone s.pool .idle))
    (hp : s.pool.rsource.ptr (.locked h) = some r) :
    Reached cfg env s₀ (alone (s.dropLocked env h r).pool .idle) := by
  obtain ⟨⟨x, hx, -⟩, -⟩ := hr.liveRefs _ _ hp
  have hx' : s.pool.packs.rental r = some x := hx
  by_cases he : (s.pool.rsource.assign (.locked h) none).expired r = true
  · have h₁ := hr.act (a := .dropLocked 0 h) (k := .onRelease r) (by simp [Allowed])
      (by simp [State.step, hp, he]; rfl)
    have h₂ := (h₁.destroyRental hx).advance (k := .idle) rfl
    simpa [Session.dropLocked, he, hx'] using h₂
  · have h₁ := hr.act (a := .dropLocked 0 h) (k := .dropPreference) (by simp [Allowed])
      (by simp [State.step, hp, he]; rfl)
    have h₂ := h₁.advance (k := .idle) rfl
    simpa [Session.dropLocked, Session.setPool, he] using h₂

/-- A rental that is pointed to is live. -/
theorem lockable {x : WeakResource} {r : ℕ} (h : Reached cfg env s₀ (alone S c))
    (hx : x.rsource = some r) (he : S.rsource.expired r = false) : S.lockable x = some r := by
  obtain ⟨v, hv⟩ := SharedPtrs.not_expired_iff.mp he
  obtain ⟨⟨y, hy, ht⟩, -⟩ := h.liveRefs v r hv
  have hy' : S.packs.rental r = some y := hy
  simp [Pool.lockable, hx, he, hy', Option.isSome_iff_ne_none, ht]

/-- **A step of a sequential run is a run of the machine.** -/
theorem step {s σ : Session V} {op : Op V A} (hr : Reached cfg env s₀ (alone s.pool .idle))
    (tidy : s.pool.Tidy) (hs : s.step cfg env op = some σ) :
    Reached cfg env s₀ (alone σ.pool .idle) := by
  obtain ⟨R, hR, hs⟩ := Session.step_spec hs
  cases hR with
  | call hc => exact hr.call tidy hc hs
  | dangling | gone => cases hs
  | @lockLive w h r a x hx hu hl =>
    cases hs
    exact hr.user (a := .lockLive w h) (by simp [Allowed])
      (by simp [State.step, hx, hl, hu, tidy.locker w x hx]; rfl)
  | @acquireWeak w hw =>
    cases hs
    exact hr.user (a := .acquireWeak w) (by simp [Allowed]) (by simp [State.step, hw]; rfl)
  | @acquireIfLocked w h r x hx hu hp he =>
    cases hs
    have hl := hr.lockable hp he
    exact hr.user (a := .lockLive w h) (by simp [Allowed])
      (by simp [State.step, hx, hl, hu, tidy.locker w x hx]; rfl)
  | refuses =>
    cases hs
    exact hr
  | @clone h h' r hp hu =>
    cases hs
    exact hr.user (a := .clone h h') (by simp [Allowed]) (by simp [State.step, hp, hu]; rfl)
  | @weak h w r hp hw =>
    cases hs
    exact hr.user (a := .weak h w) (by simp [Allowed]) (by simp [State.step, hp, hw]; rfl)
  | @assign h w r x hp hx =>
    cases hs
    exact hr.user (a := .assign w h) (by simp [Allowed])
      (by simp [State.step, hp, hx, tidy.locker w x hx]; rfl)
  | @dropWeak w x hx =>
    cases hs
    exact hr.user (a := .dropWeak w) (by simp [Allowed])
      (by simp [State.step, hx, tidy.locker w x hx]; rfl)
  | dropLocked hp =>
    cases hs
    exact hr.dropLocked hp
  | write =>
    cases hs
    exact hr

end Reached

/-! ### Runs -/

/-- `builder` and `onAcquire` return. -/
structure Env.NoThrow (env : Env V A E) : Prop where
  builder : ∀ n a x, env.builder n a ≠ .error x
  onAcquire : ∀ n a v x, env.onAcquire n a v ≠ .error x

/-- User code that does nothing. -/
def quiet : Env Unit Unit Unit where
  builder _ _ := .ok ()
  onAcquire _ _ _ := .ok ()
  onRelease _ _ := ()
  moved _ := ()
  acquired _ _ _ := ()
  pick _ := 0

theorem quiet_noThrow : quiet.NoThrow := ⟨by simp [quiet], by simp [quiet]⟩

theorem Env.NoThrow.action (hn : env.NoThrow) {s : State} {a : Action} (ha : Allowed env s a) :
    ResourcePool.NoThrow s a := by
  refine fun u invalid => ⟨fun e => ?_, fun e => ?_⟩
  · obtain ⟨n, b, x, hx⟩ := ha.1 u invalid e
    exact hn.builder n b x hx
  · obtain ⟨n, b, v, x, hx⟩ := ha.2 u invalid e
    exact hn.onAcquire n b v x hx

theorem alone_idle (S : Pool) : alone S .idle = ⟨S, fun _ => .idle⟩ := by
  simp [alone]

theorem holds_alone (S : Pool) {c : Pc} (hc : c.hold = .nothing) :
    (alone S c).holds = fun _ => .nothing := by
  funext u
  by_cases h : u = 0
  · simp [State.holds, alone, h, hc]
  · simp [State.holds, alone, h]
    rfl

namespace Reached

variable {s₀ s : State} {S : Pool} {c : Pc} {p : PackId}

/-- The indices, when no thread has taken one. -/
theorem indexInv (h : Reached cfg env s₀ (alone S c)) (hc : c.taken = none)
    (hm : S.indices.fetchAdds ≤ cfg.maxResources) : IndexInv cfg S.indices fun _ => none := by
  have hlt := cfg.maxResources_lt
  have hk : (alone S c).taken = fun _ => none := by
    funext u
    by_cases e : u = 0
    · simp [State.taken, alone, e, hc]
    · simp [State.taken, alone, e]
      rfl
  have := State.indexInv_of_reach (h.1.trans h.2) (show S.indices.fetchAdds < 2 ^ 64 by omega)
  rwa [hk] at this

theorem owners (h : Reached cfg env s₀ s) : Owners cfg s.pool.indices :=
  State.owners_of_reach (h.1.trans h.2)

/-- A new index is below `max_resources`. -/
theorem lt_of_takesIndex {f g : Frame V A E} {d : Caller} {i : ℕ}
    (h : Reached cfg env s₀ (alone f.pool (.readMaxIndex d)))
    (hm : f.pool.indices.fetchAdds ≤ cfg.maxResources)
    (hf : f.pool.indices.preferredFull cfg = false) (ht : f.TakesIndex i g) :
    i < cfg.maxResources ∧ (i < f.pool.indices.fetchAdds ∧
      g.pool.indices.fetchAdds = f.pool.indices.fetchAdds ∨
      i = f.pool.indices.fetchAdds ∧ g.pool.indices.fetchAdds = f.pool.indices.fetchAdds + 1) := by
  have inv := h.indexInv rfl hm
  rcases ht.fetchAdds hf hm with he | ⟨he, hi, hg⟩
  · cases ht with
    | pop hr hg => exact ⟨inv.recycled i hr, .inl ⟨inv.below i (.inl hr), he⟩⟩
    | fetchAdd _ _ hg =>
      rw [hg] at he
      exact absurd he (Nat.succ_ne_self _)
  · exact ⟨hi, .inr ⟨he, hg⟩⟩

theorem packInv_nothing (h : Reached cfg env s₀ (alone S c)) (hc : c.hold = .nothing) :
    PackInv cfg S.packs fun _ => .nothing := by
  have := h.packInv
  rwa [holds_alone S hc] at this

/-- Nothing is lost. -/
theorem lost (hn : env.NoThrow) (h : Reached cfg env s₀ s) (p : PackId) :
    s.pool.packs.lost p = false :=
  State.lost_of_reach ((h.1.trans h.2).mono fun _ _ ha =>
    State.keepsPacks_of_noThrow (hn.action ha)) p

/-- A pack whose object is away is rented. -/
theorem rented (hn : env.NoThrow) (h : Reached cfg env s₀ s)
    (hi : (s.pool.packs.pack p).initialized = true) (hr : (s.pool.packs.pack p).resource = none) :
    s.pool.packs.Rented p :=
  ((h.packInv.objects.built p hi).2 hr).resolve_right (by simp [h.lost hn])

/-- When nothing is dequeued, every spare that is not rented is in the queue. -/
theorem spare_mem (hn : env.NoThrow) (h : Reached cfg env s₀ (alone S c)) (hc : c.hold = .nothing)
    {j : ℕ} (hj : j < cfg.maxSpares) (hr : ¬ S.packs.Rented (.spare j)) :
    .spare j ∈ S.packs.freeResources := by
  rcases ((h.packInv_nothing hc).entries.spare j).mpr ⟨hj, hr, h.lost hn _⟩ with hm | ⟨u, hu⟩
  · exact hm
  · cases hu

/-- And so is every preferred pack that is built. -/
theorem preferred_mem (hn : env.NoThrow) (h : Reached cfg env s₀ (alone S c))
    (hc : c.hold = .nothing) {i : ℕ} (hi : (S.packs.pack (.preferred i)).initialized = true)
    (hr : ¬ S.packs.Rented (.preferred i)) : .preferred i ∈ S.packs.freeResources := by
  have hres : (S.packs.pack (.preferred i)).resource ≠ none := fun e => hr (h.rented hn hi e)
  rcases (h.packInv_nothing hc).entries.idle i hres with (hm | ⟨u, hu⟩) | ⟨u, hu⟩
  · exact hm
  · cases hu
  · cases hu

end Reached

namespace Session

variable {heap : Obj → V} {s s' : Session V} {P : Session V → Op V A → Prop}

/-- **Sequential runs are runs of the machine.** -/
theorem reached (h : Reach (step cfg env) P (init cfg heap) s) :
    s.pool.Tidy ∧ Reached cfg env (State.init cfg) (alone s.pool .idle) := by
  induction h with
  | refl => exact ⟨.init cfg, .refl, by rw [alone_idle]; exact .refl⟩
  | tail _ _ hs ih => exact ⟨tidy_step ih.1 hs, ih.2.step ih.1 hs⟩

/-- The rest of a run. -/
theorem reached_from {Q : Session V → Op V A → Prop} (h : Reach (step cfg env) P (init cfg heap) s)
    (h' : Reach (step cfg env) Q s s') :
    Reached cfg env (alone s.pool .idle) (alone s'.pool .idle) := by
  have h₀ := (reached h).2
  induction h' with
  | refl => exact ⟨h₀.1.trans h₀.2, .refl⟩
  | tail hr _ hs ih =>
    have hrun := (h.mono (Q := Any) fun _ _ _ => trivial).trans (hr.mono fun _ _ _ => trivial)
    exact ih.step (reached hrun).1 hs

/-- **The sequential pool refines the interleaved one**: the operations of a sequential run, with
the calls of the user's code and the exceptions in them, come down to steps of the machine that
begin and end with all threads idle, and in which nothing throws that the user's code does not. -/
theorem refines {s₁ s₂ : Session V} (h : Reach (step cfg env) Any (init cfg heap) s₁)
    (h' : Reach (step cfg env) Any s₁ s₂) :
    Reach (State.step cfg) (Allowed env) (State.init cfg) ⟨s₁.pool, fun _ => .idle⟩ ∧
      Reach (State.step cfg) (Allowed env) ⟨s₁.pool, fun _ => .idle⟩ ⟨s₂.pool, fun _ => .idle⟩ := by
  have hr := reached_from h h'
  rw [Reached, alone_idle, alone_idle] at hr
  exact hr

/-- An object is acquired and given back. -/
theorem refines_dropped : ∃ s₁ s₂ : Session Unit,
    run (step State.oneEach quiet) (init State.oneEach fun _ => ()) [.acquire 0 ()] = some s₁ ∧
      step State.oneEach quiet s₁ (.dropLocked 0) = some s₂ ∧
      Reach (State.step State.oneEach) (Allowed quiet) ⟨s₁.pool, fun _ => .idle⟩
        ⟨s₂.pool, fun _ => .idle⟩ := by
  obtain ⟨s₁, s₂, h₁, h₂⟩ : ∃ s₁ s₂ : Session Unit,
      run (step State.oneEach quiet) (init State.oneEach fun _ => ()) [.acquire 0 ()] = some s₁ ∧
        step State.oneEach quiet s₁ (.dropLocked 0) = some s₂ := ⟨_, _, rfl, rfl⟩
  have hr : Reach (step State.oneEach quiet) Any (init State.oneEach fun _ => ()) s₁ :=
    .of_run _ (fun _ _ _ => trivial) h₁
  exact ⟨s₁, s₂, h₁, h₂, (refines hr (.single trivial h₂)).2⟩

end Session

end MutilsTasks.ResourcePool
