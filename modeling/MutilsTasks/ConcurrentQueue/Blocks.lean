import MutilsTasks.Library.Tokens
import MutilsTasks.ConcurrentQueue.Claims

/-!
# The blocks of a producer

An index that a consumer has taken is its own, until it is done with it. A block of this producer
is in the index under its number as long as somebody is not done with one of its elements; the
one that makes the last of them empty has the block for itself, takes it out of the index and
gives it back. So the element at an index is there when its consumer takes it, and it is the one
that was enqueued with that index; and no block is given back while anybody still uses it.
-/

namespace MutilsTasks.ConcurrentQueue.Producer

open Machine Tokens

/-- What the producer, or a consumer, does with a block. -/
inductive Use where
  /-- Nothing: it is not of this producer. -/
  | elsewhere
  /-- It is in the index, under its number. -/
  | number (k : ℕ)
  /-- Consumer `u` will give it back. -/
  | consumer (u : ℕ)
  /-- The producer will insert it. -/
  | producer
  deriving DecidableEq

namespace Pc

/-- The index that the consumer has taken, and is not done with. -/
def index : Pc → Option ℕ
  | .loadBlock i | .take i _ | .setEmpty i _ => some i
  | _ => none

/-- The block in which the consumer takes an element, and the index. -/
def uses : Pc → Option (ℕ × ℕ)
  | .take i b | .setEmpty i b => some (i, b)
  | _ => none

/-- The index whose element the consumer has moved out. -/
def moved : Pc → Option ℕ
  | .setEmpty i _ => some i
  | _ => none

/-- The block that the consumer gives back. -/
def gives : Pc → Option ℕ
  | .clearEntry _ b | .giveBack b => some b
  | _ => none

/-- The index whose block the consumer takes out of the block index. -/
def clears : Pc → Option ℕ
  | .clearEntry i _ => some i
  | _ => none

theorem index_of_uses {c : Pc} {i b : ℕ} (h : c.uses = some (i, b)) : c.index = some i := by
  cases c with
  | take | setEmpty =>
    cases h
    rfl
  | _ => cases h

theorem index_of_moved {c : Pc} {i : ℕ} (h : c.moved = some i) : c.index = some i := by
  cases c with
  | setEmpty => exact h
  | _ => cases h

end Pc

namespace Enqueue

/-- The block that is not inserted yet. -/
def block : Enqueue → Option ℕ
  | .resetEmpty _ b | .tryConstruct _ b | .insert _ b => some b
  | _ => none

/-- The block of which the counter has been reset. -/
def fresh : Enqueue → Option ℕ
  | .tryConstruct _ b | .insert _ b => some b
  | _ => none

/-- There is a block for the element. -/
def ready : Enqueue → Bool
  | .construct _ | .publish _ => true
  | _ => false

/-- The element needs a new block. -/
def starts : Enqueue → Bool
  | .readHead _ | .requisition _ | .resetEmpty _ _ | .tryConstruct _ _ | .insert _ _ => true
  | _ => false

theorem block_of_fresh {e : Enqueue} {b : ℕ} (h : e.fresh = some b) : e.block = some b := by
  cases e with
  | tryConstruct x b' | insert x b' => exact h
  | _ => cases h

end Enqueue

/-- How many elements of block number `k` consumers are done with. -/
def doneIn (done : List ℕ) (k : ℕ) : ℕ := (done.filter fun i => i / blockSize = k).length

theorem doneIn_append (done : List ℕ) (i k : ℕ) :
    doneIn (done ++ [i]) k = doneIn done k + if i / blockSize = k then 1 else 0 := by
  by_cases h : i / blockSize = k <;> simp [doneIn, h]

/-- There are no more than a block has. -/
theorem doneIn_lt {done : List ℕ} {i : ℕ} (hd : done.Nodup) (hi : i ∉ done) :
    doneIn done (i / blockSize) < blockSize := by
  have hnodup : (i :: done.filter fun j => j / blockSize = i / blockSize).Nodup :=
    List.nodup_cons.mpr ⟨fun h => hi (List.mem_of_mem_filter h), hd.filter _⟩
  have hsub : (i :: done.filter fun j => j / blockSize = i / blockSize) ⊆
      List.range' (blockSize * (i / blockSize)) blockSize := by
    intro j hj
    have hk : j / blockSize = i / blockSize := by
      rcases List.mem_cons.mp hj with rfl | hj
      · rfl
      · simpa using (List.mem_filter.mp hj).2
    rw [List.mem_range'_1]
    unfold blockSize at hk ⊢
    omega
  have hle := (hnodup.subperm hsub).length_le
  rw [List.length_range', List.length_cons] at hle
  exact hle

/-- A block of which nobody has come to an element. -/
theorem doneIn_zero {done : List ℕ} {n : ℕ} (h : ∀ i ∈ done, i < n) (hn : n % blockSize = 0) :
    doneIn done (n / blockSize) = 0 := by
  rw [doneIn, List.length_eq_zero_iff, List.filter_eq_nil_iff]
  intro i hi
  have := h i hi
  unfold blockSize at *
  simp only [decide_eq_true_eq]
  omega

namespace State

variable {nothrow : Bool} {s t s' : State} {a : Action} {u v : ℕ} {c : Pc} {done : List ℕ}
  {use use' : ℕ → Use}

/-- How many block numbers there are. -/
def blocks (s : State) : ℕ :=
  (s.tailIndex + (if s.prod.ready then 1 else 0) + (blockSize - 1)) / blockSize

/-- Somebody is not done with an element of block number `k`. -/
def Open (s : State) (done : List ℕ) (k : ℕ) : Prop := k < s.blocks ∧ doneIn done k < blockSize

/-- The element at index `i` has been moved out. -/
def Taken (s : State) (done : List ℕ) (i : ℕ) : Prop := i ∈ done ∨ ∃ v, (s.pc v).moved = some i

/-- **Every index below the head is with one consumer, or done with.** -/
structure Held (s : State) (done : List ℕ) : Prop where
  distinct : Distinct done fun v => (s.pc v).index
  all : ∀ i, Somewhere done (fun v => (s.pc v).index) i ↔ i < s.headIndex

/-- **Every block is in one place.** -/
structure Placed (s : State) (done : List ℕ) (use : ℕ → Use) : Prop where
  ours : ∀ b, s.ours b = true ↔ use b ≠ .elsewhere
  gives : ∀ b v, (s.pc v).gives = some b ↔ use b = .consumer v
  producer : ∀ b, s.prod.block = some b ↔ use b = .producer
  number : ∀ b k, use b = .number k ↔ s.entry k = some b ∧ s.Open done k
  entry : ∀ k, s.Open done k → s.entry k ≠ none
  uses : ∀ v i b, (s.pc v).uses = some (i, b) → use b = .number (i / blockSize)
  clears : ∀ v i, (s.pc v).clears = some i →
    i < s.tailIndex ∧ blockSize ≤ doneIn done (i / blockSize)

/-- **What is in the blocks.** -/
structure Filled (nothrow : Bool) (s : State) (done : List ℕ) (use : ℕ → Use) : Prop where
  count : ∀ b k, use b = .number k → s.elementsCompletelyDequeued b = doneIn done k
  elements : ∀ b i, use b = .number (i / blockSize) → i < s.tailIndex → ¬ s.Taken done i →
    s.elements b (i % blockSize) = s.enqueued[i]?
  written : ∀ b x, use b = .number (s.tailIndex / blockSize) → s.prod = .publish x →
    s.elements b (s.tailIndex % blockSize) = some x
  tried : ∀ b x, s.prod = .insert x b → nothrow = false →
    s.elements b (s.tailIndex % blockSize) = some x
  fresh : ∀ b, s.prod.fresh = some b → s.elementsCompletelyDequeued b = 0

/-- **What the producer relies on.** -/
structure Produces (nothrow : Bool) (s : State) (use : ℕ → Use) : Prop where
  length : s.enqueued.length = s.tailIndex
  tail : s.tailIndex % blockSize ≠ 0 ∨ s.prod.ready = true →
    ∃ b, s.tailBlock = some b ∧ use b = .number (s.tailIndex / blockSize)
  starts : s.prod.starts = true → s.tailIndex % blockSize = 0
  constructs : ∀ x, s.prod = .construct x → nothrow = false → s.tailIndex % blockSize ≠ 0

/-- **What has been dequeued.** -/
structure Logged (s : State) (done : List ℕ) : Prop where
  nodup : (s.dequeued.map Prod.fst).Nodup
  mem : ∀ i, i ∈ s.dequeued.map Prod.fst ↔ s.Taken done i
  eq : ∀ i x, (i, x) ∈ s.dequeued → s.enqueued[i]? = some x

/-- **The blocks, and the indices in them.** -/
structure Blocks (nothrow : Bool) (s : State) (done : List ℕ) (use : ℕ → Use) : Prop where
  held : s.Held done
  placed : s.Placed done use
  filled : s.Filled nothrow done use
  produces : s.Produces nothrow use
  logged : s.Logged done

theorem init_blocks : init.Blocks nothrow [] fun _ => .elsewhere where
  held := ⟨⟨List.nodup_nil, by simp, by simp [init, Pc.index]⟩, by simp [Somewhere, init, Pc.index]⟩
  placed :=
    { ours := by simp [init]
      gives := by simp [init, Pc.gives]
      producer := by simp [init, Enqueue.block]
      number := by simp [init]
      entry := fun k h => by
        have := h.1
        simp [blocks, init, Enqueue.ready, blockSize] at this
      uses := by simp [init, Pc.uses]
      clears := by simp [init, Pc.clears] }
  filled := ⟨by simp, by simp, by simp, by simp [init], by simp [init, Enqueue.fresh]⟩
  produces := ⟨rfl, by simp [init, Enqueue.ready, blockSize], by simp [init, Enqueue.starts], by simp [init]⟩
  logged := ⟨List.nodup_nil, by simp [init, Taken, Pc.moved], by simp [init]⟩

/-! ### Steps that leave much as it is -/

theorem Held.of_eq (h : s.Held done) (hi : ∀ v, (t.pc v).index = (s.pc v).index)
    (hH : t.headIndex = s.headIndex) : t.Held done := by
  have e : (fun v => (t.pc v).index) = fun v => (s.pc v).index := funext hi
  exact ⟨e ▸ h.distinct, by rw [e, hH]; exact h.all⟩

theorem Placed.of_eq (h : s.Placed done use) (ho : t.ours = s.ours)
    (hg : ∀ v, (t.pc v).gives = (s.pc v).gives) (hp : t.prod.block = s.prod.block)
    (he : t.entry = s.entry) (hb : t.blocks = s.blocks)
    (hu : ∀ v, (t.pc v).uses = (s.pc v).uses) (hc : ∀ v, (t.pc v).clears = (s.pc v).clears)
    (hT : s.tailIndex ≤ t.tailIndex) : t.Placed done use where
  ours := ho ▸ h.ours
  gives b v := by rw [hg, h.gives]
  producer := hp ▸ h.producer
  number b k := by rw [h.number, he, Open, Open, hb]
  entry k hk := by
    rw [he]
    exact h.entry k (by rw [Open, hb] at hk; exact hk)
  uses v i b hv := h.uses v i b (hu v ▸ hv)
  clears v i hv := by
    obtain ⟨h₁, h₂⟩ := h.clears v i (hc v ▸ hv)
    exact ⟨by omega, h₂⟩

theorem taken_iff (hm : ∀ v, (t.pc v).moved = (s.pc v).moved) (i : ℕ) :
    t.Taken done i ↔ s.Taken done i := by
  simp only [Taken, hm]

/-- What is in the blocks that are in the index does not change. -/
theorem Filled.mono (h : s.Filled nothrow done use)
    (hb : ∀ b k, use' b = .number k → use b = .number k ∧ t.elements b = s.elements b ∧
      t.elementsCompletelyDequeued b = s.elementsCompletelyDequeued b)
    (hq : t.enqueued = s.enqueued) (hT : t.tailIndex = s.tailIndex)
    (hm : ∀ v, (t.pc v).moved = (s.pc v).moved)
    (hw : ∀ x, t.prod = .publish x → s.prod = .publish x)
    (hi : ∀ b x, t.prod = .insert x b → nothrow = false →
      s.prod = .insert x b ∧ t.elements b = s.elements b)
    (hf : ∀ b, t.prod.fresh = some b → s.prod.fresh = some b ∧
      t.elementsCompletelyDequeued b = s.elementsCompletelyDequeued b) :
    t.Filled nothrow done use' where
  count b k hk := by
    obtain ⟨hu, -, hn⟩ := hb b k hk
    rw [hn, h.count b k hu]
  elements b i hk hlt hn := by
    obtain ⟨hu, he, -⟩ := hb b _ hk
    rw [he, hq]
    exact h.elements b i hu (hT ▸ hlt) fun ht => hn ((taken_iff hm i).mpr ht)
  written b x hk hp := by
    obtain ⟨hu, he, -⟩ := hb b _ hk
    rw [he, hT]
    exact h.written b x (hT ▸ hu) (hw x hp)
  tried b x hp hno := by
    obtain ⟨hp, he⟩ := hi b x hp hno
    rw [he, hT]
    exact h.tried b x hp hno
  fresh b hb := by
    obtain ⟨hb, hn⟩ := hf b hb
    rw [hn, h.fresh b hb]

theorem Logged.of_eq (h : s.Logged done) (hd : t.dequeued = s.dequeued)
    (hq : t.enqueued = s.enqueued) (hm : ∀ v, (t.pc v).moved = (s.pc v).moved) : t.Logged done where
  nodup := hd ▸ h.nodup
  mem i := by rw [hd, h.mem, taken_iff hm]
  eq := hd ▸ hq ▸ h.eq

/-- What is read off where a consumer is does not change. -/
theorem update_same {α : Type*} {f : Pc → α} {c' : Pc} (hc : s.pc u = c') (h : f c = f c') (v : ℕ) :
    f (Function.update s.pc u c v) = f (s.pc v) := by
  by_cases e : v = u
  · rw [e, Function.update_self, h, hc]
  · rw [Function.update_of_ne e]

/-- The rule for a consumer that goes on without a block, or with the block that it has. -/
theorem Blocks.quiet (h : s.Blocks nothrow done use) {x y : ℕ} (hi : c.index = (s.pc u).index)
    (hu : c.uses = (s.pc u).uses) (hm : c.moved = (s.pc u).moved) (hg : c.gives = (s.pc u).gives)
    (hc : c.clears = (s.pc u).clears) : Blocks nothrow { s with
      dequeueOptimisticCount := x
      dequeueOvercommit := y
      pc := Function.update s.pc u c } done use where
  held := h.held.of_eq (update_same rfl hi) rfl
  placed := h.placed.of_eq rfl (update_same rfl hg) rfl rfl rfl (update_same rfl hu) (update_same rfl hc)
    (Nat.le_refl _)
  filled := h.filled.mono (fun _ _ hb => ⟨hb, rfl, rfl⟩) rfl rfl (update_same rfl hm) (fun _ => id)
    (fun _ _ hb _ => ⟨hb, rfl⟩) fun _ hb => ⟨hb, rfl⟩
  produces := ⟨h.produces.length, h.produces.tail, h.produces.starts, h.produces.constructs⟩
  logged := h.logged.of_eq rfl rfl (update_same rfl hm)

/-- A consumer takes an index. -/
theorem Blocks.takeIndex (h : s.Blocks nothrow done use) (hc : s.pc u = .fetchHead)
    (hH : fetchAdd s.headIndex 1 = s.headIndex + 1) :
    ({ s with headIndex := fetchAdd s.headIndex 1 }.goto u (.loadBlock s.headIndex)).Blocks nothrow
      done use where
  held := by
    have hnot : ¬ Somewhere done (fun v => (s.pc v).index) s.headIndex := by
      rw [h.held.all]
      exact Nat.lt_irrefl _
    have e : (fun v => (Function.update s.pc u (.loadBlock s.headIndex) v).index) =
        Function.update (fun v => (s.pc v).index) u (some s.headIndex) := by
      funext v
      by_cases ev : v = u
      · simp [ev, Pc.index]
      · simp [ev]
    refine ⟨e ▸ h.held.distinct.make hnot, fun i => ?_⟩
    show Somewhere done (fun v => (Function.update s.pc u (.loadBlock s.headIndex) v).index) i ↔
      i < fetchAdd s.headIndex 1
    rw [e, Distinct.somewhere_make (by rw [hc]; rfl), h.held.all, hH]
    omega
  placed := h.placed.of_eq rfl (update_same hc rfl) rfl rfl rfl
    (update_same hc rfl) (update_same hc rfl) (Nat.le_refl _)
  filled := h.filled.mono (fun _ _ hb => ⟨hb, rfl, rfl⟩) rfl rfl (update_same hc rfl)
    (fun _ => id) (fun _ _ hb _ => ⟨hb, rfl⟩) fun _ hb => ⟨hb, rfl⟩
  produces := ⟨h.produces.length, h.produces.tail, h.produces.starts, h.produces.constructs⟩
  logged := h.logged.of_eq rfl rfl (update_same hc rfl)

/-- The block of an index that a consumer has is in the block index. -/
theorem Blocks.open_of_index (h : s.Blocks nothrow done use) (hle : s.headIndex ≤ s.tailIndex) {i : ℕ}
    (hi : (s.pc u).index = some i) : i < s.tailIndex ∧ s.Open done (i / blockSize) := by
  have hlt : i < s.headIndex := (h.held.all i).mp (.of_hand hi)
  refine ⟨by omega, ?_, doneIn_lt h.held.distinct.nodup (h.held.distinct.apart u i hi)⟩
  unfold blocks blockSize
  omega

/-- A consumer finds the block of its index. -/
theorem Blocks.loadBlock (h : s.Blocks nothrow done use) (hle : s.headIndex ≤ s.tailIndex) {i b : ℕ}
    (hc : s.pc u = .loadBlock i) (he : s.entry (i / blockSize) = some b) :
    (s.goto u (.take i b)).Blocks nothrow done use where
  held := h.held.of_eq (update_same hc rfl) rfl
  placed :=
    { ours := h.placed.ours
      gives := fun b' v => by
        have hv : ∀ v, ((s.goto u (.take i b)).pc v).gives = (s.pc v).gives := update_same hc rfl
        rw [hv, h.placed.gives]
      producer := h.placed.producer
      number := h.placed.number
      entry := h.placed.entry
      uses := fun v j b' hv => by
        by_cases e : v = u
        · simp only [goto_pc, e, Function.update_self, Pc.uses, Option.some.injEq, Prod.mk.injEq] at hv
          obtain ⟨rfl, rfl⟩ := hv
          exact (h.placed.number _ _).mpr ⟨he, (h.open_of_index hle (by rw [hc]; rfl)).2⟩
        · rw [goto_pc, Function.update_of_ne e] at hv
          exact h.placed.uses v j b' hv
      clears := fun v j hv => by
        have hu : ∀ v, ((s.goto u (.take i b)).pc v).clears = (s.pc v).clears := update_same hc rfl
        exact h.placed.clears v j (hu v ▸ hv) }
  filled := h.filled.mono (fun _ _ hb => ⟨hb, rfl, rfl⟩) rfl rfl (update_same hc rfl)
    (fun _ => id) (fun _ _ hb _ => ⟨hb, rfl⟩) fun _ hb => ⟨hb, rfl⟩
  produces := ⟨h.produces.length, h.produces.tail, h.produces.starts, h.produces.constructs⟩
  logged := h.logged.of_eq rfl rfl (update_same hc rfl)

/-- An index is the place in a block, and the number of the block. -/
theorem eq_of_place {i j : ℕ} (hd : i / blockSize = j / blockSize) (hm : i % blockSize = j % blockSize) :
    i = j := by
  rw [← Nat.div_add_mod i blockSize, hd, hm, Nat.div_add_mod]

/-- A block has one number. -/
theorem eq_of_number {b k l : ℕ} (hk : use b = .number k) (hl : use b = .number l) : k = l :=
  Use.number.inj (hk.symm.trans hl)

/-- A number has one block. -/
theorem Placed.eq_of_number (h : s.Placed done use) {b b' k : ℕ} (hb : use b = .number k)
    (hb' : use b' = .number k) : b = b' := by
  obtain ⟨he, -⟩ := (h.number b k).mp hb
  obtain ⟨he', -⟩ := (h.number b' k).mp hb'
  exact Option.some.inj (he.symm.trans he')

/-- A block that is not inserted yet is not in the index. -/
theorem Placed.ne_of_block (h : s.Placed done use) {b b' k : ℕ} (hb : use b = .number k)
    (hb' : s.prod.block = some b') : b' ≠ b := by
  rintro rfl
  have := (h.producer b').mp hb'
  rw [hb] at this
  cases this

/-- A consumer's block is in the index. -/
theorem Placed.number_of_uses (h : s.Placed done use) {i b : ℕ} (hu : (s.pc u).uses = some (i, b)) :
    use b = .number (i / blockSize) ∧ s.entry (i / blockSize) = some b ∧
      s.Open done (i / blockSize) :=
  ⟨h.uses u i b hu, (h.number b _).mp (h.uses u i b hu)⟩

/-- A consumer that is at its element has not taken it yet. -/
theorem Blocks.not_taken (h : s.Blocks nothrow done use) {i : ℕ} (hi : (s.pc u).index = some i)
    (hm : (s.pc u).moved = none) : ¬ s.Taken done i := by
  rintro (hd | ⟨v, hv⟩)
  · exact h.held.distinct.apart u i hi hd
  · rw [h.held.distinct.one v u i (Pc.index_of_moved hv) hi, hm] at hv
    cases hv

/-- The element of a consumer is in the block, and it is the one that was enqueued. -/
theorem Blocks.element (h : s.Blocks nothrow done use) (hle : s.headIndex ≤ s.tailIndex) {i b : ℕ}
    (hc : s.pc u = .take i b) :
    s.elements b (i % blockSize) = s.enqueued[i]? ∧ s.elements b (i % blockSize) ≠ none := by
  have hlt := (h.open_of_index (u := u) hle (by rw [hc]; rfl)).1
  have he := h.filled.elements b i (h.placed.uses u i b (by rw [hc]; rfl)) hlt
    (h.not_taken (u := u) (by rw [hc]; rfl) (by rw [hc]; rfl))
  refine ⟨he, ?_⟩
  rw [he, ne_eq, List.getElem?_eq_none_iff, h.produces.length]
  omega

/-- What has been taken when `u` takes the element at `i`. -/
theorem taken_take {i b b' j : ℕ} (hc : s.pc u = .take i b) (ht : t.pc = Function.update s.pc u (.setEmpty i b')) :
    t.Taken done j ↔ j = i ∨ s.Taken done j := by
  have hu : (s.pc u).moved = none := by rw [hc]; rfl
  have e : (fun v => (t.pc v).moved) = Function.update (fun v => (s.pc v).moved) u (some i) := by
    rw [ht]
    funext v
    by_cases ev : v = u
    · simp [ev, Pc.moved]
    · simp [ev]
  have hmake : Somewhere done (Function.update (fun v => (s.pc v).moved) u (some i)) j ↔
      j = i ∨ Somewhere done (fun v => (s.pc v).moved) j := Distinct.somewhere_make hu
  rw [← e] at hmake
  exact hmake

/-- A consumer moves its element out. -/
theorem Blocks.take (h : s.Blocks nothrow done use) (hle : s.headIndex ≤ s.tailIndex) {i b x : ℕ}
    (hc : s.pc u = .take i b) (hx : s.elements b (i % blockSize) = some x) :
    (({ s with dequeued := s.dequeued ++ [(i, x)] }.setElement b (i % blockSize) none).goto u
      (.setEmpty i b)).Blocks nothrow done use := by
  have hi : (s.pc u).index = some i := by rw [hc]; rfl
  have hlt := (h.open_of_index hle hi).1
  have hnot := h.not_taken hi (by rw [hc]; rfl)
  have hnum : use b = .number (i / blockSize) := h.placed.uses u i b (by rw [hc]; rfl)
  -- the other places of the block keep their elements
  have hother : ∀ b' j, use b' = .number (j / blockSize) → j ≠ i →
      Function.update s.elements b (Function.update (s.elements b) (i % blockSize) none) b'
        (j % blockSize) = s.elements b' (j % blockSize) := by
    intro b' j hb' hne
    by_cases e : b' = b
    · subst e
      rw [Function.update_self, Function.update_of_ne]
      exact fun hm => hne (eq_of_place (State.eq_of_number hb' hnum) hm)
    · rw [Function.update_of_ne e]
  refine
    { held := h.held.of_eq (update_same hc rfl) rfl
      placed := h.placed.of_eq rfl (update_same hc rfl) rfl rfl rfl (update_same hc rfl)
        (update_same hc rfl) (Nat.le_refl _)
      filled := ?_
      produces :=
        { length := h.produces.length
          tail := h.produces.tail
          starts := h.produces.starts
          constructs := h.produces.constructs }
      logged := ?_ }
  · refine
      { count := h.filled.count
        elements := ?_
        written := ?_
        tried := ?_
        fresh := h.filled.fresh }
    · intro b' j hb' hj hn
      rw [taken_take hc rfl, not_or] at hn
      exact (hother b' j hb' hn.1).trans (h.filled.elements b' j hb' hj hn.2)
    · intro b' y hb' hp
      exact (hother b' s.tailIndex hb' (by omega)).trans (h.filled.written b' y hb' hp)
    · intro b' y hp hno
      have hne : b' ≠ b := h.placed.ne_of_block hnum (by rw [show s.prod = _ from hp]; rfl)
      simp only [goto_elements, setElement_elements, Function.update_of_ne hne]
      exact h.filled.tried b' y hp hno
  · have hmap : (s.dequeued ++ [(i, x)]).map Prod.fst = s.dequeued.map Prod.fst ++ [i] := by simp
    refine
      { nodup := ?_
        mem := ?_
        eq := ?_ }
    · show ((s.dequeued ++ [(i, x)]).map Prod.fst).Nodup
      rw [hmap, List.nodup_append]
      refine ⟨h.logged.nodup, List.nodup_singleton i, fun j hj k hk e => hnot ?_⟩
      rw [List.mem_singleton] at hk
      rw [← h.logged.mem, ← hk, ← e]
      exact hj
    · intro j
      show j ∈ (s.dequeued ++ [(i, x)]).map Prod.fst ↔ _
      rw [hmap, taken_take hc rfl, List.mem_append, List.mem_singleton, h.logged.mem, or_comm]
    · intro j y hj
      rcases List.mem_append.mp hj with hj | hj
      · exact h.logged.eq j y hj
      · rw [List.mem_singleton, Prod.mk.injEq] at hj
        obtain ⟨rfl, rfl⟩ := hj
        exact (h.element hle hc).1.symm.trans hx

end State

end MutilsTasks.ConcurrentQueue.Producer
