import MutilsTasks.ConcurrentQueue.Construct

/-!
# Every element is dequeued once

Every step of the producer and of the consumers keeps the blocks in order, and so they are in
every state. The element that a consumer finds at its index is the one that was enqueued with that
index, and no other consumer has it (`dequeued_once`).
-/

namespace MutilsTasks.ConcurrentQueue.Producer

open Machine Tokens

namespace State

variable {nothrow : Bool} {s s' : State} {a : Action} {u b : ℕ} {done : List ℕ} {use : ℕ → Use}

/-! ### Every step -/

/-- A consumer goes on. -/
theorem Blocks.work (h : s.Blocks nothrow done use) (hle : s.headIndex ≤ s.tailIndex)
    (hlt : s.pc u = .fetchHead → s.headIndex < s.tailIndex) (hsmall : s.Small a)
    (hs : s.work u = some s') : ∃ done use, s'.Blocks nothrow done use := by
  have hT := hsmall.1
  unfold State.work at hs
  cases hc : s.pc u with
  | idle => simp [hc] at hs
  | loadTail | loadOvercommit | fetchOptimistic | addOvercommit =>
    simp only [hc, Option.some.injEq] at hs
    subst hs
    exact ⟨done, use, h.quiet (by rw [hc]; rfl) (by rw [hc]; rfl) (by rw [hc]; rfl) (by rw [hc]; rfl)
      (by rw [hc]; rfl)⟩
  | loadOptimistic | loadTailAgain =>
    simp only [hc, Option.some.injEq] at hs
    subst hs
    split <;> exact ⟨done, use, h.quiet (by rw [hc]; rfl) (by rw [hc]; rfl) (by rw [hc]; rfl)
      (by rw [hc]; rfl) (by rw [hc]; rfl)⟩
  | fetchHead =>
    simp only [hc, Option.some.injEq] at hs
    subst hs
    have := hlt hc
    exact ⟨done, use, h.takeIndex hc (fetchAdd_of_lt (by omega))⟩
  | loadBlock i =>
    simp only [hc, Option.map_eq_some_iff] at hs
    obtain ⟨b, hb, rfl⟩ := hs
    exact ⟨done, use, h.loadBlock hle hc hb⟩
  | take i b =>
    simp only [hc, Option.map_eq_some_iff] at hs
    obtain ⟨x, hx, rfl⟩ := hs
    exact ⟨done, use, h.take hle hc hx⟩
  | setEmpty i b =>
    simp only [hc, Option.some.injEq] at hs
    subst hs
    split
    · rename_i hn
      exact ⟨_, _, h.setEmptyLast hle hc hn⟩
    · rename_i hn
      exact ⟨_, _, h.setEmpty hc hn⟩
  | clearEntry i b =>
    simp only [hc, Option.some.injEq] at hs
    subst hs
    exact ⟨_, _, h.clearEntry hc⟩
  | giveBack b =>
    simp only [hc, Option.some.injEq] at hs
    subst hs
    exact ⟨_, _, h.giveBack hc⟩

/-- The producer goes on. -/
theorem Blocks.produce (h : s.Blocks nothrow done use) (hle : s.headIndex ≤ s.tailIndex)
    (hsmall : s.Small a) (hs : s.produce nothrow = some s') :
    ∃ done use, s'.Blocks nothrow done use := by
  have hT := hsmall.1
  unfold State.produce at hs
  cases hp : s.prod with
  | idle | requisition x => simp [hp] at hs
  | readHead x =>
    simp only [hp, Option.some.injEq] at hs
    subst hs
    have hzero := h.produces.starts (by rw [hp]; rfl)
    refine ⟨done, use, h.turn ?_ ?_ ?_ ?_ ?_ ?_ fun _ => hzero⟩
    · rw [hp]
      split <;> rfl
    · split <;> simp [blocks, hp, Enqueue.ready]
    · split <;> simp
    · rw [hp]
      split <;> rfl
    · split <;> simp
    · split <;> simp [Enqueue.ready]
  | resetEmpty x b =>
    simp only [hp, Option.some.injEq] at hs
    subst hs
    exact ⟨done, use, h.resetEmpty hp⟩
  | tryConstruct x b =>
    simp only [hp, Option.some.injEq] at hs
    subst hs
    exact ⟨done, use, h.tryConstruct hp⟩
  | insert x b =>
    simp only [hp, Option.some.injEq] at hs
    subst hs
    exact ⟨done, _, h.insert hle hp⟩
  | construct x =>
    simp only [hp, Option.map_eq_some_iff] at hs
    obtain ⟨b, hb, rfl⟩ := hs
    exact ⟨done, use, h.construct hp hb⟩
  | publish x =>
    simp only [hp, Option.some.injEq] at hs
    subst hs
    exact ⟨done, use, h.publish hp (fetchAdd_of_lt (by omega))⟩

theorem Blocks.step (h : s.Blocks nothrow done use) (hle : s.headIndex ≤ s.tailIndex)
    (hlt : ∀ u, s.pc u = .fetchHead → s.headIndex < s.tailIndex) (hsmall : s.Small a)
    (hs : s.step nothrow a = some s') : ∃ done use, s'.Blocks nothrow done use := by
  cases a with
  | work u => exact h.work hle (hlt u) hsmall hs
  | produce => exact h.produce hle hsmall hs
  | dequeue u =>
    simp only [State.step, Option.ite_none_right_eq_some, Option.some.injEq] at hs
    obtain ⟨hc, rfl⟩ := hs
    exact ⟨done, use, h.quiet (by rw [hc]; rfl) (by rw [hc]; rfl) (by rw [hc]; rfl) (by rw [hc]; rfl)
      (by rw [hc]; rfl)⟩
  | enqueue x =>
    simp only [State.step, Option.ite_none_right_eq_some, Option.some.injEq] at hs
    obtain ⟨hp, rfl⟩ := hs
    split
    · rename_i hT
      exact ⟨done, use, h.turn (by rw [hp]; rfl) (by simp [blocks, hp, Enqueue.ready]) (by simp)
        (by rw [hp]; rfl) (by simp) (by simp [Enqueue.ready]) fun _ => hT⟩
    · rename_i hT
      refine ⟨done, use, h.turn (by rw [hp]; rfl) ?_ (by simp) (by rw [hp]; rfl) (by simp)
        (fun _ => hT) fun hst => by cases hst⟩
      exact blocks_ready hT _ s.prod
  | requisition b =>
    simp only [State.step] at hs
    split at hs
    · rename_i x hp
      split at hs
      · cases hs
      · rename_i hb
        cases hs
        exact ⟨done, _, h.requisition hp (by simpa using hb)⟩
    · cases hs
  | fail =>
    simp only [State.step] at hs
    split at hs
    · rename_i x hp
      cases hs
      exact ⟨done, use, h.turn (by rw [hp]; rfl) (by simp [blocks, hp, Enqueue.ready]) (by simp)
        (by rw [hp]; rfl) (by simp) (by simp [Enqueue.ready]) (by simp [Enqueue.starts])⟩
    · cases hs
  | throws =>
    simp only [State.step] at hs
    split at hs
    · rename_i x b hp
      cases hs
      exact ⟨done, _, h.throws hp⟩
    · rename_i x hp
      split at hs
      · cases hs
      · rename_i hn
        cases hs
        have hT := h.produces.constructs x hp (by simpa using hn)
        exact ⟨done, use, h.turn (by rw [hp]; rfl) (blocks_ready hT _ s.prod) (by simp)
          (by rw [hp]; rfl) (by simp) (by simp [Enqueue.ready]) (by simp [Enqueue.starts])⟩
    · cases hs
  | foreign b i x n =>
    simp only [State.step] at hs
    split at hs
    · cases hs
    · rename_i hb
      cases hs
      exact ⟨done, use, h.foreign (by simpa using hb)⟩

theorem blocks_of_reach (h : Reach (step nothrow) Small init s) :
    ∃ done use, s.Blocks nothrow done use := by
  refine h.invariant (I := fun s : State => ∃ done use, s.Blocks nothrow done use)
    ⟨_, _, init_blocks⟩ fun s a s' hr hI ha hs => ?_
  obtain ⟨done, use, hB⟩ := hI
  obtain ⟨C, G, hC⟩ := counts_of_reach hr
  exact hB.step hC.head_le (fun u hu => hC.head_lt hu) ha hs

/-! ### Every state -/

/-- **What has been dequeued, and what has not.** -/
structure Delivered (s : State) : Prop where
  length : s.enqueued.length = s.tailIndex
  head : s.headIndex ≤ s.tailIndex
  once : (s.dequeued.map Prod.fst).Nodup
  same : ∀ i x, (i, x) ∈ s.dequeued → s.enqueued[i]? = some x
  /-- An index below the head is with its consumer until its element is dequeued. -/
  all : ∀ i, i < s.headIndex ↔ i ∈ s.dequeued.map Prod.fst ∨
    ∃ u, s.pc u = .loadBlock i ∨ ∃ b, s.pc u = .take i b
  one : ∀ u v i, (s.pc u).index = some i → (s.pc v).index = some i → u = v
  /-- With no consumer in a call, what was given up and what was taken is all there was. -/
  rest : (∀ u, s.pc u = .idle) →
    s.dequeueOptimisticCount = s.dequeueOvercommit + s.headIndex

/-- **Who may touch a block**, and what the source asserts. -/
structure Guarded (nothrow : Bool) (s : State) : Prop where
  /-- No consumer finds a null pointer, or raw memory. -/
  work : ∀ u, s.pc u ≠ .idle → s.work u ≠ none
  produce : s.prod ≠ .idle → (∀ x, s.prod ≠ .requisition x) → s.produce nothrow ≠ none
  uses : ∀ u i b, (s.pc u).uses = some (i, b) → s.ours b = true
  /-- Nobody else uses a block that is given back. -/
  gives : ∀ u b, (s.pc u).gives = some b → s.ours b = true ∧
    ∀ v, (∀ i, (s.pc v).uses ≠ some (i, b)) ∧ ((s.pc v).gives = some b → v = u)
  inserts : ∀ b, s.prod.block = some b → s.ours b = true ∧ ∀ v i, (s.pc v).uses ≠ some (i, b)
  /-- No consumer is at the place where the producer constructs. -/
  constructs : ∀ x b, s.prod = .construct x → s.tailBlock = some b → s.ours b = true ∧
    ∀ v i, (s.pc v).uses = some (i, b) → i % blockSize ≠ s.tailIndex % blockSize
  /-- `assert(prevVal < BLOCK_SIZE)`. -/
  prevVal : ∀ u i b, s.pc u = .setEmpty i b → s.elementsCompletelyDequeued b < blockSize
  /-- `assert(overcommit <= myDequeueCount)`. -/
  overcommit : ∀ u m o, s.pc u = .loadTailAgain m o → o ≤ m

/-- The counters when no consumer is in a call. -/
theorem Counts.rest {C G : Finset ℕ} (h : s.Counts C G) (hi : ∀ u, s.pc u = .idle) :
    s.dequeueOptimisticCount = s.dequeueOvercommit + s.headIndex := by
  obtain ⟨k, hk, hhead⟩ := h.head
  obtain ⟨j, hj, htries⟩ := h.tries
  obtain rfl : k = 0 := hk.eq_zero fun u => by rw [hi u]; rfl
  obtain rfl : j = 0 := hj.eq_zero fun u => by rw [hi u]; rfl
  have := h.overcommit
  omega

/-- A consumer has an index, or has moved the element out. -/
theorem index_iff {i : ℕ} : (∃ u, (s.pc u).index = some i) ↔
    (∃ u, (s.pc u).moved = some i) ∨ ∃ u, s.pc u = .loadBlock i ∨ ∃ b, s.pc u = .take i b := by
  constructor
  · rintro ⟨u, hu⟩
    cases hc : s.pc u with
    | loadBlock j =>
      rw [hc] at hu
      cases hu
      exact .inr ⟨u, .inl hc⟩
    | take j b =>
      rw [hc] at hu
      cases hu
      exact .inr ⟨u, .inr ⟨b, hc⟩⟩
    | setEmpty j b =>
      rw [hc] at hu
      exact .inl ⟨u, by rw [hc]; exact hu⟩
    | _ =>
      rw [hc] at hu
      cases hu
  · rintro (⟨u, hu⟩ | ⟨u, hu | ⟨b, hu⟩⟩)
    · exact ⟨u, Pc.index_of_moved hu⟩
    · exact ⟨u, by rw [hu]; rfl⟩
    · exact ⟨u, by rw [hu]; rfl⟩

theorem Blocks.delivered (h : s.Blocks nothrow done use) {C G : Finset ℕ} (hC : s.Counts C G) :
    s.Delivered where
  length := h.produces.length
  head := hC.head_le
  once := h.logged.nodup
  same := h.logged.eq
  all i := by
    rw [← h.held.all, h.logged.mem, Somewhere, Taken, index_iff, or_assoc]
  one u v i hu hv := h.held.distinct.one u v i hu hv
  rest := hC.rest

/-- A block with a number is of this producer. -/
theorem Placed.ours_of_use (h : s.Placed done use) {q : Use} (hb : use b = q) (hq : q ≠ .elsewhere) :
    s.ours b = true := (h.ours b).mpr (hb ▸ hq)

/-- Nobody uses a block that has no number. -/
theorem Placed.not_uses (h : s.Placed done use) (hb : ∀ k, use b ≠ .number k) (v i : ℕ) :
    (s.pc v).uses ≠ some (i, b) := fun hv => hb _ (h.uses v i b hv)

/-- No consumer finds a null pointer, or raw memory. -/
theorem Blocks.work_ne_none (h : s.Blocks nothrow done use) (hle : s.headIndex ≤ s.tailIndex)
    (hu : s.pc u ≠ .idle) : s.work u ≠ none := by
  unfold State.work
  cases hc : s.pc u with
  | idle => exact absurd hc hu
  | loadBlock i =>
    simp only [ne_eq, Option.map_eq_none_iff]
    exact h.placed.entry _ (h.open_of_index (u := u) hle (by rw [hc]; rfl)).2
  | take i b =>
    simp only [ne_eq, Option.map_eq_none_iff]
    exact (h.element hle hc).2
  | _ => simp

theorem Blocks.produce_ne_none (h : s.Blocks nothrow done use) (hp : s.prod ≠ .idle)
    (hr : ∀ x, s.prod ≠ .requisition x) : s.produce nothrow ≠ none := by
  unfold State.produce
  cases hc : s.prod with
  | idle => exact absurd hc hp
  | requisition x => exact absurd hc (hr x)
  | construct x =>
    obtain ⟨b, hb, -⟩ := h.produces.tail (.inr (by rw [hc]; rfl))
    simp [hb]
  | _ => simp

theorem Blocks.guarded (h : s.Blocks nothrow done use) {C G : Finset ℕ} (hC : s.Counts C G) :
    s.Guarded nothrow where
  work u := h.work_ne_none hC.head_le
  produce := h.produce_ne_none
  uses u i b hu := h.placed.ours_of_use (h.placed.uses u i b hu) (by simp)
  gives u b hu := by
    have hb := (h.placed.gives b u).mp hu
    refine ⟨h.placed.ours_of_use hb (by simp), fun v => ⟨h.placed.not_uses (by simp [hb]) v,
      fun hv => ?_⟩⟩
    exact Use.consumer.inj (((h.placed.gives b v).mp hv).symm.trans hb)
  inserts b hb := ⟨h.placed.ours_of_use ((h.placed.producer b).mp hb) (by simp),
    h.placed.not_uses (h.ne_number hb)⟩
  constructs x b hp hb := by
    obtain ⟨b', hb', hnum⟩ := h.produces.tail (.inr (by rw [hp]; rfl))
    obtain rfl : b' = b := Option.some.inj (hb'.symm.trans hb)
    refine ⟨h.placed.ours_of_use hnum (by simp), fun v i hv hm => ?_⟩
    have := (h.open_of_index hC.head_le (Pc.index_of_uses hv)).1
    have := eq_of_place (State.eq_of_number (h.placed.uses v i b' hv) hnum) hm
    omega
  prevVal u i b hc := by
    rw [h.count hc]
    exact (h.placed.number_of_uses (u := u) (i := i) (b := b) (by rw [hc]; rfl)).2.2.2
  overcommit u m o hc :=
    Nat.le_trans (hC.readBefore u m o (by rw [hc]; rfl)) (below_le C m)

/-- **Every element is dequeued once, and as it was enqueued**; nobody touches a block that is not
his. -/
theorem dequeued_once (h : Reach (step nothrow) Small init s) : s.Delivered ∧ s.Guarded nothrow := by
  obtain ⟨done, use, hB⟩ := blocks_of_reach h
  obtain ⟨C, G, hC⟩ := counts_of_reach h
  exact ⟨hB.delivered hC, hB.guarded hC⟩

/-- The producer enqueues `7` and `8`. Consumer `1` has seen that there is a second element when
consumer `0` dequeues it: it gives up. -/
def overtaken : List Action :=
  .enqueue 7 :: .produce :: .requisition 3 :: List.replicate 4 .produce ++
    .enqueue 8 :: List.replicate 2 .produce ++
    .dequeue 0 :: List.replicate 9 (.work 0) ++
    .dequeue 1 :: List.replicate 3 (.work 1) ++
    .dequeue 0 :: List.replicate 9 (.work 0) ++ List.replicate 3 (.work 1)

theorem dequeued_once_overtaken : ∃ s, run (step true) init overtaken = some s ∧
    s.dequeued = [(0, 7), (1, 8)] ∧ s.dequeueOvercommit = 1 ∧ s.Delivered ∧ s.Guarded true := by
  obtain ⟨s, hs, hg, hd, ho⟩ : ∃ s, run (step true) init overtaken = some s ∧
      run (fun s a => if s.Small a then step true s a else none) init overtaken = some s ∧
      s.dequeued = [(0, 7), (1, 8)] ∧ s.dequeueOvercommit = 1 := ⟨_, rfl, rfl, rfl, rfl⟩
  exact ⟨s, hs, hd, ho, dequeued_once (.of_guarded overtaken hg)⟩

end State

end MutilsTasks.ConcurrentQueue.Producer
