import MutilsTasks.ConcurrentQueue.GiveBack

/-!
# The producer's blocks

The producer gets a block that nobody has, and resets its counter, before the block is in the
index. It constructs an element in a block that is its own, or in a place of the last block that
no consumer has come to, before it raises `tailIndex`. So what consumers rely on is as it was after
each of its steps, and after an exception of the element's constructor.
-/

namespace MutilsTasks.ConcurrentQueue.Producer

open Machine Tokens

namespace State

variable {nothrow : Bool} {s t : State} {b : ℕ} {done : List ℕ} {use : ℕ → Use}

/-- The rule for a producer that goes on without a block, or with the block that it has. -/
theorem Blocks.turn (h : s.Blocks nothrow done use) {e : Enqueue} (hb : e.block = s.prod.block)
    (hr : (s.turn e).blocks = s.blocks) (hw : ∀ x, e ≠ .publish x) (hf : e.fresh = s.prod.fresh)
    (hi : ∀ b x, e ≠ .insert x b) (ht : e.ready = true → s.tailIndex % blockSize ≠ 0)
    (hs : e.starts = true → s.tailIndex % blockSize = 0) : (s.turn e).Blocks nothrow done use where
  held := h.held.of_eq (fun _ => rfl) rfl
  placed := h.placed.of_eq rfl (fun _ => rfl) hb rfl hr (fun _ => rfl) (fun _ => rfl) (Nat.le_refl _)
  filled := h.filled.mono (fun _ _ hk => ⟨hk, rfl, rfl⟩) rfl rfl (fun _ => rfl)
    (fun x hx => absurd hx (hw x)) (fun b x hx => absurd hx (hi b x)) fun b hx => ⟨hf ▸ hx, rfl⟩
  produces := ⟨h.produces.length, fun hT => h.produces.tail (hT.elim .inl fun hr => .inl (ht hr)), hs,
    fun x hx _ => ht (by rw [show e = _ from hx]; rfl)⟩
  logged := h.logged.of_eq rfl rfl fun _ => rfl

/-- An element for which there is a place in the last block adds no block. -/
theorem blocks_ready (hT : s.tailIndex % blockSize ≠ 0) (e e' : Enqueue) :
    (s.turn e).blocks = (s.turn e').blocks := by
  unfold blocks blockSize at *
  simp only [turn_tailIndex, turn_prod]
  split <;> split <;> omega

theorem Placed.elsewhere_of_not_ours (h : s.Placed done use) (hb : s.ours b = false) :
    use b = .elsewhere := by
  by_contra hne
  have := (h.ours b).mpr hne
  rw [hb] at this
  cases this

theorem Placed.requisition (h : s.Placed done use) (hel : use b = .elsewhere)
    (hp : s.prod.block = none) (ho : t.ours = Function.update s.ours b true)
    (hb : t.prod.block = some b) (hpc : t.pc = s.pc) (he : t.entry = s.entry)
    (hn : t.blocks = s.blocks) (hT : t.tailIndex = s.tailIndex) :
    t.Placed done (Function.update use b .producer) := by
  have hno : ∀ k, use b ≠ .number k := by simp [hel]
  refine
    { ours := ?_
      gives := ?_
      producer := ?_
      number := ?_
      entry := ?_
      uses := ?_
      clears := fun v j hv => hT ▸ h.clears v j (hpc ▸ hv) }
  · intro b'
    rw [ho]
    by_cases e : b' = b
    · simp [e]
    · rw [Function.update_of_ne e, Function.update_of_ne e]
      exact h.ours b'
  · intro b' v
    rw [hpc]
    exact iff_of_elsewhere (fun b' => h.gives b' v) (by rw [hel]; simp) (by simp) b'
  · refine iff_of_here h.producer hb fun b' e => ?_
    rw [hb, hp]
    exact iff_of_false (fun hb' => e (Option.some.inj hb').symm) (by simp)
  · intro b' k
    rw [he, Open, hn]
    exact (iff_of_elsewhere (fun b' => (h.number b' k).symm) (hno k) (by simp) b').symm
  · intro k hk
    rw [Open, hn] at hk
    rw [he]
    exact h.entry k hk
  · intro v j b' hv
    have hb' := h.uses v j b' (hpc ▸ hv)
    rw [Function.update_of_ne (fun e => hno _ (e ▸ hb')), hb']

/-- The producer gets a block. -/
theorem Blocks.requisition (h : s.Blocks nothrow done use) {x : ℕ} (hp : s.prod = .requisition x)
    (hb : s.ours b = false) : ((s.setOurs b true).turn (.resetEmpty x b)).Blocks nothrow done
      (Function.update use b .producer) := by
  have hel := h.placed.elsewhere_of_not_ours hb
  have hno : ∀ k, use b ≠ .number k := by simp [hel]
  have hpr := h.produces.of_update (q := .producer) hno
  refine
    { held := h.held.of_eq (fun _ => rfl) rfl
      placed := h.placed.requisition hel (by rw [hp]; rfl) rfl rfl rfl rfl
        (by simp [blocks, hp, Enqueue.ready]) rfl
      filled := ?_
      produces :=
        { length := hpr.length
          tail := fun hT => hpr.tail (hT.imp_right fun hr => by cases hr)
          starts := fun _ => h.produces.starts (by rw [hp]; rfl)
          constructs := fun y hy => by cases hy }
      logged := h.logged.of_eq rfl rfl fun _ => rfl }
  refine h.filled.mono (fun b' k hk => ?_) rfl rfl (fun _ => rfl) (fun y hy => ?_)
    (fun b' y hy => ?_) fun b' hb' => ?_
  · exact ⟨(number_of_forget (by simp) hk).2, rfl, rfl⟩
  · cases hy
  · cases hy
  · cases hb'

/-- The block of the producer is not in the index. -/
theorem Blocks.ne_number (h : s.Blocks nothrow done use) (hb : s.prod.block = some b) (k : ℕ) :
    use b ≠ .number k := by
  rw [(h.placed.producer b).mp hb]
  simp

/-- The producer resets the counter of the new block. -/
theorem Blocks.resetEmpty (h : s.Blocks nothrow done use) {x : ℕ} (hp : s.prod = .resetEmpty x b) :
    ((s.setCount b 0).turn (if nothrow then .insert x b else .tryConstruct x b)).Blocks nothrow done
      use := by
  have hno := h.ne_number (b := b) (by rw [hp]; rfl)
  have hT := h.produces.starts (by rw [hp]; rfl)
  refine
    { held := h.held.of_eq (fun _ => rfl) rfl
      placed := h.placed.of_eq rfl (fun _ => rfl) ?_ rfl ?_ (fun _ => rfl) (fun _ => rfl)
        (Nat.le_refl _)
      filled :=
        { count := ?_
          elements := h.filled.elements
          written := ?_
          tried := ?_
          fresh := ?_ }
      produces :=
        { length := h.produces.length
          tail := fun hT' => h.produces.tail ?_
          starts := fun _ => hT
          constructs := ?_ }
      logged := h.logged.of_eq rfl rfl fun _ => rfl }
  · rw [hp]
    cases nothrow <;> rfl
  · cases nothrow <;> simp [blocks, hp, Enqueue.ready]
  · intro b' k hk
    have hne : b' ≠ b := fun e => hno k (e ▸ hk)
    simp [hne, h.filled.count b' k hk]
  · intro b' y _ hy
    cases nothrow <;> cases hy
  · intro b' y hy hn
    subst hn
    cases hy
  · intro b' hb'
    obtain rfl : b = b' := by
      cases nothrow <;> exact Option.some.inj hb'
    simp
  · refine hT'.imp_right fun hr => ?_
    cases nothrow <;> cases hr
  · intro y hy
    cases nothrow <;> cases hy

/-- The producer constructs the first element of a block before the block is inserted. -/
theorem Blocks.tryConstruct (h : s.Blocks nothrow done use) {x : ℕ} (hp : s.prod = .tryConstruct x b) :
    ((s.setElement b (s.tailIndex % blockSize) (some x)).turn (.insert x b)).Blocks nothrow done
      use := by
  have hno := h.ne_number (b := b) (by rw [hp]; rfl)
  refine
    { held := h.held.of_eq (fun _ => rfl) rfl
      placed := h.placed.of_eq rfl (fun _ => rfl) (by rw [hp]; rfl) rfl
        (by simp [blocks, hp, Enqueue.ready]) (fun _ => rfl) (fun _ => rfl) (Nat.le_refl _)
      filled :=
        { count := h.filled.count
          elements := ?_
          written := ?_
          tried := ?_
          fresh := ?_ }
      produces :=
        { length := h.produces.length
          tail := fun hT' => h.produces.tail ?_
          starts := fun _ => h.produces.starts (by rw [hp]; rfl)
          constructs := ?_ }
      logged := h.logged.of_eq rfl rfl fun _ => rfl }
  · intro b' j hb' hj hn
    have hne : b' ≠ b := fun e => hno _ (e ▸ hb')
    simp only [turn_elements, setElement_elements, Function.update_of_ne hne]
    exact h.filled.elements b' j hb' hj hn
  · intro b' y _ hy
    cases hy
  · intro b' y hy _
    cases hy
    simp
  · intro b' hb'
    cases hb'
    exact h.filled.fresh b (by rw [hp]; rfl)
  · exact hT'.imp_right fun hr => by cases hr
  · intro y hy
    cases hy

/-- The producer constructs an element in a place of the last block. -/
theorem Blocks.construct (h : s.Blocks nothrow done use) {x : ℕ} (hp : s.prod = .construct x)
    (hb : s.tailBlock = some b) :
    ((s.setElement b (s.tailIndex % blockSize) (some x)).turn (.publish x)).Blocks nothrow done
      use := by
  have hready : s.prod.ready = true := by rw [hp]; rfl
  obtain ⟨b₀, hb₀, hnum⟩ := h.produces.tail (.inr hready)
  obtain rfl : b₀ = b := Option.some.inj (hb₀.symm.trans hb)
  refine
    { held := h.held.of_eq (fun _ => rfl) rfl
      placed := h.placed.of_eq rfl (fun _ => rfl) (by rw [hp]; rfl) rfl
        (by simp [blocks, hp, Enqueue.ready]) (fun _ => rfl) (fun _ => rfl) (Nat.le_refl _)
      filled :=
        { count := h.filled.count
          elements := ?_
          written := ?_
          tried := ?_
          fresh := ?_ }
      produces :=
        { length := h.produces.length
          tail := fun _ => ⟨b₀, hb, hnum⟩
          starts := ?_
          constructs := ?_ }
      logged := h.logged.of_eq rfl rfl fun _ => rfl }
  · intro b' j hb' hj hn
    refine Eq.trans ?_ (h.filled.elements b' j hb' hj hn)
    by_cases e : b' = b₀
    · -- no index below the tail has this place
      subst e
      simp only [turn_elements, setElement_elements, Function.update_self]
      rw [Function.update_of_ne]
      intro hm
      have := eq_of_place (State.eq_of_number hb' hnum) hm
      simp only [turn_tailIndex, setElement_tailIndex] at hj
      omega
    · simp [e]
  · intro b' y hb' hy
    cases hy
    obtain rfl := h.placed.eq_of_number hb' hnum
    simp
  · intro b' y hy _
    cases hy
  · intro b' hb'
    cases hb'
  · intro hs
    cases hs
  · intro y hy
    cases hy

/-- The producer raises the tail. -/
theorem Blocks.publish (h : s.Blocks nothrow done use) {x : ℕ} (hp : s.prod = .publish x)
    (hT : fetchAdd s.tailIndex 1 = s.tailIndex + 1) : Blocks nothrow ({ s with
      tailIndex := fetchAdd s.tailIndex 1
      enqueued := s.enqueued ++ [x] }.turn .idle) done use := by
  have hready : s.prod.ready = true := by rw [hp]; rfl
  obtain ⟨b, hb, hnum⟩ := h.produces.tail (.inr hready)
  have hlen := h.produces.length
  rw [hT]
  refine
    { held := h.held.of_eq (fun _ => rfl) rfl
      placed := h.placed.of_eq rfl (fun _ => rfl) (by rw [hp]; rfl) rfl
        (by simp [blocks, hp, Enqueue.ready]) (fun _ => rfl) (fun _ => rfl) (Nat.le_succ _)
      filled :=
        { count := h.filled.count
          elements := ?_
          written := ?_
          tried := ?_
          fresh := ?_ }
      produces :=
        { length := ?_
          tail := fun hr => ⟨b, hb, ?_⟩
          starts := ?_
          constructs := ?_ }
      logged :=
        { nodup := h.logged.nodup
          mem := h.logged.mem
          eq := ?_ } }
  · intro b' j hb' hj hn
    simp only [turn_tailIndex] at hj
    simp only [turn_elements, turn_enqueued]
    by_cases e : j = s.tailIndex
    · subst e
      rw [h.filled.written b' x hb' hp, ← hlen]
      simp
    · rw [h.filled.elements b' j hb' (by omega) hn, List.getElem?_append_left (by omega)]
  · intro b' y hb' hy
    cases hy
  · intro b' y hy _
    cases hy
  · intro b' hb'
    cases hb'
  · simp [hlen]
  · rw [hnum]
    have hr' : (s.tailIndex + 1) % blockSize ≠ 0 := hr.resolve_right (by simp [Enqueue.ready])
    simp only [turn_tailIndex, Use.number.injEq]
    unfold blockSize at *
    omega
  · intro hs
    cases hs
  · intro y hy
    cases hy
  · intro j y hj
    have hj' := h.logged.eq j y hj
    obtain ⟨hlt, -⟩ := List.getElem?_eq_some_iff.mp hj'
    simp only [turn_enqueued]
    rw [List.getElem?_append_left hlt]
    exact hj'

/-- An element that needs a new block has none yet. -/
theorem blocks_of_not_ready (hmod : s.tailIndex % blockSize = 0) (hr : s.prod.ready = false) :
    s.blocks = s.tailIndex / blockSize := by
  unfold blocks blockSize at *
  simp only [hr, Bool.false_eq_true, if_false]
  omega

/-- With a new block there is one block number more. -/
theorem open_of_ready (hzero : doneIn done (s.tailIndex / blockSize) = 0)
    (hmod : s.tailIndex % blockSize = 0) (hr : s.prod.ready = false) (hT : t.tailIndex = s.tailIndex)
    (hr' : t.prod.ready = true) (k : ℕ) :
    t.Open done k ↔ k = s.tailIndex / blockSize ∨ s.Open done k := by
  have hblocks := blocks_of_not_ready hmod hr
  have hblocks' : t.blocks = s.tailIndex / blockSize + 1 := by
    unfold blocks blockSize at *
    simp only [hT, hr', if_true]
    omega
  rw [Open, Open, hblocks, hblocks']
  by_cases hk : k = s.tailIndex / blockSize
  · subst hk
    rw [hzero]
    simp [blockSize]
  · simp only [hk, false_or]
    refine and_congr_left fun _ => ?_
    omega

/-- No index of the new block is below the tail. -/
theorem Blocks.doneIn_tail (h : s.Blocks nothrow done use) (hle : s.headIndex ≤ s.tailIndex)
    (hT : s.tailIndex % blockSize = 0) : doneIn done (s.tailIndex / blockSize) = 0 := by
  refine doneIn_zero (fun i hi => ?_) hT
  have := (h.held.all i).mp (.of_mem hi)
  omega

/-- The producer's block gets the number `n`. -/
theorem Placed.insert (h : s.Placed done use) {n : ℕ} (hb : s.prod.block = some b)
    (ht : t.prod.block = none) (ho : t.ours = s.ours) (hpc : t.pc = s.pc)
    (hT : t.tailIndex = s.tailIndex) (he : t.entry = Function.update s.entry n (some b))
    (hopen : ∀ k, t.Open done k ↔ k = n ∨ s.Open done k) (hclosed : ¬ s.Open done n) :
    t.Placed done (Function.update use b (.number n)) := by
  have hprod : use b = .producer := (h.producer b).mp hb
  have hne : ∀ b' k, use b' = .number k → b' ≠ b := fun b' k hk => (h.ne_of_block hk hb).symm
  have hnew : ∀ b', use b' ≠ .number n := fun b' hk => hclosed ((h.number b' n).mp hk).2
  refine
    { ours := ho ▸ h.ours_update (by rw [hprod]; simp) (by simp)
      gives := ?_
      producer := ?_
      number := ?_
      entry := ?_
      uses := ?_
      clears := fun v j hv => hT ▸ h.clears v j (hpc ▸ hv) }
  · intro b' v
    rw [hpc]
    exact iff_of_elsewhere (fun b' => h.gives b' v) (by rw [hprod]; simp) (by simp) b'
  · refine iff_of_gone h.producer (by simp) (by simp [ht]) fun b' e => ?_
    rw [ht, hb]
    exact iff_of_false (by simp) fun hb' => e (Option.some.inj hb').symm
  · intro b' k
    rw [he, hopen]
    by_cases hk : k = n
    · subst hk
      rw [Function.update_self, and_iff_left (.inl rfl)]
      by_cases e : b' = b
      · simp [e]
      · rw [Function.update_of_ne e]
        exact iff_of_false (hnew b') fun hb' => e (Option.some.inj hb').symm
    · rw [Function.update_of_ne hk, or_iff_right hk, ← h.number]
      by_cases e : b' = b
      · subst e
        rw [Function.update_self, Use.number.injEq]
        exact iff_of_false (Ne.symm hk) fun hb' => hne b' k hb' rfl
      · rw [Function.update_of_ne e]
  · intro k hk
    rw [he]
    rcases (hopen k).mp hk with rfl | hk
    · simp
    · have hkn : k ≠ n := fun e => hclosed (e ▸ hk)
      rw [Function.update_of_ne hkn]
      exact h.entry k hk
  · intro v j b' hv
    have hb' := h.uses v j b' (hpc ▸ hv)
    rw [Function.update_of_ne (hne b' _ hb'), hb']

/-- There is nothing in the new block, but for an element that is constructed already. -/
theorem Blocks.filled_insert (h : s.Blocks nothrow done use) {x : ℕ} (hp : s.prod = .insert x b)
    (hzero : doneIn done (s.tailIndex / blockSize) = 0)
    (hclosed : ¬ s.Open done (s.tailIndex / blockSize)) :
    (({ s with tailBlock := some b }.setEntry (s.tailIndex / blockSize) (some b)).turn
      (if nothrow then .construct x else .publish x)).Filled nothrow done
      (Function.update use b (.number (s.tailIndex / blockSize))) := by
  have hT : s.tailIndex % blockSize = 0 := h.produces.starts (by rw [hp]; rfl)
  refine
    { count := ?_
      elements := ?_
      written := ?_
      tried := ?_
      fresh := ?_ }
  · intro b' k hk
    by_cases e : b' = b
    · subst e
      rw [Function.update_self, Use.number.injEq] at hk
      subst hk
      rw [hzero]
      exact h.filled.fresh b' (by rw [hp]; rfl)
    · rw [Function.update_of_ne e] at hk
      exact h.filled.count b' k hk
  · intro b' j hb' hj hn
    by_cases e : b' = b
    · -- the new block has no element below the tail
      subst e
      rw [Function.update_self, Use.number.injEq] at hb'
      simp only [turn_tailIndex, setEntry_tailIndex] at hj
      unfold blockSize at *
      omega
    · rw [Function.update_of_ne e] at hb'
      exact h.filled.elements b' j hb' hj hn
  · intro b' y hb' hy
    by_cases e : b' = b
    · subst e
      cases nothrow with
      | true => cases hy
      | false =>
        cases hy
        exact h.filled.tried b' x hp rfl
    · rw [Function.update_of_ne e] at hb'
      exact absurd ((h.placed.number b' _).mp hb').2 hclosed
  · intro b' y hy hn
    cases nothrow <;> cases hy
  · intro b' hb'
    cases nothrow <;> cases hb'

/-- The producer inserts the new block. -/
theorem Blocks.insert (h : s.Blocks nothrow done use) (hle : s.headIndex ≤ s.tailIndex) {x : ℕ}
    (hp : s.prod = .insert x b) :
    (({ s with tailBlock := some b }.setEntry (s.tailIndex / blockSize) (some b)).turn
      (if nothrow then .construct x else .publish x)).Blocks nothrow done
      (Function.update use b (.number (s.tailIndex / blockSize))) := by
  have hT : s.tailIndex % blockSize = 0 := h.produces.starts (by rw [hp]; rfl)
  have hzero := h.doneIn_tail hle hT
  have hclosed : ¬ s.Open done (s.tailIndex / blockSize) := by
    rintro ⟨hlt, -⟩
    rw [blocks_of_not_ready hT (by rw [hp]; rfl)] at hlt
    exact Nat.lt_irrefl _ hlt
  have hready : (if nothrow then Enqueue.construct x else .publish x).ready = true := by
    cases nothrow <;> rfl
  have hnone : (if nothrow then Enqueue.construct x else .publish x).block = none := by
    cases nothrow <;> rfl
  refine
    { held := h.held.of_eq (fun _ => rfl) rfl
      placed := h.placed.insert (by rw [hp]; rfl) hnone rfl rfl rfl rfl (open_of_ready hzero hT
        (by rw [hp]; rfl) rfl hready) hclosed
      filled := h.filled_insert hp hzero hclosed
      produces :=
        { length := h.produces.length
          tail := ?_
          starts := fun _ => hT
          constructs := ?_ }
      logged := h.logged.of_eq rfl rfl fun _ => rfl }
  · intro _
    exact ⟨b, rfl, Function.update_self ..⟩
  · intro y hy hn
    subst hn
    cases hy

/-- The constructor of the first element of a block throws. -/
theorem Blocks.throws (h : s.Blocks nothrow done use) {x : ℕ} (hp : s.prod = .tryConstruct x b) :
    ((s.setOurs b false).turn .idle).Blocks nothrow done (Function.update use b .elsewhere) := by
  have hno := h.ne_number (b := b) (by rw [hp]; rfl)
  have hprod : use b = .producer := (h.placed.producer b).mp (by rw [hp]; rfl)
  have hpr := h.produces.of_update (q := .elsewhere) hno
  refine
    { held := h.held.of_eq (fun _ => rfl) rfl
      placed := ?_
      filled := ?_
      produces :=
        { length := hpr.length
          tail := fun hT => hpr.tail ?_
          starts := ?_
          constructs := ?_ }
      logged := h.logged.of_eq rfl rfl fun _ => rfl }
  · refine h.placed.forget rfl ?_ ?_ rfl ?_ rfl (fun _ => rfl) (fun _ => rfl) hno
    · intro b' v
      refine (and_iff_right_of_imp fun hv eb => ?_).symm
      have := (h.placed.gives b' v).mp hv
      rw [eb, hprod] at this
      cases this
    · intro b'
      rw [hp]
      exact iff_of_false (by simp [Enqueue.block]) fun hb' => hb'.1 (Option.some.inj hb'.2).symm
    · simp [blocks, hp, Enqueue.ready]
  · exact h.filled.mono (fun b' k hk => ⟨(number_of_forget (by simp) hk).2, rfl, rfl⟩) rfl rfl
      (fun _ => rfl) (fun y hy => by cases hy) (fun b' y hy => by cases hy) fun b' hb' => by cases hb'
  · exact hT.imp_right fun hr => by cases hr
  · intro hs
    cases hs
  · intro y hy
    cases hy

/-- Others write into blocks of their own. -/
theorem Blocks.foreign (h : s.Blocks nothrow done use) {i n : ℕ} {x : Option ℕ}
    (hb : s.ours b = false) : ((s.setElement b i x).setCount b n).Blocks nothrow done use := by
  have hel := h.placed.elsewhere_of_not_ours hb
  have hne : ∀ b' q, use b' = q → q ≠ .elsewhere → b' ≠ b := by
    rintro b' q hq hne rfl
    exact hne (hq.symm.trans hel)
  have hblock : ∀ b', s.prod.block = some b' → b' ≠ b := fun b' hb' =>
    hne b' _ ((h.placed.producer b').mp hb') (by simp)
  refine
    { held := h.held.of_eq (fun _ => rfl) rfl
      placed := h.placed.of_eq rfl (fun _ => rfl) rfl rfl rfl (fun _ => rfl) (fun _ => rfl)
        (Nat.le_refl _)
      filled := h.filled.mono (fun b' k hk => ⟨hk, ?_, ?_⟩) rfl rfl (fun _ => rfl) (fun _ => id)
        (fun b' y hy _ => ⟨hy, ?_⟩) fun b' hb' => ⟨hb', ?_⟩
      produces :=
        { length := h.produces.length
          tail := h.produces.tail
          starts := h.produces.starts
          constructs := h.produces.constructs }
      logged := h.logged.of_eq rfl rfl fun _ => rfl }
  · exact Function.update_of_ne (hne b' _ hk (by simp)) _ _
  · exact Function.update_of_ne (hne b' _ hk (by simp)) _ _
  · refine Function.update_of_ne (hblock b' ?_) _ _
    rw [show s.prod = _ from hy]
    rfl
  · exact Function.update_of_ne (hblock b' (Enqueue.block_of_fresh hb')) _ _

end State

end MutilsTasks.ConcurrentQueue.Producer
