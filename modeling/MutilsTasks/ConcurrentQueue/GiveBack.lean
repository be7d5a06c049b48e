import MutilsTasks.Library.Places
import MutilsTasks.ConcurrentQueue.Blocks

/-!
# The last consumer of a block

`set_empty` counts who is done with an element of the block. The one that makes the count
`BLOCK_SIZE` is the last that has anything to do with the block: it takes it out of the index,
and gives it back to the free list.
-/

namespace MutilsTasks.ConcurrentQueue.Producer

open Machine Tokens

namespace State

variable {nothrow : Bool} {s t : State} {u i b : ℕ} {c : Pc} {done : List ℕ} {use : ℕ → Use}

/-! ### One element more is done with -/

theorem Held.finish (h : s.Held done) (hc : s.pc u = .setEmpty i b)
    (hpc : t.pc = Function.update s.pc u c) (hi : c.index = none) (hH : t.headIndex = s.headIndex) :
    t.Held (done ++ [i]) := by
  have hu : (s.pc u).index = some i := by rw [hc]; rfl
  have e : (fun v => (t.pc v).index) = Function.update (fun v => (s.pc v).index) u none := by
    rw [hpc]
    funext v
    by_cases ev : v = u
    · simp [ev, hi]
    · simp [ev]
  refine ⟨e ▸ h.distinct.put hu, fun j => ?_⟩
  rw [e, h.distinct.somewhere_put hu, h.all, hH]

theorem taken_finish (hc : s.pc u = .setEmpty i b) (hpc : t.pc = Function.update s.pc u c)
    (hm : c.moved = none) (j : ℕ) : t.Taken (done ++ [i]) j ↔ s.Taken done j := by
  rw [Taken, Taken, List.mem_append, List.mem_singleton, hpc]
  constructor
  · rintro ((hj | rfl) | ⟨v, hv⟩)
    · exact .inl hj
    · exact .inr ⟨u, by rw [hc]; rfl⟩
    · by_cases e : v = u
      · rw [e, Function.update_self, hm] at hv
        cases hv
      · rw [Function.update_of_ne e] at hv
        exact .inr ⟨v, hv⟩
  · rintro (hj | ⟨v, hv⟩)
    · exact .inl (.inl hj)
    · by_cases e : v = u
      · rw [e, hc] at hv
        exact .inl (.inr (Option.some.inj hv).symm)
      · exact .inr ⟨v, by rw [Function.update_of_ne e]; exact hv⟩

theorem Logged.finish (h : s.Logged done) (hc : s.pc u = .setEmpty i b)
    (hpc : t.pc = Function.update s.pc u c) (hm : c.moved = none) (hd : t.dequeued = s.dequeued)
    (hq : t.enqueued = s.enqueued) : t.Logged (done ++ [i]) where
  nodup := hd ▸ h.nodup
  mem j := by rw [hd, h.mem, taken_finish hc hpc hm]
  eq := hd ▸ hq ▸ h.eq

/-- The elements of the other blocks. -/
theorem doneIn_append_of_ne {k : ℕ} (hk : k ≠ i / blockSize) :
    doneIn (done ++ [i]) k = doneIn done k := by
  rw [doneIn_append, if_neg (fun e => hk e.symm), Nat.add_zero]

theorem doneIn_append_self : doneIn (done ++ [i]) (i / blockSize) = doneIn done (i / blockSize) + 1 := by
  rw [doneIn_append, if_pos rfl]

theorem doneIn_le_append (k : ℕ) : doneIn done k ≤ doneIn (done ++ [i]) k := by
  rw [doneIn_append]
  omega

/-- The counter of the block says how many consumers are done with. -/
theorem Blocks.count (h : s.Blocks nothrow done use) (hc : s.pc u = .setEmpty i b) :
    s.elementsCompletelyDequeued b = doneIn done (i / blockSize) :=
  h.filled.count b _ (h.placed.uses u i b (by rw [hc]; rfl))

/-! ### Others are not done -/

/-- A consumer is done with its element, and others are not with theirs. -/
theorem Blocks.setEmpty (h : s.Blocks nothrow done use) (hc : s.pc u = .setEmpty i b)
    (hn : s.elementsCompletelyDequeued b ≠ blockSize - 1) :
    ((s.setCount b (s.elementsCompletelyDequeued b + 1)).goto u .idle).Blocks nothrow
      (done ++ [i]) use := by
  obtain ⟨hnum, hentry, hopen⟩ := h.placed.number_of_uses (u := u) (i := i) (b := b) (by rw [hc]; rfl)
  have hcount := h.count hc
  have hOpen : ∀ k, s.Open (done ++ [i]) k ↔ s.Open done k := by
    intro k
    by_cases hk : k = i / blockSize
    · subst hk
      rw [Open, Open, doneIn_append_self]
      have := hopen.2
      omega
    · rw [Open, Open, doneIn_append_of_ne hk]
  refine
    { held := h.held.finish hc rfl rfl rfl
      placed := ?_
      filled := ?_
      produces :=
        { length := h.produces.length
          tail := h.produces.tail
          starts := h.produces.starts
          constructs := h.produces.constructs }
      logged := h.logged.finish hc rfl rfl rfl rfl }
  · have hg : ∀ v, (Function.update s.pc u .idle v).gives = (s.pc v).gives := update_same hc rfl
    refine
      { ours := h.placed.ours
        gives := ?_
        producer := h.placed.producer
        number := ?_
        entry := ?_
        uses := ?_
        clears := ?_ }
    · intro b' v
      rw [← h.placed.gives, ← hg]
      rfl
    · intro b' k
      rw [h.placed.number, ← hOpen]
      rfl
    · intro k hk
      exact h.placed.entry k ((hOpen k).mp hk)
    · intro v j b' hv
      by_cases e : v = u
      · simp [e, Pc.uses] at hv
      · simp only [goto_pc, setCount_pc, Function.update_of_ne e] at hv
        exact h.placed.uses v j b' hv
    · intro v j hv
      have hcl : ∀ v, (Function.update s.pc u .idle v).clears = (s.pc v).clears := update_same hc rfl
      obtain ⟨h₁, h₂⟩ := h.placed.clears v j (hcl v ▸ hv)
      exact ⟨h₁, Nat.le_trans h₂ (doneIn_le_append _)⟩
  · refine
      { count := ?_
        elements := ?_
        written := h.filled.written
        tried := h.filled.tried
        fresh := ?_ }
    · intro b' k hk
      by_cases hkk : k = i / blockSize
      · subst hkk
        obtain rfl := h.placed.eq_of_number hk hnum
        simp [hcount, doneIn_append_self]
      · have hne : b' ≠ b := fun e => hkk (State.eq_of_number hk (e ▸ hnum))
        simp [hne, doneIn_append_of_ne hkk, h.filled.count b' k hk]
    · intro b' j hb' hj hn
      rw [taken_finish hc rfl rfl] at hn
      exact h.filled.elements b' j hb' hj hn
    · intro b' hb'
      have hne : b' ≠ b := h.placed.ne_of_block hnum (Enqueue.block_of_fresh hb')
      simp only [goto_elementsCompletelyDequeued, setCount_elementsCompletelyDequeued,
        Function.update_of_ne hne]
      exact h.filled.fresh b' hb'

/-! ### The last one -/

/-- When the last one is done with a block, nobody else has anything to do with it. -/
theorem Blocks.last (h : s.Blocks nothrow done use) (hle : s.headIndex ≤ s.tailIndex)
    (hc : s.pc u = .setEmpty i b) (hn : s.elementsCompletelyDequeued b = blockSize - 1) :
    blockSize ≤ doneIn (done ++ [i]) (i / blockSize) ∧ s.tailIndex / blockSize ≠ i / blockSize ∧
      ∀ v j b', v ≠ u → (s.pc v).uses = some (j, b') → b' ≠ b := by
  have hd := h.held.finish (t := s.goto u .idle) hc rfl rfl rfl
  have hfull : blockSize ≤ doneIn (done ++ [i]) (i / blockSize) := by
    rw [doneIn_append_self, ← h.count hc, hn]
    exact Nat.le_refl _
  -- an index that is not done with would be one too many
  have hother : ∀ j, j ∉ done ++ [i] → j / blockSize ≠ i / blockSize := by
    intro j hj e
    have := doneIn_lt hd.distinct.nodup hj
    rw [e] at this
    omega
  refine ⟨hfull, hother _ ?_, ?_⟩
  · intro hT
    have := (hd.all _).mp (.of_mem hT)
    rw [goto_headIndex] at this
    omega
  · intro v j b' hv hu e
    have hj : ((s.goto u .idle).pc v).index = some j := by
      rw [goto_pc, Function.update_of_ne hv]
      exact Pc.index_of_uses hu
    refine hother j (hd.distinct.apart v j hj) ?_
    have hb : use b = .number (i / blockSize) := h.placed.uses u i b (by rw [hc]; rfl)
    exact State.eq_of_number (e ▸ h.placed.uses v j b' hu) hb

/-- A block of this producer that goes from one place to another. -/
theorem Placed.ours_update (h : s.Placed done use) {q : Use} (hb : use b ≠ .elsewhere)
    (hq : q ≠ .elsewhere) (b' : ℕ) :
    s.ours b' = true ↔ Function.update use b q b' ≠ .elsewhere := by
  by_cases e : b' = b
  · subst e
    rw [Function.update_self]
    exact iff_of_true ((h.ours b').mpr hb) hq
  · rw [Function.update_of_ne e]
    exact h.ours b'

/-- The block number of which the last one is done is closed. -/
theorem open_append_of_full (hfull : blockSize ≤ doneIn (done ++ [i]) (i / blockSize)) (k : ℕ) :
    s.Open (done ++ [i]) k ↔ s.Open done k ∧ k ≠ i / blockSize := by
  by_cases hk : k = i / blockSize
  · subst hk
    rw [Open]
    exact iff_of_false (fun ho => by omega) fun ho => ho.2 rfl
  · rw [Open, Open, doneIn_append_of_ne hk, and_iff_left hk]

/-- The other blocks in the index have other numbers. -/
theorem Placed.number_of_consumer (h : s.Placed done use) {n : ℕ} (hnum : use b = .number n)
    {b' k : ℕ} (hk : Function.update use b (.consumer u) b' = .number k) :
    b' ≠ b ∧ use b' = .number k ∧ k ≠ n := by
  by_cases e : b' = b
  · rw [e, Function.update_self] at hk
    cases hk
  · rw [Function.update_of_ne e] at hk
    exact ⟨e, hk, fun ek => e (h.eq_of_number hk (ek ▸ hnum))⟩

theorem Placed.setEmptyLast (h : s.Placed done use) (hc : s.pc u = .setEmpty i b)
    (hfull : blockSize ≤ doneIn (done ++ [i]) (i / blockSize)) (hi : i < s.tailIndex)
    (hothers : ∀ v j b', v ≠ u → (s.pc v).uses = some (j, b') → b' ≠ b) {n : ℕ} :
    ((s.setCount b n).goto u (.clearEntry i b)).Placed (done ++ [i])
      (Function.update use b (.consumer u)) := by
  obtain ⟨hnum, hentry, -⟩ := h.number_of_uses (u := u) (i := i) (b := b) (by rw [hc]; rfl)
  refine
    { ours := h.ours_update (by rw [hnum]; simp) (by simp)
      gives := ?_
      producer := iff_of_elsewhere h.producer (by rw [hnum]; simp) (by simp)
      number := ?_
      entry := fun k hk => h.entry k ((open_append_of_full hfull k).mp hk).1
      uses := ?_
      clears := ?_ }
  · intro b' v
    by_cases e : b' = b
    · subst e
      rw [Function.update_self]
      by_cases ev : v = u
      · simp [ev, Pc.gives]
      · simp only [goto_pc, setCount_pc, Function.update_of_ne ev, Use.consumer.injEq]
        rw [h.gives, hnum]
        exact iff_of_false (by simp) (Ne.symm ev)
    · rw [Function.update_of_ne e]
      by_cases ev : v = u
      · have := h.gives b' u
        rw [hc] at this
        simp only [goto_pc, ev, Function.update_self, ← this, Pc.gives, Option.some.injEq]
        exact iff_of_false (Ne.symm e) (by simp)
      · simp only [goto_pc, setCount_pc, Function.update_of_ne ev]
        exact h.gives b' v
  · intro b' k
    by_cases e : b' = b
    · subst e
      rw [Function.update_self]
      refine iff_of_false (by simp) fun hk => ?_
      obtain ⟨he, ho⟩ := hk
      obtain ⟨ho, hk⟩ := (open_append_of_full hfull k).mp ho
      exact hk (State.eq_of_number ((h.number b' k).mpr ⟨he, ho⟩) hnum)
    · rw [Function.update_of_ne e, h.number]
      refine and_congr_right fun he => ?_
      refine Iff.trans ?_ (open_append_of_full hfull k).symm
      -- the entry of the closed number is `b`
      refine (and_iff_left fun ek => e ?_).symm
      rw [ek] at he
      exact Option.some.inj (he.symm.trans hentry)
  · intro v j b' hv
    by_cases e : v = u
    · simp [e, Pc.uses] at hv
    · simp only [goto_pc, setCount_pc, Function.update_of_ne e] at hv
      rw [Function.update_of_ne (hothers v j b' e hv)]
      exact h.uses v j b' hv
  · intro v j hv
    by_cases e : v = u
    · simp only [goto_pc, e, Function.update_self, Pc.clears, Option.some.injEq] at hv
      subst hv
      exact ⟨hi, hfull⟩
    · simp only [goto_pc, setCount_pc, Function.update_of_ne e] at hv
      obtain ⟨h₁, h₂⟩ := h.clears v j hv
      exact ⟨h₁, Nat.le_trans h₂ (doneIn_le_append _)⟩

theorem Blocks.filled_setEmptyLast (h : s.Blocks nothrow done use) (hc : s.pc u = .setEmpty i b)
    {n : ℕ} : ((s.setCount b n).goto u (.clearEntry i b)).Filled nothrow (done ++ [i])
      (Function.update use b (.consumer u)) := by
  have hnum : use b = .number (i / blockSize) := h.placed.uses u i b (by rw [hc]; rfl)
  refine
    { count := ?_
      elements := ?_
      written := ?_
      tried := h.filled.tried
      fresh := ?_ }
  · intro b' k hk
    obtain ⟨hne, hk, hkk⟩ := h.placed.number_of_consumer hnum hk
    simp [hne, doneIn_append_of_ne hkk, h.filled.count b' k hk]
  · intro b' j hb' hj hn
    rw [taken_finish hc rfl rfl] at hn
    exact h.filled.elements b' j (h.placed.number_of_consumer hnum hb').2.1 hj hn
  · intro b' x hb' hp
    exact h.filled.written b' x (h.placed.number_of_consumer hnum hb').2.1 hp
  · intro b' hb'
    have hne : b' ≠ b := h.placed.ne_of_block hnum (Enqueue.block_of_fresh hb')
    simp only [goto_elementsCompletelyDequeued, setCount_elementsCompletelyDequeued,
      Function.update_of_ne hne]
    exact h.filled.fresh b' hb'

/-- The last consumer has the block for itself. -/
theorem Blocks.setEmptyLast (h : s.Blocks nothrow done use) (hle : s.headIndex ≤ s.tailIndex)
    (hc : s.pc u = .setEmpty i b) (hn : s.elementsCompletelyDequeued b = blockSize - 1) :
    ((s.setCount b (s.elementsCompletelyDequeued b + 1)).goto u (.clearEntry i b)).Blocks nothrow
      (done ++ [i]) (Function.update use b (.consumer u)) := by
  have hnum : use b = .number (i / blockSize) := h.placed.uses u i b (by rw [hc]; rfl)
  have hi : i < s.tailIndex := (h.open_of_index (u := u) hle (by rw [hc]; rfl)).1
  obtain ⟨hfull, htail, hothers⟩ := h.last hle hc hn
  refine
    { held := h.held.finish hc rfl rfl rfl
      placed := h.placed.setEmptyLast hc hfull hi hothers
      filled := h.filled_setEmptyLast hc
      produces :=
        { length := h.produces.length
          tail := ?_
          starts := h.produces.starts
          constructs := h.produces.constructs }
      logged := h.logged.finish hc rfl rfl rfl rfl }
  intro hT
  obtain ⟨b', ht, hu⟩ := h.produces.tail hT
  refine ⟨b', ht, ?_⟩
  rw [Function.update_of_ne]
  · exact hu
  · exact fun e => htail (State.eq_of_number (e ▸ hu) hnum)

/-- The last consumer takes the block out of the index. -/
theorem Blocks.clearEntry (h : s.Blocks nothrow done use) (hc : s.pc u = .clearEntry i b) :
    ((s.setEntry (i / blockSize) none).goto u (.giveBack b)).Blocks nothrow done use := by
  obtain ⟨-, hfull⟩ := h.placed.clears u i (by rw [hc]; rfl)
  have hg : ∀ v, (Function.update s.pc u (.giveBack b) v).gives = (s.pc v).gives := update_same hc rfl
  have hu : ∀ v, (Function.update s.pc u (.giveBack b) v).uses = (s.pc v).uses := update_same hc rfl
  -- the block number is closed already
  have hentry : ∀ k, s.Open done k →
      Function.update s.entry (i / blockSize) none k = s.entry k := by
    intro k hk
    rw [Function.update_of_ne]
    rintro rfl
    have := hk.2
    omega
  refine
    { held := h.held.of_eq (update_same hc rfl) rfl
      placed := ?_
      filled := ?_
      produces :=
        { length := h.produces.length
          tail := h.produces.tail
          starts := h.produces.starts
          constructs := h.produces.constructs }
      logged := h.logged.of_eq rfl rfl (update_same hc rfl) }
  · refine
      { ours := h.placed.ours
        gives := ?_
        producer := h.placed.producer
        number := ?_
        entry := ?_
        uses := fun v j b' hv => h.placed.uses v j b' (hu v ▸ hv)
        clears := ?_ }
    · intro b' v
      rw [← h.placed.gives, ← hg]
      rfl
    · intro b' k
      rw [h.placed.number]
      refine and_congr_left fun hk => ?_
      rw [← hentry k hk]
      rfl
    · intro k hk
      exact (hentry k hk).trans_ne (h.placed.entry k hk)
    · intro v j hv
      by_cases e : v = u
      · simp [e, Pc.clears] at hv
      · simp only [goto_pc, setEntry_pc, Function.update_of_ne e] at hv
        exact h.placed.clears v j hv
  · exact h.filled.mono (fun _ _ hb => ⟨hb, rfl, rfl⟩) rfl rfl (update_same hc rfl) (fun _ => id)
      (fun _ _ hb _ => ⟨hb, rfl⟩) fun _ hb => ⟨hb, rfl⟩

/-- A block that is of this producer no more. -/
theorem Placed.forget (h : s.Placed done use) (ho : t.ours = Function.update s.ours b false)
    (hg : ∀ b' v, (t.pc v).gives = some b' ↔ b' ≠ b ∧ (s.pc v).gives = some b')
    (hp : ∀ b', t.prod.block = some b' ↔ b' ≠ b ∧ s.prod.block = some b') (he : t.entry = s.entry)
    (hb : t.blocks = s.blocks) (hT : t.tailIndex = s.tailIndex)
    (hu : ∀ v, (t.pc v).uses = (s.pc v).uses) (hc : ∀ v, (t.pc v).clears = (s.pc v).clears)
    (hnum : ∀ k, use b ≠ .number k) :
    t.Placed done (Function.update use b .elsewhere) := by
  have hne : ∀ b' k, use b' = .number k → b' ≠ b := fun b' k hk e => hnum k (e ▸ hk)
  refine
    { ours := ?_
      gives := ?_
      producer := ?_
      number := ?_
      entry := ?_
      uses := ?_
      clears := ?_ }
  · intro b'
    by_cases e : b' = b
    · simp [ho, e]
    · rw [ho, Function.update_of_ne e, Function.update_of_ne e, h.ours]
  · intro b' v
    by_cases e : b' = b
    · simp [hg, e]
    · rw [hg, Function.update_of_ne e, and_iff_right e, h.gives]
  · intro b'
    by_cases e : b' = b
    · simp [hp, e]
    · rw [hp, Function.update_of_ne e, and_iff_right e, h.producer]
  · intro b' k
    rw [he, Open, hb]
    by_cases e : b' = b
    · rw [e, Function.update_self]
      refine iff_of_false (by simp) fun hk => hnum k ((h.number b k).mpr hk)
    · rw [Function.update_of_ne e, h.number, Open]
  · intro k hk
    rw [he]
    exact h.entry k (by rw [Open, hb] at hk; exact hk)
  · intro v j b' hv
    have := h.uses v j b' (hu v ▸ hv)
    rw [Function.update_of_ne (hne b' _ this), this]
  · intro v j hv
    rw [hT]
    exact h.clears v j (hc v ▸ hv)

/-- The blocks in the index are the same. -/
theorem number_of_forget {q : Use} {b' k : ℕ} (hq : ∀ k, q ≠ .number k)
    (hk : Function.update use b q b' = .number k) : b' ≠ b ∧ use b' = .number k := by
  by_cases e : b' = b
  · rw [e, Function.update_self] at hk
    exact absurd hk (hq k)
  · rw [Function.update_of_ne e] at hk
    exact ⟨e, hk⟩

theorem Produces.of_update (h : s.Produces nothrow use) {q : Use} (hb : ∀ k, use b ≠ .number k) :
    s.Produces nothrow (Function.update use b q) where
  length := h.length
  tail hT := by
    obtain ⟨b', ht, hu⟩ := h.tail hT
    refine ⟨b', ht, ?_⟩
    rw [Function.update_of_ne (fun e => hb _ (e ▸ hu)), hu]
  starts := h.starts
  constructs := h.constructs

/-- The last consumer gives the block back. -/
theorem Blocks.giveBack (h : s.Blocks nothrow done use) (hc : s.pc u = .giveBack b) :
    ((s.setOurs b false).goto u .idle).Blocks nothrow done (Function.update use b .elsewhere) := by
  have hcon : use b = .consumer u := (h.placed.gives b u).mp (by rw [hc]; rfl)
  have hno : ∀ k, use b ≠ .number k := by simp [hcon]
  have hp := h.produces.of_update (q := .elsewhere) hno
  refine
    { held := h.held.of_eq (update_same hc rfl) rfl
      placed := ?_
      filled := ?_
      produces :=
        { length := hp.length
          tail := hp.tail
          starts := hp.starts
          constructs := hp.constructs }
      logged := h.logged.of_eq rfl rfl (update_same hc rfl) }
  · refine h.placed.forget rfl ?_ ?_ rfl rfl rfl (update_same hc rfl) (update_same hc rfl) hno
    · intro b' v
      by_cases e : v = u
      · subst e
        simp only [goto_pc, Function.update_self, hc, Pc.gives, Option.some.injEq]
        exact iff_of_false (by simp) fun hb' => hb'.1 hb'.2.symm
      · simp only [goto_pc, setOurs_pc, Function.update_of_ne e]
        refine (and_iff_right_of_imp fun hv eb => e ?_).symm
        have := (h.placed.gives b' v).mp hv
        rw [eb, hcon, Use.consumer.injEq] at this
        exact this.symm
    · intro b'
      refine (and_iff_right_of_imp fun hv eb => ?_).symm
      have := (h.placed.producer b').mp hv
      rw [eb, hcon] at this
      cases this
  · refine h.filled.mono (fun b' k hk => ⟨(number_of_forget (by simp) hk).2, rfl, rfl⟩) rfl rfl
      (update_same hc rfl) (fun _ => id) (fun _ _ hb _ => ⟨hb, rfl⟩) fun _ hb => ⟨hb, rfl⟩

end State

end MutilsTasks.ConcurrentQueue.Producer
