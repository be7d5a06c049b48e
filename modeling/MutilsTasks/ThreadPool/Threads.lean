import Mathlib.Data.List.Nodup
import MutilsTasks.ThreadPool.Wakeups

/-!
# The threads of the pool

`resize` and `stop` change the vector of threads in several steps, and workers run meanwhile.
At each place of the vector stands a thread that was started with that place as its `i`. How
far the owner is says which of them are joinable, which have been told to stop by their flag,
and which have been joined (`Roster`).

So no `std::thread` is destroyed while it is joinable, `stop` returns with an empty vector,
and a thread that is no longer in the vector has been detached with its flag set, or has
returned.
-/

namespace MutilsTasks.ThreadPool

open Machine

namespace Owner

/-- The thread at place `j` is joinable. -/
def joinable : Owner → ℕ → Bool
  | .detach i _, j => j < i
  | .lock (.shrink n), j | .notify (.shrink n), j | .unlock (.shrink n), j | .truncate n, j => j < n
  | .join i, j => i ≤ j
  | .clearLast, _ | .clearThreads, _ => false
  | _, _ => true

/-- The flag of the thread at place `j` is set; `b` is `isStop`. -/
def flagged (b : Bool) : Owner → ℕ → Bool
  | .idle, _ | .grow _, _ => false
  | .detach i _, j => i ≤ j
  | .lock (.shrink n), j | .notify (.shrink n), j | .unlock (.shrink n), j | .truncate n, j => n ≤ j
  | .setFlag i, j => j < i
  | _, _ => b

/-- The thread at place `j` has been joined. -/
def joined : Owner → ℕ → Bool
  | .join i, j => j < i
  | .clearLast, _ | .clearThreads, _ => true
  | _, _ => false

/-- The owner is in `stop`. -/
def stopping : Owner → Bool
  | .setFlag _ | .clear | .lock .stop | .notify .stop | .unlock .stop | .join _ | .clearLast
  | .clearThreads => true
  | _ => false

/-- The owner is in `stop(false)`, and has not called `notify_all`. -/
def aborting : Owner → Bool
  | .setFlag _ | .clear => true
  | _ => false

end Owner

namespace State

variable {s s' : State} {a : Action} {v w : ℕ}

/-- **The vector of threads.** -/
structure Roster (s : State) : Prop where
  nodup : s.threads.Nodup
  lt : ∀ w ∈ s.threads, w < s.started
  index : ∀ j w, s.threads[j]? = some w → s.index w = j
  joinable : ∀ j w, s.threads[j]? = some w → s.joinable w = s.owner.joinable j
  flag : ∀ j w, s.threads[j]? = some w → s.flag w = s.owner.flagged s.isStop j
  joined : ∀ j w, s.threads[j]? = some w → s.owner.joined j = true → s.worker w = .exited
  detach : ∀ i n, s.owner = .detach i n → n ≤ i ∧ i ≤ s.threads.length
  stopped : s.isDone = true ∨ s.isStop = true → s.owner.stopping = false →
    s.threads = [] ∧ s.owner = .idle
  stopping : s.owner.stopping = true → s.isDone = true ∨ s.isStop = true
  aborting : s.owner.aborting = true → s.isStop = true
  released : ∀ w < s.started, w ∉ s.threads → s.flag w = true ∨ s.worker w = .exited
  alive : s.terminated = false

theorem init_roster : init.Roster where
  nodup := List.nodup_nil
  lt := nofun
  index := nofun
  joinable := nofun
  flag := nofun
  joined := nofun
  detach := nofun
  stopped h := by simp [init] at h
  stopping := nofun
  aborting := nofun
  released _ h := absurd h (Nat.not_lt_zero _)
  alive := rfl

/-- A thread that has returned does nothing more. -/
theorem exited_of_moves (hn : s.Numbered) (hs : Moves s a s') (hv : s.worker v = .exited) :
    s'.worker v = .exited := by
  have key : ∀ w c, s.worker w ≠ .exited → Function.update s.worker w c v = .exited := by
    intro w c hw
    have : v ≠ w := by
      rintro rfl
      exact hw hv
    rwa [Function.update_of_ne this]
  cases hs with
  | @turns _ w c ht =>
    apply key
    generalize s.worker w = d at ht
    cases ht <;> nofun
  | takes _ hw | locks _ hw =>
    apply key
    rcases hw with ⟨hw, -⟩ | ⟨hw, -⟩ <;> simp [hw]
  | unlocks hw =>
    apply key
    rcases hw with ⟨hw, -⟩ | ⟨t, hw, -⟩ | ⟨hw, -⟩ <;> simp [hw]
  | ends hw | enters hw | leaves hw | notifies _ hw => exact key _ _ (by simp [hw])
  | starts => exact key _ _ (by simp [(hn s.started).mpr le_rfl])
  | notifiesAll => simp [hv]
  | _ => exact hv

theorem getElem?_inj_of_nodup {l : List ℕ} (h : l.Nodup) {i j : ℕ} (hi : l[i]? = some w)
    (hj : l[j]? = some w) : i = j :=
  (List.getElem?_inj (List.getElem?_eq_some_iff.mp hi).1 h).mp (hi.trans hj.symm)

/-- A step of a thread or of a client. -/
theorem Roster.keep (h : s.Roster) (hn : s.Numbered) (hs : Moves s a s')
    (he : s'.threads = s.threads ∧ s'.flag = s.flag ∧ s'.index = s.index ∧
      s'.joinable = s.joinable ∧ s'.owner = s.owner ∧ s'.started = s.started ∧
      s'.isDone = s.isDone ∧ s'.isStop = s.isStop ∧ s'.terminated = s.terminated) : s'.Roster := by
  have hx := fun v => exited_of_moves (v := v) hn hs
  obtain ⟨h₁, h₂, h₃, h₄, h₅, h₆, h₇, h₈, h₉⟩ := he
  constructor <;> simp only [h₁, h₂, h₃, h₄, h₅, h₆, h₇, h₈, h₉]
  · exact h.nodup
  · exact h.lt
  · exact h.index
  · exact h.joinable
  · exact h.flag
  · exact fun j w hj hw => hx w (h.joined j w hj hw)
  · exact h.detach
  · exact h.stopped
  · exact h.stopping
  · exact h.aborting
  · exact fun w hw hl => (h.released w hw hl).imp_right (hx w)
  · exact h.alive

/-- Outside of `stop`, only an idle owner has stopped the pool. -/
theorem Roster.unstopped (h : s.Roster) (ho : s.owner.stopping = false) (hi : s.owner ≠ .idle) :
    ¬ (s.isDone = true ∨ s.isStop = true) :=
  fun hd => hi (h.stopped hd ho).2

theorem lt_of_getElem? {l : List ℕ} {j : ℕ} (h : l[j]? = some w) : j < l.length :=
  (List.getElem?_eq_some_iff.mp h).1

theorem Roster.ownerTurn (h : s.Roster) {o : Owner} (ht : OwnerTurn s a s.owner o) :
    (s.setOwner o).Roster := by
  have hj := h.joinable
  have hf := h.flag
  have hd := h.detach
  have ha := h.aborting
  have hs := h.stopping
  have hu := h.unstopped
  have hx := h.joined
  generalize s.owner = o' at ht hj hf hd ha hs hu hx
  cases ht with
  | grows hd₁ hs₁ =>
    exact { h with
      joinable := hj, flag := hf, joined := nofun, detach := nofun, stopping := nofun
      aborting := nofun, stopped := fun hd => absurd hd (by simp [hd₁, hs₁]) }
  | grown =>
    exact { h with
      joinable := hj, flag := hf, joined := nofun, detach := nofun, stopping := nofun
      aborting := nofun, stopped := fun hd => absurd hd (hu rfl nofun) }
  | @shrinks n hd₁ hs₁ hn =>
    refine { h with
      joinable := fun j w hw => ?_, flag := fun j w hw => ?_, joined := nofun, detach := ?_
      stopping := nofun, aborting := nofun, stopped := fun hd => absurd hd (by simp [hd₁, hs₁]) }
    · refine (hj j w hw).trans ?_
      simpa [Owner.joinable] using lt_of_getElem? hw
    · refine (hf j w hw).trans ?_
      simpa [Owner.flagged] using lt_of_getElem? hw
    · rintro _ _ ⟨⟩
      exact ⟨hn.le, le_rfl⟩
  | @detached _ i n hi =>
    obtain rfl : n = i := le_antisymm (hd i n rfl).1 hi
    exact { h with
      joinable := hj, flag := hf, joined := nofun, detach := nofun, stopping := nofun
      aborting := nofun, stopped := fun hd => absurd hd (hu rfl nofun) }
  | @allFlagged _ i hi =>
    refine { h with
      joinable := hj, flag := fun j w hw => ?_, joined := nofun, detach := nofun, stopping := hs
      aborting := ha, stopped := nofun }
    have hji : j < i := (lt_of_getElem? hw).trans_le hi
    refine (hf j w hw).trans ?_
    simp [Owner.flagged, hji, ha rfl]
  | cleared =>
    exact { h with
      joinable := hj, flag := hf, joined := nofun, detach := nofun, stopping := hs
      aborting := nofun, stopped := nofun }
  | @skips _ i w hw hn =>
    rw [hj i w hw] at hn
    simp [Owner.joinable] at hn
  | @joined _ i hi =>
    refine { h with
      joinable := fun j w hw => ?_, flag := hf, joined := fun j w hw _ => hx j w hw ?_
      detach := nofun, stopping := hs, aborting := nofun, stopped := nofun }
    · refine (hj j w hw).trans ?_
      simpa [Owner.joinable] using (lt_of_getElem? hw).trans_le hi
    · simpa [Owner.joined] using (lt_of_getElem? hw).trans_le hi
  | clearedLast =>
    exact { h with
      joinable := hj, flag := hf, joined := hx, detach := nofun, stopping := hs
      aborting := nofun, stopped := nofun }

/-! ### The other steps of the owner -/

theorem Roster.setThread (h : s.Roster) {n : ℕ} (ho : s.owner = .grow n) :
    s.setThread.Roster := by
  have hnew : ∀ j w, (s.threads ++ [s.started])[j]? = some w →
      s.threads[j]? = some w ∧ w ≠ s.started ∨ j = s.threads.length ∧ w = s.started := by
    intro j w hw
    rcases Nat.lt_trichotomy j s.threads.length with hj | hj | hj
    · rw [List.getElem?_append_left hj] at hw
      exact .inl ⟨hw, (h.lt w (List.mem_of_getElem? hw)).ne⟩
    · subst hj
      exact .inr ⟨rfl, by simpa using hw.symm⟩
    · rw [List.getElem?_eq_none (by simp; omega)] at hw
      cases hw
  have hu := h.unstopped (by rw [ho]; rfl) (by simp [ho])
  constructor
  · rw [setThread_threads, List.nodup_append]
    refine ⟨h.nodup, List.nodup_singleton _, fun a ha b hb e => ?_⟩
    rw [List.mem_singleton] at hb
    have := h.lt a ha
    omega
  · intro w hw
    rcases List.mem_append.mp hw with hw | hw
    · exact (h.lt w hw).trans (Nat.lt_succ_self _)
    · rw [List.mem_singleton] at hw
      exact hw ▸ Nat.lt_succ_self _
  · intro j w hw
    rcases hnew j w hw with ⟨hw, hne⟩ | ⟨rfl, rfl⟩
    · simpa [hne] using h.index j w hw
    · simp
  · intro j w hw
    rcases hnew j w hw with ⟨hw, hne⟩ | ⟨rfl, rfl⟩
    · simpa [hne] using h.joinable j w hw
    · simp [ho, Owner.joinable]
  · intro j w hw
    rcases hnew j w hw with ⟨hw, hne⟩ | ⟨rfl, rfl⟩
    · simpa [hne] using h.flag j w hw
    · simp [ho, Owner.flagged]
  · intro j w _ hj
    rw [setThread_owner, ho] at hj
    cases hj
  · intro i m hd
    rw [setThread_owner, ho] at hd
    cases hd
  · exact fun hd => absurd hd hu
  · exact h.stopping
  · exact h.aborting
  · intro w hw hl
    have hl' : w ∉ s.threads ∧ w ≠ s.started := by simpa using hl
    have hlt : w < s.started := by
      have : w < s.started + 1 := hw
      omega
    simpa [hl'.2] using h.released w hlt hl'.1
  · exact h.alive

theorem Roster.detaches (h : s.Roster) {i n : ℕ} (ho : s.owner = .detach (i + 1) n) (hi : n ≤ i)
    (hw : s.threads[i]? = some w) : ({ s with
      flag := Function.update s.flag w true
      joinable := Function.update s.joinable w false }.setOwner (.detach i n)).Roster := by
  have hne : ∀ j v, s.threads[j]? = some v → v = w ∧ j = i ∨ v ≠ w ∧ j ≠ i := by
    intro j v hv
    by_cases e : v = w
    · exact .inl ⟨e, getElem?_inj_of_nodup h.nodup (e ▸ hv) hw⟩
    · refine .inr ⟨e, ?_⟩
      rintro rfl
      exact e (Option.some.inj (hv.symm.trans hw))
  have hu := h.unstopped (by rw [ho]; rfl) (by rw [ho]; nofun)
  refine { h with
    joinable := fun j v hv => ?_, flag := fun j v hv => ?_, joined := nofun, detach := ?_
    stopping := nofun, aborting := nofun, stopped := fun hd => absurd hd hu
    released := fun v hv hl => ?_ }
  · rcases hne j v hv with ⟨rfl, rfl⟩ | ⟨e, e'⟩
    · simp [Owner.joinable]
    · have := h.joinable j v hv
      simp only [ho, Owner.joinable] at this
      simp only [setOwner_joinable, Function.update_of_ne e, this, setOwner_owner, Owner.joinable,
        decide_eq_decide]
      omega
  · rcases hne j v hv with ⟨rfl, rfl⟩ | ⟨e, e'⟩
    · simp [Owner.flagged]
    · have := h.flag j v hv
      simp only [ho, Owner.flagged] at this
      simp only [setOwner_flag, Function.update_of_ne e, this, setOwner_owner, Owner.flagged,
        decide_eq_decide]
      omega
  · rintro _ _ ⟨⟩
    exact ⟨hi, (lt_of_getElem? hw).le⟩
  · by_cases e : v = w
    · exact .inl (by simp [e])
    · simpa [e] using h.released v hv hl

theorem Roster.flags (h : s.Roster) {i : ℕ} (ho : s.owner = .setFlag i)
    (hw : s.threads[i]? = some w) :
    ({ s with flag := Function.update s.flag w true }.setOwner (.setFlag (i + 1))).Roster := by
  have ha := h.aborting (by rw [ho]; rfl)
  refine { h with
    joinable := fun j v hv => ?_, flag := fun j v hv => ?_, joined := nofun, detach := nofun
    stopping := fun _ => .inr ha, aborting := fun _ => ha, stopped := nofun
    released := fun v hv hl => ?_ }
  · simpa [ho, Owner.joinable] using h.joinable j v hv
  · by_cases e : v = w
    · have : j = i := getElem?_inj_of_nodup h.nodup (e ▸ hv) hw
      simp [e, this, Owner.flagged]
    · have hji : j ≠ i := by
        rintro rfl
        exact e (Option.some.inj (hv.symm.trans hw))
      have := h.flag j v hv
      simp only [ho, Owner.flagged] at this
      simp only [setOwner_flag, Function.update_of_ne e, this, setOwner_owner, Owner.flagged,
        decide_eq_decide]
      omega
  · by_cases e : v = w
    · exact .inl (by simp [e])
    · simpa [e] using h.released v hv hl

theorem Roster.joinsThread (h : s.Roster) {i : ℕ} (ho : s.owner = .join i)
    (hw : s.threads[i]? = some w) (he : s.worker w = .exited) :
    ({ s with joinable := Function.update s.joinable w false }.setOwner (.join (i + 1))).Roster := by
  refine { h with
    joinable := fun j v hv => ?_, flag := fun j v hv => ?_, joined := fun j v hv hj => ?_
    detach := nofun, stopping := fun _ => h.stopping (by rw [ho]; rfl), aborting := nofun
    stopped := nofun }
  · by_cases e : v = w
    · have : j = i := getElem?_inj_of_nodup h.nodup (e ▸ hv) hw
      simp [e, this, Owner.joinable]
    · have hji : j ≠ i := by
        rintro rfl
        exact e (Option.some.inj (hv.symm.trans hw))
      have := h.joinable j v hv
      simp only [ho, Owner.joinable] at this
      simp only [setOwner_joinable, Function.update_of_ne e, this, setOwner_owner, Owner.joinable,
        decide_eq_decide]
      omega
  · simpa [ho, Owner.flagged] using h.flag j v hv
  · by_cases e : v = w
    · exact e ▸ he
    · have hji : j ≠ i := by
        rintro rfl
        exact e (Option.some.inj (hv.symm.trans hw))
      have hj' : j < i + 1 := by simpa [Owner.joined] using hj
      exact h.joined j v hv (by simp [ho, Owner.joined]; omega)

theorem destroyed_of_not_joinable {l : List ℕ} (h : s.Roster) (hl : ∀ w ∈ l, s.joinable w = false) :
    s.destroyed l = false := by
  simpa [destroyed, h.alive] using hl

theorem Roster.truncates (h : s.Roster) {n : ℕ} (ho : s.owner = .truncate n) : ({ s with
      threads := s.threads.take n
      terminated := s.destroyed (s.threads.drop n) }.setOwner .idle).Roster := by
  have htake : ∀ j w, (s.threads.take n)[j]? = some w → s.threads[j]? = some w ∧ j < n := by
    intro j w hw
    rw [List.getElem?_take] at hw
    simpa [and_comm] using hw
  have hdrop : ∀ w ∈ s.threads, w ∉ s.threads.take n → ∃ j, n ≤ j ∧ s.threads[j]? = some w := by
    intro w hw hn
    obtain ⟨j, hj⟩ := List.mem_iff_getElem?.mp hw
    refine ⟨j, Nat.le_of_not_lt fun hlt => hn ?_, hj⟩
    exact List.mem_of_getElem? (i := j) (by rw [List.getElem?_take, if_pos hlt, hj])
  have hu := h.unstopped (by rw [ho]; rfl) (by rw [ho]; nofun)
  have ht : s.destroyed (s.threads.drop n) = false := by
    refine destroyed_of_not_joinable h fun w hw => ?_
    obtain ⟨j, hj⟩ := List.mem_iff_getElem?.mp hw
    rw [List.getElem?_drop] at hj
    rw [h.joinable _ w hj, ho]
    simp [Owner.joinable]
  constructor
  · exact h.nodup.sublist (List.take_sublist n _)
  · exact fun w hw => h.lt w (List.mem_of_mem_take hw)
  · exact fun j w hw => h.index j w (htake j w hw).1
  · intro j w hw
    refine (h.joinable j w (htake j w hw).1).trans ?_
    simpa [ho, Owner.joinable] using (htake j w hw).2
  · intro j w hw
    refine (h.flag j w (htake j w hw).1).trans ?_
    simpa [ho, Owner.flagged] using (htake j w hw).2
  · nofun
  · nofun
  · exact fun hd => absurd hd hu
  · nofun
  · nofun
  · intro w hw hl
    by_cases hmem : w ∈ s.threads
    · obtain ⟨j, hnj, hj⟩ := hdrop w hmem hl
      refine .inl ((h.flag j w hj).trans ?_)
      simpa [ho, Owner.flagged] using hnj
    · exact h.released w hw hmem
  · exact ht

theorem Roster.clearsThreads (h : s.Roster) (ho : s.owner = .clearThreads) : ({ s with
      threads := []
      terminated := s.destroyed s.threads }.setOwner .idle).Roster := by
  have ht : s.destroyed s.threads = false := by
    refine destroyed_of_not_joinable h fun w hw => ?_
    obtain ⟨j, hj⟩ := List.mem_iff_getElem?.mp hw
    rw [h.joinable _ w hj, ho]
    rfl
  constructor
  · exact List.nodup_nil
  · nofun
  · nofun
  · nofun
  · nofun
  · nofun
  · nofun
  · exact fun _ _ => ⟨rfl, rfl⟩
  · nofun
  · nofun
  · intro w hw _
    by_cases hmem : w ∈ s.threads
    · obtain ⟨j, hj⟩ := List.mem_iff_getElem?.mp hmem
      exact .inr (h.joined j w hj (by rw [ho]; rfl))
    · exact h.released w hw hmem
  · exact ht

/-- The owner has neither started nor ended anything yet, and turns to `stop`. -/
theorem Roster.begins (h : s.Roster) (ho : s.owner = .idle) {t : State}
    (he : t.threads = s.threads ∧ t.flag = s.flag ∧ t.index = s.index ∧
      t.joinable = s.joinable ∧ t.worker = s.worker ∧ t.started = s.started ∧
      t.terminated = s.terminated)
    (hd : t.isDone = true ∨ t.isStop = true)
    (ht : t.owner = .lock .stop ∧ t.isStop = false ∨ t.owner = .setFlag 0 ∧ t.isStop = true) :
    t.Roster := by
  obtain ⟨h₁, h₂, h₃, h₄, h₅, h₆, h₇⟩ := he
  have hj : ∀ (j : ℕ) (w : ℕ), s.threads[j]? = some w → s.joinable w = true := by
    intro j w hw
    rw [h.joinable j w hw, ho]
    rfl
  have hf : ∀ (j : ℕ) (w : ℕ), s.threads[j]? = some w → s.flag w = false := by
    intro j w hw
    rw [h.flag j w hw, ho]
    rfl
  constructor <;> try simp only [h₁, h₂, h₃, h₄, h₅, h₆, h₇]
  · exact h.nodup
  · exact h.lt
  · exact h.index
  · intro j w hw
    rw [hj j w hw]
    rcases ht with ⟨ht, -⟩ | ⟨ht, -⟩ <;> rw [ht] <;> rfl
  · intro j w hw
    rw [hf j w hw]
    rcases ht with ⟨ht, hs⟩ | ⟨ht, -⟩
    · rw [ht, hs]
      rfl
    · rw [ht]
      rfl
  · intro j w hw hx
    rcases ht with ⟨ht, -⟩ | ⟨ht, -⟩ <;> rw [ht] at hx <;> cases hx
  · intro i n hi
    rcases ht with ⟨ht, -⟩ | ⟨ht, -⟩ <;> rw [ht] at hi <;> cases hi
  · intro _ hx
    rcases ht with ⟨ht, -⟩ | ⟨ht, -⟩ <;> rw [ht] at hx <;> cases hx
  · exact fun _ => hd
  · intro hx
    rcases ht with ⟨ht, -⟩ | ⟨-, ht⟩
    · rw [ht] at hx
      cases hx
    · exact ht
  · exact h.released
  · exact h.alive

/-- The owner goes on, and what its place says of the threads stays. -/
theorem Roster.goes (h : s.Roster) {o : Owner}
    (he : o.joinable = s.owner.joinable ∧ (∀ b, o.flagged b = s.owner.flagged b) ∧
      o.joined = s.owner.joined ∧ o.stopping = s.owner.stopping)
    (hd : ∀ i n, o ≠ .detach i n) (ha : o.aborting = false) (hi : s.owner ≠ .idle)
    {m : Option Party} : ({ s with mutex := m }.setOwner o).Roster := by
  obtain ⟨hj, hf, hx, hs⟩ := he
  refine { h with
    joinable := fun j w hw => ?_, flag := fun j w hw => ?_, joined := fun j w hw hx' => ?_
    detach := fun i n hi => absurd hi (hd i n), stopped := fun hd' hs' => ?_
    stopping := fun hs' => ?_, aborting := fun ha' => ?_ }
  · exact (h.joinable j w hw).trans (by rw [setOwner_owner, hj])
  · exact (h.flag j w hw).trans (congrFun (hf s.isStop) j).symm
  · exact h.joined j w hw (by rwa [setOwner_owner, hx] at hx')
  · rw [setOwner_owner, hs] at hs'
    exact absurd hd' (h.unstopped hs' hi)
  · exact h.stopping (by rwa [setOwner_owner, hs] at hs')
  · rw [setOwner_owner, ha] at ha'
    cases ha'

theorem Roster.step (h : s.Roster) (hn : s.Numbered) (hs : Moves s a s') : s'.Roster := by
  have hs' := hs
  cases hs with
  | stays => exact h
  | ownerTurns ht => exact h.ownerTurn ht
  | starts ho => exact h.setThread ho
  | detaches ho hi hw => exact h.detaches ho hi hw
  | flags ho hw => exact h.flags ho hw
  | joins ho hw he => exact h.joinsThread ho hw he
  | truncates ho => exact h.truncates ho
  | clearsThreads ho => exact h.clearsThreads ho
  | finishes ho hd hs =>
    exact h.begins ho ⟨rfl, rfl, rfl, rfl, rfl, rfl, rfl⟩ (.inl rfl) (.inl ⟨rfl, hs⟩)
  | stops ho hs =>
    exact h.begins ho ⟨rfl, rfl, rfl, rfl, rfl, rfl, rfl⟩ (.inr rfl) (.inr ⟨rfl, rfl⟩)
  | @ownerLocks _ r ho =>
    refine h.goes ?_ (by cases r <;> nofun) (by cases r <;> rfl) (by rw [ho]; nofun)
    rw [ho]
    cases r <;> exact ⟨rfl, fun _ => rfl, rfl, rfl⟩
  | @ownerUnlocks _ r ho =>
    refine h.goes ?_ (by cases r <;> nofun) (by cases r <;> rfl) (by rw [ho]; nofun)
    rw [ho]
    cases r with
    | shrink n => exact ⟨rfl, fun _ => rfl, rfl, rfl⟩
    | stop =>
      refine ⟨funext fun j => ?_, fun _ => rfl, funext fun j => ?_, rfl⟩
      · simp [afterNotify, Owner.joinable]
      · simp [afterNotify, Owner.joined]
  | @notifiesAll _ r ho =>
    have hx : ∀ w, s.worker w = .exited → s.notifyAll.worker w = .exited := fun w hw => by simp [hw]
    have h' : s.notifyAll.Roster := { h with
      joined := fun j w hj hw => hx w (h.joined j w hj hw)
      released := fun w hw hl => (h.released w hw hl).imp_right (hx w) }
    refine h'.goes (m := s.mutex) (o := .unlock r) ?_ nofun rfl (by rw [notifyAll_owner, ho]; nofun)
    rw [notifyAll_owner, ho]
    cases r <;> exact ⟨rfl, fun _ => rfl, rfl, rfl⟩
  | _ => exact h.keep hn hs' ⟨rfl, rfl, rfl, rfl, rfl, rfl, rfl, rfl, rfl⟩

end State

end MutilsTasks.ThreadPool
