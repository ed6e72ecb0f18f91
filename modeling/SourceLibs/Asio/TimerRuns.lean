import SourceLibs.Asio.TimerHeap

/-!
# Asio — every wait is delivered once

What waits for a timer, and until when, is a queue of operations and a time for each timer.

* `removeTimer_spec`, `enqueue_new`: a timer comes, or goes.
* `readyLoop_spec`, `allLoop_spec`, `cancelLoop_eq`: what is delivered.
* `timerQueue_runs`: every run of the members.
-/

namespace SourceLibs.AsioTimer
open List Option Function Compare HeapArray DoublyLinked

variable {τ : Type*}

namespace TimerQueue

section Fields
variable {s : TimerQueue τ} {t : ℕ}

@[simp] theorem setOps_heap (ops : List ℕ) : (s.setOps t ops).heap = s.heap := rfl

@[simp] theorem setOps_timers (ops : List ℕ) : (s.setOps t ops).timers = s.timers := rfl

theorem data_setOps (ops : List ℕ) (u : ℕ) : (s.setOps t ops).data u =
    { s.data u with opQueue := if u = t then ops else (s.data u).opQueue } := by
  rw [setOps, setData]
  dsimp only
  by_cases hu : u = t
  · rw [hu, update_self, if_pos rfl]
  · rw [update_of_ne hu, if_neg hu]

theorem data_setNext (p : Option ℕ) (u : ℕ) : (s.setNext t p).data u =
    { s.data u with next := if u = t then p else (s.data u).next } := by
  rw [setNext, setData]
  dsimp only
  by_cases hu : u = t
  · rw [hu, update_self, if_pos rfl]
  · rw [update_of_ne hu, if_neg hu]

theorem data_setPrev (p : Option ℕ) (u : ℕ) : (s.setPrev t p).data u =
    { s.data u with prev := if u = t then p else (s.data u).prev } := by
  rw [setPrev, setData]
  dsimp only
  by_cases hu : u = t
  · rw [hu, update_self, if_pos rfl]
  · rw [update_of_ne hu, if_neg hu]

/-- **Unlinking** changes the links around a timer. -/
theorem data_unlink (hprev : (s.data t).prev ≠ some t) (u : ℕ) :
    (s.unlink t).data u =
      { s.data u with
        next := if u = t then none else if (s.data t).prev = some u then (s.data t).next
          else (s.data u).next
        prev := if u = t then none else if (s.data t).next = some u then (s.data t).prev
          else (s.data u).prev } := by
  have h0 : (if s.timers = some t then { s with timers := (s.data t).next } else s).data = s.data := by
    split <;> rfl
  rw [unlink]
  dsimp only
  generalize (if s.timers = some t then { s with timers := (s.data t).next } else s) = s₀ at h0 ⊢
  rw [h0]
  cases hp : (s.data t).prev with
  | none =>
    dsimp only
    rw [h0]
    cases hn : (s.data t).next with
    | none =>
      dsimp only
      rw [data_setPrev, data_setNext, h0]
      simp
    | some q =>
      dsimp only
      rw [data_setPrev, data_setNext, data_setPrev, h0, hp]
      simp only [some_inj, eq_comm]
      rfl
  | some p =>
    dsimp only
    rw [data_setNext, h0]
    dsimp only
    have hpt : t ≠ p := fun h1 => hprev (by rw [hp, h1])
    rw [if_neg hpt]
    cases hn : (s.data t).next with
    | none =>
      dsimp only
      rw [data_setPrev, data_setNext, data_setNext, h0]
      simp only [some_inj, eq_comm]
      rfl
    | some q =>
      dsimp only
      rw [data_setPrev, data_setNext, data_setPrev, data_setNext, h0, hp]
      simp only [some_inj, eq_comm]

theorem unlink_timers : (s.unlink t).timers = if s.timers = some t then (s.data t).next else s.timers := by
  have h0 : (if s.timers = some t then { s with timers := (s.data t).next } else s).timers =
      if s.timers = some t then (s.data t).next else s.timers := by
    split <;> rfl
  rw [unlink, ← h0]
  generalize (if s.timers = some t then { s with timers := (s.data t).next } else s) = s₀
  cases (s₀.data t).prev with
  | none => dsimp only; cases (s₀.data t).next <;> rfl
  | some p => dsimp only; cases ((s₀.setNext p (s₀.data t).next).data t).next <;> rfl

theorem unlink_rest : (s.unlink t).heap = s.heap ∧ (s.unlink t).aborted = s.aborted := by
  have h0 : (if s.timers = some t then { s with timers := (s.data t).next } else s).heap = s.heap ∧
      (if s.timers = some t then { s with timers := (s.data t).next } else s).aborted = s.aborted := by
    split <;> exact ⟨rfl, rfl⟩
  rw [unlink]
  generalize (if s.timers = some t then { s with timers := (s.data t).next } else s) = s₀ at h0 ⊢
  cases (s₀.data t).prev with
  | none => dsimp only; cases (s₀.data t).next <;> exact h0
  | some p => dsimp only; cases ((s₀.setNext p (s₀.data t).next).data t).next <;> exact h0

theorem timers_setPrev (p : ℕ) (next prev : Option ℕ) :
    ((s.setNext t next).setPrev p prev).timers = s.timers := rfl

/-- **A new timer** is linked to the head. -/
theorem data_linkFront (u : ℕ) : (s.linkFront t).data u =
    { s.data u with
      next := if u = t then s.timers else (s.data u).next
      prev := if s.timers = some u then some t else if u = t then none else (s.data u).prev } := by
  simp only [linkFront, timers_setPrev]
  cases s.timers with
  | none =>
    dsimp only
    rw [data_setPrev, data_setNext]
    simp
  | some p =>
    dsimp only
    rw [data_setPrev, data_setPrev, data_setNext]
    simp only [some_inj, eq_comm]

theorem linkFront_rest : (s.linkFront t).timers = some t ∧ (s.linkFront t).heap = s.heap ∧
    (s.linkFront t).aborted = s.aborted := by
  simp only [linkFront, timers_setPrev]
  cases s.timers <;> exact ⟨trivial, rfl, rfl⟩

end Fields

/-! ### Timers come and go -/

/-- The heap and the linked list hold some timers, with their times. -/
structure Tied [Inhabited τ] (less : τ → τ → Bool) (isPositiveInfinity : τ → Bool) (time : ℕ → τ)
    (s : TimerQueue τ) (ts : List ℕ) : Prop where
  heap : HeapWf less s
  chain : Chain (fun t => (s.data t).next) (fun t => (s.data t).prev) s.timers ts
  entries : ∀ tm t, (tm, t) ∈ s.heap ↔ t ∈ ts ∧ time t = tm ∧ isPositiveInfinity tm = false
  infinite : ∀ t ∈ ts, isPositiveInfinity (time t) = true → (s.data t).heapIndex = sizeMax
  size : s.heap.length ≤ sizeMax

section Tied
variable [Inhabited τ] {less : τ → τ → Bool} {isPositiveInfinity : τ → Bool} {time : ℕ → τ}
  {s s' : TimerQueue τ} {ts : List ℕ} {t : ℕ}

theorem Tied.queued (h : Tied less isPositiveInfinity time s ts) (t : ℕ) :
    t ∈ ts ↔ ¬ ((s.data t).prev = none ∧ s.timers ≠ some t) := h.chain.mem_iff t

theorem Tied.inHeap (h : Tied less isPositiveInfinity time s ts) :
    s.InHeap t ↔ t ∈ ts ∧ isPositiveInfinity (time t) = false := by
  constructor
  · rintro ⟨tm, hmem⟩
    obtain ⟨ht, rfl, hfin⟩ := (h.entries tm t).mp hmem
    exact ⟨ht, hfin⟩
  · rintro ⟨ht, hfin⟩
    exact ⟨time t, (h.entries _ t).mpr ⟨ht, rfl, hfin⟩⟩

theorem Tied.setOps (h : Tied less isPositiveInfinity time s ts) (t : ℕ) (ops : List ℕ) :
    Tied less isPositiveInfinity time (s.setOps t ops) ts := by
  refine ⟨⟨fun k hk => ?_, h.heap.ordered⟩, ?_, h.entries, fun u hu hinf => ?_, h.size⟩
  · rw [data_setOps]
    exact h.heap.indexed k hk
  · have hn : (fun u => ((s.setOps t ops).data u).next) = fun u => (s.data u).next := by
      funext u
      rw [data_setOps]
    have hp : (fun u => ((s.setOps t ops).data u).prev) = fun u => (s.data u).prev := by
      funext u
      rw [data_setOps]
    rw [hn, hp]
    exact h.chain
  · rw [data_setOps]
    exact h.infinite u hu hinf

theorem removeTimer_spec (hw : StrictWeak less) {pre suf : List ℕ}
    (h : Tied less isPositiveInfinity time s (pre ++ t :: suf)) :
    Tied less isPositiveInfinity time (s.removeTimer less t) (pre ++ suf) ∧
      (∀ u, ((s.removeTimer less t).data u).opQueue = (s.data u).opQueue) ∧
      (s.removeTimer less t).aborted = s.aborted ∧
      (s.removeTimer less t).heap.length ≤ s.heap.length ∧
      (s.InHeap t → (s.removeTimer less t).heap.length < s.heap.length) := by
  -- The heap.
  obtain ⟨s₁, hs₁, hwf, hrest, hle, hlt, hmem, hout⟩ : ∃ s₁, s.removeFromHeap less t = s₁ ∧
      HeapWf less s₁ ∧ SameRest s s₁ ∧ s₁.heap.length ≤ s.heap.length ∧
      (s.InHeap t → s₁.heap.length < s.heap.length) ∧ (∀ e, e ∈ s₁.heap ↔ e ∈ s.heap ∧ e.2 ≠ t) ∧
      ∀ u, ¬ s.InHeap u → (s₁.data u).heapIndex = (s.data u).heapIndex := by
    by_cases hin : s.InHeap t
    · obtain ⟨hwf, hrest, hlen, hmem, hout⟩ := removeFromHeap_spec hw h.heap hin
      exact ⟨_, rfl, hwf, hrest, by omega, fun _ => by omega, hmem, hout⟩
    · have hinf : isPositiveInfinity (time t) = true := by
        by_contra hfin
        exact hin (h.inHeap.mpr ⟨by simp, Bool.not_eq_true _ ▸ hfin⟩)
      have hsize : s.heap.length ≤ (s.data t).heapIndex := by
        rw [h.infinite t (by simp) hinf]
        exact h.size
      refine ⟨s, removeFromHeap_outside hsize, h.heap, .refl s, le_rfl, fun h0 => absurd h0 hin,
        fun e => ⟨fun he => ⟨he, fun heq => hin ⟨e.1, heq ▸ he⟩⟩, And.left⟩, fun _ _ => rfl⟩
  have hchain : Chain (fun u => (s₁.data u).next) (fun u => (s₁.data u).prev) s₁.timers
      (pre ++ t :: suf) := by
    rw [funext hrest.next, funext hrest.prev, hrest.timers]
    exact h.chain
  obtain ⟨htpre, htsuf, -⟩ := SpanList.notMem_of_nodup h.chain.nodup
  have hprev : (s₁.data t).prev ≠ some t := by
    have := hchain.before pre t suf rfl
    rw [this]
    exact fun h0 => htpre (mem_of_getLast? h0)
  have hdata := data_unlink hprev
  obtain ⟨hheap, haborted⟩ := unlink_rest (s := s₁) (t := t)
  have htime : ∀ k, (s₁.unlink t).time k = s₁.time k := fun k => by
    rw [TimerQueue.time, TimerQueue.time, entry, entry, hheap]
  have hentry : ∀ k, (s₁.unlink t).entry k = s₁.entry k := fun k => by rw [entry, entry, hheap]
  rw [removeTimer, hs₁]
  refine ⟨⟨⟨fun k hk => ?_, ?_⟩, ?_, fun tm u => ?_, fun u hu hinf => ?_, ?_⟩, fun u => ?_, ?_, ?_, ?_⟩
  · rw [hheap] at hk
    rw [hentry, hdata]
    exact hwf.indexed k hk
  · rw [hheap, funext htime]
    exact hwf.ordered
  · refine hchain.remove unlink_timers (fun u => ?_) fun u => ?_
    · rw [hdata]
    · rw [hdata]
  · rw [hheap, hmem, h.entries]
    simp only [mem_append, mem_cons]
    constructor
    · rintro ⟨⟨hu, htm, hfin⟩, hne⟩
      exact ⟨by tauto, htm, hfin⟩
    · rintro ⟨hu, htm, hfin⟩
      refine ⟨⟨by tauto, htm, hfin⟩, ?_⟩
      rintro rfl
      exact hu.elim htpre htsuf
  · have hu' : u ∈ pre ++ t :: suf := by
      simp only [mem_append, mem_cons] at hu ⊢
      tauto
    rw [hdata, hout u fun h0 => ?_]
    · exact h.infinite u hu' hinf
    · rw [(h.inHeap.mp h0).2] at hinf
      cases hinf
  · rw [hheap]
    exact hle.trans h.size
  · rw [hdata]
    exact hrest.opQueue u
  · exact haborted.trans hrest.aborted
  · rw [hheap]
    exact hle
  · rw [hheap]
    exact hlt

theorem linkFront_spec (h : Tied less isPositiveInfinity time s ts) (ht : t ∉ ts) {tm : τ}
    (hwf : HeapWf less s') (hrest : SameRest s s')
    (hmem : ∀ e, e ∈ s'.heap ↔ e ∈ s.heap ∨ (isPositiveInfinity tm = false ∧ e = (tm, t)))
    (hout : ∀ u, u ≠ t → ¬ s.InHeap u → (s'.data u).heapIndex = (s.data u).heapIndex)
    (hinf : isPositiveInfinity tm = true → (s'.data t).heapIndex = sizeMax)
    (hsize : s'.heap.length ≤ sizeMax) :
    Tied less isPositiveInfinity (update time t tm) (s'.linkFront t) (t :: ts) ∧
      (∀ u, ((s'.linkFront t).data u).opQueue = (s.data u).opQueue) ∧
      (s'.linkFront t).aborted = s.aborted := by
  have hchain : Chain (fun u => (s'.data u).next) (fun u => (s'.data u).prev) s'.timers ts := by
    rw [funext hrest.next, funext hrest.prev, hrest.timers]
    exact h.chain
  obtain ⟨htimers, hheap, haborted⟩ := linkFront_rest (s := s') (t := t)
  have hentry : ∀ k, (s'.linkFront t).entry k = s'.entry k := fun k => by rw [entry, entry, hheap]
  have htime : ∀ k, (s'.linkFront t).time k = s'.time k := fun k => by
    rw [TimerQueue.time, TimerQueue.time, hentry]
  refine ⟨⟨⟨fun k hk => ?_, ?_⟩, ?_, fun tm' u => ?_, fun u hu hu' => ?_, ?_⟩, fun u => ?_, ?_⟩
  · rw [hheap] at hk
    rw [hentry, data_linkFront]
    exact hwf.indexed k hk
  · rw [hheap, funext htime]
    exact hwf.ordered
  · rw [htimers]
    refine hchain.pushFront ht (fun u => ?_) fun u => ?_
    · rw [data_linkFront]
    · rw [data_linkFront]
  · rw [hheap, hmem, h.entries, mem_cons, Prod.mk.injEq]
    by_cases hu : u = t
    · rw [hu, update_self]
      constructor
      · rintro (⟨h0, -⟩ | ⟨hfin, rfl, -⟩)
        · exact absurd h0 ht
        · exact ⟨.inl rfl, rfl, hfin⟩
      · rintro ⟨-, rfl, hfin⟩
        exact .inr ⟨hfin, rfl, rfl⟩
    · rw [update_of_ne hu]
      simp [hu]
  · rw [data_linkFront]
    by_cases hut : u = t
    · rw [hut, update_self] at hu'
      rw [hut]
      exact hinf hu'
    · rw [update_of_ne hut] at hu'
      have hu'' := (mem_cons.mp hu).resolve_left hut
      dsimp only
      rw [hout u hut fun h0 => ?_]
      · exact h.infinite u hu'' hu'
      · rw [(h.inHeap.mp h0).2] at hu'
        cases hu'
  · rw [hheap]
    exact hsize
  · rw [data_linkFront]
    exact hrest.opQueue u
  · exact haborted.trans hrest.aborted

omit [Inhabited τ] in
theorem setIndex_rest (t i : ℕ) : SameRest s (s.setIndex t i) := by
  refine ⟨rfl, rfl, fun u => ?_, fun u => ?_, fun u => ?_⟩ <;> rw [data_setIndex]

theorem setIndex_tied (h : Tied less isPositiveInfinity time s ts) (ht : t ∉ ts) (i : ℕ) :
    Tied less isPositiveInfinity time (s.setIndex t i) ts := by
  have hne : ∀ u, u ∈ ts → u ≠ t := fun u hu h0 => ht (h0 ▸ hu)
  have hrest := setIndex_rest (s := s) t i
  refine ⟨⟨fun k hk => ?_, h.heap.ordered⟩, ?_, h.entries, fun u hu hinf => ?_, h.size⟩
  · have hk' : ((s.setIndex t i).entry k).2 ≠ t := hne _ (h.inHeap.mp (inHeap_entry hk)).1
    rw [data_setIndex]
    dsimp only
    rw [if_neg hk']
    exact h.heap.indexed k hk
  · rw [funext hrest.next, funext hrest.prev]
    exact h.chain
  · rw [data_setIndex]
    dsimp only
    rw [if_neg (hne u hu)]
    exact h.infinite u hu hinf

/-- **A timer that never comes** is queued. -/
theorem enqueue_infinite (h : Tied less isPositiveInfinity time s ts) (ht : t ∉ ts) {tm : τ}
    (hinf : isPositiveInfinity tm = true) :
    Tied less isPositiveInfinity (update time t tm) ((s.setIndex t sizeMax).linkFront t)
        (t :: ts) ∧
      (∀ u, (((s.setIndex t sizeMax).linkFront t).data u).opQueue = (s.data u).opQueue) ∧
      ((s.setIndex t sizeMax).linkFront t).aborted = s.aborted := by
  refine linkFront_spec h ht (setIndex_tied h ht sizeMax).heap (setIndex_rest t sizeMax) (fun e => ?_)
    (fun u hu _ => ?_) (fun _ => ?_) h.size
  · exact ⟨.inl, fun h0 => h0.resolve_right fun h1 => by rw [hinf] at h1; exact nomatch h1.1⟩
  · rw [data_setIndex]
    exact if_neg hu
  · rw [data_setIndex]
    exact if_pos rfl

/-- **A timer with a time** is queued. -/
theorem enqueue_finite (hw : StrictWeak less) (h : Tied less isPositiveInfinity time s ts) (ht : t ∉ ts)
    {tm : τ} (hfin : isPositiveInfinity tm = false) (hsize : s.heap.length < sizeMax) :
    let s' := (upHeap less s.heap.length s.heap.length
      { s.setIndex t s.heap.length with heap := s.heap ++ [(tm, t)] }).linkFront t
    Tied less isPositiveInfinity (update time t tm) s' (t :: ts) ∧
      (∀ u, (s'.data u).opQueue = (s.data u).opQueue) ∧ s'.aborted = s.aborted := by
  have hin : ¬ s.InHeap t := fun h0 => ht (h.inHeap.mp h0).1
  obtain ⟨hwf, hrest, hlen, hmem, hout⟩ := push_spec hw h.heap hin tm
  refine linkFront_spec h ht hwf hrest (fun e => ?_) hout (fun hinf => ?_) (by rw [hlen]; exact hsize)
  · rw [hmem]
    exact or_congr_right ⟨fun h0 => ⟨hfin, h0⟩, And.right⟩
  · rw [hfin] at hinf
    exact nomatch hinf

end Tied

/-! ### What waits -/

/-- The operations that wait for each timer, and until when. -/
structure Waits (τ : Type*) where
  pending : ℕ → List ℕ
  time : ℕ → τ
  aborted : ℕ → Bool

/-- The queue holds what waits. -/
structure Rep [Inhabited τ] (less : τ → τ → Bool) (isPositiveInfinity : τ → Bool) (s : TimerQueue τ)
    (a : Waits τ) (ts : List ℕ) : Prop where
  tied : Tied less isPositiveInfinity a.time s ts
  ops : ∀ t, (s.data t).opQueue = a.pending t
  members : ∀ t, t ∈ ts ↔ a.pending t ≠ []
  aborted : s.aborted = a.aborted

section Rep
variable [Inhabited τ] {less : τ → τ → Bool} {isPositiveInfinity : τ → Bool} {s s' : TimerQueue τ}
  {a : Waits τ} {ts : List ℕ} {t : ℕ}

/-- A timer is ready. -/
def Waits.Due (less : τ → τ → Bool) (isPositiveInfinity : τ → Bool) (a : Waits τ) (now : τ) (t : ℕ) :
    Prop :=
  a.pending t ≠ [] ∧ isPositiveInfinity (a.time t) = false ∧ less now (a.time t) = false

instance (now : τ) (t : ℕ) : Decidable (a.Due less isPositiveInfinity now t) :=
  inferInstanceAs (Decidable (_ ∧ _ ∧ _))

theorem Rep.remove (hw : StrictWeak less) (h : Rep less isPositiveInfinity s a ts) (ht : t ∈ ts) :
    ∃ ts', Rep less isPositiveInfinity ((s.setOps t []).removeTimer less t)
        { a with pending := fun u => if u = t then [] else a.pending u } ts' ∧
      ((s.setOps t []).removeTimer less t).heap.length ≤ s.heap.length ∧
      (s.InHeap t → ((s.setOps t []).removeTimer less t).heap.length < s.heap.length) := by
  obtain ⟨pre, suf, rfl⟩ := append_of_mem ht
  obtain ⟨htied, hops, haborted, hle, hlt⟩ := removeTimer_spec hw (h.tied.setOps t [])
  obtain ⟨htpre, htsuf, -⟩ := SpanList.notMem_of_nodup h.tied.chain.nodup
  refine ⟨pre ++ suf, ⟨htied, fun u => ?_, fun u => ?_, haborted.trans h.aborted⟩, hle, hlt⟩
  · rw [hops, data_setOps]
    dsimp only
    rw [h.ops]
  · dsimp only
    have hmem := h.members u
    simp only [mem_append, mem_cons] at hmem ⊢
    by_cases hu : u = t
    · rw [if_pos hu, hu]
      exact ⟨fun h0 => absurd h0 (not_or.mpr ⟨htpre, htsuf⟩), fun h0 => absurd rfl h0⟩
    · rw [if_neg hu, ← hmem]
      tauto

/-- **`get_ready_timers`** takes the timers that are due, the earliest first. -/
theorem readyLoop_spec (hw : StrictWeak less) (now : τ) (fuel : ℕ) : ∀ {s : TimerQueue τ} {a : Waits τ}
    {ts : List ℕ} (ops : List ℕ), Rep less isPositiveInfinity s a ts → s.heap.length < fuel →
    ∃ (ready ts' : List ℕ), (readyLoop less now fuel s ops).2 = ops ++ ready.flatMap a.pending ∧
      Rep less isPositiveInfinity (readyLoop less now fuel s ops).1
        { a with pending := fun t => if t ∈ ready then [] else a.pending t } ts' ∧
      ready.Nodup ∧ (∀ t, t ∈ ready ↔ a.Due less isPositiveInfinity now t) ∧
      ready.Pairwise fun t u => less (a.time u) (a.time t) = false := by
  induction fuel with
  | zero => exact fun _ _ h => absurd h (Nat.not_lt_zero _)
  | succ fuel ih =>
    intro s a ts ops h hfuel
    -- Nothing is due any more.
    have hdone : (∀ t, ¬ a.Due less isPositiveInfinity now t) →
        ∃ (ready ts' : List ℕ), ops = ops ++ ready.flatMap a.pending ∧
          Rep less isPositiveInfinity s
            { a with pending := fun t => if t ∈ ready then [] else a.pending t } ts' ∧
          ready.Nodup ∧ (∀ t, t ∈ ready ↔ a.Due less isPositiveInfinity now t) ∧
          ready.Pairwise fun t u => less (a.time u) (a.time t) = false := fun hnot =>
      ⟨[], ts, by simp, by simpa using h, nodup_nil, fun t => by simp [hnot t], .nil⟩
    rw [readyLoop]
    cases hheap : s.heap with
    | nil =>
      refine hdone fun t hdue => ?_
      have := h.tied.inHeap.mpr ⟨(h.members t).mpr hdue.1, hdue.2.1⟩
      obtain ⟨tm, hmem⟩ := this
      rw [hheap] at hmem
      exact absurd hmem not_mem_nil
    | cons e rest =>
      obtain ⟨tm, t⟩ := e
      dsimp only
      have hroot : ∀ u, u ∈ ts → isPositiveInfinity (a.time u) = false → less (a.time u) tm = false := by
        intro u hu hfin
        have hmem := (h.tied.entries _ u).mpr ⟨hu, rfl, hfin⟩
        have := h.tied.heap.root hw hmem
        rw [TimerQueue.time, entry, hheap] at this
        exact this
      cases hlt : less now tm with
      | true =>
        rw [if_neg (by decide)]
        refine hdone fun u hdue => ?_
        have := hw.trans hdue.2.2 (hroot u ((h.members u).mpr hdue.1) hdue.2.1)
        rw [hlt] at this
        cases this
      | false =>
        rw [if_pos (by rfl)]
        have hmem : (tm, t) ∈ s.heap := by rw [hheap]; exact mem_cons_self
        obtain ⟨ht, rfl, hfin⟩ := (h.tied.entries tm t).mp hmem
        obtain ⟨ts₁, hrep, -, hlen⟩ := h.remove hw ht
        obtain ⟨ready, ts', hops, hrep', hnodup, hdue, hsorted⟩ :=
          ih (ops ++ (s.data t).opQueue) hrep
            ((hlen ⟨_, hmem⟩).trans_le (Nat.le_of_lt_succ hfuel))
        have htready : t ∉ ready := fun h0 => ((hdue t).mp h0).1 (if_pos rfl)
        have hdue' : ∀ u, u ∈ ready ↔ u ≠ t ∧ a.Due less isPositiveInfinity now u := by
          intro u
          rw [hdue, Waits.Due, Waits.Due]
          dsimp only
          by_cases hu : u = t
          · simp [hu]
          · simp [hu]
        refine ⟨t :: ready, ts', ?_, ?_, nodup_cons.mpr ⟨htready, hnodup⟩, fun u => ?_,
          pairwise_cons.mpr ⟨fun u hu => ?_, hsorted⟩⟩
        · have hsame : ready.flatMap (fun u => if u = t then [] else a.pending u) =
              ready.flatMap a.pending := by
            refine flatMap_congr fun u hu => if_neg ?_
            rintro rfl
            exact htready hu
          rw [hops, flatMap_cons, h.ops, List.append_assoc, hsame]
        · have hpending : (fun u => if u ∈ t :: ready then [] else a.pending u) = fun u =>
              if u ∈ ready then [] else if u = t then [] else a.pending u := by
            funext u
            by_cases hu : u = t
            · simp [hu]
            · simp [hu]
          rw [hpending]
          exact hrep'
        · rw [mem_cons, hdue']
          by_cases hu : u = t
          · rw [hu]
            exact ⟨fun _ => ⟨(h.members t).mp ht, hfin, hlt⟩, fun _ => .inl rfl⟩
          · simp [hu]
        · have := (hdue' u).mp hu
          exact hroot u ((h.members u).mpr this.2.1) this.2.2.1

/-! ### All timers, and some operations -/

omit [Inhabited τ] in
theorem allLoop_spec (ts : List ℕ) : ∀ {s : TimerQueue τ} (ops : List ℕ) {fuel : ℕ}, ts.Nodup →
    s.timers = ts.head? → (∀ pre t suf, ts = pre ++ t :: suf → (s.data t).next = suf.head?) →
    ts.length < fuel →
    ∃ s', allLoop fuel s ops = some (s', ops ++ ts.flatMap fun t => (s.data t).opQueue) ∧
      s'.timers = none ∧ s'.aborted = s.aborted ∧
      ∀ t, s'.data t =
        if t ∈ ts then { s.data t with opQueue := [], next := none, prev := none } else s.data t := by
  induction ts with
  | nil =>
    intro s ops fuel _ htimers _ hfuel
    obtain ⟨fuel, rfl⟩ : ∃ m, fuel = m + 1 := ⟨fuel - 1, by omega⟩
    refine ⟨s, ?_, htimers, rfl, fun t => by simp⟩
    rw [allLoop, htimers]
    simp
  | cons t ts ih =>
    intro s ops fuel hnodup htimers hnext hfuel
    obtain ⟨fuel, rfl⟩ : ∃ m, fuel = m + 1 := ⟨fuel - 1, by omega⟩
    obtain ⟨htts, hnodup'⟩ := nodup_cons.mp hnodup
    obtain ⟨s₁, hs₁⟩ : ∃ s₁ : TimerQueue τ, s₁ =
        ((({ s with timers := (s.data t).next } : TimerQueue τ).setOps t []).setNext t none).setPrev t
          none := ⟨_, rfl⟩
    have hdata : ∀ u, s₁.data u =
        if u = t then { s.data u with opQueue := [], next := none, prev := none } else s.data u := by
      intro u
      rw [hs₁, data_setPrev, data_setNext, data_setOps]
      by_cases hu : u = t
      · simp [hu]
      · simp [hu]
    have hne : ∀ u ∈ ts, u ≠ t := by
      rintro u hu rfl
      exact htts hu
    obtain ⟨s', hloop, htimers', haborted', hdata'⟩ := ih (s := s₁)
      (ops ++ (s.data t).opQueue) hnodup' (by rw [hs₁]; exact hnext [] t ts rfl)
      (fun pre u suf hsplit => by
        rw [hdata, if_neg (hne u (by simp [hsplit]))]
        exact hnext (t :: pre) u suf (by rw [hsplit]; rfl))
      (Nat.lt_of_succ_lt_succ hfuel)
    refine ⟨s', ?_, htimers', by rw [haborted', hs₁]; rfl, fun u => ?_⟩
    · have hsame : (ts.flatMap fun u => (s₁.data u).opQueue) = ts.flatMap fun u => (s.data u).opQueue :=
        flatMap_congr fun u hu => by rw [hdata, if_neg (hne u hu)]
      rw [allLoop, htimers, head?_cons]
      dsimp only
      rw [← hs₁, hloop, hsame, flatMap_cons, List.append_assoc]
    · rw [hdata', hdata]
      by_cases hu : u = t
      · simp [hu, htts]
      · simp [hu]

omit [Inhabited τ] in
theorem allLoop_mono {fuel : ℕ} {r : TimerQueue τ × List ℕ} : ∀ {s : TimerQueue τ} {ops : List ℕ},
    allLoop fuel s ops = some r → ∀ m, allLoop (fuel + m) s ops = some r := by
  induction fuel with
  | zero => exact fun h => nomatch h
  | succ fuel ih =>
    intro s ops h m
    rw [Nat.add_right_comm]
    rw [allLoop] at h ⊢
    cases htimers : s.timers with
    | none =>
      rw [htimers] at h
      exact h
    | some t =>
      rw [htimers] at h
      exact ih h m

/-- **`get_all_timers`** takes everything. -/
theorem Rep.all (h : Rep less isPositiveInfinity s a ts) {fuel : ℕ} (hfuel : ts.length < fuel) :
    ∃ s', getAllTimers s fuel [] = some (s', ts.flatMap a.pending) ∧
      Rep less isPositiveInfinity s' { a with pending := fun _ => [] } [] := by
  obtain ⟨s₁, hloop, htimers, haborted, hdata⟩ := allLoop_spec ts [] h.tied.chain.nodup
    h.tied.chain.first h.tied.chain.after hfuel
  have hops : (ts.flatMap fun t => (s.data t).opQueue) = ts.flatMap a.pending :=
    flatMap_congr fun t _ => h.ops t
  refine ⟨{ s₁ with heap := [] }, ?_, ⟨⟨?_, ?_⟩, ?_, fun tm t => ?_, ?_, Nat.zero_le _⟩, fun t => ?_,
    fun t => ?_, haborted.trans h.aborted⟩
  · rw [getAllTimers, hloop, hops, nil_append]
    rfl
  · exact fun k hk => absurd hk (Nat.not_lt_zero k)
  · exact fun k _ hk => absurd hk (Nat.not_lt_zero k)
  · have hnone : ∀ u, (s₁.data u).next = none ∧ (s₁.data u).prev = none := by
      intro u
      rw [hdata]
      by_cases hu : u ∈ ts
      · rw [if_pos hu]
        exact ⟨rfl, rfl⟩
      · rw [if_neg hu]
        exact h.tied.chain.outside u hu
    dsimp only
    rw [htimers, funext fun u => (hnone u).1, funext fun u => (hnone u).2]
    exact chain_nil
  · exact ⟨fun h0 => absurd h0 not_mem_nil, fun h0 => absurd h0.1 not_mem_nil⟩
  · exact fun t ht => absurd ht not_mem_nil
  · dsimp only
    rw [hdata]
    by_cases ht : t ∈ ts
    · rw [if_pos ht]
    · rw [if_neg ht, h.ops]
      by_contra hne
      exact ht ((h.members t).mpr hne)
  · exact ⟨fun h0 => absurd h0 not_mem_nil, fun h0 => absurd rfl h0⟩

/-- **`cancel_timer`** takes the oldest operations. -/
theorem cancelLoop_eq (m : ℕ) (q : List ℕ) : ∀ n ≤ m, cancelLoop m q n =
    (q.drop (m - n), q.take (m - n), n + min (m - n) q.length) := by
  induction q with
  | nil => intro n _; simp [cancelLoop]
  | cons op q ih =>
    intro n hn
    rw [cancelLoop]
    rcases hn.eq_or_lt with rfl | hlt
    · simp
    · have hsub : m - n = m - (n + 1) + 1 := by omega
      rw [if_pos hlt.ne, ih (n + 1) hlt, hsub, drop_succ_cons, take_succ_cons,
        length_cons]
      simp only [Prod.mk.injEq, true_and]
      omega

theorem Rep.setAborted (h : Rep less isPositiveInfinity s a ts) (f : ℕ → Bool) :
    Rep less isPositiveInfinity { s with aborted := f } { a with aborted := f } ts :=
  ⟨⟨⟨h.tied.heap.indexed, h.tied.heap.ordered⟩, h.tied.chain, h.tied.entries, h.tied.infinite,
    h.tied.size⟩, h.ops, h.members, rfl⟩

/-- The operations of a queued timer change, and some are left. -/
theorem Rep.setOps (h : Rep less isPositiveInfinity s a ts) (ht : t ∈ ts) {ops : List ℕ} (hops : ops ≠ []) :
    Rep less isPositiveInfinity (s.setOps t ops) { a with pending := update a.pending t ops }
      ts := by
  refine ⟨h.tied.setOps t ops, fun u => ?_, fun u => ?_, h.aborted⟩
  · rw [data_setOps]
    dsimp only
    by_cases hu : u = t
    · rw [if_pos hu, hu, update_self]
    · rw [if_neg hu, update_of_ne hu, h.ops]
  · dsimp only
    by_cases hu : u = t
    · rw [hu, update_self]
      exact ⟨fun _ => hops, fun _ => ht⟩
    · rw [update_of_ne hu]
      exact h.members u

theorem Rep.cancel (hw : StrictWeak less) (h : Rep less isPositiveInfinity s a ts) (t m : ℕ) :
    ∃ s' ts', cancelTimer s less t [] m =
        (s', (a.pending t).take m, min m (a.pending t).length) ∧
      Rep less isPositiveInfinity s'
        { a with
          pending := update a.pending t ((a.pending t).drop m)
          aborted := fun op => decide (op ∈ (a.pending t).take m) || a.aborted op } ts' := by
  have hcond : ((s.data t).prev ≠ none ∨ s.timers = some t) ↔ t ∈ ts := by
    rw [h.tied.queued]
    tauto
  by_cases ht : t ∈ ts
  · obtain ⟨f, hf⟩ : ∃ f : ℕ → Bool,
        f = fun op => decide (op ∈ (a.pending t).take m) || a.aborted op := ⟨_, rfl⟩
    have hrep := h.setAborted f
    have hcancel : cancelTimer s less t [] m =
        (if (a.pending t).drop m = [] then
            (TimerQueue.setOps { s with aborted := f } t ((a.pending t).drop m)).removeTimer less t
          else TimerQueue.setOps { s with aborted := f } t ((a.pending t).drop m),
          (a.pending t).take m, min m (a.pending t).length) := by
      rw [cancelTimer, cancelLoop_eq m _ 0 (Nat.zero_le m), h.ops, Nat.sub_zero, Nat.zero_add,
        if_pos (hcond.mpr ht), hf, ← h.aborted]
      rfl
    rw [hcancel, ← hf]
    by_cases hrest : (a.pending t).drop m = []
    · -- Nothing is left.
      obtain ⟨ts', hrep', -⟩ := hrep.remove hw ht
      have hpending : update a.pending t [] = fun u => if u = t then [] else a.pending u := by
        funext u
        by_cases hu : u = t
        · rw [if_pos hu, hu, update_self]
        · rw [if_neg hu, update_of_ne hu]
      rw [if_pos hrest, hrest, hpending]
      exact ⟨_, ts', rfl, hrep'⟩
    · rw [if_neg hrest]
      exact ⟨_, ts, rfl, hrep.setOps ht hrest⟩
  · have hnil : a.pending t = [] := by
      by_contra hne
      exact ht ((h.members t).mpr hne)
    have hsame : update a.pending t [] = a.pending := by
      rw [← hnil, update_eq_self]
    rw [cancelTimer, if_neg fun h0 => ht (hcond.mp h0), hnil, drop_nil, take_nil, hsame]
    refine ⟨s, ts, by simp, ?_⟩
    simpa using h

/-- **`enqueue_timer`** adds an operation. -/
theorem Rep.enqueueOp (h : Rep less isPositiveInfinity s a ts) {time : ℕ → τ} {ts' : List ℕ}
    (hs' : Tied less isPositiveInfinity time s' ts') (hops : ∀ u, (s'.data u).opQueue = (s.data u).opQueue)
    (haborted : s'.aborted = s.aborted) (hts' : ∀ u, u ∈ ts' ↔ u = t ∨ u ∈ ts) (op : ℕ) :
    Rep less isPositiveInfinity (s'.enqueueOp t op).1
        ⟨update a.pending t (a.pending t ++ [op]), time, a.aborted⟩ ts' ∧
      (s'.enqueueOp t op).2 = some (decide ((s'.data t).heapIndex = 0) &&
        decide ((a.pending t ++ [op]).head? = some op)) := by
  have hq : (s'.data t).opQueue = a.pending t := (hops t).trans (h.ops t)
  rw [TimerQueue.enqueueOp, hq]
  dsimp only
  refine ⟨⟨hs'.setOps t _, fun u => ?_, fun u => ?_, haborted.trans h.aborted⟩, ?_⟩
  · rw [data_setOps]
    dsimp only
    by_cases hu : u = t
    · rw [if_pos hu, hu, update_self]
    · rw [if_neg hu, update_of_ne hu, hops, h.ops]
  · dsimp only
    rw [hts']
    by_cases hu : u = t
    · rw [hu, update_self]
      exact ⟨fun _ => by simp, fun _ => .inl rfl⟩
    · rw [update_of_ne hu, or_iff_right hu]
      exact h.members u
  · rw [data_setOps, if_pos rfl]

end Rep

/-! ### Runs -/

/-- A call of a member. -/
inductive Call (τ : Type*) where
  | enqueue (memory : Bool) (time : τ) (t op : ℕ)
  | cancel (t maxCancelled : ℕ)
  | ready (now : τ)
  | all

/-- What a call returns, and the operations it delivers. -/
inductive Answer where
  | thrown
  | first (yes : Bool)
  | cancelled (ops : List ℕ) (n : ℕ)
  | delivered (ops : List ℕ)

section Runs
variable [Inhabited τ]

/-- A call, with an empty queue for what it delivers. -/
inductive Step (less : τ → τ → Bool) (isPositiveInfinity : τ → Bool) (s : TimerQueue τ) :
    Call τ → TimerQueue τ → Answer → Prop where
  | thrown {memory : Bool} {time : τ} {t op : ℕ} {s' : TimerQueue τ} :
      s.enqueueTimer less isPositiveInfinity memory time t op = (s', none) →
      Step less isPositiveInfinity s (.enqueue memory time t op) s' .thrown
  | enqueue {memory : Bool} {time : τ} {t op : ℕ} {s' : TimerQueue τ} {yes : Bool} :
      s.enqueueTimer less isPositiveInfinity memory time t op = (s', some yes) →
      Step less isPositiveInfinity s (.enqueue memory time t op) s' (.first yes)
  | cancel {t m n : ℕ} {s' : TimerQueue τ} {ops : List ℕ} : s.cancelTimer less t [] m = (s', ops, n) →
      Step less isPositiveInfinity s (.cancel t m) s' (.cancelled ops n)
  | ready {now : τ} {s' : TimerQueue τ} {ops : List ℕ} : s.getReadyTimers less now [] = (s', ops) →
      Step less isPositiveInfinity s (.ready now) s' (.delivered ops)
  | all {fuel : ℕ} {s' : TimerQueue τ} {ops : List ℕ} : s.getAllTimers fuel [] = some (s', ops) →
      Step less isPositiveInfinity s .all s' (.delivered ops)

/-- What waits after a call; a timer that is queued keeps its time. -/
def Waits.after (less : τ → τ → Bool) (isPositiveInfinity : τ → Bool) (a : Waits τ) :
    Call τ → Answer → Waits τ
  | .enqueue .., .thrown => a
  | .enqueue _ time t op, _ =>
    { a with
      pending := update a.pending t (a.pending t ++ [op])
      time := if a.pending t = [] then update a.time t time else a.time }
  | .cancel t m, _ =>
    { a with
      pending := update a.pending t ((a.pending t).drop m)
      aborted := fun op => decide (op ∈ (a.pending t).take m) || a.aborted op }
  | .ready now, _ =>
    { a with pending := fun t => if a.Due less isPositiveInfinity now t then [] else a.pending t }
  | .all, _ => { a with pending := fun _ => [] }

/-- What a call should return: an operation is delivered with its timer, when that is due, when it is
cancelled, or with all. -/
def Waits.Right (less : τ → τ → Bool) (isPositiveInfinity : τ → Bool) (a : Waits τ) (s' : TimerQueue τ) :
    Call τ → Answer → Prop
  | .enqueue memory time t _, .thrown => a.pending t = [] ∧ isPositiveInfinity time = false ∧
      (memory = false ∨ sizeMax ≤ s'.heap.length)
  | .enqueue _ _ t _, .first yes => yes = true ↔
      (∃ time, s'.heap.head? = some (time, t)) ∧ a.pending t = []
  | .cancel t m, .cancelled ops n =>
    ops = (a.pending t).take m ∧ n = min m (a.pending t).length
  | .ready now, .delivered ops => ∃ ready : List ℕ, ops = ready.flatMap a.pending ∧
      ready.Nodup ∧ (∀ t, t ∈ ready ↔ a.Due less isPositiveInfinity now t) ∧
      ready.Pairwise fun t u => less (a.time u) (a.time t) = false
  | .all, .delivered ops => ∃ ts : List ℕ, ops = ts.flatMap a.pending ∧ ts.Nodup ∧
      ∀ t, t ∈ ts ↔ a.pending t ≠ []
  | _, _ => False

/-- An operation is in one queue at a time: its link is a field of it. -/
def Allowed (a : Waits τ) : Call τ → Prop
  | .enqueue _ _ _ op => ∀ t, op ∉ a.pending t
  | _ => True

/-- The states of a run, with what waits. -/
inductive Runs (less : τ → τ → Bool) (isPositiveInfinity : τ → Bool) : TimerQueue τ → Waits τ → Prop where
  | init (heapIndex : ℕ → ℕ) (time : ℕ → τ) :
      Runs less isPositiveInfinity (.empty heapIndex) ⟨fun _ => [], time, fun _ => false⟩
  | step {s s' : TimerQueue τ} {a : Waits τ} {c : Call τ} {answer : Answer} :
      Runs less isPositiveInfinity s a → Allowed a c → Step less isPositiveInfinity s c s' answer →
      Runs less isPositiveInfinity s' (a.after less isPositiveInfinity c answer)

/-- The queue is exact. -/
structure Exact (less : τ → τ → Bool) (isPositiveInfinity : τ → Bool) (s : TimerQueue τ) (a : Waits τ) :
    Prop where
  minHeap : ∀ k e e', 0 < k → s.heap[k]? = some e → s.heap[(k - 1) / 2]? = some e' →
    less e.1 e'.1 = false
  indexed : ∀ k e, s.heap[k]? = some e → (s.data e.2).heapIndex = k
  linked : ∃ ts, Chain (fun t => (s.data t).next) (fun t => (s.data t).prev) s.timers ts ∧
    ∀ t, t ∈ ts ↔ (s.data t).opQueue ≠ []
  entries : ∀ time t, (time, t) ∈ s.heap ↔
    (s.data t).opQueue ≠ [] ∧ a.time t = time ∧ isPositiveInfinity time = false
  ops : ∀ t, (s.data t).opQueue = a.pending t
  aborted : s.aborted = a.aborted

variable {less : τ → τ → Bool} {isPositiveInfinity : τ → Bool} {s : TimerQueue τ} {a : Waits τ}
  {ts : List ℕ}

theorem Rep.exact (h : Rep less isPositiveInfinity s a ts) : Exact less isPositiveInfinity s a := by
  have hget : ∀ {k e}, s.heap[k]? = some e → k < s.heap.length ∧ s.entry k = e := by
    intro k e he
    obtain ⟨hk, rfl⟩ := List.getElem?_eq_some_iff.mp he
    exact ⟨hk, entry_eq hk⟩
  refine ⟨fun k e e' hk he he' => ?_, fun k e he => ?_, ⟨ts, h.tied.chain, fun t => ?_⟩, fun time t => ?_,
    h.ops, h.aborted⟩
  · obtain ⟨hkl, rfl⟩ := hget he
    obtain ⟨-, rfl⟩ := hget he'
    exact h.tied.heap.ordered k hk hkl
  · obtain ⟨hkl, rfl⟩ := hget he
    exact h.tied.heap.indexed k hkl
  · rw [h.ops]
    exact h.members t
  · rw [h.tied.entries, h.members, h.ops]

theorem Rep.root_iff (h : Rep less isPositiveInfinity s a ts) {t : ℕ} (ht : t ∈ ts) :
    (s.data t).heapIndex = 0 ↔ ∃ time, s.heap.head? = some (time, t) := by
  constructor
  · intro hzero
    have hfin : isPositiveInfinity (a.time t) = false := by
      by_contra hinf
      rw [h.tied.infinite t ht (by simpa using hinf)] at hzero
      exact absurd hzero (by decide)
    obtain ⟨time, hmem⟩ := h.tied.inHeap.mpr ⟨ht, hfin⟩
    obtain ⟨k, hk, hek⟩ := mem_heap_iff.mp hmem
    have hindex := h.tied.heap.indexed k hk
    rw [hek, hzero] at hindex
    rw [← hindex] at hk hek
    exact ⟨time, by rw [head?_eq_getElem?, List.getElem?_eq_getElem hk, ← entry_eq hk, hek]⟩
  · rintro ⟨time, hhead⟩
    rw [head?_eq_getElem?] at hhead
    obtain ⟨hk, heq⟩ := List.getElem?_eq_some_iff.mp hhead
    have hindex := h.tied.heap.indexed 0 hk
    rw [entry_eq hk, heq] at hindex
    exact hindex

theorem Rep.enqueue (hw : StrictWeak less) (h : Rep less isPositiveInfinity s a ts) (memory : Bool) (tm : τ)
    (t op : ℕ) (hop : op ∉ a.pending t) :
    ∃ s' answer ts', Step less isPositiveInfinity s (.enqueue memory tm t op) s' answer ∧
      Rep less isPositiveInfinity s' (a.after less isPositiveInfinity (.enqueue memory tm t op) answer) ts' ∧
      a.Right less isPositiveInfinity s' (.enqueue memory tm t op) answer := by
  have hcond : ((s.data t).prev = none ∧ s.timers ≠ some t) ↔ t ∉ ts := by
    rw [h.tied.queued, not_not]
  have hnil : t ∉ ts ↔ a.pending t = [] := by
    rw [h.members, not_not]
  have hfirst : (a.pending t ++ [op]).head? = some op ↔ a.pending t = [] := by
    cases hp : a.pending t with
    | nil => simp
    | cons x q =>
      have hx : x ≠ op := fun h0 => hop (by rw [hp, h0]; exact mem_cons_self)
      simp [hx]
  -- Once the timer is queued, the operation is pushed.
  have hpush : ∀ {s' : TimerQueue τ} {time : ℕ → τ} {ts' : List ℕ},
      Tied less isPositiveInfinity time s' ts' → (∀ u, (s'.data u).opQueue = (s.data u).opQueue) →
      s'.aborted = s.aborted → (∀ u, u ∈ ts' ↔ u = t ∨ u ∈ ts) →
      time = (if a.pending t = [] then update a.time t tm else a.time) →
      s.enqueueTimer less isPositiveInfinity memory tm t op = s'.enqueueOp t op →
      ∃ s' answer ts', Step less isPositiveInfinity s (.enqueue memory tm t op) s' answer ∧
        Rep less isPositiveInfinity s' (a.after less isPositiveInfinity
          (.enqueue memory tm t op) answer) ts' ∧
        a.Right less isPositiveInfinity s' (.enqueue memory tm t op) answer := by
    intro s' time ts' htied hops haborted hts' htime henq
    obtain ⟨hrep, hyes⟩ := h.enqueueOp htied hops haborted hts' op
    have hindex : (s'.data t).heapIndex = ((s'.enqueueOp t op).1.data t).heapIndex := by
      rw [TimerQueue.enqueueOp, data_setOps]
    refine ⟨(s'.enqueueOp t op).1, .first (decide ((s'.data t).heapIndex = 0) &&
      decide ((a.pending t ++ [op]).head? = some op)), ts', .enqueue ?_, ?_, ?_⟩
    · rw [henq, ← hyes]
    · rw [htime] at hrep
      exact hrep
    · rw [Waits.Right, Bool.and_eq_true, decide_eq_true_iff, decide_eq_true_iff, hfirst, hindex,
        hrep.root_iff ((hts' t).mpr (.inl rfl))]
  by_cases ht : t ∈ ts
  · have hne : ¬ a.pending t = [] := fun h0 => hnil.mpr h0 ht
    refine hpush h.tied (fun _ => rfl) rfl (fun u => ?_) (if_neg hne).symm ?_
    · exact ⟨.inr, fun h0 => h0.elim (fun h1 => h1 ▸ ht) id⟩
    · rw [enqueueTimer, if_neg fun h0 => hcond.mp h0 ht]
  · have hpending := hnil.mp ht
    have htime := (if_pos hpending : (if a.pending t = [] then update a.time t tm else a.time) = _)
    cases hinf : isPositiveInfinity tm with
    | true =>
      obtain ⟨htied, hops, haborted⟩ := enqueue_infinite h.tied ht hinf
      refine hpush htied hops haborted (fun u => mem_cons) htime.symm ?_
      rw [enqueueTimer, if_pos (hcond.mpr ht), if_pos hinf]
    | false =>
      by_cases hroom : memory = true ∧ s.heap.length < sizeMax
      · obtain ⟨htied, hops, haborted⟩ := enqueue_finite hw h.tied ht hinf hroom.2
        refine hpush htied hops haborted (fun u => mem_cons) htime.symm ?_
        have hlen : ((s.setIndex t s.heap.length).heap ++ [(tm, t)]).length - 1 = s.heap.length := by
          rw [length_append]
          rfl
        rw [enqueueTimer, if_pos (hcond.mpr ht), if_neg (by simp [hinf])]
        dsimp only
        rw [if_pos, hlen]
        · rfl
        · rw [hroom.1]
          exact decide_eq_true hroom.2
      · -- `push_back` throws.
        have hfail : memory = false ∨ sizeMax ≤ s.heap.length := by
          cases memory with
          | false => exact .inl rfl
          | true => exact .inr (Nat.not_lt.mp fun h0 => hroom ⟨rfl, h0⟩)
        refine ⟨s.setIndex t s.heap.length, .thrown, ts, .thrown ?_,
          ⟨setIndex_tied h.tied ht _, fun u => ?_, h.members, h.aborted⟩, hpending, hinf, hfail⟩
        · rw [enqueueTimer, if_pos (hcond.mpr ht), if_neg (by simp [hinf])]
          dsimp only
          rw [if_neg]
          intro h0
          rw [Bool.and_eq_true, decide_eq_true_iff] at h0
          exact hroom h0
        · rw [data_setIndex]
          exact h.ops u

/-- **One call.** -/
theorem Rep.step (hw : StrictWeak less) (h : Rep less isPositiveInfinity s a ts) {c : Call τ}
    (hc : Allowed a c) : ∃ s' answer ts', Step less isPositiveInfinity s c s' answer ∧
      Rep less isPositiveInfinity s' (a.after less isPositiveInfinity c answer) ts' ∧
      a.Right less isPositiveInfinity s' c answer := by
  cases c with
  | enqueue memory tm t op => exact h.enqueue hw memory tm t op (hc t)
  | cancel t m =>
    obtain ⟨s', ts', hcancel, hrep⟩ := h.cancel hw t m
    exact ⟨s', _, ts', .cancel hcancel, hrep, rfl, rfl⟩
  | ready now =>
    have hready : s.getReadyTimers less now [] = readyLoop less now (s.heap.length + 1) s [] := by
      rw [getReadyTimers]
      split
      · rfl
      · next hempty => rw [readyLoop, not_not.mp hempty]
    obtain ⟨ready, ts', hops, hrep, hnodup, hdue, hsorted⟩ :=
      readyLoop_spec hw now (s.heap.length + 1) [] h (Nat.lt_succ_self _)
    have hpending : (fun t => if t ∈ ready then [] else a.pending t) = fun t =>
        if a.Due less isPositiveInfinity now t then [] else a.pending t := by
      funext t
      by_cases ht : t ∈ ready
      · rw [if_pos ht, if_pos ((hdue t).mp ht)]
      · rw [if_neg ht, if_neg fun h0 => ht ((hdue t).mpr h0)]
    rw [hpending] at hrep
    exact ⟨_, _, ts', .ready hready, hrep, ready, hops, hnodup, hdue, hsorted⟩
  | all =>
    obtain ⟨s', hall, hrep⟩ := h.all (Nat.lt_succ_self _)
    exact ⟨s', _, [], .all hall, hrep, ts, rfl, h.tied.chain.nodup, h.members⟩

theorem Step.unique {c : Call τ} {s₁ s₂ : TimerQueue τ} {answer₁ answer₂ : Answer}
    (h₁ : Step less isPositiveInfinity s c s₁ answer₁) (h₂ : Step less isPositiveInfinity s c s₂ answer₂) :
    s₁ = s₂ ∧ answer₁ = answer₂ := by
  cases h₁ with
  | thrown h₁ =>
    cases h₂ with
    | thrown h₂ => exact ⟨(Prod.mk.inj (h₁.symm.trans h₂)).1, rfl⟩
    | enqueue h₂ => exact nomatch (Prod.mk.inj (h₁.symm.trans h₂)).2
  | enqueue h₁ =>
    cases h₂ with
    | thrown h₂ => exact nomatch (Prod.mk.inj (h₁.symm.trans h₂)).2
    | enqueue h₂ =>
      obtain ⟨hs, hyes⟩ := Prod.mk.inj (h₁.symm.trans h₂)
      exact ⟨hs, by rw [some.inj hyes]⟩
  | cancel h₁ =>
    cases h₂ with
    | cancel h₂ =>
      obtain ⟨hs, hr⟩ := Prod.mk.inj (h₁.symm.trans h₂)
      obtain ⟨rfl, rfl⟩ := Prod.mk.inj hr
      exact ⟨hs, rfl⟩
  | ready h₁ =>
    cases h₂ with
    | ready h₂ =>
      obtain ⟨hs, rfl⟩ := Prod.mk.inj (h₁.symm.trans h₂)
      exact ⟨hs, rfl⟩
  | @all fuel₁ _ _ h₁ =>
    cases h₂ with
    | @all fuel₂ _ _ h₂ =>
      obtain ⟨⟨t₁, ops₁⟩, hloop₁, hr₁⟩ := map_eq_some_iff.mp h₁
      obtain ⟨⟨t₂, ops₂⟩, hloop₂, hr₂⟩ := map_eq_some_iff.mp h₂
      have hloop := allLoop_mono hloop₁ fuel₂
      rw [Nat.add_comm, allLoop_mono hloop₂ fuel₁] at hloop
      obtain ⟨rfl, rfl⟩ := Prod.mk.inj (some.inj hloop)
      obtain ⟨hs, rfl⟩ := Prod.mk.inj (hr₁.symm.trans hr₂)
      exact ⟨hs, rfl⟩

theorem rep_of_runs (hw : StrictWeak less) (h : Runs less isPositiveInfinity s a) :
    ∃ ts, Rep less isPositiveInfinity s a ts := by
  induction h with
  | init heapIndex time =>
    refine ⟨[], ⟨⟨fun k hk => absurd hk (Nat.not_lt_zero k), fun k _ hk => absurd hk (Nat.not_lt_zero k)⟩,
      chain_nil, fun _ _ => ?_, fun _ ht => absurd ht not_mem_nil, Nat.zero_le _⟩, fun _ => rfl,
      fun _ => ?_, rfl⟩
    · exact ⟨fun h0 => absurd h0 not_mem_nil, fun h0 => absurd h0.1 not_mem_nil⟩
    · exact ⟨fun h0 => absurd h0 not_mem_nil, fun h0 => absurd rfl h0⟩
  | step _ hc hstep ih =>
    obtain ⟨ts, hrep⟩ := ih
    obtain ⟨s', answer, ts', hstep', hrep', -⟩ := hrep.step hw hc
    obtain ⟨rfl, rfl⟩ := hstep'.unique hstep
    exact ⟨ts', hrep'⟩

/-- **The timer queue is exact in every run**, and the next call delivers what it should. -/
theorem timerQueue_runs (hw : StrictWeak less) (h : Runs less isPositiveInfinity s a) :
    Exact less isPositiveInfinity s a ∧ ∀ c, Allowed a c →
      (∃ s' answer, Step less isPositiveInfinity s c s' answer) ∧
      ∀ s' answer, Step less isPositiveInfinity s c s' answer →
        a.Right less isPositiveInfinity s' c answer := by
  obtain ⟨ts, hrep⟩ := rep_of_runs hw h
  refine ⟨hrep.exact, fun c hc => ?_⟩
  obtain ⟨s', answer, -, hstep, -, hright⟩ := hrep.step hw hc
  refine ⟨⟨s', answer, hstep⟩, fun s'' answer' hstep' => ?_⟩
  obtain ⟨rfl, rfl⟩ := hstep.unique hstep'
  exact hright

/-- Three timers, one of which never comes, and one of which is delivered. -/
theorem exists_runs : ∃ (s : TimerQueue ℕ) (a : Waits ℕ),
    Runs (fun m n => decide (m < n)) (fun n => decide (n = 1000)) s a ∧ a.pending 2 = [] ∧
      a.pending 1 = [10, 13] ∧ a.pending 3 = [12] ∧ s.heap = [(5, 1)] := by
  have h₀ : Runs (fun m n => decide (m < n)) (fun n => decide (n = 1000)) (.empty fun _ => 0)
      ⟨fun _ => [], fun _ => (0 : ℕ), fun _ => false⟩ := .init _ _
  -- An operation that is larger than all that wait is allowed.
  have hlt : ∀ {p : ℕ → List ℕ} {m : ℕ}, (∀ t, ∀ o ∈ p t, o < m) → ∀ u,
      (∀ t, m ∉ p t) ∧ ∀ t, ∀ o ∈ update p u (p u ++ [m]) t, o < m + 1 := by
    refine fun hp u => ⟨fun t ht => Nat.lt_irrefl _ (hp t _ ht), fun t o ho => ?_⟩
    obtain rfl | hne := eq_or_ne t u
    · rw [update_self, mem_append, mem_singleton] at ho
      rcases ho with ho | rfl
      · exact (hp t o ho).trans (Nat.lt_succ_self _)
      · exact Nat.lt_succ_self _
    · rw [update_of_ne hne] at ho
      exact (hp t o ho).trans (Nat.lt_succ_self _)
  have l₀ := hlt (p := fun _ => []) (m := 10) (fun _ _ ho => absurd ho not_mem_nil) 1
  have h₁ := h₀.step (c := .enqueue true 5 1 10) l₀.1 (.enqueue rfl)
  have l₁ := hlt l₀.2 2
  have h₂ := h₁.step (c := .enqueue true 3 2 11) l₁.1 (.enqueue rfl)
  have l₂ := hlt l₁.2 3
  have h₃ := h₂.step (c := .enqueue true 1000 3 12) l₂.1 (.enqueue rfl)
  have l₃ := hlt l₂.2 1
  have h₄ := h₃.step (c := .enqueue true 1 1 13) l₃.1 (.enqueue rfl)
  have h₅ := h₄.step (c := .ready 4) trivial (.ready rfl)
  exact ⟨_, _, h₅, rfl, rfl, rfl, rfl⟩

theorem timerQueue_runs_three : ∃ (s : TimerQueue ℕ) (a : Waits ℕ), a.pending 1 = [10, 13] ∧
    Exact (fun m n => decide (m < n)) (fun n => decide (n = 1000)) s a ∧ ∀ c, Allowed a c →
      (∃ s' answer, Step (fun m n => decide (m < n)) (fun n => decide (n = 1000)) s c s' answer) ∧
      ∀ s' answer, Step (fun m n => decide (m < n)) (fun n => decide (n = 1000)) s c s' answer →
        a.Right (fun m n => decide (m < n)) (fun n => decide (n = 1000)) s' c answer := by
  have hw : StrictWeak fun m n : ℕ => decide (m < n) := strictWeak_lt
  obtain ⟨s, a, hruns, -, hpending, -⟩ := exists_runs
  obtain ⟨hexact, hnext⟩ := timerQueue_runs hw hruns
  exact ⟨s, a, hpending, hexact, hnext⟩

end Runs

end TimerQueue

end SourceLibs.AsioTimer
