import SourceLibs.Asio.TimerQueue
import Mathlib.Data.List.GetD

/-!
# Asio — the heap of the timers

Each timer in the heap stores the position of its entry, and no entry is earlier than the one above it.

* `upHeap_spec`, `downHeap_spec`: sifting from a hole.
* `push_spec`, `removeFromHeap_spec`: an entry comes, or one goes from anywhere.
-/

namespace SourceLibs.AsioTimer
open List Compare HeapArray

variable {τ : Type*}

/-- The order of the heap. -/
def later (less : τ → τ → Bool) (a b : τ) : Bool := less b a

theorem strictWeak_later {less : τ → τ → Bool} (h : StrictWeak less) : StrictWeak (later less) :=
  ⟨fun {a b} hab => h.asymm (a := b) (b := a) hab,
    fun {a b c} hab hbc => h.trans (a := c) (b := b) (c := a) hbc hab⟩

namespace TimerQueue

/-- What the functions of the heap leave as it is. -/
structure SameRest (s s' : TimerQueue τ) : Prop where
  timers : s'.timers = s.timers
  aborted : s'.aborted = s.aborted
  opQueue : ∀ t, (s'.data t).opQueue = (s.data t).opQueue
  next : ∀ t, (s'.data t).next = (s.data t).next
  prev : ∀ t, (s'.data t).prev = (s.data t).prev

theorem SameRest.refl (s : TimerQueue τ) : SameRest s s :=
  ⟨rfl, rfl, fun _ => rfl, fun _ => rfl, fun _ => rfl⟩

theorem SameRest.trans {s s' s'' : TimerQueue τ} (h : SameRest s s') (h' : SameRest s' s'') :
    SameRest s s'' :=
  ⟨h'.timers.trans h.timers, h'.aborted.trans h.aborted, fun t => (h'.opQueue t).trans (h.opQueue t),
    fun t => (h'.next t).trans (h.next t), fun t => (h'.prev t).trans (h.prev t)⟩

/-- A timer is in the heap. -/
def InHeap (s : TimerQueue τ) (t : ℕ) : Prop := ∃ time, (time, t) ∈ s.heap

section Sifted
variable {s s' : TimerQueue τ}

/-- Sifting changes the order of the entries and the stored indices only. -/
structure Sifted (s s' : TimerQueue τ) : Prop where
  rest : SameRest s s'
  length : s'.heap.length = s.heap.length
  mem : ∀ e, e ∈ s'.heap ↔ e ∈ s.heap
  outside : ∀ t, ¬ s.InHeap t → (s'.data t).heapIndex = (s.data t).heapIndex

theorem Sifted.refl (s : TimerQueue τ) : Sifted s s := ⟨.refl s, rfl, fun _ => Iff.rfl, fun _ _ => rfl⟩

theorem Sifted.inHeap (h : Sifted s s') (t : ℕ) : s'.InHeap t ↔ s.InHeap t :=
  exists_congr fun time => h.mem (time, t)

theorem Sifted.trans {s'' : TimerQueue τ} (h : Sifted s s') (h' : Sifted s' s'') : Sifted s s'' :=
  ⟨h.rest.trans h'.rest, h'.length.trans h.length, fun e => (h'.mem e).trans (h.mem e),
    fun t ht => (h'.outside t fun h0 => ht ((h.inHeap t).mp h0)).trans (h.outside t ht)⟩

end Sifted

section
variable [Inhabited τ] {less : τ → τ → Bool} {s s' : TimerQueue τ} {i j t : ℕ}

/-- The stored indices are right, and no entry is earlier than the one above it. -/
structure HeapWf (less : τ → τ → Bool) (s : TimerQueue τ) : Prop where
  indexed : ∀ k < s.heap.length, (s.data (s.entry k).2).heapIndex = k
  ordered : Ordered (later less) 2 s.heap.length s.time

/-! ### Entries -/

theorem entry_eq (h : i < s.heap.length) : s.entry i = s.heap[i] := getD_eq_getElem _ _ h

theorem mem_heap_iff {e : τ × ℕ} : e ∈ s.heap ↔ ∃ k < s.heap.length, s.entry k = e := by
  rw [mem_iff_getElem]
  constructor
  · rintro ⟨k, hk, rfl⟩
    exact ⟨k, hk, entry_eq hk⟩
  · rintro ⟨k, hk, rfl⟩
    exact ⟨k, hk, (entry_eq hk).symm⟩

theorem inHeap_entry (h : i < s.heap.length) : s.InHeap (s.entry i).2 :=
  ⟨(s.entry i).1, mem_heap_iff.mpr ⟨i, h, rfl⟩⟩

theorem length_swapHeap (i j : ℕ) : (s.swapHeap i j).heap.length = s.heap.length := by
  rw [swapHeap]
  simp [setIndex, setData]

theorem entry_swapHeap (hi : i < s.heap.length) (hj : j < s.heap.length) (k : ℕ) :
    (s.swapHeap i j).entry k = if k = j then s.entry i else if k = i then s.entry j else s.entry k :=
  HeapArray.getD_swap (default, 0) hi hj k

theorem time_swapHeap (hi : i < s.heap.length) (hj : j < s.heap.length) :
    (s.swapHeap i j).time = swapKeys s.time j i := by
  funext k
  rw [time, entry_swapHeap hi hj, swapKeys]
  split
  · rfl
  · split <;> rfl

omit [Inhabited τ] in
theorem data_setIndex (t i u : ℕ) : (s.setIndex t i).data u =
    { s.data u with heapIndex := if u = t then i else (s.data u).heapIndex } := by
  rw [setIndex, setData]
  dsimp only
  by_cases hu : u = t
  · rw [hu, Function.update_self, if_pos rfl]
  · rw [Function.update_of_ne hu, if_neg hu]

theorem data_swapHeap (hi : i < s.heap.length) (hj : j < s.heap.length) (t : ℕ) :
    (s.swapHeap i j).data t =
      { s.data t with
        heapIndex :=
          if t = (s.entry i).2 then j else if t = (s.entry j).2 then i else (s.data t).heapIndex } := by
  obtain ⟨s', hs'⟩ : ∃ s' : TimerQueue τ,
      s' = { s with heap := (s.heap.set i (s.entry j)).set j (s.entry i) } := ⟨_, rfl⟩
  have hentry : ∀ k, s'.entry k = if k = j then s.entry i else if k = i then s.entry j else s.entry k := by
    rw [hs']
    exact HeapArray.getD_swap (default, 0) hi hj
  have hi' : s'.entry i = s.entry j := by
    rw [hentry]
    split
    · next h => rw [h]
    · exact if_pos rfl
  have hj' : s'.entry j = s.entry i := by rw [hentry, if_pos rfl]
  have hdata : s'.data = s.data := by rw [hs']
  have hswap : s.swapHeap i j = (s'.setIndex (s'.entry i).2 i).setIndex (s'.entry j).2 j := by
    rw [hs']
    rfl
  rw [hswap, data_setIndex, data_setIndex, hi', hj', hdata]

theorem sifted_swapHeap (hi : i < s.heap.length) (hj : j < s.heap.length) : Sifted s (s.swapHeap i j) := by
  refine ⟨⟨rfl, rfl, fun t => ?_, fun t => ?_, fun t => ?_⟩, length_swapHeap i j, fun e => ?_, fun t ht => ?_⟩
  · rw [data_swapHeap hi hj]
  · rw [data_swapHeap hi hj]
  · rw [data_swapHeap hi hj]
  · rw [mem_heap_iff, mem_heap_iff, length_swapHeap]
    constructor
    · rintro ⟨k, hk, rfl⟩
      rw [entry_swapHeap hi hj]
      split
      · exact ⟨i, hi, rfl⟩
      · split
        · exact ⟨j, hj, rfl⟩
        · exact ⟨k, hk, rfl⟩
    · rintro ⟨k, hk, rfl⟩
      by_cases hki : k = i
      · exact ⟨j, hj, by rw [entry_swapHeap hi hj, if_pos rfl, hki]⟩
      · by_cases hkj : k = j
        · refine ⟨i, hi, ?_⟩
          rw [entry_swapHeap hi hj, if_neg fun h0 => hki (hkj.trans h0.symm), if_pos rfl, hkj]
        · exact ⟨k, hk, by rw [entry_swapHeap hi hj, if_neg hkj, if_neg hki]⟩
  · rw [data_swapHeap hi hj]
    have hne : ∀ {k}, k < s.heap.length → t ≠ (s.entry k).2 := fun hk h0 => ht (h0 ▸ inHeap_entry hk)
    dsimp only
    rw [if_neg (hne hi), if_neg (hne hj)]

/-- **An exchange keeps the stored indices right.** -/
theorem indexed_swapHeap (h : ∀ k < s.heap.length, (s.data (s.entry k).2).heapIndex = k)
    (hi : i < s.heap.length) (hj : j < s.heap.length) :
    ∀ k < (s.swapHeap i j).heap.length,
      ((s.swapHeap i j).data ((s.swapHeap i j).entry k).2).heapIndex = k := by
  have hinj : ∀ {a b}, a < s.heap.length → b < s.heap.length → (s.entry a).2 = (s.entry b).2 → a = b := by
    intro a b ha hb heq
    rw [← h a ha, ← h b hb, heq]
  intro k hk
  rw [length_swapHeap] at hk
  rw [entry_swapHeap hi hj, data_swapHeap hi hj]
  dsimp only
  by_cases hkj : k = j
  · rw [if_pos hkj, if_pos rfl, hkj]
  · rw [if_neg hkj]
    by_cases hki : k = i
    · rw [if_pos hki]
      have hne : (s.entry j).2 ≠ (s.entry i).2 := fun h0 => hkj (hki.trans (hinj hj hi h0).symm)
      rw [if_neg hne, if_pos rfl, hki]
    · rw [if_neg hki, if_neg fun h0 => hki (hinj hk hi h0), if_neg fun h0 => hkj (hinj hk hj h0), h k hk]

/-! ### Sifting -/

/-- What sifting restores. -/
def Restored (less : τ → τ → Bool) (s s' : TimerQueue τ) : Prop := HeapWf less s' ∧ Sifted s s'

theorem Restored.of_swapHeap (hi : i < s.heap.length) (hj : j < s.heap.length)
    (h : Restored less (s.swapHeap i j) s') : Restored less s s' :=
  ⟨h.1, (sifted_swapHeap hi hj).trans h.2⟩

/-- **`up_heap`** from a hole that is not later than what is below it. -/
theorem upHeap_spec (hw : StrictWeak less) (fuel : ℕ) {i : ℕ} (hfuel : i ≤ fuel)
    (hi : i < s.heap.length) (hx : ∀ k < s.heap.length, (s.data (s.entry k).2).heapIndex = k)
    (hole : Hole (later less) 2 s.heap.length s.time i)
    (hover : Over (later less) 2 s.heap.length s.time i) : Restored less s (upHeap less fuel i s) := by
  induction fuel generalizing i s with
  | zero =>
    obtain rfl : i = 0 := by omega
    exact ⟨⟨hx, hole.ordered hover fun h => absurd h (lt_irrefl 0)⟩, .refl s⟩
  | succ fuel ih =>
    rw [upHeap]
    by_cases h₀ : i > 0
    · have hp : parent 2 i < i := parent_lt h₀
      have hpl := hp.trans hi
      rw [if_pos h₀]
      dsimp only
      cases hlt : less (s.time i) (s.time ((i - 1) / 2)) with
      | false =>
        rw [if_pos (by rfl)]
        exact ⟨⟨hx, hole.ordered hover fun _ => hlt⟩, .refl s⟩
      | true =>
        rw [if_neg (by decide)]
        have htime := time_swapHeap hi hpl
        refine .of_swapHeap hi hpl (ih (by omega) (by rwa [length_swapHeap])
          (indexed_swapHeap hx hi hpl) ?_ ?_)
        · rw [length_swapHeap]
          exact htime ▸ hole.swap_up (strictWeak_later hw) h₀ hi
        · rw [length_swapHeap]
          exact htime ▸ hole.over_up (strictWeak_later hw) h₀ hlt
    · rw [if_neg h₀]
      exact ⟨⟨hx, hole.ordered hover fun h => absurd h h₀⟩, .refl s⟩

/-- **The smaller child.** -/
theorem minChild_spec (hw : StrictWeak less) (h : i * 2 + 1 < s.heap.length) :
    0 < s.minChild less (i * 2 + 1) ∧ s.minChild less (i * 2 + 1) < s.heap.length ∧
      parent 2 (s.minChild less (i * 2 + 1)) = i ∧
      ∀ c, 0 < c → c < s.heap.length → parent 2 c = i →
        later less (s.time (s.minChild less (i * 2 + 1))) (s.time c) = false := by
  rw [minChild]
  by_cases hfirst : (i * 2 + 1 + 1 = s.heap.length ||
      less (s.time (i * 2 + 1)) (s.time (i * 2 + 1 + 1))) = true
  · rw [if_pos hfirst]
    refine ⟨Nat.succ_pos _, h, (parent_eq_iff (by decide) (Nat.succ_pos _)).mpr (by omega),
      fun c hc hcn hp => ?_⟩
    rw [parent_eq_iff (by decide) hc] at hp
    rcases hp.1.eq_or_lt with heq | hlt
    · rw [← heq]
      exact hw.refl _
    · obtain rfl : c = i * 2 + 1 + 1 := by omega
      rw [Bool.or_eq_true, decide_eq_true_iff] at hfirst
      exact hw.asymm (hfirst.resolve_left (by omega))
  · rw [if_neg hfirst]
    rw [Bool.or_eq_true, decide_eq_true_iff, not_or, Bool.not_eq_true] at hfirst
    refine ⟨Nat.succ_pos _, by omega, (parent_eq_iff (by decide) (Nat.succ_pos _)).mpr (by omega),
      fun c hc hcn hp => ?_⟩
    rw [parent_eq_iff (by decide) hc] at hp
    rcases hp.1.eq_or_lt with heq | hlt
    · rw [← heq]
      exact hfirst.2
    · obtain rfl : c = i * 2 + 1 + 1 := by omega
      exact hw.refl _

/-- **`down_heap`** from a hole that is not earlier than what is above it. -/
theorem downHeap_spec (hw : StrictWeak less) (fuel : ℕ) {i : ℕ} (hfuel : s.heap.length ≤ fuel + i)
    (hi : i < s.heap.length) (hx : ∀ k < s.heap.length, (s.data (s.entry k).2).heapIndex = k)
    (hole : Hole (later less) 2 s.heap.length s.time i) (hunder : Under (later less) 2 s.time i) :
    Restored less s (downHeap less fuel i s) := by
  induction fuel generalizing i s with
  | zero => omega
  | succ fuel ih =>
    rw [downHeap]
    dsimp only
    by_cases hleaf : i * 2 + 1 < s.heap.length
    · obtain ⟨hm₀, hm, hp, hmin⟩ := minChild_spec hw hleaf
      rw [if_pos hleaf]
      generalize s.minChild less (i * 2 + 1) = m at hm₀ hm hp hmin ⊢
      have him : i < m := hp ▸ parent_lt hm₀
      cases hlt : less (s.time i) (s.time m) with
      | true =>
        rw [if_pos rfl]
        exact ⟨⟨hx, hole.ordered (fun c hc hcn hpc =>
          (strictWeak_later hw).trans_lt hlt (hmin c hc hcn hpc)) hunder⟩, .refl s⟩
      | false =>
        rw [if_neg Bool.false_ne_true]
        have htime := time_swapHeap hi hm
        refine .of_swapHeap hi hm (ih (by rw [length_swapHeap]; omega) (by rwa [length_swapHeap])
          (indexed_swapHeap hx hi hm) ?_ fun _ => ?_)
        · rw [length_swapHeap]
          exact htime ▸ hole.swap_down hm₀ hm hp hmin
        · rw [htime, hp, swapKeys_right, swapKeys_left]
          exact hlt
    · rw [if_neg hleaf]
      refine ⟨⟨hx, hole.ordered (fun c hc hcn hpc => ?_) hunder⟩, .refl s⟩
      rw [parent_eq_iff (by decide) hc] at hpc
      omega

/-! ### Coming and going -/

theorem entry_append {time : τ} (k : ℕ) (hs : s'.heap = s.heap ++ [(time, t)]) :
    s'.entry k = if k = s.heap.length then (time, t) else s.entry k := by
  rw [entry, hs, entry]
  by_cases hk : k = s.heap.length
  · rw [if_pos hk, hk, getD_eq_getElem?_getD, List.getElem?_concat_length]
    rfl
  · rw [if_neg hk, getD_eq_getElem?_getD, getD_eq_getElem?_getD]
    rcases Nat.lt_or_gt_of_ne hk with hlt | hgt
    · rw [List.getElem?_append_left hlt]
    · rw [List.getElem?_eq_none (by rw [length_append, length_singleton]; exact hgt),
        List.getElem?_eq_none hgt.le]

/-- **An entry is pushed.** -/
theorem push_spec (hw : StrictWeak less) (h : HeapWf less s) (ht : ¬ s.InHeap t) (time : τ) :
    let s' := upHeap less s.heap.length s.heap.length
      { s.setIndex t s.heap.length with heap := s.heap ++ [(time, t)] }
    HeapWf less s' ∧ SameRest s s' ∧ s'.heap.length = s.heap.length + 1 ∧
      (∀ e, e ∈ s'.heap ↔ e ∈ s.heap ∨ e = (time, t)) ∧
      ∀ u, u ≠ t → ¬ s.InHeap u → (s'.data u).heapIndex = (s.data u).heapIndex := by
  obtain ⟨s₁, hs₁⟩ : ∃ s₁ : TimerQueue τ,
      s₁ = { s.setIndex t s.heap.length with heap := s.heap ++ [(time, t)] } := ⟨_, rfl⟩
  have hheap : s₁.heap = s.heap ++ [(time, t)] := by rw [hs₁]
  have hlen : s₁.heap.length = s.heap.length + 1 := by rw [hheap, length_append]; rfl
  have hentry : ∀ k, s₁.entry k = if k = s.heap.length then (time, t) else s.entry k := fun k =>
    entry_append k hheap
  have hdata : ∀ u, s₁.data u =
      { s.data u with heapIndex := if u = t then s.heap.length else (s.data u).heapIndex } := by
    rw [hs₁]
    exact data_setIndex t s.heap.length
  have hrest : SameRest s s₁ := by
    refine ⟨by rw [hs₁]; rfl, by rw [hs₁]; rfl, fun u => ?_, fun u => ?_, fun u => ?_⟩ <;> rw [hdata]
  have htime : ∀ k < s.heap.length, s₁.time k = s.time k := fun k hk => by
    rw [TimerQueue.time, hentry, if_neg hk.ne, TimerQueue.time]
  have hbelow : ∀ c, 0 < c → c < s₁.heap.length → parent 2 c ≠ s.heap.length := by
    intro c hc hcn hp
    rw [parent_eq_iff (by decide) hc] at hp
    omega
  have hole : Hole (later less) 2 s₁.heap.length s₁.time s.heap.length := by
    refine ⟨fun k hk₀ hk hne _ => ?_, fun _ c hc hcn hp => absurd hp (hbelow c hc hcn)⟩
    have hkl : k < s.heap.length := by omega
    rw [htime k hkl, htime _ ((parent_lt hk₀).trans hkl)]
    exact h.ordered k hk₀ hkl
  have hindexed : ∀ k < s₁.heap.length, (s₁.data (s₁.entry k).2).heapIndex = k := by
    intro k hk
    rw [hentry, hdata]
    dsimp only
    by_cases hkl : k = s.heap.length
    · rw [if_pos hkl, if_pos rfl, hkl]
    · have hlt : k < s.heap.length := by omega
      have hne : (s.entry k).2 ≠ t := fun h0 => ht (h0 ▸ inHeap_entry hlt)
      rw [if_neg hkl, if_neg hne, h.indexed k hlt]
  obtain ⟨hwf, hsifted⟩ := upHeap_spec hw s.heap.length le_rfl (by omega) hindexed hole
    fun c hc hcn hp => absurd hp (hbelow c hc hcn)
  dsimp only
  rw [← hs₁]
  refine ⟨hwf, hrest.trans hsifted.rest, hsifted.length.trans hlen, fun e => ?_, fun u hu hnot => ?_⟩
  · rw [hsifted.mem, hheap, mem_append, mem_singleton]
  · rw [hsifted.outside u fun ⟨time', hmem⟩ => ?_, hdata, if_neg hu]
    rw [hheap, mem_append, mem_singleton] at hmem
    rcases hmem with hmem | hmem
    · exact hnot ⟨time', hmem⟩
    · exact hu (Prod.mk.inj hmem).2

theorem entry_popBack {k : ℕ} (hk : k < s.heap.length - 1) : s.popBack.entry k = s.entry k := by
  rw [entry, popBack, entry, getD_eq_getElem?_getD, List.getElem?_dropLast, if_pos hk,
    ← getD_eq_getElem?_getD]

theorem HeapWf.entry_inj (h : HeapWf less s) {a b : ℕ} (ha : a < s.heap.length) (hb : b < s.heap.length)
    (heq : (s.entry a).2 = (s.entry b).2) : a = b := by
  rw [← h.indexed a ha, ← h.indexed b hb, heq]

/-- `s'` is `s` without the entry of `t`. -/
structure Removed (less : τ → τ → Bool) (s : TimerQueue τ) (t : ℕ) (s' : TimerQueue τ) : Prop where
  wf : HeapWf less s'
  rest : SameRest s s'
  length : s'.heap.length + 1 = s.heap.length
  mem : ∀ e, e ∈ s'.heap ↔ e ∈ s.heap ∧ e.2 ≠ t
  outside : ∀ u, ¬ s.InHeap u → (s'.data u).heapIndex = (s.data u).heapIndex

/-- The last entry is removed. -/
theorem popBack_removed (h : HeapWf less s) {i : ℕ} (hi : i < s.heap.length) (hti : (s.entry i).2 = t)
    (hlast : i = s.heap.length - 1) : Removed less s t s.popBack := by
  have hlen : s.popBack.heap.length = s.heap.length - 1 := length_dropLast
  have htime : ∀ k < s.heap.length - 1, s.popBack.time k = s.time k := fun k hk => by
    rw [TimerQueue.time, entry_popBack hk, TimerQueue.time]
  refine ⟨⟨fun k hk => ?_, fun k hk₀ hk => ?_⟩, ⟨rfl, rfl, fun _ => rfl, fun _ => rfl, fun _ => rfl⟩,
    by omega, fun e => ?_, fun _ _ => rfl⟩
  · rw [hlen] at hk
    rw [entry_popBack hk]
    exact h.indexed k (by omega)
  · rw [hlen] at hk
    rw [htime k hk, htime _ ((parent_lt hk₀).trans hk)]
    exact h.ordered k hk₀ (by omega)
  · rw [mem_heap_iff, mem_heap_iff, hlen]
    constructor
    · rintro ⟨k, hk, rfl⟩
      rw [entry_popBack hk]
      refine ⟨⟨k, by omega, rfl⟩, fun heq => ?_⟩
      have := h.entry_inj (by omega) hi (heq.trans hti.symm)
      omega
    · rintro ⟨⟨k, hk, rfl⟩, hkt⟩
      have hki : k ≠ i := fun h0 => hkt (h0 ▸ hti)
      exact ⟨k, by omega, entry_popBack (by omega)⟩

/-- **An entry is removed**, from wherever it is. -/
theorem removeFromHeap_spec (hw : StrictWeak less) (h : HeapWf less s) (ht : s.InHeap t) :
    Removed less s t (s.removeFromHeap less t) := by
  obtain ⟨time, hmem⟩ := ht
  obtain ⟨i, hi, hei⟩ := mem_heap_iff.mp hmem
  have hti : (s.entry i).2 = t := by rw [hei]
  have hindex : (s.data t).heapIndex = i := by
    rw [← hti]
    exact h.indexed i hi
  have hne : s.heap ≠ [] := ne_nil_of_length_pos (by omega)
  rw [removeFromHeap, hindex]
  dsimp only
  rw [if_pos ⟨hne, hi⟩]
  by_cases hlast : i = s.heap.length - 1
  · rw [if_pos hlast]
    exact popBack_removed h hi hti hlast
  · -- The last entry takes its place, and is sifted from there.
    rw [if_neg hlast]
    obtain ⟨n, hn⟩ : ∃ n, s.heap.length - 1 = n := ⟨_, rfl⟩
    rw [hn] at hlast ⊢
    have hnl : n < s.heap.length := by omega
    have hin : i < n := by omega
    obtain ⟨s₁, hs₁⟩ : ∃ s₁, (s.swapHeap i n).popBack = s₁ := ⟨_, rfl⟩
    rw [hs₁]
    have hlen : s₁.heap.length = n := by
      rw [← hs₁, popBack]
      dsimp only
      rw [length_dropLast, length_swapHeap, hn]
    have hsw := sifted_swapHeap (s := s) hi hnl
    have hentry : ∀ k < n, s₁.entry k = if k = i then s.entry n else s.entry k := by
      intro k hk
      rw [← hs₁, entry_popBack (by rw [length_swapHeap, hn]; exact hk), entry_swapHeap hi hnl,
        if_neg hk.ne]
    have hdata : ∀ u, s₁.data u = (s.swapHeap i n).data u := fun u => by rw [← hs₁]; rfl
    have hindexed : ∀ k < s₁.heap.length, (s₁.data (s₁.entry k).2).heapIndex = k := by
      intro k hk
      rw [hlen] at hk
      have hpop : s₁.entry k = (s.swapHeap i n).entry k := by
        rw [← hs₁, entry_popBack (by rw [length_swapHeap, hn]; exact hk)]
      rw [hpop, hdata]
      exact indexed_swapHeap h.indexed hi hnl k (by rw [length_swapHeap]; omega)
    have hole : Hole (later less) 2 s₁.heap.length s₁.time i := by
      rw [hlen]
      refine ((h.ordered.hole (strictWeak_later hw) hi).mono hnl.le).congr fun k hk hki => ?_
      rw [TimerQueue.time, hentry k hk, if_neg hki, TimerQueue.time]
    have hrest : SameRest s s₁ := by
      refine ⟨by rw [← hs₁]; rfl, by rw [← hs₁]; rfl, fun u => ?_, fun u => ?_, fun u => ?_⟩ <;>
        rw [hdata]
      · exact hsw.rest.opQueue u
      · exact hsw.rest.next u
      · exact hsw.rest.prev u
    have hmem₁ : ∀ e, e ∈ s₁.heap ↔ e ∈ s.heap ∧ e.2 ≠ t := by
      intro e
      rw [mem_heap_iff, mem_heap_iff, hlen]
      constructor
      · rintro ⟨k, hk, rfl⟩
        rw [hentry k hk]
        split
        · refine ⟨⟨n, hnl, rfl⟩, fun heq => hin.ne' (h.entry_inj hnl hi (heq.trans hti.symm))⟩
        · next hki =>
            exact ⟨⟨k, by omega, rfl⟩, fun heq => hki (h.entry_inj (by omega) hi (heq.trans hti.symm))⟩
      · rintro ⟨⟨k, hk, rfl⟩, hkt⟩
        have hki : k ≠ i := fun h0 => hkt (h0 ▸ hti)
        by_cases hkn : k = n
        · exact ⟨i, hin, by rw [hentry i hin, if_pos rfl, hkn]⟩
        · exact ⟨k, by omega, by rw [hentry k (by omega), if_neg hki]⟩
    have hfinish : ∀ s₂, Restored less s₁ s₂ → Removed less s t s₂ := by
      rintro s₂ ⟨hwf, hsifted⟩
      refine ⟨hwf, hrest.trans hsifted.rest, ?_, fun e => (hsifted.mem e).trans (hmem₁ e), fun u hu => ?_⟩
      · rw [hsifted.length, hlen]
        omega
      · rw [hsifted.outside u fun ⟨time', hm⟩ => hu ⟨time', ((hmem₁ _).mp hm).1⟩, hdata]
        exact hsw.outside u hu
    have hcond : (decide (i > 0) && less (s₁.time i) (s₁.time ((i - 1) / 2))) = true ↔
        0 < i ∧ less (s₁.time i) (s₁.time (parent 2 i)) = true := by
      rw [Bool.and_eq_true, decide_eq_true_iff]
      rfl
    by_cases hup : 0 < i ∧ less (s₁.time i) (s₁.time (parent 2 i)) = true
    · rw [if_pos (hcond.mpr hup)]
      exact hfinish _ (upHeap_spec hw i le_rfl (by omega) hindexed hole
        (hole.over_of_lt (strictWeak_later hw) hup.1 hup.2))
    · rw [if_neg fun h0 => hup (hcond.mp h0)]
      refine hfinish _ (downHeap_spec hw s₁.heap.length (Nat.le_add_right _ _) (by omega) hindexed hole
        fun h₀ => ?_)
      rw [not_and, Bool.not_eq_true] at hup
      exact hup h₀

theorem removeFromHeap_outside (ht : s.heap.length ≤ (s.data t).heapIndex) :
    s.removeFromHeap less t = s := by
  rw [removeFromHeap]
  exact if_neg fun h0 => Nat.not_lt.mpr ht h0.2

theorem HeapWf.root (hw : StrictWeak less) (h : HeapWf less s) {e : τ × ℕ} (he : e ∈ s.heap) :
    less e.1 (s.time 0) = false := by
  obtain ⟨k, hk, rfl⟩ := mem_heap_iff.mp he
  exact h.ordered.root_max (strictWeak_later hw) k hk

end

end TimerQueue

end SourceLibs.AsioTimer
