import SourceLibs.Support.RingCells
import Mathlib.Tactic.SplitIfs

/-!
# Skynet — a message queue

`skynet_mq.c`: one `message_queue` on its own.  The messages are in a ring of `cap` cells from `head`
on, and a full ring is copied to one of twice the size, so that `head = tail` always means empty.  A
cell that was not written since it was allocated holds nothing.

* `Holds.append`: a push puts the message last, whether or not the ring has to grow.
* `Holds.pop`, `Holds.pop_nil`: a pop takes the first message, or clears `in_global`.
-/

namespace SourceLibs.SkynetMq
open List RingCells

/-- `DEFAULT_QUEUE_SIZE` and `MQ_OVERLOAD`. -/
def defaultQueueSize : ℕ := 64
def mqOverload : ℕ := 1024

/-- `struct message_queue`, less its lock and its `next`. -/
structure MessageQueue (α : Type*) where
  handle : ℕ
  cap : ℕ
  head : ℕ
  tail : ℕ
  release : Bool
  inGlobal : Bool
  overload : ℕ
  overloadThreshold : ℕ
  queue : List (Option α)

namespace MessageQueue

variable {α : Type*} (q : MessageQueue α)

/-- `skynet_mq_create`. -/
def create (handle : ℕ) : MessageQueue α where
  handle := handle
  cap := defaultQueueSize
  head := 0
  tail := 0
  release := false
  -- The service is not initialised yet: the queue is put in the global list later.
  inGlobal := true
  overload := 0
  overloadThreshold := mqOverload
  queue := List.replicate defaultQueueSize none

/-- `skynet_mq_length`. -/
def length (q : MessageQueue α) : ℕ :=
  if q.head ≤ q.tail then q.tail - q.head else q.tail + q.cap - q.head

/-- `skynet_mq_overload`. -/
def takeOverload (q : MessageQueue α) : MessageQueue α × ℕ :=
  if q.overload ≠ 0 then ({ q with overload := 0 }, q.overload) else (q, 0)

/-- The `while` of `skynet_mq_pop`; the threshold doubles, so `length` rounds are enough. -/
def overloadLoop (length : ℕ) : ℕ → ℕ → ℕ → ℕ × ℕ
  | 0, overload, threshold        => (overload, threshold)
  | fuel + 1, overload, threshold =>
    if threshold < length then overloadLoop length fuel length (threshold * 2)
    else (overload, threshold)

/-- `skynet_mq_pop`, with the cell that is read if there is one. -/
def pop (q : MessageQueue α) : MessageQueue α × Option (Option α) :=
  if q.head ≠ q.tail then
    let message := q.queue.getD q.head none
    let head := if q.head + 1 ≥ q.cap then 0 else q.head + 1
    let length : ℤ := (q.tail : ℤ) - head
    let length := if length < 0 then length + q.cap else length
    let loop := overloadLoop length.toNat length.toNat q.overload q.overloadThreshold
    ({ q with head := head, overload := loop.1, overloadThreshold := loop.2 }, some message)
  else
    ({ q with overloadThreshold := mqOverload, inGlobal := false }, none)

/-- `expand_queue`: twice the cells, from the head on. -/
def expandQueue (q : MessageQueue α) : MessageQueue α :=
  { q with
    queue := (List.range q.cap).map (fun i => q.queue.getD ((q.head + i) % q.cap) none) ++
      List.replicate q.cap none
    head := 0
    tail := q.cap
    cap := q.cap * 2 }

/-- What `skynet_mq_push` does to the ring. -/
def append (q : MessageQueue α) (message : α) : MessageQueue α :=
  let q := { q with
    queue := q.queue.set q.tail (some message)
    tail := if q.tail + 1 ≥ q.cap then 0 else q.tail + 1 }
  if q.head = q.tail then q.expandQueue else q

@[simp] theorem pop_handle : q.pop.1.handle = q.handle := by
  rw [pop]
  split <;> rfl

@[simp] theorem pop_release : q.pop.1.release = q.release := by
  rw [pop]
  split <;> rfl

@[simp] theorem append_handle (m : α) : (q.append m).handle = q.handle := by
  simp only [append]
  split_ifs <;> rfl

@[simp] theorem append_release (m : α) : (q.append m).release = q.release := by
  simp only [append]
  split_ifs <;> rfl

@[simp] theorem append_inGlobal (m : α) : (q.append m).inGlobal = q.inGlobal := by
  simp only [append]
  split_ifs <;> rfl

/-! ### The messages in the ring -/

/-- The ring holds `b`, the oldest message first. -/
structure Holds (q : MessageQueue α) (b : List α) : Prop where
  length : q.queue.length = q.cap
  room : b.length < q.cap
  head : q.head < q.cap
  tail : q.tail = slot q.cap q.head b.length
  entry : ∀ i < b.length, view q.queue q.head i = b[i]?

theorem holds_create (handle : ℕ) : (create handle : MessageQueue α).Holds [] :=
  ⟨length_replicate, Nat.succ_pos 63, Nat.succ_pos 63, rfl, fun i hi => absurd hi (Nat.not_lt_zero i)⟩

theorem Holds.congr {q q' : MessageQueue α} {b : List α} (h : q.Holds b) (hq : q'.queue = q.queue)
    (hc : q'.cap = q.cap) (hh : q'.head = q.head) (ht : q'.tail = q.tail) : q'.Holds b := by
  obtain ⟨h1, h2, h3, h4, h5⟩ := h
  rw [← hq, ← hc] at h1
  rw [← hc] at h2
  rw [← hc, ← hh] at h3
  rw [← hc, ← hh, ← ht] at h4
  rw [← hq, ← hh] at h5
  exact ⟨h1, h2, h3, h4, h5⟩

theorem succ_wrap {n i : ℕ} (hi : i < n) : (if i + 1 ≥ n then 0 else i + 1) = slot n i 1 := by
  split
  · rw [slot_of_ge (by omega) (by omega)]
    omega
  · rw [slot_of_lt (by omega)]

theorem Holds.head_eq_tail_iff {q : MessageQueue α} {b : List α} (h : q.Holds b) :
    q.head = q.tail ↔ b = [] := by
  have h0 : slot q.cap q.head 0 = q.head := slot_zero h.head
  rw [h.tail]
  nth_rewrite 1 [← h0]
  rw [slot_inj (by have := h.room; omega) h.room, eq_comm, length_eq_zero_iff]

/-- **A message is appended**; the ring grows when it would be full. -/
theorem Holds.append {q : MessageQueue α} {b : List α} (h : q.Holds b) (m : α) :
    (q.append m).Holds (b ++ [m]) := by
  have hroom := h.room
  have htail : q.tail < q.cap := by
    rw [h.tail]
    exact slot_lt (by omega)
  have hnext : (if q.tail + 1 ≥ q.cap then 0 else q.tail + 1) = slot q.cap q.head (b.length + 1) := by
    rw [succ_wrap htail, h.tail, slot_slot]
  -- The cells after the write, still seen from the old head.
  have hentry : ∀ i < b.length + 1,
      view (q.queue.set q.tail (some m)) q.head i = (b ++ [m])[i]? := by
    intro i hi
    rw [h.tail, view_set h.length _ _ (by omega) (by omega)]
    split
    · next heq => rw [heq, List.getElem?_concat_length]
    · next hne =>
        rw [h.entry i (by omega), List.getElem?_append_left (by omega)]
  rw [MessageQueue.append]
  simp only [hnext]
  split
  · -- The ring is full, and is copied.
    next hfull =>
      have hcap : b.length + 1 = q.cap := by
        by_contra hne
        have h0 : slot q.cap q.head 0 = q.head := slot_zero h.head
        rw [← h0, slot_slot, Nat.zero_add, slot_inj (by omega) (by omega)] at hfull
        omega
      refine ⟨?_, ?_, ?_, ?_, fun i hi => ?_⟩
      · simp only [expandQueue, length_append, length_map, length_range,
          length_replicate]
        omega
      · simp only [expandQueue, length_append, length_singleton]
        omega
      · simp only [expandQueue]
        omega
      · simp only [expandQueue, length_append, length_singleton]
        rw [slot_of_lt (by omega)]
        omega
      · rw [length_append, length_singleton] at hi
        rw [← hentry i hi]
        have hi' : i < q.cap := by omega
        simp only [expandQueue, view]
        rw [slot_of_lt (by simp; omega), Nat.zero_add, getD_append _ _ _ _ (by simpa using hi'),
          getD_eq_getElem _ _ (by simpa using hi'), getElem_map, getElem_range, slot,
          length_set, h.length]
  · next hne =>
      have hlt : b.length + 1 < q.cap := by
        rcases Nat.lt_or_ge (b.length + 1) q.cap with hlt | hge
        · exact hlt
        · rw [show b.length + 1 = q.cap by omega, slot_self, slot_zero h.head] at hne
          exact absurd rfl hne
      refine ⟨by rw [length_set, h.length], by simpa using hlt, h.head, by simp, fun i hi => ?_⟩
      exact hentry i (by simpa using hi)

/-- **The first message is taken**, and nothing else of it but the overload mark changes. -/
theorem Holds.pop {q : MessageQueue α} {m : α} {b : List α} (h : q.Holds (m :: b)) :
    q.pop.2 = some (some m) ∧ q.pop.1.Holds b ∧ q.pop.1.inGlobal = q.inGlobal := by
  have hroom : b.length + 1 < q.cap := h.room
  have hne : q.head ≠ q.tail := by
    rw [Ne, h.head_eq_tail_iff]
    exact cons_ne_nil m b
  have hfirst : q.queue.getD q.head none = some m := by
    have := h.entry 0 (by simp)
    rwa [view, h.length, slot_zero h.head] at this
  rw [MessageQueue.pop, if_pos hne]
  refine ⟨by rw [hfirst], ?_, rfl⟩
  simp only [succ_wrap h.head]
  refine ⟨h.length, ?_, slot_lt (by omega), ?_, fun i hi => ?_⟩
  · change b.length < q.cap
    omega
  · change q.tail = slot q.cap (slot q.cap q.head 1) b.length
    rw [h.tail, slot_slot, length_cons, Nat.add_comm 1]
  · change view q.queue (slot q.cap q.head 1) i = b[i]?
    rw [view_slot h.length, h.entry (1 + i) (by rw [length_cons]; omega), Nat.add_comm 1,
      List.getElem?_cons_succ]

/-- **Nothing to take.** -/
theorem Holds.pop_nil {q : MessageQueue α} (h : q.Holds []) :
    q.pop = ({ q with overloadThreshold := mqOverload, inGlobal := false }, none) := by
  rw [MessageQueue.pop, if_neg (not_not.mpr (h.head_eq_tail_iff.mpr rfl))]

end MessageQueue

end SourceLibs.SkynetMq
