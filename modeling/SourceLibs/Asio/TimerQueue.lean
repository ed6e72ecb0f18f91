import SourceLibs.Support.HeapArray
import SourceLibs.Support.DoublyLinked
import Mathlib.Logic.Function.Basic
import Mathlib.Algebra.Order.Ring.Nat

/-!
# Asio — the timer queue

`timer_queue<Time_Traits>`: a heap of the timers that have a time, and a linked list of all timers that are
waited for.

A timer is the address of its `per_timer_data`, an operation that of a `wait_op`; an `op_queue` is the list
of its operations, and `aborted` says which have `operation_aborted` for their `ec_`.  Times are compared by
`less`, and `isPositiveInfinity` says which never come.  An entry that is pushed on the heap is given the
memory it may need, or `push_back` throws.
-/

namespace SourceLibs.AsioTimer

/-- `std::numeric_limits<std::size_t>::max()`. -/
def sizeMax : ℕ := 2 ^ 64 - 1

structure PerTimerData where
  opQueue : List ℕ
  heapIndex : ℕ
  next : Option ℕ
  prev : Option ℕ

/-- `timer_queue`, with the data of the timers and of the operations. -/
structure TimerQueue (τ : Type*) where
  timers : Option ℕ
  heap : List (τ × ℕ)
  data : ℕ → PerTimerData
  aborted : ℕ → Bool

namespace TimerQueue

section
variable {τ : Type*} (s : TimerQueue τ)

/-- An empty queue; the stored indices are not initialised. -/
def empty (heapIndex : ℕ → ℕ) : TimerQueue τ :=
  ⟨none, [], fun t => ⟨[], heapIndex t, none, none⟩, fun _ => false⟩

/-- `heap_[i]`. -/
def entry [Inhabited τ] (i : ℕ) : τ × ℕ := s.heap.getD i (default, 0)

/-- `heap_[i].time_`. -/
def time [Inhabited τ] (i : ℕ) : τ := (s.entry i).1

/-- Write the data of a timer. -/
def setData (t : ℕ) (d : PerTimerData) : TimerQueue τ := { s with data := Function.update s.data t d }

/-- `timer.heap_index_ = i`. -/
def setIndex (t i : ℕ) : TimerQueue τ := s.setData t { s.data t with heapIndex := i }

/-- `timer.next_ = p`. -/
def setNext (t : ℕ) (p : Option ℕ) : TimerQueue τ := s.setData t { s.data t with next := p }

/-- `timer.prev_ = p`. -/
def setPrev (t : ℕ) (p : Option ℕ) : TimerQueue τ := s.setData t { s.data t with prev := p }

/-- Write the operations of a timer. -/
def setOps (t : ℕ) (ops : List ℕ) : TimerQueue τ := s.setData t { s.data t with opQueue := ops }

/-! ### The heap -/

variable [Inhabited τ] (less : τ → τ → Bool)

/-- `swap_heap`, with the indices of both timers. -/
def swapHeap (index1 index2 : ℕ) : TimerQueue τ :=
  let s' := { s with heap := (s.heap.set index1 (s.entry index2)).set index2 (s.entry index1) }
  let s'' := s'.setIndex (s'.entry index1).2 index1
  s''.setIndex (s''.entry index2).2 index2

/-- `up_heap`; `fuel` bounds the rounds. -/
def upHeap : ℕ → ℕ → TimerQueue τ → TimerQueue τ
  | 0, _, s => s
  | fuel + 1, index, s =>
    if index > 0 then
      let parent := (index - 1) / 2
      if !less (s.time index) (s.time parent) then s
      else upHeap fuel parent (s.swapHeap index parent)
    else s

/-- The smaller child, or the second if they are equal. -/
def minChild (child : ℕ) : ℕ :=
  if child + 1 = s.heap.length || less (s.time child) (s.time (child + 1)) then child else child + 1

/-- `down_heap`; `fuel` bounds the rounds. -/
def downHeap : ℕ → ℕ → TimerQueue τ → TimerQueue τ
  | 0, _, s => s
  | fuel + 1, index, s =>
    let child := index * 2 + 1
    if child < s.heap.length then
      let minChild := s.minChild less child
      if less (s.time index) (s.time minChild) then s
      else downHeap fuel minChild (s.swapHeap index minChild)
    else s

/-- `heap_.pop_back()`. -/
def popBack : TimerQueue τ := { s with heap := s.heap.dropLast }

/-- The part of `remove_timer` about the heap. -/
def removeFromHeap (t : ℕ) : TimerQueue τ :=
  let index := (s.data t).heapIndex
  if s.heap ≠ [] ∧ index < s.heap.length then
    if index = s.heap.length - 1 then s.popBack
    else
      let s := (s.swapHeap index (s.heap.length - 1)).popBack
      if index > 0 && less (s.time index) (s.time ((index - 1) / 2)) then upHeap less index index s
      else downHeap less s.heap.length index s
  else s

/-- The part of `remove_timer` about the linked list. -/
def unlink (t : ℕ) : TimerQueue τ :=
  let s := if s.timers = some t then { s with timers := (s.data t).next } else s
  let s :=
    match (s.data t).prev with
    | none => s
    | some p => s.setNext p (s.data t).next
  let s :=
    match (s.data t).next with
    | none => s
    | some p => s.setPrev p (s.data t).prev
  (s.setNext t none).setPrev t none

/-- `remove_timer`: out of the heap and out of the list. -/
def removeTimer (t : ℕ) : TimerQueue τ := (s.removeFromHeap less t).unlink t

/-! ### Members -/

/-- A new timer at the head of the linked list. -/
def linkFront (t : ℕ) : TimerQueue τ :=
  let s := (s.setNext t s.timers).setPrev t none
  let s :=
    match s.timers with
    | none => s
    | some p => s.setPrev p (some t)
  { s with timers := some t }

/-- The end of `enqueue_timer`. -/
def enqueueOp (t op : ℕ) : TimerQueue τ × Option Bool :=
  let s := s.setOps t ((s.data t).opQueue ++ [op])
  (s, some ((s.data t).heapIndex = 0 && (s.data t).opQueue.head? = some op))

/-- `enqueue_timer`; it returns nothing when `push_back` throws. -/
def enqueueTimer (isPositiveInfinity : τ → Bool) (memory : Bool) (time : τ) (t op : ℕ) :
    TimerQueue τ × Option Bool :=
  if (s.data t).prev = none ∧ s.timers ≠ some t then
    if isPositiveInfinity time then ((s.setIndex t sizeMax).linkFront t).enqueueOp t op
    else
      let s := s.setIndex t s.heap.length
      if memory && s.heap.length < sizeMax then
        let s := { s with heap := s.heap ++ [(time, t)] }
        ((upHeap less (s.heap.length - 1) (s.heap.length - 1) s).linkFront t).enqueueOp t op
      else (s, none)
  else s.enqueueOp t op

/-- The loop of `get_ready_timers`. -/
def readyLoop (now : τ) : ℕ → TimerQueue τ → List ℕ → TimerQueue τ × List ℕ
  | 0, s, ops => (s, ops)
  | fuel + 1, s, ops =>
    match s.heap with
    | [] => (s, ops)
    | (time, t) :: _ =>
      if !less now time then
        readyLoop now fuel ((s.setOps t []).removeTimer less t) (ops ++ (s.data t).opQueue)
      else (s, ops)

/-- `get_ready_timers`; each round removes an entry of the heap. -/
def getReadyTimers (now : τ) (ops : List ℕ) : TimerQueue τ × List ℕ :=
  if s.heap ≠ [] then readyLoop less now (s.heap.length + 1) s ops else (s, ops)

/-- The loop of `get_all_timers`. -/
def allLoop : ℕ → TimerQueue τ → List ℕ → Option (TimerQueue τ × List ℕ)
  | 0, _, _ => none
  | fuel + 1, s, ops =>
    match s.timers with
    | none => some (s, ops)
    | some t =>
      let ops := ops ++ (s.data t).opQueue
      let s := { s with timers := (s.data t).next }
      allLoop fuel (((s.setOps t []).setNext t none).setPrev t none) ops

/-- `get_all_timers`; `fuel` bounds the rounds. -/
def getAllTimers (fuel : ℕ) (ops : List ℕ) : Option (TimerQueue τ × List ℕ) :=
  (allLoop fuel s ops).map fun (s, ops) => ({ s with heap := [] }, ops)

/-- The loop of `cancel_timer`: what stays in the queue, what is taken out, and how many. -/
def cancelLoop (maxCancelled : ℕ) : List ℕ → ℕ → List ℕ × List ℕ × ℕ
  | [], n => ([], [], n)
  | op :: q, n =>
    if n ≠ maxCancelled then
      let (rest, taken, n) := cancelLoop maxCancelled q (n + 1)
      (rest, op :: taken, n)
    else (op :: q, [], n)

/-- `cancel_timer`: at most so many operations, and how many. -/
def cancelTimer (t : ℕ) (ops : List ℕ) (maxCancelled : ℕ) : TimerQueue τ × List ℕ × ℕ :=
  if (s.data t).prev ≠ none ∨ s.timers = some t then
    let (rest, taken, n) := cancelLoop maxCancelled (s.data t).opQueue 0
    let s := s.setOps t rest
    let s := { s with aborted := fun op => decide (op ∈ taken) || s.aborted op }
    let s := if rest = [] then s.removeTimer less t else s
    (s, ops ++ taken, n)
  else (s, ops, 0)

end

end TimerQueue

end SourceLibs.AsioTimer
