import SourceLibs.Heap.FibonacciHeap
import SourceLibs.Heap.SkewHeap

/-!
# Heap — a push that throws

`push` allocates a node, and `make_node` throws when the stability counter of the heap is used up.
`fibonacci_heap`, `pairing_heap` and `skew_heap` count the element before either, `binomial_heap`
after both.  With `constant_time_size` the count is what `size()` returns, and what `empty()` of a
Fibonacci heap reads.

A `Heaps` holds the nodes of any number of heaps and their stability counters; `allocated` says whether
`allocate(1)` returns.  The node of a push that throws in `make_node` is lost, and not modelled.

* `push_returns`: a push that returns is that of the heap's model.
* `pushInternal_iff`: a push that counts first is all or nothing exactly if nothing is counted.
* `push_allOrNothing_iff`: the four containers.
-/

namespace SourceLibs.FailedPush
open Handles

/-! ### `heap_base` -/

/-- What `push` throws. -/
inductive Failure where
  | badAlloc
  | counterOverflow
  deriving DecidableEq

/-- The options of a heap; `counterMax` is the largest value of `stability_counter_type`. -/
structure Options where
  constantTimeSize : Bool
  stable : Bool
  counterMax : ℕ

/-- `internal_type`; the number is that of the push, in a stable heap. -/
abbrev Internal (T : Type*) := T × ℕ

variable {T W : Type*} (o : Options)

def internalCompare (cmp : T → T → Bool) (lhs rhs : Internal T) : Bool :=
  if o.stable then
    if cmp lhs.1 rhs.1 then true
    else if cmp rhs.1 lhs.1 then false
    else decide (rhs.2 < lhs.2)
  else cmp lhs.1 rhs.1

/-- `make_node`, with the counter it leaves. -/
def makeNode (counter : ℕ) (v : T) : Except Failure (Internal T) × ℕ :=
  if o.stable then
    let count := (counter + 1) % (o.counterMax + 1)
    (if count = o.counterMax then .error .counterOverflow else .ok (v, count), count)
  else (.ok (v, 0), counter)

/-- `size_holder::increment`. -/
def increment (size : ℕ → ℕ) (i : ℕ) : ℕ → ℕ :=
  if o.constantTimeSize then Function.update size i (size i + 1) else size

/-- The nodes and the members of the heaps, and their stability counters. -/
structure Heaps (W : Type*) where
  world : W
  counter : ℕ → ℕ

/-- `count_list_nodes`; the number of nodes bounds the depth of the recursion. -/
def countListNodes (children : ℕ → List ℕ) : ℕ → List ℕ → ℕ
  | 0, _ => 0
  | fuel + 1, l => (l.map fun n => 1 + countListNodes children fuel (children n)).sum

/-- What the caller sees of a heap. -/
structure Observed (T : Type*) where
  size : ℕ
  empty : Bool
  top : Option T
  values : Multiset T

/-- The values stored in heap `i`. -/
def storedValues (a : Account (Internal T)) (i : ℕ) : Multiset T :=
  (a.ledger.nodes i).val.map fun n => (a.value n).1

/-! ### The containers that count first -/

/-- `push` of the containers that count first; `insert` links the new node and returns its handle. -/
def pushInternal (count : W → W) (insert : W → Internal T → W × ℕ) (allocated : Bool) (i : ℕ) (v : T)
    (s : Heaps W) : Except Failure ℕ × Heaps W :=
  let s := { s with world := count s.world }
  if !allocated then (.error .badAlloc, s)
  else
    match makeNode o (s.counter i) v with
    | (.error e, counter) => (.error e, { s with counter := Function.update s.counter i counter })
    | (.ok value, counter) =>
      let (world, n) := insert s.world value
      (.ok n, ⟨world, Function.update s.counter i counter⟩)

variable (cmp : T → T → Bool)

/-- `roots.push_front(*n)`, and the top. -/
def fibonacciInsert (i : ℕ) (w : FibonacciHeap.World (Internal T)) (value : Internal T) :
    FibonacciHeap.World (Internal T) × ℕ :=
  let n := w.ledger.fresh
  let w : FibonacciHeap.World (Internal T) :=
    ⟨⟨w.ledger.add i, Function.update w.value n value⟩, Function.update w.children n [],
      Function.update w.parent n none, Function.update w.mark n false,
      Function.update w.roots i (n :: w.roots i), w.topElement, w.size⟩
  match w.topElement i with
  | none => (w.setTop i (some n), n)
  | some _ => (w.raiseTop (internalCompare o cmp) i n, n)

/-- `fibonacci_heap::push`. -/
def fibonacciPush (allocated : Bool) (i : ℕ) (v : T)
    (s : Heaps (FibonacciHeap.World (Internal T))) :
    Except Failure ℕ × Heaps (FibonacciHeap.World (Internal T)) :=
  pushInternal o (fun w => { w with size := increment o w.size i }) (fibonacciInsert o cmp i)
    allocated i v s

/-- `size`, `empty` and `top` of a Fibonacci heap. -/
def fibonacciObserve (i : ℕ) (w : FibonacciHeap.World (Internal T)) : Observed T :=
  let empty := if o.constantTimeSize then decide (w.size i = 0) else (w.roots i).isEmpty
  { size :=
      if o.constantTimeSize then w.size i
      else if empty then 0 else countListNodes w.children w.ledger.fresh (w.roots i)
    empty := empty
    top := if empty then none else (w.topElement i).map fun n => (w.value n).1
    values := storedValues w.toAccount i }

/-- `merge_node` of the new node. -/
def pairingInsert (i : ℕ) (w : PairingHeap.World (Internal T)) (value : Internal T) :
    PairingHeap.World (Internal T) × ℕ :=
  let n := w.ledger.fresh
  let w : PairingHeap.World (Internal T) :=
    ⟨⟨w.ledger.add i, Function.update w.value n value⟩, Function.update w.children n [], w.root, w.size⟩
  (w.mergeNode (internalCompare o cmp) i n, n)

/-- `pairing_heap::push`. -/
def pairingPush (allocated : Bool) (i : ℕ) (v : T) (s : Heaps (PairingHeap.World (Internal T))) :
    Except Failure ℕ × Heaps (PairingHeap.World (Internal T)) :=
  pushInternal o (fun w => { w with size := increment o w.size i }) (pairingInsert o cmp i)
    allocated i v s

/-- `merge_node` of the new node. -/
def skewInsert (i : ℕ) (w : SkewHeap.World (Internal T)) (value : Internal T) :
    SkewHeap.World (Internal T) × ℕ :=
  let n := w.ledger.fresh
  let w : SkewHeap.World (Internal T) :=
    { w with ledger := w.ledger.add i, value := Function.update w.value n value }
  (((w.clearChildren n).setParent n none).mergeNode (internalCompare o cmp) i n, n)

/-- `skew_heap::push_internal`. -/
def skewPush (allocated : Bool) (i : ℕ) (v : T) (s : Heaps (SkewHeap.World (Internal T))) :
    Except Failure ℕ × Heaps (SkewHeap.World (Internal T)) :=
  pushInternal o (fun w => { w with size := increment o w.size i }) (skewInsert o cmp i)
    allocated i v s

/-- `size`, `empty` and `top` of a heap that is one tree. -/
def observeTree (a : Account (Internal T)) (children : ℕ → List ℕ) (root : Option ℕ) (size : ℕ)
    (i : ℕ) : Observed T where
  size :=
    if o.constantTimeSize then size
    else
      match root with
      | none => 0
      | some r => countListNodes children a.ledger.fresh [r]
  empty := root.isNone
  top := root.map fun n => (a.value n).1
  values := storedValues a i

def pairingObserve (i : ℕ) (w : PairingHeap.World (Internal T)) : Observed T :=
  observeTree o w.toAccount w.children (w.root i) (w.size i) i

def skewObserve (i : ℕ) (w : SkewHeap.World (Internal T)) : Observed T :=
  observeTree o w.toAccount w.children (w.root i) (w.size i) i

/-! ### `binomial_heap` -/

/-- The nodes and the heap objects. -/
structure BinomialWorld (α : Type*) extends Account α where
  children : ℕ → List ℕ
  parent : ℕ → Option ℕ
  trees : ℕ → List ℕ
  topElement : ℕ → Option ℕ
  size : ℕ → ℕ

def mergeTrees {α : Type*} (cmp : α → α → Bool) (w : BinomialWorld α) (node1 node2 : ℕ) :
    BinomialWorld α × ℕ :=
  let (node1, node2) := if cmp (w.value node1) (w.value node2) then (node2, node1) else (node1, node2)
  let w :=
    match w.parent node2 with
    | some p =>
      { w with
        children := Function.update w.children p ((w.children p).erase node2)
        parent := Function.update w.parent node2 none }
    | none => w
  ({ w with
      children := Function.update w.children node1 (w.children node1 ++ [node2])
      parent := Function.update w.parent node2 (some node1) }, node1)

/-- `insert_node`, with the trees from the iterator on; the list is what stands there afterwards. -/
def insertNode {α : Type*} (cmp : α → α → Bool) :
    List ℕ → BinomialWorld α → ℕ → BinomialWorld α × List ℕ
  | [], w, n => (w, [n])
  | thisNode :: rest, w, n =>
    if (w.children thisNode).length = (w.children n).length then
      let (w, n) := mergeTrees cmp w n thisNode
      insertNode cmp rest w n
    else (w, n :: thisNode :: rest)

/-- `binomial_heap::push`. -/
def binomialPush (allocated : Bool) (i : ℕ) (v : T) (s : Heaps (BinomialWorld (Internal T))) :
    Except Failure ℕ × Heaps (BinomialWorld (Internal T)) :=
  if !allocated then (.error .badAlloc, s)
  else
    match makeNode o (s.counter i) v with
    | (.error e, counter) => (.error e, { s with counter := Function.update s.counter i counter })
    | (.ok value, counter) =>
      let w := s.world
      let n := w.ledger.fresh
      let w : BinomialWorld (Internal T) :=
        ⟨⟨w.ledger.add i, Function.update w.value n value⟩, Function.update w.children n [],
          Function.update w.parent n none, w.trees, w.topElement, w.size⟩
      let (w, l) := insertNode (internalCompare o cmp) (w.trees i) w n
      let w := { w with trees := Function.update w.trees i l }
      let top :=
        match w.topElement i with
        | none => n
        | some t => if internalCompare o cmp (w.value t) (w.value n) then n else t
      (.ok n, ⟨{ w with
          topElement := Function.update w.topElement i (some top)
          size := increment o w.size i }, Function.update s.counter i counter⟩)

/-- `size`, `empty` and `top` of a binomial heap. -/
def binomialObserve (i : ℕ) (w : BinomialWorld (Internal T)) : Observed T where
  size :=
    if o.constantTimeSize then w.size i
    else if (w.topElement i).isNone then 0
    else countListNodes w.children w.ledger.fresh (w.trees i)
  empty := (w.topElement i).isNone
  top := (w.topElement i).map fun n => (w.value n).1
  values := storedValues w.toAccount i

/-! ### What a throw leaves -/

/-- The node is not allocated, or the counter is used up. -/
def Throws (allocated : Bool) (counter : ℕ) : Prop :=
  allocated = false ∨ (o.stable = true ∧ (counter + 1) % (o.counterMax + 1) = o.counterMax)

/-- If the push throws, the heap is seen as it was. -/
def AllOrNothing (observe : W → Observed T) (s : Heaps W) (r : Except Failure ℕ × Heaps W) : Prop :=
  ∀ e, r.1 = .error e → observe r.2.world = observe s.world

variable {o cmp} {allocated : Bool} {i : ℕ} {v : T}

theorem makeNode_spec (counter : ℕ) (v : T) :
    (∃ count, makeNode o counter v = (.error .counterOverflow, count) ∧
      o.stable = true ∧ (counter + 1) % (o.counterMax + 1) = o.counterMax) ∨
    ∃ value count, makeNode o counter v = (.ok value, count) ∧ value.1 = v ∧
      ¬ (o.stable = true ∧ (counter + 1) % (o.counterMax + 1) = o.counterMax) := by
  rw [makeNode]
  by_cases hs : o.stable = true
  · rw [if_pos hs]
    by_cases hc : (counter + 1) % (o.counterMax + 1) = o.counterMax
    · refine Or.inl ⟨(counter + 1) % (o.counterMax + 1), ?_, hs, hc⟩
      simp only [if_pos hc]
    · refine Or.inr ⟨(v, (counter + 1) % (o.counterMax + 1)), (counter + 1) % (o.counterMax + 1), ?_,
        rfl, fun h => hc h.2⟩
      simp only [if_neg hc]
  · rw [if_neg hs]
    exact Or.inr ⟨_, _, rfl, rfl, fun h => hs h.1⟩

/-- **A push that counts first** throws with the count changed and nothing else, or inserts a node. -/
theorem pushInternal_spec (count : W → W) (insert : W → Internal T → W × ℕ) (s : Heaps W) :
    (Throws o allocated (s.counter i) ∧ ∃ e c,
      pushInternal o count insert allocated i v s = (.error e, ⟨count s.world, c⟩)) ∨
    (¬ Throws o allocated (s.counter i) ∧ ∃ value c, value.1 = v ∧
      pushInternal o count insert allocated i v s =
        (.ok (insert (count s.world) value).2, ⟨(insert (count s.world) value).1, c⟩)) := by
  rw [pushInternal]
  cases allocated with
  | false => exact Or.inl ⟨Or.inl rfl, _, _, rfl⟩
  | true =>
    rcases makeNode_spec (o := o) (s.counter i) v with ⟨c, hm, hthrow⟩ | ⟨value, c, hm, hv, hno⟩
    · refine Or.inl ⟨Or.inr hthrow, .counterOverflow, Function.update s.counter i c, ?_⟩
      simp only [Bool.not_true, Bool.false_eq_true, if_false, hm]
    · refine Or.inr ⟨?_, value, Function.update s.counter i c, hv, ?_⟩
      · rintro (h | h)
        · cases h
        · exact hno h
      · simp only [Bool.not_true, Bool.false_eq_true, if_false, hm]

/-- **All or nothing**, where the count changes what is seen exactly if sizes are kept. -/
theorem pushInternal_iff {count : W → W} (insert : W → Internal T → W × ℕ) {observe : W → Observed T}
    {s : Heaps W}
    (hcount : observe (count s.world) = observe s.world ↔ o.constantTimeSize = false) :
    AllOrNothing observe s (pushInternal o count insert allocated i v s) ↔
      o.constantTimeSize = false ∨ ¬ Throws o allocated (s.counter i) := by
  have hspec : (Throws o allocated (s.counter i) ∧ ∃ e c,
      pushInternal o count insert allocated i v s = (.error e, ⟨count s.world, c⟩)) ∨ _ :=
    pushInternal_spec count insert s
  rcases hspec with
    ⟨hthrow, e, c, hr⟩ | ⟨hno, value, c, -, hr⟩
  · rw [hr, ← hcount]
    exact ⟨fun h => Or.inl (h e rfl), fun h e' _ => h.resolve_right (not_not.mpr hthrow)⟩
  · rw [hr]
    exact ⟨fun _ => Or.inr hno, fun _ e he => nomatch he⟩

/-- Counting changes a size that is kept, and nothing otherwise. -/
theorem increment_eq_iff (size : ℕ → ℕ) : increment o size i i = size i ↔ o.constantTimeSize = false := by
  rw [increment]
  cases o.constantTimeSize with
  | true => simp
  | false => simp

theorem increment_of_not_constantTime (h : o.constantTimeSize = false) (size : ℕ → ℕ) :
    increment o size i = size := by
  rw [increment, h]
  rfl

theorem fibonacci_count_iff (w : FibonacciHeap.World (Internal T)) :
    fibonacciObserve o i { w with size := increment o w.size i } = fibonacciObserve o i w ↔
      o.constantTimeSize = false := by
  refine ⟨fun h => ?_, fun h => by rw [increment_of_not_constantTime h]⟩
  by_contra hct
  have hct : o.constantTimeSize = true := by simpa using hct
  have hsize := congrArg Observed.size h
  simp only [fibonacciObserve, if_pos hct] at hsize
  rw [increment_eq_iff, hct] at hsize
  cases hsize

theorem observeTree_count_iff (a : Account (Internal T)) (children : ℕ → List ℕ) (root : Option ℕ)
    (size : ℕ → ℕ) : observeTree o a children root (increment o size i i) i =
      observeTree o a children root (size i) i ↔ o.constantTimeSize = false := by
  refine ⟨fun h => ?_, fun h => by rw [increment_of_not_constantTime h]⟩
  by_contra hct
  have hct : o.constantTimeSize = true := by simpa using hct
  have hsize := congrArg Observed.size h
  simp only [observeTree, if_pos hct] at hsize
  rw [increment_eq_iff, hct] at hsize
  cases hsize

theorem binomialPush_allOrNothing (s : Heaps (BinomialWorld (Internal T))) :
    AllOrNothing (binomialObserve o i) s (binomialPush o cmp allocated i v s) := by
  intro e he
  rw [binomialPush] at he ⊢
  cases allocated with
  | false => rfl
  | true =>
    rcases makeNode_spec (o := o) (s.counter i) v with ⟨c, hm, -⟩ | ⟨value, c, hm, -⟩
    · simp only [hm]
      rfl
    · simp only [hm] at he
      cases he

/-! ### A push that returns -/

theorem pushInternal_returns {count : W → W} {insert : W → Internal T → W × ℕ}
    {push : W → Internal T → W} (hpush : ∀ w value, (insert (count w) value).1 = push w value)
    {s : Heaps W} (hno : ¬ Throws o allocated (s.counter i)) :
    ∃ value n c, value.1 = v ∧
      pushInternal o count insert allocated i v s = (.ok n, ⟨push s.world value, c⟩) := by
  have hspec : (Throws o allocated (s.counter i) ∧ ∃ e c,
      pushInternal o count insert allocated i v s = (.error e, ⟨count s.world, c⟩)) ∨ _ :=
    pushInternal_spec count insert s
  obtain ⟨-, value, c, hv, hr⟩ := hspec.resolve_left fun hthrow => hno hthrow.1
  exact ⟨value, _, c, hv, by rw [hr, hpush]⟩

theorem fibonacciInsert_eq (w : FibonacciHeap.World (Internal T)) (value : Internal T)
    (h : o.constantTimeSize = true) :
    (fibonacciInsert o cmp i { w with size := increment o w.size i } value).1 =
      w.push (internalCompare o cmp) i value := by
  rw [fibonacciInsert, FibonacciHeap.World.push, increment, if_pos h]
  dsimp only
  cases w.topElement i <;> rfl

theorem pairingInsert_eq (w : PairingHeap.World (Internal T)) (value : Internal T)
    (h : o.constantTimeSize = true) :
    (pairingInsert o cmp i { w with size := increment o w.size i } value).1 =
      w.push (internalCompare o cmp) i value := by
  rw [pairingInsert, PairingHeap.World.push, increment, if_pos h]

theorem skewInsert_eq (w : SkewHeap.World (Internal T)) (value : Internal T)
    (h : o.constantTimeSize = true) :
    (skewInsert o cmp i { w with size := increment o w.size i } value).1 =
      w.push (internalCompare o cmp) i value := by
  rw [skewInsert, SkewHeap.World.push, increment, if_pos h]

/-- **A push that returns**, of a heap that keeps its size. -/
theorem push_returns (h : o.constantTimeSize = true) :
    (∀ s : Heaps (FibonacciHeap.World (Internal T)), ¬ Throws o allocated (s.counter i) →
      ∃ value n c, value.1 = v ∧ fibonacciPush o cmp allocated i v s =
        (.ok n, ⟨s.world.push (internalCompare o cmp) i value, c⟩)) ∧
    (∀ s : Heaps (PairingHeap.World (Internal T)), ¬ Throws o allocated (s.counter i) →
      ∃ value n c, value.1 = v ∧ pairingPush o cmp allocated i v s =
        (.ok n, ⟨s.world.push (internalCompare o cmp) i value, c⟩)) ∧
    (∀ s : Heaps (SkewHeap.World (Internal T)), ¬ Throws o allocated (s.counter i) →
      ∃ value n c, value.1 = v ∧ skewPush o cmp allocated i v s =
        (.ok n, ⟨s.world.push (internalCompare o cmp) i value, c⟩)) :=
  ⟨fun _ => pushInternal_returns fun w value => fibonacciInsert_eq w value h,
    fun _ => pushInternal_returns fun w value => pairingInsert_eq w value h,
    fun _ => pushInternal_returns fun w value => skewInsert_eq w value h⟩

/-! ### The four containers -/

/-- **A push that throws** leaves a binomial heap as it was.  It leaves a Fibonacci, a pairing and a
skew heap as it was exactly if `size()` is not kept; a size that is kept has grown by one. -/
theorem push_allOrNothing_iff :
    (∀ s, AllOrNothing (fibonacciObserve o i) s (fibonacciPush o cmp allocated i v s) ↔
      o.constantTimeSize = false ∨ ¬ Throws o allocated (s.counter i)) ∧
    (∀ s, AllOrNothing (pairingObserve o i) s (pairingPush o cmp allocated i v s) ↔
      o.constantTimeSize = false ∨ ¬ Throws o allocated (s.counter i)) ∧
    (∀ s, AllOrNothing (skewObserve o i) s (skewPush o cmp allocated i v s) ↔
      o.constantTimeSize = false ∨ ¬ Throws o allocated (s.counter i)) ∧
    (∀ s, AllOrNothing (binomialObserve o i) s (binomialPush o cmp allocated i v s)) :=
  ⟨fun s => pushInternal_iff _ (fibonacci_count_iff s.world),
    fun s => pushInternal_iff _ (observeTree_count_iff s.world.toAccount s.world.children
      (s.world.root i) s.world.size),
    fun s => pushInternal_iff _ (observeTree_count_iff s.world.toAccount s.world.children
      (s.world.root i) s.world.size),
    binomialPush_allOrNothing⟩

/-- **An empty Fibonacci heap after a failed push** is not empty. -/
theorem fibonacciPush_badAlloc :
    let o : Options := ⟨true, false, 2 ^ 64 - 1⟩
    let cmp : ℕ → ℕ → Bool := fun a b => decide (a < b)
    let s : Heaps (FibonacciHeap.World (Internal ℕ)) := ⟨.empty _, fun _ => 0⟩
    let r := fibonacciPush o cmp false 0 5 s
    (fibonacciObserve o 0 s.world).size = 0 ∧ (fibonacciObserve o 0 s.world).empty = true ∧
      (fibonacciObserve o 0 r.2.world).size = 1 ∧ (fibonacciObserve o 0 r.2.world).empty = false ∧
      ¬ AllOrNothing (fibonacciObserve o 0) s r := by
  intro o cmp s r
  refine ⟨rfl, rfl, rfl, rfl, fun h => ?_⟩
  have hsize := congrArg Observed.size (h .badAlloc rfl)
  cases hsize

end SourceLibs.FailedPush
