import SourceLibs.Support.HeapArray
import Mathlib.Data.Multiset.UnionInter

/-!
# Heap — the mutable d-ary heap

`priority_queue_mutable_wrapper<d_ary_heap<T, arity<D>>>`.  `objects` is a list of nodes, each with
a value and the position of its entry in `q_`; a handle is an iterator of that list, modelled by the
address of the node.  `q_` holds handles.  A comparison of entries compares the values they point to,
and `reset_index` writes through the entry to the node.

The number of elements is a natural number: positions do not overflow `size_type`.

* `Linked`: `objects` and `q_` are in bijection, and each node stores the position of its entry.
* `siftup_spec`, `siftdown_spec`, `popQueue_spec`: each private member restores the order.
* `Queue.step_spec`, `dAryHeap_run`: every operation, and every run, keeps the invariant.
-/

namespace SourceLibs.DaryHeap
open List Compare HeapArray

/-- `std::pair<value_type, size_type>`. -/
structure Node (α : Type*) where
  first : α
  second : ℕ

/-- The members of the wrapper; `next` is the address the next node gets. -/
structure Queue (α : Type*) where
  objects : List ℕ
  node : ℕ → Node α
  next : ℕ
  q : List ℕ

namespace Queue

variable {α : Type*} (cmp : α → α → Bool) (D : ℕ)

/-- The value of a handle. -/
def value (s : Queue α) (h : ℕ) : α := (s.node h).first

/-- The index stored for a handle. -/
def index (s : Queue α) (h : ℕ) : ℕ := (s.node h).second

/-- `q_[i]`. -/
def entry (s : Queue α) (i : ℕ) : ℕ := s.q.getD i 0

/-- The value entry `i` is compared by. -/
def key (s : Queue α) (i : ℕ) : α := s.value (s.entry i)

/-- A default constructed heap. -/
def empty (α : Type*) [Inhabited α] : Queue α := ⟨[], fun _ => ⟨default, 0⟩, 0, []⟩

/-! ### `d_ary_heap` -/

/-- The index that a handle looks up. -/
def resetIndex (s : Queue α) (index newIndex : ℕ) : Queue α :=
  { s with node := Function.update s.node (s.entry index) ⟨s.value (s.entry index), newIndex⟩ }

/-- `std::swap(q_[i], q_[j])`. -/
def swapEntries (s : Queue α) (i j : ℕ) : Queue α :=
  { s with q := (s.q.set i (s.entry j)).set j (s.entry i) }

/-- Both stored indices patched, then the entries swapped. -/
def exchange (s : Queue α) (index other : ℕ) : Queue α :=
  ((s.resetIndex index other).resetIndex other index).swapEntries other index

/-- The parent. -/
def parentIndex (index : ℕ) : ℕ := (index - 1) / D

/-- The first child. -/
def firstChildIndex (index : ℕ) : ℕ := index * D + 1

/-- There is a child. -/
def notLeaf (s : Queue α) (index : ℕ) : Bool := decide (firstChildIndex D index < s.q.length)

/-- `top_child_index`: a child that is not less than another. -/
def topChildIndex (s : Queue α) (index : ℕ) : ℕ :=
  let firstIndex := firstChildIndex D index
  let maxElements := s.q.length - firstIndex
  let count := if D < maxElements then D else maxElements
  maxElement cmp s.key (count - 1) (firstIndex + 1) firstIndex

/-- `siftup`; the index bounds the number of rounds. -/
def siftup : ℕ → ℕ → Queue α → Queue α
  | 0, _, s => s
  | fuel + 1, index, s =>
    if index ≠ 0 then
      let parent := parentIndex D index
      if cmp (s.key parent) (s.key index) then siftup fuel parent (s.exchange index parent) else s
    else s

/-- `siftdown`; the number of entries bounds the number of rounds. -/
def siftdown : ℕ → ℕ → Queue α → Queue α
  | 0, _, s => s
  | fuel + 1, index, s =>
    if s.notLeaf D index then
      let maxChildIndex := s.topChildIndex cmp D index
      if !cmp (s.key maxChildIndex) (s.key index) then
        siftdown fuel maxChildIndex (s.exchange index maxChildIndex)
      else s
    else s

/-- `d_ary_heap::push`. -/
def pushQueue (s : Queue α) (h : ℕ) : Queue α :=
  let s := { s with q := s.q ++ [h] }
  let s := s.resetIndex (s.q.length - 1) (s.q.length - 1)
  siftup cmp D (s.q.length - 1) (s.q.length - 1) s

/-- `d_ary_heap::pop`. -/
def popQueue (s : Queue α) : Queue α :=
  let s := s.swapEntries 0 (s.q.length - 1)
  let s := { s with q := s.q.dropLast }
  if s.q = [] then s else siftdown cmp D s.q.length 0 (s.resetIndex 0 0)

/-- `d_ary_heap::update`. -/
def updateQueue (s : Queue α) (index : ℕ) : Queue α :=
  if index = 0 then siftdown cmp D s.q.length index s
  else if cmp (s.key (parentIndex D index)) (s.key index) then siftup cmp D index index s
  else siftdown cmp D s.q.length index s

/-- The loop of `d_ary_heap::erase`: the entry goes to the root whatever the order. -/
def bubble : ℕ → ℕ → Queue α → Queue α
  | 0, _, s => s
  | fuel + 1, index, s =>
    if index ≠ 0 then bubble fuel (parentIndex D index) (s.exchange index (parentIndex D index))
    else s

/-- `d_ary_heap::erase`. -/
def eraseQueue (s : Queue α) (index : ℕ) : Queue α := popQueue cmp D (bubble D index index s)

/-! ### `priority_queue_mutable_wrapper` -/

def top (s : Queue α) : α := s.value (s.entry 0)

/-- `handle.iterator->first = v`. -/
def assign (s : Queue α) (h : ℕ) (v : α) : Queue α :=
  { s with node := Function.update s.node h ⟨v, s.index h⟩ }

/-- `objects.erase(it)`. -/
def eraseObject (s : Queue α) (h : ℕ) : Queue α := { s with objects := s.objects.erase h }

/-- `push`; the handle returned is the address `s.next`. -/
def push (s : Queue α) (v : α) : Queue α :=
  let ret := s.next
  pushQueue cmp D ⟨ret :: s.objects, Function.update s.node ret ⟨v, 0⟩, s.next + 1, s.q⟩ ret

/-- `pop`: the last element goes to the root, and down. -/
def pop (s : Queue α) : Queue α :=
  let qTop := s.entry 0
  (popQueue cmp D s).eraseObject qTop

/-- `increase(handle, v)`. -/
def increase (s : Queue α) (h : ℕ) (v : α) : Queue α :=
  let s := s.assign h v
  siftup cmp D (s.index h) (s.index h) s

/-- `decrease(handle, v)`. -/
def decrease (s : Queue α) (h : ℕ) (v : α) : Queue α :=
  let s := s.assign h v
  siftdown cmp D s.q.length (s.index h) s

/-- `update(handle, v)`. -/
def update (s : Queue α) (h : ℕ) (v : α) : Queue α :=
  if cmp v (s.value h) then s.decrease cmp D h v else s.increase cmp D h v

/-- `update(handle)`, after the value was changed through the handle. -/
def updateHandle (s : Queue α) (h : ℕ) : Queue α := s.updateQueue cmp D (s.index h)

/-- `erase(handle)`. -/
def erase (s : Queue α) (h : ℕ) : Queue α := (s.eraseQueue cmp D (s.index h)).eraseObject h

end Queue

/-! ### Entries after a change -/

namespace Queue

variable {α : Type*} {cmp : α → α → Bool} {D : ℕ} {s : Queue α}

theorem entry_swapEntries {i j : ℕ} (hi : i < s.q.length) (hj : j < s.q.length) (k : ℕ) :
    (s.swapEntries i j).entry k = if k = j then s.entry i else if k = i then s.entry j else s.entry k :=
  HeapArray.getD_swap 0 hi hj k

@[simp] theorem q_resetIndex (i j : ℕ) : (s.resetIndex i j).q = s.q := rfl

@[simp] theorem value_resetIndex (i j : ℕ) : (s.resetIndex i j).value = s.value := by
  funext h
  by_cases he : h = s.entry i
  · subst he
    simp [value, resetIndex]
  · simp [value, resetIndex, he]

theorem index_resetIndex (i j h : ℕ) :
    (s.resetIndex i j).index h = if h = s.entry i then j else s.index h := by
  by_cases he : h = s.entry i
  · subst he
    simp [index, resetIndex]
  · simp [index, resetIndex, he]

@[simp] theorem length_exchange (i j : ℕ) : (s.exchange i j).q.length = s.q.length := by
  simp [exchange, swapEntries, resetIndex]

@[simp] theorem value_exchange (i j : ℕ) : (s.exchange i j).value = s.value := by
  rw [exchange]
  show (Queue.value ((s.resetIndex i j).resetIndex j i)) = s.value
  rw [value_resetIndex, value_resetIndex]

theorem entry_exchange {i j : ℕ} (hi : i < s.q.length) (hj : j < s.q.length) (k : ℕ) :
    (s.exchange i j).entry k = if k = i then s.entry j else if k = j then s.entry i else s.entry k :=
  entry_swapEntries (s := (s.resetIndex i j).resetIndex j i) hj hi k

theorem index_exchange (i j h : ℕ) : (s.exchange i j).index h =
    if h = s.entry j then i else if h = s.entry i then j else s.index h := by
  show ((s.resetIndex i j).resetIndex j i).index h = _
  rw [index_resetIndex, index_resetIndex]
  rfl

theorem key_exchange {i j : ℕ} (hi : i < s.q.length) (hj : j < s.q.length) :
    (s.exchange i j).key = swapKeys s.key j i := by
  funext k
  rw [key, value_exchange, entry_exchange hi hj, swapKeys]
  by_cases hkj : k = j
  · by_cases hki : k = i
    · rw [if_pos hki, if_pos hkj, ← hki, ← hkj]
      rfl
    · rw [if_neg hki, if_pos hkj, if_pos hkj]
      rfl
  · rw [if_neg hkj, if_neg hkj]
    split <;> rfl

end Queue

/-! ### The bijection between `objects` and `q_` -/

/-- `q_` holds the handles `live`, each once, and each stores the position of its entry. -/
structure Linked {α : Type*} (live : List ℕ) (s : Queue α) : Prop where
  entry : ∀ i < s.q.length, s.entry i ∈ live ∧ s.index (s.entry i) = i
  handle : ∀ h ∈ live, s.index h < s.q.length ∧ s.entry (s.index h) = h

/-- Sifting changes the order of the entries and the stored indices only. -/
structure Sifted {α : Type*} (s s' : Queue α) : Prop where
  objects : s'.objects = s.objects
  next : s'.next = s.next
  value : s'.value = s.value
  length : s'.q.length = s.q.length

theorem Sifted.refl {α : Type*} (s : Queue α) : Sifted s s := ⟨rfl, rfl, rfl, rfl⟩

theorem Sifted.trans {α : Type*} {s s' s'' : Queue α} (h : Sifted s s') (h' : Sifted s' s'') :
    Sifted s s'' :=
  ⟨h'.objects.trans h.objects, h'.next.trans h.next, h'.value.trans h.value,
    h'.length.trans h.length⟩

namespace Queue

variable {α : Type*} {cmp : α → α → Bool} {D : ℕ} {s : Queue α} {live : List ℕ}

theorem sifted_exchange (i j : ℕ) : Sifted s (s.exchange i j) :=
  ⟨rfl, rfl, value_exchange i j, length_exchange i j⟩

/-- **An exchange keeps the bijection.** -/
theorem linked_exchange (h : Linked live s) {i j : ℕ} (hi : i < s.q.length) (hj : j < s.q.length) :
    Linked live (s.exchange i j) := by
  have hinj : ∀ a b, a < s.q.length → b < s.q.length → s.entry a = s.entry b → a = b := by
    intro a b ha hb e
    rw [← (h.entry a ha).2, ← (h.entry b hb).2, e]
  constructor
  · intro k hk
    rw [length_exchange] at hk
    rw [entry_exchange hi hj]
    by_cases hki : k = i
    · subst hki
      rw [if_pos rfl, index_exchange, if_pos rfl]
      exact ⟨(h.entry j hj).1, rfl⟩
    · rw [if_neg hki]
      by_cases hkj : k = j
      · subst hkj
        rw [if_pos rfl, index_exchange, if_neg (fun e => hki (hinj _ _ hi hj e).symm), if_pos rfl]
        exact ⟨(h.entry i hi).1, rfl⟩
      · rw [if_neg hkj, index_exchange, if_neg (fun e => hkj (hinj _ _ hk hj e)),
          if_neg (fun e => hki (hinj _ _ hk hi e))]
        exact h.entry k hk
  · intro a ha
    rw [length_exchange, index_exchange]
    by_cases haj : a = s.entry j
    · rw [if_pos haj, entry_exchange hi hj, if_pos rfl]
      exact ⟨hi, haj.symm⟩
    · rw [if_neg haj]
      by_cases hai : a = s.entry i
      · rw [if_pos hai, entry_exchange hi hj]
        refine ⟨hj, ?_⟩
        by_cases hji : j = i
        · subst hji
          exact absurd hai haj
        · rw [if_neg hji, if_pos rfl, hai]
      · obtain ⟨hlt, he⟩ := h.handle a ha
        rw [if_neg hai, entry_exchange hi hj, if_neg (fun e => hai (by rw [← he, e])),
          if_neg (fun e => haj (by rw [← he, e]))]
        exact ⟨hlt, he⟩

/-! ### The private members -/

/-- What sifting restores. -/
def Restored (cmp : α → α → Bool) (D : ℕ) (live : List ℕ) (s s' : Queue α) : Prop :=
  Linked live s' ∧ Ordered cmp D s'.q.length s'.key ∧ Sifted s s'

theorem Restored.of_exchange {i j : ℕ} {s' : Queue α}
    (h : Restored cmp D live (s.exchange i j) s') : Restored cmp D live s s' :=
  ⟨h.1, h.2.1, (sifted_exchange i j).trans h.2.2⟩

theorem parentIndex_eq (i : ℕ) : parentIndex D i = parent D i := rfl

/-- **`siftup`** from a hole whose key is not less than those below it. -/
theorem siftup_spec (hw : StrictWeak cmp) (fuel : ℕ) {i : ℕ} (hfuel : i ≤ fuel)
    (hi : i < s.q.length) (hl : Linked live s) (hole : Hole cmp D s.q.length s.key i)
    (hover : Over cmp D s.q.length s.key i) : Restored cmp D live s (siftup cmp D fuel i s) := by
  induction fuel generalizing i s with
  | zero =>
    obtain rfl : i = 0 := by omega
    exact ⟨hl, hole.ordered hover (fun h => absurd h (by omega)), Sifted.refl s⟩
  | succ fuel ih =>
    rw [siftup]
    by_cases h₀ : i = 0
    · rw [if_neg (not_not.mpr h₀)]
      exact ⟨hl, hole.ordered hover (fun h => absurd h (by omega)), Sifted.refl s⟩
    · have hpos := Nat.pos_of_ne_zero h₀
      have hp : parent D i < i := parent_lt hpos
      have hpl := hp.trans hi
      simp only [if_pos h₀]
      by_cases hlt : cmp (s.key (parentIndex D i)) (s.key i) = true
      · rw [if_pos hlt]
        rw [parentIndex_eq] at hlt ⊢
        have hkey := key_exchange (s := s) hi hpl
        refine (ih (s := s.exchange i (parent D i)) (by omega) (by rwa [length_exchange])
          (linked_exchange hl hi hpl) ?_ ?_).of_exchange
        · rw [hkey, length_exchange]
          exact hole.swap_up hw hpos hi
        · rw [hkey, length_exchange]
          exact hole.over_up hw hpos hlt
      · rw [if_neg hlt]
        exact ⟨hl, hole.ordered hover fun _ => Bool.not_eq_true _ ▸ hlt, Sifted.refl s⟩

/-- **`top_child_index`** is a largest child. -/
theorem topChildIndex_spec (hw : StrictWeak cmp) (hD : 0 < D) {i : ℕ} (h : s.notLeaf D i = true) :
    0 < s.topChildIndex cmp D i ∧ s.topChildIndex cmp D i < s.q.length ∧
      parent D (s.topChildIndex cmp D i) = i ∧
      ∀ c, 0 < c → c < s.q.length → parent D c = i →
        cmp (s.key (s.topChildIndex cmp D i)) (s.key c) = false := by
  have hleaf : i * D + 1 < s.q.length := of_decide_eq_true h
  rw [topChildIndex, firstChildIndex]
  generalize hcount : (if D < s.q.length - (i * D + 1) then D else s.q.length - (i * D + 1)) = count
  have hc : 0 < count ∧ count ≤ D ∧ i * D + 1 + count ≤ s.q.length ∧
      (count = D ∨ i * D + 1 + count = s.q.length) := by
    rw [← hcount]
    split <;> omega
  obtain ⟨hpos, hle, hmax⟩ := maxElement_spec hw s.key (count - 1) (i * D + 1 + 1) (i * D + 1)
  generalize maxElement cmp s.key (count - 1) (i * D + 1 + 1) (i * D + 1) = m at hpos hle hmax ⊢
  have hm : i * D + 1 ≤ m ∧ m < i * D + 1 + count := by omega
  refine ⟨by omega, by omega, (parent_eq_iff hD (by omega)).mpr (by omega), fun c hc₀ hcn hp => ?_⟩
  rw [parent_eq_iff hD hc₀] at hp
  rcases Nat.eq_or_lt_of_le hp.1 with he | hlt
  · rw [← he]
    exact hle
  · exact hmax c hlt (by omega)

/-- **`siftdown`** from a hole whose key is not larger than the one above it. -/
theorem siftdown_spec (hw : StrictWeak cmp) (hD : 0 < D) (fuel : ℕ) {i : ℕ}
    (hfuel : s.q.length ≤ fuel + i) (hi : i < s.q.length) (hl : Linked live s)
    (hole : Hole cmp D s.q.length s.key i) (hunder : Under cmp D s.key i) :
    Restored cmp D live s (siftdown cmp D fuel i s) := by
  induction fuel generalizing i s with
  | zero => omega
  | succ fuel ih =>
    rw [siftdown]
    by_cases hleaf : s.notLeaf D i = true
    · obtain ⟨hm₀, hm, hp, hmax⟩ := topChildIndex_spec hw hD hleaf
      rw [if_pos hleaf]
      simp only
      generalize s.topChildIndex cmp D i = m at hm₀ hm hp hmax ⊢
      have him : i < m := hp ▸ parent_lt hm₀
      by_cases hlt : cmp (s.key m) (s.key i) = false
      · rw [if_pos (by rw [hlt]; rfl)]
        have hkey := key_exchange (s := s) hi hm
        refine (ih (s := s.exchange i m) (by rw [length_exchange]; omega)
          (by rwa [length_exchange]) (linked_exchange hl hi hm) ?_ ?_).of_exchange
        · rw [hkey, length_exchange]
          exact hole.swap_down hm₀ hm hp hmax
        · intro _
          rw [hkey, hp, swapKeys_right, swapKeys_left]
          exact hlt
      · have hlt : cmp (s.key m) (s.key i) = true := by simpa using hlt
        rw [if_neg (by rw [hlt]; decide)]
        exact ⟨hl, hole.ordered (fun c hc hcn hpc => hw.trans_lt hlt (hmax c hc hcn hpc)) hunder,
          Sifted.refl s⟩
    · rw [if_neg hleaf]
      refine ⟨hl, hole.ordered (fun c hc hcn hpc => ?_) hunder, Sifted.refl s⟩
      rw [parent_eq_iff hD hc] at hpc
      exact absurd (decide_eq_true (show firstChildIndex D i < s.q.length by
        rw [firstChildIndex]; omega)) hleaf

/-- **The loop of `erase`** moves the hole to the root. -/
theorem bubble_spec (hw : StrictWeak cmp) (fuel : ℕ) {i : ℕ} (hfuel : i ≤ fuel)
    (hi : i < s.q.length) (hl : Linked live s) (hole : Hole cmp D s.q.length s.key i) :
    Linked live (bubble D fuel i s) ∧ Hole cmp D s.q.length (bubble D fuel i s).key 0 ∧
      Sifted s (bubble D fuel i s) ∧ (bubble D fuel i s).entry 0 = s.entry i := by
  induction fuel generalizing i s with
  | zero =>
    obtain rfl : i = 0 := by omega
    exact ⟨hl, hole, Sifted.refl s, rfl⟩
  | succ fuel ih =>
    rw [bubble]
    by_cases h₀ : i = 0
    · rw [if_neg (not_not.mpr h₀)]
      subst h₀
      exact ⟨hl, hole, Sifted.refl s, rfl⟩
    · have hpos := Nat.pos_of_ne_zero h₀
      have hp : parent D i < i := parent_lt hpos
      have hpl := hp.trans hi
      rw [if_pos h₀, parentIndex_eq]
      obtain ⟨h₁, h₂, h₃, h₄⟩ := ih (s := s.exchange i (parent D i)) (i := parent D i) (by omega)
        (by rwa [length_exchange]) (linked_exchange hl hi hpl) (by
          rw [key_exchange hi hpl, length_exchange]
          exact hole.swap_up hw hpos hi)
      rw [length_exchange] at h₂
      refine ⟨h₁, h₂, (sifted_exchange _ _).trans h₃, h₄.trans ?_⟩
      rw [entry_exchange hi hpl, if_neg hp.ne, if_pos rfl]

theorem entry_inj (h : Linked live s) {a b : ℕ} (ha : a < s.q.length) (hb : b < s.q.length)
    (e : s.entry a = s.entry b) : a = b := by
  rw [← (h.entry a ha).2, ← (h.entry b hb).2, e]

theorem entry_removeFirst {k : ℕ} (hk : k < s.q.length - 1) :
    Queue.entry { s.swapEntries 0 (s.q.length - 1) with
      q := (s.swapEntries 0 (s.q.length - 1)).q.dropLast } k =
        if k = 0 then s.entry (s.q.length - 1) else s.entry k := by
  have hlen : (s.swapEntries 0 (s.q.length - 1)).q.length = s.q.length := by simp [swapEntries]
  rw [entry, getD_eq_getElem?_getD, List.getElem?_dropLast, hlen, if_pos hk,
    ← getD_eq_getElem?_getD, ← entry, entry_swapEntries (by omega) (by omega), if_neg (by omega)]

/-- **`d_ary_heap::pop`**, which needs no order at the root. -/
theorem popQueue_spec (hw : StrictWeak cmp) (hD : 0 < D) (hnodup : live.Nodup) (hl : Linked live s)
    (hpos : 0 < s.q.length) (hole : Hole cmp D s.q.length s.key 0) :
    Linked (live.erase (s.entry 0)) (s.popQueue cmp D) ∧
      Ordered cmp D (s.popQueue cmp D).q.length (s.popQueue cmp D).key ∧
      (s.popQueue cmp D).objects = s.objects ∧ (s.popQueue cmp D).next = s.next ∧
      (s.popQueue cmp D).value = s.value := by
  rw [popQueue]
  simp only
  have hent := fun k hk => entry_removeFirst (s := s) (k := k) hk
  have hlen : (s.swapEntries 0 (s.q.length - 1)).q.dropLast.length = s.q.length - 1 := by
    simp [swapEntries]
  generalize ht : ({ s.swapEntries 0 (s.q.length - 1) with
    q := (s.swapEntries 0 (s.q.length - 1)).q.dropLast } : Queue α) = t at hent
  have htq : (s.swapEntries 0 (s.q.length - 1)).q.dropLast = t.q := by rw [← ht]
  have htv : t.value = s.value ∧ t.index = s.index ∧ t.objects = s.objects ∧ t.next = s.next := by
    rw [← ht]
    exact ⟨rfl, rfl, rfl, rfl⟩
  rw [htq] at hlen ⊢
  by_cases hnil : t.q = []
  · rw [if_pos hnil]
    have hone : s.q.length = 1 := by
      rw [hnil, length_nil] at hlen
      omega
    refine ⟨⟨fun i hi => ?_, fun h hh => ?_⟩, fun j _ hj => ?_, htv.2.2.1, htv.2.2.2, htv.1⟩
    · rw [hnil] at hi
      exact absurd hi (Nat.not_lt_zero i)
    · rw [hnodup.mem_erase_iff] at hh
      obtain ⟨hlt, he⟩ := hl.handle h hh.2
      rw [hone] at hlt
      obtain h₀ : s.index h = 0 := by omega
      rw [h₀] at he
      exact absurd he.symm hh.1
    · rw [hnil] at hj
      exact absurd hj (Nat.not_lt_zero j)
  · rw [if_neg hnil]
    have htpos : 0 < t.q.length := length_pos_of_ne_nil hnil
    have h₀ : t.entry 0 = s.entry (s.q.length - 1) := by rw [hent 0 (by omega), if_pos rfl]
    have hkey : ∀ k < t.q.length, k ≠ 0 → (t.resetIndex 0 0).key k = s.key k := by
      intro k hk hk₀
      rw [key, value_resetIndex, htv.1]
      show s.value (t.entry k) = s.value (s.entry k)
      rw [hent k (by omega), if_neg hk₀]
    have hlinked : Linked (live.erase (s.entry 0)) (t.resetIndex 0 0) := by
      constructor
      · intro k hk
        show t.entry k ∈ _ ∧ _ = _
        have hk : k < t.q.length := hk
        rw [index_resetIndex, h₀]
        show t.entry k ∈ _ ∧ (if t.entry k = s.entry (s.q.length - 1) then 0 else t.index (t.entry k)) = k
        rw [hent k (by omega), hnodup.mem_erase_iff, htv.2.1]
        by_cases hk₀ : k = 0
        · rw [if_pos hk₀, if_pos rfl]
          refine ⟨⟨fun e => ?_, (hl.entry _ (by omega)).1⟩, hk₀.symm⟩
          have := entry_inj hl (by omega) (by omega) e
          omega
        · obtain ⟨hmem, hidx⟩ := hl.entry k (by omega)
          rw [if_neg hk₀, if_neg (fun e => by have := entry_inj hl (by omega) (by omega) e; omega)]
          exact ⟨⟨fun e => hk₀ (entry_inj hl (by omega) (by omega) e), hmem⟩, hidx⟩
      · intro h hh
        rw [hnodup.mem_erase_iff] at hh
        obtain ⟨hlt, he⟩ := hl.handle h hh.2
        show _ < t.q.length ∧ t.entry _ = h
        rw [index_resetIndex, h₀, htv.2.1]
        by_cases hlast : h = s.entry (s.q.length - 1)
        · rw [if_pos hlast, h₀]
          exact ⟨htpos, hlast.symm⟩
        · have hne₀ : s.index h ≠ 0 := fun e => hh.1 (by rw [← he, e])
          have hneL : s.index h ≠ s.q.length - 1 := fun e => hlast (by rw [← he, e])
          rw [if_neg hlast, hent _ (by omega), if_neg hne₀]
          exact ⟨by omega, he⟩
    obtain ⟨h₁, h₂, h₃⟩ := siftdown_spec (s := t.resetIndex 0 0) hw hD t.q.length (i := 0)
      (Nat.le_refl _) htpos hlinked
      ((hole.mono (show t.q.length ≤ s.q.length by omega)).congr hkey)
      (fun h => absurd h (Nat.lt_irrefl 0))
    refine ⟨h₁, h₂, h₃.objects.trans htv.2.2.1, h₃.next.trans htv.2.2.2, h₃.value.trans ?_⟩
    rw [value_resetIndex, htv.1]

end Queue

/-! ### Operations and runs -/

/-- The invariant of the heap. -/
structure Inv {α : Type*} (cmp : α → α → Bool) (D : ℕ) (s : Queue α) : Prop where
  nodup : s.objects.Nodup
  fresh : ∀ h ∈ s.objects, h < s.next
  linked : Linked s.objects s
  ordered : Ordered cmp D s.q.length s.key

/-- The public operations; `updateHandle h v` is `*h = v; update(h);`. -/
inductive Op (α : Type*) where
  | push (v : α)
  | pop
  | update (h : ℕ) (v : α)
  | updateHandle (h : ℕ) (v : α)
  | increase (h : ℕ) (v : α)
  | decrease (h : ℕ) (v : α)
  | erase (h : ℕ)

namespace Queue

variable {α : Type*} (cmp : α → α → Bool) (D : ℕ)

/-- What a caller promises: a live handle, a heap that is not empty, a value in the stated
direction. -/
def Allowed (s : Queue α) : Op α → Prop
  | .push _ => True
  | .pop => s.objects ≠ []
  | .update h _ => h ∈ s.objects
  | .updateHandle h _ => h ∈ s.objects
  | .increase h v => h ∈ s.objects ∧ cmp v (s.value h) = false
  | .decrease h v => h ∈ s.objects ∧ cmp (s.value h) v = false
  | .erase h => h ∈ s.objects

instance decidableAllowed (s : Queue α) : ∀ op, Decidable (s.Allowed cmp op)
  | .push _ => inferInstanceAs (Decidable True)
  | .pop => inferInstanceAs (Decidable (s.objects ≠ []))
  | .update h _ => inferInstanceAs (Decidable (h ∈ s.objects))
  | .updateHandle h _ => inferInstanceAs (Decidable (h ∈ s.objects))
  | .increase h v => inferInstanceAs (Decidable (h ∈ s.objects ∧ cmp v (s.value h) = false))
  | .decrease h v => inferInstanceAs (Decidable (h ∈ s.objects ∧ cmp (s.value h) v = false))
  | .erase h => inferInstanceAs (Decidable (h ∈ s.objects))

/-- One operation. -/
def step (s : Queue α) : Op α → Queue α
  | .push v => s.push cmp D v
  | .pop => s.pop cmp D
  | .update h v => s.update cmp D h v
  | .updateHandle h v => (s.assign h v).updateHandle cmp D h
  | .increase h v => s.increase cmp D h v
  | .decrease h v => s.decrease cmp D h v
  | .erase h => s.erase cmp D h

/-- The values in the heap. -/
def values (s : Queue α) : Multiset α := (s.objects : Multiset ℕ).map s.value

/-- What an operation does to the values. -/
def Effect (s s' : Queue α) : Op α → Prop
  | .push v => s'.values = v ::ₘ s.values
  | .pop => s.values = s.top ::ₘ s'.values
  | .update h v => s.value h ::ₘ s'.values = v ::ₘ s.values
  | .updateHandle h v => s.value h ::ₘ s'.values = v ::ₘ s.values
  | .increase h v => s.value h ::ₘ s'.values = v ::ₘ s.values
  | .decrease h v => s.value h ::ₘ s'.values = v ::ₘ s.values
  | .erase h => s.values = s.value h ::ₘ s'.values

/-- The heaps a program can reach. -/
inductive Reachable [Inhabited α] : Queue α → Prop where
  | empty : Reachable (Queue.empty α)
  | step {s : Queue α} {op : Op α} (h : Reachable s) (ha : s.Allowed cmp op) :
      Reachable (s.step cmp D op)

variable {cmp D} {s : Queue α} {h : ℕ}

theorem key_eq (h : Linked s.objects s) {a : ℕ} (ha : a ∈ s.objects) : s.key (s.index a) = s.value a := by
  rw [key, (h.handle a ha).2]

theorem assign_hole (hw : StrictWeak cmp) (hi : Inv cmp D s) (hh : h ∈ s.objects) (v : α) :
    Linked s.objects (s.assign h v) ∧
      Hole cmp D s.q.length (s.assign h v).key (s.index h) ∧
      (s.assign h v).index h = s.index h ∧ (s.assign h v).key (s.index h) = v ∧
      ∀ k < s.q.length, k ≠ s.index h → (s.assign h v).key k = s.key k := by
  obtain ⟨hlt, he⟩ := hi.linked.handle h hh
  have hindex : (s.assign h v).index = s.index := by
    funext a
    by_cases ha : a = h
    · subst ha
      simp [index, assign]
    · simp [index, assign, ha]
  have hkey : ∀ k < s.q.length, k ≠ s.index h → (s.assign h v).key k = s.key k := by
    intro k hk hne
    have hneq : s.entry k ≠ h := fun e => hne (entry_inj hi.linked hk hlt (by rw [e, he]))
    show (Function.update s.node h ⟨v, s.index h⟩ (s.entry k)).first = _
    rw [Function.update_of_ne hneq]
    rfl
  refine ⟨⟨fun i hi' => ?_, fun a ha => ?_⟩, (hi.ordered.hole hw hlt).congr hkey, ?_, ?_, hkey⟩
  · rw [hindex]
    exact hi.linked.entry i hi'
  · rw [hindex]
    exact hi.linked.handle a ha
  · rw [hindex]
  · show (Function.update s.node h ⟨v, s.index h⟩ (s.entry (s.index h))).first = v
    rw [he, Function.update_self]

theorem values_assign (hi : Inv cmp D s) (hh : h ∈ s.objects) (v : α) :
    s.value h ::ₘ (s.assign h v).values = v ::ₘ s.values := by
  obtain ⟨l, hl⟩ := Multiset.exists_cons_of_mem (show h ∈ (s.objects : Multiset ℕ) from hh)
  have hnot : h ∉ l := by
    have hnd : (s.objects : Multiset ℕ).Nodup := hi.nodup
    rw [hl, Multiset.nodup_cons] at hnd
    exact hnd.1
  have hval : ∀ a, (s.assign h v).value a = if a = h then v else s.value a := by
    intro a
    by_cases ha : a = h
    · subst ha
      simp [value, assign]
    · simp [value, assign, ha]
  have hmap : l.map (s.assign h v).value = l.map s.value :=
    Multiset.map_congr rfl fun a ha => by
      rw [hval, if_neg (by rintro rfl; exact hnot ha)]
  show s.value h ::ₘ (s.objects : Multiset ℕ).map (s.assign h v).value =
    v ::ₘ (s.objects : Multiset ℕ).map s.value
  rw [hl, Multiset.map_cons, Multiset.map_cons, hmap, hval, if_pos rfl, Multiset.cons_swap]

/-- The invariant after sifting a heap with one value assigned. -/
theorem inv_of_restored (hi : Inv cmp D s) {v : α} {s' : Queue α}
    (hr : Restored cmp D s.objects (s.assign h v) s') :
    Inv cmp D s' ∧ (h ∈ s.objects → s.value h ::ₘ s'.values = v ::ₘ s.values) := by
  obtain ⟨hl, ho, hs⟩ := hr
  have hobj : s'.objects = s.objects := hs.objects
  refine ⟨⟨hobj ▸ hi.nodup, fun a ha => ?_, hobj ▸ hl, ho⟩, fun hh => ?_⟩
  · rw [hs.next]
    exact hi.fresh a (hobj ▸ ha)
  · rw [← values_assign hi hh v, values, hobj, hs.value]
    rfl

theorem increase_spec (hw : StrictWeak cmp) (hi : Inv cmp D s) (hh : h ∈ s.objects) {v : α}
    (hv : cmp v (s.value h) = false) :
    Restored cmp D s.objects (s.assign h v) (s.increase cmp D h v) := by
  obtain ⟨hl, hole, hidx, hkv, hkey⟩ := assign_hole hw hi hh v
  obtain ⟨hlt, -⟩ := hi.linked.handle h hh
  rw [increase, hidx]
  refine siftup_spec hw _ (Nat.le_refl _) hlt hl hole fun c hc hcn hp => ?_
  have hci : s.index h < c := hp ▸ parent_lt hc
  rw [hkv, hkey c hcn hci.ne']
  have hedge := hi.ordered c hc hcn
  rw [hp, key_eq hi.linked hh] at hedge
  exact hw.trans hv hedge

theorem decrease_spec (hw : StrictWeak cmp) (hD : 0 < D) (hi : Inv cmp D s) (hh : h ∈ s.objects)
    {v : α} (hv : cmp (s.value h) v = false) :
    Restored cmp D s.objects (s.assign h v) (s.decrease cmp D h v) := by
  obtain ⟨hl, hole, hidx, hkv, hkey⟩ := assign_hole hw hi hh v
  obtain ⟨hlt, -⟩ := hi.linked.handle h hh
  rw [decrease, hidx]
  refine siftdown_spec hw hD _ (Nat.le_add_right _ _) hlt hl hole fun h₀ => ?_
  have hp : parent D (s.index h) < s.index h := parent_lt h₀
  rw [hkv, hkey _ (hp.trans hlt) hp.ne]
  have hedge := hi.ordered _ h₀ hlt
  rw [key_eq hi.linked hh] at hedge
  exact hw.trans hedge hv

theorem update_spec (hw : StrictWeak cmp) (hD : 0 < D) (hi : Inv cmp D s) (hh : h ∈ s.objects)
    (v : α) :
    Restored cmp D s.objects (s.assign h v) (s.update cmp D h v) := by
  rw [Queue.update]
  cases hc : cmp v (s.value h) with
  | true => exact decrease_spec hw hD hi hh (hw.asymm hc)
  | false => exact increase_spec hw hi hh hc

theorem updateHandle_spec (hw : StrictWeak cmp) (hD : 0 < D) (hi : Inv cmp D s)
    (hh : h ∈ s.objects) (v : α) :
    Restored cmp D s.objects (s.assign h v) ((s.assign h v).updateHandle cmp D h) := by
  obtain ⟨hl, hole, hidx, -, -⟩ := assign_hole hw hi hh v
  obtain ⟨hlt, -⟩ := hi.linked.handle h hh
  rw [updateHandle, updateQueue, hidx]
  by_cases h₀ : s.index h = 0
  · rw [if_pos h₀]
    exact siftdown_spec hw hD _ (Nat.le_add_right _ _) hlt hl hole
      (fun hpos => absurd hpos (by omega))
  · rw [if_neg h₀]
    cases hc : cmp ((s.assign h v).key (parentIndex D (s.index h))) ((s.assign h v).key (s.index h)) with
    | true =>
      exact siftup_spec hw _ (Nat.le_refl _) hlt hl hole
        (hole.over_of_lt hw (Nat.pos_of_ne_zero h₀) hc)
    | false =>
      exact siftdown_spec hw hD _ (Nat.le_add_right _ _) hlt hl hole fun _ => hc

/-- The invariant reads the nodes of the live handles only. -/
theorem linked_congr {live : List ℕ} {s' : Queue α} (h : Linked live s) (hq : s'.q = s.q)
    (hnode : ∀ a ∈ live, s'.node a = s.node a) : Linked live s' := by
  have hent : s'.entry = s.entry := by
    funext i
    rw [entry, entry, hq]
  have hidx : ∀ a ∈ live, s'.index a = s.index a := fun a ha => by rw [index, index, hnode a ha]
  constructor
  · intro i hi
    obtain ⟨hmem, he⟩ := h.entry i (hq ▸ hi)
    rw [hent, hidx _ hmem]
    exact ⟨hmem, he⟩
  · intro a ha
    rw [hidx a ha, hent, hq]
    exact h.handle a ha

theorem key_congr {live : List ℕ} {s' : Queue α} (h : Linked live s) (hq : s'.q = s.q)
    (hnode : ∀ a ∈ live, s'.node a = s.node a) : ∀ i < s.q.length, s'.key i = s.key i := by
  intro i hi
  have hent : s'.entry i = s.entry i := by rw [entry, entry, hq]
  rw [key, key, hent, value, value, hnode _ (h.entry i hi).1]

/-- **`d_ary_heap::push`** puts the new entry in a hole at the end. -/
theorem pushQueue_spec (hw : StrictWeak cmp) {live : List ℕ} (hl : Linked live s)
    (ho : Ordered cmp D s.q.length s.key) (hh : h ∉ live) :
    Linked (h :: live) (s.pushQueue cmp D h) ∧
      Ordered cmp D (s.pushQueue cmp D h).q.length (s.pushQueue cmp D h).key ∧
      Sifted { s with q := s.q ++ [h] } (s.pushQueue cmp D h) := by
  have hold : ∀ a ∈ live, a ≠ h := fun a ha e => hh (e ▸ ha)
  rw [pushQueue]
  simp only [q_resetIndex, length_append, length_singleton, Nat.add_sub_cancel]
  generalize ht : ({ s with q := s.q ++ [h] } : Queue α) = t
  have htq : t.q.length = s.q.length + 1 := by rw [← ht]; simp
  have hent : ∀ k < s.q.length, t.entry k = s.entry k := by
    intro k hk
    rw [← ht, entry, entry, getD_eq_getElem?_getD, getD_eq_getElem?_getD]
    simp only
    rw [List.getElem?_append_left hk]
  have hlast : t.entry s.q.length = h := by
    rw [← ht, entry, getD_eq_getElem?_getD]
    simp
  have hnode : t.value = s.value ∧ t.index = s.index := by
    rw [← ht]
    exact ⟨rfl, rfl⟩
  set u := t.resetIndex s.q.length s.q.length with hu
  have huq : u.q.length = s.q.length + 1 := htq
  have hindex : ∀ a, u.index a = if a = h then s.q.length else s.index a := by
    intro a
    rw [hu, index_resetIndex, hlast, hnode.2]
  have hlinked : Linked (h :: live) u := by
    constructor
    · intro k hk
      rw [huq] at hk
      show t.entry k ∈ _ ∧ u.index (t.entry k) = k
      rcases Nat.lt_or_ge k s.q.length with hlt | hge
      · obtain ⟨hmem, hidx⟩ := hl.entry k hlt
        rw [hent k hlt, hindex, if_neg (hold _ hmem)]
        exact ⟨mem_cons_of_mem _ hmem, hidx⟩
      · obtain rfl : k = s.q.length := by omega
        rw [hlast, hindex, if_pos rfl]
        exact ⟨mem_cons_self, rfl⟩
    · intro a ha
      rw [huq]
      show _ ∧ t.entry (u.index a) = a
      rcases mem_cons.mp ha with rfl | ha
      · rw [hindex, if_pos rfl]
        exact ⟨Nat.lt_succ_self _, hlast⟩
      · obtain ⟨hlt, he⟩ := hl.handle a ha
        rw [hindex, if_neg (hold a ha), hent _ hlt]
        exact ⟨by omega, he⟩
  have hkey : ∀ k < s.q.length, u.key k = s.key k := by
    intro k hk
    rw [hu, key, value_resetIndex, hnode.1]
    show s.value (t.entry k) = _
    rw [hent k hk]
    rfl
  have hole : Hole cmp D u.q.length u.key s.q.length := by
    refine ⟨fun j hj₀ hj hjn _ => ?_, fun _ c hc hcn hp => ?_⟩
    · have hj' : j < s.q.length := by omega
      rw [hkey j hj', hkey _ ((parent_lt hj₀).trans hj')]
      exact ho j hj₀ hj'
    · have := hp ▸ parent_lt (D := D) hc
      omega
  obtain ⟨h₁, h₂, h₃⟩ := siftup_spec (s := u) hw s.q.length (Nat.le_refl _) (by omega) hlinked hole
    (fun c hc hcn hp => by
      have := hp ▸ parent_lt (D := D) hc
      omega)
  exact ⟨h₁, h₂, h₃.objects, h₃.next, h₃.value.trans (by rw [hu, value_resetIndex]), h₃.length⟩

theorem push_spec (hw : StrictWeak cmp) (hi : Inv cmp D s) (v : α) :
    Inv cmp D (s.push cmp D v) ∧ (s.push cmp D v).values = v ::ₘ s.values := by
  have hold : ∀ a ∈ s.objects, a ≠ s.next := fun a ha => (hi.fresh a ha).ne
  have hnew : s.next ∉ s.objects := fun hmem => hold _ hmem rfl
  rw [push]
  generalize ht : (⟨s.next :: s.objects, Function.update s.node s.next ⟨v, 0⟩, s.next + 1,
    s.q⟩ : Queue α) = t
  have htq : t.q = s.q := by rw [← ht]
  have hnode : ∀ a ∈ s.objects, t.node a = s.node a := by
    intro a ha
    rw [← ht]
    exact Function.update_of_ne (hold a ha) _ _
  have hkey := key_congr hi.linked htq hnode
  obtain ⟨h₁, h₂, h₃⟩ := pushQueue_spec hw (linked_congr hi.linked htq hnode)
    (fun j hj₀ hj => by
      rw [htq] at hj
      rw [hkey j hj, hkey _ ((parent_lt hj₀).trans hj)]
      exact hi.ordered j hj₀ hj) hnew
  have hobj : (t.pushQueue cmp D s.next).objects = s.next :: s.objects := by
    rw [h₃.objects, ← ht]
  have hval : (t.pushQueue cmp D s.next).value = t.value := h₃.value
  refine ⟨⟨?_, fun a ha => ?_, by rwa [hobj], h₂⟩, ?_⟩
  · rw [hobj, nodup_cons]
    exact ⟨hnew, hi.nodup⟩
  · rw [h₃.next, ← ht]
    rcases mem_cons.mp (hobj ▸ ha) with rfl | ha
    · exact Nat.lt_succ_self _
    · exact (hi.fresh a ha).trans (Nat.lt_succ_self _)
  · have hself : t.value s.next = v := by
      rw [← ht]
      simp [value]
    rw [values, hobj, hval, ← Multiset.cons_coe, Multiset.map_cons, hself]
    congr 1
    exact Multiset.map_congr rfl fun a ha => by rw [value, value, hnode a ha]

/-- The heap after an entry was removed and its object erased. -/
theorem inv_of_popped (hi : Inv cmp D s) (hh : h ∈ s.objects) {s' : Queue α}
    (hl : Linked (s.objects.erase h) s') (ho : Ordered cmp D s'.q.length s'.key)
    (hobj : s'.objects = s.objects) (hnext : s'.next = s.next) (hval : s'.value = s.value) :
    Inv cmp D (s'.eraseObject h) ∧ s.values = s.value h ::ₘ (s'.eraseObject h).values := by
  refine ⟨⟨?_, fun a ha => ?_, ?_, ho⟩, ?_⟩
  · show (s'.objects.erase h).Nodup
    rw [hobj]
    exact hi.nodup.erase h
  · show a < s'.next
    rw [hnext]
    exact hi.fresh a (hobj ▸ mem_of_mem_erase ha)
  · show Linked (s'.objects.erase h) (s'.eraseObject h)
    rw [hobj]
    exact ⟨hl.entry, hl.handle⟩
  · show _ = s.value h ::ₘ (s'.objects.erase h : Multiset ℕ).map s'.value
    rw [hobj, hval, ← Multiset.coe_erase, ← Multiset.map_cons, Multiset.cons_erase hh]
    rfl

theorem pop_spec (hw : StrictWeak cmp) (hD : 0 < D) (hi : Inv cmp D s) (hne : s.objects ≠ []) :
    Inv cmp D (s.pop cmp D) ∧ s.values = s.top ::ₘ (s.pop cmp D).values := by
  obtain ⟨a, l, hal⟩ := exists_cons_of_ne_nil hne
  have hpos : 0 < s.q.length :=
    Nat.zero_lt_of_lt (hi.linked.handle a (by rw [hal]; exact mem_cons_self)).1
  obtain ⟨hl, ho, hobj, hnext, hval⟩ :=
    popQueue_spec hw hD hi.nodup hi.linked hpos (hi.ordered.hole hw hpos)
  exact inv_of_popped hi (hi.linked.entry 0 hpos).1 hl ho hobj hnext hval

theorem erase_spec (hw : StrictWeak cmp) (hD : 0 < D) (hi : Inv cmp D s) (hh : h ∈ s.objects) :
    Inv cmp D (s.erase cmp D h) ∧ s.values = s.value h ::ₘ (s.erase cmp D h).values := by
  obtain ⟨hlt, he⟩ := hi.linked.handle h hh
  obtain ⟨hbl, hole, hs, hent⟩ := bubble_spec hw (s.index h) (Nat.le_refl _) hlt hi.linked
    (hi.ordered.hole hw hlt)
  rw [← hs.length] at hole
  obtain ⟨hl, ho, hobj, hnext, hval⟩ := popQueue_spec hw hD hi.nodup hbl
    (by rw [hs.length]; omega) hole
  rw [hent, he] at hl
  exact inv_of_popped hi hh hl ho (hobj.trans hs.objects) (hnext.trans hs.next) (hval.trans hs.value)

/-- **One operation** keeps the invariant and changes the values as named. -/
theorem step_spec (hw : StrictWeak cmp) (hD : 0 < D) (hi : Inv cmp D s) {op : Op α}
    (ha : s.Allowed cmp op) : Inv cmp D (s.step cmp D op) ∧ s.Effect (s.step cmp D op) op := by
  cases op with
  | push v => exact push_spec hw hi v
  | pop => exact pop_spec hw hD hi ha
  | update h v => exact (inv_of_restored hi (update_spec hw hD hi ha v)).imp id fun e => e ha
  | updateHandle h v => exact (inv_of_restored hi (updateHandle_spec hw hD hi ha v)).imp id fun e => e ha
  | increase h v => exact (inv_of_restored hi (increase_spec hw hi ha.1 ha.2)).imp id fun e => e ha.1
  | decrease h v => exact (inv_of_restored hi (decrease_spec hw hD hi ha.1 ha.2)).imp id fun e => e ha.1
  | erase h => exact erase_spec hw hD hi ha

theorem inv_empty [Inhabited α] : Inv cmp D (Queue.empty α) where
  nodup := nodup_nil
  fresh := fun _ ha => absurd ha not_mem_nil
  linked := ⟨fun _ hi => absurd hi (Nat.not_lt_zero _), fun _ ha => absurd ha not_mem_nil⟩
  ordered := fun _ _ hj => absurd hj (Nat.not_lt_zero _)

theorem Reachable.inv [Inhabited α] (hw : StrictWeak cmp) (hD : 0 < D) (h : Reachable cmp D s) :
    Inv cmp D s := by
  induction h with
  | empty => exact inv_empty
  | step _ ha ih => exact (step_spec hw hD ih ha).1

end Queue

end SourceLibs.DaryHeap
