import SourceLibs.Heap.Comparison
import SourceLibs.Heap.DaryHeap
import Mathlib.Data.List.GetD

/-!
# Heap — copies of the mutable d-ary heap

`priority_queue_mutable_wrapper`, its copy constructor and copy assignment.  The heaps of a program
share one store of nodes: `h.seen g` is the heap `h` in the store `g` leaves.  Both copies start from
the entries of the source and push an entry for each own object; only the assignment clears the
entries of the source first.

* `step_untouched`: an operation writes to own objects and to fresh nodes only.
* `assignObjects_spec`: the objects of the source, node by node, in nodes the source does not have.
* `copyAssign_copyOf`: the assignment gives an independent equal heap.
* `copy_independent_iff`: the copy constructor does when the source is empty, and then only.
-/

namespace SourceLibs.DaryHeap
open List Function Compare HeapArray Comparison

namespace Queue

variable {α : Type*} (cmp : α → α → Bool) (D : ℕ)

/-! ### The copies -/

/-- Nodes constructed at the end of `objects`, one for each node of a list. -/
def insertObjects : List ℕ → Queue α → Queue α
  | [], s => s
  | b :: rest, s =>
    insertObjects rest ⟨s.objects ++ [s.next], Function.update s.node s.next (s.node b),
      s.next + 1, s.q⟩

/-- `std::list::operator=`: the first list is what is left of the own nodes, which are assigned to
as long as both lists have one. -/
def assignObjects : List ℕ → List ℕ → Queue α → Queue α
  | a :: own, b :: rest, s =>
    assignObjects own rest { s with
      objects := s.objects ++ [a], node := Function.update s.node a (s.node b) }
  | [], rest, s => insertObjects rest s
  | _ :: _, [], s => s

/-- The loop over `objects`, an entry pushed for each. -/
def pushObjects : List ℕ → Queue α → Queue α
  | [], s => s
  | it :: rest, s => pushObjects rest (s.pushQueue cmp D it)

/-- `priority_queue_mutable_wrapper(rhs)`. -/
def copyConstruct (rhs : Queue α) : Queue α :=
  let s := insertObjects rhs.objects { rhs with objects := [] }
  pushObjects cmp D s.objects s

/-- `operator=(rhs)`, the two heaps in the store of `lhs`. -/
def copyAssign (lhs rhs : Queue α) : Queue α :=
  let s := { lhs with q := rhs.q }
  let s := assignObjects lhs.objects rhs.objects { s with objects := [] }
  let s := { s with q := [] }
  pushObjects cmp D s.objects s

/-- The heap in the store that another one leaves. -/
def seen (h g : Queue α) : Queue α := { h with node := g.node, next := g.next }

/-- What repeated `top()` and `pop()` read. -/
def drain : ℕ → Queue α → List α
  | 0, _ => []
  | n + 1, s => s.top :: drain n (s.pop cmp D)

/-- The heaps that operations on one of them lead to. -/
inductive Runs : Queue α → Queue α → Prop where
  | refl (g : Queue α) : Runs g g
  | step {g g' : Queue α} {op : Op α} (h : Runs g g') (ha : g'.Allowed cmp op) :
      Runs g (g'.step cmp D op)

/-- `g` is an equal heap of its own: one entry for each own object and no other, the same values
popped, and no run of it touches a node of `h`. -/
structure CopyOf (h g : Queue α) : Prop where
  size : g.q.length = h.q.length
  own : g.q.Perm g.objects
  values : (drain cmp D g.q.length g).Perm (drain cmp D h.q.length h)
  sequence : equivalent cmp (drain cmp D g.q.length g) (drain cmp D h.q.length h) = true
  unchanged : ∀ g', Runs cmp D g g' → ∀ a ∈ h.objects, a ∉ g'.objects ∧ g'.node a = h.node a

/-- Two heaps of one program, after any calls on them in any order. -/
inductive Together [Inhabited α] : Queue α → Queue α → Prop where
  | empty : Together (Queue.empty α) (Queue.empty α)
  | step {g h : Queue α} {op : Op α} (t : Together g h) (ha : g.Allowed cmp op) :
      Together (g.step cmp D op) (h.seen (g.step cmp D op))
  | assign {g h : Queue α} (t : Together g h) :
      Together (g.copyAssign cmp D h) (h.seen (g.copyAssign cmp D h))
  | swap {g h : Queue α} (t : Together g h) : Together h g

end Queue

/-! ### What an operation writes -/

/-- The entries are among the nodes `live`, and no other node has changed since `s`. -/
structure Untouched {α : Type*} (live : List ℕ) (s s' : Queue α) : Prop where
  within : ∀ i < s'.q.length, s'.entry i ∈ live
  node : ∀ a, a ∉ live → s'.node a = s.node a

/-- Nodes are written that are the heap's own or were not there before. -/
structure Local {α : Type*} (s s' : Queue α) : Prop where
  node : ∀ a, a ∉ s.objects → a < s.next → s'.node a = s.node a
  objects : ∀ a ∈ s'.objects, a ∈ s.objects ∨ s.next ≤ a
  next : s.next ≤ s'.next

theorem Local.refl {α : Type*} (s : Queue α) : Local s s :=
  ⟨fun _ _ _ => rfl, fun _ ha => Or.inl ha, Nat.le_refl _⟩

theorem Local.not_mem {α : Type*} {s s' : Queue α} (h : Local s s') {a : ℕ} (ha : a ∉ s.objects)
    (hold : a < s.next) : a ∉ s'.objects := by
  intro hm
  rcases h.objects a hm with hm | hge
  · exact ha hm
  · exact absurd hold (Nat.not_lt.mpr hge)

theorem Local.trans {α : Type*} {s s' s'' : Queue α} (h : Local s s') (h' : Local s' s'') :
    Local s s'' := by
  refine ⟨fun a ha hold => ?_, fun a ha => ?_, h.next.trans h'.next⟩
  · rw [h'.node a (h.not_mem ha hold) (hold.trans_le h.next), h.node a ha hold]
  · rcases h'.objects a ha with hm | hge
    · exact h.objects a hm
    · exact Or.inr (h.next.trans hge)

namespace Queue

variable {α : Type*} {cmp : α → α → Bool} {D : ℕ} {s s' : Queue α} {live : List ℕ}

theorem untouched_resetIndex (h : Untouched live s s') {i : ℕ} (hi : i < s'.q.length) (j : ℕ) :
    Untouched live s (s'.resetIndex i j) := by
  refine ⟨h.within, fun a ha => ?_⟩
  have hne : a ≠ s'.entry i := fun e => ha (e ▸ h.within i hi)
  exact (update_of_ne hne _ _).trans (h.node a ha)

theorem untouched_swapEntries (h : Untouched live s s') {i j : ℕ} (hi : i < s'.q.length)
    (hj : j < s'.q.length) : Untouched live s (s'.swapEntries i j) := by
  refine ⟨fun k hk => ?_, h.node⟩
  have hk : k < s'.q.length := by simpa [swapEntries] using hk
  rw [entry_swapEntries hi hj]
  split_ifs
  · exact h.within i hi
  · exact h.within j hj
  · exact h.within k hk

theorem untouched_exchange (h : Untouched live s s') {i j : ℕ} (hi : i < s'.q.length)
    (hj : j < s'.q.length) : Untouched live s (s'.exchange i j) :=
  untouched_swapEntries (untouched_resetIndex (untouched_resetIndex h hi j) hj i) hj hi

theorem siftup_untouched (fuel : ℕ) {i : ℕ} (h : Untouched live s s') (hi : i < s'.q.length) :
    Untouched live s (siftup cmp D fuel i s') := by
  induction fuel generalizing i s' with
  | zero => exact h
  | succ fuel ih =>
    rw [siftup]
    simp only
    split_ifs with h₀
    · have hp : parentIndex D i < i := parent_lt (Nat.pos_of_ne_zero h₀)
      exact ih (untouched_exchange h hi (hp.trans hi)) (by rw [length_exchange]; omega)
    · exact h
    · exact h

theorem siftdown_untouched (hw : StrictWeak cmp) (hD : 0 < D) (fuel : ℕ) {i : ℕ}
    (h : Untouched live s s') (hi : i < s'.q.length) :
    Untouched live s (siftdown cmp D fuel i s') := by
  induction fuel generalizing i s' with
  | zero => exact h
  | succ fuel ih =>
    rw [siftdown]
    simp only
    split_ifs with hleaf
    · obtain ⟨-, hm, -, -⟩ := topChildIndex_spec hw hD hleaf
      exact ih (untouched_exchange h hi hm) (by rwa [length_exchange])
    · exact h
    · exact h

theorem bubble_untouched (fuel : ℕ) {i : ℕ} (h : Untouched live s s') (hi : i < s'.q.length) :
    Untouched live s (bubble D fuel i s') := by
  induction fuel generalizing i s' with
  | zero => exact h
  | succ fuel ih =>
    rw [bubble]
    split_ifs with h₀
    · have hp : parentIndex D i < i := parent_lt (Nat.pos_of_ne_zero h₀)
      exact ih (untouched_exchange h hi (hp.trans hi)) (by rw [length_exchange]; omega)
    · exact h

theorem popQueue_untouched (hw : StrictWeak cmp) (hD : 0 < D) (h : Untouched live s s')
    (hpos : 0 < s'.q.length) : Untouched live s (s'.popQueue cmp D) := by
  rw [popQueue]
  simp only
  have hlen : (s'.swapEntries 0 (s'.q.length - 1)).q.dropLast.length = s'.q.length - 1 := by
    simp [swapEntries]
  have hshort : Untouched live s { s'.swapEntries 0 (s'.q.length - 1) with
      q := (s'.swapEntries 0 (s'.q.length - 1)).q.dropLast } := by
    refine ⟨fun k hk => ?_, h.node⟩
    rw [hlen] at hk
    rw [entry_removeFirst hk]
    split_ifs
    · exact h.within _ (by omega)
    · exact h.within _ (by omega)
  split_ifs with hnil
  · exact hshort
  · have hpos' := length_pos_of_ne_nil hnil
    exact siftdown_untouched hw hD _ (untouched_resetIndex hshort hpos' 0) hpos'

theorem pushQueue_untouched (h : Untouched live s s') {a : ℕ} (ha : a ∈ live) :
    Untouched live s (s'.pushQueue cmp D a) := by
  rw [pushQueue]
  simp only [q_resetIndex, length_append, length_singleton, Nat.add_sub_cancel]
  have hlast : s'.q.length < (s'.q ++ [a]).length := by simp
  have hlonger : Untouched live s { s' with q := s'.q ++ [a] } := by
    refine ⟨fun k hk => ?_, h.node⟩
    rw [entry, getD_eq_getElem _ _ hk]
    have hk : k < (s'.q ++ [a]).length := hk
    rcases mem_append.mp (getElem_mem hk) with hm | hm
    · obtain ⟨i, hi, he⟩ := getElem_of_mem hm
      have hin := h.within i hi
      rw [entry, getD_eq_getElem _ _ hi, he] at hin
      exact hin
    · show (s'.q ++ [a])[k] ∈ live
      rw [mem_singleton.mp hm]
      exact ha
  exact siftup_untouched _ (untouched_resetIndex hlonger hlast _) hlast

theorem assign_untouched (hl : Linked live s) {a : ℕ} (ha : a ∈ live) (v : α) :
    Untouched live s (s.assign a v) :=
  ⟨fun i hi => (hl.entry i hi).1, fun _ hb =>
    update_of_ne (fun e => hb (by rw [e]; exact ha)) _ _⟩

theorem index_assign (a b : ℕ) (v : α) : (s.assign a v).index b = s.index b := by
  by_cases hb : b = a
  · subst hb
    simp [index, assign]
  · simp [index, assign, hb]

theorem local_of_untouched (h : Untouched s.objects s s') (hobj : ∀ a ∈ s'.objects, a ∈ s.objects)
    (hnext : s'.next = s.next) : Local s s' :=
  ⟨fun a ha _ => h.node a ha, fun a ha => Or.inl (hobj a ha), hnext.ge⟩

theorem push_local (hi : Inv cmp D s) (hw : StrictWeak cmp) (v : α) :
    Local s (s.push cmp D v) := by
  have hnew : s.next ∉ s.objects := fun hm => absurd (hi.fresh _ hm) (Nat.lt_irrefl _)
  rw [push]
  generalize ht : (⟨s.next :: s.objects, Function.update s.node s.next ⟨v, 0⟩, s.next + 1,
    s.q⟩ : Queue α) = t
  have htq : t.q = s.q := by rw [← ht]
  have hnode : ∀ a, a ≠ s.next → t.node a = s.node a := by
    intro a ha
    rw [← ht]
    exact update_of_ne ha _ _
  have hold : ∀ a ∈ s.objects, t.node a = s.node a :=
    fun a ha => hnode a (fun e => hnew (e ▸ ha))
  have hl := linked_congr hi.linked htq hold
  have hkey := key_congr hi.linked htq hold
  obtain ⟨-, -, hs⟩ := pushQueue_spec (D := D) hw hl
    (fun j hj₀ hj => by
      rw [htq] at hj
      rw [hkey j hj, hkey _ ((parent_lt hj₀).trans hj)]
      exact hi.ordered j hj₀ hj) hnew
  have hu : Untouched (s.next :: s.objects) t (t.pushQueue cmp D s.next) :=
    pushQueue_untouched ⟨fun i hi => mem_cons_of_mem _ (hl.entry i hi).1, fun _ _ => rfl⟩
      mem_cons_self
  refine ⟨fun a ha hlt => ?_, fun a ha => ?_, ?_⟩
  · rw [hu.node a (by simp [ha, hlt.ne]), hnode a hlt.ne]
  · have ha : a ∈ (t.pushQueue cmp D s.next).objects := ha
    rw [hs.objects, ← ht] at ha
    rcases mem_cons.mp ha with rfl | ha
    · exact Or.inr (Nat.le_refl _)
    · exact Or.inl ha
  · show s.next ≤ (t.pushQueue cmp D s.next).next
    rw [hs.next, ← ht]
    exact Nat.le_succ _

theorem increase_local (hw : StrictWeak cmp) (hi : Inv cmp D s) {h : ℕ} (hh : h ∈ s.objects) {v : α}
    (hv : cmp v (s.value h) = false) : Local s (s.increase cmp D h v) := by
  obtain ⟨-, -, hs⟩ := increase_spec hw hi hh hv
  refine local_of_untouched ?_ (fun a ha => by rwa [hs.objects] at ha) hs.next
  rw [increase]
  exact siftup_untouched _ (assign_untouched hi.linked hh v) (by
    rw [index_assign]
    exact (hi.linked.handle h hh).1)

theorem decrease_local (hw : StrictWeak cmp) (hD : 0 < D) (hi : Inv cmp D s) {h : ℕ}
    (hh : h ∈ s.objects) {v : α} (hv : cmp (s.value h) v = false) :
    Local s (s.decrease cmp D h v) := by
  obtain ⟨-, -, hs⟩ := decrease_spec hw hD hi hh hv
  refine local_of_untouched ?_ (fun a ha => by rwa [hs.objects] at ha) hs.next
  rw [decrease]
  exact siftdown_untouched hw hD _ (assign_untouched hi.linked hh v) (by
    rw [index_assign]
    exact (hi.linked.handle h hh).1)

theorem updateHandle_local (hw : StrictWeak cmp) (hD : 0 < D) (hi : Inv cmp D s) {h : ℕ}
    (hh : h ∈ s.objects) (v : α) : Local s ((s.assign h v).updateHandle cmp D h) := by
  obtain ⟨-, -, hs⟩ := updateHandle_spec hw hD hi hh v
  have hidx : (s.assign h v).index h < s.q.length := by
    rw [index_assign]
    exact (hi.linked.handle h hh).1
  have hu := assign_untouched hi.linked hh v
  refine local_of_untouched ?_ (fun a ha => by rwa [hs.objects] at ha) hs.next
  rw [updateHandle, updateQueue]
  split_ifs
  · exact siftdown_untouched hw hD _ hu hidx
  · exact siftup_untouched _ hu hidx
  · exact siftdown_untouched hw hD _ hu hidx

theorem eraseObject_local {h : ℕ} (hl : Local s s') : Local s (s'.eraseObject h) :=
  ⟨hl.node, fun a ha => hl.objects a (mem_of_mem_erase ha), hl.next⟩

theorem pop_local (hw : StrictWeak cmp) (hD : 0 < D) (hi : Inv cmp D s) (hne : s.objects ≠ []) :
    Local s (s.pop cmp D) := by
  obtain ⟨a, l, hal⟩ := exists_cons_of_ne_nil hne
  have hpos : 0 < s.q.length :=
    Nat.zero_lt_of_lt (hi.linked.handle a (by rw [hal]; exact mem_cons_self)).1
  obtain ⟨-, -, hobj, hnext, -⟩ :=
    popQueue_spec hw hD hi.nodup hi.linked hpos (hi.ordered.hole hw hpos)
  refine eraseObject_local (local_of_untouched ?_ (fun a ha => by rwa [hobj] at ha) hnext)
  exact popQueue_untouched hw hD ⟨fun i h => (hi.linked.entry i h).1, fun _ _ => rfl⟩ hpos

theorem erase_local (hw : StrictWeak cmp) (hD : 0 < D) (hi : Inv cmp D s) {h : ℕ}
    (hh : h ∈ s.objects) : Local s (s.erase cmp D h) := by
  obtain ⟨hlt, -⟩ := hi.linked.handle h hh
  obtain ⟨hbl, hole, hs, -⟩ := bubble_spec hw (s.index h) (Nat.le_refl _) hlt hi.linked
    (hi.ordered.hole hw hlt)
  have hu : Untouched s.objects s (bubble D (s.index h) (s.index h) s) :=
    bubble_untouched _ ⟨fun i h => (hi.linked.entry i h).1, fun _ _ => rfl⟩ hlt
  rw [← hs.length] at hole hlt
  have hpos := Nat.zero_lt_of_lt hlt
  obtain ⟨-, -, hobj, hnext, -⟩ := popQueue_spec hw hD hi.nodup hbl hpos hole
  refine eraseObject_local (local_of_untouched (popQueue_untouched hw hD hu hpos)
    (fun a ha => ?_) (hnext.trans hs.next))
  have ha : a ∈ (popQueue cmp D (bubble D (s.index h) (s.index h) s)).objects := ha
  rwa [hobj, hs.objects] at ha

/-- **An operation** writes to the heap's own nodes and to fresh ones only. -/
theorem step_local (hw : StrictWeak cmp) (hD : 0 < D) (hi : Inv cmp D s) {op : Op α}
    (ha : s.Allowed cmp op) : Local s (s.step cmp D op) := by
  cases op with
  | push v => exact push_local hi hw v
  | pop => exact pop_local hw hD hi ha
  | update h v =>
    show Local s (s.update cmp D h v)
    rw [update]
    split_ifs with hc
    · exact decrease_local hw hD hi ha (hw.asymm hc)
    · exact increase_local hw hi ha (Bool.not_eq_true _ ▸ hc)
  | updateHandle h v => exact updateHandle_local hw hD hi ha v
  | increase h v => exact increase_local hw hi ha.1 ha.2
  | decrease h v => exact decrease_local hw hD hi ha.1 ha.2
  | erase h => exact erase_local hw hD hi ha

/-- **A run** keeps the invariant, and writes to own and to fresh nodes only. -/
theorem Runs.local {g g' : Queue α} (h : Runs cmp D g g') (hw : StrictWeak cmp) (hD : 0 < D)
    (hi : Inv cmp D g) : Inv cmp D g' ∧ Local g g' := by
  induction h with
  | refl => exact ⟨hi, Local.refl g⟩
  | step _ ha ih =>
    obtain ⟨hi', hl⟩ := ih
    exact ⟨(step_spec hw hD hi' ha).1, hl.trans (step_local hw hD hi' ha)⟩

end Queue

/-! ### What the copies build -/

/-- The nodes `l` at the end of `objects` are copies of `rest`, in nodes of `own` or in fresh ones. -/
structure Cloned {α : Type*} (own rest l : List ℕ) (s t : Queue α) : Prop where
  objects : t.objects = s.objects ++ l
  nodes : l.map t.node = rest.map s.node
  nodup : l.Nodup
  place : ∀ a ∈ l, a < t.next ∧ (a ∈ own ∨ s.next ≤ a)
  frame : ∀ a, a ∉ own → a < s.next → t.node a = s.node a
  next : s.next ≤ t.next
  q : t.q = s.q

/-- Two heaps in one store, with no node in common. -/
structure Apart {α : Type*} (g h : Queue α) : Prop where
  node : g.node = h.node
  next : g.next = h.next
  disjoint : ∀ a ∈ h.objects, a ∉ g.objects

namespace Queue

variable {α : Type*} {cmp : α → α → Bool} {D : ℕ} {s g h : Queue α} {live : List ℕ}

theorem insertObjects_spec (rest : List ℕ) {s : Queue α} (hrest : ∀ b ∈ rest, b < s.next) :
    ∃ l, Cloned [] rest l s (insertObjects rest s) := by
  induction rest generalizing s with
  | nil =>
    exact ⟨[], (append_nil _).symm, rfl, nodup_nil, fun _ ha => absurd ha not_mem_nil,
      fun _ _ _ => rfl, Nat.le_refl _, rfl⟩
  | cons b rest ih =>
    rw [insertObjects]
    generalize ht : (⟨s.objects ++ [s.next], Function.update s.node s.next (s.node b), s.next + 1,
      s.q⟩ : Queue α) = t
    have hnode : ∀ a, a ≠ s.next → t.node a = s.node a := by
      intro a ha
      rw [← ht]
      exact update_of_ne ha _ _
    have hnew : t.node s.next = s.node b := by
      rw [← ht]
      exact update_self _ _ _
    have hnext : t.next = s.next + 1 := by rw [← ht]
    have hlt : ∀ b ∈ rest, b < s.next := fun b hb => hrest b (mem_cons_of_mem _ hb)
    obtain ⟨l, hl⟩ := ih (s := t) fun b hb => by
      rw [hnext]
      exact (hlt b hb).trans (Nat.lt_succ_self _)
    have hle := hnext ▸ hl.next
    refine ⟨s.next :: l, ?_, ?_, ?_, ?_, ?_, (Nat.le_succ _).trans hle, ?_⟩
    · rw [hl.objects, ← ht, List.append_assoc]
      rfl
    · rw [map_cons, hl.nodes, hl.frame _ not_mem_nil (by omega), hnew, map_cons]
      congr 1
      exact map_congr_left fun b hb => hnode b (hlt b hb).ne
    · refine nodup_cons.mpr ⟨fun hm => ?_, hl.nodup⟩
      rcases (hl.place _ hm).2 with h | h
      · exact absurd h not_mem_nil
      · omega
    · intro a ha
      rcases mem_cons.mp ha with rfl | ha
      · exact ⟨by omega, Or.inr (Nat.le_refl _)⟩
      · obtain ⟨hlt, h | h⟩ := hl.place a ha
        · exact absurd h not_mem_nil
        · exact ⟨hlt, Or.inr (by omega)⟩
    · intro a ha hold
      rw [hl.frame a ha (by omega), hnode a hold.ne]
    · rw [hl.q, ← ht]

/-- **`std::list::operator=`**, a node of the own list for each node of the other as long as there
are any. -/
theorem assignObjects_spec (own rest : List ℕ) {s : Queue α} (hown : own.Nodup)
    (hold : ∀ a ∈ own, a < s.next) (hrest : ∀ b ∈ rest, b < s.next ∧ b ∉ own) :
    ∃ l, Cloned own rest l s (assignObjects own rest s) := by
  induction own generalizing rest s with
  | nil =>
    rw [assignObjects]
    exact insertObjects_spec rest fun b hb => (hrest b hb).1
  | cons a own ih =>
    cases rest with
    | nil =>
      exact ⟨[], (append_nil _).symm, rfl, nodup_nil,
        fun _ ha => absurd ha not_mem_nil, fun _ _ _ => rfl, Nat.le_refl _, rfl⟩
    | cons b rest =>
      rw [assignObjects]
      generalize ht : ({ s with
        objects := s.objects ++ [a], node := Function.update s.node a (s.node b) } : Queue α) = t
      have hnode : ∀ c, c ≠ a → t.node c = s.node c := by
        intro c hc
        rw [← ht]
        exact update_of_ne hc _ _
      have hnew : t.node a = s.node b := by
        rw [← ht]
        exact update_self _ _ _
      have hnext : t.next = s.next := by rw [← ht]
      obtain ⟨hnot, hown⟩ := nodup_cons.mp hown
      obtain ⟨l, hl⟩ := ih rest (s := t) hown
        (fun c hc => hnext ▸ hold c (mem_cons_of_mem _ hc))
        (fun c hc => by
          obtain ⟨hlt, hc⟩ := hrest c (mem_cons_of_mem _ hc)
          exact ⟨hnext ▸ hlt, fun hm => hc (mem_cons_of_mem _ hm)⟩)
      have ha := hold a mem_cons_self
      refine ⟨a :: l, ?_, ?_, ?_, ?_, ?_, hnext ▸ hl.next, ?_⟩
      · rw [hl.objects, ← ht, List.append_assoc]
        rfl
      · rw [map_cons, hl.nodes, hl.frame a hnot (hnext ▸ ha), hnew, map_cons]
        congr 1
        refine map_congr_left fun c hc => hnode c fun e => ?_
        exact (hrest c (mem_cons_of_mem _ hc)).2 (e ▸ mem_cons_self)
      · refine nodup_cons.mpr ⟨fun hm => ?_, hl.nodup⟩
        rcases (hl.place _ hm).2 with h | h
        · exact hnot h
        · omega
      · intro c hc
        rcases mem_cons.mp hc with rfl | hc
        · exact ⟨by have := hl.next; omega, Or.inl mem_cons_self⟩
        · obtain ⟨hlt, h⟩ := hl.place c hc
          exact ⟨hlt, h.imp (mem_cons_of_mem _) fun h => hnext ▸ h⟩
      · intro c hc hlt
        rw [mem_cons, not_or] at hc
        rw [hl.frame c hc.2 (hnext ▸ hlt), hnode c hc.1]
      · rw [hl.q, ← ht]

/-- **The loop of pushes** adds an entry for each object. -/
theorem pushObjects_spec (hw : StrictWeak cmp) (l : List ℕ) (hl : Linked live s)
    (ho : Ordered cmp D s.q.length s.key) (hnodup : l.Nodup) (hnew : ∀ a ∈ l, a ∉ live) :
    Linked (l.reverse ++ live) (pushObjects cmp D l s) ∧
      Ordered cmp D (pushObjects cmp D l s).q.length (pushObjects cmp D l s).key ∧
      (pushObjects cmp D l s).objects = s.objects ∧ (pushObjects cmp D l s).next = s.next ∧
      (pushObjects cmp D l s).value = s.value := by
  induction l generalizing s live with
  | nil => exact ⟨hl, ho, rfl, rfl, rfl⟩
  | cons a l ih =>
    obtain ⟨hnot, hnodup⟩ := nodup_cons.mp hnodup
    obtain ⟨h₁, h₂, h₃⟩ := pushQueue_spec hw hl ho (hnew a mem_cons_self)
    obtain ⟨hl', ho', hobj, hnext, hval⟩ := ih h₁ h₂ hnodup fun b hb hm => by
      rcases mem_cons.mp hm with rfl | hm
      · exact hnot hb
      · exact hnew b (mem_cons_of_mem _ hb) hm
    rw [pushObjects, reverse_cons, List.append_assoc]
    exact ⟨hl', ho', hobj.trans h₃.objects, hnext.trans h₃.next, hval.trans h₃.value⟩

theorem pushObjects_untouched {s' : Queue α} (l : List ℕ) (h : Untouched live s s')
    (hmem : ∀ a ∈ l, a ∈ live) : Untouched live s (pushObjects cmp D l s') := by
  induction l generalizing s' with
  | nil => exact h
  | cons a l ih =>
    exact ih (pushQueue_untouched h (hmem a mem_cons_self))
      fun b hb => hmem b (mem_cons_of_mem _ hb)

theorem length_siftup (fuel i : ℕ) (s : Queue α) :
    (siftup cmp D fuel i s).q.length = s.q.length := by
  induction fuel generalizing i s with
  | zero => rfl
  | succ fuel ih =>
    rw [siftup]
    simp only
    split_ifs
    · rw [ih, length_exchange]
    · rfl
    · rfl

theorem length_pushObjects (l : List ℕ) (s : Queue α) :
    (pushObjects cmp D l s).q.length = s.q.length + l.length := by
  induction l generalizing s with
  | nil => rfl
  | cons a l ih =>
    have hone : (s.pushQueue cmp D a).q.length = s.q.length + 1 := by
      rw [pushQueue, length_siftup, q_resetIndex, length_append, length_singleton]
    rw [pushObjects, ih, hone, length_cons]
    omega

theorem entries_perm (hi : Inv cmp D s) : s.q.Perm s.objects := by
  have hget : ∀ i (hlt : i < s.q.length), s.entry i = s.q[i] :=
    fun i hlt => getD_eq_getElem _ _ hlt
  have hnodup : s.q.Nodup := nodup_iff_injective_getElem.mpr fun i j e => by
    refine Fin.ext (entry_inj hi.linked i.2 j.2 ?_)
    rw [hget, hget]
    exact e
  refine (perm_ext_iff_of_nodup hnodup hi.nodup).mpr fun a => ⟨fun ha => ?_, fun ha => ?_⟩
  · obtain ⟨i, hlt, rfl⟩ := getElem_of_mem ha
    rw [← hget]
    exact (hi.linked.entry i hlt).1
  · obtain ⟨hlt, he⟩ := hi.linked.handle a ha
    rw [hget _ hlt] at he
    exact he ▸ getElem_mem hlt

/-- **The assignment**, to any heap of the program. -/
theorem copyAssign_spec (hw : StrictWeak cmp) (hg : Inv cmp D g) (hh : Inv cmp D h)
    (ha : Apart g h) : Inv cmp D (g.copyAssign cmp D h) ∧ Local g (g.copyAssign cmp D h) ∧
      (g.copyAssign cmp D h).values = h.values := by
  rw [copyAssign]
  simp only
  obtain ⟨l, hl⟩ := assignObjects_spec g.objects h.objects (s := { g with q := h.q, objects := [] })
    hg.nodup hg.fresh fun b hb => ⟨ha.next ▸ hh.fresh b hb, ha.disjoint b hb⟩
  generalize assignObjects g.objects h.objects { g with q := h.q, objects := [] } = t at hl ⊢
  obtain rfl : l = t.objects := hl.objects.symm
  have hempty : Linked [] { t with q := [] } :=
    ⟨fun _ hi => absurd hi (Nat.not_lt_zero _), fun _ ha => absurd ha not_mem_nil⟩
  obtain ⟨hlinked, ho, hobj', hnext, hval⟩ := pushObjects_spec (D := D) hw t.objects hempty
    (fun _ _ hj => absurd hj (Nat.not_lt_zero _)) hl.nodup fun _ _ => not_mem_nil
  have hsame : Untouched t.objects { t with q := [] } { t with q := [] } :=
    ⟨fun _ hi => absurd hi (Nat.not_lt_zero _), fun _ _ => rfl⟩
  have hu : Untouched t.objects { t with q := [] } (pushObjects cmp D t.objects { t with q := [] }) :=
    pushObjects_untouched t.objects hsame fun _ h => h
  generalize pushObjects cmp D t.objects { t with q := [] } = u at hlinked ho hobj' hnext hval hu ⊢
  rw [append_nil] at hlinked
  have hobj'' : u.objects = t.objects := hobj'
  have hnext' : u.next = t.next := hnext
  refine ⟨⟨hobj'' ▸ hl.nodup, ?_, ?_, ho⟩, ⟨?_, ?_, hnext' ▸ hl.next⟩, ?_⟩
  · intro a hm
    rw [hnext']
    exact (hl.place a (hobj'' ▸ hm)).1
  · rw [hobj'']
    exact ⟨fun i hi => ⟨mem_reverse.mp (hlinked.entry i hi).1, (hlinked.entry i hi).2⟩,
      fun a ha => hlinked.handle a (mem_reverse.mpr ha)⟩
  · intro a hout hold
    have hnot : a ∉ t.objects := fun hm => by
      rcases (hl.place a hm).2 with h | h
      · exact hout h
      · exact absurd hold (Nat.not_lt.mpr h)
    exact (hu.node a hnot).trans (hl.frame a hout hold)
  · intro a hm
    exact (hl.place a (hobj'' ▸ hm)).2
  · have hmap : t.objects.map t.value = h.objects.map h.value := by
      have hfst := congrArg (map Node.first) hl.nodes
      rw [List.map_map, List.map_map] at hfst
      rw [show h.value = Node.first ∘ g.node by rw [ha.node]; rfl]
      exact hfst
    have hval' : u.value = t.value := hval
    rw [values, values, hobj'', hval', Multiset.map_coe, Multiset.map_coe, hmap]

/-! ### Two heaps of one program -/

/-- A heap of which no node was touched, in a store that has grown. -/
theorem seen_spec (hh : Inv cmp D h) (hnode : ∀ a ∈ h.objects, g.node a = h.node a)
    (hnext : h.next ≤ g.next) :
    Inv cmp D (h.seen g) ∧ (h.seen g).values = h.values := by
  have hkey : ∀ i < h.q.length, (h.seen g).key i = h.key i := key_congr hh.linked rfl hnode
  refine ⟨⟨hh.nodup, fun a ha => (hh.fresh a ha).trans_le hnext,
    linked_congr hh.linked rfl hnode, fun j hj₀ hj => ?_⟩, ?_⟩
  · rw [hkey j hj, hkey _ ((parent_lt hj₀).trans hj)]
    exact hh.ordered j hj₀ hj
  · exact Multiset.map_congr rfl fun a ha => by
      rw [value, value]
      exact congrArg Node.first (hnode a ha)

theorem Apart.of_local {g' : Queue α} (ha : Apart g h) (hh : Inv cmp D h) (hl : Local g g') :
    Apart g' (h.seen g') ∧ (∀ a ∈ h.objects, g'.node a = h.node a) ∧ h.next ≤ g'.next := by
  have hold : ∀ a ∈ h.objects, a < g.next := fun a hm => ha.next ▸ hh.fresh a hm
  refine ⟨⟨rfl, rfl, fun a hm => hl.not_mem (ha.disjoint a hm) (hold a hm)⟩, fun a hm => ?_,
    ha.next ▸ hl.next⟩
  rw [hl.node a (ha.disjoint a hm) (hold a hm), ha.node]

/-- **Two heaps of one program** keep their invariants and have no node in common. -/
theorem Together.inv [Inhabited α] (hw : StrictWeak cmp) (hD : 0 < D) (t : Together cmp D g h) :
    Inv cmp D g ∧ Inv cmp D h ∧ Apart g h := by
  induction t with
  | empty => exact ⟨inv_empty, inv_empty, rfl, rfl, fun _ ha => absurd ha not_mem_nil⟩
  | step _ hop ih =>
    obtain ⟨hg, hh, ha⟩ := ih
    obtain ⟨hapart, hnode, hnext⟩ := Apart.of_local ha hh (step_local hw hD hg hop)
    exact ⟨(step_spec hw hD hg hop).1, (seen_spec hh hnode hnext).1, hapart⟩
  | assign _ ih =>
    obtain ⟨hg, hh, ha⟩ := ih
    obtain ⟨hinv, hl, -⟩ := copyAssign_spec hw hg hh ha
    obtain ⟨hapart, hnode, hnext⟩ := Apart.of_local ha hh hl
    exact ⟨hinv, (seen_spec hh hnode hnext).1, hapart⟩
  | swap _ ih =>
    obtain ⟨hg, hh, ha⟩ := ih
    exact ⟨hh, hg, ha.node.symm, ha.next.symm, fun a hm hm' => ha.disjoint a hm' hm⟩

/-- Popping to the end reads the values in non-increasing order. -/
theorem drain_spec (hw : StrictWeak cmp) (hD : 0 < D) (hi : Inv cmp D s) {n : ℕ}
    (hn : s.objects.length = n) : (drain cmp D n s : Multiset α) = s.values ∧
      (drain cmp D n s).Pairwise fun a b => cmp a b = false := by
  induction n generalizing s with
  | zero =>
    rw [length_eq_zero_iff] at hn
    refine ⟨?_, List.Pairwise.nil⟩
    rw [values, hn]
    rfl
  | succ n ih =>
    have hne : s.objects ≠ [] := by
      intro h
      rw [h] at hn
      cases hn
    obtain ⟨hi', hpop⟩ := pop_spec hw hD hi hne
    have hlen : (s.pop cmp D).objects.length = n := by
      have hcard := congrArg Multiset.card hpop
      rw [Multiset.card_cons, values, values, Multiset.card_map, Multiset.card_map,
        Multiset.coe_card, Multiset.coe_card] at hcard
      omega
    obtain ⟨hvals, hsorted⟩ := ih hi' hlen
    rw [drain]
    refine ⟨by rw [hpop, ← hvals]; rfl, pairwise_cons.mpr ⟨fun v hv => ?_, hsorted⟩⟩
    have hv : v ∈ s.values := by
      rw [hpop, ← hvals]
      exact Multiset.mem_cons_of_mem hv
    obtain ⟨a, ha, rfl⟩ := Multiset.mem_map.mp hv
    have hmax := hi.ordered.root_max hw _ (hi.linked.handle a ha).1
    rwa [key_eq hi.linked ha] at hmax

theorem copyOf_of_values (hw : StrictWeak cmp) (hD : 0 < D) (hg : Inv cmp D g) (hh : Inv cmp D h)
    (hv : g.values = h.values)
    (hu : ∀ g', Runs cmp D g g' → ∀ a ∈ h.objects, a ∉ g'.objects ∧ g'.node a = h.node a) :
    CopyOf cmp D h g := by
  have hsize : g.objects.length = h.objects.length := by
    have hcard := congrArg Multiset.card hv
    rwa [values, values, Multiset.card_map, Multiset.card_map] at hcard
  obtain ⟨hgv, hgs⟩ := drain_spec hw hD hg (entries_perm hg).length_eq.symm
  obtain ⟨hhv, hhs⟩ := drain_spec hw hD hh (entries_perm hh).length_eq.symm
  have hperm := Multiset.coe_eq_coe.mp (hgv.trans (hv.trans hhv.symm))
  exact ⟨by rw [(entries_perm hg).length_eq, (entries_perm hh).length_eq, hsize], entries_perm hg, hperm,
    equivalent_of_nonincreasing hw hperm hgs hhs, hu⟩

/-- **Copy assignment** gives an independent equal heap. -/
theorem copyAssign_copyOf (hw : StrictWeak cmp) (hD : 0 < D) (hg : Inv cmp D g) (hh : Inv cmp D h)
    (ha : Apart g h) : CopyOf cmp D h (g.copyAssign cmp D h) := by
  obtain ⟨hinv, hl, hv⟩ := copyAssign_spec hw hg hh ha
  refine copyOf_of_values hw hD hinv hh hv fun g' hr a hm => ?_
  obtain ⟨-, hlr⟩ := hr.local hw hD hinv
  have hlocal := hl.trans hlr
  exact ⟨hlocal.not_mem (ha.disjoint a hm) (ha.next ▸ hh.fresh a hm),
    (Apart.of_local ha hh hlocal).2.1 a hm⟩

/-- The copy constructor adds an entry for each object to the entries of the source. -/
theorem length_copyConstruct (hh : Inv cmp D h) :
    (h.copyConstruct cmp D).q.length = h.q.length + h.q.length := by
  rw [copyConstruct]
  obtain ⟨l, hl⟩ := insertObjects_spec h.objects (s := { h with objects := [] }) hh.fresh
  have hlen : l.length = h.objects.length := by
    have hlen := congrArg length hl.nodes
    rwa [length_map, length_map] at hlen
  rw [length_pushObjects, hl.q, hl.objects, nil_append, hlen, (entries_perm hh).length_eq]

/-- **Copies of a mutable d-ary heap.**  Copy assignment gives an independent equal heap.  The copy
constructor does so exactly when the source is empty: it keeps the entries of the source, which
refer to the nodes of the source, and adds its own to them. -/
theorem copy_independent_iff [Inhabited α] (hw : StrictWeak cmp) (hD : 0 < D)
    (t : Together cmp D g h) :
    (CopyOf cmp D h (h.copyConstruct cmp D) ↔ h.q = []) ∧
      CopyOf cmp D h (g.copyAssign cmp D h) := by
  obtain ⟨hg, hh, ha⟩ := t.inv hw hD
  refine ⟨⟨fun hc => ?_, fun hq => ?_⟩, copyAssign_copyOf hw hD hg hh ha⟩
  · have hsize := hc.size
    rw [length_copyConstruct hh] at hsize
    exact eq_nil_of_length_eq_zero (by omega)
  · have hnil : h.objects = [] := by
      rw [← length_eq_zero_iff, ← (entries_perm hh).length_eq, hq]
      rfl
    have hself : h.copyConstruct cmp D = h := by
      rw [copyConstruct, hnil, insertObjects]
      show (⟨[], h.node, h.next, h.q⟩ : Queue α) = h
      rw [← hnil]
    rw [hself]
    exact copyOf_of_values hw hD hh hh rfl fun _ _ a hm => absurd hm (by rw [hnil]; exact not_mem_nil)

/-- A heap of one value and an empty heap. -/
theorem copy_independent_iff_single :
    CopyOf natLess 2 ((Queue.empty ℕ).step natLess 2 (.push 5))
      (((Queue.empty ℕ).seen ((Queue.empty ℕ).step natLess 2 (.push 5))).copyAssign natLess 2
        ((Queue.empty ℕ).step natLess 2 (.push 5))) :=
  (copy_independent_iff natLess_strictWeak (by decide)
    (.swap (.step .empty (show (Queue.empty ℕ).Allowed natLess (.push 5) from trivial)))).2

/-- The copy of a heap of one value has two entries, and the first refers to the node of the source. -/
theorem copyConstruct_keeps_entries :
    let h := (Queue.empty ℕ).step natLess 2 (.push 5)
    Together natLess 2 ((Queue.empty ℕ).seen h) h ∧ h.q.length = 1 ∧
      (h.copyConstruct natLess 2).q.length = 2 ∧ (h.copyConstruct natLess 2).entry 0 ∈ h.objects ∧
      ¬ CopyOf natLess 2 h (h.copyConstruct natLess 2) :=
  ⟨.swap (.step .empty (show (Queue.empty ℕ).Allowed natLess (.push 5) from trivial)), by decide,
    by decide, by decide,
    fun hc => absurd hc.size (by decide)⟩

end Queue

end SourceLibs.DaryHeap
