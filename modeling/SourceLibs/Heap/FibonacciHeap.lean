import SourceLibs.Heap.Handles
import Mathlib.Algebra.BigOperators.Group.List.Basic
import Mathlib.Algebra.Order.Ring.GeomSum

/-!
# Heap — the Fibonacci heap

`fibonacci_heap.hpp`.  A heap object has a list of roots; a node has a list of children, a pointer to
its parent and a mark.  `consolidate` files the roots by their number of children in an array `aux` of
as many entries as `size_type` has bits (`bits`).  `none` is an access outside that array.

`consolidate` walks the list it takes nodes out of: the iterator is the node it points to, and
`++it` looks for the next one in the list as it then is.

* `linkLoop_spec`: the inner loop adds a root to a binary counter.
* `consolidate_spec`: `consolidate` is inside its array exactly if the roots weigh less than `2 ^ bits`,
  a root of `r` children weighing `2 ^ r`.
* `spilled_erase`, `spilled_update`: the lists when a node leaves its place and its children are roots.
-/

namespace SourceLibs.FibonacciHeap
open List Option Function Compare Handles

/-- The nodes and the heap objects. -/
structure World (α : Type*) extends Account α where
  children : ℕ → List ℕ
  parent : ℕ → Option ℕ
  mark : ℕ → Bool
  roots : ℕ → List ℕ
  topElement : ℕ → Option ℕ
  size : ℕ → ℕ

/-- The node after `n` in a list. -/
def after (l : List ℕ) (n : ℕ) : Option ℕ := (l.dropWhile (· ≠ n)).tail.head?

namespace World

variable {α : Type*} (cmp : α → α → Bool) (bits : ℕ)

/-- No nodes, and every heap empty. -/
def empty (α : Type*) [Inhabited α] : World α :=
  ⟨.empty α, fun _ => [], fun _ => none, fun _ => false, fun _ => [], fun _ => none, fun _ => 0⟩

def childCount (w : World α) (n : ℕ) : ℕ := (w.children n).length

def setRoots (w : World α) (i : ℕ) (l : List ℕ) : World α :=
  { w with roots := Function.update w.roots i l }

def setChildren (w : World α) (p : ℕ) (l : List ℕ) : World α :=
  { w with children := Function.update w.children p l }

def setParent (w : World α) (n : ℕ) (o : Option ℕ) : World α :=
  { w with parent := Function.update w.parent n o }

def setTop (w : World α) (i : ℕ) (o : Option ℕ) : World α :=
  { w with topElement := Function.update w.topElement i o }

/-- `n` is taken out of the list it is in: its parent's children, or the roots. -/
def unhook (w : World α) (i n : ℕ) : World α :=
  match w.parent n with
  | some p => w.setChildren p ((w.children p).erase n)
  | none => w.setRoots i ((w.roots i).erase n)

/-- `if (cmp(top_element->value, n->value)) top_element = n`. -/
def raiseTop (w : World α) (i n : ℕ) : World α :=
  match w.topElement i with
  | some t => if cmp (w.value t) (w.value n) then w.setTop i (some n) else w
  | none => w

/-! ### `consolidate` -/

/-- `other` is spliced to the end of the children of `n`. -/
def link (w : World α) (i n other : ℕ) : World α :=
  let w := w.unhook i other
  (w.setChildren n (w.children n ++ [other])).setParent other (some n)

/-- From `node_rank = n->child_count()` on: `n` is linked with the roots of its rank, then filed. -/
def linkLoop (i : ℕ) : ℕ → World α → (ℕ → Option ℕ) → ℕ → Option (World α × (ℕ → Option ℕ) × ℕ)
  | 0, _, _, _ => none
  | fuel + 1, w, aux, n =>
    let nodeRank := w.childCount n
    if nodeRank < bits then
      match aux nodeRank with
      | none => some (w, Function.update aux nodeRank (some n), n)
      | some other =>
        let (n, other) := if cmp (w.value n) (w.value other) then (other, n) else (n, other)
        linkLoop i fuel (w.link i n other) (Function.update aux nodeRank none) n
    else none

/-- `if (!cmp(n->value, top_element->value)) top_element = n`. -/
def chooseTop (w : World α) (i n : ℕ) : World α :=
  match w.topElement i with
  | some t => if !cmp (w.value n) (w.value t) then w.setTop i (some n) else w
  | none => w

/-- The loop of `consolidate`, with the iterator at `n`; the number of roots bounds the rounds. -/
def consolidateLoop (i : ℕ) : ℕ → World α → (ℕ → Option ℕ) → ℕ → Option (World α)
  | 0, _, _, _ => none
  | fuel + 1, w, aux, n =>
    let it := after (w.roots i) n
    match w.linkLoop cmp bits i (bits + 1) aux n with
    | none => none
    | some (w, aux, n) =>
      let w := w.chooseTop cmp i n
      match it with
      | some m => consolidateLoop i fuel w aux m
      | none => some w

/-- `consolidate`: trees of one rank are linked. -/
def consolidate (w : World α) (i : ℕ) : Option (World α) :=
  match w.roots i with
  | [] => some w
  | first :: _ =>
    (w.setTop i (some first)).consolidateLoop cmp bits i (w.roots i).length (fun _ => none) first

/-! ### The calls -/

def addChildrenToRoot (w : World α) (i n : ℕ) : World α :=
  let w := { w with parent := fun x => if x ∈ w.children n then none else w.parent x }
  (w.setRoots i (w.roots i ++ w.children n)).setChildren n []

/-- `finish_erase_or_pop`; the node itself has left the ledger. -/
def finishEraseOrPop (w : World α) (i n : ℕ) : Option (World α) :=
  let w := w.addChildrenToRoot i n
  let w := { w with size := Function.update w.size i (w.size i - 1) }
  if w.size i ≠ 0 then w.consolidate cmp bits i else some (w.setTop i none)

/-- `push`; the handle returned is `w.ledger.fresh`. -/
def push (w : World α) (i : ℕ) (v : α) : World α :=
  let n := w.ledger.fresh
  let w : World α :=
    ⟨⟨w.ledger.add i, Function.update w.value n v⟩, Function.update w.children n [],
      Function.update w.parent n none, Function.update w.mark n false,
      Function.update w.roots i (n :: w.roots i), w.topElement,
      Function.update w.size i (w.size i + 1)⟩
  match w.topElement i with
  | none => w.setTop i (some n)
  | some _ => w.raiseTop cmp i n

def pop (w : World α) (i : ℕ) : Option (World α) :=
  match w.topElement i with
  | none => none
  | some t =>
    let w := { w with ledger := w.ledger.drop t }
    (w.setRoots i ((w.roots i).erase t)).finishEraseOrPop cmp bits i t

def erase (w : World α) (i n : ℕ) : Option (World α) :=
  let w := { w with ledger := w.ledger.drop n }
  (w.unhook i n).finishEraseOrPop cmp bits i n

/-- `cut`, of a node that has a parent. -/
def cut (w : World α) (i n : ℕ) : World α :=
  let w := w.unhook i n
  let w := w.setRoots i (n :: w.roots i)
  let w := w.setParent n none
  { w with mark := Function.update w.mark n false }

/-- `cascading_cut`; every level of the recursion goes up to the parent. -/
def cascadingCut (i : ℕ) : ℕ → World α → ℕ → World α
  | 0, w, _ => w
  | fuel + 1, w, n =>
    match w.parent n with
    | none => w
    | some p =>
      if !w.mark p then { w with mark := Function.update w.mark p true }
      else cascadingCut i fuel (w.cut i n) p

/-- `increase(handle)`. -/
def increaseNode (w : World α) (i n : ℕ) : World α :=
  let w :=
    match w.parent n with
    | some p =>
      if cmp (w.value p) (w.value n) then (w.cut i n).cascadingCut i w.ledger.fresh p else w
    | none => w
  w.raiseTop cmp i n

/-- `update_lazy(handle)`. -/
def updateLazy (w : World α) (i n : ℕ) : World α :=
  let w :=
    match w.parent n with
    | some _ =>
      let w := w.unhook i n
      (w.setParent n none).setRoots i (n :: w.roots i)
    | none => w
  (w.addChildrenToRoot i n).raiseTop cmp i n

/-- `update(handle)`, which `decrease` calls. -/
def updateNode (w : World α) (i n : ℕ) : Option (World α) :=
  (w.updateLazy cmp i n).consolidate cmp bits i

/-- `handle.node_->value = v`. -/
def assign (w : World α) (n : ℕ) (v : α) : World α :=
  { w with toAccount := w.toAccount.assign n v }

/-- `update(handle, v)`. -/
def update (w : World α) (i n : ℕ) (v : α) : Option (World α) :=
  if cmp (w.value n) v then some ((w.assign n v).increaseNode cmp i n)
  else (w.assign n v).updateNode cmp bits i n

/-- `merge`, of heap `j` into heap `i`. -/
def merge (w : World α) (i j : ℕ) : World α :=
  let w := { w with ledger := w.ledger.absorb i j }
  let w := { w with size := Function.update w.size i (w.size i + w.size j) }
  let w :=
    match w.topElement i, w.topElement j with
    | none, o => w.setTop i o
    | some t, some u => if cmp (w.value t) (w.value u) then w.setTop i (some u) else w
    | some _, none => w
  let w := (w.setRoots i (w.roots i ++ w.roots j)).setRoots j []
  { w.setTop j none with size := Function.update w.size j 0 }

/-- One call. -/
def step (w : World α) : Op α → Option (World α)
  | .push i v => some (w.push cmp i v)
  | .pop i => w.pop cmp bits i
  | .update i n v => w.update cmp bits i n v
  | .touch i n v => (w.assign n v).updateNode cmp bits i n
  | .increase i n v => some ((w.assign n v).increaseNode cmp i n)
  | .decrease i n v => (w.assign n v).updateNode cmp bits i n
  | .erase i n => w.erase cmp bits i n
  | .merge i j => some (w.merge cmp i j)

end World

/-! ### The lists of nodes -/

namespace World

variable {α : Type*} {cmp : α → α → Bool} {bits : ℕ}

/-- The nodes in a list of roots. -/
def allRoots (w : World α) : Set ℕ := { n | ∃ i, n ∈ w.roots i }

/-- What holds between the calls, and during them as long as nothing is said of the tops. -/
structure Base (cmp : α → α → Bool) (w : World α) : Prop where
  trees : Trees cmp w.toAccount w.children w.allRoots
  rooted : ∀ i, ∀ n ∈ w.roots i, w.ledger.owner n = some i
  nodup : ∀ i, (w.roots i).Nodup
  child_parent : ∀ p, ∀ c ∈ w.children p, w.parent c = some p
  root_parent : ∀ i, ∀ n ∈ w.roots i, w.parent n = none

/-- Only the lists of heap `i` and of nodes, and what is said of the nodes, may differ. -/
structure Local (i : ℕ) (w w' : World α) : Prop where
  account : w'.toAccount = w.toAccount
  size : w'.size = w.size
  roots : ∀ j, j ≠ i → w'.roots j = w.roots j
  top : ∀ j, j ≠ i → w'.topElement j = w.topElement j

theorem Local.refl (i : ℕ) (w : World α) : Local i w w :=
  ⟨rfl, rfl, fun _ _ => rfl, fun _ _ => rfl⟩

theorem Local.trans {i : ℕ} {w w' w'' : World α} (h : Local i w w') (h' : Local i w' w'') :
    Local i w w'' :=
  ⟨h'.account.trans h.account, h'.size.trans h.size, fun j hj => (h'.roots j hj).trans (h.roots j hj),
    fun j hj => (h'.top j hj).trans (h.top j hj)⟩

variable {w : World α} {i n : ℕ} {l : List ℕ} {w' : World α} {aux : ℕ → Option ℕ}

@[simp] theorem roots_setRoots_self (l : List ℕ) : (w.setRoots i l).roots i = l :=
  update_self ..

theorem roots_setRoots_of_ne {j : ℕ} (hj : j ≠ i) (l : List ℕ) :
    (w.setRoots i l).roots j = w.roots j := update_of_ne hj ..

theorem Base.root_heap (h : Base cmp w) {j : ℕ} (hi : n ∈ w.roots i) (hj : n ∈ w.roots j) : j = i :=
  some_inj.mp ((h.rooted j n hj).symm.trans (h.rooted i n hi))

theorem mem_allRoots_update {x : ℕ} :
    x ∈ (w.setRoots i l).allRoots ↔ x ∈ l ∨ ∃ j, j ≠ i ∧ x ∈ w.roots j := by
  constructor
  · rintro ⟨j, hj⟩
    by_cases hji : j = i
    · rw [hji, roots_setRoots_self] at hj
      exact Or.inl hj
    · rw [roots_setRoots_of_ne hji] at hj
      exact Or.inr ⟨j, hji, hj⟩
  · rintro (hx | ⟨j, hji, hx⟩)
    · exact ⟨i, by rwa [roots_setRoots_self]⟩
    · exact ⟨j, by rwa [roots_setRoots_of_ne hji]⟩

theorem Base.root_or_child (h : Base cmp w) (hn : w.ledger.owner n = some i) :
    (n ∈ w.roots i ∧ w.parent n = none) ∨ ∃ p, w.parent n = some p ∧ n ∈ w.children p := by
  rcases h.trees.valid.root_or_child (n := n) (Ledger.mem_live.mpr (by simp [hn])) with ⟨j, hj⟩ | ⟨p, hp⟩
  · have hij : j = i := some_inj.mp ((h.rooted j n hj).symm.trans hn)
    exact Or.inl (hij ▸ ⟨hj, h.root_parent j n hj⟩)
  · exact Or.inr ⟨p, h.child_parent p n hp, hp⟩

theorem unhook_of_root (h : Base cmp w) (hn : n ∈ w.roots i) :
    w.unhook i n = w.setRoots i ((w.roots i).erase n) := by
  rw [unhook, h.root_parent i n hn]

/-! ### `consolidate` -/

theorem link_of_root (h : Base cmp w) {other : ℕ} (hother : other ∈ w.roots i) :
    w.link i n other = ((w.setRoots i ((w.roots i).erase other)).setChildren n
      (w.children n ++ [other])).setParent other (some n) := by
  rw [link, unhook_of_root h hother]
  rfl

/-- **Linking** two roots, the first not less than the second. -/
theorem base_link (h : Base cmp w) {other : ℕ} (hn : n ∈ w.roots i) (hother : other ∈ w.roots i)
    (hne : n ≠ other) (hord : cmp (w.value n) (w.value other) = false) :
    Base cmp (w.link i n other) ∧ Local i w (w.link i n other) := by
  have hfree : ∀ p, other ∉ w.children p := h.trees.root_free ⟨i, hother⟩
  have hroots : ∀ j, ((w.setRoots i ((w.roots i).erase other)).roots j).Sublist (w.roots j) := by
    intro j
    by_cases hj : j = i
    · rw [hj, roots_setRoots_self]
      exact erase_sublist
    · rw [roots_setRoots_of_ne hj]
  have hotherRoots : ∀ j, other ∉ (w.setRoots i ((w.roots i).erase other)).roots j := by
    intro j hj
    by_cases hji : j = i
    · rw [hji, roots_setRoots_self] at hj
      exact (h.nodup i).not_mem_erase hj
    · exact hji (h.root_heap hother ((hroots j).mem hj))
  have hmem : ∀ p x, x ∈ Function.update w.children n (w.children n ++ [other]) p ↔
      x ∈ w.children p ∨ (p = n ∧ x = other) := by
    intro p x
    by_cases hp : p = n
    · simp [hp]
    · simp [hp]
  rw [link_of_root h hother]
  refine ⟨⟨?_, fun j x hx => h.rooted j x ((hroots j).mem hx), fun j => (h.nodup j).sublist (hroots j),
    fun p c hc => ?_, fun j x hx => ?_⟩, rfl, rfl, fun j hj => update_of_ne hj .., fun _ _ => rfl⟩
  · have hset : (w.setRoots i ((w.roots i).erase other)).allRoots = w.allRoots \ {other} := by
      ext x
      rw [mem_allRoots_update, (h.nodup i).mem_erase_iff, Set.mem_sdiff, Set.mem_singleton_iff]
      constructor
      · rintro (⟨hx, hxi⟩ | ⟨j, hji, hx⟩)
        · exact ⟨⟨i, hxi⟩, hx⟩
        · exact ⟨⟨j, hx⟩, fun e => hji (h.root_heap hother (e ▸ hx))⟩
      · rintro ⟨⟨j, hx⟩, hxo⟩
        by_cases hji : j = i
        · exact Or.inl ⟨hxo, hji ▸ hx⟩
        · exact Or.inr ⟨j, hji, hx⟩
    show Trees cmp w.toAccount (Function.update w.children n (w.children n ++ [other]))
      (w.setRoots i ((w.roots i).erase other)).allRoots
    rw [hset]
    refine h.trees.link ⟨i, hn⟩ ⟨i, hother⟩ hne ?_ hord (fun p => ?_) hmem
    · rw [h.rooted i other hother, h.rooted i n hn]
    · by_cases hp : p = n
      · rw [hp, update_self]
        exact nodup_append.mpr ⟨h.trees.nodup n, nodup_singleton other,
          fun a ha b hb e => hfree n (mem_singleton.mp hb ▸ e ▸ ha)⟩
      · rw [update_of_ne hp]
        exact h.trees.nodup p
  · rcases (hmem p c).mp hc with hc | ⟨rfl, rfl⟩
    · have hco : c ≠ other := fun e => hfree p (e ▸ hc)
      exact (update_of_ne hco ..).trans (h.child_parent p c hc)
    · exact update_self ..
  · have hxo : x ≠ other := fun e => hotherRoots j (e ▸ hx)
    exact (update_of_ne hxo ..).trans (h.root_parent j x ((hroots j).mem hx))

/-- Roots of one rank linked one after the other; the top may be set in between. -/
inductive Links (cmp : α → α → Bool) (i : ℕ) : World α → World α → Prop where
  | refl (w : World α) : Links cmp i w w
  | top {w w' : World α} (o : Option ℕ) (t : Links cmp i (w.setTop i o) w') : Links cmp i w w'
  | link {w w' : World α} {n other : ℕ} (hn : n ∈ w.roots i) (hother : other ∈ w.roots i)
      (hne : n ≠ other) (hrank : w.childCount n = w.childCount other)
      (hord : cmp (w.value n) (w.value other) = false) (t : Links cmp i (w.link i n other) w') :
      Links cmp i w w'

theorem Links.trans {w w' w'' : World α} (h : Links cmp i w w') (h' : Links cmp i w' w'') :
    Links cmp i w w'' := by
  induction h with
  | refl => exact h'
  | top o _ ih => exact .top o (ih h')
  | link hn hother hne hrank hord _ ih => exact .link hn hother hne hrank hord (ih h')

theorem Base.setTop (h : Base cmp w) (o : Option ℕ) : Base cmp (w.setTop i o) :=
  ⟨h.trees, h.rooted, h.nodup, h.child_parent, h.root_parent⟩

theorem setTop_self : w.setTop i (w.topElement i) = w := by
  rw [setTop, update_eq_self]

theorem local_setTop (o : Option ℕ) : Local i w (w.setTop i o) :=
  ⟨rfl, rfl, fun _ _ => rfl, fun _ hj => update_of_ne hj ..⟩

theorem Links.base {w w' : World α} (h : Links cmp i w w') (hb : Base cmp w) :
    Base cmp w' ∧ Local i w w' := by
  induction h with
  | refl w => exact ⟨hb, Local.refl i w⟩
  | top o _ ih =>
    obtain ⟨hb', hl⟩ := ih (hb.setTop o)
    exact ⟨hb', (local_setTop o).trans hl⟩
  | link hn hother hne _ hord _ ih =>
    obtain ⟨hb₁, hl₁⟩ := base_link hb hn hother hne hord
    obtain ⟨hb', hl⟩ := ih hb₁
    exact ⟨hb', hl₁.trans hl⟩

/-- A root of `r` children weighs `2 ^ r`. -/
def weight (w : World α) (l : List ℕ) : ℕ := (l.map fun x => 2 ^ w.childCount x).sum

/-- `aux` holds the nodes of `S`, each at its number of children. -/
structure Filed (bits : ℕ) (w : World α) (aux : ℕ → Option ℕ) (S : Set ℕ) : Prop where
  entry : ∀ r x, aux r = some x ↔ x ∈ S ∧ w.childCount x = r
  bound : ∀ x ∈ S, w.childCount x < bits

theorem childCount_link (h : Base cmp w) {other : ℕ} (hother : other ∈ w.roots i) (x : ℕ) :
    (w.link i n other).childCount x = if x = n then w.childCount n + 1 else w.childCount x := by
  rw [link_of_root h hother]
  show (Function.update w.children n (w.children n ++ [other]) x).length = _
  by_cases hx : x = n
  · rw [hx, update_self, if_pos rfl, length_append]
    rfl
  · rw [update_of_ne hx, if_neg hx, childCount]

theorem roots_link (h : Base cmp w) {other : ℕ} (hother : other ∈ w.roots i) :
    (w.link i n other).roots i = (w.roots i).erase other := by
  rw [link_of_root h hother]
  exact roots_setRoots_self _

theorem weight_link (h : Base cmp w) {other : ℕ} (hnd : l.Nodup) (hn : n ∈ l)
    (hother : other ∈ w.roots i) (hol : other ∈ l) (hne : n ≠ other)
    (hrank : w.childCount n = w.childCount other) :
    (w.link i n other).weight (l.erase other) = w.weight l := by
  have hn' : n ∈ l.erase other := (mem_erase_of_ne hne).mpr hn
  have hrest : (((l.erase other).erase n).map fun x => 2 ^ (w.link i n other).childCount x) =
      ((l.erase other).erase n).map fun x => 2 ^ w.childCount x := by
    refine map_congr_left fun x hx => ?_
    have hxn : x ≠ n := (((hnd.erase other).mem_erase_iff).mp hx).1
    rw [childCount_link h hother, if_neg hxn]
  rw [weight, weight, ← sum_map_erase _ hn', ← sum_map_erase _ hol,
    ← sum_map_erase (fun x => 2 ^ w.childCount x) hn', hrest, childCount_link h hother,
    if_pos rfl, pow_succ, hrank]
  omega

/-- What the inner loop leaves when it starts at `n`: `m` and the roots walked past are filed. -/
structure Linked (cmp : α → α → Bool) (bits i : ℕ) (w : World α) (n : ℕ) (l rest : List ℕ)
    (w' : World α) (aux : ℕ → Option ℕ) (m : ℕ) (l' : List ℕ) : Prop where
  links : Links cmp i w w'
  roots : w'.roots i = l' ++ rest
  sublist : l'.Sublist l
  mem : m ∈ l'
  filed : Filed bits w' aux { x | x ∈ l' }
  weight : w'.weight l' = w.weight l
  ge : ∀ x ∈ l, x = n ∨ x ∉ l' → cmp (w.value m) (w.value x) = false
  children : ∀ x, x ∉ l → w'.children x = w.children x
  top : w'.topElement = w.topElement

/-- A root that finds its entry taken is linked with the root there, and the search goes on. -/
theorem Linked.step (hw : StrictWeak cmp) (h : Base cmp w) {l rest : List ℕ}
    (hroots : w.roots i = l ++ rest) {start other : ℕ} (hn : n ∈ l) (ho : other ∈ l)
    (hne : n ≠ other) (hrank : w.childCount n = w.childCount other)
    (hord : cmp (w.value n) (w.value other) = false) (hstart : start = n ∨ start = other) {m : ℕ}
    {l' : List ℕ} (hl : Linked cmp bits i (w.link i n other) n (l.erase other) rest w' aux m l') :
    Linked cmp bits i w start l rest w' aux m l' := by
  have hnd : l.Nodup := by
    have hnd := h.nodup i
    rw [hroots] at hnd
    exact hnd.of_append_left
  have hnR : n ∈ w.roots i := hroots ▸ mem_append_left rest hn
  have hoR : other ∈ w.roots i := hroots ▸ mem_append_left rest ho
  have hge := hl.ge
  rw [congrArg Account.value (base_link h hnR hoR hne hord).2.account] at hge
  have hmn : cmp (w.value m) (w.value n) = false :=
    hge n ((mem_erase_of_ne hne).mpr hn) (Or.inl rfl)
  have hmo : cmp (w.value m) (w.value other) = false := hw.trans hmn hord
  refine ⟨.link hnR hoR hne hrank hord hl.links, hl.roots, hl.sublist.trans erase_sublist,
    hl.mem, hl.filed, hl.weight.trans (weight_link h hnd hn hoR ho hne hrank), fun x hx hx' => ?_,
    fun x hx => ?_, hl.top.trans ?_⟩
  · by_cases hxo : x = other
    · exact hxo ▸ hmo
    by_cases hxn : x = n
    · exact hxn ▸ hmn
    rcases hx' with rfl | hx'
    · exact (hstart.elim hxn hxo).elim
    · exact hge x ((mem_erase_of_ne hxo).mpr hx) (Or.inr hx')
  · have hxn : x ≠ n := fun e => hx (e ▸ hn)
    rw [hl.children x fun hx' => hx (mem_of_mem_erase hx'), link_of_root h hoR]
    exact update_of_ne hxn ..
  · rw [link_of_root h hoR]
    rfl

/-- What is filed after a link: the loser, and the winner until it is filed again, are not. -/
theorem filed_link (h : Base cmp w) {other start found : ℕ} (hnd : l.Nodup)
    (hoR : other ∈ w.roots i) (hstart : start ∈ l)
    (hf : Filed bits w aux { x | x ∈ l ∧ x ≠ start })
    (hfound : aux (w.childCount start) = some found)
    (hcase : n = start ∧ other = found ∨ n = found ∧ other = start) :
    Filed bits (w.link i n other) (Function.update aux (w.childCount start) none)
      { x | x ∈ l.erase other ∧ x ≠ n } := by
  obtain ⟨⟨hfl, hfs⟩, hfr⟩ := (hf.entry _ _).mp hfound
  have hset : ∀ x, x ∈ l.erase other ∧ x ≠ n ↔ (x ∈ l ∧ x ≠ start) ∧ x ≠ found := by
    intro x
    rw [hnd.mem_erase_iff]
    rcases hcase with ⟨rfl, rfl⟩ | ⟨rfl, rfl⟩ <;> tauto
  have hcount : ∀ x, x ≠ n → (w.link i n other).childCount x = w.childCount x := by
    intro x hx
    rw [childCount_link h hoR, if_neg hx]
  refine ⟨fun r x => ?_, fun x hx => ?_⟩
  · by_cases hr : r = w.childCount start
    · subst hr
      rw [update_self]
      refine ⟨(nomatch ·), fun ⟨hx, hxr⟩ => ?_⟩
      rw [hcount x hx.2] at hxr
      have hx' := (hset x).mp hx
      have haux := (hf.entry _ _).mpr ⟨hx'.1, hxr⟩
      rw [hfound, some_inj] at haux
      exact absurd haux.symm hx'.2
    · rw [update_of_ne hr, hf.entry]
      constructor
      · rintro ⟨hx, hxr⟩
        have hxf : x ≠ found := fun e => hr (hxr.symm.trans (e ▸ hfr))
        have hx' := (hset x).mpr ⟨hx, hxf⟩
        exact ⟨hx', (hcount x hx'.2).trans hxr⟩
      · rintro ⟨hx, hxr⟩
        rw [hcount x hx.2] at hxr
        exact ⟨((hset x).mp hx).1, hxr⟩
  · rw [hcount x hx.2]
    exact hf.bound x ((hset x).mp hx).1

theorem pow_le_weight (hn : n ∈ l) : 2 ^ w.childCount n ≤ w.weight l := by
  rw [weight, ← sum_map_erase (fun x => 2 ^ w.childCount x) hn]
  exact Nat.le_add_right _ _

theorem linked_of_free (hw : StrictWeak cmp) {l rest : List ℕ} (hroots : w.roots i = l ++ rest)
    (hn : n ∈ l) (hf : Filed bits w aux { x | x ∈ l ∧ x ≠ n }) (hlt : w.childCount n < bits)
    (hfree : aux (w.childCount n) = none) :
    Linked cmp bits i w n l rest w (Function.update aux (w.childCount n) (some n)) n l := by
  refine ⟨.refl w, hroots, Sublist.refl l, hn, ⟨fun r x => ?_, fun x hx => ?_⟩, rfl,
    fun x hx hx' => ?_, fun _ _ => rfl, rfl⟩
  · by_cases hr : r = w.childCount n
    · subst hr
      rw [update_self, some_inj]
      constructor
      · rintro rfl
        exact ⟨hn, rfl⟩
      · rintro ⟨hx, hxr⟩
        by_contra hxn
        have haux := (hf.entry _ _).mpr ⟨⟨hx, fun e => hxn e.symm⟩, hxr⟩
        rw [hfree] at haux
        cases haux
    · rw [update_of_ne hr, hf.entry]
      refine ⟨fun ⟨hx, hxr⟩ => ⟨hx.1, hxr⟩, fun ⟨hx, hxr⟩ => ⟨⟨hx, fun e => hr ?_⟩, hxr⟩⟩
      rw [← hxr, e]
  · by_cases hxn : x = n
    · exact hxn ▸ hlt
    · exact hf.bound x ⟨hx, hxn⟩
  · rcases hx' with rfl | hx'
    · exact hw.refl _
    · exact absurd hx hx'

/-- **The inner loop** leaves `aux` exactly if the filed roots and `n` weigh `2 ^ bits` or more. -/
theorem linkLoop_spec (hw : StrictWeak cmp) (fuel : ℕ) :
    ∀ (w : World α) (aux : ℕ → Option ℕ) (n : ℕ) (l rest : List ℕ), Base cmp w →
      w.roots i = l ++ rest → n ∈ l → Filed bits w aux { x | x ∈ l ∧ x ≠ n } →
      bits < fuel + w.childCount n →
      (w.linkLoop cmp bits i fuel aux n = none ∧ 2 ^ bits ≤ w.weight l) ∨
        ∃ w' aux' m l', w.linkLoop cmp bits i fuel aux n = some (w', aux', m) ∧
          Linked cmp bits i w n l rest w' aux' m l' := by
  induction fuel with
  | zero =>
    intro w aux n l rest h hroots hn hf hfuel
    refine Or.inl ⟨rfl, le_trans (Nat.pow_le_pow_right (by omega) ?_) (pow_le_weight hn)⟩
    omega
  | succ fuel ih =>
    intro w aux n l rest h hroots hn hf hfuel
    rw [linkLoop]
    by_cases hlt : w.childCount n < bits
    · rw [if_pos hlt]
      cases hfound : aux (w.childCount n) with
      | none => exact Or.inr ⟨_, _, _, _, rfl, linked_of_free hw hroots hn hf hlt hfound⟩
      | some found =>
        obtain ⟨⟨hfl, hfn⟩, hfr⟩ := (hf.entry _ _).mp hfound
        have hnd : l.Nodup := by
          have hnd := h.nodup i
          rw [hroots] at hnd
          exact hnd.of_append_left
        -- The round is the same whichever of the two wins.
        have hround : ∀ p c, p ∈ l → c ∈ l → p ≠ c → (p = n ∧ c = found ∨ p = found ∧ c = n) →
            cmp (w.value p) (w.value c) = false →
            (linkLoop cmp bits i fuel (w.link i p c)
                (Function.update aux (w.childCount n) none) p = none ∧ 2 ^ bits ≤ w.weight l) ∨
              ∃ w' aux' m l', linkLoop cmp bits i fuel (w.link i p c)
                  (Function.update aux (w.childCount n) none) p = some (w', aux', m) ∧
                Linked cmp bits i w n l rest w' aux' m l' := by
          intro p c hp hc hpc hcase hord
          have hpR : p ∈ w.roots i := hroots ▸ mem_append_left rest hp
          have hcR : c ∈ w.roots i := hroots ▸ mem_append_left rest hc
          have hrank : w.childCount p = w.childCount c := by
            rcases hcase with ⟨rfl, rfl⟩ | ⟨rfl, rfl⟩
            · exact hfr.symm
            · exact hfr
          have hpn : w.childCount p = w.childCount n := by
            rcases hcase with ⟨rfl, -⟩ | ⟨rfl, -⟩
            · rfl
            · exact hfr
          have hroots' : (w.link i p c).roots i = l.erase c ++ rest := by
            rw [roots_link h hcR, hroots, erase_append_left _ hc]
          have hfuel' : bits < fuel + (w.link i p c).childCount p := by
            rw [childCount_link h hcR, if_pos rfl]
            omega
          rcases ih (w.link i p c) _ p (l.erase c) rest (base_link h hpR hcR hpc hord).1 hroots'
            ((mem_erase_of_ne hpc).mpr hp)
            (filed_link h hnd hcR hn hf hfound hcase) hfuel' with
            ⟨hnone, hle⟩ | ⟨w', aux', m, l', hsome, hl⟩
          · rw [weight_link h hnd hp hcR hc hpc hrank] at hle
            exact Or.inl ⟨hnone, hle⟩
          · exact Or.inr ⟨w', aux', m, l', hsome, hl.step hw h hroots hp hc hpc hrank hord
              (hcase.imp (·.1.symm) (·.2.symm))⟩
        dsimp only
        cases hc : cmp (w.value n) (w.value found) with
        | true => exact hround found n hfl hn hfn (Or.inr ⟨rfl, rfl⟩) (hw.asymm hc)
        | false => exact hround n found hn hfl (Ne.symm hfn) (Or.inl ⟨rfl, rfl⟩) hc
    · rw [if_neg hlt]
      refine Or.inl ⟨rfl, le_trans (Nat.pow_le_pow_right (by omega) ?_) (pow_le_weight hn)⟩
      omega

theorem after_append {pre rest : List ℕ} (hn : n ∉ pre) :
    after (pre ++ n :: rest) n = rest.head? := by
  have hdrop : (pre ++ n :: rest).dropWhile (· ≠ n) = n :: rest := by
    rw [dropWhile_append_of_pos]
    · simp
    · intro x hx
      have hxn : x ≠ n := fun e => hn (e ▸ hx)
      simpa using hxn
  rw [after, hdrop, tail_cons]

/-- The top of heap `i` is `t`, an element of `l` that nothing there is larger than. -/
def TopOf (cmp : α → α → Bool) (w : World α) (i : ℕ) (l : List ℕ) : Prop :=
  ∃ t ∈ l, w.topElement i = some t ∧ ∀ x ∈ l, cmp (w.value t) (w.value x) = false

theorem topOf_chooseTop (hw : StrictWeak cmp) {pre l' rest : List ℕ} {m : ℕ} (hb : Base cmp w)
    (ht : TopOf cmp w i pre ∨ pre = [] ∧ w.topElement i = some n)
    (hl : Linked cmp bits i w n (pre ++ [n]) rest w' aux m l') :
    TopOf cmp (w'.chooseTop cmp i m) i l' ∧ ∃ o, w'.chooseTop cmp i m = w'.setTop i o := by
  have hvalue : w'.value = w.value := congrArg Account.value (hl.links.base hb).2.account
  have hmn : cmp (w.value m) (w.value n) = false := hl.ge n (by simp) (Or.inl rfl)
  obtain ⟨t, htop, htm⟩ : ∃ t, w.topElement i = some t ∧ (cmp (w.value m) (w.value t) = false ∨
      t ∈ l') := by
    rcases ht with ⟨t, htl, htop, -⟩ | ⟨-, htop⟩
    · refine ⟨t, htop, ?_⟩
      by_cases htl' : t ∈ l'
      · exact Or.inr htl'
      · exact Or.inl (hl.ge t (mem_append_left _ htl) (Or.inr htl'))
    · exact ⟨n, htop, Or.inl hmn⟩
  have hpre : ∀ x ∈ pre, cmp (w.value t) (w.value x) = false := by
    rcases ht with ⟨t', htl, htop', hmax⟩ | ⟨rfl, -⟩
    · rw [htop', some_inj] at htop
      exact htop ▸ hmax
    · exact fun x hx => nomatch hx
  have htop' : w'.topElement i = some t := by
    rw [hl.top]
    exact htop
  rw [chooseTop, htop']
  dsimp only
  rw [hvalue]
  cases hc : cmp (w.value m) (w.value t) with
  | false =>
    refine ⟨⟨m, hl.mem, update_self .., fun x hx => ?_⟩, some m, rfl⟩
    show cmp (w'.value m) (w'.value x) = false
    rw [hvalue]
    rcases mem_append.mp (hl.sublist.mem hx) with hx | hx
    · exact hw.trans hc (hpre x hx)
    · exact mem_singleton.mp hx ▸ hmn
  | true =>
    have htl : t ∈ l' := htm.resolve_left (by simp [hc])
    have hself : w'.setTop i (some t) = w' := htop' ▸ setTop_self
    refine ⟨⟨t, htl, htop', fun x hx => ?_⟩, some t, hself.symm⟩
    show cmp (w'.value t) (w'.value x) = false
    rw [hvalue]
    rcases mem_append.mp (hl.sublist.mem hx) with hx | hx
    · exact hpre x hx
    · exact mem_singleton.mp hx ▸ hw.trans (hw.asymm hc) hmn

theorem weight_append (l l' : List ℕ) : w.weight (l ++ l') = w.weight l + w.weight l' := by
  rw [weight, weight, weight, map_append, List.sum_append]

theorem weight_congr (h : ∀ x ∈ l, w'.children x = w.children x) : w'.weight l = w.weight l := by
  rw [weight, weight]
  congr 1
  exact map_congr_left fun x hx => by rw [childCount, childCount, h x hx]

theorem weight_lt_of_distinct (hnd : l.Nodup) (hbound : ∀ x ∈ l, w.childCount x < bits)
    (hdistinct : ∀ x ∈ l, ∀ y ∈ l, w.childCount x = w.childCount y → x = y) :
    w.weight l < 2 ^ bits := by
  have hmap : (l.map w.childCount).Nodup := hnd.map_on hdistinct
  have hsum : w.weight l = ∑ r ∈ (l.map w.childCount).toFinset, 2 ^ r := by
    rw [sum_toFinset _ hmap, List.map_map]
    rfl
  rw [hsum]
  refine Nat.geomSum_lt le_rfl fun r hr => ?_
  obtain ⟨x, hx, rfl⟩ := List.mem_map.mp (List.mem_toFinset.mp hr)
  exact hbound x hx

/-- What `consolidate` leaves. -/
structure Consolidated (cmp : α → α → Bool) (bits i : ℕ) (w w' : World α) : Prop where
  links : Links cmp i w w'
  weight : w'.weight (w'.roots i) = w.weight (w.roots i)
  bound : ∀ x ∈ w'.roots i, w'.childCount x < bits
  distinct : ∀ x ∈ w'.roots i, ∀ y ∈ w'.roots i, w'.childCount x = w'.childCount y → x = y

/-- **The loop of `consolidate`**, with the roots `pre` filed and the iterator at `n`. -/
theorem consolidateLoop_spec (hw : StrictWeak cmp) (fuel : ℕ) :
    ∀ (w : World α) (aux : ℕ → Option ℕ) (n : ℕ) (pre rest : List ℕ), Base cmp w →
      w.roots i = pre ++ n :: rest → Filed bits w aux { x | x ∈ pre } →
      (TopOf cmp w i pre ∨ pre = [] ∧ w.topElement i = some n) → rest.length < fuel →
      (w.consolidateLoop cmp bits i fuel aux n = none ∧ 2 ^ bits ≤ w.weight (w.roots i)) ∨
        ∃ w', w.consolidateLoop cmp bits i fuel aux n = some w' ∧
          Consolidated cmp bits i w w' ∧ TopOf cmp w' i (w'.roots i) := by
  induction fuel with
  | zero => exact fun w aux n pre rest _ _ _ _ hfuel => absurd hfuel (by omega)
  | succ fuel ih =>
    intro w aux n pre rest hb hroots hf ht hfuel
    have hnd := hb.nodup i
    rw [hroots] at hnd
    have hnpre : n ∉ pre := fun h => (nodup_append.mp hnd).2.2 n h n (by simp) rfl
    have hroots' : w.roots i = (pre ++ [n]) ++ rest := by rw [hroots]; simp
    have hset : { x | x ∈ pre ++ [n] ∧ x ≠ n } = { x | x ∈ pre } := by
      ext x
      simp only [Set.mem_ofPred_eq, mem_append, mem_singleton]
      constructor
      · rintro ⟨hx | hx, hxn⟩
        · exact hx
        · exact absurd hx hxn
      · exact fun hx => ⟨Or.inl hx, fun e => hnpre (e ▸ hx)⟩
    rw [consolidateLoop]
    rcases linkLoop_spec hw (bits + 1) w aux n (pre ++ [n]) rest hb hroots' (by simp) (hset ▸ hf)
      (by omega) with ⟨hnone, hle⟩ | ⟨w', aux', m, l', hsome, hl⟩
    · rw [hnone]
      refine Or.inl ⟨rfl, hle.trans ?_⟩
      rw [hroots', weight_append (pre ++ [n])]
      exact Nat.le_add_right _ _
    · rw [hsome, hroots, after_append hnpre]
      dsimp only
      obtain ⟨htop, o, ho⟩ := topOf_chooseTop hw hb ht hl
      obtain ⟨hb', hlocal⟩ := hl.links.base hb
      rw [ho] at htop ⊢
      have hweight : w'.weight (l' ++ rest) = w.weight (w.roots i) := by
        rw [hroots', weight_append, weight_append (pre ++ [n]), hl.weight]
        congr 1
        refine weight_congr fun x hx => hl.children x fun hx' => ?_
        have hnd' := hb.nodup i
        rw [hroots', nodup_append] at hnd'
        exact hnd'.2.2 x hx' x hx rfl
      have hlinks : Links cmp i w (w'.setTop i o) := hl.links.trans (.top o (.refl _))
      have hf' : Filed bits (w'.setTop i o) aux' { x | x ∈ l' } := ⟨hl.filed.entry, hl.filed.bound⟩
      have hroots'' : (w'.setTop i o).roots i = l' ++ rest := hl.roots
      cases rest with
      | nil =>
        rw [append_nil] at hweight hroots''
        refine Or.inr ⟨w'.setTop i o, rfl, ⟨hlinks, ?_, ?_, ?_⟩, ?_⟩
        · rw [hroots'']
          exact hweight
        · rw [hroots'']
          exact hf'.bound
        · rw [hroots'']
          intro x hx y hy hxy
          have hx' := (hf'.entry _ _).mpr ⟨hx, rfl⟩
          rw [(hf'.entry _ _).mpr ⟨hy, hxy.symm⟩, some_inj] at hx'
          exact hx'.symm
        · rw [hroots'']
          exact htop
      | cons m' rest' =>
        rw [length_cons] at hfuel
        rw [head?_cons]
        dsimp only
        rcases ih (w'.setTop i o) aux' m' l' rest' (hb'.setTop o) hroots'' hf' (Or.inl htop)
          (by omega) with ⟨hnone, hle⟩ | ⟨w₂, hsome₂, hc, htop₂⟩
        · rw [hroots''] at hle
          rw [hroots] at hweight
          exact Or.inl ⟨hnone, hle.trans hweight.le⟩
        · refine Or.inr ⟨w₂, hsome₂, ⟨hlinks.trans hc.links, ?_, hc.bound, hc.distinct⟩, htop₂⟩
          rw [hc.weight, hroots'']
          exact hweight

/-- **`consolidate`** stays inside its array exactly if the roots weigh less than `2 ^ bits`. -/
theorem consolidate_spec (hw : StrictWeak cmp) (bits : ℕ) (hb : Base cmp w) (hne : w.roots i ≠ []) :
    (w.consolidate cmp bits i = none ∧ 2 ^ bits ≤ w.weight (w.roots i)) ∨
      ∃ w', w.consolidate cmp bits i = some w' ∧ w.weight (w.roots i) < 2 ^ bits ∧
        Consolidated cmp bits i w w' ∧ TopOf cmp w' i (w'.roots i) := by
  rw [consolidate]
  cases hroots : w.roots i with
  | nil => exact absurd hroots hne
  | cons first rest =>
    have hf : Filed bits (w.setTop i (some first)) (fun _ => none) { x | x ∈ [] } :=
      ⟨fun r x => ⟨(nomatch ·), fun h => nomatch h.1⟩, fun x hx => nomatch hx⟩
    rcases consolidateLoop_spec hw (first :: rest).length (w.setTop i (some first)) _ first [] rest
      (hb.setTop _) hroots hf (Or.inr ⟨rfl, update_self ..⟩) (by simp) with
      ⟨hnone, hle⟩ | ⟨w', hsome, hc, htop⟩
    · rw [show (w.setTop i (some first)).roots i = first :: rest from hroots] at hle
      exact Or.inl ⟨hnone, hle⟩
    · have hc' : Consolidated cmp bits i w w' :=
        ⟨.top _ hc.links, hc.weight, hc.bound, hc.distinct⟩
      refine Or.inr ⟨w', hsome, ?_, hc', htop⟩
      rw [← hroots, ← hc'.weight]
      exact weight_lt_of_distinct ((hc'.links.base hb).1.nodup i) hc'.bound hc'.distinct

/-! ### A node taken out of its list -/

/-- A node is in one list only, so that taking it out there takes it out everywhere. -/
theorem unhook_eq (h : Base cmp w) (hn : w.ledger.owner n = some i) :
    w.unhook i n = { w with
      children := fun q => (w.children q).erase n
      roots := fun j => (w.roots j).erase n } := by
  rw [unhook]
  rcases h.root_or_child hn with ⟨hroot, hp⟩ | ⟨p, hp, hnp⟩
  · rw [hp]
    dsimp only
    rw [setRoots]
    congr 1
    · funext q
      exact (erase_of_not_mem (h.trees.root_free ⟨i, hroot⟩ q)).symm
    · funext j
      by_cases hj : j = i
      · rw [hj, update_self]
      · rw [update_of_ne hj, erase_of_not_mem fun hnj => hj (h.root_heap hroot hnj)]
  · rw [hp]
    dsimp only
    rw [setChildren]
    congr 1
    · funext q
      by_cases hq : q = p
      · rw [hq, update_self]
      · have hnq : n ∉ w.children q := fun hnq => hq (h.trees.valid.unique hnq hnp)
        rw [update_of_ne hq, erase_of_not_mem hnq]
    · funext j
      exact (erase_of_not_mem fun hnj => h.trees.root_free ⟨j, hnj⟩ p hnp).symm

/-- The lists once `n` is in `X` or gone and its children are roots of heap `i`. -/
structure Spilled (w w' : World α) (i n : ℕ) (X : Set ℕ) : Prop where
  children : w'.children = Function.update (fun q => (w.children q).erase n) n []
  roots : ∀ x, x ∈ w'.roots i ↔ (x ∈ w.roots i ∧ x ≠ n) ∨ x ∈ X ∨ x ∈ w.children n
  nodup : (w'.roots i).Nodup
  others : ∀ j, j ≠ i → w'.roots j = w.roots j
  parent : ∀ x, x ∉ w.children n → x ∉ X → w'.parent x = w.parent x
  parent_none : ∀ x, x ∈ w.children n ∨ x ∈ X → w'.parent x = none
  ledger : ∀ x, x ≠ n → w'.ledger.owner x = w.ledger.owner x
  kept : ∀ x ∈ X, x = n ∧ w'.ledger.owner x = some i

/-- The lists are in order again when the values are. -/
theorem Spilled.base {w' : World α} {X : Set ℕ} (hs : Spilled w w' i n X) (h : Base cmp w)
    (hn : w.ledger.owner n = some i)
    (ht : Trees cmp w'.toAccount (Function.update (fun q => (w.children q).erase n) n [])
      (w.allRoots \ {n} ∪ X ∪ { c | c ∈ w.children n })) : Base cmp w' := by
  have hself : ∀ c ∈ w.children n, c ≠ n := fun c hc e => h.trees.not_self_child (e ▸ hc)
  have hset : w'.allRoots = w.allRoots \ {n} ∪ X ∪ { c | c ∈ w.children n } := by
    ext x
    constructor
    · rintro ⟨j, hj⟩
      by_cases hji : j = i
      · subst hji
        rcases (hs.roots x).mp hj with ⟨hx, hxn⟩ | hx | hx
        · exact Or.inl (Or.inl ⟨⟨j, hx⟩, hxn⟩)
        · exact Or.inl (Or.inr hx)
        · exact Or.inr hx
      · rw [hs.others j hji] at hj
        refine Or.inl (Or.inl ⟨⟨j, hj⟩, fun e => hji ?_⟩)
        have ho := h.rooted j x hj
        rw [e, hn, some_inj] at ho
        exact ho.symm
    · rintro ((⟨⟨j, hj⟩, hxn⟩ | hx) | hx)
      · by_cases hji : j = i
        · exact ⟨i, (hs.roots x).mpr (Or.inl ⟨hji ▸ hj, hxn⟩)⟩
        · exact ⟨j, by rwa [hs.others j hji]⟩
      · exact ⟨i, (hs.roots x).mpr (Or.inr (Or.inl hx))⟩
      · exact ⟨i, (hs.roots x).mpr (Or.inr (Or.inr hx))⟩
  have hchild : ∀ {q c}, c ∈ w'.children q → c ∈ w.children q ∧ c ≠ n ∧ q ≠ n := by
    intro q c hc
    rw [hs.children] at hc
    by_cases hq : q = n
    · rw [hq, update_self] at hc
      cases hc
    · rw [update_of_ne hq, (h.trees.nodup q).mem_erase_iff] at hc
      exact ⟨hc.2, hc.1, hq⟩
  refine ⟨?_, fun j x hx => ?_, fun j => ?_, fun q c hc => ?_, fun j x hx => ?_⟩
  · rw [hset, hs.children]
    exact ht
  · by_cases hji : j = i
    · subst hji
      rcases (hs.roots x).mp hx with ⟨hx, hxn⟩ | hx | hx
      · exact (hs.ledger x hxn).trans (h.rooted j x hx)
      · exact (hs.kept x hx).2
      · rw [hs.ledger x (hself x hx), h.trees.owner_eq hx, hn]
    · rw [hs.others j hji] at hx
      have hxn : x ≠ n := by
        rintro rfl
        have ho := h.rooted j x hx
        rw [hn, some_inj] at ho
        exact hji ho.symm
      exact (hs.ledger x hxn).trans (h.rooted j x hx)
  · by_cases hji : j = i
    · exact hji ▸ hs.nodup
    · rw [hs.others j hji]
      exact h.nodup j
  · obtain ⟨hc', hcn, hqn⟩ := hchild hc
    rw [hs.parent c (fun hc'' => hqn (h.trees.valid.unique hc' hc'')) fun hc'' =>
      hcn (hs.kept c hc'').1, h.child_parent q c hc']
  · by_cases hx' : x ∈ w.children n ∨ x ∈ X
    · exact hs.parent_none x hx'
    · rw [hs.parent x (fun hx'' => hx' (Or.inl hx'')) fun hx'' => hx' (Or.inr hx'')]
      by_cases hji : j = i
      · subst hji
        rcases (hs.roots x).mp hx with ⟨hx, -⟩ | hx | hx
        · exact h.root_parent j x hx
        · exact absurd (Or.inr hx) hx'
        · exact absurd (Or.inl hx) hx'
      · rw [hs.others j hji] at hx
        exact h.root_parent j x hx

theorem unhook_account (a : Account α) :
    World.unhook { w with toAccount := a } i n = { w.unhook i n with toAccount := a } := by
  rw [unhook, unhook]
  cases w.parent n <;> rfl

/-- What `consolidate` has to file when `n` is gone and its children are roots. -/
def load (w : World α) (i n : ℕ) : ℕ :=
  (((w.roots i).erase n ++ w.children n).map fun x => 2 ^ ((w.children x).erase n).length).sum

theorem Spilled.weight {X : Set ℕ} (hs : Spilled w w' i n X) (h : Base cmp w) :
    w'.weight ((w.roots i).erase n ++ w.children n) = w.load i n := by
  rw [World.weight, load]
  congr 1
  refine map_congr_left fun x hx => ?_
  have hxn : x ≠ n := by
    rintro rfl
    rcases mem_append.mp hx with hx | hx
    · exact (h.nodup i).not_mem_erase hx
    · exact h.trees.not_self_child hx
  rw [childCount, hs.children, update_of_ne hxn]

theorem spilled_erase (h : Base cmp w) (hn : w.ledger.owner n = some i) :
    let w' := (World.unhook { w with ledger := w.ledger.drop n } i n).addChildrenToRoot i n
    Spilled w w' i n ∅ ∧ w'.toAccount = ⟨w.ledger.drop n, w.value⟩ ∧ w'.size = w.size ∧
      w'.topElement = w.topElement ∧ w'.roots i = (w.roots i).erase n ++ w.children n := by
  intro w'
  have hself : (w.children n).erase n = w.children n :=
    erase_of_not_mem h.trees.not_self_child
  have hw' : w' = { w with
      ledger := w.ledger.drop n
      children := Function.update (fun q => (w.children q).erase n) n []
      parent := fun x => if x ∈ w.children n then none else w.parent x
      roots := Function.update (fun j => (w.roots j).erase n) i
        ((w.roots i).erase n ++ w.children n) } := by
    show (World.unhook { w with toAccount := ⟨w.ledger.drop n, w.value⟩ } i n).addChildrenToRoot i n = _
    rw [unhook_account, unhook_eq h hn, addChildrenToRoot, setChildren, setRoots]
    simp only [hself]
  have hroots : w'.roots i = (w.roots i).erase n ++ w.children n := by
    simp only [hw', update_self]
  refine ⟨⟨by rw [hw'], fun x => ?_, ?_, fun j hj => ?_, fun x hx _ => ?_, fun x hx => ?_,
    fun x hx => ?_, fun x hx => nomatch hx⟩, by rw [hw'], by rw [hw'], by rw [hw'], hroots⟩
  · rw [hroots, mem_append, (h.nodup i).mem_erase_iff]
    simp [and_comm]
  · rw [hroots, nodup_append]
    refine ⟨(h.nodup i).erase n, h.trees.nodup n, fun a ha b hb e => ?_⟩
    exact h.trees.root_free ⟨i, mem_of_mem_erase ha⟩ n (e ▸ hb)
  · have hnj : n ∉ w.roots j := by
      intro hnj
      have ho := h.rooted j n hnj
      rw [hn, some_inj] at ho
      exact hj ho.symm
    simp only [hw', update_of_ne hj, erase_of_not_mem hnj]
  · rw [hw']
    exact if_neg hx
  · rw [hw']
    exact if_pos (hx.resolve_right (Set.notMem_empty x))
  · rw [hw']
    exact (Ledger.owner_drop n x).trans (if_neg hx)

/-- `update_lazy` up to the top. -/
def spill (w : World α) (i n : ℕ) : World α :=
  (match w.parent n with
    | some _ =>
      let w := w.unhook i n
      (w.setParent n none).setRoots i (n :: w.roots i)
    | none => w).addChildrenToRoot i n

theorem updateLazy_eq : w.updateLazy cmp i n = (w.spill i n).raiseTop cmp i n := rfl

/-- The lists when `n` is moved to the roots with its children, before `consolidate`. -/
theorem spilled_update (h : Base cmp w) (hn : w.ledger.owner n = some i) (v : α) :
    let w' := (w.assign n v).spill i n
    Spilled w w' i n {n} ∧ w'.toAccount = w.toAccount.assign n v ∧ w'.size = w.size ∧
      w'.topElement = w.topElement ∧
      (w'.roots i).Perm (n :: ((w.roots i).erase n ++ w.children n)) := by
  intro w'
  have hself : (w.children n).erase n = w.children n :=
    erase_of_not_mem h.trees.not_self_child
  obtain ⟨l, hl, hperm⟩ : ∃ l, w' = { w with
      toAccount := w.toAccount.assign n v
      children := Function.update (fun q => (w.children q).erase n) n []
      parent := fun x => if x ∈ w.children n then none else Function.update w.parent n none x
      roots := Function.update w.roots i (l ++ w.children n) } ∧ l.Perm (n :: (w.roots i).erase n) := by
    rcases h.root_or_child hn with ⟨hroot, hp⟩ | ⟨p, hp, hnp⟩
    · refine ⟨w.roots i, ?_, perm_cons_erase hroot⟩
      have hp' : (w.assign n v).parent n = none := hp
      have hparent : Function.update w.parent n none = w.parent := by
        rw [← hp, update_eq_self]
      have hchildren : (fun q => (w.children q).erase n) = w.children :=
        funext fun q => erase_of_not_mem (h.trees.root_free ⟨i, hroot⟩ q)
      show World.spill (w.assign n v) i n = _
      rw [spill, hp', hparent, hchildren]
      rfl
    · have hnR : n ∉ w.roots i := fun hnR => h.trees.root_free ⟨i, hnR⟩ p hnp
      refine ⟨n :: w.roots i, ?_, by rw [erase_of_not_mem hnR]⟩
      have hp' : (w.assign n v).parent n = some p := hp
      have hroots : (fun j => (w.roots j).erase n) = w.roots :=
        funext fun j => erase_of_not_mem fun hnj => h.trees.root_free ⟨j, hnj⟩ p hnp
      show World.spill (w.assign n v) i n = _
      rw [spill, hp']
      dsimp only
      rw [assign, unhook_account, unhook_eq h hn, addChildrenToRoot, setChildren, setRoots, setParent]
      simp only [hself, hroots, erase_of_not_mem hnR, update_self,
        update_idem, setRoots]
  have hroots : w'.roots i = l ++ w.children n := by
    rw [hl]
    exact update_self ..
  refine ⟨⟨by rw [hl], fun x => ?_, ?_, fun j hj => ?_, fun x hx hxn => ?_, fun x hx => ?_,
    fun x hx => ?_, fun x hx => ?_⟩, by rw [hl], by rw [hl], by rw [hl], ?_⟩
  · rw [hroots, mem_append, hperm.mem_iff, mem_cons, (h.nodup i).mem_erase_iff,
      Set.mem_singleton_iff]
    tauto
  · rw [hroots, nodup_append]
    refine ⟨hperm.nodup_iff.mpr (nodup_cons.mpr ⟨(h.nodup i).not_mem_erase, (h.nodup i).erase n⟩),
      h.trees.nodup n, fun a ha b hb e => ?_⟩
    rcases mem_cons.mp (hperm.mem_iff.mp ha) with han | ha
    · exact h.trees.not_self_child (han ▸ e ▸ hb)
    · exact h.trees.root_free ⟨i, mem_of_mem_erase ha⟩ n (e ▸ hb)
  · rw [hl]
    exact update_of_ne hj ..
  · rw [hl]
    exact (if_neg hx).trans (update_of_ne hxn ..)
  · rw [hl]
    rcases hx with hx | rfl
    · exact if_pos hx
    · exact (if_neg h.trees.not_self_child).trans (update_self ..)
  · rw [hl]
    rfl
  · rw [hl]
    exact ⟨hx, hx ▸ hn⟩
  · rw [hroots]
    exact hperm.append_right _

theorem erased_base (h : Base cmp w) (hn : w.ledger.owner n = some i) :
    let w' := (World.unhook { w with ledger := w.ledger.drop n } i n).addChildrenToRoot i n
    Base cmp w' ∧ w'.weight (w'.roots i) = w.load i n := by
  intro w'
  obtain ⟨hs, hacc, -, -, hroots⟩ := spilled_erase h hn
  have hlive : w.ledger.owner n ≠ none := by simp [hn]
  refine ⟨hs.base h hn ?_, ?_⟩
  · rw [hacc, Set.union_empty]
    exact h.trees.release hlive
  · rw [hroots]
    exact hs.weight h

theorem updated_base (h : Base cmp w) (hn : w.ledger.owner n = some i) (v : α) :
    let w' := (w.assign n v).spill i n
    Base cmp w' ∧ w'.weight (w'.roots i) = w.load i n + 1 := by
  intro w'
  obtain ⟨hs, hacc, -, -, hperm⟩ := spilled_update h hn v
  have hlive : w.ledger.owner n ≠ none := by simp [hn]
  refine ⟨hs.base h hn ?_, ?_⟩
  · have htrees := h.trees.isolate (w.toAccount.assign n v) hlive rfl
      fun x hx => update_of_ne hx ..
    rw [← Set.sdiff_union_self (s := w.allRoots) (t := {n})] at htrees
    rw [hacc]
    exact htrees
  · have hn0 : w'.childCount n = 0 := by
      rw [childCount, hs.children, update_self]
      rfl
    rw [← hs.weight h, World.weight, (hperm.map _).sum_eq, map_cons, sum_cons, hn0, pow_zero,
      add_comm, World.weight]

end World

end SourceLibs.FibonacciHeap
