import SourceLibs.Heap.PairingHeap
import Mathlib.Data.Set.Card

/-!
# Heap — the mutable skew heap

`skew_heap.hpp` with `mutable_<true>`: a node has two child pointers and a pointer to its parent.  As
in the pairing heap, a `World` holds the nodes of any number of heap objects.

While `merge_nodes_recursive` runs, the right child of every node it has passed is out of date, and
in `unlink_node` so are both children of the unlinked node and one of its parent.  `View` says which
lists of children the world stands for when the links of some nodes are not to be read.

* `mergeNodesRecursive_spec`: two trees become one, and nothing else changes.
* `unlinkNode_spec`: the node may be anywhere, also the root.
* `step_spec`, `run_spec`: every call, and every run, keeps the invariant.
-/

namespace SourceLibs.SkewHeap
open List Option Function Compare Handles

/-- The nodes and the heap objects; `left` and `right` are `children[0]` and `children[1]`. -/
structure World (α : Type*) extends Account α where
  left : ℕ → Option ℕ
  right : ℕ → Option ℕ
  parent : ℕ → Option ℕ
  root : ℕ → Option ℕ
  size : ℕ → ℕ

namespace World

variable {α : Type*} (cmp : α → α → Bool)

/-- No nodes, and every heap empty. -/
def empty (α : Type*) [Inhabited α] : World α :=
  ⟨.empty α, fun _ => none, fun _ => none, fun _ => none, fun _ => none, fun _ => 0⟩

/-- The children of a node. -/
def children (w : World α) (p : ℕ) : List ℕ := (w.left p).toList ++ (w.right p).toList

/-- `p->children[0] = o`. -/
def setLeft (w : World α) (p : ℕ) (o : Option ℕ) : World α :=
  { w with left := Function.update w.left p o }

/-- `p->children[1] = o`. -/
def setRight (w : World α) (p : ℕ) (o : Option ℕ) : World α :=
  { w with right := Function.update w.right p o }

/-- `n->set_parent(o)`. -/
def setParent (w : World α) (n : ℕ) (o : Option ℕ) : World α :=
  { w with parent := Function.update w.parent n o }

/-- `root = o` in heap `i`. -/
def setRoot (w : World α) (i : ℕ) (o : Option ℕ) : World α :=
  { w with root := Function.update w.root i o }

/-- `std::swap(p->children[0], p->children[1])`. -/
def swapChildren (w : World α) (p : ℕ) : World α :=
  { w with
    left := Function.update w.left p (w.right p)
    right := Function.update w.right p (w.left p) }

/-- `x` becomes the right child of `p`, then the children of `p` are swapped. -/
def adopt (w : World α) (p x : ℕ) (newParent : Option ℕ) : World α :=
  (((w.setRight p (some x)).setParent x (some p)).swapChildren p).setParent p newParent

/-- `merge_nodes_recursive`; `merge_nodes` of two nodes is this function. -/
def mergeNodesRecursive : ℕ → World α → ℕ → ℕ → Option ℕ → World α × ℕ
  | 0, w, node1, _, _ => (w, node1)
  | fuel + 1, w, node1, node2, newParent =>
    let (parent, child) :=
      if cmp (w.value node1) (w.value node2) then (node2, node1) else (node1, node2)
    let (w, merged) :=
      match w.right parent with
      | some r => mergeNodesRecursive fuel w r child (some parent)
      | none => (w, child)
    (w.adopt parent merged newParent, parent)

/-- `merge_nodes`; every level of the recursion passes another node. -/
def mergeNodes (w : World α) (node1 node2 newParent : Option ℕ) : World α × Option ℕ :=
  match node1, node2 with
  | none, none => (w, none)
  | none, some b => (w.setParent b newParent, some b)
  | some a, none => (w.setParent a newParent, some a)
  | some a, some b =>
    let (w, m) := w.mergeNodesRecursive cmp w.ledger.fresh a b newParent
    (w, some m)

/-- `merge_node`, with the root. -/
def mergeNode (w : World α) (i other : ℕ) : World α :=
  match w.root i with
  | some r =>
    let (w, m) := w.mergeNodes cmp (some r) (some other) none
    w.setRoot i m
  | none => w.setRoot i (some other)

def mergeChildren (w : World α) (n : ℕ) : World α × Option ℕ :=
  w.mergeNodes cmp (w.left n) (w.right n) (w.parent n)

/-- `o` in the place of the child `n` of `p`. -/
def replaceChild (w : World α) (p n : ℕ) (o : Option ℕ) : World α :=
  if w.left p = some n then w.setLeft p o else w.setRight p o

/-- `unlink_node`: its children take its place. -/
def unlinkNode (w : World α) (i n : ℕ) : World α :=
  let parent := w.parent n
  let (w, merged) := w.mergeChildren cmp n
  match parent with
  | some p => w.replaceChild p n merged
  | none => w.setRoot i merged

/-- `n->children.assign(0)`. -/
def clearChildren (w : World α) (n : ℕ) : World α := (w.setLeft n none).setRight n none

/-- `push`; the handle returned is `w.ledger.fresh`. -/
def push (w : World α) (i : ℕ) (v : α) : World α :=
  let n := w.ledger.fresh
  let w : World α :=
    { w with
      ledger := w.ledger.add i
      value := Function.update w.value n v
      size := Function.update w.size i (w.size i + 1) }
  ((w.clearChildren n).setParent n none).mergeNode cmp i n

/-- `pop`.  The links of a freed node are cleared: nothing reads them. -/
def pop (w : World α) (i : ℕ) : World α :=
  match w.root i with
  | none => w
  | some r =>
    let w := { w with ledger := w.ledger.drop r }
    let (w, merged) := w.mergeChildren cmp r
    let w := w.setRoot i merged
    { w with size := Function.update w.size i (w.size i - 1) }.clearChildren r

def erase (w : World α) (i n : ℕ) : World α :=
  let w := { w with ledger := w.ledger.drop n }
  let w := w.unlinkNode cmp i n
  { w with size := Function.update w.size i (w.size i - 1) }.clearChildren n

/-- `increase(handle)`; a node that is not the root has a parent. -/
def increaseNode (w : World α) (i n : ℕ) : World α :=
  if w.root i = some n then w
  else
    match w.parent n with
    | some p => ((w.replaceChild p n none).setParent n none).mergeNode cmp i n
    | none => w

/-- `decrease(handle)`. -/
def decreaseNode (w : World α) (i n : ℕ) : World α :=
  (((w.unlinkNode cmp i n).clearChildren n).setParent n none).mergeNode cmp i n

/-- `handle.node_->value = v`. -/
def assign (w : World α) (n : ℕ) (v : α) : World α :=
  { w with toAccount := w.toAccount.assign n v }

/-- `update(handle, v)`. -/
def update (w : World α) (i n : ℕ) (v : α) : World α :=
  if cmp (w.value n) v then (w.assign n v).increaseNode cmp i n
  else (w.assign n v).decreaseNode cmp i n

/-- `update(handle)`. -/
def updateNode (w : World α) (i n : ℕ) : World α :=
  match w.parent n with
  | some p =>
    if cmp (w.value p) (w.value n) then w.increaseNode cmp i n else w.decreaseNode cmp i n
  | none => w.decreaseNode cmp i n

/-- `merge`, of heap `j` into heap `i`. -/
def merge (w : World α) (i j : ℕ) : World α :=
  match w.root j with
  | none => w
  | some r =>
    let w := { w with ledger := w.ledger.absorb i j }
    let w := w.mergeNode cmp i r
    { w with
      size := Function.update (Function.update w.size i (w.size i + w.size j)) j 0
      root := Function.update w.root j none }

def top (w : World α) (i : ℕ) : Option α := (w.root i).map w.value

/-- One call. -/
def step (w : World α) : Op α → World α
  | .push i v => w.push cmp i v
  | .pop i => w.pop cmp i
  | .update i n v => w.update cmp i n v
  | .touch i n v => (w.assign n v).updateNode cmp i n
  | .increase i n v => (w.assign n v).increaseNode cmp i n
  | .decrease i n v => (w.assign n v).decreaseNode cmp i n
  | .erase i n => w.erase cmp i n
  | .merge i j => w.merge cmp i j

end World

/-! ### Merging two trees -/

namespace World

variable {α : Type*} {cmp : α → α → Bool}

/-- The lists `k` are the children of the nodes outside `B`, and their parent pointers agree. -/
structure View (w : World α) (k : ℕ → List ℕ) (B : Set ℕ) : Prop where
  children : ∀ p, p ∉ B → k p = w.children p
  parent : ∀ p, ∀ c ∈ k p, w.parent c = some p

/-- Only links outside `B` differ. -/
structure Frame (w w' : World α) (B : Set ℕ) : Prop where
  account : w'.toAccount = w.toAccount
  root : w'.root = w.root
  size : w'.size = w.size
  left : ∀ p ∈ B, w'.left p = w.left p
  right : ∀ p ∈ B, w'.right p = w.right p

theorem Frame.refl (w : World α) (B : Set ℕ) : Frame w w B :=
  ⟨rfl, rfl, rfl, fun _ _ => rfl, fun _ _ => rfl⟩

theorem Frame.trans {w w' w'' : World α} {B : Set ℕ} (h : Frame w w' B) (h' : Frame w' w'' B) :
    Frame w w'' B :=
  ⟨h'.account.trans h.account, h'.root.trans h.root, h'.size.trans h.size,
    fun p hp => (h'.left p hp).trans (h.left p hp), fun p hp => (h'.right p hp).trans (h.right p hp)⟩

theorem Frame.mono {w w' : World α} {B B' : Set ℕ} (h : Frame w w' B) (hB : B' ⊆ B) :
    Frame w w' B' :=
  ⟨h.account, h.root, h.size, fun p hp => h.left p (hB hp), fun p hp => h.right p (hB hp)⟩

variable {w : World α} {k : ℕ → List ℕ} {R B : Set ℕ}

theorem children_adopt {p x : ℕ} {o : Option ℕ} (q : ℕ) :
    (w.adopt p x o).children q = if q = p then x :: (w.left p).toList else w.children q := by
  rw [children, adopt, setParent, swapChildren, setParent, setRight]
  by_cases hq : q = p
  · simp [hq]
  · simp [hq, children]

theorem parent_adopt {p x : ℕ} {o : Option ℕ} (q : ℕ) :
    (w.adopt p x o).parent q = if q = p then o else if q = x then some p else w.parent q := by
  rw [adopt, setParent, swapChildren, setParent, setRight]
  simp only [update_apply]

theorem frame_adopt {p x : ℕ} {o : Option ℕ} (hp : p ∉ B) : Frame w (w.adopt p x o) B := by
  refine ⟨rfl, rfl, rfl, fun q hq => ?_, fun q hq => ?_⟩
  · have hqp : q ≠ p := fun e => hp (e ▸ hq)
    simp [adopt, setParent, swapChildren, setRight, hqp]
  · have hqp : q ≠ p := fun e => hp (e ▸ hq)
    simp [adopt, setParent, swapChildren, setRight, hqp]

/-- **`adopt`** of a root by a root whose right child is not to be read. -/
theorem adopt_spec (h : Trees cmp w.toAccount k R) {p x : ℕ} (hv : View w k (insert p B))
    (hkp : k p = (w.left p).toList) (hp : p ∈ R) (hx : x ∈ R) (hne : p ≠ x)
    (ho : w.ledger.owner x = w.ledger.owner p) (hord : cmp (w.value p) (w.value x) = false)
    (o : Option ℕ) :
    Trees cmp w.toAccount (Function.update k p (x :: k p)) (R \ {x}) ∧
      View (w.adopt p x o) (Function.update k p (x :: k p)) B := by
  have hmem : ∀ q c, c ∈ Function.update k p (x :: k p) q ↔ c ∈ k q ∨ (q = p ∧ c = x) := by
    intro q c
    by_cases hq : q = p
    · subst hq
      simp [or_comm]
    · simp [hq]
  refine ⟨h.link hp hx hne ho hord (fun q => ?_) hmem, fun q hq => ?_, fun q c hc => ?_⟩
  · by_cases hq : q = p
    · subst hq
      simp [h.root_free hx q, h.nodup q]
    · simp [hq, h.nodup q]
  · rw [children_adopt]
    by_cases hqp : q = p
    · subst hqp
      rw [update_self, if_pos rfl, hkp]
    · rw [update_of_ne hqp, if_neg hqp]
      exact hv.children q (by simp [hqp, hq])
  · rw [parent_adopt]
    rcases (hmem q c).mp hc with hc | ⟨rfl, rfl⟩
    · have hcp : c ≠ p := fun e => h.root_free hp q (e ▸ hc)
      have hcx : c ≠ x := fun e => h.root_free hx q (e ▸ hc)
      rw [if_neg hcp, if_neg hcx]
      exact hv.parent q c hc
    · rw [if_neg hne.symm, if_pos rfl]

theorem cut_right (h : Trees cmp w.toAccount k R) (hv : View w k B) {p r : ℕ} (hpB : p ∉ B)
    (hr : w.right p = some r) :
    Trees cmp w.toAccount (Function.update k p (w.left p).toList) (R ∪ {r}) ∧
      View w (Function.update k p (w.left p).toList) (insert p B) ∧ r ∈ k p ∧
      ∀ q, ∀ c ∈ Function.update k p (w.left p).toList q, c ∈ k q := by
  have hkp : k p = (w.left p).toList ++ [r] := by
    rw [hv.children p hpB, children, hr, toList_some]
  have hrp : r ∈ k p := by simp [hkp]
  have hnd := h.nodup p
  rw [hkp, nodup_append] at hnd
  have hmem : ∀ q c, c ∈ Function.update k p (w.left p).toList q ↔ c ∈ k q ∧ c ∉ ({r} : Set ℕ) := by
    intro q c
    rw [Set.mem_singleton_iff]
    by_cases hq : q = p
    · subst hq
      rw [update_self, hkp, mem_append, mem_singleton]
      constructor
      · exact fun hc => ⟨Or.inl hc, hnd.2.2 c hc r (by simp)⟩
      · rintro ⟨hc | hc, hcr⟩
        · exact hc
        · exact absurd hc hcr
    · rw [update_of_ne hq, iff_self_and]
      rintro hc rfl
      exact hq (h.valid.unique (F := shape w.ledger k R) hc hrp)
  have hsub : ∀ q, ∀ c ∈ Function.update k p (w.left p).toList q, c ∈ k q :=
    fun q c hc => ((hmem q c).mp hc).1
  refine ⟨h.detach {r} ?_ rfl (fun q => ?_) hmem fun q c hc => h.order q c (hsub q c hc),
    ⟨fun q hq => ?_, fun q c hc => hv.parent q c (hsub q c hc)⟩, hrp, hsub⟩
  · rintro c rfl
    exact Ledger.mem_live.mp (h.valid.child_live (F := shape w.ledger k R) hrp).2
  · by_cases hq : q = p
    · subst hq
      rw [update_self]
      exact hnd.1
    · rw [update_of_ne hq]
      exact h.nodup q
  · rw [Set.mem_insert_iff, not_or] at hq
    rw [update_of_ne hq.1]
    exact hv.children q hq.2

/-- No node of `B` is in the tree of `a`. -/
def Avoids (w : World α) (k : ℕ → List ℕ) (R B : Set ℕ) (a : ℕ) : Prop :=
  ∀ x ∈ B, ¬ (shape w.ledger k R).Reaches x a

/-- What is left when two trees with the roots `a` and `b` were merged. -/
structure Merged (cmp : α → α → Bool) (w w' : World α) (k : ℕ → List ℕ) (R B : Set ℕ) (a b m : ℕ)
    (o : Option ℕ) : Prop where
  frame : Frame w w' B
  parent : w'.parent m = o
  others : ∀ x ∈ R, x ≠ a → x ≠ b → w'.parent x = w.parent x
  trees : ∃ k' s, (m = a ∧ s = b ∨ m = b ∧ s = a) ∧ Trees cmp w.toAccount k' (R \ {s}) ∧
    View w' k' B ∧ ∀ p ∈ B, k' p = k p

theorem Merged.symm {w' : World α} {a b m : ℕ} {o : Option ℕ} (h : Merged cmp w w' k R B a b m o) :
    Merged cmp w w' k R B b a m o := by
  obtain ⟨hframe, hparent, hothers, k', s, hs, htrees⟩ := h
  exact ⟨hframe, hparent, fun x hx hb ha => hothers x hx ha hb, k', s, hs.symm, htrees⟩

/-- A root without a right child takes another root as it is. -/
theorem merged_of_none (h : Trees cmp w.toAccount k R) (hv : View w k B) {p c : ℕ} (hpB : p ∉ B)
    (hr : w.right p = none) (hp : p ∈ R) (hc : c ∈ R) (hne : p ≠ c)
    (ho : w.ledger.owner c = w.ledger.owner p) (hord : cmp (w.value p) (w.value c) = false)
    (o : Option ℕ) : Merged cmp w (w.adopt p c o) k R B p c p o := by
  have hkp : k p = (w.left p).toList := by
    rw [hv.children p hpB, children, hr, toList_none, append_nil]
  have hv' : View w k (insert p B) :=
    ⟨fun q hq => hv.children q fun hqB => hq (Or.inr hqB), hv.parent⟩
  obtain ⟨htrees, hview⟩ := adopt_spec h hv' hkp hp hc hne ho hord o
  refine ⟨frame_adopt hpB, ?_, fun x hx hxp hxc => ?_, _, c, Or.inl ⟨rfl, rfl⟩, htrees, hview,
    fun q hq => ?_⟩
  · rw [parent_adopt, if_pos rfl]
  · rw [parent_adopt, if_neg hxp, if_neg hxc]
  · have hqp : q ≠ p := fun e => hpB (e ▸ hq)
    rw [update_of_ne hqp]

theorem merged_of_some (h : Trees cmp w.toAccount k R) {p c r m : ℕ} {w' : World α} (hpB : p ∉ B)
    (hrp : r ∈ k p) (hp : p ∈ R) (hc : c ∈ R) (hne : p ≠ c)
    (ho : w.ledger.owner c = w.ledger.owner p) (hord : cmp (w.value p) (w.value c) = false)
    (hm : Merged cmp w w' (Function.update k p (w.left p).toList) (R ∪ {r}) (insert p B) r c m
      (some p)) (o : Option ℕ) : Merged cmp w (w'.adopt p m o) k R B p c p o := by
  obtain ⟨hframe, -, hothers, k', s, hs, htrees, hview, hfix⟩ := hm
  have hrR : r ∉ R := fun hr => h.root_free hr p hrp
  have hrp' : r ≠ p := fun e => hrR (e ▸ hp)
  have hrc : r ≠ c := fun e => hrR (e ▸ hc)
  have hkp : k' p = (w'.left p).toList := by
    rw [hfix p (Or.inl rfl), update_self, hframe.left p (Or.inl rfl)]
  have hmord : cmp (w.value p) (w.value m) = false := by
    rcases hs with ⟨rfl, -⟩ | ⟨rfl, -⟩
    · exact h.order p _ hrp
    · exact hord
  have hmo : w.ledger.owner m = w.ledger.owner p := by
    rcases hs with ⟨rfl, -⟩ | ⟨rfl, -⟩
    · exact h.owner_eq hrp
    · exact ho
  have hmem : p ∈ (R ∪ {r}) \ {s} ∧ m ∈ (R ∪ {r}) \ {s} ∧ p ≠ m := by
    rcases hs with ⟨rfl, rfl⟩ | ⟨rfl, rfl⟩
    · exact ⟨⟨Or.inl hp, hne⟩, ⟨Or.inr rfl, hrc⟩, hrp'.symm⟩
    · exact ⟨⟨Or.inl hp, hrp'.symm⟩, ⟨Or.inl hc, hrc.symm⟩, hne⟩
  have hroots : ((R ∪ {r}) \ {s}) \ {m} = R \ {c} := by
    ext x
    simp only [Set.mem_sdiff, Set.mem_union, Set.mem_singleton_iff]
    have hxr : x ∈ R → x ≠ r := fun hx e => hrR (e ▸ hx)
    rcases hs with ⟨rfl, rfl⟩ | ⟨rfl, rfl⟩ <;> tauto
  rw [← hframe.account] at htrees hmord hmo
  obtain ⟨htrees', hview'⟩ := adopt_spec htrees hview hkp hmem.1 hmem.2.1 hmem.2.2 hmo hmord o
  rw [hframe.account, hroots] at htrees'
  refine ⟨(hframe.mono (Set.subset_insert p B)).trans (frame_adopt hpB), ?_, fun x hx hxp hxc => ?_,
    _, c, Or.inl ⟨rfl, rfl⟩, htrees', hview', fun q hq => ?_⟩
  · rw [parent_adopt, if_pos rfl]
  · have hxr : x ≠ r := fun e => hrR (e ▸ hx)
    have hxm : x ≠ m := by
      rcases hs with ⟨rfl, -⟩ | ⟨rfl, -⟩
      · exact hxr
      · exact hxc
    rw [parent_adopt, if_neg hxp, if_neg hxm, hothers x (Or.inl hx) hxr hxc]
  · have hqp : q ≠ p := fun e => hpB (e ▸ hq)
    rw [update_of_ne hqp, hfix q (Or.inr hq), update_of_ne hqp]

theorem avoids_cut (h : Trees cmp w.toAccount k R) {p c r : ℕ} {k₁ : ℕ → List ℕ} (hp : p ∈ R)
    (hc : c ∈ R) (hne : p ≠ c) (hrp : r ∈ k p) (hsub : ∀ q, ∀ x ∈ k₁ q, x ∈ k q)
    (h₁ : Trees cmp w.toAccount k₁ (R ∪ {r})) (hap : Avoids w k R B p) (hac : Avoids w k R B c) :
    Avoids w k₁ (R ∪ {r}) (insert p B) r ∧ Avoids w k₁ (R ∪ {r}) (insert p B) c := by
  have hroot : (shape w.ledger k₁ (R ∪ {r})).Reaches p p := .root (Or.inl hp)
  have hrR : r ∉ R := fun hr => h.root_free hr p hrp
  constructor
  · rintro x (rfl | hx) hreach
    · exact hrR (h₁.valid.reaches_unique hroot hreach ▸ hp)
    · exact hap x hx (hreach.of_detached (F := shape w.ledger k R) hsub (.child hrp (.root hp)))
  · rintro x (rfl | hx) hreach
    · exact hne (h₁.valid.reaches_unique hroot hreach)
    · exact hac x hx (hreach.of_detached (F := shape w.ledger k R) hsub (.root hc))

/-- **`merge_nodes_recursive`** makes one tree of two, and reads and writes nothing in `B`. -/
theorem mergeNodesRecursive_spec (hw : StrictWeak cmp) (fuel : ℕ) :
    ∀ (w : World α) (k : ℕ → List ℕ) (R B : Set ℕ) (a b : ℕ) (o : Option ℕ),
      Trees cmp w.toAccount k R → View w k B → a ∈ R → b ∈ R → a ≠ b →
      w.ledger.owner a = w.ledger.owner b → Avoids w k R B a → Avoids w k R B b →
      ((w.ledger.live : Set ℕ) \ B).ncard ≤ fuel →
      Merged cmp w (w.mergeNodesRecursive cmp fuel a b o).1 k R B a b
        (w.mergeNodesRecursive cmp fuel a b o).2 o := by
  induction fuel with
  | zero =>
    intro w k R B a b o h hv ha hb hne ho haa hab hfuel
    rw [Nat.le_zero, Set.ncard_eq_zero ((Finset.finite_toSet _).sdiff)] at hfuel
    have hlive : a ∈ (w.ledger.live : Set ℕ) \ B :=
      ⟨h.valid.root_live (F := shape w.ledger k R) ha, fun haB => haa a haB (.root ha)⟩
    rw [hfuel] at hlive
    exact absurd hlive (Set.notMem_empty a)
  | succ fuel ih =>
    intro w k R B a b o h hv ha hb hne ho haa hab hfuel
    have hstep : ∀ p c, p ∈ R → c ∈ R → p ≠ c → w.ledger.owner c = w.ledger.owner p →
        cmp (w.value p) (w.value c) = false → Avoids w k R B p → Avoids w k R B c →
        let g := match w.right p with
          | some r => w.mergeNodesRecursive cmp fuel r c (some p)
          | none => (w, c)
        Merged cmp w (g.1.adopt p g.2 o) k R B p c p o := by
      intro p c hp hc hpc hoc hord hap hac
      have hpB : p ∉ B := fun hpB => hap p hpB (.root hp)
      cases hr : w.right p with
      | none => exact merged_of_none h hv hpB hr hp hc hpc hoc hord o
      | some r =>
        obtain ⟨h₁, hv₁, hrp, hsub⟩ := cut_right h hv hpB hr
        obtain ⟨har, hac'⟩ := avoids_cut h hp hc hpc hrp hsub h₁ hap hac
        have hrc : r ≠ c := fun e => h.root_free hc p (e ▸ hrp)
        have hro : w.ledger.owner r = w.ledger.owner c := (h.owner_eq hrp).trans hoc.symm
        have hlt : ((w.ledger.live : Set ℕ) \ insert p B).ncard <
            ((w.ledger.live : Set ℕ) \ B).ncard := by
          refine Set.ncard_lt_ncard ⟨?_, fun hss => ?_⟩ (Finset.finite_toSet _).sdiff
          · exact Set.sdiff_subset_sdiff_right (Set.subset_insert p B)
          · have hplive : p ∈ (w.ledger.live : Set ℕ) \ B :=
              ⟨h.valid.root_live (F := shape w.ledger k R) hp, hpB⟩
            exact (hss hplive).2 (Or.inl rfl)
        exact merged_of_some h hpB hrp hp hc hpc hoc hord
          (ih w _ _ _ r c (some p) h₁ hv₁ (Or.inr rfl) (Or.inl hc) hrc hro har hac' (by omega)) o
    rw [mergeNodesRecursive]
    cases hcmp : cmp (w.value a) (w.value b) with
    | true => exact (hstep b a hb ha hne.symm ho (hw.asymm hcmp) hab haa).symm
    | false => exact hstep a b ha hb hne ho.symm hcmp haa hab

/-- What is left when the trees of two pointers, either of which may be null, were merged. -/
structure Joined (cmp : α → α → Bool) (w w' : World α) (k : ℕ → List ℕ) (R B : Set ℕ)
    (node1 node2 o merged : Option ℕ) : Prop where
  frame : Frame w w' B
  result : ∀ m, merged = some m → (node1 = some m ∨ node2 = some m) ∧ w'.parent m = o
  others : ∀ x ∈ R, w'.parent x = w.parent x
  trees : ∃ k', Trees cmp w.toAccount k' (R ∪ { x | merged = some x }) ∧ View w' k' B ∧
    ∀ p ∈ B, k' p = k p

theorem joined_setParent {a : ℕ} {node1 node2 : Option ℕ} (h : Trees cmp w.toAccount k (R ∪ {a}))
    (hv : View w k B) (ha : a ∉ R) (hnode : node1 = some a ∨ node2 = some a) (o : Option ℕ) :
    Joined cmp w (w.setParent a o) k R B node1 node2 o (some a) where
  frame := ⟨rfl, rfl, rfl, fun _ _ => rfl, fun _ _ => rfl⟩
  result m hm := by
    rw [← some_inj.mp hm]
    exact ⟨hnode, update_self ..⟩
  others x hx := by
    have hxa : x ≠ a := fun e => ha (e ▸ hx)
    exact update_of_ne hxa ..
  trees := by
    have hset : { x | some a = some x } = {a} := by
      ext x
      simp [eq_comm]
    refine ⟨k, by rwa [hset], ⟨hv.children, fun p c hc => ?_⟩, fun _ _ => rfl⟩
    have hca : c ≠ a := fun e => h.root_free (Or.inr rfl) p (e ▸ hc)
    exact (update_of_ne hca ..).trans (hv.parent p c hc)

theorem mergeNodes_spec (hw : StrictWeak cmp) {node1 node2 : Option ℕ} {i : ℕ}
    (h : Trees cmp w.toAccount k (R ∪ { x | node1 = some x ∨ node2 = some x })) (hv : View w k B)
    (hR : ∀ x, node1 = some x ∨ node2 = some x → x ∉ R) (hne : ∀ x, node1 = some x → node2 ≠ some x)
    (ho : ∀ x, node1 = some x ∨ node2 = some x → w.ledger.owner x = some i)
    (hB : ∀ x, node1 = some x ∨ node2 = some x →
      Avoids w k (R ∪ { x | node1 = some x ∨ node2 = some x }) B x) (o : Option ℕ) :
    Joined cmp w (w.mergeNodes cmp node1 node2 o).1 k R B node1 node2 o
      (w.mergeNodes cmp node1 node2 o).2 := by
  match node1, node2 with
  | none, none =>
    have hset : { x : ℕ | none = some x ∨ none = some x } = { x | none = some x } := by simp
    rw [hset] at h
    exact ⟨Frame.refl w B, (fun m hm => nomatch hm), fun _ _ => rfl, k, h, hv, fun _ _ => rfl⟩
  | none, some b =>
    have hset : { x | none = some x ∨ some b = some x } = {b} := by
      ext x
      simp [eq_comm]
    rw [hset] at h
    exact joined_setParent h hv (hR b (Or.inr rfl)) (Or.inr rfl) o
  | some a, none =>
    have hset : { x | some a = some x ∨ none = some x } = {a} := by
      ext x
      simp [eq_comm]
    rw [hset] at h
    exact joined_setParent h hv (hR a (Or.inl rfl)) (Or.inl rfl) o
  | some a, some b =>
    have hab : a ≠ b := fun e => hne a rfl (e ▸ rfl)
    have hfuel : ((w.ledger.live : Set ℕ) \ B).ncard ≤ w.ledger.fresh := by
      have hle := Set.ncard_le_ncard (Set.sdiff_subset (s := (w.ledger.live : Set ℕ)) (t := B))
        (Finset.finite_toSet _)
      rw [Set.ncard_coe_finset] at hle
      refine hle.trans ((Finset.card_filter_le _ _).trans ?_)
      rw [Finset.card_range]
    obtain ⟨hframe, hparent, hothers, k', s, hs, htrees, hview, hfix⟩ :=
      mergeNodesRecursive_spec hw w.ledger.fresh w k _ B a b o h hv (Or.inr (Or.inl rfl))
        (Or.inr (Or.inr rfl)) hab ((ho a (Or.inl rfl)).trans (ho b (Or.inr rfl)).symm)
        (hB a (Or.inl rfl)) (hB b (Or.inr rfl)) hfuel
    rw [mergeNodes]
    dsimp only
    generalize w.mergeNodesRecursive cmp w.ledger.fresh a b o = g at *
    obtain ⟨w', m⟩ := g
    refine ⟨hframe, fun m' hm' => ?_, fun x hx => hothers x (Or.inl hx) ?_ ?_, k', ?_, hview, hfix⟩
    · rw [← some_inj.mp hm']
      refine ⟨?_, hparent⟩
      rcases hs with ⟨rfl, -⟩ | ⟨rfl, -⟩
      · exact Or.inl rfl
      · exact Or.inr rfl
    · exact fun e => hR a (Or.inl rfl) (e ▸ hx)
    · exact fun e => hR b (Or.inr rfl) (e ▸ hx)
    · convert htrees using 1
      ext x
      have hxa : x ∈ R → x ≠ a := fun hx e => hR a (Or.inl rfl) (e ▸ hx)
      have hxb : x ∈ R → x ≠ b := fun hx e => hR b (Or.inr rfl) (e ▸ hx)
      simp only [Set.mem_union, Set.mem_sdiff, Set.mem_ofPred_eq, Set.mem_singleton_iff,
        some_inj, @eq_comm _ _ x]
      rcases hs with ⟨rfl, rfl⟩ | ⟨rfl, rfl⟩
      · constructor
        · rintro (hx | rfl)
          · exact ⟨Or.inl hx, hxb hx⟩
          · exact ⟨Or.inr (Or.inl rfl), hab⟩
        · tauto
      · constructor
        · rintro (hx | rfl)
          · exact ⟨Or.inl hx, hxa hx⟩
          · exact ⟨Or.inr (Or.inr rfl), hab.symm⟩
        · tauto

/-! ### Parent pointers -/

/-- The parent pointer of a child is its parent, and that of a root is null. -/
structure Linked (w : World α) : Prop where
  child : ∀ p, ∀ c ∈ w.children p, w.parent c = some p
  root : ∀ i r, w.root i = some r → w.parent r = none

/-- **`merge_node`** of a tree that is no heap's yet. -/
theorem mergeNode_spec (hw : StrictWeak cmp) {i other : ℕ} (hrooted : Rooted w.ledger w.root)
    (hl : Linked w) (h : Trees cmp w.toAccount w.children (heapRoots w.root ∪ {other}))
    (hother : other ∉ heapRoots w.root) (ho : w.ledger.owner other = some i)
    (hparent : w.parent other = none) :
    OneTree cmp w.toAccount (w.mergeNode cmp i other).children (w.mergeNode cmp i other).root ∧
      Linked (w.mergeNode cmp i other) ∧ (w.mergeNode cmp i other).toAccount = w.toAccount ∧
      (w.mergeNode cmp i other).size = w.size := by
  rw [mergeNode]
  cases hr : w.root i with
  | none =>
    rw [← heapRoots_fill (hrooted.inj i) hr] at h
    refine ⟨⟨h, hrooted.update fun n hn => some_inj.mp hn ▸ ho⟩, ⟨hl.child, ?_⟩, rfl, rfl⟩
    exact roots_update (fun j x _ hx => hl.root j x hx) fun x hx => some_inj.mp hx ▸ hparent
  | some r =>
    have hro : r ≠ other := fun e => hother ⟨i, e ▸ hr⟩
    have hset : heapRoots w.root ∪ {other} =
        (heapRoots w.root \ {r}) ∪ { x | some r = some x ∨ some other = some x } := by
      have hrR : r ∈ heapRoots w.root := ⟨i, hr⟩
      ext x
      simp only [Set.mem_union, Set.mem_sdiff, Set.mem_singleton_iff, Set.mem_ofPred_eq,
        some_inj]
      by_cases hx : x = r
      · simp [hx, hrR]
      · have hx' : r ≠ x := fun e => hx e.symm
        simp [hx, hx', eq_comm]
    rw [hset] at h
    have hview : View w w.children ∅ := ⟨fun _ _ => rfl, hl.child⟩
    obtain ⟨hframe, hres, hothers, k', htrees, hview', -⟩ := mergeNodes_spec hw h hview
      (by
        rintro x (hx | hx) hxR
        · exact hxR.2 (some_inj.mp hx).symm
        · exact hother (some_inj.mp hx ▸ hxR.1))
      (by
        rintro x hx hx'
        exact hro ((some_inj.mp hx).trans (some_inj.mp hx').symm))
      (by
        rintro x (hx | hx)
        · exact some_inj.mp hx ▸ hrooted i r hr
        · exact some_inj.mp hx ▸ ho)
      (fun x _ y hy => nomatch hy) none
    dsimp only
    generalize w.mergeNodes cmp (some r) (some other) none = g at *
    obtain ⟨w', m⟩ := g
    have hk : k' = w'.children := funext fun p => hview'.children p (Set.notMem_empty p)
    subst hk
    have hroot : w'.root = w.root := hframe.root
    refine ⟨⟨?_, ?_⟩, ⟨hview'.parent, ?_⟩, hframe.account, hframe.size⟩
    · rw [setRoot, hroot, heapRoots_replace (hrooted.inj i) hr]
      exact htrees
    · rw [setRoot, hroot]
      refine hrooted.update fun x hx => ?_
      rcases (hres x hx).1 with hx | hx
      · exact some_inj.mp hx ▸ hrooted i r hr
      · exact some_inj.mp hx ▸ ho
    · rw [setRoot, hroot]
      refine roots_update (fun j x hj hx => ?_) fun x hx => (hres x hx).2
      refine (hothers x ⟨⟨j, hx⟩, fun e => hj ?_⟩).trans (hl.root j x hx)
      rw [Set.mem_singleton_iff] at e
      exact hrooted.inj i j r (e ▸ hx) hr

/-! ### A node taken out of its tree -/

theorem mem_children {p c : ℕ} : c ∈ w.children p ↔ w.left p = some c ∨ w.right p = some c := by
  rw [children, mem_append, mem_toList, mem_toList]

/-- The nodes whose links are out of date when `n` is taken out: `n` and its parent. -/
def around (w : World α) (n : ℕ) : Set ℕ := { q | q = n ∨ n ∈ w.children q }

/-- The children once `n` is taken out of its tree and its children are roots. -/
def without (w : World α) (n : ℕ) : ℕ → List ℕ :=
  Function.update (fun q => (w.children q).erase n) n []

theorem mem_without (hnd : ∀ q, (w.children q).Nodup) {n q c : ℕ} (hc : c ∈ w.without n q) :
    c ∈ w.children q ∧ c ≠ n := by
  rw [without] at hc
  by_cases hq : q = n
  · rw [hq, update_self] at hc
    cases hc
  · rw [update_of_ne hq, (hnd q).mem_erase_iff] at hc
    exact hc.symm

theorem without_of_far {n q : ℕ} (hq : q ∉ w.around n) : w.without n q = w.children q := by
  obtain ⟨hqn, hn⟩ := not_or.mp hq
  rw [without, update_of_ne hqn, erase_of_not_mem hn]

/-- What is left when the trees of the children of `n` were merged. -/
structure Pruned (cmp : α → α → Bool) (w w' : World α) (R : Set ℕ) (n : ℕ) (merged : Option ℕ) :
    Prop where
  frame : Frame w w' (w.around n)
  result : ∀ m, merged = some m → m ∈ w.children n ∧ w'.parent m = w.parent n
  others : ∀ x ∈ R, w'.parent x = w.parent x
  trees : ∃ k, Trees cmp w.toAccount k (R ∪ { x | merged = some x }) ∧ View w' k (w.around n) ∧
    (∀ q ∈ w.around n, k q = w.without n q) ∧
    ∀ q, n ∈ w.children q →
      ∃ t, (shape w.ledger k (R ∪ { x | merged = some x })).Reaches q t ∧ merged ≠ some t

/-- **`merge_children`** of a node that is taken out of its tree. -/
theorem mergeChildren_spec (hw : StrictWeak cmp) {a : Account α} {n i : ℕ} {S : Set ℕ}
    (h : Trees cmp a w.children S) (hl : Linked w)
    (hout : Trees cmp w.toAccount (w.without n) (R ∪ { c | c ∈ w.children n }))
    (hR : ∀ c ∈ w.children n, c ∉ R) (ho : ∀ c ∈ w.children n, w.ledger.owner c = some i)
    (hlive : ∀ q, n ∈ w.children q → w.ledger.owner q ≠ none) :
    Pruned cmp w (w.mergeChildren cmp n).1 R n (w.mergeChildren cmp n).2 := by
  have hset : { c | c ∈ w.children n } = { x | w.left n = some x ∨ w.right n = some x } := by
    ext x
    exact mem_children
  have hsub : ∀ q, ∀ c ∈ w.without n q, c ∈ w.children q :=
    fun q c hc => (mem_without h.nodup hc).1
  -- The merge is told to leave alone every node outside the trees of the children.
  let F := shape w.ledger (w.without n) (R ∪ { c | c ∈ w.children n })
  let B : Set ℕ := { x | ∀ c ∈ w.children n, ¬ F.Reaches x c }
  have hround : w.around n ⊆ B := by
    rintro q (rfl | hq) c hc hreach
    · cases hreach with
      | root => exact h.not_self_child hc
      | child hp _ => exact (mem_without h.nodup hp).2 rfl
    · have hchain : Relation.ReflTransGen (fun c p => c ∈ w.children p) q c :=
        Relation.ReflTransGen.mono (fun x y hxy => hsub y x hxy) _ _ hreach.ancestor
      exact h.valid.acyclic q (Relation.TransGen.tail' (hchain.tail hc) hq)
  have hview : View w (w.without n) B :=
    ⟨fun q hq => without_of_far fun hq' => hq (hround hq'),
      fun q c hc => hl.child q c (hsub q c hc)⟩
  have hdistinct : ∀ x, w.left n = some x → w.right n ≠ some x := by
    intro x hx hx'
    have hnd := h.nodup n
    rw [children, hx, hx'] at hnd
    simp at hnd
  obtain ⟨hframe, hres, hothers, k, htrees, hview', hfix⟩ := mergeNodes_spec (i := i) hw
    (hset ▸ hout) hview (fun x hx => hR x (mem_children.mpr hx)) hdistinct
    (fun x hx => ho x (mem_children.mpr hx))
    (fun x hx y hy hreach => hy x (mem_children.mpr hx) (by rw [← hset] at hreach; exact hreach))
    (w.parent n)
  have hcarry : ∀ {x t}, F.Reaches x t → x ∈ B →
      (shape w.ledger k (R ∪ { x | (w.mergeChildren cmp n).2 = some x })).Reaches x t ∧
        t ∉ w.children n := by
    intro x t hreach
    induction hreach with
    | @root t ht =>
      intro hx
      have htn : t ∉ w.children n := fun htn => hx t htn (.root ht)
      exact ⟨.root (Or.inl (ht.resolve_right htn)), htn⟩
    | @child q c t hc _ ih =>
      intro hx
      have hq : q ∈ B := fun c' hc' hreach => hx c' hc' (.child hc hreach)
      obtain ⟨hreach, htn⟩ := ih hq
      have hck : c ∈ k q := by
        rw [hfix q hq]
        exact hc
      exact ⟨.child hck hreach, htn⟩
  refine ⟨hframe.mono hround, fun m hm => ⟨mem_children.mpr (hres m hm).1, (hres m hm).2⟩, hothers,
    k, htrees, ⟨fun q hq => ?_, hview'.parent⟩, fun q hq => hfix q (hround hq), fun q hq => ?_⟩
  · by_cases hqB : q ∈ B
    · rw [hfix q hqB, without_of_far hq, children, children, ← hframe.left q hqB,
        ← hframe.right q hqB]
      rfl
    · exact hview'.children q hqB
  · obtain ⟨t, ht⟩ := hout.valid.reaches (n := q) (Ledger.mem_live.mpr (hlive q hq))
    obtain ⟨hreach, htn⟩ := hcarry ht (hround (Or.inr hq))
    exact ⟨t, hreach, fun hm => htn (mem_children.mpr (hres t hm).1)⟩

theorem children_replaceChild {p n : ℕ} (hn : n ∈ w.children p) (o : Option ℕ) :
    ((w.replaceChild p n o).children p).Perm (o.toList ++ (w.children p).erase n) := by
  rw [replaceChild]
  by_cases hleft : w.left p = some n
  · rw [if_pos hleft, setLeft, children, children, hleft]
    simp
  · have hright : w.right p = some n := (mem_children.mp hn).resolve_left hleft
    have hnl : n ∉ (w.left p).toList := fun h => hleft (mem_toList.mp h)
    rw [if_neg hleft, setRight, children, children, hright, erase_append_right _ hnl]
    simpa using perm_append_comm

theorem children_replaceChild_of_ne {p n q : ℕ} (hq : q ≠ p) (o : Option ℕ) :
    (w.replaceChild p n o).children q = w.children q := by
  rw [replaceChild]
  split <;> simp [children, setLeft, setRight, hq]

theorem frame_replaceChild (p n : ℕ) (o : Option ℕ) : Frame w (w.replaceChild p n o) ∅ ∧
    (w.replaceChild p n o).parent = w.parent := by
  rw [replaceChild]
  split <;> exact ⟨⟨rfl, rfl, rfl, (fun _ h => nomatch h), (fun _ h => nomatch h)⟩, rfl⟩

theorem trees_replaceChild {w' : World α} {m : Option ℕ} {p : ℕ}
    (hmw : Trees cmp w.toAccount k (R ∪ { x | m = some x }))
    (hR : ∀ x, m = some x → x ∉ R)
    (hperm : (w'.children p).Perm (m.toList ++ k p))
    (hreach : ∃ t, (shape w.ledger k (R ∪ { x | m = some x })).Reaches p t ∧ m ≠ some t)
    (ho : ∀ x, m = some x → w.ledger.owner x = w.ledger.owner p)
    (hord : ∀ x, m = some x → cmp (w.value p) (w.value x) = false) :
    Trees cmp w.toAccount (Function.update k p (w'.children p)) R := by
  cases m with
  | none =>
    have hset : R ∪ { x | none = some x } = R := by simp
    rw [hset] at hmw
    refine hmw.perm fun q => ?_
    by_cases hq : q = p
    · subst hq
      rw [update_self]
      exact hperm
    · rw [update_of_ne hq]
  | some m =>
    have hset : (R ∪ { x | some m = some x }) \ {m} = R := by
      ext x
      have hx : x ∈ R → x ≠ m := fun hx e => hR m rfl (e ▸ hx)
      simp only [Set.mem_sdiff, Set.mem_union, Set.mem_ofPred_eq, some_inj,
        Set.mem_singleton_iff]
      constructor
      · rintro ⟨hx | rfl, hne⟩
        · exact hx
        · exact absurd rfl hne
      · exact fun hx' => ⟨Or.inl hx', hx hx'⟩
    have hm : m ∈ R ∪ { x | some m = some x } := Or.inr rfl
    obtain ⟨t, ht, htm⟩ := hreach
    rw [← hset]
    refine hmw.attach ht hm (fun e => htm (e ▸ rfl)) (ho m rfl) (hord m rfl) (fun q => ?_)
      fun q x => ?_
    · by_cases hq : q = p
      · subst hq
        rw [update_self, hperm.nodup_iff, toList_some]
        exact nodup_cons.mpr ⟨hmw.root_free hm q, hmw.nodup q⟩
      · rw [update_of_ne hq]
        exact hmw.nodup q
    · by_cases hq : q = p
      · subst hq
        rw [update_self, hperm.mem_iff]
        simp [or_comm]
      · simp [hq]

/-- A node that is not the root of its heap is a child of the node its parent pointer names. -/
theorem parent_of_child {a : Account α} (h : OneTree cmp a w.children w.root) (hl : Linked w)
    {n i : ℕ} (hn : a.ledger.owner n = some i) :
    (w.root i = some n ∧ w.parent n = none) ∨
      ∃ p, w.parent n = some p ∧ n ∈ w.children p ∧ w.root i ≠ some n := by
  by_cases hr : w.root i = some n
  · exact Or.inl ⟨hr, hl.root i n hr⟩
  · obtain ⟨p, hp⟩ := (h.trees.valid.root_or_child (n := n)
      (Ledger.mem_live.mpr (by simp [hn]))).resolve_left (h.rooted.not_mem hn hr)
    exact Or.inr ⟨p, hl.child p n hp, hp, hr⟩

/-- A world in which `n` is in no tree, or, if it is in `X`, a tree of its own. -/
structure Unlinked (cmp : α → α → Bool) (a : Account α) (w : World α) (n : ℕ) (X : Set ℕ) :
    Prop where
  trees : ∃ k, Trees cmp a k (heapRoots w.root ∪ X) ∧ View w k {n} ∧ k n = []
  rooted : Rooted a.ledger w.root
  not_root : n ∉ heapRoots w.root
  root_parent : ∀ i r, w.root i = some r → w.parent r = none
  account : w.toAccount = a

/-- **`unlink_node`.**  `a` is the account before the value of `n` was changed or `n` given up. -/
theorem unlinkNode_spec (hw : StrictWeak cmp) {a : Account α} {n i : ℕ} {X : Set ℕ}
    (h : OneTree cmp a w.children w.root) (hl : Linked w) (hn : a.ledger.owner n = some i)
    (hvalue : ∀ x, x ≠ n → w.value x = a.value x)
    (howner : ∀ x, x ≠ n → w.ledger.owner x = a.ledger.owner x)
    (hout : Trees cmp w.toAccount (w.without n)
      (heapRoots w.root \ {n} ∪ X ∪ { c | c ∈ w.children n })) (hX : X ⊆ {n}) :
    Unlinked cmp w.toAccount (w.unlinkNode cmp i n) n X ∧
      (w.unlinkNode cmp i n).size = w.size := by
  have hself : ∀ c ∈ w.children n, c ≠ n := fun c hc e => h.trees.not_self_child (e ▸ hc)
  have hparent : ∀ p, n ∈ w.children p → p ≠ n := fun p hp e => h.trees.not_self_child (e ▸ hp)
  have hR : ∀ c ∈ w.children n, c ∉ heapRoots w.root \ {n} ∪ X := by
    rintro c hc (hc' | hc')
    · exact h.trees.root_free hc'.1 n hc
    · exact hself c hc (hX hc')
  have ho : ∀ c ∈ w.children n, w.ledger.owner c = some i := by
    intro c hc
    rw [howner c (hself c hc), h.trees.owner_eq hc, hn]
  have hpo : ∀ p, n ∈ w.children p → w.ledger.owner p = some i := by
    intro p hp
    rw [howner p (hparent p hp), ← h.trees.owner_eq hp, hn]
  have hrooted : ∀ j x, w.root j = some x → x ≠ n → w.ledger.owner x = some j :=
    fun j x hj hx => (howner x hx).trans (h.rooted j x hj)
  obtain ⟨hframe, hres, hothers, k, htrees, hview, hfix, hreach⟩ := mergeChildren_spec hw h.trees hl
    hout hR ho fun q hq => by simp [hpo q hq]
  rw [unlinkNode]
  dsimp only
  generalize w.mergeChildren cmp n = g at *
  obtain ⟨w', m⟩ := g
  have hroot : w'.root = w.root := hframe.root
  have hkn : k n = [] := by
    rw [hfix n (Or.inl rfl), without, update_self]
  rcases parent_of_child h hl hn with ⟨hr, hp⟩ | ⟨p, hp, hnp, hr⟩
  · rw [hp]
    refine ⟨⟨⟨k, ?_, ⟨fun q hq => ?_, hview.parent⟩, hkn⟩, ?_, ?_, ?_, hframe.account⟩, hframe.size⟩
    · rw [setRoot, hroot, heapRoots_replace (h.rooted.inj i) hr, Set.union_right_comm]
      exact htrees
    · refine hview.children q ?_
      rintro (hq' | hq')
      · exact hq hq'
      · exact h.trees.root_free ⟨i, hr⟩ q hq'
    · rw [setRoot, hroot]
      refine roots_update (fun j x hj hx => hrooted j x hx fun e => ?_) fun x hx => ho x (hres x hx).1
      exact hj (h.rooted.inj i j n (e ▸ hx) hr)
    · rw [setRoot, hroot, heapRoots_replace (h.rooted.inj i) hr]
      rintro (hn' | hn')
      · exact hn'.2 rfl
      · exact hself n (hres n hn').1 rfl
    · rw [setRoot, hroot]
      refine roots_update (fun j x hj hx => ?_) fun x hx => (hres x hx).2.trans hp
      refine (hothers x (Or.inl ⟨⟨j, hx⟩, fun e => ?_⟩)).trans (hl.root j x hx)
      rw [Set.mem_singleton_iff] at e
      exact hj (h.rooted.inj i j n (e ▸ hx) hr)
  · have hnR : n ∉ heapRoots w.root := h.rooted.not_mem hn hr
    have hpn : p ≠ n := hparent p hnp
    have hchildren : w'.children p = w.children p := by
      rw [children, children, hframe.left p (Or.inr hnp), hframe.right p (Or.inr hnp)]
    have hkp : k p = (w.children p).erase n := by
      rw [hfix p (Or.inr hnp), without, update_of_ne hpn]
    have hperm : ((w'.replaceChild p n m).children p).Perm (m.toList ++ k p) := by
      rw [hkp, ← hchildren]
      exact children_replaceChild (hchildren ▸ hnp) m
    obtain ⟨hframe', hparent'⟩ := frame_replaceChild (w := w') p n m
    have hroot' : (w'.replaceChild p n m).root = w.root := hframe'.root.trans hroot
    rw [hp]
    dsimp only
    refine ⟨⟨⟨Function.update k p ((w'.replaceChild p n m).children p), ?_, ⟨fun q hq => ?_,
      fun q c hc => ?_⟩, ?_⟩, ?_, ?_, ?_, hframe'.account.trans hframe.account⟩,
      hframe'.size.trans hframe.size⟩
    · rw [Set.sdiff_singleton_eq_self hnR] at htrees hreach hR
      rw [hroot']
      refine trees_replaceChild htrees (fun x hx => hR x (hres x hx).1) hperm (hreach p hnp)
        (fun x hx => (ho x (hres x hx).1).trans (hpo p hnp).symm) fun x hx => ?_
      have hxn := (hres x hx).1
      rw [hvalue p hpn, hvalue x (hself x hxn)]
      exact hw.trans (h.trees.order p n hnp) (h.trees.order n x hxn)
    · by_cases hqp : q = p
      · rw [hqp, update_self]
      · rw [update_of_ne hqp, children_replaceChild_of_ne hqp]
        refine hview.children q ?_
        rintro (hq' | hq')
        · exact hq hq'
        · exact hqp (h.trees.valid.unique hq' hnp)
    · rw [hparent']
      by_cases hqp : q = p
      · rw [hqp, update_self, hperm.mem_iff, mem_append, mem_toList] at hc
        rw [hqp]
        rcases hc with hc | hc
        · rw [(hres c hc).2, hp]
        · exact hview.parent p c hc
      · rw [update_of_ne hqp] at hc
        exact hview.parent q c hc
    · rw [update_of_ne hpn.symm, hkn]
    · rw [hroot']
      exact fun j x hj => hrooted j x hj fun e => hnR ⟨j, e ▸ hj⟩
    · rw [hroot']
      exact hnR
    · rw [hroot', hparent']
      intro j x hj
      have hxn : x ≠ n := fun e => hnR ⟨j, e ▸ hj⟩
      rw [hothers x (Or.inl ⟨⟨j, hj⟩, hxn⟩), hl.root j x hj]

theorem children_clearChildren {n : ℕ} (hv : View w k {n}) (hkn : k n = []) :
    (w.clearChildren n).children = k := by
  funext q
  by_cases hq : q = n
  · rw [hq, hkn, children, clearChildren, setLeft, setRight]
    simp
  · rw [hv.children q hq, children, clearChildren, setLeft, setRight, children]
    simp [hq]

/-! ### Every call -/

/-- One tree for each heap, the parent pointers, and the sizes. -/
structure Inv (cmp : α → α → Bool) (w : World α) : Prop where
  tree : OneTree cmp w.toAccount w.children w.root
  linked : Linked w
  counts : Counts w.ledger w.size

theorem inv_of_tree {w' : World α} {a : Account α} {size : ℕ → ℕ}
    (h : OneTree cmp a w'.children w'.root ∧ Linked w' ∧ w'.toAccount = a ∧ w'.size = size)
    (hc : Counts a.ledger size) : Inv cmp w' ∧ w'.toAccount = a := by
  obtain ⟨htree, hlinked, hacc, hsize⟩ := h
  subst hacc hsize
  exact ⟨⟨htree, hlinked, hc⟩, rfl⟩

theorem push_spec (hw : StrictWeak cmp) (h : Inv cmp w) (i : ℕ) (v : α) :
    Inv cmp (w.push cmp i v) ∧ (w.push cmp i v).toAccount =
      ⟨w.ledger.add i, Function.update w.value w.ledger.fresh v⟩ := by
  have hdead := w.ledger.bound w.ledger.fresh le_rfl
  have hne : ∀ {x}, w.ledger.owner x ≠ none → x ≠ w.ledger.fresh := fun hx e => hx (e ▸ hdead)
  have hroot : ∀ j x, w.root j = some x → x ≠ w.ledger.fresh :=
    fun j x hj => hne (by simp [h.tree.rooted j x hj])
  have hchildren : (w.clearChildren w.ledger.fresh).children = w.children :=
    children_clearChildren ⟨fun _ _ => rfl, h.linked.child⟩ (h.tree.trees.children_of_dead hdead)
  refine inv_of_tree (mergeNode_spec (w := (World.setParent (World.clearChildren { w with
    ledger := w.ledger.add i
    value := Function.update w.value w.ledger.fresh v
    size := Function.update w.size i (w.size i + 1) } w.ledger.fresh) w.ledger.fresh none))
    hw ?_ ⟨?_, ?_⟩ ?_ ?_ ?_ ?_) (h.counts.add i)
  · intro j x hj
    exact (Ledger.owner_add i x).trans ((if_neg (hroot j x hj)).trans (h.tree.rooted j x hj))
  · intro q c hc
    have hc' : c ∈ w.children q := hchildren ▸ hc
    have hlive := Ledger.mem_live.mp (h.tree.trees.valid.child_live hc').2
    exact (update_of_ne (hne hlive) ..).trans (h.linked.child q c hc')
  · intro j x hj
    exact (update_of_ne (hroot j x hj) ..).trans (h.linked.root j x hj)
  · show Trees cmp _ (w.clearChildren w.ledger.fresh).children _
    rw [hchildren]
    exact h.tree.trees.alloc i v
  · rintro ⟨j, hj⟩
    exact hroot j _ hj rfl
  · exact (Ledger.owner_add i _).trans (if_pos rfl)
  · exact update_self ..

/-- **`decrease(handle)`**, after the value of the node was changed. -/
theorem decreaseNode_spec (hw : StrictWeak cmp) (h : Inv cmp w) {i n : ℕ} {v : α}
    (hn : w.ledger.owner n = some i) :
    Inv cmp ((w.assign n v).decreaseNode cmp i n) ∧
      ((w.assign n v).decreaseNode cmp i n).toAccount = w.toAccount.assign n v := by
  have hout := h.tree.trees.isolate (w.toAccount.assign n v) (by simp [hn]) rfl
    fun x hx => update_of_ne hx ..
  rw [← Set.sdiff_union_self (s := heapRoots w.root) (t := {n})] at hout
  obtain ⟨⟨⟨k, htrees, hview, hkn⟩, hrooted, hnR, hroot, hacc⟩, hsize⟩ :=
    unlinkNode_spec (w := w.assign n v) hw h.tree ⟨h.linked.child, h.linked.root⟩ hn
      (fun x hx => update_of_ne hx ..) (fun _ _ => rfl) hout subset_rfl
  rw [decreaseNode]
  generalize (w.assign n v).unlinkNode cmp i n = w' at *
  have hchildren : (w'.clearChildren n).children = k := children_clearChildren hview hkn
  have hacc' : ((w'.clearChildren n).setParent n none).toAccount = w.toAccount.assign n v := hacc
  have hsize' : ((w'.clearChildren n).setParent n none).size = w.size := hsize
  have hmerge := mergeNode_spec (w := (w'.clearChildren n).setParent n none) (i := i) hw
    (by rw [hacc']; exact hrooted) ⟨?_, ?_⟩
    (by rw [hacc']; exact hchildren.symm ▸ htrees) hnR (by rw [hacc']; exact hn)
    (update_self ..)
  · rw [hacc', hsize'] at hmerge
    exact inv_of_tree hmerge h.counts
  · intro q c hc
    have hc' : c ∈ k q := hchildren ▸ hc
    have hcn : c ≠ n := fun e => htrees.root_free (Or.inr rfl) q (e ▸ hc')
    exact (update_of_ne hcn ..).trans (hview.parent q c hc')
  · intro j x hj
    have hxn : x ≠ n := fun e => hnR ⟨j, e ▸ hj⟩
    exact (update_of_ne hxn ..).trans (hroot j x hj)

theorem erase_spec (hw : StrictWeak cmp) (h : Inv cmp w) {i n : ℕ}
    (hn : w.ledger.owner n = some i) :
    Inv cmp (w.erase cmp i n) ∧ (w.erase cmp i n).toAccount = ⟨w.ledger.drop n, w.value⟩ := by
  have hlive : w.ledger.owner n ≠ none := by simp [hn]
  have hout := h.tree.trees.release hlive
  rw [← Set.union_empty (heapRoots w.root \ {n})] at hout
  obtain ⟨⟨⟨k, htrees, hview, hkn⟩, hrooted, hnR, hroot, hacc⟩, hsize⟩ :=
    unlinkNode_spec (w := { w with ledger := w.ledger.drop n }) hw h.tree
      ⟨h.linked.child, h.linked.root⟩ hn (fun _ _ => rfl)
      (fun x hx => (Ledger.owner_drop n x).trans (if_neg hx)) hout (Set.empty_subset _)
  have hcounts := h.counts.drop hn
  rw [Set.union_empty] at htrees
  rw [erase]
  generalize { w with ledger := w.ledger.drop n }.unlinkNode cmp i n = w' at *
  have hchildren : (w'.clearChildren n).children = k := children_clearChildren hview hkn
  refine inv_of_tree ⟨⟨?_, hrooted⟩, ⟨fun q c hc => ?_, hroot⟩, hacc, ?_⟩ hcounts
  · show Trees cmp _ (w'.clearChildren n).children (heapRoots w'.root)
    rw [hchildren]
    exact htrees
  · have hc' : c ∈ k q := hchildren ▸ hc
    exact hview.parent q c hc'
  · show Function.update w'.size i (w'.size i - 1) = _
    rw [hsize]

/-- **`pop`** takes the root out as `erase` does. -/
theorem pop_eq_erase (hl : Linked w) {i r : ℕ} (hr : w.root i = some r) :
    w.pop cmp i = w.erase cmp i r := by
  have hp : { w with ledger := w.ledger.drop r }.parent r = none := hl.root i r hr
  rw [pop, hr, erase, unlinkNode, hp]

/-- **`increase(handle)`**, after the value of the node was changed to one not less than those of its
children. -/
theorem increaseNode_spec (hw : StrictWeak cmp) (h : Inv cmp w) {i n : ℕ} {v : α}
    (hn : w.ledger.owner n = some i) (hup : ∀ c ∈ w.children n, cmp v (w.value c) = false) :
    Inv cmp ((w.assign n v).increaseNode cmp i n) ∧
      ((w.assign n v).increaseNode cmp i n).toAccount = w.toAccount.assign n v := by
  have hout : Trees cmp (w.toAccount.assign n v) (fun q => (w.children q).erase n)
      (heapRoots w.root ∪ {n}) := by
    refine h.tree.trees.detach {n} ?_ rfl (fun q => (h.tree.trees.nodup q).erase n) (fun q x => ?_)
      fun q x hx => ?_
    · rintro c rfl
      simp [hn]
    · rw [(h.tree.trees.nodup q).mem_erase_iff, and_comm, Set.mem_singleton_iff]
    · obtain ⟨hxn, hx⟩ := (h.tree.trees.nodup q).mem_erase_iff.mp hx
      show cmp (Function.update w.value n v q) (Function.update w.value n v x) = false
      rw [update_of_ne hxn]
      by_cases hq : q = n
      · rw [hq, update_self]
        exact hup x (hq ▸ hx)
      · rw [update_of_ne hq]
        exact h.tree.trees.order q x hx
  rw [increaseNode]
  rcases parent_of_child h.tree h.linked hn with ⟨hr, -⟩ | ⟨p, hp, hnp, hr⟩
  · have hself : (fun q => (w.children q).erase n) = w.children :=
      funext fun q => erase_of_not_mem (h.tree.trees.root_free ⟨i, hr⟩ q)
    have hnR : {n} ⊆ heapRoots w.root := Set.singleton_subset_iff.mpr ⟨i, hr⟩
    rw [hself, Set.union_eq_self_of_subset_right hnR] at hout
    have hr' : (w.assign n v).root i = some n := hr
    rw [if_pos hr']
    exact ⟨⟨⟨hout, h.tree.rooted⟩, ⟨h.linked.child, h.linked.root⟩, h.counts⟩, rfl⟩
  · have hr' : ¬ (w.assign n v).root i = some n := hr
    have hp' : (w.assign n v).parent n = some p := hp
    rw [if_neg hr', hp']
    dsimp only
    obtain ⟨hframe, hparent⟩ := frame_replaceChild (w := w.assign n v) p n none
    have hperm : ∀ q, (((w.assign n v).replaceChild p n none).children q).Perm
        ((w.children q).erase n) := by
      intro q
      by_cases hq : q = p
      · subst hq
        exact children_replaceChild (w := w.assign n v) hnp none
      · have hnq : n ∉ w.children q := fun hnq => hq (h.tree.trees.valid.unique hnq hnp)
        rw [children_replaceChild_of_ne hq, erase_of_not_mem hnq]
        exact List.Perm.refl _
    have htrees := hout.perm hperm
    have hnR : n ∉ heapRoots w.root := h.tree.rooted.not_mem hn hr
    generalize (w.assign n v).replaceChild p n none = w' at *
    have hacc' : (w'.setParent n none).toAccount = w.toAccount.assign n v := hframe.account
    have hsize' : (w'.setParent n none).size = w.size := hframe.size
    have hroot' : (w'.setParent n none).root = w.root := hframe.root
    have hmerge := mergeNode_spec (w := w'.setParent n none) (i := i) hw
      (by rw [hacc', hroot']; exact h.tree.rooted) ⟨?_, ?_⟩
      (by rw [hacc', hroot']; exact htrees) (by rw [hroot']; exact hnR) (by rw [hacc']; exact hn)
      (update_self ..)
    · rw [hacc', hsize'] at hmerge
      exact inv_of_tree hmerge h.counts
    · intro q c hc
      have hcn : c ≠ n := fun e => htrees.root_free (Or.inr rfl) q (e ▸ hc)
      refine (update_of_ne hcn ..).trans ?_
      rw [hparent]
      exact h.linked.child q c (mem_of_mem_erase ((hperm q).mem_iff.mp hc))
    · intro j x hj
      rw [hroot'] at hj
      have hxn : x ≠ n := fun e => hnR ⟨j, e ▸ hj⟩
      refine (update_of_ne hxn ..).trans ?_
      rw [hparent]
      exact h.linked.root j x hj

/-- **`update(handle, v)`.** -/
theorem update_spec (hw : StrictWeak cmp) (h : Inv cmp w) {i n : ℕ} {v : α}
    (hn : w.ledger.owner n = some i) :
    Inv cmp (w.update cmp i n v) ∧ (w.update cmp i n v).toAccount = w.toAccount.assign n v := by
  rw [update]
  by_cases hc : cmp (w.value n) v = true
  · rw [if_pos hc]
    exact increaseNode_spec hw h hn fun c hcn =>
      hw.trans (hw.asymm hc) (h.tree.trees.order n c hcn)
  · rw [if_neg hc]
    exact decreaseNode_spec hw h hn

/-- **`update(handle)`**, after the value of the node was changed. -/
theorem updateNode_spec (hw : StrictWeak cmp) (h : Inv cmp w) {i n : ℕ} {v : α}
    (hn : w.ledger.owner n = some i) :
    Inv cmp ((w.assign n v).updateNode cmp i n) ∧
      ((w.assign n v).updateNode cmp i n).toAccount = w.toAccount.assign n v := by
  rw [updateNode]
  rcases parent_of_child h.tree h.linked hn with ⟨-, hp⟩ | ⟨p, hp, hnp, -⟩
  · have hp' : (w.assign n v).parent n = none := hp
    rw [hp']
    exact decreaseNode_spec hw h hn
  · have hp' : (w.assign n v).parent n = some p := hp
    have hpn : p ≠ n := fun e => h.tree.trees.not_self_child (e ▸ hnp)
    have hvp : (w.assign n v).value p = w.value p := update_of_ne hpn ..
    have hvn : (w.assign n v).value n = v := update_self ..
    rw [hp']
    dsimp only
    rw [hvp, hvn]
    by_cases hc : cmp (w.value p) v = true
    · rw [if_pos hc]
      exact increaseNode_spec hw h hn fun c hcn => hw.trans (hw.asymm hc)
        (hw.trans (h.tree.trees.order p n hnp) (h.tree.trees.order n c hcn))
    · rw [if_neg hc]
      exact decreaseNode_spec hw h hn

theorem mergeNodesRecursive_setRoot (j : ℕ) (o : Option ℕ) (fuel : ℕ) :
    ∀ (w : World α) (a b : ℕ) (newParent : Option ℕ),
      (w.setRoot j o).mergeNodesRecursive cmp fuel a b newParent =
        ((w.mergeNodesRecursive cmp fuel a b newParent).1.setRoot j o,
          (w.mergeNodesRecursive cmp fuel a b newParent).2) := by
  induction fuel with
  | zero => exact fun w a b newParent => rfl
  | succ fuel ih =>
    intro w a b newParent
    have hstep : ∀ p c, (match (w.setRoot j o).right p with
          | some r => (w.setRoot j o).mergeNodesRecursive cmp fuel r c (some p)
          | none => (w.setRoot j o, c)) =
        ((match w.right p with
          | some r => w.mergeNodesRecursive cmp fuel r c (some p)
          | none => (w, c)).1.setRoot j o,
        (match w.right p with
          | some r => w.mergeNodesRecursive cmp fuel r c (some p)
          | none => (w, c)).2) := by
      intro p c
      rw [setRoot]
      dsimp only
      cases w.right p with
      | none => rfl
      | some r => exact ih w r c (some p)
    have hv : (w.setRoot j o).value = w.value := rfl
    rw [mergeNodesRecursive, mergeNodesRecursive, hv]
    generalize (if cmp (w.value a) (w.value b) = true then (b, a) else (a, b)) = g
    obtain ⟨p, c⟩ := g
    dsimp only
    rw [hstep p c]
    rfl

theorem mergeNode_clear {i j other : ℕ} (hij : i ≠ j) :
    (w.mergeNode cmp i other).setRoot j none = (w.setRoot j none).mergeNode cmp i other := by
  have hr : (w.setRoot j none).root i = w.root i := update_of_ne hij ..
  have hcomm : ∀ (w : World α) (o : Option ℕ),
      (w.setRoot i o).setRoot j none = (w.setRoot j none).setRoot i o := by
    intro w o
    rw [setRoot, setRoot, setRoot, setRoot]
    dsimp only
    rw [update_comm hij]
  rw [mergeNode, mergeNode, hr]
  cases w.root i with
  | none => exact hcomm w (some other)
  | some r =>
    dsimp only
    rw [mergeNodes, mergeNodes]
    dsimp only
    rw [mergeNodesRecursive_setRoot, hcomm]
    rfl

theorem merge_spec (hw : StrictWeak cmp) (h : Inv cmp w) {i j : ℕ} (hij : i ≠ j) :
    Inv cmp (w.merge cmp i j) ∧ (w.merge cmp i j).toAccount = ⟨w.ledger.absorb i j, w.value⟩ := by
  rw [merge]
  cases hr : w.root j with
  | none =>
    have hempty : w.ledger.nodes j = ∅ := (h.tree.isQueue hw h.counts).top_none j hr
    rw [Ledger.absorb_of_empty hempty]
    exact ⟨h, rfl⟩
  | some r =>
    obtain ⟨hrooted, htrees, hrR, hro⟩ := h.tree.hand_over hr i
    have hlinked : Linked ({ w with ledger := w.ledger.absorb i j }.setRoot j none) :=
      ⟨h.linked.child, roots_update (fun k x _ hx => h.linked.root k x hx) fun x hx => nomatch hx⟩
    obtain ⟨htree, hlinked', hacc, hsize⟩ := mergeNode_spec
      (w := { w with ledger := w.ledger.absorb i j }.setRoot j none) hw hrooted hlinked htrees hrR
      hro (h.linked.root j r hr)
    rw [← mergeNode_clear hij] at htree hlinked' hacc hsize
    refine inv_of_tree ⟨htree, ⟨hlinked'.child, hlinked'.root⟩, hacc, ?_⟩ (h.counts.absorb hij)
    have hsize' : ({ w with ledger := w.ledger.absorb i j }.mergeNode cmp i r).size = w.size :=
      hsize
    dsimp only
    rw [hsize']

/-! ### Every run -/

/-- **Every call** keeps the invariant and is a step of a priority queue. -/
theorem step_spec (hw : StrictWeak cmp) (h : Inv cmp w) {op : Op α}
    (hop : w.toAccount.Allowed cmp op) :
    Inv cmp (w.step cmp op) ∧ Account.Step cmp w.toAccount op (w.step cmp op).toAccount := by
  cases op with
  | push i v =>
    obtain ⟨hinv, hacc⟩ := push_spec hw h i v
    refine ⟨hinv, ?_⟩
    rw [step, hacc]
    exact .push ..
  | pop i =>
    obtain ⟨n, hn⟩ := hop
    obtain ⟨r, hr, -⟩ := h.tree.reaches (Ledger.mem_nodes.mp hn)
    obtain ⟨hinv, hacc⟩ := erase_spec hw h (h.tree.rooted i r hr)
    rw [step, pop_eq_erase h.linked hr]
    refine ⟨hinv, ?_⟩
    rw [hacc]
    exact .pop _ (h.tree.maximum hw hr)
  | update i n v =>
    obtain ⟨hinv, hacc⟩ := update_spec (v := v) hw h hop
    refine ⟨hinv, ?_⟩
    rw [step, hacc]
    exact .update ..
  | touch i n v =>
    obtain ⟨hinv, hacc⟩ := updateNode_spec (v := v) hw h hop
    refine ⟨hinv, ?_⟩
    rw [step, hacc]
    exact .touch ..
  | increase i n v =>
    obtain ⟨hinv, hacc⟩ := increaseNode_spec hw h hop.1
      fun c hc => hw.trans hop.2 (h.tree.trees.order n c hc)
    refine ⟨hinv, ?_⟩
    rw [step, hacc]
    exact .increase ..
  | decrease i n v =>
    obtain ⟨hinv, hacc⟩ := decreaseNode_spec (v := v) hw h hop
    refine ⟨hinv, ?_⟩
    rw [step, hacc]
    exact .decrease ..
  | erase i n =>
    obtain ⟨hinv, hacc⟩ := erase_spec hw h hop
    refine ⟨hinv, ?_⟩
    rw [step, hacc]
    exact .erase ..
  | merge i j =>
    obtain ⟨hinv, hacc⟩ := merge_spec hw h hop
    refine ⟨hinv, ?_⟩
    rw [step, hacc]
    exact .merge ..

theorem inv_empty [Inhabited α] : Inv cmp (World.empty α) where
  tree := OneTree.empty
  linked := ⟨(fun _ _ h => nomatch h), fun _ _ h => nomatch h⟩
  counts := Counts.empty

/-- **Every run** of allowed calls leaves priority queues with the right parent pointers. -/
theorem run_spec [Inhabited α] (hw : StrictWeak cmp) (ops : List (Op α))
    (h : AllowedRun cmp toAccount (step cmp) (World.empty α) ops) :
    let w := ops.foldl (step cmp) (World.empty α)
    IsQueue cmp w.toAccount w.children w.root w.size ∧ Linked w ∧
      Account.Run cmp (Account.empty α) ops w.toAccount := by
  have hstep : ∀ w op, Inv cmp w → w.toAccount.Allowed cmp op → Inv cmp (w.step cmp op) :=
    fun w op hi hop => (step_spec hw hi hop).1
  have hinv := AllowedRun.invariant hstep ops _ inv_empty h
  have hsim := AllowedRun.simulates hstep (fun w op hi hop => (step_spec hw hi hop).2) ops _
    inv_empty h
  exact ⟨hinv.tree.isQueue hw hinv.counts, hinv.linked, hsim⟩

end World

/-- **Pairing heaps and mutable skew heaps are priority queues** after every run of allowed calls: each
heap is one ordered tree of all its nodes, `top` is a maximum, the sizes are right, and the elements
and their values are those a priority queue would hold. -/
theorem pairing_and_skew_run {α : Type*} [Inhabited α] {cmp : α → α → Bool} (hw : StrictWeak cmp)
    (ops : List (Op α)) :
    (AllowedRun cmp PairingHeap.World.toAccount (PairingHeap.World.step cmp)
        (PairingHeap.World.empty α) ops →
      let w := ops.foldl (PairingHeap.World.step cmp) (PairingHeap.World.empty α)
      IsQueue cmp w.toAccount w.children w.root w.size ∧
        (∀ i n, w.ledger.owner n = some i → ∃ v, w.top i = some v ∧ cmp v (w.value n) = false) ∧
        Account.Run cmp (Account.empty α) ops w.toAccount) ∧
    (AllowedRun cmp World.toAccount (World.step cmp) (World.empty α) ops →
      let w := ops.foldl (World.step cmp) (World.empty α)
      IsQueue cmp w.toAccount w.children w.root w.size ∧
        (∀ p, ∀ c ∈ w.children p, w.parent c = some p) ∧
        (∀ i r, w.root i = some r → w.parent r = none) ∧
        (∀ i n, w.ledger.owner n = some i → ∃ v, w.top i = some v ∧ cmp v (w.value n) = false) ∧
        Account.Run cmp (Account.empty α) ops w.toAccount) := by
  refine ⟨fun h => ?_, fun h => ?_⟩
  · obtain ⟨hqueue, hrun⟩ := PairingHeap.World.run_spec hw ops h
    exact ⟨hqueue, fun i n hn => hqueue.top_ge hn, hrun⟩
  · obtain ⟨hqueue, hlinked, hrun⟩ := World.run_spec hw ops h
    exact ⟨hqueue, hlinked.child, hlinked.root, fun i n hn => hqueue.top_ge hn, hrun⟩

/-- Updates of the root, of an inner node, and an erased root. -/
theorem pairing_and_skew_run_update :
    let ops : List (Op ℕ) := [.push 0 3, .push 0 5, .push 1 4, .update 0 1 1, .merge 0 1,
      .increase 0 0 9, .touch 0 0 2, .erase 0 2, .pop 0]
    AllowedRun (fun a b => decide (a < b)) World.toAccount (World.step fun a b => decide (a < b))
        (World.empty ℕ) ops ∧
      (ops.foldl (World.step fun a b => decide (a < b)) (World.empty ℕ)).size 0 = 1 ∧
      IsQueue (fun a b => decide (a < b))
        (ops.foldl (PairingHeap.World.step fun a b => decide (a < b))
          (PairingHeap.World.empty ℕ)).toAccount
        (ops.foldl (PairingHeap.World.step fun a b => decide (a < b))
          (PairingHeap.World.empty ℕ)).children
        (ops.foldl (PairingHeap.World.step fun a b => decide (a < b))
          (PairingHeap.World.empty ℕ)).root
        (ops.foldl (PairingHeap.World.step fun a b => decide (a < b))
          (PairingHeap.World.empty ℕ)).size := by
  intro ops
  have hw : StrictWeak fun a b : ℕ => decide (a < b) := strictWeak_lt
  exact ⟨by decide, by decide, ((pairing_and_skew_run hw ops).1 (by decide)).1⟩

end SourceLibs.SkewHeap
