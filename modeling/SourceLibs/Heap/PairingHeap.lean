import SourceLibs.Heap.Handles

/-!
# Heap — the pairing heap

`pairing_heap.hpp`.  Nodes are addresses; a node has a value and an intrusive list of children.  A
`World` holds the nodes of any number of heap objects, so that `merge` moves nodes from one to
another.

`unlink` of a node that is in no list does nothing; `merge_node_list` takes the nodes out of the list
it is given, so a list of children is empty afterwards.  A handle that is erased leaves the ledger
when the call is made.

* `mergeNodes_spec`, `mergeNodeList_spec`: merging trees takes roots away and keeps the order.
* `updateNode_spec`, `eraseTree_spec`: the handled node may be anywhere, also the root.
* `step_spec`, `run_spec`: every call, and every run, keeps the invariant.
-/

namespace SourceLibs.PairingHeap
open List Function Compare Handles

/-- The nodes and the heap objects. -/
structure World (α : Type*) extends Account α where
  children : ℕ → List ℕ
  root : ℕ → Option ℕ
  size : ℕ → ℕ

namespace World

variable {α : Type*} (cmp : α → α → Bool)

/-- No nodes, and every heap empty. -/
def empty (α : Type*) [Inhabited α] : World α :=
  ⟨.empty α, fun _ => [], fun _ => none, fun _ => 0⟩

/-- `node->unlink()`. -/
def unlink (w : World α) (n : ℕ) : World α := { w with children := fun p => (w.children p).erase n }

/-- `p->children.push_front(*n)`. -/
def pushFront (w : World α) (p n : ℕ) : World α :=
  { w with children := Function.update w.children p (n :: w.children p) }

/-- `root = r` in heap `i`. -/
def setRoot (w : World α) (i : ℕ) (r : Option ℕ) : World α :=
  { w with root := Function.update w.root i r }

/-- `merge_nodes`: the smaller becomes a child. -/
def mergeNodes (w : World α) (node1 node2 : ℕ) : World α × ℕ :=
  if cmp (w.value node1) (w.value node2) then ((w.unlink node1).pushFront node2 node1, node2)
  else ((w.unlink node2).pushFront node1 node2, node1)

/-- `merge_node`, with the root. -/
def mergeNode (w : World α) (i other : ℕ) : World α :=
  match w.root i with
  | some r =>
    let (w, r) := w.mergeNodes cmp r other
    w.setRoot i (some r)
  | none => w.setRoot i (some other)

/-- `merge_first_pair` until the list is empty. -/
def mergePairs : World α → List ℕ → World α × List ℕ
  | w, first :: second :: rest =>
    let (w, merged) := w.mergeNodes cmp first second
    let (w, l) := mergePairs w rest
    (w, merged :: l)
  | w, l => (w, l)

/-- `merge_node_list` of a list that is not empty; its length bounds the depth of the recursion. -/
def mergeNodeList : ℕ → World α → ℕ → List ℕ → World α × ℕ
  | 0, w, first, _ => (w, first)
  | _ + 1, w, first, [] => (w, first)
  | fuel + 1, w, first, second :: rest =>
    let (w, merged) := w.mergeNodes cmp first second
    let (w, l) := w.mergePairs cmp rest
    mergeNodeList fuel w merged l

/-- `merge_node_list(n->children)`, if there are children. -/
def mergeChildren (w : World α) (n : ℕ) : World α × Option ℕ :=
  match w.children n with
  | [] => (w, none)
  | first :: rest =>
    let w := { w with children := Function.update w.children n [] }
    let (w, m) := w.mergeNodeList cmp (rest.length + 1) first rest
    (w, some m)

/-- `push`; the handle returned is `w.ledger.fresh`. -/
def push (w : World α) (i : ℕ) (v : α) : World α :=
  let n := w.ledger.fresh
  let w : World α :=
    ⟨⟨w.ledger.add i, Function.update w.value n v⟩, Function.update w.children n [], w.root,
      Function.update w.size i (w.size i + 1)⟩
  w.mergeNode cmp i n

/-- `update(handle)`. -/
def updateNode (w : World α) (i n : ℕ) : World α :=
  let w := w.unlink n
  let (w, n) :=
    match w.mergeChildren cmp n with
    | (w, none) => (w, n)
    | (w, some m) => w.mergeNodes cmp n m
  if w.root i = some n then w else w.mergeNode cmp i n

/-- `handle.node_->value = v`. -/
def assign (w : World α) (n : ℕ) (v : α) : World α :=
  { w with toAccount := w.toAccount.assign n v }

/-- `update(handle, v)`, which `increase` and `decrease` call. -/
def update (w : World α) (i n : ℕ) (v : α) : World α := (w.assign n v).updateNode cmp i n

/-- The tree changes of `erase`. -/
def eraseTree (w : World α) (i n : ℕ) : World α :=
  if w.root i ≠ some n then
    let w := w.unlink n
    match w.mergeChildren cmp n with
    | (w, none) => w
    | (w, some m) => w.mergeNode cmp i m
  else
    let (w, m) := w.mergeChildren cmp n
    w.setRoot i m

def erase (w : World α) (i n : ℕ) : World α :=
  let w := { w with ledger := w.ledger.drop n }
  let w := w.eraseTree cmp i n
  { w with size := Function.update w.size i (w.size i - 1) }

def pop (w : World α) (i : ℕ) : World α :=
  match w.root i with
  | some r => w.erase cmp i r
  | none => w

/-- `merge`, of heap `j` into heap `i`. -/
def merge (w : World α) (i j : ℕ) : World α :=
  match w.root j with
  | none => w
  | some r =>
    let w := { w with ledger := w.ledger.absorb i j }
    let w := w.mergeNode cmp i r
    { w with
      size := Function.update (Function.update w.size i (w.size i + w.size j)) j 0
      root := Function.update w.root j none }

def top (w : World α) (i : ℕ) : Option α := (w.root i).map w.value

/-- One call. -/
def step (w : World α) : Op α → World α
  | .push i v => w.push cmp i v
  | .pop i => w.pop cmp i
  | .update i n v => w.update cmp i n v
  | .touch i n v => (w.assign n v).updateNode cmp i n
  | .increase i n v => w.update cmp i n v
  | .decrease i n v => w.update cmp i n v
  | .erase i n => w.erase cmp i n
  | .merge i j => w.merge cmp i j

end World

/-! ### Merging trees -/

namespace World

variable {α : Type*} {cmp : α → α → Bool}

/-- Only lists of children differ. -/
structure Same (w w' : World α) : Prop where
  account : w'.toAccount = w.toAccount
  root : w'.root = w.root
  size : w'.size = w.size

theorem Same.refl (w : World α) : Same w w := ⟨rfl, rfl, rfl⟩

theorem Same.trans {w w' w'' : World α} (h : Same w w') (h' : Same w' w'') : Same w w'' :=
  ⟨h'.account.trans h.account, h'.root.trans h.root, h'.size.trans h.size⟩

variable {w : World α} {R : Set ℕ}

theorem same_mergeNodes (a b : ℕ) : Same w (w.mergeNodes cmp a b).1 := by
  rw [mergeNodes]
  split <;> exact ⟨rfl, rfl, rfl⟩

theorem unlink_of_root (h : Trees cmp w.toAccount w.children R) {n : ℕ} (hn : n ∈ R) :
    w.unlink n = w := by
  rw [unlink]
  congr 1
  funext p
  exact erase_of_not_mem (h.root_free hn p)

/-- One root put under another that is not less. -/
theorem trees_pushFront (h : Trees cmp w.toAccount w.children R) {a b : ℕ} (ha : a ∈ R) (hb : b ∈ R)
    (hne : a ≠ b) (ho : w.ledger.owner b = w.ledger.owner a)
    (hord : cmp (w.value a) (w.value b) = false) :
    Trees cmp (w.pushFront a b).toAccount (w.pushFront a b).children (R \ {b}) := by
  refine h.link ha hb hne ho hord (fun p => ?_) fun p c => ?_
  · rw [pushFront]
    by_cases hp : p = a
    · subst hp
      simp [h.root_free hb p, h.nodup p]
    · simp [hp, h.nodup p]
  · rw [pushFront]
    by_cases hp : p = a
    · subst hp
      simp [or_comm]
    · simp [hp]

/-- **`merge_nodes`** of two roots makes one of them a child of the other. -/
theorem mergeNodes_spec (hw : StrictWeak cmp) (h : Trees cmp w.toAccount w.children R) {a b : ℕ}
    (ha : a ∈ R) (hb : b ∈ R) (hne : a ≠ b) (ho : w.ledger.owner a = w.ledger.owner b) :
    ∃ s, ((w.mergeNodes cmp a b).2 = a ∧ s = b ∨ (w.mergeNodes cmp a b).2 = b ∧ s = a) ∧
      Trees cmp (w.mergeNodes cmp a b).1.toAccount (w.mergeNodes cmp a b).1.children (R \ {s}) := by
  rw [mergeNodes]
  cases hc : cmp (w.value a) (w.value b) with
  | true =>
    rw [if_pos rfl, unlink_of_root h ha]
    exact ⟨a, Or.inr ⟨rfl, rfl⟩, trees_pushFront h hb ha hne.symm ho (hw.asymm hc)⟩
  | false =>
    rw [if_neg (by decide), unlink_of_root h hb]
    exact ⟨b, Or.inl ⟨rfl, rfl⟩, trees_pushFront h ha hb hne ho.symm hc⟩

/-- The roots left when the nodes `l` were merged into the nodes `l'`. -/
def remaining (R : Set ℕ) (l l' : List ℕ) : Set ℕ := { x | x ∈ R ∧ (x ∉ l ∨ x ∈ l') }

/-- The first two nodes were merged into `m`, the others into `l'`. -/
theorem remaining_cons_cons {R : Set ℕ} {a b m s : ℕ} {rest l' : List ℕ} (hab : a ≠ b)
    (ha : a ∉ rest) (hb : b ∉ rest) (hsub : ∀ x ∈ l', x ∈ rest)
    (hs : m = a ∧ s = b ∨ m = b ∧ s = a) :
    remaining R (a :: b :: rest) (m :: l') = remaining (R \ {s}) rest l' := by
  ext x
  have hx := hsub x
  have hor : x ∈ a :: b :: rest ↔ x = m ∨ x = s ∨ x ∈ rest := by
    rcases hs with ⟨rfl, rfl⟩ | ⟨rfl, rfl⟩
    · simp
    · simp only [mem_cons]
      tauto
  have hms : m ≠ s := by
    rcases hs with ⟨rfl, rfl⟩ | ⟨rfl, rfl⟩
    · exact hab
    · exact hab.symm
  have hm : m ∉ rest := by
    rcases hs with ⟨rfl, -⟩ | ⟨rfl, -⟩
    · exact ha
    · exact hb
  have hsr : s ∉ rest := by
    rcases hs with ⟨-, rfl⟩ | ⟨-, rfl⟩
    · exact hb
    · exact ha
  show x ∈ R ∧ (x ∉ a :: b :: rest ∨ x ∈ m :: l') ↔ (x ∈ R ∧ x ∉ ({s} : Set ℕ)) ∧ (x ∉ rest ∨ x ∈ l')
  rw [hor, mem_cons, Set.mem_singleton_iff]
  constructor
  · rintro ⟨hR, h | rfl | h⟩
    · exact ⟨⟨hR, fun e => h (Or.inr (Or.inl e))⟩, Or.inl fun e => h (Or.inr (Or.inr e))⟩
    · exact ⟨⟨hR, hms⟩, Or.inl hm⟩
    · exact ⟨⟨hR, fun e => hsr (e ▸ hx h)⟩, Or.inr h⟩
  · rintro ⟨⟨hR, hxs⟩, h | h⟩
    · by_cases hxm : x = m
      · exact ⟨hR, Or.inr (Or.inl hxm)⟩
      · exact ⟨hR, Or.inl (by tauto)⟩
    · exact ⟨hR, Or.inr (Or.inr h)⟩

/-- **One round of pairing.** -/
theorem mergePairs_spec (hw : StrictWeak cmp) {o : Option ℕ} :
    ∀ (w : World α) (l : List ℕ) (R : Set ℕ), Trees cmp w.toAccount w.children R → l.Nodup →
      (∀ x ∈ l, x ∈ R ∧ w.ledger.owner x = o) →
      Trees cmp (w.mergePairs cmp l).1.toAccount (w.mergePairs cmp l).1.children
          (remaining R l (w.mergePairs cmp l).2) ∧
        Same w (w.mergePairs cmp l).1 ∧ (w.mergePairs cmp l).2.Nodup ∧
        (∀ x ∈ (w.mergePairs cmp l).2, x ∈ l) ∧
        2 * (w.mergePairs cmp l).2.length ≤ l.length + 1
  | w, [], R, h, _, _ => by
    rw [mergePairs]
    · refine ⟨?_, Same.refl w, nodup_nil, fun x hx => hx, by simp⟩
      convert h using 1
      ext x
      simp [remaining]
    · simp
  | w, [a], R, h, hnd, _ => by
    rw [mergePairs]
    · refine ⟨?_, Same.refl w, hnd, fun x hx => hx, by simp⟩
      convert h using 1
      ext x
      exact ⟨fun hx => hx.1, fun hx => ⟨hx, (Classical.em (x ∈ [a])).symm⟩⟩
    · simp
  | w, a :: b :: rest, R, h, hnd, hl => by
    rw [nodup_cons, nodup_cons] at hnd
    obtain ⟨hab, hb, hrest⟩ := hnd
    rw [mem_cons, not_or] at hab
    obtain ⟨s, hs, htrees⟩ := mergeNodes_spec hw h (hl a (by simp)).1 (hl b (by simp)).1 hab.1
      ((hl a (by simp)).2.trans (hl b (by simp)).2.symm)
    have hsame : Same w (w.mergeNodes cmp a b).1 := same_mergeNodes a b
    rw [mergePairs]
    generalize w.mergeNodes cmp a b = g at hs htrees hsame
    obtain ⟨w₁, m⟩ := g
    have hsrest : ∀ x ∈ rest, x ≠ s := by
      intro x hx
      rcases hs with ⟨-, rfl⟩ | ⟨-, rfl⟩
      · exact fun e => hb (e ▸ hx)
      · exact fun e => hab.2 (e ▸ hx)
    have hmrest : m ∉ rest := by
      rcases hs with ⟨rfl, -⟩ | ⟨rfl, -⟩
      · exact hab.2
      · exact hb
    obtain ⟨ht, hsm, hnd', hsub, hlen⟩ := mergePairs_spec hw w₁ rest (R \ {s}) htrees hrest
      fun x hx => ⟨⟨(hl x (by simp [hx])).1, hsrest x hx⟩, by
        rw [hsame.account]
        exact (hl x (by simp [hx])).2⟩
    dsimp only
    generalize w₁.mergePairs cmp rest = g' at ht hsm hnd' hsub hlen
    obtain ⟨w₂, l'⟩ := g'
    refine ⟨?_, hsame.trans hsm, nodup_cons.mpr ⟨fun hml => hmrest (hsub m hml), hnd'⟩,
      fun x hx => ?_, by simp only [length_cons] at hlen ⊢; omega⟩
    · rw [remaining_cons_cons hab.1 hab.2 hb hsub hs]
      exact ht
    · rcases mem_cons.mp hx with rfl | hx
      · rcases hs with ⟨rfl, -⟩ | ⟨rfl, -⟩ <;> simp
      · simp [hsub x hx]

/-- **`merge_node_list`** leaves one root of the list. -/
theorem mergeNodeList_spec (hw : StrictWeak cmp) {o : Option ℕ} (fuel : ℕ) :
    ∀ (w : World α) (first : ℕ) (l : List ℕ) (R : Set ℕ), Trees cmp w.toAccount w.children R →
      (first :: l).Nodup → (∀ x ∈ first :: l, x ∈ R ∧ w.ledger.owner x = o) → l.length ≤ fuel →
      (w.mergeNodeList cmp fuel first l).2 ∈ first :: l ∧
        Same w (w.mergeNodeList cmp fuel first l).1 ∧
        Trees cmp (w.mergeNodeList cmp fuel first l).1.toAccount
          (w.mergeNodeList cmp fuel first l).1.children
          (remaining R (first :: l) [(w.mergeNodeList cmp fuel first l).2]) := by
  have hsingle : ∀ (R : Set ℕ) (a : ℕ), remaining R [a] [a] = R := by
    intro R a
    ext x
    exact ⟨fun hx => hx.1, fun hx => ⟨hx, (Classical.em (x ∈ [a])).symm⟩⟩
  induction fuel with
  | zero =>
    intro w first l R h hnd hl hfuel
    rw [Nat.le_zero, length_eq_zero_iff] at hfuel
    subst hfuel
    rw [mergeNodeList, hsingle]
    exact ⟨by simp, Same.refl w, h⟩
  | succ fuel ih =>
    intro w first l R h hnd hl hfuel
    cases l with
    | nil =>
      rw [mergeNodeList, hsingle]
      exact ⟨by simp, Same.refl w, h⟩
    | cons second rest =>
      obtain ⟨ht, hsame, hnd', hsub, hlen⟩ := mergePairs_spec hw w _ R h hnd hl
      rw [mergeNodeList]
      rw [mergePairs] at ht hsame hnd' hsub hlen
      generalize w.mergeNodes cmp first second = g at ht hsame hnd' hsub hlen
      obtain ⟨w₁, m⟩ := g
      dsimp only at ht hsame hnd' hsub hlen ⊢
      generalize w₁.mergePairs cmp rest = g at ht hsame hnd' hsub hlen
      obtain ⟨w₂, l'⟩ := g
      have hl' : ∀ x ∈ m :: l', x ∈ remaining R (first :: second :: rest) (m :: l') ∧
          w₂.ledger.owner x = o := by
        intro x hx
        rw [hsame.account]
        exact ⟨⟨(hl x (hsub x hx)).1, Or.inr hx⟩, (hl x (hsub x hx)).2⟩
      simp only [length_cons] at hlen hfuel
      obtain ⟨hmem, hsame', htrees⟩ := ih w₂ m l' _ ht hnd' hl' (by omega)
      refine ⟨hsub _ hmem, hsame.trans hsame', ?_⟩
      convert htrees using 1
      ext x
      dsimp only at hmem ⊢
      generalize (mergeNodeList cmp fuel w₂ m l').2 = k at hmem ⊢
      have hx := hsub x
      simp only [remaining, Set.mem_ofPred_eq, mem_singleton]
      constructor
      · rintro ⟨hR, h | rfl⟩
        · exact ⟨⟨hR, Or.inl h⟩, Or.inl fun h' => h (hx h')⟩
        · exact ⟨⟨hR, Or.inr hmem⟩, Or.inr rfl⟩
      · rintro ⟨⟨hR, h⟩, h' | rfl⟩
        · exact ⟨hR, Or.inl (h.resolve_right h')⟩
        · exact ⟨hR, Or.inr rfl⟩

/-- **`merge_node_list(n->children)`** of a node whose children are taken as roots. -/
theorem mergeChildren_spec (hw : StrictWeak cmp) {n : ℕ} {o : Option ℕ} {l : List ℕ}
    (hl : w.children n = l)
    (h : Trees cmp w.toAccount (Function.update w.children n []) (R ∪ { c | c ∈ l }))
    (hnd : l.Nodup) (hR : ∀ c ∈ l, c ∉ R) (ho : ∀ c ∈ l, w.ledger.owner c = o) :
    Same w (w.mergeChildren cmp n).1 ∧
      ((w.mergeChildren cmp n).2 = none ∧
          Trees cmp w.toAccount (w.mergeChildren cmp n).1.children R ∨
        ∃ m ∈ l, (w.mergeChildren cmp n).2 = some m ∧
          Trees cmp w.toAccount (w.mergeChildren cmp n).1.children (R ∪ {m})) := by
  rw [mergeChildren, hl]
  cases l with
  | nil =>
    have hself := update_eq_self n w.children
    rw [hl] at hself
    rw [hself] at h
    refine ⟨Same.refl w, Or.inl ⟨rfl, ?_⟩⟩
    simpa using h
  | cons first rest =>
    obtain ⟨hmem, hsame, htrees⟩ := mergeNodeList_spec hw (rest.length + 1)
      { w with children := Function.update w.children n [] } first rest _ h hnd
      (fun x hx => ⟨Or.inr hx, ho x hx⟩) (by omega)
    dsimp only
    generalize mergeNodeList cmp (rest.length + 1)
      { w with children := Function.update w.children n [] } first rest = g at hmem hsame htrees
    obtain ⟨w₁, m⟩ := g
    refine ⟨⟨hsame.account, hsame.root, hsame.size⟩, Or.inr ⟨m, hmem, rfl, ?_⟩⟩
    rw [hsame.account] at htrees
    convert htrees using 1
    ext x
    simp only [remaining, Set.mem_union, Set.mem_ofPred_eq, Set.mem_singleton_iff,
      mem_singleton]
    dsimp only at hmem
    constructor
    · rintro (hx | rfl)
      · exact ⟨Or.inl hx, Or.inl fun hx' => hR x hx' hx⟩
      · exact ⟨Or.inr hmem, Or.inr rfl⟩
    · rintro ⟨hx | hx, hx' | rfl⟩
      · exact Or.inl hx
      · exact Or.inl hx
      · exact absurd hx hx'
      · exact Or.inr rfl

/-- **`merge_node`** of a tree that is no heap's yet. -/
theorem mergeNode_spec (hw : StrictWeak cmp) {i other : ℕ} (hrooted : Rooted w.ledger w.root)
    (h : Trees cmp w.toAccount w.children (heapRoots w.root ∪ {other}))
    (hother : other ∉ heapRoots w.root) (ho : w.ledger.owner other = some i) :
    OneTree cmp w.toAccount (w.mergeNode cmp i other).children (w.mergeNode cmp i other).root ∧
      (w.mergeNode cmp i other).toAccount = w.toAccount ∧
      (w.mergeNode cmp i other).size = w.size := by
  rw [mergeNode]
  cases hr : w.root i with
  | none =>
    refine ⟨⟨?_, hrooted.update fun n hn => Option.some_inj.mp hn ▸ ho⟩, rfl, rfl⟩
    rw [← heapRoots_fill (hrooted.inj i) hr] at h
    exact h
  | some r =>
    have hne : r ≠ other := fun e => hother ⟨i, e ▸ hr⟩
    obtain ⟨s, hs, htrees⟩ := mergeNodes_spec hw h (Or.inl ⟨i, hr⟩) (Or.inr rfl) hne
      ((hrooted i r hr).trans ho.symm)
    have hsame : Same w (w.mergeNodes cmp r other).1 := same_mergeNodes r other
    dsimp only
    generalize w.mergeNodes cmp r other = g at hs htrees hsame
    obtain ⟨w₁, k⟩ := g
    have hroot : w₁.root = w.root := hsame.root
    rw [hsame.account] at htrees
    refine ⟨⟨?_, ?_⟩, hsame.account, hsame.size⟩
    · rw [setRoot, hroot, heapRoots_winner (hrooted.inj i) hr hother hs]
      exact htrees
    · rw [setRoot, hroot]
      refine hrooted.update fun n hn => ?_
      rw [← Option.some_inj.mp hn]
      rcases hs with ⟨rfl, -⟩ | ⟨rfl, -⟩
      · exact hrooted i _ hr
      · exact ho

/-- The end of `update`: `k` heads a tree, which may be the tree of heap `i`. -/
theorem settle_spec (hw : StrictWeak cmp) {i k : ℕ} (hrooted : Rooted w.ledger w.root)
    (h : Trees cmp w.toAccount w.children (heapRoots w.root ∪ {k}))
    (ho : w.ledger.owner k = some i) :
    let w' := if w.root i = some k then w else w.mergeNode cmp i k
    OneTree cmp w.toAccount w'.children w'.root ∧ w'.toAccount = w.toAccount ∧ w'.size = w.size := by
  intro w'
  by_cases hr : w.root i = some k
  · have hw' : w' = w := if_pos hr
    have hk : {k} ⊆ heapRoots w.root := Set.singleton_subset_iff.mpr ⟨i, hr⟩
    rw [hw']
    rw [Set.union_eq_self_of_subset_right hk] at h
    exact ⟨⟨h, hrooted⟩, rfl, rfl⟩
  · have hw' : w' = w.mergeNode cmp i k := if_neg hr
    rw [hw']
    exact mergeNode_spec hw hrooted h (hrooted.not_mem ho hr) ho

/-- A root taken out of the list it was just put into. -/
theorem unlink_pushFront (h : Trees cmp w.toAccount w.children R) {a b : ℕ} (ha : a ∈ R) :
    (w.pushFront b a).unlink a = w := by
  rw [unlink, pushFront]
  congr 1
  funext p
  by_cases hp : p = b
  · simp [hp]
  · simp [hp, erase_of_not_mem (h.root_free ha p)]

/-- `merge_node` of a tree the old root was already merged into puts it where it is. -/
theorem mergeNode_again (h : Trees cmp w.toAccount w.children R) {i a b : ℕ} (ha : a ∈ R)
    (hr : w.root i = some a) (hc : cmp (w.value a) (w.value b) = true) :
    (w.pushFront b a).mergeNode cmp i b = (w.pushFront b a).setRoot i (some b) := by
  have hr' : (w.pushFront b a).root i = some a := hr
  have hmerge : (w.pushFront b a).mergeNodes cmp a b = (w.pushFront b a, b) := by
    rw [mergeNodes]
    refine (if_pos hc).trans ?_
    rw [unlink_pushFront h ha]
  rw [mergeNode, hr']
  dsimp only
  rw [hmerge]

/-- The updated node is merged with the tree of its children, then with the rest of the heap. -/
theorem rejoin_spec (hw : StrictWeak cmp) {i n m : ℕ} (hrooted : Rooted w.ledger w.root)
    (h : Trees cmp w.toAccount w.children (heapRoots w.root ∪ {n} ∪ {m})) (hne : n ≠ m)
    (hn : w.ledger.owner n = some i) (hm : w.ledger.owner m = some i) (hmR : m ∉ heapRoots w.root) :
    let w' := if (w.mergeNodes cmp n m).1.root i = some (w.mergeNodes cmp n m).2 then
        (w.mergeNodes cmp n m).1
      else (w.mergeNodes cmp n m).1.mergeNode cmp i (w.mergeNodes cmp n m).2
    OneTree cmp w.toAccount w'.children w'.root ∧ w'.toAccount = w.toAccount ∧ w'.size = w.size := by
  obtain ⟨s, hs, hmerged⟩ := mergeNodes_spec hw h (Or.inl (Or.inr rfl)) (Or.inr rfl) hne
    (hn.trans hm.symm)
  have hsame : Same w (w.mergeNodes cmp n m).1 := same_mergeNodes n m
  by_cases hback : w.root i = some n ∧ cmp (w.value n) (w.value m) = true
  · obtain ⟨hr, hc⟩ := hback
    have hmerge : w.mergeNodes cmp n m = (w.pushFront m n, m) := by
      rw [mergeNodes, if_pos hc, unlink_of_root h (Or.inl (Or.inr rfl))]
    have hrm : ¬ (w.pushFront m n).root i = some m := by
      rw [pushFront, hr, Option.some_inj]
      exact hne
    rw [hmerge] at hs hmerged
    obtain rfl : s = n := hs.elim (fun hs => absurd hs.1.symm hne) And.right
    rw [hmerge]
    dsimp only
    rw [if_neg hrm, mergeNode_again h (Or.inl (Or.inr rfl)) hr hc]
    refine ⟨⟨?_, hrooted.update fun x hx => Option.some_inj.mp hx ▸ hm⟩, rfl, rfl⟩
    rw [setRoot, pushFront, heapRoots_winner (hrooted.inj i) hr hmR (Or.inr ⟨rfl, rfl⟩)]
    have hsR : {s} ⊆ heapRoots w.root := Set.singleton_subset_iff.mpr ⟨i, hr⟩
    rwa [Set.union_eq_self_of_subset_right hsR] at hmerged
  · have hset : (heapRoots w.root ∪ {n} ∪ {m}) \ {s} =
        heapRoots w.root ∪ {(w.mergeNodes cmp n m).2} := by
      rcases hs with ⟨hk, rfl⟩ | ⟨hk, rfl⟩
      · rw [hk, Set.union_sdiff_right]
        refine Set.sdiff_singleton_eq_self ?_
        rintro (hs | hs)
        · exact hmR hs
        · exact hne hs.symm
      · have hc : cmp (w.value s) (w.value m) = true := by
          by_contra hc
          rw [mergeNodes, if_neg hc] at hk
          exact hne hk
        have hsR : s ∉ heapRoots w.root := hrooted.not_mem hn fun hr => hback ⟨hr, hc⟩
        rw [hk, Set.union_right_comm, Set.union_sdiff_right]
        refine Set.sdiff_singleton_eq_self ?_
        rintro (hs | hs)
        · exact hsR hs
        · exact hne hs
    have hk : w.ledger.owner (w.mergeNodes cmp n m).2 = some i := by
      rcases hs with ⟨hk, -⟩ | ⟨hk, -⟩
      · rw [hk, hn]
      · rw [hk, hm]
    rw [hset] at hmerged
    generalize w.mergeNodes cmp n m = g at hmerged hsame hk
    obtain ⟨w₁, k⟩ := g
    obtain ⟨hacc, hroot, hsize⟩ := hsame
    rw [← hacc, ← hsize]
    rw [← hacc] at hk hrooted
    rw [← hroot] at hmerged hrooted
    exact settle_spec hw hrooted hmerged hk

/-- **`update(handle)`**, after the value of the node was changed. -/
theorem updateNode_spec (hw : StrictWeak cmp) {i n : ℕ} {v : α}
    (h : OneTree cmp w.toAccount w.children w.root) (hn : w.ledger.owner n = some i) :
    let w' := (w.assign n v).updateNode cmp i n
    OneTree cmp (w.toAccount.assign n v) w'.children w'.root ∧
      w'.toAccount = w.toAccount.assign n v ∧ w'.size = w.size := by
  have hisolated := h.trees.isolate (w.toAccount.assign n v) (by simp [hn]) rfl
    fun x hx => update_of_ne hx ..
  have hself : (w.children n).erase n = w.children n :=
    erase_of_not_mem h.trees.not_self_child
  have hfree : ∀ c ∈ w.children n, c ∉ heapRoots w.root ∪ {n} := by
    rintro c hc (hc' | rfl)
    · exact h.trees.root_free hc' n hc
    · exact h.trees.not_self_child hc
  have hown : ∀ c ∈ w.children n, w.ledger.owner c = some i := by
    intro c hc
    rw [h.trees.owner_eq hc, hn]
  obtain ⟨hsame, hcases⟩ := mergeChildren_spec (w := (w.assign n v).unlink n) hw hself hisolated
    (h.trees.nodup n) hfree hown
  simp only [updateNode]
  generalize mergeChildren cmp ((w.assign n v).unlink n) n = g at hsame hcases
  obtain ⟨w₁, o⟩ := g
  have hacc : w₁.toAccount = w.toAccount.assign n v := hsame.account
  have hroot : w₁.root = w.root := hsame.root
  have hsize : w₁.size = w.size := hsame.size
  have hrooted : Rooted w₁.ledger w₁.root := by
    rw [hacc, hroot]
    exact h.rooted
  rcases hcases with ⟨rfl, htrees⟩ | ⟨m, hm, rfl, htrees⟩
  · have hset := settle_spec (w := w₁) hw (i := i) (k := n) hrooted
      (by rw [hacc, hroot]; exact htrees) (by rw [hacc]; exact hn)
    rw [hacc, hsize] at hset
    exact hset
  · have hne : n ≠ m := fun e => h.trees.not_self_child (e ▸ hm)
    have hmR : m ∉ heapRoots w.root := fun hm' => hfree m hm (Or.inl hm')
    have hmo : w.ledger.owner m = some i := hown m hm
    have htrees₁ : Trees cmp w₁.toAccount w₁.children (heapRoots w₁.root ∪ {n} ∪ {m}) := by
      rw [hacc, hroot]
      exact htrees
    have hn₁ : w₁.ledger.owner n = some i := by
      rw [hacc]
      exact hn
    have hm₁ : w₁.ledger.owner m = some i := by
      rw [hacc]
      exact hmo
    rw [← hacc, ← hsize]
    rw [← hroot] at hmR
    exact rejoin_spec hw hrooted htrees₁ hne hn₁ hm₁ hmR

/-- **`erase`** up to the size: the handle `n` was given up when the call was made. -/
theorem eraseTree_spec (hw : StrictWeak cmp) {i n : ℕ}
    (h : OneTree cmp w.toAccount w.children w.root) (hn : w.ledger.owner n = some i) :
    let w' := { w with ledger := w.ledger.drop n }.eraseTree cmp i n
    OneTree cmp ⟨w.ledger.drop n, w.value⟩ w'.children w'.root ∧
      w'.toAccount = ⟨w.ledger.drop n, w.value⟩ ∧ w'.size = w.size := by
  have hself : n ∉ w.children n := h.trees.not_self_child
  have hlive : w.ledger.owner n ≠ none := by simp [hn]
  have hreleased := h.trees.release hlive
  have hfree : ∀ c ∈ w.children n, c ∉ heapRoots w.root \ {n} :=
    fun c hc hc' => h.trees.root_free hc'.1 n hc
  have hown : ∀ c ∈ w.children n, (w.ledger.drop n).owner c = some i := by
    intro c hc
    have hcn : c ≠ n := fun e => hself (e ▸ hc)
    rw [Ledger.owner_drop, if_neg hcn, h.trees.owner_eq hc, hn]
  have hrooted : ∀ j x, w.root j = some x → x ≠ n → (w.ledger.drop n).owner x = some j := by
    intro j x hj hx
    rw [Ledger.owner_drop, if_neg hx, h.rooted j x hj]
  intro w'
  by_cases hr : w.root i = some n
  · have hw' : w' = _ := if_neg (not_not_intro hr)
    have hnone : (fun p => (w.children p).erase n) = w.children :=
      funext fun p => erase_of_not_mem (h.trees.root_free ⟨i, hr⟩ p)
    rw [hnone] at hreleased
    obtain ⟨hsame, hcases⟩ := mergeChildren_spec (w := { w with ledger := w.ledger.drop n }) hw rfl
      hreleased (h.trees.nodup n) hfree hown
    rw [hw']
    dsimp only
    generalize mergeChildren cmp { w with ledger := w.ledger.drop n } n = g at hsame hcases
    obtain ⟨w₁, o⟩ := g
    have hroot : w₁.root = w.root := hsame.root
    refine ⟨⟨?_, ?_⟩, hsame.account, hsame.size⟩
    · rw [setRoot, hroot, heapRoots_replace (h.rooted.inj i) hr]
      rcases hcases with ⟨rfl, htrees⟩ | ⟨m, -, rfl, htrees⟩
      · simpa using htrees
      · have hm : { x | some m = some x } = {m} := by
          ext x
          simp [eq_comm]
        rw [hm]
        exact htrees
    · rw [setRoot, hroot]
      refine roots_update (fun j x hji hj => hrooted j x hj fun e => ?_) fun x hx => ?_
      · exact hji (h.rooted.inj i j n (e ▸ hj) hr)
      · rcases hcases with ⟨rfl, -⟩ | ⟨m, hm, rfl, -⟩
        · cases hx
        · exact hown x (Option.some_inj.mp hx ▸ hm)
  · have hw' : w' = _ := if_pos hr
    have hnR : n ∉ heapRoots w.root := h.rooted.not_mem hn hr
    rw [Set.sdiff_singleton_eq_self hnR] at hreleased hfree
    have hrooted' : Rooted (w.ledger.drop n) w.root :=
      fun j x hj => hrooted j x hj fun e => hnR ⟨j, e ▸ hj⟩
    obtain ⟨hsame, hcases⟩ := mergeChildren_spec
      (w := { w with ledger := w.ledger.drop n }.unlink n) hw
      (erase_of_not_mem hself) hreleased (h.trees.nodup n) hfree hown
    rw [hw']
    dsimp only
    generalize mergeChildren cmp ({ w with ledger := w.ledger.drop n }.unlink n) n = g
      at hsame hcases
    obtain ⟨w₁, o⟩ := g
    have hacc : w₁.toAccount = ⟨w.ledger.drop n, w.value⟩ := hsame.account
    have hroot : w₁.root = w.root := hsame.root
    have hsize : w₁.size = w.size := hsame.size
    rcases hcases with ⟨rfl, htrees⟩ | ⟨m, hm, rfl, htrees⟩
    · refine ⟨⟨?_, ?_⟩, hacc, hsize⟩
      · dsimp only
        rw [hroot]
        exact htrees
      · dsimp only
        rw [hroot]
        exact hrooted'
    · dsimp only
      rw [← hacc, ← hsize]
      refine mergeNode_spec hw ?_ ?_ ?_ ?_
      · rw [hacc, hroot]
        exact hrooted'
      · rw [hacc, hroot]
        exact htrees
      · rw [hroot]
        exact hfree m hm
      · rw [hacc]
        exact hown m hm

/-! ### Every call and every run -/

/-- One tree for each heap, and the sizes. -/
structure Inv (cmp : α → α → Bool) (w : World α) : Prop where
  tree : OneTree cmp w.toAccount w.children w.root
  counts : Counts w.ledger w.size

theorem inv_of_tree {w' : World α} {a : Account α} {size : ℕ → ℕ}
    (h : OneTree cmp a w'.children w'.root ∧ w'.toAccount = a ∧ w'.size = size)
    (hc : Counts a.ledger size) : Inv cmp w' ∧ w'.toAccount = a := by
  obtain ⟨htree, hacc, hsize⟩ := h
  subst hacc hsize
  exact ⟨⟨htree, hc⟩, rfl⟩

theorem push_spec (hw : StrictWeak cmp) (h : Inv cmp w) (i : ℕ) (v : α) :
    Inv cmp (w.push cmp i v) ∧ (w.push cmp i v).toAccount =
      ⟨w.ledger.add i, Function.update w.value w.ledger.fresh v⟩ := by
  have hdead := w.ledger.bound w.ledger.fresh le_rfl
  have hchildren : Function.update w.children w.ledger.fresh [] = w.children := by
    have hself := update_eq_self w.ledger.fresh w.children
    rwa [h.tree.trees.children_of_dead hdead] at hself
  refine inv_of_tree (mergeNode_spec (w := ⟨⟨w.ledger.add i, _⟩, _, w.root, _⟩) hw ?_ ?_ ?_ ?_)
    (h.counts.add i)
  · intro j x hj
    have ho := h.tree.rooted j x hj
    have hx : x ≠ w.ledger.fresh := by
      rintro rfl
      rw [hdead] at ho
      cases ho
    rw [Ledger.owner_add, if_neg hx, ho]
  · dsimp only
    rw [hchildren]
    exact h.tree.trees.alloc i v
  · rintro ⟨j, hj⟩
    have ho := h.tree.rooted j _ hj
    rw [hdead] at ho
    cases ho
  · rw [Ledger.owner_add, if_pos rfl]

/-- **`update`**, `increase` and `decrease`. -/
theorem update_spec (hw : StrictWeak cmp) (h : Inv cmp w) {i n : ℕ} {v : α}
    (hn : w.ledger.owner n = some i) :
    Inv cmp (w.update cmp i n v) ∧ (w.update cmp i n v).toAccount = w.toAccount.assign n v :=
  inv_of_tree (updateNode_spec hw h.tree hn) h.counts

theorem erase_spec (hw : StrictWeak cmp) (h : Inv cmp w) {i n : ℕ}
    (hn : w.ledger.owner n = some i) :
    Inv cmp (w.erase cmp i n) ∧ (w.erase cmp i n).toAccount = ⟨w.ledger.drop n, w.value⟩ := by
  obtain ⟨htree, hacc, hsize⟩ := eraseTree_spec hw h.tree hn
  refine inv_of_tree ⟨htree, hacc, ?_⟩ (h.counts.drop hn)
  rw [erase]
  dsimp only
  rw [hsize]

theorem mergeNode_clear {i j other : ℕ} (hij : i ≠ j) :
    (w.mergeNode cmp i other).setRoot j none = (w.setRoot j none).mergeNode cmp i other := by
  have hr : (w.setRoot j none).root i = w.root i := update_of_ne hij ..
  have hnodes : ∀ r, (w.setRoot j none).mergeNodes cmp r other =
      ((w.mergeNodes cmp r other).1.setRoot j none, (w.mergeNodes cmp r other).2) := by
    intro r
    rw [mergeNodes, mergeNodes]
    by_cases hc : cmp (w.value r) (w.value other) = true
    · exact (if_pos hc).trans (by rw [if_pos hc]; rfl)
    · exact (if_neg hc).trans (by rw [if_neg hc]; rfl)
  have hcomm : ∀ (w : World α) (o : Option ℕ),
      (w.setRoot i o).setRoot j none = (w.setRoot j none).setRoot i o := by
    intro w o
    rw [setRoot, setRoot, setRoot, setRoot]
    dsimp only
    rw [update_comm hij]
  rw [mergeNode, mergeNode, hr]
  cases w.root i with
  | none => exact hcomm w (some other)
  | some r =>
    dsimp only
    rw [hnodes, hcomm]

theorem merge_spec (hw : StrictWeak cmp) (h : Inv cmp w) {i j : ℕ} (hij : i ≠ j) :
    Inv cmp (w.merge cmp i j) ∧ (w.merge cmp i j).toAccount = ⟨w.ledger.absorb i j, w.value⟩ := by
  rw [merge]
  cases hr : w.root j with
  | none =>
    have hempty : w.ledger.nodes j = ∅ := (h.tree.isQueue hw h.counts).top_none j hr
    rw [Ledger.absorb_of_empty hempty]
    exact ⟨h, rfl⟩
  | some r =>
    obtain ⟨hrooted, htrees, hrR, hro⟩ := h.tree.hand_over hr i
    obtain ⟨htree, hacc, hsize⟩ := mergeNode_spec
      (w := { w with ledger := w.ledger.absorb i j }.setRoot j none) hw hrooted htrees hrR hro
    rw [← mergeNode_clear hij] at htree hacc hsize
    refine inv_of_tree ⟨htree, hacc, ?_⟩ (h.counts.absorb hij)
    have hsize' : ({ w with ledger := w.ledger.absorb i j }.mergeNode cmp i r).size = w.size :=
      hsize
    dsimp only
    rw [hsize']

/-- **Every call** keeps the invariant and is a step of a priority queue. -/
theorem step_spec (hw : StrictWeak cmp) (h : Inv cmp w) {op : Op α}
    (hop : w.toAccount.Allowed cmp op) :
    Inv cmp (w.step cmp op) ∧
      Account.Step cmp w.toAccount op (w.step cmp op).toAccount := by
  cases op with
  | push i v =>
    obtain ⟨hinv, hacc⟩ := push_spec hw h i v
    refine ⟨hinv, ?_⟩
    rw [step, hacc]
    exact .push ..
  | pop i =>
    obtain ⟨n, hn⟩ := hop
    obtain ⟨r, hr, -⟩ := h.tree.reaches (Ledger.mem_nodes.mp hn)
    obtain ⟨hinv, hacc⟩ := erase_spec hw h (h.tree.rooted i r hr)
    rw [step, pop, hr]
    refine ⟨hinv, ?_⟩
    dsimp only
    rw [hacc]
    exact .pop _ (h.tree.maximum hw hr)
  | update i n v =>
    obtain ⟨hinv, hacc⟩ := update_spec (v := v) hw h hop
    refine ⟨hinv, ?_⟩
    rw [step, hacc]
    exact .update ..
  | touch i n v =>
    obtain ⟨hinv, hacc⟩ := update_spec (v := v) hw h hop
    refine ⟨hinv, ?_⟩
    show Account.Step cmp _ _ (w.update cmp i n v).toAccount
    rw [hacc]
    exact .touch ..
  | increase i n v =>
    obtain ⟨hinv, hacc⟩ := update_spec (v := v) hw h hop.1
    refine ⟨hinv, ?_⟩
    rw [step, hacc]
    exact .increase ..
  | decrease i n v =>
    obtain ⟨hinv, hacc⟩ := update_spec (v := v) hw h hop
    refine ⟨hinv, ?_⟩
    rw [step, hacc]
    exact .decrease ..
  | erase i n =>
    obtain ⟨hinv, hacc⟩ := erase_spec hw h hop
    refine ⟨hinv, ?_⟩
    rw [step, hacc]
    exact .erase ..
  | merge i j =>
    obtain ⟨hinv, hacc⟩ := merge_spec hw h hop
    refine ⟨hinv, ?_⟩
    rw [step, hacc]
    exact .merge ..

theorem inv_empty [Inhabited α] : Inv cmp (World.empty α) where
  tree := OneTree.empty
  counts := Counts.empty

/-- **Every run** of allowed calls leaves priority queues. -/
theorem run_spec [Inhabited α] (hw : StrictWeak cmp) (ops : List (Op α))
    (h : AllowedRun cmp toAccount (step cmp) (World.empty α) ops) :
    let w := ops.foldl (step cmp) (World.empty α)
    IsQueue cmp w.toAccount w.children w.root w.size ∧
      Account.Run cmp (Account.empty α) ops w.toAccount := by
  have hstep : ∀ w op, Inv cmp w → w.toAccount.Allowed cmp op → Inv cmp (w.step cmp op) :=
    fun w op hi hop => (step_spec hw hi hop).1
  have hinv := AllowedRun.invariant hstep ops _ inv_empty h
  have hsim := AllowedRun.simulates hstep (fun w op hi hop => (step_spec hw hi hop).2) ops _
    inv_empty h
  exact ⟨hinv.tree.isQueue hw hinv.counts, hsim⟩

end World

end SourceLibs.PairingHeap
