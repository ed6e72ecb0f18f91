import SourceLibs.Heap.FibonacciCalls

/-!
# Heap — ranks in the Fibonacci heap

A node gets its child number `k` when both have `k` children.  If the child loses at most one of them
while it is a child, the node has `fib (d + 2)` nodes below it for its `d` children, and `consolidate`
needs no entry of `aux` from `bits` on in a heap of fewer than `fib (bits + 2)` elements.

The calls do not see to that: `erase` and `update_lazy` take a child from any node, and
`cascading_cut` looks at the mark of the parent of the node that lost a child.  `Gentle` is what a
call must find: the node that loses a child and stays a child can spare it.

* `Ranked.links`, `Ranked.spilled`, `cascadingCut_ranked`: what each move does to the ranks.
* `fibonacciHeap_rank_run`: the bound, and that no call leaves `aux`, in runs of gentle calls.
-/

namespace SourceLibs.FibonacciHeap
open List Option Function Compare Handles

/-- A sublist moves nothing to a later position. -/
theorem exists_getElem?_of_sublist {l l' : List ℕ} (h : l'.Sublist l) {k c : ℕ}
    (hk : l'[k]? = some c) : ∃ j, k ≤ j ∧ l[j]? = some c := by
  induction h generalizing k with
  | slnil => exact ⟨k, le_rfl, hk⟩
  | cons b _ ih =>
    obtain ⟨j, hkj, hj⟩ := ih hk
    exact ⟨j + 1, by omega, hj⟩
  | cons_cons b _ ih =>
    cases k with
    | zero => exact ⟨0, le_rfl, hk⟩
    | succ k =>
      obtain ⟨j, hkj, hj⟩ := ih hk
      exact ⟨j + 1, by omega, hj⟩

namespace World

variable {α : Type*} {cmp : α → α → Bool} {bits : ℕ} {w w' : World α} {i n : ℕ}

/-- The child at position `k` has at least `k - 1` children, but for the nodes of `Y`. -/
def RankedBut (w : World α) (Y : Set ℕ) : Prop :=
  ∀ p k c, c ∉ Y → (w.children p)[k]? = some c → k ≤ w.childCount c + 1

/-- The child at position `k` has at least `k - 1` children. -/
def Ranked (w : World α) : Prop := w.RankedBut ∅

/-- `n` can lose a child: it is a root, or has as many children as nodes stand before it. -/
def Spare (w : World α) (n : ℕ) : Prop :=
  (w.parent n).elim True fun q => (w.children q).idxOf n ≤ w.childCount n

/-- The parent of `n`, if there is one, can lose `n`. -/
def Takeable (w : World α) (n : ℕ) : Prop := (w.parent n).elim True w.Spare

/-- The same for a node `p` of which `cut` takes a child: the last of the nodes up to which
`cascading_cut` cuts can lose one. -/
def Cascades (w : World α) : ℕ → ℕ → Prop
  | 0, _ => False
  | fuel + 1, p =>
    match w.parent p with
    | none => True
    | some q =>
      if w.mark q then w.Cascades fuel q else (w.children q).idxOf p ≤ w.childCount p

/-- `increase` finds what it may cut. -/
def GentleIncrease (cmp : α → α → Bool) (w : World α) (n : ℕ) (v : α) : Prop :=
  (w.parent n).elim True fun p => cmp (w.value p) v = true → w.Cascades w.ledger.fresh p

/-- The node that loses a child in the call can spare it, and the heap is not too large. -/
def Gentle (cmp : α → α → Bool) (bits : ℕ) (w : World α) : Op α → Prop
  | .push _ _ => True
  | .pop i => w.size i < Nat.fib (bits + 2)
  | .update i n v =>
    if cmp (w.value n) v then w.GentleIncrease cmp n v
    else w.Takeable n ∧ w.size i < Nat.fib (bits + 2)
  | .touch i n _ => w.Takeable n ∧ w.size i < Nat.fib (bits + 2)
  | .increase _ n v => w.GentleIncrease cmp n v
  | .decrease i n _ => w.Takeable n ∧ w.size i < Nat.fib (bits + 2)
  | .erase i n => w.Takeable n ∧ w.size i < Nat.fib (bits + 2)
  | .merge _ _ => True

instance (w : World α) (n : ℕ) : Decidable (w.Spare n) :=
  match h : w.parent n with
  | none => .isTrue (by rw [Spare, h]; trivial)
  | some q => decidable_of_iff ((w.children q).idxOf n ≤ w.childCount n) (by rw [Spare, h]; rfl)

instance (w : World α) (n : ℕ) : Decidable (w.Takeable n) :=
  match h : w.parent n with
  | none => .isTrue (by rw [Takeable, h]; trivial)
  | some p => decidable_of_iff (w.Spare p) (by rw [Takeable, h]; rfl)

instance Cascades.decidable (w : World α) : (fuel p : ℕ) → Decidable (w.Cascades fuel p)
  | 0, _ => inferInstanceAs (Decidable False)
  | fuel + 1, p =>
    match h : w.parent p with
    | none => .isTrue (by rw [Cascades, h]; trivial)
    | some q =>
      have : Decidable (w.Cascades fuel q) := Cascades.decidable w fuel q
      decidable_of_iff
        (if w.mark q then w.Cascades fuel q else (w.children q).idxOf p ≤ w.childCount p)
        (by rw [Cascades, h])

instance (cmp : α → α → Bool) (w : World α) (n : ℕ) (v : α) : Decidable (w.GentleIncrease cmp n v) :=
  match h : w.parent n with
  | none => .isTrue (by rw [GentleIncrease, h]; trivial)
  | some p =>
    decidable_of_iff (cmp (w.value p) v = true → w.Cascades w.ledger.fresh p)
      (by rw [GentleIncrease, h]; rfl)

instance (cmp : α → α → Bool) (bits : ℕ) (w : World α) :
    (op : Op α) → Decidable (Gentle cmp bits w op)
  | .push _ _ => inferInstanceAs (Decidable True)
  | .pop i => inferInstanceAs (Decidable (w.size i < Nat.fib (bits + 2)))
  | .update i n v =>
    inferInstanceAs (Decidable (if cmp (w.value n) v then w.GentleIncrease cmp n v
      else w.Takeable n ∧ w.size i < Nat.fib (bits + 2)))
  | .touch i n _ => inferInstanceAs (Decidable (w.Takeable n ∧ w.size i < Nat.fib (bits + 2)))
  | .increase _ n v => inferInstanceAs (Decidable (w.GentleIncrease cmp n v))
  | .decrease i n _ => inferInstanceAs (Decidable (w.Takeable n ∧ w.size i < Nat.fib (bits + 2)))
  | .erase i n => inferInstanceAs (Decidable (w.Takeable n ∧ w.size i < Nat.fib (bits + 2)))
  | .merge _ _ => inferInstanceAs (Decidable True)

theorem RankedBut.congr {Y : Set ℕ} (h : w.RankedBut Y) (hc : w'.children = w.children) :
    w'.RankedBut Y := by
  intro p k c hcY hk
  rw [hc] at hk
  rw [childCount, hc]
  exact h p k c hcY hk

/-- Where `n` leaves the lists, only its parent has one child less. -/
theorem RankedBut.erase {Y : Set ℕ} (h : w.RankedBut Y) (hb : Base cmp w) {p k c : ℕ}
    (hY : c ∉ Y ∨ c = n) (hk : ((w.children p).erase n)[k]? = some c)
    (hspare : n ∈ w.children c → (w.children p).idxOf c ≤ w.childCount c) :
    k ≤ ((w.children c).erase n).length + 1 := by
  obtain ⟨j, hkj, hj⟩ := exists_getElem?_of_sublist erase_sublist hk
  have hcn : c ≠ n := (((hb.trees.nodup p).mem_erase_iff).mp (mem_of_getElem? hk)).1
  by_cases hn : n ∈ w.children c
  · have hidx : (w.children p).idxOf c = j := by
      obtain ⟨hlt, hget⟩ := List.getElem?_eq_some_iff.mp hj
      rw [← hget]
      exact (hb.trees.nodup p).idxOf_getElem j hlt
    have hle := hspare hn
    rw [length_erase_of_mem hn]
    rw [hidx, childCount] at hle
    omega
  · rw [erase_of_not_mem hn]
    have hle := h p j c (hY.resolve_right hcn) hj
    rw [childCount] at hle
    omega

/-- **A node and its children leave** a parent that can spare it. -/
theorem Ranked.spilled (h : w.Ranked) (hb : Base cmp w) {X : Set ℕ} (hs : Spilled w w' i n X)
    (ht : w.Takeable n) : w'.Ranked := by
  intro p k c _ hk
  rw [hs.children] at hk
  by_cases hp : p = n
  · rw [hp, update_self] at hk
    cases hk
  rw [update_of_ne hp] at hk
  have hc := ((hb.trees.nodup p).mem_erase_iff).mp (mem_of_getElem? hk)
  rw [childCount, hs.children, update_of_ne hc.1]
  refine RankedBut.erase h hb (Or.inl (Set.notMem_empty c)) hk fun hn => ?_
  rw [Takeable, hb.child_parent c n hn, elim_some, Spare, hb.child_parent p c hc.2] at ht
  exact ht

/-- **Links** put a child behind as many as it has itself. -/
theorem Ranked.links (hl : Links cmp i w w') (hb : Base cmp w) (h : w.Ranked) : w'.Ranked := by
  induction hl with
  | refl => exact h
  | top o _ ih => exact ih (hb.setTop o) (h.congr rfl)
  | @link w w' n other hn hother hne hrank hord _ ih =>
    refine ih (base_link hb hn hother hne hord).1 fun p k c _ hk => ?_
    have hold : ∀ {p k c}, (w.children p)[k]? = some c → k ≤ (w.link i n other).childCount c + 1 := by
      intro p k c hk
      have hle := h p k c (Set.notMem_empty c) hk
      rw [childCount_link hb hother]
      split
      · rename_i hcn
        rw [hcn] at hle
        omega
      · exact hle
    rw [link_of_root hb hother] at hk
    replace hk : (Function.update w.children n (w.children n ++ [other]) p)[k]? = some c := hk
    by_cases hp : p = n
    · rw [hp, update_self] at hk
      by_cases hlt : k < (w.children n).length
      · rw [List.getElem?_append_left hlt] at hk
        exact hold hk
      · have hklt := (List.getElem?_eq_some_iff.mp hk).1
        rw [length_append, length_singleton] at hklt
        obtain rfl : k = (w.children n).length := by omega
        rw [List.getElem?_append_right le_rfl, Nat.sub_self, List.getElem?_cons_zero,
          some_inj] at hk
        rw [← hk, childCount_link hb hother, if_neg hne.symm, ← hrank, childCount]
        omega
    · rw [update_of_ne hp] at hk
      exact hold hk

/-! ### `cascading_cut` -/

theorem cut_lists (hb : Base cmp w) (hn : w.ledger.owner n = some i) {p : ℕ} (hnp : n ∈ w.children p) :
    (w.cut i n).children = (fun q => (w.children q).erase n) ∧
      (w.cut i n).parent = Function.update w.parent n none ∧
      (w.cut i n).mark = Function.update w.mark n false := by
  rw [cut_eq hb hn hnp]
  exact ⟨rfl, rfl, rfl⟩

theorem RankedBut.cut {Y : Set ℕ} (h : w.RankedBut Y) (hb : Base cmp w)
    (hn : w.ledger.owner n = some i) {p : ℕ} (hnp : n ∈ w.children p) (hY : Y ⊆ {n}) :
    (w.cut i n).RankedBut {p} := by
  obtain ⟨hchildren, -, -⟩ := cut_lists hb hn hnp
  intro q k c hc hk
  rw [hchildren] at hk
  rw [childCount, hchildren]
  refine h.erase hb ((em (c = n)).symm.imp_left fun hcn hcY => hcn (hY hcY)) hk fun hnc => ?_
  exact absurd (hb.trees.valid.unique hnc hnp) hc

theorem Cascades.congr {S : Set ℕ} (hclosed : ∀ y ∈ S, ∀ z, w.parent y = some z → z ∈ S)
    (hparent : ∀ y ∈ S, w'.parent y = w.parent y) (hmark : ∀ y ∈ S, w'.mark y = w.mark y)
    (hchildren : ∀ y ∈ S, w'.children y = w.children y) {fuel : ℕ} :
    ∀ {p : ℕ}, p ∈ S → w.Cascades fuel p → w'.Cascades fuel p := by
  induction fuel with
  | zero => exact fun _ h => h
  | succ fuel ih =>
    intro p hp h
    rw [Cascades] at h ⊢
    rw [hparent p hp]
    cases hq : w.parent p with
    | none => trivial
    | some q =>
      have hqS := hclosed p hp q hq
      rw [hq] at h
      dsimp only at h ⊢
      rw [hmark q hqS]
      by_cases hm : w.mark q = true
      · rw [if_pos hm] at h ⊢
        exact ih hqS h
      · rw [if_neg hm] at h ⊢
        rw [childCount, hchildren p hp, hchildren q hqS]
        exact h

theorem Cascades.cut (hb : Base cmp w) (hn : w.ledger.owner n = some i) {p q : ℕ}
    (hnp : n ∈ w.children p) (hpq : p ∈ w.children q) {fuel : ℕ} (h : w.Cascades fuel q) :
    (w.cut i n).Cascades fuel q := by
  obtain ⟨hchildren, hparent, hmark⟩ := cut_lists hb hn hnp
  have hacyclic := hb.trees.valid.acyclic
  have hqo : w.ledger.owner q = some i := by
    rw [← hb.trees.owner_eq hpq, ← hb.trees.owner_eq hnp, hn]
  let S : Set ℕ := { y | Relation.ReflTransGen (fun c p => c ∈ w.children p) q y ∧
    w.ledger.owner y = some i }
  have hne : ∀ y ∈ S, y ≠ n ∧ y ≠ p := by
    rintro y ⟨hqy, -⟩
    constructor
    · rintro rfl
      exact hacyclic y (.head hnp (.head' hpq hqy))
    · rintro rfl
      exact hacyclic y (.head' hpq hqy)
  have hup : ∀ y ∈ S, ∀ z, w.parent y = some z → y ∈ w.children z := by
    rintro y ⟨-, hy⟩ z hz
    rcases hb.root_or_child hy with ⟨-, hnone⟩ | ⟨z', hz', hyz⟩
    · rw [hz] at hnone
      cases hnone
    · rw [hz, some_inj] at hz'
      exact hz' ▸ hyz
  refine h.congr (S := S) (fun y hy z hz => ?_) (fun y hy => ?_) (fun y hy => ?_) (fun y hy => ?_)
    ⟨.refl, hqo⟩
  · have hyz := hup y hy z hz
    exact ⟨hy.1.tail hyz, (hb.trees.owner_eq hyz).symm.trans hy.2⟩
  · rw [hparent, update_of_ne (hne y hy).1]
  · rw [hmark, update_of_ne (hne y hy).1]
  · rw [hchildren]
    refine erase_of_not_mem fun hny => (hne y hy).2 ?_
    exact hb.trees.valid.unique hny hnp

theorem Cascades.lost (hb : Base cmp w) (hn : w.ledger.owner n = some i) {p : ℕ}
    (hnp : n ∈ w.children p) {fuel : ℕ} (h : w.Cascades (fuel + 1) p) (q : ℕ)
    (hq : (w.cut i n).parent p = some q) :
    if (w.cut i n).mark q then (w.cut i n).Cascades fuel q
    else ((w.cut i n).children q).idxOf p ≤ (w.cut i n).childCount p + 1 := by
  obtain ⟨hchildren, hparent, hmark⟩ := cut_lists hb hn hnp
  have hpn : p ≠ n := fun e => hb.trees.not_self_child (e ▸ hnp)
  rw [hparent, update_of_ne hpn] at hq
  have hpo : w.ledger.owner p = some i := (hb.trees.owner_eq hnp).symm.trans hn
  have hpq : p ∈ w.children q := by
    rcases hb.root_or_child hpo with ⟨-, hnone⟩ | ⟨q', hq', hpq⟩
    · rw [hq] at hnone
      cases hnone
    · rw [hq, some_inj] at hq'
      exact hq' ▸ hpq
  have hqn : q ≠ n := by
    rintro rfl
    exact hb.trees.valid.acyclic q (.head hnp (.single hpq))
  have hnq : n ∉ w.children q := fun hnq => hb.trees.not_self_child (hb.trees.valid.unique hnq hnp ▸ hpq)
  rw [Cascades, hq] at h
  dsimp only at h
  rw [hmark, update_of_ne hqn]
  by_cases hm : w.mark q = true
  · rw [if_pos hm] at h ⊢
    exact h.cut hb hn hnp hpq
  · rw [if_neg hm] at h ⊢
    rw [childCount, hchildren]
    dsimp only
    rw [erase_of_not_mem hnq, length_erase_of_mem hnp]
    rw [childCount] at h
    omega

theorem RankedBut.of_root {p : ℕ} (hr : w.RankedBut {p}) (hb : Base cmp w) (hp : p ∈ w.roots i) :
    w.Ranked := by
  intro q k c _ hk
  refine hr q k c (fun e => ?_) hk
  rw [Set.mem_singleton_iff] at e
  exact hb.trees.root_free ⟨i, hp⟩ q (e ▸ mem_of_getElem? hk)

/-- The cascade ends below `q`, which gets a mark. -/
theorem ranked_of_last (hb : Base cmp w) {p q : ℕ} (hr : w.RankedBut {p}) (hpq : p ∈ w.children q)
    (hle : (w.children q).idxOf p ≤ w.childCount p + 1) :
    Ranked { w with mark := Function.update w.mark q true } := by
  intro q' k c _ hk
  by_cases hc : c = p
  · subst hc
    obtain rfl : q' = q := hb.trees.valid.unique (mem_of_getElem? hk) hpq
    obtain ⟨hlt, hget⟩ := List.getElem?_eq_some_iff.mp hk
    have hidx := (hb.trees.nodup q').idxOf_getElem k hlt
    rw [show (w.children q')[k] = c from hget] at hidx
    exact hidx ▸ hle
  · exact hr q' k c hc hk

theorem cascadingCut_last {p : ℕ} (hb : Base cmp w) (hp : w.ledger.owner p = some i)
    (hr : w.RankedBut {p}) (fuel : ℕ)
    (hlast : ∀ q, w.parent p = some q →
      w.mark q = false ∧ (w.children q).idxOf p ≤ w.childCount p + 1) :
    (w.cascadingCut i (fuel + 1) p).Ranked := by
  rw [cascadingCut]
  rcases hb.root_or_child hp with ⟨hroot, hnone⟩ | ⟨q, hq, hpq⟩
  · rw [hnone]
    exact hr.of_root hb hroot
  · obtain ⟨hm, hle⟩ := hlast q hq
    rw [hq]
    dsimp only
    rw [if_pos (by simp [hm])]
    exact ranked_of_last hb hr hpq hle

/-- **`cascading_cut`** ends at a node that can spare a child. -/
theorem cascadingCut_ranked (fuel : ℕ) :
    ∀ (w : World α) (p : ℕ), Base cmp w → w.ledger.owner p = some i → w.RankedBut {p} →
      (∀ q, w.parent p = some q → if w.mark q then w.Cascades fuel q
        else (w.children q).idxOf p ≤ w.childCount p + 1) →
      (w.cascadingCut i (fuel + 1) p).Ranked := by
  induction fuel with
  | zero =>
    intro w p hb hp hr hlost
    refine cascadingCut_last hb hp hr 0 fun q hq => ?_
    have hcase := hlost q hq
    cases hm : w.mark q with
    | true =>
      rw [if_pos hm] at hcase
      exact hcase.elim
    | false =>
      rw [if_neg (by simp [hm])] at hcase
      exact ⟨rfl, hcase⟩
  | succ fuel ih =>
    intro w p hb hp hr hlost
    by_cases hmarked : ∃ q, w.parent p = some q ∧ w.mark q = true
    · obtain ⟨q, hq, hm⟩ := hmarked
      have hcase := hlost q hq
      rw [if_pos hm] at hcase
      have hpq : p ∈ w.children q := by
        rcases hb.root_or_child hp with ⟨-, hnone⟩ | ⟨q', hq', hpq'⟩
        · rw [hq] at hnone
          cases hnone
        · rw [hq, some_inj] at hq'
          exact hq' ▸ hpq'
      rw [cascadingCut, hq]
      dsimp only
      rw [if_neg (by simpa using hm)]
      have hcut := (cut_spec hb hp hpq rfl (fun _ _ => rfl) (hb.trees.order p)).1
      refine ih _ q hcut.base ?_ (hr.cut hb hp hpq subset_rfl) fun r hrq =>
        hcase.lost hb hp hpq r hrq
      rw [hcut.account]
      exact (hb.trees.owner_eq hpq).symm.trans hp
    · refine cascadingCut_last hb hp hr (fuel + 1) fun q hq => ?_
      have hm : ¬ w.mark q = true := fun hm => hmarked ⟨q, hq, hm⟩
      have hcase := hlost q hq
      rw [if_neg hm] at hcase
      exact ⟨by simpa using hm, hcase⟩

theorem raiseTop_ranked (h : w.Ranked) (n : ℕ) : (w.raiseTop cmp i n).Ranked := by
  obtain ⟨o, ho⟩ := raiseTop_eq cmp (i := i) (w := w) n
  rw [ho]
  exact h.congr rfl

/-- **`increase(handle)`.** -/
theorem increaseNode_ranked (hw : StrictWeak cmp) (h : w.Ranked) (hb : Base cmp w)
    (hn : w.ledger.owner n = some i) {v : α} (hv : cmp v (w.value n) = false)
    (hg : w.GentleIncrease cmp n v) : ((w.assign n v).increaseNode cmp i n).Ranked := by
  rw [increaseNode]
  refine raiseTop_ranked ?_ n
  have hvn : (w.assign n v).value n = v := update_self ..
  rcases hb.root_or_child hn with ⟨-, hp⟩ | ⟨p, hp, hnp⟩
  · rw [show (w.assign n v).parent n = none from hp]
    exact h.congr rfl
  have hpn : p ≠ n := fun e => hb.trees.not_self_child (e ▸ hnp)
  have hvp : (w.assign n v).value p = w.value p := update_of_ne hpn ..
  rw [show (w.assign n v).parent n = some p from hp]
  dsimp only
  rw [hvn, hvp]
  cases hc : cmp (w.value p) v with
  | false =>
    rw [if_neg (by decide)]
    exact h.congr rfl
  | true =>
    rw [if_pos rfl]
    rw [GentleIncrease, hp, elim_some] at hg
    have hcascades := hg hc
    have hup : ∀ c ∈ w.children n, cmp ((w.toAccount.assign n v).value n) (w.value c) = false := by
      intro c hcn
      rw [show (w.toAccount.assign n v).value n = v from hvn]
      exact hw.trans hv (hb.trees.order n c hcn)
    have hcut := (cut_spec (a := w.toAccount.assign n v) hb hn hnp rfl
      (fun x hx => update_of_ne hx ..) hup).1
    have heq : (w.assign n v).cut i n = { w.cut i n with toAccount := w.toAccount.assign n v } := by
      rw [cut, assign, unhook_account]
      rfl
    have hpo : w.ledger.owner p = some i := (hb.trees.owner_eq hnp).symm.trans hn
    show (((w.assign n v).cut i n).cascadingCut i w.ledger.fresh p).Ranked
    have hbase : Base cmp ((w.assign n v).cut i n) := hcut.base
    rw [heq] at hbase ⊢
    cases hfresh : w.ledger.fresh with
    | zero =>
      rw [hfresh] at hcascades
      exact hcascades.elim
    | succ fuel =>
      rw [hfresh] at hcascades
      refine cascadingCut_ranked fuel _ p hbase hpo
        (RankedBut.congr (h.cut hb hn hnp (Set.empty_subset _)) rfl) fun q hq => ?_
      have hlost := hcascades.lost hb hn hnp q hq
      by_cases hm : (w.cut i n).mark q = true
      · rw [if_pos hm] at hlost
        rw [if_pos hm]
        refine Cascades.congr (w := w.cut i n) (S := Set.univ) ?_ ?_ ?_ ?_ trivial hlost
        · exact fun _ _ _ _ => trivial
        · exact fun _ _ => rfl
        · exact fun _ _ => rfl
        · exact fun _ _ => rfl
      · rw [if_neg hm] at hlost
        rw [if_neg hm]
        exact hlost

/-! ### The bound -/

/-- The nodes under `n`, and `n`. -/
def subtree (w : World α) (n : ℕ) : Set ℕ :=
  { x | Relation.ReflTransGen (fun c p => c ∈ w.children p) x n }

/-- **Every node has `fib (d + 2)` nodes below it** for its `d` children. -/
theorem Ranked.bound (h : w.Ranked) (hb : Base cmp w) (hn : w.ledger.owner n ≠ none) :
    Nat.fib (w.childCount n + 2) ≤ (w.subtree n).ncard :=
  hb.trees.valid.fib_le_ncard_below (fun p k c hk => h p k c (Set.notMem_empty c) hk) n
    (Ledger.mem_live.mpr hn)

/-- Roots that do not fit into `aux` can be linked to one of too many children. -/
theorem exists_rank_of_weight (hw : StrictWeak cmp) (hb : Base cmp w)
    (hle : 2 ^ bits ≤ w.weight (w.roots i)) :
    ∃ w', Links cmp i w w' ∧ ∃ r ∈ w'.roots i, bits ≤ w'.childCount r := by
  have hne : w.roots i ≠ [] := by
    intro hempty
    rw [hempty] at hle
    exact absurd hle (Nat.not_le.mpr (Nat.pow_pos (by omega)))
  -- A longer array would do.
  rcases consolidate_spec hw (w.weight (w.roots i)) hb hne with ⟨-, hlt⟩ | ⟨w', -, -, hcon, -⟩
  · exact absurd hlt (Nat.not_le.mpr Nat.lt_two_pow_self)
  refine ⟨w', hcon.links, ?_⟩
  by_contra hall
  push Not at hall
  have hlt := weight_lt_of_distinct ((hcon.links.base hb).1.nodup i) hall hcon.distinct
  rw [hcon.weight] at hlt
  omega

/-- **The ranks fit into `aux`** in a heap of fewer than `fib (bits + 2)` elements. -/
theorem Ranked.weight_lt (hw : StrictWeak cmp) (h : w.Ranked) (hb : Base cmp w)
    (hcard : (w.ledger.nodes i).card < Nat.fib (bits + 2)) : w.weight (w.roots i) < 2 ^ bits := by
  by_contra hle
  obtain ⟨w', hlinks, r, hr, hrank⟩ := exists_rank_of_weight hw hb (not_lt.mp hle)
  obtain ⟨hb', hlocal⟩ := hlinks.base hb
  have hro := hb'.rooted i r hr
  have hsub : w'.subtree r ⊆ w'.ledger.nodes i := fun x hx =>
    Finset.mem_coe.mpr (Ledger.mem_nodes.mpr (hb'.ancestor_owner hro hx))
  have hcount : (w'.subtree r).ncard ≤ (w.ledger.nodes i).card := by
    have hle := Set.ncard_le_ncard hsub (Finset.finite_toSet _)
    rwa [Set.ncard_coe_finset, hlocal.account] at hle
  have hfib := ((h.links hlinks hb).bound hb' (by simp [hro])).trans hcount
  have hmono : Nat.fib (bits + 2) ≤ Nat.fib (w'.childCount r + 2) := Nat.fib_mono (by omega)
  omega

theorem erase_fits (hw : StrictWeak cmp) (h : Inv cmp w) (hr : w.Ranked)
    (hn : w.ledger.owner n = some i) (ht : w.Takeable n) (hsize : w.size i < Nat.fib (bits + 2)) :
    w.load i n < 2 ^ bits := by
  obtain ⟨hs, hacc, -⟩ := spilled_erase h.base hn
  obtain ⟨hb, hweight⟩ := erased_base h.base hn
  rw [← hweight]
  refine (hr.spilled h.base hs ht).weight_lt hw hb ?_
  rw [hacc, Ledger.nodes_drop]
  exact (Finset.card_le_card (Finset.erase_subset ..)).trans_lt ((h.counts i) ▸ hsize)

theorem update_fits (hw : StrictWeak cmp) (h : Inv cmp w) (hr : w.Ranked)
    (hn : w.ledger.owner n = some i) (v : α) (ht : w.Takeable n)
    (hsize : w.size i < Nat.fib (bits + 2)) : w.load i n + 1 < 2 ^ bits := by
  obtain ⟨hs, hacc, -⟩ := spilled_update h.base hn v
  obtain ⟨hb, hweight⟩ := updated_base h.base hn v
  rw [← hweight]
  refine (hr.spilled h.base hs ht).weight_lt hw hb ?_
  rw [hacc]
  exact (h.counts i) ▸ hsize

theorem Refiled.ranked {X : Set ℕ} {k : ℕ} (hf : Refiled cmp i n X k w w') (hr : w.Ranked)
    (hb : Base cmp w) (ht : w.Takeable n) : w'.Ranked := by
  obtain ⟨w₁, hb₁, hs, hlinks⟩ := hf.links
  exact (hr.spilled hb hs ht).links hlinks hb₁

theorem Outcome.gentle {o : Option (World α)} {fits : Prop} {P : World α → Prop}
    (h : Outcome o fits P) (hf : fits) : ∃ w', o = some w' ∧ P w' := by
  rcases h with ⟨-, hnot⟩ | ⟨w', hsome, -, hP⟩
  · exact absurd hf hnot
  · exact ⟨w', hsome, hP⟩

/-- **A gentle call** returns and keeps the ranks. -/
theorem step_ranked (hw : StrictWeak cmp) (h : Inv cmp w) (hr : w.Ranked) {op : Op α}
    (hop : w.toAccount.Allowed cmp op) (hg : Gentle cmp bits w op) :
    ∃ w', w.step cmp bits op = some w' ∧ Inv cmp w' ∧ w'.Ranked := by
  have hupdate : ∀ {i n v}, w.ledger.owner n = some i →
      w.Takeable n ∧ w.size i < Nat.fib (bits + 2) →
      ∃ w', (w.assign n v).updateNode cmp bits i n = some w' ∧ Inv cmp w' ∧ w'.Ranked := by
    intro i n v hn hg
    obtain ⟨w', hsome, hf, -⟩ := (updateNode_spec bits hw h hn v).gentle (update_fits hw h hr hn v hg.1 hg.2)
    exact ⟨w', hsome, hf.inv, hf.ranked hr h.base hg.1⟩
  have herase : ∀ {i n}, w.ledger.owner n = some i → w.Takeable n → w.size i < Nat.fib (bits + 2) →
      ∃ w', w.erase cmp bits i n = some w' ∧ Inv cmp w' ∧ w'.Ranked := by
    intro i n hn ht hsize
    obtain ⟨w', hsome, hf, -⟩ := (erase_spec bits hw h hn).gentle (erase_fits hw h hr hn ht hsize)
    exact ⟨w', hsome, hf.inv, hf.ranked hr h.base ht⟩
  cases op with
  | push i v =>
    refine ⟨_, rfl, (push_spec hw h i v).1, hr.congr ?_⟩
    rw [(push_lists cmp (w := w) i v).2,
      ← h.base.trees.children_of_dead (w.ledger.bound w.ledger.fresh le_rfl), update_eq_self]
  | pop i =>
    obtain ⟨n, hn⟩ := hop
    obtain ⟨r, hr', -⟩ := h.base.reaches (Ledger.mem_nodes.mp hn)
    obtain ⟨t, htR, htop, hmax⟩ := (h.top i).resolve_left fun hempty =>
      ne_nil_of_mem hr' hempty.1
    rw [step, pop_eq_erase h htop]
    refine herase hmax.1 ?_ hg
    rw [Takeable, h.base.root_parent i t htR]
    trivial
  | update i n v =>
    rw [step, update]
    rw [Gentle] at hg
    cases hc : cmp (w.value n) v with
    | true =>
      rw [hc, if_pos rfl] at hg
      rw [if_pos rfl]
      exact ⟨_, rfl, (increaseNode_spec hw h hop (hw.asymm hc)).1,
        increaseNode_ranked hw hr h.base hop (hw.asymm hc) hg⟩
    | false =>
      rw [hc, if_neg (by decide)] at hg
      rw [if_neg (by decide)]
      exact hupdate hop hg
  | touch i n v => exact hupdate hop hg
  | increase i n v =>
    exact ⟨_, rfl, (increaseNode_spec hw h hop.1 hop.2).1,
      increaseNode_ranked hw hr h.base hop.1 hop.2 hg⟩
  | decrease i n v => exact hupdate hop hg
  | erase i n => exact herase hop hg.1 hg.2
  | merge i j =>
    refine ⟨_, rfl, (merge_spec hw h hop).1, hr.congr ?_⟩
    rw [merge_eq]

end World

/-- **The rank bound** holds in every state of a run of gentle calls, and no call of it leaves `aux`. -/
theorem fibonacciHeap_rank_run {α : Type*} [Inhabited α] {cmp : α → α → Bool} (hw : StrictWeak cmp)
    (bits : ℕ) (ops : List (Op α))
    (h : Along (World.step cmp bits) (fun w op => w.toAccount.Allowed cmp op) (World.empty α) ops)
    (hg : Along (World.step cmp bits) (World.Gentle cmp bits) (World.empty α) ops) :
    Through (World.step cmp bits)
      (fun _ _ w => ∀ n, w.ledger.owner n ≠ none → Nat.fib (w.childCount n + 2) ≤ (w.subtree n).ncard)
      (World.empty α) ops := by
  have hempty : World.Ranked (World.empty α) := fun _ _ _ _ hk => nomatch hk
  refine (through_iff (F := fun _ _ => True) (I := fun w => World.Inv cmp w ∧ w.Ranked)
    (fun w op hinv hop => ?_) ops _ ⟨World.inv_empty, hempty⟩ (h.and hg)).mpr
    (h.mono fun _ _ _ => trivial)
  obtain ⟨w', hsome, hinv', hr'⟩ := World.step_ranked hw hinv.1 hinv.2 hop.1 hop.2
  exact Or.inr ⟨w', hsome, trivial, ⟨hinv', hr'⟩, fun n hn => hr'.bound hinv'.base hn⟩

/-- A root loses three of its children, and another node the one it can spare. -/
theorem fibonacciHeap_rank_run_spare :
    let ops : List (Op ℕ) := (List.range 9).map (.push 0) ++
      [.pop 0, .increase 0 0 10, .erase 0 6, .touch 0 5 5, .erase 0 4]
    Along (World.step (fun a b => decide (a < b)) 64) (World.Gentle (fun a b => decide (a < b)) 64)
        (World.empty ℕ) ops ∧
      Through (World.step (fun a b => decide (a < b)) 64)
        (fun _ _ w => ∀ n, w.ledger.owner n ≠ none →
          Nat.fib (w.childCount n + 2) ≤ (w.subtree n).ncard) (World.empty ℕ) ops := by
  intro ops
  have hw : StrictWeak fun a b : ℕ => decide (a < b) := strictWeak_lt
  have hgentle : Along (World.step (fun a b => decide (a < b)) 64)
      (World.Gentle (fun a b => decide (a < b)) 64) (World.empty ℕ) ops := by
    decide +kernel
  exact ⟨hgentle, fibonacciHeap_rank_run hw 64 ops (by decide +kernel) hgentle⟩

/-- A list of nodes that holds a node and the children of its nodes holds the subtree. -/
theorem ncard_subtree_le {α : Type*} {w : World α} {n : ℕ} (l : List ℕ) (hn : n ∈ l)
    (hl : ∀ p ∈ l, ∀ c ∈ w.children p, c ∈ l) : (w.subtree n).ncard ≤ l.length := by
  have hsub : w.subtree n ⊆ l.toFinset := by
    intro x hx
    induction hx using Relation.ReflTransGen.head_induction_on with
    | refl => exact Finset.mem_coe.mpr (List.mem_toFinset.mpr hn)
    | head hc _ ih =>
      exact Finset.mem_coe.mpr (List.mem_toFinset.mpr
        (hl _ (List.mem_toFinset.mp (Finset.mem_coe.mp ih)) _ hc))
  have hle := Set.ncard_le_ncard hsub (Finset.finite_toSet _)
  rw [Set.ncard_coe_finset] at hle
  exact hle.trans (toFinset_card_le l)

/-- **The bound fails**: grandchildren of a root with three children are erased. -/
theorem fibonacciHeap_rank_erased :
    ∃ ops : List (Op ℕ), ∃ w n,
      Along (World.step (fun a b => decide (a < b)) 64)
        (fun w op => w.toAccount.Allowed (fun a b => decide (a < b)) op) (World.empty ℕ) ops ∧
      tryRun (World.step (fun a b => decide (a < b)) 64) (World.empty ℕ) ops = some w ∧
      w.ledger.owner n = some 0 ∧ (w.subtree n).ncard < Nat.fib (w.childCount n + 2) := by
  let ops : List (Op ℕ) := (List.range 9).map (.push 0) ++
    [.pop 0, .erase 0 0, .erase 0 1, .erase 0 2, .erase 0 4]
  refine ⟨ops, (tryRun (World.step (fun a b => decide (a < b)) 64) (World.empty ℕ) ops).get
    (by decide +kernel), 7, by decide +kernel, (some_get _).symm, by decide +kernel, ?_⟩
  refine lt_of_le_of_lt (ncard_subtree_le [7, 6, 5, 3] (by decide) ?_) (by decide +kernel)
  decide +kernel

end SourceLibs.FibonacciHeap
