import SourceLibs.Heap.FibonacciHeap

/-!
# Heap — the calls of the Fibonacci heap

Every call either keeps the invariant and does what a priority queue does, or leaves the array of
`consolidate`.  Which of the two is decided before the call, by the weight of the roots it files.

* `step_spec`: the two outcomes of a call.
* `fibonacciHeap_run_iff`: a run is one of a priority queue exactly if every call of it fits.
* `fibonacciHeap_run_overflow`: with few nodes, there are runs that leave the array.  The weight of the
  roots is a counter; nodes two levels below a root count for nothing and can be erased.
-/

namespace SourceLibs.FibonacciHeap
open List Option Function Compare Handles

namespace World

variable {α : Type*} {cmp : α → α → Bool} {bits : ℕ} {w : World α} {i n : ℕ}

/-! ### Every call -/

/-- Heap `i` is empty, or its top is a root that holds a maximum. -/
def TopOk (cmp : α → α → Bool) (w : World α) (i : ℕ) : Prop :=
  (w.roots i = [] ∧ w.topElement i = none) ∨
    ∃ t ∈ w.roots i, w.topElement i = some t ∧ w.toAccount.Maximum cmp i t

/-- The lists, the tops, and the sizes. -/
structure Inv (cmp : α → α → Bool) (w : World α) : Prop where
  base : Base cmp w
  top : ∀ i, TopOk cmp w i
  counts : Counts w.ledger w.size

/-- A node of heap `i` is under a root of heap `i`. -/
theorem Base.reaches (h : Base cmp w) (hn : w.ledger.owner n = some i) :
    ∃ r ∈ w.roots i, (shape w.ledger w.children w.allRoots).Reaches n r := by
  obtain ⟨r, hr⟩ := h.trees.valid.reaches (n := n) (Ledger.mem_live.mpr (by simp [hn]))
  obtain ⟨j, hj⟩ := hr.mem_roots
  have ho : w.ledger.owner n = w.ledger.owner r := h.trees.valid.reaches_owner hr
  rw [hn, h.rooted j r hj, some_inj] at ho
  exact ⟨r, ho ▸ hj, hr⟩

/-- A root that no root is larger than holds a maximum. -/
theorem TopOf.topOk (hw : StrictWeak cmp) (h : Base cmp w) (ht : TopOf cmp w i (w.roots i)) :
    TopOk cmp w i := by
  obtain ⟨t, htl, htop, hmax⟩ := ht
  refine Or.inr ⟨t, htl, htop, h.rooted i t htl, fun m hm => ?_⟩
  obtain ⟨r, hr, hreach⟩ := h.reaches hm
  exact hw.trans (hmax r hr) (hreach.ge_of_root (g := fun x y => cmp x y = false) (f := w.value)
    hw.refl (fun _ _ _ => hw.trans) h.trees.order)

theorem TopOk.congr {w' : World α} (h : TopOk cmp w i) (hroots : w'.roots i = w.roots i)
    (htop : w'.topElement i = w.topElement i)
    (ho : ∀ m, w'.ledger.owner m = some i ↔ w.ledger.owner m = some i)
    (hv : ∀ m, w.ledger.owner m = some i → w'.value m = w.value m) : TopOk cmp w' i := by
  rcases h with ⟨hr, ht⟩ | ⟨t, htl, ht, hmax⟩
  · exact Or.inl ⟨hroots.trans hr, htop.trans ht⟩
  · exact Or.inr ⟨t, hroots ▸ htl, htop.trans ht, hmax.congr ho hv⟩

/-- The roots of heap `i` have different numbers of children. -/
def Settled (w : World α) (i : ℕ) : Prop :=
  ∀ x ∈ w.roots i, ∀ y ∈ w.roots i, w.childCount x = w.childCount y → x = y

/-- A call returns a world with `P` if it `fits`, and leaves `aux` if not. -/
def Outcome (o : Option (World α)) (fits : Prop) (P : World α → Prop) : Prop :=
  (o = none ∧ ¬ fits) ∨ ∃ w, o = some w ∧ fits ∧ P w

/-- What `erase` and `update(handle)` leave, once the roots of the heap are filed again. -/
structure Refiled (cmp : α → α → Bool) (i n : ℕ) (X : Set ℕ) (load : ℕ) (w w' : World α) : Prop where
  inv : Inv cmp w'
  settled : Settled w' i
  weight : w'.weight (w'.roots i) = load
  links : ∃ w₁, Base cmp w₁ ∧ Spilled w w₁ i n X ∧ Links cmp i w₁ w'

/-- **`consolidate`** restores the invariant. -/
theorem consolidate_inv (hw : StrictWeak cmp) (bits : ℕ) (h : Base cmp w) (hne : w.roots i ≠ [])
    (htop : ∀ j, j ≠ i → TopOk cmp w j) (hc : Counts w.ledger w.size) :
    Outcome (w.consolidate cmp bits i) (w.weight (w.roots i) < 2 ^ bits)
      fun w' => Inv cmp w' ∧ w'.toAccount = w.toAccount ∧ Settled w' i ∧ Consolidated cmp bits i w w' := by
  rcases consolidate_spec hw bits h hne with ⟨hnone, hle⟩ | ⟨w', hsome, hlt, hcon, ht⟩
  · exact Or.inl ⟨hnone, by omega⟩
  · obtain ⟨hb', hlocal⟩ := hcon.links.base h
    refine Or.inr ⟨w', hsome, hlt, ⟨hb', fun j => ?_, ?_⟩, hlocal.account, hcon.distinct, hcon⟩
    · by_cases hj : j = i
      · exact hj ▸ ht.topOk hw hb'
      · exact (htop j hj).congr (hlocal.roots j hj) (hlocal.top j hj)
          (fun m => by rw [hlocal.account]) fun m _ => by rw [hlocal.account]
    · rw [hlocal.account, hlocal.size]
      exact hc

variable (bits) in
theorem erase_spec (hw : StrictWeak cmp) (h : Inv cmp w) (hn : w.ledger.owner n = some i) :
    Outcome (w.erase cmp bits i n) (w.load i n < 2 ^ bits) fun w' =>
      Refiled cmp i n ∅ (w.load i n) w w' ∧ w'.toAccount = ⟨w.ledger.drop n, w.value⟩ := by
  obtain ⟨hs, hacc, hsize, htop, -⟩ := spilled_erase h.base hn
  obtain ⟨hb, hweight⟩ := erased_base h.base hn
  rw [erase, finishEraseOrPop]
  dsimp only
  generalize (World.unhook { w with ledger := w.ledger.drop n } i n).addChildrenToRoot i n = w₁ at *
  have hcounts : Counts w₁.ledger (Function.update w₁.size i (w₁.size i - 1)) := by
    rw [hacc, hsize]
    exact h.counts.drop hn
  have htops : ∀ j, j ≠ i → TopOk cmp w₁ j := by
    intro j hj
    refine (h.top j).congr (hs.others j hj) (by rw [htop]) (fun m => ?_) fun m _ => by rw [hacc]
    rw [hacc, Ledger.owner_drop]
    by_cases hm : m = n
    · simp [hm, hn, hj.symm]
    · rw [if_neg hm]
  have hb₂ : Base cmp { w₁ with size := Function.update w₁.size i (w₁.size i - 1) } :=
    ⟨hb.trees, hb.rooted, hb.nodup, hb.child_parent, hb.root_parent⟩
  have hs₂ : Spilled w { w₁ with size := Function.update w₁.size i (w₁.size i - 1) } i n ∅ :=
    ⟨hs.children, hs.roots, hs.nodup, hs.others, hs.parent, hs.parent_none, hs.ledger, hs.kept⟩
  by_cases hz : Function.update w₁.size i (w₁.size i - 1) i ≠ 0
  · rw [if_pos hz]
    have hne : w₁.roots i ≠ [] := by
      rw [hcounts i, Finset.card_ne_zero] at hz
      obtain ⟨m, hm⟩ := hz
      obtain ⟨r, hr, -⟩ := hb.reaches (Ledger.mem_nodes.mp hm)
      exact ne_nil_of_mem hr
    have hload : World.weight { w₁ with size := Function.update w₁.size i (w₁.size i - 1) }
        (w₁.roots i) = w.load i n := hweight
    rcases consolidate_inv hw bits hb₂ hne htops hcounts with
      ⟨hnone, hfits⟩ | ⟨w', hsome, hfits, hinv, hacc', hset, hcon⟩
    · exact Or.inl ⟨hnone, hload ▸ hfits⟩
    · exact Or.inr ⟨w', hsome, hload ▸ hfits, ⟨hinv, hset, hcon.weight.trans hload, _, hb₂, hs₂, hcon.links⟩,
        hacc'.trans hacc⟩
  · rw [if_neg hz]
    have hempty : w₁.roots i = [] := by
      rw [not_not, hcounts i, Finset.card_eq_zero] at hz
      rw [eq_nil_iff_forall_not_mem]
      intro r hr
      exact Finset.notMem_empty r (hz ▸ Ledger.mem_nodes.mpr (hb.rooted i r hr))
    have hload : w.load i n = 0 := by
      rw [← hweight, hempty]
      rfl
    have hweight₂ : World.weight { w₁ with size := Function.update w₁.size i (w₁.size i - 1) }
        (w₁.roots i) = w.load i n := by
      rw [hempty, hload]
      rfl
    refine Or.inr ⟨_, rfl, by rw [hload]; exact Nat.pow_pos (by omega),
      ⟨⟨hb₂.setTop none, fun j => ?_, hcounts⟩, ?_, hweight₂, _, hb₂, hs₂, .top none (.refl _)⟩, hacc⟩
    · by_cases hj : j = i
      · exact Or.inl ⟨hj ▸ hempty, by rw [hj]; exact update_self ..⟩
      · exact (htops j hj).congr rfl (update_of_ne hj ..) (fun m => Iff.rfl) fun _ _ => rfl
    · intro x hx
      have hx' : x ∈ w₁.roots i := hx
      rw [hempty] at hx'
      cases hx'

/-- **`pop`** erases the top. -/
theorem pop_eq_erase (h : Inv cmp w) {t : ℕ} (ht : w.topElement i = some t) :
    w.pop cmp bits i = w.erase cmp bits i t := by
  have hroot : t ∈ w.roots i := by
    rcases h.top i with ⟨-, hnone⟩ | ⟨t', ht', htop, -⟩
    · rw [ht] at hnone
      cases hnone
    · rw [ht, some_inj] at htop
      exact htop ▸ ht'
  have hp : World.parent { w with ledger := w.ledger.drop t } t = none := h.base.root_parent i t hroot
  rw [pop, ht, erase, unhook, hp]

variable (cmp) in
theorem raiseTop_eq (n : ℕ) : ∃ o, w.raiseTop cmp i n = w.setTop i o := by
  have hself : w.setTop i (w.topElement i) = w := setTop_self
  rw [raiseTop]
  cases ht : w.topElement i with
  | none =>
    rw [ht] at hself
    exact ⟨none, hself.symm⟩
  | some t =>
    rw [ht] at hself
    dsimp only
    split
    · exact ⟨some n, rfl⟩
    · exact ⟨some t, hself.symm⟩

variable (bits) in
/-- **`update(handle)`**, after the value of the node was changed. -/
theorem updateNode_spec (hw : StrictWeak cmp) (h : Inv cmp w) (hn : w.ledger.owner n = some i)
    (v : α) :
    Outcome ((w.assign n v).updateNode cmp bits i n) (w.load i n + 1 < 2 ^ bits) fun w' =>
      Refiled cmp i n {n} (w.load i n + 1) w w' ∧ w'.toAccount = w.toAccount.assign n v := by
  obtain ⟨hs, hacc, hsize, htop, hperm⟩ := spilled_update h.base hn v
  obtain ⟨hb, hload⟩ := updated_base h.base hn v
  rw [updateNode, updateLazy_eq]
  generalize (w.assign n v).spill i n = w₁ at *
  have hcounts : Counts w₁.ledger w₁.size := by
    rw [hacc, hsize]
    exact h.counts
  have htops : ∀ j, j ≠ i → TopOk cmp w₁ j := by
    intro j hj
    refine (h.top j).congr (hs.others j hj) (by rw [htop]) (fun m => by rw [hacc]; rfl) fun m hm => ?_
    have hmn : m ≠ n := by
      rintro rfl
      rw [hn, some_inj] at hm
      exact hj hm.symm
    rw [hacc]
    exact update_of_ne hmn ..
  have hne : w₁.roots i ≠ [] := ne_nil_of_mem (hperm.mem_iff.mpr (mem_cons_self (a := n)))
  obtain ⟨o, ho⟩ : ∃ o, w₁.raiseTop cmp i n = w₁.setTop i o := raiseTop_eq cmp n
  have htops' : ∀ j, j ≠ i → TopOk cmp (w₁.setTop i o) j := fun j hj =>
    (htops j hj).congr rfl (update_of_ne hj ..) (fun _ => Iff.rfl) fun _ _ => rfl
  rw [ho]
  rcases consolidate_inv (w := w₁.setTop i o) hw bits (hb.setTop o) hne htops' hcounts with
    ⟨hnone, hfits⟩ | ⟨w', hsome, hfits, hinv, hacc', hset, hcon⟩
  · exact Or.inl ⟨hnone, hload ▸ hfits⟩
  · exact Or.inr ⟨w', hsome, hload ▸ hfits,
      ⟨hinv, hset, hcon.weight.trans hload, w₁, hb, hs, .top o hcon.links⟩, hacc'.trans hacc⟩

/-! ### `increase` -/

theorem cut_eq (h : Base cmp w) (hn : w.ledger.owner n = some i) {p : ℕ} (hnp : n ∈ w.children p) :
    w.cut i n = { w with
      children := fun q => (w.children q).erase n
      parent := Function.update w.parent n none
      mark := Function.update w.mark n false
      roots := Function.update w.roots i (n :: w.roots i) } := by
  have hroots : (fun j => (w.roots j).erase n) = w.roots :=
    funext fun j => erase_of_not_mem fun hnj => h.trees.root_free ⟨j, hnj⟩ p hnp
  rw [cut, unhook_eq h hn, hroots]
  rfl

theorem mem_roots_cons {j x : ℕ} :
    x ∈ Function.update w.roots i (n :: w.roots i) j ↔ x ∈ w.roots j ∨ (j = i ∧ x = n) := by
  by_cases hj : j = i
  · simp [hj, or_comm]
  · simp [hj]

theorem allRoots_cons :
    { x | ∃ j, x ∈ Function.update w.roots i (n :: w.roots i) j } = w.allRoots ∪ {n} := by
  ext x
  constructor
  · rintro ⟨j, hj⟩
    rcases mem_roots_cons.mp hj with hj | ⟨-, hx⟩
    · exact Or.inl ⟨j, hj⟩
    · exact Or.inr hx
  · rintro (⟨j, hj⟩ | hx)
    · exact ⟨j, mem_roots_cons.mpr (Or.inl hj)⟩
    · exact ⟨i, mem_roots_cons.mpr (Or.inr ⟨rfl, hx⟩)⟩

/-- What `cut` and `cascading_cut` leave as it is. -/
structure Cut (cmp : α → α → Bool) (i : ℕ) (w w' : World α) : Prop where
  base : Base cmp w'
  account : w'.toAccount = w.toAccount
  size : w'.size = w.size
  top : w'.topElement = w.topElement
  others : ∀ j, j ≠ i → w'.roots j = w.roots j
  kept : ∀ x ∈ w.roots i, x ∈ w'.roots i

/-- **`cut`**, also of a node whose value was raised. -/
theorem cut_spec (h : Base cmp w) (hn : w.ledger.owner n = some i) {p : ℕ} (hnp : n ∈ w.children p)
    {a : Account α} (hledger : a.ledger = w.ledger) (hvalue : ∀ x, x ≠ n → a.value x = w.value x)
    (hup : ∀ c ∈ w.children n, cmp (a.value n) (w.value c) = false) :
    Cut cmp i { w with toAccount := a } (World.cut { w with toAccount := a } i n) ∧
      n ∈ (World.cut { w with toAccount := a } i n).roots i := by
  have hcut : World.cut { w with toAccount := a } i n = { w.cut i n with toAccount := a } := by
    rw [cut, unhook_account]
    rfl
  have hnR : ∀ j, n ∉ w.roots j := fun j hnj => h.trees.root_free ⟨j, hnj⟩ p hnp
  rw [hcut, cut_eq h hn hnp]
  have hmem : ∀ q c, c ∈ (w.children q).erase n ↔ c ∈ w.children q ∧ c ∉ ({n} : Set ℕ) := by
    intro q c
    rw [(h.trees.nodup q).mem_erase_iff, and_comm, Set.mem_singleton_iff]
  have hroots := fun j x => mem_roots_cons (w := w) (i := i) (n := n) (j := j) (x := x)
  refine ⟨⟨⟨?_, fun j x hx => ?_, fun j => ?_, fun q c hc => ?_, fun j x hx => ?_⟩, rfl, rfl, rfl,
    fun j hj => update_of_ne hj .., fun x hx => (hroots i x).mpr (Or.inl hx)⟩,
    (hroots i n).mpr (Or.inr ⟨rfl, rfl⟩)⟩
  · show Trees cmp a _ { x | ∃ j, x ∈ Function.update w.roots i (n :: w.roots i) j }
    rw [allRoots_cons]
    refine h.trees.detach {n} ?_ hledger (fun q => (h.trees.nodup q).erase n) hmem fun q x hx => ?_
    · rintro c rfl
      simp [hn]
    · obtain ⟨hx, hxn⟩ := (hmem q x).mp hx
      rw [hvalue x hxn]
      by_cases hq : q = n
      · exact hq ▸ hup x (hq ▸ hx)
      · rw [hvalue q hq]
        exact h.trees.order q x hx
  · show a.ledger.owner x = some j
    rw [hledger]
    rcases (hroots j x).mp hx with hx | ⟨rfl, rfl⟩
    · exact h.rooted j x hx
    · exact hn
  · by_cases hj : j = i
    · subst hj
      show (Function.update w.roots j (n :: w.roots j) j).Nodup
      rw [update_self]
      exact nodup_cons.mpr ⟨hnR j, h.nodup j⟩
    · show (Function.update w.roots i (n :: w.roots i) j).Nodup
      rw [update_of_ne hj]
      exact h.nodup j
  · obtain ⟨hc, hcn⟩ := (hmem q c).mp hc
    exact (update_of_ne hcn ..).trans (h.child_parent q c hc)
  · rcases (hroots j x).mp hx with hx | ⟨-, rfl⟩
    · have hxn : x ≠ n := fun e => hnR j (e ▸ hx)
      exact (update_of_ne hxn ..).trans (h.root_parent j x hx)
    · exact update_self ..

theorem Cut.refl (h : Base cmp w) (i : ℕ) : Cut cmp i w w :=
  ⟨h, rfl, rfl, rfl, fun _ _ => rfl, fun _ hx => hx⟩

theorem Cut.trans {w' w'' : World α} (h : Cut cmp i w w') (h' : Cut cmp i w' w'') : Cut cmp i w w'' :=
  ⟨h'.base, h'.account.trans h.account, h'.size.trans h.size, h'.top.trans h.top,
    fun j hj => (h'.others j hj).trans (h.others j hj), fun x hx => h'.kept x (h.kept x hx)⟩

theorem cascadingCut_spec (fuel : ℕ) :
    ∀ (w : World α) (n : ℕ), Base cmp w → w.ledger.owner n = some i →
      Cut cmp i w (w.cascadingCut i fuel n) := by
  induction fuel with
  | zero => exact fun w n h _ => Cut.refl h i
  | succ fuel ih =>
    intro w n h hn
    rw [cascadingCut]
    rcases h.root_or_child hn with ⟨-, hp⟩ | ⟨p, hp, hnp⟩
    · rw [hp]
      exact Cut.refl h i
    · rw [hp]
      dsimp only
      split
      · exact ⟨⟨h.trees, h.rooted, h.nodup, h.child_parent, h.root_parent⟩, rfl, rfl, rfl,
          fun _ _ => rfl, fun _ hx => hx⟩
      · have hcut := (cut_spec h hn hnp rfl (fun _ _ => rfl) (h.trees.order n)).1
        refine hcut.trans (ih _ p hcut.base ?_)
        rw [hcut.account]
        exact (h.trees.owner_eq hnp).symm.trans hn

theorem Base.assign (h : Base cmp w) {v : α}
    (hdown : ∀ p, n ∈ w.children p → cmp (w.value p) v = false)
    (hup : ∀ c ∈ w.children n, cmp v (w.value c) = false) : Base cmp (w.assign n v) := by
  refine ⟨⟨h.trees.valid, fun p c hc => ?_⟩, h.rooted, h.nodup, h.child_parent, h.root_parent⟩
  show cmp (Function.update w.value n v p) (Function.update w.value n v c) = false
  by_cases hcn : c = n
  · subst hcn
    have hpc : p ≠ c := fun e => h.trees.not_self_child (e ▸ hc)
    rw [update_self, update_of_ne hpc]
    exact hdown p hc
  · rw [update_of_ne hcn]
    by_cases hpn : p = n
    · subst hpn
      rw [update_self]
      exact hup c hc
    · rw [update_of_ne hpn]
      exact h.trees.order p c hc

theorem increase_cuts (hw : StrictWeak cmp) (h : Base cmp w) (hn : w.ledger.owner n = some i) {v : α}
    (hv : cmp v (w.value n) = false) :
    let w' := match (w.assign n v).parent n with
      | some p =>
        if cmp ((w.assign n v).value p) ((w.assign n v).value n) then
          ((w.assign n v).cut i n).cascadingCut i w.ledger.fresh p
        else w.assign n v
      | none => w.assign n v
    Cut cmp i (w.assign n v) w' ∧
      (n ∈ w'.roots i ∨ ∃ p, p ≠ n ∧ w.ledger.owner p = some i ∧ cmp (w.value p) v = false) := by
  have hup : ∀ c ∈ w.children n, cmp v (w.value c) = false :=
    fun c hc => hw.trans hv (h.trees.order n c hc)
  have hvn : (w.assign n v).value n = v := update_self ..
  rcases h.root_or_child hn with ⟨hroot, hp⟩ | ⟨p, hp, hnp⟩
  · have hp' : (w.assign n v).parent n = none := hp
    rw [hp']
    refine ⟨Cut.refl (h.assign (fun p hnp => ?_) hup) i, Or.inl hroot⟩
    exact absurd hnp (h.trees.root_free ⟨i, hroot⟩ p)
  · have hp' : (w.assign n v).parent n = some p := hp
    have hpn : p ≠ n := fun e => h.trees.not_self_child (e ▸ hnp)
    have hvp : (w.assign n v).value p = w.value p := update_of_ne hpn ..
    have hpo : w.ledger.owner p = some i := (h.trees.owner_eq hnp).symm.trans hn
    rw [hp']
    dsimp only
    rw [hvn, hvp]
    cases hc : cmp (w.value p) v with
    | true =>
      rw [if_pos rfl]
      have hup' : ∀ c ∈ w.children n, cmp ((w.toAccount.assign n v).value n) (w.value c) = false := by
        intro c hc
        rw [show (w.toAccount.assign n v).value n = v from hvn]
        exact hup c hc
      obtain ⟨hcut, hnR⟩ := cut_spec (a := w.toAccount.assign n v) h hn hnp rfl
        (fun x hx => update_of_ne hx ..) hup'
      have hcas := cascadingCut_spec (i := i) w.ledger.fresh _ p hcut.base
        (by rw [hcut.account]; exact hpo)
      exact ⟨hcut.trans hcas, Or.inl (hcas.kept n hnR)⟩
    | false =>
      rw [if_neg (by decide)]
      refine ⟨Cut.refl (h.assign (fun q hnq => ?_) hup) i, Or.inr ⟨p, hpn, hpo, hc⟩⟩
      rw [h.trees.valid.unique hnq hnp]
      exact hc

/-- **`increase(handle)`**, after the value of the node was raised. -/
theorem increaseNode_spec (hw : StrictWeak cmp) (h : Inv cmp w) (hn : w.ledger.owner n = some i)
    {v : α} (hv : cmp v (w.value n) = false) :
    Inv cmp ((w.assign n v).increaseNode cmp i n) ∧
      ((w.assign n v).increaseNode cmp i n).toAccount = w.toAccount.assign n v := by
  obtain ⟨hcut, hcase⟩ := increase_cuts hw h.base hn hv
  have hinc : (w.assign n v).increaseNode cmp i n = World.raiseTop cmp
      (match (w.assign n v).parent n with
        | some p =>
          if cmp ((w.assign n v).value p) ((w.assign n v).value n) then
            ((w.assign n v).cut i n).cascadingCut i w.ledger.fresh p
          else w.assign n v
        | none => w.assign n v) i n := rfl
  rw [hinc]
  generalize (match (w.assign n v).parent n with
    | some p =>
      if cmp ((w.assign n v).value p) ((w.assign n v).value n) then
        ((w.assign n v).cut i n).cascadingCut i w.ledger.fresh p
      else w.assign n v
    | none => w.assign n v) = w₁ at *
  have hacc : w₁.toAccount = w.toAccount.assign n v := hcut.account
  have hvn : w₁.value n = v := by
    rw [hacc]
    exact update_self ..
  obtain ⟨t, htR, htop, hmax⟩ : ∃ t ∈ w.roots i, w.topElement i = some t ∧
      w.toAccount.Maximum cmp i t := by
    obtain ⟨r, hr, -⟩ := h.base.reaches hn
    exact (h.top i).resolve_left fun hempty => ne_nil_of_mem hr hempty.1
  have htop₁ : w₁.topElement i = some t := by
    rw [hcut.top]
    exact htop
  have htops : ∀ j, j ≠ i → ∀ o, TopOk cmp (w₁.setTop i o) j := by
    intro j hj o
    refine (h.top j).congr (hcut.others j hj) ((update_of_ne hj ..).trans ?_) (fun m => ?_)
      fun m hm => ?_
    · rw [hcut.top]
      rfl
    · show w₁.ledger.owner m = some j ↔ _
      rw [hacc]
      rfl
    · have hmn : m ≠ n := by
        rintro rfl
        rw [hn, some_inj] at hm
        exact hj hm.symm
      show w₁.value m = w.value m
      rw [hacc]
      exact update_of_ne hmn ..
  have hcounts : Counts w₁.ledger w₁.size := by
    rw [hacc, hcut.size]
    exact h.counts
  obtain ⟨hraised, hkept⟩ := hmax.raise hw hn hv
  rw [← hacc] at hraised hkept
  -- Both ends of `raiseTop` set the top, to a root that holds a maximum.
  have hdone : ∀ x ∈ w₁.roots i, w₁.toAccount.Maximum cmp i x →
      Inv cmp (w₁.setTop i (some x)) ∧ (w₁.setTop i (some x)).toAccount = w.toAccount.assign n v := by
    refine fun x hx hxmax => ⟨⟨hcut.base.setTop _, fun j => ?_, hcounts⟩, hacc⟩
    by_cases hj : j = i
    · subst hj
      exact Or.inr ⟨x, hx, update_self .., hxmax⟩
    · exact htops j hj _
  rw [raiseTop, htop₁]
  dsimp only
  rw [hvn]
  cases hc : cmp (w₁.value t) v with
  | true =>
    rw [if_pos rfl]
    refine hdone n ?_ (hraised hc)
    rcases hcase with hnR | ⟨p, hpn, hpo, hpv⟩
    · exact hnR
    · have htn : t ≠ n := by
        rintro rfl
        rw [hvn, hw.refl v] at hc
        cases hc
      have hvt : w₁.value t = w.value t := by
        rw [hacc]
        exact update_of_ne htn ..
      rw [hvt, hw.trans (hmax.2 p hpo) hpv] at hc
      cases hc
  | false =>
    rw [if_neg (by decide)]
    have hself : w₁.setTop i (some t) = w₁ := htop₁ ▸ setTop_self
    exact hself ▸ hdone t (hcut.kept t htR) (hkept hc)

/-! ### `push` and `merge` -/

/-- The new node is a root; only the top is still to be set. -/
theorem push_base (h : Inv cmp w) (i : ℕ) (v : α) :
    Base cmp (⟨⟨w.ledger.add i, Function.update w.value w.ledger.fresh v⟩,
      Function.update w.children w.ledger.fresh [], Function.update w.parent w.ledger.fresh none,
      Function.update w.mark w.ledger.fresh false,
      Function.update w.roots i (w.ledger.fresh :: w.roots i), w.topElement,
      Function.update w.size i (w.size i + 1)⟩ : World α) := by
  have hdead := w.ledger.bound w.ledger.fresh le_rfl
  have hne : ∀ {x}, w.ledger.owner x ≠ none → x ≠ w.ledger.fresh := fun hx e => hx (e ▸ hdead)
  have hroot : ∀ j, ∀ x ∈ w.roots j, x ≠ w.ledger.fresh :=
    fun j x hx => hne (by simp [h.base.rooted j x hx])
  have hchildren : Function.update w.children w.ledger.fresh [] = w.children := by
    have hself := update_eq_self w.ledger.fresh w.children
    rwa [h.base.trees.children_of_dead hdead] at hself
  have hroots := fun j x => mem_roots_cons (w := w) (i := i) (n := w.ledger.fresh) (j := j) (x := x)
  refine ⟨?_, fun j x hx => ?_, fun j => ?_, fun q c hc => ?_, fun j x hx => ?_⟩
  · show Trees cmp _ (Function.update w.children w.ledger.fresh [])
      { x | ∃ j, x ∈ Function.update w.roots i (w.ledger.fresh :: w.roots i) j }
    rw [allRoots_cons, hchildren]
    exact h.base.trees.alloc i v
  · rcases (hroots j x).mp hx with hx | ⟨rfl, rfl⟩
    · exact (Ledger.owner_add i x).trans ((if_neg (hroot j x hx)).trans (h.base.rooted j x hx))
    · exact (Ledger.owner_add j _).trans (if_pos rfl)
  · show (Function.update w.roots i (w.ledger.fresh :: w.roots i) j).Nodup
    by_cases hj : j = i
    · rw [hj, update_self]
      exact nodup_cons.mpr ⟨fun hx => hroot i _ hx rfl, h.base.nodup i⟩
    · rw [update_of_ne hj]
      exact h.base.nodup j
  · have hc' : c ∈ w.children q := hchildren ▸ hc
    have hlive := Ledger.mem_live.mp (h.base.trees.valid.child_live hc').2
    exact (update_of_ne (hne hlive) ..).trans (h.base.child_parent q c hc')
  · rcases (hroots j x).mp hx with hx | ⟨-, rfl⟩
    · exact (update_of_ne (hroot j x hx) ..).trans (h.base.root_parent j x hx)
    · exact update_self ..

theorem push_spec (hw : StrictWeak cmp) (h : Inv cmp w) (i : ℕ) (v : α) :
    Inv cmp (w.push cmp i v) ∧ (w.push cmp i v).toAccount =
      ⟨w.ledger.add i, Function.update w.value w.ledger.fresh v⟩ := by
  have hdead := w.ledger.bound w.ledger.fresh le_rfl
  have hbase := push_base h i v
  have hcounts := h.counts.add i
  rw [push]
  dsimp only
  generalize hw₁ : (⟨⟨w.ledger.add i, Function.update w.value w.ledger.fresh v⟩,
      Function.update w.children w.ledger.fresh [], Function.update w.parent w.ledger.fresh none,
      Function.update w.mark w.ledger.fresh false,
      Function.update w.roots i (w.ledger.fresh :: w.roots i), w.topElement,
      Function.update w.size i (w.size i + 1)⟩ : World α) = w₁ at hbase
  have hacc : w₁.toAccount = ⟨w.ledger.add i, Function.update w.value w.ledger.fresh v⟩ := by
    rw [← hw₁]
  have hroots : w₁.roots i = w.ledger.fresh :: w.roots i := by
    simp only [← hw₁, update_self]
  have htop₁ : w₁.topElement = w.topElement := by rw [← hw₁]
  have hcounts₁ : Counts w₁.ledger w₁.size := by
    rw [← hw₁]
    exact hcounts
  have hdone : ∀ x ∈ w₁.roots i, w₁.toAccount.Maximum cmp i x →
      Inv cmp (w₁.setTop i (some x)) ∧ (w₁.setTop i (some x)).toAccount =
        ⟨w.ledger.add i, Function.update w.value w.ledger.fresh v⟩ := by
    refine fun x hx hxmax => ⟨⟨hbase.setTop _, fun j => ?_, hcounts₁⟩, hacc⟩
    by_cases hj : j = i
    · subst hj
      exact Or.inr ⟨x, hx, update_self .., hxmax⟩
    · refine (h.top j).congr ?_ ((update_of_ne hj ..).trans (by rw [htop₁])) (fun m => ?_)
        fun m hm => ?_
      · show w₁.roots j = w.roots j
        rw [← hw₁]
        exact update_of_ne hj ..
      · show w₁.ledger.owner m = some j ↔ _
        rw [hacc, Ledger.owner_add]
        by_cases hm : m = w.ledger.fresh
        · simp [hm, hdead, Ne.symm hj]
        · rw [if_neg hm]
      · have hmf : m ≠ w.ledger.fresh := by
          rintro rfl
          rw [hdead] at hm
          cases hm
        show w₁.value m = w.value m
        rw [hacc]
        exact update_of_ne hmf ..
  cases ht : w.topElement i with
  | none =>
    refine hdone _ (by rw [hroots]; exact mem_cons_self) ?_
    rw [hacc]
    refine ⟨(Ledger.owner_add i _).trans (if_pos rfl), fun m hm => ?_⟩
    -- The heap was empty: the new node is its only one.
    have hmf : m = w.ledger.fresh := by
      by_contra hmf
      have hm' := (Ledger.owner_add i m).symm.trans hm
      rw [if_neg hmf] at hm'
      obtain ⟨r, hr, -⟩ := h.base.reaches hm'
      rcases h.top i with ⟨hempty, -⟩ | ⟨t, -, ht', -⟩
      · exact ne_nil_of_mem hr hempty
      · rw [ht'] at ht
        cases ht
    rw [hmf]
    exact hw.refl _
  | some t =>
    obtain ⟨t', htR, ht', hmax⟩ := (h.top i).resolve_left fun hempty => by
      rw [ht] at hempty
      exact nomatch hempty.2
    obtain rfl : t' = t := some_inj.mp (ht'.symm.trans ht)
    obtain ⟨hnew, hold⟩ := hmax.push (v := v) hw
    rw [← hacc] at hnew hold
    have htf : t' ≠ w.ledger.fresh := by
      rintro rfl
      have ho := hmax.1
      rw [hdead] at ho
      cases ho
    have hvt : w₁.value t' = w.value t' := by
      rw [hacc]
      exact update_of_ne htf ..
    have hvn : w₁.value w.ledger.fresh = v := by
      rw [hacc]
      exact update_self ..
    have ht₁ : w₁.topElement i = some t' := by rw [htop₁, ht]
    rw [raiseTop, ht₁]
    dsimp only
    rw [hvt, hvn]
    cases hc : cmp (w.value t') v with
    | true =>
      rw [if_pos rfl]
      exact hdone _ (by rw [hroots]; exact mem_cons_self) (hnew hc)
    | false =>
      rw [if_neg (by decide)]
      have hself : w₁.setTop i (some t') = w₁ := ht₁ ▸ setTop_self
      exact hself ▸ hdone t' (by rw [hroots]; exact mem_cons_of_mem _ htR) (hold hc)

/-- The new top of `merge`. -/
def mergedTop (cmp : α → α → Bool) (w : World α) (i j : ℕ) : Option ℕ :=
  match w.topElement i, w.topElement j with
  | none, o => o
  | some t, some u => if cmp (w.value t) (w.value u) then some u else some t
  | some t, none => some t

theorem merge_eq (i j : ℕ) : w.merge cmp i j =
    { w with
      ledger := w.ledger.absorb i j
      roots := Function.update (Function.update w.roots i (w.roots i ++ w.roots j)) j []
      topElement := Function.update (Function.update w.topElement i (mergedTop cmp w i j)) j none
      size := Function.update (Function.update w.size i (w.size i + w.size j)) j 0 } := by
  have hself := update_eq_self i w.topElement
  rw [merge, mergedTop]
  cases hi : w.topElement i with
  | none => rfl
  | some t =>
    rw [hi] at hself
    cases hj : w.topElement j with
    | none =>
      dsimp only
      rw [hself]
      rfl
    | some u =>
      dsimp only
      by_cases hc : cmp (w.value t) (w.value u) = true
      · rw [if_pos hc, if_pos hc]
        rfl
      · rw [if_neg hc, if_neg hc, hself]
        rfl

theorem mergedTop_spec (hw : StrictWeak cmp) (h : Inv cmp w) (i j : ℕ) :
    (w.roots i ++ w.roots j = [] ∧ mergedTop cmp w i j = none) ∨
      ∃ t ∈ w.roots i ++ w.roots j, mergedTop cmp w i j = some t ∧
        Account.Maximum cmp ⟨w.ledger.absorb i j, w.value⟩ i t := by
  have howner : ∀ m, (w.ledger.absorb i j).owner m = some i ↔
      w.ledger.owner m = some i ∨ w.ledger.owner m = some j := by
    intro m
    rw [Ledger.owner_absorb]
    by_cases hm : w.ledger.owner m = some j
    · simp [hm]
    · simp [hm]
  have hempty : ∀ k, w.roots k = [] → ∀ m, w.ledger.owner m ≠ some k := by
    intro k hk m hm
    obtain ⟨r, hr, -⟩ := h.base.reaches hm
    exact ne_nil_of_mem hr hk
  rw [mergedTop]
  rcases h.top i with ⟨hi, hti⟩ | ⟨t, ht, hti, htmax⟩
  · rw [hti, hi, nil_append]
    rcases h.top j with ⟨hj, htj⟩ | ⟨u, hu, htj, humax⟩
    · exact Or.inl ⟨hj, htj⟩
    · refine Or.inr ⟨u, hu, htj, (howner u).mpr (Or.inr humax.1), fun m hm => ?_⟩
      exact humax.2 m (((howner m).mp hm).resolve_left (hempty i hi m))
  · refine Or.inr ?_
    rcases h.top j with ⟨hj, htj⟩ | ⟨u, hu, htj, humax⟩
    · rw [hti, htj]
      refine ⟨t, mem_append_left _ ht, rfl, (howner t).mpr (Or.inl htmax.1), fun m hm => ?_⟩
      exact htmax.2 m (((howner m).mp hm).resolve_right (hempty j hj m))
    · rw [hti, htj]
      dsimp only
      cases hc : cmp (w.value t) (w.value u) with
      | true =>
        refine ⟨u, mem_append_right _ hu, if_pos rfl, (howner u).mpr (Or.inr humax.1),
          fun m hm => ?_⟩
        rcases (howner m).mp hm with hm | hm
        · exact hw.trans (hw.asymm hc) (htmax.2 m hm)
        · exact humax.2 m hm
      | false =>
        refine ⟨t, mem_append_left _ ht, if_neg (by decide), (howner t).mpr (Or.inl htmax.1),
          fun m hm => ?_⟩
        rcases (howner m).mp hm with hm | hm
        · exact htmax.2 m hm
        · exact hw.trans hc (humax.2 m hm)

theorem merge_spec (hw : StrictWeak cmp) (h : Inv cmp w) {j : ℕ} (hij : i ≠ j) :
    Inv cmp (w.merge cmp i j) ∧ (w.merge cmp i j).toAccount = ⟨w.ledger.absorb i j, w.value⟩ := by
  have htop := mergedTop_spec hw h i j
  have hcounts := h.counts.absorb hij
  rw [merge_eq]
  refine ⟨?_, rfl⟩
  have hri : Function.update (Function.update w.roots i (w.roots i ++ w.roots j)) j [] i =
      w.roots i ++ w.roots j := by
    rw [update_of_ne hij, update_self]
  have hrj : Function.update (Function.update w.roots i (w.roots i ++ w.roots j)) j [] j = [] :=
    update_self ..
  have hrk : ∀ k, k ≠ i → k ≠ j →
      Function.update (Function.update w.roots i (w.roots i ++ w.roots j)) j [] k = w.roots k := by
    intro k hki hkj
    rw [update_of_ne hkj, update_of_ne hki]
  generalize hR : Function.update (Function.update w.roots i (w.roots i ++ w.roots j)) j [] = roots
    at *
  have hmem : ∀ k x, x ∈ roots k →
      (k = i ∧ x ∈ w.roots i) ∨ (k = i ∧ x ∈ w.roots j) ∨ (k ≠ i ∧ k ≠ j ∧ x ∈ w.roots k) := by
    intro k x hx
    by_cases hkj : k = j
    · rw [hkj, hrj] at hx
      cases hx
    by_cases hki : k = i
    · rw [hki, hri] at hx
      rcases mem_append.mp hx with hx | hx
      · exact Or.inl ⟨hki, hx⟩
      · exact Or.inr (Or.inl ⟨hki, hx⟩)
    · rw [hrk k hki hkj] at hx
      exact Or.inr (Or.inr ⟨hki, hkj, hx⟩)
  have howner : ∀ k, k ≠ i → k ≠ j → ∀ m,
      (w.ledger.absorb i j).owner m = some k ↔ w.ledger.owner m = some k := by
    intro k hki hkj m
    rw [Ledger.owner_absorb]
    by_cases hm : w.ledger.owner m = some j
    · simp [hm, hki.symm, hkj.symm]
    · simp [hm]
  refine ⟨⟨?_, fun k x hx => ?_, fun k => ?_, h.base.child_parent, fun k x hx => ?_⟩, fun k => ?_,
    hcounts⟩
  · have hset : { x | ∃ k, x ∈ roots k } = w.allRoots := by
      ext x
      constructor
      · rintro ⟨k, hx⟩
        rcases hmem k x hx with ⟨-, hx⟩ | ⟨-, hx⟩ | ⟨-, -, hx⟩
        · exact ⟨i, hx⟩
        · exact ⟨j, hx⟩
        · exact ⟨k, hx⟩
      · rintro ⟨k, hx⟩
        by_cases hkj : k = j
        · exact ⟨i, by rw [hri]; exact mem_append_right _ (hkj ▸ hx)⟩
        by_cases hki : k = i
        · exact ⟨i, by rw [hri]; exact mem_append_left _ (hki ▸ hx)⟩
        · exact ⟨k, by rwa [hrk k hki hkj]⟩
    show Trees cmp _ _ { x | ∃ k, x ∈ roots k }
    rw [hset]
    exact h.base.trees.absorb i j
  · show (w.ledger.absorb i j).owner x = some k
    rcases hmem k x hx with ⟨hk, hx'⟩ | ⟨hk, hx'⟩ | ⟨hki, hkj, hx'⟩
    · rw [Ledger.owner_absorb, h.base.rooted i x hx', hk]
      simp [hij]
    · rw [Ledger.owner_absorb, h.base.rooted j x hx', hk]
      simp
    · exact (howner k hki hkj x).mpr (h.base.rooted k x hx')
  · show (roots k).Nodup
    by_cases hkj : k = j
    · rw [hkj, hrj]
      exact nodup_nil
    by_cases hki : k = i
    · rw [hki, hri, nodup_append]
      exact ⟨h.base.nodup i, h.base.nodup j,
        fun a ha b hb e => hij (h.base.root_heap hb (e ▸ ha))⟩
    · rw [hrk k hki hkj]
      exact h.base.nodup k
  · rcases hmem k x hx with ⟨-, hx⟩ | ⟨-, hx⟩ | ⟨-, -, hx⟩
    · exact h.base.root_parent i x hx
    · exact h.base.root_parent j x hx
    · exact h.base.root_parent k x hx
  · by_cases hkj : k = j
    · rw [hkj]
      exact Or.inl ⟨hrj, update_self ..⟩
    by_cases hki : k = i
    · rw [hki]
      have htopi : Function.update (Function.update w.topElement i (mergedTop cmp w i j)) j none i =
          mergedTop cmp w i j := by
        rw [update_of_ne hij, update_self]
      rcases htop with ⟨hempty, hnone⟩ | ⟨t, ht, hsome, hmax⟩
      · exact Or.inl ⟨hri.trans hempty, htopi.trans hnone⟩
      · refine Or.inr ⟨t, ?_, htopi.trans hsome, hmax⟩
        show t ∈ roots i
        rw [hri]
        exact ht
    · refine (h.top k).congr (hrk k hki hkj) ?_ (howner k hki hkj) fun _ _ => rfl
      show Function.update (Function.update w.topElement i _) j none k = _
      rw [update_of_ne hkj, update_of_ne hki]

/-! ### Runs -/

/-- The roots a call files fit into `aux`. -/
def Fits (cmp : α → α → Bool) (bits : ℕ) (w : World α) : Op α → Prop
  | .push _ _ => True
  | .pop i => (w.topElement i).elim True fun t => w.load i t < 2 ^ bits
  | .update i n v => cmp (w.value n) v = true ∨ w.load i n + 1 < 2 ^ bits
  | .touch i n _ => w.load i n + 1 < 2 ^ bits
  | .increase _ _ _ => True
  | .decrease i n _ => w.load i n + 1 < 2 ^ bits
  | .erase i n => w.load i n < 2 ^ bits
  | .merge _ _ => True

instance (cmp : α → α → Bool) (bits : ℕ) (w : World α) : (op : Op α) → Decidable (Fits cmp bits w op)
  | .push _ _ => inferInstanceAs (Decidable True)
  | .pop i =>
    match h : w.topElement i with
    | some t => decidable_of_iff (w.load i t < 2 ^ bits) (by rw [Fits, h]; rfl)
    | none => .isTrue (by rw [Fits, h]; trivial)
  | .update i n v =>
    inferInstanceAs (Decidable (cmp (w.value n) v = true ∨ w.load i n + 1 < 2 ^ bits))
  | .touch i n _ => inferInstanceAs (Decidable (w.load i n + 1 < 2 ^ bits))
  | .increase _ _ _ => inferInstanceAs (Decidable True)
  | .decrease i n _ => inferInstanceAs (Decidable (w.load i n + 1 < 2 ^ bits))
  | .erase i n => inferInstanceAs (Decidable (w.load i n < 2 ^ bits))
  | .merge _ _ => inferInstanceAs (Decidable True)

/-- The calls that end in `consolidate` leave roots of different numbers of children. -/
def SettledAfter (cmp : α → α → Bool) (w : World α) : Op α → World α → Prop
  | .push _ _, _ => True
  | .pop i, w' => Settled w' i
  | .update i n v, w' => cmp (w.value n) v = true ∨ Settled w' i
  | .touch i _ _, w' => Settled w' i
  | .increase _ _ _, _ => True
  | .decrease i _ _, w' => Settled w' i
  | .erase i _, w' => Settled w' i
  | .merge _ _, _ => True

theorem Outcome.imp {o : Option (World α)} {fits fits' : Prop} {P P' : World α → Prop}
    (h : Outcome o fits P) (hf : fits' ↔ fits) (hP : ∀ w, P w → P' w) : Outcome o fits' P' := by
  rcases h with ⟨hnone, hnot⟩ | ⟨w, hsome, hfits, hw⟩
  · exact Or.inl ⟨hnone, fun hf' => hnot (hf.mp hf')⟩
  · exact Or.inr ⟨w, hsome, hf.mpr hfits, hP w hw⟩

theorem Outcome.of_some {w : World α} {fits : Prop} {P : World α → Prop} (hf : fits) (hw : P w) :
    Outcome (some w) fits P := Or.inr ⟨w, rfl, hf, hw⟩

/-- **`update(handle, v)`.** -/
theorem update_spec (hw : StrictWeak cmp) (h : Inv cmp w) (hn : w.ledger.owner n = some i) (v : α) :
    Outcome (w.update cmp bits i n v) (cmp (w.value n) v = true ∨ w.load i n + 1 < 2 ^ bits)
      fun w' => Inv cmp w' ∧ w'.toAccount = w.toAccount.assign n v ∧
        (cmp (w.value n) v = true ∨ Settled w' i) := by
  rw [update]
  cases hc : cmp (w.value n) v with
  | true =>
    rw [if_pos rfl]
    obtain ⟨hinv, hacc⟩ := increaseNode_spec hw h hn (hw.asymm hc)
    exact .of_some (Or.inl rfl) ⟨hinv, hacc, Or.inl rfl⟩
  | false =>
    rw [if_neg (by decide)]
    exact (updateNode_spec bits hw h hn v).imp (by simp)
      fun w' ⟨hfiled, hacc⟩ => ⟨hfiled.inv, hacc, Or.inr hfiled.settled⟩

/-- **Every call** keeps the invariant and does what a priority queue does, or leaves `aux`. -/
theorem step_spec (hw : StrictWeak cmp) (h : Inv cmp w) {op : Op α}
    (hop : w.toAccount.Allowed cmp op) :
    Outcome (w.step cmp bits op) (Fits cmp bits w op) fun w' =>
      Inv cmp w' ∧ SettledAfter cmp w op w' ∧ Account.Step cmp w.toAccount op w'.toAccount := by
  cases op with
  | push i v =>
    obtain ⟨hinv, hacc⟩ := push_spec hw h i v
    refine .of_some trivial ⟨hinv, trivial, ?_⟩
    rw [hacc]
    exact .push ..
  | pop i =>
    obtain ⟨n, hn⟩ := hop
    obtain ⟨r, hr, -⟩ := h.base.reaches (Ledger.mem_nodes.mp hn)
    obtain ⟨t, htR, htop, hmax⟩ := (h.top i).resolve_left fun hempty =>
      ne_nil_of_mem hr hempty.1
    rw [step, pop_eq_erase h htop]
    refine (erase_spec bits hw h hmax.1).imp ?_ fun w' hw' => ?_
    · rw [Fits, htop]
      rfl
    · obtain ⟨hfiled, hacc⟩ := hw'
      refine ⟨hfiled.inv, hfiled.settled, ?_⟩
      rw [hacc]
      exact .pop _ hmax
  | update i n v =>
    refine (update_spec hw h hop v).imp Iff.rfl fun w' hw' => ?_
    obtain ⟨hinv, hacc, hset⟩ := hw'
    refine ⟨hinv, hset, ?_⟩
    rw [hacc]
    exact .update ..
  | touch i n v =>
    refine (updateNode_spec bits hw h hop v).imp Iff.rfl fun w' hw' => ?_
    obtain ⟨hfiled, hacc⟩ := hw'
    refine ⟨hfiled.inv, hfiled.settled, ?_⟩
    rw [hacc]
    exact .touch ..
  | increase i n v =>
    obtain ⟨hinv, hacc⟩ := increaseNode_spec hw h hop.1 hop.2
    refine .of_some trivial ⟨hinv, trivial, ?_⟩
    rw [hacc]
    exact .increase ..
  | decrease i n v =>
    refine (updateNode_spec bits hw h hop v).imp Iff.rfl fun w' hw' => ?_
    obtain ⟨hfiled, hacc⟩ := hw'
    refine ⟨hfiled.inv, hfiled.settled, ?_⟩
    rw [hacc]
    exact .decrease ..
  | erase i n =>
    refine (erase_spec bits hw h hop).imp Iff.rfl fun w' hw' => ?_
    obtain ⟨hfiled, hacc⟩ := hw'
    refine ⟨hfiled.inv, hfiled.settled, ?_⟩
    rw [hacc]
    exact .erase ..
  | merge i j =>
    obtain ⟨hinv, hacc⟩ := merge_spec hw h hop
    refine .of_some trivial ⟨hinv, trivial, ?_⟩
    rw [hacc]
    exact .merge ..

theorem inv_empty [Inhabited α] : Inv cmp (World.empty α) where
  base := by
    refine ⟨⟨⟨(fun ⟨_, h⟩ => nomatch h), (nomatch ·), (nomatch ·), fun _ => nodup_nil,
      fun _ => (nomatch ·), (nomatch ·), (nomatch ·)⟩, fun _ _ => (nomatch ·)⟩,
      fun _ _ => (nomatch ·), fun _ => nodup_nil, fun _ _ => (nomatch ·), fun _ _ => (nomatch ·)⟩
  top _ := Or.inl ⟨rfl, rfl⟩
  counts := Counts.empty

/-- Priority queues of heap-ordered trees, every node in one list and every pointer right. -/
structure Queues (cmp : α → α → Bool) (w : World α) : Prop where
  ordered : ∀ p, ∀ c ∈ w.children p, cmp (w.value p) (w.value c) = false
  root_parent : ∀ i, ∀ r ∈ w.roots i, w.parent r = none
  child_parent : ∀ p, ∀ c ∈ w.children p, w.parent c = some p
  size_eq : ∀ i, w.size i = (w.ledger.nodes i).card
  top : ∀ i, (w.ledger.nodes i = ∅ ∧ w.topElement i = none) ∨
    ∃ t ∈ w.roots i, w.topElement i = some t ∧ w.toAccount.Maximum cmp i t
  /-- The nodes of a heap are those in the trees of its roots. -/
  nodes : ∀ i n, w.ledger.owner n = some i ↔
    ∃ r ∈ w.roots i, Relation.ReflTransGen (fun c p => c ∈ w.children p) n r
  roots_once : ∀ i, (w.roots i).Nodup
  children_once : ∀ p, (w.children p).Nodup

theorem Base.ancestor_owner (h : Base cmp w) {m : ℕ} (hm : w.ledger.owner m = some i)
    (hnm : Relation.ReflTransGen (fun c p => c ∈ w.children p) n m) : w.ledger.owner n = some i := by
  induction hnm using Relation.ReflTransGen.head_induction_on with
  | refl => exact hm
  | head hc _ ih => exact (h.trees.owner_eq hc).trans ih

theorem Inv.queues (h : Inv cmp w) : Queues cmp w where
  ordered := h.base.trees.order
  root_parent := h.base.root_parent
  child_parent := h.base.child_parent
  size_eq := h.counts
  top i := by
    refine (h.top i).imp_left fun ⟨hroots, htop⟩ => ⟨?_, htop⟩
    rw [Finset.eq_empty_iff_forall_notMem]
    intro n hn
    obtain ⟨r, hr, -⟩ := h.base.reaches (Ledger.mem_nodes.mp hn)
    exact ne_nil_of_mem hr hroots
  nodes i n := by
    refine ⟨fun hn => ?_, fun ⟨r, hr, hnr⟩ => h.base.ancestor_owner (h.base.rooted i r hr) hnr⟩
    obtain ⟨r, hr, hreach⟩ := h.base.reaches hn
    exact ⟨r, hr, hreach.ancestor⟩
  roots_once := h.base.nodup
  children_once := h.base.trees.nodup

/-- What the worlds before and after a call of a priority queue are. -/
def Serves (cmp : α → α → Bool) (w : World α) (op : Op α) (w' : World α) : Prop :=
  Queues cmp w' ∧ SettledAfter cmp w op w' ∧ Account.Step cmp w.toAccount op w'.toAccount

end World

/-- **A Fibonacci heap is a priority queue** in every state of a run of allowed calls, exactly if every
call files roots that weigh less than `2 ^ bits`. -/
theorem fibonacciHeap_run_iff {α : Type*} [Inhabited α] {cmp : α → α → Bool} (hw : StrictWeak cmp)
    (bits : ℕ) (ops : List (Op α))
    (h : Along (World.step cmp bits) (fun w op => w.toAccount.Allowed cmp op) (World.empty α) ops) :
    Through (World.step cmp bits) (World.Serves cmp) (World.empty α) ops ↔
      Along (World.step cmp bits) (World.Fits cmp bits) (World.empty α) ops := by
  refine through_iff (I := World.Inv cmp) (fun w op hinv hop => ?_) ops _ World.inv_empty h
  refine (World.step_spec hw hinv hop).imp_right fun ⟨w', hsome, hfits, hinv', hset, hstep⟩ => ?_
  exact ⟨w', hsome, hfits, hinv', hinv'.queues, hset, hstep⟩

/-- Nodes are raised, lowered, merged and erased, and all roots fit. -/
theorem fibonacciHeap_run_iff_merge :
    let ops : List (Op ℕ) := [.push 0 3, .push 0 5, .push 1 4, .push 0 1, .pop 0, .push 0 2, .merge 0 1,
      .touch 0 0 0, .increase 0 3 9, .update 0 2 1, .decrease 0 3 0, .erase 0 0, .pop 0]
    Along (World.step (fun a b => decide (a < b)) 64)
        (fun w op => w.toAccount.Allowed (fun a b => decide (a < b)) op) (World.empty ℕ) ops ∧
      Through (World.step (fun a b => decide (a < b)) 64) (World.Serves fun a b => decide (a < b))
        (World.empty ℕ) ops := by
  intro ops
  have hw : StrictWeak fun a b : ℕ => decide (a < b) := strictWeak_lt
  have hallowed : Along (World.step (fun a b => decide (a < b)) 64)
      (fun w op => w.toAccount.Allowed (fun a b => decide (a < b)) op) (World.empty ℕ) ops := by
    decide +kernel
  exact ⟨hallowed, (fibonacciHeap_run_iff hw 64 ops hallowed).mpr (by decide +kernel)⟩

/-! ### Runs that leave `aux` -/

namespace World

variable {α : Type*} {cmp : α → α → Bool} {bits : ℕ} {w : World α} {i n : ℕ}

variable (cmp) in
theorem push_lists (i : ℕ) (v : α) :
    (w.push cmp i v).roots i = w.ledger.fresh :: w.roots i ∧
      (w.push cmp i v).children = Function.update w.children w.ledger.fresh [] := by
  rw [push]
  dsimp only
  split
  · exact ⟨update_self .., rfl⟩
  · obtain ⟨o, ho⟩ := raiseTop_eq cmp (i := i) (w := ⟨⟨w.ledger.add i,
      Function.update w.value w.ledger.fresh v⟩, Function.update w.children w.ledger.fresh [],
      Function.update w.parent w.ledger.fresh none, Function.update w.mark w.ledger.fresh false,
      Function.update w.roots i (w.ledger.fresh :: w.roots i), w.topElement,
      Function.update w.size i (w.size i + 1)⟩) w.ledger.fresh
    rw [ho]
    exact ⟨update_self .., rfl⟩

theorem load_push (h : Base cmp w) (i : ℕ) (v : α) :
    (w.push cmp i v).load i w.ledger.fresh = w.weight (w.roots i) := by
  obtain ⟨hroots, hchildren⟩ := push_lists cmp (w := w) i v
  have hdead := w.ledger.bound w.ledger.fresh le_rfl
  rw [load, hroots, hchildren, erase_cons_head, update_self, append_nil, weight]
  congr 1
  refine map_congr_left fun x hx => ?_
  have hxf : x ≠ w.ledger.fresh := by
    rintro rfl
    have ho := h.rooted i _ hx
    rw [hdead] at ho
    cases ho
  have hfree : w.ledger.fresh ∉ w.children x := fun hc =>
    Ledger.mem_live.mp (h.trees.valid.child_live hc).2 hdead
  rw [update_of_ne hxf, erase_of_not_mem hfree, childCount]

/-- A node two levels below a root adds nothing to the roots, and its children may add. -/
theorem weight_le_load (h : Base cmp w) {c r : ℕ} (hc : c ∈ w.children r) (hn : n ∈ w.children c) :
    w.weight (w.roots i) ≤ w.load i n := by
  have hnR : n ∉ w.roots i := fun hnR => h.trees.root_free ⟨i, hnR⟩ c hn
  have hsame : (w.roots i).map (fun x => 2 ^ ((w.children x).erase n).length) =
      (w.roots i).map fun x => 2 ^ w.childCount x := by
    refine map_congr_left fun x hx => ?_
    have hnx : n ∉ w.children x := by
      intro hnx
      have hxc : x = c := h.trees.valid.unique hnx hn
      exact h.trees.root_free ⟨i, hx⟩ r (hxc ▸ hc)
    rw [erase_of_not_mem hnx, childCount]
  rw [load, erase_of_not_mem hnR, map_append, List.sum_append, hsame, weight]
  exact Nat.le_add_right _ _

theorem card_nodes_le (h : Base cmp w) (hset : Settled w i) (hlt : w.weight (w.roots i) < 2 ^ bits)
    (hflat : ∀ r ∈ w.roots i, ∀ c ∈ w.children r, w.children c = []) :
    (w.ledger.nodes i).card ≤ bits * bits := by
  have hrank : ∀ r ∈ w.roots i, w.childCount r < bits := fun r hr =>
    (Nat.pow_lt_pow_iff_right (by omega)).mp ((pow_le_weight hr).trans_lt hlt)
  have hroots : (w.roots i).toFinset.card ≤ bits := by
    have himage : (w.roots i).toFinset.image w.childCount ⊆ Finset.range bits := by
      intro r hr
      obtain ⟨x, hx, rfl⟩ := Finset.mem_image.mp hr
      exact Finset.mem_range.mpr (hrank x (List.mem_toFinset.mp hx))
    have hinj : Set.InjOn w.childCount (w.roots i).toFinset := fun x hx y hy =>
      hset x (List.mem_toFinset.mp hx) y (List.mem_toFinset.mp hy)
    rw [← Finset.card_image_of_injOn hinj]
    exact (Finset.card_le_card himage).trans (Finset.card_range bits).le
  have hcover : w.ledger.nodes i ⊆
      (w.roots i).toFinset.biUnion fun r => insert r (w.children r).toFinset := by
    intro m hm
    obtain ⟨r, hr, hreach⟩ := h.reaches (Ledger.mem_nodes.mp hm)
    have hdepth : m = r ∨ m ∈ w.children r := by
      clear hm
      induction hreach with
      | root => exact Or.inl rfl
      | child hc _ ih =>
        rcases ih hr with hp | hp
        · exact Or.inr (hp ▸ hc)
        · have hnil := hflat _ hr _ hp
          have hc' : _ ∈ w.children _ := hc
          rw [hnil] at hc'
          cases hc'
    rw [Finset.mem_biUnion]
    refine ⟨r, List.mem_toFinset.mpr hr, ?_⟩
    rcases hdepth with rfl | hdepth
    · exact Finset.mem_insert_self ..
    · exact Finset.mem_insert_of_mem (List.mem_toFinset.mpr hdepth)
  calc (w.ledger.nodes i).card
      ≤ ((w.roots i).toFinset.biUnion fun r => insert r (w.children r).toFinset).card :=
        Finset.card_le_card hcover
    _ ≤ (w.roots i).toFinset.card * bits := by
        refine Finset.card_biUnion_le_card_mul _ _ _ fun r hr => (Finset.card_insert_le ..).trans ?_
        exact (Nat.succ_le_succ (toFinset_card_le _)).trans (hrank r (List.mem_toFinset.mp hr))
    _ ≤ bits * bits := Nat.mul_le_mul_right bits hroots

/-- The calls made below: allowed, and with at most `k` nodes. -/
def Frugal (cmp : α → α → Bool) (k : ℕ) (w : World α) (op : Op α) : Prop :=
  w.toAccount.Allowed cmp op ∧ w.ledger.live.card ≤ k

/-- All nodes are in heap 0, whose roots are filed. -/
structure Counter (cmp : α → α → Bool) (bits : ℕ) (w : World α) : Prop where
  inv : Inv cmp w
  settled : Settled w 0
  fits : w.weight (w.roots 0) < 2 ^ bits
  single : ∀ m j, w.ledger.owner m = some j → j = 0

theorem live_of_single (h : ∀ m j, w.ledger.owner m = some j → j = 0) :
    w.ledger.live = w.ledger.nodes 0 := by
  ext m
  rw [Ledger.mem_live, Ledger.mem_nodes]
  cases ho : w.ledger.owner m with
  | none => simp
  | some j => simp [h m j ho]

/-- Erasing a node two levels below a root leaves fewer nodes and no smaller counter. -/
theorem Counter.erase (hw : StrictWeak cmp) (h : Counter cmp bits w) {c r : ℕ}
    (hr : r ∈ w.roots 0) (hc : c ∈ w.children r) (hn : n ∈ w.children c) :
    w.ledger.owner n = some 0 ∧
      (w.step cmp bits (.erase 0 n) = none ∨ ∃ w', w.step cmp bits (.erase 0 n) = some w' ∧
        Counter cmp bits w' ∧ w.weight (w.roots 0) ≤ w'.weight (w'.roots 0) ∧
        w'.ledger.live.card < w.ledger.live.card) := by
  have hno : w.ledger.owner n = some 0 := by
    rw [h.inv.base.trees.owner_eq hn, h.inv.base.trees.owner_eq hc, h.inv.base.rooted 0 r hr]
  refine ⟨hno, ?_⟩
  rcases erase_spec bits hw h.inv hno with ⟨hnone, -⟩ | ⟨w', hsome, hfits, hfiled, hacc⟩
  · exact Or.inl hnone
  have hsingle : ∀ m j, w'.ledger.owner m = some j → j = 0 := by
    intro m j hm
    rw [hacc, Ledger.owner_drop] at hm
    split at hm
    · cases hm
    · exact h.single m j hm
  refine Or.inr ⟨w', hsome, ⟨hfiled.inv, hfiled.settled, hfiled.weight.symm ▸ hfits, hsingle⟩,
    (weight_le_load h.inv.base hc hn).trans hfiled.weight.ge, ?_⟩
  rw [live_of_single hsingle, live_of_single h.single, hacc, Ledger.nodes_drop]
  exact Finset.card_erase_lt_of_mem (Ledger.mem_nodes.mpr hno)

theorem Counter.count (hw : StrictWeak cmp) (h : Counter cmp bits w) (v : α) :
    ∃ w₁, w.step cmp bits (.push 0 v) = some w₁ ∧ w₁.ledger.owner w.ledger.fresh = some 0 ∧
      w₁.ledger.live.card = w.ledger.live.card + 1 ∧
      (w₁.step cmp bits (.touch 0 w.ledger.fresh v) = none ∨
        ∃ w', w₁.step cmp bits (.touch 0 w.ledger.fresh v) = some w' ∧ Counter cmp bits w' ∧
          w'.weight (w'.roots 0) = w.weight (w.roots 0) + 1 ∧
          w'.ledger.live.card = w.ledger.live.card + 1) := by
  obtain ⟨hinv, hacc⟩ := push_spec hw h.inv 0 v
  have hload := load_push h.inv.base 0 v
  obtain ⟨w₁, hw₁⟩ : ∃ w₁, w.push cmp 0 v = w₁ := ⟨_, rfl⟩
  rw [hw₁] at hinv hacc hload
  have hno : w₁.ledger.owner w.ledger.fresh = some 0 := by
    rw [hacc]
    exact (Ledger.owner_add 0 _).trans (if_pos rfl)
  have hsingle : ∀ m j, w₁.ledger.owner m = some j → j = 0 := by
    intro m j hm
    rw [hacc, Ledger.owner_add] at hm
    split at hm
    · exact (some_inj.mp hm).symm
    · exact h.single m j hm
  have hcard : w₁.ledger.live.card = w.ledger.live.card + 1 := by
    rw [live_of_single hsingle, live_of_single h.single, hacc, Ledger.nodes_add]
    exact Finset.card_insert_of_notMem (by simp [w.ledger.bound w.ledger.fresh le_rfl])
  refine ⟨w₁, congrArg some hw₁, hno, hcard, ?_⟩
  rcases updateNode_spec bits hw hinv hno v with
    ⟨hnone, -⟩ | ⟨w', hsome, hfits, hfiled, hacc'⟩
  · exact Or.inl hnone
  have hledger : w'.ledger = w₁.ledger := by
    rw [hacc']
    rfl
  refine Or.inr ⟨w', hsome, ⟨hfiled.inv, hfiled.settled, hfiled.weight.symm ▸ hfits, ?_⟩, ?_, ?_⟩
  · rw [hledger]
    exact hsingle
  · rw [hfiled.weight, hload]
  · rw [hledger]
    exact hcard

/-- **The counter overflows**: nodes are erased where they do not count, and one is pushed otherwise. -/
theorem Counter.overflow [Inhabited α] (hw : StrictWeak cmp) (v : α) :
    ∀ (gap size : ℕ) (w : World α), Counter cmp bits w → w.weight (w.roots 0) + gap = 2 ^ bits →
      w.ledger.live.card = size → size ≤ bits * bits + 1 →
      Reached (step cmp bits) (Frugal cmp (bits * bits + 1)) (World.empty α) w →
      ∃ ops, Along (step cmp bits) (Frugal cmp (bits * bits + 1)) (World.empty α) ops ∧
        tryRun (step cmp bits) (World.empty α) ops = none := by
  intro gap
  induction gap using Nat.strong_induction_on with
  | _ gap ihgap =>
    intro size
    induction size using Nat.strong_induction_on with
    | _ size ihsize =>
      intro w h hgap hsize hle hreach
      by_cases hflat : ∀ r ∈ w.roots 0, ∀ c ∈ w.children r, w.children c = []
      · have hcard := card_nodes_le h.inv.base h.settled h.fits hflat
        rw [← live_of_single h.single] at hcard
        obtain ⟨w₁, hpush, hno, hlive, htouch⟩ := h.count hw v
        have hfrugal₀ : Frugal cmp (bits * bits + 1) w (.push 0 v) := ⟨trivial, hsize ▸ hle⟩
        have hreach₁ := hreach.call hfrugal₀ hpush
        have hfrugal : Frugal cmp (bits * bits + 1) w₁ (.touch 0 w.ledger.fresh v) :=
          ⟨hno, by omega⟩
        rcases htouch with hnone | ⟨w', hsome, hcounter, hweight, hlive'⟩
        · exact hreach₁.fail hfrugal hnone
        · have hlt := hcounter.fits
          exact ihgap (2 ^ bits - w'.weight (w'.roots 0)) (by omega) _ w' hcounter (by omega) rfl
            (by omega) (hreach₁.call hfrugal hsome)
      · push Not at hflat
        obtain ⟨r, hr, c, hc, hne⟩ := hflat
        obtain ⟨n, hn⟩ := exists_mem_of_ne_nil _ hne
        obtain ⟨hno, hcase⟩ := h.erase hw hr hc hn
        have hfrugal : Frugal cmp (bits * bits + 1) w (.erase 0 n) := ⟨hno, hsize ▸ hle⟩
        rcases hcase with hnone | ⟨w', hsome, hcounter, hweight, hlive⟩
        · exact hreach.fail hfrugal hnone
        · have hlt := hcounter.fits
          have hreach' := hreach.call hfrugal hsome
          rcases hweight.lt_or_eq with hweight | hweight
          · exact ihgap (2 ^ bits - w'.weight (w'.roots 0)) (by omega) _ w' hcounter (by omega) rfl
              (by omega) hreach'
          · exact ihsize w'.ledger.live.card (by omega) w' hcounter (by omega) rfl (by omega) hreach'

end World

/-- **Runs leave `aux`**: with 64 entries and at most 4097 nodes at any time. -/
theorem fibonacciHeap_run_overflow :
    ∃ ops : List (Op ℕ),
      Along (World.step (fun a b => decide (a < b)) 64)
        (fun w op => w.toAccount.Allowed (fun a b => decide (a < b)) op ∧ w.ledger.live.card ≤ 4097)
        (World.empty ℕ) ops ∧
      tryRun (World.step (fun a b => decide (a < b)) 64) (World.empty ℕ) ops = none ∧
      ¬ Through (World.step (fun a b => decide (a < b)) 64) (World.Serves fun a b => decide (a < b))
        (World.empty ℕ) ops := by
  have hw : StrictWeak fun a b : ℕ => decide (a < b) := strictWeak_lt
  have hempty : World.Counter (fun a b : ℕ => decide (a < b)) 64 (World.empty ℕ) :=
    ⟨World.inv_empty, fun _ => (nomatch ·), by decide, fun _ _ => (nomatch ·)⟩
  obtain ⟨ops, halong, hnone⟩ := World.Counter.overflow hw 0 (2 ^ 64) 0 _ hempty
    (Nat.zero_add _) rfl (Nat.zero_le _) (.refl _)
  refine ⟨ops, halong, hnone, fun hthrough => ?_⟩
  obtain ⟨w', hw'⟩ := hthrough.exists_tryRun
  rw [hnone] at hw'
  cases hw'

end SourceLibs.FibonacciHeap
