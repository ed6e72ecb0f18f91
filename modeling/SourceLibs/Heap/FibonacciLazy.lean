import SourceLibs.Heap.Comparison
import SourceLibs.Heap.FibonacciCalls

/-!
# Heap — lazy updates of the Fibonacci heap

`update_lazy(handle, v)` moves the node to the roots and does not consolidate.  It raises the top to
the node, and never lowers it from the node.

* `updateLazy_inv`: a lazy update keeps the invariant unless it lowers the top below another element.
* `updateLazy_top_iff`: then, and only then, `top()` is a maximum that the next `pop` removes.
* `updateLazy_stale`: the top of two elements lowered below the other.
-/

namespace SourceLibs.FibonacciHeap
open Option Function Compare Handles Comparison

namespace World

variable {α : Type*} (cmp : α → α → Bool) (bits : ℕ)

/-- `update_lazy(handle, v)`, or a value written through the handle and `update_lazy(handle)`. -/
def updateLazyTo (w : World α) (i n : ℕ) (v : α) : World α := (w.assign n v).updateLazy cmp i n

/-- The node is not the top of the heap, or no other element is larger than the new value. -/
def StaysTop (w : World α) (i n : ℕ) (v : α) : Prop :=
  w.topElement i = some n → ∀ m, w.ledger.owner m = some i → m ≠ n → cmp v (w.value m) = false

/-- The worlds of calls that return and of lazy updates that do not lower a top below another
element. -/
inductive Lazily [Inhabited α] : World α → Prop where
  | empty : Lazily (World.empty α)
  | call {w w' : World α} {op : Op α} (h : Lazily w) (ha : w.toAccount.Allowed cmp op)
      (hs : w.step cmp bits op = some w') : Lazily w'
  | updateLazy {w : World α} {i n : ℕ} {v : α} (h : Lazily w) (hn : w.ledger.owner n = some i)
      (hv : StaysTop cmp w i n v) : Lazily (w.updateLazyTo cmp i n v)

/-- What is asked of a lazy update: the top is a maximum of the current values, equivalent to the top
after `update(handle, v)`, and the next `pop` removes it. -/
structure LazyTop (w : World α) (i n : ℕ) (v : α) : Prop where
  top : ∃ t, (w.updateLazyTo cmp i n v).topElement i = some t ∧
    (w.toAccount.assign n v).Maximum cmp i t ∧
    ∃ w', (w.updateLazyTo cmp i n v).pop cmp bits i = some w' ∧
      w'.toAccount = ⟨w.ledger.drop t, (w.toAccount.assign n v).value⟩
  account : (w.updateLazyTo cmp i n v).toAccount = w.toAccount.assign n v
  like_update : ∀ w' t t', w.update cmp bits i n v = some w' →
    (w.updateLazyTo cmp i n v).topElement i = some t → w'.topElement i = some t' →
    cmp ((w.updateLazyTo cmp i n v).value t) (w'.value t') = false ∧
      cmp (w'.value t') ((w.updateLazyTo cmp i n v).value t) = false

variable {cmp bits} {w : World α} {i n : ℕ}

theorem Inv.exists_top (h : Inv cmp w) (hn : w.ledger.owner n = some i) :
    ∃ t ∈ w.roots i, w.topElement i = some t ∧ w.toAccount.Maximum cmp i t := by
  obtain ⟨r, hr, -⟩ := h.base.reaches hn
  exact (h.top i).resolve_left fun hempty => List.ne_nil_of_mem hr hempty.1

theorem topElement_updateLazyTo (h : Inv cmp w) (hn : w.ledger.owner n = some i) (v : α) {t : ℕ}
    (ht : w.topElement i = some t) :
    (w.updateLazyTo cmp i n v).topElement i =
      some (if cmp ((w.toAccount.assign n v).value t) v then n else t) := by
  obtain ⟨-, hacc, -, htop, -⟩ := spilled_update h.base hn v
  rw [updateLazyTo, updateLazy_eq]
  generalize (w.assign n v).spill i n = w₁ at *
  have hvn : w₁.value n = v := by
    rw [hacc]
    exact update_self ..
  rw [raiseTop, show w₁.topElement i = some t by rw [htop, ht]]
  dsimp only
  rw [hvn, hacc]
  split_ifs
  · exact update_self ..
  · rw [htop, ht]

theorem account_updateLazyTo (h : Inv cmp w) (hn : w.ledger.owner n = some i) (v : α) :
    (w.updateLazyTo cmp i n v).toAccount = w.toAccount.assign n v := by
  obtain ⟨-, hacc, -, -, -⟩ := spilled_update h.base hn v
  rw [updateLazyTo, updateLazy_eq]
  obtain ⟨o, ho⟩ : ∃ o, ((w.assign n v).spill i n).raiseTop cmp i n =
      ((w.assign n v).spill i n).setTop i o := raiseTop_eq cmp n
  rw [ho]
  exact hacc

/-- **The top after a lazy update** is a maximum exactly if it was not lowered below another element. -/
theorem maximum_updateLazyTo_iff (hw : StrictWeak cmp) (h : Inv cmp w)
    (hn : w.ledger.owner n = some i) (v : α) {t : ℕ}
    (ht : (w.updateLazyTo cmp i n v).topElement i = some t) :
    (w.toAccount.assign n v).Maximum cmp i t ↔ StaysTop cmp w i n v := by
  obtain ⟨u, -, hu, hmax⟩ := h.exists_top hn
  have hself : (w.toAccount.assign n v).value n = v := update_self ..
  have hother : ∀ m, m ≠ n → (w.toAccount.assign n v).value m = w.value m :=
    fun m hm => update_of_ne hm ..
  rw [topElement_updateLazyTo h hn v hu, some_inj] at ht
  by_cases hun : u = n
  · -- The node was the top, and the loop of comparisons leaves it there.
    subst hun
    obtain rfl : u = t := by
      rw [hself, hw.refl v] at ht
      exact ht
    refine ⟨fun hm _ m hmi hmu => ?_, fun hs => ⟨hn, fun m hmi => ?_⟩⟩
    · have hle := hm.2 m hmi
      rwa [hself, hother m hmu] at hle
    · rw [hself]
      by_cases hmu : m = u
      · rw [hmu, hself]
        exact hw.refl v
      · rw [hother m hmu]
        exact hs hu m hmi hmu
  · refine iff_of_true ?_ fun hs => absurd (some_inj.mp (hu.symm.trans hs)) hun
    rw [hother u hun] at ht
    obtain ⟨hraised, hkept⟩ := hmax.assign hw hn hun v
    cases hc : cmp (w.value u) v with
    | true =>
      rw [hc, if_pos rfl] at ht
      exact ht ▸ hraised hc
    | false =>
      rw [hc, if_neg (by decide)] at ht
      exact ht ▸ hkept hc

/-- **A lazy update** that leaves a maximum at the top keeps the invariant. -/
theorem updateLazy_inv (hw : StrictWeak cmp) (h : Inv cmp w) (hn : w.ledger.owner n = some i) {v : α}
    (hv : StaysTop cmp w i n v) : Inv cmp (w.updateLazyTo cmp i n v) := by
  obtain ⟨u, huR, hu, -⟩ := h.exists_top hn
  have htop := topElement_updateLazyTo h hn v hu
  have hacc := account_updateLazyTo h hn v
  have hmax := (maximum_updateLazyTo_iff hw h hn v htop).mpr hv
  obtain ⟨hs, -, hsize, htop₀, hperm⟩ := spilled_update h.base hn v
  obtain ⟨hb, -⟩ := updated_base h.base hn v
  rw [updateLazyTo, updateLazy_eq] at htop hacc ⊢
  generalize (w.assign n v).spill i n = w₁ at *
  obtain ⟨o, ho⟩ : ∃ o, w₁.raiseTop cmp i n = w₁.setTop i o := raiseTop_eq cmp n
  rw [ho] at htop hacc ⊢
  have hacc₁ : w₁.toAccount = w.toAccount.assign n v := hacc
  refine ⟨hb.setTop o, fun j => ?_, ?_⟩
  · by_cases hj : j = i
    · subst hj
      refine Or.inr ⟨_, ?_, htop, hacc ▸ hmax⟩
      show _ ∈ w₁.roots j
      rw [hperm.mem_iff]
      split_ifs
      · exact List.mem_cons_self
      · by_cases hun : u = n
        · exact hun ▸ List.mem_cons_self
        · exact List.mem_cons_of_mem _ (List.mem_append_left _
            ((List.mem_erase_of_ne hun).mpr huR))
    · refine (h.top j).congr (hs.others j hj) ((update_of_ne hj ..).trans (by rw [htop₀]))
        (fun m => ?_) fun m hm => ?_
      · show w₁.ledger.owner m = some j ↔ _
        rw [hacc₁]
        rfl
      · have hmn : m ≠ n := by
          rintro rfl
          rw [hn, some_inj] at hm
          exact hj hm.symm
        show w₁.value m = w.value m
        rw [hacc₁]
        exact update_of_ne hmn ..
  · show Counts w₁.ledger w₁.size
    rw [hacc₁, hsize]
    exact h.counts

theorem Lazily.inv [Inhabited α] (hw : StrictWeak cmp) (h : Lazily cmp bits w) : Inv cmp w := by
  induction h with
  | empty => exact inv_empty
  | call _ ha hs ih =>
    rcases step_spec hw ih ha with ⟨hnone, -⟩ | ⟨w', hsome, -, hinv, -⟩
    · rw [hnone] at hs
      cases hs
    · exact some_inj.mp (hsome.symm.trans hs) ▸ hinv
  | updateLazy _ hn hv ih => exact updateLazy_inv hw ih hn hv

theorem maximum_equivalent {a a' : Account α} {t t' : ℕ} (h : a.Maximum cmp i t)
    (h' : a'.Maximum cmp i t') (ha : a = a') :
    cmp (a.value t) (a'.value t') = false ∧ cmp (a'.value t') (a.value t) = false := by
  subst ha
  exact ⟨h.2 t' h'.1, h'.2 t h.1⟩

end World

/-- **Lazy updates.**  In every world of calls and of lazy updates that do not lower a top below
another element, the heaps are priority queues; and the next lazy update leaves a maximum at the top
that `pop` removes exactly if it is such an update and the roots that `pop` files fit. -/
theorem updateLazy_top_iff {α : Type*} [Inhabited α] {cmp : α → α → Bool} {bits : ℕ} {w : World α}
    {i n : ℕ} (hw : StrictWeak cmp) (h : World.Lazily cmp bits w) (hn : w.ledger.owner n = some i)
    (v : α) :
    World.Queues cmp w ∧ (World.LazyTop cmp bits w i n v ↔
      World.StaysTop cmp w i n v ∧ World.Fits cmp bits (w.updateLazyTo cmp i n v) (.pop i)) := by
  have hinv := h.inv hw
  have hacc := World.account_updateLazyTo hinv hn v
  refine ⟨hinv.queues, fun hl => ?_, fun ⟨hs, hfits⟩ => ?_⟩
  · obtain ⟨t, ht, hmax, w', hpop, -⟩ := hl.top
    have hs := (World.maximum_updateLazyTo_iff hw hinv hn v ht).mp hmax
    have hinv' := World.updateLazy_inv hw hinv hn hs
    refine ⟨hs, ?_⟩
    rw [World.pop_eq_erase hinv' ht] at hpop
    rcases World.erase_spec bits hw hinv' (n := t) (i := i) (hacc ▸ hmax.1) with
      ⟨hnone, -⟩ | ⟨-, -, hfits, -⟩
    · rw [hnone] at hpop
      cases hpop
    · rw [World.Fits, ht]
      exact hfits
  · have hinv' := World.updateLazy_inv hw hinv hn hs
    have hn' : (w.updateLazyTo cmp i n v).ledger.owner n = some i := by
      rw [hacc]
      exact hn
    obtain ⟨t, -, ht, hmax⟩ := hinv'.exists_top hn'
    rw [World.Fits, ht] at hfits
    refine ⟨⟨t, ht, hacc ▸ hmax, ?_⟩, hacc, fun w₂ t₁ t₂ hupdate ht₁ ht₂ => ?_⟩
    · rw [World.pop_eq_erase hinv' ht]
      rcases World.erase_spec bits hw hinv' (n := t) (i := i) hmax.1 with
        ⟨-, hnot⟩ | ⟨w', hsome, -, -, hacc'⟩
      · exact absurd hfits hnot
      · refine ⟨w', hsome, hacc'.trans ?_⟩
        rw [hacc]
        rfl
    · obtain rfl : t = t₁ := some_inj.mp (ht.symm.trans ht₁)
      have hallowed : w.toAccount.Allowed cmp (.update i n v) := hn
      have hspec : World.Outcome (w.step cmp bits (.update i n v)) _ _ :=
        World.step_spec hw hinv hallowed
      rcases hspec with
        ⟨hnone, -⟩ | ⟨w₂', hsome, -, hinv₂, -, hstep⟩
      · exact absurd (hnone.symm.trans hupdate) (by simp)
      · obtain rfl : w₂' = w₂ := some_inj.mp (hsome.symm.trans hupdate)
        have hacc₂ : w₂'.toAccount = w.toAccount.assign n v := by
          generalize hop : Op.update i n v = op at hstep
          generalize ha₂ : w₂'.toAccount = a₂ at hstep
          cases hstep <;> cases hop
          rfl
        obtain ⟨t', -, ht', hmax'⟩ := hinv₂.exists_top (n := n) (i := i) (by
          rw [hacc₂]
          exact hn)
        obtain rfl : t' = t₂ := some_inj.mp (ht'.symm.trans ht₂)
        exact World.maximum_equivalent hmax hmax' (hacc.trans hacc₂.symm)

/-- The heap of `5` and of `3`. -/
def fiveThree : World ℕ := ((World.empty ℕ).push natLess 0 5).push natLess 0 3

theorem lazily_fiveThree : World.Lazily natLess 64 fiveThree := by
  have hone : World.Lazily natLess 64 ((World.empty ℕ).push natLess 0 5) :=
    .call .empty (show (World.empty ℕ).toAccount.Allowed natLess (.push 0 5) from trivial) rfl
  exact .call hone
    (show ((World.empty ℕ).push natLess 0 5).toAccount.Allowed natLess (.push 0 3) from trivial) rfl

/-- The top `5` is lowered to `4`: the other element is not larger. -/
theorem updateLazy_top_iff_lowered : World.LazyTop natLess 64 fiveThree 0 0 4 := by
  refine ((updateLazy_top_iff natLess_strictWeak lazily_fiveThree
    (show fiveThree.ledger.owner 0 = some 0 by decide) 4).2).mpr ⟨?_, by decide⟩
  intro _ m hm hne
  have hm : ((Ledger.empty.add 0).add 0).owner m = some 0 := hm
  rw [Ledger.owner_add, Ledger.owner_add] at hm
  by_cases hone : m = 1
  · rw [hone]
    decide
  · rw [if_neg (show m ≠ (Ledger.empty.add 0).fresh from hone),
      if_neg (show m ≠ Ledger.empty.fresh from hne)] at hm
    cases hm

/-- **A stale top**: of `5` and `3` the first is lowered to `1`, and `top()` is that `1`. -/
theorem updateLazy_stale :
    let w := ((World.empty ℕ).push natLess 0 5).push natLess 0 3
    World.Lazily natLess 64 w ∧ w.ledger.owner 0 = some 0 ∧
      (w.updateLazyTo natLess 0 0 1).topElement 0 = some 0 ∧
      (w.updateLazyTo natLess 0 0 1).value 0 = 1 ∧ (w.updateLazyTo natLess 0 0 1).value 1 = 3 ∧
      ¬ World.LazyTop natLess 64 w 0 0 1 := by
  refine ⟨lazily_fiveThree, by decide, by decide, by decide, by decide, fun hl => ?_⟩
  obtain ⟨t, ht, hmax, -⟩ := hl.top
  obtain rfl : 0 = t := some_inj.mp ht
  exact absurd (hmax.2 1 (by decide)) (by decide)

end SourceLibs.FibonacciHeap
