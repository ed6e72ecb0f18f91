import SourceLibs.SgiStl.RbIterator

/-!
# SGI STL — the red-black tree in every run

What the tree is for is a list of nodes, into which nodes are put beside others and from which they are
taken.

* `Exact`: the memory holds a red-black tree of the list.
* `Exact.call`: a call keeps this.
* `rbTree_runs`: every run of attachments and removals.
-/

namespace SourceLibs.SgiStl

open RedBlackTree RedBlackTree.Tree

/-! ### Calls -/

/-- `_M_insert` of the new node `z` below `y`, or the removal of `z`. -/
inductive Call
  | attach (x : Option ℕ) (y z : ℕ) (less : Bool)
  | remove (z : ℕ)

/-- A call with fuel for its loops. -/
def call (fuel h : ℕ) (m : Mem ℕ) : Call → Option (Mem ℕ)
  | .attach x y z less => insert fuel h m x y z less
  | .remove z          => rebalanceForErase fuel h m z

/-- A new node goes to a null link of a node, or to the header of an empty tree; a node of the tree is
removed. -/
def Allowed (h : ℕ) (m : Mem ℕ) (l : List ℕ) : Call → Prop
  | .attach x y z less =>
    z ≠ h ∧ z ∉ l ∧ (y = h ∧ l = [] ∨ y ∈ l ∧ m.child (insertSide x less) y = none)
  | .remove z          => z ∈ l

/-- `z` is put beside `y`. -/
def beside (s : Side) (y z : ℕ) : List ℕ → List ℕ
  | []     => []
  | k :: l =>
    if k = y then
      match s with
      | .left  => z :: k :: l
      | .right => k :: z :: l
    else k :: beside s y z l

/-- The list after a call. -/
def listAfter (h : ℕ) (l : List ℕ) : Call → List ℕ
  | .attach x y z less => if y = h then [z] else beside (insertSide x less) y z l
  | .remove z          => l.erase z

/-- The runs from the empty tree, each call with fuel for more steps than the tree has nodes. -/
inductive Runs (h : ℕ) : Mem ℕ → List ℕ → Prop
  | empty (m : Mem ℕ) : Runs h (emptyInitialize m h) []
  | step {m m' : Mem ℕ} {l : List ℕ} {c : Call} (fuel : ℕ) : Runs h m l → Allowed h m l c →
      l.length < fuel → call fuel h m c = some m' → Runs h m' (listAfter h l c)

/-! ### What holds -/

/-- The memory holds the red-black tree `T` of the list below the header. -/
structure Exact (h : ℕ) (m : Mem ℕ) (l : List ℕ) (T : RedBlackTree.Tree ℕ) : Prop where
  links : Rep m h T
  order : T.toList = l
  distinct : (h :: l).Nodup
  root_black : T.color = .black
  no_red_red : NoRedRed T
  black_count : ∃ n, ∀ k ∈ blackCounts T, k = n
  leftmost : m.child .left h = some (l.headD h)
  rightmost : m.child .right h = some (l.getLastD h)
  header_red : m.color h = .red

variable {h : ℕ} {m : Mem ℕ} {l : List ℕ} {T : RedBlackTree.Tree ℕ} {c : Call}

theorem Exact.holds (hx : Exact h m l T) : Holds m h T :=
  ⟨hx.links, hx.order ▸ hx.distinct⟩

theorem Exact.redBlack (hx : Exact h m l T) : RedBlack T := by
  obtain ⟨n, hn⟩ := hx.black_count
  exact ⟨n, balanced_iff.mpr ⟨hx.root_black, hx.no_red_red, hn⟩⟩

theorem headD_reverse (l : List ℕ) (d : ℕ) : l.reverse.headD d = l.getLastD d := by
  rw [List.headD_eq_head?_getD, List.head?_reverse, List.getLastD_eq_getLast?]

theorem Exact.ends (hx : Exact h m l T) : Ends m h T := by
  intro s
  cases s with
  | left  => rw [hx.leftmost, walk, hx.order]
  | right => rw [hx.rightmost, walk, hx.order, headD_reverse]

theorem Exact.of_holds (hm : Holds m h T) (he : Ends m h T) (hT : RedBlack T) (hh : m.color h = .red) :
    Exact h m T.toList T := by
  obtain ⟨n, hn⟩ := hT
  obtain ⟨hblack, hred, hcount⟩ := balanced_iff.mp hn
  exact ⟨hm.rep, rfl, hm.nodup, hblack, hred, ⟨n, hcount⟩, he .left,
    by rw [he .right, walk, headD_reverse], hh⟩

theorem exact_empty (m : Mem ℕ) (h : ℕ) : Exact h (emptyInitialize m h) [] .nil := by
  have hm : Holds (emptyInitialize m h) h .nil := ⟨⟨by simp [emptyInitialize], trivial⟩, by simp⟩
  refine .of_holds hm (fun s => ?_) ⟨0, .nil⟩ ?_
  · cases s <;> simp [emptyInitialize]
  · simp [emptyInitialize]

/-! ### Attachments -/

theorem beside_append {s : Side} {y z : ℕ} {A B : List ℕ} (hy : y ∉ A) :
    beside s y z (A ++ y :: B) = match s with
      | .left  => A ++ z :: y :: B
      | .right => A ++ y :: z :: B := by
  induction A with
  | nil => cases s <;> simp [beside]
  | cons k A ih =>
    rw [List.mem_cons, not_or] at hy
    simp only [List.cons_append, beside, if_neg (Ne.symm hy.1), ih hy.2]
    cases s <;> rfl

theorem exists_place {s : Side} {y z : ℕ} (hm : Holds m h T) (hy : y ∈ T.toList)
    (hk : m.child s y = none) :
    ∃ ctx, T = plug ctx .nil ∧ At h y s ctx ∧ beside s y z T.toList = before ctx ++ z :: after ctx := by
  obtain ⟨ctx, c, l, r, rfl⟩ := exists_plug hy
  obtain ⟨a, b, hab⟩ := node_eq_branch s y c l r
  rw [hab] at hm ⊢
  obtain rfl : a = .nil := root_eq_none.mp (hm.child.1 ▸ hk)
  refine ⟨⟨s, y, c, b⟩ :: ctx, rfl, ⟨rfl, rfl⟩, ?_⟩
  have hnd := (List.nodup_cons.mp hm.nodup).2
  rw [toList_plug] at hnd ⊢
  cases s with
  | left =>
    have hy' : y ∉ before ctx := not_mem_of_nodup (B := b.toList ++ after ctx) (by
      simpa [branch, toList] using hnd)
    have h' := beside_append (s := .left) (z := z) (B := b.toList ++ after ctx) hy'
    simpa [branch, toList, before, after] using h'
  | right =>
    have hy' : y ∉ before ctx ++ b.toList := not_mem_of_nodup (B := after ctx) (by
      simpa [branch, toList] using hnd)
    have h' := beside_append (s := .right) (z := z) (B := after ctx) hy'
    simpa [branch, toList, before, after] using h'

/-- **A call keeps the tree.** -/
theorem Exact.call (hx : Exact h m l T) (hc : Allowed h m l c) {fuel : ℕ} (hfuel : l.length < fuel) :
    ∃ m' T', call fuel h m c = some m' ∧ Exact h m' (listAfter h l c) T' := by
  obtain rfl := hx.order
  cases c with
  | attach x y z less =>
    obtain ⟨hzh, hz, hplace⟩ := hc
    obtain ⟨ctx, hTctx, hat, hafter⟩ : ∃ ctx, T = plug ctx .nil ∧ At h y (insertSide x less) ctx
        ∧ listAfter h T.toList (.attach x y z less) = before ctx ++ z :: after ctx := by
      rcases hplace with ⟨rfl, hnil⟩ | ⟨hy, hk⟩
      · refine ⟨[], ?_, rfl, by simp [listAfter, before, after]⟩
        cases T with
        | nil => rfl
        | node => simp [toList] at hnil
      · have hyh : y ≠ h := fun e => (List.nodup_cons.mp hx.distinct).1 (e ▸ hy)
        rw [listAfter, if_neg hyh]
        exact exists_place hx.holds hy hk
    subst hTctx
    obtain ⟨m', T', hrun, hold, hends, hrb, hlist, hcolor, -⟩ :=
      insert_holds hx.holds hx.ends hx.redBlack hat hzh hz hfuel
    refine ⟨m', T', hrun, ?_⟩
    rw [hafter, ← hlist]
    exact .of_holds hold hends hrb (hcolor.trans hx.header_red)
  | remove z =>
    obtain ⟨m', T', hrun, hold, hends, hrb, hlist, hcolor, -⟩ :=
      rebalanceForErase_holds hx.holds hx.ends hx.redBlack hc (Nat.le_of_lt hfuel)
    refine ⟨m', T', hrun, ?_⟩
    rw [listAfter, ← hlist]
    exact .of_holds hold hends hrb (hcolor.trans hx.header_red)

/-! ### Runs -/

theorem exact_of_runs (hr : Runs h m l) : ∃ T, Exact h m l T := by
  induction hr with
  | empty m => exact ⟨_, exact_empty m h⟩
  | step fuel _ hc hfuel hrun ih =>
    obtain ⟨T, hx⟩ := ih
    obtain ⟨m', T', hrun', hx'⟩ := hx.call hc hfuel
    obtain rfl := Option.some_inj.mp (hrun'.symm.trans hrun)
    exact ⟨T', hx'⟩

/-- **In every run** the memory holds a red-black tree of the list, the next call returns and keeps this,
and the iterator steps through the list with the header at its end. -/
theorem rbTree_runs (hr : Runs h m l) :
    (∃ T, Exact h m l T)
    ∧ (∀ c fuel, Allowed h m l c → l.length < fuel →
        ∃ m' T', call fuel h m c = some m' ∧ Exact h m' (listAfter h l c) T')
    ∧ ∀ A x y B fuel, l ++ [h] = A ++ x :: y :: B → l.length + 1 < fuel →
        increment fuel m x = some y ∧ decrement fuel m y = some x := by
  obtain ⟨T, hx⟩ := exact_of_runs hr
  refine ⟨⟨T, hx⟩, fun c fuel hc hfuel => hx.call hc hfuel, fun A x y B fuel hxy hfuel => ?_⟩
  obtain rfl := hx.order
  exact ⟨increment_eq hx.holds hx.ends hxy hfuel,
    decrement_eq hx.holds hx.ends hx.redBlack hx.header_red hxy (by omega)⟩

/-- Four nodes are attached, and the root is removed, which has two children. -/
theorem exists_runs : ∃ m, Runs 0 m [1, 3, 4] := by
  have h₀ := Runs.empty (h := 0) ⟨fun _ => .black, fun _ => none, fun _ _ => none⟩
  have h₁ := h₀.step (c := .attach none 0 1 false) 9 ⟨by decide, by decide, .inl ⟨rfl, rfl⟩⟩ (by decide) rfl
  have h₂ := h₁.step (c := .attach none 1 2 false) 9
    ⟨by decide, by decide, .inr ⟨by decide, rfl⟩⟩ (by decide) rfl
  have h₃ := h₂.step (c := .attach none 2 3 false) 9
    ⟨by decide, by decide, .inr ⟨by decide, rfl⟩⟩ (by decide) rfl
  have h₄ := h₃.step (c := .attach none 3 4 false) 9
    ⟨by decide, by decide, .inr ⟨by decide, rfl⟩⟩ (by decide) rfl
  exact ⟨_, h₄.step (c := .remove 2) 9 (show 2 ∈ [1, 2, 3, 4] by decide) (by decide) rfl⟩

theorem rbTree_runs_three : ∃ m, (∃ T, Exact 0 m [1, 3, 4] T)
    ∧ (∀ c fuel, Allowed 0 m [1, 3, 4] c → 3 < fuel →
        ∃ m' T', call fuel 0 m c = some m' ∧ Exact 0 m' (listAfter 0 [1, 3, 4] c) T')
    ∧ ∀ A x y B fuel, [1, 3, 4] ++ [0] = A ++ x :: y :: B → 3 + 1 < fuel →
        increment fuel m x = some y ∧ decrement fuel m y = some x := by
  obtain ⟨m, hr⟩ := exists_runs
  exact ⟨m, rbTree_runs hr⟩

end SourceLibs.SgiStl
