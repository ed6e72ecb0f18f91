import SourceLibs.SgiStl.RbInsert

/-!
# SGI STL — the steps of the iterator

* `increment_eq`, `decrement_eq`: they go from each node to the next one and to the one before, and the
  header stands after the last node.
-/

namespace SourceLibs.SgiStl
open List

open RedBlackTree RedBlackTree.Tree

variable {m : Mem ℕ} {h : ℕ} {ctx : List (Frame ℕ)} {s : Side}

theorem climb_next {t : RedBlackTree.Tree ℕ} {x y fuel : ℕ} {l : List ℕ} (hm : Holds m h (plug ctx t))
    (hx : t.root = some x) (hy : aft s ctx = y :: l) (hfuel : ctx.length ≤ fuel) :
    ∃ x', climb s.flip fuel m x (anchor h ctx) = some (x', y) ∧ m.child s.flip x' ≠ some y := by
  induction ctx generalizing t x fuel with
  | nil => simp at hy
  | cons f ctx ih =>
    obtain ⟨fuel, rfl⟩ : ∃ k, fuel = k + 1 := ⟨fuel - 1, by simp at hfuel; omega⟩
    have hlen : ctx.length ≤ fuel := by simpa using hfuel
    rw [climb]
    simp only [anchor, hm.child_eq_iff hx]
    obtain ⟨fs, p, c, u⟩ := f
    rcases Side.eq_or s fs with rfl | rfl
    · rw [aft_cons] at hy
      obtain ⟨rfl, -⟩ := List.cons.inj hy
      exact ⟨x, by simp, fun e => (hm.child_mem hx e).2.2 (by simp [names])⟩
    · rw [aft_cons_flip] at hy
      obtain ⟨x', hclimb, hne⟩ := ih (t := branch s.flip p c t u) hm (root_branch ..) hy hlen
      refine ⟨x', ?_, hne⟩
      rw [if_pos rfl, (hm.above).2.1]
      exact hclimb

theorem climb_root (fuel : ℕ) {t : RedBlackTree.Tree ℕ} {x : ℕ} (hm : Holds m h (plug ctx t))
    (hx : t.root = some x)
    (hy : aft s ctx = []) :
    ∃ r, m.parent h = some r
      ∧ climb s.flip (ctx.length + fuel) m x (anchor h ctx) = climb s.flip fuel m r h := by
  induction ctx generalizing t x with
  | nil => exact ⟨x, hm.rep.1.trans hx, by simp [anchor]⟩
  | cons f ctx ih =>
    obtain ⟨fs, p, c, u⟩ := f
    rcases Side.eq_or s fs with rfl | rfl
    · simp [aft_cons] at hy
    · rw [aft_cons_flip] at hy
      obtain ⟨r, hr, hclimb⟩ := ih (t := branch s.flip p c t u) hm (root_branch ..) hy
      refine ⟨r, hr, ?_⟩
      rw [length_cons, Nat.add_right_comm, climb]
      simp only [anchor, hm.child_eq_iff hx, if_true, (hm.above).2.1]
      exact hclimb

theorem extreme_next {c : Color} {x y fuel : ℕ} {a b : RedBlackTree.Tree ℕ}
    (hm : Holds m h (plug ctx (branch s x c a b))) (hy : m.child s.flip x = some y)
    (hfuel : b.toList.length ≤ fuel) :
    ∃ z l, walk s b = z :: l ∧ extreme s fuel m y = some z := by
  obtain ⟨-, -, -, hkb, -, hsb⟩ := sub_branch.mp (rep_plug.mp hm.rep).1
  obtain ⟨ctx', z, d, u, rfl, hside, hext⟩ := extreme_eq (s := s) hsb (hkb ▸ hy) hfuel
  refine ⟨z, walk s u ++ aft s ctx', ?_, hext⟩
  rw [walk_plug, fore_eq_nil hside, walk_branch, walk_nil]
  rfl

/-- What comes after a node of the order, when the header stands at its end. -/
theorem split_next {T : RedBlackTree.Tree ℕ} {x y : ℕ} {A B : List ℕ} (hm : Holds m h T)
    (hxy : T.toList ++ [h] = A ++ x :: y :: B) :
    ∃ ctx c l r, T = plug ctx (.node x c l r) ∧ A = before ctx ++ l.toList
      ∧ (r.toList ++ after ctx).headD h = y := by
  obtain ⟨C, b, hC⟩ := (eq_nil_or_concat (y :: B)).resolve_left (by simp)
  rw [concat_eq_append] at hC
  rw [hC, ← List.cons_append, ← List.append_assoc] at hxy
  obtain ⟨hL, hb⟩ := append_inj' hxy rfl
  obtain ⟨rfl⟩ := List.cons.inj hb
  have hxin : x ∈ T.toList := by simp [hL]
  obtain ⟨ctx, c, l, r, rfl⟩ := exists_plug hxin
  refine ⟨ctx, c, l, r, rfl, ?_⟩
  have hnd := (nodup_cons.mp hm.nodup).2
  have hsplit : (plug ctx (.node x c l r)).toList =
    (before ctx ++ l.toList) ++ x :: (r.toList ++ after ctx) := by
    simp [toList_plug, toList]
  rw [hL] at hnd hsplit
  have hA : x ∉ A := not_mem_of_nodup hnd
  have hx : x ∉ C := (nodup_cons.mp (nodup_append.mp hnd).2.1).1
  obtain ⟨hA', -, hC'⟩ := (append_cons_inj_of_notMem hA hx).mp hsplit
  refine ⟨hA', ?_⟩
  rw [← hC']
  cases C with
  | nil      => exact (List.cons.inj hC).1.symm
  | cons z C => exact (List.cons.inj hC).1.symm

/-- **Increment**: the node after the last is the header. -/
theorem increment_eq {T : RedBlackTree.Tree ℕ} {x y fuel : ℕ} {A B : List ℕ} (hm : Holds m h T)
    (he : Ends m h T) (hxy : T.toList ++ [h] = A ++ x :: y :: B) (hfuel : T.toList.length + 1 < fuel) :
    increment fuel m x = some y := by
  obtain ⟨ctx, c, l, r, rfl, -, hy⟩ := split_next hm hxy
  have hb : Holds m h (plug ctx (branch .left x c l r)) := hm
  have hlen := length_le_plug ctx (.node x c l r)
  simp only [toList, length_append, length_cons] at hlen
  have hkr : m.child .right x = r.root := hb.child.2
  rw [increment, hkr]
  cases hr : r.root with
  | some z =>
    obtain ⟨w, l', hw, hext⟩ := extreme_next hb (hkr.trans hr) (show r.toList.length ≤ fuel by omega)
    have hw : r.toList = w :: l' := hw
    rw [hw] at hy
    exact hext.trans (congrArg some hy)
  | none =>
    rw [root_eq_none.mp hr, toList_nil, nil_append] at hy
    simp only [hm.parent (t := .node x c l r) rfl, Option.bind_eq_bind, Option.bind_some]
    cases haft : aft .left ctx with
    | cons z l' =>
      obtain ⟨x', hclimb, hne⟩ := climb_next hm (t := .node x c l r) rfl haft
        (show ctx.length ≤ fuel by omega)
      have hclimb : climb .right fuel m x (anchor h ctx) = some (x', z) := hclimb
      have hzy : z = y := by
        rw [← hy, show after ctx = z :: l' from haft]
        rfl
      have hne : m.child .right x' ≠ some z := hne
      simp only [hclimb, Option.bind_some]
      rw [if_pos hne, hzy]
    | nil =>
      have hyh : y = h := by
        rw [← hy, show after ctx = [] from haft]
        rfl
      obtain ⟨k, rfl⟩ : ∃ k, fuel = ctx.length + (k + 2) := ⟨fuel - ctx.length - 2, by omega⟩
      obtain ⟨e, hroot, hclimb⟩ :=
        climb_root (k + 2) hm (t := .node x c l r) rfl haft
      have hclimb : climb .right (ctx.length + (k + 2)) m x (anchor h ctx)
          = climb .right (k + 2) m e h := hclimb
      have hT := hm.rep.1.symm.trans hroot
      have hm₀ : Holds m h (plug [] (plug ctx (.node x c l r))) := hm
      have hne : m.child .right e ≠ some h := fun e' =>
        (hm₀.child_mem hT e').2.1 rfl
      rw [hclimb, climb]
      by_cases hend : m.child .right h = some e
      · -- the root is the last node, and the way goes once around
        simp only [if_pos hend, hroot, Option.bind_eq_bind, Option.bind_some, climb, if_neg hne]
        rw [if_neg (by simp [hend]), hyh]
      · simp only [if_neg hend, Option.bind_some]
        rw [if_pos hne, hyh]

/-- **Decrement**: the node before the header is the last. -/
theorem decrement_eq {T : RedBlackTree.Tree ℕ} {x y fuel : ℕ} {A B : List ℕ} (hm : Holds m h T)
    (he : Ends m h T) (hT : RedBlack T) (hh : m.color h = .red) (hxy : T.toList ++ [h] = A ++ x :: y :: B)
    (hfuel : T.toList.length < fuel) : decrement fuel m y = some x := by
  cases B with
  | nil =>
    -- the header
    have hxy' : T.toList ++ [h] = (A ++ [x]) ++ [y] := by simpa using hxy
    obtain ⟨hL, hb⟩ := append_inj' hxy' rfl
    obtain ⟨rfl⟩ := List.cons.inj hb
    obtain ⟨r, hr⟩ : ∃ r, T.root = some r := by
      cases T with
      | nil          => simp at hL
      | node r _ _ _ => exact ⟨r, rfl⟩
    have hm₀ : Holds m h (plug [] T) := hm
    have hp : m.parent r = some h := hm₀.parent hr
    have hlast : m.child .right h = some x := by
      rw [he .right, walk, hL]
      simp
    simp [decrement, isHeader, hh, hm.rep.1, hr, hp, hlast]
  | cons y' B =>
    have hxy' : T.toList ++ [h] = (A ++ [x]) ++ y :: y' :: B := by simpa using hxy
    obtain ⟨ctx, c, l, r, rfl, hA, -⟩ := split_next hm hxy'
    have hb : Holds m h (plug ctx (branch .right y c r l)) := hm
    have hlen := length_le_plug ctx (.node y c l r)
    simp only [toList, length_append, length_cons] at hlen
    have hkl : m.child .left y = l.root := hb.child.2
    have hp := hm.parent (t := .node y c l r) rfl
    have hheader : isHeader m y = some false := by
      rw [isHeader, hp]
      split_ifs with hred
      · simp only [Option.bind_eq_bind, Option.bind_some, Option.some_inj, decide_eq_false_iff_not]
        cases ctx with
        | nil =>
          obtain ⟨n, hn⟩ := hT
          have hc := hn.color_eq
          rw [plug_nil] at hc
          have hm₀ : Holds m h (plug [] (.node y c l r)) := hm
          rw [hm₀.color rfl, hc] at hred
          cases hred
        | cons f ctx =>
          rw [show anchor h (f :: ctx) = f.name from rfl, (hm.above).2.1]
          obtain ⟨hyh, hyc⟩ := (nodup_plug.mp hm.nodup).2.2 y (by simp [toList])
          cases ctx with
          | nil => exact fun e => hyh (Option.some_inj.mp e).symm
          | cons g ctx =>
            intro e
            have hg : g.name = y := Option.some_inj.mp e
            exact hyc (by simp [names, hg])
      · rfl
    simp only [decrement, hheader, hkl, Option.bind_eq_bind, Option.bind_some]
    cases hl : l.root with
    | some z =>
      obtain ⟨w, l', hw, hext⟩ := extreme_next hb (hkl.trans hl) (show l.toList.length ≤ fuel by omega)
      have hw : l.toList.reverse = w :: l' := hw
      rw [reverse_eq_cons_iff.mp hw, ← List.append_assoc] at hA
      obtain ⟨-, hx⟩ := append_inj' hA rfl
      obtain ⟨rfl⟩ := List.cons.inj hx
      exact hext
    | none =>
      rw [root_eq_none.mp hl, toList_nil, append_nil] at hA
      have haft : aft .right ctx = x :: A.reverse := by
        rw [aft, ← hA, List.reverse_append]
        rfl
      obtain ⟨x', hclimb, -⟩ := climb_next hm (t := .node y c l r) rfl haft (show ctx.length ≤ fuel by omega)
      have hclimb : climb .left fuel m y (anchor h ctx) = some (x', x) := hclimb
      simp [hp, hclimb]

end SourceLibs.SgiStl
