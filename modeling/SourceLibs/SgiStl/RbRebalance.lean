import SourceLibs.SgiStl.RbTree

/-!
# SGI STL — rebalancing after an insertion

* `rotate_rotates`: what a rotation does to the tree.
* `rebalance_moves`: the tree with a new red leaf is made a red-black tree again.
-/

namespace SourceLibs.SgiStl

open RedBlackTree RedBlackTree.Tree

variable {m : Mem ℕ} {h : ℕ} {ctx : List (Frame ℕ)} {s : Side}

/-! ### Rotations -/

theorem replace_eq {x : ℕ} {q : Option ℕ} (hh : Hole m h ctx (some x))
    (hp : m.parent x = some (anchor h ctx)) (hx : x ∉ names ctx) :
    replace s h m x q = some (m.setLink h ctx q) := by
  cases ctx with
  | nil =>
    rw [replace, if_pos (show m.parent h = some x from hh)]
    rfl
  | cons f ctx =>
    have hroot := hh.header_ne hx
    obtain ⟨-, -, hk, hkf, -, -⟩ := hh
    have hsib : f.sibling.root ≠ some x := fun e =>
      hx (by simp [names, mem_toList_of_root e])
    rw [replace, if_neg hroot, hp]
    simp only [anchor, Option.bind_eq_bind, Option.bind_some, Mem.setLink]
    rcases Side.eq_or s f.side with hs | hs
    · rw [hs] at hk ⊢
      rw [if_pos hk]
    · rw [hs, Side.flip_flip] at hkf
      rw [hs, if_neg (hkf ▸ hsib)]

theorem rotate_rotates : Rotates (rotate · h) h := by
  intro s m ctx x y cx cy a b c hm
  have hr' := hm.rep
  have hnd' := hm.nodup
  rw [rep_plug, sub_branch, sub_branch, Side.flip_flip, root_branch, root_branch] at hr'
  obtain ⟨⟨-, hpx, hxy, -, ⟨-, -, hyb, -, -, -⟩, -⟩, hhole⟩ := hr'
  rw [nodup_plug, nodup_branch, nodup_branch] at hnd'
  simp only [mem_branch, not_or] at hnd'
  obtain ⟨⟨⟨hne, hxb, -⟩, -, ⟨hyb', -⟩, -⟩, hctx, hout⟩ := hnd'
  have hbx : b.root ≠ some x := fun e => hxb (mem_toList_of_root e)
  have hby : b.root ≠ some y := fun e => hyb' (mem_toList_of_root e)
  have hxo := hout x (.inl rfl)
  have hyo := hout y (.inr (.inl (.inl rfl)))
  have hbo : ∀ k, b.root = some k → k ≠ h ∧ k ∉ names ctx := fun k e =>
    hout k (.inr (.inl (.inr (.inl (mem_toList_of_root e)))))
  -- the memory before `y` takes the place of `x`
  obtain ⟨m₁, hm₁, hcol, hpar, hchi⟩ : ∃ m₁, ((m.setChild x s.flip b.root).setParent? b.root
      (some x)).setParent y (some (anchor h ctx)) = m₁ ∧ m₁.color = m.color
      ∧ (∀ n, m₁.parent n = if n = y then some (anchor h ctx)
          else if b.root = some n then some x else m.parent n)
      ∧ ∀ s' n, m₁.child s' n = if s' = s.flip ∧ n = x then b.root else m.child s' n := by
    refine ⟨_, rfl, ?_, fun n => ?_, fun s' n => ?_⟩ <;> simp
  have hhole₁ : Hole m₁ h ctx (some x) := by
    refine hhole.congr ?_ fun k hk => ⟨by rw [hcol], ?_, fun s' => ?_⟩
    · rw [hpar, if_neg hyo.1.symm, if_neg fun e => (hbo h e).1 rfl]
    · rw [hpar, if_neg (ne_of_mem_of_not_mem hk hyo.2), if_neg fun e => (hbo k e).2 hk]
    · rw [hchi, if_neg (by simp [ne_of_mem_of_not_mem hk hxo.2])]
  have hpx₁ : m₁.parent x = some (anchor h ctx) := by
    rw [hpar, if_neg hne, if_neg hbx, hpx]
  refine ⟨((m₁.setLink h ctx (some y)).setChild y s (some x)).setParent x (some y), ?_, ?_⟩
  · have hpx' : ((m.setChild x s.flip b.root).setParent? b.root (some x)).parent x
        = some (anchor h ctx) := by
      simp [hpx, hbx]
    have hyb₁ : (m.setChild x s.flip b.root).child s y = b.root := by simp [hyb]
    simp only [rotate, hxy, hyb, hyb₁, Option.bind_eq_bind, Option.bind_some, hpx', hm₁,
      replace_eq hhole₁ hpx₁ hxo.2]
  · refine hm.rotate ?_ (fun n => ?_) fun s' n => ?_
    · simp [Mem.setLink_color, hcol]
    · have hlink : (m₁.setLink h ctx (some y)).parent n =
          if n = y then some (anchor h ctx) else if b.root = some n then some x
          else (m.setLink h ctx (some y)).parent n := by
        cases ctx with
        | nil =>
          by_cases hnh : n = h
          · subst hnh
            have hbn : b.root ≠ some n := fun e => (hbo n e).1 rfl
            simp [Mem.setLink, hyo.1.symm, hbn]
          · simp [Mem.setLink, hnh, hpar]
        | cons f ctx => simp [Mem.setLink, hpar]
      simp [hlink]
    · have hlink : (m₁.setLink h ctx (some y)).child s' n =
          if s' = s.flip ∧ n = x then b.root else (m.setLink h ctx (some y)).child s' n := by
        cases ctx with
        | nil => simp [Mem.setLink, hchi]
        | cons f ctx =>
          have hfx : f.name ≠ x := fun e => hxo.2 (by simp [names, e])
          by_cases hnf : n = f.name
          · simp [Mem.setLink, hnf, hchi, hfx]
          · simp [Mem.setLink, hnf, hchi]
      rw [Mem.setParent_child, Mem.setChild_child, hlink]
      by_cases hs : s' = s
      · simp [hs]
      · simp [hs]

/-! ### The loop -/

theorem raiseParent_moves {p g x n : ℕ} {t u v : RedBlackTree.Tree ℕ}
    (hm : Holds m h (plug (⟨s, p, .red, u⟩ :: ⟨s, g, .black, v⟩ :: ctx) t)) (hx : t.root = some x)
    (ht : Balanced .red n t) (hu : Balanced .black n u) (hv : Balanced .black n v)
    (hctx : Above .black (n + 1) ctx) :
    ∃ m' ctx', raiseParent s h m x = some (m', x) ∧ RedAt ctx' t ∧ ctx'.length = ctx.length + 1
      ∧ Moves m m' h (plug (⟨s, p, .red, u⟩ :: ⟨s, g, .black, v⟩ :: ctx) t) (plug ctx' t) := by
  have hp : m.parent x = some p := hm.parent hx
  have h₁ : Moves m (m.setColor p .black) h _ (plug (⟨s, g, .black, v⟩ :: ctx) (branch s p .black t u)) :=
    Holds.setColor (⟨s, g, .black, v⟩ :: ctx) .black hm
  have hg : (m.setColor p .black).parent p = some g := h₁.holds.parent (root_branch ..)
  have h₂ : Moves (m.setColor p .black) ((m.setColor p .black).setColor g .red) h _
      (plug ctx (branch s g .red (branch s p .black t u) v)) :=
    Holds.setColor ctx .red h₁.holds
  obtain ⟨m', hrot, h₃⟩ := rotate_rotates.flip h₂.holds
  refine ⟨m', ⟨s, p, .black, branch s g .red u v⟩ :: ctx, ?_, ⟨n, ht, ?_⟩, rfl, ?_⟩
  · simp only [raiseParent, hp, hg, hrot, Option.bind_eq_bind, Option.bind_some]
  · exact .black (.branch_red s g hu hv) hctx
  · exact (h₁.trans h₂).trans h₃

theorem rebalanceStep_moves {f g : Frame ℕ} {t : RedBlackTree.Tree ℕ} {x : ℕ}
    (hm : Holds m h (plug (f :: g :: ctx) t)) (hx : t.root = some x) (hf : f.color = .red)
    (ht : RedAt (f :: g :: ctx) t) :
    ∃ m' x' ctx' t', rebalanceStep g.side h m x f.name g.name = some (m', x') ∧ t'.root = some x'
      ∧ RedAt ctx' t' ∧ ctx'.length < ctx.length + 2
      ∧ Moves m m' h (plug (f :: g :: ctx) t) (plug ctx' t') := by
  obtain ⟨n, hn, ha⟩ := ht
  obtain ⟨hu, g', ctx', d, hg, hgc, hv, hctx⟩ := ha.of_red hf
  obtain ⟨rfl, rfl⟩ := List.cons.inj hg
  obtain ⟨fs, p, fc, u⟩ := f
  obtain ⟨s, gn, gc, v⟩ := g
  cases hf
  cases hgc
  have hg : Holds m h (plug (⟨s, gn, .black, v⟩ :: ctx) (branch fs p .red t u)) := hm
  obtain ⟨-, -, -, huncle⟩ := hg.above
  obtain ⟨-, -, -, hfar⟩ := hm.above
  simp only at huncle hfar hv hu
  simp only [rebalanceStep, huncle]
  cases d with
  | red =>
    -- the uncle is red: three nodes take other colours
    have hred : isBlack m v.root = false := by
      rw [isBlack_sibling hg]
      simp [hv.color_eq]
    have h₁ : Moves m (m.setColor p .black) h _
        (plug (⟨s, gn, .black, v⟩ :: ctx) (branch fs p .black t u)) :=
      Holds.setColor (⟨s, gn, .black, v⟩ :: ctx) .black hm
    have h₂ := setColor?_sibling .black h₁.holds
    have h₃ := Holds.setColor ctx .red h₂.holds
    refine ⟨_, gn, ctx, _, by rw [if_pos hred], root_branch .., ⟨n + 1, ?_, hctx⟩, by omega,
      (h₁.trans h₂).trans h₃⟩
    exact .branch_red s gn (.branch_black fs p hn hu) hv.paint_black
  | black =>
    have hblack : isBlack m v.root = true := by
      rw [isBlack_sibling hg]
      simp [hv.color_eq]
    rw [if_neg (by simp [hblack])]
    rcases Side.eq_or s fs with rfl | rfl
    · -- the outer case
      obtain ⟨m', ctx', hraise, hred, hlen, h₁⟩ := raiseParent_moves hm hx hn hu hv hctx
      refine ⟨m', x, ctx', t, ?_, hx, hred, by omega, h₁⟩
      rw [hfar, if_neg (hm.sibling_ne (mem_toList_of_root hx)), hraise]
    · -- the inner case: the node and its parent change places first
      obtain ⟨c, a, b, rfl⟩ := eq_branch_of_root s hx
      obtain rfl : c = .red := by rw [← hn.color_eq, color_branch]
      obtain ⟨-, ha, hb⟩ := hn.of_branch_red
      have hnear := (hm.above).2.2.1
      have hm' : Holds m h (plug (⟨s, gn, .black, v⟩ :: ctx)
        (branch s.flip p .red (branch s x .red a b) u)) := hm
      obtain ⟨m₁, hrot, h₁⟩ := rotate_rotates hm'
      have hrot : rotate s h m p = some m₁ := hrot
      obtain ⟨m', ctx', hraise, hred, hlen, h₂⟩ := raiseParent_moves (t := branch s p .red u a) (u := b)
        h₁.holds (root_branch ..) (.branch_red s p hu ha) hb hv hctx
      refine ⟨m', p, ctx', _, ?_, root_branch .., hred, by omega, h₁.trans h₂⟩
      rw [hnear, root_branch, if_pos rfl, hrot, Option.bind_eq_bind, Option.bind_some, hraise]

theorem rebalanceLoop_moves {fuel : ℕ} : ∀ {m : Mem ℕ} {ctx : List (Frame ℕ)}
    {t : RedBlackTree.Tree ℕ} {x : ℕ}, Holds m h (plug ctx t) → t.root = some x → RedAt ctx t →
    ctx.length < fuel →
    ∃ m' T, rebalanceLoop h fuel m x = some m' ∧ Moves m m' h (plug ctx t) T
      ∧ RedBlack (T.paint .black) := by
  induction fuel with
  | zero => exact fun _ _ _ hf => absurd hf (Nat.not_lt_zero _)
  | succ fuel ih =>
    intro m ctx t x hm hx ht hfuel
    cases ctx with
    | nil =>
      obtain ⟨n, hn, -⟩ := ht
      refine ⟨m, t, ?_, .refl hm, n + 1, hn.paint_black⟩
      rw [rebalanceLoop, if_pos (hm.rep.1.trans hx)]
    | cons f ctx =>
      rw [rebalanceLoop, if_neg (hm.header_ne hx), hm.parent hx]
      obtain ⟨hcolor, hparent, -, -⟩ := hm.above
      simp only [anchor, Option.bind_eq_bind, Option.bind_some, hcolor, hparent]
      cases hf : f.color with
      | black =>
        obtain ⟨n, hn, ha⟩ := ht
        have hred := (Above.red_iff.mpr ⟨ha, hf⟩).plug hn
        exact ⟨m, _, by simp, .refl hm, by rwa [hred.paint_eq]⟩
      | red =>
        obtain ⟨g, ctx', rfl⟩ : ∃ g ctx', ctx = g :: ctx' := by
          obtain ⟨n, -, ha⟩ := ht
          obtain ⟨-, g, ctx', -, rfl, -⟩ := ha.of_red hf
          exact ⟨g, ctx', rfl⟩
        have hside : (if m.child .left g.name = some f.name then Side.left else .right) = g.side := by
          have hg : Holds m h (plug (g :: ctx') (branch f.side f.name f.color t f.sibling)) := hm
          have := hg.child_eq_iff (root_branch ..) .left
          cases hs : g.side <;> simp [this, hs]
        obtain ⟨m₁, x₁, ctx₁, t₁, hstep, hx₁, ht₁, hlen, h₁⟩ := rebalanceStep_moves hm hx hf ht
        obtain ⟨m', T, hloop, h₂, hT⟩ := ih h₁.holds hx₁ ht₁ (by simp at hfuel; omega)
        refine ⟨m', T, ?_, h₁.trans h₂, hT⟩
        simp only [if_true, hside, hstep, Option.bind_some, hloop]

/-- **Rebalancing** a tree that is red-black but for the colour of a new leaf. -/
theorem rebalance_moves {fuel x : ℕ} {c : Color} (hm : Holds m h (plug ctx (.node x c .nil .nil)))
    (hctx : Above .black 0 ctx) (hfuel : ctx.length < fuel) :
    ∃ m' T, rebalance fuel h m x = some m' ∧ RedBlack T
      ∧ Moves m m' h (plug ctx (.node x c .nil .nil)) T := by
  have h₁ : Moves m (m.setColor x .red) h _ (plug ctx (.node x .red .nil .nil)) :=
    Holds.setColor ctx .red (s := .left) hm
  have hleaf : RedAt ctx (.node x .red .nil .nil) := ⟨0, .red .nil .nil, hctx⟩
  obtain ⟨m₂, T, hloop, h₂, hT⟩ := rebalanceLoop_moves h₁.holds rfl hleaf hfuel
  have hx : x ∈ T.toList := by
    rw [h₂.toList, mem_plug]
    simp [toList]
  obtain ⟨r, hr⟩ : ∃ r, T.root = some r := by
    cases T with
    | nil          => cases hx
    | node r _ _ _ => exact ⟨r, rfl⟩
  have h₃ : Moves m₂ (m₂.setColor? T.root .black) h (plug [] T) (plug [] (T.paint .black)) :=
    setColor?_moves .black h₂.holds
  rw [hr] at h₃
  refine ⟨m₂.setColor r .black, T.paint .black, ?_, hT, (h₁.trans h₂).trans h₃⟩
  simp only [rebalance, hloop, Option.bind_eq_bind, Option.bind_some, h₂.holds.rep.1, hr]

end SourceLibs.SgiStl
