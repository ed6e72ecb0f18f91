import SourceLibs.SgiStl.RbRebalance

/-!
# SGI STL — removal

* `eraseLoop_moves`: the loop makes the tree a red-black tree again.
* `unlink_holds`: how a node is taken out.
* `rebalanceForErase_holds`: both together.
-/

namespace SourceLibs.SgiStl
open List

open RedBlackTree RedBlackTree.Tree

variable {m : Mem ℕ} {h : ℕ} {ctx : List (Frame ℕ)} {s : Side} {t : RedBlackTree.Tree ℕ}

/-! ### The loop -/

theorem eraseStep_eq (s : Side) (h : ℕ) (m : Mem ℕ) (xp : ℕ) :
    eraseStep s h m xp = repairStep (rotate · h) s m xp := by
  -- the two have the same steps, nested in different ways
  simp only [eraseStep, repairStep, repairSibling, Option.bind_eq_bind]
  cases m.child s.flip xp with
  | none => rfl
  | some w =>
    simp only [Option.bind_some]
    split_ifs with hred hboth hfar
    · cases hr : rotate s h ((m.setColor w .black).setColor xp .red) xp with
      | none => rfl
      | some m₁ =>
        cases hw : m₁.child s.flip xp with
        | none => simp [hw]
        | some w₁ =>
          simp only [hw, Option.bind_some, repairFar, repairLast, Option.bind_eq_bind]
          split_ifs <;> simp [Option.bind_assoc]
    · simp [hboth]
    · simp only [Option.bind_some, if_neg hboth, repairFar, repairLast, if_pos hfar,
        Option.bind_eq_bind, Option.bind_assoc]
    · simp only [Option.bind_some, if_neg hboth, repairFar, repairLast, if_neg hfar]

theorem eraseLoop_moves {fuel : ℕ} : ∀ {m : Mem ℕ} {ctx : List (Frame ℕ)} {t : RedBlackTree.Tree ℕ},
    Holds m h (plug ctx t) → Lacks ctx t → 0 < fuel → (t.color = .black → ctx.length < fuel) →
    ∃ m' ctx' t', eraseLoop h fuel m t.root (some (anchor h ctx)) = some (m', t'.root)
      ∧ RedBlack (plug ctx' (t'.paint .black)) ∧ Moves m m' h (plug ctx t) (plug ctx' t') := by
  induction fuel with
  | zero => exact fun _ _ h0 => absurd h0 (Nat.lt_irrefl 0)
  | succ fuel ih =>
    intro m ctx t hm ht _ hfuel
    rw [eraseLoop, isBlack_root hm]
    cases hc : t.color with
    | red => exact ⟨m, ctx, t, by rw [if_neg (by simp)], ht.of_red hc, .refl hm⟩
    | black =>
      cases ctx with
      | nil => exact ⟨m, [], t, by rw [if_neg (by simp [hm.rep.1])], ht.of_nil, .refl hm⟩
      | cons f ctx =>
        obtain ⟨n, hctx, hblack, -⟩ := ht
        obtain ⟨w, hw⟩ := hctx.exists_sibling
        have hne : t.root ≠ m.parent h := by
          cases hx : t.root with
          | none   => exact fun e => hm.header_ne_none e.symm
          | some x => exact (hm.header_ne hx).symm
        have hside : (if t.root = m.child .left f.name then Side.left else .right) = f.side := by
          have := hm.side_iff (by simp [hw]) .left
          cases hs : f.side <;> simp [this, hs]
        rw [if_pos ⟨hne, by simp⟩]
        simp only [anchor, Option.bind_eq_bind, Option.bind_some, hside, eraseStep_eq]
        rcases repairStep_moves rotate_rotates hm (hblack hc) hctx with
          ⟨m', ctx', hstep, hrb, h₁⟩ | ⟨m₁, ctx₁, t₁, hstep, hroot, ht₁, hdec, h₁⟩
        · refine ⟨m', ctx', t, ?_, ?_, h₁⟩
          · rw [hstep, Option.bind_some]
          · rwa [(hblack hc).paint_eq]
        · have hlen : ctx.length < fuel := by simpa using hfuel hc
          have hlen₁ : t₁.color = .black → ctx₁.length < fuel := fun hblack₁ => by
            rwa [hdec.resolve_left (by simp [hblack₁])]
          obtain ⟨m', ctx', t', hloop, hrb, h₂⟩ := ih h₁.holds ht₁ (by omega) hlen₁
          refine ⟨m', ctx', t', ?_, hrb, h₁.trans h₂⟩
          simp only [hstep, Option.bind_some, ← hroot, hloop]

/-! ### Taking a node out -/

/-- The node at the end of a tree on one side. -/
theorem extreme_eq {s : Side} {m : Mem ℕ} :
    ∀ {p x fuel : ℕ},
    Sub m t p → t.root = some x → t.toList.length ≤ fuel →
    ∃ ctx y c b, t = plug ctx (branch s y c .nil b) ∧ (∀ f ∈ ctx, f.side = s)
      ∧ extreme s fuel m x = some y := by
  induction t with
  | nil => exact fun _ hx => nomatch hx
  | node n c l r ihl ihr =>
    intro p x fuel hsub hx hfuel
    cases hx
    obtain ⟨a, b, hab⟩ := node_eq_branch s n c l r
    have iha : ∀ {p x fuel : ℕ}, Sub m a p → a.root = some x → a.toList.length ≤ fuel →
        ∃ ctx y c b, a = plug ctx (branch s y c .nil b) ∧ (∀ f ∈ ctx, f.side = s)
          ∧ extreme s fuel m x = some y := by
      cases s <;> cases hab <;> assumption
    rw [hab] at hsub hfuel ⊢
    rw [(toList_perm_branch s n c a b).length_eq, length_cons, length_append] at hfuel
    obtain ⟨-, -, ha, -, hsa, -⟩ := sub_branch.mp hsub
    obtain ⟨fuel, rfl⟩ : ∃ k, fuel = k + 1 := ⟨fuel - 1, by omega⟩
    rw [extreme, ha]
    cases hroot : a.root with
    | none =>
      rw [root_eq_none] at hroot
      subst hroot
      exact ⟨[], n, c, b, rfl, by simp, rfl⟩
    | some y =>
      have hle : a.toList.length ≤ fuel := by omega
      obtain ⟨ctx, z, d, u, rfl, hside, hext⟩ := iha hsa hroot hle
      refine ⟨ctx ++ [⟨s, n, c, b⟩], z, d, u, ?_, ?_, hext⟩
      · rw [plug_append, plug_cons, plug_nil]
      · simpa [or_imp, forall_and] using hside

theorem updateEnd_eq (s' : Side) {c : Color} {z fuel : ℕ} (hm : Holds m h (plug ctx t))
    (hz : z ∉ (plug ctx t).toList) (hk : m.child s z = t.root) (hkf : m.child s.flip z = none)
    (hp : m.parent z = some (anchor h ctx))
    (he : m.child s' h = some ((walk s' (plug ctx (branch s z c t .nil))).headD h))
    (hfuel : t.toList.length ≤ fuel) :
    updateEnd s' fuel h m z t.root = some (m.setChild h s' (some ((walk s' (plug ctx t)).headD h))) := by
  have hmem : ∀ x, x ∈ walk s' (plug ctx t) → x ≠ z := fun x hx e => hz (e ▸ mem_walk.mp hx)
  rw [walk_plug] at he hmem ⊢
  rw [updateEnd, he]
  cases hf : fore s' ctx with
  | cons x l =>
    have hxz := hmem x (by simp [hf])
    rw [hf] at he
    rw [if_neg (by simpa using hxz), Mem.setChild_self (by simpa using he)]
  | nil =>
    rw [hf] at he
    rcases Side.eq_or s s' with rfl | rfl
    · rw [walk_branch, walk_nil] at he ⊢
      cases hw : walk s' t with
      | cons x l =>
        have hxz := hmem x (by simp [hw])
        rw [hw] at he
        rw [if_neg (by simpa using hxz), Mem.setChild_self (by simpa using he)]
      | nil =>
        rw [if_pos (by simp), if_pos hkf, hp, nil_append, nil_append, headD_aft hf]
    · rw [walk_flip_branch, walk_nil] at he ⊢
      rw [if_pos (by simp), Side.flip_flip, hk]
      cases hx : t.root with
      | none =>
        rw [if_pos rfl, hp, root_eq_none.mp hx, walk_nil, nil_append, nil_append,
          headD_aft hf]
      | some x =>
        -- the child stands at the end in place of `z`
        obtain ⟨ctx', y, d, b, ht, hside, hext⟩ :=
          extreme_eq (s := s.flip) (rep_plug.mp hm.rep).1 hx hfuel
        rw [if_neg (by simp)]
        simp only [Option.bind_eq_bind, Option.bind_some, hext]
        rw [ht, walk_plug, fore_eq_nil hside, walk_branch, walk_nil]
        rfl

/-- A node with at most one child is taken out. -/
theorem unlink_one {c : Color} {z fuel : ℕ} (hm : Holds m h (plug ctx (branch s z c t .nil)))
    (he : Ends m h (plug ctx (branch s z c t .nil))) (hfuel : t.toList.length ≤ fuel) :
    ∃ m', unlink fuel h m z = some (m', t.root, some (anchor h ctx)) ∧ Holds m' h (plug ctx t)
      ∧ Ends m' h (plug ctx t) ∧ m'.color = m.color
      ∧ ∀ n, n ≠ h → n ∉ (plug ctx (branch s z c t .nil)).toList → m.Same m' n := by
  obtain ⟨hk, hkf⟩ := hm.child
  have hp := hm.parent (root_branch ..)
  obtain ⟨hnd, hctx, hout⟩ := nodup_plug.mp hm.nodup
  obtain ⟨hzt, -⟩ := nodup_branch.mp hnd
  obtain ⟨hzh, hzc⟩ := hout z (by simp)
  have hroot : ∀ n, t.root = some n → n ∈ t.toList := fun n => mem_toList_of_root
  have hto : ∀ n, t.root = some n → n ≠ h ∧ n ∉ names ctx := fun n e => hout n (by simp [hroot n e])
  have hz : z ∉ (plug ctx t).toList := by simp [mem_plug, hzt, hzc]
  have htarget : target fuel m z = some (z, t.root) := by
    rw [target]
    cases s with
    | left =>
      rw [hk, show m.child .right z = none from hkf]
      cases t.root <;> rfl
    | right => rw [hk, show m.child .left z = none from hkf]
  -- `z` gives its place to its child
  have hole : Hole (m.setParent? t.root (some (anchor h ctx))) h ctx (some z) := by
    have hh := (rep_plug.mp hm.rep).2
    rw [root_branch] at hh
    refine hh.congr ?_ fun n hn => ⟨by simp, ?_, fun s' => by simp⟩
    · rw [Mem.setParent?_parent, if_neg fun e => (hto h e).1 rfl]
    · rw [Mem.setParent?_parent, if_neg fun e => (hto n e).2 hn]
  have hpz : (m.setParent? t.root (some (anchor h ctx))).parent z = some (anchor h ctx) := by
    rw [Mem.setParent?_parent, if_neg fun e => hzt (hroot z e), hp]
  have hrep := replace_eq (s := .left) (q := t.root) hole hpz hzc
  obtain ⟨m₁, hm₁, hcol, hchild, hpar⟩ : ∃ m₁, (m.setParent? t.root (some (anchor h ctx))).setLink h ctx
      t.root = m₁ ∧ m₁.color = m.color ∧ (∀ n s', n ∉ names ctx → m₁.child s' n = m.child s' n)
      ∧ ∀ n, n ≠ h → t.root ≠ some n → m₁.parent n = m.parent n := by
    refine ⟨_, rfl, by simp [Mem.setLink_color], fun n s' hn => ?_, fun n hn hnt => ?_⟩
    · rw [Mem.setLink_child hn, Mem.setParent?_child]
    · rw [Mem.setLink_parent hn, Mem.setParent?_parent, if_neg hnt]
  have hold₁ := hm.unlink
  rw [hm₁] at hold₁ hrep
  have hhc : h ∉ names ctx := (nodup_cons.mp hctx).1
  have hzr : t.root ≠ some z := fun e => hzt (hroot z e)
  have hleft := updateEnd_eq .left (c := c) hold₁ hz ((hchild z s hzc).trans hk)
    ((hchild z s.flip hzc).trans hkf) ((hpar z hzh hzr).trans hp)
    ((hchild h .left hhc).trans (he .left)) hfuel
  have hold₂ := hold₁.setEnd .left (some ((walk .left (plug ctx t)).headD h))
  have hright := updateEnd_eq (s := s) .right (c := c) (z := z) hold₂ hz
    (by simp [hzh, hchild z s hzc, hk]) (by simpa [hzh, hchild z s.flip hzc] using hkf)
    (by simp [hpar z hzh hzr, hp]) (by simpa [hchild h .right hhc] using he .right) hfuel
  refine ⟨_, ?_, hold₂.setEnd .right (some ((walk .right (plug ctx t)).headD h)), fun s' => ?_, ?_,
    fun n hn hnT => ⟨?_, ?_, fun s' => ?_⟩⟩
  · simp only [unlink, htarget, Option.bind_eq_bind, Option.bind_some, ne_eq, not_true, if_false,
      unlinkSelf, hp, hrep, hleft, hright]
  · cases s' <;> simp
  · exact hcol
  · simp [hcol]
  · simp only [mem_plug, mem_branch, not_or] at hnT
    exact hpar n hn fun e => hnT.1.2.1 (hroot n e)
  · simp only [mem_plug, mem_branch, not_or] at hnT
    simp [hn, hchild n s' hnT.2]

theorem detach_eq {ctx' : List (Frame ℕ)} {z y : ℕ} {t u : RedBlackTree.Tree ℕ} (hu : u.root = some y)
    (hside : ∀ f ∈ ctx', f.side = .left) (hpy : m.parent y = some (anchor z ctx'))
    (hky : m.child .right y = t.root) (hkz : m.child .right z = (plug ctx' u).root)
    (hyt : t.root ≠ some y) (hyz : y ≠ z) (hzc : z ∉ names ctx') (hyc : y ∉ names ctx') :
    ∃ m', detach m z y t.root = some (m', some (anchor y ctx')) ∧ m'.color = m.color
      ∧ (∀ n, m'.parent n =
          if ctx' ≠ [] ∧ (plug ctx' t).root = some n then some y
          else if ctx' ≠ [] ∧ t.root = some n then some (anchor y ctx')
          else m.parent n)
      ∧ ∀ s' n, m'.child s' n =
          if s' = .right ∧ n = y then (plug ctx' t).root else (m.setLink y ctx' t.root).child s' n := by
  cases ctx' with
  | nil =>
    refine ⟨m, ?_, rfl, by simp, fun s' n => ?_⟩
    · rw [detach, if_neg (by simpa [hu] using hkz)]
      rfl
    · split_ifs with e
      · rw [e.1, e.2, hky, plug_nil]
      · rfl
  | cons f ctx' =>
    obtain ⟨fs, p, d, v⟩ := f
    obtain rfl : fs = .left := hside _ mem_cons_self
    obtain ⟨zr, hzrin, hzr⟩ := root_plug_cons ⟨.left, p, d, v⟩ ctx'
    rw [hzr] at hkz
    have hpz : z ≠ p := fun e => hzc (by simp [names, e])
    have hpy' : y ≠ p := fun e => hyc (by simp [names, e])
    have hzry : zr ≠ y := fun e => hyc (e ▸ hzrin)
    simp only [anchor] at hpy
    refine ⟨(((m.setParent? t.root (some p)).setChild p .left t.root).setChild y .right
      (some zr)).setParent zr (some y), ?_, by simp, fun n => ?_, fun s' n => ?_⟩
    · simp only [detach, hkz, ne_eq, Option.some_inj, hzry, not_false_eq_true, if_true, hpy, anchor,
        Mem.setParent?_parent, hyt, if_false, Option.bind_eq_bind, Option.bind_some]
      simp [hkz, hyz.symm]
    · have hcomm : n = zr ↔ zr = n := eq_comm
      simp [hzr, anchor, hcomm]
    · simp only [Mem.setParent_child, Mem.setChild_child, Mem.setParent?_child, hzr, Mem.setLink]

/-- The successor of a node with two children takes its place. -/
theorem relink_eq {ctx' : List (Frame ℕ)} {cz cy : Color} {z y : ℕ} {l t : RedBlackTree.Tree ℕ}
    (hm : Holds m h (plug (ctx' ++ ⟨.right, z, cz, l⟩ :: ctx) (branch .right y cy t .nil)))
    (hl : l.root ≠ none) (hside : ∀ f ∈ ctx', f.side = .left) :
    ∃ m', relink h m z y t.root = some (m', some (anchor h (ctx' ++ ⟨.right, y, cz, l⟩ :: ctx)))
      ∧ m'.color z = cy
      ∧ (∀ n, n ≠ z → m'.color n = if n = y then cz else m.color n)
      ∧ (∀ n, n ≠ z → m'.parent n =
          if n = y then some (anchor h ctx)
          else if l.root = some n ∨ (plug ctx' t).root = some n then some y
          else if t.root = some n then some (anchor y ctx')
          else (m.setLink h ctx (some y)).parent n)
      ∧ ∀ s' n, n ≠ z → m'.child s' n =
          if n = y then if s' = .right then (plug ctx' t).root else l.root
          else ((m.setLink y ctx' t.root).setLink h ctx (some y)).child s' n := by
  obtain ⟨zl, hzl⟩ := Option.ne_none_iff_exists'.mp hl
  obtain ⟨hnd, hctx, hout⟩ := nodup_plug.mp hm.nodup
  obtain ⟨hyt, -⟩ := nodup_branch.mp hnd
  have hout' := fun n hn => (hout n hn).2
  simp only [names_append, names, mem_append, mem_cons, not_or] at hout'
  obtain ⟨hyc', hyz, hyl, hyc⟩ := hout' y (by simp)
  have hyh : y ≠ h := (hout y (by simp)).1
  -- what the memory says of `y` and of `z`
  have hpy : m.parent y = some (anchor z ctx') := by
    rw [hm.parent (root_branch ..), anchor_append]
  obtain ⟨hky, -⟩ := hm.child
  have hcy := hm.color (root_branch ..)
  rw [color_branch] at hcy
  have hz : Holds m h (plug ctx (branch .right z cz (plug ctx' (branch .right y cy t .nil)) l)) := by
    have h' := hm
    rwa [plug_append, plug_cons] at h'
  obtain ⟨hkz, hkzl⟩ := hz.child
  have hpz := hz.parent (root_branch ..)
  have hcz := hz.color (root_branch ..)
  rw [color_branch] at hcz
  obtain ⟨hndz, -, houtz⟩ := nodup_plug.mp hz.nodup
  obtain ⟨hzr, hzl', -, -, hdis⟩ := nodup_branch.mp hndz
  simp only [mem_plug, mem_branch, toList_nil, not_mem_nil, or_false, not_or] at hzr hdis houtz
  have hzly : y ≠ zl := fun e => hyl (e ▸ mem_toList_of_root hzl)
  have hroot : ∀ n, t.root = some n → n ∈ t.toList := fun n => mem_toList_of_root
  have hrootl : ∀ n, n = zl → n ∈ l.toList := fun n e => e ▸ mem_toList_of_root hzl
  have hrootr : ∀ n, (plug ctx' t).root = some n → n ∈ t.toList ∨ n ∈ names ctx' := fun n e =>
    mem_plug.mp (mem_toList_of_root e)
  -- the successor leaves its place
  obtain ⟨m₁, hm₁, hcol₁, hpar₁, hchi₁⟩ : ∃ m₁, (m.setParent zl (some y)).setChild y .left (some zl) = m₁
      ∧ m₁.color = m.color ∧ (∀ n, m₁.parent n = if n = zl then some y else m.parent n)
      ∧ ∀ s' n, m₁.child s' n = if s' = .left ∧ n = y then some zl else m.child s' n :=
    ⟨_, rfl, rfl, fun n => by simp, fun s' n => by simp⟩
  obtain ⟨m₂, hdet, hcol₂, hpar₂, hchi₂⟩ := detach_eq (m := m₁) (z := z) (t := t)
    (root_branch .right y cy t .nil) hside (by rw [hpar₁, if_neg hzly, hpy])
    (by rw [hchi₁, if_neg (by simp), hky]) (by rw [hchi₁, if_neg (by simp [Ne.symm hyz]), hkz])
    (fun e => hyt (hroot y e)) hyz (fun e => hzr.2 e) hyc'
  -- elsewhere nothing changes
  have same : ∀ n, n ∉ l.toList → n ≠ y → n ∉ t.toList → n ∉ names ctx' →
      m₂.parent n = m.parent n ∧ ∀ s', m₂.child s' n = m.child s' n := by
    intro n hnl hny hnt hnc
    refine ⟨?_, fun s' => ?_⟩
    · rw [hpar₂, if_neg fun e => (hrootr n e.2).elim hnt hnc, if_neg fun e => hnt (hroot n e.2), hpar₁,
        if_neg fun e => hnl (hrootl n e)]
    · rw [hchi₂, if_neg (by simp [hny]), Mem.setLink_child hnc, hchi₁, if_neg (by simp [hny])]
  have hup : ∀ n, n = h ∨ n ∈ names ctx →
      n ∉ l.toList ∧ n ≠ y ∧ n ∉ t.toList ∧ n ∉ names ctx' := by
    intro n hn
    have hno : ¬(n ≠ h ∧ n ∉ names ctx) := fun e => hn.elim e.1 e.2
    exact ⟨fun e => hno (houtz n (.inr (.inr e))), fun e => hno (houtz n (.inr (.inl (.inl (.inl e))))),
      fun e => hno (houtz n (.inr (.inl (.inl (.inr e))))), fun e => hno (houtz n (.inr (.inl (.inr e))))⟩
  have hhole : Hole m₂ h ctx (some z) := by
    have hh := (rep_plug.mp hz.rep).2
    rw [root_branch] at hh
    obtain ⟨h₁, h₂, h₃, h₄⟩ := hup h (.inl rfl)
    refine hh.congr (same h h₁ h₂ h₃ h₄).1 fun n hn => ?_
    obtain ⟨h₁, h₂, h₃, h₄⟩ := hup n (.inr hn)
    exact ⟨by rw [hcol₂, hcol₁], same n h₁ h₂ h₃ h₄⟩
  have hpz₂ : m₂.parent z = some (anchor h ctx) := by
    rw [(same z hzl' (Ne.symm hyz) hzr.1.2 hzr.2).1, hpz]
  have hrep := replace_eq (s := .left) (q := some y) hhole hpz₂ (houtz z (.inl rfl)).2
  refine ⟨((((m₂.setLink h ctx (some y)).setParent y (some (anchor h ctx))).setColor y cz).setColor z
    cy), ?_, by simp, fun n hn => ?_, fun n hn => ?_, fun s' n hn => ?_⟩
  · have hzlc : m.child .left z = some zl := by rw [← hzl]; exact hkzl
    have hcol : ∀ n, (m₂.setLink h ctx (some y)).color n = m.color n := fun n => by
      rw [Mem.setLink_color, hcol₂, hcol₁]
    have hpl : (m₂.setLink h ctx (some y)).parent z = some (anchor h ctx) := by
      rw [Mem.setLink_parent (houtz z (.inl rfl)).1, hpz₂]
    simp only [relink, hzlc, Option.bind_eq_bind, Option.bind_some, Mem.setParent_child, hm₁, hdet, hrep,
      hpl, Mem.setParent_color, hcol, hcy, hcz, anchor_append]
  · simp [hn, Mem.setLink_color, hcol₂, hcol₁]
  · rw [Mem.setColor_parent, Mem.setColor_parent, Mem.setParent_parent]
    by_cases hny : n = y
    · rw [if_pos hny, if_pos hny]
    rw [if_neg hny, if_neg hny]
    by_cases hnh : n = h
    · obtain ⟨h₁, -, h₃, h₄⟩ := hup n (.inl hnh)
      rw [if_neg fun e => e.elim (fun e => h₁ (mem_toList_of_root e)) fun e => (hrootr n e).elim h₃ h₄,
        if_neg fun e => h₃ (hroot n e), hnh]
      cases ctx with
      | nil      => simp [Mem.setLink]
      | cons f _ => exact (same h (hnh ▸ h₁) (hnh ▸ hny) (hnh ▸ h₃) (hnh ▸ h₄)).1
    rw [Mem.setLink_parent hnh, Mem.setLink_parent hnh, hpar₂, hpar₁, hzl]
    have htl : t.root = some n → n ≠ zl := fun e e' => hdis n (.inl (.inr (hroot n e))) (hrootl n e')
    have hcomm : n = zl ↔ zl = n := eq_comm
    cases ctx' with
    | nil =>
      have hty : Holds m h (plug (⟨.right, y, cy, .nil⟩ :: ⟨.right, z, cz, l⟩ :: ctx) t) := hm
      by_cases ht : t.root = some n
      · simp [ht, htl ht, hty.parent ht, anchor]
      · simp [ht, hcomm]
    | cons f ctx' =>
      by_cases ht : t.root = some n
      · simp [ht, (htl ht).symm]
      · by_cases hr : (plug (f :: ctx') t).root = some n
        · simp [hr]
        · simp [ht, hr, hcomm]
  · rw [Mem.setColor_child, Mem.setColor_child, Mem.setParent_child]
    by_cases hny : n = y
    · rw [if_pos hny, hny, Mem.setLink_child hyc, hchi₂, hzl]
      cases s' with
      | right => simp
      | left  => simp [Mem.setLink_child hyc', hchi₁]
    · have hn₂ : m₂.child s' n = (m.setLink y ctx' t.root).child s' n := by
        rw [hchi₂, if_neg (by simp [hny])]
        cases ctx' with
        | nil      => simp [Mem.setLink, hchi₁, hny]
        | cons f _ => simp [Mem.setLink, hchi₁, hny]
      rw [if_neg hny]
      cases ctx with
      | nil      => exact hn₂
      | cons f _ => simp [Mem.setLink, hn₂]

theorem headD_append_of_ne {A B : List ℕ} {d : ℕ} (hA : A ≠ []) : (A ++ B).headD d = A.headD d := by
  cases A with
  | nil      => exact absurd rfl hA
  | cons x A => rfl

theorem not_mem_of_nodup {A B : List ℕ} {z : ℕ} (hnd : (A ++ z :: B).Nodup) : z ∉ A := fun e =>
  (nodup_append.mp hnd).2.2 z e z mem_cons_self rfl

theorem erase_middle {A B : List ℕ} {z : ℕ} (hnd : (A ++ z :: B).Nodup) :
    (A ++ z :: B).erase z = A ++ B := by
  rw [erase_append_right _ (not_mem_of_nodup hnd), erase_cons_head]

theorem toList_unlink {c : Color} {z : ℕ} (hnd : (plug ctx (branch s z c t .nil)).toList.Nodup) :
    (plug ctx t).toList = (plug ctx (branch s z c t .nil)).toList.erase z := by
  rw [toList_plug, toList_plug] at *
  cases s with
  | left =>
    have h' := erase_middle (A := before ctx ++ t.toList) (B := after ctx) (z := z)
      (by simpa [branch, toList] using hnd)
    simpa [branch, toList] using h'.symm
  | right =>
    have h' := erase_middle (A := before ctx) (B := t.toList ++ after ctx) (z := z)
      (by simpa [branch, toList] using hnd)
    simpa [branch, toList] using h'.symm

/-- `z` is taken out of `T`, and the tree `t` at a place may lack a black node. -/
structure Unlinks (fuel h : ℕ) (m : Mem ℕ) (z : ℕ) (T : RedBlackTree.Tree ℕ) (m' : Mem ℕ)
    (ctx : List (Frame ℕ)) (t : RedBlackTree.Tree ℕ) : Prop where
  run : unlink fuel h m z = some (m', t.root, some (anchor h ctx))
  holds : Holds m' h (plug ctx t)
  ends : Ends m' h (plug ctx t)
  toList : (plug ctx t).toList = T.toList.erase z
  color : m'.color h = m.color h
  outside : ∀ n, n ≠ h → n ∉ T.toList → m.Same m' n
  red : m'.color z = .red → RedBlack (plug ctx t)
  black : m'.color z = .black → Lacks ctx t

theorem unlink_two {cz : Color} {z fuel : ℕ} {l r : RedBlackTree.Tree ℕ} (hl : l.root ≠ none)
    (hr : r.root ≠ none) (hm : Holds m h (plug ctx (.node z cz l r)))
    (he : Ends m h (plug ctx (.node z cz l r)))
    (hT : RedBlack (plug ctx (.node z cz l r))) (hfuel : r.toList.length ≤ fuel) :
    ∃ m' ctx' t, Unlinks fuel h m z (plug ctx (.node z cz l r)) m' ctx' t := by
  obtain ⟨zr, hzr⟩ := Option.ne_none_iff_exists'.mp hr
  obtain ⟨zl, hzl⟩ := Option.ne_none_iff_exists'.mp hl
  have hz : Holds m h (plug ctx (branch .right z cz r l)) := hm
  obtain ⟨hkz, hkzl⟩ := hz.child
  have hsub := (sub_branch.mp (rep_plug.mp hz.rep).1).2.2.2.2.1
  obtain ⟨ctx', y, cy, t, rfl, hside, hext⟩ := extreme_eq (s := .left) hsub hzr hfuel
  have hy : Holds m h (plug (ctx' ++ ⟨.right, z, cz, l⟩ :: ctx) (branch .right y cy t .nil)) := by
    rw [plug_append, plug_cons]
    exact hz
  obtain ⟨m', hrel, hzc, hcolor, hparent, hchild⟩ := relink_eq hy hl hside
  have htarget : target fuel m z = some (y, t.root) := by
    rw [target, hkz, hzr, show m.child .left z = some zl from hkzl.trans hzl]
    simp only [minimum, hext, Option.bind_eq_bind, Option.bind_some, hy.child.1]
  obtain ⟨hndy, -, houty⟩ := nodup_plug.mp hy.nodup
  obtain ⟨hyh, hyc⟩ := houty y (by simp)
  simp only [names_append, names, mem_append, mem_cons, not_or] at hyc
  have hhc : h ∉ names ctx' ∧ h ≠ z ∧ h ∉ names ctx := by
    have h' := (nodup_plug.mp hy.nodup).2.1
    simp only [names_append, names, nodup_cons, mem_append, mem_cons, not_or] at h'
    exact ⟨h'.1.1, h'.1.2.1, h'.1.2.2.2⟩
  -- the order of the names, with `z` in the middle
  have hbefore : before ctx' = [] := fore_eq_nil (s := .left) hside
  have hold : (plug ctx (.node z cz l (plug ctx' (branch .left y cy .nil t)))).toList
      = (before ctx ++ l.toList) ++ z :: (y :: (t.toList ++ after ctx') ++ after ctx) := by
    simp [toList_plug, toList, branch, hbefore]
  have hnew : (plug (ctx' ++ ⟨.right, y, cz, l⟩ :: ctx) t).toList
      = (before ctx ++ l.toList) ++ (y :: (t.toList ++ after ctx') ++ after ctx) := by
    simp [plug_append, plug_cons, toList_plug, toList, branch, hbefore]
  have hlist : (plug (ctx' ++ ⟨.right, y, cz, l⟩ :: ctx) t).toList
      = (plug ctx (.node z cz l (plug ctx' (branch .left y cy .nil t)))).toList.erase z := by
    have hnd := (nodup_cons.mp hm.nodup).2
    rw [hnew, hold, erase_middle (hold ▸ hnd)]
  have hT' : RedBlack (plug (ctx' ++ ⟨.right, z, cz, l⟩ :: ctx) (branch .right y cy t .nil)) := by
    rwa [plug_append, plug_cons]
  refine ⟨m', ctx' ++ ⟨.right, y, cz, l⟩ :: ctx, t, ?_, hy.splice hcolor hparent hchild, fun s' => ?_, hlist,
    ?_, fun n hn hnT => ?_, ?_, ?_⟩
  · simp only [unlink, htarget, Option.bind_eq_bind, Option.bind_some, ne_eq, hyc.2.1, not_false_eq_true,
      if_true, hrel]
  · rw [hchild s' h hhc.2.1, if_neg (Ne.symm hyh), Mem.setLink_child hhc.2.2, Mem.setLink_child hhc.1,
      he s']
    have hzlin : zl ∈ l.toList := mem_toList_of_root hzl
    cases s' with
    | left =>
      have hne : before ctx ++ l.toList ≠ [] := fun e => by simp_all
      rw [walk, walk, hold, hnew, headD_append_of_ne hne, headD_append_of_ne hne]
    | right =>
      rw [walk, walk, hold, hnew]
      simp
  · rw [hcolor h hhc.2.1, if_neg (Ne.symm hyh)]
  · have hnT' : n ∉ (plug (ctx' ++ ⟨.right, z, cz, l⟩ :: ctx) (branch .right y cy t .nil)).toList := by
      rwa [plug_append, plug_cons]
    simp only [mem_plug, mem_branch, names_append, names, mem_append, mem_cons, not_or] at hnT'
    obtain ⟨⟨hny, hnt, -⟩, hnc', hnz, hnl, hnc⟩ := hnT'
    refine ⟨by rw [hcolor n hnz, if_neg hny], ?_, fun s' => ?_⟩
    · rw [hparent n hnz, if_neg hny, if_neg ?_, if_neg fun e => hnt (mem_toList_of_root e),
        Mem.setLink_parent hn]
      rintro (e | e)
      · exact hnl (mem_toList_of_root e)
      · exact (mem_plug.mp (mem_toList_of_root e)).elim hnt hnc'
    · rw [hchild s' n hnz, if_neg hny, Mem.setLink_child hnc, Mem.setLink_child hnc']
  · exact fun e => ((lacks_of_unlink hT').1 (hzc ▸ e)).rename
  · exact fun e => ((lacks_of_unlink hT').2 (hzc ▸ e)).rename

/-- **Taking a node out** leaves a red-black tree, or one that lacks a black node at one place. -/
theorem unlink_holds {T : RedBlackTree.Tree ℕ} {z fuel : ℕ} (hm : Holds m h T) (he : Ends m h T)
    (hT : RedBlack T) (hz : z ∈ T.toList) (hfuel : T.toList.length ≤ fuel) :
    ∃ m' ctx t, Unlinks fuel h m z T m' ctx t := by
  have hlen : ∀ {ctx u}, T = plug ctx u → u.toList.length ≤ fuel := by
    rintro ctx u rfl
    have h' := (plug_perm ctx u).length_eq
    rw [length_append] at h'
    omega
  have one : ∀ {s ctx c t}, T = plug ctx (branch s z c t .nil) →
      ∃ m' ctx t, Unlinks fuel h m z T m' ctx t := by
    intro s ctx c t hTt
    have hlent := hlen hTt
    rw [(toList_perm_branch s z c t .nil).length_eq] at hlent
    simp at hlent
    subst hTt
    obtain ⟨m', hun, hold, hends, hcol, hout⟩ := unlink_one hm he (show t.toList.length ≤ fuel by omega)
    have hzc : m'.color z = c := by rw [hcol, hm.color (root_branch ..), color_branch]
    obtain ⟨hred, hblack⟩ := lacks_of_unlink hT
    exact ⟨m', ctx, t, hun, hold, hends, toList_unlink (nodup_cons.mp hm.nodup).2, by rw [hcol], hout,
      fun e => hred (hzc ▸ e), fun e => hblack (hzc ▸ e)⟩
  obtain ⟨ctx, c, l, r, hTz⟩ := exists_plug hz
  cases l with
  | nil => exact one (s := .right) hTz
  | node ln lc ll lr =>
    cases r with
    | nil => exact one (s := .left) hTz
    | node rn rc rl rr =>
      have hlenz := hlen hTz
      simp only [toList, length_append, length_cons] at hlenz
      subst hTz
      exact unlink_two (by simp [root]) (by simp [root]) hm he hT (by simp [toList]; omega)

/-- **Removal**: the tree is red-black again, without the node. -/
theorem rebalanceForErase_holds {T : RedBlackTree.Tree ℕ} {z fuel : ℕ} (hm : Holds m h T) (he : Ends m h T)
    (hT : RedBlack T) (hz : z ∈ T.toList) (hfuel : T.toList.length ≤ fuel) :
    ∃ m' T', rebalanceForErase fuel h m z = some m' ∧ Holds m' h T' ∧ Ends m' h T' ∧ RedBlack T'
      ∧ T'.toList = T.toList.erase z ∧ m'.color h = m.color h
      ∧ ∀ n, n ≠ h → n ∉ T.toList → m.Same m' n := by
  obtain ⟨m₁, ctx, t, h₁⟩ := unlink_holds hm he hT hz hfuel
  rw [rebalanceForErase, h₁.run]
  simp only [Option.bind_eq_bind, Option.bind_some]
  cases hc : m₁.color z with
  | red =>
    exact ⟨m₁, _, by simp, h₁.holds, h₁.ends, h₁.red hc, h₁.toList, h₁.color, h₁.outside⟩
  | black =>
    have hlen : ctx.length < fuel := by
      have h' := length_le_plug ctx t
      have hpos := length_pos_of_mem hz
      rw [h₁.toList, length_erase_of_mem hz] at h'
      omega
    obtain ⟨m₂, ctx', t', hloop, hrb, h₂⟩ :=
      eraseLoop_moves h₁.holds (h₁.black hc) (Nat.zero_lt_of_lt hlen) fun _ => hlen
    have h₃ := h₂.trans (setColor?_moves .black h₂.holds)
    refine ⟨m₂.setColor? t'.root .black, _, ?_, h₃.holds, h₃.keep_ends h₁.ends, hrb,
      h₃.toList.trans h₁.toList, h₃.color.trans h₁.color, fun n hn hnT => ?_⟩
    · simp only [ne_eq, reduceCtorEq, not_false_eq_true, if_true, hloop, Option.bind_some]
    · refine (h₁.outside n hn hnT).trans (h₃.outside n hn ?_)
      rw [h₁.toList]
      exact fun e => hnT (mem_of_mem_erase e)

end SourceLibs.SgiStl
