import SourceLibs.Support.LinkedTree

/-!
# Support — the repair of a red-black tree

What an insertion and a removal leave is red-black but at one place.  The repair goes up the tree, with
rotations.

* `Rotates`: a function on memories that rotates.
* `RedAt`: a red node where a black one is asked for.
* `Lacks`: a tree with one black node less than is asked for.
* `repairStep_moves`: one step of the repair after a removal.
-/

namespace SourceLibs.RedBlackTree
open Option

open RedBlackTree.Tree

variable {α : Type*} [DecidableEq α] {m : Mem α} {h : α} {ctx : List (Frame α)} {s : Side}
  {t : Tree α}

/-! ### Colours -/

/-- A missing node counts as black. -/
def isBlack (m : Mem α) : Option α → Bool
  | none   => true
  | some x => m.color x = .black

omit [DecidableEq α] in
theorem isBlack_root (hm : Holds m h (plug ctx t)) :
    isBlack m t.root = decide (t.color = .black) := by
  cases t with
  | nil => rfl
  | node n c l r => exact congrArg (fun d => decide (d = Color.black)) (hm.color rfl)

theorem setColor?_moves (c : Color) (hm : Holds m h (plug ctx t)) :
    Moves m (m.setColor? t.root c) h (plug ctx t) (plug ctx (t.paint c)) := by
  cases t with
  | nil          => exact .refl hm
  | node n d l r => exact Holds.setColor (s := .left) ctx c hm

theorem setColor?_sibling {f : Frame α} (c : Color) (hm : Holds m h (plug (f :: ctx) t)) :
    Moves m (m.setColor? f.sibling.root c) h (plug (f :: ctx) t)
      (plug (⟨f.side, f.name, f.color, f.sibling.paint c⟩ :: ctx) t) := by
  rw [plug_swap] at hm ⊢
  have h' := setColor?_moves c hm
  rwa [plug_swap ⟨f.side.flip, f.name, f.color, t⟩ ctx (f.sibling.paint c), Side.flip_flip] at h'

omit [DecidableEq α] in
theorem isBlack_sibling {f : Frame α} (hm : Holds m h (plug (f :: ctx) t)) :
    isBlack m f.sibling.root = decide (f.sibling.color = .black) := by
  rw [plug_swap] at hm
  exact isBlack_root hm

/-! ### Rotations -/

/-- `rot s m x` lets the child of `x` on the side away from `s` rise. -/
def Rotates (rot : Side → Mem α → α → Option (Mem α)) (h : α) : Prop :=
  ∀ {s : Side} {m : Mem α} {ctx : List (Frame α)} {x y : α} {cx cy : Color} {a b c : Tree α},
    Holds m h (plug ctx (branch s.flip x cx (branch s y cy b c) a)) →
    ∃ m', rot s m x = some m'
      ∧ Moves m m' h (plug ctx (branch s.flip x cx (branch s y cy b c) a))
        (plug ctx (branch s y cy (branch s x cx a b) c))

variable {rot : Side → Mem α → α → Option (Mem α)}

omit [DecidableEq α] in
/-- The same, seen from the side of the child that rises. -/
theorem Rotates.flip (hrot : Rotates rot h) {x y : α} {cx cy : Color} {a b c : Tree α}
    (hm : Holds m h (plug ctx (branch s x cx (branch s y cy a b) c))) :
    ∃ m', rot s.flip m x = some m'
      ∧ Moves m m' h (plug ctx (branch s x cx (branch s y cy a b) c))
        (plug ctx (branch s y cy a (branch s x cx b c))) := by
  have hm' : Holds m h (plug ctx (branch s.flip.flip x cx (branch s.flip y cy b a) c)) := by
    rwa [Side.flip_flip, branch_flip]
  obtain ⟨m', hm'', hmoves⟩ := hrot hm'
  refine ⟨m', hm'', ?_⟩
  rwa [branch_flip s y, branch_flip s x, branch_flip s y, Side.flip_flip] at hmoves

/-! ### Insertion -/

/-- The tree has a red node at the place, below which everything is balanced. -/
def RedAt (ctx : List (Frame α)) (t : Tree α) : Prop :=
  ∃ n, Balanced .red n t ∧ Above .black n ctx

/-! ### Removal -/

/-- The first part of a step: the sibling `w` of the place below `xp` becomes a black one. -/
def repairSibling (rot : Side → Mem α → α → Option (Mem α)) (s : Side) (m : Mem α) (xp w : α) :
    Option (Mem α × α) :=
  if m.color w = .red then do
    let m ← rot s ((m.setColor w .black).setColor xp .red) xp
    let w ← m.child s.flip xp
    some (m, w)
  else some (m, w)

/-- A red child of the sibling `w` on the near side goes to the far side. -/
def repairFar (rot : Side → Mem α → α → Option (Mem α)) (s : Side) (m : Mem α) (xp w : α) :
    Option (Mem α × α) :=
  if isBlack m (m.child s.flip w) then do
    let m ← rot s.flip ((m.setColor? (m.child s w) .black).setColor w .red) w
    let w ← m.child s.flip xp
    some (m, w)
  else some (m, w)

/-- The last rotation: the sibling `w`, which has a red child on the far side, goes above `xp`. -/
def repairLast (rot : Side → Mem α → α → Option (Mem α)) (s : Side) (m : Mem α) (xp w : α) :
    Option (Mem α) :=
  let m := (m.setColor w (m.color xp)).setColor xp .black
  rot s (m.setColor? (m.child s.flip w) .black) xp

/-- One step of the repair when the place is on the side `s` of `xp`, and the node to go on with and
its parent, unless all is done. -/
def repairStep (rot : Side → Mem α → α → Option (Mem α)) (s : Side) (m : Mem α) (xp : α) :
    Option (Mem α × Option (α × Option α)) := do
  let w ← m.child s.flip xp
  let (m, w) ← repairSibling rot s m xp w
  if isBlack m (m.child s w) ∧ isBlack m (m.child s.flip w) then
    some (m.setColor w .red, some (xp, m.parent xp))
  else
    let (m, w) ← repairFar rot s m xp w
    let m ← repairLast rot s m xp w
    some (m, none)

/-- The tree at the place has one black node less on each way down than is asked for, or a red root that
makes up for it when it becomes black. -/
def Lacks (ctx : List (Frame α)) (t : Tree α) : Prop :=
  ∃ n, Above .black (n + 1) ctx
    ∧ (t.color = .black → Balanced .black n t) ∧ (t.color = .red → Balanced .black (n + 1) (t.paint .black))

omit [DecidableEq α] in
theorem lacks_of_unlink {z : α} {c : Color} (hT : RedBlack (plug ctx (branch s z c t .nil))) :
    (c = .red → RedBlack (plug ctx t)) ∧ (c = .black → Lacks ctx t) := by
  obtain ⟨d, n, ht, hctx⟩ := hT.of_plug
  constructor
  · rintro rfl
    obtain ⟨-, ha, -⟩ := ht.of_branch_red
    exact hctx.to_black.plug ha
  · rintro rfl
    obtain ⟨rfl, k, d, e, rfl, ha, -⟩ := ht.of_branch_black
    refine ⟨k, hctx, fun hc => ?_, fun hc => ?_⟩
    · obtain rfl : d = .black := by rw [← ha.color_eq, hc]
      exact ha
    · obtain rfl : d = .red := by rw [← ha.color_eq, hc]
      exact ha.paint_black

omit [DecidableEq α] in
theorem Lacks.rename {s' : Side} {x x' : α} {d : Color} {t u : Tree α} {ctx' : List (Frame α)}
    (h : Lacks (ctx' ++ ⟨s, x, d, u⟩ :: ctx) t) : Lacks (ctx' ++ ⟨s', x', d, u⟩ :: ctx) t := by
  obtain ⟨n, hctx, ht⟩ := h
  exact ⟨n, hctx.rename, ht⟩

theorem repairSibling_moves (hrot : Rotates rot h) {f : Frame α} {w : α} {n : ℕ}
    (hm : Holds m h (plug (f :: ctx) t)) (hw : f.sibling.root = some w)
    (hf : Above .black (n + 1) (f :: ctx)) :
    ∃ m' w' f' ctx', repairSibling rot f.side m f.name w = some (m', w')
      ∧ f'.side = f.side ∧ f'.name = f.name ∧ f'.sibling.root = some w' ∧ f'.sibling.color = .black
      ∧ Above .black (n + 1) (f' :: ctx') ∧ (ctx' = ctx ∨ f'.color = .red)
      ∧ Moves m m' h (plug (f :: ctx) t) (plug (f' :: ctx') t) := by
  obtain ⟨s, xp, c, u⟩ := f
  obtain ⟨cw, near, far, rfl⟩ : ∃ cw near far, u = branch s w cw near far := eq_branch_of_root s hw
  have hsib : m.color w = cw := by
    rw [plug_swap] at hm
    rw [hm.color (root_branch ..), color_branch]
  cases cw with
  | black =>
    refine ⟨m, w, ⟨s, xp, c, _⟩, ctx, ?_, rfl, rfl, root_branch .., color_branch .., hf, .inl rfl,
      .refl hm⟩
    rw [repairSibling, if_neg (by simp [hsib])]
  | red =>
    -- a red sibling has a black parent and black children
    cases hf with
    | red hu _ => exact absurd hu.color_eq (by simp)
    | black hu hctx =>
      obtain ⟨-, hnear, hfar⟩ := hu.of_branch_red
      obtain ⟨w', a, b, hw'⟩ := hnear.exists_branch s
      have h₁ : Moves m (m.setColor w .black) h
          (plug (⟨s, xp, .black, branch s w .red near far⟩ :: ctx) t)
          (plug (⟨s, xp, .black, branch s w .black near far⟩ :: ctx) t) := by
        have h' := setColor?_sibling .black hm
        rwa [root_branch, paint_branch] at h'
      have h₂ : Moves (m.setColor w .black) ((m.setColor w .black).setColor xp .red) h _
          (plug ctx (branch s xp .red t (branch s w .black near far))) :=
        Holds.setColor ctx .red h₁.holds
      have h₂' := h₂.holds
      rw [← branch_flip s xp] at h₂'
      obtain ⟨m', hm', h₃⟩ := hrot h₂'
      rw [branch_flip s xp] at h₃
      have h₄ := (h₁.trans h₂).trans h₃
      have h₅ : Holds m' h (plug (⟨s, xp, .red, near⟩ :: ⟨s, w, .black, far⟩ :: ctx) t) := h₃.holds
      obtain ⟨-, -, -, hchild⟩ := h₅.above
      simp only at hchild
      refine ⟨m', w', ⟨s, xp, .red, near⟩, ⟨s, w, .black, far⟩ :: ctx, ?_, rfl, rfl, ?_, hnear.color_eq,
        .red hnear (.black hfar hctx), .inr rfl, h₄⟩
      · simp only [repairSibling, if_pos hsib, hm', bind_eq_bind, bind_some, hchild, hw',
          root_branch]
      · rw [hw', root_branch]

theorem repairFar_moves (hrot : Rotates rot h) {xp w : α} {c : Color} {t near far : Tree α} {k : ℕ}
    (hm : Holds m h (plug (⟨s, xp, c, branch s w .black near far⟩ :: ctx) t))
    (hu : Balanced .black (k + 1) (branch s w .black near far))
    (hred : near.color = .red ∨ far.color = .red) :
    ∃ m' w' near' far', repairFar rot s m xp w = some (m', w')
      ∧ Balanced .black (k + 1) (branch s w' .black near' far') ∧ far'.color = .red
      ∧ Moves m m' h (plug (⟨s, xp, c, branch s w .black near far⟩ :: ctx) t)
        (plug (⟨s, xp, c, branch s w' .black near' far'⟩ :: ctx) t) := by
  have hw : Holds m h (plug (⟨s, w, .black, far⟩ :: ⟨s.flip, xp, c, t⟩ :: ctx) near) := by
    rwa [plug_swap] at hm
  obtain ⟨-, -, hcn, hcf⟩ := hw.above
  have hblack := isBlack_sibling hw
  simp only at hcn hcf hblack
  rw [repairFar, hcn, hcf, hblack]
  cases hfar : far.color with
  | red => exact ⟨m, w, near, far, by simp, hu, hfar, .refl hm⟩
  | black =>
    obtain ⟨-, k', d, e, hk, hn, hf⟩ := hu.of_branch_black
    obtain rfl : k = k' := by omega
    obtain rfl : d = .red := by
      rw [← hn.color_eq]
      simpa [hfar] using hred
    obtain rfl : e = .black := by rw [← hf.color_eq, hfar]
    -- the near child, which is red, goes above the sibling
    obtain ⟨y, a, b, rfl, ha, hb⟩ := hn.exists_red s
    have h₁ : Moves m (m.setColor y .black) h
        (plug (⟨s, w, .black, far⟩ :: ⟨s.flip, xp, c, t⟩ :: ctx) (branch s y .red a b))
        (plug (⟨s, w, .black, far⟩ :: ⟨s.flip, xp, c, t⟩ :: ctx) (branch s y .black a b)) :=
      Holds.setColor (⟨s, w, .black, far⟩ :: ⟨s.flip, xp, c, t⟩ :: ctx) .black hw
    have h₂ : Moves (m.setColor y .black) ((m.setColor y .black).setColor w .red) h _
        (plug (⟨s.flip, xp, c, t⟩ :: ctx) (branch s w .red (branch s y .black a b) far)) :=
      Holds.setColor (⟨s.flip, xp, c, t⟩ :: ctx) .red h₁.holds
    obtain ⟨m', hm', h₃⟩ := hrot.flip h₂.holds
    have h₄ : Moves m m' h
        (plug (⟨s, xp, c, branch s w .black (branch s y .red a b) far⟩ :: ctx) t)
        (plug (⟨s, xp, c, branch s y .black a (branch s w .red b far)⟩ :: ctx) t) := by
      rw [plug_swap, plug_swap ⟨s, xp, c, branch s y .black a (branch s w .red b far)⟩]
      exact (h₁.trans h₂).trans h₃
    obtain ⟨-, -, -, hchild⟩ := h₄.holds.above
    simp only [root_branch] at hchild
    refine ⟨m', y, a, branch s w .red b far, ?_, ?_, color_branch .., h₄⟩
    · simp only [decide_true, if_true, root_branch, Mem.setColor?, hm', bind_eq_bind,
        bind_some, hchild]
    · exact .branch_black s y ha (.branch_red s w hb hf)

theorem repairLast_moves (hrot : Rotates rot h) {xp w : α} {c : Color} {t near far : Tree α}
    {k : ℕ} (hm : Holds m h (plug (⟨s, xp, c, branch s w .black near far⟩ :: ctx) t))
    (ht : Balanced .black k t) (hu : Balanced .black (k + 1) (branch s w .black near far))
    (hfar : far.color = .red) (hctx : Above .black (k + 1) (⟨s, xp, c, branch s w .black near far⟩ :: ctx)) :
    ∃ m' ctx', repairLast rot s m xp w = some m' ∧ RedBlack (plug ctx' t)
      ∧ Moves m m' h (plug (⟨s, xp, c, branch s w .black near far⟩ :: ctx) t) (plug ctx' t) := by
  obtain ⟨-, k', d, e, hk, hn, hf⟩ := hu.of_branch_black
  obtain rfl : k = k' := by omega
  obtain rfl : e = .red := by rw [← hf.color_eq, hfar]
  obtain ⟨hc, -, -, -⟩ := hm.above
  simp only at hc
  have hw : Holds m h (plug (⟨s.flip, xp, c, t⟩ :: ctx) (branch s w .black near far)) := by
    rwa [plug_swap] at hm
  have h₁ : Moves m (m.setColor w c) h (plug (⟨s.flip, xp, c, t⟩ :: ctx) (branch s w .black near far))
      (plug (⟨s.flip, xp, c, t⟩ :: ctx) (branch s w c near far)) :=
    Holds.setColor (⟨s.flip, xp, c, t⟩ :: ctx) c hw
  have h₂ : Moves (m.setColor w c) ((m.setColor w c).setColor xp .black) h _
      (plug (⟨s.flip, xp, .black, t⟩ :: ctx) (branch s w c near far)) :=
    Holds.setColor ctx .black h₁.holds
  obtain ⟨-, hcf⟩ := h₂.holds.child
  have hn' : Holds ((m.setColor w c).setColor xp .black) h
      (plug (⟨s, w, c, far⟩ :: ⟨s.flip, xp, .black, t⟩ :: ctx) near) := h₂.holds
  have h₃ : Moves ((m.setColor w c).setColor xp .black)
      (((m.setColor w c).setColor xp .black).setColor? far.root .black) h
      (plug (⟨s, w, c, far⟩ :: ⟨s.flip, xp, .black, t⟩ :: ctx) near)
      (plug (⟨s.flip, xp, .black, t⟩ :: ctx) (branch s w c near (far.paint .black))) :=
    setColor?_sibling .black hn'
  obtain ⟨m', hm', h₄⟩ := hrot h₃.holds
  refine ⟨m', ⟨s, xp, .black, near⟩ :: ⟨s, w, c, far.paint .black⟩ :: ctx, ?_, ?_, ?_⟩
  · simp only [repairLast, hc, hcf, hm']
  · exact Above.plug (.black hn (hctx.exchange hf.paint_black)) ht
  · rw [plug_swap]
    exact ((h₁.trans h₂).trans h₃).trans h₄

/-- **One step of the repair** either ends it or goes on at a higher place. -/
theorem repairStep_moves (hrot : Rotates rot h) {f : Frame α} {n : ℕ}
    (hm : Holds m h (plug (f :: ctx) t)) (ht : Balanced .black n t)
    (hf : Above .black (n + 1) (f :: ctx)) :
    (∃ m' ctx', repairStep rot f.side m f.name = some (m', none) ∧ RedBlack (plug ctx' t)
      ∧ Moves m m' h (plug (f :: ctx) t) (plug ctx' t))
    ∨ ∃ m' ctx' t', repairStep rot f.side m f.name = some (m', some (f.name, some (anchor h ctx')))
      ∧ t'.root = some f.name ∧ Lacks ctx' t' ∧ (t'.color = .red ∨ ctx' = ctx)
      ∧ Moves m m' h (plug (f :: ctx) t) (plug ctx' t') := by
  obtain ⟨w₀, hw₀⟩ := hf.exists_sibling
  obtain ⟨s, xp, c₀, u₀⟩ := f
  obtain ⟨-, -, -, hsib⟩ := hm.above
  obtain ⟨m₁, w, ⟨s', xp', c, u⟩, ctx₁, hstep₁, hs, hxp, hw, hblack, hf₁, hctx₁, h₁⟩ :=
    repairSibling_moves hrot hm hw₀ hf
  simp only at hsib hw₀ hstep₁ hs hxp hw hblack hf₁ hctx₁
  subst s' xp'
  obtain ⟨d, near, far, rfl⟩ := eq_branch_of_root s hw
  obtain rfl : d = .black := by rw [← hblack, color_branch]
  have hsw : Holds m₁ h (plug (⟨s, w, .black, far⟩ :: ⟨s.flip, xp, c, t⟩ :: ctx₁) near) := by
    have h' := h₁.holds
    rwa [plug_swap] at h'
  obtain ⟨-, -, hcn, hcf⟩ := hsw.above
  simp only at hcn hcf
  have hbn := isBlack_root hsw
  have hbf := isBlack_sibling hsw
  simp only at hbf
  have hu : Balanced .black (n + 1) (branch s w .black near far) := by
    cases hf₁ with
    | red hu _   => exact hu
    | black hu _ =>
      obtain ⟨rfl, -⟩ := hu.of_branch_black
      exact hu
  simp only [repairStep, hsib, hw₀, hstep₁, bind_eq_bind, bind_some, hcn, hcf, hbn, hbf]
  by_cases hboth : near.color = .black ∧ far.color = .black
  · right
    obtain ⟨-, k, d, e, hk, hn, hf'⟩ := hu.of_branch_black
    obtain rfl : n = k := by omega
    obtain rfl : d = .black := by rw [← hn.color_eq, hboth.1]
    obtain rfl : e = .black := by rw [← hf'.color_eq, hboth.2]
    have h₂ : Moves m₁ (m₁.setColor w .red) h (plug (⟨s, xp, c, branch s w .black near far⟩ :: ctx₁) t)
        (plug ctx₁ (branch s xp c t (branch s w .red near far))) := by
      rw [plug_swap, ← branch_flip s xp]
      exact Holds.setColor (⟨s.flip, xp, c, t⟩ :: ctx₁) .red hsw
    have hpar : m₁.parent xp = some (anchor h ctx₁) := h₁.holds.above.2.1
    refine ⟨_, ctx₁, _, ?_, root_branch .., ?_, ?_, h₁.trans h₂⟩
    · rw [if_pos (by simpa using hboth), hpar]
    · cases hf₁ with
      | red _ hctx =>
        refine ⟨n, hctx.to_black, fun e => absurd e (by simp), fun _ => ?_⟩
        rw [paint_branch]
        exact .branch_black s xp ht (.branch_red s w hn hf')
      | black _ hctx =>
        refine ⟨n + 1, hctx, fun _ => ?_, fun e => absurd e (by simp)⟩
        exact .branch_black s xp ht (.branch_red s w hn hf')
    · rw [color_branch]
      exact hctx₁.symm
  · left
    have hred : near.color = .red ∨ far.color = .red := by
      cases hnc : near.color <;> cases hfc : far.color <;> simp_all
    obtain ⟨m₂, w₂, near₂, far₂, hfar₂, hu₂, hred₂, h₂⟩ := repairFar_moves hrot h₁.holds hu hred
    obtain ⟨m₃, ctx₃, hlast, hrb, h₃⟩ := repairLast_moves hrot h₂.holds ht hu₂ hred₂ (hf₁.exchange hu₂)
    refine ⟨m₃, ctx₃, ?_, hrb, (h₁.trans h₂).trans h₃⟩
    rw [if_neg (by simpa using hboth)]
    simp only [hfar₂, hlast, bind_some]

omit [DecidableEq α] in
theorem Lacks.of_red (ht : Lacks ctx t) (hc : t.color = .red) :
    RedBlack (plug ctx (t.paint .black)) := by
  obtain ⟨n, hctx, -, hred⟩ := ht
  exact hctx.plug (hred hc)

omit [DecidableEq α] in
theorem Lacks.of_nil (ht : Lacks [] t) : RedBlack (t.paint .black) := by
  obtain ⟨n, -, hblack, hred⟩ := ht
  cases hc : t.color with
  | red => exact ⟨n + 1, hred hc⟩
  | black =>
    rw [(hblack hc).paint_eq]
    exact ⟨n, hblack hc⟩

end SourceLibs.RedBlackTree
