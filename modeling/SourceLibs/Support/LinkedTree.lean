import SourceLibs.Support.RedBlackTree

/-!
# Support — a tree of linked nodes

Memory in which nodes have a colour, a parent and two children, and a header whose parent link goes to
the root of a tree.  A place in the tree splits what the memory says (`rep_plug`), and each kind of
change to the memory is a change to the tree at one place.

* `Rep`, `Holds`: the memory holds a tree below a header.
* `Moves`: it then holds another tree with the same nodes in order.
* `Holds.setColor`, `Holds.rotate`: the changes that do this.
-/

namespace SourceLibs.RedBlackTree
open List

open RedBlackTree.Tree

/-- The links and colours of the nodes. -/
structure Mem (α : Type*) where
  color : α → Color
  parent : α → Option α
  child : Side → α → Option α

variable {α : Type*} {ctx : List (Frame α)}

/-- Two memories agree on a node. -/
def Mem.Same (m m' : Mem α) (n : α) : Prop :=
  m'.color n = m.color n ∧ m'.parent n = m.parent n ∧ ∀ s, m'.child s n = m.child s n

theorem Mem.Same.refl (m : Mem α) (n : α) : m.Same m n := ⟨rfl, rfl, fun _ => rfl⟩

theorem Mem.Same.trans {m m' m'' : Mem α} {n : α} (h : m.Same m' n) (h' : m'.Same m'' n) :
    m.Same m'' n :=
  ⟨h'.1.trans h.1, h'.2.1.trans h.2.1, fun s => (h'.2.2 s).trans (h.2.2 s)⟩

section Set
variable [DecidableEq α] (m : Mem α) (n k : α)

/-- A color is written. -/
def Mem.setColor (c : Color) : Mem α := { m with color := Function.update m.color n c }

/-- A parent is written. -/
def Mem.setParent (q : Option α) : Mem α := { m with parent := Function.update m.parent n q }

/-- A child is written. -/
def Mem.setChild (s : Side) (q : Option α) : Mem α :=
  { m with child := Function.update m.child s (Function.update (m.child s) n q) }

@[simp] theorem Mem.setColor_color (c : Color) :
    (m.setColor n c).color k = if k = n then c else m.color k := by
  simp [setColor, Function.update_apply]

@[simp] theorem Mem.setColor_parent (c : Color) : (m.setColor n c).parent = m.parent := rfl
@[simp] theorem Mem.setColor_child (c : Color) : (m.setColor n c).child = m.child := rfl

@[simp] theorem Mem.setParent_parent (q : Option α) :
    (m.setParent n q).parent k = if k = n then q else m.parent k := by
  simp [setParent, Function.update_apply]

@[simp] theorem Mem.setParent_color (q : Option α) : (m.setParent n q).color = m.color := rfl
@[simp] theorem Mem.setParent_child (q : Option α) : (m.setParent n q).child = m.child := rfl

@[simp] theorem Mem.setChild_child (s s' : Side) (q : Option α) :
    (m.setChild n s q).child s' k = if s' = s ∧ k = n then q else m.child s' k := by
  by_cases hs : s' = s
  · subst hs
    simp [setChild, Function.update_apply]
  · simp [setChild, hs]

@[simp] theorem Mem.setChild_color (s : Side) (q : Option α) :
    (m.setChild n s q).color = m.color := rfl
@[simp] theorem Mem.setChild_parent (s : Side) (q : Option α) :
    (m.setChild n s q).parent = m.parent := rfl

theorem Mem.setChild_self {m : Mem α} {n : α} {s : Side} {q : Option α} (h : m.child s n = q) :
    m.setChild n s q = m := by
  subst h
  simp [setChild]

/-- The parent link of a node that may be missing is set. -/
def Mem.setParent? (x q : Option α) : Mem α :=
  match x with
  | none   => m
  | some x => m.setParent x q

/-- The colour of a node that may be missing is set. -/
def Mem.setColor? (x : Option α) (c : Color) : Mem α :=
  match x with
  | none   => m
  | some x => m.setColor x c

@[simp] theorem Mem.setParent?_parent (x q : Option α) :
    (m.setParent? x q).parent k = if x = some k then q else m.parent k := by
  cases x <;> simp [setParent?, eq_comm]

@[simp] theorem Mem.setParent?_color (x q : Option α) : (m.setParent? x q).color = m.color := by
  cases x <;> rfl

@[simp] theorem Mem.setParent?_child (x q : Option α) : (m.setParent? x q).child = m.child := by
  cases x <;> rfl

end Set

/-! ### Trees in memory -/

/-- The memory holds the tree, with `p` for the parent of its root. -/
def Sub (m : Mem α) : Tree α → α → Prop
  | .nil,          _ => True
  | .node n c l r, p =>
    m.color n = c ∧ m.parent n = some p ∧ m.child .left n = l.root ∧ m.child .right n = r.root
      ∧ Sub m l n ∧ Sub m r n

/-- The memory holds the tree below the header. -/
def Rep (m : Mem α) (h : α) (T : Tree α) : Prop := m.parent h = T.root ∧ Sub m T h

/-- The node above a place. -/
def anchor (h : α) : List (Frame α) → α
  | []     => h
  | f :: _ => f.name

/-- The memory holds everything but the tree at the place, and has `q` for the link to it. -/
def Hole (m : Mem α) (h : α) : List (Frame α) → Option α → Prop
  | [],       q => m.parent h = q
  | f :: ctx, q =>
    m.color f.name = f.color ∧ m.parent f.name = some (anchor h ctx)
      ∧ m.child f.side f.name = q ∧ m.child f.side.flip f.name = f.sibling.root
      ∧ Sub m f.sibling f.name ∧ Hole m h ctx (some f.name)

/-- The link to a place is set. -/
def Mem.setLink [DecidableEq α] (m : Mem α) (h : α) : List (Frame α) → Option α → Mem α
  | [],     q => m.setParent h q
  | f :: _, q => m.setChild f.name f.side q

theorem sub_branch {m : Mem α} {s : Side} {n p : α} {c : Color} {a b : Tree α} :
    Sub m (branch s n c a b) p ↔
      m.color n = c ∧ m.parent n = some p ∧ m.child s n = a.root ∧ m.child s.flip n = b.root
        ∧ Sub m a n ∧ Sub m b n := by
  cases s with
  | left => rfl
  | right =>
    simp only [branch, Sub, Side.flip]
    tauto

theorem rep_plug {m : Mem α} {h : α} {t : Tree α} :
    Rep m h (plug ctx t) ↔ Sub m t (anchor h ctx) ∧ Hole m h ctx t.root := by
  induction ctx generalizing t with
  | nil => exact and_comm
  | cons f ctx ih =>
    rw [plug_cons, ih, sub_branch, root_branch]
    simp only [anchor, Hole]
    tauto

theorem Sub.congr {m m' : Mem α} {t : Tree α} {p : α} (h : Sub m t p)
    (hs : ∀ n ∈ t.toList, m.Same m' n) : Sub m' t p := by
  induction t generalizing p with
  | nil => trivial
  | node n c l r ihl ihr =>
    obtain ⟨hc, hp, hl, hr, hsl, hsr⟩ := h
    obtain ⟨hc', hp', hk'⟩ := hs n (by simp [toList])
    exact ⟨hc'.trans hc, hp'.trans hp, (hk' _).trans hl, (hk' _).trans hr,
      ihl hsl fun k hk => hs k (by simp [toList, hk]),
      ihr hsr fun k hk => hs k (by simp [toList, hk])⟩

theorem Sub.move {m m' : Mem α} {t : Tree α} {p p' : α} (h : Sub m t p) (hnd : t.toList.Nodup)
    (hr : ∀ n, t.root = some n → m'.parent n = some p')
    (hc : ∀ n ∈ t.toList, m'.color n = m.color n ∧ ∀ s, m'.child s n = m.child s n)
    (hp : ∀ n ∈ t.toList, t.root ≠ some n → m'.parent n = m.parent n) : Sub m' t p' := by
  cases t with
  | nil => trivial
  | node n c l r =>
    obtain ⟨hcn, -, hl, hrt, hsl, hsr⟩ := h
    have hnd' := nodup_middle.mp hnd
    rw [nodup_cons, mem_append, not_or] at hnd'
    have hself : n ∈ (node n c l r).toList := by simp [toList]
    have hin : ∀ k, k ∈ l.toList ∨ k ∈ r.toList → m.Same m' k := by
      intro k hk
      have hmem : k ∈ (node n c l r).toList := by
        rcases hk with hk | hk <;> simp [toList, hk]
      have hne : k ≠ n := by
        rintro rfl
        exact hk.elim hnd'.1.1 hnd'.1.2
      exact ⟨(hc k hmem).1, hp k hmem (by simpa [root] using hne.symm), (hc k hmem).2⟩
    exact ⟨(hc n hself).1.trans hcn, hr n rfl, ((hc n hself).2 _).trans hl,
      ((hc n hself).2 _).trans hrt, hsl.congr fun k hk => hin k (.inl hk),
      hsr.congr fun k hk => hin k (.inr hk)⟩

theorem Hole.congr {m m' : Mem α} {h : α} {q : Option α} (hh : Hole m h ctx q)
    (hp : m'.parent h = m.parent h) (hs : ∀ n ∈ names ctx, m.Same m' n) : Hole m' h ctx q := by
  induction ctx generalizing q with
  | nil => exact hp.trans hh
  | cons f ctx ih =>
    obtain ⟨hc, hpa, hk, hkf, hsub, hrest⟩ := hh
    obtain ⟨hc', hp', hk'⟩ := hs f.name (by simp [names])
    exact ⟨hc'.trans hc, hp'.trans hpa, (hk' _).trans hk, (hk' _).trans hkf,
      hsub.congr fun n hn => hs n (by simp [names, hn]),
      ih hrest fun n hn => hs n (by simp [names, hn])⟩

/-- The header's child links go to the ends of the order, or to the header itself. -/
def Ends (m : Mem α) (h : α) (T : Tree α) : Prop := ∀ s, m.child s h = some ((walk s T).headD h)

/-- With nothing before the place, its parent comes next. -/
theorem headD_aft {s : Side} (hf : fore s ctx = []) (h : α) :
    (aft s ctx).headD h = anchor h ctx := by
  cases ctx with
  | nil => rw [aft_nil]; rfl
  | cons f ctx =>
    obtain ⟨s', n, c, t⟩ := f
    rcases Side.eq_or s s' with rfl | rfl
    · rw [aft_cons]; rfl
    · rw [fore_cons_flip] at hf
      simp at hf

/-! ### Distinct nodes -/

theorem nodup_branch {s : Side} {n : α} {c : Color} {a b : Tree α} :
    (branch s n c a b).toList.Nodup ↔ n ∉ a.toList ∧ n ∉ b.toList ∧ a.toList.Nodup ∧ b.toList.Nodup
      ∧ ∀ k ∈ a.toList, k ∉ b.toList := by
  rw [(toList_perm_branch s n c a b).nodup_iff, nodup_cons, mem_append, not_or,
    nodup_append', disjoint_left]
  tauto

theorem nodup_plug {h : α} {t : Tree α} :
    (h :: (plug ctx t).toList).Nodup ↔
      t.toList.Nodup ∧ (h :: names ctx).Nodup ∧ ∀ n ∈ t.toList, n ≠ h ∧ n ∉ names ctx := by
  rw [((plug_perm ctx t).cons h).nodup_iff, nodup_cons, nodup_cons, mem_append, not_or,
    nodup_append', disjoint_left]
  constructor
  · rintro ⟨⟨ht, hc⟩, hnt, hnc, hd⟩
    exact ⟨hnt, ⟨hc, hnc⟩, fun n hn => ⟨fun e => ht (e ▸ hn), hd hn⟩⟩
  · rintro ⟨hnt, ⟨hc, hnc⟩, hd⟩
    exact ⟨⟨fun ht => (hd h ht).1 rfl, hc⟩, hnt, hnc, fun n hn => (hd n hn).2⟩

/-! ### Changes -/

/-- The memory holds the tree below the header, with nodes that are all different. -/
structure Holds (m : Mem α) (h : α) (T : Tree α) : Prop where
  rep : Rep m h T
  nodup : (h :: T.toList).Nodup

/-- The tree that a memory holds becomes another with the same nodes in order, and nothing else
changes. -/
structure Moves (m m' : Mem α) (h : α) (T T' : Tree α) : Prop where
  holds : Holds m' h T'
  toList : T'.toList = T.toList
  ends : ∀ s, m'.child s h = m.child s h
  color : m'.color h = m.color h
  outside : ∀ n, n ≠ h → n ∉ T.toList → m.Same m' n

theorem Moves.refl {m : Mem α} {h : α} {T : Tree α} (hm : Holds m h T) : Moves m m h T T :=
  ⟨hm, rfl, fun _ => rfl, rfl, fun n _ _ => .refl m n⟩

theorem Moves.keep_ends {m m' : Mem α} {h : α} {T T' : Tree α} (hr : Moves m m' h T T')
    (he : Ends m h T) : Ends m' h T' := fun s => by
  rw [hr.ends, he, walk_congr hr.toList]

theorem Moves.trans {m m' m'' : Mem α} {h : α} {T T' T'' : Tree α} (hr : Moves m m' h T T')
    (hr' : Moves m' m'' h T' T'') : Moves m m'' h T T'' :=
  ⟨hr'.holds, hr'.toList.trans hr.toList, fun s => (hr'.ends s).trans (hr.ends s),
    hr'.color.trans hr.color,
    fun n hn hnT => (hr.outside n hn hnT).trans (hr'.outside n hn (hr.toList ▸ hnT))⟩

/-- A sibling of a place is itself at a place. -/
theorem plug_swap (f : Frame α) (ctx : List (Frame α)) (t : Tree α) :
    plug (f :: ctx) t = plug (⟨f.side.flip, f.name, f.color, t⟩ :: ctx) f.sibling := by
  rw [plug_cons, plug_cons, branch_flip]

/-! ### What the memory says around a place -/

section Reads
variable {m : Mem α} {h : α} {f : Frame α} {ctx : List (Frame α)} {t : Tree α} {x : α}

theorem Hole.header_ne {q : Option α} (hh : Hole m h (f :: ctx) q) (hx : x ∉ names (f :: ctx)) :
    m.parent h ≠ some x := by
  induction ctx generalizing f q with
  | nil =>
    obtain ⟨-, -, -, -, -, hroot⟩ := hh
    intro e
    rw [hroot, Option.some_inj] at e
    exact hx (by simp [names, e])
  | cons g ctx ih =>
    obtain ⟨-, -, -, -, -, hrest⟩ := hh
    refine ih hrest fun hm => hx ?_
    rw [names]
    exact mem_cons_of_mem _ (mem_append_right _ hm)

theorem Hole.header_ne_none {q : Option α} (hh : Hole m h (f :: ctx) q) : m.parent h ≠ none := by
  induction ctx generalizing f q with
  | nil =>
    obtain ⟨-, -, -, -, -, hroot⟩ := hh
    rw [hroot]
    exact Option.some_ne_none _
  | cons g ctx ih =>
    obtain ⟨-, -, -, -, -, hrest⟩ := hh
    exact ih hrest

theorem Holds.header_ne_none (hm : Holds m h (plug (f :: ctx) t)) : m.parent h ≠ none :=
  (rep_plug.mp hm.rep).2.header_ne_none

theorem Holds.header_ne (hm : Holds m h (plug (f :: ctx) t)) (hx : t.root = some x) :
    m.parent h ≠ some x := by
  have hnd := nodup_plug.mp hm.nodup
  exact (rep_plug.mp hm.rep).2.header_ne (hnd.2.2 x (mem_toList_of_root hx)).2

theorem Holds.parent (hm : Holds m h (plug ctx t)) (hx : t.root = some x) :
    m.parent x = some (anchor h ctx) := by
  have hsub := (rep_plug.mp hm.rep).1
  cases t with
  | nil => cases hx
  | node n c l r =>
    cases hx
    exact hsub.2.1

theorem Holds.color (hm : Holds m h (plug ctx t)) (hx : t.root = some x) : m.color x = t.color := by
  have hsub := (rep_plug.mp hm.rep).1
  cases t with
  | nil => cases hx
  | node n c l r =>
    cases hx
    exact hsub.1

theorem Holds.child {s : Side} {c : Color} {a b : Tree α} (hm : Holds m h (plug ctx (branch s x c a b))) :
    m.child s x = a.root ∧ m.child s.flip x = b.root := by
  obtain ⟨-, -, ha, hb, -⟩ := sub_branch.mp (rep_plug.mp hm.rep).1
  exact ⟨ha, hb⟩

theorem Holds.child_mem {s : Side} {k : α} (hm : Holds m h (plug ctx t)) (hx : t.root = some x)
    (hk : m.child s x = some k) : k ∈ t.toList ∧ k ≠ h ∧ k ∉ names ctx := by
  obtain ⟨c, a, b, rfl⟩ := eq_branch_of_root s hx
  have hin : k ∈ (branch s x c a b).toList := by
    rw [hm.child.1] at hk
    simp [mem_toList_of_root hk]
  exact ⟨hin, (nodup_plug.mp hm.nodup).2.2 k hin⟩

theorem Holds.above (hm : Holds m h (plug (f :: ctx) t)) :
    m.color f.name = f.color ∧ m.parent f.name = some (anchor h ctx)
      ∧ m.child f.side f.name = t.root ∧ m.child f.side.flip f.name = f.sibling.root := by
  obtain ⟨hc, hp, hk, hkf, -⟩ := (rep_plug.mp hm.rep).2
  exact ⟨hc, hp, hk, hkf⟩

theorem Holds.sibling_ne (hm : Holds m h (plug (f :: ctx) t)) (hx : x ∈ t.toList) :
    f.sibling.root ≠ some x := fun e =>
  ((nodup_plug.mp hm.nodup).2.2 x hx).2 (by simp [names, mem_toList_of_root e])

theorem Holds.child_eq_iff (hm : Holds m h (plug (f :: ctx) t)) (hx : t.root = some x) (s : Side) :
    m.child s f.name = some x ↔ s = f.side := by
  obtain ⟨-, -, hk, hkf⟩ := hm.above
  rcases Side.eq_or f.side s with rfl | rfl
  · rw [hk, hx]
    simp
  · rw [hkf]
    simp [hm.sibling_ne (mem_toList_of_root hx)]

/-- A place that may be empty is on the side of its parent where the link to it is, when there is a
sibling. -/
theorem Holds.side_iff (hm : Holds m h (plug (f :: ctx) t)) (hs : f.sibling.root ≠ none) (s : Side) :
    t.root = m.child s f.name ↔ s = f.side := by
  obtain ⟨-, -, hk, hkf⟩ := hm.above
  rcases Side.eq_or f.side s with rfl | rfl
  · simp [hk]
  · rw [hkf]
    simp only [Side.flip_ne, iff_false]
    cases hx : t.root with
    | none   => exact hs.symm
    | some x => exact (hm.sibling_ne (mem_toList_of_root hx)).symm

end Reads

section Change
variable [DecidableEq α] {m m' : Mem α} {h : α} {ctx : List (Frame α)}

theorem Hole.setLink {q q' : Option α} (hh : Hole m h ctx q) (hnd : (h :: names ctx).Nodup) :
    Hole (m.setLink h ctx q') h ctx q' := by
  cases ctx with
  | nil => simp [Hole, Mem.setLink]
  | cons f ctx =>
    obtain ⟨hc, hp, -, hk, hs, hrest⟩ := hh
    simp only [names, nodup_cons, mem_cons, mem_append, not_or] at hnd
    obtain ⟨⟨-, -, -⟩, ⟨hfs, hfc⟩, -⟩ := hnd
    have same : ∀ n, n ≠ f.name → m.Same (m.setChild f.name f.side q') n := fun n hn =>
      ⟨rfl, rfl, fun s => by simp [hn]⟩
    refine ⟨hc, hp, by simp [Mem.setLink], by simp [Mem.setLink, hk], ?_, ?_⟩
    · exact hs.congr fun n hn => same n fun e => hfs (e ▸ hn)
    · exact hrest.congr rfl fun n hn => same n fun e => hfc (e ▸ hn)

theorem Mem.setLink_color (q : Option α) : (m.setLink h ctx q).color = m.color := by
  cases ctx <;> rfl

theorem Mem.setLink_parent {q : Option α} {n : α} (hn : n ≠ h) :
    (m.setLink h ctx q).parent n = m.parent n := by
  cases ctx with
  | nil      => simp [setLink, hn]
  | cons f _ => rfl

theorem Mem.setLink_child {q : Option α} {n : α} (hn : n ∉ names ctx) (s : Side) :
    (m.setLink h ctx q).child s n = m.child s n := by
  cases ctx with
  | nil      => rfl
  | cons f _ =>
    have hne : n ≠ f.name := fun e => hn (by simp [names, e])
    simp [setLink, hne]

theorem Holds.setColor (ctx : List (Frame α)) (c' : Color) {s : Side} {n : α} {c : Color}
    {a b : Tree α} (hm : Holds m h (plug ctx (branch s n c a b))) :
    Moves m (m.setColor n c') h (plug ctx (branch s n c a b)) (plug ctx (branch s n c' a b)) := by
  obtain ⟨hr, hnd⟩ := hm
  have hlist : (plug ctx (branch s n c' a b)).toList = (plug ctx (branch s n c a b)).toList :=
    toList_plug_congr ctx (by cases s <;> rfl)
  have hnd' := hnd
  rw [← hlist] at hnd'
  rw [rep_plug, sub_branch] at hr
  obtain ⟨⟨-, hp, hka, hkb, ha, hb⟩, hhole⟩ := hr
  rw [nodup_plug, nodup_branch] at hnd
  obtain ⟨⟨hna, hnb, -⟩, -, hout⟩ := hnd
  obtain ⟨hnh, hnc⟩ := hout n (by simp)
  have same : ∀ k, k ≠ n → m.Same (m.setColor n c') k := fun k hk =>
    ⟨by simp [hk], rfl, fun _ => rfl⟩
  refine ⟨⟨?_, hnd'⟩, hlist, fun _ => rfl, by simp [hnh.symm], fun k _ hk => same k fun e => hk ?_⟩
  · rw [rep_plug, sub_branch]
    refine ⟨⟨by simp, hp, hka, hkb, ?_, ?_⟩, ?_⟩
    · exact ha.congr fun k hk => same k fun e => hna (e ▸ hk)
    · exact hb.congr fun k hk => same k fun e => hnb (e ▸ hk)
    · rw [root_branch] at hhole ⊢
      exact hhole.congr rfl fun k hk => same k fun e => hnc (e ▸ hk)
  · rw [mem_plug]
    simp [e]

theorem Holds.rotate {s : Side} {x y : α} {cx cy : Color} {a b c : Tree α}
    (hm : Holds m h (plug ctx (branch s.flip x cx (branch s y cy b c) a)))
    (hcolor : m'.color = m.color)
    (hparent : ∀ n, m'.parent n =
      if n = x then some y
      else if n = y then some (anchor h ctx)
      else if b.root = some n then some x
      else (m.setLink h ctx (some y)).parent n)
    (hchild : ∀ s' n, m'.child s' n =
      if s' = s.flip ∧ n = x then b.root
      else if s' = s ∧ n = y then some x
      else (m.setLink h ctx (some y)).child s' n) :
    Moves m m' h (plug ctx (branch s.flip x cx (branch s y cy b c) a))
      (plug ctx (branch s y cy (branch s x cx a b) c)) := by
  obtain ⟨hr, hnd⟩ := hm
  have hlist : (plug ctx (branch s y cy (branch s x cx a b) c)).toList
      = (plug ctx (branch s.flip x cx (branch s y cy b c) a)).toList :=
    toList_plug_congr ctx (toList_rotate s x y cx cy cx cy a b c)
  have hnd' := hnd
  rw [← hlist] at hnd'
  rw [rep_plug, sub_branch, sub_branch, Side.flip_flip] at hr
  obtain ⟨⟨hcx, hpx, -, hxa, ⟨hcy, -, -, hyc, hb, hc⟩, ha⟩, hhole⟩ := hr
  rw [nodup_plug, nodup_branch, nodup_branch] at hnd
  simp only [mem_branch, not_or] at hnd
  obtain ⟨⟨⟨hxy, hxb, hxc⟩, hxa', ⟨hyb, hyc', hbn, hcn, hbc⟩, han, hdis⟩, hctx, hout⟩ := hnd
  have hroot : ∀ n, b.root = some n → n ∈ b.toList := fun n => mem_toList_of_root
  have hxo := hout x (.inl rfl)
  have hyo := hout y (.inr (.inl (.inl rfl)))
  -- below the place nothing but `x`, `y` and the root of `b` changes
  have same : ∀ k, k ≠ h → k ∉ names ctx → k ≠ x → k ≠ y → b.root ≠ some k → m.Same m' k := by
    intro k hkh hkc hkx hky hkb
    refine ⟨by rw [hcolor], ?_, fun s' => ?_⟩
    · rw [hparent, if_neg hkx, if_neg hky, if_neg hkb, Mem.setLink_parent hkh]
    · rw [hchild, if_neg (by simp [hkx]), if_neg (by simp [hky]), Mem.setLink_child hkc]
  -- and on the way to it the link to the place
  have above : ∀ k, k ≠ x → k ≠ y → b.root ≠ some k → (m.setLink h ctx (some y)).Same m' k := by
    intro k hkx hky hkb
    refine ⟨by rw [hcolor, Mem.setLink_color], ?_, fun s' => ?_⟩
    · rw [hparent, if_neg hkx, if_neg hky, if_neg hkb]
    · rw [hchild, if_neg (by simp [hkx]), if_neg (by simp [hky])]
  have sub_a : Sub m' a x := by
    refine ha.congr fun k hk => ?_
    have hko := hout k (.inr (.inr hk))
    refine same k hko.1 hko.2 (fun e => hxa' (e ▸ hk)) (fun e => ?_) fun e => ?_
    · exact hdis k (.inl e) hk
    · exact hdis k (.inr (.inl (hroot k e))) hk
  have sub_c : Sub m' c y := by
    refine hc.congr fun k hk => ?_
    have hko := hout k (.inr (.inl (.inr (.inr hk))))
    refine same k hko.1 hko.2 (fun e => hxc (e ▸ hk)) (fun e => hyc' (e ▸ hk)) fun e => ?_
    exact hbc k (hroot k e) hk
  have sub_b : Sub m' b x := by
    have hne : ∀ k ∈ b.toList, k ≠ x ∧ k ≠ y := fun k hk =>
      ⟨fun e => hxb (e ▸ hk), fun e => hyb (e ▸ hk)⟩
    have hko : ∀ k ∈ b.toList, k ≠ h ∧ k ∉ names ctx := fun k hk => hout k (.inr (.inl (.inr (.inl hk))))
    refine hb.move hbn (fun k hk => ?_) (fun k hk => ⟨by rw [hcolor], fun s' => ?_⟩) fun k hk hkr => ?_
    · have := hne k (hroot k hk)
      rw [hparent, if_neg this.1, if_neg this.2, if_pos hk]
    · rw [hchild, if_neg (by simp [hne k hk]), if_neg (by simp [hne k hk]),
        Mem.setLink_child (hko k hk).2]
    · rw [hparent, if_neg (hne k hk).1, if_neg (hne k hk).2, if_neg hkr,
        Mem.setLink_parent (hko k hk).1]
  have parent_h : m'.parent h = (m.setLink h ctx (some y)).parent h := by
    refine (above h hxo.1.symm hyo.1.symm fun e => ?_).2.1
    exact (hout h (.inr (.inl (.inr (.inl (hroot h e)))))).1 rfl
  have hole : Hole m' h ctx (some y) := by
    refine (hhole.setLink hctx).congr parent_h fun k hk => ?_
    refine above k (fun e => hxo.2 (e ▸ hk)) (fun e => hyo.2 (e ▸ hk)) fun e => ?_
    exact (hout k (.inr (.inl (.inr (.inl (hroot k e)))))).2 hk
  have hhc : h ∉ names ctx := (nodup_cons.mp hctx).1
  refine ⟨⟨?_, hnd'⟩, hlist, fun s' => ?_, by rw [hcolor], fun k hkh hk => ?_⟩
  · rw [rep_plug, sub_branch, sub_branch, root_branch, root_branch]
    refine ⟨⟨by rw [hcolor, hcy], ?_, ?_, ?_, ⟨by rw [hcolor, hcx], ?_, ?_, ?_, sub_a, sub_b⟩, sub_c⟩,
      hole⟩
    · rw [hparent, if_neg (Ne.symm hxy), if_pos rfl]
    · rw [hchild, if_neg (by simp), if_pos ⟨rfl, rfl⟩]
    · rw [hchild, if_neg (by simp [Ne.symm hxy]), if_neg (by simp), Mem.setLink_child hyo.2, hyc]
    · rw [hparent, if_pos rfl]
    · rw [hchild, if_neg (by simp), if_neg (by simp [hxy]), Mem.setLink_child hxo.2, hxa]
    · rw [hchild, if_pos ⟨rfl, rfl⟩]
  · rw [hchild, if_neg (by simp [hxo.1.symm]), if_neg (by simp [hyo.1.symm]), Mem.setLink_child hhc]
  · rw [mem_plug] at hk
    simp only [mem_branch, not_or] at hk
    obtain ⟨⟨hkx, ⟨hky, hkb, -⟩, -⟩, hkc⟩ := hk
    exact same k hkh hkc hkx hky fun e => hkb (hroot k e)

omit [DecidableEq α] in
theorem Holds.congr {T : Tree α} (hm : Holds m h T) (hp : m'.parent h = m.parent h)
    (hs : ∀ n ∈ T.toList, m.Same m' n) : Holds m' h T :=
  ⟨⟨hp.trans hm.rep.1, hm.rep.2.congr hs⟩, hm.nodup⟩

/-- The header's child links are not part of the tree. -/
theorem Holds.setEnd {T : Tree α} (hm : Holds m h T) (s : Side) (q : Option α) :
    Holds (m.setChild h s q) h T := by
  refine hm.congr rfl fun n hn => ⟨rfl, rfl, fun s' => ?_⟩
  have hne : n ≠ h := fun e => (nodup_cons.mp hm.nodup).1 (e ▸ hn)
  rw [Mem.setChild_child, if_neg fun e => hne e.2]

/-- A new node goes to a place where there is none. -/
theorem Holds.attach {z : α} (hm : Holds m h (plug ctx .nil)) (hzh : z ≠ h) (hz : z ∉ names ctx)
    (hparent : m'.parent z = some (anchor h ctx)) (hchild : ∀ s, m'.child s z = none)
    (hheader : m'.parent h = (m.setLink h ctx (some z)).parent h)
    (hs : ∀ n ∈ names ctx, (m.setLink h ctx (some z)).Same m' n) :
    Holds m' h (plug ctx (.node z (m'.color z) .nil .nil)) := by
  obtain ⟨-, hhole⟩ := rep_plug.mp hm.rep
  obtain ⟨-, hctx, -⟩ := nodup_plug.mp hm.nodup
  constructor
  · rw [rep_plug]
    exact ⟨⟨rfl, hparent, hchild _, hchild _, trivial, trivial⟩, (hhole.setLink hctx).congr hheader hs⟩
  · rw [nodup_plug]
    simpa [toList] using ⟨nodup_cons.mp hctx, hzh, hz⟩

/-- A tree takes the place of its parent, which has no other child. -/
theorem Holds.unlink {s : Side} {z : α} {c : Color} {t : Tree α}
    (hm : Holds m h (plug ctx (branch s z c t .nil))) :
    Holds ((m.setParent? t.root (some (anchor h ctx))).setLink h ctx t.root) h (plug ctx t) := by
  obtain ⟨hsub, hhole⟩ := rep_plug.mp hm.rep
  obtain ⟨-, -, -, -, ht, -⟩ := sub_branch.mp hsub
  obtain ⟨hnd, hctx, hout⟩ := nodup_plug.mp hm.nodup
  obtain ⟨hzt, -, htn, -⟩ := nodup_branch.mp hnd
  have htout : ∀ n ∈ t.toList, n ≠ h ∧ n ∉ names ctx := fun n hn => hout n (by simp [hn])
  have hroot : ∀ n, t.root = some n → n ∈ t.toList := fun n => mem_toList_of_root
  constructor
  · rw [rep_plug]
    refine ⟨ht.move htn (fun n hn => ?_) (fun n hn => ⟨?_, fun s' => ?_⟩) fun n hn hr => ?_, ?_⟩
    · rw [Mem.setLink_parent (htout n (hroot n hn)).1, Mem.setParent?_parent, if_pos hn]
    · rw [Mem.setLink_color, Mem.setParent?_color]
    · rw [Mem.setLink_child (htout n hn).2, Mem.setParent?_child]
    · rw [Mem.setLink_parent (htout n hn).1, Mem.setParent?_parent, if_neg hr]
    · refine (hhole.congr ?_ fun n hn => ⟨by simp, ?_, fun s' => by simp⟩).setLink hctx
      · rw [Mem.setParent?_parent, if_neg fun e => (htout h (hroot h e)).1 rfl]
      · rw [Mem.setParent?_parent, if_neg fun e => (htout n (hroot n e)).2 hn]
  · rw [nodup_plug]
    exact ⟨htn, hctx, htout⟩

/-- A new node takes over the colour and the links of another. -/
theorem Holds.substitute {s : Side} {z y : α} {c : Color} {a b : Tree α}
    (hm : Holds m h (plug ctx (branch s z c a b))) (hyh : y ≠ h)
    (hy : y ∉ (plug ctx (branch s z c a b)).toList)
    (hcolor : m'.color y = c) (hparent : m'.parent y = some (anchor h ctx))
    (hnear : m'.child s y = a.root) (hfar : m'.child s.flip y = b.root)
    (hroot : ∀ n, a.root = some n ∨ b.root = some n → m'.parent n = some y)
    (hheader : m'.parent h = (m.setLink h ctx (some y)).parent h)
    (hs : ∀ n ∈ a.toList ++ b.toList, m'.color n = m.color n ∧ ∀ s, m'.child s n = m.child s n)
    (hp : ∀ n ∈ a.toList ++ b.toList, a.root ≠ some n → b.root ≠ some n → m'.parent n = m.parent n)
    (hup : ∀ n ∈ names ctx, (m.setLink h ctx (some y)).Same m' n) :
    Holds m' h (plug ctx (branch s y c a b)) := by
  obtain ⟨hsub, hhole⟩ := rep_plug.mp hm.rep
  obtain ⟨-, -, -, -, ha, hb⟩ := sub_branch.mp hsub
  obtain ⟨hnd, hctx, hout⟩ := nodup_plug.mp hm.nodup
  obtain ⟨hza, hzb, han, hbn, hab⟩ := nodup_branch.mp hnd
  simp only [mem_plug, mem_branch, not_or] at hy
  obtain ⟨⟨-, hya, hyb⟩, hyc⟩ := hy
  have hra : ∀ n, a.root = some n → n ∈ a.toList := fun n => mem_toList_of_root
  have hrb : ∀ n, b.root = some n → n ∈ b.toList := fun n => mem_toList_of_root
  constructor
  · rw [rep_plug, sub_branch, root_branch]
    refine ⟨⟨hcolor, hparent, hnear, hfar, ?_, ?_⟩, (hhole.setLink hctx).congr hheader hup⟩
    · refine ha.move han (fun n hn => hroot n (.inl hn)) (fun n hn => hs n (by simp [hn])) fun n hn hr => ?_
      exact hp n (by simp [hn]) hr fun e => hab n hn (hrb n e)
    · refine hb.move hbn (fun n hn => hroot n (.inr hn)) (fun n hn => hs n (by simp [hn])) fun n hn hr => ?_
      exact hp n (by simp [hn]) (fun e => hab n (hra n e) hn) hr
  · rw [nodup_plug, nodup_branch]
    refine ⟨⟨hya, hyb, han, hbn, hab⟩, hctx, fun n hn => ?_⟩
    rw [mem_branch] at hn
    rcases hn with rfl | hn
    · exact ⟨hyh, hyc⟩
    · exact hout n (by simp [hn])

omit [DecidableEq α] in
theorem anchor_append (h : α) (ctx' : List (Frame α)) (f : Frame α) (ctx : List (Frame α)) :
    anchor h (ctx' ++ f :: ctx) = anchor f.name ctx' := by cases ctx' <;> rfl

omit [DecidableEq α] in
theorem names_append (ctx ctx' : List (Frame α)) : names (ctx ++ ctx') = names ctx ++ names ctx' := by
  induction ctx with
  | nil => rfl
  | cons f ctx ih => simp [names, ih]

/-- A node `y` below `z`, with one child `t`, gives its place to the child and takes that of `z`. -/
theorem Holds.splice {s : Side} {ctx' : List (Frame α)} {z y : α} {cz cy : Color} {t l : Tree α}
    (hm : Holds m h (plug (ctx' ++ ⟨s, z, cz, l⟩ :: ctx) (branch s y cy t .nil)))
    (hcolor : ∀ n, n ≠ z → m'.color n = if n = y then cz else m.color n)
    (hparent : ∀ n, n ≠ z → m'.parent n =
      if n = y then some (anchor h ctx)
      else if l.root = some n ∨ (plug ctx' t).root = some n then some y
      else if t.root = some n then some (anchor y ctx')
      else (m.setLink h ctx (some y)).parent n)
    (hchild : ∀ s' n, n ≠ z → m'.child s' n =
      if n = y then if s' = s then (plug ctx' t).root else l.root
      else ((m.setLink y ctx' t.root).setLink h ctx (some y)).child s' n) :
    Holds m' h (plug (ctx' ++ ⟨s, y, cz, l⟩ :: ctx) t) := by
  obtain ⟨hnd, hctx, hout⟩ := nodup_plug.mp hm.nodup
  obtain ⟨hyt, -, htn, -⟩ := nodup_branch.mp hnd
  obtain ⟨hyh, hyc⟩ := hout y (by simp)
  obtain ⟨m₁, hm₁, hcol₁, hpar₁, hchi₁⟩ : ∃ m₁,
    (m.setParent? t.root (some (anchor h (ctx' ++ ⟨s, z, cz, l⟩ :: ctx)))).setLink
      h (ctx' ++ ⟨s, z, cz, l⟩ :: ctx) t.root = m₁ ∧ m₁.color = m.color
      ∧ (∀ n, m₁.parent n = if t.root = some n then some (anchor z ctx') else m.parent n)
      ∧ ∀ s' n, n ≠ z → m₁.child s' n = (m.setLink y ctx' t.root).child s' n := by
    refine ⟨_, rfl, by simp [Mem.setLink_color], fun n => ?_, fun s' n hn => ?_⟩
    · rw [anchor_append]
      cases ctx' <;> simp [Mem.setLink]
    · cases ctx' <;> simp [Mem.setLink, hn]
  have hold := hm.unlink
  rw [hm₁] at hold
  have hy : y ∉ (plug (ctx' ++ ⟨s, z, cz, l⟩ :: ctx) t).toList := by
    rw [mem_plug, not_or]
    exact ⟨hyt, hyc⟩
  simp only [plug_append, plug_cons] at hold hy ⊢
  obtain ⟨hnd', hctx', hout'⟩ := nodup_plug.mp hold.nodup
  obtain ⟨hzr, hzl, -⟩ := nodup_branch.mp hnd'
  obtain ⟨hzh, hzc⟩ := hout' z (by simp)
  simp only [mem_plug, mem_branch, not_or] at hy
  obtain ⟨⟨hyz, hyr', hyl⟩, hyc'⟩ := hy
  have hyr : y ∉ (plug ctx' t).toList := by rwa [mem_plug, not_or]
  have hin : ∀ n, n ∈ (plug ctx' t).toList ++ l.toList → n ≠ z ∧ n ≠ y ∧ n ≠ h ∧ n ∉ names ctx := by
    intro n hn
    obtain ⟨hnh, hnc⟩ := hout' n (by rw [mem_branch]; exact .inr (mem_append.mp hn))
    refine ⟨?_, ?_, hnh, hnc⟩ <;> rintro rfl
    · exact (mem_append.mp hn).elim hzr hzl
    · exact (mem_append.mp hn).elim hyr hyl
  have hrin : ∀ n, (plug ctx' t).root = some n ∨ l.root = some n → n ∈ (plug ctx' t).toList ++ l.toList :=
    fun n hn => mem_append.mpr (hn.imp mem_toList_of_root mem_toList_of_root)
  have htin : ∀ n, t.root = some n → n ∈ (plug ctx' t).toList ++ l.toList := fun n hn =>
    mem_append_left _ (mem_plug.mpr (.inl (mem_toList_of_root hn)))
  have hup : ∀ n, n = h ∨ n ∈ names ctx → n ≠ z ∧ n ≠ y
      ∧ ¬(l.root = some n ∨ (plug ctx' t).root = some n) ∧ t.root ≠ some n := by
    intro n hn
    have hnin : n ∉ (plug ctx' t).toList ++ l.toList := fun e =>
      hn.elim (hin n e).2.2.1 (hin n e).2.2.2
    refine ⟨?_, ?_, fun e => hnin (hrin n e.symm), fun e => hnin (htin n e)⟩ <;> rintro rfl
    · exact hn.elim hzh hzc
    · exact hn.elim hyh hyc'
  refine hold.substitute hyh (by simp [mem_plug, *]) ?_ ?_ ?_ ?_ (fun n hn => ?_) ?_
    (fun n hn => ⟨?_, fun s' => ?_⟩) (fun n hn hnr hnl => ?_) fun n hn => ⟨?_, ?_, fun s' => ?_⟩
  · rw [hcolor y hyz, if_pos rfl]
  · rw [hparent y hyz, if_pos rfl]
  · rw [hchild s y hyz, if_pos rfl, if_pos rfl]
  · rw [hchild s.flip y hyz, if_pos rfl, if_neg (Side.flip_ne s)]
  · obtain ⟨hnz, hny, -, -⟩ := hin n (hrin n hn)
    rw [hparent n hnz, if_neg hny, if_pos hn.symm]
  · obtain ⟨hhz, hhy, hhr, hht⟩ := hup h (.inl rfl)
    rw [hparent h hhz, if_neg hhy, if_neg hhr, if_neg hht]
    cases ctx <;> simp [Mem.setLink, hpar₁, hht]
  · obtain ⟨hnz, hny, -, -⟩ := hin n hn
    rw [hcolor n hnz, if_neg hny, hcol₁]
  · obtain ⟨hnz, hny, -, hnc⟩ := hin n hn
    rw [hchild s' n hnz, if_neg hny, Mem.setLink_child hnc, hchi₁ s' n hnz]
  · obtain ⟨hnz, hny, hnh, -⟩ := hin n hn
    rw [hparent n hnz, if_neg hny, if_neg (by simp [hnr, hnl]), Mem.setLink_parent hnh, hpar₁]
    cases ctx' with
    | nil =>
      have hnt : t.root ≠ some n := hnr
      rw [if_neg hnt, if_neg hnt]
    | cons f _ => rfl
  · obtain ⟨hnz, hny, -, -⟩ := hup n (.inr hn)
    rw [hcolor n hnz, if_neg hny, Mem.setLink_color, hcol₁]
  · obtain ⟨hnz, hny, hnr, hnt⟩ := hup n (.inr hn)
    have hnh : n ≠ h := fun e => (nodup_cons.mp hctx').1 (e ▸ hn)
    rw [hparent n hnz, if_neg hny, if_neg hnr, if_neg hnt, Mem.setLink_parent hnh,
      Mem.setLink_parent hnh, hpar₁, if_neg hnt]
  · obtain ⟨hnz, hny, -, -⟩ := hup n (.inr hn)
    rw [hchild s' n hnz, if_neg hny]
    cases ctx with
    | nil      => simp [names] at hn
    | cons f _ => simp [Mem.setLink, hchi₁ s' n hnz]

end Change

end SourceLibs.RedBlackTree
