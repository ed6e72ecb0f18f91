import Mathlib.Algebra.Order.Ring.Nat
import Mathlib.Data.List.Nodup

/-!
# Support — red-black trees around a place

Red-black trees with named nodes.  Left and right are two values of one type, so that a tree and its
mirror image are one case.  A place in a tree is a list of frames, the parent of the place first, and
`plug` puts a tree there.

* `Balanced`: no red node has a red child, and every way down meets the same number of black nodes.
* `Above`: what the frames ask of the tree at the place.
* `balanced_iff`: the two conditions read off the ways down.
* `RedBlack.height_le`: the height of such a tree.
* `Trunk`, `Lack`: a tree at a place after an insertion or a removal, one step from balanced.
-/

namespace SourceLibs.RedBlackTree
open List

/-- A side of a node. -/
inductive Side
  | left
  | right
  deriving DecidableEq, Repr

/-- The other side. -/
def Side.flip : Side → Side
  | .left  => .right
  | .right => .left

variable {n : ℕ} (s : Side)

@[simp] theorem Side.flip_flip : s.flip.flip = s := by cases s <;> rfl

@[simp] theorem Side.flip_ne : s.flip ≠ s := by cases s <;> nofun

@[simp] theorem Side.ne_flip : s ≠ s.flip := by cases s <;> nofun

theorem Side.eq_or (s s' : Side) : s' = s ∨ s' = s.flip := by cases s <;> cases s' <;> simp [flip]

/-- The color of a node. -/
inductive Color
  | red
  | black
  deriving DecidableEq, Repr

/-- A binary tree of named and coloured nodes. -/
inductive Tree (α : Type*)
  | nil
  | node (name : α) (color : Color) (left right : Tree α)

/-- A node on the way down to a place: the side of the place, and the tree on the other side. -/
structure Frame (α : Type*) where
  side : Side
  name : α
  color : Color
  sibling : Tree α

variable {α : Type*}

namespace Tree

/-- The names in order. -/
def toList : Tree α → List α
  | nil          => []
  | node n _ l r => l.toList ++ n :: r.toList

/-- The nodes on the longest path down. -/
def height : Tree α → ℕ
  | nil          => 0
  | node _ _ l r => max l.height r.height + 1

/-- The name of the root. -/
def root : Tree α → Option α
  | nil          => none
  | node n _ _ _ => some n

/-- The colour of the root; a missing tree counts as black. -/
def color : Tree α → Color
  | nil          => .black
  | node _ c _ _ => c

/-- The tree with its root in another colour. -/
def paint (c : Color) : Tree α → Tree α
  | nil          => nil
  | node n _ l r => node n c l r

/-- The node with `near` on the side `s` and `far` on the other. -/
def branch : Side → α → Color → Tree α → Tree α → Tree α
  | .left,  n, c, near, far => node n c near far
  | .right, n, c, near, far => node n c far near

@[simp] theorem toList_nil : (nil : Tree α).toList = [] := rfl
@[simp] theorem root_nil : (nil : Tree α).root = none := rfl
@[simp] theorem color_nil : (nil : Tree α).color = .black := rfl

variable (s : Side)

@[simp] theorem root_branch (n : α) (c : Color) (a b : Tree α) :
    (branch s n c a b).root = some n := by cases s <;> rfl

@[simp] theorem color_branch (n : α) (c : Color) (a b : Tree α) :
    (branch s n c a b).color = c := by cases s <;> rfl

@[simp] theorem paint_branch (n : α) (c c' : Color) (a b : Tree α) :
    (branch s n c a b).paint c' = branch s n c' a b := by cases s <;> rfl

theorem branch_flip (n : α) (c : Color) (a b : Tree α) :
    branch s.flip n c a b = branch s n c b a := by cases s <;> rfl

theorem node_eq_branch (n : α) (c : Color) (l r : Tree α) :
    ∃ a b, node n c l r = branch s n c a b := by
  cases s with
  | left  => exact ⟨l, r, rfl⟩
  | right => exact ⟨r, l, rfl⟩

theorem eq_branch_of_root {t : Tree α} {n : α} (h : t.root = some n) :
    ∃ c a b, t = branch s n c a b := by
  cases t with
  | nil => cases h
  | node k c l r =>
    cases h
    obtain ⟨a, b, hab⟩ := node_eq_branch s n c l r
    exact ⟨c, a, b, hab⟩

theorem root_eq_none {t : Tree α} : t.root = none ↔ t = nil := by cases t <;> simp [root]

@[simp] theorem toList_paint (c : Color) (t : Tree α) : (t.paint c).toList = t.toList := by
  cases t <;> rfl

@[simp] theorem root_paint (c : Color) (t : Tree α) : (t.paint c).root = t.root := by cases t <;> rfl

theorem mem_toList_of_root {t : Tree α} {n : α} (h : t.root = some n) : n ∈ t.toList := by
  cases t with
  | nil => cases h
  | node k c l r =>
    cases h
    simp [toList]

theorem toList_perm_branch (n : α) (c : Color) (a b : Tree α) :
    (branch s n c a b).toList.Perm (n :: (a.toList ++ b.toList)) := by
  cases s with
  | left => exact perm_middle
  | right =>
    exact perm_middle.trans (List.Perm.cons n perm_append_comm)

@[simp] theorem mem_branch {s : Side} {n k : α} {c : Color} {a b : Tree α} :
    k ∈ (branch s n c a b).toList ↔ k = n ∨ k ∈ a.toList ∨ k ∈ b.toList := by
  rw [(toList_perm_branch s n c a b).mem_iff, mem_cons, mem_append]

theorem toList_rotate (x y : α) (cx cy dx dy : Color) (a b c : Tree α) :
    (branch s y dy (branch s x dx a b) c).toList
      = (branch s.flip x cx (branch s y cy b c) a).toList := by
  cases s <;> simp [branch, toList, Side.flip]

end Tree

open RedBlackTree.Tree

/-! ### Places -/

/-- The tree with one more node above it. -/
def Frame.fill (f : Frame α) (t : Tree α) : Tree α := branch f.side f.name f.color t f.sibling

/-- The whole tree, with `t` at the place. -/
def plug : List (Frame α) → Tree α → Tree α
  | [],       t => t
  | f :: ctx, t => plug ctx (f.fill t)

/-- The names of the nodes that are not at the place. -/
def names : List (Frame α) → List α
  | []       => []
  | f :: ctx => f.name :: (f.sibling.toList ++ names ctx)

/-- The names before the place, in order. -/
def before : List (Frame α) → List α
  | []                      => []
  | ⟨.left, _, _, _⟩ :: ctx  => before ctx
  | ⟨.right, n, _, t⟩ :: ctx => before ctx ++ (t.toList ++ [n])

/-- The names after the place, in order. -/
def after : List (Frame α) → List α
  | []                      => []
  | ⟨.left, n, _, t⟩ :: ctx  => n :: t.toList ++ after ctx
  | ⟨.right, _, _, _⟩ :: ctx => after ctx

@[simp] theorem plug_nil (t : Tree α) : plug [] t = t := rfl

theorem plug_cons (f : Frame α) (ctx : List (Frame α)) (t : Tree α) :
    plug (f :: ctx) t = plug ctx (branch f.side f.name f.color t f.sibling) := rfl

theorem root_plug_cons (f : Frame α) (ctx : List (Frame α)) :
    ∃ r ∈ names (f :: ctx), ∀ t, (plug (f :: ctx) t).root = some r := by
  induction ctx generalizing f with
  | nil => exact ⟨f.name, by simp [names], fun t => root_branch ..⟩
  | cons g ctx ih =>
    obtain ⟨r, hr, hroot⟩ := ih g
    refine ⟨r, ?_, fun t => hroot _⟩
    rw [names]
    exact mem_cons_of_mem _ (mem_append_right _ hr)

theorem plug_append (ctx ctx' : List (Frame α)) (t : Tree α) :
    plug (ctx ++ ctx') t = plug ctx' (plug ctx t) := by
  induction ctx generalizing t with
  | nil => rfl
  | cons f ctx ih => exact ih _

theorem toList_plug (ctx : List (Frame α)) (t : Tree α) :
    (plug ctx t).toList = before ctx ++ (t.toList ++ after ctx) := by
  induction ctx generalizing t with
  | nil => simp [before, after]
  | cons f ctx ih =>
    obtain ⟨s, n, c, u⟩ := f
    rw [plug_cons, ih]
    cases s <;> simp [branch, before, after, toList]

theorem plug_perm (ctx : List (Frame α)) (t : Tree α) :
    (plug ctx t).toList.Perm (t.toList ++ names ctx) := by
  induction ctx generalizing t with
  | nil => simp [names]
  | cons f ctx ih =>
    refine (ih _).trans ?_
    refine ((toList_perm_branch f.side f.name f.color t f.sibling).append_right _).trans ?_
    rw [names, List.cons_append, List.append_assoc]
    exact perm_middle.symm

theorem mem_plug {ctx : List (Frame α)} {t : Tree α} {k : α} :
    k ∈ (plug ctx t).toList ↔ k ∈ t.toList ∨ k ∈ names ctx := by
  rw [(plug_perm ctx t).mem_iff, mem_append]

theorem length_le_names (ctx : List (Frame α)) : ctx.length ≤ (names ctx).length := by
  induction ctx with
  | nil => exact Nat.le_refl _
  | cons f ctx ih =>
    simp only [names, length_cons, length_append]
    omega

/-- The way to a place is no longer than the tree. -/
theorem length_le_plug (ctx : List (Frame α)) (t : Tree α) :
    ctx.length + t.toList.length ≤ (plug ctx t).toList.length := by
  have h := length_le_names ctx
  rw [(plug_perm ctx t).length_eq, length_append]
  omega

/-- Two trees with the same names in order can stand for one another at a place. -/
theorem toList_plug_congr (ctx : List (Frame α)) {t u : Tree α} (h : t.toList = u.toList) :
    (plug ctx t).toList = (plug ctx u).toList := by rw [toList_plug, toList_plug, h]

/-- Every node of a tree is at a place of it. -/
theorem exists_plug {T : Tree α} {z : α} (h : z ∈ T.toList) :
    ∃ ctx c l r, T = plug ctx (node z c l r) := by
  induction T with
  | nil => cases h
  | node n c l r ihl ihr =>
    simp only [toList, mem_append, mem_cons] at h
    rcases h with h | rfl | h
    · obtain ⟨ctx, c', l', r', rfl⟩ := ihl h
      exact ⟨ctx ++ [⟨.left, n, c, r⟩], c', l', r', by rw [plug_append]; rfl⟩
    · exact ⟨[], c, l, r, rfl⟩
    · obtain ⟨ctx, c', l', r', rfl⟩ := ihr h
      exact ⟨ctx ++ [⟨.right, n, c, l⟩], c', l', r', by rw [plug_append]; rfl⟩

/-! ### The order from either end -/

/-- The names from the end on the side `s` on. -/
def walk (s : Side) (t : Tree α) : List α :=
  match s with
  | .left  => t.toList
  | .right => t.toList.reverse

/-- The names met before the place. -/
def fore (s : Side) (ctx : List (Frame α)) : List α :=
  match s with
  | .left  => before ctx
  | .right => (after ctx).reverse

/-- The names met after the place. -/
def aft (s : Side) (ctx : List (Frame α)) : List α :=
  match s with
  | .left  => after ctx
  | .right => (before ctx).reverse

@[simp] theorem walk_nil : walk s (.nil : Tree α) = [] := by cases s <;> rfl
@[simp] theorem fore_nil : fore s ([] : List (Frame α)) = [] := by cases s <;> rfl
@[simp] theorem aft_nil : aft s ([] : List (Frame α)) = [] := by cases s <;> rfl

@[simp] theorem walk_leaf (n : α) (c : Color) : walk s (.node n c .nil .nil) = [n] := by
  cases s <;> rfl

theorem walk_branch (n : α) (c : Color) (a b : Tree α) :
    walk s (branch s n c a b) = walk s a ++ n :: walk s b := by
  cases s <;> simp [walk, branch, toList]

theorem walk_flip_branch (n : α) (c : Color) (a b : Tree α) :
    walk s.flip (branch s n c a b) = walk s.flip b ++ n :: walk s.flip a := by
  rw [← branch_flip, walk_branch]

theorem walk_plug (s : Side) (ctx : List (Frame α)) (t : Tree α) :
    walk s (plug ctx t) = fore s ctx ++ (walk s t ++ aft s ctx) := by
  cases s <;> simp [walk, fore, aft, toList_plug]

@[simp] theorem mem_walk {s : Side} {t : Tree α} {k : α} : k ∈ walk s t ↔ k ∈ t.toList := by
  cases s <;> simp [walk]

@[simp] theorem nodup_walk {s : Side} {t : Tree α} : (walk s t).Nodup ↔ t.toList.Nodup := by
  cases s <;> simp [walk]

theorem walk_congr {t u : Tree α} (h : t.toList = u.toList) (s : Side) : walk s t = walk s u := by
  cases s <;> simp [walk, h]

theorem fore_cons (n : α) (c : Color) (t : Tree α) (ctx : List (Frame α)) :
    fore s (⟨s, n, c, t⟩ :: ctx) = fore s ctx := by
  cases s <;> simp [fore, before, after]

theorem fore_cons_flip (n : α) (c : Color) (t : Tree α) (ctx : List (Frame α)) :
    fore s (⟨s.flip, n, c, t⟩ :: ctx) = fore s ctx ++ (walk s t ++ [n]) := by
  cases s <;> simp [fore, before, after, walk, Side.flip]

theorem aft_cons (n : α) (c : Color) (t : Tree α) (ctx : List (Frame α)) :
    aft s (⟨s, n, c, t⟩ :: ctx) = n :: (walk s t ++ aft s ctx) := by
  cases s <;> simp [aft, before, after, walk]

theorem aft_cons_flip (n : α) (c : Color) (t : Tree α) (ctx : List (Frame α)) :
    aft s (⟨s.flip, n, c, t⟩ :: ctx) = aft s ctx := by
  cases s <;> simp [aft, before, after, Side.flip]

theorem fore_eq_nil {s : Side} {ctx : List (Frame α)} (h : ∀ f ∈ ctx, f.side = s) : fore s ctx = [] := by
  induction ctx with
  | nil => exact fore_nil s
  | cons f ctx ih =>
    obtain ⟨s', n, c, t⟩ := f
    obtain rfl : s' = s := h _ mem_cons_self
    rw [fore_cons, ih fun f hf => h f (mem_cons_of_mem _ hf)]

/-! ### Balance -/

/-- No red node has a red child, and there are `n` black nodes on every way down.  The colour is the
root's. -/
inductive Balanced : Color → ℕ → Tree α → Prop
  | nil : Balanced .black 0 .nil
  | red {n : ℕ} {x : α} {l r : Tree α} :
      Balanced .black n l → Balanced .black n r → Balanced .red n (.node x .red l r)
  | black {n : ℕ} {x : α} {c d : Color} {l r : Tree α} :
      Balanced c n l → Balanced d n r → Balanced .black (n + 1) (.node x .black l r)

/-- Above the place there is a balanced tree with a black root, for a tree of that root colour and
with `n` black nodes on every way down. -/
inductive Above : Color → ℕ → List (Frame α) → Prop
  | root (n : ℕ) : Above .black n []
  | red {n : ℕ} {s : Side} {x : α} {t : Tree α} {ctx : List (Frame α)} :
      Balanced .black n t → Above .red n ctx → Above .black n (⟨s, x, .red, t⟩ :: ctx)
  | black {n : ℕ} {s : Side} {x : α} {c d : Color} {t : Tree α} {ctx : List (Frame α)} :
      Balanced d n t → Above .black (n + 1) ctx → Above c n (⟨s, x, .black, t⟩ :: ctx)

/-- The red-black trees: balanced, with a black root. -/
def RedBlack (t : Tree α) : Prop := ∃ n, Balanced .black n t

theorem Balanced.height_le {c : Color} {t : Tree α} (h : Balanced c n t) :
    t.height ≤ 2 * n + 1 ∧ (c = .black → t.height ≤ 2 * n) := by
  induction h with
  | nil => exact ⟨Nat.zero_le _, fun _ => Nat.le_refl _⟩
  | red _ _ ihl ihr =>
    have hl := ihl.2 rfl
    have hr := ihr.2 rfl
    exact ⟨by rw [height]; omega, fun hc => (by cases hc)⟩
  | black _ _ ihl ihr =>
    have hl := ihl.1
    have hr := ihr.1
    rw [height]
    exact ⟨by omega, fun _ => by omega⟩

theorem Balanced.le_length {c : Color} {t : Tree α} (h : Balanced c n t) :
    2 ^ n ≤ t.toList.length + 1 := by
  induction h with
  | nil => exact Nat.le_refl _
  | red _ _ ihl ihr =>
    rw [toList, length_append, length_cons]
    omega
  | black _ _ ihl ihr =>
    rw [toList, length_append, length_cons, Nat.pow_succ]
    omega

/-- **The height** is at most twice the logarithm of the size. -/
theorem RedBlack.height_le {t : Tree α} (h : RedBlack t) : t.height ≤ 2 * (t.toList.length + 1).log2 := by
  obtain ⟨n, hn⟩ := h
  have hlog : n ≤ (t.toList.length + 1).log2 := (Nat.le_log2 (Nat.succ_ne_zero _)).mpr hn.le_length
  exact Nat.le_trans (hn.height_le.2 rfl) (Nat.mul_le_mul_left 2 hlog)

theorem Balanced.color_eq {c : Color} {t : Tree α} (h : Balanced c n t) : t.color = c := by
  cases h <;> rfl

theorem Balanced.branch_red {a b : Tree α} (x : α) (ha : Balanced .black n a)
    (hb : Balanced .black n b) : Balanced .red n (branch s x .red a b) := by
  cases s with
  | left  => exact .red ha hb
  | right => exact .red hb ha

theorem Balanced.branch_black {c d : Color} {a b : Tree α} (x : α) (ha : Balanced c n a)
    (hb : Balanced d n b) :
    Balanced .black (n + 1) (branch s x .black a b) := by
  cases s with
  | left  => exact .black ha hb
  | right => exact .black hb ha

theorem Balanced.of_branch_red {c : Color} {s : Side} {x : α} {a b : Tree α}
    (h : Balanced c n (branch s x .red a b)) :
    c = .red ∧ Balanced .black n a ∧ Balanced .black n b := by
  cases s <;> (cases h; exact ⟨rfl, ‹_›, ‹_›⟩)

theorem Balanced.of_branch_black {c : Color} {s : Side} {x : α} {a b : Tree α}
    (h : Balanced c n (branch s x .black a b)) :
    c = .black ∧ ∃ k d e, n = k + 1 ∧ Balanced d k a ∧ Balanced e k b := by
  cases s <;> (cases h; exact ⟨rfl, _, _, _, rfl, ‹_›, ‹_›⟩)

/-- A tree with black nodes on its ways down is not missing. -/
theorem Balanced.exists_branch {c : Color} {t : Tree α} (h : Balanced c (n + 1) t) :
    ∃ x a b, t = branch s x c a b := by
  cases h with
  | red hl hr =>
    obtain ⟨a, b, hab⟩ := node_eq_branch s _ Color.red _ _
    exact ⟨_, a, b, hab⟩
  | black hl hr =>
    obtain ⟨a, b, hab⟩ := node_eq_branch s _ Color.black _ _
    exact ⟨_, a, b, hab⟩

theorem Balanced.exists_red {t : Tree α} (h : Balanced .red n t) :
    ∃ x a b, t = branch s x .red a b ∧ Balanced .black n a ∧ Balanced .black n b := by
  cases h with
  | red hl hr =>
    cases s with
    | left  => exact ⟨_, _, _, rfl, hl, hr⟩
    | right => exact ⟨_, _, _, rfl, hr, hl⟩

theorem Balanced.paint_black {t : Tree α} (h : Balanced .red n t) :
    Balanced .black (n + 1) (t.paint .black) := by
  cases h with
  | red hl hr => exact .black hl hr

theorem Balanced.paint_eq {t : Tree α} (h : Balanced .black n t) : t.paint .black = t := by
  cases h <;> rfl

theorem Above.to_black {c : Color} {ctx : List (Frame α)} (h : Above c n ctx) :
    Above .black n ctx := by
  cases h with
  | root n        => exact .root n
  | red ht hctx   => exact .red ht hctx
  | black ht hctx => exact .black ht hctx

/-- Where a black node is asked for, there is a tree on the other side. -/
theorem Above.exists_sibling {c : Color} {n : ℕ} {f : Frame α} {ctx : List (Frame α)}
    (h : Above c (n + 1) (f :: ctx)) : ∃ w, f.sibling.root = some w := by
  obtain ⟨d, hd⟩ : ∃ d, Balanced d (n + 1) f.sibling := by
    cases h with
    | red hu _   => exact ⟨_, hu⟩
    | black hu _ => exact ⟨_, hu⟩
  obtain ⟨w, a, b, hab⟩ := hd.exists_branch .left
  exact ⟨w, by rw [hab, root_branch]⟩

theorem Above.red_iff {n : ℕ} {f : Frame α} {ctx : List (Frame α)} :
    Above .red n (f :: ctx) ↔ Above .black n (f :: ctx) ∧ f.color = .black := by
  constructor
  · intro h
    refine ⟨h.to_black, ?_⟩
    cases h
    rfl
  · rintro ⟨h, hc⟩
    cases h with
    | red ht hctx   => cases hc
    | black ht hctx => exact .black ht hctx

theorem Above.rename {c d : Color} {s s' : Side} {x x' : α} {u : Tree α}
    {ctx ctx' : List (Frame α)} (h : Above c n (ctx' ++ ⟨s, x, d, u⟩ :: ctx)) :
    Above c n (ctx' ++ ⟨s', x', d, u⟩ :: ctx) := by
  induction ctx' generalizing c n with
  | nil =>
    cases h with
    | red hu hctx   => exact .red hu hctx
    | black hu hctx => exact .black hu hctx
  | cons f ctx' ih =>
    cases h with
    | red hu hctx   => exact .red hu (ih hctx)
    | black hu hctx => exact .black hu (ih hctx)

theorem Above.plug {c : Color} {n : ℕ} {ctx : List (Frame α)} (h : Above c n ctx) :
    ∀ {t : Tree α}, Balanced c n t → RedBlack (plug ctx t) := by
  induction h with
  | root n        => exact fun ht => ⟨n, ht⟩
  | red hu _ ih   => exact fun ht => ih (.branch_red _ _ ht hu)
  | black hu _ ih => exact fun ht => ih (.branch_black _ _ ht hu)

theorem Above.of_red {n : ℕ} {f : Frame α} {ctx : List (Frame α)} (h : Above .black n (f :: ctx))
    (hf : f.color = .red) :
    Balanced .black n f.sibling ∧ ∃ g ctx' d, ctx = g :: ctx' ∧ g.color = .black
      ∧ Balanced d n g.sibling ∧ Above .black (n + 1) ctx' := by
  cases h with
  | red ht hctx =>
    refine ⟨ht, ?_⟩
    cases hctx with
    | black hu hctx' => exact ⟨_, _, _, rfl, rfl, hu, hctx'⟩
  | black ht hctx => cases hf

theorem Above.exchange {n : ℕ} {s s' : Side} {x x' : α} {c : Color} {u u' : Tree α} {ctx : List (Frame α)}
    (h : Above .black n (⟨s, x, c, u⟩ :: ctx)) (hu : Balanced .black n u') :
    Above .black n (⟨s', x', c, u'⟩ :: ctx) := by
  cases h with
  | red _ hctx   => exact .red hu hctx
  | black _ hctx => exact .black hu hctx

theorem RedBlack.paint_eq {t : Tree α} (h : RedBlack t) : t.paint .black = t :=
  h.elim fun _ hn => hn.paint_eq

theorem RedBlack.of_plug {ctx : List (Frame α)} : ∀ {t : Tree α}, RedBlack (plug ctx t) →
    ∃ c n, Balanced c n t ∧ Above c n ctx := by
  induction ctx with
  | nil => exact fun {t} ⟨n, h⟩ => ⟨.black, n, h, .root n⟩
  | cons f ctx ih =>
    intro t h
    obtain ⟨c, n, ht, hctx⟩ := ih h
    obtain ⟨s, x, d, u⟩ := f
    cases d with
    | red =>
      obtain ⟨rfl, ha, hb⟩ := Balanced.of_branch_red ht
      exact ⟨.black, n, ha, .red hb hctx⟩
    | black =>
      obtain ⟨rfl, k, d, e, rfl, ha, hb⟩ := Balanced.of_branch_black ht
      exact ⟨d, k, ha, .black hb hctx⟩

theorem RedBlack.rename {s s' : Side} {x x' : α} {d : Color} {t u : Tree α} {ctx ctx' : List (Frame α)}
    (h : RedBlack (plug (ctx' ++ ⟨s, x, d, u⟩ :: ctx) t)) :
    RedBlack (plug (ctx' ++ ⟨s', x', d, u⟩ :: ctx) t) := by
  obtain ⟨c, n, ht, hctx⟩ := h.of_plug
  exact hctx.rename.plug ht

/-- The number of black nodes on each way down. -/
def blackCounts : Tree α → List ℕ
  | .nil              => [0]
  | .node _ .red l r   => blackCounts l ++ blackCounts r
  | .node _ .black l r => (blackCounts l ++ blackCounts r).map (· + 1)

/-- No red node has a red child. -/
def NoRedRed : Tree α → Prop
  | .nil              => True
  | .node _ .red l r   => l.color = .black ∧ r.color = .black ∧ NoRedRed l ∧ NoRedRed r
  | .node _ .black l r => NoRedRed l ∧ NoRedRed r

theorem blackCounts_ne_nil (t : Tree α) : blackCounts t ≠ [] := by
  induction t with
  | nil => simp [blackCounts]
  | node x c l r ihl ihr => cases c <;> simp [blackCounts, ihl]

/-- **Balance** is the two conditions read off the ways down. -/
theorem balanced_iff {c : Color} {t : Tree α} :
    Balanced c n t ↔ t.color = c ∧ NoRedRed t ∧ ∀ k ∈ blackCounts t, k = n := by
  constructor
  · intro h
    induction h with
    | nil => simp [NoRedRed, blackCounts]
    | red hl hr ihl ihr =>
      refine ⟨rfl, ⟨ihl.1, ihr.1, ihl.2.1, ihr.2.1⟩, fun k hk => ?_⟩
      rcases mem_append.mp hk with hk | hk
      · exact ihl.2.2 k hk
      · exact ihr.2.2 k hk
    | black hl hr ihl ihr =>
      refine ⟨rfl, ⟨ihl.2.1, ihr.2.1⟩, fun k hk => ?_⟩
      obtain ⟨j, hj, rfl⟩ := List.mem_map.mp hk
      rcases mem_append.mp hj with hj | hj
      · exact congrArg (· + 1) (ihl.2.2 j hj)
      · exact congrArg (· + 1) (ihr.2.2 j hj)
  · induction t generalizing c n with
    | nil =>
      rintro ⟨rfl, -, h⟩
      obtain rfl : 0 = n := h 0 (by simp [blackCounts])
      exact .nil
    | node x d l r ihl ihr =>
      rintro ⟨rfl, hred, hk⟩
      cases d with
      | red =>
        obtain ⟨hlc, hrc, hl, hr⟩ := hred
        exact .red (ihl ⟨hlc, hl, fun k h => hk k (mem_append_left _ h)⟩)
          (ihr ⟨hrc, hr, fun k h => hk k (mem_append_right _ h)⟩)
      | black =>
        obtain ⟨hl, hr⟩ := hred
        obtain ⟨j, hj⟩ := exists_mem_of_ne_nil _ (blackCounts_ne_nil l)
        obtain rfl : j + 1 = n := hk _ (List.mem_map_of_mem (mem_append_left _ hj))
        have hkl : ∀ k ∈ blackCounts l, k = j := fun k h => by
          have := hk _ (List.mem_map_of_mem (mem_append_left _ h))
          omega
        have hkr : ∀ k ∈ blackCounts r, k = j := fun k h => by
          have := hk _ (List.mem_map_of_mem (mem_append_right _ h))
          omega
        exact .black (ihl ⟨rfl, hl, hkl⟩) (ihr ⟨rfl, hr, hkr⟩)

end SourceLibs.RedBlackTree
