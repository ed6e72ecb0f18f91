import Mathlib.Data.Nat.Fib.Basic
import Mathlib.Data.Set.Card
import Mathlib.Logic.Relation
import Mathlib.Order.CompletePartialOrder

/-!
# Support — forests of linked nodes

Nodes keep lists of children.  A `Shape` says which nodes are allocated, which have no parent, and
whom each node belongs to.  It is `Valid` when every node but the roots is in exactly one list of
children, once, and its chain of parents ends at a root of the same owner: all of it is said of
single nodes, but for the chain.

A structure changes by moves.  Each is stated by what the lists hold afterwards, so that it does not
matter where in a list a child is put.

* `Valid.attach`: a root becomes a child of a node of another tree.
* `Valid.detach`: children become roots.
* `Valid.insert`, `Valid.remove`: a root without children is allocated or freed.
* `Valid.relabel`: owners change, children along with their parents.
* `Valid.fib_le_ncard_below`: ranks that grow along the lists bound the number of nodes.
* `Reaches.ge_of_root`: in an ordered forest nothing is larger than its root.
* `Valid.acyclic`: no node is its own ancestor.
-/

namespace SourceLibs.Forest
open List

variable {ν ι : Type*}

/-- Allocated nodes, their children, the nodes without a parent, and whom a node belongs to. -/
structure Shape (ν ι : Type*) where
  live : Finset ν
  children : ν → List ν
  roots : Set ν
  owner : ν → ι

namespace Shape

variable {F F' : Shape ν ι} {n p c r s t : ν}

/-- The chain of parents of a node ends at the root `r`. -/
inductive Reaches (F : Shape ν ι) : ν → ν → Prop where
  | root {r : ν} (h : r ∈ F.roots) : Reaches F r r
  | child {p c r : ν} (h : c ∈ F.children p) (hp : Reaches F p r) : Reaches F c r

/-- Every node is a root or in exactly one list, once, and under a root of its owner. -/
structure Valid (F : Shape ν ι) : Prop where
  root_live : ∀ {r}, r ∈ F.roots → r ∈ F.live
  child_live : ∀ {p c}, c ∈ F.children p → p ∈ F.live ∧ c ∈ F.live
  unique : ∀ {p q c}, c ∈ F.children p → c ∈ F.children q → p = q
  nodup : ∀ p, (F.children p).Nodup
  root_free : ∀ {r p}, r ∈ F.roots → r ∉ F.children p
  reaches : ∀ {n}, n ∈ F.live → ∃ r, F.Reaches n r
  owner_eq : ∀ {p c}, c ∈ F.children p → F.owner c = F.owner p

theorem Reaches.mem_roots (h : F.Reaches n r) : r ∈ F.roots := by
  induction h with
  | root h => exact h
  | child _ _ ih => exact ih

theorem Reaches.mono (h : F.Reaches n r) (hroots : ∀ x ∈ F.roots, x ∈ F'.roots)
    (hchildren : ∀ p, ∀ c ∈ F.children p, c ∈ F'.children p) : F'.Reaches n r := by
  induction h with
  | root h => exact .root (hroots _ h)
  | child hc _ ih => exact .child (hchildren _ _ hc) ih

theorem Valid.reaches_owner (hF : F.Valid) (h : F.Reaches n r) : F.owner n = F.owner r := by
  induction h with
  | root => rfl
  | child hc _ ih => rw [hF.owner_eq hc, ih]

theorem Valid.reaches_live (hF : F.Valid) (h : F.Reaches n r) : n ∈ F.live := by
  cases h with
  | root h => exact hF.root_live h
  | child hc _ => exact (hF.child_live hc).2

theorem Valid.root_or_child (hF : F.Valid) (hn : n ∈ F.live) :
    n ∈ F.roots ∨ ∃ p, n ∈ F.children p := by
  obtain ⟨r, hr⟩ := hF.reaches hn
  cases hr with
  | root h => exact Or.inl h
  | child hc _ => exact Or.inr ⟨_, hc⟩

theorem Valid.not_self_child (hF : F.Valid) : n ∉ F.children n := by
  intro hn
  obtain ⟨r, hr⟩ := hF.reaches (hF.child_live hn).1
  suffices ∀ {a b}, F.Reaches a b → a ∉ F.children a from this hr hn
  intro a b hab
  induction hab with
  | root h => exact hF.root_free h
  | child hc _ ih =>
    intro hcc
    rw [hF.unique hcc hc] at hc
    exact ih hc

/-- **No node is its own ancestor.** -/
theorem Valid.acyclic (hF : F.Valid) (n : ν) :
    ¬ Relation.TransGen (fun c p => c ∈ F.children p) n n := by
  suffices ∀ {a b}, F.Reaches a b → ¬ Relation.TransGen (fun c p => c ∈ F.children p) a a by
    intro h
    obtain ⟨p, hp, -⟩ := Relation.TransGen.head'_iff.mp h
    obtain ⟨r, hr⟩ := hF.reaches (hF.child_live hp).2
    exact this hr h
  intro a b hab
  induction hab with
  | root h =>
    intro ht
    obtain ⟨p, hp, -⟩ := Relation.TransGen.head'_iff.mp ht
    exact hF.root_free h hp
  | @child p c r hc _ ih =>
    intro ht
    obtain ⟨q, hq, hrest⟩ := Relation.TransGen.head'_iff.mp ht
    rw [hF.unique hq hc] at hrest
    exact ih (Relation.TransGen.tail' hrest hc)

theorem Valid.reaches_unique (hF : F.Valid) (h : F.Reaches n r) (h' : F.Reaches n s) : r = s := by
  induction h with
  | root h =>
    cases h' with
    | root => rfl
    | child hc _ => exact absurd hc (hF.root_free h)
  | child hc _ ih =>
    cases h' with
    | root h => exact absurd hc (hF.root_free h)
    | child hc' hp => exact ih (hF.unique hc hc' ▸ hp)

theorem Reaches.ancestor (h : F.Reaches n r) :
    Relation.ReflTransGen (fun c p => c ∈ F.children p) n r := by
  induction h with
  | root => exact .refl
  | child hc _ ih => exact .head hc ih

/-- Where lists only lost children, a tree lies within one tree of before. -/
theorem Reaches.of_detached (hsub : ∀ p, ∀ c ∈ F'.children p, c ∈ F.children p)
    (h : F'.Reaches n r) (hr : F.Reaches r s) : F.Reaches n s := by
  induction h with
  | root => exact hr
  | child hc _ ih => exact .child (hsub _ _ hc) (ih hr)

/-- **Nothing is larger than its root**, where `g` orders every child under its parent. -/
theorem Reaches.ge_of_root {α : Type*} {g : α → α → Prop} (hrefl : ∀ a, g a a)
    (htrans : ∀ a b c, g a b → g b c → g a c) {f : ν → α}
    (hord : ∀ p c, c ∈ F.children p → g (f p) (f c)) (h : F.Reaches n r) :
    g (f r) (f n) := by
  induction h with
  | root => exact hrefl _
  | child hc _ ih => exact htrans _ _ _ ih (hord _ _ hc)

/-! ### Moves -/

/-- **A root becomes a child** of a node of another tree. -/
theorem Valid.attach (hF : F.Valid) (hr : F.Reaches r t) (hs : s ∈ F.roots) (hne : t ≠ s)
    (ho : F.owner s = F.owner r) (hlive : F'.live = F.live) (howner : F'.owner = F.owner)
    (hroots : ∀ n, n ∈ F'.roots ↔ n ∈ F.roots ∧ n ≠ s) (hnodup : ∀ p, (F'.children p).Nodup)
    (hmem : ∀ p c, c ∈ F'.children p ↔ c ∈ F.children p ∨ (p = r ∧ c = s)) : F'.Valid := by
  have hkept : ∀ {n t}, F.Reaches n t → t ≠ s → F'.Reaches n t := by
    intro n t h ht
    induction h with
    | root h => exact .root ((hroots _).mpr ⟨h, ht⟩)
    | child hc _ ih => exact .child ((hmem _ _).mpr (Or.inl hc)) (ih ht)
  have hmoved : ∀ {n u}, F.Reaches n u → u = s → F'.Reaches n t := by
    intro n u h hu
    induction h with
    | root => exact .child ((hmem _ _).mpr (Or.inr ⟨rfl, hu⟩)) (hkept hr hne)
    | child hc _ ih => exact .child ((hmem _ _).mpr (Or.inl hc)) (ih hu)
  refine ⟨fun h => ?_, fun {p c} h => ?_, fun {p q c} h h' => ?_, hnodup, fun {u p} h h' => ?_,
    fun {n} h => ?_, fun {p c} h => ?_⟩
  · rw [hlive]
    exact hF.root_live ((hroots _).mp h).1
  · rw [hlive]
    rcases (hmem p c).mp h with h | ⟨rfl, rfl⟩
    · exact hF.child_live h
    · exact ⟨hF.reaches_live hr, hF.root_live hs⟩
  · rcases (hmem p c).mp h with h | ⟨rfl, rfl⟩
    · rcases (hmem q c).mp h' with h' | ⟨rfl, rfl⟩
      · exact hF.unique h h'
      · exact absurd h (hF.root_free hs)
    · rcases (hmem q c).mp h' with h' | ⟨rfl, -⟩
      · exact absurd h' (hF.root_free hs)
      · rfl
  · obtain ⟨hu, hus⟩ := (hroots u).mp h
    rcases (hmem p u).mp h' with h' | ⟨-, rfl⟩
    · exact hF.root_free hu h'
    · exact hus rfl
  · rw [hlive] at h
    obtain ⟨u, hu⟩ := hF.reaches h
    by_cases hus : u = s
    · exact ⟨t, hmoved hu hus⟩
    · exact ⟨u, hkept hu hus⟩
  · rw [howner]
    rcases (hmem p c).mp h with h | ⟨rfl, rfl⟩
    · exact hF.owner_eq h
    · exact ho

/-- **Nodes become roots**, whether they were children or roots before. -/
theorem Valid.detach (hF : F.Valid) (C : Set ν) (hC : ∀ c ∈ C, c ∈ F.live) (hlive : F'.live = F.live)
    (howner : F'.owner = F.owner) (hroots : ∀ n, n ∈ F'.roots ↔ n ∈ F.roots ∨ n ∈ C)
    (hnodup : ∀ p, (F'.children p).Nodup)
    (hmem : ∀ q x, x ∈ F'.children q ↔ x ∈ F.children q ∧ x ∉ C) : F'.Valid := by
  refine ⟨fun {t} h => ?_, fun {q x} h => ?_, fun {q q' x} h h' => ?_, hnodup, fun {t q} h h' => ?_,
    fun {n} h => ?_, fun {q x} h => ?_⟩
  · rw [hlive]
    exact ((hroots t).mp h).elim hF.root_live (hC t)
  · rw [hlive]
    exact hF.child_live ((hmem q x).mp h).1
  · exact hF.unique ((hmem q x).mp h).1 ((hmem q' x).mp h').1
  · obtain ⟨h', hne⟩ := (hmem q t).mp h'
    exact ((hroots t).mp h).elim (fun h => hF.root_free h h') hne
  · rw [hlive] at h
    obtain ⟨t, ht⟩ := hF.reaches h
    clear h
    induction ht with
    | @root t h => exact ⟨t, .root ((hroots t).mpr (Or.inl h))⟩
    | @child q x t hx _ ih =>
      by_cases hxC : x ∈ C
      · exact ⟨x, .root ((hroots x).mpr (Or.inr hxC))⟩
      · obtain ⟨t', ht'⟩ := ih
        exact ⟨t', .child ((hmem q x).mpr ⟨hx, hxC⟩) ht'⟩
  · rw [howner]
    exact hF.owner_eq ((hmem q x).mp h).1

/-- **A root is allocated.** -/
theorem Valid.insert (hF : F.Valid) (hn : n ∉ F.live) (hlive : ∀ x, x ∈ F'.live ↔ x ∈ F.live ∨ x = n)
    (howner : ∀ x ∈ F.live, F'.owner x = F.owner x)
    (hroots : ∀ x, x ∈ F'.roots ↔ x ∈ F.roots ∨ x = n)
    (hchildren : ∀ p, F'.children p = F.children p) : F'.Valid := by
  refine ⟨fun {t} h => ?_, fun {p c} h => ?_, fun {p q c} h h' => ?_, fun p => ?_,
    fun {t p} h h' => ?_, fun {x} h => ?_, fun {p c} h => ?_⟩
  · rw [hlive]
    exact ((hroots t).mp h).imp hF.root_live id
  · rw [hchildren] at h
    rw [hlive, hlive]
    exact ⟨Or.inl (hF.child_live h).1, Or.inl (hF.child_live h).2⟩
  · rw [hchildren] at h h'
    exact hF.unique h h'
  · rw [hchildren]
    exact hF.nodup p
  · rw [hchildren] at h'
    rcases (hroots t).mp h with h | rfl
    · exact hF.root_free h h'
    · exact hn (hF.child_live h').2
  · rcases (hlive x).mp h with h | rfl
    · obtain ⟨t, ht⟩ := hF.reaches h
      exact ⟨t, ht.mono (fun y hy => (hroots y).mpr (Or.inl hy)) fun p c hc => by rwa [hchildren]⟩
    · exact ⟨x, .root ((hroots x).mpr (Or.inr rfl))⟩
  · rw [hchildren] at h
    obtain ⟨hp, hc⟩ := hF.child_live h
    rw [howner c hc, howner p hp, hF.owner_eq h]

/-- **A root without children is freed.** -/
theorem Valid.remove (hF : F.Valid) (hr : r ∈ F.roots) (hempty : F.children r = [])
    (hlive : ∀ x, x ∈ F'.live ↔ x ∈ F.live ∧ x ≠ r)
    (howner : ∀ x, x ≠ r → F'.owner x = F.owner x)
    (hroots : ∀ x, x ∈ F'.roots ↔ x ∈ F.roots ∧ x ≠ r)
    (hchildren : ∀ p, F'.children p = F.children p) : F'.Valid := by
  have hpne : ∀ {p c}, c ∈ F.children p → p ≠ r ∧ c ≠ r := by
    intro p c h
    refine ⟨fun e => ?_, fun e => hF.root_free hr (e ▸ h)⟩
    rw [e, hempty] at h
    cases h
  refine ⟨fun {t} h => ?_, fun {p c} h => ?_, fun {p q c} h h' => ?_, fun p => ?_,
    fun {t p} h h' => ?_, fun {x} h => ?_, fun {p c} h => ?_⟩
  · obtain ⟨h, hne⟩ := (hroots t).mp h
    exact (hlive t).mpr ⟨hF.root_live h, hne⟩
  · rw [hchildren] at h
    obtain ⟨hp, hc⟩ := hF.child_live h
    exact ⟨(hlive p).mpr ⟨hp, (hpne h).1⟩, (hlive c).mpr ⟨hc, (hpne h).2⟩⟩
  · rw [hchildren] at h h'
    exact hF.unique h h'
  · rw [hchildren]
    exact hF.nodup p
  · rw [hchildren] at h'
    exact hF.root_free ((hroots t).mp h).1 h'
  · obtain ⟨hx, hxr⟩ := (hlive x).mp h
    obtain ⟨t, ht⟩ := hF.reaches hx
    refine ⟨t, ?_⟩
    clear h hx
    induction ht with
    | root h => exact .root ((hroots _).mpr ⟨h, hxr⟩)
    | child hc _ ih => exact .child (by rwa [hchildren]) (ih (hpne hc).1)
  · rw [hchildren] at h
    rw [howner c (hpne h).2, howner p (hpne h).1, hF.owner_eq h]

/-- **Owners change**, a child's along with its parent's. -/
theorem Valid.relabel (hF : F.Valid) (hlive : F'.live = F.live) (hroots : F'.roots = F.roots)
    (hchildren : ∀ p, F'.children p = F.children p)
    (howner : ∀ x y, x ∈ F.live → F.owner x = F.owner y → F'.owner x = F'.owner y) : F'.Valid := by
  refine ⟨fun h => ?_, fun h => ?_, fun h h' => ?_, fun p => ?_, fun h h' => ?_, fun h => ?_,
    fun {p c} h => ?_⟩
  · rw [hlive]
    exact hF.root_live (hroots ▸ h)
  · rw [hchildren] at h
    rw [hlive]
    exact hF.child_live h
  · rw [hchildren] at h h'
    exact hF.unique h h'
  · rw [hchildren]
    exact hF.nodup p
  · rw [hchildren] at h'
    exact hF.root_free (hroots ▸ h) h'
  · rw [hlive] at h
    obtain ⟨t, ht⟩ := hF.reaches h
    exact ⟨t, ht.mono (fun y hy => hroots ▸ hy) fun p c hc => by rwa [hchildren]⟩
  · rw [hchildren] at h
    exact howner c p (hF.child_live h).2 (hF.owner_eq h)

/-- The lists may be put in another order. -/
theorem Valid.congr (hF : F.Valid) (hlive : F'.live = F.live) (hroots : F'.roots = F.roots)
    (howner : F'.owner = F.owner) (hchildren : ∀ p, (F'.children p).Perm (F.children p)) :
    F'.Valid := by
  refine ⟨fun h => ?_, fun h => ?_, fun h h' => ?_, fun p => ?_, fun h h' => ?_, fun h => ?_,
    fun {p c} h => ?_⟩
  · rw [hlive]
    exact hF.root_live (hroots ▸ h)
  · rw [hlive]
    exact hF.child_live ((hchildren _).mem_iff.mp h)
  · exact hF.unique ((hchildren _).mem_iff.mp h) ((hchildren _).mem_iff.mp h')
  · exact (hchildren p).nodup_iff.mpr (hF.nodup p)
  · exact hF.root_free (hroots ▸ h) ((hchildren _).mem_iff.mp h')
  · rw [hlive] at h
    obtain ⟨t, ht⟩ := hF.reaches h
    exact ⟨t, ht.mono (fun y hy => hroots ▸ hy) fun p c hc => (hchildren p).mem_iff.mpr hc⟩
  · rw [howner]
    exact hF.owner_eq ((hchildren _).mem_iff.mp h)

/-! ### The nodes below a node -/

/-- `n` and the nodes under it. -/
def below (F : Shape ν ι) (n : ν) : Set ν :=
  { x | Relation.ReflTransGen (fun c p => c ∈ F.children p) x n }

theorem Valid.below_subset (hF : F.Valid) (hn : n ∈ F.live) : F.below n ⊆ F.live := by
  intro x hx
  induction hx using Relation.ReflTransGen.head_induction_on with
  | refl => exact hn
  | head hc _ _ => exact (hF.child_live hc).2

theorem Valid.finite_below (hF : F.Valid) (hn : n ∈ F.live) : (F.below n).Finite :=
  F.live.finite_toSet.subset (hF.below_subset hn)

theorem below_subset_of_child {p c : ν} (hc : c ∈ F.children p) : F.below c ⊆ F.below p :=
  fun _ hx => Relation.ReflTransGen.tail hx hc

theorem Valid.not_below_child (hF : F.Valid) {p c : ν} (hc : c ∈ F.children p) : p ∉ F.below c :=
  fun hp => hF.acyclic p (Relation.TransGen.tail' hp hc)

theorem Valid.ancestors_linear (hF : F.Valid) {x a b : ν} (ha : x ∈ F.below a) (hb : x ∈ F.below b) :
    a ∈ F.below b ∨ b ∈ F.below a := by
  induction ha using Relation.ReflTransGen.head_induction_on with
  | refl => exact Or.inl hb
  | head hc hrest ih =>
    rcases Relation.ReflTransGen.cases_head hb with rfl | ⟨q, hq, hqb⟩
    · exact Or.inr (.head hc hrest)
    · rw [hF.unique hq hc] at hqb
      exact ih hqb

theorem Valid.below_disjoint (hF : F.Valid) {p c d : ν} (hc : c ∈ F.children p)
    (hd : d ∈ F.children p) (hne : c ≠ d) : Disjoint (F.below c) (F.below d) := by
  -- A child under its sibling would be under its parent twice.
  have hnot : ∀ {c d}, c ∈ F.children p → d ∈ F.children p → c ≠ d → c ∉ F.below d := by
    intro c d hc hd hne hcd
    rcases Relation.ReflTransGen.cases_head hcd with rfl | ⟨q, hq, hqd⟩
    · exact hne rfl
    · rw [hF.unique hq hc] at hqd
      exact hF.not_below_child hd hqd
  rw [Set.disjoint_left]
  intro x hxc hxd
  rcases hF.ancestors_linear hxc hxd with h | h
  · exact hnot hc hd hne h
  · exact hnot hd hc hne.symm h

/-- **The Fibonacci bound**: where the child at position `i` has at least `i - 1` children, a node with
`d` children has at least `fib (d + 2)` nodes below it. -/
theorem Valid.fib_le_ncard_below (hF : F.Valid)
    (hrank : ∀ p i c, (F.children p)[i]? = some c → i ≤ (F.children c).length + 1) (n : ν)
    (hn : n ∈ F.live) : Nat.fib ((F.children n).length + 2) ≤ (F.below n).ncard := by
  induction hm : (F.below n).ncard using Nat.strong_induction_on generalizing n with
  | _ m ih =>
    subst hm
    -- The children are taken one by one.
    suffices ∀ k ≤ (F.children n).length, Nat.fib (k + 2) ≤
        ({ x | x = n ∨ ∃ c ∈ (F.children n).take k, x ∈ F.below c } : Set ν).ncard by
      refine (this _ le_rfl).trans (Set.ncard_le_ncard ?_ (hF.finite_below hn))
      rintro x (rfl | ⟨c, hc, hx⟩)
      · exact .refl
      · exact below_subset_of_child (mem_of_mem_take hc) hx
    intro k
    induction k with
    | zero =>
      intro _
      simp
    | succ k ihk =>
      intro hk
      obtain ⟨c, hget⟩ : ∃ c, (F.children n)[k]? = some c :=
        ⟨_, List.getElem?_eq_getElem (by omega)⟩
      have hc : c ∈ F.children n := mem_of_getElem? hget
      have htake : (F.children n).take (k + 1) = (F.children n).take k ++ [c] := by
        rw [take_add_one, hget, Option.toList_some]
      have hnotin : c ∉ (F.children n).take k := by
        have hnd : ((F.children n).take (k + 1)).Nodup := (hF.nodup n).sublist (take_sublist ..)
        rw [htake, nodup_append] at hnd
        exact fun h => hnd.2.2 c h c (mem_singleton_self c) rfl
      have hset : ({ x | x = n ∨ ∃ d ∈ (F.children n).take (k + 1), x ∈ F.below d } : Set ν) =
          { x | x = n ∨ ∃ d ∈ (F.children n).take k, x ∈ F.below d } ∪ F.below c := by
        ext x
        simp only [Set.mem_ofPred_eq, Set.mem_union, htake, mem_append, mem_singleton]
        constructor
        · rintro (rfl | ⟨d, hd | rfl, hx⟩)
          · exact Or.inl (Or.inl rfl)
          · exact Or.inl (Or.inr ⟨d, hd, hx⟩)
          · exact Or.inr hx
        · rintro ((rfl | ⟨d, hd, hx⟩) | hx)
          · exact Or.inl rfl
          · exact Or.inr ⟨d, Or.inl hd, hx⟩
          · exact Or.inr ⟨c, Or.inr rfl, hx⟩
      have hdisj : Disjoint ({ x | x = n ∨ ∃ d ∈ (F.children n).take k, x ∈ F.below d } : Set ν)
          (F.below c) := by
        rw [Set.disjoint_left]
        rintro x (rfl | ⟨d, hd, hx⟩) hxc
        · exact hF.not_below_child hc hxc
        · have hdc : d ≠ c := fun e => hnotin (e ▸ hd)
          exact Set.disjoint_left.mp (hF.below_disjoint (mem_of_mem_take hd) hc hdc) hx hxc
      have hcl : c ∈ F.live := (hF.child_live hc).2
      have hsub : ({ x | x = n ∨ ∃ d ∈ (F.children n).take k, x ∈ F.below d } : Set ν) ⊆
          F.below n := by
        rintro x (rfl | ⟨d, hd, hx⟩)
        · exact .refl
        · exact below_subset_of_child (mem_of_mem_take hd) hx
      have hlt : (F.below c).ncard < (F.below n).ncard := by
        refine Set.ncard_lt_ncard ⟨below_subset_of_child hc, fun h => ?_⟩ (hF.finite_below hn)
        exact hF.not_below_child hc (h Relation.ReflTransGen.refl)
      have hbelow : Nat.fib (k + 1) ≤ (F.below c).ncard :=
        (Nat.fib_mono (Nat.succ_le_succ (hrank n k c hget))).trans (ih _ hlt c hcl rfl)
      rw [hset, Set.ncard_union_eq hdisj ((hF.finite_below hn).subset hsub) (hF.finite_below hcl),
        Nat.fib_add_two, add_comm (Nat.fib (k + 1))]
      exact Nat.add_le_add (ihk (by omega)) hbelow

end Shape

end SourceLibs.Forest
