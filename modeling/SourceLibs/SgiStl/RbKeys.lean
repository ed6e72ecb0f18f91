import SourceLibs.SgiStl.RbRuns
import SourceLibs.Support.Compare

/-!
# SGI STL — the tree with its keys

`_Rb_tree` with a comparison object: the loops that go down by comparing keys, and what is inserted and
found with them.  A new node `z` is any number that is not in use.

* `insertLoop_spec`, `boundLoop_spec`: the loops end at the place between the keys.
* `rbTree_keys`: the tree is a set or multiset that is kept in order.
-/

namespace SourceLibs.SgiStl
open RedBlackTree RedBlackTree.Tree Compare List

/-! ### The members of `_Rb_tree` -/

variable {K : Type}

/-- The memory, the key of the value in a node, and `_M_node_count`. -/
structure RbTree (K : Type) where
  mem : Mem ℕ
  key : ℕ → K
  nodeCount : ℕ

/-- The loop of `insert_equal` and `insert_unique`, with `__y` and `__comp`; `less` compares the new key
with that of a node. -/
def insertLoop (less : ℕ → Bool) (m : Mem ℕ) : ℕ → Option ℕ → ℕ → Bool → Option (ℕ × Bool)
  | _, none, y, comp         => some (y, comp)
  | 0, some _, _, _          => none
  | fuel + 1, some x, _, _   =>
    insertLoop less m fuel (m.child (if less x then .left else .right) x) x (less x)

/-- The loop of `lower_bound`, `upper_bound` and `find`. -/
def boundLoop (left : ℕ → Bool) (m : Mem ℕ) : ℕ → Option ℕ → ℕ → Option ℕ
  | _, none, y          => some y
  | 0, some _, _        => none
  | fuel + 1, some x, y =>
    if left x then boundLoop left m fuel (m.child .left x) x
    else boundLoop left m fuel (m.child .right x) y

variable (cmp : K → K → Bool) (fuel h : ℕ)

/-- `_M_insert` of the new node `z` below `y`. -/
def RbTree.insert (t : RbTree K) (y z : ℕ) (k : K) : Option (RbTree K) := do
  let m ← SgiStl.insert fuel h t.mem none y z (cmp k (t.key y))
  some ⟨m, Function.update t.key z k, t.nodeCount + 1⟩

def RbTree.insertEqual (t : RbTree K) (z : ℕ) (k : K) : Option (RbTree K) := do
  let (y, _) ← insertLoop (fun n => cmp k (t.key n)) t.mem fuel (t.mem.parent h) h true
  t.insert cmp fuel h y z k

/-- `insert_unique`, and the pair it returns. -/
def RbTree.insertUnique (t : RbTree K) (z : ℕ) (k : K) : Option (RbTree K × ℕ × Bool) := do
  let (y, comp) ← insertLoop (fun n => cmp k (t.key n)) t.mem fuel (t.mem.parent h) h true
  if comp ∧ t.mem.child .left h = some y then (t.insert cmp fuel h y z k).map (·, z, true)
  else
    (if comp then decrement fuel t.mem y else some y).bind fun j =>
      if cmp (t.key j) k then (t.insert cmp fuel h y z k).map (·, z, true) else some (t, j, false)

/-- `erase` of an iterator. -/
def RbTree.erase (t : RbTree K) (z : ℕ) : Option (RbTree K) := do
  let m ← rebalanceForErase fuel h t.mem z
  some ⟨m, t.key, t.nodeCount - 1⟩

def RbTree.lowerBound (t : RbTree K) (k : K) : Option ℕ :=
  boundLoop (fun n => !cmp (t.key n) k) t.mem fuel (t.mem.parent h) h

def RbTree.upperBound (t : RbTree K) (k : K) : Option ℕ :=
  boundLoop (fun n => cmp k (t.key n)) t.mem fuel (t.mem.parent h) h

def RbTree.find (t : RbTree K) (k : K) : Option ℕ := do
  let j ← t.lowerBound cmp fuel h k
  some (if j = h ∨ cmp k (t.key j) then h else j)

/-! ### The way down -/

section Loops
variable {fuel h : ℕ} {m : Mem ℕ} {less : ℕ → Bool}

/-- The last comparison on the way to a place. -/
def Compared (less : ℕ → Bool) (comp : Bool) : List (Frame ℕ) → Prop
  | []     => comp = true
  | f :: _ => less f.name = comp ∧ f.side = insertSide none comp

/-- Once a key is greater, those that follow are. -/
def Rising (less : ℕ → Bool) (l : List ℕ) : Prop := l.Pairwise fun a b => less a = true → less b = true

theorem insertLoop_spec (t : RedBlackTree.Tree ℕ) : ∀ (ctx : List (Frame ℕ)) (fuel : ℕ) {comp : Bool},
    Holds m h (plug ctx t) → Rising less (plug ctx t).toList → (∀ n ∈ before ctx, less n = false) →
    (∀ n ∈ after ctx, less n = true) → Compared less comp ctx → t.toList.length ≤ fuel →
    ∃ ctx' comp', insertLoop less m fuel t.root (anchor h ctx) comp = some (anchor h ctx', comp') ∧
      plug ctx' .nil = plug ctx t ∧ Compared less comp' ctx' ∧
      (∀ n ∈ before ctx', less n = false) ∧ ∀ n ∈ after ctx', less n = true := by
  induction t with
  | nil =>
    intro ctx fuel comp _ _ hbefore hafter hcomp _
    exact ⟨ctx, comp, by cases fuel <;> rfl, rfl, hcomp, hbefore, hafter⟩
  | node x c l r ihl ihr =>
    intro ctx fuel comp hm hrise hbefore hafter _ hfuel
    rw [toList, length_append, length_cons] at hfuel
    obtain ⟨fuel, rfl⟩ : ∃ k, fuel = k + 1 := ⟨fuel - 1, by omega⟩
    obtain ⟨hleft, hright⟩ := hm.child (s := .left) (a := l) (b := r)
    have hsplit : Rising less ((before ctx ++ l.toList) ++ x :: (r.toList ++ after ctx)) := by
      simpa [toList_plug, toList] using hrise
    obtain ⟨-, hx, hcross⟩ := pairwise_append.mp hsplit
    cases hless : less x with
    | true =>
      have hstep : insertLoop less m (fuel + 1) (some x) (anchor h ctx) comp =
          insertLoop less m fuel l.root x true := by
        rw [insertLoop, hless, if_pos rfl, hleft]
      rw [root, hstep]
      refine ihl (⟨.left, x, c, r⟩ :: ctx) fuel hm hrise hbefore (fun n hn => ?_) ⟨hless, rfl⟩ (by omega)
      rcases mem_cons.mp hn with rfl | hn
      · exact hless
      · exact rel_of_pairwise_cons hx hn hless
    | false =>
      have hstep : insertLoop less m (fuel + 1) (some x) (anchor h ctx) comp =
          insertLoop less m fuel r.root x false := by
        rw [insertLoop, hless, if_neg Bool.false_ne_true]
        exact congrArg (insertLoop less m fuel · x false) hright
      rw [root, hstep]
      refine ihr (⟨.right, x, c, l⟩ :: ctx) fuel hm hrise (fun n hn => ?_) hafter ⟨hless, rfl⟩ (by omega)
      rw [before, ← append_assoc, mem_append, mem_singleton] at hn
      rcases hn with hn | rfl
      · by_contra hne
        rw [hcross n hn x mem_cons_self (by simpa using hne)] at hless
        cases hless
      · exact hless

theorem boundLoop_spec {t : RedBlackTree.Tree ℕ} : ∀ {fuel p y : ℕ}, Sub m t p → Rising less t.toList →
    t.height ≤ fuel → boundLoop less m fuel t.root y = some ((t.toList.filter less).headD y) := by
  induction t with
  | nil =>
    intro fuel p y _ _ _
    cases fuel <;> rfl
  | node x c l r ihl ihr =>
    rintro fuel p y ⟨-, -, hleft, hright, hl, hr⟩ hrise hfuel
    rw [height] at hfuel
    obtain ⟨fuel, rfl⟩ : ∃ k, fuel = k + 1 := ⟨fuel - 1, by omega⟩
    obtain ⟨hrl, hrx, hcross⟩ := pairwise_append.mp hrise
    rw [root, boundLoop, toList, filter_append]
    cases hless : less x with
    | true =>
      rw [if_pos rfl, hleft, ihl hl hrl (by omega), filter_cons_of_pos hless]
      cases l.toList.filter less <;> rfl
    | false =>
      have hnone : l.toList.filter less = [] := filter_eq_nil_iff.mpr fun n hn hlt => by
        rw [hcross n hn x mem_cons_self hlt] at hless
        cases hless
      rw [if_neg Bool.false_ne_true, hright, ihr hr hrx.of_cons (by omega), hnone, nil_append,
        filter_cons_of_neg (by rw [hless]; decide)]

end Loops

/-! ### What holds -/

/-- The nodes of the list are in the tree, in the order of their keys. -/
structure Stores (cmp : K → K → Bool) (h : ℕ) (unique : Bool) (t : RbTree K) (l : List ℕ) : Prop where
  tree : ∃ T, Exact h t.mem l T
  ordered : l.Pairwise fun a b => cmp (t.key b) (t.key a) = false
  distinct : unique = true → l.Pairwise fun a b => cmp (t.key a) (t.key b) = true
  count : t.nodeCount = l.length

/-- `z` is put behind what is not greater. -/
def insertion (less : ℕ → Bool) (z : ℕ) (l : List ℕ) : List ℕ :=
  l.filter (fun n => !less n) ++ z :: l.filter less

/-- What an insertion of a key leaves. -/
def Inserted (cmp : K → K → Bool) (h : ℕ) (u : Bool) (t : RbTree K) (l : List ℕ) (z : ℕ) (k : K)
    (t' : RbTree K) : Prop :=
  t'.key = Function.update t.key z k ∧ Stores cmp h u t' (insertion (fun n => cmp k (t.key n)) z l)

/-- No key is equivalent to `k`. -/
def Absent (cmp : K → K → Bool) (t : RbTree K) (l : List ℕ) (k : K) : Prop :=
  ∀ n ∈ l, cmp (t.key n) k = true ∨ cmp k (t.key n) = true

theorem pairwise_insertion {R : K → K → Prop} {key : ℕ → K} {A B : List ℕ} {z : ℕ} {k : K}
    (hz : z ∉ A ++ B) (hAB : (A ++ B).Pairwise fun a b => R (key a) (key b)) (hA : ∀ a ∈ A, R (key a) k)
    (hB : ∀ b ∈ B, R k (key b)) : (A ++ z :: B).Pairwise fun a b =>
      R (Function.update key z k a) (Function.update key z k b) := by
  have hkey : ∀ n ∈ A ++ B, Function.update key z k n = key n := fun n hn =>
    Function.update_of_ne (fun e : n = z => hz (e ▸ hn)) ..
  have hold : (A ++ B).Pairwise fun a b => R (Function.update key z k a) (Function.update key z k b) :=
    hAB.imp_of_mem fun ha hb hr => by rwa [hkey _ ha, hkey _ hb]
  obtain ⟨hAA, hBB, hcross⟩ := pairwise_append.mp hold
  refine pairwise_append.mpr ⟨hAA, pairwise_cons.mpr ⟨fun b hb => ?_, hBB⟩, fun a ha b hb => ?_⟩
  · rw [Function.update_self, hkey b (mem_append_right A hb)]
    exact hB b hb
  · rcases mem_cons.mp hb with rfl | hb
    · rw [Function.update_self, hkey a (mem_append_left B ha)]
      exact hA a ha
    · exact hcross a ha b hb

section Members
variable {cmp : K → K → Bool} {h fuel z : ℕ} {u comp : Bool} {t : RbTree K} {l : List ℕ} {k : K}
  {ctx : List (Frame ℕ)}

/-- Where the loop of an insertion ends. -/
structure Ended (cmp : K → K → Bool) (h : ℕ) (t : RbTree K) (l : List ℕ) (k : K) (comp : Bool)
    (ctx : List (Frame ℕ)) : Prop where
  exact : Exact h t.mem l (plug ctx .nil)
  compared : Compared (fun n => cmp k (t.key n)) comp ctx
  split : l = before ctx ++ after ctx
  before_eq : ∀ n ∈ before ctx, cmp k (t.key n) = false
  after_eq : ∀ n ∈ after ctx, cmp k (t.key n) = true

theorem Stores.rising (hcmp : StrictWeak cmp) (hs : Stores cmp h u t l) (k : K) :
    Rising (fun n => cmp k (t.key n)) l :=
  hs.ordered.imp fun {a b} hab (ha : cmp k (t.key a) = true) => by
    by_contra hb
    rw [hcmp.trans (Bool.eq_false_iff.mpr hb) hab] at ha
    cases ha

theorem Stores.ended (hcmp : StrictWeak cmp) (hs : Stores cmp h u t l) (k : K) (hfuel : l.length < fuel) :
    ∃ ctx comp, insertLoop (fun n => cmp k (t.key n)) t.mem fuel (t.mem.parent h) h true =
      some (anchor h ctx, comp) ∧ Ended cmp h t l k comp ctx := by
  obtain ⟨T, hx⟩ := hs.tree
  have hrise : Rising (fun n => cmp k (t.key n)) (plug [] T).toList := hx.order ▸ hs.rising hcmp k
  obtain ⟨ctx, comp, hloop, hplug, hcomp, hbefore, hafter⟩ := insertLoop_spec T [] fuel hx.holds
    hrise (fun _ hn => by cases hn) (fun _ hn => by cases hn) rfl (by rw [hx.order]; omega)
  rw [plug_nil] at hplug
  refine ⟨ctx, comp, by rw [hx.links.1]; exact hloop, hplug ▸ hx, hcomp, ?_, hbefore, hafter⟩
  rw [← hx.order, ← hplug, toList_plug, toList_nil, nil_append]

theorem Ended.insertion_eq (he : Ended cmp h t l k comp ctx) (z : ℕ) :
    insertion (fun n => cmp k (t.key n)) z l = before ctx ++ z :: after ctx := by
  have hb : (before ctx).filter (fun n => cmp k (t.key n)) = [] :=
    filter_eq_nil_iff.mpr fun n hn => by rw [he.before_eq n hn]; decide
  have hb' : (before ctx).filter (fun n => !cmp k (t.key n)) = before ctx :=
    filter_eq_self.mpr fun n hn => by rw [he.before_eq n hn]; rfl
  have ha : (after ctx).filter (fun n => cmp k (t.key n)) = after ctx := filter_eq_self.mpr he.after_eq
  have ha' : (after ctx).filter (fun n => !cmp k (t.key n)) = [] :=
    filter_eq_nil_iff.mpr fun n hn => by rw [he.after_eq n hn]; decide
  rw [insertion, he.split, filter_append, filter_append, hb, hb', ha, ha', append_nil, nil_append]

/-- **`_M_insert`** at the place where the loop ended. -/
theorem Ended.insert (hcmp : StrictWeak cmp) (hs : Stores cmp h u t l) (he : Ended cmp h t l k comp ctx)
    (hzh : z ≠ h) (hz : z ∉ l) (hfuel : l.length < fuel) (hu : u = true → Absent cmp t l k) :
    ∃ t', t.insert cmp fuel h (anchor h ctx) z k = some t' ∧ Inserted cmp h u t l z k t' := by
  have hx := he.exact
  have hat : At h (anchor h ctx) (insertSide none (cmp k (t.key (anchor h ctx)))) ctx := by
    cases ctx with
    | nil => exact rfl
    | cons f ctx =>
      obtain ⟨hless, hside⟩ := he.compared
      exact ⟨rfl, hside.trans (congrArg (insertSide none) hless.symm)⟩
  have hlen : (plug ctx .nil).toList.length < fuel := by rwa [hx.order]
  obtain ⟨m', T', hrun, hold, hends, hrb, hlist, hcolor, -⟩ :=
    insert_holds hx.holds hx.ends hx.redBlack hat hzh (by rwa [hx.order]) hlen
  have hexact : Exact h m' (before ctx ++ z :: after ctx) T' :=
    hlist ▸ Exact.of_holds hold hends hrb (hcolor.trans hx.header_red)
  have hz' := he.split ▸ hz
  simp only [Inserted, he.insertion_eq]
  refine ⟨⟨m', _, _⟩, by rw [RbTree.insert, hrun]; rfl, rfl, ⟨T', hexact⟩, ?_, fun hunique => ?_, ?_⟩
  · exact pairwise_insertion (R := fun a b => cmp b a = false) hz' (he.split ▸ hs.ordered) he.before_eq
      fun b hb => hcmp.asymm (he.after_eq b hb)
  · refine pairwise_insertion (R := fun a b => cmp a b = true) hz' (he.split ▸ hs.distinct hunique)
      (fun a ha => ?_) he.after_eq
    refine (hu hunique a (he.split ▸ mem_append_left _ ha)).resolve_right fun hlt => ?_
    rw [he.before_eq a ha] at hlt
    cases hlt
  · have hlen := congrArg length he.split
    rw [length_append] at hlen
    rw [length_append, length_cons, ← Nat.add_assoc, ← hlen, ← hs.count]

theorem Stores.insertEqual (hcmp : StrictWeak cmp) (hs : Stores cmp h false t l) (hzh : z ≠ h) (hz : z ∉ l)
    (hfuel : l.length < fuel) (k : K) :
    ∃ t', t.insertEqual cmp fuel h z k = some t' ∧ Inserted cmp h false t l z k t' := by
  obtain ⟨ctx, comp, hloop, he⟩ := hs.ended hcmp k hfuel
  obtain ⟨t', hrun, hins⟩ := he.insert hcmp hs hzh hz hfuel (fun hu => by cases hu)
  refine ⟨t', ?_, hins⟩
  rw [RbTree.insertEqual, hloop]
  exact hrun

theorem Compared.head_after {less : ℕ → Bool} (h : ℕ) (hc : Compared less true ctx) (hne : ctx ≠ []) :
    ∃ B, after ctx = anchor h ctx :: B := by
  obtain - | ⟨⟨s, n, c, u⟩, ctx⟩ := ctx
  · exact absurd rfl hne
  · obtain ⟨-, rfl : s = .left⟩ := hc
    exact ⟨_, rfl⟩

theorem Compared.last_before {less : ℕ → Bool} (h : ℕ) (hc : Compared less false ctx) :
    ∃ A, before ctx = A ++ [anchor h ctx] := by
  obtain - | ⟨⟨s, n, c, u⟩, ctx⟩ := ctx
  · cases hc
  · obtain ⟨-, rfl : s = .right⟩ := hc
    exact ⟨_, (append_assoc ..).symm⟩

/-- **The iterator of `insert_unique`**: there is nothing before the place, or it comes to the last node
there. -/
theorem Ended.previous (he : Ended cmp h t l k comp ctx) (hfuel : l.length < fuel) :
    (comp = true ∧ t.mem.child .left h = some (anchor h ctx) ∧ before ctx = []) ∨
    ¬ (comp = true ∧ t.mem.child .left h = some (anchor h ctx)) ∧ ∃ A j, before ctx = A ++ [j] ∧
      (if comp then decrement fuel t.mem (anchor h ctx) else some (anchor h ctx)) = some j := by
  have hx := he.exact
  cases comp with
  | false =>
    obtain ⟨A, hA⟩ := he.compared.last_before h
    exact .inr ⟨fun hc => (by cases hc.1), A, _, hA, rfl⟩
  | true =>
    rcases eq_nil_or_concat' (before ctx) with hb | ⟨A, j, hb⟩
    · refine .inl ⟨rfl, ?_, hb⟩
      rw [hx.leftmost, he.split, hb, nil_append]
      by_cases hne : ctx = []
      · subst hne
        rfl
      · obtain ⟨B, hB⟩ := he.compared.head_after h hne
        rw [hB]
        rfl
    · have hne : ctx ≠ [] := by
        rintro rfl
        cases A <;> cases hb
      obtain ⟨B, hB⟩ := he.compared.head_after h hne
      have hl : l = A ++ j :: anchor h ctx :: B := by simp [he.split, hb, hB]
      refine .inr ⟨fun ⟨_, hleft⟩ => ?_, A, j, hb, ?_⟩
      · have hhead : l.headD h ∈ before ctx := by rw [hl, hb]; cases A <;> simp
        have hlt := he.after_eq (anchor h ctx) (by rw [hB]; exact mem_cons_self)
        rw [hx.leftmost, Option.some_inj] at hleft
        rw [← hleft, he.before_eq _ hhead] at hlt
        cases hlt
      · refine decrement_eq hx.holds hx.ends hx.redBlack hx.header_red (A := A) (B := B ++ [h]) ?_ ?_
        · rw [hx.order, hl]
          simp
        · rwa [hx.order]

theorem Stores.insertUnique (hcmp : StrictWeak cmp) (hs : Stores cmp h u t l) (hzh : z ≠ h) (hz : z ∉ l)
    (hfuel : l.length < fuel) (k : K) :
    (∃ t', t.insertUnique cmp fuel h z k = some (t', z, true) ∧ Absent cmp t l k ∧
      Inserted cmp h u t l z k t') ∨
    ∃ j ∈ l, t.insertUnique cmp fuel h z k = some (t, j, false) ∧ cmp (t.key j) k = false ∧
      cmp k (t.key j) = false := by
  obtain ⟨ctx, comp, hloop, he⟩ := hs.ended hcmp k hfuel
  have hmem : ∀ n ∈ l, n ∈ before ctx ∨ cmp k (t.key n) = true := fun n hn => by
    rw [he.split, mem_append] at hn
    exact hn.imp id (he.after_eq n)
  rw [RbTree.insertUnique, hloop]
  simp only [Option.bind_eq_bind, Option.bind_some]
  rcases he.previous hfuel with ⟨rfl, hleft, hnil⟩ | ⟨hnot, A, j, hA, hj⟩
  · have habsent : Absent cmp t l k := fun n hn => .inr ((hmem n hn).resolve_left (by simp [hnil]))
    obtain ⟨t', hrun, hins⟩ := he.insert hcmp hs hzh hz hfuel fun _ => habsent
    rw [if_pos ⟨rfl, hleft⟩, hrun]
    exact .inl ⟨t', rfl, habsent, hins⟩
  · rw [if_neg hnot]
    rw [hj]
    simp only [Option.bind_some]
    have hjb : j ∈ before ctx := by simp [hA]
    cases hlt : cmp (t.key j) k with
    | true =>
      have habsent : Absent cmp t l k := fun n hn => (hmem n hn).imp_left fun hn => by
        rw [hA, mem_append, mem_singleton] at hn
        rcases hn with hn | rfl
        · have hord := hs.ordered
          rw [he.split, hA, append_assoc] at hord
          have hle := (pairwise_append.mp hord).2.2 n hn j (by simp)
          by_contra hf
          rw [hcmp.trans hle (Bool.eq_false_iff.mpr hf)] at hlt
          cases hlt
        · exact hlt
      obtain ⟨t', hrun, hins⟩ := he.insert hcmp hs hzh hz hfuel fun _ => habsent
      rw [if_pos rfl, hrun]
      exact .inl ⟨t', rfl, habsent, hins⟩
    | false =>
      rw [if_neg Bool.false_ne_true]
      exact .inr ⟨j, he.split ▸ mem_append_left _ hjb, rfl, hlt, he.before_eq j hjb⟩

theorem Stores.erase (hs : Stores cmp h u t l) (hz : z ∈ l) (hfuel : l.length < fuel) :
    ∃ t', t.erase fuel h z = some t' ∧ t'.key = t.key ∧ Stores cmp h u t' (l.erase z) := by
  obtain ⟨T, hx⟩ := hs.tree
  obtain ⟨m', T', hrun, hx'⟩ := hx.call (c := .remove z) hz hfuel
  have hrun : rebalanceForErase fuel h t.mem z = some m' := hrun
  refine ⟨⟨m', t.key, t.nodeCount - 1⟩, by rw [RbTree.erase, hrun]; rfl, rfl, ⟨T', hx'⟩,
    hs.ordered.sublist erase_sublist, fun hu => (hs.distinct hu).sublist erase_sublist, ?_⟩
  rw [length_erase_of_mem hz, hs.count]

theorem Stores.upperBound (hcmp : StrictWeak cmp) (hs : Stores cmp h u t l) (k : K)
    (hfuel : 2 * (l.length + 1).log2 ≤ fuel) :
    t.upperBound cmp fuel h k = some ((l.filter fun n => cmp k (t.key n)).headD h) := by
  obtain ⟨T, hx⟩ := hs.tree
  obtain rfl := hx.order
  rw [RbTree.upperBound, hx.links.1]
  exact boundLoop_spec hx.links.2 (hs.rising hcmp k) (hx.redBlack.height_le.trans hfuel)

theorem Stores.lowerBound (hcmp : StrictWeak cmp) (hs : Stores cmp h u t l) (k : K)
    (hfuel : 2 * (l.length + 1).log2 ≤ fuel) :
    t.lowerBound cmp fuel h k = some ((l.filter fun n => !cmp (t.key n) k).headD h) := by
  obtain ⟨T, hx⟩ := hs.tree
  obtain rfl := hx.order
  have hrise : Rising (fun n => !cmp (t.key n) k) T.toList :=
    hs.ordered.imp fun {a b} hab (ha : (!cmp (t.key a) k) = true) => by
      have ha : cmp (t.key a) k = false := by simpa using ha
      exact congrArg not (hcmp.trans hab ha)
  rw [RbTree.lowerBound, hx.links.1]
  exact boundLoop_spec hx.links.2 hrise (hx.redBlack.height_le.trans hfuel)

theorem Stores.find (hcmp : StrictWeak cmp) (hs : Stores cmp h u t l) (k : K)
    (hfuel : 2 * (l.length + 1).log2 ≤ fuel) : t.find cmp fuel h k =
      some ((l.filter fun n => !cmp k (t.key n) && !cmp (t.key n) k).headD h) := by
  have hrise := (hs.rising hcmp k).sublist (filter_sublist (p := fun n => !cmp (t.key n) k))
  rw [RbTree.find, hs.lowerBound hcmp k hfuel, ← filter_filter]
  cases hP : l.filter fun n => !cmp (t.key n) k with
  | nil => exact congrArg some (if_pos (.inl rfl))
  | cons x P =>
    rw [hP] at hrise
    simp only [Option.bind_eq_bind, Option.bind_some, headD_cons]
    cases hlt : cmp k (t.key x) with
    | true =>
      have hnone : (x :: P).filter (fun n => !cmp k (t.key n)) = [] := filter_eq_nil_iff.mpr fun n hn => by
        have hlt' : cmp k (t.key n) = true := by
          rcases mem_cons.mp hn with rfl | hn
          · exact hlt
          · exact rel_of_pairwise_cons hrise hn hlt
        simp [hlt']
      rw [hnone, if_pos (.inr rfl), headD_nil]
    | false =>
      rw [filter_cons_of_pos (by rw [hlt]; rfl), headD_cons]
      by_cases hxh : x = h
      · rw [if_pos (.inl hxh), hxh]
      · rw [if_neg (by simpa using hxh)]

end Members

/-! ### Runs -/

/-- The runs from the empty tree, with `insert_equal` where keys need not be unique. -/
inductive Kept (cmp : K → K → Bool) (h : ℕ) (u : Bool) : RbTree K → List ℕ → Prop
  | empty (m : Mem ℕ) (key : ℕ → K) : Kept cmp h u ⟨emptyInitialize m h, key, 0⟩ []
  | insertEqual {t t' : RbTree K} {l : List ℕ} (fuel z : ℕ) (k : K) : Kept cmp h u t l → u = false → z ≠ h →
      z ∉ l → l.length < fuel → t.insertEqual cmp fuel h z k = some t' →
      Kept cmp h u t' (insertion (fun n => cmp k (t.key n)) z l)
  | insertUnique {t : RbTree K} {r : RbTree K × ℕ × Bool} {l : List ℕ} (fuel z : ℕ) (k : K) :
      Kept cmp h u t l → z ≠ h → z ∉ l → l.length < fuel → t.insertUnique cmp fuel h z k = some r →
      Kept cmp h u r.1 (if r.2.2 then insertion (fun n => cmp k (t.key n)) z l else l)
  | erase {t t' : RbTree K} {l : List ℕ} (fuel z : ℕ) : Kept cmp h u t l → z ∈ l → l.length < fuel →
      t.erase fuel h z = some t' → Kept cmp h u t' (l.erase z)

variable {cmp : K → K → Bool} {h : ℕ} {u : Bool} {t : RbTree K} {l : List ℕ}

theorem stores_of_kept (hcmp : StrictWeak cmp) (hk : Kept cmp h u t l) : Stores cmp h u t l := by
  induction hk with
  | empty m key => exact ⟨⟨_, exact_empty m h⟩, .nil, fun _ => .nil, rfl⟩
  | insertEqual fuel z k _ hu hzh hz hfuel hrun ih =>
    subst hu
    obtain ⟨t', hrun', hins⟩ := ih.insertEqual hcmp hzh hz hfuel k
    obtain rfl := Option.some_inj.mp (hrun'.symm.trans hrun)
    exact hins.2
  | insertUnique fuel z k _ hzh hz hfuel hrun ih =>
    rcases ih.insertUnique hcmp hzh hz hfuel k with ⟨t', hrun', -, hins⟩ | ⟨j, -, hrun', -⟩
    · obtain rfl := Option.some_inj.mp (hrun'.symm.trans hrun)
      exact hins.2
    · obtain rfl := Option.some_inj.mp (hrun'.symm.trans hrun)
      exact ih
  | erase fuel z _ hz hfuel hrun ih =>
    obtain ⟨t', hrun', -, hs⟩ := ih.erase hz hfuel
    obtain rfl := Option.some_inj.mp (hrun'.symm.trans hrun)
    exact hs

/-- **A tree with keys** is, in every run, a red-black tree of the nodes that were inserted and not erased,
in the order of their keys and among equivalent keys of their insertion.  The searches find the first node
there is, in `2 log₂ (n + 1)` steps; an insertion returns, and `insert_unique` refuses a key exactly if there
is an equivalent one. -/
theorem rbTree_keys (hcmp : StrictWeak cmp) (hk : Kept cmp h u t l) :
    Stores cmp h u t l ∧
    (∀ k, ∀ fuel ≥ 2 * (l.length + 1).log2,
      t.lowerBound cmp fuel h k = some ((l.filter fun n => !cmp (t.key n) k).headD h) ∧
      t.upperBound cmp fuel h k = some ((l.filter fun n => cmp k (t.key n)).headD h) ∧
      t.find cmp fuel h k = some ((l.filter fun n => !cmp k (t.key n) && !cmp (t.key n) k).headD h)) ∧
    ∀ fuel > l.length,
      (∀ k z, z ≠ h → z ∉ l →
        (u = false → ∃ t', t.insertEqual cmp fuel h z k = some t' ∧ Inserted cmp h false t l z k t') ∧
        ((∃ t', t.insertUnique cmp fuel h z k = some (t', z, true) ∧ Absent cmp t l k ∧
            Inserted cmp h u t l z k t') ∨
          ∃ j ∈ l, t.insertUnique cmp fuel h z k = some (t, j, false) ∧ cmp (t.key j) k = false ∧
            cmp k (t.key j) = false)) ∧
      ∀ z ∈ l, ∃ t', t.erase fuel h z = some t' ∧ t'.key = t.key ∧ Stores cmp h u t' (l.erase z) := by
  have hs := stores_of_kept hcmp hk
  refine ⟨hs, fun k fuel hfuel => ⟨hs.lowerBound hcmp k hfuel, hs.upperBound hcmp k hfuel,
    hs.find hcmp k hfuel⟩, fun fuel hfuel => ⟨fun k z hzh hz => ⟨fun hu => ?_,
    hs.insertUnique hcmp hzh hz hfuel k⟩, fun z hz => hs.erase hz hfuel⟩⟩
  subst hu
  exact hs.insertEqual hcmp hzh hz hfuel k

/-- A key that is there is refused, and another is put before it. -/
theorem rbTree_keys_refused : ∃ (t : RbTree ℕ), Stores (fun a b => decide (a < b)) 0 true t [2, 1] ∧
    t.find (fun a b => decide (a < b)) 2 0 5 = some 1 := by
  have hcmp : StrictWeak fun a b : ℕ => decide (a < b) := strictWeak_lt
  have h₀ : Kept (fun a b : ℕ => decide (a < b)) 0 true _ _ :=
    .empty ⟨fun _ => .black, fun _ => none, fun _ _ => none⟩ fun _ => 0
  have h₁ := h₀.insertUnique 9 1 5 (by decide) (by decide) (by decide) rfl
  have h₂ := h₁.insertUnique 9 2 5 (by decide) (by decide) (by decide) rfl
  have h₃ := h₂.insertUnique 9 2 3 (by decide) (by decide) (by decide) rfl
  obtain ⟨hs, hsearch, -⟩ := rbTree_keys hcmp h₃
  exact ⟨_, hs, (hsearch 5 2 (by decide)).2.2⟩

end SourceLibs.SgiStl
