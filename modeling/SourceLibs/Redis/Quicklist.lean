import Mathlib.Algebra.Order.Ring.Int
import Mathlib.Algebra.Group.Basic
import SourceLibs.Support.NodeList

/-!
# Redis — the quicklist

The nodes of `quicklist.c`, the calls of `ziplist.c` that it makes, and `quicklistIndex`.

A ziplist is the list of its entries, a pointer into it the number of an entry.  Its size in bytes is any
function `blobLen` of the entries.  A node that is compressed stands for its ziplist: when a node is
compressed and decompressed is left out.  A function that would read a node that is not there returns
nothing.

* `Valid`: the counts are those of the ziplists, and no node is empty.
* `quicklistIndex_spec`: an element is found from both ends, with an offset from the end of its node
  if the index is negative.
-/

namespace SourceLibs.RedisQuicklist
open List NodeList

variable {α : Type*}

/-- A node: its ziplist. -/
structure QuicklistNode (α : Type*) where
  zl : List α
  sz : ℕ
  count : ℕ

/-- The nodes in their order, and the counts. -/
structure Quicklist (α : Type*) where
  nodes : List (ℕ × QuicklistNode α)
  count : ℕ
  len : ℕ
  fill : ℤ

/-- `quicklistEntry`, when there is an element. -/
structure QuicklistEntry (α : Type*) where
  node : ℕ
  zi : Option ℕ
  value : Option α
  offset : ℤ

/-! ### Ziplists -/

/-- `ziplistIndex`; a negative index counts from the end. -/
def ziplistIndex (zl : List α) (index : ℤ) : Option ℕ :=
  if index < 0 then
    if (-index - 1).toNat < zl.length then some (zl.length - 1 - (-index - 1).toNat) else none
  else if index.toNat < zl.length then some index.toNat else none

def ziplistNext (zl : List α) (p : ℕ) : Option ℕ := if p + 1 < zl.length then some (p + 1) else none

/-- `ziplistPrev`; from the end it goes to the last entry. -/
def ziplistPrev (zl : List α) (p : ℕ) : Option ℕ :=
  if zl.length ≤ p then
    if zl.length = 0 then none else some (zl.length - 1)
  else if p = 0 then none else some (p - 1)

/-- An `int` or a `long` that is passed as an `unsigned int`. -/
def toUnsigned (n : ℤ) : ℕ := (n % 2 ^ 32).toNat

def ziplistDeleteRange (zl : List α) (index num : ℤ) : List α :=
  match ziplistIndex zl index with
  | none => zl
  | some p => zl.take p ++ zl.drop (p + toUnsigned num)

def ziplistDelete (zl : List α) (p : ℕ) : List α := zl.take p ++ zl.drop (p + 1)

/-! ### Finding an element -/

/-- Go along the nodes up to the one with the element. -/
def findNode (index : ℕ) : List (ℕ × QuicklistNode α) → ℕ → Option ((ℕ × QuicklistNode α) × ℕ)
  | [], _ => none
  | n :: l, accum =>
    if accum + n.2.count > index then some (n, accum) else findNode index l (accum + n.2.count)

/-- `quicklistIndex`, of an index above `LLONG_MIN`. -/
def quicklistIndex (q : Quicklist α) (idx : ℤ) : Option (QuicklistEntry α) :=
  let forward := decide (0 ≤ idx)
  let index := if forward then idx.toNat else (-idx - 1).toNat
  if index ≥ q.count then none
  else
    match findNode index (if forward then q.nodes else q.nodes.reverse) 0 with
    | none => none
    | some (n, accum) =>
      let offset : ℤ := if forward then index - accum else -index - 1 + accum
      let zi := ziplistIndex n.2.zl offset
      some ⟨n.1, zi, zi.bind fun p => n.2.zl[p]?, offset⟩

/-! ### Deleting a node -/

def quicklistDelNode (q : Quicklist α) (node : ℕ) : Option (Quicklist α) :=
  match get q.nodes node with
  | none => none
  | some n =>
    some { q with
      nodes := erase q.nodes node
      count := q.count - n.count
      len := q.len - 1 }

/-! ### What a quicklist stands for -/

/-- The elements of some nodes. -/
def contents (nodes : List (ℕ × QuicklistNode α)) : List α := nodes.flatMap fun n => n.2.zl

/-- The elements of a quicklist. -/
def Quicklist.toList (q : Quicklist α) : List α := contents q.nodes

/-- A node has elements, and counts them. -/
structure QuicklistNode.Valid (n : QuicklistNode α) : Prop where
  nonempty : n.zl ≠ []
  count : n.count = n.zl.length
  small : n.count < 2 ^ 16

/-- A quicklist has no empty node, and counts its elements and its nodes. -/
structure Quicklist.Valid (q : Quicklist α) : Prop where
  nodup : (addrs q.nodes).Nodup
  nodes : ∀ n ∈ q.nodes, n.2.Valid
  count : q.count = q.toList.length
  len : q.len = q.nodes.length
  small : q.count < 2 ^ 64

@[simp] theorem contents_nil : contents ([] : List (ℕ × QuicklistNode α)) = [] := rfl

@[simp] theorem contents_cons (n : ℕ × QuicklistNode α) (l : List (ℕ × QuicklistNode α)) :
    contents (n :: l) = n.2.zl ++ contents l := flatMap_cons

@[simp] theorem contents_append (l m : List (ℕ × QuicklistNode α)) :
    contents (l ++ m) = contents l ++ contents m := flatMap_append

theorem length_contents_reverse (l : List (ℕ × QuicklistNode α)) :
    (contents l.reverse).length = (contents l).length := by
  induction l with
  | nil => rfl
  | cons n l ih =>
    rw [reverse_cons, contents_append, contents_cons, contents_cons, contents_nil,
      append_nil, length_append, length_append, ih, Nat.add_comm]

section
variable {q : Quicklist α} {pre post : List (ℕ × QuicklistNode α)} {a : ℕ} {n n' : QuicklistNode α}

theorem Quicklist.Valid.mid (h : q.Valid) (hq : q.nodes = pre ++ (a, n) :: post) :
    a ∉ addrs pre ∧ a ∉ addrs post ∧ n.Valid := by
  obtain ⟨hpre, hpost⟩ := notMem_of_nodup (hq ▸ h.nodup)
  exact ⟨hpre, hpost, h.nodes (a, n) (by rw [hq]; simp)⟩

theorem Quicklist.toList_mid (hq : q.nodes = pre ++ (a, n) :: post) :
    q.toList = contents pre ++ (n.zl ++ contents post) := by
  rw [Quicklist.toList, hq, contents_append, contents_cons]

theorem Quicklist.Valid.remove (h : q.Valid) (hq : q.nodes = pre ++ (a, n) :: post) :
    ({ q with nodes := pre ++ post, count := q.count - n.count, len := q.len - 1 } :
      Quicklist α).Valid := by
  obtain ⟨-, -, hn⟩ := h.mid hq
  have hcount := h.count
  have hlen := h.len
  rw [Quicklist.toList_mid hq, length_append, length_append] at hcount
  rw [hq, length_append, length_cons] at hlen
  refine ⟨?_, fun m hm => h.nodes m ?_, ?_, ?_, Nat.lt_of_le_of_lt (Nat.sub_le _ _) h.small⟩
  · have hsub : (addrs (pre ++ post)).Sublist (addrs q.nodes) := by
      rw [hq, addrs_append, addrs_append, addrs_cons]
      exact (Sublist.refl _).append (sublist_cons_self _ _)
    exact h.nodup.sublist hsub
  · rw [hq]
    rcases mem_append.mp hm with hm | hm
    · exact mem_append_left _ hm
    · exact mem_append_right _ (mem_cons_of_mem _ hm)
  · rw [Quicklist.toList, contents_append, length_append, hn.count]
    dsimp only
    omega
  · rw [length_append]
    dsimp only
    omega

theorem Quicklist.Valid.shrink (h : q.Valid) (hq : q.nodes = pre ++ (a, n) :: post) (hn' : n'.Valid)
    {del : ℕ} (hdel : n'.zl.length + del = n.zl.length) :
    ({ q with nodes := pre ++ (a, n') :: post, count := q.count - del } : Quicklist α).Valid := by
  have hcount := h.count
  have hlen := h.len
  rw [Quicklist.toList_mid hq, length_append, length_append] at hcount
  rw [hq, length_append, length_cons] at hlen
  refine ⟨?_, fun m hm => ?_, ?_, ?_, Nat.lt_of_le_of_lt (Nat.sub_le _ _) h.small⟩
  · have hnodup := h.nodup
    rw [hq, addrs_append, addrs_cons] at hnodup
    rwa [addrs_append, addrs_cons]
  · rcases mem_append.mp hm with hm | hm
    · exact h.nodes m (by rw [hq]; simp [hm])
    · rcases mem_cons.mp hm with rfl | hm
      · exact hn'
      · exact h.nodes m (by rw [hq]; simp [hm])
  · rw [Quicklist.toList, contents_append, contents_cons, length_append, length_append]
    dsimp only
    omega
  · rw [length_append, length_cons]
    exact hlen

theorem exists_position (l : List (ℕ × QuicklistNode α)) : ∀ {i : ℕ}, i < (contents l).length →
    ∃ pre a n post o, l = pre ++ (a, n) :: post ∧ i = (contents pre).length + o ∧ o < n.zl.length := by
  induction l with
  | nil => exact fun h => absurd h (Nat.not_lt_zero _)
  | cons m l ih =>
    intro i hi
    rw [contents_cons, length_append] at hi
    by_cases him : i < m.2.zl.length
    · exact ⟨[], m.1, m.2, l, i, rfl, (Nat.zero_add i).symm, him⟩
    · obtain ⟨pre, a, n, post, o, rfl, hpos, ho⟩ := ih (show i - m.2.zl.length < _ by omega)
      refine ⟨m :: pre, a, n, post, o, rfl, ?_, ho⟩
      rw [contents_cons, length_append]
      omega

theorem findNode_mid {index o : ℕ} (hn : n.count = n.zl.length) (ho : o < n.zl.length) :
    ∀ {pre : List (ℕ × QuicklistNode α)} {accum : ℕ}, (∀ m ∈ pre, m.2.count = m.2.zl.length) →
      index = accum + (contents pre).length + o →
      findNode index (pre ++ (a, n) :: post) accum = some ((a, n), accum + (contents pre).length) := by
  intro pre
  induction pre with
  | nil =>
    intro accum _ hindex
    rw [nil_append, findNode, if_pos (by rw [hn]; simp at hindex; omega)]
    simp
  | cons m pre ih =>
    intro accum hcounts hindex
    have hm := hcounts m mem_cons_self
    rw [contents_cons, length_append, ← Nat.add_assoc] at hindex ⊢
    rw [List.cons_append, findNode, if_neg (by rw [hm]; omega), hm]
    exact ih (fun k hk => hcounts k (mem_cons_of_mem _ hk)) hindex

theorem toUnsigned_of_lt {m : ℕ} (h : m < 2 ^ 32) : toUnsigned m = m := by
  have h' : (m : ℤ) < 2 ^ 32 := by exact_mod_cast h
  rw [toUnsigned, Int.emod_eq_of_lt (Int.natCast_nonneg m) h', Int.toNat_natCast]

theorem ziplistIndex_of_lt {zl : List α} {o : ℕ} (ho : o < zl.length) :
    ziplistIndex zl (o : ℤ) = some o := by
  rw [ziplistIndex, if_neg (by omega), Int.toNat_natCast, if_pos ho]

theorem ziplistIndex_sub {zl : List α} {o : ℕ} (ho : o < zl.length) :
    ziplistIndex zl ((o : ℤ) - zl.length) = some o := by
  rw [ziplistIndex, if_pos (by omega), if_pos (by omega)]
  congr 1
  omega

/-- **`quicklistIndex`** finds an element, counted from either end. -/
theorem quicklistIndex_spec (h : q.Valid) (hq : q.nodes = pre ++ (a, n) :: post) {o : ℕ}
    (ho : o < n.zl.length) :
    quicklistIndex q ((contents pre).length + o : ℕ) = some ⟨a, some o, n.zl[o]?, o⟩ ∧
      quicklistIndex q (((contents pre).length + o : ℕ) - q.toList.length) =
        some ⟨a, some o, n.zl[o]?, o - n.zl.length⟩ := by
  have hcounts : ∀ m ∈ q.nodes, m.2.count = m.2.zl.length := fun m hm => (h.nodes m hm).count
  have hn : n.count = n.zl.length := hcounts (a, n) (by rw [hq]; simp)
  have hlen : q.count = (contents pre).length + (n.zl.length + (contents post).length) := by
    rw [h.count, Quicklist.toList_mid hq, length_append, length_append]
  have htotal : q.toList.length = q.count := h.count.symm
  constructor
  · have hpre : ∀ m ∈ pre, m.2.count = m.2.zl.length := fun m hm => hcounts m (by rw [hq]; simp [hm])
    have hfind : findNode ((contents pre).length + o) q.nodes 0 =
        some ((a, n), 0 + (contents pre).length) := by
      rw [hq]
      exact findNode_mid hn ho hpre (by rw [Nat.zero_add])
    rw [Nat.zero_add] at hfind
    rw [quicklistIndex, decide_eq_true (Int.natCast_nonneg _)]
    dsimp only
    rw [if_pos rfl, if_pos rfl, Int.toNat_natCast, if_neg (by omega), hfind]
    dsimp only
    rw [if_pos rfl, Nat.cast_add, add_sub_cancel_left, ziplistIndex_of_lt ho]
    rfl
  · have hpost : ∀ m ∈ post.reverse, m.2.count = m.2.zl.length := fun m hm =>
      hcounts m (by rw [hq]; simp [mem_reverse.mp hm])
    have hindex : (-(((contents pre).length + o : ℕ) - q.toList.length : ℤ) - 1).toNat =
        0 + (contents post.reverse).length + (n.zl.length - 1 - o) := by
      rw [length_contents_reverse, htotal]
      omega
    have hrev : q.nodes.reverse = post.reverse ++ (a, n) :: pre.reverse := by rw [hq]; simp
    have hfind : findNode (-(((contents pre).length + o : ℕ) - q.toList.length : ℤ) - 1).toNat
        q.nodes.reverse 0 = some ((a, n), 0 + (contents post.reverse).length) := by
      rw [hrev]
      exact findNode_mid hn (show n.zl.length - 1 - o < n.zl.length by omega) hpost hindex
    rw [Nat.zero_add] at hfind
    have hoffset : -((-(((contents pre).length + o : ℕ) - q.toList.length : ℤ) - 1).toNat : ℤ) - 1 +
        (contents post.reverse).length = o - n.zl.length := by
      rw [hindex]
      omega
    rw [quicklistIndex, decide_eq_false (by omega)]
    dsimp only
    rw [if_neg Bool.false_ne_true, if_neg Bool.false_ne_true, if_neg (by omega), hfind]
    dsimp only
    rw [if_neg Bool.false_ne_true, hoffset, ziplistIndex_sub ho]
    rfl

/-- **`quicklistIndex`** finds nothing past the ends. -/
theorem quicklistIndex_none (h : q.Valid) {idx : ℤ}
    (hidx : idx < -(q.toList.length : ℤ) ∨ (q.toList.length : ℤ) ≤ idx) :
    quicklistIndex q idx = none := by
  have htotal : q.toList.length = q.count := h.count.symm
  rw [quicklistIndex]
  dsimp only
  refine if_pos ?_
  split
  · next hpos =>
      have hpos' := of_decide_eq_true hpos
      omega
  · next hneg =>
      have hneg' : ¬ 0 ≤ idx := fun hpos => hneg (decide_eq_true hpos)
      omega

theorem quicklistDelNode_mid (hq : q.nodes = pre ++ (a, n) :: post) (hpre : a ∉ addrs pre)
    (hpost : a ∉ addrs post) : quicklistDelNode q a =
      some { q with nodes := pre ++ post, count := q.count - n.count, len := q.len - 1 } := by
  rw [quicklistDelNode, hq, get_mid hpre]
  dsimp only
  rw [erase_mid hpre hpost]

end

/-- Four elements in a node and one in the next. -/
def twoNodes : Quicklist ℕ := ⟨[(1, ⟨[0, 1, 2, 3], 19, 4⟩), (2, ⟨[4], 13, 1⟩)], 5, 2, -2⟩

theorem twoNodes_valid : twoNodes.Valid := by
  refine ⟨by decide, fun n hn => ?_, rfl, rfl, by decide⟩
  rcases mem_cons.mp hn with rfl | hn
  · exact ⟨by decide, rfl, by decide⟩
  · obtain rfl := mem_singleton.mp hn
    exact ⟨by decide, rfl, by decide⟩

end SourceLibs.RedisQuicklist
