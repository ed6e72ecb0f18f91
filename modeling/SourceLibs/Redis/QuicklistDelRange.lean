import SourceLibs.Redis.Quicklist

/-!
# Redis — deleting a range of a quicklist

`quicklistDelRange`.  From a negative start the elements up to the end of its node are counted from the
end of the node, after that every node begins with its first element.

* `deleteInNode_spec`, `delRangeLoop_spec`: what goes from a node, and from the nodes behind it.
* `delRange_iff`: when the range is deleted.
-/

namespace SourceLibs.RedisQuicklist
open List NodeList

variable {α : Type*}

section
variable (blobLen : List α → ℕ)

/-- The number of elements to delete from a node, and whether it is deleted as a whole. -/
def delCount (offset : ℤ) (extent count : ℕ) : Bool × ℕ :=
  if offset = 0 ∧ extent ≥ count then (true, count)
  else if offset ≥ 0 ∧ extent ≥ count then (false, (count - offset).toNat)
  else if offset < 0 then
    let del := (-offset).toNat
    (false, if del > extent then extent else del)
  else (false, extent)

/-- Delete from the ziplist of a node, and the node if it is empty. -/
def deleteInNode (q : Quicklist α) (node : ℕ) (n : QuicklistNode α) (offset : ℤ) (del : ℕ) :
    Option (Quicklist α) :=
  let zl := ziplistDeleteRange n.zl offset del
  let n : QuicklistNode α := ⟨zl, blobLen zl, n.count - del⟩
  let q := { q with nodes := set q.nodes node n, count := q.count - del }
  if n.count = 0 then quicklistDelNode q node else some q

/-- A round of the loop: the node after this one, and what is left of the extent. -/
def delRangeStep (q : Quicklist α) (node : ℕ) (offset : ℤ) (extent : ℕ) :
    Option (Quicklist α × Option ℕ × ℕ) :=
  match get q.nodes node, next q.nodes node with
  | some n, some after =>
    let del := delCount offset extent n.count
    let q := if del.1 then quicklistDelNode q node else deleteInNode blobLen q node n offset del.2
    q.map fun q => (q, after, extent - del.2)
  | _, _ => none

/-- The loop over the nodes. -/
def delRangeLoop : ℕ → Quicklist α → Option ℕ → ℤ → ℕ → Option (Quicklist α)
  | 0, _, _, _, _ => none
  | fuel + 1, q, node, offset, extent =>
    if extent = 0 then some q
    else
      match node.bind fun node => delRangeStep blobLen q node offset extent with
      | none => none
      | some (q, after, extent) => delRangeLoop fuel q after 0 extent

/-- `quicklistDelRange`, and whether it says that something was deleted; `-start` overflows at
`LONG_MIN`. -/
def quicklistDelRange (q : Quicklist α) (start count : ℤ) : Option (Quicklist α × Bool) :=
  if count ≤ 0 then some (q, false)
  else if start = -2 ^ 63 then none
  else
    let rest := ((q.count - start) % 2 ^ 64).toNat
    let extent :=
      if start ≥ 0 ∧ count.toNat > rest then rest
      else if start < 0 ∧ count.toNat > (-start).toNat then (-start).toNat
      else count.toNat
    match quicklistIndex q start with
    | none => some (q, false)
    | some e =>
      (delRangeLoop blobLen (q.nodes.length + 1) q (some e.node) e.offset extent).map fun q => (q, true)

end

/-! ### One node -/

section Node
variable {q : Quicklist α} {pre post : List (ℕ × QuicklistNode α)} {a : ℕ} {n : QuicklistNode α}

/-- **Deleting from a node**, which goes if nothing is left of it. -/
theorem deleteInNode_spec (blobLen : List α → ℕ) (h : q.Valid) (hq : q.nodes = pre ++ (a, n) :: post)
    {offset : ℤ} {p del : ℕ} (hp : ziplistIndex n.zl offset = some p) (hdel : p + del ≤ n.zl.length) :
    ∃ q' mid, deleteInNode blobLen q a n offset del = some q' ∧ q'.Valid ∧
      q'.nodes = (pre ++ mid) ++ post ∧ contents mid = n.zl.take p ++ n.zl.drop (p + del) := by
  obtain ⟨hpre, hpost, hn⟩ := h.mid hq
  have hsmall : n.zl.length < 2 ^ 16 := hn.count ▸ hn.small
  have hzl : ziplistDeleteRange n.zl offset del = n.zl.take p ++ n.zl.drop (p + del) := by
    rw [ziplistDeleteRange, hp]
    dsimp only
    rw [toUnsigned_of_lt (by omega)]
  have hlen : (n.zl.take p ++ n.zl.drop (p + del)).length + del = n.zl.length := by
    rw [length_append, length_take, length_drop]
    omega
  rw [deleteInNode]
  dsimp only
  rw [hzl, hn.count, hq, set_mid hpre hpost]
  by_cases hzero : n.zl.length - del = 0
  · have hnil : n.zl.take p ++ n.zl.drop (p + del) = [] := eq_nil_of_length_eq_zero (by omega)
    have hq' : q.count - n.count = q.count - del - 0 := by rw [hn.count]; omega
    rw [if_pos hzero, quicklistDelNode_mid rfl hpre hpost]
    dsimp only
    rw [hzero, ← hq']
    exact ⟨_, [], rfl, h.remove hq, by simp, by rw [hnil]; rfl⟩
  · let n' : QuicklistNode α := ⟨n.zl.take p ++ n.zl.drop (p + del),
      blobLen (n.zl.take p ++ n.zl.drop (p + del)), n.zl.length - del⟩
    have hn' : n'.Valid := by
      refine ⟨fun hnil => ?_, Nat.eq_sub_of_add_eq hlen |>.symm, (Nat.sub_le _ _).trans_lt hsmall⟩
      rw [show n.zl.take p ++ n.zl.drop (p + del) = [] from hnil, length_nil] at hlen
      omega
    rw [if_neg hzero]
    exact ⟨_, [(a, n')], rfl, h.shrink hq hn' hlen, by simp [n'], by simp [n']⟩

/-- **A round of the loop**, which takes from a node what it has of the range. -/
theorem delRangeStep_spec (blobLen : List α → ℕ) (h : q.Valid) (hq : q.nodes = pre ++ (a, n) :: post)
    {offset : ℤ} {p extent del : ℕ} {entire : Bool} (hp : ziplistIndex n.zl offset = some p)
    (hcount : delCount offset extent n.count = (entire, del)) (hdel : p + del ≤ n.zl.length)
    (hentire : entire = true → p = 0 ∧ del = n.zl.length) :
    ∃ q' mid, delRangeStep blobLen q a offset extent =
        some (q', post.head?.map Prod.fst, extent - del) ∧ q'.Valid ∧
      q'.nodes = (pre ++ mid) ++ post ∧ contents mid = n.zl.take p ++ n.zl.drop (p + del) := by
  obtain ⟨hpre, hpost, hn⟩ := h.mid hq
  rw [delRangeStep]
  cases entire with
  | true =>
    obtain ⟨rfl, rfl⟩ := hentire rfl
    refine ⟨_, [], ?_, h.remove hq, by simp, by simp⟩
    rw [quicklistDelNode_mid hq hpre hpost, hq, get_mid hpre, next_mid hpre]
    dsimp only
    rw [hcount]
    rfl
  | false =>
    obtain ⟨q', mid, hnode, hvalid, hnodes, hmid⟩ := deleteInNode_spec blobLen h hq hp hdel
    refine ⟨q', mid, ?_, hvalid, hnodes, hmid⟩
    rw [hq, get_mid hpre, next_mid hpre]
    dsimp only
    rw [hcount]
    dsimp only
    rw [if_neg Bool.false_ne_true, hnode]
    rfl

end Node

/-! ### The loop -/

section Loop
variable (blobLen : List α → ℕ)

/-- **The nodes that begin with their first element.** -/
theorem delRangeLoop_spec (suf : List (ℕ × QuicklistNode α)) : ∀ {q : Quicklist α}
    {pre : List (ℕ × QuicklistNode α)} {fuel extent : ℕ}, q.Valid → q.nodes = pre ++ suf →
      extent ≤ (contents suf).length → suf.length < fuel →
      ∃ q', delRangeLoop blobLen fuel q (suf.head?.map Prod.fst) 0 extent = some q' ∧ q'.Valid ∧
        q'.toList = contents pre ++ (contents suf).drop extent := by
  induction suf with
  | nil =>
    intro q pre fuel extent h hq hextent hfuel
    obtain ⟨fuel, rfl⟩ := Nat.exists_eq_add_of_lt hfuel
    obtain rfl := Nat.le_zero.mp hextent
    exact ⟨q, rfl, h, by rw [Quicklist.toList, hq, contents_append]; rfl⟩
  | cons m suf ih =>
    obtain ⟨a, n⟩ := m
    intro q pre fuel extent h hq hextent hfuel
    obtain ⟨fuel, rfl⟩ : ∃ k, fuel = k + 1 := ⟨fuel - 1, by omega⟩
    obtain ⟨-, -, hn⟩ := h.mid hq
    rw [contents_cons, length_append] at hextent
    dsimp only at hextent
    rw [delRangeLoop]
    by_cases hzero : extent = 0
    · rw [if_pos hzero, hzero]
      exact ⟨q, rfl, h, Quicklist.toList_mid hq⟩
    · have hindex : ziplistIndex n.zl 0 = some 0 := if_pos (length_pos_of_ne_nil hn.nonempty)
      have hcount : delCount 0 extent n.count =
          (decide (extent ≥ n.count), min extent n.zl.length) := by
        rw [delCount, ← hn.count]
        by_cases hall : extent ≥ n.count
        · rw [if_pos ⟨rfl, hall⟩, decide_eq_true hall, min_eq_right hall]
        · rw [if_neg (fun hboth => hall hboth.2), if_neg (fun hboth => hall hboth.2),
            if_neg (lt_irrefl _), decide_eq_false hall, min_eq_left (not_le.mp hall).le]
      obtain ⟨q', mid, hstep, hvalid, hnodes, hmid⟩ := delRangeStep_spec blobLen h hq hindex hcount
        (by rw [Nat.zero_add]; exact min_le_right _ _) fun hall =>
          ⟨rfl, min_eq_right (hn.count ▸ of_decide_eq_true hall)⟩
      obtain ⟨q'', hloop, hvalid', hlist⟩ := ih hvalid hnodes
        (show extent - min extent n.zl.length ≤ (contents suf).length by omega)
        (Nat.lt_of_succ_lt_succ hfuel)
      refine ⟨q'', ?_, hvalid', ?_⟩
      · rw [if_neg hzero, head?_cons, Option.map_some, Option.bind_some, hstep]
        exact hloop
      · rw [hlist, contents_append, hmid, contents_cons, take_zero, nil_append,
          List.append_assoc, drop_append, Nat.zero_add]
        rcases Nat.le_total extent n.zl.length with hle | hge
        · rw [min_eq_left hle, Nat.sub_self, Nat.sub_eq_zero_of_le hle]
        · rw [min_eq_right hge, drop_length, drop_eq_nil_of_le hge]

variable {q : Quicklist α} {pre post : List (ℕ × QuicklistNode α)} {a : ℕ} {n : QuicklistNode α}

/-- **The loop**, from an element inside a node. -/
theorem delRangeLoop_from (h : q.Valid) (hq : q.nodes = pre ++ (a, n) :: post) {offset : ℤ}
    {p extent : ℕ} {entire : Bool} (hp : ziplistIndex n.zl offset = some p)
    (hple : p ≤ n.zl.length) (hzero : extent ≠ 0)
    (hextent : (contents pre).length + p + extent ≤ q.toList.length)
    (hcount : delCount offset extent n.count = (entire, min extent (n.zl.length - p)))
    (hentire : entire = true → p = 0 ∧ n.zl.length ≤ extent) :
    ∃ q', delRangeLoop blobLen (q.nodes.length + 1) q (some a) offset extent = some q' ∧ q'.Valid ∧
      q'.toList = q.toList.take ((contents pre).length + p) ++
        q.toList.drop ((contents pre).length + p + extent) := by
  rw [Quicklist.toList_mid hq] at hextent ⊢
  rw [length_append, length_append] at hextent
  obtain ⟨q', mid, hstep, hvalid, hnodes, hmid⟩ := delRangeStep_spec blobLen h hq hp hcount
    (by omega) fun hall => ⟨(hentire hall).1, by have := hentire hall; omega⟩
  obtain ⟨q'', hloop, hvalid', hlist⟩ := delRangeLoop_spec blobLen post hvalid hnodes
    (show extent - min extent (n.zl.length - p) ≤ (contents post).length by omega)
    (show post.length < q.nodes.length by rw [hq, length_append, length_cons]; omega)
  refine ⟨q'', ?_, hvalid', ?_⟩
  · rw [delRangeLoop, if_neg hzero, Option.bind_some, hstep]
    exact hloop
  · rw [hlist, contents_append, hmid, take_length_add_append, Nat.add_assoc,
      drop_length_add_append, take_append_of_le_length hple, drop_append,
      List.append_assoc, List.append_assoc, List.append_assoc]
    rcases Nat.le_total extent (n.zl.length - p) with hle | hge
    · rw [min_eq_left hle, Nat.sub_self, Nat.sub_eq_zero_of_le (show p + extent ≤ n.zl.length by omega)]
    · rw [min_eq_right hge, drop_eq_nil_of_le (show n.zl.length ≤ p + (n.zl.length - p) by omega),
        drop_eq_nil_of_le (show n.zl.length ≤ p + extent by omega),
        show extent - (n.zl.length - p) = p + extent - n.zl.length by omega]

end Loop

/-! ### The whole function -/

section DelRange
variable (blobLen : List α → ℕ) {q : Quicklist α} {start count : ℤ}

/-- A start names an element: it is its position, or counts it from the end. -/
def Names (q : Quicklist α) (start : ℤ) (i : ℕ) : Prop :=
  i < q.toList.length ∧ (start = i ∨ start = i - q.toList.length)

/-- What ought to happen: the range goes, and nothing changes if the start names no element. -/
def DeletesRange (q : Quicklist α) (start count : ℤ) : Prop :=
  (∀ i, Names q start i → ∃ q', quicklistDelRange blobLen q start count = some (q', true) ∧ q'.Valid ∧
    q'.toList = q.toList.take i ++ q.toList.drop (i + count.toNat)) ∧
  ((∀ i, ¬ Names q start i) → quicklistDelRange blobLen q start count = some (q, false))

/-- The range, up to the end of the list at most, begins at a position of a node that is not its first, is
shorter than the node, and yet goes beyond its end. -/
def Overruns (q : Quicklist α) (start count : ℤ) : Prop :=
  ∃ pre a n post o, q.nodes = pre ++ (a, n) :: post ∧ start = ((contents pre).length + o : ℕ) ∧ 0 < o ∧
    o < n.count ∧ min count (q.count - start) < n.count ∧ n.count < o + min count (q.count - start)

/-- The extent is what of the count is in the list. -/
theorem quicklistDelRange_eq (h : q.Valid) (hcount : 0 < count) (hstart : start ≠ -2 ^ 63) {i : ℕ}
    (hi : Names q start i) {e : QuicklistEntry α} (he : quicklistIndex q start = some e) :
    quicklistDelRange blobLen q start count =
      (delRangeLoop blobLen (q.nodes.length + 1) q (some e.node) e.offset
        (min count.toNat (q.toList.length - i))).map fun q => (q, true) := by
  obtain ⟨hlt, hpos⟩ := hi
  have htotal := h.count
  have hsmall := h.small
  rw [quicklistDelRange, if_neg (by omega), if_neg hstart, he]
  dsimp only
  congr 2
  rcases hpos with rfl | rfl
  · have hmod : (((q.count : ℤ) - i) % 2 ^ 64).toNat = q.toList.length - i := by
      rw [Int.emod_eq_of_lt (by omega) (by omega)]
      omega
    rw [hmod]
    split
    · omega
    · rw [if_neg (by omega)]
      omega
  · rw [if_neg (by omega)]
    split <;> omega

/-- From the head, a range that does not overrun the node. -/
theorem delCount_of_nonneg {o extent c : ℕ} (ho : o < c)
    (hfits : o = 0 ∨ c ≤ extent ∨ o + extent ≤ c) :
    delCount o extent c = (decide (o = 0 ∧ c ≤ extent), min extent (c - o)) := by
  rw [delCount]
  by_cases hall : o = 0 ∧ c ≤ extent
  · obtain ⟨rfl, hle⟩ := hall
    rw [if_pos ⟨rfl, hle⟩, decide_eq_true ⟨rfl, hle⟩, Nat.sub_zero, min_eq_right hle]
  · rw [if_neg (by omega), decide_eq_false hall]
    by_cases hle : c ≤ extent
    · rw [if_pos ⟨Int.natCast_nonneg o, hle⟩, min_eq_right (by omega)]
      congr 1
      omega
    · rw [if_neg (by omega), if_neg (by omega), min_eq_left (by omega)]

/-- From the end of its node any range is taken as it is. -/
theorem delCount_of_neg {o extent c : ℕ} (ho : o < c) :
    delCount (o - c) extent c = (false, min extent (c - o)) := by
  have hneg : (-((o : ℤ) - c)).toNat = c - o := by omega
  rw [delCount, if_neg (by omega), if_neg (by omega), if_pos (by omega), hneg]
  dsimp only
  congr 1
  split <;> omega

theorem drop_add_min (l : List α) (i c : ℕ) : l.drop (i + min c (l.length - i)) = l.drop (i + c) := by
  rcases Nat.le_total c (l.length - i) with hle | hge
  · rw [min_eq_left hle]
  · rw [min_eq_right hge, drop_eq_nil_of_le (by omega), drop_eq_nil_of_le (by omega)]

theorem delRange_of_delCount (h : q.Valid) (hcount : 0 < count) (hstart : start ≠ -2 ^ 63) {i : ℕ}
    (hi : Names q start i) {pre post : List (ℕ × QuicklistNode α)} {a : ℕ} {n : QuicklistNode α}
    (hq : q.nodes = pre ++ (a, n) :: post) {o : ℕ} (hpos : i = (contents pre).length + o)
    (ho : o < n.zl.length) {offset : ℤ}
    (he : quicklistIndex q start = some ⟨a, some o, n.zl[o]?, offset⟩)
    (hoffset : ziplistIndex n.zl offset = some o) {entire : Bool}
    (hdel : delCount offset (min count.toNat (q.toList.length - i)) n.zl.length =
      (entire, min (min count.toNat (q.toList.length - i)) (n.zl.length - o)))
    (hentire : entire = true → o = 0 ∧ n.zl.length ≤ min count.toNat (q.toList.length - i)) :
    ∃ q', quicklistDelRange blobLen q start count = some (q', true) ∧ q'.Valid ∧
      q'.toList = q.toList.take i ++ q.toList.drop (i + count.toNat) := by
  have hlt := hi.1
  have hfirst : delCount offset (min count.toNat (q.toList.length - i)) n.count =
      (entire, min (min count.toNat (q.toList.length - i)) (n.zl.length - o)) := by
    rw [(h.mid hq).2.2.count, hdel]
  obtain ⟨q', hloop, hvalid, hlist⟩ := delRangeLoop_from blobLen h hq hoffset ho.le
    (show min count.toNat (q.toList.length - i) ≠ 0 by omega) (by omega) hfirst hentire
  refine ⟨q', ?_, hvalid, ?_⟩
  · rw [quicklistDelRange_eq blobLen h hcount hstart hi he, hloop]
    rfl
  · rw [hlist, ← hpos, drop_add_min]

/-- A range that overruns a node is deleted up to the end of the node, which then counts less than it
has. -/
theorem delRange_of_overruns (h : q.Valid) (hcount : 0 < count) (hover : Overruns q start count) :
    ∃ i q', Names q start i ∧ quicklistDelRange blobLen q start count = some (q', true) ∧
      ¬ q'.Valid := by
  obtain ⟨pre, a, n, post, o, hq, rfl, ho, hon, hshort, hlong⟩ := hover
  obtain ⟨hpre, hpost, hn⟩ := h.mid hq
  have htotal := h.count
  rw [hn.count] at hon hshort hlong
  have hlen : q.toList.length = (contents pre).length + (n.zl.length + (contents post).length) := by
    rw [Quicklist.toList_mid hq, length_append, length_append]
  have hi : Names q ((contents pre).length + o : ℕ) ((contents pre).length + o) :=
    ⟨by omega, .inl rfl⟩
  have he := (quicklistIndex_spec h hq hon).1
  have hzi := ziplistIndex_of_lt hon
  obtain ⟨extent, hextent⟩ : ∃ extent, extent =
    min count.toNat (q.toList.length - ((contents pre).length + o)) := ⟨_, rfl⟩
  have hdel : delCount (o : ℤ) extent n.zl.length = (false, extent) := by
    rw [delCount, if_neg (by omega), if_neg (by omega), if_neg (by omega)]
  have hstart : (((contents pre).length + o : ℕ) : ℤ) ≠ -2 ^ 63 := by omega
  let n' : QuicklistNode α := ⟨n.zl.take o ++ n.zl.drop (o + toUnsigned extent),
    blobLen (n.zl.take o ++ n.zl.drop (o + toUnsigned extent)), n.zl.length - extent⟩
  have hstep : delRangeStep blobLen q a o extent =
      some ({ q with nodes := pre ++ (a, n') :: post, count := q.count - extent },
        post.head?.map Prod.fst, 0) := by
    rw [delRangeStep, hq, get_mid hpre, next_mid hpre]
    dsimp only
    rw [hn.count, hdel]
    dsimp only
    rw [if_neg Bool.false_ne_true, deleteInNode, ziplistDeleteRange, hzi]
    dsimp only
    rw [hn.count, if_neg (show n.zl.length - extent ≠ 0 by omega), hq, set_mid hpre hpost,
      Option.map_some, Nat.sub_self]
  refine ⟨_, { q with nodes := pre ++ (a, n') :: post, count := q.count - extent }, hi, ?_,
    fun hvalid => ?_⟩
  · rw [quicklistDelRange_eq blobLen h hcount hstart hi he, ← hextent, delRangeLoop,
      if_neg (show extent ≠ 0 by omega), Option.bind_some, hstep]
    dsimp only
    obtain ⟨fuel, hfuel⟩ : ∃ fuel, q.nodes.length = fuel + 1 :=
      ⟨pre.length + post.length, by rw [hq, length_append, length_cons]; omega⟩
    rw [hfuel, delRangeLoop, if_pos rfl]
    rfl
  · -- The node still has the elements before the range.
    have hnode : n'.count = n'.zl.length := (hvalid.nodes (a, n') (by simp)).count
    have hge : o ≤ n'.zl.length := by
      rw [show n'.zl = n.zl.take o ++ n.zl.drop (o + toUnsigned extent) from rfl, length_append,
        length_take]
      omega
    have hless : n'.count < o := by
      rw [show n'.count = n.zl.length - extent from rfl]
      omega
    omega

/-- **`quicklistDelRange`** deletes the range, unless it overruns a node. -/
theorem delRange_iff (h : q.Valid) (hcount : 0 < count) :
    DeletesRange blobLen q start count ↔ start ≠ -2 ^ 63 ∧ ¬ Overruns q start count := by
  constructor
  · rintro ⟨hnamed, hunnamed⟩
    refine ⟨fun hmin => ?_, fun hover => ?_⟩
    · -- `-start` overflows.
      have hnone : quicklistDelRange blobLen q start count = none := by
        rw [quicklistDelRange, if_neg (by omega), if_pos hmin]
      by_cases hex : ∃ i, Names q start i
      · obtain ⟨i, hi⟩ := hex
        obtain ⟨q', hq', -⟩ := hnamed i hi
        rw [hnone] at hq'
        cases hq'
      · have hq' := hunnamed fun i hi => hex ⟨i, hi⟩
        rw [hnone] at hq'
        cases hq'
    · obtain ⟨i, q', hi, hdel, hinvalid⟩ := delRange_of_overruns blobLen h hcount hover
      obtain ⟨q'', hdel', hvalid, -⟩ := hnamed i hi
      rw [hdel] at hdel'
      cases hdel'
      exact hinvalid hvalid
  · rintro ⟨hstart, hover⟩
    refine ⟨fun i hi => ?_, fun hunnamed => ?_⟩
    · obtain ⟨pre, a, n, post, o, hq, hpos, ho⟩ := exists_position q.nodes hi.1
      obtain ⟨-, -, hn⟩ := h.mid hq
      have htotal := h.count
      have hlt := hi.1
      rcases hi.2 with hforward | hbackward
      · have he := (quicklistIndex_spec h hq ho).1
        rw [← hpos, ← hforward] at he
        -- What is taken is right as the range does not overrun the node.
        have hfits : o = 0 ∨ n.zl.length ≤ min count.toNat (q.toList.length - i) ∨
            o + min count.toNat (q.toList.length - i) ≤ n.zl.length := by
          by_contra hnot
          have hlen := hn.count
          exact hover ⟨pre, a, n, post, o, hq, by rw [hforward, hpos], by omega, by omega, by omega,
            by omega⟩
        exact delRange_of_delCount blobLen h hcount hstart hi hq hpos ho he (ziplistIndex_of_lt ho)
          (delCount_of_nonneg ho hfits) of_decide_eq_true
      · have he := (quicklistIndex_spec h hq ho).2
        rw [← hpos, ← hbackward] at he
        exact delRange_of_delCount blobLen h hcount hstart hi hq hpos ho he (ziplistIndex_sub ho)
          (delCount_of_neg ho) fun hall => absurd hall Bool.false_ne_true
    · have hnone : quicklistIndex q start = none := by
        refine quicklistIndex_none h ?_
        by_contra hin
        by_cases hpos : 0 ≤ start
        · exact hunnamed start.toNat ⟨by omega, .inl (by omega)⟩
        · exact hunnamed (start + q.toList.length).toNat ⟨by omega, .inr (by omega)⟩
      rw [quicklistDelRange, if_neg (by omega), if_neg hstart, hnone]

theorem delRange_iff_twoNodes : DeletesRange (fun _ => 11) twoNodes (-3) 3 ↔
    (-3 : ℤ) ≠ -2 ^ 63 ∧ ¬ Overruns twoNodes (-3) 3 :=
  delRange_iff (fun _ => 11) twoNodes_valid (by decide)

/-- Three elements from the third on: the last of them stays. -/
theorem delRange_leaves_last : ¬ DeletesRange (fun _ => 11) twoNodes 2 3 := by
  rintro ⟨hnamed, -⟩
  obtain ⟨q', hdel, -, hlist⟩ := hnamed 2 ⟨by decide, .inl rfl⟩
  have hleft : (quicklistDelRange (fun _ => 11) twoNodes 2 3).map (fun r => r.1.toList) =
      some [0, 1, 4] := by decide
  rw [hdel, Option.map_some, hlist] at hleft
  exact absurd hleft (by decide)

end DelRange

end SourceLibs.RedisQuicklist
