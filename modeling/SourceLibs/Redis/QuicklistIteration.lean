import SourceLibs.Redis.Quicklist

/-!
# Redis — iterating over a quicklist

`quicklistNext` and `quicklistDelEntry`.  An iterator stands between two elements; after a deletion it has
a node and an offset only, from the front of the node or from its end.

* `Gap`: where an iterator stands.
* `quicklistNext_head`, `quicklistNext_tail`: the next element is passed.
* `quicklistDelEntry_spec`: the element that was passed goes, and the iterator stays between its neighbours.
* `iterate_deletes`: a whole iteration.
-/

namespace SourceLibs.RedisQuicklist
open NodeList

variable {α : Type*}

/-- `AL_START_HEAD`, `AL_START_TAIL`. -/
inductive Direction where
  | head
  | tail

structure QuicklistIter where
  current : Option ℕ
  zi : Option ℕ
  offset : ℤ
  direction : Direction

def quicklistGetIterator (q : Quicklist α) : Direction → QuicklistIter
  | .head => ⟨q.nodes.head?.map Prod.fst, none, 0, .head⟩
  | .tail => ⟨q.nodes.getLast?.map Prod.fst, none, -1, .tail⟩

/-- The entry at the offset, if there is no current one, or the one next to it. -/
def advance (iter : QuicklistIter) (zl : List α) : Option ℕ × ℤ :=
  match iter.zi with
  | none => (ziplistIndex zl iter.offset, iter.offset)
  | some p =>
    match iter.direction with
    | .head => (ziplistNext zl p, iter.offset + 1)
    | .tail => (ziplistPrev zl p, iter.offset - 1)

/-- To the next node. -/
def jump (q : Quicklist α) (iter : QuicklistIter) (node : ℕ) : Option QuicklistIter :=
  match iter.direction with
  | .head => (next q.nodes node).map fun c => { iter with current := c, offset := 0, zi := none }
  | .tail => (prev q.nodes node).map fun c => { iter with current := c, offset := -1, zi := none }

/-- `quicklistNext`; there is no entry at the end. -/
def quicklistNext : ℕ → Quicklist α → QuicklistIter → Option (QuicklistIter × Option (QuicklistEntry α))
  | 0, _, _ => none
  | fuel + 1, q, iter =>
    match iter.current with
    | none => some (iter, none)
    | some a =>
      match get q.nodes a with
      | none => none
      | some n =>
        match advance iter n.zl with
        | (some p, offset) =>
          some ({ iter with zi := some p, offset := offset }, some ⟨a, some p, n.zl[p]?, offset⟩)
        | (none, _) => (jump q iter a).bind fun iter => quicklistNext fuel q iter

section
variable (blobLen : List α → ℕ)

/-- `quicklistDelIndex`, and whether the node was deleted. -/
def quicklistDelIndex (q : Quicklist α) (node p : ℕ) : Option (Quicklist α × Bool) :=
  match get q.nodes node with
  | none => none
  | some n =>
    let n := { n with zl := ziplistDelete n.zl p, count := n.count - 1 }
    if n.count = 0 then
      (quicklistDelNode { q with nodes := set q.nodes node n } node).map fun q =>
        ({ q with count := q.count - 1 }, true)
    else
      some ({ q with
        nodes := set q.nodes node { n with sz := blobLen n.zl }
        count := q.count - 1 }, false)

/-- `quicklistDelEntry`: the entry goes, and the iterator stays good. -/
def quicklistDelEntry (q : Quicklist α) (iter : QuicklistIter) (entry : QuicklistEntry α) :
    Option (Quicklist α × QuicklistIter) :=
  match prev q.nodes entry.node, next q.nodes entry.node, entry.zi with
  | some before, some after, some p =>
    (quicklistDelIndex blobLen q entry.node p).map fun (q, deletedNode) =>
      let iter := { iter with zi := none }
      if deletedNode then
        match iter.direction with
        | .head => (q, { iter with current := after, offset := 0 })
        | .tail => (q, { iter with current := before, offset := -1 })
      else (q, iter)
  | _, _, _ => none

/-- A loop of `quicklistNext` that deletes the `k`-th entry if `del k` says so: the elements that are
visited, and what is left. -/
def deleteSome (del : ℕ → Bool) : ℕ → ℕ → Quicklist α → QuicklistIter → Option (List α × Quicklist α)
  | 0, _, _, _ => none
  | fuel + 1, k, q, iter =>
    match quicklistNext (q.nodes.length + 2) q iter with
    | none => none
    | some (_, none) => some ([], q)
    | some (iter, some entry) =>
      match entry.value,
        if del k then quicklistDelEntry blobLen q iter entry else some (q, iter) with
      | some v, some (q, iter) =>
        (deleteSome del fuel (k + 1) q iter).map fun (vs, q) => (v :: vs, q)
      | _, _ => none

end

/-! ### Where an iterator stands -/

/-- What an iterator has of a place in a node, in front of the entry `o` of `len`. -/
def Offset (iter : QuicklistIter) (len o : ℕ) : Prop :=
  match iter.direction with
  | .head => (iter.zi = none ∧ iter.offset = o) ∨
      ∃ p, iter.zi = some p ∧ iter.offset = p ∧ o = p + 1
  | .tail => (iter.zi = none ∧ iter.offset = o - len - 1) ∨
      (iter.zi = some o ∧ iter.offset = o - len ∧ o < len)

/-- An iterator stands between the elements `l` and `r`. -/
def Gap (q : Quicklist α) (iter : QuicklistIter) (l r : List α) : Prop :=
  (iter.current = none ∧ q.toList = l ++ r ∧
    match iter.direction with
    | .head => r = []
    | .tail => l = []) ∨
  ∃ pre a n post o, q.nodes = pre ++ (a, n) :: post ∧ iter.current = some a ∧ o ≤ n.zl.length ∧
    l = contents pre ++ n.zl.take o ∧ r = n.zl.drop o ++ contents post ∧ Offset iter n.zl.length o

/-- An iterator has just passed an element. -/
def Visited (q : Quicklist α) (iter : QuicklistIter) (entry : QuicklistEntry α) (l : List α) (v : α)
    (r : List α) : Prop :=
  ∃ pre a n post p, q.nodes = pre ++ (a, n) :: post ∧ n.zl[p]? = some v ∧
    l = contents pre ++ n.zl.take p ∧ r = n.zl.drop (p + 1) ++ contents post ∧
    entry = ⟨a, some p, some v, iter.offset⟩ ∧ iter.current = some a ∧ iter.zi = some p ∧
    iter.offset = match iter.direction with
      | .head => (p : ℤ)
      | .tail => p - n.zl.length

section Next
variable {q : Quicklist α} {iter : QuicklistIter} {l r : List α} {v : α}
  {pre post : List (ℕ × QuicklistNode α)} {a : ℕ} {n : QuicklistNode α}

theorem advance_head (hd : iter.direction = .head) {zl : List α} {o : ℕ}
    (ho : Offset iter zl.length o) :
    advance iter zl = (if o < zl.length then some o else none, (o : ℤ)) := by
  rw [Offset, hd] at ho
  rw [advance]
  rcases ho with ⟨hzi, hoff⟩ | ⟨p, hzi, hoff, rfl⟩
  · rw [hzi, hoff, ziplistIndex]
    dsimp only
    rw [if_neg (by omega), Int.toNat_natCast]
  · rw [hzi, hd, hoff]
    rfl

theorem advance_tail (hd : iter.direction = .tail) {zl : List α} {o : ℕ} (hle : o ≤ zl.length)
    (ho : Offset iter zl.length o) :
    advance iter zl = (if 0 < o then some (o - 1) else none, (o : ℤ) - zl.length - 1) := by
  rw [Offset, hd] at ho
  rw [advance]
  rcases ho with ⟨hzi, hoff⟩ | ⟨hzi, hoff, hlt⟩
  · have hindex : (-((o : ℤ) - zl.length - 1) - 1).toNat = zl.length - o := by omega
    rw [hzi, hoff, ziplistIndex]
    dsimp only
    rw [if_pos (by omega), hindex]
    by_cases hpos : 0 < o
    · rw [if_pos hpos, if_pos (by omega)]
      congr 2
      omega
    · rw [if_neg hpos, if_neg (by omega)]
  · rw [hzi, hd, hoff]
    dsimp only
    rw [ziplistPrev, if_neg (by omega)]
    by_cases hpos : 0 < o
    · rw [if_pos hpos, if_neg (by omega)]
    · rw [if_neg hpos, if_pos (by omega)]

theorem quicklistNext_mid (hq : q.nodes = pre ++ (a, n) :: post) (ha : a ∉ addrs pre)
    (hc : iter.current = some a) (fuel : ℕ) : quicklistNext (fuel + 1) q iter =
      match advance iter n.zl with
      | (some p, offset) =>
        some ({ iter with zi := some p, offset := offset }, some ⟨a, some p, n.zl[p]?, offset⟩)
      | (none, _) => (jump q iter a).bind fun iter => quicklistNext fuel q iter := by
  have hget : get q.nodes a = some n := by rw [hq, get_mid ha]
  rw [quicklistNext.eq_def]
  dsimp only
  rw [hc]
  dsimp only
  rw [hget]

theorem gap_front {suf : List (ℕ × QuicklistNode α)} (hq : q.nodes = pre ++ suf) :
    Gap q ⟨suf.head?.map Prod.fst, none, 0, .head⟩ (contents pre) (contents suf) := by
  cases suf with
  | nil => exact .inl ⟨rfl, by rw [Quicklist.toList, hq, contents_append], rfl⟩
  | cons m suf =>
    exact .inr ⟨pre, m.1, m.2, suf, 0, hq, rfl, Nat.zero_le _, by simp, by simp, .inl ⟨rfl, rfl⟩⟩

theorem gap_back {suf : List (ℕ × QuicklistNode α)} (hq : q.nodes = pre ++ suf) :
    Gap q ⟨pre.getLast?.map Prod.fst, none, -1, .tail⟩ (contents pre) (contents suf) := by
  rcases List.eq_nil_or_concat' pre with rfl | ⟨pre, m, rfl⟩
  · exact .inl ⟨rfl, by rw [Quicklist.toList, hq, contents_append], rfl⟩
  · refine .inr ⟨pre, m.1, m.2, suf, m.2.zl.length, by rw [hq]; simp, ?_, le_rfl, by simp, by simp,
      .inl ⟨rfl, ?_⟩⟩
    · rw [List.getLast?_concat]
      rfl
    · dsimp only
      omega

theorem jump_head (hq : q.nodes = pre ++ (a, n) :: post) (ha : a ∉ addrs pre)
    (hd : iter.direction = .head) :
    jump q iter a = some ⟨post.head?.map Prod.fst, none, 0, .head⟩ := by
  rw [jump, hq, next_mid ha, hd]
  rfl

theorem jump_tail (hq : q.nodes = pre ++ (a, n) :: post) (ha : a ∉ addrs post)
    (hd : iter.direction = .tail) :
    jump q iter a = some ⟨pre.getLast?.map Prod.fst, none, -1, .tail⟩ := by
  rw [jump, hq, prev_mid ha, hd]
  rfl

/-- Forwards, in front of an element of a node. -/
theorem next_here_head (hq : q.nodes = pre ++ (a, n) :: post) (ha : a ∉ addrs pre)
    (hc : iter.current = some a) (hd : iter.direction = .head) {o : ℕ}
    (hoff : Offset iter n.zl.length o) (hv : n.zl[o]? = some v) (fuel : ℕ) :
    ∃ iter' e, quicklistNext (fuel + 1) q iter = some (iter', some e) ∧ iter'.direction = .head ∧
      Visited q iter' e (contents pre ++ n.zl.take o) v (n.zl.drop (o + 1) ++ contents post) := by
  have ho : o < n.zl.length := (List.getElem?_eq_some_iff.mp hv).1
  rw [quicklistNext_mid hq ha hc, advance_head hd hoff, if_pos ho]
  dsimp only
  rw [hv]
  refine ⟨_, _, rfl, hd, pre, a, n, post, o, hq, hv, rfl, rfl, rfl, hc, rfl, ?_⟩
  dsimp only
  rw [hd]

/-- Backwards, behind an element of a node. -/
theorem next_here_tail (hq : q.nodes = pre ++ (a, n) :: post) (ha : a ∉ addrs pre)
    (hc : iter.current = some a) (hd : iter.direction = .tail) {o : ℕ}
    (hoff : Offset iter n.zl.length (o + 1)) (hv : n.zl[o]? = some v) (fuel : ℕ) :
    ∃ iter' e, quicklistNext (fuel + 1) q iter = some (iter', some e) ∧ iter'.direction = .tail ∧
      Visited q iter' e (contents pre ++ n.zl.take o) v (n.zl.drop (o + 1) ++ contents post) := by
  have ho : o < n.zl.length := (List.getElem?_eq_some_iff.mp hv).1
  rw [quicklistNext_mid hq ha hc, advance_tail hd (show o + 1 ≤ n.zl.length from ho) hoff,
    if_pos (show 0 < o + 1 from Nat.succ_pos o), Nat.add_sub_cancel]
  dsimp only
  rw [hv]
  refine ⟨_, _, rfl, hd, pre, a, n, post, o, hq, hv, rfl, rfl, rfl, hc, rfl, ?_⟩
  dsimp only
  rw [hd]
  dsimp only
  omega

/-- **`quicklistNext`, forwards.** -/
theorem quicklistNext_head (h : q.Valid) (hd : iter.direction = .head) (hgap : Gap q iter l r)
    (fuel : ℕ) : (r = [] → ∃ iter', quicklistNext (fuel + 2) q iter = some (iter', none)) ∧
      ∀ v r', r = v :: r' → ∃ iter' e, quicklistNext (fuel + 2) q iter = some (iter', some e) ∧
        iter'.direction = .head ∧ Visited q iter' e l v r' := by
  rcases hgap with ⟨hc, -, hend⟩ | ⟨pre, a, n, post, o, hq, hc, hle, rfl, rfl, hoff⟩
  · rw [hd] at hend
    have hnone : quicklistNext (fuel + 2) q iter = some (iter, none) := by
      rw [quicklistNext.eq_def]
      dsimp only
      rw [hc]
    exact ⟨fun _ => ⟨iter, hnone⟩, fun v r' hr => absurd (hend.symm.trans hr) nofun⟩
  · obtain ⟨hpre, -, -⟩ := h.mid hq
    rcases Nat.lt_or_ge o n.zl.length with ho | ho
    · -- The next element is in the node.
      have hv : n.zl[o]? = some n.zl[o] := List.getElem?_eq_getElem ho
      rw [List.drop_eq_getElem_cons ho, List.cons_append]
      refine ⟨nofun, fun v r' hr => ?_⟩
      obtain ⟨rfl, rfl⟩ := List.cons.inj hr
      exact next_here_head hq hpre hc hd hoff hv (fuel + 1)
    · -- It is the first one of the next node.
      obtain rfl : o = n.zl.length := le_antisymm hle ho
      have hjump : quicklistNext (fuel + 2) q iter =
          quicklistNext (fuel + 1) q ⟨post.head?.map Prod.fst, none, 0, .head⟩ := by
        rw [quicklistNext_mid hq hpre hc, advance_head hd hoff, if_neg (lt_irrefl _)]
        dsimp only
        rw [jump_head hq hpre hd, Option.bind_some]
      rw [hjump, List.drop_length, List.nil_append, List.take_length]
      cases post with
      | nil => exact ⟨fun _ => ⟨_, rfl⟩, fun v r' hr => absurd hr nofun⟩
      | cons m post =>
        obtain ⟨b, m⟩ := m
        have hq' : q.nodes = (pre ++ [(a, n)]) ++ (b, m) :: post := by rw [hq]; simp
        obtain ⟨hpre', -, hm⟩ := h.mid hq'
        obtain ⟨x, zl, hx⟩ := List.exists_cons_of_ne_nil hm.nonempty
        rw [contents_cons]
        dsimp only
        rw [hx]
        refine ⟨nofun, fun v r' hr => ?_⟩
        obtain ⟨rfl, rfl⟩ := List.cons.inj hr
        have hoff' : Offset ⟨some b, none, 0, .head⟩ m.zl.length 0 := .inl ⟨rfl, rfl⟩
        have hv : m.zl[0]? = some x := by rw [hx]; rfl
        obtain ⟨iter', e, hnext, hdir, hvisited⟩ := next_here_head hq' hpre' rfl rfl hoff' hv fuel
        refine ⟨iter', e, hnext, hdir, ?_⟩
        rw [hx] at hvisited
        simpa using hvisited

/-- **`quicklistNext`, backwards.** -/
theorem quicklistNext_tail (h : q.Valid) (hd : iter.direction = .tail) (hgap : Gap q iter l r)
    (fuel : ℕ) : (l = [] → ∃ iter', quicklistNext (fuel + 2) q iter = some (iter', none)) ∧
      ∀ l' v, l = l' ++ [v] → ∃ iter' e, quicklistNext (fuel + 2) q iter = some (iter', some e) ∧
        iter'.direction = .tail ∧ Visited q iter' e l' v r := by
  rcases hgap with ⟨hc, -, hend⟩ | ⟨pre, a, n, post, o, hq, hc, hle, rfl, rfl, hoff⟩
  · rw [hd] at hend
    have hnone : quicklistNext (fuel + 2) q iter = some (iter, none) := by
      rw [quicklistNext.eq_def]
      dsimp only
      rw [hc]
    exact ⟨fun _ => ⟨iter, hnone⟩, fun l' v hl => absurd (hend.symm.trans hl) (by simp)⟩
  · obtain ⟨hpre, hpost, -⟩ := h.mid hq
    cases o with
    | succ o =>
      -- The next element is in the node.
      have ho : o < n.zl.length := hle
      have hv : n.zl[o]? = some n.zl[o] := List.getElem?_eq_getElem ho
      rw [List.take_add_one, hv, Option.toList_some, ← List.append_assoc]
      refine ⟨fun hl => absurd hl (List.append_ne_nil_of_right_ne_nil _ (List.cons_ne_nil _ _)),
        fun l' v hl => ?_⟩
      obtain ⟨rfl, hsingle⟩ := List.append_inj' hl rfl
      obtain rfl := (List.singleton_inj.mp hsingle)
      exact next_here_tail hq hpre hc hd hoff hv (fuel + 1)
    | zero =>
      -- It is the last one of the node before.
      have hjump : quicklistNext (fuel + 2) q iter =
          quicklistNext (fuel + 1) q ⟨pre.getLast?.map Prod.fst, none, -1, .tail⟩ := by
        rw [quicklistNext_mid hq hpre hc, advance_tail hd (Nat.zero_le _) hoff, if_neg (lt_irrefl _)]
        dsimp only
        rw [jump_tail hq hpost hd, Option.bind_some]
      rw [hjump, List.take_zero, List.append_nil, List.drop_zero]
      rcases List.eq_nil_or_concat' pre with rfl | ⟨pre, m, rfl⟩
      · exact ⟨fun _ => ⟨_, rfl⟩, fun l' v hl => absurd hl (by simp)⟩
      · obtain ⟨b, m⟩ := m
        have hq' : q.nodes = pre ++ (b, m) :: (a, n) :: post := by rw [hq]; simp
        obtain ⟨hpre', -, hm⟩ := h.mid hq'
        rcases List.eq_nil_or_concat' m.zl with hnil | ⟨zl, x, hx⟩
        · exact absurd hnil hm.nonempty
        · rw [contents_append, contents_cons, contents_nil, List.append_nil]
          dsimp only
          rw [hx, ← List.append_assoc, List.getLast?_concat, Option.map_some]
          refine ⟨fun hl => absurd hl (by simp), fun l' v hl => ?_⟩
          obtain ⟨rfl, hsingle⟩ := List.append_inj' hl rfl
          obtain rfl := (List.singleton_inj.mp hsingle)
          have hoff' : Offset ⟨some b, none, -1, .tail⟩ m.zl.length (zl.length + 1) := by
            refine .inl ⟨rfl, ?_⟩
            rw [hx, List.length_append, List.length_singleton]
            dsimp only
            omega
          have hv : m.zl[zl.length]? = some x := by rw [hx, List.getElem?_concat_length]
          obtain ⟨iter', e, hnext, hdir, hvisited⟩ := next_here_tail hq' hpre' rfl rfl hoff' hv fuel
          refine ⟨iter', e, hnext, hdir, ?_⟩
          rw [hx] at hvisited
          simpa using hvisited

theorem Gap.toList_eq (h : Gap q iter l r) : q.toList = l ++ r := by
  rcases h with ⟨-, hlist, -⟩ | ⟨pre, a, n, post, o, hq, -, -, rfl, rfl, -⟩
  · exact hlist
  · rw [Quicklist.toList_mid hq, List.append_assoc, ← List.append_assoc (n.zl.take o),
      List.take_append_drop]

theorem Visited.value_eq {e : QuicklistEntry α} (h : Visited q iter e l v r) : e.value = some v := by
  obtain ⟨pre, a, n, post, p, -, -, -, -, rfl, -⟩ := h
  rfl

/-- An element that was passed forwards is behind the iterator. -/
theorem Visited.gap_head {e : QuicklistEntry α} (h : Visited q iter e l v r)
    (hd : iter.direction = .head) : Gap q iter (l ++ [v]) r := by
  obtain ⟨pre, a, n, post, p, hq, hv, rfl, rfl, -, hc, hzi, hoff⟩ := h
  have hp : p < n.zl.length := (List.getElem?_eq_some_iff.mp hv).1
  rw [hd] at hoff
  refine .inr ⟨pre, a, n, post, p + 1, hq, hc, hp, ?_, rfl, ?_⟩
  · rw [List.take_add_one, hv, Option.toList_some, List.append_assoc]
  · rw [Offset, hd]
    exact .inr ⟨p, hzi, hoff, rfl⟩

/-- An element that was passed backwards is in front of the iterator. -/
theorem Visited.gap_tail {e : QuicklistEntry α} (h : Visited q iter e l v r)
    (hd : iter.direction = .tail) : Gap q iter l (v :: r) := by
  obtain ⟨pre, a, n, post, p, hq, hv, rfl, rfl, -, hc, hzi, hoff⟩ := h
  obtain ⟨hp, rfl⟩ := List.getElem?_eq_some_iff.mp hv
  rw [hd] at hoff
  refine .inr ⟨pre, a, n, post, p, hq, hc, hp.le, rfl, ?_, ?_⟩
  · rw [List.drop_eq_getElem_cons hp, List.cons_append]
  · rw [Offset, hd]
    exact .inr ⟨hzi, hoff, hp⟩

end Next

/-! ### Deleting what was passed -/

section Delete
variable (blobLen : List α → ℕ) {q : Quicklist α} {iter : QuicklistIter} {l r : List α} {v : α}
  {pre post : List (ℕ × QuicklistNode α)} {a : ℕ} {n : QuicklistNode α}

theorem length_ziplistDelete {zl : List α} {p : ℕ} (hp : p < zl.length) :
    (ziplistDelete zl p).length + 1 = zl.length := by
  rw [ziplistDelete, List.length_append, List.length_take, List.length_drop]
  omega

/-- **`quicklistDelIndex`**: the node goes if it has one element only. -/
theorem quicklistDelIndex_spec (h : q.Valid) (hq : q.nodes = pre ++ (a, n) :: post) {p : ℕ}
    (hp : p < n.zl.length) :
    (n.zl.length = 1 ∧ ∃ q', quicklistDelIndex blobLen q a p = some (q', true) ∧ q'.Valid ∧
      q'.nodes = pre ++ post) ∨
    ∃ q' n', quicklistDelIndex blobLen q a p = some (q', false) ∧ q'.Valid ∧
      q'.nodes = pre ++ (a, n') :: post ∧ n'.zl = ziplistDelete n.zl p := by
  obtain ⟨hpre, hpost, hn⟩ := h.mid hq
  have hlen := length_ziplistDelete hp
  have hget : get q.nodes a = some n := by rw [hq, get_mid hpre]
  rw [quicklistDelIndex, hget]
  dsimp only
  rw [hn.count, hq, set_mid hpre hpost]
  by_cases hone : n.zl.length - 1 = 0
  · refine .inl ⟨by omega, ?_⟩
    rw [if_pos hone, quicklistDelNode_mid rfl hpre hpost, Option.map_some]
    dsimp only
    have hcount : q.count - (n.zl.length - 1) - 1 = q.count - n.count := by
      rw [hn.count]
      omega
    rw [hcount]
    exact ⟨_, rfl, h.remove hq, rfl⟩
  · let n' : QuicklistNode α :=
      ⟨ziplistDelete n.zl p, blobLen (ziplistDelete n.zl p), n.zl.length - 1⟩
    have hn' : n'.Valid := by
      refine ⟨fun hnil => ?_, (Nat.eq_sub_of_add_eq hlen).symm, ?_⟩
      · rw [show ziplistDelete n.zl p = [] from hnil, List.length_nil] at hlen
        omega
      · have hsmall : n.zl.length < 2 ^ 16 := hn.count ▸ hn.small
        exact (Nat.sub_le _ _).trans_lt hsmall
    rw [if_neg hone, set_mid hpre hpost]
    exact .inr ⟨_, n', rfl, h.shrink hq hn' hlen, rfl, rfl⟩

/-- **`quicklistDelEntry`** of the element that was passed. -/
theorem quicklistDelEntry_spec (h : q.Valid) {e : QuicklistEntry α} (hv : Visited q iter e l v r) :
    ∃ q' iter', quicklistDelEntry blobLen q iter e = some (q', iter') ∧ q'.Valid ∧
      iter'.direction = iter.direction ∧ Gap q' iter' l r := by
  obtain ⟨pre, a, n, post, p, hq, hvp, rfl, rfl, rfl, hc, hzi, hoff⟩ := hv
  obtain ⟨hpre, hpost, -⟩ := h.mid hq
  have hp : p < n.zl.length := (List.getElem?_eq_some_iff.mp hvp).1
  have hprev : prev q.nodes a = some (pre.getLast?.map Prod.fst) := by rw [hq, prev_mid hpost]
  have hnext : next q.nodes a = some (post.head?.map Prod.fst) := by rw [hq, next_mid hpre]
  rw [quicklistDelEntry]
  dsimp only
  rw [hprev, hnext]
  dsimp only
  rcases quicklistDelIndex_spec blobLen h hq hp with ⟨hone, q', hdel, hvalid, hnodes⟩ |
    ⟨q', n', hdel, hvalid, hnodes, hzl⟩
  · -- The iterator goes on to the next node.
    obtain rfl : p = 0 := by omega
    rw [hdel, Option.map_some]
    dsimp only
    rw [if_pos rfl, List.take_zero, List.append_nil, List.drop_eq_nil_of_le hone.le, List.nil_append]
    cases hd : iter.direction with
    | head => exact ⟨q', _, rfl, hvalid, rfl, gap_front hnodes⟩
    | tail => exact ⟨q', _, rfl, hvalid, rfl, gap_back hnodes⟩
  · -- The offset denotes the place of the element that went, from either end.
    have hlen := length_ziplistDelete hp
    have htake : n'.zl.take p = n.zl.take p := by
      rw [hzl, ziplistDelete, List.take_append_of_le_length (by simp; omega), List.take_take, min_self]
    have hdrop : n'.zl.drop p = n.zl.drop (p + 1) := by
      rw [hzl, ziplistDelete, List.drop_append, List.drop_eq_nil_of_le (by simp), List.nil_append,
        List.length_take, min_eq_left hp.le, Nat.sub_self, List.drop_zero]
    rw [hdel, Option.map_some]
    dsimp only
    rw [if_neg Bool.false_ne_true]
    refine ⟨q', _, rfl, hvalid, rfl, .inr ⟨pre, a, n', post, p, hnodes, hc, ?_, ?_, ?_, ?_⟩⟩
    · rw [hzl]
      omega
    · rw [htake]
    · rw [hdrop]
    · rw [Offset]
      dsimp only
      cases hd : iter.direction with
      | head =>
        rw [hd] at hoff
        exact .inl ⟨rfl, hoff⟩
      | tail =>
        rw [hd] at hoff
        refine .inl ⟨rfl, ?_⟩
        rw [hoff, hzl]
        dsimp only
        omega

end Delete

/-! ### A whole iteration -/

section Iterate
variable (blobLen : List α → ℕ) (del : ℕ → Bool) {q : Quicklist α}

/-- What is left of a list from whose elements, counted from `k`, some go. -/
def kept (k : ℕ) (l : List α) : List α := ((l.zipIdx k).filter fun x => !del x.2).map Prod.fst

theorem kept_cons (k : ℕ) (v : α) (l : List α) :
    kept del k (v :: l) = if del k then kept del (k + 1) l else v :: kept del (k + 1) l := by
  rw [kept, List.zipIdx_cons]
  cases hdel : del k with
  | false => rw [List.filter_cons_of_pos (by simp [hdel])]; rfl
  | true => rw [List.filter_cons_of_neg (by simp [hdel])]; rfl

/-- **A run forwards**, from between `l` and `r`. -/
theorem deleteSome_head (r : List α) : ∀ {q : Quicklist α} {iter : QuicklistIter} {l : List α}
    {fuel : ℕ} (k : ℕ), q.Valid → iter.direction = .head → Gap q iter l r → r.length < fuel →
    ∃ q', deleteSome blobLen del fuel k q iter = some (r, q') ∧ q'.Valid ∧
      q'.toList = l ++ kept del k r := by
  induction r with
  | nil =>
    intro q iter l fuel k h hd hgap hfuel
    obtain ⟨fuel, rfl⟩ := Nat.exists_eq_add_of_lt hfuel
    obtain ⟨iter', hnext⟩ := (quicklistNext_head h hd hgap q.nodes.length).1 rfl
    refine ⟨q, ?_, h, ?_⟩
    · rw [List.length_nil, Nat.zero_add, deleteSome, hnext]
    · rw [hgap.toList_eq]
      rfl
  | cons v r ih =>
    intro q iter l fuel k h hd hgap hfuel
    obtain ⟨fuel, rfl⟩ : ∃ m, fuel = m + 1 := ⟨fuel - 1, by omega⟩
    have hfuel' : r.length < fuel := Nat.lt_of_succ_lt_succ hfuel
    obtain ⟨iter', e, hnext, hdir, hvisited⟩ :=
      (quicklistNext_head h hd hgap q.nodes.length).2 v r rfl
    rw [deleteSome, hnext, kept_cons]
    dsimp only
    rw [hvisited.value_eq]
    cases hdel : del k with
    | true =>
      obtain ⟨q₁, iter₁, hentry, hvalid, hdir₁, hgap₁⟩ := quicklistDelEntry_spec blobLen h hvisited
      obtain ⟨q', hrun, hvalid', hlist⟩ := ih (k + 1) hvalid (hdir₁.trans hdir) hgap₁ hfuel'
      rw [if_pos rfl, if_pos rfl, hentry]
      dsimp only
      rw [hrun]
      exact ⟨q', rfl, hvalid', hlist⟩
    | false =>
      obtain ⟨q', hrun, hvalid', hlist⟩ := ih (k + 1) h hdir (hvisited.gap_head hdir) hfuel'
      rw [if_neg Bool.false_ne_true, if_neg Bool.false_ne_true]
      dsimp only
      rw [hrun]
      exact ⟨q', rfl, hvalid', by rw [hlist, List.append_assoc]; rfl⟩

/-- **A run backwards**, from between `s` reversed and `r`. -/
theorem deleteSome_tail (s : List α) : ∀ {q : Quicklist α} {iter : QuicklistIter} {r : List α}
    {fuel : ℕ} (k : ℕ), q.Valid → iter.direction = .tail → Gap q iter s.reverse r → s.length < fuel →
    ∃ q', deleteSome blobLen del fuel k q iter = some (s, q') ∧ q'.Valid ∧
      q'.toList = (kept del k s).reverse ++ r := by
  induction s with
  | nil =>
    intro q iter r fuel k h hd hgap hfuel
    obtain ⟨fuel, rfl⟩ := Nat.exists_eq_add_of_lt hfuel
    obtain ⟨iter', hnext⟩ := (quicklistNext_tail h hd hgap q.nodes.length).1 rfl
    refine ⟨q, ?_, h, ?_⟩
    · rw [List.length_nil, Nat.zero_add, deleteSome, hnext]
    · rw [hgap.toList_eq]
      rfl
  | cons v s ih =>
    intro q iter r fuel k h hd hgap hfuel
    obtain ⟨fuel, rfl⟩ : ∃ m, fuel = m + 1 := ⟨fuel - 1, by omega⟩
    have hfuel' : s.length < fuel := Nat.lt_of_succ_lt_succ hfuel
    obtain ⟨iter', e, hnext, hdir, hvisited⟩ :=
      (quicklistNext_tail h hd hgap q.nodes.length).2 s.reverse v (List.reverse_cons)
    rw [deleteSome, hnext, kept_cons]
    dsimp only
    rw [hvisited.value_eq]
    cases hdel : del k with
    | true =>
      obtain ⟨q₁, iter₁, hentry, hvalid, hdir₁, hgap₁⟩ := quicklistDelEntry_spec blobLen h hvisited
      obtain ⟨q', hrun, hvalid', hlist⟩ := ih (k + 1) hvalid (hdir₁.trans hdir) hgap₁ hfuel'
      rw [if_pos rfl, if_pos rfl, hentry]
      dsimp only
      rw [hrun]
      exact ⟨q', rfl, hvalid', hlist⟩
    | false =>
      obtain ⟨q', hrun, hvalid', hlist⟩ := ih (k + 1) h hdir (hvisited.gap_tail hdir) hfuel'
      rw [if_neg Bool.false_ne_true, if_neg Bool.false_ne_true]
      dsimp only
      rw [hrun]
      exact ⟨q', rfl, hvalid', by rw [hlist, List.reverse_cons, List.append_assoc]; rfl⟩

/-- A list in the order of a direction. -/
def Direction.order : Direction → List α → List α
  | .head, l => l
  | .tail, l => l.reverse

/-- **An iteration that deletes** visits every element once, in the order of its direction, and leaves
those that were not deleted. -/
theorem iterate_deletes (h : q.Valid) (direction : Direction) :
    ∃ q', deleteSome blobLen del (q.toList.length + 1) 0 q (quicklistGetIterator q direction) =
        some (direction.order q.toList, q') ∧ q'.Valid ∧
      q'.toList = direction.order (kept del 0 (direction.order q.toList)) := by
  cases direction with
  | head =>
    have hgap : Gap q (quicklistGetIterator q .head) [] q.toList := gap_front (List.nil_append _).symm
    obtain ⟨q', hrun, hvalid, hlist⟩ := deleteSome_head blobLen del q.toList 0 h rfl hgap
      (Nat.lt_succ_self _)
    exact ⟨q', hrun, hvalid, hlist⟩
  | tail =>
    have hgap : Gap q (quicklistGetIterator q .tail) q.toList.reverse.reverse [] := by
      rw [List.reverse_reverse]
      exact gap_back (List.append_nil _).symm
    obtain ⟨q', hrun, hvalid, hlist⟩ := deleteSome_tail blobLen del q.toList.reverse 0 h rfl hgap
      (by rw [List.length_reverse]; exact Nat.lt_succ_self _)
    rw [List.append_nil] at hlist
    exact ⟨q', hrun, hvalid, hlist⟩

theorem iterate_deletes_twoNodes : ∃ q', deleteSome (fun _ => 11) (fun k => k % 2 == 0)
      (twoNodes.toList.length + 1) 0 twoNodes (quicklistGetIterator twoNodes .tail) =
        some (Direction.tail.order twoNodes.toList, q') ∧ q'.Valid ∧
    q'.toList = Direction.tail.order (kept (fun k => k % 2 == 0) 0
      (Direction.tail.order twoNodes.toList)) :=
  iterate_deletes (fun _ => 11) (fun k => k % 2 == 0) twoNodes_valid .tail

end Iterate

end SourceLibs.RedisQuicklist
