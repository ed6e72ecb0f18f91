import SourceLibs.Redis.SkiplistSearch

/-!
# Redis — changing a skip list

The loops of `zslInsert` and `zslDeleteNode` change one link or two on each level; `Column.insert` and
`Column.erase` say what that does to the level.

* `forLevels_spec`: a loop changes the levels one by one.
* `zslCreateNode_rep`, `zslDeleteNode_rep`: a node comes or goes.
-/

namespace SourceLibs.RedisSkiplist
open List Option Function SpanList

variable {σ α : Type*}

/-! ### Loops over levels -/

/-- Only the links differ. -/
structure SameNodes (zsl zsl' : ZSkipList σ α) : Prop where
  nodes : zsl'.nodes = zsl.nodes
  tail : zsl'.tail = zsl.tail
  length : zsl'.length = zsl.length
  level : zsl'.level = zsl.level

theorem SameNodes.refl (zsl : ZSkipList σ α) : SameNodes zsl zsl := ⟨rfl, rfl, rfl, rfl⟩

theorem SameNodes.trans {z z' z'' : ZSkipList σ α} (h : SameNodes z z') (h' : SameNodes z' z'') :
    SameNodes z z'' :=
  ⟨h'.nodes.trans h.nodes, h'.tail.trans h.tail, h'.length.trans h.length, h'.level.trans h.level⟩

theorem SameNodes.height {z z' : ZSkipList σ α} (h : SameNodes z z') : z'.height = z.height := by
  funext x
  cases x with
  | none => rfl
  | some p => rw [ZSkipList.height, ZSkipList.height, h.nodes]

theorem SameNodes.tall {z z' : ZSkipList σ α} (h : SameNodes z z') : z'.tall = z.tall := by
  funext i p
  rw [ZSkipList.tall, ZSkipList.tall, h.height]

/-- Level `j` is changed to `links`, and no other. -/
structure SetsLevel (z z' : ZSkipList σ α) (j : ℕ) (links : Option ℕ → Link ℕ) : Prop where
  same : SameNodes z z'
  changed : ∀ y, z'.links y j = links y
  other : ∀ y k, k ≠ j → z'.links y k = z.links y k

/-- Links of one level, with one of them written. -/
def write (links : Option ℕ → Link ℕ) (x : Option ℕ) (l : Link ℕ) (y : Option ℕ) : Link ℕ :=
  if y = x then l else links y

theorem set_spec {zsl : ZSkipList σ α} {x : Option ℕ} {j : ℕ} (h : j < zsl.height x) (l : Link ℕ) :
    ∃ z', zsl.set x j l = some z' ∧ SetsLevel zsl z' j (write (zsl.links · j) x l) := by
  refine ⟨_, if_pos h, ⟨rfl, rfl, rfl, rfl⟩, fun y => ?_, fun y k hk => ?_⟩
  · simp [write]
  · simp [hk]

/-- **A loop over levels.** -/
theorem forLevels_spec (body : ZSkipList σ α → ℕ → Option ℕ × ℕ → Option (ZSkipList σ α))
    (links : ℕ → Option ℕ × ℕ → Option ℕ → Link ℕ) (us : List (Option ℕ × ℕ)) :
    ∀ (zsl : ZSkipList σ α) (i : ℕ),
      (∀ z j u, SameNodes zsl z → i ≤ j → us[j - i]? = some u → (∀ y, z.links y j = zsl.links y j) →
        ∃ z', body z j u = some z' ∧ SetsLevel z z' j (links j u)) →
      ∃ z', forLevels body zsl i us = some z' ∧ SameNodes zsl z' ∧
        (∀ j u, i ≤ j → us[j - i]? = some u → ∀ y, z'.links y j = links j u y) ∧
        ∀ j, j < i ∨ i + us.length ≤ j → ∀ y, z'.links y j = zsl.links y j := by
  induction us with
  | nil =>
    intro zsl i _
    exact ⟨zsl, rfl, .refl zsl, fun j u _ hu => by simp at hu, fun _ _ _ => rfl⟩
  | cons u us ih =>
    intro zsl i hbody
    obtain ⟨z₁, hz₁, hset⟩ := hbody zsl i u (.refl zsl) le_rfl (by simp) fun _ => rfl
    obtain ⟨z', hloop, hsame, hat, hother⟩ := ih z₁ (i + 1) (by
      intro z j v hz hij hv hlinks
      refine hbody z j v (hset.same.trans hz) (Nat.le_of_succ_le hij) ?_ fun y => ?_
      · rw [show j - i = j - (i + 1) + 1 by omega, List.getElem?_cons_succ]
        exact hv
      · rw [hlinks, hset.other y j (by omega)])
    refine ⟨z', ?_, hset.same.trans hsame, fun j v hij hv y => ?_, fun j hj y => ?_⟩
    · rw [forLevels, hz₁]
      exact hloop
    · rcases hij.eq_or_lt with rfl | hlt
      · rw [Nat.sub_self, List.getElem?_cons_zero] at hv
        rw [hother i (.inl (Nat.lt_succ_self i)), hset.changed, some.inj hv]
      · refine hat j v hlt ?_ y
        rw [show j - i = j - (i + 1) + 1 by omega, List.getElem?_cons_succ] at hv
        exact hv
    · rw [length_cons] at hj
      rw [hother j (by omega), hset.other y j (by omega)]

/-! ### Nodes -/

section Nodes
variable {zsl : ZSkipList σ α} {order pre suf : List ℕ} {x : ℕ} {n : Node σ α} {z : ZSkipList σ α}

/-- A node without its backward pointer. -/
def Node.core (n : Node σ α) : σ × α × ℕ := (n.score, n.obj, n.height)

theorem height_some (hx : zsl.nodes x = some n) : zsl.height (some x) = n.height := by
  rw [ZSkipList.height, hx]

theorem height_of_core {z z' : ZSkipList σ α} {p : ℕ}
    (h : (z'.nodes p).map Node.core = (z.nodes p).map Node.core) :
    z'.height (some p) = z.height (some p) := by
  rw [ZSkipList.height, ZSkipList.height]
  cases hn : z.nodes p with
  | none =>
    rw [hn, map_none, map_eq_none_iff] at h
    rw [h]
  | some n =>
    rw [hn, map_some] at h
    obtain ⟨n', hn', hcore⟩ := map_eq_some_iff.mp h
    rw [hn']
    exact congrArg (fun c => c.2.2) hcore

theorem alloc_of_core {z z' : ZSkipList σ α} {p : ℕ}
    (h : (z'.nodes p).map Node.core = (z.nodes p).map Node.core) :
    (∃ n, z'.nodes p = some n) ↔ ∃ n, z.nodes p = some n := by
  cases hzp : z.nodes p with
  | none =>
    rw [hzp, map_none, map_eq_none_iff] at h
    rw [h]
  | some m =>
    rw [hzp, map_some] at h
    obtain ⟨m', hm', -⟩ := map_eq_some_iff.mp h
    exact ⟨fun _ => ⟨m, rfl⟩, fun _ => ⟨m', hm'⟩⟩

/-- `p->backward` is the node before `p`. -/
def Backward (zsl : ZSkipList σ α) (order : List ℕ) : Prop :=
  ∀ pre p suf, order = pre ++ p :: suf → ∀ n, zsl.nodes p = some n → n.backward = pre.getLast?

/-- What a node is given as the node before it. -/
def withBackward (suf : List ℕ) (b : Option ℕ) (p : ℕ) (n : Node σ α) : Node σ α :=
  if suf.head? = some p then { n with backward := b } else n

theorem withBackward_core (suf : List ℕ) (b : Option ℕ) (p : ℕ) (n : Node σ α) :
    (withBackward suf b p n).core = n.core := by
  rw [withBackward]
  split <;> rfl

theorem withBackward_head {suf : List ℕ} {p : ℕ} (h : suf.head? = some p) (b : Option ℕ)
    (n : Node σ α) : withBackward suf b p n = { n with backward := b } := if_pos h

theorem withBackward_ne {suf : List ℕ} {p : ℕ} (h : suf.head? ≠ some p) (b : Option ℕ)
    (n : Node σ α) : withBackward suf b p n = n := if_neg h

/-- **What is before `x`'s successor** is written, or the tail. -/
theorem setBefore_spec {b : Option ℕ} (hget : zsl.get (some x) 0 = some (zsl.links (some x) 0))
    (hforward : (zsl.links (some x) 0).forward = suf.head?)
    (halloc : ∀ q, suf.head? = some q → ∃ n, zsl.nodes q = some n) :
    ∃ z', setBefore zsl x b = some z' ∧ z'.links = zsl.links ∧ z'.length = zsl.length ∧
      z'.level = zsl.level ∧ z'.tail = (if suf = [] then b else zsl.tail) ∧
      ∀ p, z'.nodes p = (zsl.nodes p).map (withBackward suf b p) := by
  rw [setBefore, hget]
  dsimp only
  rw [hforward]
  cases suf with
  | nil =>
    refine ⟨_, rfl, rfl, rfl, rfl, rfl, fun p => ?_⟩
    dsimp only
    cases zsl.nodes p with
    | none => rfl
    | some n => rfl
  | cons q suf =>
    obtain ⟨n, hn⟩ := halloc q rfl
    refine ⟨{ zsl with nodes := update zsl.nodes q (some { n with backward := b }) },
      by simp [ZSkipList.setBackward, hn], rfl, rfl, rfl, by simp, fun p => ?_⟩
    dsimp only
    by_cases hp : p = q
    · rw [hp, update_self, hn, map_some, withBackward_head rfl]
    · have hne : (q :: suf).head? ≠ some p := fun h => hp (some.inj h).symm
      rw [update_of_ne hp]
      cases zsl.nodes p with
      | none => rfl
      | some n => rw [map_some, withBackward_ne hne]

theorem lt_height_of_stops {P : List ℕ} {j : ℕ} (hj : j < zskiplistMaxlevel)
    (hP : Stops (zsl.tall j) P) : j < zsl.height P.getLast? := by
  cases hlast : P.getLast? with
  | none => exact hj
  | some p => exact tall_iff.mp (hP p hlast)

/-! ### Inserting -/

/-- **New levels** of the header. -/
theorem openLevel_rep (h : Rep zsl order) {level : ℕ} (hl : level ≤ zskiplistMaxlevel) :
    ∃ z, forLevels openLevel zsl zsl.level (List.replicate (level - zsl.level) (none, 0)) = some z ∧
      Rep { z with level := max zsl.level level } order ∧ z.nodes = zsl.nodes ∧
      z.level = zsl.level := by
  have hget : ∀ {j u}, zsl.level ≤ j →
      (List.replicate (level - zsl.level) ((none, 0) : Option ℕ × ℕ))[j - zsl.level]? = some u →
      u = (none, 0) ∧ j < level := by
    intro j u hj hu
    rw [List.getElem?_replicate] at hu
    split at hu
    · exact ⟨(some.inj hu).symm, by omega⟩
    · cases hu
  obtain ⟨z, hloop, hsame, hat, hother⟩ := forLevels_spec openLevel
    (fun j u => write (zsl.links · j) u.1 ⟨(zsl.links u.1 j).forward, zsl.length⟩)
    (List.replicate (level - zsl.level) (none, 0)) zsl zsl.level (by
      intro z j u hz hj hu hlinks
      obtain ⟨rfl, hjl⟩ := hget hj hu
      have hheight : j < z.height none := hjl.trans_le hl
      obtain ⟨z', hset, hsets⟩ := set_spec hheight ⟨(z.links none j).forward, z.length⟩
      refine ⟨z', by rw [openLevel, ZSkipList.get, if_pos hheight]; exact hset, hsets.same, fun y => ?_,
        hsets.other⟩
      rw [hsets.changed, write, write, hlinks, hlinks, hz.length])
  have htall : ∀ j, ZSkipList.tall { z with level := max zsl.level level } j = zsl.tall j := by
    intro j
    funext p
    rw [ZSkipList.tall, ZSkipList.tall, ← hsame.height]
    rfl
  have hheight : ∀ p, ZSkipList.height { z with level := max zsl.level level } p = zsl.height p := by
    intro p
    rw [← hsame.height]
    rfl
  refine ⟨z, hloop, ⟨h.nodup, fun p => ?_, fun p hp => ?_, ⟨?_, ?_⟩, fun i hi => ?_, fun i hi hi' => ?_,
    ?_, ?_, fun P p S hPS n hn => ?_⟩, hsame.nodes, hsame.level⟩
  · dsimp only
    rw [hsame.nodes]
    exact h.alloc p
  · rw [hheight]
    exact ⟨(h.heights p hp).1, (h.heights p hp).2.trans (le_max_left _ _)⟩
  · exact h.level.1.trans (le_max_left _ _)
  · exact max_le h.level.2 hl
  · rw [htall]
    dsimp only at hi ⊢
    by_cases hold : i < zsl.level
    · have hlinks : (z.links · i) = (zsl.links · i) := funext fun y => hother i (.inl hold) y
      rw [hlinks]
      exact h.columns i hold
    · -- No node is on a new level.
      have hnot : ∀ p ∈ order, zsl.tall i p = false := by
        intro p hp
        rw [ZSkipList.tall, decide_eq_false_iff_not]
        have := (h.heights p hp).2
        omega
      intro P S hPS hP
      have hPnil : P = [] := by
        by_contra hne
        obtain ⟨y, hy⟩ := ne_none_iff_exists'.mp fun h0 => hne (getLast?_eq_none_iff.mp h0)
        have := hnot y (hPS ▸ mem_append_left _ (mem_of_getLast? hy))
        rw [hP y hy] at this
        cases this
      subst hPnil
      have hlow := link_low (m := order) hnot []
      rw [append_nil] at hlow
      rw [nil_append] at hPS
      have hu : (List.replicate (level - zsl.level) ((none, 0) : Option ℕ × ℕ))[i - zsl.level]? =
          some (none, 0) := by
        rw [List.getElem?_replicate, if_pos (by omega)]
      dsimp only
      rw [← hPS, hlow, getLast?_nil, hat i _ (by omega) hu, write, if_pos rfl,
        h.closed i (by omega) (by omega), h.length]
      rfl
  · dsimp only at hi ⊢
    rw [hother i (.inr (by rw [length_replicate]; omega))]
    exact h.closed i ((le_max_left _ _).trans hi) hi'
  · exact hsame.length.trans h.length
  · exact hsame.tail.trans h.tail
  · dsimp only at hn
    rw [hsame.nodes] at hn
    exact h.backward P p S hPS n hn

theorem height_update (p : Option ℕ) :
    ZSkipList.height { zsl with nodes := update zsl.nodes x (some n) } p =
      if p = some x then n.height else zsl.height p := by
  cases p with
  | none => rfl
  | some p =>
    rw [ZSkipList.height, ZSkipList.height]
    dsimp only
    by_cases hp : p = x
    · rw [hp, update_self, if_pos rfl]
    · rw [update_of_ne hp, if_neg fun h => hp (some.inj h)]

/-- The new node is linked behind `u` on a level where the links are `links`. -/
theorem linkLevel_spec {links : Option ℕ → Link ℕ} {j rank0 : ℕ} {u : Option ℕ × ℕ}
    (hlinks : ∀ y, z.links y j = links y) (hu : j < z.height u.1) (hx : j < z.height (some x)) :
    ∃ z', linkLevel x rank0 z j u = some z' ∧ SetsLevel z z' j
      (write (write links (some x) ⟨(links u.1).forward, (links u.1).span - (rank0 - u.2)⟩) u.1
        ⟨some x, rank0 - u.2 + 1⟩) := by
  obtain rfl : (z.links · j) = links := funext hlinks
  obtain ⟨z₁, hset₁, hsets₁⟩ := set_spec hx
    ⟨(z.links u.1 j).forward, (z.links u.1 j).span - (rank0 - u.2)⟩
  rw [← hsets₁.same.height] at hu
  obtain ⟨z₂, hset₂, hsets₂⟩ := set_spec hu ⟨some x, rank0 - u.2 + 1⟩
  refine ⟨z₂, ?_, hsets₁.same.trans hsets₂.same, fun y => ?_, fun y k hk => ?_⟩
  · rw [hsets₁.same.height] at hu
    rw [linkLevel, ZSkipList.get, if_pos hu]
    dsimp only
    rw [hset₁]
    exact hset₂
  · rw [hsets₂.changed, write, write, hsets₁.changed]
  · rw [hsets₂.other y k hk, hsets₁.other y k hk]

/-- The link of `u` gets wider by the new node. -/
theorem widenLevel_spec {links : Option ℕ → Link ℕ} {j : ℕ} {u : Option ℕ × ℕ}
    (hlinks : ∀ y, z.links y j = links y) (hu : j < z.height u.1) :
    ∃ z', widenLevel z j u = some z' ∧
      SetsLevel z z' j (write links u.1 ⟨(links u.1).forward, (links u.1).span + 1⟩) := by
  obtain rfl : (z.links · j) = links := funext hlinks
  rw [widenLevel, ZSkipList.get, if_pos hu]
  exact set_spec hu _

/-- **The loops of `zslInsert`** link the new node on its levels, and widen the links over it. -/
theorem linkLevel_columns (h : Rep zsl order) (hsplit : order = pre ++ suf) (hx : x ∉ order)
    (hn : n.height ≤ zsl.level)
    (hz : z = { zsl with nodes := update zsl.nodes x (some n) }) :
    ∃ z₁ z₂, forLevels (linkLevel x pre.length) z 0 (places zsl pre n.height) = some z₁ ∧
      forLevels widenLevel z₁ n.height ((places zsl pre zsl.level).drop n.height) = some z₂ ∧
      SameNodes z z₂ ∧ (∀ i < zsl.level, Column (z.tall i) (z₂.links · i) (pre ++ x :: suf)) ∧
      ∀ i y, zsl.level ≤ i → z₂.links y i = zsl.links y i := by
  have hheight : ∀ p, z.height p = if p = some x then n.height else zsl.height p := by
    rw [hz]
    exact height_update
  have hlinks : z.links = zsl.links := by rw [hz]
  have htallx : ∀ j, z.tall j x = decide (j < n.height) := fun j => by
    rw [ZSkipList.tall, hheight, if_pos rfl]
  have htall : ∀ j, ∀ p ∈ order, z.tall j p = zsl.tall j p := by
    intro j p hp
    have hne : p ≠ x := fun h0 => hx (h0 ▸ hp)
    rw [ZSkipList.tall, ZSkipList.tall, hheight, if_neg fun h => hne (some.inj h)]
  have hpre : ∀ p ∈ pre, p ∈ order := fun p hp => hsplit ▸ mem_append_left _ hp
  have hfront : ∀ j, (front (zsl.tall j) pre).getLast? ≠ some x := fun j hlast =>
    hx (hpre x (mem_of_mem_front (mem_of_getLast? hlast)))
  have hfheight : ∀ j < zsl.level, j < z.height (front (zsl.tall j) pre).getLast? := by
    intro j hj
    obtain ⟨-, -, -, hstops⟩ := exists_front (zsl.tall j) pre
    rw [hheight, if_neg (hfront j)]
    exact lt_height_of_stops (h.lt_maxlevel hj) hstops
  -- The levels of the node.
  obtain ⟨z₁, hloop₁, hsame₁, hat₁, hother₁⟩ := forLevels_spec (linkLevel x pre.length)
    (fun j u => write (write (zsl.links · j) (some x)
      ⟨(zsl.links u.1 j).forward, (zsl.links u.1 j).span - (pre.length - u.2)⟩) u.1
        ⟨some x, pre.length - u.2 + 1⟩) (places zsl pre n.height) z 0 (by
      intro w j u hw _ hu hwlinks
      rw [Nat.sub_zero] at hu
      have hj : j < n.height := by
        have := (List.getElem?_eq_some_iff.mp hu).1
        rwa [length_places] at this
      rw [getElem?_places hj] at hu
      obtain rfl := some.inj hu
      rw [hlinks] at hwlinks
      refine linkLevel_spec hwlinks ?_ ?_
      · rw [hw.height]
        exact hfheight j (hj.trans_le hn)
      · rw [hw.height, hheight, if_pos rfl]
        exact hj)
  -- The levels above it.
  obtain ⟨z₂, hloop₂, hsame₂, hat₂, hother₂⟩ := forLevels_spec widenLevel
    (fun j u => write (zsl.links · j) u.1 ⟨(zsl.links u.1 j).forward, (zsl.links u.1 j).span + 1⟩)
    ((places zsl pre zsl.level).drop n.height) z₁ n.height (by
      intro w j u hw hj hu hwlinks
      rw [List.getElem?_drop, Nat.add_sub_of_le hj] at hu
      have hjl : j < zsl.level := by
        have := (List.getElem?_eq_some_iff.mp hu).1
        rwa [length_places] at this
      rw [getElem?_places hjl] at hu
      obtain rfl := some.inj hu
      refine widenLevel_spec (fun y => ?_) ?_
      · rw [hwlinks, hother₁ j (.inr (by rw [length_places]; omega)), hlinks]
      · rw [hw.height, hsame₁.height]
        exact hfheight j hjl)
  have hlen : ((places zsl pre zsl.level).drop n.height).length = zsl.level - n.height := by
    rw [length_drop, length_places]
  refine ⟨z₁, z₂, hloop₁, hloop₂, hsame₁.trans hsame₂, fun i hi => ?_, fun i y hi => ?_⟩
  · have hcolumn : Column (z.tall i) (zsl.links · i) (pre ++ suf) :=
      (hsplit ▸ h.columns i hi).congr fun y hy => htall i y (hsplit ▸ hy)
    have hfr : front (z.tall i) pre = front (zsl.tall i) pre :=
      front_congr fun y hy => htall i y (hpre y hy)
    have hd : (pre ++ x :: suf).Nodup := by
      rw [nodup_middle, nodup_cons, ← hsplit]
      exact ⟨hx, h.nodup⟩
    have hover := hcolumn.front
    rw [hfr] at hover
    by_cases hlow : i < n.height
    · have hz₂ : ∀ y, z₂.links y i = write (write (zsl.links · i) (some x)
          ⟨(zsl.links (front (zsl.tall i) pre).getLast? i).forward,
            (zsl.links (front (zsl.tall i) pre).getLast? i).span -
              (pre.length - (front (zsl.tall i) pre).length)⟩) (front (zsl.tall i) pre).getLast?
          ⟨some x, pre.length - (front (zsl.tall i) pre).length + 1⟩ y := fun y =>
        (hother₂ i (.inl hlow) y).trans
          (hat₁ i ((front (zsl.tall i) pre).getLast?, (front (zsl.tall i) pre).length)
            (Nat.zero_le i) (getElem?_places hlow) y)
      have htrue : z.tall i x = true := by rw [htallx, decide_eq_true hlow]
      refine hcolumn.insert hd (fun _ => ?_) ?_ fun r hr hr' => ?_
      · rw [hz₂, write, if_neg (Ne.symm (hfront i)), write, if_pos rfl]
        rw [hover, Nat.add_sub_cancel_left]
        rfl
      · rw [hfr, htrue, if_pos rfl, hz₂, write, if_pos rfl]
      · rw [hfr] at hr'
        rw [hz₂, write, if_neg hr', write, if_neg hr]
    · have hnle : n.height ≤ i := Nat.not_lt.mp hlow
      have hz₂ : ∀ y, z₂.links y i = write (zsl.links · i) (front (zsl.tall i) pre).getLast?
          ⟨(zsl.links (front (zsl.tall i) pre).getLast? i).forward,
            (zsl.links (front (zsl.tall i) pre).getLast? i).span + 1⟩ y := fun y =>
        hat₂ i ((front (zsl.tall i) pre).getLast?, (front (zsl.tall i) pre).length) hnle (by
          rw [List.getElem?_drop, Nat.add_sub_of_le hnle]
          exact getElem?_places hi) y
      have hfalse : z.tall i x = false := by rw [htallx, decide_eq_false hlow]
      refine hcolumn.insert hd (fun h0 => ?_) ?_ fun r hr hr' => ?_
      · rw [hfalse] at h0
        cases h0
      · rw [hfr, hfalse, if_neg Bool.false_ne_true, hz₂, write, if_pos rfl]
      · rw [hfr] at hr'
        rw [hz₂, write, if_neg hr']
  · rw [hother₂ i (.inr (by rw [hlen]; omega)), hother₁ i (.inr (by rw [length_places]; omega)),
      hlinks]

/-! ### Backward pointers -/

theorem Backward.insert (h : Backward zsl (pre ++ suf)) (hd : (pre ++ x :: suf).Nodup)
    (hx : ∀ n, z.nodes x = some n → n.backward = pre.getLast?)
    (hnodes : ∀ p, p ≠ x → z.nodes p = (zsl.nodes p).map (withBackward suf (some x) p)) :
    Backward z (pre ++ x :: suf) := by
  obtain ⟨hxpre, hxsuf, hdisj⟩ := notMem_of_nodup hd
  intro P p S hPS n hn
  have hsplit := split_cases hPS
  rcases hsplit with ⟨m, hm, hS⟩ | ⟨rfl, rfl⟩ | ⟨m, hmne, hsuf, rfl⟩
  · cases m with
    | nil =>
      -- The new node.
      rw [nil_append] at hS
      obtain ⟨rfl, rfl⟩ := List.cons.inj hS
      rw [append_nil] at hm
      exact hm ▸ hx n hn
    | cons y m =>
      obtain ⟨rfl, rfl⟩ := List.cons.inj hS
      have hp : p ∈ pre := by simp [hm]
      have hne : p ≠ x := fun h0 => hxpre (h0 ▸ hp)
      have hhead : suf.head? ≠ some p := fun h0 => hdisj p hp (mem_of_head? h0)
      rw [hnodes p hne] at hn
      obtain ⟨n', hn', rfl⟩ := map_eq_some_iff.mp hn
      rw [withBackward_ne hhead]
      exact h P p (m ++ suf) (by simp [hm]) n' hn'
  · -- The node after it.
    have hne : p ≠ x := fun h0 => hxsuf (h0 ▸ mem_cons_self)
    rw [hnodes p hne] at hn
    obtain ⟨n', -, rfl⟩ := map_eq_some_iff.mp hn
    rw [withBackward_head rfl, getLast?_concat]
  · have hp : p ∈ suf := by simp [hsuf]
    have hne : p ≠ x := fun h0 => hxsuf (h0 ▸ hp)
    have hhead : suf.head? ≠ some p := by
      intro h0
      obtain ⟨y, t, rfl⟩ := exists_cons_of_ne_nil hmne
      rw [hsuf] at h0 hd
      obtain rfl := some.inj h0
      have := (nodup_append.mp hd).2.1
      simp at this
    rw [hnodes p hne] at hn
    obtain ⟨n', hn', rfl⟩ := map_eq_some_iff.mp hn
    rw [withBackward_ne hhead, h (pre ++ m) p S (by simp [hsuf]) n' hn', append_cons,
      getLast?_append_of_ne_nil _ hmne, getLast?_append_of_ne_nil _ hmne]

theorem Backward.erase (h : Backward zsl (pre ++ x :: suf)) (hd : (pre ++ x :: suf).Nodup)
    (hnodes : ∀ p, p ≠ x → z.nodes p = (zsl.nodes p).map (withBackward suf pre.getLast? p)) :
    Backward z (pre ++ suf) := by
  obtain ⟨hxpre, hxsuf, hdisj⟩ := notMem_of_nodup hd
  intro P p S hPS n hn
  have hp : p ∈ pre ++ suf := by simp [hPS]
  have hne : p ≠ x := by
    rintro rfl
    rcases mem_append.mp hp with hp | hp
    · exact hxpre hp
    · exact hxsuf hp
  rw [hnodes p hne] at hn
  obtain ⟨n', hn', rfl⟩ := map_eq_some_iff.mp hn
  rcases append_eq_append_iff.mp hPS with ⟨m, rfl, hsuf⟩ | ⟨m, hm, hS⟩
  · cases m with
    | nil =>
      rw [nil_append] at hsuf
      rw [withBackward_head (by rw [hsuf]; rfl), append_nil]
    | cons y m =>
      have hhead : suf.head? ≠ some p := by
        intro h0
        rw [hsuf] at h0 hd
        obtain rfl := some.inj h0
        have := (nodup_append.mp hd).2.1
        simp at this
      rw [withBackward_ne hhead, h (pre ++ x :: y :: m) p S (by simp [hsuf]) n' hn']
      simp
  · cases m with
    | nil =>
      rw [nil_append] at hS
      rw [append_nil] at hm
      rw [withBackward_head (by rw [← hS]; rfl), hm]
    | cons y m =>
      obtain ⟨rfl, rfl⟩ := List.cons.inj hS
      have hhead : suf.head? ≠ some p := fun h0 =>
        hdisj p (by simp [hm]) (mem_of_head? h0)
      rw [withBackward_ne hhead]
      exact h P p (m ++ x :: suf) (by simp [hm]) n' hn'

/-! ### `zslInsert` -/

theorem Rep.places_append (h : Rep zsl order) (hsplit : order = pre ++ suf) (k : ℕ) :
    places zsl pre zsl.level ++ List.replicate k (none, 0) = places zsl pre (zsl.level + k) := by
  have hfront : ∀ j, zsl.level ≤ j → front (zsl.tall j) pre = [] := by
    intro j hj
    have hlow : ∀ y ∈ pre, zsl.tall j y = false := by
      intro y hy
      rw [ZSkipList.tall, decide_eq_false_iff_not]
      have := (h.heights y (hsplit ▸ mem_append_left _ hy)).2
      omega
    have := front_append_low hlow (l := [])
    rwa [nil_append, stops_nil.front_eq] at this
  induction k with
  | zero => rw [List.replicate_zero, append_nil, Nat.add_zero]
  | succ k ih =>
    rw [List.replicate_succ', ← List.append_assoc, ih, ← Nat.add_assoc, places, places,
      range_succ, map_append, map_singleton, hfront _ (Nat.le_add_right _ _)]
    rfl

theorem Rep.head?_places (h : Rep zsl order) (hsplit : order = pre ++ suf) {i : ℕ} (hi : 0 < i) :
    (places zsl pre i).head? = some (pre.getLast?, pre.length) := by
  rw [head?_eq_getElem?, getElem?_places hi, h.front_zero hsplit]

theorem setBackward_spec (hn : zsl.nodes x = some n) (b : Option ℕ) :
    zsl.setBackward x b =
      some { zsl with nodes := update zsl.nodes x (some { n with backward := b }) } := by
  rw [ZSkipList.setBackward, hn]

/-- On the lowest level the link of a node goes to the next one. -/
theorem forward_of_column (hx : zsl.nodes x = some n) (hn : 0 < n.height)
    (hsuf : ∀ q ∈ suf, zsl.tall 0 q = true)
    (h : Column (zsl.tall 0) (zsl.links · 0) (pre ++ x :: suf)) :
    zsl.get (some x) 0 = some (zsl.links (some x) 0) ∧
      (zsl.links (some x) 0).forward = suf.head? := by
  have hheight : 0 < zsl.height (some x) := hn.trans_eq (height_some hx).symm
  have hlink := h (pre ++ [x]) suf (append_cons _ _ _) (stops_concat (tall_iff.mpr hheight))
  rw [getLast?_concat] at hlink
  refine ⟨if_pos hheight, ?_⟩
  dsimp only at hlink
  rw [hlink, link]
  cases suf with
  | nil => rfl
  | cons y suf => exact find?_cons_of_pos (hsuf y mem_cons_self)

/-- **The last steps of `zslInsert`**: the pointer back to the new node, and the length. -/
theorem setBefore_insert (h : Rep zsl order) (hsplit : order = pre ++ suf) (hx : x ∉ order)
    (hzx : z.nodes x = some n) (hback : n.backward = pre.getLast?) (hn : 1 ≤ n.height)
    (hn' : n.height ≤ zsl.level) (hzne : ∀ p, p ≠ x → z.nodes p = zsl.nodes p)
    (hcolumns : ∀ i < zsl.level, Column (z.tall i) (z.links · i) (pre ++ x :: suf))
    (hclosed : ∀ i y, zsl.level ≤ i → z.links y i = zsl.links y i) (htail : z.tail = zsl.tail)
    (hlength : z.length = zsl.length) (hlevel : z.level = zsl.level) :
    ∃ z', setBefore z x (some x) = some z' ∧ Rep { z' with length := z'.length + 1 } (pre ++ x :: suf) ∧
      ∀ p, (z'.nodes p).map Node.core = (z.nodes p).map Node.core := by
  have hd : (pre ++ x :: suf).Nodup := by
    rw [nodup_middle, nodup_cons, ← hsplit]
    exact ⟨hx, h.nodup⟩
  have hmem : ∀ p, p ∈ pre ++ x :: suf ↔ p = x ∨ p ∈ order := by
    intro p
    rw [hsplit]
    simp only [mem_append, mem_cons]
    exact or_left_comm
  have hsuf : ∀ q ∈ suf, q ∈ order := fun q hq => hsplit ▸ mem_append_right _ hq
  have hheights : ∀ p ∈ order, z.height (some p) = zsl.height (some p) := by
    intro p hp
    have hne : p ≠ x := fun h0 => hx (h0 ▸ hp)
    rw [ZSkipList.height, ZSkipList.height, hzne p hne]
  have htall : ∀ q ∈ suf, z.tall 0 q = true := by
    intro q hq
    rw [tall_iff, hheights q (hsuf q hq)]
    exact (h.heights q (hsuf q hq)).1
  obtain ⟨hget, hforward⟩ := forward_of_column hzx hn htall (hcolumns 0 h.level.1)
  obtain ⟨z', hset, hlinks', hlength', hlevel', htail', hnodes'⟩ :=
    setBefore_spec (b := some x) hget hforward fun q hq => by
      have hqs := mem_of_head? hq
      rw [hzne q fun h0 => hx (h0 ▸ hsuf q hqs)]
      exact (h.alloc q).mpr (hsuf q hqs)
  have hcore : ∀ p, (z'.nodes p).map Node.core = (z.nodes p).map Node.core := by
    intro p
    rw [hnodes', Option.map_map]
    exact congrArg (Option.map · (z.nodes p)) (funext fun m => withBackward_core suf (some x) p m)
  have hheight' : ∀ p, z'.height (some p) = z.height (some p) := fun p => height_of_core (hcore p)
  have htall' : ∀ i, z'.tall i = z.tall i := by
    intro i
    funext p
    rw [ZSkipList.tall, ZSkipList.tall, hheight']
  refine ⟨z', hset, ⟨hd, fun p => ?_, fun p hp => ?_, ?_, fun i hi => ?_, fun i hi hi' => ?_, ?_, ?_,
    ?_⟩, hcore⟩
  · -- What is allocated.
    dsimp only
    rw [alloc_of_core (hcore p), hmem]
    by_cases hp : p = x
    · exact ⟨fun _ => .inl hp, fun _ => hp ▸ ⟨n, hzx⟩⟩
    · rw [hzne p hp, h.alloc p, or_iff_right hp]
  · -- The heights.
    have hheight := hheight' p
    rcases (hmem p).mp hp with rfl | hp'
    · rw [height_some hzx] at hheight
      exact ⟨hn.trans_eq hheight.symm, hheight.trans_le (hn'.trans_eq (hlevel'.trans hlevel).symm)⟩
    · rw [hheights p hp'] at hheight
      exact ⟨(h.heights p hp').1.trans_eq hheight.symm,
        hheight.trans_le ((h.heights p hp').2.trans_eq (hlevel'.trans hlevel).symm)⟩
  · dsimp only
    rw [hlevel', hlevel]
    exact h.level
  · dsimp only at hi ⊢
    rw [hlevel', hlevel] at hi
    have hcolumn := hcolumns i hi
    rw [← htall', ← hlinks'] at hcolumn
    exact hcolumn
  · dsimp only at hi ⊢
    rw [hlevel', hlevel] at hi
    rw [hlinks', hclosed i none hi]
    exact h.closed i hi hi'
  · dsimp only
    rw [hlength', hlength, h.length, hsplit]
    simp only [length_append, length_cons]
    rfl
  · -- The tail.
    dsimp only
    rw [htail', htail, h.tail, hsplit]
    cases suf with
    | nil => rw [if_pos rfl, getLast?_concat]
    | cons y suf =>
      rw [if_neg (cons_ne_nil y suf), getLast?_append, getLast?_append,
        getLast?_cons_cons]
  · -- The backward pointers.
    have hold : Backward zsl (pre ++ suf) := hsplit ▸ h.backward
    refine hold.insert hd (fun m hm => ?_) fun p hp => ?_
    · have hm' : z'.nodes x = some m := hm
      rw [hnodes', hzx, map_some, withBackward_ne fun h0 => hx (hsuf x (mem_of_head? h0))]
        at hm'
      rw [← some.inj hm', hback]
    · rw [← hzne p hp]
      exact hnodes' p

section Insert
variable [LinearOrder σ] [LinearOrder α] {score : σ} {obj : α} {level : ℕ}

/-- What is before an element. -/
def ZSkipList.isBefore (zsl : ZSkipList σ α) (score : σ) (obj : α) (p : ℕ) : Bool :=
  match zsl.nodes p with
  | none => false
  | some n => n.before score obj

/-- **`zslInsert`** puts the node after all that is before it. -/
theorem zslInsert_rep (h : Rep zsl order) (hl : 1 ≤ level) (hl' : level ≤ zskiplistMaxlevel)
    (hx : x ∉ order) (score : σ) (obj : α) :
    ∃ pre suf z, order = pre ++ suf ∧ zslInsert zsl score obj level x = some z ∧
      Rep z (pre ++ x :: suf) ∧
      (∀ q, pre.getLast? = some q → zsl.isBefore score obj q = true) ∧
      (∀ q, suf.head? = some q → zsl.isBefore score obj q = false) ∧
      (z.nodes x).map Node.core = some (score, obj, level) ∧
      ∀ p, p ≠ x → (z.nodes p).map Node.core = (zsl.nodes p).map Node.core := by
  have hskip : Skips zsl order (fun _ n => n.before score obj) (zsl.isBefore score obj) := by
    intro P q S n _ hn
    rw [ZSkipList.isBefore, hn]
  obtain ⟨pre, suf, hsplit, hdesc, hlast, hhead⟩ := descend_all h hskip
  obtain ⟨z, hopen, hrep, hnodes, hlevel⟩ := openLevel_rep h hl'
  have hxnone : z.nodes x = none := by
    rw [hnodes, eq_none_iff_forall_ne_some]
    exact fun n hn => hx ((h.alloc x).mp ⟨n, hn⟩)
  have hplaces : places zsl pre zsl.level ++ List.replicate (level - zsl.level) (none, 0) =
      places { z with level := max zsl.level level } pre (max zsl.level level) := by
    have hmax : zsl.level + (level - zsl.level) = max zsl.level level := by omega
    rw [h.places_append hsplit, hmax]
    refine (places_congr (fun p _ => ?_) _).symm
    rw [ZSkipList.height, ZSkipList.height]
    dsimp only
    rw [hnodes]
  obtain ⟨z₁, z₂, hlink, hwiden, hsame, hcolumns, hclosed⟩ :=
    linkLevel_columns hrep hsplit hx (n := ⟨obj, score, none, level⟩) (le_max_right _ _) rfl
  -- The new node has its backward pointer.
  have hz₂x : z₂.nodes x = some ⟨obj, score, none, level⟩ := by
    rw [hsame.nodes]
    exact update_self _ _ _
  have hz₂ne : ∀ p, p ≠ x → z₂.nodes p = zsl.nodes p := by
    intro p hp
    rw [hsame.nodes]
    dsimp only
    rw [update_of_ne hp, hnodes]
  have hd : (pre ++ x :: suf).Nodup := by
    rw [nodup_middle, nodup_cons, ← hsplit]
    exact ⟨hx, h.nodup⟩
  obtain ⟨hxpre, hxsuf, -⟩ := notMem_of_nodup hd
  have hback := setBackward_spec hz₂x pre.getLast?
  obtain ⟨z₃, hz₃⟩ : ∃ z₃ : ZSkipList σ α, z₃ = { z₂ with
      nodes := update z₂.nodes x (some ⟨obj, score, pre.getLast?, level⟩) } := ⟨_, rfl⟩
  have hz₃x : z₃.nodes x = some ⟨obj, score, pre.getLast?, level⟩ := by
    rw [hz₃]
    exact update_self _ _ _
  have hz₃ne : ∀ p, p ≠ x → z₃.nodes p = zsl.nodes p := by
    intro p hp
    rw [hz₃, ← hz₂ne p hp]
    exact update_of_ne hp _ _
  have htall : z₃.tall = z₂.tall := by
    funext i p
    have hcore : (z₃.nodes p).map Node.core = (z₂.nodes p).map Node.core := by
      by_cases hp : p = x
      · rw [hp, hz₃x, hz₂x]
        rfl
      · rw [hz₃ne p hp, hz₂ne p hp]
    rw [ZSkipList.tall, ZSkipList.tall, height_of_core hcore]
  have hcolumns₃ : ∀ i < max zsl.level level,
      Column (z₃.tall i) (z₃.links · i) (pre ++ x :: suf) := by
    intro i hi
    have hcolumn := hcolumns i hi
    rw [← hsame.tall, ← htall] at hcolumn
    rw [hz₃] at hcolumn ⊢
    exact hcolumn
  obtain ⟨z₄, hset, hrep₄, hcore⟩ := setBefore_insert (z := z₃) hrep hsplit hx hz₃x rfl hl
    (le_max_right _ _) (fun p hp => by rw [hz₃ne p hp, ← hnodes]) hcolumns₃
    (by rw [hz₃]; exact hclosed) (by rw [hz₃]; exact hsame.tail) (by rw [hz₃]; exact hsame.length)
    (by rw [hz₃]; exact hsame.level)
  refine ⟨pre, suf, _, hsplit, ?_, hrep₄, hlast, hhead, ?_, fun p hp => ?_⟩
  · rw [zslInsert, hdesc]
    dsimp only
    rw [hopen, hplaces]
    dsimp only
    rw [zslCreateNode]
    dsimp only
    rw [hxnone, hrep.head?_places hsplit (hl.trans (le_max_right _ _))]
    dsimp only
    dsimp only at hlink hwiden
    rw [take_places (le_max_right _ _), hlevel, hlink]
    dsimp only
    rw [hwiden]
    dsimp only
    rw [hback]
    dsimp only
    rw [← hz₃, hset]
    rfl
  · exact (hcore x).trans (by rw [hz₃x]; rfl)
  · exact (hcore p).trans (by rw [hz₃ne p hp])

end Insert

/-! ### `zslDeleteNode` -/

/-- **The loop of `zslDeleteNode`** unlinks the node from its levels, and narrows the links over it. -/
theorem unlinkLevel_columns (h : Rep zsl (pre ++ x :: suf)) :
    ∃ z, forLevels (unlinkLevel x) zsl 0 (places zsl pre zsl.level) = some z ∧ SameNodes zsl z ∧
      (∀ i < zsl.level, Column (zsl.tall i) (z.links · i) (pre ++ suf)) ∧
      (∀ i, z.links (some x) i = zsl.links (some x) i) ∧
      ∀ i y, zsl.level ≤ i → z.links y i = zsl.links y i := by
  obtain ⟨hxpre, -, -⟩ := notMem_of_nodup h.nodup
  have hfront : ∀ j, (front (zsl.tall j) pre).getLast? ≠ some x := fun j hlast =>
    hxpre (mem_of_mem_front (mem_of_getLast? hlast))
  have hfheight : ∀ j < zsl.level, j < zsl.height (front (zsl.tall j) pre).getLast? := by
    intro j hj
    obtain ⟨-, -, -, hstops⟩ := exists_front (zsl.tall j) pre
    exact lt_height_of_stops (h.lt_maxlevel hj) hstops
  obtain ⟨z, hloop, hsame, hat, hother⟩ := forLevels_spec (unlinkLevel x)
    (fun j u => write (zsl.links · j) u.1
      (if zsl.tall j x then
        ⟨(zsl.links (some x) j).forward, (zsl.links u.1 j).span + (zsl.links (some x) j).span - 1⟩
      else ⟨(zsl.links u.1 j).forward, (zsl.links u.1 j).span - 1⟩))
    (places zsl pre zsl.level) zsl 0 (by
      intro w j u hw _ hu hwlinks
      rw [Nat.sub_zero] at hu
      have hj : j < zsl.level := by
        have := (List.getElem?_eq_some_iff.mp hu).1
        rwa [length_places] at this
      rw [getElem?_places hj] at hu
      obtain rfl := some.inj hu
      have hgetu : j < w.height (front (zsl.tall j) pre).getLast? := by
        rw [hw.height]
        exact hfheight j hj
      have hiff := (h.columns j hj).front_eq_iff
      dsimp only at hiff ⊢
      rw [unlinkLevel, ZSkipList.get, if_pos hgetu]
      dsimp only
      rw [hwlinks]
      by_cases hx : zsl.tall j x = true
      · have hgetx : j < w.height (some x) := by
          rw [hw.height]
          exact tall_iff.mp hx
        obtain ⟨w', hset, hsets⟩ := set_spec hgetu ⟨(zsl.links (some x) j).forward,
          (zsl.links (front (zsl.tall j) pre).getLast? j).span + (zsl.links (some x) j).span - 1⟩
        refine ⟨w', ?_, hsets.same, fun y => ?_, hsets.other⟩
        · rw [if_pos (hiff.mpr hx), ZSkipList.get, if_pos hgetx]
          dsimp only
          rw [hwlinks]
          exact hset
        · rw [hsets.changed, write, write, hwlinks, if_pos hx]
      · obtain ⟨w', hset, hsets⟩ := set_spec hgetu
          ⟨(zsl.links (front (zsl.tall j) pre).getLast? j).forward,
            (zsl.links (front (zsl.tall j) pre).getLast? j).span - 1⟩
        refine ⟨w', ?_, hsets.same, fun y => ?_, hsets.other⟩
        · rw [if_neg fun h0 => hx (hiff.mp h0)]
          exact hset
        · rw [hsets.changed, write, write, hwlinks, if_neg hx])
  have hz : ∀ i < zsl.level, ∀ y, z.links y i = _ := fun i hi y =>
    hat i ((front (zsl.tall i) pre).getLast?, (front (zsl.tall i) pre).length) (Nat.zero_le i)
      (getElem?_places hi) y
  have habove : ∀ i y, zsl.level ≤ i → z.links y i = zsl.links y i := fun i y hi =>
    hother i (.inr (by rw [length_places]; omega)) y
  refine ⟨z, hloop, hsame, fun i hi => (h.columns i hi).erase h.nodup ?_ fun r _ hr => ?_, fun i => ?_,
    habove⟩
  · rw [hz i hi, write, if_pos rfl]
  · rw [hz i hi, write, if_neg hr]
  · by_cases hi : i < zsl.level
    · rw [hz i hi, write, if_neg (Ne.symm (hfront i))]
    · exact habove i _ (Nat.not_lt.mp hi)

/-- **The levels left**: those above are empty, and one always stays. -/
theorem lowerLevel_spec (links : Option ℕ → ℕ → Link ℕ) (level : ℕ) :
    lowerLevel links level ≤ level ∧ (1 ≤ level → 1 ≤ lowerLevel links level) ∧
      ∀ i, lowerLevel links level ≤ i → i < level → (links none i).forward = none := by
  induction level with
  | zero => exact ⟨le_rfl, id, fun _ _ hi => absurd hi (Nat.not_lt_zero _)⟩
  | succ level ih =>
    rw [lowerLevel]
    split
    · next hempty =>
        refine ⟨ih.1.trans (Nat.le_succ level), fun _ => ih.2.1 (by omega), fun i hi hi' => ?_⟩
        rcases (Nat.lt_succ_iff_lt_or_eq.mp hi') with hlt | rfl
        · exact ih.2.2 i hi hlt
        · exact hempty.2
    · exact ⟨le_rfl, id, fun i hi hi' => absurd hi (Nat.not_le.mpr hi')⟩

/-- **`zslDeleteNode` and `zslFreeNode`**, with the places before the node in `update`. -/
theorem zslDeleteNode_rep (h : Rep zsl (pre ++ x :: suf)) {k : ℕ} (hk : zsl.level ≤ k) :
    ∃ z, zslDeleteNode zsl x (places zsl pre k) = some z ∧ Rep (zslFreeNode z x) (pre ++ suf) ∧
      z.level ≤ zsl.level ∧
      ∀ p, p ≠ x → ((zslFreeNode z x).nodes p).map Node.core = (zsl.nodes p).map Node.core := by
  have hd := h.nodup
  obtain ⟨hxpre, hxsuf, -⟩ := notMem_of_nodup hd
  obtain ⟨n, hn⟩ := (h.alloc x).mpr (by simp)
  have hback := h.backward pre x suf rfl n hn
  obtain ⟨z, hloop, hsame, hcolumns, hself, habove⟩ := unlinkLevel_columns h
  obtain ⟨hget, hforward⟩ := h.forward_zero (append_cons pre x suf)
  rw [getLast?_concat] at hget hforward
  have hgetz : z.get (some x) 0 = some (z.links (some x) 0) := by
    rw [ZSkipList.get, hsame.height, hself]
    exact hget
  have hne : ∀ p ∈ pre ++ suf, p ≠ x := by
    rintro p hp rfl
    exact (mem_append.mp hp).elim hxpre hxsuf
  obtain ⟨z', hset, hlinks', hlength', hlevel', htail', hnodes'⟩ :=
    setBefore_spec (b := pre.getLast?) hgetz (by rw [hself]; exact hforward) fun q hq => by
      rw [hsame.nodes]
      exact (h.alloc q).mpr (by simp [mem_of_head? hq])
  have hcore : ∀ p, (z'.nodes p).map Node.core = (zsl.nodes p).map Node.core := by
    intro p
    rw [hnodes', hsame.nodes, Option.map_map]
    exact congrArg (Option.map · (zsl.nodes p))
      (funext fun m => withBackward_core suf pre.getLast? p m)
  obtain ⟨hlow, hone, hempty⟩ := lowerLevel_spec z'.links z'.level
  rw [hlevel', hsame.level] at hlow hone hempty
  -- What is left of the nodes.
  obtain ⟨w, hw⟩ : ∃ w : ZSkipList σ α,
      w = { z' with
            level := lowerLevel z'.links z'.level
            length := z'.length - 1 } := ⟨_, rfl⟩
  have hwx : (zslFreeNode w x).nodes x = none := update_self _ _ _
  have hwcore : ∀ p, p ≠ x →
      ((zslFreeNode w x).nodes p).map Node.core = (zsl.nodes p).map Node.core := by
    intro p hp
    rw [zslFreeNode, ← hcore p, hw]
    dsimp only
    rw [update_of_ne hp]
  have hwheight : ∀ p, p ≠ x → (zslFreeNode w x).height (some p) = zsl.height (some p) := fun p hp =>
    height_of_core (hwcore p hp)
  have hwtall : ∀ i p, p ≠ x → (zslFreeNode w x).tall i p = zsl.tall i p := fun i p hp => by
    rw [ZSkipList.tall, ZSkipList.tall, hwheight p hp]
  have hwlevel : (zslFreeNode w x).level = lowerLevel z'.links zsl.level := by
    rw [← hsame.level, ← hlevel', zslFreeNode, hw]
  have hwlinks : (zslFreeNode w x).links = z.links := by rw [← hlinks', zslFreeNode, hw]
  refine ⟨w, ?_, ⟨?_, fun p => ?_, fun p hp => ?_, ?_, fun i hi => ?_, fun i hi hi' => ?_, ?_, ?_, ?_⟩,
    ?_, hwcore⟩
  · rw [zslDeleteNode, length_places, if_neg (Nat.not_lt.mpr hk), take_places hk, hloop, hn]
    dsimp only
    rw [hback, hset, hw]
    rfl
  · exact (nodup_cons.mp (nodup_middle.mp hd)).2
  · -- What is allocated.
    by_cases hp : p = x
    · subst hp
      rw [hwx]
      refine ⟨fun hp => ?_, fun hp => absurd rfl (hne p hp)⟩
      obtain ⟨m, hm⟩ := hp
      cases hm
    · rw [alloc_of_core (hwcore p hp), h.alloc p]
      simp [hp]
  · -- No node is on a level that is given up.
    have hheights := h.heights p (by simp at hp ⊢; tauto)
    rw [hwheight p (hne p hp), hwlevel]
    refine ⟨hheights.1, Nat.not_lt.mp fun hlt => ?_⟩
    obtain ⟨i, hi⟩ : ∃ i, zsl.height (some p) = i + 1 := ⟨_, (Nat.sub_add_cancel hheights.1).symm⟩
    have hnone := hempty i (by omega) (by omega)
    have hlink := hcolumns i (by omega) [] (pre ++ suf) rfl stops_nil
    dsimp only at hlink
    rw [getLast?_nil] at hlink
    rw [hlinks', hlink, link] at hnone
    exact find?_eq_none.mp hnone p hp (tall_iff.mpr (by omega))
  · rw [hwlevel]
    exact ⟨hone h.level.1, hlow.trans h.level.2⟩
  · rw [hwlevel] at hi
    rw [hwlinks]
    exact (hcolumns i (hi.trans_le hlow)).congr fun y hy => hwtall i y (hne y hy)
  · rw [hwlevel] at hi
    rw [hwlinks]
    by_cases hold : i < zsl.level
    · rw [← hlinks']
      exact hempty i hi hold
    · rw [habove i none (Nat.not_lt.mp hold)]
      exact h.closed i (Nat.not_lt.mp hold) hi'
  · have hlen : w.length = zsl.length - 1 := by
      rw [hw, ← hsame.length, ← hlength']
    rw [zslFreeNode, hlen, h.length]
    simp
  · -- The tail.
    have htail : w.tail = if suf = [] then pre.getLast? else zsl.tail := by
      rw [hw, ← hsame.tail, ← htail']
    rw [zslFreeNode, htail, h.tail]
    cases suf with
    | nil => rw [if_pos rfl, append_nil]
    | cons y suf =>
      rw [if_neg (cons_ne_nil y suf), getLast?_append, getLast?_append,
        getLast?_cons_cons]
  · -- The backward pointers.
    have hold : Backward zsl (pre ++ x :: suf) := h.backward
    refine hold.erase hd fun p hp => ?_
    rw [zslFreeNode, hw]
    dsimp only
    rw [update_of_ne hp, hnodes', hsame.nodes]
  · rw [hw, ← hsame.level, ← hlevel']
    dsimp only
    rw [hlevel', hsame.level]
    exact hlow

end Nodes

end SourceLibs.RedisSkiplist
