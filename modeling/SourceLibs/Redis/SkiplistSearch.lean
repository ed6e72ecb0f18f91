import SourceLibs.Redis.Skiplist

/-!
# Redis — going down in a skip list

What a skip list stands for (`Rep`), and where going down in it ends.  On each level the search stops at
the front of what it has passed on the lowest one, whatever it passes: a node that it does not pass on
one level is there on all the levels below.

* `walk_spec`: one level.
* `descend_spec`: `update` and `rank`.
* `search_eq`: a search that stops on the way.
-/

namespace SourceLibs.RedisSkiplist
open List Option SpanList

variable {σ α : Type*}

/-- A node is on level `i`. -/
def ZSkipList.tall (zsl : ZSkipList σ α) (i : ℕ) (p : ℕ) : Bool := decide (i < zsl.height (some p))

/-- The nodes of a skip list, in their order on the lowest level. -/
structure Rep (zsl : ZSkipList σ α) (order : List ℕ) : Prop where
  nodup : order.Nodup
  alloc : ∀ p, (∃ n, zsl.nodes p = some n) ↔ p ∈ order
  heights : ∀ p ∈ order, 1 ≤ zsl.height (some p) ∧ zsl.height (some p) ≤ zsl.level
  level : 1 ≤ zsl.level ∧ zsl.level ≤ zskiplistMaxlevel
  columns : ∀ i < zsl.level, Column (zsl.tall i) (zsl.links · i) order
  closed : ∀ i, zsl.level ≤ i → i < zskiplistMaxlevel → (zsl.links none i).forward = none
  length : zsl.length = order.length
  tail : zsl.tail = order.getLast?
  backward : ∀ pre p suf, order = pre ++ p :: suf →
    ∀ n, zsl.nodes p = some n → n.backward = pre.getLast?

section Search
variable {zsl : ZSkipList σ α} {order : List ℕ} {i : ℕ} {skip : ℕ → Node σ α → Bool}

theorem tall_iff {p : ℕ} : zsl.tall i p = true ↔ i < zsl.height (some p) := decide_eq_true_iff

theorem tall_mono {j p : ℕ} (hij : i ≤ j) (h : zsl.tall j p = true) : zsl.tall i p = true :=
  tall_iff.mpr (hij.trans_lt (tall_iff.mp h))

theorem stops_mono {j : ℕ} {P : List ℕ} (hij : i ≤ j) (h : Stops (zsl.tall j) P) :
    Stops (zsl.tall i) P := fun x hx => tall_mono hij (h x hx)

theorem get_of_stops {P : List ℕ} (hi : i < zskiplistMaxlevel) (hP : Stops (zsl.tall i) P) :
    zsl.get P.getLast? i = some (zsl.links P.getLast? i) := by
  refine if_pos ?_
  cases hlast : P.getLast? with
  | none => exact hi
  | some p => exact tall_iff.mp (hP p hlast)

theorem Rep.lt_maxlevel (h : Rep zsl order) (hi : i < zsl.level) : i < zskiplistMaxlevel :=
  hi.trans_le h.level.2

/-- What `skip` says about the nodes, each with its rank. -/
def Skips (zsl : ZSkipList σ α) (order : List ℕ) (skip : ℕ → Node σ α → Bool) (sk : ℕ → Bool) :
    Prop :=
  ∀ pre q suf n, order = pre ++ q :: suf → zsl.nodes q = some n → skip (pre.length + 1) n = sk q

/-- **One level** is gone along as far as `skip` lets. -/
theorem walk_spec (h : Rep zsl order) (hi : i < zsl.level) {sk : ℕ → Bool}
    (hskip : Skips zsl order skip sk) (fuel : ℕ) :
    ∀ {P S : List ℕ},
    order = P ++ S → Stops (zsl.tall i) P → S.length < fuel →
    ∃ M S', S = M ++ S' ∧
      walk zsl skip i fuel P.getLast? P.length = some ((P ++ M).getLast?, (P ++ M).length) ∧
      Stops (zsl.tall i) (P ++ M) ∧ (∀ q ∈ M, zsl.tall i q = true → sk q = true) ∧
      (∀ q, M.getLast? = some q → sk q = true) ∧
      ∀ q, S'.find? (zsl.tall i) = some q → sk q = false := by
  induction fuel with
  | zero => exact fun _ _ hlt => absurd hlt (Nat.not_lt_zero _)
  | succ fuel ih =>
    intro P S hPS hP hlt
    have hlink := h.columns i hi P S hPS hP
    dsimp only at hlink
    rw [walk, get_of_stops (h.lt_maxlevel hi) hP]
    dsimp only
    rw [hlink, link]
    cases hfind : S.find? (zsl.tall i) with
    | none =>
      refine ⟨[], S, rfl, by rw [append_nil], by rwa [append_nil],
        fun q hq => absurd hq not_mem_nil, (fun _ hq => by cases hq), fun q hq => ?_⟩
      rw [hfind] at hq
      cases hq
    | some p =>
      obtain ⟨hp, m, rest, rfl, hlow⟩ := find?_eq_some_iff_append.mp hfind
      have hlow' : ∀ y ∈ m, zsl.tall i y = false := fun y hy => by simpa using hlow y hy
      have hgap : gap (zsl.tall i) (m ++ p :: rest) = m.length + 1 := by
        have := link_low hlow' (p :: rest)
        rw [link, Link.mk.injEq] at this
        rw [this.2, gap, if_pos hp]
      have hsplit : order = P ++ m ++ p :: rest := by rw [hPS, List.append_assoc]
      obtain ⟨n, hn⟩ := (h.alloc p).mpr (by rw [hsplit]; simp)
      have hsk := hskip (P ++ m) p rest n hsplit hn
      rw [length_append, Nat.add_assoc] at hsk
      dsimp only
      rw [hn, hgap]
      dsimp only
      rw [hsk]
      cases hpk : sk p with
      | false =>
        rw [if_neg Bool.false_ne_true]
        refine ⟨[], m ++ p :: rest, rfl, by rw [append_nil], by rwa [append_nil],
          fun q hq => absurd hq not_mem_nil, (fun _ hq => by cases hq), fun q hq => ?_⟩
        rw [hfind] at hq
        exact some.inj hq ▸ hpk
      | true =>
        rw [if_pos rfl]
        have hlen : (P ++ m ++ [p]).length = P.length + (m.length + 1) := by
          rw [length_append, length_append, length_singleton, Nat.add_assoc]
        have hrest : rest.length < fuel := by
          rw [length_append, length_cons] at hlt
          omega
        obtain ⟨M, S', rfl, hwalk, hstops, hM, hlast, hnext⟩ :=
          ih (hsplit.trans (append_cons _ _ _)) (stops_concat hp) hrest
        rw [getLast?_concat, hlen] at hwalk
        refine ⟨m ++ p :: M, S', by simp, ?_, ?_, fun q hq hqt => ?_, fun q hq => ?_, hnext⟩
        · rw [hwalk]
          simp
        · simpa using hstops
        · rcases mem_append.mp hq with hqm | hqm
          · rw [hlow' q hqm] at hqt
            cases hqt
          · rcases mem_cons.mp hqm with rfl | hqM
            · exact hpk
            · exact hM q hqM hqt
        · rw [getLast?_append, getLast?_cons] at hq
          cases hMl : M.getLast? with
          | none =>
            rw [hMl] at hq
            exact some.inj hq ▸ hpk
          | some y =>
            rw [hMl] at hq
            exact some.inj hq ▸ hlast y hMl

/-- The places of `update` and their ranks, when `pre` has been passed. -/
def places (zsl : ZSkipList σ α) (pre : List ℕ) (i : ℕ) : List (Option ℕ × ℕ) :=
  (List.range i).map fun j => ((front (zsl.tall j) pre).getLast?, (front (zsl.tall j) pre).length)

/-- **Going down** ends where `skip` no longer holds, with the fronts of what was passed. -/
theorem descend_spec (h : Rep zsl order) {sk : ℕ → Bool} (hskip : Skips zsl order skip sk) (i : ℕ)
    (hi : i ≤ zsl.level) :
    ∀ {P S : List ℕ},
    order = P ++ S → Stops (zsl.tall (i - 1)) P →
    ∃ M S', S = M ++ S' ∧
      descend zsl skip i P.getLast? P.length = some (places zsl (P ++ M) i) ∧
      (∀ q ∈ M, zsl.tall i q = true → sk q = true) ∧
      (∀ q, M.getLast? = some q → sk q = true) ∧
      (0 < i → ∀ q, S'.head? = some q → sk q = false) := by
  induction i with
  | zero =>
    intro P S _ _
    exact ⟨[], S, rfl, rfl, fun q hq => absurd hq not_mem_nil, (fun _ hq => nomatch hq),
      fun h0 => absurd h0 (lt_irrefl 0)⟩
  | succ i ih =>
    intro P S hPS hP
    rw [Nat.add_sub_cancel] at hP
    have hfuel : S.length < zsl.length + 1 := by
      rw [h.length, hPS, length_append]
      omega
    obtain ⟨M, S₁, rfl, hwalk, hstops, hM, hlast, hnext⟩ := walk_spec h hi hskip _ hPS hP hfuel
    have hPS₁ : order = P ++ M ++ S₁ := by rw [hPS, List.append_assoc]
    obtain ⟨M', S', rfl, hdesc, hM', hlast', hhead⟩ :=
      ih (Nat.le_of_succ_le hi) hPS₁ (stops_mono (Nat.sub_le _ _) hstops)
    -- No node of the level is passed further down.
    have hlow : ∀ q ∈ M', zsl.tall i q = false := by
      intro q hq
      by_contra hqt
      have hqt' : zsl.tall i q = true := by simpa using hqt
      cases hfind : (M' ++ S').find? (zsl.tall i) with
      | none => exact find?_eq_none.mp hfind q (mem_append_left _ hq) hqt'
      | some y =>
        have hy : M'.find? (zsl.tall i) = some y := by
          rw [find?_append] at hfind
          cases hfM : M'.find? (zsl.tall i) with
          | none => exact absurd hqt' (find?_eq_none.mp hfM q hq)
          | some z =>
            rw [hfM] at hfind
            exact hfind
        have hsk := hM' y (List.mem_of_find?_eq_some hy) (find?_some hy)
        rw [hnext y hfind] at hsk
        exact nomatch hsk
    have hfront : front (zsl.tall i) (P ++ M ++ M') = P ++ M := by
      rw [front_append_low hlow, hstops.front_eq]
    refine ⟨M ++ M', S', by rw [List.append_assoc], ?_, fun q hq hqt => ?_, fun q hq => ?_,
      fun _ q hq => ?_⟩
    · rw [descend, hwalk]
      dsimp only
      rw [hdesc, ← List.append_assoc]
      dsimp only
      rw [places, places, range_succ, map_append, map_singleton, hfront]
    · rcases mem_append.mp hq with hq | hq
      · exact hM q hq (tall_mono (Nat.le_succ i) hqt)
      · exact hM' q hq (tall_mono (Nat.le_succ i) hqt)
    · rw [getLast?_append] at hq
      cases hMl : M'.getLast? with
      | none =>
        rw [hMl] at hq
        exact hlast q hq
      | some y =>
        rw [hMl] at hq
        exact some.inj hq ▸ hlast' y hMl
    · -- On the lowest level the next node is the next one of the list.
      rcases Nat.eq_zero_or_pos i with rfl | hpos
      · obtain ⟨t, ht⟩ := head?_eq_some_iff.mp hq
        have hM'nil : M' = [] := by
          by_contra hne
          obtain ⟨y, hy⟩ := exists_mem_of_ne_nil _ hne
          have := (h.heights y (by rw [hPS₁]; simp [hy])).1
          have := hlow y hy
          rw [ZSkipList.tall, decide_eq_false_iff_not] at this
          omega
        refine hnext q ?_
        rw [hM'nil, nil_append, ht]
        refine find?_cons_of_pos (tall_iff.mpr ?_)
        exact (h.heights q (by rw [hPS₁, ht]; simp)).1
      · exact hhead hpos q hq

/-- **Going down from the header.** -/
theorem descend_all (h : Rep zsl order) {sk : ℕ → Bool} (hskip : Skips zsl order skip sk) :
    ∃ pre suf, order = pre ++ suf ∧
      descend zsl skip zsl.level none 0 = some (places zsl pre zsl.level) ∧
      (∀ q, pre.getLast? = some q → sk q = true) ∧ ∀ q, suf.head? = some q → sk q = false := by
  obtain ⟨pre, suf, hsplit, hdesc, -, hlast, hhead⟩ :=
    descend_spec h hskip zsl.level le_rfl (nil_append order).symm stops_nil
  exact ⟨pre, suf, hsplit, hdesc, hlast, hhead h.level.1⟩

theorem search_eq (stop : Option ℕ → ℕ → Bool) (i : ℕ) :
    ∀ {x : Option ℕ} {rank : ℕ} {us : List (Option ℕ × ℕ)}, descend zsl skip i x rank = some us →
      search zsl skip stop i x rank = some (us.reverse.find? fun u => stop u.1 u.2) := by
  induction i with
  | zero =>
    intro x rank us h
    rw [← some.inj h]
    rfl
  | succ i ih =>
    intro x rank us h
    rw [descend] at h
    rw [search]
    split at h
    · exact nomatch h
    · next y r hwalk =>
        split at h
        · exact nomatch h
        · next us' hdesc =>
            rw [← some.inj h, List.reverse_append, reverse_singleton,
              singleton_append]
            cases hstop : stop y r with
            | true => rw [if_pos rfl, find?_cons, hstop]
            | false => rw [if_neg Bool.false_ne_true, find?_cons, hstop, ih hdesc]

/-! ### Places -/

theorem length_places (pre : List ℕ) (i : ℕ) : (places zsl pre i).length = i := by
  rw [places, length_map, length_range]

theorem getElem?_places {pre : List ℕ} {j : ℕ} (hj : j < i) : (places zsl pre i)[j]? =
    some ((front (zsl.tall j) pre).getLast?, (front (zsl.tall j) pre).length) := by
  rw [places, List.getElem?_map, List.getElem?_range hj]
  rfl

theorem take_places {pre : List ℕ} {j : ℕ} (hj : j ≤ i) :
    (places zsl pre i).take j = places zsl pre j := by
  rw [places, ← map_take, take_range, Nat.min_eq_left hj, places]

theorem places_congr {zsl' : ZSkipList σ α} {pre : List ℕ}
    (h : ∀ p ∈ pre, zsl'.height (some p) = zsl.height (some p)) (i : ℕ) :
    places zsl' pre i = places zsl pre i := by
  have hfront : ∀ j, front (zsl'.tall j) pre = front (zsl.tall j) pre := fun j =>
    front_congr fun p hp => by rw [ZSkipList.tall, ZSkipList.tall, h p hp]
  simp only [places, hfront]

theorem Rep.front_zero (h : Rep zsl order) {pre suf : List ℕ} (hsplit : order = pre ++ suf) :
    front (zsl.tall 0) pre = pre := by
  refine Stops.front_eq fun x hx => tall_iff.mpr ?_
  exact (h.heights x (hsplit ▸ mem_append_left _ (mem_of_getLast? hx))).1

/-- On the lowest level the link goes to the next node. -/
theorem Rep.forward_zero (h : Rep zsl order) {pre suf : List ℕ} (hsplit : order = pre ++ suf) :
    zsl.get pre.getLast? 0 = some (zsl.links pre.getLast? 0) ∧
      (zsl.links pre.getLast? 0).forward = suf.head? := by
  have hstops : Stops (zsl.tall 0) pre := fun x hx => tall_iff.mpr
    (h.heights x (hsplit ▸ mem_append_left _ (mem_of_getLast? hx))).1
  refine ⟨get_of_stops (by decide) hstops, ?_⟩
  have hlink := h.columns 0 h.level.1 pre suf hsplit hstops
  dsimp only at hlink
  rw [hlink, link]
  cases suf with
  | nil => rfl
  | cons y suf => exact find?_cons_of_pos (tall_iff.mpr (h.heights y (by simp [hsplit])).1)

end Search

end SourceLibs.RedisSkiplist
