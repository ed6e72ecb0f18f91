import SourceLibs.Redis.SkiplistUpdate
import Mathlib.Data.Prod.Lex

/-!
# Redis — runs of a skip list

What the operations do to the list of nodes, and what is exact after any run of them.

* `deleteRange_rep`: the nodes of a range go.
* `Exact`: order, levels, spans, backward pointers, ranks.
* `skiplist_run`: every run of operations keeps the skip list exact.
-/

namespace SourceLibs.RedisSkiplist
open List Option SpanList

variable {σ α : Type*}

section Deletions
variable {zsl : ZSkipList σ α} {order pre suf : List ℕ}

/-- What `skip` says about the nodes. -/
def ZSkipList.skips (zsl : ZSkipList σ α) (order : List ℕ) (skip : ℕ → Node σ α → Bool) (p : ℕ) :
    Bool :=
  match zsl.nodes p with
  | none => false
  | some n => skip (order.idxOf p + 1) n

theorem skips_eq {skip : ℕ → Node σ α → Bool} {p : ℕ} {n : Node σ α} (hn : zsl.nodes p = some n) :
    zsl.skips order skip p = skip (order.idxOf p + 1) n := by
  rw [ZSkipList.skips, hn]

theorem Rep.skips (h : Rep zsl order) (skip : ℕ → Node σ α → Bool) :
    Skips zsl order skip (zsl.skips order skip) := by
  rintro P q S n rfl hn
  have hq : q ∉ P := (notMem_of_nodup h.nodup).1
  rw [skips_eq hn, idxOf_append_of_notMem hq, idxOf_cons_self, Nat.add_zero]

theorem deleteWhile_rep (cond : ℕ → Node σ α → Bool) (k : ℕ) (suf : List ℕ) :
    ∀ (zsl : ZSkipList σ α) (fuel traversed : ℕ), Rep zsl (pre ++ suf) → zsl.level ≤ k →
      suf.length < fuel →
      ∃ del rest z, suf = del ++ rest ∧
        deleteWhile cond (places zsl pre k) fuel zsl suf.head? traversed = some (z, del.length) ∧
        Rep z (pre ++ rest) ∧
        ∀ p ∈ pre ++ rest, (z.nodes p).map Node.core = (zsl.nodes p).map Node.core := by
  induction suf with
  | nil =>
    intro zsl fuel traversed h _ hfuel
    obtain ⟨fuel, rfl⟩ := Nat.exists_eq_add_of_lt hfuel
    exact ⟨[], [], zsl, rfl, rfl, h, fun p _ => rfl⟩
  | cons x suf ih =>
    intro zsl fuel traversed h hk hfuel
    obtain ⟨fuel, rfl⟩ : ∃ m, fuel = m + 1 := ⟨fuel - 1, by omega⟩
    obtain ⟨n, hn⟩ := (h.alloc x).mpr (by simp)
    rw [head?_cons, deleteWhile, hn]
    dsimp only
    cases hcond : cond traversed n with
    | false => exact ⟨[], x :: suf, zsl, rfl, by rw [if_neg Bool.false_ne_true]; rfl, h, fun p _ => rfl⟩
    | true =>
      obtain ⟨z, hdel, hrep, hlevel, hcore⟩ := zslDeleteNode_rep h hk
      obtain ⟨hget, hforward⟩ := h.forward_zero (append_cons pre x suf)
      rw [getLast?_concat] at hget hforward
      obtain ⟨hxpre, hxsuf, -⟩ := notMem_of_nodup h.nodup
      have hne : ∀ p ∈ pre ++ suf, p ≠ x := by
        rintro p hp rfl
        exact (mem_append.mp hp).elim hxpre hxsuf
      have hplaces : places (zslFreeNode z x) pre k = places zsl pre k :=
        places_congr (fun p hp => height_of_core (hcore p (hne p (mem_append_left _ hp)))) k
      obtain ⟨del, rest, w, rfl, hloop, hrep', hcore'⟩ :=
        ih (zslFreeNode z x) fuel (traversed + 1) hrep (hlevel.trans hk) (Nat.lt_of_succ_lt_succ hfuel)
      refine ⟨x :: del, rest, w, rfl, ?_, hrep', fun p hp => ?_⟩
      · rw [if_pos rfl, hget, hdel]
        dsimp only
        rw [hforward, ← hplaces, hloop]
        rfl
      · refine (hcore' p hp).trans (hcore p (hne p ?_))
        simp at hp ⊢
        tauto

/-- **The deletion of a range**: some nodes after those that are skipped go. -/
theorem deleteRange_rep (h : Rep zsl order) (skip cond : ℕ → Node σ α → Bool) :
    ∃ pre del rest z, order = pre ++ (del ++ rest) ∧ deleteRange zsl skip cond = some (z, del.length) ∧
      Rep z (pre ++ rest) ∧
      ∀ p ∈ pre ++ rest, (z.nodes p).map Node.core = (zsl.nodes p).map Node.core := by
  obtain ⟨pre, suf, rfl, hdesc, -, -⟩ := descend_all h (h.skips skip)
  have hfuel : suf.length < zsl.length + 1 := by
    rw [h.length, length_append]
    omega
  obtain ⟨hget, hforward⟩ := h.forward_zero (rfl : pre ++ suf = pre ++ suf)
  obtain ⟨us, hus⟩ : ∃ us, places zsl pre zsl.level = (pre.getLast?, pre.length) :: us :=
    head?_eq_some_iff.mp (h.head?_places rfl h.level.1)
  obtain ⟨del, rest, z, rfl, hloop, hrep, hcore⟩ :=
    deleteWhile_rep cond zsl.level suf zsl (zsl.length + 1) (pre.length + 1) h le_rfl hfuel
  refine ⟨pre, del, rest, z, rfl, ?_, hrep, hcore⟩
  rw [deleteRange, hdesc]
  dsimp only
  rw [hus, firstAfter, hget, map_some, hforward]
  dsimp only
  rw [headD_cons, ← hus]
  exact hloop

section Order
variable [LinearOrder σ] [LinearOrder α]

/-- **`zslDelete`**: one node goes, or none. -/
theorem zslDelete_rep (h : Rep zsl order) (score : σ) (obj : α) :
    (zslDelete zsl score obj = some (zsl, false)) ∨
      ∃ pre x suf n z, order = pre ++ x :: suf ∧ zsl.nodes x = some n ∧ n.score = score ∧
        n.obj = obj ∧ zslDelete zsl score obj = some (z, true) ∧ Rep z (pre ++ suf) ∧
        ∀ p, p ≠ x → (z.nodes p).map Node.core = (zsl.nodes p).map Node.core := by
  obtain ⟨pre, suf, rfl, hdesc, -, -⟩ := descend_all h (h.skips fun _ n => n.before score obj)
  obtain ⟨hget, hforward⟩ := h.forward_zero (rfl : pre ++ suf = pre ++ suf)
  obtain ⟨us, hus⟩ : ∃ us, places zsl pre zsl.level = (pre.getLast?, pre.length) :: us :=
    head?_eq_some_iff.mp (h.head?_places rfl h.level.1)
  rw [zslDelete, hdesc]
  dsimp only
  rw [hus, firstAfter, hget, map_some, hforward]
  cases suf with
  | nil => exact .inl rfl
  | cons x suf =>
    obtain ⟨n, hn⟩ := (h.alloc x).mpr (by simp)
    rw [head?_cons]
    dsimp only
    rw [hn]
    dsimp only
    by_cases heq : score = n.score ∧ n.obj = obj
    · obtain ⟨z, hdel, hrep, -, hcore⟩ := zslDeleteNode_rep h le_rfl
      rw [if_pos heq, ← hus, hdel]
      exact .inr ⟨pre, x, suf, n, _, rfl, hn, heq.1.symm, heq.2, rfl, hrep, hcore⟩
    · rw [if_neg heq]
      exact .inl rfl

end Order

end Deletions

/-! ### Order -/

section Sorted
variable [LinearOrder σ] [LinearOrder α] {zsl z : ZSkipList σ α} {order order' pre suf : List ℕ}

/-- The place of a node in the order. -/
def Node.key (n : Node σ α) : σ ×ₗ α := toLex (n.score, n.obj)

theorem before_iff {n : Node σ α} {score : σ} {obj : α} :
    n.before score obj = true ↔ n.key < toLex (score, obj) := by
  rw [Node.before, decide_eq_true_iff, Node.key, Prod.Lex.toLex_lt_toLex]

theorem isBefore_iff {n : Node σ α} {p : ℕ} (hn : zsl.nodes p = some n) {score : σ} {obj : α} :
    zsl.isBefore score obj p = true ↔ n.key < toLex (score, obj) := by
  rw [ZSkipList.isBefore, hn]
  exact before_iff

/-- `p` is strictly before `q`. -/
def ZSkipList.Lt (zsl : ZSkipList σ α) (p q : ℕ) : Prop :=
  ∀ n m, zsl.nodes p = some n → zsl.nodes q = some m → n.key < m.key

/-- Strictly ordered, with an element in one node only. -/
structure Sorted (zsl : ZSkipList σ α) (order : List ℕ) : Prop where
  strict : order.Pairwise zsl.Lt
  distinct : ∀ p q n m, zsl.nodes p = some n → zsl.nodes q = some m → n.obj = m.obj → p = q

omit [LinearOrder σ] [LinearOrder α] in
theorem key_of_core {p : ℕ} {n : Node σ α}
    (h : (z.nodes p).map Node.core = (zsl.nodes p).map Node.core) (hn : z.nodes p = some n) :
    ∃ m, zsl.nodes p = some m ∧ m.key = n.key ∧ m.obj = n.obj := by
  rw [hn, map_some] at h
  obtain ⟨m, hm, hcore⟩ := map_eq_some_iff.mp h.symm
  have hscore : m.score = n.score := congrArg (fun c => c.1) hcore
  have hobj : m.obj = n.obj := congrArg (fun c => c.2.1) hcore
  exact ⟨m, hm, by rw [Node.key, Node.key, hscore, hobj], hobj⟩

theorem strict_of_core (h : order.Pairwise zsl.Lt)
    (hcore : ∀ p ∈ order, (z.nodes p).map Node.core = (zsl.nodes p).map Node.core) :
    order.Pairwise z.Lt := by
  refine h.imp_of_mem fun {p q} hp hq hlt n m hn hm => ?_
  obtain ⟨n', hn', hkey, -⟩ := key_of_core (hcore p hp) hn
  obtain ⟨m', hm', hkey', -⟩ := key_of_core (hcore q hq) hm
  rw [← hkey, ← hkey']
  exact hlt n' m' hn' hm'

theorem Sorted.sublist (h : Sorted zsl order) (hrep : Rep z order') (hsub : order'.Sublist order)
    (hcore : ∀ p ∈ order', (z.nodes p).map Node.core = (zsl.nodes p).map Node.core) :
    Sorted z order' := by
  refine ⟨strict_of_core (h.strict.sublist hsub) hcore, fun p q n m hn hm hobj => ?_⟩
  obtain ⟨n', hn', -, hobj'⟩ := key_of_core (hcore p ((hrep.alloc p).mp ⟨n, hn⟩)) hn
  obtain ⟨m', hm', -, hobj''⟩ := key_of_core (hcore q ((hrep.alloc q).mp ⟨m, hm⟩)) hm
  exact h.distinct p q n' m' hn' hm' (hobj'.trans (hobj.trans hobj''.symm))

/-- A condition that gets false once along the order. -/
theorem Sorted.splits (h : Sorted zsl (pre ++ suf)) (hrep : Rep zsl (pre ++ suf)) {P : σ ×ₗ α → Prop}
    (hP : ∀ a b, a ≤ b → P b → P a)
    (hlast : ∀ q n, pre.getLast? = some q → zsl.nodes q = some n → P n.key)
    (hhead : ∀ q n, suf.head? = some q → zsl.nodes q = some n → ¬ P n.key) :
    (∀ q ∈ pre, ∀ n, zsl.nodes q = some n → P n.key) ∧
      ∀ q ∈ suf, ∀ n, zsl.nodes q = some n → ¬ P n.key := by
  constructor
  · intro q hq n hn
    rcases eq_nil_or_concat' pre with rfl | ⟨A, y, rfl⟩
    · exact absurd hq not_mem_nil
    · rcases mem_append.mp hq with hqA | hqy
      · obtain ⟨m, hm⟩ := (hrep.alloc y).mpr (by simp)
        have hlt := (pairwise_append.mp (pairwise_append.mp h.strict).1).2.2 q hqA y (by simp)
        exact hP _ _ (hlt n m hn hm).le (hlast y m (by simp) hm)
      · rw [mem_singleton] at hqy
        exact hlast q n (by simp [hqy]) hn
  · intro q hq n hn hPn
    cases suf with
    | nil => exact absurd hq not_mem_nil
    | cons y suf =>
      rcases mem_cons.mp hq with rfl | hq
      · exact hhead q n rfl hn hPn
      · obtain ⟨m, hm⟩ := (hrep.alloc y).mpr (by simp)
        have hlt := (pairwise_cons.mp (pairwise_append.mp h.strict).2.1).1 q hq
        exact hhead y m rfl hm (hP _ _ (hlt m n hm hn).le hPn)

/-- **A new node** in its place. -/
theorem Sorted.insert (h : Sorted zsl (pre ++ suf)) (hrep : Rep zsl (pre ++ suf)) {x level : ℕ}
    {score : σ} {obj : α} (hrep' : Rep z (pre ++ x :: suf))
    (hlast : ∀ q, pre.getLast? = some q → zsl.isBefore score obj q = true)
    (hhead : ∀ q, suf.head? = some q → zsl.isBefore score obj q = false)
    (hx : (z.nodes x).map Node.core = some (score, obj, level))
    (hcore : ∀ p, p ≠ x → (z.nodes p).map Node.core = (zsl.nodes p).map Node.core)
    (hnew : ∀ p n, zsl.nodes p = some n → n.obj ≠ obj) : Sorted z (pre ++ x :: suf) := by
  obtain ⟨nx, hnx, hcx⟩ := map_eq_some_iff.mp hx
  have hscore : nx.score = score := congrArg (fun c => c.1) hcx
  have hobj : nx.obj = obj := congrArg (fun c => c.2.1) hcx
  have hkeyx : nx.key = toLex (score, obj) := by rw [Node.key, hscore, hobj]
  obtain ⟨hxpre, hxsuf, hdisj⟩ := notMem_of_nodup hrep'.nodup
  obtain ⟨hpre, hsuf⟩ := h.splits hrep (P := (· < toLex (score, obj)))
    (fun a b hab hb => hab.trans_lt hb)
    (fun q n hq hn => (isBefore_iff hn).mp (hlast q hq))
    (fun q n hq hn hlt => by
      have := hhead q hq
      rw [(isBefore_iff hn).mpr hlt] at this
      exact nomatch this)
  have hne : ∀ q ∈ pre ++ suf, q ≠ x := by
    rintro q hq rfl
    exact (mem_append.mp hq).elim hxpre hxsuf
  obtain ⟨hstrict, hstrict', hcross⟩ :=
    pairwise_append.mp (strict_of_core h.strict fun q hq => hcore q (hne q hq))
  refine ⟨pairwise_append.mpr ⟨hstrict, pairwise_cons.mpr ⟨fun q hq n m hn hm => ?_, hstrict'⟩,
    fun p hp q hq => ?_⟩, fun p q n m hn hm heq => ?_⟩
  · -- The new node is before what comes after it.
    obtain ⟨m', hm', hkey, hobj'⟩ := key_of_core (hcore q (hne q (mem_append_right _ hq))) hm
    obtain rfl := some.inj (hnx.symm.trans hn)
    rw [hkeyx, ← hkey]
    refine lt_of_le_of_ne (not_lt.mp (hsuf q hq m' hm')) fun h0 => hnew q m' hm' ?_
    exact (congrArg (fun a => (ofLex a).2) h0).symm
  · rcases mem_cons.mp hq with rfl | hq
    · intro n m hn hm
      obtain ⟨n', hn', hkey, -⟩ := key_of_core (hcore p (hne p (mem_append_left _ hp))) hn
      obtain rfl := some.inj (hnx.symm.trans hm)
      rw [hkeyx, ← hkey]
      exact hpre p hp n' hn'
    · exact hcross p hp q hq
  · -- The element is in no other node.
    by_cases hp : p = x
    · by_cases hq : q = x
      · rw [hp, hq]
      · obtain ⟨m', hm', -, hobj'⟩ := key_of_core (hcore q hq) hm
        obtain rfl := some.inj (hnx.symm.trans (hp ▸ hn))
        exact absurd (hobj'.trans (heq.symm.trans hobj)) (hnew q m' hm')
    · obtain ⟨n', hn', -, hobj'⟩ := key_of_core (hcore p hp) hn
      by_cases hq : q = x
      · obtain rfl := some.inj (hnx.symm.trans (hq ▸ hm))
        exact absurd (hobj'.trans (heq.trans hobj)) (hnew p n' hn')
      · obtain ⟨m', hm', -, hobj''⟩ := key_of_core (hcore q hq) hm
        exact h.distinct p q n' m' hn' hm' (hobj'.trans (heq.trans hobj''.symm))

end Sorted

/-! ### Ranks -/

section Ranks
variable {zsl : ZSkipList σ α} {order pre suf : List ℕ}

theorem search_places (h : Rep zsl order) (hsplit : order = pre ++ suf)
    {skip : ℕ → Node σ α → Bool} (hdesc : descend zsl skip zsl.level none 0 =
      some (places zsl pre zsl.level)) {stop : Option ℕ → ℕ → Bool}
    (hstop : stop pre.getLast? pre.length = true)
    (honly : ∀ P, P <+: pre → stop P.getLast? P.length = true → P = pre) :
    search zsl skip stop zsl.level none 0 = some (some (pre.getLast?, pre.length)) := by
  rw [search_eq stop zsl.level hdesc]
  have hmem : (pre.getLast?, pre.length) ∈ (places zsl pre zsl.level).reverse :=
    mem_reverse.mpr (mem_of_head? (h.head?_places hsplit h.level.1))
  cases hfind : (places zsl pre zsl.level).reverse.find? fun u => stop u.1 u.2 with
  | none => exact absurd hstop (find?_eq_none.mp hfind _ hmem)
  | some u =>
    obtain ⟨j, -, rfl⟩ := List.mem_map.mp (mem_reverse.mp (List.mem_of_find?_eq_some hfind))
    have hyes := find?_some hfind
    rw [honly _ (isPrefix_front _ _) hyes]

theorem search_none {skip : ℕ → Node σ α → Bool} (hdesc : descend zsl skip zsl.level none 0 =
      some (places zsl pre zsl.level)) {stop : Option ℕ → ℕ → Bool}
    (hstop : ∀ P, P <+: pre → stop P.getLast? P.length = false) :
    search zsl skip stop zsl.level none 0 = some none := by
  rw [search_eq stop zsl.level hdesc, find?_eq_none.mpr fun u hu => ?_]
  obtain ⟨j, -, rfl⟩ := List.mem_map.mp (mem_reverse.mp hu)
  dsimp only
  rw [hstop _ (isPrefix_front _ _)]
  exact Bool.false_ne_true

theorem descend_rank (h : Rep zsl order) (r : ℕ) :
    descend zsl (fun traversed _ => traversed ≤ r) zsl.level none 0 =
      some (places zsl (order.take r) zsl.level) := by
  obtain ⟨P, S, hPS, hdesc, hlast, hhead⟩ := descend_all h (h.skips fun traversed _ => traversed ≤ r)
  have hrank : ∀ {A q B}, order = A ++ q :: B →
      zsl.skips order (fun traversed _ => traversed ≤ r) q = decide (A.length + 1 ≤ r) := by
    intro A q B hsplit
    obtain ⟨n, hn⟩ := (h.alloc q).mpr (by simp [hsplit])
    exact (h.skips (fun traversed _ => decide (traversed ≤ r)) A q B n hsplit hn).symm
  have hle : P.length ≤ r := by
    rcases eq_nil_or_concat' P with rfl | ⟨A, q, rfl⟩
    · exact Nat.zero_le r
    · have hq := hlast q getLast?_concat
      rw [hrank (hPS.trans (append_cons A q S).symm), decide_eq_true_iff] at hq
      rwa [length_append, length_singleton]
  have htake : order.take r = P := by
    cases S with
    | nil =>
      rw [append_nil] at hPS
      rw [hPS, take_of_length_le hle]
    | cons q S =>
      have hq := hhead q rfl
      rw [hrank hPS, decide_eq_false_iff_not] at hq
      rw [hPS]
      exact take_left' (by omega)
  rw [htake, hdesc]

/-- **`zslGetElementByRank`** of a rank in the list. -/
theorem zslGetElementByRank_eq (h : Rep zsl order) {p : ℕ} (hsplit : order = pre ++ p :: suf) :
    zslGetElementByRank zsl (pre.length + 1) = some (some (some p)) := by
  have hP : order.take (pre.length + 1) = pre ++ [p] := by
    rw [hsplit, append_cons]
    exact take_left' (by simp)
  have hdesc := descend_rank h (pre.length + 1)
  rw [hP] at hdesc
  rw [zslGetElementByRank, search_places h (hsplit.trans (append_cons _ _ _)) hdesc]
  · rw [getLast?_concat]
    rfl
  · simp
  · rintro Q hQ hlen
    refine hQ.eq_of_length ?_
    rw [length_append, length_singleton]
    exact beq_iff_eq.mp hlen

/-- **`zslGetElementByRank`** past the end. -/
theorem zslGetElementByRank_none (h : Rep zsl order) {r : ℕ} (hr : order.length < r) :
    zslGetElementByRank zsl r = some none := by
  have hdesc := descend_rank h r
  rw [take_of_length_le hr.le] at hdesc
  rw [zslGetElementByRank, search_none hdesc]
  · rfl
  · intro Q hQ
    have := hQ.length_le
    simp
    omega

section Order
variable [LinearOrder σ] [LinearOrder α]

/-- **`zslGetRank`** of an element in the list. -/
theorem zslGetRank_eq (h : Rep zsl order) (hs : Sorted zsl order) {p : ℕ} {n : Node σ α}
    (hsplit : order = pre ++ p :: suf) (hn : zsl.nodes p = some n) :
    zslGetRank zsl n.score n.obj = some (pre.length + 1) := by
  obtain ⟨P, S, hPS, hdesc, hlast, hhead⟩ :=
    descend_all h (h.skips fun _ m => decide (m.score < n.score ∨ (m.score = n.score ∧ m.obj ≤ n.obj)))
  have hkey : ∀ {q m}, zsl.nodes q = some m →
      (zsl.skips order (fun _ m => decide (m.score < n.score ∨ (m.score = n.score ∧ m.obj ≤ n.obj))) q
        = true ↔ m.key ≤ n.key) := by
    intro q m hm
    rw [skips_eq hm, decide_eq_true_iff, Node.key, Node.key, Prod.Lex.toLex_le_toLex]
  obtain ⟨hP, hS⟩ := (hPS ▸ hs).splits (hPS ▸ h) (P := (· ≤ n.key)) (fun a b hab hb => hab.trans hb)
    (fun q m hq hm => (hkey hm).mp (hlast q hq))
    (fun q m hq hm hle => by
      have := hhead q hq
      rw [(hkey hm).mpr hle] at this
      cases this)
  -- The search passes the element and nothing after it.
  have hpP : p ∈ P := by
    have hp : p ∈ P ++ S := by rw [← hPS, hsplit]; simp
    exact (mem_append.mp hp).resolve_right fun hpS => hS p hpS n hn le_rfl
  have hP' : P = pre ++ [p] := by
    rcases split_cases (hsplit.symm.trans hPS) with ⟨m, -, hSm⟩ | ⟨hP', -⟩ | ⟨m, hm, hsuf, hPm⟩
    · exact absurd le_rfl (hS p (by simp [hSm]) n hn)
    · exact hP'
    · obtain ⟨q, hq⟩ := exists_mem_of_ne_nil m hm
      obtain ⟨m', hm'⟩ := (h.alloc q).mpr (by simp [hsplit, hsuf, hq])
      have hstrict := hs.strict
      rw [hsplit] at hstrict
      have hlt := (pairwise_cons.mp (pairwise_append.mp hstrict).2.1).1 q (by simp [hsuf, hq])
      exact absurd (hP q (by simp [hPm, hq]) m' hm') (not_le.mpr (hlt n m' hn hm'))
  have hlastP : P.getLast? = some p := by rw [hP', getLast?_concat]
  have hrank : P.length = pre.length + 1 := by rw [hP', length_append, length_singleton]
  rw [zslGetRank, search_places h hPS hdesc, ← hrank]
  · rfl
  · rw [hlastP, ZSkipList.hasObj, hn]
    exact decide_eq_true rfl
  · rintro Q ⟨t, ht⟩ hQ
    cases hQlast : Q.getLast? with
    | none =>
      rw [hQlast] at hQ
      cases hQ
    | some q =>
      rw [hQlast, ZSkipList.hasObj] at hQ
      cases hq : zsl.nodes q with
      | none =>
        rw [hq] at hQ
        cases hQ
      | some m =>
        rw [hq] at hQ
        obtain rfl := hs.distinct q p m n hq hn (of_decide_eq_true hQ)
        have hd : P.Nodup := h.nodup.sublist (hPS ▸ sublist_append_left P S)
        exact eq_of_getLast? hd ht.symm (append_nil P).symm (hQlast.trans hlastP.symm)

/-- **`zslGetRank`** of an element that is not in the list. -/
theorem zslGetRank_absent (h : Rep zsl order) (score : σ) {obj : α}
    (hobj : ∀ p n, zsl.nodes p = some n → n.obj ≠ obj) : zslGetRank zsl score obj = some 0 := by
  obtain ⟨P, S, -, hdesc, -, -⟩ :=
    descend_all h (h.skips fun _ m => decide (m.score < score ∨ (m.score = score ∧ m.obj ≤ obj)))
  rw [zslGetRank, search_none hdesc]
  · rfl
  · intro Q _
    cases Q.getLast? with
    | none => rfl
    | some q =>
      rw [ZSkipList.hasObj]
      cases hq : zsl.nodes q with
      | none => rfl
      | some m => exact decide_eq_false (hobj q m hq)

end Order

end Ranks

/-! ### Runs -/

section Runs
variable [LinearOrder σ] [LinearOrder α] {zsl : ZSkipList σ α} {order : List ℕ}

/-- A change of a sorted set. -/
inductive Op (σ α : Type*) where
  | insert (score : σ) (obj : α) (level addr : ℕ)
  | delete (score : σ) (obj : α)
  | deleteRangeByScore (range : ZRangeSpec σ)
  | deleteRangeByLex (range : ZLexRangeSpec α)
  | deleteRangeByRank (start last : ℕ)

/-- What an operation does to the skip list. -/
def Op.apply (zsl : ZSkipList σ α) : Op σ α → Option (ZSkipList σ α)
  | .insert score obj level addr => zslInsert zsl score obj level addr
  | .delete score obj => (zslDelete zsl score obj).map Prod.fst
  | .deleteRangeByScore range => (zslDeleteRangeByScore zsl range).map Prod.fst
  | .deleteRangeByLex range => (zslDeleteRangeByLex zsl range).map Prod.fst
  | .deleteRangeByRank start last => (zslDeleteRangeByRank zsl start last).map Prod.fst

/-- An element that is inserted is not there, its level is one that `zslRandomLevel` returns, and its
address is not in use. -/
def Op.Allowed (zsl : ZSkipList σ α) : Op σ α → Prop
  | .insert _ obj level addr =>
    (∀ p n, zsl.nodes p = some n → n.obj ≠ obj) ∧ 1 ≤ level ∧ level ≤ zskiplistMaxlevel ∧
      zsl.nodes addr = none
  | _ => True

/-- A sequence of operations. -/
def run : ZSkipList σ α → List (Op σ α) → Option (ZSkipList σ α)
  | zsl, [] => some zsl
  | zsl, op :: ops =>
    match op.apply zsl with
    | none => none
    | some zsl => run zsl ops

/-- Every operation is allowed where it comes. -/
def Feasible : ZSkipList σ α → List (Op σ α) → Prop
  | _, [] => True
  | zsl, op :: ops => op.Allowed zsl ∧ ∀ zsl', op.apply zsl = some zsl' → Feasible zsl' ops

/-- Ranks, levels and pointers are those of the order of the nodes. -/
structure Exact (zsl : ZSkipList σ α) (order : List ℕ) : Prop where
  nodup : order.Nodup
  nodes : ∀ p, (∃ n, zsl.nodes p = some n) ↔ p ∈ order
  strict : order.Pairwise zsl.Lt
  levels : ∀ i < zskiplistMaxlevel, Follows (zsl.links · i) none (order.filter (zsl.tall i))
  spans : ∀ i < zsl.level, ∀ pre suf, order = pre ++ suf → Stops (zsl.tall i) pre →
    (zsl.links pre.getLast? i).span =
      match (zsl.links pre.getLast? i).forward with
      | none => suf.length
      | some q => suf.idxOf q + 1
  backward : Backward zsl order
  tail : zsl.tail = order.getLast?
  length : zsl.length = order.length
  rank : ∀ pre p suf n, order = pre ++ p :: suf → zsl.nodes p = some n →
    zslGetRank zsl n.score n.obj = some (pre.length + 1) ∧
      zslGetElementByRank zsl (pre.length + 1) = some (some (some p))
  absent : ∀ score obj, (∀ p n, zsl.nodes p = some n → n.obj ≠ obj) →
    zslGetRank zsl score obj = some 0
  past : ∀ r, order.length < r → zslGetElementByRank zsl r = some none

theorem Rep.exact (h : Rep zsl order) (hs : Sorted zsl order) : Exact zsl order := by
  refine ⟨h.nodup, h.alloc, hs.strict, fun i hi => ?_, fun i hi pre suf hsplit hpre => ?_, h.backward,
    h.tail, h.length, fun pre p suf n hsplit hn =>
      ⟨zslGetRank_eq h hs hsplit hn, zslGetElementByRank_eq h hsplit⟩,
    fun score _ hobj => zslGetRank_absent h score hobj, fun _ hr => zslGetElementByRank_none h hr⟩
  · by_cases hl : i < zsl.level
    · exact (h.columns i hl).follows
    · have hnil : order.filter (zsl.tall i) = [] := by
        rw [filter_eq_nil_iff]
        intro p hp ht
        exact hl ((tall_iff.mp ht).trans_le (h.heights p hp).2)
      rw [hnil]
      exact h.closed i (Nat.not_lt.mp hl) hi
  · have hlink := h.columns i hi pre suf hsplit hpre
    dsimp only at hlink
    rw [hlink, link]
    dsimp only
    rw [gap_eq]
    cases suf.find? (zsl.tall i) with
    | none => rfl
    | some q => rfl

omit [LinearOrder σ] [LinearOrder α] in
theorem rep_zslCreate : Rep (zslCreate : ZSkipList σ α) [] := by
  refine ⟨nodup_nil, fun p => ?_, fun p hp => absurd hp not_mem_nil, ⟨le_rfl, show 1 ≤ 32 by decide⟩,
    fun i _ pre suf hsplit _ => ?_, fun _ _ _ => rfl, rfl, rfl, fun pre p suf hsplit => ?_⟩
  · exact ⟨(fun ⟨_, hn⟩ => nomatch hn), fun hp => absurd hp not_mem_nil⟩
  · obtain ⟨rfl, rfl⟩ := append_eq_nil_iff.mp hsplit.symm
    rfl
  · exact absurd hsplit.symm (by simp)

theorem sorted_zslCreate : Sorted (zslCreate : ZSkipList σ α) [] :=
  ⟨.nil, fun _ _ _ _ hn => nomatch hn⟩

theorem deleteRange_inv (h : Rep zsl order) (hs : Sorted zsl order) (skip cond : ℕ → Node σ α → Bool) :
    ∃ zsl' order', (deleteRange zsl skip cond).map Prod.fst = some zsl' ∧ Rep zsl' order' ∧
      Sorted zsl' order' := by
  obtain ⟨pre, del, rest, z, rfl, hdel, hrep, hcore⟩ := deleteRange_rep h skip cond
  refine ⟨z, pre ++ rest, by rw [hdel]; rfl, hrep, hs.sublist hrep ?_ hcore⟩
  exact (Sublist.refl pre).append (sublist_append_right del rest)

/-- **One operation** keeps the list well formed and sorted. -/
theorem apply_inv (h : Rep zsl order) (hs : Sorted zsl order) (op : Op σ α) (hop : op.Allowed zsl) :
    ∃ zsl' order', op.apply zsl = some zsl' ∧ Rep zsl' order' ∧ Sorted zsl' order' := by
  cases op with
  | insert score obj level addr =>
    obtain ⟨hnew, hl, hl', haddr⟩ := hop
    have hx : addr ∉ order := by
      intro hmem
      obtain ⟨n, hn⟩ := (h.alloc addr).mpr hmem
      rw [haddr] at hn
      exact nomatch hn
    obtain ⟨pre, suf, z, rfl, hins, hrep, hlast, hhead, hcorex, hcore⟩ :=
      zslInsert_rep h hl hl' hx score obj
    exact ⟨z, _, hins, hrep, hs.insert h hrep hlast hhead hcorex hcore hnew⟩
  | delete score obj =>
    rcases zslDelete_rep h score obj with hnot | ⟨pre, x, suf, n, z, rfl, -, -, -, hdel, hrep, hcore⟩
    · exact ⟨zsl, order, by rw [Op.apply, hnot]; rfl, h, hs⟩
    · obtain ⟨hxpre, hxsuf, -⟩ := notMem_of_nodup h.nodup
      refine ⟨z, _, by rw [Op.apply, hdel]; rfl, hrep, hs.sublist hrep ?_ fun p hp => hcore p ?_⟩
      · exact (Sublist.refl pre).append (sublist_cons_self x suf)
      · rintro rfl
        exact (mem_append.mp hp).elim hxpre hxsuf
  | deleteRangeByScore range => exact deleteRange_inv h hs _ _
  | deleteRangeByLex range => exact deleteRange_inv h hs _ _
  | deleteRangeByRank start last => exact deleteRange_inv h hs _ _

theorem run_inv (ops : List (Op σ α)) : ∀ {zsl : ZSkipList σ α} {order : List ℕ}, Rep zsl order →
    Sorted zsl order → Feasible zsl ops →
    ∃ zsl' order', run zsl ops = some zsl' ∧ Rep zsl' order' ∧ Sorted zsl' order' := by
  induction ops with
  | nil => exact fun {zsl order} h hs _ => ⟨zsl, order, rfl, h, hs⟩
  | cons op ops ih =>
    intro zsl order h hs hf
    obtain ⟨z, order₁, hz, hrep, hsorted⟩ := apply_inv h hs op hf.1
    obtain ⟨zsl', order', hrun, hrep', hsorted'⟩ := ih hrep hsorted (hf.2 z hz)
    refine ⟨zsl', order', ?_, hrep', hsorted'⟩
    rw [run, hz]
    exact hrun

/-- **A skip list stays exact**: no run of operations fails, and after each the order is strict, every
level is the list of its tall nodes, the spans count its steps, and ranks and elements are inverse. -/
theorem skiplist_run (ops : List (Op σ α)) (h : Feasible zslCreate ops) :
    ∃ zsl order, run zslCreate ops = some zsl ∧ Exact zsl order := by
  obtain ⟨zsl, order, hrun, hrep, hs⟩ := run_inv ops rep_zslCreate sorted_zslCreate h
  exact ⟨zsl, order, hrun, hrep.exact hs⟩

/-- Three elements, one of them deleted. -/
def someOps : List (Op ℕ ℕ) :=
  [.insert 5 1 2 10, .insert 3 2 1 11, .insert 4 3 3 12, .deleteRangeByRank 1 1]

theorem insert_nodes (h : Rep zsl order) {score : σ} {obj : α} {level addr : ℕ}
    (hop : (Op.insert score obj level addr).Allowed zsl) {z : ZSkipList σ α}
    (hz : zslInsert zsl score obj level addr = some z) :
    (∃ order', Rep z order') ∧
      ∀ p n, z.nodes p = some n → (p = addr ∧ n.obj = obj) ∨ ∃ m, zsl.nodes p = some m ∧ m.obj = n.obj := by
  obtain ⟨-, hl, hl', haddr⟩ := hop
  have hx : addr ∉ order := by
    intro hmem
    obtain ⟨n, hn⟩ := (h.alloc addr).mpr hmem
    rw [haddr] at hn
    exact nomatch hn
  obtain ⟨pre, suf, z', -, hins, hrep, -, -, hcorex, hcore⟩ := zslInsert_rep h hl hl' hx score obj
  obtain rfl := some.inj (hins.symm.trans hz)
  refine ⟨⟨_, hrep⟩, fun p n hn => ?_⟩
  by_cases hp : p = addr
  · rw [← hp, hn, map_some] at hcorex
    exact .inl ⟨hp, congrArg (fun c => c.2.1) (some.inj hcorex)⟩
  · obtain ⟨m, hm, -, hobj⟩ := key_of_core (hcore p hp) hn
    exact .inr ⟨m, hm, hobj⟩

theorem someOps_feasible : Feasible zslCreate someOps := by
  have hop₁ : (Op.insert 5 1 2 10 : Op ℕ ℕ).Allowed zslCreate :=
    ⟨(fun _ _ hn => nomatch hn), by decide, by decide, rfl⟩
  refine ⟨hop₁, fun z₁ hz₁ => ?_⟩
  obtain ⟨⟨order₁, h₁⟩, hnodes₁⟩ := insert_nodes rep_zslCreate hop₁ hz₁
  have hall₁ : ∀ p n, z₁.nodes p = some n → p = 10 ∧ n.obj = 1 := fun p n hn =>
    (hnodes₁ p n hn).resolve_right (fun ⟨_, hm, _⟩ => nomatch hm)
  have hop₂ : (Op.insert 3 2 1 11).Allowed z₁ := by
    refine ⟨fun p n hn => ?_, by decide, by decide, eq_none_iff_forall_ne_some.mpr fun n hn => ?_⟩
    · rw [(hall₁ p n hn).2]
      decide
    · exact absurd (hall₁ 11 n hn).1 (by decide)
  refine ⟨hop₂, fun z₂ hz₂ => ?_⟩
  obtain ⟨-, hnodes₂⟩ := insert_nodes h₁ hop₂ hz₂
  have hall₂ : ∀ p n, z₂.nodes p = some n → (p = 11 ∧ n.obj = 2) ∨ (p = 10 ∧ n.obj = 1) := by
    intro p n hn
    rcases hnodes₂ p n hn with hnew | ⟨m, hm, hobj⟩
    · exact .inl hnew
    · exact .inr (hobj ▸ hall₁ p m hm)
  have hop₃ : (Op.insert 4 3 3 12).Allowed z₂ := by
    refine ⟨fun p n hn => ?_, by decide, by decide, eq_none_iff_forall_ne_some.mpr fun n hn => ?_⟩
    · rcases hall₂ p n hn with ⟨-, hobj⟩ | ⟨-, hobj⟩ <;> rw [hobj] <;> decide
    · rcases hall₂ 12 n hn with ⟨hp, -⟩ | ⟨hp, -⟩ <;> exact absurd hp (by decide)
  exact ⟨hop₃, fun z₃ _ => ⟨trivial, fun z₄ _ => trivial⟩⟩

theorem skiplist_run_three : ∃ zsl order, run zslCreate someOps = some zsl ∧ Exact zsl order :=
  skiplist_run someOps someOps_feasible

end Runs

end SourceLibs.RedisSkiplist
