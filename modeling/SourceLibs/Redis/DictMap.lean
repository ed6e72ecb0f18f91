import SourceLibs.Redis.Dict
import SourceLibs.Support.Buckets
import Mathlib.Algebra.Order.Ring.Nat
import Mathlib.Data.List.Perm.Basic

/-!
# Redis — the dict is a finite map

In which buckets an entry may be depends on its hash and the sizes of the tables only, so a search looks
at one bucket of each table.  Whatever moves between the tables, the entries of both stay the same up to
their order, and what is known of a dict is said of this list.

* `dictRehash_spec`, `dictExpand_spec`: the entries stay.
* `dictAdd_spec`, `dictReplace_spec`, `dictDelete_spec`, `dictFind_spec`.
* `dict_run`: a dict is a finite map in every run, and nothing is read past a table.
-/

namespace SourceLibs.RedisDict
open List Option Bool Buckets

variable {K V : Type*} {hash : K → ℕ} {eq : K → K → Bool} {d : Dict K V} {t : Dictht K V}
  {m : K → Option V} {b : List (K × V)}

/-- The key comparison is an equality that the hash function respects. -/
structure KeyEq (hash : K → ℕ) (eq : K → K → Bool) : Prop where
  refl : ∀ a, eq a a = true
  symm : ∀ {a b}, eq a b = true → eq b a = true
  trans : ∀ {a b c}, eq a b = true → eq b c = true → eq a c = true
  hash : ∀ {a b}, eq a b = true → hash a = hash b

theorem keyEq_beq [BEq K] [LawfulBEq K] (hash : K → ℕ) : KeyEq hash fun a b => a == b :=
  ⟨fun _ => BEq.rfl, fun h => BEq.symm h, fun h h' => BEq.trans h h',
    fun h => congrArg hash (eq_of_beq h)⟩

/-! ### One table -/

/-- An allocated table. -/
structure Table (hash : K → ℕ) (t : Dictht K V) : Prop where
  alloc : (∃ n ≤ 63, t.size = 2 ^ n) ∨ t.size = longMax
  mask : t.sizemask = t.size - 1
  length : t.table.length = t.size
  used : t.used = t.table.flatten.length
  filed : Filed (fun e => hash e.1 &&& t.sizemask) t.table

section Table
variable {t : Dictht K V}

theorem Table.pos (h : Table hash t) : 0 < t.size := by
  rcases h.alloc with ⟨n, -, hn⟩ | hn
  · rw [hn]
    exact Nat.two_pow_pos n
  · rw [hn]
    decide

theorem Table.bucket (h : Table hash t) (key : K) :
    ∃ b, t.table[hash key &&& t.sizemask]? = some b := by
  have hlt : hash key &&& t.sizemask < t.table.length := by
    have hle : hash key &&& t.sizemask ≤ t.sizemask := Nat.and_le_right
    have := h.pos
    have := h.mask
    have := h.length
    omega
  exact ⟨_, List.getElem?_eq_getElem hlt⟩

theorem Table.set (h : Table hash t) {i u : ℕ} {b c : List (K × V)}
    (hb : t.table[i]? = some b) (hplace : ∀ e ∈ c, hash e.1 &&& t.sizemask = i)
    (hu : u + b.length = t.used + c.length) :
    Table hash { t with table := t.table.set i c, used := u } ∧
      ∃ rest, t.table.flatten.Perm (b ++ rest) ∧
        (t.table.set i c).flatten.Perm (c ++ rest) := by
  obtain ⟨rest, hperm, hset⟩ := exists_perm_set hb
  refine ⟨⟨h.alloc, h.mask, by rw [length_set, h.length], ?_, h.filed.set hplace⟩,
    rest, hperm, hset c⟩
  have hlen := hperm.length_eq
  have hlen' := (hset c).length_eq
  rw [length_append] at hlen hlen'
  change u = (t.table.set i c).flatten.length
  rw [hlen']
  have := h.used
  omega

theorem table_new {n : ℕ} (hn : (∃ k ≤ 63, n = 2 ^ k) ∨ n = longMax) :
    Table hash (⟨List.replicate n [], n, n - 1, 0⟩ : Dictht K V) :=
  ⟨hn, rfl, length_replicate, by simp, Filed.replicate _⟩

theorem Table.used_eq_zero_iff (h : Table hash t) : t.used = 0 ↔ t.table.flatten = [] := by
  rw [h.used, length_eq_zero_iff]

/-- An entry is put in front of the bucket of its key. -/
theorem Table.push (h : Table hash t) {e : K × V} {b : List (K × V)}
    (hb : t.table[hash e.1 &&& t.sizemask]? = some b) :
    Table hash { t with
        table := t.table.set (hash e.1 &&& t.sizemask) (e :: b), used := t.used + 1 } ∧
      (t.table.set (hash e.1 &&& t.sizemask) (e :: b)).flatten.Perm (e :: t.table.flatten) := by
  obtain ⟨hset, rest, hperm, hperm'⟩ := h.set (u := t.used + 1) (c := e :: b) hb
    (forall_mem_cons.mpr ⟨rfl, h.filed _ b hb⟩) (by rw [length_cons]; omega)
  exact ⟨hset, hperm'.trans (hperm.symm.cons e)⟩

/-- **A search** finds the key in its bucket, or the key is nowhere in the table. -/
theorem Table.search (h : Table hash t) (hk : KeyEq hash eq) (key : K) :
    (∃ b pos e, t.table[hash key &&& t.sizemask]? = some b ∧ b[pos]? = some e ∧
      eq key e.1 = true ∧ searchTable hash eq t key = some (hash key &&& t.sizemask, some pos)) ∨
    (searchTable hash eq t key = some (hash key &&& t.sizemask, none) ∧
      ∀ e ∈ t.table.flatten, eq key e.1 = false) := by
  obtain ⟨b, hb⟩ := h.bucket key
  cases hpos : b.findIdx? (fun e => eq key e.1) with
  | some pos =>
    obtain ⟨hlt, heq, -⟩ := findIdx?_eq_some_iff_getElem.mp hpos
    refine .inl ⟨b, pos, b[pos], hb, List.getElem?_eq_getElem hlt, heq, ?_⟩
    simp only [searchTable, hb, hpos]
  | none =>
    refine .inr ⟨by simp only [searchTable, hb, hpos], fun e he => ?_⟩
    by_contra heq
    have heq : eq key e.1 = true := by simpa using heq
    have hmem : e ∈ b := by
      refine (h.filed.mem_flatten_iff (e := e) ?_).mp he
      rw [← hk.hash heq]
      exact hb
    have := findIdx?_eq_none_iff.mp hpos e hmem
    rw [heq] at this
    exact absurd this (by decide)

end Table

/-! ### A dict -/

/-- The entries of both tables. -/
def entries (d : Dict K V) : List (K × V) := d.ht0.table.flatten ++ d.ht1.table.flatten

/-- A dict while it is rehashed: the buckets below `r` were moved. -/
structure Rehashing (hash : K → ℕ) (d : Dict K V) (r : ℕ) : Prop where
  first : Table hash d.ht0
  second : Table hash d.ht1
  idx : d.rehashidx = r
  below : ∀ i < r, ∀ b, d.ht0.table[i]? = some b → b = []

/-- The tables are of the sizes they had. -/
def SameSizes (d d' : Dict K V) : Prop := d'.ht0.size = d.ht0.size ∧ d'.ht1.size = d.ht1.size

/-- The three kinds of state. -/
inductive Phase (hash : K → ℕ) (d : Dict K V) : Prop where
  | empty (h0 : d.ht0 = dictReset) (h1 : d.ht1 = dictReset) (hr : d.rehashidx = -1)
  | settled (h0 : Table hash d.ht0) (h1 : d.ht1 = dictReset) (hr : d.rehashidx = -1)
  | rehashing {r : ℕ} (h : Rehashing hash d r)

theorem Rehashing.isRehashing {r : ℕ} (h : Rehashing hash d r) : dictIsRehashing d = true := by
  rw [dictIsRehashing, h.idx]
  simp

/-- **There is a bucket to move** while `ht[0]` has entries. -/
theorem Rehashing.exists_bucket {r : ℕ} (h : Rehashing hash d r) (hu : d.ht0.used ≠ 0) :
    ∃ i b, r ≤ i ∧ i < d.ht0.size ∧ d.ht0.table[i]? = some b ∧ b ≠ [] := by
  obtain ⟨i, b, hb, hne⟩ := exists_ne_nil (mt h.first.used_eq_zero_iff.mpr hu)
  refine ⟨i, b, ?_, ?_, hb, hne⟩
  · by_contra hlt
    exact hne (h.below i (by omega) b hb)
  · rw [← h.first.length]
    exact (List.getElem?_eq_some_iff.mp hb).1

/-! ### Rehashing -/

theorem skipEmpty_spec {table : List (List (K × V))} {j : ℕ} (hj : table[j]? = some b)
    (hb : b ≠ []) :
    ∀ (fuel idx : ℕ) (e : ℤ), idx ≤ j → j < idx + fuel →
      ∃ idx' e' stop, skipEmpty table fuel idx e = some (idx', e', stop) ∧ idx ≤ idx' ∧ idx' ≤ j ∧
        (∀ i, idx ≤ i → i < idx' → table[i]? = some []) ∧
        (stop = false → ∃ b', table[idx']? = some b' ∧ b' ≠ []) := by
  intro fuel
  induction fuel with
  | zero => exact fun idx e hle hlt => absurd hlt (by omega)
  | succ fuel ih =>
    intro idx e hle hlt
    have hlen : idx < table.length := by
      have := (List.getElem?_eq_some_iff.mp hj).1
      omega
    cases hbucket : table[idx] with
    | cons de des =>
      have hget : table[idx]? = some (de :: des) := by
        rw [List.getElem?_eq_getElem hlen, hbucket]
      exact ⟨idx, e, false, by simp only [skipEmpty, hget], le_rfl, hle, fun i h1 h2 => by omega,
        fun _ => ⟨_, hget, cons_ne_nil _ _⟩⟩
    | nil =>
      have hget : table[idx]? = some [] := by rw [List.getElem?_eq_getElem hlen, hbucket]
      have hne : idx ≠ j := by
        rintro rfl
        rw [hget] at hj
        exact hb (some.inj hj).symm
      have hskip : ∀ i, idx ≤ i → i < idx + 1 → table[i]? = some [] := fun i h1 h2 => by
        rw [show i = idx by omega, hget]
      by_cases hstop : e - 1 = 0
      · exact ⟨idx + 1, e - 1, true, by simp only [skipEmpty, hget, hstop, if_true],
          Nat.le_succ idx, by omega, hskip, (nomatch ·)⟩
      · obtain ⟨idx', e', stop, hs, h1, h2, h3, h4⟩ :=
          ih (idx + 1) (e - 1) (by omega) (by omega)
        refine ⟨idx', e', stop, by simp only [skipEmpty, hget, hstop, if_false, hs], by omega, h2,
          fun i hi hi' => ?_, h4⟩
        rcases Nat.lt_or_ge i (idx + 1) with hlt' | hge
        · exact hskip i hi hlt'
        · exact h3 i hge hi'

theorem moveEntries_spec (des : List (K × V)) :
    ∀ {d : Dict K V}, Table hash d.ht1 → ∃ t, Table hash t ∧ t.size = d.ht1.size ∧
      moveEntries hash d des = some { d with
        ht0 := { d.ht0 with used := d.ht0.used - des.length }, ht1 := t } ∧
      t.table.flatten.Perm (des ++ d.ht1.table.flatten) := by
  induction des with
  | nil => exact fun h => ⟨_, h, rfl, rfl, List.Perm.refl _⟩
  | cons de des ih =>
    intro d h
    obtain ⟨b, hb⟩ := h.bucket de.1
    obtain ⟨ht, hperm⟩ := h.push hb
    obtain ⟨t, ht', hsize, hmove, hperm'⟩ := ih (d := { d with
      ht0 := { d.ht0 with used := d.ht0.used - 1 }
      ht1 := { d.ht1 with
        table := d.ht1.table.set (hash de.1 &&& d.ht1.sizemask) (de :: b)
        used := d.ht1.used + 1 } }) ht
    refine ⟨t, ht', hsize, ?_, hperm'.trans ?_⟩
    · rw [moveEntries, moveEntry]
      simp only [hb, hmove, length_cons, some.injEq]
      rw [Nat.sub_sub, Nat.add_comm 1]
    · exact (hperm.append_left des).trans perm_middle

theorem moveBucket_spec {r idx : ℕ} (h : Rehashing hash d r)
    (hskip : ∀ i, r ≤ i → i < idx → d.ht0.table[i]? = some []) (hb : d.ht0.table[idx]? = some b) :
    ∃ d', moveBucket hash d idx = some d' ∧ Rehashing hash d' (idx + 1) ∧
      (entries d').Perm (entries d) ∧ SameSizes d d' ∧ d'.ht0.used + b.length = d.ht0.used := by
  obtain ⟨t, ht, hsize, hmove, hperm⟩ := moveEntries_spec b h.second
  have hlen : b.length ≤ d.ht0.used := by
    obtain ⟨rest, hp, -⟩ := exists_perm_set hb
    rw [h.first.used, hp.length_eq, length_append]
    omega
  obtain ⟨hset, rest, hp, hp'⟩ := h.first.set (u := d.ht0.used - b.length) (c := []) hb
    (by simp) (by rw [length_nil]; omega)
  refine ⟨{ d with
    ht0 := { d.ht0 with table := d.ht0.table.set idx [], used := d.ht0.used - b.length }
    ht1 := t
    rehashidx := idx + 1 }, by simp only [moveBucket, hb, hmove], ⟨hset, ht, rfl, ?_⟩, ?_,
    ⟨rfl, hsize⟩, ?_⟩
  · intro i hi b' hb'
    change (d.ht0.table.set idx [])[i]? = some b' at hb'
    rw [List.getElem?_set] at hb'
    split at hb'
    · split at hb'
      · exact (some.inj hb').symm
      · exact absurd hb' (by simp)
    · next hne =>
        rcases Nat.lt_or_ge i r with hlt | hge
        · exact h.below i hlt b' hb'
        · rw [hskip i hge (by omega)] at hb'
          exact (some.inj hb').symm
  · change ((d.ht0.table.set idx []).flatten ++ t.table.flatten).Perm _
    have hmid : (rest ++ (b ++ d.ht1.table.flatten)).Perm (b ++ rest ++ d.ht1.table.flatten) := by
      rw [← List.append_assoc]
      exact perm_append_comm.append_right _
    exact ((hp'.append hperm).trans hmid).trans (hp.symm.append_right _)
  · change d.ht0.used - b.length + b.length = d.ht0.used
    omega

theorem rehashLoop_spec {fuel : ℕ} : ∀ {d : Dict K V} {r : ℕ} {n e : ℤ}, Rehashing hash d r →
    d.ht0.used ≤ fuel → ∃ d' stop r', rehashLoop hash fuel d n e = some (d', stop) ∧
      Rehashing hash d' r' ∧ (entries d').Perm (entries d) ∧ SameSizes d d' := by
  induction fuel with
  | zero =>
    intro d r n e h hu
    refine ⟨d, false, r, ?_, h, List.Perm.refl _, rfl, rfl⟩
    rw [rehashLoop, if_pos (Or.inr (by omega))]
  | succ fuel ih =>
    intro d r n e h hu
    rw [rehashLoop]
    by_cases hdone : n = 0 ∨ d.ht0.used = 0
    · exact ⟨d, false, r, if_pos hdone, h, List.Perm.refl _, rfl, rfl⟩
    · obtain ⟨j, b, hrj, hjs, hb, hne⟩ := h.exists_bucket fun h0 => hdone (.inr h0)
      have hr : d.rehashidx.toNat = r := by rw [h.idx, Int.toNat_natCast]
      obtain ⟨idx, e', stop, hskip, hle, hle', hempty, hstop⟩ :=
        skipEmpty_spec hb hne (d.ht0.table.length + 1) r e hrj (by rw [h.first.length]; omega)
      rw [if_neg hdone, if_pos (by rw [hr]; omega), hr, hskip]
      cases stop with
      | true =>
        refine ⟨_, true, idx, rfl, ⟨h.first, h.second, rfl, fun i hi b' hb' => ?_⟩,
          List.Perm.refl _, rfl, rfl⟩
        rcases Nat.lt_or_ge i r with hlt | hge
        · exact h.below i hlt b' hb'
        · rw [hempty i hge hi] at hb'
          exact (some.inj hb').symm
      | false =>
        obtain ⟨b', hb', hne'⟩ := hstop rfl
        obtain ⟨d₁, hmove, h₁, hperm₁, hsize₁, hused⟩ := moveBucket_spec h hempty hb'
        have hpos := length_pos_iff.mpr hne'
        obtain ⟨d₂, stop, r', hloop, h₂, hperm₂, hsize₂⟩ :=
          ih (n := n - 1) (e := e') h₁ (by omega)
        exact ⟨d₂, stop, r', by simp only [hmove, hloop], h₂, hperm₂.trans hperm₁,
          hsize₂.1.trans hsize₁.1, hsize₂.2.trans hsize₁.2⟩

/-- **Rehashing** never runs past `ht[0]`, and keeps the entries. -/
theorem dictRehash_spec (h : Phase hash d) (n : ℤ) :
    ∃ d' r, dictRehash hash d n = some (d', r) ∧ Phase hash d' ∧
      (entries d').Perm (entries d) ∧ (d'.ht0.size = d.ht0.size ∨ d'.ht0.size = d.ht1.size) := by
  rcases eq_false_or_eq_true (dictIsRehashing d) with hr | hr
  · cases h with
    | empty _ _ hr' => simp [dictIsRehashing, hr'] at hr
    | settled _ _ hr' => simp [dictIsRehashing, hr'] at hr
    | rehashing hre =>
      obtain ⟨d', stop, r', hloop, h', hperm, hsize⟩ := rehashLoop_spec (n := n)
        (e := (n * 10).bmod (2 ^ 32)) hre le_rfl
      rw [dictRehash, hr]
      simp only [Bool.not_true, false_eq_true, if_false, hloop]
      cases stop with
      | true => exact ⟨d', true, rfl, .rehashing h', hperm, .inl hsize.1⟩
      | false =>
        by_cases hu : d'.ht0.used = 0
        · -- Everything is in `ht[1]`, which takes the place of `ht[0]`.
          refine ⟨_, false, if_pos hu, .settled h'.second rfl rfl, ?_, .inr hsize.2⟩
          refine List.Perm.trans (List.Perm.of_eq ?_) hperm
          rw [entries, entries, h'.first.used_eq_zero_iff.mp hu]
          simp [dictReset]
        · exact ⟨d', true, if_neg hu, .rehashing h', hperm, .inl hsize.1⟩
  · refine ⟨d, false, ?_, h, List.Perm.refl _, .inl rfl⟩
    rw [dictRehash, hr]
    rfl

theorem dictRehashStep_spec (h : Phase hash d) :
    ∃ d', dictRehashStep hash d = some d' ∧ Phase hash d' ∧ (entries d').Perm (entries d) ∧
      (d'.ht0.size = d.ht0.size ∨ d'.ht0.size = d.ht1.size) := by
  rw [dictRehashStep]
  split
  · split
    · obtain ⟨d', r, hs, h', hperm, hsize⟩ := dictRehash_spec h 1
      exact ⟨d', by rw [hs], h', hperm, hsize⟩
    · exact ⟨d, rfl, h, List.Perm.refl _, .inl rfl⟩
  · exact ⟨d, rfl, h, List.Perm.refl _, .inl rfl⟩

/-! ### Resizing -/

theorem nextPowerLoop_spec {size : ℕ} (fuel : ℕ) : ∀ k, size ≤ 2 ^ (k + fuel) →
    (∃ n ≤ k + fuel, nextPowerLoop size fuel (2 ^ k) = 2 ^ n) ∧
      size ≤ nextPowerLoop size fuel (2 ^ k) := by
  induction fuel with
  | zero => exact fun k hle => ⟨⟨k, le_rfl, rfl⟩, hle⟩
  | succ fuel ih =>
    intro k hle
    rw [nextPowerLoop]
    split
    · next hge => exact ⟨⟨k, Nat.le_add_right _ _, rfl⟩, hge⟩
    · obtain ⟨⟨n, hn, hpow⟩, hsize⟩ := ih (k + 1) (by rwa [Nat.add_right_comm])
      rw [← Nat.pow_succ]
      exact ⟨⟨n, by omega, hpow⟩, hsize⟩

theorem dictNextPower_spec (size : ℕ) :
    ((∃ n ≤ 63, dictNextPower size = 2 ^ n) ∧ size ≤ dictNextPower size) ∨
      (longMax ≤ size ∧ dictNextPower size = longMax) := by
  rw [dictNextPower]
  split
  · next hge => exact .inr ⟨hge, rfl⟩
  · next hlt =>
      refine .inl (nextPowerLoop_spec 61 2 ?_)
      rw [longMax] at hlt
      omega

/-- **A table is allocated**, and nothing moves yet. -/
theorem dictExpand_spec (h : Phase hash d) (size : ℕ) :
    Phase hash (dictExpand d size).1 ∧ entries (dictExpand d size).1 = entries d := by
  have halloc : (∃ n ≤ 63, dictNextPower size = 2 ^ n) ∨ dictNextPower size = longMax := by
    rcases dictNextPower_spec size with ⟨hn, -⟩ | ⟨-, hn⟩
    · exact .inl hn
    · exact .inr hn
  rw [dictExpand]
  split
  · exact ⟨h, rfl⟩
  · next hnot =>
      push Not at hnot
      split
      · exact ⟨h, rfl⟩
      · cases h with
        | empty h0 h1 hr =>
          rw [if_pos (by rw [h0]; rfl)]
          refine ⟨.settled (table_new halloc) h1 hr, ?_⟩
          simp [entries, h0, h1, dictReset]
        | settled h0 h1 hr =>
          have hne : d.ht0.table.isEmpty = false := by
            rw [isEmpty_eq_false_iff]
            exact ne_nil_of_length_pos (h0.length ▸ h0.pos)
          rw [hne, if_neg (by decide)]
          refine ⟨.rehashing (r := 0) ⟨h0, table_new halloc, rfl, fun i hi => absurd hi (by omega)⟩,
            ?_⟩
          simp [entries, h1, dictReset]
        | rehashing hre => exact absurd hre.isRehashing (by simpa using hnot.1)

theorem dictResize_spec (h : Phase hash d) :
    Phase hash (dictResize d).1 ∧ entries (dictResize d).1 = entries d := by
  rw [dictResize]
  split
  · exact ⟨h, rfl⟩
  · exact dictExpand_spec h _

theorem Phase.cases_of_size (h : Phase hash d) (hs : d.ht0.size ≠ 0) :
    Table hash d.ht0 ∧ ((d.ht1 = dictReset ∧ dictIsRehashing d = false) ∨
      ∃ r, Rehashing hash d r ∧ dictIsRehashing d = true) := by
  cases h with
  | empty h0 h1 hr => exact absurd (by rw [h0]; rfl) hs
  | settled h0 h1 hr => exact ⟨h0, .inl ⟨h1, by simp [dictIsRehashing, hr]⟩⟩
  | rehashing hre => exact ⟨hre.first, .inr ⟨_, hre, hre.isRehashing⟩⟩

theorem Phase.length_entries (h : Phase hash d) : (entries d).length = d.ht0.used + d.ht1.used := by
  rw [entries, length_append]
  cases h with
  | empty h0 h1 hr => rw [h0, h1]; rfl
  | settled h0 h1 hr => rw [h0.used, h1]; rfl
  | rehashing hre => rw [hre.first.used, hre.second.used]

theorem Phase.entries_eq_nil (h : Phase hash d) (hs : d.ht0.size = 0) : entries d = [] := by
  cases h with
  | empty h0 h1 hr => simp [entries, h0, h1, dictReset]
  | settled h0 h1 hr => exact absurd hs h0.pos.ne'
  | rehashing hre => exact absurd hs hre.first.pos.ne'

theorem dictExpand_true (hr : dictIsRehashing d = false) {size : ℕ} (hu : d.ht0.used ≤ size)
    (hne : dictNextPower size ≠ d.ht0.size) :
    (dictExpand d size).2 = true := by
  rw [dictExpand, if_neg (by rw [hr]; simp; omega), if_neg hne]
  split <;> rfl

/-- **Growing** never fails while the table is below `2 ^ 31` buckets. -/
theorem dictExpandIfNeeded_spec (h : Phase hash d) :
    (∃ d', dictExpandIfNeeded d = (d', true) ∧ Phase hash d' ∧ d'.ht0.size ≠ 0 ∧
      entries d' = entries d) ∨
    (dictExpandIfNeeded d = (d, false) ∧ ¬ d.ht0.size < 2 ^ 31) := by
  have hgrow : dictIsRehashing d = false → ∀ size, d.ht0.used ≤ size →
      (dictNextPower size = d.ht0.size → ¬ d.ht0.size < 2 ^ 31) →
      (∃ d', dictExpand d size = (d', true) ∧ Phase hash d' ∧ d'.ht0.size ≠ 0 ∧
        entries d' = entries d) ∨ (dictExpand d size = (d, false) ∧ ¬ d.ht0.size < 2 ^ 31) := by
    intro hr size hu hbig
    by_cases heq : dictNextPower size = d.ht0.size
    · refine .inr ⟨?_, hbig heq⟩
      rw [dictExpand, if_neg (by rw [hr]; simp; omega), if_pos heq]
    · obtain ⟨h', hentries⟩ := dictExpand_spec h size
      refine .inl ⟨(dictExpand d size).1, Prod.ext rfl (dictExpand_true hr hu heq), h', ?_, hentries⟩
      rw [dictExpand, if_neg (by rw [hr]; simp; omega), if_neg heq]
      split
      · rcases dictNextPower_spec size with ⟨⟨n, -, hn⟩, -⟩ | ⟨-, hn⟩
        · exact hn ▸ (Nat.two_pow_pos n).ne'
        · change dictNextPower size ≠ 0
          rw [hn]
          decide
      · next hne' =>
          intro h0
          cases h with
          | empty h0' h1 hr => exact hne' (by rw [h0']; rfl)
          | settled h0' h1 hr => exact h0'.pos.ne' h0
          | rehashing hre => exact hre.first.pos.ne' h0
  rw [dictExpandIfNeeded]
  cases hr : dictIsRehashing d with
  | true =>
    refine .inl ⟨d, rfl, h, fun h0 => ?_, rfl⟩
    cases h with
    | empty _ _ hr' => simp [dictIsRehashing, hr'] at hr
    | settled h0' _ _ => exact h0'.pos.ne' h0
    | rehashing hre => exact hre.first.pos.ne' h0
  | false =>
    rw [if_neg (by decide)]
    by_cases hs : d.ht0.size = 0
    · rw [if_pos hs]
      refine hgrow hr _ ?_ fun heq => absurd (heq.trans hs) (by decide)
      cases h with
      | empty h0 h1 hr' => rw [h0]; exact Nat.zero_le _
      | settled h0 h1 hr' => exact absurd hs h0.pos.ne'
      | rehashing hre => exact absurd hs hre.first.pos.ne'
    · rw [if_neg hs]
      by_cases hfull : d.ht0.used ≥ d.ht0.size ∧
          (d.canResize ∨ d.ht0.used / d.ht0.size > dictForceResizeRatio)
      · rw [if_pos hfull]
        refine hgrow hr _ (by omega) fun heq => ?_
        rcases dictNextPower_spec (d.ht0.used * 2) with ⟨-, hle⟩ | ⟨-, hn⟩
        · omega
        · rw [← heq, hn]
          decide
      · rw [if_neg hfull]
        exact .inl ⟨d, rfl, h, hs, rfl⟩

/-! ### Searching -/

/-- **Where a key is**: in its bucket of `ht[0]`, in that of `ht[1]`, or nowhere. -/
theorem search_cases (hk : KeyEq hash eq) (h : Phase hash d) (hs : d.ht0.size ≠ 0) (key : K) :
    (∃ b pos e, d.ht0.table[hash key &&& d.ht0.sizemask]? = some b ∧ b[pos]? = some e ∧
      eq key e.1 = true ∧
      searchTable hash eq d.ht0 key = some (hash key &&& d.ht0.sizemask, some pos)) ∨
    searchTable hash eq d.ht0 key = some (hash key &&& d.ht0.sizemask, none) ∧
      ((dictIsRehashing d = true ∧ ∃ b pos e, d.ht1.table[hash key &&& d.ht1.sizemask]? = some b ∧
          b[pos]? = some e ∧ eq key e.1 = true ∧
          searchTable hash eq d.ht1 key = some (hash key &&& d.ht1.sizemask, some pos)) ∨
        ((dictIsRehashing d = true →
            searchTable hash eq d.ht1 key = some (hash key &&& d.ht1.sizemask, none)) ∧
          ∀ e ∈ entries d, eq key e.1 = false)) := by
  obtain ⟨h0, hphase⟩ := h.cases_of_size hs
  rcases h0.search hk key with hfound | ⟨hnone, hall⟩
  · exact .inl hfound
  · refine .inr ⟨hnone, ?_⟩
    rcases hphase with ⟨h1, hr⟩ | ⟨r, hre, hr⟩
    · refine .inr ⟨fun hr' => by simp [hr] at hr', fun e he => hall e ?_⟩
      simpa [entries, h1, dictReset] using he
    · rcases hre.second.search hk key with hfound | ⟨hnone', hall'⟩
      · exact .inl ⟨hr, hfound⟩
      · refine .inr ⟨fun _ => hnone', fun e he => ?_⟩
        rcases mem_append.mp he with he | he
        · exact hall e he
        · exact hall' e he

theorem mem_entries_of_entry {p : EntryPtr} {e : K × V} (h : d.entry p = some e) :
    e ∈ entries d := by
  rw [Dict.entry] at h
  split at h
  · exact absurd h (by simp)
  · next b hb =>
      have hmem : e ∈ (if p.second then d.ht1 else d.ht0).table.flatten :=
        mem_flatten.mpr ⟨b, mem_of_getElem? hb, mem_of_getElem? h⟩
      split at hmem
      · exact mem_append_right _ hmem
      · exact mem_append_left _ hmem

theorem dictFind_spec (hk : KeyEq hash eq) (h : Phase hash d) (key : K) :
    ∃ d' r, dictFind hash eq d key = some (d', r) ∧ Phase hash d' ∧
      (entries d').Perm (entries d) ∧
      ((r = none ∧ ∀ e ∈ entries d, eq key e.1 = false) ∨
        ∃ p e, r = some p ∧ d'.entry p = some e ∧ eq key e.1 = true) := by
  rw [dictFind]
  split
  · next hu =>
      refine ⟨d, none, rfl, h, List.Perm.refl _, .inl ⟨rfl, ?_⟩⟩
      have hnil : entries d = [] := by
        rw [← length_eq_zero_iff, h.length_entries, hu]
      rw [hnil]
      exact fun e he => absurd he not_mem_nil
  · next hu =>
      obtain ⟨d', hstep, h', hperm, -⟩ := dictRehashStep_spec h
      have hs : d'.ht0.size ≠ 0 := by
        intro h0
        have hlen := hperm.length_eq
        rw [h'.entries_eq_nil h0, h.length_entries] at hlen
        exact hu hlen.symm
      simp only [hstep]
      rcases search_cases hk h' hs key with ⟨b, pos, e, hb, he, heq, hsearch⟩ |
        ⟨hsearch, ⟨hr, b, pos, e, hb, he, heq, hsearch'⟩ | ⟨hsearch', hall⟩⟩
      · simp only [hsearch]
        exact ⟨d', _, rfl, h', hperm, .inr ⟨_, e, rfl, by simp [Dict.entry, hb, he], heq⟩⟩
      · simp only [hsearch, hr, if_true, hsearch']
        exact ⟨d', _, rfl, h', hperm, .inr ⟨_, e, rfl, by simp [Dict.entry, hb, he], heq⟩⟩
      · have hnone : ∀ e ∈ entries d, eq key e.1 = false := fun e he => hall e (hperm.mem_iff.mpr he)
        cases hr : dictIsRehashing d' with
        | true =>
          simp only [hsearch, if_true, hsearch' hr]
          exact ⟨d', none, rfl, h', hperm, .inl ⟨rfl, hnone⟩⟩
        | false =>
          simp only [hsearch, false_eq_true, if_false]
          exact ⟨d', none, rfl, h', hperm, .inl ⟨rfl, hnone⟩⟩

/-! ### Changing an entry -/

/-- A bucket of `ht[0]` that is not empty is written. -/
theorem Phase.setFirst (h : Phase hash d) (ht : Table hash t) {idx : ℕ} {b c : List (K × V)}
    (hb : d.ht0.table[idx]? = some b) (hne : b ≠ []) (htable : t.table = d.ht0.table.set idx c) :
    Phase hash { d with ht0 := t } := by
  cases h with
  | empty h0 h1 hr => rw [h0] at hb; exact nomatch hb
  | settled h0 h1 hr => exact .settled ht h1 hr
  | @rehashing r hre =>
    refine .rehashing (r := r) ⟨ht, hre.second, hre.idx, fun i hi b' hb' => ?_⟩
    have hidx : idx ≠ i := by
      rintro rfl
      exact hne (hre.below idx hi b hb)
    rw [htable, List.getElem?_set_ne hidx] at hb'
    exact hre.below i hi b' hb'

theorem Phase.setSecond (h : Phase hash d) (ht : Table hash t) {idx : ℕ}
    (hb : d.ht1.table[idx]? = some b) :
    Table hash d.ht1 ∧ Phase hash { d with ht1 := t } := by
  cases h with
  | empty h0 h1 hr => rw [h1] at hb; exact nomatch hb
  | settled h0 h1 hr => rw [h1] at hb; exact nomatch hb
  | rehashing hre => exact ⟨hre.second, .rehashing ⟨hre.first, ht, hre.idx, hre.below⟩⟩

theorem Phase.tableOf (h : Phase hash d) (ht : t = d.ht0 ∨ t = d.ht1) {idx : ℕ}
    (hb : t.table[idx]? = some b) :
    Table hash t := by
  have hreset : t ≠ dictReset := by
    rintro rfl
    exact nomatch hb
  cases h with
  | empty h0 h1 hr => rcases ht with rfl | rfl <;> simp_all
  | settled h0 h1 hr => rcases ht with rfl | rfl <;> simp_all
  | rehashing hre =>
    rcases ht with rfl | rfl
    · exact hre.first
    · exact hre.second

theorem intOfUnsigned_of_lt {n : ℕ} (h : n < 2 ^ 31) : intOfUnsigned n = n := if_pos h

theorem intOfUnsigned_neg {n : ℕ} (h : ¬ n < 2 ^ 31) : intOfUnsigned n < 0 := by
  rw [intOfUnsigned, if_neg h]
  exact Int.negSucc_lt_zero _

/-- **A new entry** goes in front of its bucket, if the number of the bucket is an `int`. -/
theorem Table.push_cases (h : Table hash t) (key : K) (val : V) :
    (intOfUnsigned (hash key &&& t.sizemask) ≠ -1 ∧
      ∃ t', t.push (intOfUnsigned (hash key &&& t.sizemask)) (key, val) = some t' ∧ Table hash t' ∧
        t'.table.flatten.Perm ((key, val) :: t.table.flatten)) ∨
    (¬ t.size ≤ 2 ^ 31 ∧ t.push (intOfUnsigned (hash key &&& t.sizemask)) (key, val) = none) := by
  obtain ⟨b, hb⟩ := h.bucket key
  by_cases hlt : hash key &&& t.sizemask < 2 ^ 31
  · obtain ⟨ht', hperm⟩ := h.push (e := (key, val)) hb
    rw [intOfUnsigned_of_lt hlt]
    refine .inl ⟨by omega, _, ?_, ht', hperm⟩
    simp only [Dictht.push, Int.toNat_natCast, hb]
    exact if_neg (by omega)
  · have hmask : hash key &&& t.sizemask ≤ t.sizemask := Nat.and_le_right
    have := h.mask
    exact .inr ⟨by omega, if_pos (intOfUnsigned_neg hlt)⟩

theorem Table.setVal_spec (h : Table hash t) {idx pos : ℕ} {e : K × V}
    (hb : t.table[idx]? = some b) (he : b[pos]? = some e) (val : V) :
    ∃ t' c, t.setVal idx pos val = some t' ∧ Table hash t' ∧ t'.table = t.table.set idx c ∧
      ∃ rest, t.table.flatten.Perm (e :: rest) ∧ t'.table.flatten.Perm ((e.1, val) :: rest) := by
  obtain ⟨hpos, hget⟩ := List.getElem?_eq_some_iff.mp he
  have hset : (b.set pos (e.1, val)).Perm ((e.1, val) :: b.eraseIdx pos) :=
    set_perm_cons_eraseIdx hpos _
  have herase : b.Perm (e :: b.eraseIdx pos) := by
    rw [← hget]
    exact (getElem_cons_eraseIdx_perm hpos).symm
  obtain ⟨ht', rest, hp, hp'⟩ := h.set (u := t.used) (c := b.set pos (e.1, val)) hb
    (fun x hx => by
      rcases mem_cons.mp (hset.mem_iff.mp hx) with rfl | hx
      · exact h.filed idx b hb e (mem_of_getElem? he)
      · exact h.filed idx b hb x (mem_of_mem_eraseIdx hx))
    (by rw [length_set])
  refine ⟨_, _, by simp only [Dictht.setVal, hb, he], ht', rfl, b.eraseIdx pos ++ rest, ?_, ?_⟩
  · exact hp.trans (herase.append_right rest)
  · exact hp'.trans (hset.append_right rest)

theorem Table.unlink_spec (h : Table hash t) {idx pos : ℕ} {e : K × V}
    (hb : t.table[idx]? = some b) (he : b[pos]? = some e) :
    ∃ t' c, t.unlink idx pos = some t' ∧ Table hash t' ∧ t'.table = t.table.set idx c ∧
      t.table.flatten.Perm (e :: t'.table.flatten) := by
  obtain ⟨hpos, hget⟩ := List.getElem?_eq_some_iff.mp he
  have herase : b.Perm (e :: b.eraseIdx pos) := by
    rw [← hget]
    exact (getElem_cons_eraseIdx_perm hpos).symm
  have hused : 0 < t.used := by
    rw [h.used]
    exact length_pos_of_mem
      (mem_flatten.mpr ⟨b, mem_of_getElem? hb, mem_of_getElem? he⟩)
  obtain ⟨ht', rest, hp, hp'⟩ := h.set (u := t.used - 1) (c := b.eraseIdx pos) hb
    (fun x hx => h.filed idx b hb x (mem_of_mem_eraseIdx hx))
    (by rw [length_eraseIdx_of_lt hpos]; omega)
  refine ⟨_, _, by simp only [Dictht.unlink, hb], ht', rfl, ?_⟩
  exact hp.trans ((herase.append_right rest).trans (hp'.symm.cons e))

/-- The tables have fewer than `2 ^ 31` buckets. -/
def Small (d : Dict K V) : Prop := d.ht0.size < 2 ^ 31 ∧ d.ht1.size < 2 ^ 31

/-- Both tables have at most `2 ^ 31` buckets: the number of a bucket is an `int`. -/
def Indexable (d : Dict K V) : Prop := d.ht0.size ≤ 2 ^ 31 ∧ d.ht1.size ≤ 2 ^ 31

theorem Small.indexable (h : Small d) : Indexable d := ⟨h.1.le, h.2.le⟩

/-- The dict that `dictAdd` searches: a step of the rehash is done, and the table has grown. -/
def grown (hash : K → ℕ) (d : Dict K V) : Dict K V :=
  match dictRehashStep hash d with
  | none => d
  | some d => (dictExpandIfNeeded d).1

/-- **`dictAdd`** in tables of any size: it leaves a table, or adds the entry exactly if the key is not
there, unless the table cannot grow or be indexed. -/
theorem dictAdd_cases (hk : KeyEq hash eq) (h : Phase hash d) (key : K) (val : V) :
    (dictAdd hash eq d key val = none ∧ ¬ Indexable (grown hash d)) ∨
    ∃ d' r, dictAdd hash eq d key val = some (d', r) ∧ Phase hash d' ∧
      ((r = true ∧ (∀ e ∈ entries d, eq key e.1 = false) ∧
          (entries d').Perm ((key, val) :: entries d)) ∨
        (r = false ∧ (∃ e ∈ entries d, eq key e.1 = true) ∧ (entries d').Perm (entries d)) ∨
        (r = false ∧ (Small d → ¬ Indexable (grown hash d)))) := by
  obtain ⟨d₁, hstep, h₁, hperm₁, hsize⟩ := dictRehashStep_spec h
  simp only [dictAdd, grown, hstep, dictKeyIndex]
  rcases dictExpandIfNeeded_spec h₁ with ⟨d₂, hexpand, h₂, hs, hentries⟩ | ⟨hexpand, hbig⟩
  · have hperm : (entries d₂).Perm (entries d) := hentries ▸ hperm₁
    have hold : ∀ {e}, e ∈ entries d₂ → eq key e.1 = true → ∃ e ∈ entries d, eq key e.1 = true :=
      fun he heq => ⟨_, hperm.mem_iff.mp he, heq⟩
    simp only [hexpand]
    rcases search_cases hk h₂ hs key with ⟨b, pos, e, hb, he, heq, hsearch⟩ |
      ⟨hsearch, ⟨hr, b, pos, e, hb, he, heq, hsearch'⟩ | ⟨hsearch', hall⟩⟩
    · simp only [hsearch, if_true]
      refine .inr ⟨d₂, false, rfl, h₂, .inr (.inl ⟨rfl, hold (mem_append_left _ ?_) heq, hperm⟩)⟩
      exact mem_flatten.mpr ⟨b, mem_of_getElem? hb, mem_of_getElem? he⟩
    · simp only [hsearch, hr, if_true, hsearch']
      refine .inr ⟨d₂, false, rfl, h₂, .inr (.inl ⟨rfl, hold (mem_append_right _ ?_) heq, hperm⟩)⟩
      exact mem_flatten.mpr ⟨b, mem_of_getElem? hb, mem_of_getElem? he⟩
    · have hnone : ∀ e ∈ entries d, eq key e.1 = false :=
        fun e he => hall e (hperm.mem_iff.mpr he)
      obtain ⟨h0, ⟨h1, hr⟩ | ⟨r, hre, hr⟩⟩ := h₂.cases_of_size hs
      · simp only [hsearch, hr, false_eq_true, if_false]
        rcases h0.push_cases key val with ⟨hne, t, hpush, ht, hp⟩ | ⟨hlarge, hpush⟩
        · simp only [hne, if_false, hpush]
          refine .inr ⟨_, true, rfl, .settled ht h1 (by simpa [dictIsRehashing] using hr), .inl
            ⟨rfl, hnone, ?_⟩⟩
          exact (hp.append_right _).trans (hperm.cons _)
        · split
          · exact .inr ⟨d₂, false, rfl, h₂, .inr (.inr ⟨rfl, fun _ hfit => hlarge hfit.1⟩)⟩
          · rw [hpush]
            exact .inl ⟨rfl, fun hfit => hlarge hfit.1⟩
      · simp only [hsearch, hr, if_true, hsearch' hr]
        rcases hre.second.push_cases key val with ⟨hne, t, hpush, ht, hp⟩ | ⟨hlarge, hpush⟩
        · simp only [hne, if_false, hpush]
          refine .inr ⟨_, true, rfl, .rehashing ⟨hre.first, ht, hre.idx, hre.below⟩,
            .inl ⟨rfl, hnone, ?_⟩⟩
          exact (hp.append_left _).trans (perm_middle.trans (hperm.cons _))
        · split
          · exact .inr ⟨d₂, false, rfl, h₂, .inr (.inr ⟨rfl, fun _ hfit => hlarge hfit.2⟩)⟩
          · rw [hpush]
            exact .inl ⟨rfl, fun hfit => hlarge hfit.2⟩
  · simp only [hexpand, if_true]
    refine .inr ⟨d₁, false, rfl, h₁, .inr (.inr ⟨rfl, fun hsmall => absurd ?_ hbig⟩)⟩
    rcases hsize with hs | hs
    · exact hs ▸ hsmall.1
    · exact hs ▸ hsmall.2

/-- **`dictAdd`** adds the entry exactly if the key is not there, unless the table cannot grow. -/
theorem dictAdd_spec (hk : KeyEq hash eq) (h : Phase hash d) (hfit : Indexable (grown hash d))
    (key : K) (val : V) :
    ∃ d' r, dictAdd hash eq d key val = some (d', r) ∧ Phase hash d' ∧
      ((r = true ∧ (∀ e ∈ entries d, eq key e.1 = false) ∧
          (entries d').Perm ((key, val) :: entries d)) ∨
        (r = false ∧ (∃ e ∈ entries d, eq key e.1 = true) ∧ (entries d').Perm (entries d)) ∨
        (r = false ∧ ¬ Small d)) := by
  obtain ⟨d', r, hadd, h', hcases⟩ :=
    (dictAdd_cases hk h key val).resolve_left fun hnone => hnone.2 hfit
  refine ⟨d', r, hadd, h', hcases.imp_right (Or.imp_right fun hbig => ⟨hbig.1, fun hsmall => ?_⟩)⟩
  exact hbig.2 hsmall hfit

/-- **`dictSetVal`** through a pointer to an entry. -/
theorem dictSetVal_spec (h : Phase hash d) {p : EntryPtr} {e : K × V} (hp : d.entry p = some e)
    (val : V) :
    ∃ d', dictSetVal d p val = some d' ∧ Phase hash d' ∧
      ∃ rest, (entries d).Perm (e :: rest) ∧ (entries d').Perm ((e.1, val) :: rest) := by
  obtain ⟨second, idx, pos⟩ := p
  cases second with
  | false =>
    simp only [Dict.entry, false_eq_true, if_false] at hp
    cases hb : d.ht0.table[idx]? with
    | none => rw [hb] at hp; exact nomatch hp
    | some b =>
      rw [hb] at hp
      obtain ⟨t, c, hset, ht, htable, rest, h1, h2⟩ :=
        (h.tableOf (.inl rfl) hb).setVal_spec hb hp val
      have hne : b ≠ [] := ne_nil_of_mem (mem_of_getElem? hp)
      refine ⟨{ d with ht0 := t }, by simp [dictSetVal, hset], h.setFirst ht hb hne htable,
        rest ++ d.ht1.table.flatten, h1.append_right _, h2.append_right _⟩
  | true =>
    simp only [Dict.entry, if_true] at hp
    cases hb : d.ht1.table[idx]? with
    | none => rw [hb] at hp; exact nomatch hp
    | some b =>
      rw [hb] at hp
      obtain ⟨t, c, hset, ht, htable, rest, h1, h2⟩ :=
        (h.tableOf (.inr rfl) hb).setVal_spec hb hp val
      refine ⟨{ d with ht1 := t }, by simp [dictSetVal, hset], (h.setSecond ht hb).2,
        d.ht0.table.flatten ++ rest, (h1.append_left _).trans perm_middle,
        (h2.append_left _).trans perm_middle⟩

/-- **`dictReplace`** adds the entry, or puts the value in the one that is there. -/
theorem dictReplace_spec (hk : KeyEq hash eq) (h : Phase hash d) (hsmall : Small d)
    (hfit : Indexable (grown hash d)) (key : K) (val : V) :
    ∃ d' r, dictReplace hash eq d key val = some (d', r) ∧ Phase hash d' ∧
      ((r = true ∧ (∀ e ∈ entries d, eq key e.1 = false) ∧
          (entries d').Perm ((key, val) :: entries d)) ∨
        (r = false ∧ ∃ e rest, eq key e.1 = true ∧ (entries d).Perm (e :: rest) ∧
          (entries d').Perm ((e.1, val) :: rest))) := by
  obtain ⟨d₁, r₁, hadd, h₁, ⟨rfl, hnone, hperm⟩ | ⟨rfl, ⟨x, hx, heqx⟩, hperm⟩ | ⟨-, hbig⟩⟩ :=
    dictAdd_spec hk h hfit key val
  · exact ⟨d₁, true, by simp only [dictReplace, hadd], h₁, .inl ⟨rfl, hnone, hperm⟩⟩
  · obtain ⟨d₂, r₂, hfind, h₂, hperm₂, ⟨-, hall⟩ | ⟨p, e, rfl, he, heq⟩⟩ := dictFind_spec hk h₁ key
    · have := hall x (hperm.mem_iff.mpr hx)
      rw [heqx] at this
      exact absurd this (by decide)
    · obtain ⟨d₃, hset, h₃, rest, hp, hp'⟩ := dictSetVal_spec h₂ he val
      refine ⟨d₃, false, by simp only [dictReplace, hadd, hfind, hset], h₃,
        .inr ⟨rfl, e, rest, heq, (hperm.symm.trans hperm₂.symm).trans hp, hp'⟩⟩
  · exact absurd hsmall hbig

/-- **`dictDelete`** takes the entry out exactly if the key is there. -/
theorem dictDelete_spec (hk : KeyEq hash eq) (h : Phase hash d) (key : K) :
    ∃ d' r, dictDelete hash eq d key = some (d', r) ∧ Phase hash d' ∧
      ((r = true ∧ ∃ e, eq key e.1 = true ∧ (entries d).Perm (e :: entries d')) ∨
        (r = false ∧ (∀ e ∈ entries d, eq key e.1 = false) ∧ (entries d').Perm (entries d))) := by
  rw [dictDelete]
  by_cases hs : d.ht0.size = 0
  · rw [if_pos hs]
    refine ⟨d, false, rfl, h, .inr ⟨rfl, fun e he => ?_, List.Perm.refl _⟩⟩
    rw [h.entries_eq_nil hs] at he
    exact absurd he not_mem_nil
  · rw [if_neg hs]
    obtain ⟨d₁, hstep, h₁, hperm, hsize⟩ := dictRehashStep_spec h
    have hs₁ : d₁.ht0.size ≠ 0 := by
      obtain ⟨h0, ⟨h1, hr⟩ | ⟨r, hre, hr⟩⟩ := h.cases_of_size hs
      · rw [dictRehashStep, hr] at hstep
        obtain rfl := some.inj hstep
        exact hs
      · rcases hsize with hsize | hsize
        · exact hsize ▸ hs
        · exact hsize ▸ hre.second.pos.ne'
    simp only [hstep]
    rcases search_cases hk h₁ hs₁ key with ⟨b, pos, e, hb, he, heq, hsearch⟩ |
      ⟨hsearch, ⟨hr, b, pos, e, hb, he, heq, hsearch'⟩ | ⟨hsearch', hall⟩⟩
    · obtain ⟨t, c, hunlink, ht, htable, hp⟩ := (h₁.tableOf (.inl rfl) hb).unlink_spec hb he
      have hne : b ≠ [] := ne_nil_of_mem (mem_of_getElem? he)
      simp only [hsearch, hunlink]
      refine ⟨_, true, rfl, h₁.setFirst ht hb hne htable, .inl ⟨rfl, e, heq, hperm.symm.trans ?_⟩⟩
      exact hp.append_right _
    · obtain ⟨t, c, hunlink, ht, htable, hp⟩ := (h₁.tableOf (.inr rfl) hb).unlink_spec hb he
      simp only [hsearch, hr, if_true, hsearch', hunlink]
      refine ⟨_, true, rfl, (h₁.setSecond ht hb).2, .inl ⟨rfl, e, heq, hperm.symm.trans ?_⟩⟩
      exact (hp.append_left _).trans perm_middle
    · have hnone : ∀ e ∈ entries d, eq key e.1 = false := fun e he => hall e (hperm.mem_iff.mpr he)
      cases hr : dictIsRehashing d₁ with
      | true =>
        simp only [hsearch, if_true, hsearch' hr]
        exact ⟨d₁, false, rfl, h₁, .inr ⟨rfl, hnone, hperm⟩⟩
      | false =>
        simp only [hsearch, false_eq_true, if_false]
        exact ⟨d₁, false, rfl, h₁, .inr ⟨rfl, hnone, hperm⟩⟩

/-! ### Runs -/

/-- A call; iterators are safe ones. -/
inductive Op (K V : Type*) where
  | add (key : K) (val : V)
  | replace (key : K) (val : V)
  | delete (key : K)
  | find (key : K)
  | resize
  | expand (size : ℕ)
  | rehash (n : ℤ)
  | openIterator
  | closeIterator
  | enableResize
  | disableResize

/-- What a call returns. -/
inductive Result (V : Type*) where
  | status (ok : Bool)
  | value (v : Option V)

/-- One call. -/
def step (hash : K → ℕ) (eq : K → K → Bool) (d : Dict K V) : Op K V → Option (Dict K V × Result V)
  | .add key val => (dictAdd hash eq d key val).map fun (d, ok) => (d, .status ok)
  | .replace key val => (dictReplace hash eq d key val).map fun (d, ok) => (d, .status ok)
  | .delete key => (dictDelete hash eq d key).map fun (d, ok) => (d, .status ok)
  | .find key => (dictFetchValue hash eq d key).map fun (d, v) => (d, .value v)
  | .resize => some ((dictResize d).1, .status (dictResize d).2)
  | .expand size => some ((dictExpand d size).1, .status (dictExpand d size).2)
  | .rehash n => (dictRehash hash d n).map fun (d, more) => (d, .status more)
  -- The first `dictNext` of a safe iterator, and its `dictReleaseIterator`.
  | .openIterator => some ({ d with iterators := d.iterators + 1 }, .status true)
  | .closeIterator => some ({ d with iterators := d.iterators - 1 }, .status true)
  | .enableResize => some ({ d with canResize := true }, .status true)
  | .disableResize => some ({ d with canResize := false }, .status true)

/-- The map with a value stored for a key. -/
def store (eq : K → K → Bool) (m : K → Option V) (key : K) (val : Option V) : K → Option V :=
  fun k => if eq key k then val else m k

/-- What a call does to a finite map, and what it returns if that is for the map to say. -/
def Op.apply (eq : K → K → Bool) (m : K → Option V) : Op K V → (K → Option V) × Option (Result V)
  | .add key val =>
    if (m key).isNone then (store eq m key (some val), some (.status true))
    else (m, some (.status false))
  | .replace key val => (store eq m key (some val), some (.status (m key).isNone))
  | .delete key => (store eq m key none, some (.status (m key).isSome))
  | .find key => (m, some (.value (m key)))
  | _ => (m, none)

/-- The entries are the graph of `m`. -/
def Graph (eq : K → K → Bool) (l : List (K × V)) (m : K → Option V) : Prop :=
  ∀ k v, m k = some v ↔ ∃ e ∈ l, eq k e.1 = true ∧ e.2 = v

/-- No two entries have equal keys. -/
def Distinct (eq : K → K → Bool) (l : List (K × V)) : Prop :=
  l.Pairwise fun a b => eq a.1 b.1 = false

/-- A state of a run: each key is at most once in both tables, the counts are right, and while the dict
is rehashed the buckets below `rehashidx` are empty and there is one to move. -/
structure IsMap (eq : K → K → Bool) (d : Dict K V) (m : K → Option V) : Prop where
  distinct : Distinct eq (entries d)
  graph : Graph eq (entries d) m
  used0 : d.ht0.used = (d.ht0.table.map List.length).sum
  used1 : d.ht1.used = (d.ht1.table.map List.length).sum
  below : dictIsRehashing d = true → ∀ i : ℕ, (i : ℤ) < d.rehashidx →
    ∀ b, d.ht0.table[i]? = some b → b = []
  bucket : dictIsRehashing d = true → d.ht0.used ≠ 0 →
    ∃ (i : ℕ) (b : List (K × V)), d.rehashidx ≤ i ∧ i < d.ht0.size ∧
      d.ht0.table[i]? = some b ∧ b ≠ []

/-- Every state of the run is a finite map, and every call returns what that says. -/
def Refines (hash : K → ℕ) (eq : K → K → Bool) : Dict K V → (K → Option V) → List (Op K V) → Prop
  | d, m, [] => IsMap eq d m
  | d, m, op :: ops => IsMap eq d m ∧ ∃ d' r, step hash eq d op = some (d', r) ∧
      (∀ r' ∈ (op.apply eq m).2, r = r') ∧ Refines hash eq d' (op.apply eq m).1 ops

/-- The dict with the table that a call may have allocated when it adds. -/
def Op.tables (hash : K → ℕ) (d : Dict K V) : Op K V → Dict K V
  | .add _ _ | .replace _ _ => grown hash d
  | _ => d

/-- The tables have fewer than `2 ^ 31` buckets all along. -/
def Within (hash : K → ℕ) (eq : K → K → Bool) : Dict K V → List (Op K V) → Prop
  | d, [] => Small d
  | d, op :: ops => Small d ∧ Small (op.tables hash d) ∧
      match step hash eq d op with
      | none => True
      | some (d', _) => Within hash eq d' ops

section Graph
variable {l l' rest : List (K × V)} {m : K → Option V} {key : K}

theorem Graph.perm (h : Graph eq l m) (hp : l'.Perm l) : Graph eq l' m := by
  intro k v
  rw [h k v]
  exact exists_congr fun e => and_congr_left' hp.mem_iff.symm

theorem Distinct.perm (hk : KeyEq hash eq) (h : Distinct eq l) (hp : l'.Perm l) :
    Distinct eq l' := by
  refine (List.Perm.pairwise_iff (fun {a b} hab => ?_) hp).mpr h
  by_contra hba
  have := hk.symm (by simpa using hba)
  rw [hab] at this
  exact absurd this (by decide)

theorem Graph.isNone_iff (h : Graph eq l m) :
    (m key).isNone = true ↔ ∀ e ∈ l, eq key e.1 = false := by
  rw [isNone_iff_eq_none]
  constructor
  · intro hnone e he
    by_contra heq
    have := (h key e.2).mpr ⟨e, he, by simpa using heq, rfl⟩
    rw [hnone] at this
    exact nomatch this
  · intro hall
    cases hm : m key with
    | none => rfl
    | some v =>
      obtain ⟨e, he, heq, -⟩ := (h key v).mp hm
      rw [hall e he] at heq
      exact nomatch heq

/-- A key that is not there gets a value. -/
theorem Graph.insert (hk : KeyEq hash eq) (h : Graph eq rest m)
    (hnot : ∀ e ∈ rest, eq key e.1 = false) {k' : K} (hk' : eq key k' = true) (val : V) :
    Graph eq ((k', val) :: rest) (store eq m key (some val)) := by
  intro k v
  rw [store]
  cases heq : eq key k with
  | true =>
    constructor
    · intro hv
      exact ⟨(k', val), mem_cons_self, hk.trans (hk.symm heq) hk', some.inj hv⟩
    · rintro ⟨e, he, hke, rfl⟩
      rcases mem_cons.mp he with rfl | he
      · rfl
      · have := hnot e he
        rw [hk.trans heq hke] at this
        exact nomatch this
  | false =>
    rw [if_neg (by decide), h k v]
    constructor
    · rintro ⟨e, he, hke⟩
      exact ⟨e, mem_cons_of_mem _ he, hke⟩
    · rintro ⟨e, he, hke, hv⟩
      rcases mem_cons.mp he with rfl | he
      · rw [hk.trans hk' (hk.symm hke)] at heq
        exact nomatch heq
      · exact ⟨e, he, hke, hv⟩

/-- The only entry of a key is taken out. -/
theorem Graph.erase (hk : KeyEq hash eq) {e : K × V} (h : Graph eq (e :: rest) m)
    (hd : Distinct eq (e :: rest)) (hkey : eq key e.1 = true) :
    Graph eq rest (store eq m key none) ∧ ∀ x ∈ rest, eq key x.1 = false := by
  have hnot : ∀ x ∈ rest, eq key x.1 = false := by
    intro x hx
    by_contra hkx
    have := (pairwise_cons.mp hd).1 x hx
    rw [hk.trans (hk.symm hkey) (by simpa using hkx)] at this
    exact nomatch this
  refine ⟨fun k v => ?_, hnot⟩
  rw [store]
  cases heq : eq key k with
  | true =>
    constructor
    · exact fun hv => nomatch hv
    · rintro ⟨x, hx, hkx, -⟩
      have := hnot x hx
      rw [hk.trans heq hkx] at this
      exact nomatch this
  | false =>
    rw [if_neg (by decide), h k v]
    constructor
    · rintro ⟨x, hx, hkx, hv⟩
      rcases mem_cons.mp hx with rfl | hx
      · rw [hk.trans hkey (hk.symm hkx)] at heq
        exact nomatch heq
      · exact ⟨x, hx, hkx, hv⟩
    · rintro ⟨x, hx, hkx⟩
      exact ⟨x, mem_cons_of_mem _ hx, hkx⟩

/-- A key that is not there is not taken out. -/
theorem Graph.store_none (hk : KeyEq hash eq) (h : Graph eq l m)
    (hnot : ∀ e ∈ l, eq key e.1 = false) : store eq m key none = m := by
  funext k
  rw [store]
  split
  · next heq =>
      refine (isNone_iff_eq_none.mp (h.isNone_iff.mpr fun e he => ?_)).symm
      by_contra hke
      have := hnot e he
      rw [hk.trans heq (by simpa using hke)] at this
      exact nomatch this
  · rfl

theorem store_store (eq : K → K → Bool) (m : K → Option V) (key : K) (u v : Option V) :
    store eq (store eq m key u) key v = store eq m key v := by
  funext k
  rw [store, store, store]
  split <;> rfl

end Graph

/-- What is kept of a dict from call to call. -/
structure Inv (hash : K → ℕ) (eq : K → K → Bool) (d : Dict K V) (m : K → Option V) : Prop where
  phase : Phase hash d
  distinct : Distinct eq (entries d)
  graph : Graph eq (entries d) m

theorem inv_create : Inv hash eq (dictCreate : Dict K V) fun _ => none :=
  ⟨.empty rfl rfl rfl, List.Pairwise.nil, fun k v => by simp [entries, dictCreate, dictReset]⟩

theorem Inv.perm (hk : KeyEq hash eq) {d d' : Dict K V} (h : Inv hash eq d m) (h' : Phase hash d')
    (hp : (entries d').Perm (entries d)) : Inv hash eq d' m :=
  ⟨h', h.distinct.perm hk hp, h.graph.perm hp⟩

theorem Phase.congr {d d' : Dict K V} (h : Phase hash d) (h0 : d'.ht0 = d.ht0)
    (h1 : d'.ht1 = d.ht1) (hr : d'.rehashidx = d.rehashidx) : Phase hash d' := by
  cases h with
  | empty h0' h1' hr' => exact .empty (h0.trans h0') (h1.trans h1') (hr.trans hr')
  | settled h0' h1' hr' => exact .settled (h0 ▸ h0') (h1.trans h1') (hr.trans hr')
  | rehashing hre =>
    exact .rehashing ⟨h0 ▸ hre.first, h1 ▸ hre.second, hr.trans hre.idx, h0 ▸ hre.below⟩

/-- Iterators and `dict_can_resize` do not matter. -/
theorem Inv.congr {d d' : Dict K V} (h : Inv hash eq d m) (h0 : d'.ht0 = d.ht0)
    (h1 : d'.ht1 = d.ht1) (hr : d'.rehashidx = d.rehashidx) :
    Inv hash eq d' m := by
  have hentries : entries d' = entries d := by rw [entries, h0, h1, entries]
  exact ⟨h.phase.congr h0 h1 hr, hentries ▸ h.distinct, hentries ▸ h.graph⟩

theorem Inv.isMap (h : Inv hash eq d m) : IsMap eq d m := by
  have hused : ∀ {t : Dictht K V}, Table hash t → t.used = (t.table.map length).sum := by
    intro t ht
    rw [ht.used, length_flatten]
  have hreset : (dictReset : Dictht K V).used =
      ((dictReset : Dictht K V).table.map length).sum := rfl
  obtain ⟨hphase, hdistinct, hgraph⟩ := h
  cases hphase with
  | empty h0 h1 hr =>
    have hr' : dictIsRehashing d = false := by simp [dictIsRehashing, hr]
    exact ⟨hdistinct, hgraph, h0 ▸ hreset, h1 ▸ hreset, by simp [hr'], by simp [hr']⟩
  | settled h0 h1 hr =>
    have hr' : dictIsRehashing d = false := by simp [dictIsRehashing, hr]
    exact ⟨hdistinct, hgraph, hused h0, h1 ▸ hreset, by simp [hr'], by simp [hr']⟩
  | rehashing hre =>
    refine ⟨hdistinct, hgraph, hused hre.first, hused hre.second, fun _ i hi b hb => ?_,
      fun _ hu => ?_⟩
    · rw [hre.idx] at hi
      exact hre.below i (by omega) b hb
    · obtain ⟨i, b, hri, hi, hb, hne⟩ := hre.exists_bucket hu
      exact ⟨i, b, by rw [hre.idx]; omega, hi, hb, hne⟩

/-- A call that returns leaves a dict in one of the three kinds of state, whatever its size. -/
theorem step_phase (hk : KeyEq hash eq) {d d' : Dict K V} (h : Phase hash d) {op : Op K V}
    {r : Result V} (hs : step hash eq d op = some (d', r)) : Phase hash d' := by
  cases op with
  | add key val =>
    rcases dictAdd_cases hk h key val with ⟨hadd, -⟩ | ⟨d₁, r₁, hadd, h₁, -⟩
    · simp [step, hadd] at hs
    · simp only [step, hadd, map_some, some.injEq, Prod.mk.injEq] at hs
      exact hs.1 ▸ h₁
  | replace key val =>
    rcases dictAdd_cases hk h key val with ⟨hadd, -⟩ | ⟨d₁, r₁, hadd, h₁, -⟩
    · simp [step, dictReplace, hadd] at hs
    obtain ⟨d₂, r₂, hfind, h₂, -, ⟨rfl, -⟩ | ⟨p, e, rfl, he, -⟩⟩ := dictFind_spec hk h₁ key
    · cases r₁ with
      | true =>
        simp only [step, dictReplace, hadd, map_some, some.injEq,
          Prod.mk.injEq] at hs
        exact hs.1 ▸ h₁
      | false => simp [step, dictReplace, hadd, hfind] at hs
    · obtain ⟨d₃, hset, h₃, -⟩ := dictSetVal_spec h₂ he val
      cases r₁ with
      | true =>
        simp only [step, dictReplace, hadd, map_some, some.injEq,
          Prod.mk.injEq] at hs
        exact hs.1 ▸ h₁
      | false =>
        simp only [step, dictReplace, hadd, hfind, hset, map_some, some.injEq,
          Prod.mk.injEq] at hs
        exact hs.1 ▸ h₃
  | delete key =>
    obtain ⟨d₁, r₁, hdel, h₁, -⟩ := dictDelete_spec hk h key
    simp only [step, hdel, map_some, some.injEq, Prod.mk.injEq] at hs
    exact hs.1 ▸ h₁
  | find key =>
    obtain ⟨d₁, r₁, hfind, h₁, -, ⟨rfl, -⟩ | ⟨p, e, rfl, he, -⟩⟩ := dictFind_spec hk h key
    · simp only [step, dictFetchValue, hfind, map_some, some.injEq,
        Prod.mk.injEq] at hs
      exact hs.1 ▸ h₁
    · simp only [step, dictFetchValue, hfind, he, map_some, some.injEq,
        Prod.mk.injEq] at hs
      exact hs.1 ▸ h₁
  | resize =>
    simp only [step, some.injEq, Prod.mk.injEq] at hs
    exact hs.1 ▸ (dictResize_spec h).1
  | expand size =>
    simp only [step, some.injEq, Prod.mk.injEq] at hs
    exact hs.1 ▸ (dictExpand_spec h size).1
  | rehash n =>
    obtain ⟨d₁, r₁, hre, h₁, -⟩ := dictRehash_spec h n
    simp only [step, hre, map_some, some.injEq, Prod.mk.injEq] at hs
    exact hs.1 ▸ h₁
  | openIterator =>
    simp only [step, some.injEq, Prod.mk.injEq] at hs
    exact hs.1 ▸ h.congr rfl rfl rfl
  | closeIterator =>
    simp only [step, some.injEq, Prod.mk.injEq] at hs
    exact hs.1 ▸ h.congr rfl rfl rfl
  | enableResize =>
    simp only [step, some.injEq, Prod.mk.injEq] at hs
    exact hs.1 ▸ h.congr rfl rfl rfl
  | disableResize =>
    simp only [step, some.injEq, Prod.mk.injEq] at hs
    exact hs.1 ▸ h.congr rfl rfl rfl

/-- **One call.** -/
theorem step_spec (hk : KeyEq hash eq) (h : Inv hash eq d m) (hsmall : Small d) (op : Op K V)
    (hfit : Indexable (op.tables hash d)) :
    ∃ d' r, step hash eq d op = some (d', r) ∧ (∀ r' ∈ (op.apply eq m).2, r = r') ∧
      Inv hash eq d' (op.apply eq m).1 := by
  cases op with
  | add key val =>
    obtain ⟨d', r, hs, h', ⟨rfl, hnot, hp⟩ | ⟨rfl, ⟨e, he, heq⟩, hp⟩ | ⟨-, hbig⟩⟩ :=
      dictAdd_spec hk h.phase hfit key val
    · have hnone := h.graph.isNone_iff.mpr hnot
      refine ⟨d', .status true, by simp only [step, hs, map_some], ?_, ?_⟩
      · simp [Op.apply, hnone]
      · simp only [Op.apply, hnone, if_true]
        exact ⟨h', Distinct.perm hk (pairwise_cons.mpr ⟨hnot, h.distinct⟩) hp,
          (h.graph.insert hk hnot (hk.refl key) val).perm hp⟩
    · have hsome : ¬ (m key).isNone = true := by
        rw [h.graph.isNone_iff]
        intro hall
        rw [hall e he] at heq
        exact nomatch heq
      refine ⟨d', .status false, by simp only [step, hs, map_some], ?_, ?_⟩
      · simp [Op.apply, hsome]
      · simp only [Op.apply, hsome, false_eq_true, if_false]
        exact h.perm hk h' hp
    · exact absurd hsmall hbig
  | replace key val =>
    obtain ⟨d', r, hs, h', ⟨rfl, hnot, hp⟩ | ⟨rfl, e, rest, heq, hp, hp'⟩⟩ :=
      dictReplace_spec hk h.phase hsmall hfit key val
    · have hnone := h.graph.isNone_iff.mpr hnot
      refine ⟨d', .status true, by simp only [step, hs, map_some], ?_, ?_⟩
      · simp [Op.apply, hnone]
      · exact ⟨h', Distinct.perm hk (pairwise_cons.mpr ⟨hnot, h.distinct⟩) hp,
          (h.graph.insert hk hnot (hk.refl key) val).perm hp⟩
    · have hd := h.distinct.perm hk hp.symm
      obtain ⟨hgraph, hnot⟩ := (h.graph.perm hp.symm).erase hk hd heq
      have hsome : (m key).isNone = false := by
        by_contra hne
        have := h.graph.isNone_iff.mp (by simpa using hne) e (hp.mem_iff.mpr (by simp))
        rw [heq] at this
        exact nomatch this
      refine ⟨d', .status false, by simp only [step, hs, map_some], ?_, ?_⟩
      · simp [Op.apply, hsome]
      · refine ⟨h', Distinct.perm hk ?_ hp', ?_⟩
        · exact pairwise_cons.mpr ⟨(pairwise_cons.mp hd).1, (pairwise_cons.mp hd).2⟩
        · have := hgraph.insert hk hnot heq val
          rw [store_store] at this
          exact this.perm hp'
  | delete key =>
    obtain ⟨d', r, hs, h', ⟨rfl, e, heq, hp⟩ | ⟨rfl, hnot, hp⟩⟩ := dictDelete_spec hk h.phase key
    · have hd := h.distinct.perm hk hp.symm
      obtain ⟨hgraph, hnot⟩ := (h.graph.perm hp.symm).erase hk hd heq
      have hsome : (m key).isSome = true := by
        rw [(h.graph key e.2).mpr ⟨e, hp.mem_iff.mpr (by simp), heq, rfl⟩]
        rfl
      refine ⟨d', .status true, by simp only [step, hs, map_some], ?_, ?_⟩
      · simp [Op.apply, hsome]
      · exact ⟨h', (pairwise_cons.mp hd).2, hgraph⟩
    · have hnone := h.graph.isNone_iff.mpr hnot
      refine ⟨d', .status false, by simp only [step, hs, map_some], ?_, ?_⟩
      · simp [Op.apply, isNone_iff_eq_none.mp hnone]
      · simp only [Op.apply, h.graph.store_none hk hnot]
        exact h.perm hk h' hp
  | find key =>
    obtain ⟨d', r, hs, h', hp, ⟨rfl, hnot⟩ | ⟨p, e, rfl, he, heq⟩⟩ := dictFind_spec hk h.phase key
    · have hnone := isNone_iff_eq_none.mp (h.graph.isNone_iff.mpr hnot)
      refine ⟨d', .value none, by simp only [step, dictFetchValue, hs, map_some], ?_,
        h.perm hk h' hp⟩
      simp [Op.apply, hnone]
    · have hsome : m key = some e.2 :=
        (h.graph key e.2).mpr ⟨e, hp.mem_iff.mp (mem_entries_of_entry he), heq, rfl⟩
      refine ⟨d', .value (some e.2), by simp only [step, dictFetchValue, hs, he, map_some],
        ?_, h.perm hk h' hp⟩
      simp [Op.apply, hsome]
  | resize =>
    obtain ⟨h', hentries⟩ := dictResize_spec h.phase
    exact ⟨_, _, rfl, by simp [Op.apply], h.perm hk h' (List.Perm.of_eq hentries)⟩
  | expand size =>
    obtain ⟨h', hentries⟩ := dictExpand_spec h.phase size
    exact ⟨_, _, rfl, by simp [Op.apply], h.perm hk h' (List.Perm.of_eq hentries)⟩
  | rehash n =>
    obtain ⟨d', r, hs, h', hp, -⟩ := dictRehash_spec h.phase n
    exact ⟨d', .status r, by simp only [step, hs, map_some], by simp [Op.apply],
      h.perm hk h' hp⟩
  | openIterator => exact ⟨_, _, rfl, by simp [Op.apply], h.congr rfl rfl rfl⟩
  | closeIterator => exact ⟨_, _, rfl, by simp [Op.apply], h.congr rfl rfl rfl⟩
  | enableResize => exact ⟨_, _, rfl, by simp [Op.apply], h.congr rfl rfl rfl⟩
  | disableResize => exact ⟨_, _, rfl, by simp [Op.apply], h.congr rfl rfl rfl⟩

theorem run_spec (hk : KeyEq hash eq) (ops : List (Op K V)) :
    ∀ {d : Dict K V} {m : K → Option V}, Inv hash eq d m → Within hash eq d ops →
      Refines hash eq d m ops := by
  induction ops with
  | nil => exact fun h _ => h.isMap
  | cons op ops ih =>
    intro d m h hwithin
    obtain ⟨d', r, hs, hr, h'⟩ := step_spec hk h hwithin.1 op hwithin.2.1.indexable
    have hwithin' := hwithin.2.2
    rw [hs] at hwithin'
    exact ⟨h.isMap, d', r, hs, hr, ih h' hwithin'⟩

/-- **A dict is a finite map**, in every state of every run from `dictCreate`. -/
theorem dict_run (hash : K → ℕ) (eq : K → K → Bool) (hk : KeyEq hash eq) (ops : List (Op K V))
    (h : Within hash eq (dictCreate : Dict K V) ops) :
    Refines hash eq dictCreate (fun _ => none) ops :=
  run_spec hk ops inv_create h

instance Small.decidable (d : Dict K V) : Decidable (Small d) :=
  inferInstanceAs (Decidable (d.ht0.size < 2 ^ 31 ∧ d.ht1.size < 2 ^ 31))

instance Within.decidable (hash : K → ℕ) (eq : K → K → Bool) :
    (d : Dict K V) → (ops : List (Op K V)) → Decidable (Within hash eq d ops)
  | d, [] => inferInstanceAs (Decidable (Small d))
  | d, op :: ops =>
    have : Decidable (match step hash eq d op with
        | none => True
        | some (d', _) => Within hash eq d' ops) :=
      match step hash eq d op with
      | none => .isTrue trivial
      | some (d', _) => Within.decidable hash eq d' ops
    inferInstanceAs (Decidable (Small d ∧ Small (op.tables hash d) ∧ _))

/-- A table that grows while an iterator is open, with a key in each table. -/
theorem dict_run_grows :
    let ops : List (Op ℕ ℕ) := [.add 1 10, .add 5 50, .add 9 90, .add 13 130, .openIterator,
      .add 2 20, .find 13, .replace 13 131, .closeIterator, .delete 1, .find 13, .rehash 2, .add 5 51,
      .find 5]
    Within (fun k => k) (fun a b => a == b) (dictCreate : Dict ℕ ℕ) ops ∧
      Refines (fun k => k) (fun a b => a == b) dictCreate (fun _ => none) ops := by
  intro ops
  have hwithin : Within (fun k => k) (fun a b => a == b) (dictCreate : Dict ℕ ℕ) ops := by
    decide +kernel
  exact ⟨hwithin, dict_run _ _ (keyEq_beq _) ops hwithin⟩

end SourceLibs.RedisDict
