import SourceLibs.Redis.DictMap
import SourceLibs.Support.ReversedCounter
import Mathlib.Data.Nat.ModEq

/-!
# Redis — scanning a dict

`dictScan`.  The cursor counts from its high bits.  A call visits the bucket of the cursor in the smaller
table and its expansions in the larger one, so that every entry whose hash is in the cursor's block of
positions has been seen, and goes on to the next block.  What comes between two calls does not matter:
which entries a call visits depends on the tables it finds.

In the larger table the expansions are visited in their plain order, from the cursor on.  A cursor that
was computed for a larger table may thus leave out one that is not visited yet (`Passes`).

* `rev_eq_reverse`: the bit trick.
* `dictScan_spec`: what one call visits, and where it goes on.
* `scans_returns`: every call of an iteration returns.
* `dictScan_run`: no entry is missed, if no call leaves one out, and the iteration ends.
-/

namespace SourceLibs.RedisDict
open List Option ReversedCounter

/-- What a round of `rev` does to the number. -/
def revRound (s : ℕ) (mask v : BitVec 64) : BitVec 64 :=
  ((v >>> s) &&& mask) ||| ((v <<< s) &&& ~~~mask)

/-- The loop of `rev`. -/
def revLoop : ℕ → ℕ → BitVec 64 → BitVec 64 → BitVec 64
  | 0, _, _, v => v
  | fuel + 1, s, mask, v =>
    let s := s >>> 1
    if s > 0 then
      let mask := mask ^^^ (mask <<< s)
      revLoop fuel s mask (revRound s mask v)
    else v

/-- `rev`: the bits in the other order. -/
def rev (v : BitVec 64) : BitVec 64 := revLoop 7 64 (~~~0) v

variable {K V : Type*}

/-- `sizemask` as an `unsigned long`. -/
def Dictht.mask (t : Dictht K V) : BitVec 64 := BitVec.ofNat 64 t.sizemask

/-- The `do` loop of `dictScan`; there are at most as many rounds as buckets. -/
def expansions (t1 : Dictht K V) (m0 : BitVec 64) :
    ℕ → BitVec 64 → Option (List (K × V) × BitVec 64)
  | 0, _ => none
  | fuel + 1, v =>
    match t1.table[(v &&& t1.mask).toNat]? with
    | none => none
    | some b =>
      let v := (((v ||| m0) + 1) &&& ~~~m0) ||| (v &&& m0)
      if v &&& (m0 ^^^ t1.mask) ≠ 0 then
        match expansions t1 m0 fuel v with
        | none => none
        | some (es, v) => some (b ++ es, v)
      else some (b, v)

/-- The end of `dictScan`: the cursor counts on. -/
def nextCursor (m0 v : BitVec 64) : BitVec 64 := rev (rev (v ||| ~~~m0) + 1)

/-- The smaller table, and the larger one. -/
def Dict.bySize (d : Dict K V) : Dictht K V × Dictht K V :=
  if d.ht0.size > d.ht1.size then (d.ht1, d.ht0) else (d.ht0, d.ht1)

/-- `dictScan`, with the entries it hands to the callback. -/
def dictScan (d : Dict K V) (v : BitVec 64) : Option (List (K × V) × BitVec 64) :=
  if d.ht0.used + d.ht1.used = 0 then some ([], 0)
  else if !dictIsRehashing d then
    match d.ht0.table[(v &&& d.ht0.mask).toNat]? with
    | none => none
    | some b => some (b, nextCursor d.ht0.mask v)
  else
    let (t0, t1) := d.bySize
    match t0.table[(v &&& t0.mask).toNat]? with
    | none => none
    | some b =>
      match expansions t1 t0.mask t1.size v with
      | none => none
      | some (es, v) => some (b ++ es, nextCursor t0.mask v)

/-! ### Reversing -/

/-- The bit that a round with blocks of `s` bits puts at `i`: the blocks are exchanged in pairs. -/
def partner (s i : ℕ) : ℕ := if i / s % 2 = 0 then i + s else i - s

theorem revRound_getLsbD {s : ℕ} {mask : BitVec 64}
    (hmask : ∀ i < 64, mask.getLsbD i = decide (i / s % 2 = 0) ∧ (i / s % 2 = 1 → s ≤ i))
    (v : BitVec 64) {i : ℕ} (hi : i < 64) :
    (revRound s mask v).getLsbD i = v.getLsbD (partner s i) := by
  obtain ⟨hbit, hle⟩ := hmask i hi
  rw [revRound, BitVec.getLsbD_or, BitVec.getLsbD_and, BitVec.getLsbD_and, BitVec.getLsbD_not,
    BitVec.getLsbD_ushiftRight, BitVec.getLsbD_shiftLeft, hbit, partner]
  by_cases heven : i / s % 2 = 0
  · simp [heven, Nat.add_comm]
  · have := hle (by omega)
    simp [heven, hi, Nat.not_lt.mpr this]

theorem partner_lt : ∀ i < 64, partner 32 i < 64 ∧ partner 16 i < 64 ∧ partner 8 i < 64 ∧
    partner 4 i < 64 ∧ partner 2 i < 64 := by
  decide

theorem partners_eq : ∀ i < 64,
    partner 32 (partner 16 (partner 8 (partner 4 (partner 2 (partner 1 i))))) = 63 - i := by
  decide

/-- **The bits are reversed.** -/
theorem rev_eq_reverse (v : BitVec 64) : rev v = v.reverse := by
  have hrev : rev v = revRound 1 0x5555555555555555#64 (revRound 2 0x3333333333333333#64
      (revRound 4 0x0f0f0f0f0f0f0f0f#64 (revRound 8 0x00ff00ff00ff00ff#64
      (revRound 16 0x0000ffff0000ffff#64 (revRound 32 0x00000000ffffffff#64 v))))) := rfl
  refine BitVec.eq_of_getLsbD_eq fun i hi => ?_
  have h1 : partner 1 i < 64 := by
    rw [partner]
    split <;> omega
  obtain ⟨-, -, -, -, h2⟩ := partner_lt _ h1
  obtain ⟨-, -, -, h4, -⟩ := partner_lt _ h2
  obtain ⟨-, -, h8, -, -⟩ := partner_lt _ h4
  obtain ⟨-, h16, -, -, -⟩ := partner_lt _ h8
  rw [hrev, revRound_getLsbD (by decide) _ hi, revRound_getLsbD (by decide) _ h1,
    revRound_getLsbD (by decide) _ h2, revRound_getLsbD (by decide) _ h4,
    revRound_getLsbD (by decide) _ h8, revRound_getLsbD (by decide) _ h16, partners_eq i hi,
    BitVec.getLsbD_reverse, BitVec.getMsbD_eq_getLsbD]
  simp [hi]

/-! ### The bits of a cursor -/

/-- The mask of `2 ^ n` buckets. -/
def low (n : ℕ) : BitVec 64 := BitVec.ofNat 64 (2 ^ n - 1)

section Bits
variable {n m : ℕ}

theorem toNat_low (hn : n ≤ 64) : (low n).toNat = 2 ^ n - 1 := by
  have := Nat.pow_le_pow_right (n := 2) (by decide) hn
  have := Nat.two_pow_pos n
  rw [low, BitVec.toNat_ofNat, Nat.mod_eq_of_lt (by omega)]

theorem toNat_and_low (hn : n ≤ 64) (v : BitVec 64) : (v &&& low n).toNat = v.toNat % 2 ^ n := by
  rw [BitVec.toNat_and, toNat_low hn, Nat.and_two_pow_sub_one_eq_mod]

/-- High bits of one number, low bits of another. -/
theorem toNat_join (hn : n ≤ 64) (x y : BitVec 64) :
    ((x &&& ~~~low n) ||| (y &&& low n)).toNat = x.toNat / 2 ^ n * 2 ^ n + y.toNat % 2 ^ n := by
  refine Nat.eq_of_testBit_eq fun i => ?_
  rw [Nat.mul_comm, Nat.testBit_two_pow_mul_add _ (Nat.mod_lt _ (Nat.two_pow_pos n)),
    BitVec.toNat_or, Nat.testBit_or, toNat_and_low hn, BitVec.testBit_toNat (x &&& _),
    BitVec.getLsbD_and, BitVec.getLsbD_not, ← BitVec.testBit_toNat (low n), toNat_low hn,
    Nat.testBit_two_pow_sub_one, ← BitVec.testBit_toNat, Nat.testBit_mod_two_pow]
  by_cases hi : i < n
  · simp [hi]
  · rw [if_neg hi, Nat.testBit_div_two_pow, Nat.sub_add_cancel (by omega)]
    by_cases hi' : i < 64
    · simp [hi, hi']
    · have : x.toNat.testBit i = false :=
        Nat.testBit_lt_two_pow (lt_of_lt_of_le x.isLt (Nat.pow_le_pow_right (by decide) (by omega)))
      simp [hi, hi', this]

theorem toNat_or_low (hn : n ≤ 64) (v : BitVec 64) :
    (v ||| low n).toNat = v.toNat / 2 ^ n * 2 ^ n + (2 ^ n - 1) := by
  have hpos := Nat.two_pow_pos n
  refine Nat.eq_of_testBit_eq fun i => ?_
  rw [Nat.mul_comm, Nat.testBit_two_pow_mul_add _ (by omega), BitVec.toNat_or, Nat.testBit_or,
    toNat_low hn, Nat.testBit_two_pow_sub_one]
  by_cases hi : i < n
  · simp [hi]
  · rw [if_neg hi, Nat.testBit_div_two_pow, Nat.sub_add_cancel (by omega)]
    simp [hi]

theorem toNat_expand_mod (hn : n ≤ m) (hm : m ≤ 64) (v : BitVec 64) :
    ((((v ||| low n) + 1) &&& ~~~low n) ||| (v &&& low n)).toNat % 2 ^ m =
      (v.toNat + 2 ^ n) % 2 ^ m := by
  have hn64 : n ≤ 64 := hn.trans hm
  have hpos := Nat.two_pow_pos n
  have hdvd : 2 ^ n ∣ 2 ^ 64 := pow_dvd_pow 2 hn64
  have hdvd' : 2 ^ m ∣ 2 ^ 64 := pow_dvd_pow 2 hm
  have hsucc : ((v ||| low n) + 1).toNat = (v.toNat / 2 ^ n + 1) * 2 ^ n % 2 ^ 64 := by
    rw [BitVec.toNat_add, toNat_or_low hn64, Nat.add_mul, Nat.one_mul]
    congr 1
    have : (1 : BitVec 64).toNat = 1 := rfl
    omega
  have hmul : (v.toNat / 2 ^ n + 1) * 2 ^ n % 2 ^ 64 / 2 ^ n * 2 ^ n =
      (v.toNat / 2 ^ n + 1) * 2 ^ n % 2 ^ 64 :=
    Nat.div_mul_cancel ((Nat.dvd_mod_iff hdvd).mpr (Nat.dvd_mul_left _ _))
  rw [toNat_join hn64, hsucc, hmul, Nat.add_mod, Nat.mod_mod_of_dvd _ hdvd', ← Nat.add_mod]
  congr 1
  have := Nat.div_add_mod v.toNat (2 ^ n)
  rw [Nat.add_mul, Nat.one_mul, Nat.mul_comm]
  omega

theorem toNat_and_xor (hn : n ≤ m) (hm : m ≤ 64) (v : BitVec 64) :
    (v &&& (low n ^^^ low m)).toNat = v.toNat % 2 ^ m / 2 ^ n * 2 ^ n := by
  refine Nat.eq_of_testBit_eq fun i => ?_
  rw [BitVec.toNat_and, BitVec.toNat_xor, Nat.testBit_and, Nat.testBit_xor, toNat_low (hn.trans hm),
    toNat_low hm, Nat.testBit_two_pow_sub_one, Nat.testBit_two_pow_sub_one, Nat.testBit_mul_two_pow,
    Nat.testBit_div_two_pow, Nat.testBit_mod_two_pow]
  by_cases hin : i < n
  · simp [hin, show i < m by omega]
  · by_cases him : i < m
    · simp [hin, him, Nat.not_lt.mp hin]
    · simp [hin, him, Nat.not_lt.mp hin]

end Bits

/-! ### One call -/

variable {hash : K → ℕ} {eq : K → K → Bool}

/-- The hash of a key as a cursor. -/
def place (hash : K → ℕ) (key : K) : BitVec 64 := BitVec.ofNat 64 (hash key)

/-- A table of `2 ^ n` buckets. -/
structure Log (t : Dictht K V) (n : ℕ) : Prop where
  le : n ≤ 64
  size : t.size = 2 ^ n
  mask : t.mask = low n
  length : t.table.length = 2 ^ n

section Table
variable {t : Dictht K V} {n : ℕ}

theorem Table.exists_log (h : Table hash t) (hroom : t.size ≠ longMax) : ∃ n, Log t n := by
  rcases h.alloc with ⟨n, hle, hn⟩ | hn
  · exact ⟨n, by omega, hn, by rw [Dictht.mask, h.mask, hn, low], by rw [h.length, hn]⟩
  · exact absurd hn hroom

theorem Log.bucket (h : Log t n) (v : BitVec 64) : ∃ b, t.table[v.toNat % 2 ^ n]? = some b :=
  ⟨_, List.getElem?_eq_getElem (by rw [h.length]; exact Nat.mod_lt _ (Nat.two_pow_pos n))⟩

theorem Log.mem_iff (h : Log t n) (ht : Table hash t) {e : K × V} {b : List (K × V)}
    (hb : t.table[(place hash e.1).toNat % 2 ^ n]? = some b) : e ∈ t.table.flatten ↔ e ∈ b := by
  have hplace : hash e.1 &&& t.sizemask = (place hash e.1).toNat % 2 ^ n := by
    rw [ht.mask, h.size, Nat.and_two_pow_sub_one_eq_mod, place, BitVec.toNat_ofNat,
      Nat.mod_mod_of_dvd _ (pow_dvd_pow 2 h.le)]
  refine ht.filed.mem_flatten_iff (e := e) ?_
  rw [← hb]
  exact congrArg (t.table[·]?) hplace

end Table

/-- **The expansions of a cursor** in the larger table: those from the cursor's own on are visited. -/
theorem expansions_spec {t1 : Dictht K V} {n m : ℕ} (h : Log t1 m) (hn : n ≤ m) (fuel : ℕ) :
    ∀ v : BitVec 64, 2 ^ m ≤ v.toNat % 2 ^ m + fuel * 2 ^ n → 0 < fuel →
      ∃ es v', expansions t1 (low n) fuel v = some (es, v') ∧ v'.toNat % 2 ^ n = v.toNat % 2 ^ n ∧
        ∀ i b, v.toNat % 2 ^ m ≤ i → i < 2 ^ m → i % 2 ^ n = v.toNat % 2 ^ n →
          t1.table[i]? = some b → ∀ e ∈ b, e ∈ es := by
  have hpos := Nat.two_pow_pos n
  have hdvd : 2 ^ n ∣ 2 ^ m := pow_dvd_pow 2 hn
  induction fuel with
  | zero => exact fun v _ h0 => absurd h0 (lt_irrefl 0)
  | succ fuel ih =>
    intro v hfuel _
    obtain ⟨b₀, hb₀⟩ := h.bucket v
    have hlt := Nat.mod_lt v.toNat (Nat.two_pow_pos m)
    have hnext := toNat_expand_mod hn h.le v
    have hlow := toNat_expand_mod le_rfl (hn.trans h.le) v
    rw [Nat.add_mod_right] at hlow
    rw [expansions, h.mask, toNat_and_low h.le, hb₀]
    dsimp only
    generalize ((((v ||| low n) + 1) &&& ~~~low n) ||| (v &&& low n)) = v₁ at *
    -- The bucket of the cursor itself, and those after it.
    have hsplit : ∀ i, v.toNat % 2 ^ m ≤ i → i % 2 ^ n = v.toNat % 2 ^ n →
        i = v.toNat % 2 ^ m ∨ v.toNat % 2 ^ m + 2 ^ n ≤ i := by
      intro i hle hmod
      have hmod' : v.toNat % 2 ^ m % 2 ^ n = i % 2 ^ n := by
        rw [Nat.mod_mod_of_dvd _ hdvd, hmod]
      obtain ⟨k, hk⟩ := (Nat.modEq_iff_dvd' hle).mp hmod'
      rcases Nat.eq_zero_or_pos k with rfl | hk0
      · exact .inl (by omega)
      · have := Nat.le_mul_of_pos_right (2 ^ n) hk0
        exact .inr (by omega)
    by_cases hmore : v.toNat % 2 ^ m + 2 ^ n < 2 ^ m
    · have hv₁ : v₁.toNat % 2 ^ m = v.toNat % 2 ^ m + 2 ^ n := by
        rw [hnext, ← Nat.mod_add_mod, Nat.mod_eq_of_lt hmore]
      have hne : v₁ &&& (low n ^^^ low m) ≠ 0 := by
        intro h0
        have hzero : (v₁ &&& (low n ^^^ low m)).toNat = 0 := by rw [h0]; rfl
        have hge : 0 < (v.toNat % 2 ^ m + 2 ^ n) / 2 ^ n := by
          rw [Nat.add_div_right _ hpos]
          exact Nat.succ_pos _
        have hmul := Nat.le_mul_of_pos_left (2 ^ n) hge
        rw [toNat_and_xor hn h.le, hv₁] at hzero
        omega
      obtain ⟨es, v', hloop, hv', hall⟩ := ih v₁ (by
        rw [hv₁]
        rw [Nat.add_mul, Nat.one_mul] at hfuel
        omega) (by
        by_contra h0
        rw [show fuel = 0 by omega] at hfuel
        omega)
      refine ⟨b₀ ++ es, v', by rw [if_pos hne, hloop], hv'.trans hlow, fun i b hle hi hmod hb e he => ?_⟩
      rcases hsplit i hle hmod with rfl | hge
      · rw [hb₀] at hb
        exact mem_append_left _ (some.inj hb ▸ he)
      · exact mem_append_right _ (hall i b (by omega) hi (by omega) hb e he)
    · have hv₁ : v₁.toNat % 2 ^ m / 2 ^ n = 0 := by
        have hle : 2 ^ n ≤ 2 ^ m := Nat.pow_le_pow_right (by decide) hn
        rw [hnext, ← Nat.mod_add_mod, Nat.mod_eq_sub_mod (by omega), Nat.mod_eq_of_lt (by omega)]
        exact Nat.div_eq_of_lt (by omega)
      have heq : v₁ &&& (low n ^^^ low m) = 0 := by
        have := toNat_and_xor hn h.le v₁
        rw [hv₁, Nat.zero_mul] at this
        exact BitVec.eq_of_toNat_eq this
      refine ⟨b₀, v₁, by rw [if_neg (not_not.mpr heq)], hlow, fun i b hle hi hmod hb e he => ?_⟩
      rcases hsplit i hle hmod with rfl | hge
      · rw [hb₀] at hb
        exact some.inj hb ▸ he
      · omega

/-- The tables have powers of two of buckets. -/
def Roomy (d : Dict K V) : Prop := d.ht0.size ≠ longMax ∧ d.ht1.size ≠ longMax

/-- The table whose buckets the cursor names. -/
def Dict.scanned (d : Dict K V) : Dictht K V := if dictIsRehashing d then d.bySize.1 else d.ht0

/-- No entry is left out: the expansions of the cursor that come before it in the larger table are
visited already, in the order of reversed bits, or are empty. -/
def Passes (d : Dict K V) (v : BitVec 64) : Prop :=
  dictIsRehashing d = true → ∀ i : BitVec 64, i < v &&& d.bySize.2.mask →
    i &&& d.bySize.1.mask = v &&& d.bySize.1.mask → rev (v &&& d.bySize.2.mask) < rev i →
    d.bySize.2.table[i.toNat]? = some []

theorem nextCursor_eq (n : ℕ) (v : BitVec 64) : nextCursor (low n) v = advance n v := by
  rw [nextCursor, advance, rev_eq_reverse, rev_eq_reverse, low]

theorem position_nextCursor {n : ℕ} (hn : n ≤ 64) {v v' : BitVec 64}
    (h : v'.toNat % 2 ^ n = v.toNat % 2 ^ n) :
    position (nextCursor (low n) v') =
      (position v / 2 ^ (64 - n) + 1) * 2 ^ (64 - n) % 2 ^ 64 := by
  rw [nextCursor_eq, position_advance hn, (position_div_eq_iff hn v' v).mpr h]

theorem Rehashing.bySize {d : Dict K V} {r : ℕ} (h : Rehashing hash d r) :
    Table hash d.bySize.1 ∧ Table hash d.bySize.2 ∧ d.bySize.1.size ≤ d.bySize.2.size ∧
      ∀ e, e ∈ entries d ↔ e ∈ d.bySize.1.table.flatten ∨ e ∈ d.bySize.2.table.flatten := by
  rw [Dict.bySize]
  split
  · next hgt => exact ⟨h.second, h.first, hgt.le, fun e => by rw [entries, mem_append, or_comm]⟩
  · next hle => exact ⟨h.first, h.second, Nat.not_lt.mp hle, fun e => by rw [entries, mem_append]⟩

theorem Roomy.bySize {d : Dict K V} (h : Roomy d) :
    d.bySize.1.size ≠ longMax ∧ d.bySize.2.size ≠ longMax := by
  rw [Dict.bySize]
  split
  · exact ⟨h.2, h.1⟩
  · exact h

/-- The bucket of an entry in the larger table that is left out was not visited before. -/
theorem rev_lt_rev {n : ℕ} (hn : n ≤ 64) {v p : BitVec 64} (hle : position v ≤ position p)
    (hne : p.toNat % 2 ^ n ≠ v.toNat % 2 ^ n) : rev (v &&& low n) < rev (p &&& low n) := by
  have hblock : position v / 2 ^ (64 - n) < position p / 2 ^ (64 - n) := by
    refine lt_of_le_of_ne (Nat.div_le_div_right hle) fun heq => hne ?_
    exact (position_div_eq_iff hn p v).mp heq.symm
  rw [rev_eq_reverse, rev_eq_reverse, BitVec.lt_def]
  change position (v &&& low n) < position (p &&& low n)
  rw [low, position_and_mask hn, position_and_mask hn]
  exact Nat.mul_lt_mul_of_pos_right hblock (Nat.two_pow_pos _)

/-- **One call** visits the block of its cursor and goes on to the next. -/
theorem dictScan_spec {d : Dict K V} (h : Phase hash d) (hroom : Roomy d) (v : BitVec 64) :
    ∃ es v', dictScan d v = some (es, v') ∧ ((entries d = [] ∧ v' = 0) ∨
      ∃ n ≤ 64, d.scanned.size = 2 ^ n ∧
        position v' = (position v / 2 ^ (64 - n) + 1) * 2 ^ (64 - n) % 2 ^ 64 ∧
        (Passes d v → ∀ e ∈ entries d, position v ≤ position (place hash e.1) →
          position (place hash e.1) / 2 ^ (64 - n) = position v / 2 ^ (64 - n) → e ∈ es)) := by
  rw [dictScan]
  by_cases hu : d.ht0.used + d.ht1.used = 0
  · refine ⟨[], 0, if_pos hu, .inl ⟨?_, rfl⟩⟩
    rw [← length_eq_zero_iff, h.length_entries, hu]
  · rw [if_neg hu]
    have hs : d.ht0.size ≠ 0 := by
      intro h0
      have := h.length_entries
      rw [h.entries_eq_nil h0] at this
      exact hu this.symm
    obtain ⟨ht, ⟨h1, hr⟩ | ⟨r, hre, hr⟩⟩ := h.cases_of_size hs
    · -- One table.
      obtain ⟨n, hlog⟩ := ht.exists_log hroom.1
      obtain ⟨b, hb⟩ := hlog.bucket v
      simp only [hr, Bool.not_false, if_true, hlog.mask, toNat_and_low hlog.le, hb]
      refine ⟨b, _, rfl, .inr ⟨n, hlog.le, ?_, position_nextCursor hlog.le rfl, fun _ e he _ hblock => ?_⟩⟩
      · rw [Dict.scanned, hr]
        exact hlog.size
      · rw [position_div_eq_iff hlog.le] at hblock
        rw [entries, h1, dictReset, flatten_nil, append_nil] at he
        exact (hlog.mem_iff ht (by rw [hblock]; exact hb)).mp he
    · -- Two tables.
      obtain ⟨ht0, ht1, hle, hentries⟩ := hre.bySize
      obtain ⟨n, hlog0⟩ := ht0.exists_log hroom.bySize.1
      obtain ⟨m, hlog1⟩ := ht1.exists_log hroom.bySize.2
      have hnm : n ≤ m := by
        rw [hlog0.size, hlog1.size] at hle
        exact (Nat.pow_le_pow_iff_right (by decide)).mp hle
      obtain ⟨b, hb⟩ := hlog0.bucket v
      have hpos := Nat.two_pow_pos n
      obtain ⟨es, v', hloop, hv', hall⟩ := expansions_spec hlog1 hnm d.bySize.2.size v
        (by rw [hlog1.size]; have := Nat.le_mul_of_pos_right (2 ^ m) hpos; omega)
        (by rw [hlog1.size]; exact Nat.two_pow_pos m)
      simp only [hr, Bool.not_true, Bool.false_eq_true, if_false, hlog0.mask,
        toNat_and_low hlog0.le, hb, hloop]
      refine ⟨b ++ es, _, rfl, .inr ⟨n, hlog0.le, ?_, position_nextCursor hlog0.le hv',
        fun hpass e he hle hblock => ?_⟩⟩
      · rw [Dict.scanned, hr]
        exact hlog0.size
      · rw [position_div_eq_iff hlog0.le] at hblock
        rcases (hentries e).mp he with he | he
        · exact mem_append_left _ ((hlog0.mem_iff ht0 (by rw [hblock]; exact hb)).mp he)
        · refine mem_append_right _ ?_
          obtain ⟨c, hc⟩ := hlog1.bucket (place hash e.1)
          have hec := (hlog1.mem_iff ht1 hc).mp he
          have hlt := Nat.mod_lt (place hash e.1).toNat (Nat.two_pow_pos m)
          have hmod : (place hash e.1).toNat % 2 ^ m % 2 ^ n = v.toNat % 2 ^ n := by
            rw [Nat.mod_mod_of_dvd _ (pow_dvd_pow 2 hnm), hblock]
          rcases Nat.lt_or_ge ((place hash e.1).toNat % 2 ^ m) (v.toNat % 2 ^ m) with hbefore | hge
          · -- The bucket is not visited, so it must be empty.
            have hempty := hpass hr (place hash e.1 &&& low m)
              (by rw [BitVec.lt_def, hlog1.mask, toNat_and_low hlog1.le, toNat_and_low hlog1.le]
                  exact hbefore)
              (by refine BitVec.eq_of_toNat_eq ?_
                  rw [hlog0.mask, toNat_and_low hlog0.le, toNat_and_low hlog0.le,
                    toNat_and_low hlog1.le]
                  exact hmod)
              (by rw [hlog1.mask]; exact rev_lt_rev hlog1.le hle hbefore.ne)
            rw [toNat_and_low hlog1.le, hc] at hempty
            exact absurd hec (some.inj hempty ▸ not_mem_nil)
          · exact hall _ c hge hlt hmod hc e hec

/-! ### Iterations -/

/-- Operations in a row. -/
def runOps (hash : K → ℕ) (eq : K → K → Bool) (d : Dict K V) : List (Op K V) → Option (Dict K V)
  | [] => some d
  | op :: ops =>
    match step hash eq d op with
    | none => none
    | some (d', _) => runOps hash eq d' ops

/-- An iteration: what each call hands to the callback and returns.  A round is what is done to the
dict after a call. -/
def scans (hash : K → ℕ) (eq : K → K → Bool) (d : Dict K V) (v : BitVec 64) :
    List (List (Op K V)) → Option (List (List (K × V) × BitVec 64))
  | [] => some []
  | ops :: rounds =>
    match dictScan d v, runOps hash eq d ops with
    | some (es, v'), some d' => (scans hash eq d' v' rounds).map ((es, v') :: ·)
    | _, _ => none

/-- `P` holds at every call of an iteration. -/
def AtCalls (hash : K → ℕ) (eq : K → K → Bool) (P : Dict K V → BitVec 64 → Prop) (d : Dict K V)
    (v : BitVec 64) : List (List (Op K V)) → Prop
  | [] => True
  | ops :: rounds => P d v ∧
      match dictScan d v, runOps hash eq d ops with
      | some (_, v'), some d' => AtCalls hash eq P d' v' rounds
      | _, _ => True

/-- A key is in the dict. -/
def Present (eq : K → K → Bool) (key : K) (d : Dict K V) : Prop :=
  ∃ e ∈ entries d, eq key e.1 = true

section Run
variable {d d' : Dict K V} {v : BitVec 64}

theorem runOps_phase (hk : KeyEq hash eq) (ops : List (Op K V)) :
    ∀ {d : Dict K V}, Phase hash d → runOps hash eq d ops = some d' → Phase hash d' := by
  induction ops with
  | nil => exact fun h hd => some.inj hd ▸ h
  | cons op ops ih =>
    intro d h hd
    rw [runOps] at hd
    split at hd
    · exact nomatch hd
    · next d₁ r hs => exact ih (step_phase hk h hs) hd

/-- The first call of an iteration, and the rest of it. -/
theorem scans_cons {ops : List (Op K V)} {rounds : List (List (Op K V))}
    {outs : List (List (K × V) × BitVec 64)}
    (h : scans hash eq d v (ops :: rounds) = some outs) :
    ∃ es v' d' outs', dictScan d v = some (es, v') ∧ runOps hash eq d ops = some d' ∧
      scans hash eq d' v' rounds = some outs' ∧ outs = (es, v') :: outs' := by
  rw [scans] at h
  split at h
  · next es v' d' hscan hrun =>
      obtain ⟨outs', houts', rfl⟩ := map_eq_some_iff.mp h
      exact ⟨es, v', d', outs', hscan, hrun, houts', rfl⟩
  · exact nomatch h

theorem runOps_append (ops ops' : List (Op K V)) (d : Dict K V) :
    runOps hash eq d (ops ++ ops') = (runOps hash eq d ops).bind fun d => runOps hash eq d ops' := by
  induction ops generalizing d with
  | nil => rfl
  | cons op ops ih =>
    rw [cons_append, runOps, runOps]
    split
    · rfl
    · exact ih _

theorem AtCalls.cons {P : Dict K V → BitVec 64 → Prop} {ops : List (Op K V)}
    {rounds : List (List (Op K V))} (h : AtCalls hash eq P d v (ops :: rounds))
    {es : List (K × V)} {v' : BitVec 64} (hscan : dictScan d v = some (es, v'))
    (hrun : runOps hash eq d ops = some d') : P d v ∧ AtCalls hash eq P d' v' rounds := by
  rw [AtCalls, hscan, hrun] at h
  exact h

theorem AtCalls.imp {P Q : Dict K V → BitVec 64 → Prop} (hPQ : ∀ d v, P d v → Q d v)
    (rounds : List (List (Op K V))) : ∀ {d : Dict K V} {v : BitVec 64},
      AtCalls hash eq P d v rounds → AtCalls hash eq Q d v rounds := by
  induction rounds with
  | nil => exact fun _ => trivial
  | cons ops rounds ih =>
    intro d v h
    rw [AtCalls] at h ⊢
    refine ⟨hPQ d v h.1, ?_⟩
    split
    · next es v' d' hscan hrun =>
        have := h.2
        rw [hscan, hrun] at this
        exact ih this
    · trivial

theorem scans_visits (hk : KeyEq hash eq) {key : K} (rounds : List (List (Op K V))) :
    ∀ {d : Dict K V} {v : BitVec 64} {outs : List (List (K × V) × BitVec 64)}, Phase hash d →
      scans hash eq d v rounds = some outs → outs.getLast?.map Prod.snd = some 0 →
      AtCalls hash eq (fun d v => Roomy d ∧ Passes d v ∧ Present eq key d) d v rounds →
      position v ≤ position (place hash key) → ∃ out ∈ outs, ∃ e ∈ out.1, eq key e.1 = true := by
  induction rounds with
  | nil =>
    intro d v outs _ houts hlast
    rw [← some.inj houts] at hlast
    exact nomatch hlast
  | cons ops rounds ih =>
    intro d v outs h houts hlast hat hpos
    obtain ⟨es, v', d', outs', hscan, hrun, houts', rfl⟩ := scans_cons houts
    obtain ⟨⟨hroom, hpass, e, he, heq⟩, hat'⟩ := hat.cons hscan hrun
    obtain ⟨es₁, v₁, hscan₁, hspec⟩ := dictScan_spec h hroom v
    obtain ⟨rfl, rfl⟩ := Prod.mk.inj (some.inj (hscan.symm.trans hscan₁))
    have hplace : place hash e.1 = place hash key := by rw [place, place, hk.hash heq]
    rcases hspec with ⟨hnil, -⟩ | ⟨n, hn, -, hv', hvisit⟩
    · rw [hnil] at he
      exact absurd he not_mem_nil
    · rcases (Nat.div_le_div_right (c := 2 ^ (64 - n)) hpos).eq_or_lt with hsame | hbefore
      · -- The key is in the block of the cursor.
        refine ⟨_, mem_cons_self, e, hvisit hpass e he ?_ ?_, heq⟩
        · rwa [hplace]
        · rw [hplace, hsame]
      · -- It is in a later one.
        have hle : (position v / 2 ^ (64 - n) + 1) * 2 ^ (64 - n) ≤ position (place hash key) :=
          (Nat.mul_le_mul_right _ hbefore).trans (Nat.div_mul_le_self _ _)
        rw [Nat.mod_eq_of_lt (hle.trans_lt (position_lt _))] at hv'
        have hne : v' ≠ 0 := by
          intro h0
          rw [position_eq_zero_iff.mpr h0] at hv'
          exact absurd hv' (Nat.mul_pos (Nat.succ_pos _) (Nat.two_pow_pos _)).ne
        have hlast' : outs'.getLast?.map Prod.snd = some 0 := by
          cases outs' with
          | nil =>
            have hv0 : some v' = some 0 := hlast
            exact absurd (some.inj hv0) hne
          | cons out outs' => rwa [getLast?_cons_cons] at hlast
        obtain ⟨out, hout, hkey⟩ := ih (runOps_phase hk ops h hrun) houts' hlast' hat'
          (hv'.le.trans hle)
        exact ⟨out, mem_cons_of_mem _ hout, hkey⟩

/-- The number of buckets that the cursor counts. -/
theorem scanned_size (h : Phase hash d) : d.scanned.size =
    if d.ht1.size = 0 then d.ht0.size else min d.ht0.size d.ht1.size := by
  have hnot : d.rehashidx = -1 → d.ht1 = dictReset → d.scanned.size =
      if d.ht1.size = 0 then d.ht0.size else min d.ht0.size d.ht1.size := by
    intro hr h1
    rw [if_pos (by rw [h1]; rfl), Dict.scanned, if_neg (by simp [dictIsRehashing, hr])]
  cases h with
  | empty h0 h1 hr => exact hnot hr h1
  | settled h0 h1 hr => exact hnot hr h1
  | rehashing hre =>
    rw [if_neg hre.second.pos.ne', Dict.scanned, if_pos hre.isRehashing, Dict.bySize]
    split
    · next hgt => exact (Nat.min_eq_right hgt.le).symm
    · next hle => exact (Nat.min_eq_left (Nat.not_lt.mp hle)).symm

/-- While the tables keep their sizes, each call goes on by one block. -/
theorem scans_ends (hk : KeyEq hash eq) {s0 s1 n : ℕ} (hn : n ≤ 64)
    (hsize : (if s1 = 0 then s0 else min s0 s1) = 2 ^ n) (rounds : List (List (Op K V))) :
    ∀ {d : Dict K V} {v : BitVec 64} {outs : List (List (K × V) × BitVec 64)}, Phase hash d →
      scans hash eq d v rounds = some outs →
      AtCalls hash eq (fun d _ => Roomy d ∧ d.ht0.size = s0 ∧ d.ht1.size = s1) d v rounds →
      2 ^ n ≤ position v / 2 ^ (64 - n) + rounds.length → ∃ out ∈ outs, out.2 = 0 := by
  have hpow : 2 ^ n * 2 ^ (64 - n) = 2 ^ 64 := by
    rw [← Nat.pow_add, Nat.add_sub_of_le hn]
  have hblock : ∀ v : BitVec 64, position v / 2 ^ (64 - n) < 2 ^ n := fun v =>
    (Nat.div_lt_iff_lt_mul (Nat.two_pow_pos _)).mpr (hpow ▸ position_lt v)
  induction rounds with
  | nil =>
    intro d v outs _ _ _ hlen
    exact absurd hlen (Nat.not_le.mpr (hblock v))
  | cons ops rounds ih =>
    intro d v outs h houts hat hlen
    obtain ⟨es, v', d', outs', hscan, hrun, houts', rfl⟩ := scans_cons houts
    obtain ⟨⟨hroom, hs0, hs1⟩, hat'⟩ := hat.cons hscan hrun
    obtain ⟨es₁, v₁, hscan₁, hspec⟩ := dictScan_spec h hroom v
    obtain ⟨rfl, rfl⟩ := Prod.mk.inj (some.inj (hscan.symm.trans hscan₁))
    rcases hspec with ⟨-, h0⟩ | ⟨n', -, hn', hv', -⟩
    · exact ⟨_, mem_cons_self, h0⟩
    · rw [scanned_size h, hs0, hs1, hsize] at hn'
      obtain rfl := Nat.pow_right_injective (le_refl 2) hn'
      by_cases hlast : position v / 2 ^ (64 - n) + 1 = 2 ^ n
      · -- The last block.
        rw [hlast, hpow, Nat.mod_self] at hv'
        exact ⟨_, mem_cons_self, position_eq_zero_iff.mp hv'⟩
      · have hlt : position v / 2 ^ (64 - n) + 1 < 2 ^ n :=
          lt_of_le_of_ne (hblock v) hlast
        rw [Nat.mod_eq_of_lt (hpow ▸ Nat.mul_lt_mul_of_pos_right hlt (Nat.two_pow_pos _))] at hv'
        obtain ⟨out, hout, h0⟩ := ih (runOps_phase hk ops h hrun) houts' hat' (by
          rw [hv', Nat.mul_div_cancel _ (Nat.two_pow_pos _)]
          rw [length_cons] at hlen
          omega)
        exact ⟨out, mem_cons_of_mem _ hout, h0⟩

/-- **Every call returns**, if what comes between the calls does and the tables can be allocated. -/
theorem scans_returns (hk : KeyEq hash eq) (rounds : List (List (Op K V))) :
    ∀ {d : Dict K V} {v : BitVec 64}, Phase hash d → AtCalls hash eq (fun d _ => Roomy d) d v rounds →
      (runOps hash eq d rounds.flatten).isSome → ∃ outs, scans hash eq d v rounds = some outs := by
  induction rounds with
  | nil => exact fun _ _ _ => ⟨[], rfl⟩
  | cons ops rounds ih =>
    intro d v h hat hops
    obtain ⟨es, v', hscan, -⟩ := dictScan_spec h hat.1 v
    rw [flatten_cons, runOps_append] at hops
    cases hrun : runOps hash eq d ops with
    | none =>
      rw [hrun] at hops
      exact nomatch hops
    | some d' =>
      rw [hrun] at hops
      obtain ⟨outs, houts⟩ := ih (runOps_phase hk ops h hrun) (hat.cons hscan hrun).2 hops
      exact ⟨(es, v') :: outs, by simp only [scans, hscan, hrun, houts, map_some]⟩

end Run

/-- **An iteration misses nothing** if none of its calls passes over an entry, and it ends if the tables
keep their sizes.  Every call returns, if what comes between the calls does. -/
theorem dictScan_run (hash : K → ℕ) (eq : K → K → Bool) (hk : KeyEq hash eq) (ops : List (Op K V))
    (d : Dict K V) (hd : runOps hash eq dictCreate ops = some d) :
    (∀ (key : K) (rounds : List (List (Op K V))),
      (runOps hash eq d rounds.flatten).isSome →
      AtCalls hash eq (fun d v => Roomy d ∧ Passes d v ∧ Present eq key d) d 0 rounds →
        ∃ outs, scans hash eq d 0 rounds = some outs ∧
          (outs.getLast?.map Prod.snd = some 0 → ∃ out ∈ outs, ∃ e ∈ out.1, eq key e.1 = true)) ∧
    ∀ (v : BitVec 64) (s0 s1 : ℕ) (rounds : List (List (Op K V))),
      (runOps hash eq d rounds.flatten).isSome →
      AtCalls hash eq (fun d _ => Roomy d ∧ d.ht0.size = s0 ∧ d.ht1.size = s1) d v rounds →
        ∃ outs, scans hash eq d v rounds = some outs ∧
          (s0 ≤ rounds.length → rounds ≠ [] → ∃ out ∈ outs, out.2 = 0) := by
  have h : Phase hash d := runOps_phase hk ops (.empty rfl rfl rfl) hd
  constructor
  · intro key rounds hops hat
    obtain ⟨outs, houts⟩ := scans_returns hk rounds h (hat.imp (fun _ _ h => h.1) rounds) hops
    refine ⟨outs, houts, fun hlast => scans_visits hk rounds h houts hlast hat ?_⟩
    have h0 : position (0 : BitVec 64) = 0 := position_eq_zero_iff.mpr rfl
    rw [h0]
    exact Nat.zero_le _
  · intro v s0 s1 rounds hops hat
    obtain ⟨outs, houts⟩ := scans_returns hk rounds h (hat.imp (fun _ _ h => h.1) rounds) hops
    refine ⟨outs, houts, fun hlen hne => ?_⟩
    cases rounds with
    | nil => exact absurd rfl hne
    | cons ops rounds =>
      obtain ⟨es, v', d', outs', hscan, hrun, houts', rfl⟩ := scans_cons houts
      obtain ⟨⟨hroom, hs0, hs1⟩, -⟩ := hat.cons hscan hrun
      obtain ⟨es₁, v₁, hscan₁, hspec⟩ := dictScan_spec h hroom v
      obtain ⟨rfl, rfl⟩ := Prod.mk.inj (some.inj (hscan.symm.trans hscan₁))
      rcases hspec with ⟨-, h0⟩ | ⟨n, hn, hsize, -⟩
      · exact ⟨_, mem_cons_self, h0⟩
      · rw [scanned_size h, hs0, hs1] at hsize
        have hle : 2 ^ n ≤ s0 := by
          rw [← hsize]
          split
          · exact le_rfl
          · exact Nat.min_le_left _ _
        exact scans_ends hk hn hsize _ h houts hat
          ((hle.trans hlen).trans (Nat.le_add_left _ _))

/-! ### Calls that pass -/

/-- A cursor of a table no larger than the smaller one leaves out nothing. -/
theorem passes_of_and_mask {d : Dict K V} {v : BitVec 64}
    (h : dictIsRehashing d = true → v &&& d.bySize.2.mask = v &&& d.bySize.1.mask) :
    Passes d v := by
  intro hr i hlt hmod
  rw [h hr, ← hmod, BitVec.lt_def, BitVec.toNat_and] at hlt
  exact absurd Nat.and_le_left (Nat.not_le.mpr hlt)

instance AtCalls.decidable (hash : K → ℕ) (eq : K → K → Bool) (P : Dict K V → BitVec 64 → Prop)
    [∀ d v, Decidable (P d v)] :
    (d : Dict K V) → (v : BitVec 64) → (rounds : List (List (Op K V))) →
      Decidable (AtCalls hash eq P d v rounds)
  | _, _, [] => .isTrue trivial
  | d, v, ops :: rounds =>
    have : Decidable (match dictScan d v, runOps hash eq d ops with
        | some (_, v'), some d' => AtCalls hash eq P d' v' rounds
        | _, _ => True) :=
      match dictScan d v, runOps hash eq d ops with
      | some (_, v'), some d' => AtCalls.decidable hash eq P d' v' rounds
      | none, _ => .isTrue trivial
      | some _, none => .isTrue trivial
    inferInstanceAs (Decidable (P d v ∧ _))

instance Roomy.decidable (d : Dict K V) : Decidable (Roomy d) :=
  inferInstanceAs (Decidable (d.ht0.size ≠ longMax ∧ d.ht1.size ≠ longMax))

instance Present.decidable (eq : K → K → Bool) (key : K) (d : Dict K V) :
    Decidable (Present eq key d) :=
  inferInstanceAs (Decidable (∃ e ∈ entries d, eq key e.1 = true))

/-- A table that shrinks from 16 to 4 buckets after the first call. -/
def shrinkOps : List (Op ℕ Unit) := [.expand 16, .add 4 ()]
/-- The table shrinks after the first call. -/
def shrinkRounds : List (List (Op ℕ Unit)) := [[.expand 4], [], [], [], []]

/-- **A key is missed**: from the cursor 8 on, the call that sees both tables visits the buckets 8 and
12 of the larger one, and 4 comes before them. -/
theorem dictScan_misses :
    ∃ d ∈ runOps (fun k => k) (fun a b => a == b) (dictCreate : Dict ℕ Unit) shrinkOps,
      ∃ outs ∈ scans (fun k => k) (fun a b => a == b) d 0 shrinkRounds,
        outs.getLast?.map Prod.snd = some 0 ∧
        AtCalls (fun k => k) (fun a b => a == b)
          (fun d _ => Roomy d ∧ Present (fun a b => a == b) 4 d) d 0 shrinkRounds ∧
        ∀ out ∈ outs, ∀ e ∈ out.1, ¬ (4 == e.1) = true := by
  decide +kernel

/-- A table that grows from 4 to 8 buckets during the iteration. -/
def growOps : List (Op ℕ Unit) := [.add 1 (), .add 6 (), .expand 8]
/-- The table grows between calls. -/
def growRounds : List (List (Op ℕ Unit)) := [[], [.rehash 2], [], [.add 9 (), .rehash 5], [], []]

theorem dictScan_run_grows :
    ∃ d ∈ runOps (fun k => k) (fun a b => a == b) (dictCreate : Dict ℕ Unit) growOps,
      (∃ outs ∈ scans (fun k => k) (fun a b => a == b) d 0 growRounds,
        ∃ out ∈ outs, ∃ e ∈ out.1, (1 == e.1) = true) ∧
      ∃ outs ∈ scans (fun k => k) (fun a b => a == b) d 2 [[], [], [], []], ∃ out ∈ outs, out.2 = 0 := by
  obtain ⟨d, hd, hops, ⟨hlast, hat⟩, hops', hat'⟩ :
      ∃ d ∈ runOps (fun k => k) (fun a b => a == b) (dictCreate : Dict ℕ Unit) growOps,
        (runOps (fun k => k) (fun a b => a == b) d growRounds.flatten).isSome ∧
        ((∀ outs ∈ scans (fun k => k) (fun a b => a == b) d 0 growRounds,
            outs.getLast?.map Prod.snd = some 0) ∧
          AtCalls (fun k => k) (fun a b => a == b) (fun d v => Roomy d ∧
            (dictIsRehashing d = true → v &&& d.bySize.2.mask = v &&& d.bySize.1.mask) ∧
            Present (fun a b => a == b) 1 d) d 0 growRounds) ∧
        (runOps (fun k => k) (fun a b => a == b) d
          ([[], [], [], []] : List (List (Op ℕ Unit))).flatten).isSome ∧
        AtCalls (fun k => k) (fun a b => a == b)
          (fun d _ => Roomy d ∧ d.ht0.size = 4 ∧ d.ht1.size = 8) d 2 [[], [], [], []] := by
    decide +kernel
  obtain ⟨hvisits, hends⟩ := dictScan_run _ _ (keyEq_beq _) growOps d hd
  obtain ⟨outs, houts, hvisit⟩ := hvisits 1 growRounds hops
    (hat.imp (fun d v h => ⟨h.1, passes_of_and_mask h.2.1, h.2.2⟩) growRounds)
  obtain ⟨outs', houts', hend⟩ := hends 2 4 8 _ hops' hat'
  exact ⟨d, hd, ⟨outs, houts, hvisit (hlast outs houts)⟩, outs', houts', hend (by decide) (by decide)⟩

end SourceLibs.RedisDict
