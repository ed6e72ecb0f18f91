import SourceLibs.Redis.Networking
import SourceLibs.Redis.Ziplist
import SourceLibs.Support.Decimal

/-!
# Redis — integers as text

`digits10`, `ll2string` and `string2ll` of `util.c`, and the integers in the entries of a ziplist.  A
`long long` is an integer in range.  `string2ll` is in the reading of queries, over unbounded numbers;
`string2llWords` is the same in words of 64 bits.

A buffer is a list of bytes, of which a byte outside is not written (`none`); positions in it are
`uint32_t`.  A left shift of a negative number multiplies.

* `digits10_eq`: the comparison tree counts the digits.
* `ll2string_spec`: two digits at a time are written from the right.
* `string2ll_iff`: the text of a number in range is read, and no other.
* `integerText_lossless`: printing, reading and the six widths of a ziplist agree.
-/

namespace SourceLibs.IntegerText
open List Option Decimal Memory Ziplist
open RedisNetworking (digitsLoop llongMax minus nine string2ll string2llAbs ullongMax zero)

/-! ### `util.c` -/

def digits10 (v : ℕ) : ℕ :=
  if v < 10 then 1
  else if v < 100 then 2
  else if v < 1000 then 3
  else if v < 1000000000000 then
    if v < 100000000 then
      if v < 1000000 then
        if v < 10000 then 4 else 5 + if v ≥ 100000 then 1 else 0
      else 7 + if v ≥ 10000000 then 1 else 0
    else if v < 10000000000 then 9 + if v ≥ 1000000000 then 1 else 0
    else 11 + if v ≥ 100000000000 then 1 else 0
  else 12 + digits10 (v / 1000000000000)
termination_by v
decreasing_by omega

/-- The absolute value, `LLONG_MIN` apart. -/
def magnitude (v : ℤ) : ℕ :=
  if v < 0 then if v ≠ -2 ^ 63 then (-v).toNat else llongMax + 1 else v.toNat

/-- `sdigits10`: with the sign. -/
def sdigits10 (v : ℤ) : ℕ := if v < 0 then digits10 (magnitude v) + 1 else digits10 (magnitude v)

/-- The table `digits`, the two digits of every number below 100. -/
def digits : List UInt8 := (List.range 100).flatMap fun k => [digit (k / 10), digit (k % 10)]

/-- `dst[i] = c`. -/
def put (dst : List UInt8) (i : ℕ) (c : UInt8) : Option (List UInt8) :=
  if i < dst.length then some (dst.set i c) else none

/-- The difference of two `uint32_t`. -/
def sub32 (a b : ℕ) : ℕ := (a + 2 ^ 32 - b) % 2 ^ 32

/-- Two digits at `next - 1` and `next`. -/
def putPair (dst : List UInt8) (next i : ℕ) : Option (List UInt8) := do
  let dst ← put dst next (digits.getD (i + 1) 0)
  put dst (sub32 next 1) (digits.getD i 0)

/-- The loop of `ll2string`. -/
def pairsLoop : ℕ → List UInt8 → ℕ → ℕ → Option (List UInt8 × ℕ × ℕ)
  | 0, _, _, _ => none
  | fuel + 1, dst, value, next =>
    if value ≥ 100 then
      match putPair dst next (value % 100 * 2) with
      | some dst => pairsLoop fuel dst (value / 100) (sub32 next 2)
      | none => none
    else some (dst, value, next)

/-- The last one or two digits. -/
def putLast (dst : List UInt8) (value next : ℕ) : Option (List UInt8) :=
  if value < 10 then put dst next (.ofNat (48 + value)) else putPair dst next (value * 2)

/-- `ll2string`, into a buffer of `dstlen` bytes; the number of digits bounds the number of rounds. -/
def ll2string (dst : List UInt8) (svalue : ℤ) : Option (ℕ × List UInt8) := do
  let value := magnitude svalue
  let length := digits10 value + if svalue < 0 then 1 else 0
  if length ≥ dst.length then some (0, dst)
  else
    let dst ← put dst length 0
    let (dst, value, next) ← pairsLoop length dst value (sub32 length 1)
    let dst ← putLast dst value next
    let dst ← if svalue < 0 then put dst 0 minus else some dst
    some (length, dst)

/-- The loop of `string2ll`, in words. -/
def digitsLoopWords : UInt64 → List UInt8 → Option (UInt64 × List UInt8)
  | v, [] => some (v, [])
  | v, b :: p =>
    if zero ≤ b ∧ b ≤ nine then
      if v > UInt64.ofNat ullongMax / 10 then none
      else
        let v := v * 10
        if v > UInt64.ofNat ullongMax - (b - zero).toUInt64 then none
        else digitsLoopWords (v + (b - zero).toUInt64) p
    else some (v, b :: p)

/-- `string2ll` after the sign, in words. -/
def string2llAbsWords (negative : Bool) : List UInt8 → Option Int64
  | [] => none
  | b :: p =>
    if zero + 1 ≤ b ∧ b ≤ nine then
      match digitsLoopWords (b - zero).toUInt64 p with
      | none => none
      | some (v, rest) =>
        if rest ≠ [] then none
        else if negative then
          if v > UInt64.ofNat llongMax + 1 then none else some (-v).toInt64
        else if v > UInt64.ofNat llongMax then none
        else some v.toInt64
    else none

/-- `string2ll`, in words. -/
def string2llWords : List UInt8 → Option Int64
  | [] => none
  | b :: p =>
    if b = zero ∧ p = [] then some 0
    else if b = minus then string2llAbsWords true p
    else string2llAbsWords false (b :: p)

/-! ### `ziplist.c` -/

/-- `zipTryEncoding`: the value and its encoding. -/
def zipTryEncoding (entry : List UInt8) : Option (ℤ × UInt8) :=
  if entry.length ≥ 32 ∨ entry.length = 0 then none
  else
    match string2ll entry with
    | none => none
    | some value =>
      some (value,
        if 0 ≤ value ∧ value ≤ 12 then 0xf1 + .ofNat value.toNat
        else if -2 ^ 7 ≤ value ∧ value ≤ 2 ^ 7 - 1 then 0xfe
        else if -2 ^ 15 ≤ value ∧ value ≤ 2 ^ 15 - 1 then 0xc0
        else if -2 ^ 23 ≤ value ∧ value ≤ 2 ^ 23 - 1 then 0xf0
        else if -2 ^ 31 ≤ value ∧ value ≤ 2 ^ 31 - 1 then 0xd0
        else 0xe0)

/-- `zipSaveInteger`, unless an assertion fails. -/
def zipSaveInteger (p : List UInt8) (value : ℤ) (encoding : UInt8) : Option (List UInt8) :=
  if encoding = 0xfe then some (overwrite p 0 (bytesOfInt 1 value))
  else if encoding = 0xc0 then some (overwrite p 0 (bytesOfInt 2 value))
  else if encoding = 0xf0 then some (overwrite p 0 ((bytesOfInt 4 (value * 2 ^ 8)).drop 1))
  else if encoding = 0xd0 then some (overwrite p 0 (bytesOfInt 4 value))
  else if encoding = 0xe0 then some (overwrite p 0 (bytesOfInt 8 value))
  else if 0xf1 ≤ encoding ∧ encoding ≤ 0xfd then some p
  else none

/-- `zipLoadInteger`, unless an assertion fails. -/
def zipLoadInteger (p : List UInt8) (encoding : UInt8) : Option ℤ :=
  if encoding = 0xfe then some (intOfBytes (slice p 0 1))
  else if encoding = 0xc0 then some (intOfBytes (slice p 0 2))
  else if encoding = 0xd0 then some (intOfBytes (slice p 0 4))
  else if encoding = 0xf0 then some (intOfBytes (0 :: slice p 0 3) / 2 ^ 8)
  else if encoding = 0xe0 then some (intOfBytes (slice p 0 8))
  else if 0xf1 ≤ encoding ∧ encoding ≤ 0xfd then some ((encoding &&& 0x0f).toNat - 1)
  else none

/-! ### Counting digits -/

/-- The text of an integer. -/
def text (v : ℤ) : List UInt8 :=
  if v < 0 then minus :: decimal v.natAbs else decimal v.natAbs

theorem magnitude_eq (v : ℤ) : magnitude v = v.natAbs := by
  rw [magnitude, llongMax]
  split
  · split <;> omega
  · omega

/-- **The comparison tree** counts the digits. -/
theorem digits10_eq (v : ℕ) : digits10 v = (decimal v).length := by
  induction v using Nat.strong_induction_on with
  | _ v ih =>
    have hlen : ∀ k, 10 ^ k ≤ v → v < 10 ^ (k + 1) → (decimal v).length = k + 1 :=
      fun k hlo hhi => length_decimal_eq hlo hhi
    rw [digits10]
    by_cases h₁ : v < 10
    · rw [if_pos h₁, decimal_of_lt h₁, length_singleton]
    · by_cases hbig : v < 1000000000000
      · split
        · omega
        · split_ifs <;> first
            | exact (hlen 1 (by omega) (by omega)).symm
            | exact (hlen 2 (by omega) (by omega)).symm
            | exact (hlen 3 (by omega) (by omega)).symm
            | exact (hlen 4 (by omega) (by omega)).symm
            | exact (hlen 5 (by omega) (by omega)).symm
            | exact (hlen 6 (by omega) (by omega)).symm
            | exact (hlen 7 (by omega) (by omega)).symm
            | exact (hlen 8 (by omega) (by omega)).symm
            | exact (hlen 9 (by omega) (by omega)).symm
            | exact (hlen 10 (by omega) (by omega)).symm
            | exact (hlen 11 (by omega) (by omega)).symm
      · rw [if_neg (by omega), if_neg (by omega), if_neg (by omega), if_neg hbig,
          ih (v / 1000000000000) (by omega)]
        exact (length_decimal_div (k := 12) (by omega)).symm

theorem length_text (v : ℤ) : (text v).length = sdigits10 v := by
  rw [text, sdigits10, magnitude_eq, digits10_eq]
  split <;> rfl

/-! ### Printing -/

variable {dst src s p : List UInt8} {c : UInt8} {v : ℤ} {value i n fuel neg : ℕ}

theorem sub32_of_le {a b : ℕ} (hb : b ≤ a) (ha : a < 2 ^ 32) : sub32 a b = a - b := by
  rw [sub32]
  omega

/-- A byte is written before those that are there. -/
theorem put_overwrite (h : i + 1 + src.length ≤ dst.length) :
    put (overwrite dst (i + 1) src) i c = some (overwrite dst i (c :: src)) := by
  have hlen : (dst.take (i + 1)).length = i + 1 := length_take_of_le (by omega)
  have hfirst : (overwrite dst (i + 1) src).take i = dst.take i := by
    rw [overwrite, List.append_assoc, take_append_of_le_length (by omega), take_take,
      Nat.min_eq_left (by omega)]
  have hrest : (overwrite dst (i + 1) src).drop (i + 1)
      = src ++ dst.drop (i + 1 + src.length) := by
    rw [overwrite, List.append_assoc, drop_append_of_le_length (by omega),
      drop_eq_nil_of_le (by omega), nil_append]
  have hi : i < (overwrite dst (i + 1) src).length := by
    rw [length_overwrite h]
    omega
  rw [put, if_pos hi, set_eq_take_append_cons_drop, if_pos hi, hfirst, hrest, overwrite,
    length_cons, List.append_assoc, List.cons_append, show i + (src.length + 1) = i + 1 + src.length by omega]

theorem getD_pairs (f g : ℕ → UInt8) (l : List ℕ) {k : ℕ} (hk : k < l.length) :
    (l.flatMap fun x => [f x, g x]).getD (k * 2) 0 = f l[k] ∧
      (l.flatMap fun x => [f x, g x]).getD (k * 2 + 1) 0 = g l[k] := by
  induction l generalizing k with
  | nil => cases hk
  | cons x l ih =>
    cases k with
    | zero => exact ⟨rfl, rfl⟩
    | succ k =>
      rw [Nat.succ_mul]
      exact ih (Nat.lt_of_succ_lt_succ hk)

theorem digits_getD (k : ℕ) (hk : k < 100) : digits.getD (k * 2) 0 = digit (k / 10)
    ∧ digits.getD (k * 2 + 1) 0 = digit (k % 10) := by
  have hpair := getD_pairs (fun k => digit (k / 10)) (fun k => digit (k % 10)) (List.range 100)
    (k := k) (by rwa [length_range])
  rwa [getElem_range] at hpair

/-- Two digits are written before the bytes that are there. -/
theorem putPair_overwrite {k : ℕ} (hk : k < 100) (hn : n + 2 < 2 ^ 32)
    (h : n + 2 + src.length ≤ dst.length) :
    putPair (overwrite dst (n + 2) src) (n + 1) (k * 2)
      = some (overwrite dst n (digit (k / 10) :: digit (k % 10) :: src)) := by
  rw [putPair, (digits_getD k hk).1, (digits_getD k hk).2, put_overwrite h, bind_eq_bind,
    bind_some, sub32_of_le (by omega) (by omega), Nat.add_sub_cancel, put_overwrite]
  rw [length_cons]
  omega

theorem decimal_of_hundred_le (h : 100 ≤ n) :
    decimal n = decimal (n / 100) ++ [digit (n % 100 / 10), digit (n % 100 % 10)] := by
  rw [decimal_of_le (by omega), decimal_of_le (n := n / 10) (by omega), Nat.div_div_eq_div_mul,
    List.append_assoc, singleton_append, show n / 10 % 10 = n % 100 / 10 by omega,
    show n % 100 % 10 = n % 10 by omega]

/-- **The loop and the last digits** write the text in front of what is there: the induction is on the
rounds, and of the number only the digits not yet written are left. -/
theorem pairsLoop_spec (fuel : ℕ) : ∀ value src, (decimal value).length ≤ fuel →
    neg + (decimal value).length < 2 ^ 32 →
    neg + (decimal value).length + src.length ≤ dst.length →
    (pairsLoop fuel (overwrite dst (neg + (decimal value).length) src) value
        (sub32 (neg + (decimal value).length) 1)).bind (fun r => putLast r.1 r.2.1 r.2.2)
      = some (overwrite dst neg (decimal value ++ src)) := by
  induction fuel with
  | zero =>
    intro value src hfuel
    exact absurd (length_eq_zero_iff.mp (Nat.le_zero.mp hfuel)) (decimal_ne_nil value)
  | succ fuel ih =>
    intro value src hfuel hword hfit
    have hpos := length_pos_of_ne_nil (decimal_ne_nil value)
    rw [sub32_of_le (by omega) hword, pairsLoop]
    by_cases hbig : 100 ≤ value
    · have hrest := length_pos_of_ne_nil (decimal_ne_nil (value / 100))
      have hlen : (decimal value).length = (decimal (value / 100)).length + 2 := by
        rw [decimal_of_hundred_le hbig, length_append]
        rfl
      have hnext : sub32 (neg + (decimal value).length - 1) 2
          = sub32 (neg + (decimal (value / 100)).length) 1 := by
        rw [sub32_of_le (by omega) (by omega), sub32_of_le (by omega) (by omega)]
        omega
      have hput : putPair (overwrite dst (neg + (decimal value).length) src)
          (neg + (decimal value).length - 1) (value % 100 * 2)
            = some (overwrite dst (neg + (decimal (value / 100)).length)
                (digit (value % 100 / 10) :: digit (value % 100 % 10) :: src)) := by
        rw [hlen, show neg + ((decimal (value / 100)).length + 2) - 1
          = neg + (decimal (value / 100)).length + 1 by omega, ← Nat.add_assoc]
        exact putPair_overwrite (Nat.mod_lt _ (by omega)) (by omega) (by omega)
      have hloop := ih (value / 100) (digit (value % 100 / 10) :: digit (value % 100 % 10) :: src)
        (by omega) (by omega) (by rw [length_cons, length_cons]; omega)
      rw [if_pos hbig, hput, hnext]
      refine hloop.trans ?_
      rw [decimal_of_hundred_le hbig, List.append_assoc]
      rfl
    · rw [if_neg hbig, bind_some, putLast]
      by_cases hone : value < 10
      · have hdec := decimal_of_lt hone
        rw [hdec, length_singleton] at hfit
        rw [if_pos hone, hdec, length_singleton, Nat.add_sub_cancel, put_overwrite hfit]
        rfl
      · have hdec : decimal value = [digit (value / 10), digit (value % 10)] := by
          rw [decimal_of_le (by omega), decimal_of_lt (by omega)]
          rfl
        have hlen : (decimal value).length = 2 := by rw [hdec]; rfl
        rw [hlen] at hfit hword
        rw [if_neg hone, hlen, show neg + 2 - 1 = neg + 1 by omega]
        have hput := putPair_overwrite (k := value) (by omega) hword hfit
        rw [hput, hdec]
        rfl

/-- **Printing** writes the text and a zero at the front of the buffer. -/
theorem ll2string_spec (hlo : -2 ^ 63 ≤ v) (hhi : v < 2 ^ 63) (h : sdigits10 v < dst.length) :
    ll2string dst v = some (sdigits10 v, overwrite dst 0 (text v ++ [0])) := by
  have hshort : (decimal v.natAbs).length ≤ 20 :=
    (length_decimal_le_iff (by omega)).mpr (by omega)
  have hpos := length_pos_of_ne_nil (decimal_ne_nil v.natAbs)
  obtain ⟨neg, hneg, hlen, hsign⟩ : ∃ neg ≤ 1, sdigits10 v = neg + (decimal v.natAbs).length
      ∧ neg = if v < 0 then 1 else 0 := by
    refine ⟨if v < 0 then 1 else 0, by split <;> omega, ?_, rfl⟩
    rw [sdigits10, magnitude_eq, digits10_eq]
    split <;> omega
  have hfirst : put dst (neg + (decimal v.natAbs).length) 0
      = some (overwrite dst (neg + (decimal v.natAbs).length) [0]) := by
    have hself : overwrite dst (neg + (decimal v.natAbs).length + 1) [] = dst := by
      rw [overwrite, append_nil, length_nil, Nat.add_zero, take_append_drop]
    have hfit : neg + (decimal v.natAbs).length + 1 + ([] : List UInt8).length ≤ dst.length := by
      rw [length_nil]
      omega
    have hput := put_overwrite (c := 0) hfit
    rwa [hself] at hput
  have hfit : neg + (decimal v.natAbs).length + [(0 : UInt8)].length ≤ dst.length := by
    rw [length_singleton]
    omega
  have hloop := pairsLoop_spec (sdigits10 v) v.natAbs [0] (by omega) (by omega) hfit
  have hlength : digits10 v.natAbs + (if v < 0 then 1 else 0) = sdigits10 v := by
    rw [sdigits10, magnitude_eq]
    split <;> omega
  have hmag := magnitude_eq v
  rw [ll2string]
  simp only [hmag, hlength, bind_eq_bind]
  rw [if_neg (by omega), hlen, hfirst, bind_some]
  rw [hlen] at hloop
  obtain ⟨r, hr, hlast⟩ := bind_eq_some_iff.mp hloop
  rw [hr, bind_some]
  simp only [hlast, bind_some]
  by_cases hv : v < 0
  · rw [if_pos hv] at hsign
    subst hsign
    rw [if_pos hv, put_overwrite (by rw [length_append, length_singleton]; omega), text,
      if_pos hv]
    rfl
  · rw [if_neg hv] at hsign
    subst hsign
    rw [if_neg hv, text, if_neg hv]

/-! ### Reading -/

theorem isDigit_iff {b : UInt8} : zero ≤ b ∧ b ≤ nine ↔ IsDigit b := by
  rw [UInt8.le_iff_toNat_le, UInt8.le_iff_toNat_le]
  rfl

/-- **The loop** reads the digits that are left, unless the value does not fit. -/
theorem digitsLoop_iff (value : ℕ) (hv : value ≤ ullongMax) :
    digitsLoop value p = some (n, [])
      ↔ (∀ b ∈ p, IsDigit b) ∧ n = valueFrom value p ∧ n ≤ ullongMax := by
  induction p generalizing value with
  | nil =>
    rw [digitsLoop, valueFrom_nil, some_inj, Prod.mk.injEq]
    constructor
    · rintro ⟨h, -⟩
      exact ⟨fun b hb => absurd hb not_mem_nil, h.symm, h ▸ hv⟩
    · rintro ⟨-, h, -⟩
      exact ⟨h.symm, rfl⟩
  | cons b p ih =>
    rw [digitsLoop, valueFrom_cons, forall_mem_cons]
    by_cases hb : IsDigit b
    · have hdigit := hb
      rw [IsDigit] at hdigit
      have hmore := le_valueFrom (10 * value + (b.toNat - 48)) p
      have hstep : value * 10 + (b.toNat - zero.toNat) = 10 * value + (b.toNat - 48) := by
        rw [mul_comm]
        rfl
      have hzero : zero.toNat = 48 := rfl
      rw [if_pos (isDigit_iff.mpr hb)]
      by_cases hfit : 10 * value + (b.toNat - 48) ≤ ullongMax
      · rw [if_neg (by rw [ullongMax] at *; omega), if_neg (by rw [hzero]; rw [ullongMax] at *; omega),
          hstep, ih _ hfit]
        exact ⟨fun h => ⟨⟨hb, h.1⟩, h.2⟩, fun h => ⟨h.1.2, h.2⟩⟩
      · constructor
        · intro h
          exfalso
          rw [hzero] at h
          split_ifs at h with h₁ h₂
          rw [ullongMax] at *
          omega
        · rintro ⟨-, rfl, hle⟩
          exact absurd (hmore.trans hle) hfit
    · rw [if_neg (mt isDigit_iff.mp hb)]
      constructor
      · intro h
        cases h
      · rintro ⟨⟨h, -⟩, -⟩
        exact absurd h hb

/-- The largest magnitude after a sign. -/
def limit (negative : Bool) : ℕ := if negative then 2 ^ 63 else 2 ^ 63 - 1

theorem string2llAbs_cons_iff (negative : Bool) (b : UInt8) (p : List UInt8) :
    string2llAbs negative (b :: p) = some v
      ↔ (49 ≤ b.toNat ∧ b.toNat ≤ 57) ∧ ∃ n, digitsLoop (b.toNat - 48) p = some (n, [])
        ∧ n ≤ limit negative ∧ v = if negative then -(n : ℤ) else n := by
  have hrange : zero + 1 ≤ b ∧ b ≤ nine ↔ 49 ≤ b.toNat ∧ b.toNat ≤ 57 := by
    rw [UInt8.le_iff_toNat_le, UInt8.le_iff_toNat_le]
    rfl
  have hzero : zero.toNat = 48 := rfl
  rw [string2llAbs, hzero, ← hrange]
  by_cases hfirst : zero + 1 ≤ b ∧ b ≤ nine
  · rw [if_pos hfirst, and_iff_right hfirst]
    cases digitsLoop (b.toNat - 48) p with
    | none => simp
    | some r =>
      obtain ⟨n, rest⟩ := r
      cases rest with
      | cons c rest => simp
      | nil => cases negative <;> simp [limit, llongMax, eq_comm]
  · rw [if_neg hfirst]
    exact ⟨fun h => (by cases h), fun h => absurd h.1 hfirst⟩

/-- **After the sign** comes the text of a positive number. -/
theorem string2llAbs_iff (negative : Bool) (s : List UInt8) :
    string2llAbs negative s = some v
      ↔ ∃ n, 0 < n ∧ n ≤ limit negative ∧ s = decimal n ∧ v = if negative then -(n : ℤ) else n := by
  cases s with
  | nil =>
    refine ⟨nofun, ?_⟩
    rintro ⟨n, -, -, h, -⟩
    exact absurd h.symm (decimal_ne_nil n)
  | cons b p =>
    have hvalue : valueFrom 0 (b :: p) = valueFrom (b.toNat - 48) p := by
      rw [valueFrom_cons, mul_zero, zero_add]
    have hfits : ∀ n, n ≤ limit negative → n ≤ ullongMax := by
      intro n hn
      rw [limit] at hn
      rw [ullongMax]
      split at hn <;> omega
    rw [string2llAbs_cons_iff]
    constructor
    · rintro ⟨hb, n, hloop, hle, hv⟩
      obtain ⟨hdig, hn, -⟩ := (digitsLoop_iff _ (by rw [ullongMax]; omega)).mp hloop
      have hmore := le_valueFrom (b.toNat - 48) p
      rw [← hvalue] at hn hmore
      have hall : ∀ c ∈ b :: p, IsDigit c := by
        rw [forall_mem_cons]
        exact ⟨⟨by omega, hb.2⟩, hdig⟩
      refine ⟨n, by omega, hle, ?_, hv⟩
      rw [hn]
      refine (decimal_valueFrom (cons_ne_nil b p) hall fun hlead => ?_).symm
      rw [head?_cons, some_inj] at hlead
      rw [hlead] at hb
      exact absurd hb.1 (by decide)
    · rintro ⟨n, hpos, hle, hs, hv⟩
      have hall : ∀ c ∈ b :: p, IsDigit c := hs ▸ isDigit_of_mem
      rw [forall_mem_cons] at hall
      have hb := hall.1
      rw [IsDigit] at hb
      have hn : valueFrom (b.toNat - 48) p = n := by
        rw [← hvalue, hs, valueFrom_decimal]
      have hhead := head_decimal hpos
      rw [← hs, head?_cons, ne_eq, some_inj] at hhead
      have hfirst : b.toNat ≠ 48 := fun h => hhead (UInt8.toNat_inj.mp h)
      refine ⟨⟨by omega, hb.2⟩, n, ?_, hle, hv⟩
      exact (digitsLoop_iff _ (by rw [ullongMax]; omega)).mpr ⟨hall.2, hn.symm, hfits n hle⟩

theorem decimal_ne_minus (n : ℕ) (p : List UInt8) : decimal n ≠ minus :: p := by
  intro h
  have hdig := isDigit_of_mem minus (h ▸ mem_cons_self)
  exact absurd hdig (by decide)

theorem text_ne_nil (v : ℤ) : text v ≠ [] := by
  rw [text]
  split
  · exact cons_ne_nil _ _
  · exact decimal_ne_nil _

theorem text_zero : text 0 = [zero] := by
  rw [text, if_neg (by omega), Int.natAbs_zero, decimal_of_lt (by omega)]
  rfl

theorem string2llAbs_true_iff (p : List UInt8) :
    string2llAbs true p = some v ↔ (-2 ^ 63 ≤ v ∧ v < 2 ^ 63) ∧ minus :: p = text v := by
  rw [string2llAbs_iff, limit, if_pos rfl]
  constructor
  · rintro ⟨n, hpos, hle, hp, hv⟩
    rw [if_pos rfl] at hv
    refine ⟨by omega, ?_⟩
    rw [text, if_pos (by omega), hp, show v.natAbs = n by omega]
  · rintro ⟨hrange, hp⟩
    rw [text] at hp
    split at hp
    · rw [List.cons.injEq] at hp
      exact ⟨v.natAbs, by omega, by omega, hp.2, by rw [if_pos rfl]; omega⟩
    · exact absurd hp.symm (decimal_ne_minus _ _)

theorem string2llAbs_false_iff (hzero : s ≠ [zero]) (hminus : s.head? ≠ some minus) :
    string2llAbs false s = some v ↔ (-2 ^ 63 ≤ v ∧ v < 2 ^ 63) ∧ s = text v := by
  rw [string2llAbs_iff, limit, if_neg (by decide)]
  constructor
  · rintro ⟨n, hpos, hle, hs, hv⟩
    rw [if_neg (by decide)] at hv
    refine ⟨by omega, ?_⟩
    rw [text, if_neg (by omega), hs, show v.natAbs = n by omega]
  · rintro ⟨hrange, hs⟩
    by_cases hv : v < 0
    · rw [hs, text, if_pos hv] at hminus
      exact absurd rfl hminus
    · have hne : v ≠ 0 := by
        rintro rfl
        exact hzero (hs.trans text_zero)
      rw [text, if_neg hv] at hs
      exact ⟨v.natAbs, by omega, by omega, hs, by rw [if_neg (by decide)]; omega⟩

/-- **Reading** succeeds on the text of a number in range, and on no other. -/
theorem string2ll_iff (s : List UInt8) :
    string2ll s = some v ↔ (-2 ^ 63 ≤ v ∧ v < 2 ^ 63) ∧ s = text v := by
  cases s with
  | nil => exact ⟨nofun, fun h => absurd h.2.symm (text_ne_nil v)⟩
  | cons b p =>
    rw [string2ll]
    by_cases hone : b = zero ∧ p = []
    · rw [if_pos hone, hone.1, hone.2, some_inj]
      constructor
      · rintro rfl
        exact ⟨by omega, text_zero.symm⟩
      · rintro ⟨hrange, hv⟩
        have hdigits := hv
        rw [text] at hdigits
        split at hdigits
        · exact absurd (List.cons.inj hdigits).1 (by decide)
        · have hvalue := valueFrom_decimal v.natAbs
          rw [← hdigits] at hvalue
          have hnil : valueFrom 0 [zero] = 0 := rfl
          omega
    · rw [if_neg hone]
      by_cases hsign : b = minus
      · rw [if_pos hsign, hsign]
        exact string2llAbs_true_iff p
      · rw [if_neg hsign]
        refine string2llAbs_false_iff (fun h => hone (List.cons.inj h)) ?_
        rw [head?_cons, ne_eq, some_inj]
        exact hsign

/-! ### Words of 64 bits -/

/-- **The loop in words** is the loop over numbers: what would wrap is rejected. -/
theorem digitsLoopWords_eq (value : UInt64) (p : List UInt8) :
    (digitsLoopWords value p).map (fun r => (r.1.toNat, r.2)) = digitsLoop value.toNat p := by
  induction p generalizing value with
  | nil => rfl
  | cons b p ih =>
    rw [digitsLoopWords, digitsLoop]
    by_cases hb : zero ≤ b ∧ b ≤ nine
    · have hdigit : (b - zero).toUInt64.toNat = b.toNat - zero.toNat :=
        UInt8.toNat_sub_of_le b zero hb.1
      have hsmall := isDigit_iff.mp hb
      rw [IsDigit] at hsmall
      have hzero : zero.toNat = 48 := rfl
      have hmax : (UInt64.ofNat ullongMax).toNat = ullongMax := rfl
      have hten : value > UInt64.ofNat ullongMax / 10 ↔ value.toNat > ullongMax / 10 :=
        UInt64.lt_iff_toNat_lt
      simp only [if_pos hb]
      by_cases hover : value.toNat > ullongMax / 10
      · rw [if_pos (hten.mpr hover), if_pos hover]
        rfl
      · have hmul : (value * 10).toNat = value.toNat * 10 := by
          have hlit : (10 : UInt64).toNat = 10 := rfl
          rw [ullongMax] at hover
          rw [UInt64.toNat_mul, hlit]
          exact Nat.mod_eq_of_lt (by omega)
        have hsub : (UInt64.ofNat ullongMax - (b - zero).toUInt64).toNat
            = ullongMax - (b.toNat - zero.toNat) := by
          rw [UInt64.toNat_sub_of_le, hmax, hdigit]
          rw [UInt64.le_iff_toNat_le, hdigit, hmax, ullongMax]
          omega
        have hadd : value * 10 > UInt64.ofNat ullongMax - (b - zero).toUInt64
            ↔ value.toNat * 10 > ullongMax - (b.toNat - zero.toNat) := by
          rw [gt_iff_lt, UInt64.lt_iff_toNat_lt, hsub, hmul]
        rw [if_neg (mt hten.mp hover), if_neg hover]
        by_cases hover' : value.toNat * 10 > ullongMax - (b.toNat - zero.toNat)
        · rw [if_pos (hadd.mpr hover'), if_pos hover']
          rfl
        · have hsum : (value * 10 + (b - zero).toUInt64).toNat
              = value.toNat * 10 + (b.toNat - zero.toNat) := by
            rw [UInt64.toNat_add, hmul, hdigit]
            refine Nat.mod_eq_of_lt ?_
            rw [ullongMax] at hover'
            omega
          rw [if_neg (mt hadd.mp hover'), if_neg hover', ih, hsum]
    · rw [if_neg hb, if_neg hb]
      rfl

theorem toInt_toInt64 (x : UInt64) :
    x.toInt64.toInt = if 2 * x.toNat < 2 ^ 64 then (x.toNat : ℤ) else x.toNat - 2 ^ 64 :=
  BitVec.toInt_eq_toNat_cond x.toBitVec

theorem string2llAbsWords_eq (negative : Bool) (p : List UInt8) :
    (string2llAbsWords negative p).map Int64.toInt = string2llAbs negative p := by
  cases p with
  | nil => rfl
  | cons b p =>
    rw [string2llAbsWords, string2llAbs]
    by_cases hfirst : zero + 1 ≤ b ∧ b ≤ nine
    · have hdigit : (b - zero).toUInt64.toNat = b.toNat - zero.toNat := by
        refine UInt8.toNat_sub_of_le b zero ?_
        have hone : (zero + 1).toNat ≤ b.toNat := UInt8.le_iff_toNat_le.mp hfirst.1
        exact UInt8.le_iff_toNat_le.mpr (le_trans (by decide) hone)
      have hloop := digitsLoopWords_eq (b - zero).toUInt64 p
      rw [hdigit] at hloop
      rw [if_pos hfirst, if_pos hfirst, ← hloop]
      cases digitsLoopWords (b - zero).toUInt64 p with
      | none => rfl
      | some r =>
        obtain ⟨v, rest⟩ := r
        simp only [map_some]
        by_cases hrest : rest ≠ []
        · rw [if_pos hrest, if_pos hrest]
          rfl
        · rw [if_neg hrest, if_neg hrest]
          have hmin : v > UInt64.ofNat llongMax + 1 ↔ v.toNat > llongMax + 1 :=
            UInt64.lt_iff_toNat_lt
          have hmax : v > UInt64.ofNat llongMax ↔ v.toNat > llongMax := UInt64.lt_iff_toNat_lt
          cases negative with
          | true =>
            rw [if_pos rfl, if_pos rfl]
            by_cases hbig : v.toNat > llongMax + 1
            · rw [if_pos (hmin.mpr hbig), if_pos hbig]
              rfl
            · rw [if_neg (mt hmin.mp hbig), if_neg hbig, map_some, toInt_toInt64,
                UInt64.toNat_neg, UInt64.size]
              rw [llongMax] at hbig
              congr 1
              split <;> omega
          | false =>
            rw [if_neg Bool.false_ne_true, if_neg Bool.false_ne_true]
            by_cases hbig : v.toNat > llongMax
            · rw [if_pos (hmax.mpr hbig), if_pos hbig]
              rfl
            · rw [if_neg (mt hmax.mp hbig), if_neg hbig, map_some, toInt_toInt64]
              rw [llongMax] at hbig
              congr 1
              split <;> omega
    · rw [if_neg hfirst, if_neg hfirst]
      rfl

/-- **Reading in words** is reading over numbers. -/
theorem string2llWords_eq (s : List UInt8) : (string2llWords s).map Int64.toInt = string2ll s := by
  cases s with
  | nil => rfl
  | cons b p =>
    rw [string2llWords, string2ll]
    split
    · rfl
    · split
      · exact string2llAbsWords_eq true p
      · exact string2llAbsWords_eq false (b :: p)

/-! ### Ziplist integers -/

theorem zipTryEncoding_spec {enc : UInt8} (h : zipTryEncoding s = some (v, enc)) :
    string2ll s = some v
      ∧ ((0 ≤ v ∧ v ≤ 12 ∧ enc = 0xf1 + .ofNat v.toNat)
        ∨ (enc = 0xfe ∧ -2 ^ 7 ≤ v ∧ v < 2 ^ 7) ∨ (enc = 0xc0 ∧ -2 ^ 15 ≤ v ∧ v < 2 ^ 15)
        ∨ (enc = 0xf0 ∧ -2 ^ 23 ≤ v ∧ v < 2 ^ 23) ∨ (enc = 0xd0 ∧ -2 ^ 31 ≤ v ∧ v < 2 ^ 31)
        ∨ enc = 0xe0) := by
  rw [zipTryEncoding] at h
  split at h
  · cases h
  · cases hread : string2ll s with
    | none => simp [hread] at h
    | some value =>
      simp only [hread, some_inj, Prod.mk.injEq] at h
      obtain ⟨rfl, henc⟩ := h
      refine ⟨rfl, ?_⟩
      split_ifs at henc with h₁ h₂ h₃ h₄ h₅
      · exact .inl ⟨h₁.1, h₁.2, henc.symm⟩
      · exact .inr (.inl ⟨henc.symm, by omega, by omega⟩)
      · exact .inr (.inr (.inl ⟨henc.symm, by omega, by omega⟩))
      · exact .inr (.inr (.inr (.inl ⟨henc.symm, by omega, by omega⟩)))
      · exact .inr (.inr (.inr (.inr (.inl ⟨henc.symm, by omega, by omega⟩))))
      · exact .inr (.inr (.inr (.inr (.inr henc.symm))))

/-- A value in `n` bytes is read back, whatever stands behind it. -/
theorem load_save {k : ℕ} (hk : 0 < k) (hlo : -(2 ^ (8 * k - 1)) ≤ v) (hhi : v < 2 ^ (8 * k - 1))
    (h : k ≤ p.length) : intOfBytes (slice (overwrite p 0 (bytesOfInt k v)) 0 k) = v := by
  have hfit : 0 + (bytesOfInt k v).length ≤ p.length := by
    rw [length_bytesOfInt]
    omega
  have hself := slice_overwrite_self hfit
  rw [length_bytesOfInt] at hself
  rw [hself, intOfBytes_bytesOfInt hk hlo hhi]

/-- Three bytes are the upper ones of four. -/
theorem load_save_24 (hlo : -2 ^ 23 ≤ v) (hhi : v < 2 ^ 23) (h : 3 ≤ p.length) :
    intOfBytes (0 :: slice (overwrite p 0 ((bytesOfInt 4 (v * 2 ^ 8)).drop 1)) 0 3) / 2 ^ 8 = v := by
  have hlow : (v * 2 ^ 8 % 256).toNat = 0 := by omega
  have hbytes : bytesOfInt 4 (v * 2 ^ 8) = 0 :: bytesOfInt 3 (v * 2 ^ 8 / 256) := by
    rw [bytesOfInt, hlow]
    rfl
  have hfit : 0 + (bytesOfInt 3 (v * 2 ^ 8 / 256)).length ≤ p.length := by
    rw [length_bytesOfInt]
    omega
  have hself := slice_overwrite_self hfit
  rw [length_bytesOfInt] at hself
  rw [hbytes, drop_succ_cons, drop_zero, hself, ← hbytes,
    intOfBytes_bytesOfInt (by omega) (by omega) (by omega)]
  omega

/-- **The entry of an integer** is read as it was saved. -/
theorem zipLoad_zipSave {enc : UInt8} (h : zipTryEncoding s = some (v, enc))
    (hp : zipIntSize enc ≤ p.length) :
    ∃ p', zipSaveInteger p v enc = some p' ∧ zipLoadInteger p' enc = some v := by
  obtain ⟨hread, hcases⟩ := zipTryEncoding_spec h
  have hrange := ((string2ll_iff s).mp hread).1
  rcases hcases with ⟨hlo, hhi, henc⟩ | ⟨rfl, hlo, hhi⟩ | ⟨rfl, hlo, hhi⟩ | ⟨rfl, hlo, hhi⟩
    | ⟨rfl, hlo, hhi⟩ | rfl
  · -- the encoding holds the value, one of thirteen
    obtain ⟨n, rfl⟩ := Int.eq_ofNat_of_zero_le hlo
    rw [Int.toNat_natCast] at henc
    have hn : n ≤ 12 := by omega
    subst henc
    interval_cases n <;> exact ⟨p, rfl, rfl⟩
  · exact ⟨_, rfl, congrArg some (load_save (by omega) hlo hhi hp)⟩
  · exact ⟨_, rfl, congrArg some (load_save (by omega) hlo hhi hp)⟩
  · exact ⟨_, rfl, congrArg some (load_save_24 hlo hhi hp)⟩
  · exact ⟨_, rfl, congrArg some (load_save (by omega) hlo hhi hp)⟩
  · exact ⟨_, rfl, congrArg some (load_save (by omega) hrange.1 hrange.2 hp)⟩

/-! ### What the text of an integer is -/

theorem text_injective {w : ℤ} (h : text v = text w) : v = w := by
  have hvalue : ∀ u, valueFrom 0 (decimal u) = u := valueFrom_decimal
  rw [text, text] at h
  split_ifs at h with hv hw hw
  · have habs := congrArg (valueFrom 0) (List.cons.inj h).2
    rw [hvalue, hvalue] at habs
    omega
  · exact absurd h.symm (decimal_ne_minus _ _)
  · exact absurd h (decimal_ne_minus _ _)
  · have habs := congrArg (valueFrom 0) h
    rw [hvalue, hvalue] at habs
    omega

/-- No plus, no leading zero and no negative zero. -/
structure Canonical (s : List UInt8) : Prop where
  plus : s.head? ≠ some 43
  leading : s.head? = some zero → s = [zero]
  negative : s.take 2 ≠ [minus, zero]

theorem decimal_leading (h : (decimal n).head? = some zero) : decimal n = [zero] := by
  by_cases hn : 0 < n
  · exact absurd h (head_decimal hn)
  · rw [show n = 0 by omega, decimal_of_lt (by omega)]
    rfl

theorem text_canonical (v : ℤ) : Canonical (text v) := by
  have hplus : ∀ n, (decimal n).head? ≠ some 43 := by
    intro n h
    exact absurd (isDigit_of_mem _ (mem_of_mem_head? h)) (by decide)
  by_cases hv : v < 0
  · rw [text, if_pos hv]
    refine ⟨fun h => absurd h (by rw [head?_cons]; decide),
      fun h => absurd h (by rw [head?_cons]; decide), ?_⟩
    intro h
    have hhead := head_decimal (n := v.natAbs) (by omega)
    rw [take_succ_cons, List.cons.injEq] at h
    have hfirst := congrArg head? h.2
    rw [head?_take, if_neg (by omega)] at hfirst
    exact hhead hfirst
  · rw [text, if_neg hv]
    refine ⟨hplus _, decimal_leading, ?_⟩
    intro h
    have hmem : minus ∈ (decimal v.natAbs).take 2 := h ▸ mem_cons_self
    exact absurd (isDigit_of_mem _ (mem_of_mem_take hmem)) (by decide)

/-- `ll2string` prints `v` as `s`, in every buffer with room for it. -/
def Prints (v : ℤ) (s : List UInt8) : Prop :=
  ∀ dst : List UInt8, s.length < dst.length
    → ll2string dst v = some (s.length, overwrite dst 0 (s ++ [0]))

theorem prints_iff (hlo : -2 ^ 63 ≤ v) (hhi : v < 2 ^ 63) : Prints v s ↔ s = text v := by
  constructor
  · intro h
    let dst : List UInt8 := List.replicate (s.length + (text v).length + 1) 0
    have hdst : dst.length = s.length + (text v).length + 1 := length_replicate
    have hboth := h dst (by omega)
    rw [ll2string_spec hlo hhi (by rw [← length_text]; omega), some_inj, Prod.mk.injEq,
      ← length_text] at hboth
    have hread := congrArg (take s.length) hboth.2
    rw [overwrite, overwrite, take_zero, nil_append, nil_append, List.append_assoc,
      List.append_assoc, take_left, ← hboth.1, take_left] at hread
    exact hread.symm
  · rintro rfl dst hdst
    rw [length_text] at hdst ⊢
    exact ll2string_spec hlo hhi hdst

/-- **Integers as text.**  A text is read as `v` if and only if it is what `v` is printed as, and that has
one form; reading in words of 64 bits is reading over unbounded numbers, so that nothing wraps; every
`v` is printed with the digits that were counted, or not at all if they do not fit, and read back; and an
entry of a ziplist is printed as it was. -/
theorem integerText_lossless :
    (∀ s v, string2ll s = some v ↔ (-2 ^ 63 ≤ v ∧ v < 2 ^ 63) ∧ Prints v s)
      ∧ (∀ s v, string2ll s = some v → Canonical s)
      ∧ (∀ s, (string2llWords s).map Int64.toInt = string2ll s)
      ∧ (∀ v : ℤ, ¬ (-2 ^ 63 ≤ v ∧ v < 2 ^ 63) → string2ll (text v) = none)
      ∧ (∀ v : ℤ, -2 ^ 63 ≤ v ∧ v < 2 ^ 63 → ∃ s, Prints v s
        ∧ s.length = digits10 v.natAbs + (if v < 0 then 1 else 0) ∧ s.length = sdigits10 v
        ∧ string2ll s = some v ∧ ∀ dst, dst.length ≤ s.length → ll2string dst v = some (0, dst))
      ∧ ∀ s v enc, zipTryEncoding s = some (v, enc) → ∀ p, zipIntSize enc ≤ p.length →
        ∃ p', zipSaveInteger p v enc = some p' ∧ ∃ w, zipLoadInteger p' enc = some w ∧ Prints w s := by
  refine ⟨fun s v => ?_, fun s v h => ?_, string2llWords_eq, fun v h => ?_, ?_, ?_⟩
  · rw [string2ll_iff]
    exact and_congr_right fun h => (prints_iff h.1 h.2).symm
  · rw [((string2ll_iff s).mp h).2]
    exact text_canonical v
  · refine eq_none_iff_forall_ne_some.mpr fun w hw => h ?_
    obtain ⟨hrange, heq⟩ := (string2ll_iff _).mp hw
    rwa [text_injective heq]
  · rintro v ⟨hlo, hhi⟩
    have hlen : sdigits10 v = digits10 v.natAbs + (if v < 0 then 1 else 0) := by
      rw [sdigits10, magnitude_eq]
      split <;> omega
    refine ⟨text v, (prints_iff hlo hhi).mpr rfl, ?_, length_text v,
      (string2ll_iff _).mpr ⟨⟨hlo, hhi⟩, rfl⟩, fun dst hdst => ?_⟩
    · rw [length_text, hlen]
    · rw [length_text, hlen, ← magnitude_eq] at hdst
      rw [ll2string]
      simp only [ge_iff_le, if_pos hdst]
  · intro s v enc h p hp
    obtain ⟨p', hsave, hload⟩ := zipLoad_zipSave h hp
    obtain ⟨⟨hlo, hhi⟩, hs⟩ := (string2ll_iff s).mp (zipTryEncoding_spec h).1
    exact ⟨p', hsave, v, hload, (prints_iff hlo hhi).mpr hs⟩

/-- The least number is printed with all its digits; `-100000` is kept in three bytes. -/
theorem integerText_lossless_three_bytes :
    (∃ s, Prints (-2 ^ 63) s ∧ s.length = 20 ∧ string2ll s = some (-2 ^ 63))
      ∧ ∃ p', zipSaveInteger [1, 2, 3] (-100000) 0xf0 = some p'
        ∧ ∃ w, zipLoadInteger p' 0xf0 = some w ∧ Prints w [45, 49, 48, 48, 48, 48, 48] := by
  obtain ⟨-, -, -, -, hprint, hzip⟩ := integerText_lossless
  obtain ⟨s, hs, hlen, -, hread, -⟩ := hprint (-2 ^ 63) (by decide)
  exact ⟨⟨s, hs, hlen.trans (by rw [digits10_eq]; decide), hread⟩,
    hzip [45, 49, 48, 48, 48, 48, 48] (-100000) 0xf0 (by decide) [1, 2, 3] (by decide)⟩

end SourceLibs.IntegerText
