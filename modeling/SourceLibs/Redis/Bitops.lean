import SourceLibs.Support.Bits
import SourceLibs.Support.BitStrings
import SourceLibs.Support.Lanes

/-!
# Redis — bitops

`redisPopcount` counts the bits that are set in a string, byte by byte up to an address that is a
multiple of 4, then seven words at a time, then byte by byte.  `redisBitpos` looks for the first bit
that is set or clear: it skips bytes up to an address that is a multiple of 8, then words, and scans
one word.  A word is loaded in the order of the machine.

* `Counts.fold`: the seven words that are folded into one multiplication.
* `skipBytes_spec`, `skipWords_spec`: what is skipped.
* `scanLoop_spec`: the word that is scanned.
* `bitops_exact`: the bits of the string.
-/

namespace SourceLibs.Bitops
open List BitStrings Blocks

/-! ### `redisPopcount` -/

/-- The bits that are set in a byte. -/
def bitsinbyte : List ℕ :=
  [0, 1, 1, 2, 1, 2, 2, 3, 1, 2, 2, 3, 2, 3, 3, 4, 1, 2, 2, 3, 2, 3, 3, 4, 2, 3, 3, 4, 3, 4, 4, 5,
   1, 2, 2, 3, 2, 3, 3, 4, 2, 3, 3, 4, 3, 4, 4, 5, 2, 3, 3, 4, 3, 4, 4, 5, 3, 4, 4, 5, 4, 5, 5, 6,
   1, 2, 2, 3, 2, 3, 3, 4, 2, 3, 3, 4, 3, 4, 4, 5, 2, 3, 3, 4, 3, 4, 4, 5, 3, 4, 4, 5, 4, 5, 5, 6,
   2, 3, 3, 4, 3, 4, 4, 5, 3, 4, 4, 5, 4, 5, 5, 6, 3, 4, 4, 5, 4, 5, 5, 6, 4, 5, 5, 6, 5, 6, 6, 7,
   1, 2, 2, 3, 2, 3, 3, 4, 2, 3, 3, 4, 3, 4, 4, 5, 2, 3, 3, 4, 3, 4, 4, 5, 3, 4, 4, 5, 4, 5, 5, 6,
   2, 3, 3, 4, 3, 4, 4, 5, 3, 4, 4, 5, 4, 5, 5, 6, 3, 4, 4, 5, 4, 5, 5, 6, 4, 5, 5, 6, 5, 6, 6, 7,
   2, 3, 3, 4, 3, 4, 4, 5, 3, 4, 4, 5, 4, 5, 5, 6, 3, 4, 4, 5, 4, 5, 5, 6, 4, 5, 5, 6, 5, 6, 6, 7,
   3, 4, 4, 5, 4, 5, 5, 6, 4, 5, 5, 6, 5, 6, 6, 7, 4, 5, 5, 6, 5, 6, 6, 7, 5, 6, 6, 7, 6, 7, 7, 8]

/-- The number with the given bytes, the first one least significant. -/
def littleEndian : List UInt8 → ℕ
  | [] => 0
  | c :: p => 256 * littleEndian p + c.toNat

/-- The word of `n` bytes at the start of `p`. -/
def load (bigEndian : Bool) (n : ℕ) (p : List UInt8) : ℕ :=
  littleEndian (if bigEndian then (p.take n).reverse else p.take n)

/-- The initial bytes not aligned to 32 bit. -/
def alignLoop (addr : ℕ) : List UInt8 → ℕ → ℕ × List UInt8
  | [], bits => (bits, [])
  | c :: p, bits =>
    if addr &&& 3 ≠ 0 then alignLoop (addr + 1) p (bits + bitsinbyte.getD c.toNat 0)
    else (bits, c :: p)

/-- The bits of each four bits of a word. -/
def fold (aux : BitVec 32) : BitVec 32 :=
  let aux := aux - ((aux >>> 1) &&& 0x55555555#32)
  (aux &&& 0x33333333#32) + ((aux >>> 2) &&& 0x33333333#32)

/-- The bits of each byte of a word that was folded. -/
def foldBytes (aux : BitVec 32) : BitVec 32 := (aux + (aux >>> 4)) &&& 0x0F0F0F0F#32

/-- The 28 bytes at a time. -/
def wordsLoop (bigEndian : Bool) (p : List UInt8) (bits : ℕ) : ℕ × List UInt8 :=
  if 28 ≤ p.length then
    let aux1 := fold (.ofNat 32 (load bigEndian 4 p))
    let aux2 := fold (.ofNat 32 (load bigEndian 4 (p.drop 4)))
    let aux3 := fold (.ofNat 32 (load bigEndian 4 (p.drop 8)))
    let aux4 := fold (.ofNat 32 (load bigEndian 4 (p.drop 12)))
    let aux5 := fold (.ofNat 32 (load bigEndian 4 (p.drop 16)))
    let aux6 := fold (.ofNat 32 (load bigEndian 4 (p.drop 20)))
    let aux7 := fold (.ofNat 32 (load bigEndian 4 (p.drop 24)))
    wordsLoop bigEndian (p.drop 28) (bits + (((foldBytes aux1 + foldBytes aux2 + foldBytes aux3 +
      foldBytes aux4 + foldBytes aux5 + foldBytes aux6 + foldBytes aux7) * 0x01010101#32) >>> 24).toNat)
  else (bits, p)
termination_by p.length
decreasing_by rw [List.length_drop]; omega

/-- The remaining bytes. -/
def bytesLoop : List UInt8 → ℕ → ℕ
  | [], bits => bits
  | c :: p, bits => bytesLoop p (bits + bitsinbyte.getD c.toNat 0)

/-- `redisPopcount(s, count)` of a string at the address `addr`. -/
def redisPopcount (bigEndian : Bool) (addr : ℕ) (s : List UInt8) : ℕ :=
  let (bits, p) := alignLoop addr s 0
  let (bits, p) := wordsLoop bigEndian p bits
  bytesLoop p bits

/-! ### `redisBitpos` -/

/-- The initial bytes not aligned to a word, while they are `skipval`. -/
def skipBytes (skipval : UInt8) (addr : ℕ) : List UInt8 → ℤ → List UInt8 × ℤ
  | [], pos => ([], pos)
  | c :: p, pos =>
    if addr &&& 7 ≠ 0 then
      if c ≠ skipval then (c :: p, pos) else skipBytes skipval (addr + 1) p (pos + 8)
    else (c :: p, pos)

/-- The words that are `skipval`.  A byte that ends `skipBytes` early leaves an address that need not be a
multiple of 8; C leaves reading a word there undefined, here it is the word of the bytes. -/
def skipWords (bigEndian : Bool) (skipval : BitVec 64) (p : List UInt8) (pos : ℤ) : List UInt8 × ℤ :=
  if 8 ≤ p.length then
    if BitVec.ofNat 64 (load bigEndian 8 p) ≠ skipval then (p, pos)
    else skipWords bigEndian skipval (p.drop 8) (pos + 64)
  else (p, pos)
termination_by p.length
decreasing_by rw [List.length_drop]; omega

/-- The load of a word, with the first byte most significant, padded with zero on the right. -/
def wordLoop : ℕ → BitVec 64 → List UInt8 → BitVec 64
  | 0, word, _ => word
  | j + 1, word, [] => wordLoop j (word <<< 8) []
  | j + 1, word, c :: p => wordLoop j ((word <<< 8) ||| .ofNat 64 c.toNat) p

/-- The scan of the last word; an error is the panic at the end. -/
def scanLoop (bit : ℤ) (word one : BitVec 64) (pos : ℤ) : Except String ℤ :=
  if one ≠ 0 then
    if (if one &&& word ≠ 0 then 1 else 0) = bit then .ok pos
    else scanLoop bit word (one >>> 1) (pos + 1)
  else .error "End of redisBitpos() reached."
termination_by one.toNat
decreasing_by
  next h _ =>
    have hpos : one.toNat ≠ 0 := fun hz => h (BitVec.eq_of_toNat_eq (by simpa using hz))
    rw [BitVec.toNat_ushiftRight, Nat.shiftRight_eq_div_pow]
    exact Nat.div_lt_self (Nat.pos_of_ne_zero hpos) (by decide)

/-- `redisBitpos(s, count, bit)` of a string at the address `addr`. -/
def redisBitpos (bigEndian : Bool) (addr : ℕ) (s : List UInt8) (bit : ℤ) : Except String ℤ :=
  let (c, pos) := skipBytes (if bit ≠ 0 then 0 else 255) addr s 0
  let (l, pos) := skipWords bigEndian (if bit ≠ 0 then 0 else BitVec.allOnes 64) c pos
  let word := wordLoop 8 0 l
  if bit = 1 ∧ word = 0 then .ok (-1)
  else scanLoop bit word (~~~(BitVec.allOnes 64 >>> 1)) pos

/-! ### Words -/

section Load
variable {p q : List UInt8} {bigEndian : Bool} {n : ℕ}

theorem littleEndian_lt (p : List UInt8) : littleEndian p < 256 ^ p.length := by
  induction p with
  | nil => exact Nat.one_pos
  | cons c p ih =>
    have hc := c.toNat_lt
    rw [littleEndian, length_cons, Nat.pow_succ]
    omega

theorem littleEndian_inj (hlen : p.length = q.length) (h : littleEndian p = littleEndian q) :
    p = q := by
  induction p generalizing q with
  | nil => exact (length_eq_zero_iff.mp hlen.symm).symm
  | cons c p ih =>
    cases q with
    | nil => cases hlen
    | cons d q =>
      have hc := c.toNat_lt
      have hd := d.toNat_lt
      rw [littleEndian, littleEndian] at h
      have hcd : c = d := UInt8.toNat_inj.mp (by omega)
      rw [hcd, ih (Nat.succ.inj hlen) (by omega)]

/-- A word is that of other bytes only if they are the same. -/
theorem load_eq_iff (hp : n ≤ p.length) (c : UInt8) :
    load bigEndian n p = littleEndian (List.replicate n c) ↔ p.take n = List.replicate n c := by
  have hlen : (p.take n).length = (List.replicate n c).length := by
    rw [length_take_of_le hp, length_replicate]
  constructor
  · intro h
    cases bigEndian with
    | false => exact littleEndian_inj hlen h
    | true =>
      have hrev := littleEndian_inj ((length_reverse).trans hlen) h
      rw [← reverse_reverse (p.take n), hrev, List.reverse_replicate]
  · intro h
    rw [load, h]
    cases bigEndian with
    | false => rfl
    | true => rw [if_pos rfl, List.reverse_replicate]

theorem load_lt (hp : n ≤ p.length) : load bigEndian n p < 256 ^ n := by
  have h := littleEndian_lt (if bigEndian then (p.take n).reverse else p.take n)
  have hlen : (if bigEndian then (p.take n).reverse else p.take n).length = n := by
    cases bigEndian with
    | false => exact length_take_of_le hp
    | true => exact length_reverse.trans (length_take_of_le hp)
  rwa [hlen] at h

theorem exists_load_four (hp : 4 ≤ p.length) : ∃ c₀ c₁ c₂ c₃ : UInt8,
    load bigEndian 4 p = 256 * (256 * (256 * c₃.toNat + c₂.toNat) + c₁.toNat) + c₀.toNat ∧
      (bits (p.take 4)).count true =
        ones c₀.toNat 8 + ones c₁.toNat 8 + ones c₂.toNat 8 + ones c₃.toNat 8 := by
  obtain ⟨c₀, c₁, c₂, c₃, hfour⟩ := length_eq_four.mp (length_take_of_le hp)
  rw [load, hfour, count_bits]
  cases bigEndian with
  | false => exact ⟨c₀, c₁, c₂, c₃, by simp [littleEndian], by simp; ring⟩
  | true => exact ⟨c₃, c₂, c₁, c₀, by simp [littleEndian], by simp; ring⟩

end Load

/-! ### Counting -/

theorem bitsinbyte_eq (c : UInt8) : bitsinbyte.getD c.toNat 0 = ones c.toNat 8 := by
  have h := getD_ones (show bitsinbyte = _ by decide +kernel) c.toNat
  rwa [Nat.mod_eq_of_lt c.toNat_lt] at h

/-- A word whose bytes are at most `c`, with the sum `t`. -/
def Counts (x : BitVec 32) (c t : ℕ) : Prop :=
  ∃ l₀ l₁ l₂ l₃, (l₀ ≤ c ∧ l₁ ≤ c ∧ l₂ ≤ c ∧ l₃ ≤ c) ∧
    x.toNat = 256 * (256 * (256 * l₃ + l₂) + l₁) + l₀ ∧ t = l₀ + l₁ + l₂ + l₃

theorem Counts.add {x y : BitVec 32} {c d t u : ℕ} (hx : Counts x c t) (hy : Counts y d u)
    (hcd : c + d < 256) : Counts (x + y) (c + d) (t + u) := by
  obtain ⟨l₀, l₁, l₂, l₃, hl, hxl, rfl⟩ := hx
  obtain ⟨m₀, m₁, m₂, m₃, hm, hym, rfl⟩ := hy
  refine ⟨l₀ + m₀, l₁ + m₁, l₂ + m₂, l₃ + m₃, ⟨?_, ?_, ?_, ?_⟩, ?_, by ring⟩
  · exact Nat.add_le_add hl.1 hm.1
  · exact Nat.add_le_add hl.2.1 hm.2.1
  · exact Nat.add_le_add hl.2.2.1 hm.2.2.1
  · exact Nat.add_le_add hl.2.2.2 hm.2.2.2
  · rw [BitVec.toNat_add, hxl, hym, Nat.mod_eq_of_lt (by omega)]
    ring

/-- **The multiplication** adds the bytes, and none of the sums is more than a byte. -/
theorem Counts.fold {x : BitVec 32} {c t : ℕ} (hx : Counts x c t) (hc : 4 * c < 256) :
    ((x * 0x01010101#32) >>> 24).toNat = t := by
  obtain ⟨l₀, l₁, l₂, l₃, hl, hxl, rfl⟩ := hx
  rw [BitVec.toNat_ushiftRight, BitVec.toNat_mul, hxl, Nat.shiftRight_eq_div_pow]
  have hlow : l₀ + 256 * (l₁ + l₀) + 65536 * (l₂ + l₁ + l₀) < 2 ^ 24 := by omega
  have hmul : (256 * (256 * (256 * l₃ + l₂) + l₁) + l₀) * (0x01010101#32).toNat =
      (l₀ + 256 * (l₁ + l₀) + 65536 * (l₂ + l₁ + l₀)) + 2 ^ 24 * (l₃ + l₂ + l₁ + l₀) +
        2 ^ 32 * (l₃ + l₂ + l₁ + 256 * (l₃ + l₂) + 65536 * l₃) := by
    simp only [BitVec.toNat_ofNat]
    ring
  rw [hmul, Nat.add_mul_mod_self_left, Nat.mod_eq_of_lt (by omega),
    Nat.add_mul_div_left _ _ (by decide), Nat.div_eq_of_lt hlow]
  ring

/-- The steps on a word do not overflow. -/
theorem toNat_foldBytes_fold (x : BitVec 32) :
    (foldBytes (fold x)).toNat = Lanes.bytes x.toNat 4 := by
  have hle : (x >>> 1 &&& 0x55555555#32).toNat ≤ x.toNat :=
    Nat.and_le_left.trans (Nat.shiftRight_le ..)
  have hpairs : (x - (x >>> 1 &&& 0x55555555#32)).toNat = Lanes.pairs x.toNat 8 :=
    BitVec.toNat_sub_of_le (BitVec.le_def.mpr hle)
  have hmask : ∀ y : ℕ, y &&& 0x33333333 ≤ 0x33333333 := fun y => Nat.and_le_right
  have hnibbles : (fold x).toNat = Lanes.nibbles x.toNat 8 := by
    rw [fold, BitVec.toNat_add, Nat.mod_eq_of_lt]
    · rw [BitVec.toNat_and, BitVec.toNat_and, BitVec.toNat_ushiftRight, hpairs]
      rfl
    · have h₁ := hmask (x - (x >>> 1 &&& 0x55555555#32)).toNat
      have h₂ := hmask ((x - (x >>> 1 &&& 0x55555555#32)) >>> 2).toNat
      exact (Nat.add_le_add h₁ h₂).trans_lt (by decide)
  have hlt : (fold x).toNat ≤ 0x66666666 := by
    rw [hnibbles]
    exact Nat.add_le_add (hmask _) (hmask _)
  rw [foldBytes, BitVec.toNat_and, BitVec.toNat_add, Nat.mod_eq_of_lt, BitVec.toNat_ushiftRight,
    hnibbles]
  · rfl
  · rw [BitVec.toNat_ushiftRight, Nat.shiftRight_eq_div_pow]
    omega

theorem counts_load {bigEndian : Bool} {p : List UInt8} (hp : 4 ≤ p.length) :
    Counts (foldBytes (fold (.ofNat 32 (load bigEndian 4 p)))) 8 ((bits (p.take 4)).count true) := by
  obtain ⟨c₀, c₁, c₂, c₃, hload, hcount⟩ := @exists_load_four p bigEndian hp
  refine ⟨_, _, _, _, ⟨Lanes.ones_le c₀.toNat 8, Lanes.ones_le c₁.toNat 8, Lanes.ones_le c₂.toNat 8,
    Lanes.ones_le c₃.toNat 8⟩, ?_, hcount⟩
  have hlt : load bigEndian 4 p < 2 ^ 32 := load_lt hp
  rw [toNat_foldBytes_fold, BitVec.toNat_ofNat, Nat.mod_eq_of_lt hlt, hload]
  exact Lanes.bytes_four c₀.toNat_lt c₁.toNat_lt c₂.toNat_lt c₃.toNat_lt

theorem count_cons (c : UInt8) (p : List UInt8) :
    (bits (c :: p)).count true = bitsinbyte.getD c.toNat 0 + (bits p).count true := by
  rw [bits_cons, count_append, count_bitsOf, bitsinbyte_eq]

theorem alignLoop_spec (addr : ℕ) (p : List UInt8) (n : ℕ) :
    (alignLoop addr p n).1 + (bits (alignLoop addr p n).2).count true = n + (bits p).count true := by
  induction p generalizing addr n with
  | nil => rfl
  | cons c p ih =>
    rw [alignLoop]
    split
    · rw [ih, count_cons, Nat.add_assoc]
    · rfl

theorem count_take_drop (p : List UInt8) :
    (bits p).count true = (bits (p.take 4)).count true + (bits (p.drop 4)).count true := by
  rw [← count_append, ← bits_append, take_append_drop]

theorem wordsLoop_spec (bigEndian : Bool) (p : List UInt8) (n : ℕ) :
    (wordsLoop bigEndian p n).1 + (bits (wordsLoop bigEndian p n).2).count true =
      n + (bits p).count true := by
  induction p, n using wordsLoop.induct bigEndian with
  | case1 p n h aux1 aux2 aux3 aux4 aux5 aux6 aux7 ih =>
    have hword : ∀ k, k + 4 ≤ p.length → Counts (foldBytes (fold (.ofNat 32
        (load bigEndian 4 (p.drop k))))) 8 ((bits ((p.drop k).take 4)).count true) := fun k hk =>
      counts_load (by rw [length_drop]; omega)
    have hsum := ((((((hword 0 (by omega)).add (hword 4 (by omega)) (by decide)).add
      (hword 8 (by omega)) (by decide)).add (hword 12 (by omega)) (by decide)).add
      (hword 16 (by omega)) (by decide)).add (hword 20 (by omega)) (by decide)).add
      (hword 24 (by omega)) (by decide)
    have hdrop : ∀ k, (p.drop k).drop 4 = p.drop (k + 4) := fun k => drop_drop
    have hcut : ∀ k, (bits (p.drop k)).count true =
        (bits ((p.drop k).take 4)).count true + (bits (p.drop (k + 4))).count true := fun k => by
      rw [count_take_drop, hdrop]
    have hfold := hsum.fold (by decide)
    rw [wordsLoop, if_pos h]
    refine ih.trans (congrArg (n + · + _) hfold |>.trans ?_)
    have hp : (bits p).count true = (bits (p.drop 0)).count true := rfl
    rw [hp, hcut 0, hcut 4, hcut 8, hcut 12, hcut 16, hcut 20, hcut 24]
    ring
  | case2 p n h =>
    rw [wordsLoop, if_neg h]

theorem bytesLoop_spec (p : List UInt8) (n : ℕ) : bytesLoop p n = n + (bits p).count true := by
  induction p generalizing n with
  | nil => rfl
  | cons c p ih => rw [bytesLoop, ih, count_cons, Nat.add_assoc]

/-- **The number of bits that are set.** -/
theorem redisPopcount_spec (bigEndian : Bool) (addr : ℕ) (s : List UInt8) :
    redisPopcount bigEndian addr s = (bits s).count true := by
  rw [redisPopcount]
  dsimp only
  rw [bytesLoop_spec, wordsLoop_spec, alignLoop_spec, Nat.zero_add]

/-! ### Searching -/

/-- **What is skipped** up to an aligned address are bytes that are `c`. -/
theorem skipBytes_spec (c : UInt8) (addr : ℕ) (p : List UInt8) (pos : ℤ) :
    ∃ n, p = List.replicate n c ++ (skipBytes c addr p pos).1 ∧
      (skipBytes c addr p pos).2 = pos + 8 * n := by
  induction p generalizing addr pos with
  | nil => exact ⟨0, rfl, (Int.add_zero pos).symm⟩
  | cons d p ih =>
    rw [skipBytes]
    split
    · split
      · exact ⟨0, rfl, (Int.add_zero pos).symm⟩
      · next hd =>
          obtain ⟨n, hn, hpos⟩ := ih (addr + 1) (pos + 8)
          refine ⟨n + 1, ?_, ?_⟩
          · rw [List.replicate_succ, List.cons_append, ← hn, not_not.mp hd]
          · rw [hpos]
            push_cast
            ring
    · exact ⟨0, rfl, (Int.add_zero pos).symm⟩

theorem skipWords_spec (bigEndian : Bool) {c : UInt8} {skipval : BitVec 64}
    (hc : skipval.toNat = littleEndian (List.replicate 8 c)) (p : List UInt8) (pos : ℤ) :
    ∃ n, p = List.replicate n c ++ (skipWords bigEndian skipval p pos).1 ∧
      (skipWords bigEndian skipval p pos).2 = pos + 8 * n ∧
      (8 ≤ (skipWords bigEndian skipval p pos).1.length →
        (skipWords bigEndian skipval p pos).1.take 8 ≠ List.replicate 8 c) := by
  have hload : ∀ q : List UInt8, 8 ≤ q.length →
      (BitVec.ofNat 64 (load bigEndian 8 q) = skipval ↔ q.take 8 = List.replicate 8 c) := fun q hq => by
    have hlt : load bigEndian 8 q < 2 ^ 64 := load_lt hq
    rw [← @load_eq_iff q bigEndian 8 hq, ← hc, ← BitVec.toNat_inj, BitVec.toNat_ofNat, Nat.mod_eq_of_lt hlt]
  induction p, pos using skipWords.induct bigEndian skipval with
  | case1 p pos hlen hne =>
    rw [skipWords, if_pos hlen, if_pos hne]
    exact ⟨0, rfl, (Int.add_zero pos).symm, fun _ => mt (hload p hlen).mpr hne⟩
  | case2 p pos hlen heq ih =>
    rw [skipWords, if_pos hlen, if_neg heq]
    obtain ⟨n, hn, hpos, hnext⟩ := ih
    refine ⟨8 + n, ?_, ?_, hnext⟩
    · rw [replicate_add, List.append_assoc, ← hn, ← (hload p hlen).mp (not_not.mp heq),
        take_append_drop]
    · rw [hpos]
      push_cast
      ring
  | case3 p pos hlen =>
    rw [skipWords, if_neg hlen]
    exact ⟨0, rfl, (Int.add_zero pos).symm, fun h => absurd h hlen⟩

/-- **The word that is loaded**: the bits of the string, and zeros. -/
theorem wordLoop_spec {j n : ℕ} (hn : n + 8 * j = 64) {word : BitVec 64} (hword : word.toNat < 2 ^ n)
    (p : List UInt8) : bitsOf 64 (wordLoop j word p).toNat =
      bitsOf n word.toNat ++ bits (p.take j ++ List.replicate (j - p.length) 0) := by
  induction j generalizing n word p with
  | zero =>
    obtain rfl : n = 64 := hn
    rw [wordLoop, take_zero, Nat.zero_sub]
    exact (append_nil _).symm
  | succ j ih =>
    have hn' : n + 8 + 8 * j = 64 := by omega
    -- One more byte is shifted in.
    have hshift : ∀ c : UInt8, (word <<< 8 ||| .ofNat 64 c.toNat).toNat = 2 ^ 8 * word.toNat + c.toNat ∧
        2 ^ 8 * word.toNat + c.toNat < 2 ^ (n + 8) := fun c => by
      have hc := c.toNat_lt
      have hlt : 2 ^ 8 * word.toNat + c.toNat < 2 ^ (n + 8) := by
        rw [Nat.pow_add]
        omega
      have hle : 2 ^ (n + 8) ≤ 2 ^ 64 := Nat.pow_le_pow_right Nat.two_pos (by omega)
      refine ⟨?_, hlt⟩
      rw [BitVec.toNat_or, BitVec.toNat_shiftLeft, BitVec.toNat_ofNat, Nat.mod_eq_of_lt (by omega),
        Nat.shiftLeft_eq, Nat.mul_comm, Nat.mod_eq_of_lt (by omega), Nat.two_pow_add_eq_or_of_lt hc]
    cases p with
    | nil =>
      obtain ⟨hval, hlt⟩ := hshift 0
      have hzero : word <<< 8 ||| .ofNat 64 (0 : UInt8).toNat = word <<< 8 := BitVec.or_zero
      rw [hzero] at hval
      rw [wordLoop, ih hn' (by rwa [hval]), hval, bitsOf_mul_add (by decide), List.append_assoc,
        ← bits_cons, take_nil, take_nil, length_nil, Nat.sub_zero, Nat.sub_zero,
        List.replicate_succ]
      rfl
    | cons c p =>
      obtain ⟨hval, hlt⟩ := hshift c
      rw [wordLoop, ih hn' (by rwa [hval]), hval, bitsOf_mul_add c.toNat_lt, List.append_assoc,
        ← bits_cons, length_cons, Nat.add_sub_add_right, take_succ_cons,
        List.cons_append]

/-- **The scan** finds the first bit that is `b`. -/
theorem scanLoop_spec (b : Bool) (word : BitVec 64) {k : ℕ} (hk : k < 64) (pos : ℤ)
    (hb : b ∈ bitsOf (k + 1) word.toNat) :
    scanLoop (if b then 1 else 0) word (BitVec.twoPow 64 k) pos =
      .ok (pos + (bitsOf (k + 1) word.toNat).idxOf b) := by
  have hone : ∀ k < 64, BitVec.twoPow 64 k ≠ 0 := by decide
  have hmask : ∀ k, (if BitVec.twoPow 64 k &&& word ≠ 0 then 1 else 0) = (if b then (1 : ℤ) else 0) ↔
      word.toNat.testBit k = b := fun k => by
    have hbit : (BitVec.twoPow 64 k &&& word ≠ 0) ↔ word.toNat.testBit k = true := by
      rw [BitVec.and_comm, BitVec.twoPow]
      exact and_shift_ne_zero word k
    rw [if_congr hbit rfl rfl]
    cases word.toNat.testBit k <;> cases b <;> decide
  induction k generalizing pos with
  | zero =>
    have hfirst : word.toNat.testBit 0 = b := (mem_singleton.mp hb).symm
    rw [scanLoop, if_pos (hone 0 hk), if_pos ((hmask 0).mpr hfirst), bitsOf, hfirst,
      idxOf_cons_self, Nat.cast_zero, Int.add_zero]
  | succ k ih =>
    rw [scanLoop, if_pos (hone _ hk), if_congr (hmask _) rfl rfl, bitsOf]
    split
    · next h => rw [h, idxOf_cons_self, Nat.cast_zero, Int.add_zero]
    · next h =>
        have hnext : BitVec.twoPow 64 (k + 1) >>> 1 = BitVec.twoPow 64 k := by
          refine BitVec.eq_of_toNat_eq ?_
          rw [BitVec.toNat_ushiftRight, BitVec.toNat_twoPow_of_lt hk,
            BitVec.toNat_twoPow_of_lt (Nat.lt_of_succ_lt hk), Nat.shiftRight_eq_div_pow, Nat.pow_succ,
            Nat.pow_one, Nat.mul_div_cancel _ Nat.two_pos]
        have hrest := (mem_cons.mp hb).resolve_left (Ne.symm h)
        rw [hnext, ih (Nat.lt_of_succ_lt hk) _ hrest, idxOf_cons_ne _ h]
        push_cast
        ring_nf

theorem bits_replicate (n : ℕ) (b : Bool) :
    bits (List.replicate n (if b then 0 else 255)) = List.replicate (8 * n) (!b) := by
  induction n with
  | zero => rfl
  | succ n ih =>
    rw [List.replicate_succ, bits_cons, ih, Nat.mul_succ, Nat.add_comm, replicate_add]
    cases b <;> rfl

theorem eq_replicate_of_notMem {b : Bool} {q : List UInt8} (h : b ∉ bits q) :
    q = List.replicate q.length (if b then 0 else 255) := by
  refine eq_replicate_iff.mpr ⟨rfl, fun c hc => ?_⟩
  have hbits : b ∉ bitsOf 8 c.toNat := fun hb => h (mem_flatMap.mpr ⟨c, hc, hb⟩)
  have htest : ∀ i < 8, c.toNat.testBit i = !b := fun i hi =>
    (Bool.eq_not_of_ne fun heq => hbits (mem_bitsOf.mpr ⟨i, hi, heq⟩))
  refine UInt8.toNat_inj.mp (Nat.eq_of_testBit_eq fun i => ?_)
  rcases Nat.lt_or_ge i 8 with hi | hi
  · rw [htest i hi]
    cases b with
    | true => exact (Nat.zero_testBit i).symm
    | false => exact ((Nat.testBit_two_pow_sub_one 8 i).trans (decide_eq_true hi)).symm
  · have hlt : ∀ d : UInt8, d.toNat.testBit i = false := fun d =>
      Nat.testBit_lt_two_pow (d.toNat_lt.trans_le (Nat.pow_le_pow_right Nat.two_pos hi))
    rw [hlt, hlt]

theorem mem_bitsOf_word (word : BitVec 64) : true ∈ bitsOf 64 word.toNat ↔ word ≠ 0 := by
  rw [mem_bitsOf]
  constructor
  · rintro ⟨i, -, hi⟩ rfl
    exact Bool.false_ne_true ((Nat.zero_testBit i).symm.trans hi)
  · intro hne
    by_contra hno
    refine hne (BitVec.eq_of_getLsbD_eq fun i hi => ?_)
    have hclear : word.getLsbD i = false := Bool.eq_false_iff.mpr fun h => hno ⟨i, hi, h⟩
    exact hclear.trans BitVec.getLsbD_zero.symm

/-- **The word that is scanned** has the first bit that is `b`, if there is one or the zeros have it. -/
theorem idxOf_word {b : Bool} {p : List UInt8} {word : BitVec 64}
    (hword : bitsOf 64 word.toNat = bits (p.take 8 ++ List.replicate (8 - p.length) 0))
    (hnext : 8 ≤ p.length → p.take 8 ≠ List.replicate 8 (if b then 0 else 255)) :
    if b = true ∧ true ∉ bits p then word = 0
    else b ∈ bitsOf 64 word.toNat ∧ (bitsOf 64 word.toNat).idxOf b = (bits p).idxOf b := by
  rw [bits_append] at hword
  by_cases hlen : 8 ≤ p.length
  · -- The word is the first eight bytes.
    have hmem : b ∈ bits (p.take 8) := by
      by_contra hno
      refine hnext hlen ((eq_replicate_of_notMem hno).trans ?_)
      rw [length_take_of_le hlen]
    have hp : bits p = bits (p.take 8) ++ bits (p.drop 8) := by
      rw [← bits_append, take_append_drop]
    rw [Nat.sub_eq_zero_of_le hlen] at hword
    rw [if_neg]
    · rw [hword, hp, idxOf_append_of_mem hmem, idxOf_append_of_mem hmem]
      exact ⟨mem_append_left _ hmem, rfl⟩
    · rintro ⟨rfl, hno⟩
      exact hno (hp ▸ mem_append_left _ hmem)
  · -- The word is what is left of the string, and zeros.
    have hzeros : bits (List.replicate (8 - p.length) 0) = List.replicate (8 * (8 - p.length)) false :=
      bits_replicate _ true
    rw [take_of_length_le (Nat.le_of_not_le hlen), hzeros] at hword
    rw [hword]
    split
    · next h =>
        by_contra hne
        have hmem := (mem_bitsOf_word word).mpr hne
        rw [hword, mem_append] at hmem
        exact hmem.elim h.2 fun hrep => Bool.false_ne_true (eq_of_mem_replicate hrep).symm
    · next h =>
        by_cases hmem : b ∈ bits p
        · exact ⟨mem_append_left _ hmem, idxOf_append_of_mem hmem⟩
        · cases b with
          | true => exact absurd ⟨rfl, hmem⟩ h
          | false =>
            obtain ⟨k, hk⟩ := Nat.exists_eq_succ_of_ne_zero
              (n := 8 * (8 - p.length)) (by omega)
            rw [hk, List.replicate_succ, idxOf_append_of_notMem hmem,
              idxOf_cons_self, idxOf_of_notMem hmem]
            exact ⟨mem_append_right _ mem_cons_self, rfl⟩

/-- **The search**, for a bit that is set or one that is clear. -/
theorem redisBitpos_spec (bigEndian : Bool) (addr : ℕ) (s : List UInt8) (b : Bool) :
    redisBitpos bigEndian addr s (if b then 1 else 0) =
      .ok (if b = true ∧ true ∉ bits s then -1 else (bits s).idxOf b) := by
  have hbit : (if (if b then (1 : ℤ) else 0) ≠ 0 then (0 : UInt8) else 255) = if b then 0 else 255 := by
    cases b <;> rfl
  have hone : (if b then (1 : ℤ) else 0) = 1 ↔ b = true := by cases b <;> decide
  have hskip : (if (if b then (1 : ℤ) else 0) ≠ 0 then (0 : BitVec 64) else BitVec.allOnes 64).toNat =
      littleEndian (List.replicate 8 (if b then 0 else 255)) := by
    cases b <;> rfl
  have htop : ~~~(BitVec.allOnes 64 >>> 1) = BitVec.twoPow 64 63 := by decide
  rw [redisBitpos, hbit]
  obtain ⟨n, hn, hpos⟩ := skipBytes_spec (if b then 0 else 255) addr s 0
  generalize skipBytes (if b then 0 else 255) addr s 0 = c at *
  obtain ⟨m, hm, hpos', hnext⟩ := skipWords_spec bigEndian hskip c.1 c.2
  dsimp only
  generalize skipWords bigEndian _ c.1 c.2 = l at *
  have hs : bits s = List.replicate (8 * (n + m)) (!b) ++ bits l.1 := by
    rw [hn, hm, ← List.append_assoc, ← replicate_add, bits_append, bits_replicate]
  have hskipped : b ∉ List.replicate (8 * (n + m)) (!b) := fun h =>
    Bool.not_ne_self b (eq_of_mem_replicate h).symm
  have hmem : b = true ∧ true ∉ bits s ↔ b = true ∧ true ∉ bits l.1 := by
    rw [and_congr_right_iff]
    rintro rfl
    rw [hs, mem_append, or_iff_right hskipped]
  have hword := idxOf_word (b := b) (@wordLoop_spec _ 0 rfl 0 (by decide) l.1) hnext
  rw [hs, idxOf_append_of_notMem hskipped, length_replicate, ← hs, if_congr hmem rfl rfl]
  split at hword
  · next h =>
      rw [if_pos ⟨hone.mpr h.1, hword⟩, if_pos h]
  · next h =>
      rw [if_neg h, if_neg, htop, scanLoop_spec b _ (by decide) _ hword.1, hword.2, hpos', hpos]
      · push_cast
        ring_nf
      · rintro ⟨hb, hzero⟩
        rw [hone.mp hb] at hword
        exact (mem_bitsOf_word _).mp hword.1 hzero

/-- **The scans are exact**: for a string at any address, in either order of the bytes of a word,
`redisPopcount` is the number of bits that are set, and `redisBitpos` is the index of the first bit that
is set, or -1, and of the first one that is clear, or the number of all bits. -/
theorem bitops_exact (bigEndian : Bool) (addr : ℕ) (s : List UInt8) :
    redisPopcount bigEndian addr s = (bits s).count true ∧
      redisBitpos bigEndian addr s 1 =
        .ok (if true ∈ bits s then ((bits s).idxOf true : ℤ) else -1) ∧
      redisBitpos bigEndian addr s 0 =
        .ok (if false ∈ bits s then ((bits s).idxOf false : ℤ) else (8 * s.length : ℕ)) := by
  refine ⟨redisPopcount_spec bigEndian addr s, ?_, ?_⟩
  · refine (redisBitpos_spec bigEndian addr s true).trans (congrArg Except.ok ?_)
    by_cases h : true ∈ bits s
    · rw [if_pos h, if_neg fun hno => hno.2 h]
    · rw [if_neg h, if_pos ⟨rfl, h⟩]
  · refine (redisBitpos_spec bigEndian addr s false).trans (congrArg Except.ok ?_)
    rw [if_neg fun h => Bool.false_ne_true h.1]
    split
    · rfl
    · next h => rw [idxOf_of_notMem h, length_bits]

end SourceLibs.Bitops
