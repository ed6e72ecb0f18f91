import SourceLibs.CppInt.Shift

/-!
# CppInt — text

`do_assign_string` and `do_get_string` of `cpp_int.hpp` on the unbounded backend.  A text is the
list of characters before the terminating NUL, so reading past its end finds no digit.  A limb has
32 or 64 bits; a block of decimal digits is what fits one limb, 9 or 18 digits.

Printing over-allocates: the text starts as zeros, digits are written from its end and the zeros
left in front are erased.  How many zeros is computed from `Bits`, an `unsigned`.

* `decimalLoop_spec`, `hexLoop_spec`: a text of digits is read as its positional value.
* `decimalLoop_error`, `hexLoop_error`: any other character is rejected.
-/

namespace SourceLibs.CppInt
open List Nat BitVec

variable {w : ℕ} {val : Char → Option ℕ} {s : List Char} {ds : List ℕ}

/-- How a text operation ends without a result: an exception, or undefined behaviour (an index
outside the text, a failed assertion). -/
inductive TextFault where
  | runtimeError (what : String)
  | undefined
deriving DecidableEq

theorem ok_bind {β γ : Type} (x : β) (f : β → Except TextFault γ) :
    ((Except.ok x : Except TextFault β) >>= f) = f x := rfl

/-! ### Configuration -/

/-- The decimal digits of a block. -/
def digitsPerBlock10 (w : ℕ) : ℕ := if w = 64 then 18 else 9

/-- Ten to the digits of a block. -/
def maxBlock10 (w : ℕ) : BitVec w :=
  BitVec.ofNat w (if w = 64 then 1000000000000000000 else 1000000000)

/-- `block_multiplier`: a table of the powers of ten from `10` on. -/
def blockMultiplier (w count : ℕ) : BitVec w := BitVec.ofNat w (10 ^ (count + 1))

/-! ### Reading -/

/-- `*s - '0'`, for a character between `'0'` and `last`. -/
def digitUpTo (last c : Char) : Option ℕ :=
  if '0' ≤ c ∧ c ≤ last then some (c.toNat - '0'.toNat) else none

/-- The value of a decimal digit. -/
def decVal (c : Char) : Option ℕ := digitUpTo '9' c

/-- The value of a hexadecimal digit. -/
def hexVal (c : Char) : Option ℕ :=
  if '0' ≤ c ∧ c ≤ '9' then some (c.toNat - '0'.toNat)
  else if 'a' ≤ c ∧ c ≤ 'f' then some (10 + c.toNat - 'a'.toNat)
  else if 'A' ≤ c ∧ c ≤ 'F' then some (10 + c.toNat - 'A'.toNat)
  else none

/-- The exception of the hexadecimal and the octal loop. -/
def unexpectedContent : TextFault :=
  .runtimeError "Unexpected content found while parsing character string."

/-- The exception of the decimal loop. -/
def unexpectedCharacter : TextFault := .runtimeError "Unexpected character encountered in input."

/-- `result.limbs()[limb] |= val`, where the limb exists. -/
def orExisting (result : CppInt w) (limb : ℕ) (val : BitVec w) : CppInt w :=
  if limb < result.size then result.store limb (result.limbs limb ||| val) else result

/-- The hexadecimal loop.  `bitcount` is a `size_t`: it wraps after the last digit, where it is no
longer read. -/
def hexLoop : List Char → ℕ → CppInt w → Except TextFault (CppInt w)
  | [], _, result => .ok result
  | c :: s, bitcount, result =>
    match hexVal c with
    | none => .error unexpectedContent
    | some val =>
      hexLoop s (bitcount - 4) (orExisting result (bitcount / w) (BitVec.ofNat w val <<< (bitcount % w)))

/-- One octal digit: the bits that do not fit the limb go to the next one, which is added where it
is missing, with whatever the buffer holds there. -/
def orOctal (result : CppInt w) (newsize bitcount : ℕ) (val : BitVec w) : CppInt w :=
  let limb := bitcount / w
  let shift := bitcount % w
  if limb < result.size then
    let result := result.store limb (result.limbs limb ||| val <<< shift)
    if w - 3 < shift then
      let val := val >>> (w - shift)
      if val ≠ 0 then
        let result := if limb + 1 = newsize then result.resize (uint (newsize + 1)) else result
        orExisting result (limb + 1) val
      else result
    else result
  else result

/-- The octal loop. -/
def octLoop (newsize : ℕ) : List Char → ℕ → CppInt w → Except TextFault (CppInt w)
  | [], _, result => .ok result
  | c :: s, bitcount, result =>
    match digitUpTo '7' c with
    | none => .error unexpectedContent
    | some val => octLoop newsize s (bitcount - 3) (orOctal result newsize bitcount (BitVec.ofNat w val))

/-- The inner loop of the decimal branch, with `n` digits of the block to come: the block, its
multiplier and the rest of the text. -/
def readBlock (w : ℕ) : ℕ → List Char → BitVec w → Except TextFault (BitVec w × BitVec w × List Char)
  | 0, s, block => .ok (block, maxBlock10 w, s)
  | _ + 1, [], _ => .error unexpectedCharacter
  | n + 1, c :: s, block =>
    match decVal c with
    | none => .error unexpectedCharacter
    | some val =>
      let block := block * 10 + BitVec.ofNat w val
      if s = [] then .ok (block, blockMultiplier w (digitsPerBlock10 w - (n + 1)), [])
      else readBlock w n s block

/-- `eval_multiply(result, block_mult); eval_add(result, block);`. -/
def addBlock (result : CppInt w) (blockMult block : BitVec w) : Except TextFault (CppInt w) :=
  match evalMultiplyLimb result .result blockMult with
  | none => .error .undefined
  | some result => .ok (evalAddLimb result .result block)

/-- The decimal loop; every round takes a digit at least. -/
def decimalLoop : ℕ → List Char → CppInt w → Except TextFault (CppInt w)
  | _, [], result => .ok result
  | 0, _ :: _, _ => .error .undefined
  | fuel + 1, c :: s, result => do
    let (block, blockMult, rest) ← readBlock w (digitsPerBlock10 w) (c :: s) 0
    let result ← addBlock result blockMult block
    decimalLoop fuel rest result

/-- A new object: the storage past its only limb is not initialised. -/
def newObject (p : ℕ → BitVec w) : CppInt w := ⟨Function.update p 0 0, 1, false⟩

/-- `resize` and `memset` before the loops over bits. -/
def clearedTo (result : CppInt w) (newsize : ℕ) : CppInt w :=
  let result := result.resize (uint newsize)
  result.setLimbs (memset result.limbs result.size)

/-- `bitcount` before a loop over digits of `bits` bits. -/
def firstPosition (bits : ℕ) (s : List Char) : ℕ :=
  let bitcount := bits * s.length
  if bits < bitcount then bitcount - bits else 0

/-- The digits after a sign and a base. -/
def assignMagnitude (p : ℕ → BitVec w) (s : List Char) : Except TextFault (CppInt w) :=
  match s with
  | '0' :: c :: s' =>
    if c = 'x' ∨ c = 'X' then
      if s' = [] then .ok (newObject p)
      else
        let s := s'.dropWhile (· = '0')
        let bitcount := firstPosition 4 s
        (hexLoop s bitcount (clearedTo (newObject p) (bitcount / w + 1))).map normalize
    else
      let s := s.dropWhile (· = '0')
      let bitcount := firstPosition 3 s
      (octLoop (bitcount / w + 1) s bitcount
        (clearedTo (newObject p) (bitcount / w + 1))).map normalize
  | ['0'] => .ok (newObject p)
  | s => decimalLoop s.length s (newObject p)

def doAssignString (p : ℕ → BitVec w) (s : List Char) : Except TextFault (CppInt w) :=
  match s with
  | '-' :: s => (assignMagnitude p s).map negate
  | s => assignMagnitude p s

/-! ### Writing -/

/-- The flags `do_get_string` reads. -/
structure FmtFlags where
  oct : Bool := false
  hex : Bool := false
  showbase : Bool := false
  showpos : Bool := false

/-- `result[pos] = c`. -/
def putChar (result : List Char) (pos : ℤ) (c : Char) : Except TextFault (List Char) :=
  if 0 ≤ pos ∧ pos < result.length then .ok (result.set pos.toNat c) else .error .undefined

/-- `'0' + n`, moved on by `gap` past `'9'`. -/
def digitChar (gap n : ℕ) : Char :=
  let c := '0'.toNat + n
  Char.ofNat (if '9'.toNat < c then c + gap else c)

/-- The loop that prints one digit of `shift` bits a round. -/
def bitsLoop (shift : ℕ) (mask : BitVec w) :
    ℕ → CppInt w → List Char → ℤ → Except TextFault (CppInt w × List Char × ℤ)
  | 0, t, result, pos => .ok (t, result, pos)
  | n + 1, t, result, pos => do
    let result ← putChar result pos (digitChar ('A'.toNat - '9'.toNat - 1) (t.limbs 0 &&& mask).toNat)
    bitsLoop shift mask n (rightShiftGeneric t shift) result (pos - 1)

/-- Leading zeros erased, all but the last when there is nothing else. -/
def trimBits (result : List Char) : List Char :=
  if result.all (· = '0') then result.drop (result.length - 1) else result.dropWhile (· = '0')

/-- The part of a digit left over when `shift` does not divide `Bits`. -/
def putRest (bits shift : ℕ) (t : CppInt w) (result : List Char) (pos : ℤ) :
    Except TextFault (List Char) :=
  if bits % shift ≠ 0 then
    putChar result pos (digitChar ('A'.toNat - '9'.toNat)
      (t.limbs 0 &&& BitVec.ofNat w (2 ^ (bits % shift) - 1)).toNat)
  else .ok result

/-- Octal and hexadecimal text. -/
def getBits (x : CppInt w) (shift : ℕ) (base : Option (List Char)) : Except TextFault (List Char) :=
  if x.sign then
    .error (.runtimeError "Base 8 or 16 printing of negative numbers is not supported.")
  else do
    let bits := uint (x.size * w)
    let result := List.replicate (bits / shift + if bits % shift ≠ 0 then 1 else 0) '0'
    let (t, result, pos) ← bitsLoop shift (BitVec.ofNat w (2 ^ shift - 1)) (bits / shift) x result
      (result.length - 1)
    let result ← putRest bits shift t result pos
    .ok (base.getD [] ++ trimBits result)

/-- The digits of a block, written from `pos` down. -/
def putBlock : ℕ → BitVec w → List Char → ℤ → Except TextFault (List Char × ℤ)
  | 0, _, result, pos => .ok (result, pos)
  | n + 1, v, result, pos => do
    let result ← putChar result pos (digitChar 0 (v % 10).toNat)
    if pos = 0 then .ok (result, pos - 1) else putBlock n (v / 10) result (pos - 1)

/-- The loop that divides by `max_block_10`. -/
def blocksLoop : ℕ → CppInt w → CppInt w → List Char → ℤ → Except TextFault (List Char)
  | 0, _, _, _, _ => .error .undefined
  | fuel + 1, t, r, result, pos =>
    if evalGetSign t != 0 then
      match divideUnsignedHelper (t.mag + 2 * t.size) (some (zero w)) t
          ((zero w).assignLimb (maxBlock10 w)) r with
      | .returns (some t2) r => do
        let (result, pos) ← putBlock (digitsPerBlock10 w) (r.limbs 0) result pos
        blocksLoop fuel (t.assign t2) r result pos
      | _ => .error .undefined
    else .ok result

/-- Leading zeros erased, and the text `0` for nothing. -/
def trimDecimal (result : List Char) : List Char :=
  let result := result.dropWhile (· = '0')
  if result = [] then ['0'] else result

/-- The digits of a decimal text before they are trimmed. -/
def decimalDigits (x : CppInt w) : Except TextFault (List Char) :=
  let t := if x.sign then x.negate else x
  if x.size = 1 then .ok (Nat.toDigits 10 (t.limbs 0).toNat)
  else
    let result := List.replicate (uint (x.size * w) / 3 + 1) '0'
    blocksLoop (t.mag + 1) t (zero w) result (result.length - 1)

/-- Decimal text. -/
def getDecimal (x : CppInt w) (showpos : Bool) : Except TextFault (List Char) := do
  let result ← decimalDigits x
  let result := trimDecimal result
  .ok (if x.sign then '-' :: result else if showpos then '+' :: result else result)

def doGetString (x : CppInt w) (f : FmtFlags) : Except TextFault (List Char) :=
  if f.oct then getBits x 3 (if f.showbase then some ['0'] else none)
  else if f.hex then getBits x 4 (if f.showbase then some ['0', 'x'] else none)
  else getDecimal x f.showpos

/-! ### Positional values -/

/-- The value read when digits `ds` follow a text of value `acc`. -/
def horner (b acc : ℕ) (ds : List ℕ) : ℕ := ds.foldl (fun a d => a * b + d) acc

/-- The positional value, most significant digit first. -/
def positional (b : ℕ) (ds : List ℕ) : ℕ := horner b 0 ds

theorem horner_cons (b acc d : ℕ) (ds : List ℕ) :
    horner b acc (d :: ds) = horner b (acc * b + d) ds := rfl

theorem horner_append (b acc : ℕ) (xs ys : List ℕ) :
    horner b acc (xs ++ ys) = horner b (horner b acc xs) ys := by
  rw [horner, foldl_append]
  rfl

theorem horner_eq (b : ℕ) (ds : List ℕ) :
    ∀ acc, horner b acc ds = acc * b ^ ds.length + positional b ds := by
  induction ds with
  | nil =>
    intro acc
    simp [horner, positional]
  | cons d ds ih =>
    intro acc
    have h := ih (acc * b + d)
    have h₀ := ih (0 * b + d)
    rw [positional, horner_cons, horner_cons, h, h₀, length_cons, pow_succ]
    ring

theorem le_horner (acc : ℕ) (ds : List ℕ) : acc ≤ horner 10 acc ds := by
  rw [horner_eq]
  exact (Nat.le_mul_of_pos_right acc (Nat.pow_pos (by decide))).trans (Nat.le_add_right _ _)

theorem positional_append (b : ℕ) (xs ys : List ℕ) :
    positional b (xs ++ ys) = positional b xs * b ^ ys.length + positional b ys := by
  rw [positional, horner_append, horner_eq]
  rfl

theorem positional_cons (b d : ℕ) (ds : List ℕ) :
    positional b (d :: ds) = d * b ^ ds.length + positional b ds := by
  have h := positional_append b [d] ds
  simpa [positional, horner] using h

theorem positional_lt {b : ℕ} (h : ∀ d ∈ ds, d < b) : positional b ds < b ^ ds.length := by
  induction ds with
  | nil => exact Nat.one_pos
  | cons d ds ih =>
    have hd := h d mem_cons_self
    have hds := ih fun e he => h e (mem_cons_of_mem d he)
    rw [positional_cons, length_cons, pow_succ, Nat.mul_comm (b ^ ds.length) b]
    calc d * b ^ ds.length + positional b ds < d * b ^ ds.length + b ^ ds.length := by omega
      _ = (d + 1) * b ^ ds.length := by ring
      _ ≤ b * b ^ ds.length := Nat.mul_le_mul_right _ hd

theorem positional_replicate_zero (b n : ℕ) (ds : List ℕ) :
    positional b (List.replicate n 0 ++ ds) = positional b ds := by
  induction n with
  | zero => rfl
  | succ n ih => rw [List.replicate_succ, List.cons_append, positional_cons, ih, Nat.zero_mul,
      Nat.zero_add]

/-! ### Digits -/

/-- The characters `s` are the digits `ds`. -/
def Spells (val : Char → Option ℕ) (s : List Char) (ds : List ℕ) : Prop := s.map val = ds.map some

theorem Spells.length_eq (h : Spells val s ds) : s.length = ds.length := by
  have := congrArg length h
  simpa using this

theorem Spells.cons {c : Char} {d : ℕ} (hc : val c = some d) (h : Spells val s ds) :
    Spells val (c :: s) (d :: ds) := by
  rw [Spells, map_cons, map_cons, hc, h]

theorem Spells.of_cons {c : Char} (h : Spells val (c :: s) ds) :
    ∃ d ds', ds = d :: ds' ∧ val c = some d ∧ Spells val s ds' := by
  cases ds with
  | nil => exact absurd h.length_eq (by simp)
  | cons d ds =>
    rw [Spells, map_cons, map_cons, List.cons.injEq] at h
    exact ⟨d, ds, rfl, h.1, h.2⟩

theorem Spells.append {s t : List Char} {ds es : List ℕ} (h : Spells val s ds)
    (h' : Spells val t es) : Spells val (s ++ t) (ds ++ es) := by
  rw [Spells, map_append, map_append, h, h']

theorem decVal_lt {c : Char} {d : ℕ} (h : decVal c = some d) : d < 10 := by
  rw [decVal, digitUpTo] at h
  split at h
  · rename_i hc
    have h9 : c.toNat ≤ '9'.toNat := hc.2
    have : ('9'.toNat = 57) := rfl
    have : ('0'.toNat = 48) := rfl
    rw [Option.some.injEq] at h
    omega
  · cases h

theorem hexVal_lt {c : Char} {d : ℕ} (h : hexVal c = some d) : d < 16 := by
  have e₀ : ('0'.toNat = 48) := rfl
  have e₉ : ('9'.toNat = 57) := rfl
  have ea : ('a'.toNat = 97) := rfl
  have ef : ('f'.toNat = 102) := rfl
  have eA : ('A'.toNat = 65) := rfl
  have eF : ('F'.toNat = 70) := rfl
  rw [hexVal] at h
  split at h
  · rename_i hc
    have h9 : c.toNat ≤ '9'.toNat := hc.2
    rw [Option.some.injEq] at h
    omega
  split at h
  · rename_i hc
    have hf : c.toNat ≤ 'f'.toNat := hc.2
    rw [Option.some.injEq] at h
    omega
  split at h
  · rename_i hc
    have hF : c.toNat ≤ 'F'.toNat := hc.2
    rw [Option.some.injEq] at h
    omega
  · cases h

theorem Spells.lt {b : ℕ} (hval : ∀ {c d}, val c = some d → d < b) (h : Spells val s ds) :
    ∀ d ∈ ds, d < b := by
  intro d hd
  have : some d ∈ s.map val := by
    rw [h]
    exact List.mem_map_of_mem hd
  obtain ⟨c, -, hc⟩ := List.mem_map.mp this
  exact hval hc

theorem hexVal_digitChar {d : ℕ} (h : d < 16) :
    hexVal (digitChar ('A'.toNat - '9'.toNat - 1) d) = some d := by
  revert d
  decide

theorem decVal_digitChar {d : ℕ} (h : d < 10) : decVal (digitChar 0 d) = some d := by
  revert d
  decide

/-! ### Reading hexadecimal -/

theorem sixteen_pow (n : ℕ) : 16 ^ n = 2 ^ (4 * n) := (pow_mul 2 4 n).symm

/-- One hexadecimal digit lies in one limb. -/
theorem orExisting_spec [NeZero w] (hw : 4 ∣ w) {x : CppInt w} {d k : ℕ} (hd : d < 16)
    (hk : 4 * k < w * x.size) :
    (orExisting x (4 * k / w) (BitVec.ofNat w d <<< (4 * k % w))).mag = x.mag ||| d <<< (4 * k) := by
  have hpos := NeZero.pos w
  obtain ⟨m, hm⟩ := hw
  have hlimb : 4 * k / w < x.size := Nat.div_lt_of_lt_mul hk
  have hmod : 4 * k % w + 4 ≤ w := by
    have h₁ := mod_lt (4 * k) hpos
    have h₂ : 4 ∣ 4 * k % w := (dvd_mod_iff ⟨m, hm⟩).mpr ⟨k, rfl⟩
    omega
  have hdiv := div_add_mod (4 * k) w
  rw [orExisting, if_pos hlimb]
  refine eq_of_testBit_eq fun i => ?_
  rw [testBit_or, testBit_mag_eq, testBit_mag_eq, size_store, limbs_store, testBit_shiftLeft]
  by_cases hi : 4 * k ≤ i ∧ i < 4 * k + 4
  · obtain ⟨hq, hr⟩ := div_mod_add (w := w) (k := 4 * k) (i := i - 4 * k) (by omega)
    rw [show 4 * k + (i - 4 * k) = i by omega] at hq hr
    rw [hq, hr, Function.update_self, getLsbD_or, getLsbD_shiftLeft]
    have hin : 4 * k % w + (i - 4 * k) < w := by omega
    simp only [hlimb, hi.1, hin, decide_true, Bool.true_and, getLsbD_ofNat,
      Nat.add_sub_cancel_left, show i - 4 * k < w by omega, Nat.not_lt.mpr (Nat.le_add_right _ _),
      decide_false, Bool.not_false]
  · have hfar : (decide (4 * k ≤ i) && d.testBit (i - 4 * k)) = false := by
      by_cases hle : 4 * k ≤ i
      · rw [testBit_lt_two_pow (lt_of_lt_of_le hd (Nat.pow_le_pow_right (n := 2) (by decide)
          (show 4 ≤ i - 4 * k by omega))), Bool.and_false]
      · simp [hle]
    simp only [ge_iff_le, hfar, Bool.or_false]
    by_cases hq : i / w = 4 * k / w
    · have hi' := div_add_mod i w
      rw [hq] at hi' ⊢
      rw [Function.update_self, getLsbD_or, getLsbD_shiftLeft]
      have hz : (!decide (i % w < 4 * k % w) && (BitVec.ofNat w d).getLsbD (i % w - 4 * k % w)) = false := by
        by_cases hlt : i % w < 4 * k % w
        · simp [hlt]
        · rw [getLsbD_ofNat, testBit_lt_two_pow (lt_of_lt_of_le hd
            (Nat.pow_le_pow_right (n := 2) (by decide) (show 4 ≤ i % w - 4 * k % w by omega)))]
          simp
      rw [Bool.and_assoc, hz, Bool.and_false, Bool.or_false]
    · rw [Function.update_of_ne hq]

theorem or_digit {n d : ℕ} (hd : d < 2 ^ n) (acc k : ℕ) :
    acc * (2 ^ n) ^ (k + 1) ||| d <<< (n * k) = (acc * 2 ^ n + d) * (2 ^ n) ^ k := by
  have hor : acc <<< n ||| d = acc * 2 ^ n + d := by
    rw [← shiftLeft_add_eq_or_of_lt hd, Nat.shiftLeft_eq]
  rw [← pow_mul, ← pow_mul, ← Nat.shiftLeft_eq, ← Nat.shiftLeft_eq, ← hor, Nat.shiftLeft_or_distrib,
    ← Nat.shiftLeft_add, show n * (k + 1) = n + n * k by ring]

/-- **Hexadecimal digits** are read as their positional value. -/
theorem hexLoop_spec [NeZero w] (hw : 4 ∣ w) (h : Spells hexVal s ds) (acc : ℕ) {x : CppInt w}
    (hx : x.mag = acc * 16 ^ s.length) (hsize : 4 * s.length ≤ w * x.size) :
    ∃ y, hexLoop s (4 * (s.length - 1)) x = .ok y ∧ y.mag = horner 16 acc ds ∧ y.size = x.size ∧
      y.sign = x.sign := by
  induction s generalizing ds acc x with
  | nil =>
    obtain rfl : ds = [] := length_eq_zero_iff.mp h.length_eq.symm
    exact ⟨x, rfl, by simpa [horner] using hx, rfl, rfl⟩
  | cons c s ih =>
    obtain ⟨d, ds, rfl, hc, hs⟩ := h.of_cons
    have hlen : (c :: s).length - 1 = s.length := rfl
    have hd := hexVal_lt hc
    rw [length_cons] at hsize
    rw [hlen, hexLoop, hc]
    set x' := orExisting x (4 * s.length / w) (BitVec.ofNat w d <<< (4 * s.length % w)) with hx'
    have hmag : x'.mag = (acc * 16 + d) * 16 ^ s.length := by
      rw [hx', orExisting_spec hw hd (by omega), hx, length_cons, show (16 : ℕ) = 2 ^ 4 from rfl,
        or_digit hd]
    have hsz : x'.size = x.size ∧ x'.sign = x.sign := by
      rw [hx', orExisting]
      split <;> exact ⟨rfl, rfl⟩
    obtain ⟨y, hy, hm, hys, hyn⟩ := ih hs _ hmag (by rw [hsz.1]; omega)
    refine ⟨y, ?_, hm, hys.trans hsz.1, hyn.trans hsz.2⟩
    rw [show 4 * s.length - 4 = 4 * (s.length - 1) by omega]
    exact hy

/-- Digits are read without an exception, and leave the size. -/
theorem hexLoop_ok (h : Spells hexVal s ds) :
    ∀ (bitcount : ℕ) (x : CppInt w), ∃ y, hexLoop s bitcount x = .ok y ∧ y.size = x.size := by
  induction s generalizing ds with
  | nil => exact fun _ x => ⟨x, rfl, rfl⟩
  | cons c s ih =>
    intro bitcount x
    obtain ⟨d, ds, rfl, hc, hs⟩ := h.of_cons
    rw [hexLoop, hc]
    obtain ⟨y, hy, hsize⟩ := ih hs (bitcount - 4)
      (orExisting x (bitcount / w) (BitVec.ofNat w d <<< (bitcount % w)))
    refine ⟨y, hy, hsize.trans ?_⟩
    rw [orExisting]
    split <;> rfl

theorem hexLoop_error (h : none ∈ s.map hexVal) :
    ∀ (bitcount : ℕ) (x : CppInt w), hexLoop s bitcount x = .error unexpectedContent := by
  induction s with
  | nil => cases h
  | cons c s ih =>
    intro bitcount x
    rw [hexLoop]
    cases hc : hexVal c with
    | none => rfl
    | some d =>
      rw [map_cons, hc, mem_cons] at h
      exact ih (h.resolve_left (by simp)) _ _

/-! ### Reading decimal -/

theorem LimbWidth.ten_pow_lt (hw : LimbWidth w) : 10 ^ digitsPerBlock10 w < 2 ^ w := by
  rcases hw with rfl | rfl <;> decide

theorem LimbWidth.toNat_maxBlock10 (hw : LimbWidth w) :
    (maxBlock10 w).toNat = 10 ^ digitsPerBlock10 w := by
  rcases hw with rfl | rfl <;> decide

theorem LimbWidth.toNat_blockMultiplier (hw : LimbWidth w) {i : ℕ} (hi : i < digitsPerBlock10 w) :
    (blockMultiplier w i).toNat = 10 ^ (i + 1) := by
  rw [blockMultiplier, toNat_ofNat]
  exact mod_eq_of_lt (lt_of_le_of_lt (Nat.pow_le_pow_right (by decide) hi) hw.ten_pow_lt)

theorem toNat_block (hw : LimbWidth w) {block : BitVec w} {k d : ℕ} (hb : block.toNat < 10 ^ k)
    (hk : k < digitsPerBlock10 w) (hd : d < 10) :
    (block * 10 + BitVec.ofNat w d).toNat = block.toNat * 10 + d ∧
      block.toNat * 10 + d < 10 ^ (k + 1) := by
  have hlt : block.toNat * 10 + d < 10 ^ (k + 1) := by
    rw [pow_succ]
    omega
  have hle : 10 ^ (k + 1) ≤ 10 ^ digitsPerBlock10 w := Nat.pow_le_pow_right (by decide) hk
  have h2 := hw.ten_pow_lt
  have h16 : 16 ≤ 2 ^ w := by
    rcases hw with rfl | rfl <;> decide
  have hten : (10 : BitVec w).toNat = 10 :=
    mod_eq_of_lt (Nat.lt_of_lt_of_le (by decide) h16)
  refine ⟨?_, hlt⟩
  rw [BitVec.toNat_add, BitVec.toNat_mul, hten, toNat_ofNat, mod_eq_of_lt (a := d) (by omega),
    mod_eq_of_lt (a := block.toNat * 10) (by omega), mod_eq_of_lt (by omega)]

/-- **A block of digits**: as many as fit or as there are. -/
theorem readBlock_spec (hw : LimbWidth w) (n : ℕ) (block : BitVec w) (h : Spells decVal s ds)
    (hs : s ≠ []) (hn : n ≤ digitsPerBlock10 w) (hb : block.toNat < 10 ^ (digitsPerBlock10 w - n)) :
    ∃ k block' mult, readBlock w n s block = .ok (block', mult, s.drop k) ∧ k ≤ s.length ∧
      (0 < n → 0 < k) ∧ block'.toNat = horner 10 block.toNat (ds.take k) ∧
      mult.toNat = 10 ^ (digitsPerBlock10 w - n + k) := by
  induction n generalizing s ds block with
  | zero =>
    refine ⟨0, block, maxBlock10 w, by rw [readBlock, drop_zero], Nat.zero_le _,
      fun h => h, rfl, ?_⟩
    rw [hw.toNat_maxBlock10, Nat.sub_zero, Nat.add_zero]
  | succ n ih =>
    cases s with
    | nil => exact absurd rfl hs
    | cons c s =>
      obtain ⟨d, ds, rfl, hc, hds⟩ := h.of_cons
      obtain ⟨hval, hlt⟩ := toNat_block hw hb (by omega) (decVal_lt hc)
      rw [readBlock, hc]
      simp only
      split
      · rename_i hnil
        subst hnil
        refine ⟨1, _, _, rfl, Nat.le_refl _, fun _ => Nat.one_pos, ?_, ?_⟩
        · rw [hval, take_succ_cons, take_zero]
          rfl
        · exact hw.toNat_blockMultiplier (by omega)
      · rename_i hne
        rw [← hval, show digitsPerBlock10 w - (n + 1) + 1 = digitsPerBlock10 w - n by omega] at hlt
        obtain ⟨k, block', mult, hread, hk, -, hblock, hmult⟩ := ih _ hds hne (by omega) hlt
        refine ⟨k + 1, block', mult, hread, by simpa using hk, fun _ => succ_pos k, ?_, ?_⟩
        · rw [hblock, hval, take_succ_cons, horner_cons]
        · rw [hmult, show digitsPerBlock10 w - n + k = digitsPerBlock10 w - (n + 1) + (k + 1) by omega]

theorem size_evalAddLimb_le (hw : LimbWidth w) (r : CppInt w) (a : Operand w) (o : BitVec w) :
    (evalAddLimb r a o).size ≤ maxLimbs w := by
  have hmax : 2 ≤ maxLimbs w := (by decide : 2 ≤ 4).trans
    (four_le_maxLimbs (by have := hw.le; omega) hw.lt)
  unfold evalAddLimb
  split
  · exact size_subtractUnsignedLimb_le
  · have := size_addUnsignedLimb_le (r := r) (a := a) (o := o)
    omega

/-- A block is added without an exception, and exactly where the sum fits. -/
theorem addBlock_spec (hw : LimbWidth w) (x : CppInt w) (mult block : BitVec w) :
    ∃ y, addBlock x mult block = .ok y ∧ y.size ≤ maxLimbs w ∧
      ∀ n : ℕ, x.Represents n → x.size ≤ maxLimbs w →
        Fits w (n * mult.toNat + block.toNat : ℕ) → y.Represents (n * mult.toNat + block.toNat : ℕ) := by
  obtain ⟨z, hz⟩ := evalMultiplyLimb_isSome x .result mult
  refine ⟨evalAddLimb z .result block, by rw [addBlock, hz], size_evalAddLimb_le hw _ _ _,
    fun n hx hxm hfit => ?_⟩
  obtain ⟨z', hz', hzm, hrep⟩ := evalMultiplyLimb_spec x .result mult hx.canonical hxm
  obtain rfl : z = z' := Option.some.inj (hz.symm.trans hz')
  rw [show (Operand.result : Operand w).get x = x from rfl, hx.toInt_eq, ← Nat.cast_mul] at hrep
  have hrep := hrep ((Nat.le_add_right _ block.toNat).trans_lt hfit)
  have h := (evalAddLimb_iff (r := z) (a := .result) (o := block) hw.lt hrep.canonical.1 hzm).mpr
  rw [show (Operand.result : Operand w).get z = z from rfl, hrep.toInt_eq, ← Nat.cast_add] at h
  exact h hfit

theorem digitsPerBlock10_pos (w : ℕ) : 0 < digitsPerBlock10 w := by
  rw [digitsPerBlock10]
  split <;> decide

/-- **Decimal digits** are read as their positional value where it fits. -/
theorem decimalLoop_spec (hw : LimbWidth w) (fuel : ℕ) (h : Spells decVal s ds)
    (hfuel : s.length ≤ fuel) {x : CppInt w} (hxm : x.size ≤ maxLimbs w) :
    ∃ y, decimalLoop fuel s x = .ok y ∧ y.size ≤ maxLimbs w ∧
      ∀ acc : ℕ, x.Represents acc → Fits w (horner 10 acc ds) → y.Represents (horner 10 acc ds) := by
  induction fuel generalizing s ds x with
  | zero =>
    obtain rfl : s = [] := length_eq_zero_iff.mp (by omega)
    obtain rfl : ds = [] := length_eq_zero_iff.mp h.length_eq.symm
    exact ⟨x, by rw [decimalLoop], hxm, fun _ hx _ => hx⟩
  | succ fuel ih =>
    cases s with
    | nil =>
      obtain rfl : ds = [] := length_eq_zero_iff.mp h.length_eq.symm
      exact ⟨x, by rw [decimalLoop], hxm, fun _ hx _ => hx⟩
    | cons c s =>
      obtain ⟨k, block, mult, hread, hk, hpos, hblock, hmult⟩ :=
        readBlock_spec hw (digitsPerBlock10 w) 0 h (by simp) (Nat.le_refl _) (by simp)
      have hkpos := hpos (digitsPerBlock10_pos w)
      obtain ⟨x', hadd, hxm', hx'⟩ := addBlock_spec hw x mult block
      have hrest : Spells decVal ((c :: s).drop k) (ds.drop k) := by
        rw [Spells, map_drop, map_drop, h]
      have hlen := h.length_eq
      obtain ⟨y, hy, hym, hrep⟩ := ih hrest (by rw [length_drop, length_cons] at *; omega) hxm'
      refine ⟨y, ?_, hym, fun acc hx hfit => ?_⟩
      · rw [decimalLoop, hread]
        simp only [ok_bind, hadd]
        exact hy
      · have hacc : acc * mult.toNat + block.toNat = horner 10 acc (ds.take k) := by
          rw [hmult, hblock, horner_eq 10 _ acc, horner_eq 10 _ (BitVec.toNat 0),
            length_take, Nat.min_eq_left (by omega)]
          simp
        have hsplit : horner 10 acc ds = horner 10 (horner 10 acc (ds.take k)) (ds.drop k) := by
          rw [← horner_append, take_append_drop]
        rw [hsplit] at hfit ⊢
        -- what is read so far does not exceed the whole
        have hpre : Fits w (horner 10 acc (ds.take k)) := (le_horner _ _).trans_lt hfit
        rw [← hacc] at hpre hfit ⊢
        exact hrep _ (hx' acc hx hxm hpre) hfit

theorem readBlock_error (n : ℕ) (h : none ∈ s.map decVal) (block : BitVec w) :
    readBlock w n s block = .error unexpectedCharacter ∨
      ∃ block' mult s', readBlock w n s block = .ok (block', mult, s') ∧ none ∈ s'.map decVal ∧
        s'.length + n ≤ s.length := by
  induction n generalizing s block with
  | zero => exact Or.inr ⟨block, _, s, by rw [readBlock], h, Nat.le_refl _⟩
  | succ n ih =>
    cases s with
    | nil => cases h
    | cons c s =>
      rw [readBlock]
      cases hc : decVal c with
      | none => exact Or.inl rfl
      | some d =>
        rw [map_cons, hc, mem_cons] at h
        have hs := h.resolve_left (by simp)
        simp only
        rw [if_neg (by rintro rfl; cases hs)]
        rcases ih hs (block * 10 + BitVec.ofNat w d) with he | ⟨b, m, s', hr, hm, hl⟩
        · exact Or.inl he
        · exact Or.inr ⟨b, m, s', hr, hm, by rw [length_cons]; omega⟩

theorem decimalLoop_error (hw : LimbWidth w) (fuel : ℕ) (h : none ∈ s.map decVal)
    (hfuel : s.length ≤ fuel) (x : CppInt w) : decimalLoop fuel s x = .error unexpectedCharacter := by
  induction fuel generalizing s x with
  | zero =>
    obtain rfl : s = [] := length_eq_zero_iff.mp (by omega)
    cases h
  | succ fuel ih =>
    cases s with
    | nil => cases h
    | cons c s =>
      rw [decimalLoop]
      rcases readBlock_error (digitsPerBlock10 w) h (0 : BitVec w) with he | ⟨b, m, s', hr, hm, hl⟩
      · rw [he]
        rfl
      · obtain ⟨x', hadd, -⟩ := addBlock_spec hw x m b
        have := digitsPerBlock10_pos w
        rw [hr]
        simp only [ok_bind, hadd]
        exact ih hm (by rw [length_cons] at *; omega) x'

/-! ### Reading a text -/

theorem newObject_represents (p : ℕ → BitVec w) : (newObject p).Represents 0 := by
  have ht : (newObject p).Trimmed := ⟨Nat.one_pos, Or.inl rfl⟩
  have hm : (newObject p).mag = 0 := by
    simp [mag, newObject]
  have h := ht.represents rfl
  rwa [hm] at h

theorem LimbWidth.maxLimbs_lt (hw : LimbWidth w) : maxLimbs w < 2 ^ 32 := by
  rcases hw with rfl | rfl <;> decide

theorem clearedTo_spec (hw : LimbWidth w) (x : CppInt w) (n : ℕ) :
    (clearedTo x n).mag = 0 ∧ (n ≤ maxLimbs w → (clearedTo x n).size = n) ∧
      (clearedTo x n).sign = x.sign := by
  refine ⟨natOf_memset _ (Nat.le_refl _), fun hn => ?_, rfl⟩
  have := hw.maxLimbs_lt
  show min (uint n) (maxLimbs w) = n
  rw [uint_of_lt (by omega), Nat.min_eq_left hn]

theorem firstPosition_eq (bits : ℕ) (s : List Char) :
    firstPosition bits s = bits * (s.length - 1) := by
  rw [firstPosition]
  split
  · rw [Nat.mul_sub, Nat.mul_one]
  · rename_i h
    rcases Nat.eq_zero_or_pos bits with rfl | hb
    · rw [Nat.zero_mul]
    · have : s.length ≤ 1 := Nat.le_of_mul_le_mul_left (by omega) hb
      rw [Nat.sub_eq_zero_of_le this, Nat.mul_zero]

theorem Spells.dropWhile_zero (h : Spells val s ds) (hval : val '0' = some 0) (b : ℕ) :
    ∃ ds', Spells val (s.dropWhile (· = '0')) ds' ∧ positional b ds' = positional b ds := by
  induction s generalizing ds with
  | nil => exact ⟨ds, h, rfl⟩
  | cons c s ih =>
    by_cases hc : c = '0'
    · obtain ⟨d, ds, rfl, hd, hs⟩ := h.of_cons
      obtain ⟨ds', h', hv⟩ := ih hs
      refine ⟨ds', by simpa [hc] using h', ?_⟩
      rw [hc, hval, Option.some.injEq] at hd
      rw [hv, ← hd, positional_cons, Nat.zero_mul, Nat.zero_add]
    · exact ⟨ds, by simpa [hc] using h, rfl⟩

/-- **The limbs asked for** are granted where the value fits: the leading digit is not zero. -/
theorem newsize_le_of_fits (bits : ℕ) (h : Spells val s ds)
    (hval : ∀ c, val c = some 0 → c = '0') (hhead : s.head? ≠ some '0')
    (hfit : Fits w (positional (2 ^ bits) ds)) : bits * (s.length - 1) / w + 1 ≤ maxLimbs w := by
  cases s with
  | nil =>
    rw [length_nil, Nat.zero_sub, Nat.mul_zero, Nat.zero_div]
    exact maxLimbs_pos
  | cons c s =>
    obtain ⟨d, ds, rfl, hc, hs⟩ := h.of_cons
    have hd : d ≠ 0 := by
      rintro rfl
      exact hhead (congrArg some (hval c hc))
    rw [length_cons, Nat.add_sub_cancel]
    refine Nat.div_lt_of_lt_mul ((Nat.pow_lt_pow_iff_right (by decide : 1 < 2)).mp ?_)
    calc 2 ^ (bits * s.length) = (2 ^ bits) ^ ds.length := by rw [← pow_mul, hs.length_eq]
      _ ≤ d * (2 ^ bits) ^ ds.length := Nat.le_mul_of_pos_left _ (Nat.pos_of_ne_zero hd)
      _ ≤ positional (2 ^ bits) (d :: ds) := by
        rw [positional_cons]
        exact Nat.le_add_right _ _
      _ < 2 ^ (w * maxLimbs w) := by
        rw [pow_mul]
        exact hfit

theorem head?_dropWhile_zero (s : List Char) : (s.dropWhile (· = '0')).head? ≠ some '0' := fun h => by
  have hnot := head?_dropWhile_not (· = '0') s
  rw [h] at hnot
  simp at hnot

theorem eq_zero_of_hexVal (c : Char) (h : hexVal c = some 0) : c = '0' := by
  have e₀ : ('0'.toNat = 48) := rfl
  have ea : ('a'.toNat = 97) := rfl
  have eA : ('A'.toNat = 65) := rfl
  rw [hexVal] at h
  split at h
  · rename_i hc
    rw [Option.some.injEq] at h
    have : 48 ≤ c.toNat := hc.1
    exact Char.ext (UInt32.toNat_inj.mp (show c.toNat = '0'.toNat by omega))
  split at h
  · rename_i hc
    have : 97 ≤ c.toNat := hc.1
    rw [Option.some.injEq] at h
    omega
  split at h
  · rename_i hc
    have : 65 ≤ c.toNat := hc.1
    rw [Option.some.injEq] at h
    omega
  · cases h

/-- A text that starts neither a base nor with `0` is decimal. -/
theorem assignMagnitude_eq (h : s.head? ≠ some '0') (p : ℕ → BitVec w) :
    assignMagnitude p s = decimalLoop s.length s (newObject p) := by
  unfold assignMagnitude
  split
  · exact absurd rfl h
  · exact absurd rfl h
  · rfl

theorem assignMagnitude_decimal (hw : LimbWidth w) (p : ℕ → BitVec w) (h : Spells decVal s ds)
    (h₀ : s.head? ≠ some '0') :
    ∃ y, assignMagnitude p s = .ok y ∧ y.size ≤ maxLimbs w ∧
      (Fits w (positional 10 ds) → y.Represents (positional 10 ds)) := by
  rw [assignMagnitude_eq h₀]
  obtain ⟨y, hy, hym, hrep⟩ := decimalLoop_spec hw _ h (Nat.le_refl _)
    (show (newObject p).size ≤ maxLimbs w from maxLimbs_pos)
  exact ⟨y, hy, hym, hrep 0 (newObject_represents p)⟩

theorem assignMagnitude_decimal_error (hw : LimbWidth w) (p : ℕ → BitVec w) (h : none ∈ s.map decVal)
    (h₀ : s.head? ≠ some '0') :
    assignMagnitude p s = .error unexpectedCharacter := by
  rw [assignMagnitude_eq h₀]
  exact decimalLoop_error hw _ h (Nat.le_refl _) _

theorem four_mul_le (hw : LimbWidth w) (n : ℕ) : 4 * n ≤ w * (4 * (n - 1) / w + 1) := by
  rcases hw with rfl | rfl <;> omega

theorem assignMagnitude_hex (hw : LimbWidth w) (p : ℕ → BitVec w) {c : Char}
    (hc : c = 'x' ∨ c = 'X') (h : Spells hexVal s ds) :
    ∃ y, assignMagnitude p ('0' :: c :: s) = .ok y ∧ y.size ≤ maxLimbs w ∧
      (Fits w (positional 16 ds) → y.Represents (positional 16 ds)) := by
  have := hw.neZero
  have h4 : 4 ∣ w := by rcases hw with rfl | rfl <;> decide
  simp only [assignMagnitude, if_pos hc]
  split
  · rename_i hnil
    subst hnil
    obtain rfl : ds = [] := length_eq_zero_iff.mp h.length_eq.symm
    exact ⟨_, rfl, maxLimbs_pos, fun _ => newObject_represents p⟩
  · obtain ⟨ds', h', hv⟩ := h.dropWhile_zero (by decide) 16
    have hhead := head?_dropWhile_zero s
    rw [firstPosition_eq]
    set t := s.dropWhile (· = '0') with ht
    obtain ⟨hm, hsize, hsign⟩ := clearedTo_spec hw (newObject p) (4 * (t.length - 1) / w + 1)
    obtain ⟨y, hy, hys⟩ := hexLoop_ok h' (4 * (t.length - 1))
      (clearedTo (newObject p) (4 * (t.length - 1) / w + 1))
    have hym : y.size ≤ maxLimbs w := by
      rw [hys]
      exact Nat.min_le_right _ _
    refine ⟨y.normalize, by rw [hy]; rfl, (normalize_size_le y).trans hym, fun hfit => ?_⟩
    rw [← hv] at hfit
    have hsize := hsize (newsize_le_of_fits 4 h' eq_zero_of_hexVal hhead hfit)
    obtain ⟨y', hy', hmag, -, hyn⟩ := hexLoop_spec h4 h' 0 (by rw [hm, Nat.zero_mul])
      (by rw [hsize]; exact four_mul_le hw _)
    obtain rfl : y = y' := Except.ok.inj (hy.symm.trans hy')
    have hpos : 0 < y.size := by rw [hys, hsize]; exact succ_pos _
    obtain ⟨htrim, hmag'⟩ := normalize_spec hpos
    have hrep := htrim.represents (by rw [sign_normalize, hyn, hsign]; rfl)
    rwa [hmag', hmag, ← positional, hv] at hrep

/-- A zero is not the character that is rejected. -/
theorem none_mem_dropWhile (hval : val '0' = some 0) (h : none ∈ s.map val) :
    none ∈ (s.dropWhile (· = '0')).map val := by
  induction s with
  | nil => cases h
  | cons c s ih =>
    by_cases hc : c = '0'
    · rw [map_cons, hc, hval, mem_cons] at h
      simpa [hc] using ih (h.resolve_left (by simp))
    · simpa [hc] using h

theorem assignMagnitude_hex_error (p : ℕ → BitVec w) {c : Char} (hc : c = 'x' ∨ c = 'X')
    (h : none ∈ s.map hexVal) :
    assignMagnitude p ('0' :: c :: s) = .error unexpectedContent := by
  simp only [assignMagnitude, if_pos hc]
  rw [if_neg (by rintro rfl; cases h), hexLoop_error (none_mem_dropWhile (by decide) h)]
  rfl

/-- The text of a sign. -/
def signText (neg : Bool) (s : List Char) : List Char := if neg then '-' :: s else s

/-- The number of a sign. -/
def signed (neg : Bool) (n : ℕ) : ℤ := if neg then -(n : ℤ) else n

theorem doAssignString_signText {neg : Bool} (h : neg = false → s.head? ≠ some '-')
    (p : ℕ → BitVec w) :
    doAssignString p (signText neg s) =
      if neg then (assignMagnitude p s).map CppInt.negate else assignMagnitude p s := by
  cases neg with
  | true => rfl
  | false =>
    show doAssignString p s = assignMagnitude p s
    unfold doAssignString
    split
    · exact absurd rfl (h rfl)
    · rfl

/-- A text is read as its number exactly where `max_limbs` limbs hold it. -/
theorem doAssignString_iff (neg : Bool) (h : neg = false → s.head? ≠ some '-') {p : ℕ → BitVec w}
    {n : ℕ} (hs : ∃ y, assignMagnitude p s = .ok y ∧ y.size ≤ maxLimbs w ∧
      (Fits w n → y.Represents n)) :
    (∃ y, doAssignString p (signText neg s) = .ok y ∧ y.Represents (signed neg n)) ↔ Fits w n := by
  obtain ⟨y, hy, hym, hrep⟩ := hs
  have habs : (signed neg n).natAbs = n := by
    unfold signed
    split <;> omega
  rw [doAssignString_signText h, hy]
  constructor
  · rintro ⟨z, hz, hzr⟩
    have hzm : z.size ≤ maxLimbs w := by
      cases neg with
      | true => exact (Except.ok.inj hz ▸ hym : z.size ≤ maxLimbs w)
      | false => exact (Except.ok.inj hz ▸ hym : z.size ≤ maxLimbs w)
    have hfit := hzr.fits hzm
    rwa [Fits, habs] at hfit
  · intro hfit
    cases neg with
    | true => exact ⟨y.negate, rfl, (hrep hfit).negate⟩
    | false => exact ⟨y, rfl, hrep hfit⟩

theorem doAssignString_error {neg : Bool} (h : neg = false → s.head? ≠ some '-')
    {p : ℕ → BitVec w} {e : TextFault} (hs : assignMagnitude p s = .error e) :
    doAssignString p (signText neg s) = .error e := by
  rw [doAssignString_signText h, hs]
  cases neg <;> rfl

end SourceLibs.CppInt
