import SourceLibs.CppInt.Add
import SourceLibs.Support.Bits

/-!
# CppInt — bitwise operations

`bitwise_op` works on the infinite two's complement of both operands.  A negative operand is
converted limb by limb on the fly: the complement of each limb, with a carry that starts at one.
The limb past the top of both is computed too and tells the sign of the result, which is then
converted back in place, with one more limb when the carry runs off the top.

* `twosLimbs_value`: the converted limbs of a negative number denote it modulo a power.
* `toInt_eq_twos`: so limbs and sign are the two's complement of the operand, cut at any length.
* `bitwiseOp_spec`: for any operation that acts on each bit.
* `evalBitwise_iff`: `eval_bitwise_and`, `_or` and `_xor` are exact where the result fits.
-/

namespace SourceLibs.CppInt
open BitVec Radix

variable {w : ℕ}

/-- `carry += ~d`, the limb that is used of it, and `carry >>= limb_bits`. -/
def complementStep (carry : ℕ) (d : BitVec w) : BitVec w × ℕ :=
  let carry := dbl w (carry + (~~~d).toNat)
  (BitVec.ofNat w carry, carry / 2 ^ w)

/-- The four cases of the loops: the limbs of the result, and `next_limb`. -/
def bitwiseLimbs (op : BitVec w → BitVec w → BitVec w) (o : Operand w) (os x : ℕ)
    (pr : ℕ → BitVec w) : Bool → Bool → (ℕ → BitVec w) × BitVec w
  | false, false =>
    let s := pass (fun (_ : Unit) i cell => (op cell (o.limb i cell), ())) os 0 (pr, ())
    let s := pass (fun _ _ cell => (op cell 0, ())) (x - os) os s
    (s.1, 0)
  | false, true =>
    let s := pass (fun carry i cell =>
      let c := complementStep carry (o.limb i cell)
      (op cell c.1, c.2)) os 0 (pr, 1)
    let s := pass (fun carry _ cell =>
      let c := complementStep carry 0
      (op cell c.1, c.2)) (x - os) os s
    (s.1, op 0 (complementStep s.2 0).1)
  | true, false =>
    let s := pass (fun carry i cell =>
      let c := complementStep carry cell
      (op c.1 (o.limb i cell), c.2)) os 0 (pr, 1)
    let s := pass (fun carry _ cell =>
      let c := complementStep carry cell
      (op c.1 0, c.2)) (x - os) os s
    (s.1, op (complementStep s.2 0).1 0)
  | true, true =>
    let s := pass (fun (carry : ℕ × ℕ) i cell =>
      let r := complementStep carry.1 cell
      let c := complementStep carry.2 (o.limb i cell)
      (op r.1 c.1, (r.2, c.2))) os 0 (pr, (1, 1))
    let s := pass (fun (carry : ℕ × ℕ) _ cell =>
      let r := complementStep carry.1 cell
      let c := complementStep carry.2 0
      (op r.1 c.1, (r.2, c.2))) (x - os) os s
    (s.1, op (complementStep s.2.1 0).1 (complementStep s.2.2 0).1)

/-- `if(carry)` of `bitwise_op`: one more limb, if `resize` grants it. -/
def appendGranted (result : CppInt w) (x carry : ℕ) : CppInt w :=
  if carry ≠ 0 then
    let result := result.resize (x + 1)
    if x < result.size then result.store x (BitVec.ofNat w carry) else result
  else result

/-- `bitwise_op(result, o, op)` for signed types. -/
def bitwiseOp (op : BitVec w → BitVec w → BitVec w) (result : CppInt w) (o : Operand w) : CppInt w :=
  let rs := result.size
  let os := (o.get result).size
  let x := max rs os
  let pr := zeroFill result.limbs rs x
  let s := bitwiseLimbs op o os x pr result.sign (o.get result).sign
  let result := result.resize x
  if s.2.toInt < 0 then
    let t := pass (fun carry _ cell => complementStep carry cell) x 0 (s.1, 1)
    ((appendGranted (result.setLimbs t.1) x t.2).setSign true).normalize
  else ((result.setLimbs s.1).setSign false).normalize

/-- `eval_bitwise_and`. -/
def evalBitwiseAnd (result : CppInt w) (o : Operand w) : CppInt w := bitwiseOp (· &&& ·) result o

/-- `eval_bitwise_or`. -/
def evalBitwiseOr (result : CppInt w) (o : Operand w) : CppInt w := bitwiseOp (· ||| ·) result o

/-- `eval_bitwise_xor`. -/
def evalBitwiseXor (result : CppInt w) (o : Operand w) : CppInt w := bitwiseOp (· ^^^ ·) result o

/-! ### Conversion to two's complement -/

/-- The carry of the conversion of `p`, before position `i`. -/
def carryAt (p : ℕ → BitVec w) : ℕ → ℕ
  | 0 => 1
  | i + 1 => (complementStep (carryAt p i) (p i)).2

/-- The limbs of the conversion of `p`. -/
def twosLimbs (p : ℕ → BitVec w) (i : ℕ) : BitVec w := (complementStep (carryAt p i) (p i)).1

theorem complementStep_eq (p : ℕ → BitVec w) (i : ℕ) :
    complementStep (carryAt p i) (p i) = (twosLimbs p i, carryAt p (i + 1)) := rfl

theorem complementStep_value {c : ℕ} (hc : c ≤ 1) (hw : 0 < w) (d : BitVec w) :
    (complementStep c d).2 ≤ 1 ∧
      (complementStep c d).1.toNat + 2 ^ w * (complementStep c d).2 = c + (2 ^ w - 1 - d.toNat) := by
  have hd := d.isLt
  have h₂ : 2 ^ w * 2 ≤ 2 ^ w * 2 ^ w :=
    Nat.mul_le_mul_left _ (Nat.pow_le_pow_right Nat.two_pos hw)
  simp only [complementStep]
  rw [toNat_not, dbl_eq (by omega), lo_add_hi]
  refine ⟨?_, rfl⟩
  rw [← Nat.lt_succ_iff]
  exact Nat.div_lt_of_lt_mul (by omega)

/-- **The converted limbs**, with the carry that is left, are the power minus the number. -/
theorem twosLimbs_value (hw : 0 < w) (p : ℕ → BitVec w) (n : ℕ) :
    carryAt p n ≤ 1 ∧
      natOf (twosLimbs p) n + carryAt p n * (2 ^ w) ^ n + natOf p n = (2 ^ w) ^ n := by
  induction n with
  | zero => simp [carryAt]
  | succ n ih =>
    obtain ⟨hc, hv⟩ := ih
    obtain ⟨hc', hd⟩ := complementStep_value hc hw (p n)
    refine ⟨hc', ?_⟩
    have hlt := (p n).isLt
    have hd' : (twosLimbs p n).toNat + 2 ^ w * carryAt p (n + 1) + (p n).toNat + 1 =
        carryAt p n + 2 ^ w := by
      have : (twosLimbs p n).toNat + 2 ^ w * carryAt p (n + 1) =
        carryAt p n + (2 ^ w - 1 - (p n).toNat) := hd
      omega
    rw [natOf_succ, natOf_succ, pow_succ]
    linear_combination hv + (2 ^ w) ^ n * hd'

/-- The limbs of an operand as the loops see them. -/
def digits (neg : Bool) (p : ℕ → BitVec w) : ℕ → BitVec w := if neg then twosLimbs p else p

/-- The limb past the top, for a carry `c` that came that far. -/
def extraLimb (neg : Bool) (c : ℕ) : BitVec w := if neg then (complementStep c 0).1 else 0

/-- **Limbs and sign are the two's complement.**  Converted or not, the low `x` limbs of a
canonical number and its sign repeated denote the number, and no carry is left past them. -/
theorem toInt_eq_twos {a : CppInt w} (ha : a.Canonical) {p : ℕ → BitVec w} {x : ℕ}
    (hp : natOf p x = a.mag) :
    a.toInt = twos (w * x) (natOf (digits a.sign p) x) a.sign ∧
      (a.sign = true → 0 < w ∧ carryAt p x = 0) := by
  cases hs : a.sign with
  | false =>
    refine ⟨?_, fun h => by cases h⟩
    rw [toInt_of_sign hs, digits, if_neg Bool.false_ne_true, hp]
    simp [twos]
  | true =>
    have hne : a.mag ≠ 0 := fun e => by
      rw [(canonical_iff.mp ha).2 e] at hs
      cases hs
    have hw := width_pos_of_mag hne
    obtain ⟨hc, hv⟩ := twosLimbs_value hw p x
    have hc₀ : carryAt p x = 0 := by
      by_contra h
      rw [show carryAt p x = 1 by omega, hp] at hv
      omega
    refine ⟨?_, fun _ => ⟨hw, hc₀⟩⟩
    rw [hc₀, hp] at hv
    have hz : (natOf (twosLimbs p) x : ℤ) + a.mag = 2 ^ (w * x) := by
      rw [pow_mul]
      have : ((natOf (twosLimbs p) x + a.mag : ℕ) : ℤ) = ((2 ^ w) ^ x : ℕ) := by
        rw [← hv]
        ring_nf
      push_cast at this
      exact this
    rw [toInt, hs, if_pos rfl, digits, if_pos rfl, twos, if_pos rfl, ← hz]
    ring

/-! ### The loops -/

/-- Two loops over adjacent ranges that work out the same positions as one. -/
theorem pass_pass_eq {γ : Type*} {g₁ g₂ : γ → ℕ → BitVec w → BitVec w × γ} {K : ℕ → γ}
    {F f : ℕ → BitVec w} {os x : ℕ} (hx : os ≤ x)
    (h₁ : ∀ j, j < os → g₁ (K j) j (f j) = (F j, K (j + 1)))
    (h₂ : ∀ j, os ≤ j → j < x → g₂ (K j) j (f j) = (F j, K (j + 1))) :
    pass g₂ (x - os) os (pass g₁ os 0 (f, K 0)) = (fun j => if j < x then F j else f j, K x) := by
  rw [pass_eq (F := F) fun j _ hj => h₁ j (by omega), Nat.zero_add,
    pass_eq (F := F) fun j h₃ h₄ => by
      rw [if_neg (by omega)]
      exact h₂ j h₃ (by omega)]
  refine Prod.ext (funext fun j => ?_) (congrArg K (by omega))
  show (if os ≤ j ∧ j < os + (x - os) then F j else if 0 ≤ j ∧ j < os then F j else f j) =
    if j < x then F j else f j
  by_cases hj : j < x
  · by_cases hjo : j < os
    · rw [if_neg (by omega), if_pos (by omega), if_pos hj]
    · rw [if_pos (by omega), if_pos hj]
  · rw [if_neg (by omega), if_neg (by omega), if_neg hj]

/-- **The four cases are one**: limb by limb the operation on the converted operands. -/
theorem bitwiseLimbs_eq (op : BitVec w → BitVec w → BitVec w) (o : Operand w) {os x : ℕ}
    {pr po : ℕ → BitVec w} (hx : os ≤ x) (hpo : ∀ i < os, o.limb i (pr i) = po i)
    (hpo₀ : ∀ i, os ≤ i → po i = 0) (rneg oneg : Bool) :
    bitwiseLimbs op o os x pr rneg oneg =
      (fun i => if i < x then op (digits rneg pr i) (digits oneg po i) else pr i,
        if rneg || oneg then op (extraLimb rneg (carryAt pr x)) (extraLimb oneg (carryAt po x))
        else 0) := by
  cases rneg <;> cases oneg <;> simp only [bitwiseLimbs]
  · rw [pass_pass_eq (K := fun _ => ()) (F := fun i => op (pr i) (po i)) hx
      (fun j hj => by rw [hpo j hj]) (fun j hj _ => by rw [hpo₀ j hj])]
    simp [digits]
  · rw [show (1 : ℕ) = carryAt po 0 from rfl,
      pass_pass_eq (K := carryAt po) (F := fun i => op (pr i) (twosLimbs po i)) hx
      (fun j hj => by rw [hpo j hj, complementStep_eq])
      (fun j hj _ => by rw [← hpo₀ j hj, complementStep_eq])]
    simp [digits, extraLimb]
  · rw [show (1 : ℕ) = carryAt pr 0 from rfl,
      pass_pass_eq (K := carryAt pr) (F := fun i => op (twosLimbs pr i) (po i)) hx
      (fun j hj => by rw [hpo j hj, complementStep_eq])
      (fun j hj _ => by rw [complementStep_eq, hpo₀ j hj])]
    simp [digits, extraLimb]
  · rw [show ((1 : ℕ), (1 : ℕ)) = (carryAt pr 0, carryAt po 0) from rfl,
      pass_pass_eq (K := fun i => (carryAt pr i, carryAt po i))
        (F := fun i => op (twosLimbs pr i) (twosLimbs po i)) hx
      (fun j hj => by simp only [hpo j hj, complementStep_eq])
      (fun j hj _ => by simp only [← hpo₀ j hj, complementStep_eq])]
    simp [digits, extraLimb]

/-! ### The result -/

/-- `op` acts on each bit as `f`. -/
def ActsBitwise (op : BitVec w → BitVec w → BitVec w) (f : Bool → Bool → Bool) : Prop :=
  ∀ x y j, j < w → (op x y).getLsbD j = f (x.getLsbD j) (y.getLsbD j)

/-- The operation on limbs and signs, read as an operation on integers. -/
theorem twos_bitwise {op : BitVec w → BitVec w → BitVec w} {f : Bool → Bool → Bool}
    (hop : ActsBitwise op f) (p q : ℕ → BitVec w) (x : ℕ) (s t : Bool) :
    twos (w * x) (natOf (fun i => op (p i) (q i)) x) (f s t) =
      Int.bitwise f (twos (w * x) (natOf p x) s) (twos (w * x) (natOf q x) t) := by
  have hlt : ∀ p : ℕ → BitVec w, natOf p x < 2 ^ (w * x) := fun p => by
    rw [pow_mul]
    exact natOf_lt p x
  have hbit : ∀ (p : ℕ → BitVec w) {k}, k < w * x →
      (natOf p x).testBit k = (p (k / w)).getLsbD (k % w) := fun p k hk =>
    testBit_value (fun i => (p i).isLt) x k hk
  refine int_eq_of_testBit_eq fun k => ?_
  rw [Int.testBit_bitwise, testBit_twos (hlt _), testBit_twos (hlt _), testBit_twos (hlt _)]
  split
  · rename_i hk
    have hw : 0 < w := Nat.pos_of_ne_zero fun h₀ => by simp [h₀] at hk
    rw [hbit _ hk, hbit _ hk, hbit _ hk, hop _ _ _ (Nat.mod_lt k hw)]
  · rfl

theorem getLsbD_extraLimb {neg : Bool} {c : ℕ} (h : neg = true → 0 < w ∧ c = 0) {j : ℕ} (hj : j < w) :
    (extraLimb neg c : BitVec w).getLsbD j = neg := by
  cases neg with
  | false => simp [extraLimb]
  | true =>
    obtain ⟨-, rfl⟩ := h rfl
    have e : (complementStep 0 (0 : BitVec w)).1 = allOnes w := by
      refine eq_of_toNat_eq ?_
      have hpos := Nat.two_pow_pos w
      have h₂ : 2 ^ w ≤ 2 ^ w * 2 ^ w := Nat.le_mul_of_pos_left _ hpos
      simp only [complementStep, toNat_ofNat, Nat.zero_add]
      rw [toNat_not, toNat_eq_zero.mpr rfl, dbl_eq (by omega), toNat_allOnes,
        Nat.sub_zero, Nat.mod_eq_of_lt (by omega)]
    rw [extraLimb, if_pos rfl, e, getLsbD_allOnes]
    exact decide_eq_true hj

theorem natOf_zero_above {p : ℕ → BitVec w} {m x : ℕ} (h : m ≤ x) (h₀ : ∀ i, m ≤ i → i < x → p i = 0) :
    natOf p x = natOf p m :=
  value_of_zero_above _ h fun i h₁ h₂ => by rw [h₀ i h₁ h₂]; rfl

/-- Where the number fits, the limb is granted. -/
theorem appendGranted_eq {p : CppInt w} {x c : ℕ} (hfit : c ≠ 0 → x < maxLimbs w) :
    appendGranted p x c = appendCarry p x c := by
  unfold appendGranted appendCarry
  split
  · rename_i hc
    rw [resize_of_le (hfit hc)]
    exact if_pos (Nat.lt_add_one x)
  · rfl

theorem size_appendGranted_le {p : CppInt w} (h : p.size ≤ maxLimbs w) (x c : ℕ) :
    (appendGranted p x c).size ≤ maxLimbs w := by
  unfold appendGranted
  dsimp only
  split
  · split <;> exact Nat.min_le_right _ _
  · exact h

theorem size_bitwiseOp_le (op : BitVec w → BitVec w → BitVec w) (r : CppInt w) (o : Operand w) :
    (bitwiseOp op r o).size ≤ maxLimbs w := by
  unfold bitwiseOp
  dsimp only
  split
  · exact (normalize_size_le _).trans (size_appendGranted_le (Nat.min_le_right _ _) _ _)
  · exact (normalize_size_le _).trans (Nat.min_le_right _ _)

theorem bitwise_finish (r : CppInt w) (hpos : 0 < r.size) (p : ℕ → BitVec w) {next : BitVec w}
    {s : Bool} (hw : s = true → 0 < w) (hnext : next.toInt < 0 ↔ s = true)
    (hfit : Fits w (twos (w * r.size) (natOf p r.size) s)) :
    (if next.toInt < 0 then
      let t := pass (fun carry _ cell => complementStep carry cell) r.size 0 (p, 1)
      ((appendGranted (r.setLimbs t.1) r.size t.2).setSign true).normalize
    else ((r.setLimbs p).setSign false).normalize).Represents
      (twos (w * r.size) (natOf p r.size) s) := by
  cases s with
  | false =>
    rw [if_neg fun h => by cases hnext.mp h]
    have h := setSign_normalize (x := r.setLimbs p) (b := false) hpos fun h => by cases h
    simpa [twos, mag] using h
  | true =>
    rw [if_pos (hnext.mpr rfl)]
    simp only
    rw [show (1 : ℕ) = carryAt p 0 from rfl,
      pass_eq (K := carryAt p) (F := twosLimbs p) fun j _ _ => rfl, Nat.zero_add]
    obtain ⟨hc, hv⟩ := twosLimbs_value (hw rfl) p r.size
    have hlt := natOf_lt p r.size
    set q : ℕ → BitVec w := fun j => if 0 ≤ j ∧ j < r.size then twosLimbs p j else p j with hq
    have hnat : natOf q r.size = natOf (twosLimbs p) r.size := natOf_congr fun i hi =>
      if_pos ⟨Nat.zero_le i, hi⟩
    have e : twos (w * r.size) (natOf p r.size) true =
        -((natOf (twosLimbs p) r.size + carryAt p r.size * (2 ^ w) ^ r.size : ℕ) : ℤ) := by
      have h₂ : (2 : ℤ) ^ (w * r.size) = ((2 ^ w) ^ r.size : ℕ) := by
        rw [pow_mul]
        push_cast
        rfl
      rw [twos, if_pos rfl, h₂]
      omega
    rw [e, Fits, Int.natAbs_neg, Int.natAbs_natCast] at hfit
    rw [appendGranted_eq fun hc₀ => lt_max_of_carry hc₀ hfit]
    obtain ⟨hsz, hmag⟩ := appendCarry_spec (p := r.setLimbs q) hpos rfl
      (hc.trans_lt (Nat.one_lt_two_pow (hw rfl).ne')) (by rwa [limbs_setLimbs, hnat])
    rw [limbs_setLimbs, hnat] at hmag
    have h := setSign_normalize hsz (b := true) fun _ => by omega
    rw [e, ← hmag]
    exact h

/-- **`bitwise_op`**, for an operation that keeps a pair of zero bits zero. -/
theorem bitwiseOp_spec {op : BitVec w → BitVec w → BitVec w} {f : Bool → Bool → Bool}
    (hop : ActsBitwise op f) (hf : f false false = false) (r : CppInt w) (o : Operand w)
    (hr : r.Canonical) (ho : (o.get r).Canonical) (hrm : r.size ≤ maxLimbs w)
    (hom : (o.get r).size ≤ maxLimbs w) :
    (bitwiseOp op r o).Represents (Int.bitwise f r.toInt (o.get r).toInt) ↔
      Fits w (Int.bitwise f r.toInt (o.get r).toInt) := by
  have hr₀ := hr.1.1
  have ho₀ := ho.1.1
  refine ⟨fun h => h.fits (size_bitwiseOp_le op r o), ?_⟩
  unfold bitwiseOp
  simp only
  rw [resize_of_le (Nat.max_le.mpr ⟨hrm, hom⟩)]
  set os := (o.get r).size with hos
  set x := max r.size os with hx
  set pr := zeroFill r.limbs r.size x with hpr
  -- the other operand's limbs, with zeros above
  set po : ℕ → BitVec w := fun i => if i < os then (o.get r).limbs i else 0 with hpo
  have hlimb : ∀ i < os, o.limb i (pr i) = po i := fun i hi => by
    have e : po i = (o.get r).limbs i := if_pos hi
    rw [e]
    cases o with
    | result =>
      refine if_neg ?_
      have : i < r.size := hi
      omega
    | object y => rfl
  rw [bitwiseLimbs_eq op o (by omega) hlimb (fun i hi => if_neg (by omega))]
  have hmr : natOf pr x = r.mag := by
    rw [natOf_zero_above (p := pr) (m := r.size) (by omega) fun i h₁ h₂ => if_pos ⟨h₁, h₂⟩]
    exact natOf_congr fun i hi => if_neg (by omega)
  have hmo : natOf po x = (o.get r).mag := by
    rw [natOf_zero_above (p := po) (m := os) (by omega) fun i h₁ _ => if_neg (by omega)]
    exact natOf_congr fun i hi => if_pos hi
  obtain ⟨er, hcr⟩ := toInt_eq_twos hr hmr
  obtain ⟨eo, hco⟩ := toInt_eq_twos ho hmo
  rw [er, eo, ← twos_bitwise hop]
  set P : ℕ → BitVec w := fun i =>
    if i < x then op (digits r.sign pr i) (digits (o.get r).sign po i) else pr i with hP
  have hN : natOf P x = natOf (fun i => op (digits r.sign pr i) (digits (o.get r).sign po i)) x :=
    natOf_congr fun i hi => if_pos hi
  rw [← hN]
  refine fun hfit => bitwise_finish (r.setSize x) (Nat.lt_of_lt_of_le hr₀ (Nat.le_max_left _ _)) P ?_ ?_ hfit
  · intro hs
    by_contra hw
    obtain rfl : w = 0 := by omega
    rw [Bool.eq_false_iff.mpr fun h => absurd (hcr h).1 hw,
      Bool.eq_false_iff.mpr fun h => absurd (hco h).1 hw, hf] at hs
    cases hs
  · -- the top bit of the extra limb
    have hmsb : ∀ b : BitVec w, b.toInt < 0 ↔ b.msb = true := fun b => by
      rw [msb_eq_toInt, decide_eq_true_iff]
    rw [hmsb]
    cases hor : (r.sign || (o.get r).sign) with
    | false =>
      obtain ⟨h₁, h₂⟩ := Bool.or_eq_false_iff.mp hor
      rw [if_neg Bool.false_ne_true, h₁, h₂, hf]
      simp
    | true =>
      have hw : 0 < w := by
        rcases Bool.or_eq_true_iff.mp hor with h | h
        · exact (hcr h).1
        · exact (hco h).1
      rw [if_pos rfl, msb_eq_getLsbD_last, hop _ _ _ (by omega),
        getLsbD_extraLimb hcr (by omega), getLsbD_extraLimb hco (by omega)]

/-- **The bitwise operations are exact where the result fits**: they leave the canonical representation
of the infinite two's complement and, or, xor of the two integers exactly if `max_limbs` limbs hold it,
also when the operand is `result` itself. -/
theorem evalBitwise_iff (r : CppInt w) (o : Operand w) (hr : r.Canonical) (ho : (o.get r).Canonical)
    (hrm : r.size ≤ maxLimbs w) (hom : (o.get r).size ≤ maxLimbs w) :
    ((evalBitwiseAnd r o).Represents (Int.land r.toInt (o.get r).toInt) ↔
      Fits w (Int.land r.toInt (o.get r).toInt)) ∧
    ((evalBitwiseOr r o).Represents (Int.lor r.toInt (o.get r).toInt) ↔
      Fits w (Int.lor r.toInt (o.get r).toInt)) ∧
    ((evalBitwiseXor r o).Represents (Int.xor r.toInt (o.get r).toInt) ↔
      Fits w (Int.xor r.toInt (o.get r).toInt)) := by
  refine ⟨?_, ?_, ?_⟩
  · rw [← Int.bitwise_and]
    exact bitwiseOp_spec (fun x y j _ => getLsbD_and) rfl r o hr ho hrm hom
  · rw [← Int.bitwise_or]
    exact bitwiseOp_spec (fun x y j _ => getLsbD_or) rfl r o hr ho hrm hom
  · rw [← Int.bitwise_xor]
    exact bitwiseOp_spec (fun x y j _ => getLsbD_xor) rfl r o hr ho hrm hom

/-- `-256 & -1`: the conversion back carries into a second limb. -/
theorem evalBitwise_iff_carry :
    (evalBitwiseAnd (w := 8) ⟨fun i => if i = 1 then 1 else 0, 2, true⟩
      (.object ⟨fun _ => 1, 1, true⟩)).Represents (-256) := by
  have hmax : 2 ≤ maxLimbs 8 := by decide
  have h := (evalBitwise_iff (w := 8) ⟨fun i => if i = 1 then 1 else 0, 2, true⟩
    (.object ⟨fun _ => 1, 1, true⟩) (by decide) (by decide) (by decide) (by decide)).1
  have e : Int.land (toInt (w := 8) ⟨fun i => if i = 1 then 1 else 0, 2, true⟩)
      ((Operand.object (w := 8) ⟨fun _ => 1, 1, true⟩).get
        ⟨fun i => if i = 1 then 1 else 0, 2, true⟩).toInt = -256 := by decide
  rw [e] at h
  exact h.mpr ((show (-256 : ℤ).natAbs < (2 ^ 8) ^ 2 by decide).trans_le
    (Nat.pow_le_pow_right (by decide) hmax))

theorem evalBitwiseXor_largest (hw : 0 < w) (o : Operand w) :
    ¬ (evalBitwiseXor (largest w) o).Represents (Int.xor (largest w).toInt (-1)) := by
  obtain ⟨-, -, hmag⟩ := largest_spec hw
  have hxor : ∀ m : ℕ, Int.xor m (-1) = Int.negSucc (m ^^^ 0) := fun _ => rfl
  intro h
  have hfit := h.fits (size_bitwiseOp_le _ _ _)
  rw [toInt_of_sign rfl, hxor, Nat.xor_zero, Fits, ← hmag, Int.natAbs_negSucc] at hfit
  exact absurd hfit (Nat.lt_irrefl _)

/-- `2 ^ (2 ^ 32) - 1` of 64-bit limbs, xor `-1`: `-2 ^ (2 ^ 32)` needs a limb that is not granted. -/
theorem evalBitwiseXor_past_max :
    ¬ (evalBitwiseXor (largest 64) (.object ⟨fun _ => 1, 1, true⟩)).Represents
      (Int.xor (largest 64).toInt (-1)) :=
  evalBitwiseXor_largest (by decide) _

end SourceLibs.CppInt
