import SourceLibs.CppInt.Backend

/-!
# CppInt — addition and subtraction

`add_unsigned` and `subtract_unsigned` add and subtract magnitudes limb by limb, in place; the
sign of the first operand is kept, and turned when the second magnitude was the larger one.
`eval_add` and `eval_subtract` choose between the two by the signs.  Each comes with a second
operand that is an object, a limb or a signed limb; the overloads with two arguments are those
with three whose first operand is `result`.

The loops are passes (`Support/Pass.lean`): they read and write one position at a time, so an
operand that is `result` is seen with its old limbs.  The second loop of each routine stops as
soon as there is nothing to carry and copies the rest; that is the same pass (`addRest_eq_pass`,
`subtractRest_eq_pass`), since without a carry a step copies.

* `addUnsigned_spec`, `subtractUnsigned_spec`: sum and difference of magnitudes, under a sign.
* `evalAdd_evalSubtract_exact`: every overload yields the canonical representation of the exact
  sum or difference, and `eval_eq` and `compare` decide equality and order.
-/

namespace SourceLibs.CppInt
open Function Radix

variable {w : ℕ}

/-- `unsigned_abs`, written so that the most negative value does not overflow. -/
def unsignedAbs (t : BitVec w) : BitVec w := if t.toInt < 0 then 1 + -(t + 1) else t

theorem toNat_unsignedAbs (t : BitVec w) : (unsignedAbs t).toNat = t.toInt.natAbs := by
  have hneg : 1 + -(t + 1) = -t := by grind
  have hlt := t.isLt
  unfold unsignedAbs
  rw [hneg]
  rcases Nat.lt_or_ge (2 * t.toNat) (2 ^ w) with h | h
  · rw [BitVec.toInt_eq_toNat_cond, if_pos h, if_neg (by omega)]
    exact (Int.natAbs_natCast _).symm
  · have e : t.toInt = t.toNat - (2 ^ w : ℕ) := by
      rw [BitVec.toInt_eq_toNat_cond, if_neg (by omega)]
    rw [e, if_pos (by omega), BitVec.toNat_neg, Nat.mod_eq_of_lt (by omega)]
    omega

theorem toNat_eq_natAbs {t : BitVec w} (h : ¬ t.toInt < 0) : t.toNat = t.toInt.natAbs := by
  rw [← toNat_unsignedAbs, unsignedAbs, if_neg h]

/-! ### Adding magnitudes -/

/-- One step of the loop "where a and b overlap". -/
def addStep (pa pb : Operand w) (carry i : ℕ) (cell : BitVec w) : BitVec w × ℕ :=
  let carry := dbl w (carry + dbl w ((pa.limb i cell).toNat + (pb.limb i cell).toNat))
  (BitVec.ofNat w carry, carry / 2 ^ w)

/-- One step where only `pa` has digits. -/
def addRestStep (pa : Operand w) (carry i : ℕ) (cell : BitVec w) : BitVec w × ℕ :=
  let carry := dbl w (carry + (pa.limb i cell).toNat)
  (BitVec.ofNat w carry, carry / 2 ^ w)

/-- The loop "where only a has digits": without a carry the rest is copied. -/
def addRest (pa : Operand w) : ℕ → ℕ → (ℕ → BitVec w) × ℕ → (ℕ → BitVec w) × ℕ
  | 0, _, s => s
  | k + 1, i, s =>
    if s.2 = 0 then (pa.copyTo i (i + (k + 1)) s.1, 0)
    else
      let out := addRestStep pa s.2 i (s.1 i)
      addRest pa k (i + 1) (update s.1 i out.1, out.2)

/-- `if(carry) { result.resize(x + 1, x + 1); result.limbs()[x] = carry; }`. -/
def appendCarry (result : CppInt w) (x carry : ℕ) : CppInt w :=
  if carry ≠ 0 then (result.resize (x + 1)).store x (BitVec.ofNat w carry) else result

/-- `add_unsigned(result, a, b)`. -/
def addUnsigned (result : CppInt w) (a b : Operand w) : CppInt w :=
  let as := (a.get result).size
  let bs := (b.get result).size
  let m := min as bs
  let x := max as bs
  if x = 1 then
    let s := (a.get result).sign
    (result.assignDouble (dbl w (((a.get result).limbs 0).toNat +
      ((b.get result).limbs 0).toNat))).setSign s
  else
    let result := result.resize x
    let pa := if as < bs then b else a
    let pb := if as < bs then a else b
    let s := pass (addStep pa pb) m 0 (result.limbs, 0)
    let s := addRest pa (x - m) m s
    let result := appendCarry (result.setLimbs s.1) x s.2
    result.normalize.setSign (a.get result).sign

/-- `add_unsigned(result, a, o)`: the carry starts as the limb. -/
def addUnsignedLimb (result : CppInt w) (a : Operand w) (o : BitVec w) : CppInt w :=
  let result := result.resize (a.get result).size
  let x := result.size
  let s := addRest a x 0 (result.limbs, o.toNat)
  let result := appendCarry (result.setLimbs s.1) x s.2
  result.normalize.setSign (a.get result).sign

theorem addRest_eq_pass (pa : Operand w) : ∀ (k i : ℕ) (f : ℕ → BitVec w) (c : ℕ),
    addRest pa k i (f, c) = pass (addRestStep pa) k i (f, c)
  | 0, _, _, _ => rfl
  | k + 1, i, f, c => by
    rw [addRest]
    split
    · rename_i hc
      obtain rfl : c = 0 := hc
      have step : ∀ j x, addRestStep pa 0 j x = (pa.limb j x, 0) := fun j x => by
        have hlt : (pa.limb j x).toNat < 2 ^ w := (pa.limb j x).isLt
        have h₂ : 2 ^ w ≤ 2 ^ w * 2 ^ w := Nat.le_mul_of_pos_left _ (Nat.two_pow_pos w)
        simp only [addRestStep, Nat.zero_add]
        rw [dbl_eq (by omega), BitVec.ofNat_toNat, BitVec.setWidth_eq, Nat.div_eq_of_lt hlt]
      rw [pass_map step, Operand.copyTo_eq]
    · exact addRest_eq_pass pa k (i + 1) _ _

theorem three_limbs_lt {a b c : ℕ} (ha : a < 2 ^ w) (hb : b < 2 ^ w) (hc : c < 2 ^ w) :
    a + b + c < 2 ^ w * 2 ^ w := by
  have hpos := Nat.two_pow_pos w
  obtain ⟨n, hn⟩ : ∃ n, 2 ^ w = n + 1 := ⟨2 ^ w - 1, by omega⟩
  rw [hn] at ha hb hc ⊢
  rcases n with _ | _ | n
  · omega
  · omega
  · nlinarith

/-- What the low limb and the carry of a double limb `n` amount to, in the integers. -/
theorem lo_add_hi_int (w n : ℕ) :
    ((BitVec.ofNat w n).toNat : ℤ) + ((2 ^ w : ℕ) : ℤ) * ((n / 2 ^ w : ℕ) : ℤ) = n := by
  exact_mod_cast lo_add_hi w n

theorem addRest_spec (pa : Operand w) (r : CppInt w) {k i c : ℕ} {f : ℕ → BitVec w}
    (hc : c < 2 ^ w) (hf : ∀ j, i ≤ j → f j = r.limbs j) :
    (addRest pa k i (f, c)).2 < 2 ^ w ∧
      (natOf (addRest pa k i (f, c)).1 (i + k) : ℤ) +
          (addRest pa k i (f, c)).2 * ((2 ^ w : ℕ) : ℤ) ^ (i + k) =
        natOf f i + c * ((2 ^ w : ℕ) : ℤ) ^ i +
          ((2 ^ w : ℕ) : ℤ) ^ i *
            value ((2 ^ w : ℕ) : ℤ) (fun t => (((pa.get r).limbs (i + t)).toNat : ℤ)) k := by
  rw [addRest_eq_pass]
  refine pass_natOf (g := addRestStep pa) (c := c) (P := fun c => c < 2 ^ w) (κ := fun c => (c : ℤ))
    (ψ := fun j => (((pa.get r).limbs j).toNat : ℤ)) hc fun c' j hj _ hc' => ?_
  rw [hf j hj, ← Operand.limb_eq]
  have hl := (pa.limb j (r.limbs j)).isLt
  have hlt := three_limbs_lt hc' hl (Nat.two_pow_pos w)
  simp only [addRestStep]
  rw [dbl_eq (by omega)]
  refine ⟨Nat.div_lt_of_lt_mul (by omega), ?_⟩
  rw [lo_add_hi_int]
  push_cast
  ring

theorem addPass_spec (pa pb : Operand w) (r : CppInt w) (m : ℕ) :
    let s := pass (addStep pa pb) m 0 (r.limbs, 0)
    s.2 < 2 ^ w ∧ (natOf s.1 m : ℤ) + s.2 * ((2 ^ w : ℕ) : ℤ) ^ m =
      natOf (pa.get r).limbs m + natOf (pb.get r).limbs m := by
  intro s
  have h := pass_natOf (g := addStep pa pb) (P := fun c => c ≤ 1 ∧ c < 2 ^ w)
    (κ := fun c => (c : ℤ)) (k := m) (i := 0) (f := r.limbs) (c := 0)
    (ψ := fun j => (((pa.get r).limbs j).toNat : ℤ) + ((pb.get r).limbs j).toNat)
    ⟨Nat.zero_le _, Nat.two_pow_pos w⟩ fun c' j _ _ hc' => ?_
  · refine ⟨h.1.2, ?_⟩
    have hv := h.2
    simp only [Nat.zero_add, natOf_zero, pow_zero, value_add, ← cast_value] at hv
    rw [hv, natOf, natOf]
    push_cast
    ring
  · rw [← Operand.limb_eq, ← Operand.limb_eq]
    have ha := (pa.limb j (r.limbs j)).isLt
    have hb := (pb.limb j (r.limbs j)).isLt
    have hlt := three_limbs_lt ha hb hc'.2
    simp only [addStep]
    rw [dbl_eq (n := (pa.limb j (r.limbs j)).toNat + (pb.limb j (r.limbs j)).toNat) (by omega),
      dbl_eq (by omega)]
    refine ⟨⟨?_, Nat.div_lt_of_lt_mul (by omega)⟩, ?_⟩
    · rw [← Nat.lt_succ_iff]
      exact Nat.div_lt_of_lt_mul (by omega)
    · rw [lo_add_hi_int]
      push_cast
      ring

theorem addLimbs_spec (pa pb : Operand w) (r : CppInt w) (m k : ℕ) :
    let s := addRest pa k m (pass (addStep pa pb) m 0 (r.limbs, 0))
    s.2 < 2 ^ w ∧ natOf s.1 (m + k) + s.2 * (2 ^ w) ^ (m + k) =
      natOf (pa.get r).limbs (m + k) + natOf (pb.get r).limbs m := by
  intro s
  obtain ⟨hc, hv⟩ := addPass_spec pa pb r m
  obtain ⟨hlt, hs⟩ := addRest_spec pa r (k := k) (i := m)
    (f := (pass (addStep pa pb) m 0 (r.limbs, 0)).1) hc fun j hj =>
      pass_outside (addStep pa pb) m 0 r.limbs 0 (Or.inr (by omega))
  refine ⟨hlt, ?_⟩
  have e : (natOf s.1 (m + k) : ℤ) + s.2 * ((2 ^ w : ℕ) : ℤ) ^ (m + k) =
      natOf (pa.get r).limbs (m + k) + natOf (pb.get r).limbs m := by
    rw [hs, natOf_split (pa.get r).limbs, hv]
    ring
  exact_mod_cast e

/-- A carry that is part of a number that fits has room. -/
theorem lt_max_of_carry {n c x : ℕ} (hc : c ≠ 0) (h : n + c * (2 ^ w) ^ x < (2 ^ w) ^ maxLimbs w) :
    x < maxLimbs w := by
  by_contra! hle
  have h₁ := Nat.pow_le_pow_right (Nat.two_pow_pos w) hle
  have h₂ := Nat.le_mul_of_pos_left ((2 ^ w) ^ x) (Nat.pos_of_ne_zero hc)
  omega

theorem appendCarry_spec {p : CppInt w} {x c : ℕ} (hx : 0 < x) (hsize : p.size = x)
    (hc : c < 2 ^ w) (hfit : natOf p.limbs x + c * (2 ^ w) ^ x < (2 ^ w) ^ maxLimbs w) :
    0 < (appendCarry p x c).size ∧ (appendCarry p x c).mag = natOf p.limbs x + c * (2 ^ w) ^ x := by
  unfold appendCarry
  split
  · rename_i hc₀
    rw [resize_of_le (lt_max_of_carry hc₀ hfit)]
    refine ⟨Nat.succ_pos x, ?_⟩
    show natOf (update p.limbs x (BitVec.ofNat w c)) (x + 1) = _
    rw [natOf_succ, natOf_update le_rfl, update_self, BitVec.toNat_ofNat,
      Nat.mod_eq_of_lt hc]
  · rename_i h₀
    obtain rfl : c = 0 := by omega
    refine ⟨by omega, ?_⟩
    rw [mag, hsize, Nat.zero_mul, Nat.add_zero]

theorem sign_get_appendCarry {r p : CppInt w} (a : Operand w) (x c : ℕ) (hsign : p.sign = r.sign) :
    (a.get (appendCarry p x c)).sign = (a.get r).sign := by
  cases a with
  | result =>
    show (appendCarry p x c).sign = r.sign
    unfold appendCarry
    split <;> exact hsign
  | object o => rfl

/-- How both forms of `add_unsigned` end. -/
theorem appendCarry_represents {r p : CppInt w} (a : Operand w) {x c n : ℕ} (hx : 0 < x)
    (hsize : p.size = x) (hsign : p.sign = r.sign) (hc : c < 2 ^ w)
    (hv : natOf p.limbs x + c * (2 ^ w) ^ x = n) (hfit : n < (2 ^ w) ^ maxLimbs w) :
    ((appendCarry p x c).normalize.setSign (a.get (appendCarry p x c)).sign).Represents
      (if (a.get r).sign then -(n : ℤ) else n) := by
  obtain ⟨hpos, hmag⟩ := appendCarry_spec hx hsize hc (by rwa [hv])
  have := normalize_setSign hpos (a.get (appendCarry p x c)).sign
  rw [hmag, hv] at this
  rwa [← sign_get_appendCarry a x c hsign]

/-- **`add_unsigned`**, operands of any positive size: the magnitudes are added under the sign of
the first operand, provided the sum fits. -/
theorem addUnsigned_spec (r : CppInt w) (a b : Operand w) (ha : 0 < (a.get r).size)
    (hb : 0 < (b.get r).size) (ham : (a.get r).size ≤ maxLimbs w) (hbm : (b.get r).size ≤ maxLimbs w)
    (hfit : (a.get r).mag + (b.get r).mag < (2 ^ w) ^ maxLimbs w) :
    (addUnsigned r a b).Represents
      (if (a.get r).sign then -(((a.get r).mag + (b.get r).mag : ℕ) : ℤ)
        else ((a.get r).mag + (b.get r).mag : ℕ)) := by
  unfold addUnsigned
  simp only
  split
  · rename_i hx
    have h₁ : (a.get r).size = 1 := by omega
    have h₂ : (b.get r).size = 1 := by omega
    have hlt := three_limbs_lt ((a.get r).limbs 0).isLt ((b.get r).limbs 0).isLt (Nat.two_pow_pos w)
    rw [dbl_eq (by omega)]
    have hd := assignDouble_spec r (i := ((a.get r).limbs 0).toNat + ((b.get r).limbs 0).toNat)
      (by omega)
    have := hd.canonical.1.setSign_represents (a.get r).sign
    rw [hd.mag_eq, Int.natAbs_natCast] at this
    rwa [mag, mag, h₁, h₂, natOf_one, natOf_one]
  · set as := (a.get r).size with has
    set bs := (b.get r).size with hbs
    set x := max as bs with hx
    set m := min as bs with hm
    have hxm : m + (x - m) = x := by omega
    -- the limbs the loops leave, with the longer operand first
    have hl := addLimbs_spec (if as < bs then b else a) (if as < bs then a else b) (r.resize x) m
      (x - m)
    set s := addRest (if as < bs then b else a) (x - m) m
      (pass (addStep (if as < bs then b else a) (if as < bs then a else b)) m 0
        ((r.resize x).limbs, 0)) with hs
    obtain ⟨hc, hv⟩ := hl
    refine appendCarry_represents a (by omega) (Nat.min_eq_left (by omega)) rfl hc ?_ hfit
    rw [hxm, Operand.limbs_get_resize, Operand.limbs_get_resize] at hv
    refine hv.trans ?_
    by_cases hlt : as < bs
    · rw [if_pos hlt, if_pos hlt, show x = bs by omega, show m = as by omega, Nat.add_comm]
      rfl
    · rw [if_neg hlt, if_neg hlt, show x = as by omega, show m = bs by omega]
      rfl

/-- **`add_unsigned` with a limb.** -/
theorem addUnsignedLimb_spec (r : CppInt w) (a : Operand w) (o : BitVec w)
    (ha : 0 < (a.get r).size) (ham : (a.get r).size ≤ maxLimbs w)
    (hfit : (a.get r).mag + o.toNat < (2 ^ w) ^ maxLimbs w) :
    (addUnsignedLimb r a o).Represents
      (if (a.get r).sign then -(((a.get r).mag + o.toNat : ℕ) : ℤ)
        else ((a.get r).mag + o.toNat : ℕ)) := by
  unfold addUnsignedLimb
  simp only [size_resize, limbs_resize, Nat.min_eq_left ham]
  set x := (a.get r).size with hx
  obtain ⟨hc, hv⟩ := addRest_spec a r (k := x) (i := 0) (f := r.limbs) o.isLt fun _ _ => rfl
  set s := addRest a x 0 (r.limbs, o.toNat) with hs
  refine appendCarry_represents a ha (Nat.min_eq_left ham) rfl hc ?_ hfit
  rw [← cast_value (B := 2 ^ w) (fun t => ((a.get r).limbs (0 + t)).toNat)] at hv
  simp only [Nat.zero_add, natOf_zero, pow_zero] at hv
  have e : (natOf s.1 x : ℤ) + s.2 * ((2 ^ w : ℕ) : ℤ) ^ x = (a.get r).mag + o.toNat := by
    rw [hv, mag, natOf]
    push_cast
    ring
  exact_mod_cast e

/-! ### Subtracting magnitudes -/

/-- Subtraction of double limbs. -/
def dsub (w a b : ℕ) : ℕ := dbl w (a + 2 ^ (2 * w) - b)

/-- One step of the loop "where a and b overlap". -/
def subtractStep (pa pb : Operand w) (borrow i : ℕ) (cell : BitVec w) : BitVec w × ℕ :=
  let borrow := dsub w (dsub w (pa.limb i cell).toNat (pb.limb i cell).toNat) borrow
  (BitVec.ofNat w borrow, borrow / 2 ^ w % 2)

/-- One step where only `pa` has digits. -/
def subtractRestStep (pa : Operand w) (borrow i : ℕ) (cell : BitVec w) : BitVec w × ℕ :=
  let borrow := dsub w (pa.limb i cell).toNat borrow
  (BitVec.ofNat w borrow, borrow / 2 ^ w % 2)

/-- The loop "where only a has digits, only as long as we've borrowed", and the copy after it. -/
def subtractRest (pa : Operand w) : ℕ → ℕ → (ℕ → BitVec w) × ℕ → (ℕ → BitVec w) × ℕ
  | 0, _, s => s
  | k + 1, i, s =>
    if s.2 = 0 then (pa.copyTo i (i + (k + 1)) s.1, 0)
    else
      let out := subtractRestStep pa s.2 i (s.1 i)
      subtractRest pa k (i + 1) (update s.1 i out.1, out.2)

/-- `subtract_unsigned(result, a, b)`. -/
def subtractUnsigned (result : CppInt w) (a b : Operand w) : CppInt w :=
  let m := min (a.get result).size (b.get result).size
  let x := max (a.get result).size (b.get result).size
  if x = 1 then
    let s := (a.get result).sign
    let al := (a.get result).limbs 0
    let bl := (b.get result).limbs 0
    if al < bl then (result.assignLimb (bl - al)).setSign (!s)
    else (result.assignLimb (al - bl)).setSign s
  else
    let c := compareUnsigned (a.get result) (b.get result)
    let result := result.resize x
    let pa := if c < 0 then b else a
    let pb := if c < 0 then a else b
    if c = 0 then result.assignLimb 0
    else
      let s := pass (subtractStep pa pb) m 0 (result.limbs, 0)
      let s := subtractRest pa (x - m) m s
      let result := result.setLimbs s.1
      let result := result.normalize.setSign (a.get result).sign
      if c < 0 then result.negate else result

/-- The borrow of `subtract_unsigned(result, a, b)` with a limb `b`: limbs that are zero become
`max_limb_value` up to the first that is not, the rest is copied.  There is such a limb before the
count runs out, since the top limb of `a` is not zero. -/
def subtractBorrow (pa : Operand w) : ℕ → ℕ → (ℕ → BitVec w) → ℕ → BitVec w
  | 0, _, pr => pr
  | k + 1, i, pr =>
    if pa.limb i (pr i) = 0 then
      subtractBorrow pa k (i + 1) (update pr i (BitVec.allOnes w))
    else pa.copyTo (i + 1) (i + 1 + k) (update pr i (pa.limb i (pr i) - 1))

/-- `subtract_unsigned(result, a, b)` with a limb `b`. -/
def subtractUnsignedLimb (result : CppInt w) (a : Operand w) (b : BitVec w) : CppInt w :=
  let result := result.resize (a.get result).size
  let pa := (a.get result).limbs 0
  if b ≤ pa then
    let result := result.store 0 (pa - b)
    match a with
    | .object o =>
      (result.setLimbs (a.copyTo 1 o.size result.limbs)).setSign o.sign
    | .result => if result.size = 1 ∧ result.limbs 0 = 0 then result.setSign false else result
  else if result.size = 1 then
    (result.store 0 (b - pa)).setSign (!(a.get result).sign)
  else
    let result := result.store 0 (BitVec.ofNat w (dsub w (dbl w (2 ^ w + pa.toNat)) b.toNat))
    let result := result.setLimbs (subtractBorrow a (result.size - 1) 1 result.limbs)
    result.normalize.setSign (a.get result).sign

/-- A difference of double limbs that does not go below minus one limb: the low limb, and the
borrow read off the upper one. -/
theorem dsub_spec (hw : 0 < w) {v : ℕ} {d : ℤ} (hd : -((2 ^ w : ℕ) : ℤ) ≤ d) (hlt : d < (2 ^ w : ℕ))
    (hv : v = if d < 0 then 2 ^ w * 2 ^ w - d.natAbs else d.natAbs) :
    v / 2 ^ w % 2 ≤ 1 ∧
      ((BitVec.ofNat w v).toNat : ℤ) + ((2 ^ w : ℕ) : ℤ) * (-((v / 2 ^ w % 2 : ℕ) : ℤ)) = d := by
  have hpos := Nat.two_pow_pos w
  refine ⟨by omega, ?_⟩
  rw [BitVec.toNat_ofNat]
  split at hv
  · -- a borrow: `v = (2 ^ w - 1) * 2 ^ w + (2 ^ w - |d|)`, and `2 ^ w` is even
    rename_i hneg
    obtain ⟨n, hn⟩ : ∃ n, 2 ^ w = 2 * n := ⟨2 ^ (w - 1), by rw [← pow_succ']; congr 1; omega⟩
    have hv' : v = (2 ^ w - d.natAbs) + 2 ^ w * (2 ^ w - 1) := by
      rw [hv, Nat.mul_sub, Nat.mul_one]
      have : 2 ^ w ≤ 2 ^ w * 2 ^ w := Nat.le_mul_of_pos_left _ hpos
      omega
    have hdiv : v / 2 ^ w = 2 ^ w - 1 := by
      rw [hv', Nat.add_mul_div_left _ _ hpos, Nat.div_eq_of_lt (by omega)]
      omega
    have hmod : v % 2 ^ w = 2 ^ w - d.natAbs := by
      rw [hv', Nat.add_mul_mod_self_left, Nat.mod_eq_of_lt (by omega)]
    rw [hdiv, hmod, show (2 ^ w - 1) % 2 = 1 by omega]
    omega
  · have h : v < 2 ^ w := by omega
    rw [Nat.div_eq_of_lt h, Nat.mod_eq_of_lt h]
    omega

theorem dsub_eq {a b : ℕ} (ha : a < 2 ^ w * 2 ^ w) (hb : b < 2 ^ w * 2 ^ w) :
    dsub w a b = if a < b then 2 ^ w * 2 ^ w - (b - a) else a - b := by
  have e : 2 ^ (2 * w) = 2 ^ w * 2 ^ w := by rw [two_mul, pow_add]
  rw [dsub, dbl, e]
  split
  · rw [Nat.mod_eq_of_lt (by omega)]
    omega
  · rw [show a + 2 ^ w * 2 ^ w - b = (a - b) + 2 ^ w * 2 ^ w by omega, Nat.add_mod_right,
      Nat.mod_eq_of_lt (by omega)]

theorem dsub_lt (w a b : ℕ) : dsub w a b < 2 ^ w * 2 ^ w := by
  rw [← pow_add, ← two_mul]
  exact Nat.mod_lt _ (Nat.two_pow_pos _)

theorem subtractRest_eq_pass (pa : Operand w) : ∀ (k i : ℕ) (f : ℕ → BitVec w) (c : ℕ),
    subtractRest pa k i (f, c) = pass (subtractRestStep pa) k i (f, c)
  | 0, _, _, _ => rfl
  | k + 1, i, f, c => by
    rw [subtractRest]
    split
    · rename_i hc
      obtain rfl : c = 0 := hc
      have step : ∀ j x, subtractRestStep pa 0 j x = (pa.limb j x, 0) := fun j x => by
        have hlt : (pa.limb j x).toNat < 2 ^ w := (pa.limb j x).isLt
        have h₂ : 2 ^ w ≤ 2 ^ w * 2 ^ w := Nat.le_mul_of_pos_left _ (Nat.two_pow_pos w)
        simp only [subtractRestStep]
        rw [dsub_eq (by omega) (by omega), if_neg (by omega), Nat.sub_zero, BitVec.ofNat_toNat,
          BitVec.setWidth_eq, Nat.div_eq_of_lt hlt]
      rw [pass_map step, Operand.copyTo_eq]
    · exact subtractRest_eq_pass pa k (i + 1) _ _

theorem subtractRestStep_spec (hw : 0 < w) (pa : Operand w) {c j : ℕ} (x : BitVec w) (hc : c ≤ 1) :
    (subtractRestStep pa c j x).2 ≤ 1 ∧
      ((subtractRestStep pa c j x).1.toNat : ℤ) +
        ((2 ^ w : ℕ) : ℤ) * -((subtractRestStep pa c j x).2 : ℤ) = -(c : ℤ) + (pa.limb j x).toNat := by
  have hl := (pa.limb j x).isLt
  have hpos := Nat.two_pow_pos w
  have h₂ : 2 ^ w * 2 ≤ 2 ^ w * 2 ^ w :=
    Nat.mul_le_mul_left _ (Nat.pow_le_pow_right Nat.two_pos hw)
  refine dsub_spec hw (by omega) (by omega) ?_
  rw [dsub_eq (by omega) (by omega)]
  split <;> split <;> omega

theorem subtractRest_spec (hw : 0 < w) (pa : Operand w) (r : CppInt w) {k i c : ℕ}
    {f : ℕ → BitVec w} (hc : c ≤ 1) (hf : ∀ j, i ≤ j → f j = r.limbs j) :
    (subtractRest pa k i (f, c)).2 ≤ 1 ∧
      (natOf (subtractRest pa k i (f, c)).1 (i + k) : ℤ) +
          -((subtractRest pa k i (f, c)).2 : ℤ) * ((2 ^ w : ℕ) : ℤ) ^ (i + k) =
        natOf f i + -(c : ℤ) * ((2 ^ w : ℕ) : ℤ) ^ i +
          ((2 ^ w : ℕ) : ℤ) ^ i *
            value ((2 ^ w : ℕ) : ℤ) (fun t => (((pa.get r).limbs (i + t)).toNat : ℤ)) k := by
  rw [subtractRest_eq_pass]
  refine pass_natOf (g := subtractRestStep pa) (c := c) (P := fun c => c ≤ 1) (κ := fun c => -(c : ℤ))
    (ψ := fun j => (((pa.get r).limbs j).toNat : ℤ)) hc fun c' j hj _ hc' => ?_
  rw [hf j hj, ← Operand.limb_eq]
  exact subtractRestStep_spec hw pa _ hc'

theorem subtractPass_spec (hw : 0 < w) (pa pb : Operand w) (r : CppInt w) (m : ℕ) :
    let s := pass (subtractStep pa pb) m 0 (r.limbs, 0)
    s.2 ≤ 1 ∧ (natOf s.1 m : ℤ) + -(s.2 : ℤ) * ((2 ^ w : ℕ) : ℤ) ^ m =
      natOf (pa.get r).limbs m - natOf (pb.get r).limbs m := by
  intro s
  have h := pass_natOf (g := subtractStep pa pb) (P := fun c => c ≤ 1)
    (κ := fun c => -(c : ℤ)) (k := m) (i := 0) (f := r.limbs) (c := 0)
    (ψ := fun j => (((pa.get r).limbs j).toNat : ℤ) - ((pb.get r).limbs j).toNat)
    (Nat.zero_le _) fun c' j _ _ hc' => ?_
  · refine ⟨h.1, ?_⟩
    have hv := h.2
    simp only [Nat.zero_add, natOf_zero, pow_zero, value_sub, ← cast_value] at hv
    rw [hv, natOf, natOf]
    push_cast
    ring
  · rw [← Operand.limb_eq, ← Operand.limb_eq]
    have ha := (pa.limb j (r.limbs j)).isLt
    have hb := (pb.limb j (r.limbs j)).isLt
    have h₂ : 2 ^ w * 2 ≤ 2 ^ w * 2 ^ w :=
      Nat.mul_le_mul_left _ (Nat.pow_le_pow_right Nat.two_pos hw)
    refine dsub_spec hw (by omega) (by omega) ?_
    rw [dsub_eq (dsub_lt _ _ _) (by omega), dsub_eq (by omega) (by omega)]
    split <;> split <;> split <;> omega

theorem no_borrow {c m n : ℕ} {d B : ℤ} (hc : c ≤ 1) (hd : d < B) (hle : n ≤ m)
    (h : d + -(c : ℤ) * B = m - n) : c = 0 := by
  by_contra hne
  obtain rfl : c = 1 := by omega
  push_cast at h
  omega

/-- The two loops of `subtract_unsigned`, when `pa` is the larger number: no borrow is left, which
is what the routine asserts. -/
theorem subtractLimbs_spec (hw : 0 < w) (pa pb : Operand w) (r : CppInt w) (m k : ℕ)
    (hle : natOf (pb.get r).limbs m ≤ natOf (pa.get r).limbs (m + k)) :
    let s := subtractRest pa k m (pass (subtractStep pa pb) m 0 (r.limbs, 0))
    s.2 = 0 ∧ natOf s.1 (m + k) = natOf (pa.get r).limbs (m + k) - natOf (pb.get r).limbs m := by
  intro s
  obtain ⟨hc, hv⟩ := subtractPass_spec hw pa pb r m
  obtain ⟨hlt, hs⟩ := subtractRest_spec hw pa r (k := k) (i := m)
    (f := (pass (subtractStep pa pb) m 0 (r.limbs, 0)).1) hc fun j hj =>
      pass_outside (subtractStep pa pb) m 0 r.limbs 0 (Or.inr (by omega))
  have e : (natOf s.1 (m + k) : ℤ) + -(s.2 : ℤ) * ((2 ^ w : ℕ) : ℤ) ^ (m + k) =
      natOf (pa.get r).limbs (m + k) - natOf (pb.get r).limbs m := by
    rw [hs, natOf_split (pa.get r).limbs, hv]
    ring
  have hbound : ((natOf s.1 (m + k) : ℕ) : ℤ) < ((2 ^ w : ℕ) : ℤ) ^ (m + k) := by
    exact_mod_cast natOf_lt s.1 (m + k)
  have h₀ : s.2 = 0 := no_borrow hlt hbound hle e
  refine ⟨h₀, ?_⟩
  rw [h₀] at e
  push_cast at e
  omega

/-- A trimmed number of two limbs or more has a limb that is not zero, so limbs have bits. -/
theorem Trimmed.width_pos {x : CppInt w} (h : x.Trimmed) (h₁ : x.size ≠ 1) : 0 < w := by
  rcases Nat.eq_zero_or_pos w with rfl | hw
  · exact absurd (BitVec.of_length_zero (x := x.limbs (x.size - 1))) (h.2.resolve_left h₁)
  · exact hw

theorem width_pos_of_mag {x : CppInt w} (h : x.mag ≠ 0) : 0 < w := by
  rcases Nat.eq_zero_or_pos w with rfl | hw
  · have := x.mag_lt
    rw [pow_zero, one_pow] at this
    omega
  · exact hw

theorem signed_sub {s : Bool} {m n : ℕ} (h : n ≤ m) :
    (if s then -((m - n : ℕ) : ℤ) else ((m - n : ℕ) : ℤ)) = if s then -((m : ℤ) - n) else m - n := by
  rw [Nat.cast_sub h]

theorem subtractLimbs_represents (hw : 0 < w) (r : CppInt w) {pa pb : Operand w} {m x : ℕ}
    (hpos : 0 < (pa.get r).size) (hsize : (pb.get r).size ≤ (pa.get r).size)
    (hlt : (pb.get r).mag < (pa.get r).mag) (hm : m = min (pa.get r).size (pb.get r).size)
    (hx : x = max (pa.get r).size (pb.get r).size)
    (hxm : x ≤ maxLimbs w) (sg : Bool) :
    (((r.resize x).setLimbs (subtractRest pa (x - m) m
        (pass (subtractStep pa pb) m 0 ((r.resize x).limbs, 0))).1).normalize.setSign sg).Represents
      (if sg then -(((pa.get r).mag : ℤ) - (pb.get r).mag) else (pa.get r).mag - (pb.get r).mag) := by
  rw [resize_of_le hxm]
  obtain rfl : m = (pb.get r).size := by omega
  obtain rfl : x = (pa.get r).size := by omega
  have h := subtractLimbs_spec hw pa pb (r.setSize (pa.get r).size) (pb.get r).size
    ((pa.get r).size - (pb.get r).size)
  rw [Operand.limbs_get_setSize, Operand.limbs_get_setSize, Nat.add_sub_cancel' hsize] at h
  have hv := (h hlt.le).2
  set p := subtractRest pa ((pa.get r).size - (pb.get r).size) (pb.get r).size
    (pass (subtractStep pa pb) (pb.get r).size 0 ((r.setSize (pa.get r).size).limbs, 0)) with hp
  have hmag : ((r.setSize (pa.get r).size).setLimbs p.1).mag = (pa.get r).mag - (pb.get r).mag := hv
  rw [← signed_sub hlt.le, ← hmag]
  exact normalize_setSign (x := (r.setSize (pa.get r).size).setLimbs p.1) hpos sg

theorem Trimmed.size_le_of_mag_lt {x y : CppInt w} (hx : x.Trimmed) (hy : y.Trimmed)
    (h : x.mag < y.mag) : x.size ≤ y.size := by
  by_contra hgt
  exact absurd (mag_lt_of_size hx hy (by omega)) (by omega)

/-- `subtract_unsigned` of an operand that `compare_unsigned` finds smaller. -/
theorem subtractUnsigned_of_pos (hw : 0 < w) {r : CppInt w} {a b : Operand w}
    (hx : max (a.get r).size (b.get r).size ≠ 1) (hpos : 0 < (a.get r).size)
    (hsize : (b.get r).size ≤ (a.get r).size) (hlt : (b.get r).mag < (a.get r).mag)
    (hc : compareUnsigned (a.get r) (b.get r) = 1) (ham : (a.get r).size ≤ maxLimbs w) :
    (subtractUnsigned r a b).Represents
      (if (a.get r).sign then -(((a.get r).mag : ℤ) - (b.get r).mag)
        else (a.get r).mag - (b.get r).mag) := by
  unfold subtractUnsigned
  simp only [hc, if_neg hx, Int.reduceLT, if_false, one_ne_zero, Operand.sign_get_setLimbs,
    Operand.sign_get_resize]
  exact subtractLimbs_represents hw r hpos hsize hlt rfl rfl (Nat.max_le.mpr ⟨ham, hsize.trans ham⟩)
    (a.get r).sign

/-- An operand of fewer limbs may have leading zeros. -/
theorem subtractUnsigned_of_size {r : CppInt w} {a b : Operand w} (ha : (a.get r).Trimmed)
    (hb : 0 < (b.get r).size) (hsize : (b.get r).size < (a.get r).size)
    (ham : (a.get r).size ≤ maxLimbs w) :
    (subtractUnsigned r a b).Represents
      (if (a.get r).sign then -(((a.get r).mag : ℤ) - (b.get r).mag)
        else (a.get r).mag - (b.get r).mag) := by
  refine subtractUnsigned_of_pos (ha.width_pos (by omega)) (by omega) (by omega) hsize.le ?_ ?_ ham
  · calc (b.get r).mag < (2 ^ w) ^ (b.get r).size := (b.get r).mag_lt
      _ ≤ (2 ^ w) ^ ((a.get r).size - 1) := Nat.pow_le_pow_right (Nat.two_pow_pos w) (by omega)
      _ ≤ (a.get r).mag := ha.pow_le (by omega)
  · rw [compareUnsigned, if_pos (by omega), if_pos hsize]

/-- **`subtract_unsigned`**: the difference of the magnitudes, under the sign of the first
operand. -/
theorem subtractUnsigned_spec (r : CppInt w) (a b : Operand w) (ha : (a.get r).Trimmed)
    (hb : (b.get r).Trimmed) (ham : (a.get r).size ≤ maxLimbs w) (hbm : (b.get r).size ≤ maxLimbs w) :
    (subtractUnsigned r a b).Represents
      (if (a.get r).sign then -(((a.get r).mag : ℤ) - (b.get r).mag)
        else (a.get r).mag - (b.get r).mag) := by
  have ha₀ := ha.1
  have hb₀ := hb.1
  by_cases hx : max (a.get r).size (b.get r).size = 1
  · have h₁ : (a.get r).mag = ((a.get r).limbs 0).toNat := by
      rw [mag, show (a.get r).size = 1 by omega, natOf_one]
    have h₂ : (b.get r).mag = ((b.get r).limbs 0).toNat := by
      rw [mag, show (b.get r).size = 1 by omega, natOf_one]
    rw [h₁, h₂]
    -- the smaller limb is taken from the larger one
    have key : ∀ (p q : BitVec w) (s : Bool), q ≤ p → ((r.assignLimb (p - q)).setSign s).Represents
        (if s then -((p.toNat : ℤ) - q.toNat) else p.toNat - q.toNat) := fun p q s hle => by
      have hl := assignLimb_spec r (p - q)
      have := hl.canonical.1.setSign_represents s
      rw [hl.mag_eq, Int.natAbs_natCast, BitVec.toNat_sub_of_le hle,
        signed_sub (BitVec.le_def.mp hle)] at this
      exact this
    unfold subtractUnsigned
    simp only [if_pos hx]
    split
    · rename_i hlt
      have := key _ _ (!(a.get r).sign) (BitVec.le_of_lt hlt)
      cases hs : (a.get r).sign <;> simpa [hs] using this
    · rename_i hge
      exact key _ _ _ (BitVec.not_lt.mp hge)
  · have hw : 0 < w := by
      rcases Nat.lt_or_ge 1 (a.get r).size with h | h
      · exact ha.width_pos (by omega)
      · exact hb.width_pos (by omega)
    have hc := compareUnsigned_spec ha hb
    rcases Nat.lt_trichotomy (a.get r).mag (b.get r).mag with hlt | heq | hgt
    · rw [Int.sign_eq_neg_one_of_neg (by omega)] at hc
      have h := (subtractLimbs_represents hw r hb₀ (ha.size_le_of_mag_lt hb hlt) hlt
        (Nat.min_comm _ _) (Nat.max_comm _ _) (Nat.max_le.mpr ⟨ham, hbm⟩) (a.get r).sign).negate
      unfold subtractUnsigned
      simp only [if_neg hx, hc, Int.reduceNeg, Int.reduceLT, if_true, neg_eq_zero, one_ne_zero,
        if_false, Operand.sign_get_setLimbs, Operand.sign_get_resize]
      cases hs : (a.get r).sign <;> simpa [hs] using h
    · rw [heq, sub_self, Int.sign_zero] at hc
      have h := assignLimb_spec (r.resize (max (a.get r).size (b.get r).size)) 0
      unfold subtractUnsigned
      simpa [if_neg hx, hc, heq] using h
    · rw [Int.sign_eq_one_of_pos (by omega)] at hc
      exact subtractUnsigned_of_pos hw hx ha₀ (hb.size_le_of_mag_lt ha hgt) hgt hc ham

theorem subtractBorrow_eq_pass (hw : 0 < w) (pa : Operand w) : ∀ (k i : ℕ) (f : ℕ → BitVec w),
    subtractBorrow pa k i f = (pass (subtractRestStep pa) k i (f, 1)).1
  | 0, _, _ => rfl
  | k + 1, i, f => by
    have hl := (pa.limb i (f i)).isLt
    obtain ⟨hc, hv⟩ := subtractRestStep_spec hw pa (j := i) (f i) (le_refl 1)
    have hd := (subtractRestStep pa 1 i (f i)).1.isLt
    rw [subtractBorrow, pass_succ]
    split
    · -- a zero limb: the borrow goes on
      rename_i h₀
      rw [toNat_eq_zero.mpr h₀] at hv
      have hc₁ : (subtractRestStep pa 1 i (f i)).2 = 1 := by
        by_contra hne
        rw [show (subtractRestStep pa 1 i (f i)).2 = 0 by omega] at hv
        omega
      have hmax : (subtractRestStep pa 1 i (f i)).1 = BitVec.allOnes w := by
        refine BitVec.eq_of_toNat_eq ?_
        rw [hc₁] at hv
        rw [BitVec.toNat_allOnes]
        omega
      rw [hmax, hc₁, subtractBorrow_eq_pass hw pa k (i + 1)]
    · -- the first limb that is not zero
      rename_i h₀
      have hne : (pa.limb i (f i)).toNat ≠ 0 := fun e => h₀ (toNat_eq_zero.mp e)
      have hc₀ : (subtractRestStep pa 1 i (f i)).2 = 0 := by
        by_contra hne'
        rw [show (subtractRestStep pa 1 i (f i)).2 = 1 by omega] at hv
        omega
      have hdec : (subtractRestStep pa 1 i (f i)).1 = pa.limb i (f i) - 1 := by
        refine BitVec.eq_of_toNat_eq ?_
        have h₁ : (1 : BitVec w).toNat = 1 := by
          rw [BitVec.ofNat_eq_ofNat, BitVec.toNat_ofNat, Nat.mod_eq_of_lt (Nat.one_lt_two_pow hw.ne')]
        rw [BitVec.toNat_sub_of_le (BitVec.le_def.mpr (by omega)), h₁]
        rw [hc₀] at hv
        omega
      rw [hdec, hc₀, ← subtractRest_eq_pass]
      cases k with
      | zero =>
        rw [Operand.copyTo_eq]
        exact funext fun j => if_neg (by omega)
      | succ k => rw [subtractRest, if_pos rfl]

/-- Two numbers whose limbs differ in the lowest position only. -/
theorem natOf_sub_head {p q : ℕ → BitVec w} {n : ℕ} (hn : 0 < n)
    (h : ∀ j, 0 < j → j < n → p j = q j) :
    (natOf p n : ℤ) - (p 0).toNat = natOf q n - (q 0).toNat := by
  obtain ⟨k, rfl⟩ := Nat.exists_eq_add_of_le hn
  rw [natOf_split, natOf_split, natOf_one, natOf_one,
    value_congr _ (g := fun t => ((q (0 + 1 + t)).toNat : ℤ)) fun t ht => by
      rw [h _ (by omega) (by omega)]]
  ring

theorem setSign_sign (x : CppInt w) :
    (if x.size = 1 ∧ x.limbs 0 = 0 then x.setSign false else x) = x.setSign x.sign := by
  obtain ⟨limbs, size, sign⟩ := x
  unfold setSign
  cases sign <;> by_cases h₁ : size = 1 <;> by_cases h₀ : limbs 0 = 0#w <;>
    simp [h₁, h₀]

/-- The limbs other than the lowest are kept, the lowest one does not underflow. -/
theorem subtractHead_spec {x p : CppInt w} {b : BitVec w} (hx : x.Trimmed) (hb : b ≤ x.limbs 0)
    (hsize : p.size = x.size) (h₀ : p.limbs 0 = x.limbs 0 - b)
    (h : ∀ j, 0 < j → j < x.size → p.limbs j = x.limbs j) (sg : Bool) :
    (p.setSign sg).Represents (if sg then -((x.mag : ℤ) - b.toNat) else x.mag - b.toNat) := by
  have ht : p.Trimmed := by
    rw [Trimmed, hsize]
    refine ⟨hx.1, ?_⟩
    rcases Nat.eq_or_lt_of_le hx.1 with h₁ | h₁
    · exact Or.inl h₁.symm
    · refine hx.2.imp id fun hne => ?_
      rwa [h _ (by omega) (by omega)]
  have hmag : (p.mag : ℤ) = x.mag - b.toNat := by
    have e := natOf_sub_head (p := p.limbs) (q := x.limbs) hx.1 h
    rw [h₀, BitVec.toNat_sub_of_le hb] at e
    have := BitVec.le_def.mp hb
    rw [mag, hsize, mag]
    omega
  rw [← hmag]
  exact ht.setSign_represents sg

/-- **`subtract_unsigned` with a limb.** -/
theorem subtractUnsignedLimb_spec (r : CppInt w) (a : Operand w) (b : BitVec w)
    (ha : (a.get r).Trimmed) (ham : (a.get r).size ≤ maxLimbs w) :
    (subtractUnsignedLimb r a b).Represents
      (if (a.get r).sign then -(((a.get r).mag : ℤ) - b.toNat) else (a.get r).mag - b.toNat) := by
  unfold subtractUnsignedLimb
  rw [resize_of_le ham]
  simp only [Operand.limbs_get_setSize, Operand.sign_get_setSize, Operand.sign_get_setLimbs,
    Operand.sign_get_store, size_store, size_setSize]
  split
  · rename_i hle
    cases a with
    | result =>
      refine (congrArg (fun y : CppInt w => y.Represents _)
        (setSign_sign ((r.setSize r.size).store 0 (r.limbs 0 - b)))).mpr ?_
      exact subtractHead_spec (x := r) (p := (r.setSize r.size).store 0 (r.limbs 0 - b)) ha hle rfl
        (by simp) (fun j h₁ _ => update_of_ne h₁.ne' _ _) _
    | object o =>
      refine subtractHead_spec (x := o) (p := ((r.setSize o.size).store 0 (o.limbs 0 - b)).setLimbs
        ((Operand.object o).copyTo 1 o.size ((r.setSize o.size).store 0 (o.limbs 0 - b)).limbs))
        ha hle rfl ?_ (fun j h₁ h₂ => ?_) _
      · simp [Operand.copyTo]
      · exact if_pos ⟨h₁, h₂⟩
  · rename_i hgt
    have hlt : ((a.get r).limbs 0).toNat < b.toNat := BitVec.lt_def.mp (BitVec.not_le.mp hgt)
    split
    · rename_i h₁
      have ht : ((r.setSize (a.get r).size).store 0 (b - (a.get r).limbs 0)).Trimmed :=
        ⟨ha.1, Or.inl h₁⟩
      have hm : ((r.setSize (a.get r).size).store 0 (b - (a.get r).limbs 0)).mag =
          b.toNat - (a.get r).mag := by
        show natOf (update r.limbs 0 _) (a.get r).size = _
        rw [mag, h₁, natOf_one, natOf_one, update_self,
          BitVec.toNat_sub_of_le (BitVec.le_def.mpr hlt.le)]
      have hle : (a.get r).mag ≤ b.toNat := by
        rw [mag, h₁, natOf_one]
        exact hlt.le
      have := ht.setSign_represents (!(a.get r).sign)
      rw [hm, signed_sub hle] at this
      cases hs : (a.get r).sign <;> simpa [hs] using this
    · rename_i h₁
      have hw := ha.width_pos h₁
      have hb := b.isLt
      have h₂ : 2 ^ w * 2 ≤ 2 ^ w * 2 ^ w :=
        Nat.mul_le_mul_left _ (Nat.pow_le_pow_right Nat.two_pos hw)
      obtain ⟨k, hk⟩ : ∃ k, (a.get r).size = 1 + k := ⟨(a.get r).size - 1, by have := ha.1; omega⟩
      set v := BitVec.ofNat w (dsub w (dbl w (2 ^ w + ((a.get r).limbs 0).toNat)) b.toNat) with hv
      have hv' : v.toNat = 2 ^ w + ((a.get r).limbs 0).toNat - b.toNat := by
        rw [hv, dbl_eq (by omega), dsub_eq (by omega) (by omega), if_neg (by omega),
          BitVec.toNat_ofNat, Nat.mod_eq_of_lt (by omega)]
      have hlimbs : ∀ j, 1 ≤ j → update r.limbs 0 v j = r.limbs j := fun j hj =>
        update_of_ne (by omega) _ _
      have h := subtractRest_spec hw a r (k := k) (i := 1) (f := update r.limbs 0 v)
        (le_refl 1) hlimbs
      rw [subtractRest_eq_pass, natOf_one, update_self, hv'] at h
      obtain ⟨hc, e⟩ := h
      rw [show (a.get r).size - 1 = k by omega, subtractBorrow_eq_pass hw]
      set s := pass (subtractRestStep a) k 1 (update r.limbs 0 v, 1) with hs
      have hsplit := natOf_split (a.get r).limbs 1 k
      rw [natOf_one, ← hk] at hsplit
      have hdiff : (natOf s.1 (1 + k) : ℤ) + -(s.2 : ℤ) * ((2 ^ w : ℕ) : ℤ) ^ (1 + k) =
          (a.get r).mag - b.toNat := by
        rw [e, mag, hsplit, Nat.cast_sub (by omega), Nat.cast_add]
        ring
      -- two limbs or more are worth more than one limb, so no borrow is left
      have hbig : b.toNat ≤ (a.get r).mag := by
        have h₃ := ha.pow_le h₁
        have h₄ : (2 ^ w) ^ 1 ≤ (2 ^ w) ^ ((a.get r).size - 1) :=
          Nat.pow_le_pow_right (Nat.two_pow_pos w) (by have := ha.1; omega)
        rw [pow_one] at h₄
        omega
      have hbound : ((natOf s.1 (1 + k) : ℕ) : ℤ) < ((2 ^ w : ℕ) : ℤ) ^ (1 + k) := by
        exact_mod_cast natOf_lt s.1 (1 + k)
      have h₀ : s.2 = 0 := no_borrow hc hbound hbig hdiff
      rw [h₀, Nat.cast_zero, neg_zero, zero_mul, add_zero] at hdiff
      have hpos : 0 < (((r.setSize (a.get r).size).store 0 v).setLimbs s.1).size := ha.1
      have hm : ((((r.setSize (a.get r).size).store 0 v).setLimbs s.1).mag : ℤ) =
          (a.get r).mag - b.toNat := by
        rw [← hdiff, ← hk]
        rfl
      rw [← hm]
      exact normalize_setSign hpos _

/-! ### `eval_add` and `eval_subtract` -/

/-- `else if(&result != &a) result = a;`. -/
def copyFrom (result : CppInt w) : Operand w → CppInt w
  | .result => result
  | .object a => result.assign a

/-- `eval_add(result, a, b)`. -/
def evalAdd (result : CppInt w) (a b : Operand w) : CppInt w :=
  if (a.get result).sign ≠ (b.get result).sign then subtractUnsigned result a b
  else addUnsigned result a b

/-- `eval_subtract(result, a, b)`. -/
def evalSubtract (result : CppInt w) (a b : Operand w) : CppInt w :=
  if (a.get result).sign ≠ (b.get result).sign then addUnsigned result a b
  else subtractUnsigned result a b

/-- `eval_add(result, a, o)` with a limb. -/
def evalAddLimb (result : CppInt w) (a : Operand w) (o : BitVec w) : CppInt w :=
  if (a.get result).sign then subtractUnsignedLimb result a o else addUnsignedLimb result a o

/-- `eval_subtract(result, a, o)` with a limb. -/
def evalSubtractLimb (result : CppInt w) (a : Operand w) (o : BitVec w) : CppInt w :=
  if (a.get result).sign then addUnsignedLimb result a o else subtractUnsignedLimb result a o

/-- `eval_add(result, a, o)` with a signed limb. -/
def evalAddSigned (result : CppInt w) (a : Operand w) (o : BitVec w) : CppInt w :=
  if o.toInt < 0 then evalSubtractLimb result a (unsignedAbs o)
  else if 0 < o.toInt then evalAddLimb result a o
  else copyFrom result a

/-- `eval_subtract(result, a, o)` with a signed limb. -/
def evalSubtractSigned (result : CppInt w) (a : Operand w) (o : BitVec w) : CppInt w :=
  if o ≠ 0 then
    if o.toInt < 0 then evalAddLimb result a (unsignedAbs o) else evalSubtractLimb result a o
  else copyFrom result a

def evalDecrement (result : CppInt w) : CppInt w :=
  if !result.sign && result.limbs 0 != 0 then result.store 0 (result.limbs 0 - 1)
  else if result.sign && decide (result.limbs 0 < BitVec.allOnes w) then
    result.store 0 (result.limbs 0 + 1)
  else evalSubtractLimb result .result 1

section Exact
variable (r : CppInt w) (a b : Operand w) (o : BitVec w)

theorem copyFrom_spec (ha : (a.get r).Canonical) : (copyFrom r a).Represents (a.get r).toInt := by
  cases a with
  | result => exact ⟨ha, rfl⟩
  | object x => exact assign_spec r ha

variable {r a b o}

/-- A number of at most `max_limbs` limbs fits. -/
theorem mag_lt_max {x : CppInt w} (h : x.size ≤ maxLimbs w) : x.mag < (2 ^ w) ^ maxLimbs w :=
  x.mag_lt.trans_le (Nat.pow_le_pow_right (Nat.two_pow_pos w) h)

theorem limb_lt_max (o : BitVec w) : o.toNat < (2 ^ w) ^ maxLimbs w :=
  o.isLt.trans_le (Nat.le_self_pow maxLimbs_pos.ne' _)

theorem size_appendCarry_le {p : CppInt w} (h : p.size ≤ maxLimbs w) (x c : ℕ) :
    (appendCarry p x c).size ≤ maxLimbs w := by
  unfold appendCarry
  split
  · exact Nat.min_le_right _ _
  · exact h

/-- A sum has at most `max_limbs` limbs, or the two of a double limb. -/
theorem size_addUnsigned_le : (addUnsigned r a b).size ≤ max 2 (maxLimbs w) := by
  unfold addUnsigned
  dsimp only
  split
  · refine (Nat.le_max_left _ _).trans' ?_
    show (if _ then 2 else 1) ≤ 2
    split <;> decide
  · exact ((normalize_size_le _).trans (size_appendCarry_le (Nat.min_le_right _ _) _ _)).trans
      (Nat.le_max_right _ _)

theorem size_addUnsignedLimb_le : (addUnsignedLimb r a o).size ≤ max 2 (maxLimbs w) :=
  ((normalize_size_le _).trans (size_appendCarry_le (Nat.min_le_right _ _) _ _)).trans
    (Nat.le_max_right _ _)

theorem size_subtractUnsignedLimb_le : (subtractUnsignedLimb r a o).size ≤ maxLimbs w := by
  have hle : (r.resize (a.get r).size).size ≤ maxLimbs w := Nat.min_le_right _ _
  unfold subtractUnsignedLimb
  dsimp only
  split
  · cases a with
    | result =>
      dsimp only
      split <;> exact hle
    | object _ => exact hle
  · split
    · exact hle
    · exact (normalize_size_le _).trans hle

/-- **`eval_add`** is exact where the sum fits. -/
theorem evalAdd_iff (hw : w < 2 ^ 30) (ha : (a.get r).Trimmed) (hb : (b.get r).Trimmed)
    (ham : (a.get r).size ≤ maxLimbs w) (hbm : (b.get r).size ≤ maxLimbs w) :
    (evalAdd r a b).Represents ((a.get r).toInt + (b.get r).toInt) ↔
      Fits w ((a.get r).toInt + (b.get r).toInt) := by
  have hs := subtractUnsigned_spec r a b ha hb ham hbm
  have hp := addUnsigned_spec r a b ha.1 hb.1 ham hbm
  have hma := mag_lt_max ham
  have hmb := mag_lt_max hbm
  unfold evalAdd toInt
  cases h₁ : (a.get r).sign <;> cases h₂ : (b.get r).sign <;>
    simp only [h₁, ne_eq, reduceCtorEq, not_true_eq_false, not_false_eq_true, if_true, if_false,
      Bool.false_eq_true, Nat.cast_add, neg_add, neg_sub] at hs hp ⊢
  · exact represents_iff_fits hw size_addUnsigned_le fun h => hp (by rw [Fits] at h; omega)
  · exact iff_of_true hs (by rw [Fits]; omega)
  · rw [neg_add_eq_sub]
    exact iff_of_true hs (by rw [Fits]; omega)
  · exact represents_iff_fits hw size_addUnsigned_le fun h => hp (by rw [Fits] at h; omega)

/-- **`eval_subtract`** is exact where the difference fits. -/
theorem evalSubtract_iff (hw : w < 2 ^ 30) (ha : (a.get r).Trimmed) (hb : (b.get r).Trimmed)
    (ham : (a.get r).size ≤ maxLimbs w) (hbm : (b.get r).size ≤ maxLimbs w) :
    (evalSubtract r a b).Represents ((a.get r).toInt - (b.get r).toInt) ↔
      Fits w ((a.get r).toInt - (b.get r).toInt) := by
  have hs := subtractUnsigned_spec r a b ha hb ham hbm
  have hp := addUnsigned_spec r a b ha.1 hb.1 ham hbm
  have hma := mag_lt_max ham
  have hmb := mag_lt_max hbm
  unfold evalSubtract toInt
  cases h₁ : (a.get r).sign <;> cases h₂ : (b.get r).sign <;>
    simp only [h₁, ne_eq, reduceCtorEq, not_true_eq_false, not_false_eq_true, if_true, if_false,
      Bool.false_eq_true, Nat.cast_add, neg_add, neg_sub, sub_neg_eq_add] at hs hp ⊢
  · exact iff_of_true hs (by rw [Fits]; omega)
  · exact represents_iff_fits hw size_addUnsigned_le fun h => hp (by rw [Fits] at h; omega)
  · exact represents_iff_fits hw size_addUnsigned_le fun h => hp (by rw [Fits] at h; omega)
  · rw [neg_add_eq_sub]
    exact iff_of_true hs (by rw [Fits]; omega)

theorem evalAddLimb_iff (hw : w < 2 ^ 30) (ha : (a.get r).Trimmed)
    (ham : (a.get r).size ≤ maxLimbs w) :
    (evalAddLimb r a o).Represents ((a.get r).toInt + o.toNat) ↔ Fits w ((a.get r).toInt + o.toNat) := by
  have hs := subtractUnsignedLimb_spec r a o ha ham
  have hp := addUnsignedLimb_spec r a o ha.1 ham
  have hma := mag_lt_max ham
  have ho := limb_lt_max o
  unfold evalAddLimb toInt
  cases h₁ : (a.get r).sign <;>
    simp only [h₁, if_true, if_false, Bool.false_eq_true, Nat.cast_add, neg_sub] at hs hp ⊢
  · exact represents_iff_fits hw size_addUnsignedLimb_le fun h => hp (by rw [Fits] at h; omega)
  · rw [neg_add_eq_sub]
    exact iff_of_true hs (by rw [Fits]; omega)

theorem evalSubtractLimb_iff (hw : w < 2 ^ 30) (ha : (a.get r).Trimmed)
    (ham : (a.get r).size ≤ maxLimbs w) :
    (evalSubtractLimb r a o).Represents ((a.get r).toInt - o.toNat) ↔
      Fits w ((a.get r).toInt - o.toNat) := by
  have hs := subtractUnsignedLimb_spec r a o ha ham
  have hp := addUnsignedLimb_spec r a o ha.1 ham
  have hma := mag_lt_max ham
  have ho := limb_lt_max o
  unfold evalSubtractLimb toInt
  cases h₁ : (a.get r).sign <;>
    simp only [h₁, if_true, if_false, Bool.false_eq_true, Nat.cast_add, neg_add] at hs hp ⊢
  · exact iff_of_true hs (by rw [Fits]; omega)
  · exact represents_iff_fits hw size_addUnsignedLimb_le fun h => hp (by rw [Fits] at h; omega)

theorem copyFrom_iff (ha : (a.get r).Canonical) (ham : (a.get r).size ≤ maxLimbs w) :
    (copyFrom r a).Represents (a.get r).toInt ↔ Fits w (a.get r).toInt :=
  iff_of_true (copyFrom_spec r a ha) (by rw [Fits, toInt_natAbs]; exact mag_lt_max ham)

theorem evalAddSigned_iff (hw : w < 2 ^ 30) (ha : (a.get r).Canonical)
    (ham : (a.get r).size ≤ maxLimbs w) :
    (evalAddSigned r a o).Represents ((a.get r).toInt + o.toInt) ↔
      Fits w ((a.get r).toInt + o.toInt) := by
  unfold evalAddSigned
  split
  · rename_i hneg
    have h := evalSubtractLimb_iff (o := unsignedAbs o) hw ha.1 ham
    rw [toNat_unsignedAbs] at h
    rwa [show (a.get r).toInt + o.toInt = (a.get r).toInt - (o.toInt.natAbs : ℕ) by omega]
  split
  · rename_i hneg hpos
    have h := evalAddLimb_iff (o := o) hw ha.1 ham
    rw [toNat_eq_natAbs hneg] at h
    rwa [show (a.get r).toInt + o.toInt = (a.get r).toInt + (o.toInt.natAbs : ℕ) by omega]
  · rename_i hneg hpos
    rw [show o.toInt = 0 by omega, add_zero]
    exact copyFrom_iff ha ham

theorem evalSubtractSigned_iff (hw : w < 2 ^ 30) (ha : (a.get r).Canonical)
    (ham : (a.get r).size ≤ maxLimbs w) :
    (evalSubtractSigned r a o).Represents ((a.get r).toInt - o.toInt) ↔
      Fits w ((a.get r).toInt - o.toInt) := by
  unfold evalSubtractSigned
  split
  · split
    · rename_i hneg
      have h := evalAddLimb_iff (o := unsignedAbs o) hw ha.1 ham
      rw [toNat_unsignedAbs] at h
      rwa [show (a.get r).toInt - o.toInt = (a.get r).toInt + (o.toInt.natAbs : ℕ) by omega]
    · rename_i hneg
      have h := evalSubtractLimb_iff (o := o) hw ha.1 ham
      rw [toNat_eq_natAbs hneg] at h
      rwa [show (a.get r).toInt - o.toInt = (a.get r).toInt - (o.toInt.natAbs : ℕ) by omega]
  · rename_i h₀
    have h₁ : o.toInt = 0 := by
      rw [Classical.not_not.mp h₀]
      exact BitVec.toInt_zero
    rw [h₁, sub_zero]
    exact copyFrom_iff ha ham

/-- **Every form of `eval_add` and `eval_subtract` is exact where the result fits**, whichever operands
are `result`: it yields the canonical representation of the sum or difference exactly if `max_limbs`
limbs hold it.  `eval_eq` and `compare` decide equality and order. -/
theorem evalAdd_evalSubtract_iff (hw : w < 2 ^ 30) (r : CppInt w) (a b : Operand w) (o : BitVec w)
    (ha : (a.get r).Canonical) (hb : (b.get r).Canonical) (ham : (a.get r).size ≤ maxLimbs w)
    (hbm : (b.get r).size ≤ maxLimbs w) :
    ((evalAdd r a b).Represents ((a.get r).toInt + (b.get r).toInt) ↔
      Fits w ((a.get r).toInt + (b.get r).toInt)) ∧
    ((evalSubtract r a b).Represents ((a.get r).toInt - (b.get r).toInt) ↔
      Fits w ((a.get r).toInt - (b.get r).toInt)) ∧
    ((evalAddLimb r a o).Represents ((a.get r).toInt + o.toNat) ↔ Fits w ((a.get r).toInt + o.toNat)) ∧
    ((evalSubtractLimb r a o).Represents ((a.get r).toInt - o.toNat) ↔
      Fits w ((a.get r).toInt - o.toNat)) ∧
    ((evalAddSigned r a o).Represents ((a.get r).toInt + o.toInt) ↔
      Fits w ((a.get r).toInt + o.toInt)) ∧
    ((evalSubtractSigned r a o).Represents ((a.get r).toInt - o.toInt) ↔
      Fits w ((a.get r).toInt - o.toInt)) ∧
    (evalEq (a.get r) (b.get r) = true ↔ (a.get r).toInt = (b.get r).toInt) ∧
    compare (a.get r) (b.get r) = ((a.get r).toInt - (b.get r).toInt).sign :=
  ⟨evalAdd_iff hw ha.1 hb.1 ham hbm, evalSubtract_iff hw ha.1 hb.1 ham hbm, evalAddLimb_iff hw ha.1 ham,
    evalSubtractLimb_iff hw ha.1 ham, evalAddSigned_iff hw ha ham, evalSubtractSigned_iff hw ha ham,
    evalEq_iff ha hb, compare_spec ha hb⟩

end Exact

/-- `65535 + 1` on two full limbs, in place: the carry runs off the top. -/
theorem evalAdd_evalSubtract_iff_carry :
    (evalAdd (w := 8) ⟨fun _ => 255, 2, false⟩ .result (.object ⟨fun _ => 1, 1, false⟩)).Represents
      65536 := by
  have hmax : 2 < maxLimbs 8 := by decide
  have h := (evalAdd_evalSubtract_iff (w := 8) (by decide) ⟨fun _ => 255, 2, false⟩ .result
    (.object ⟨fun _ => 1, 1, false⟩) 0 (by decide) (by decide) (by decide) (by decide)).1
  have e : ((Operand.result (w := 8)).get ⟨fun _ => 255, 2, false⟩).toInt +
      ((Operand.object (w := 8) ⟨fun _ => 1, 1, false⟩).get ⟨fun _ => 255, 2, false⟩).toInt =
      65536 := by decide
  rw [e] at h
  exact h.mpr ((show (65536 : ℤ).natAbs < (2 ^ 8) ^ 3 by decide).trans_le
    (Nat.pow_le_pow_right (by decide) hmax))

/-- The largest number of `max_limbs` limbs. -/
def largest (w : ℕ) : CppInt w := ⟨fun _ => BitVec.allOnes w, maxLimbs w, false⟩

theorem largest_spec (hw : 0 < w) :
    (largest w).Canonical ∧ (largest w).size ≤ maxLimbs w ∧ (largest w).mag + 1 = (2 ^ w) ^ maxLimbs w := by
  have hne : BitVec.allOnes w ≠ 0 := fun h => by
    have h₁ := toNat_eq_zero.mpr h
    have h₂ := Nat.one_lt_two_pow hw.ne'
    rw [BitVec.toNat_allOnes] at h₁
    omega
  refine ⟨⟨⟨maxLimbs_pos, Or.inr hne⟩, fun _ h => rfl⟩, Nat.le_refl _, ?_⟩
  have hval : ∀ n, natOf (fun _ => BitVec.allOnes w) n + 1 = (2 ^ w) ^ n := fun n => by
    induction n with
    | zero => rfl
    | succ n ih =>
      have := Nat.two_pow_pos w
      rw [natOf_succ, BitVec.toNat_allOnes, Nat.sub_mul, Nat.one_mul, pow_succ', ← ih]
      have := Nat.le_mul_of_pos_left (natOf (fun _ => BitVec.allOnes w) n + 1) this
      omega
  exact hval _

/-- `2 ^ (2 ^ 32) - 1` of 64-bit limbs and one: the carry is stored behind the buffer. -/
theorem evalAdd_past_max :
    ¬ (evalAddLimb (largest 64) .result 1).Represents ((largest 64).toInt + 1) := by
  obtain ⟨hcan, hsize, hmag⟩ := largest_spec (w := 64) (by decide)
  have h := evalAddLimb_iff (r := largest 64) (a := .result) (o := 1) (by decide) hcan.1 hsize
  refine fun hrep => absurd (h.mp hrep) ?_
  have hint : (largest 64).toInt = (largest 64).mag := toInt_of_sign rfl
  change ¬ ((largest 64).toInt + 1).natAbs < (2 ^ 64) ^ maxLimbs 64
  rw [hint, ← hmag]
  omega

end SourceLibs.CppInt
