import SourceLibs.CppInt.DivideLimb
import SourceLibs.CppInt.Increment
import SourceLibs.CppInt.Multiply
import SourceLibs.Support.Estimate

/-!
# CppInt — long division

`divide_unsigned_helper(result, x, y, r)` guesses how often `y`, shifted, goes into the remainder,
from the one or two leading limbs of each, adds the guess to the quotient and subtracts the multiple
from the remainder.  A guess may be too large: then the remainder goes negative, which is kept as a
flag `r_neg` beside its magnitude, and the following guesses are taken off the quotient until the
sign turns again.

`pr` is taken from `result->limbs()` once, before the loop.  An `eval_add` that needs more limbs
than the buffer was made for would move the limbs away from under it; the model calls that `fails`,
as it does a failed assertion and a loop that runs out of fuel.

The multiple is built in `t`, which is given a limb for the carry first and loses it again without
one.  Only the fixed backends check that `t.resize` granted it (`truncated_t`): in a dividend of
`max_limbs` limbs the limb that is stored over, or dropped, is the leading limb of the multiple.

* `guess_spec`: the guess is not zero, the remainder gets smaller, the position does not go up.
* `DivideState.Inv`: `X = Q · y ± r` with `Q` in `result`; the shift to come divides `Q`, which keeps
  the index of the next quotient limb inside a size that `eval_subtract` may have shrunk; and
  `Q` times the leading power of `y` does not exceed `X`, which keeps the quotient in its buffer.
* `divideStep_spec`, `divideStep_clipped`: a pass with room for the carry, and one without, which
  counts what it lost with the dividend.
* `divideLoop_spec`: the loop ends, by the size of the remainder, and what it adds up to.
* `divideUnsignedHelper_iff`: the whole routine.
-/

namespace SourceLibs.CppInt
open Function Radix

variable {w : ℕ}

def evalIsZero (x : CppInt w) : Bool := x.size == 1 && x.limbs 0 == 0

def evalGetSign (x : CppInt w) : ℤ := if evalIsZero x then 0 else if x.sign then -1 else 1

/-- The best guess for how many times `y` divides into `r`, and `r_order` after it. -/
def guess (prem py : ℕ → BitVec w) (rOrder yOrder : ℕ) : BitVec w × ℕ :=
  if prem rOrder ≤ py yOrder ∧ 0 < rOrder then
    let a := twoLimbs (prem rOrder) (prem (rOrder - 1))
    let b := (py yOrder).toNat
    let v := a / b
    if 2 ^ w - 1 < v then (1, rOrder) else (BitVec.ofNat w v, rOrder - 1)
  else if rOrder = 0 then (prem 0 / py yOrder, rOrder)
  else
    let a := twoLimbs (prem rOrder) (prem (rOrder - 1))
    let b := if 0 < yOrder then twoLimbs (py yOrder) (py (yOrder - 1)) else twoLimbs (py yOrder) 0
    (BitVec.ofNat w (a / b), rOrder)

/-- `t` made the guess shifted up: `t.resize(shift + 1)`, the guess on top and zeros below. -/
def shiftedGuess (t : CppInt w) (guess : BitVec w) (shift : ℕ) : CppInt w :=
  let t := (t.resize (shift + 1)).store shift guess
  t.setLimbs (zeroFill t.limbs 0 shift)

/-- "Update result": by the limb if it neither carries nor borrows, else through `t`. -/
def updateResult (result t : CppInt w) (rNeg : Bool) (guess : BitVec w) (shift : ℕ) :
    CppInt w × CppInt w :=
  let pr := result.limbs
  if rNeg then
    if guess < pr shift then (result.store shift (pr shift - guess), t)
    else (evalSubtract result .result (.object (shiftedGuess t guess shift)), shiftedGuess t guess shift)
  else if guess < BitVec.allOnes w - pr shift then (result.store shift (pr shift + guess), t)
  else (evalAdd result .result (.object (shiftedGuess t guess shift)), shiftedGuess t guess shift)

/-- One step of the loop that follows, at position `l = i + shift`. -/
def multiplyShiftStep (y : CppInt w) (guess : BitVec w) (shift carry l : ℕ) (_cell : BitVec w) :
    BitVec w × ℕ :=
  let carry := dbl w (carry + (y.limbs (l - shift)).toNat * guess.toNat)
  (BitVec.ofNat w carry, carry / 2 ^ w)

/-- `t = guess * y`, shifted up: the fused multiply-shift. -/
def multiplyShift (t y : CppInt w) (guess : BitVec w) (shift : ℕ) : CppInt w :=
  let t := t.resize (y.size + shift + 1)
  let s := pass (multiplyShiftStep y guess shift) y.size shift (zeroFill t.limbs 0 shift, 0)
  let t := t.setLimbs s.1
  if s.2 ≠ 0 then t.store (t.size - 1) (BitVec.ofNat w s.2) else t.resize (t.size - 1)

/-- `while(pr[result->size() - 1] == 0) result->resize(result->size() - 1)`: the new size. -/
def stripSize (p : ℕ → BitVec w) : ℕ → ℕ
  | 0 => 0
  | n + 1 => if p n = 0 then stripSize p n else n + 1

/-- The variables of the loop. -/
structure DivideState (w : ℕ) where
  result : Option (CppInt w)
  r : CppInt w
  t : CppInt w
  rNeg : Bool
  firstPass : Bool
  rOrder : ℕ

/-- The body of the loop; `capacity` limbs were asked for `result`. -/
def divideStep (y : CppInt w) (yOrder capacity : ℕ) (s : DivideState w) : Option (DivideState w) := do
  let g := guess s.r.limbs y.limbs s.rOrder yOrder
  guard (g.1 ≠ 0)
  let shift := g.2 - yOrder
  -- update result
  let u := s.result.map fun q => updateResult q s.t s.rNeg g.1 shift
  let result := u.map (·.1)
  guard (result.all fun q => q.size ≤ capacity)
  let t := multiplyShift ((u.map (·.2)).getD s.t) y g.1 shift
  -- update r
  let larger := decide (0 < compare s.r t)
  let r := if larger then evalSubtract s.r .result (.object t)
    else evalSubtract t .result (.object s.r)
  -- strip any leading zero
  some
    { result := if s.firstPass then result.map fun q => q.resize (stripSize q.limbs q.size) else result
      r := r
      t := if larger then t else s.r
      rNeg := if larger then s.rNeg else !s.rNeg
      firstPass := s.firstPass && result.isNone
      rOrder := r.size - 1 }

/-- `do ... while((r_order > y_order) || (r.compare_unsigned(y) >= 0));`. -/
def divideLoop (y : CppInt w) (yOrder capacity : ℕ) : ℕ → DivideState w → Option (DivideState w)
  | 0, _ => none
  | fuel + 1, s => do
    let s ← divideStep y yOrder capacity s
    if s.rOrder < yOrder then some s
    else if yOrder < s.rOrder ∨ 0 ≤ compareUnsigned s.r y then divideLoop y yOrder capacity fuel s
    else some s

/-- "We now just have to normalise the result". -/
def divideFinish (y : CppInt w) (s : DivideState w) : DivideOutcome w :=
  let tooMany := s.rNeg && evalGetSign s.r != 0
  let result := if tooMany then s.result.map evalDecrement else s.result
  let r :=
    if tooMany then
      if y.sign then evalSubtract s.r.negate .result (.object y)
      else evalSubtract s.r (.object y) .result
    else s.r
  if compareUnsigned r y < 0 then .returns result r else .fails

/-- `divide_unsigned_helper(result, x, y, r)`. -/
def divideUnsignedHelper (fuel : ℕ) (result : Option (CppInt w)) (x y r : CppInt w) :
    DivideOutcome w :=
  let yOrder := y.size - 1
  if yOrder = 0 then divideLimb fuel result x (y.limbs yOrder) r
  else
    let px := x.limbs
    let py := y.limbs
    let rOrder := x.size - 1
    if rOrder = 0 ∧ px 0 = 0 then .returns (result.map (·.assign x)) (r.assign x)
    else
      let r := (r.assign x).setSign false
      let result := result.map (·.assignLimb 0)
      if rOrder ≤ yOrder ∧ (rOrder < yOrder ∨ compareUnsigned r y < 0) then .returns result r
      else if rOrder = 0 then
        .returns (result.map (·.assignLimb (px 0 / py 0))) (r.assignLimb (px 0 % py 0))
      else if rOrder = 1 then
        let a := twoLimbs (px 1) (px 0)
        let b := if yOrder ≠ 0 then twoLimbs (py 1) (py 0) else (py 0).toNat
        .returns (result.map (·.assignDouble (a / b))) (r.assignDouble (a % b))
      else
        let capacity := 1 + rOrder - yOrder
        let result := result.map fun q => (q.resize capacity).setLimbs (zeroFill q.limbs 1 capacity)
        match divideLoop y yOrder capacity fuel ⟨result, r, zero w, false, true, rOrder⟩ with
        | none => .fails
        | some s => divideFinish y s

/-! ### The guess -/

theorem natOf_two_top (p : ℕ → BitVec w) (m : ℕ) :
    natOf p (m + 2) = twoLimbs (p (m + 1)) (p m) * (2 ^ w) ^ m + natOf p m := by
  rw [natOf_succ, natOf_succ, twoLimbs]
  ring

/-- What a guess `g` at position `pos` is good for, where `R` is the remainder, of order `ro`, and
`Y` the divisor, of order `yo`: it is not zero; the position does not go up and stays at or above
that of the divisor's top; the multiple it stands for leaves less than `R`, and less than one unit
above the position, on either side; and it is not too large for the leading power of the divisor. -/
structure GuessOk (B R Y ro yo g pos : ℕ) : Prop where
  pos_guess : 0 < g
  le_pos : yo ≤ pos
  pos_le : pos ≤ ro
  lt_add : R < g * (Y * B ^ (pos - yo)) + B ^ (pos + 1)
  mul_lt : g * (Y * B ^ (pos - yo)) < R + B ^ (pos + 1)
  mul_lt_two : g * (Y * B ^ (pos - yo)) < 2 * R
  under : g * B ^ pos ≤ R

theorem guessOk_of_estimate {B R Y ro yo pos P a b r₀ z : ℕ} (hR : R = a * P + r₀) (hr₀ : r₀ < P)
    (hZ : Y * B ^ (pos - yo) = b * P + z) (hz₀ : z < P) (hg : 0 < a / b)
    (h₁ : (a % b + 1) * P ≤ B ^ (pos + 1)) (h₂ : a / b * P ≤ B ^ (pos + 1)) (hb : B ^ pos ≤ b * P)
    (hlo : yo ≤ pos) (hhi : pos ≤ ro) : GuessOk B R Y ro yo (a / b) pos := by
  obtain ⟨h₃, h₄, h₅⟩ := estimate_bounds hR hr₀ hZ hz₀ hg h₁ h₂
  exact ⟨hg, hlo, hhi, h₃, h₄, h₅, (Nat.mul_le_mul_left _ hb).trans (estimate_under hR)⟩

/-- The divisor shifted to position `pos`, by its top limb. -/
theorem natOf_mul_pow (q : ℕ → BitVec w) {yo pos : ℕ} (h : yo ≤ pos) :
    natOf q (yo + 1) * (2 ^ w) ^ (pos - yo) =
        (q yo).toNat * (2 ^ w) ^ pos + natOf q yo * (2 ^ w) ^ (pos - yo) ∧
      natOf q yo * (2 ^ w) ^ (pos - yo) < (2 ^ w) ^ pos := by
  have e : (2 ^ w) ^ pos = (2 ^ w) ^ yo * (2 ^ w) ^ (pos - yo) := by
    rw [← pow_add, Nat.add_sub_cancel' h]
  rw [natOf_succ, e]
  refine ⟨by ring, ?_⟩
  exact Nat.mul_lt_mul_of_pos_right (natOf_lt q yo) (Nat.pow_pos (Nat.two_pow_pos w))

section Guess

variable {p q : ℕ → BitVec w} {m yo : ℕ}

/-- The leading limbs are equal: the guess is one. -/
theorem guessOk_one (heq : (p (m + 1)).toNat = (q yo).toNat) (hq : 0 < (q yo).toNat)
    (hord : yo ≤ m + 1) :
    GuessOk (2 ^ w) (natOf p (m + 2)) (natOf q (yo + 1)) (m + 1) yo 1 (m + 1) := by
  have hpos := Nat.two_pow_pos w
  obtain ⟨hz, hz₀⟩ := natOf_mul_pow q hord
  have hone : (q yo).toNat / (q yo).toNat = 1 := Nat.div_self hq
  have hR : natOf p (m + 2) = (q yo).toNat * (2 ^ w) ^ (m + 1) + natOf p (m + 1) := by
    rw [natOf_succ _ (m + 1), heq, Nat.add_comm]
  have h : GuessOk (2 ^ w) _ _ (m + 1) yo _ (m + 1) :=
    guessOk_of_estimate hR (natOf_lt p (m + 1)) hz hz₀ (by omega)
    (by
      rw [Nat.mod_self, Nat.zero_add, Nat.one_mul]
      exact Nat.pow_le_pow_right hpos (by omega))
    (by
      rw [hone, Nat.one_mul]
      exact Nat.pow_le_pow_right hpos (by omega))
    (Nat.le_mul_of_pos_left _ hq) hord le_rfl
  rwa [hone] at h

/-- Two limbs by one. -/
theorem guessOk_limb (hp : 0 < (p (m + 1)).toNat) (hlt : (p (m + 1)).toNat < (q yo).toNat)
    (hv : twoLimbs (p (m + 1)) (p m) / (q yo).toNat < 2 ^ w) (hym : yo ≤ m) :
    GuessOk (2 ^ w) (natOf p (m + 2)) (natOf q (yo + 1)) (m + 1) yo
      (twoLimbs (p (m + 1)) (p m) / (q yo).toNat) m := by
  have hqt : 0 < (q yo).toNat := by omega
  have hqb := (q yo).isLt
  obtain ⟨hz, hz₀⟩ := natOf_mul_pow q hym
  have hg : 0 < twoLimbs (p (m + 1)) (p m) / (q yo).toNat := by
    refine Nat.div_pos ?_ hqt
    have : 1 * 2 ^ w ≤ (p (m + 1)).toNat * 2 ^ w := Nat.mul_le_mul_right _ hp
    rw [twoLimbs]
    omega
  have hmod := Nat.mod_lt (twoLimbs (p (m + 1)) (p m)) hqt
  refine guessOk_of_estimate (natOf_two_top p m) (natOf_lt p m) hz hz₀ hg ?_ ?_
    (Nat.le_mul_of_pos_left _ hqt) hym (by omega)
  · rw [pow_succ']
    exact Nat.mul_le_mul_right _ (by omega)
  · rw [pow_succ']
    exact Nat.mul_le_mul_right _ hv.le

/-- Two limbs by two. -/
theorem guessOk_limbs {k : ℕ} (hq : 0 < (q (k + 1)).toNat)
    (hlt : (q (k + 1)).toNat < (p (m + 1)).toNat) (hkm : k ≤ m) :
    twoLimbs (p (m + 1)) (p m) / twoLimbs (q (k + 1)) (q k) < 2 ^ w ∧
      GuessOk (2 ^ w) (natOf p (m + 2)) (natOf q (k + 2)) (m + 1) (k + 1)
        (twoLimbs (p (m + 1)) (p m) / twoLimbs (q (k + 1)) (q k)) (m + 1) := by
  have hpos := Nat.two_pow_pos w
  have hlo := (p m).isLt
  have hqlo := (q k).isLt
  have haB' : twoLimbs (p (m + 1)) (p m) < ((p (m + 1)).toNat + 1) * 2 ^ w := by
    rw [twoLimbs, Nat.add_mul]
    omega
  have haB : (p (m + 1)).toNat * 2 ^ w ≤ twoLimbs (p (m + 1)) (p m) := Nat.le_add_right _ _
  have hbB : (q (k + 1)).toNat * 2 ^ w ≤ twoLimbs (q (k + 1)) (q k) := Nat.le_add_right _ _
  have hbB' : twoLimbs (q (k + 1)) (q k) < ((q (k + 1)).toNat + 1) * 2 ^ w := by
    rw [twoLimbs, Nat.add_mul]
    omega
  set a := twoLimbs (p (m + 1)) (p m)
  set b := twoLimbs (q (k + 1)) (q k)
  have hba : b < a := hbB'.trans_le ((Nat.mul_le_mul_right _ hlt).trans haB)
  have hB : 2 ^ w ≤ b := (Nat.le_mul_of_pos_left _ hq).trans hbB
  have haa : a < 2 ^ w * 2 ^ w := haB'.trans_le (Nat.mul_le_mul_right _ (p (m + 1)).isLt)
  have hv : a / b < 2 ^ w := Nat.div_lt_of_lt_mul (haa.trans_le (Nat.mul_le_mul_right _ hB))
  have hmod := Nat.mod_lt a (show 0 < b by omega)
  have hsh : (2 ^ w) ^ k * (2 ^ w) ^ (m + 1 - (k + 1)) = (2 ^ w) ^ m := by
    rw [← pow_add]
    congr 1
    omega
  refine ⟨hv, guessOk_of_estimate (z := natOf q k * (2 ^ w) ^ (m + 1 - (k + 1)))
    (natOf_two_top p m) (natOf_lt p m) ?_ ?_ (Nat.div_pos hba.le (by omega)) ?_ ?_ ?_ (by omega)
    le_rfl⟩
  · rw [natOf_two_top q k, ← hsh]
    ring
  · rw [← hsh]
    exact Nat.mul_lt_mul_of_pos_right (natOf_lt q k) (Nat.pow_pos hpos)
  · rw [pow_succ', pow_succ', ← Nat.mul_assoc]
    exact Nat.mul_le_mul_right _ (by omega)
  · rw [pow_succ', pow_succ', ← Nat.mul_assoc]
    exact Nat.mul_le_mul_right _ (by omega)
  · rw [pow_succ']
    exact Nat.mul_le_mul_right _ hB

/-- The quotient of two limbs by a limb that is not smaller than the upper one is too large for a limb
exactly when they are equal. -/
theorem two_pow_le_div_iff (hq : 0 < (q yo).toNat) (hle : (p (m + 1)).toNat ≤ (q yo).toNat) :
    2 ^ w ≤ twoLimbs (p (m + 1)) (p m) / (q yo).toNat ↔ (p (m + 1)).toNat = (q yo).toNat := by
  have hlo := (p m).isLt
  rw [Nat.le_div_iff_mul_le hq, twoLimbs]
  constructor
  · refine fun h => Nat.le_antisymm hle (Nat.le_of_not_lt fun hlt => ?_)
    have : ((p (m + 1)).toNat + 1) * 2 ^ w ≤ (q yo).toNat * 2 ^ w := Nat.mul_le_mul_right _ hlt
    rw [Nat.add_mul, Nat.mul_comm (q yo).toNat] at this
    omega
  · intro h
    rw [h, Nat.mul_comm]
    omega

/-- **The guess**, in each of the cases the source tells apart.  The position goes down exactly where
the leading limb of the remainder is the smaller one; where the limbs are equal the guess is one. -/
theorem guess_spec {ro : ℕ} (hyo : 0 < yo) (hord : yo ≤ ro) (hp : p ro ≠ 0) (hq : q yo ≠ 0)
    (hle : natOf q (yo + 1) ≤ natOf p (ro + 1)) :
    GuessOk (2 ^ w) (natOf p (ro + 1)) (natOf q (yo + 1)) ro yo (guess p q ro yo).1.toNat
        (guess p q ro yo).2 ∧
      (guess p q ro yo).2 = (if p ro < q yo then ro - 1 else ro) ∧
      (p ro = q yo → (guess p q ro yo).1.toNat = 1) := by
  have hqt : 0 < (q yo).toNat := Nat.pos_of_ne_zero fun e => hq (toNat_eq_zero.mp e)
  have hpt : 0 < (p ro).toNat := Nat.pos_of_ne_zero fun e => hp (toNat_eq_zero.mp e)
  have hqb := (q yo).isLt
  obtain ⟨m, rfl⟩ : ∃ m, ro = m + 1 := ⟨ro - 1, by omega⟩
  have heq : p (m + 1) = q yo ↔ (p (m + 1)).toNat = (q yo).toNat := BitVec.toNat_inj.symm
  simp only [BitVec.lt_def, heq]
  unfold guess
  simp only [Nat.add_sub_cancel]
  split
  · rename_i hc
    have htop : (p (m + 1)).toNat ≤ (q yo).toNat := BitVec.le_def.mp hc.1
    have hdiv := two_pow_le_div_iff (m := m) hqt htop
    split
    · rename_i hv
      have heq := hdiv.mp (by omega)
      have h₁ : (1 : BitVec w).toNat = 1 := by
        rw [BitVec.ofNat_eq_ofNat, BitVec.toNat_ofNat]
        exact Nat.mod_eq_of_lt (Nat.lt_of_le_of_lt hqt hqb)
      rw [h₁, if_neg (by omega)]
      exact ⟨guessOk_one heq hqt hord, rfl, fun _ => rfl⟩
    · rename_i hv
      have hv' : twoLimbs (p (m + 1)) (p m) / (q yo).toNat < 2 ^ w := by omega
      have hlt : (p (m + 1)).toNat < (q yo).toNat :=
        Nat.lt_of_le_of_ne htop fun heq => absurd (hdiv.mpr heq) (by omega)
      have hym : yo ≤ m := by
        by_contra hgt
        obtain rfl : yo = m + 1 := by omega
        have h₁ := natOf_lt p (m + 1)
        rw [natOf_succ p (m + 1), natOf_succ q (m + 1)] at hle
        have h₂ : ((p (m + 1)).toNat + 1) * (2 ^ w) ^ (m + 1) ≤
            (q (m + 1)).toNat * (2 ^ w) ^ (m + 1) := Nat.mul_le_mul_right _ hlt
        rw [Nat.add_mul] at h₂
        omega
      rw [BitVec.toNat_ofNat, Nat.mod_eq_of_lt hv', if_pos hlt]
      exact ⟨guessOk_limb hpt hlt hv' hym, rfl, fun h => absurd h hlt.ne⟩
  · rename_i hc
    have htop : (q yo).toNat < (p (m + 1)).toNat := by
      by_contra hge
      exact hc ⟨BitVec.le_def.mpr (by omega), Nat.succ_pos m⟩
    obtain ⟨k, rfl⟩ : ∃ k, yo = k + 1 := ⟨yo - 1, by omega⟩
    obtain ⟨hv, hok⟩ := guessOk_limbs (m := m) hqt htop (by omega)
    simp only [Nat.add_sub_cancel, if_neg (Nat.succ_ne_zero m)]
    rw [BitVec.toNat_ofNat, Nat.mod_eq_of_lt hv, if_neg (by omega)]
    exact ⟨hok, rfl, fun h => absurd h htop.ne'⟩

end Guess

/-! ### The parts of a pass -/

theorem natOf_zeroFill (p : ℕ → BitVec w) {m n : ℕ} (h : m ≤ n) : natOf (zeroFill p 0 n) m = 0 :=
  natOf_memset p h

theorem shiftedGuess_spec {t : CppInt w} (ht : t.sign = false) {g : BitVec w} (hg : g ≠ 0)
    {shift : ℕ} (hs : shift < maxLimbs w) :
    (shiftedGuess t g shift).Represents (g.toNat * (2 ^ w) ^ shift : ℕ) ∧
      (shiftedGuess t g shift).sign = false ∧ (shiftedGuess t g shift).size = shift + 1 := by
  have hsize : (shiftedGuess t g shift).size = shift + 1 := Nat.min_eq_left hs
  have htop : zeroFill (update t.limbs shift g) 0 shift shift = g := by
    rw [zeroFill, if_neg (by omega), update_self]
  have hmag : (shiftedGuess t g shift).mag = g.toNat * (2 ^ w) ^ shift := by
    rw [mag, hsize]
    show natOf (zeroFill (update t.limbs shift g) 0 shift) (shift + 1) = _
    rw [natOf_succ, natOf_zeroFill _ le_rfl, htop, Nat.zero_add]
  have htr : (shiftedGuess t g shift).Trimmed := by
    rw [Trimmed, hsize]
    refine ⟨Nat.succ_pos shift, Or.inr ?_⟩
    show zeroFill (update t.limbs shift g) 0 shift (shift + 1 - 1) ≠ 0
    rw [Nat.add_sub_cancel, htop]
    exact hg
  have hsign : (shiftedGuess t g shift).sign = false := ht
  exact ⟨hmag ▸ htr.represents hsign, hsign, hsize⟩

/-- What the limbs and the last carry of the fused loop amount to. -/
theorem multiplyShift_pass (t y : CppInt w) (g : BitVec w) (shift : ℕ) :
    let s := pass (multiplyShiftStep y g shift) y.size shift (zeroFill t.limbs 0 shift, 0)
    s.2 < 2 ^ w ∧ natOf s.1 (y.size + shift) + s.2 * (2 ^ w) ^ (y.size + shift) =
      g.toNat * (y.mag * (2 ^ w) ^ shift) := by
  intro s
  have hpos := Nat.two_pow_pos w
  obtain ⟨hc, hv⟩ := pass_natOf (g := multiplyShiftStep y g shift)
    (P := fun c => c < 2 ^ w) (κ := fun c => (c : ℤ)) (k := y.size) (i := shift)
    (f := zeroFill t.limbs 0 shift) (c := 0)
    (ψ := fun l => ((y.limbs (l - shift)).toNat : ℤ) * g.toNat) hpos fun c' j _ _ hc' => by
      have hlt := mul_add_add_lt (y.limbs (j - shift)).isLt g.isLt hc' hpos
      simp only [multiplyShiftStep]
      rw [dbl_eq (by omega)]
      refine ⟨Nat.div_lt_of_lt_mul (by omega), ?_⟩
      rw [lo_add_hi_int]
      push_cast
      ring
  refine ⟨hc, ?_⟩
  rw [natOf_zeroFill _ le_rfl] at hv
  simp only [Nat.add_sub_cancel_left, value_mul_right, ← cast_value] at hv
  have e : (natOf s.1 (shift + y.size) : ℤ) + s.2 * ((2 ^ w : ℕ) : ℤ) ^ (shift + y.size) =
      g.toNat * (y.mag * ((2 ^ w : ℕ) : ℤ) ^ shift) := by
    rw [hv, mag, natOf]
    push_cast
    ring
  rw [Nat.add_comm y.size]
  exact_mod_cast e

theorem multiplyShift_spec {t y : CppInt w} (ht : t.sign = false) (hy : y.Trimmed) (hy₀ : y.mag ≠ 0)
    {g : BitVec w} (hg : g ≠ 0) {shift : ℕ} (hroom : y.size + shift < maxLimbs w) :
    (multiplyShift t y g shift).Represents (g.toNat * (y.mag * (2 ^ w) ^ shift) : ℕ) ∧
      (multiplyShift t y g shift).sign = false ∧ (multiplyShift t y g shift).size ≤ maxLimbs w := by
  have hg₀ : 0 < g.toNat := Nat.pos_of_ne_zero fun e => hg (toNat_eq_zero.mp e)
  unfold multiplyShift
  obtain ⟨hc, hval⟩ := multiplyShift_pass t y g shift
  rw [resize_of_le (show y.size + shift + 1 ≤ maxLimbs w from hroom)]
  simp only [limbs_setSize, size_setSize, size_setLimbs, Nat.add_sub_cancel,
    resize_of_le hroom.le]
  set s := pass (multiplyShiftStep y g shift) y.size shift (zeroFill t.limbs 0 shift, 0) with hs
  -- a canonical object of this magnitude, with or without the limb for the carry
  have key : ∀ p : CppInt w, p.sign = false → p.Trimmed → p.size ≤ maxLimbs w →
      p.mag = g.toNat * (y.mag * (2 ^ w) ^ shift) →
      p.Represents (g.toNat * (y.mag * (2 ^ w) ^ shift) : ℕ) ∧ p.sign = false ∧
        p.size ≤ maxLimbs w := fun p h₁ h₂ h₃ h₄ => ⟨h₄ ▸ h₂.represents h₁, h₁, h₃⟩
  split
  · rename_i hc₀
    have hcn : (BitVec.ofNat w s.2).toNat = s.2 := by
      rw [BitVec.toNat_ofNat, Nat.mod_eq_of_lt hc]
    refine key _ ht ⟨Nat.succ_pos _, Or.inr ?_⟩ hroom ?_
    · simp only [size_store, size_setLimbs, size_setSize, Nat.add_sub_cancel, limbs_store,
        update_self]
      exact fun e => hc₀ (by rw [← hcn, e]; exact toNat_eq_zero.mpr rfl)
    · show natOf (update s.1 (y.size + shift) _) (y.size + shift + 1) = _
      rw [natOf_succ, natOf_update le_rfl, update_self, hcn, hval]
  · rename_i hc₀
    rw [show s.2 = 0 by omega, Nat.zero_mul, Nat.add_zero] at hval
    refine key _ ht (trimmed_of_pow_le (Nat.add_pos_left hy.1 shift) (Or.inr ?_)) hroom.le hval
    show (2 ^ w) ^ (y.size + shift - 1) ≤ natOf s.1 (y.size + shift)
    rw [hval, show y.size + shift - 1 = y.size - 1 + shift by have := hy.1; omega, pow_add]
    exact (Nat.mul_le_mul_right _ (hy.pow_le_of_ne_zero hy₀)).trans (Nat.le_mul_of_pos_left _ hg₀)

/-- Without room for the carry the top limb is lost: it is dropped, or the carry is stored over it. -/
theorem multiplyShift_clipped {t y : CppInt w} (ht : t.sign = false) (hy : y.Trimmed)
    (hy₁ : 1 < y.size) {g : BitVec w} (hg : g ≠ 0) {shift : ℕ} (hfull : y.size + shift = maxLimbs w) :
    (multiplyShift t y g shift).sign = false ∧
      (multiplyShift t y g shift).mag < g.toNat * (y.mag * (2 ^ w) ^ shift) ∧
      (0 < (multiplyShift t y g shift).size ∧ (multiplyShift t y g shift).size < maxLimbs w ∨
        (2 ^ w) ^ maxLimbs w ≤ g.toNat * (y.mag * (2 ^ w) ^ shift) ∧
        (multiplyShift t y g shift).Trimmed ∧
        (multiplyShift t y g shift).mag <
          (g.toNat * (y.mag * (2 ^ w) ^ shift) / (2 ^ w) ^ maxLimbs w + 1) * (2 ^ w) ^ (maxLimbs w - 1) ∧
        (multiplyShift t y g shift).size = maxLimbs w) := by
  have hBpos := Nat.two_pow_pos w
  have hg₀ : 0 < g.toNat := Nat.pos_of_ne_zero fun e => hg (toNat_eq_zero.mp e)
  obtain ⟨hc, hval⟩ := multiplyShift_pass t y g shift
  obtain ⟨n, hn⟩ : ∃ n, maxLimbs w = n + 1 := ⟨maxLimbs w - 1, by omega⟩
  have htop : (2 ^ w) ^ n ≤ g.toNat * (y.mag * (2 ^ w) ^ shift) := by
    have h₁ := Nat.mul_le_mul_right ((2 ^ w) ^ shift) (hy.pow_le (by omega))
    rw [← pow_add, show y.size - 1 + shift = n by omega] at h₁
    exact h₁.trans (Nat.le_mul_of_pos_left _ hg₀)
  unfold multiplyShift
  rw [show t.resize (y.size + shift + 1) = t.setSize (maxLimbs w) by
    rw [resize, Nat.min_eq_right (by omega)]]
  rw [hfull] at hval
  simp only [limbs_setSize, size_setSize, size_setLimbs, resize_of_le (Nat.sub_le (maxLimbs w) 1)]
  set s := pass (multiplyShiftStep y g shift) y.size shift (zeroFill t.limbs 0 shift, 0) with hs
  set T := g.toNat * (y.mag * (2 ^ w) ^ shift) with hT
  have hd := (s.1 n).isLt
  have hlow := natOf_lt s.1 n
  have hP : 0 < (2 ^ w) ^ n := Nat.pow_pos hBpos
  rw [hn, natOf_succ] at hval
  refine ⟨by split <;> exact ht, ?_⟩
  split
  · rename_i hc₀
    have hcn : (BitVec.ofNat w s.2).toNat = s.2 := by
      rw [BitVec.toNat_ofNat, Nat.mod_eq_of_lt hc]
    have hmag : (((t.setSize (maxLimbs w)).setLimbs s.1).store (maxLimbs w - 1)
        (BitVec.ofNat w s.2)).mag = natOf s.1 n + s.2 * (2 ^ w) ^ n := by
      show natOf (update s.1 (maxLimbs w - 1) _) (maxLimbs w) = _
      rw [hn, Nat.add_sub_cancel, natOf_succ, natOf_update le_rfl, update_self, hcn]
    have hcB : s.2 * (2 ^ w) ^ (n + 1) = 2 ^ w * (s.2 * (2 ^ w) ^ n) := by ring
    have hBn : (2 ^ w) ^ (n + 1) = 2 ^ w * (2 ^ w) ^ n := pow_succ' _ _
    have hcP : (2 ^ w) ^ n ≤ s.2 * (2 ^ w) ^ n := Nat.le_mul_of_pos_left _ (Nat.pos_of_ne_zero hc₀)
    have hcT : (2 ^ w) ^ (n + 1) ≤ s.2 * (2 ^ w) ^ (n + 1) :=
      Nat.le_mul_of_pos_left _ (Nat.pos_of_ne_zero hc₀)
    have hB₂ : 2 ≤ 2 ^ w := by omega
    have h₂ : 2 * (s.2 * (2 ^ w) ^ n) ≤ 2 ^ w * (s.2 * (2 ^ w) ^ n) := Nat.mul_le_mul_right _ hB₂
    have h₃ : s.2 * (2 ^ w) ^ n ≤ T / (2 ^ w) ^ (n + 1) * (2 ^ w) ^ n := by
      refine Nat.mul_le_mul_right _ ((Nat.le_div_iff_mul_le (Nat.pow_pos hBpos)).mpr ?_)
      omega
    rw [hmag]
    refine ⟨by omega, Or.inr ⟨by rw [hn]; omega, ⟨show 0 < maxLimbs w by omega, Or.inr ?_⟩, ?_, rfl⟩⟩
    · show update s.1 (maxLimbs w - 1) _ (maxLimbs w - 1) ≠ 0
      rw [update_self]
      exact fun e => hc₀ (hcn.symm.trans (toNat_eq_zero.mpr e))
    · rw [hn, Nat.add_sub_cancel, Nat.add_mul, Nat.one_mul]
      omega
  · rename_i hc₀
    rw [show s.2 = 0 by omega, Nat.zero_mul, Nat.add_zero] at hval
    refine ⟨?_, Or.inl ⟨show 0 < maxLimbs w - 1 by omega, show maxLimbs w - 1 < maxLimbs w by omega⟩⟩
    show natOf s.1 (maxLimbs w - 1) < T
    rw [hn, Nat.add_sub_cancel]
    exact hlow.trans_le htop

/-- **The quotient after a guess**, added or taken off. -/
theorem updateResult_spec {q t : CppInt w} (hq : q.sign = false) (ht : t.sign = false) (neg : Bool)
    {g : BitVec w} (hg : g ≠ 0) {shift : ℕ} (hshift : shift < q.size) (hqm : q.size < maxLimbs w)
    (hneg : neg = true → q.Trimmed ∧ g.toNat * (2 ^ w) ^ shift < q.mag) :
    (updateResult q t neg g shift).1.sign = false ∧
    (updateResult q t neg g shift).1.mag =
      (if neg then q.mag - g.toNat * (2 ^ w) ^ shift else q.mag + g.toNat * (2 ^ w) ^ shift) ∧
    ((updateResult q t neg g shift).1.Trimmed ∨
      ¬ q.Trimmed ∧ (updateResult q t neg g shift).1.size = q.size) ∧
    (updateResult q t neg g shift).2.sign = false := by
  have hgw := g.isLt
  obtain ⟨hsg, hss, hsn⟩ := shiftedGuess_spec ht hg (hshift.trans hqm)
  have hd := (q.limbs shift).isLt
  unfold updateResult
  simp only
  cases neg with
  | true =>
    obtain ⟨hqt, hlt⟩ := hneg rfl
    simp only [if_true]
    split
    · rename_i hgt
      have hgt' := BitVec.lt_def.mp hgt
      have hv : (q.limbs shift - g).toNat = (q.limbs shift).toNat - g.toNat :=
        BitVec.toNat_sub_of_le (BitVec.le_of_lt hgt)
      refine ⟨hq, ?_, Or.inl (hqt.store shift fun e => ?_), ht⟩
      · have e := natOf_update_of_lt q.limbs hshift (q.limbs shift - g)
        rw [hv, Nat.sub_mul] at e
        have : g.toNat * (2 ^ w) ^ shift ≤ (q.limbs shift).toNat * (2 ^ w) ^ shift :=
          Nat.mul_le_mul_right _ hgt'.le
        show natOf (update q.limbs shift _) q.size = natOf q.limbs q.size - _
        omega
      · rw [e, toNat_eq_zero.mpr rfl] at hv
        omega
    · have h := subtractUnsigned_spec q .result (.object (shiftedGuess t g shift)) hqt
        hsg.canonical.1 hqm.le (show (shiftedGuess t g shift).size ≤ _ by omega)
      have e : evalSubtract q .result (.object (shiftedGuess t g shift)) =
          subtractUnsigned q .result (.object (shiftedGuess t g shift)) :=
        if_neg fun hne => hne (hq.trans hss.symm)
      rw [show (Operand.result.get q) = q from rfl, hq, if_neg Bool.false_ne_true,
        show (Operand.object (shiftedGuess t g shift)).get q = shiftedGuess t g shift from rfl,
        hsg.mag_eq, Int.natAbs_natCast, ← Nat.cast_sub hlt.le] at h
      rw [e]
      refine ⟨h.sign_of_nonneg (Int.natCast_nonneg _), ?_, Or.inl h.canonical.1, hss⟩
      rw [h.mag_eq, Int.natAbs_natCast]
  | false =>
    simp only [Bool.false_eq_true, if_false]
    split
    · rename_i hgt
      have hsum : g.toNat + (q.limbs shift).toNat < 2 ^ w := by
        have h₁ := BitVec.lt_def.mp hgt
        rw [BitVec.toNat_sub_of_le (by rw [BitVec.le_def, BitVec.toNat_allOnes]; omega),
          BitVec.toNat_allOnes] at h₁
        omega
      have hv : (q.limbs shift + g).toNat = (q.limbs shift).toNat + g.toNat := by
        rw [BitVec.toNat_add, Nat.mod_eq_of_lt (by omega)]
      have hg₀ : g.toNat ≠ 0 := fun e => hg (toNat_eq_zero.mp e)
      refine ⟨hq, ?_, ?_, ht⟩
      · have e := natOf_update_of_lt q.limbs hshift (q.limbs shift + g)
        rw [hv, Nat.add_mul] at e
        show natOf (update q.limbs shift _) q.size = natOf q.limbs q.size + _
        omega
      · by_cases hqt : q.Trimmed
        · refine Or.inl (hqt.store shift fun e => ?_)
          rw [e, toNat_eq_zero.mpr rfl] at hv
          omega
        · exact Or.inr ⟨hqt, rfl⟩
    · have e : evalAdd q .result (.object (shiftedGuess t g shift)) =
          addUnsigned q .result (.object (shiftedGuess t g shift)) := by
        refine if_neg fun hne => hne ?_
        exact hq.trans hss.symm
      have hfit : q.mag + (shiftedGuess t g shift).mag < (2 ^ w) ^ maxLimbs w := by
        have hB : 2 ≤ 2 ^ w := by
          have : g.toNat ≠ 0 := fun e => hg (toNat_eq_zero.mp e)
          omega
        have h₁ : (shiftedGuess t g shift).mag < (2 ^ w) ^ q.size :=
          (shiftedGuess t g shift).mag_lt.trans_le
            (Nat.pow_le_pow_right (Nat.two_pow_pos w) (by omega))
        have h₂ := q.mag_lt
        calc q.mag + (shiftedGuess t g shift).mag < 2 * (2 ^ w) ^ q.size := by omega
          _ ≤ (2 ^ w) ^ (q.size + 1) := by
            rw [pow_succ']
            exact Nat.mul_le_mul_right _ hB
          _ ≤ (2 ^ w) ^ maxLimbs w := Nat.pow_le_pow_right (Nat.two_pow_pos w) hqm
      have h := addUnsigned_spec q .result (.object (shiftedGuess t g shift))
        (show 0 < q.size by omega) hsg.canonical.1.1 hqm.le
        (show (shiftedGuess t g shift).size ≤ _ by omega) hfit
      rw [e]
      rw [show (Operand.result.get q) = q from rfl, hq, if_neg Bool.false_ne_true,
        show (Operand.object (shiftedGuess t g shift)).get q = shiftedGuess t g shift from rfl,
        hsg.mag_eq, Int.natAbs_natCast] at h
      refine ⟨h.sign_of_nonneg (Int.natCast_nonneg _), ?_, Or.inl h.canonical.1, hss⟩
      rw [h.mag_eq, Int.natAbs_natCast]

theorem stripSize_eq (p : ℕ → BitVec w) : ∀ n, natOf p n ≠ 0 → stripSize p n = normalizeSize p n
  | 0, h => absurd (natOf_zero p) h
  | 1, h => by
    rw [natOf_one] at h
    exact if_neg fun e => h (toNat_eq_zero.mpr e)
  | n + 2, h => by
    rw [stripSize, normalizeSize]
    split
    · rename_i h₀
      refine stripSize_eq p (n + 1) fun e => h ?_
      rw [natOf_succ, e, h₀, toNat_eq_zero.mpr rfl, Nat.zero_mul]
    · rfl

/-- Operands of one sign are subtracted as magnitudes. -/
theorem evalSubtract_of_sign {r t : CppInt w} (h : r.sign = t.sign) :
    evalSubtract r .result (.object t) = subtractUnsigned r .result (.object t) :=
  if_neg fun hne => hne h

/-- **The remainder after a guess**: the smaller of the two is taken off the larger. -/
theorem remainder_spec {r t : CppInt w} (hr : r.Trimmed) (hrs : r.sign = false) (ht : t.Trimmed)
    (hts : t.sign = false) (hrm : r.size ≤ maxLimbs w) (htm : t.size ≤ maxLimbs w) :
    (0 < compare r t ↔ t.mag < r.mag) ∧
    (if t.mag < r.mag then evalSubtract r .result (.object t)
      else evalSubtract t .result (.object r)).Represents
      (if t.mag < r.mag then r.mag - t.mag else t.mag - r.mag : ℕ) := by
  have hR := hr.represents hrs
  have hT := ht.represents hts
  constructor
  · rw [compare_spec hR.canonical hT.canonical, Int.sign_pos_iff, hR.toInt_eq, hT.toInt_eq]
    omega
  · split
    · rename_i hlt
      have h := subtractUnsigned_spec r .result (.object t) hr ht hrm htm
      rw [show Operand.result.get r = r from rfl, show (Operand.object t).get r = t from rfl, hrs,
        if_neg Bool.false_ne_true, ← Nat.cast_sub hlt.le] at h
      rwa [evalSubtract_of_sign (hrs.trans hts.symm)]
    · rename_i hge
      have h := subtractUnsigned_spec t .result (.object r) ht hr htm hrm
      rw [show Operand.result.get t = t from rfl, show (Operand.object r).get t = r from rfl, hts,
        if_neg Bool.false_ne_true, ← Nat.cast_sub (Nat.le_of_not_lt hge)] at h
      rwa [evalSubtract_of_sign (hts.trans hrs.symm)]

/-- The remainder when `t` lost its top limb. -/
theorem remainder_of_size {r t : CppInt w} (hr : r.Trimmed) (hrs : r.sign = false) (ht : 0 < t.size)
    (hts : t.sign = false) (hsize : t.size < r.size) (hrm : r.size ≤ maxLimbs w) :
    0 < compare r t ∧ t.mag < r.mag ∧
      (evalSubtract r .result (.object t)).Represents (r.mag - t.mag : ℕ) := by
  have hlt : t.mag < r.mag :=
    calc t.mag < (2 ^ w) ^ t.size := t.mag_lt
      _ ≤ (2 ^ w) ^ (r.size - 1) := Nat.pow_le_pow_right (Nat.two_pow_pos w) (by omega)
      _ ≤ r.mag := hr.pow_le (by omega)
  refine ⟨?_, hlt, ?_⟩
  · rw [compare, if_neg fun hne => hne (hrs.trans hts.symm), hrs, if_neg Bool.false_ne_true,
      compareUnsigned, if_pos (by omega), if_pos hsize]
    decide
  · have h := subtractUnsigned_of_size (r := r) (a := .result) (b := .object t) hr ht hsize hrm
    rw [show Operand.result.get r = r from rfl, show (Operand.object t).get r = t from rfl, hrs,
      if_neg Bool.false_ne_true, ← Nat.cast_sub hlt.le] at h
    rwa [evalSubtract_of_sign (hrs.trans hts.symm)]

/-! ### The loop -/

/-- What holds before a pass, for a dividend `X` of `n` limbs: the quotient found so far is `Q`. -/
structure DivideState.Inv (X n : ℕ) (y : CppInt w) (s : DivideState w) (Q : ℕ) : Prop where
  rTrimmed : s.r.Trimmed
  rSign : s.r.sign = false
  tSign : s.t.sign = false
  order : s.r.size = s.rOrder + 1
  order_lt : s.rOrder < n
  splits : Splits X y.mag Q s.r.mag s.rNeg
  /-- The next shift is at most this exponent. -/
  dvd : (2 ^ w) ^ (s.rOrder - (y.size - 1)) ∣ Q
  /-- `Q` does not exceed the dividend divided by the leading power of `y`. -/
  under : Q * (2 ^ w) ^ (y.size - 1) ≤ X
  start : Q = 0 ∧ s.rNeg = false ∧ s.r.size = n ∨ 0 < Q ∧ s.r.mag ≤ X
  quotient : ∀ q, s.result = some q → q.sign = false ∧ q.mag = Q ∧
    q.size ≤ 1 + (n - 1) - (y.size - 1) ∧
    (Q = 0 → s.firstPass = true ∧ q.size = 1 + (n - 1) - (y.size - 1)) ∧
    (0 < Q → s.firstPass = false ∧ q.Trimmed)

/-- The multiple of a pass has room for its carry: the remainder is shorter than the largest object,
or its leading limb is below that of the divisor and the position goes down. -/
def DivideState.Room (y : CppInt w) (s : DivideState w) : Prop :=
  s.rOrder + 2 ≤ maxLimbs w ∨ s.r.limbs s.rOrder < y.limbs (y.size - 1)

variable {X n Q : ℕ} {y : CppInt w} {s s' : DivideState w}

theorem DivideState.Inv.r_le (h : s.Inv X n y Q) : s.r.mag ≤ X := by
  rcases h.start with ⟨h₀, hn, -⟩ | ⟨-, hle⟩
  · have := h.splits
    rw [Splits, h₀, hn] at this
    simp at this
    omega
  · exact hle

/-- The quotient limb a guess goes to is below the size. -/
theorem DivideState.Inv.shift_lt (h : s.Inv X n y Q) (hord : y.size - 1 ≤ s.rOrder) {q : CppInt w}
    (hq : s.result = some q) {shift : ℕ} (hshift : shift ≤ s.rOrder - (y.size - 1)) :
    shift < q.size := by
  obtain ⟨-, hm, -, h₀, h₁⟩ := h.quotient q hq
  rcases h.start with ⟨hz, -, hsz⟩ | ⟨hpos, -⟩
  · have := h.order
    rw [(h₀ hz).2]
    omega
  · -- a positive multiple of the power is no smaller
    have hle := Nat.le_of_dvd hpos h.dvd
    by_contra hge
    have h₃ := q.mag_lt
    have h₄ : (2 ^ w) ^ q.size ≤ (2 ^ w) ^ (s.rOrder - (y.size - 1)) :=
      Nat.pow_le_pow_right (Nat.two_pow_pos w) (by omega)
    omega

/-- The quotient a pass leaves in `result`, and `t` after it. -/
theorem divideStep_quotient (h : s.Inv X n y Q) (hy : 1 < y.size) (hn : n ≤ maxLimbs w)
    (hord : y.size - 1 ≤ s.rOrder) {g : BitVec w} (hg : g ≠ 0) {shift : ℕ}
    (hshift : shift ≤ s.rOrder - (y.size - 1))
    (hneg : s.rNeg = true → g.toNat * (2 ^ w) ^ shift < Q) {Q' : ℕ}
    (hQ' : Q' = if s.rNeg then Q - g.toNat * (2 ^ w) ^ shift else Q + g.toNat * (2 ^ w) ^ shift)
    (hpos : 0 < Q') :
    (((s.result.map fun q => updateResult q s.t s.rNeg g shift).map (·.2)).getD s.t).sign = false ∧
    (Q' * (2 ^ w) ^ (y.size - 1) < (2 ^ w) ^ n →
      (((s.result.map fun q => updateResult q s.t s.rNeg g shift).map (·.1)).all
        fun q => q.size ≤ 1 + (n - 1) - (y.size - 1)) = true) ∧
    ((((s.result.map fun q => updateResult q s.t s.rNeg g shift).map (·.1)).all
        fun q => q.size ≤ 1 + (n - 1) - (y.size - 1)) = true →
      ∀ q, (if s.firstPass then ((s.result.map fun q => updateResult q s.t s.rNeg g shift).map
          (·.1)).map fun q => q.resize (stripSize q.limbs q.size)
        else (s.result.map fun q => updateResult q s.t s.rNeg g shift).map (·.1)) = some q →
      q.sign = false ∧ q.mag = Q' ∧ q.size ≤ 1 + (n - 1) - (y.size - 1) ∧
        s.result.isSome = true ∧ q.Trimmed) := by
  have hon := h.order_lt
  cases hres : s.result with
  | none =>
    refine ⟨h.tSign, fun _ => rfl, fun _ q hq => ?_⟩
    split at hq <;> cases hq
  | some q =>
    obtain ⟨hqs, hqm, hqn, h₀, h₁⟩ := h.quotient q hres
    have hQpos : s.rNeg = true → 0 < Q := fun hn => by
      have := hneg hn
      omega
    obtain ⟨hs', hm', ht', hu'⟩ := updateResult_spec hqs h.tSign s.rNeg hg
      (h.shift_lt hord hres hshift) (by omega)
      fun hn => ⟨(h₁ (hQpos hn)).2, by rw [hqm]; exact hneg hn⟩
    rw [hqm, ← hQ'] at hm'
    simp only [Option.map_some, Option.all_some, Option.getD_some, decide_eq_true_eq]
    set u := updateResult q s.t s.rNeg g shift with hu
    refine ⟨hu', fun hlt => ?_, fun hcap p hp => ?_⟩
    · rcases ht' with ht | ⟨hnt, hsz⟩
      · -- the quotient is below the power that the buffer was made for
        refine ht.size_le (by omega) ?_
        rw [hm']
        refine Nat.lt_of_mul_lt_mul_right (a := (2 ^ w) ^ (y.size - 1)) ?_
        rwa [← pow_add, show 1 + (n - 1) - (y.size - 1) + (y.size - 1) = n by omega]
      · omega
    · cases hf : s.firstPass with
      | true =>
        rw [hf, if_pos rfl, Option.some.injEq] at hp
        rw [stripSize_eq _ _ (by rw [← mag, hm']; omega), resize_of_le (by
          have : normalizeSize u.1.limbs u.1.size ≤ u.1.size := normalize_size_le u.1
          omega)] at hp
        obtain ⟨hnt, hnm⟩ := normalize_spec (x := u.1) (by
          by_contra hz
          have : u.1.mag = 0 := by rw [mag, show u.1.size = 0 by omega, natOf_zero]
          omega)
        rw [← hp]
        exact ⟨hs', hnm.trans hm', (normalize_size_le u.1).trans hcap, rfl, hnt⟩
      | false =>
        rw [hf, if_neg Bool.false_ne_true, Option.some.injEq] at hp
        rw [← hp]
        refine ⟨hs', hm', hcap, rfl, ?_⟩
        rcases ht' with ht | ⟨hnt, -⟩
        · exact ht
        · rcases Nat.eq_zero_or_pos Q with hz | hp
          · rw [(h₀ hz).1] at hf
            cases hf
          · exact absurd (h₁ hp).2 hnt

/-- A pass, once the guess is known. -/
theorem divideStep_eq {yo capacity pos shift : ℕ} {g : BitVec w} (hg : g ≠ 0)
    (hguess : guess s.r.limbs y.limbs s.rOrder yo = (g, pos)) (hshift : pos - yo = shift)
    {u : Option (CppInt w × CppInt w)}
    (hu : u = s.result.map fun q => updateResult q s.t s.rNeg g shift) {t : CppInt w}
    (ht : t = multiplyShift ((u.map (·.2)).getD s.t) y g shift) {larger : Bool}
    (hl : larger = decide (0 < compare s.r t)) {r : CppInt w}
    (hr : r = if larger then evalSubtract s.r .result (.object t)
      else evalSubtract t .result (.object s.r)) :
    divideStep y yo capacity s =
      if (u.map (·.1)).all fun q => q.size ≤ capacity then
        some
          { result := if s.firstPass then (u.map (·.1)).map fun q => q.resize (stripSize q.limbs q.size)
              else u.map (·.1)
            r := r
            t := if larger then t else s.r
            rNeg := if larger then s.rNeg else !s.rNeg
            firstPass := s.firstPass && (u.map (·.1)).isNone
            rOrder := r.size - 1 }
      else none := by
  subst hr hl ht hu hshift
  simp only [divideStep, hguess, guard, if_pos hg, Option.bind_eq_bind, Option.pure_def,
    Option.bind_some]
  split <;> rfl

/-- The invariant after a pass, from what it did to the numbers. -/
theorem DivideState.Inv.next (h : s.Inv X n y Q) (hy : 1 < y.size) {X' Q' R g shift : ℕ}
    (hshift : y.size - 1 + shift ≤ s.rOrder)
    (hQ' : Q' = if s.rNeg then Q - g * (2 ^ w) ^ shift else Q + g * (2 ^ w) ^ shift) (hpos : 0 < Q')
    (hr : s'.r.Represents (R : ℕ)) (hR : R < (2 ^ w) ^ (y.size + shift))
    (hord : s'.rOrder = s'.r.size - 1) (hts : s'.t.sign = false)
    (hsplit : Splits X' y.mag Q' R s'.rNeg) (hunder : Q' * (2 ^ w) ^ (y.size - 1) ≤ X')
    (hle : R ≤ X') (hquot : ∀ q, s'.result = some q → q.sign = false ∧ q.mag = Q' ∧
      q.size ≤ 1 + (n - 1) - (y.size - 1) ∧ s'.firstPass = false ∧ q.Trimmed) :
    s'.Inv X' n y Q' ∧ s'.rOrder < y.size + shift := by
  have hmag : s'.r.mag = R := by rw [hr.mag_eq, Int.natAbs_natCast]
  have hr₀ := hr.canonical.1.1
  have hsz : s'.r.size ≤ y.size + shift := hr.canonical.1.size_le (by omega) (by rwa [hmag])
  have hon := h.order_lt
  refine ⟨⟨hr.canonical.1, hr.sign_of_nonneg (Int.natCast_nonneg _), hts, by omega, by omega,
    by rwa [hmag], ?_, hunder, Or.inr ⟨hpos, by rwa [hmag]⟩, fun q hq => ?_⟩, by omega⟩
  · -- the power that divides `Q` before divides the guess, and the exponent does not go up
    have h₁ : (2 ^ w) ^ (s'.rOrder - (y.size - 1)) ∣ Q :=
      (Nat.pow_dvd_pow _ (by omega)).trans h.dvd
    have h₂ : (2 ^ w) ^ (s'.rOrder - (y.size - 1)) ∣ g * (2 ^ w) ^ shift :=
      Dvd.dvd.mul_left (Nat.pow_dvd_pow _ (by omega)) _
    rw [hQ']
    split
    · exact Nat.dvd_sub h₁ h₂
    · exact Nat.dvd_add h₁ h₂
  · obtain ⟨h₁, h₂, h₃, h₄, h₅⟩ := hquot q hq
    exact ⟨h₁, h₂, h₃, fun e => absurd e hpos.ne', fun _ => ⟨h₄, h₅⟩⟩

/-- The guess of a pass on a remainder that is not below the divisor. -/
theorem DivideState.Inv.exists_guess (h : s.Inv X n y Q) (hy : y.Trimmed) (hy₁ : 1 < y.size)
    (hle : y.mag ≤ s.r.mag) :
    ∃ g pos, guess s.r.limbs y.limbs s.rOrder (y.size - 1) = (g, pos) ∧ g ≠ 0 ∧
      GuessOk (2 ^ w) s.r.mag y.mag s.rOrder (y.size - 1) g.toNat pos ∧
      pos = (if s.r.limbs s.rOrder < y.limbs (y.size - 1) then s.rOrder - 1 else s.rOrder) ∧
      (s.r.limbs s.rOrder = y.limbs (y.size - 1) → g.toNat = 1) := by
  obtain ⟨yo, hyo⟩ : ∃ yo, y.size = yo + 1 := ⟨y.size - 1, by omega⟩
  have hord : yo ≤ s.rOrder := by
    by_contra hlt
    have := mag_lt_of_size hy h.rTrimmed (by rw [h.order]; omega)
    omega
  have hym : y.mag = natOf y.limbs (yo + 1) := by rw [mag, hyo]
  have hrm : s.r.mag = natOf s.r.limbs (s.rOrder + 1) := by rw [mag, h.order]
  obtain ⟨hG, hpos, hone⟩ := guess_spec (p := s.r.limbs) (q := y.limbs) (by omega) hord
    (by
      have := h.rTrimmed.2.resolve_left (by rw [h.order]; omega)
      rwa [h.order, Nat.add_sub_cancel] at this)
    (by
      have := hy.2.resolve_left (by omega)
      rwa [hyo, Nat.add_sub_cancel] at this)
    (by rwa [← hym, ← hrm])
  rw [← hym, ← hrm] at hG
  rw [hyo, Nat.add_sub_cancel]
  generalize guess s.r.limbs y.limbs s.rOrder yo = gp at hG hpos hone ⊢
  obtain ⟨g, pos⟩ := gp
  refine ⟨g, pos, rfl, fun e => ?_, hG, hpos, hone⟩
  have := hG.pos_guess
  rw [e, toNat_eq_zero.mpr rfl] at this
  exact absurd this (Nat.lt_irrefl 0)

/-- **A pass of the loop** on a remainder that is not below the divisor, with room for the carry of
the multiple. -/
theorem divideStep_spec (h : s.Inv X n y Q) (hy : y.Trimmed) (hy₁ : 1 < y.size)
    (hn : n ≤ maxLimbs w) (hroom : s.Room y) (hle : y.mag ≤ s.r.mag) :
    (X < (2 ^ w) ^ n → (divideStep y (y.size - 1) (1 + (n - 1) - (y.size - 1)) s).isSome = true) ∧
    ∀ s', divideStep y (y.size - 1) (1 + (n - 1) - (y.size - 1)) s = some s' →
      s'.r.mag < s.r.mag ∧ s'.result.isSome = s.result.isSome ∧ s'.Room y ∧
      ∃ Q', 0 < Q' ∧ s'.Inv X n y Q' := by
  have hpow := hy.pow_le (by omega)
  have hymag : y.mag ≠ 0 := fun e => by
    rw [e] at hpow
    exact absurd hpow (by simp)
  obtain ⟨g, pos, hguess, hg, hG, hpos, -⟩ := h.exists_guess hy hy₁ hle
  have hon := h.order_lt
  have hro := hG.pos_le
  obtain ⟨shift, rfl⟩ := Nat.exists_eq_add_of_le hG.le_pos
  have hfits : y.size + shift < maxLimbs w := by
    rcases hroom with hlt | htop
    · omega
    · rw [if_pos htop] at hpos
      omega
  obtain ⟨hgpos, -, -, hadd, hmul, htwo, hunderG⟩ := hG
  rw [Nat.add_sub_cancel_left] at hadd hmul htwo
  have hT₀ : 0 < g.toNat * (y.mag * (2 ^ w) ^ shift) :=
    Nat.mul_pos hgpos (Nat.mul_pos (Nat.pos_of_ne_zero hymag) (Nat.pow_pos (Nat.two_pow_pos w)))
  -- the numbers
  obtain ⟨hlt, hneg, hQ₀, hsplit⟩ := h.splits.correct h.r_le hT₀ htwo
  obtain ⟨Q', hQ'⟩ : ∃ Q', Q' = if s.rNeg then Q - g.toNat * (2 ^ w) ^ shift
    else Q + g.toNat * (2 ^ w) ^ shift := ⟨_, rfl⟩
  rw [← hQ'] at hQ₀ hsplit
  have hunder : Q' * (2 ^ w) ^ (y.size - 1) ≤ X := by
    have hu := h.under
    have hsp := h.splits
    rw [hQ']
    cases hn : s.rNeg with
    | true =>
      simp only [if_true]
      exact (Nat.mul_le_mul_right _ (Nat.sub_le _ _)).trans hu
    | false =>
      simp only [Bool.false_eq_true, if_false]
      rw [hn, Splits, if_neg Bool.false_ne_true] at hsp
      have h₁ : Q * (2 ^ w) ^ (y.size - 1) ≤ Q * y.mag := Nat.mul_le_mul_left _ hpow
      have h₂ : X = Q * y.mag + s.r.mag := by exact_mod_cast hsp
      rw [Nat.add_comm (y.size - 1), pow_add, ← Nat.mul_assoc] at hunderG
      rw [Nat.add_mul]
      omega
  -- the objects
  obtain ⟨hts, hcap, hquot⟩ := divideStep_quotient h hy₁ hn (by omega) hg
    (show shift ≤ s.rOrder - (y.size - 1) by omega) hneg hQ' hQ₀
  obtain ⟨htr, htsign, htsize⟩ := multiplyShift_spec hts hy hymag hg hfits
  have hdu : y.size - 1 + shift - (y.size - 1) = shift := Nat.add_sub_cancel_left _ _
  obtain ⟨u, hu⟩ : ∃ u, u = s.result.map fun q => updateResult q s.t s.rNeg g shift := ⟨_, rfl⟩
  obtain ⟨t, ht⟩ : ∃ t, t = multiplyShift ((u.map (·.2)).getD s.t) y g shift := ⟨_, rfl⟩
  obtain ⟨T, hT⟩ : ∃ T, T = g.toNat * (y.mag * (2 ^ w) ^ shift) := ⟨_, rfl⟩
  rw [← hu] at hts hcap hquot htr htsign htsize
  rw [← ht] at htr htsign htsize
  rw [← hT] at hlt hsplit hadd hmul htr
  have htm : t.mag = T := by rw [htr.mag_eq, Int.natAbs_natCast]
  obtain ⟨hcmp, hrem⟩ := remainder_spec h.rTrimmed h.rSign htr.canonical.1 htsign
    (by rw [h.order]; omega) htsize
  rw [htm] at hcmp hrem
  rw [divideStep_eq hg hguess hdu hu ht
    (show decide (T < s.r.mag) = _ by rw [decide_eq_decide.mpr hcmp]) rfl]
  simp only [decide_eq_true_eq]
  refine ⟨fun hX => by rw [if_pos (hcap (hunder.trans_lt hX))]; rfl, fun s' hs' => ?_⟩
  split at hs'
  · rename_i hall
    have hs' := Option.some.inj hs'
    have hR : (if T < s.r.mag then s.r.mag - T else T - s.r.mag) < (2 ^ w) ^ (y.size + shift) := by
      rw [show y.size + shift = y.size - 1 + shift + 1 by omega]
      split <;> omega
    have hr' : s'.r.Represents (if T < s.r.mag then s.r.mag - T else T - s.r.mag : ℕ) := by
      rw [← hs']
      exact hrem
    have hts' : s'.t.sign = false := by
      rw [← hs']
      simp only
      split
      · exact htsign
      · exact h.rSign
    obtain ⟨hinv, hord⟩ := h.next hy₁ hro hQ' hQ₀ hr' hR (by subst hs'; rfl) hts'
      (by rw [← hs']; exact hsplit) hunder (hlt.le.trans h.r_le) fun q hq => by
        rw [← hs'] at hq ⊢
        obtain ⟨h₁, h₂, h₃, h₄, h₅⟩ := hquot hall q hq
        obtain ⟨p, hp⟩ := Option.isSome_iff_exists.mp h₄
        exact ⟨h₁, h₂, h₃, by simp [hu, hp], h₅⟩
    refine ⟨?_, ?_, Or.inl (by omega), Q', hQ₀, hinv⟩
    · rw [hr'.mag_eq, Int.natAbs_natCast]
      exact hlt
    · rw [← hs']
      simp only
      split <;> simp [hu]
  · cases hs'

/-- **A pass without room for the carry**: the quotient moves by the guess, but less than its multiple is
taken off the remainder.  What was lost, `D`, is counted with the dividend. -/
theorem divideStep_clipped (h : s.Inv X n y Q) (hy : y.Trimmed) (hy₁ : 1 < y.size)
    (hn : n = maxLimbs w) (hroom : ¬ s.Room y) (hneg : s.rNeg = false) (hle : y.mag ≤ s.r.mag)
    (hstep : divideStep y (y.size - 1) (1 + (n - 1) - (y.size - 1)) s = some s') :
    s'.rNeg = false ∧ ∃ D Q', 0 < D ∧ 0 < Q' ∧ s'.Inv (X + D) n y Q' := by
  have hpow := hy.pow_le (by omega)
  obtain ⟨g, pos, hguess, hg, hG, hpos, hone⟩ := h.exists_guess hy hy₁ hle
  have hon := h.order_lt
  obtain ⟨hfull, htop⟩ := not_or.mp hroom
  rw [if_neg htop] at hpos
  subst hpos
  obtain ⟨shift, hshift⟩ := Nat.exists_eq_add_of_le hG.le_pos
  obtain ⟨hgpos, -, -, -, hmul, -, -⟩ := hG
  rw [hshift, Nat.add_sub_cancel_left, ← hshift] at hmul
  have hmax : maxLimbs w = s.rOrder + 1 := by omega
  have hsize : s.r.size = maxLimbs w := by rw [h.order, hmax]
  have hsp := h.splits
  rw [hneg, Splits, if_neg Bool.false_ne_true] at hsp
  -- the objects
  have hQ₀ : 0 < Q + g.toNat * (2 ^ w) ^ shift :=
    Nat.add_pos_right _ (Nat.mul_pos hgpos (Nat.pow_pos (Nat.two_pow_pos w)))
  have hQ : Q + g.toNat * (2 ^ w) ^ shift = if s.rNeg then Q - g.toNat * (2 ^ w) ^ shift
      else Q + g.toNat * (2 ^ w) ^ shift := by
    rw [hneg]
    rfl
  obtain ⟨hts, -, hquot⟩ := divideStep_quotient h hy₁ hn.le (by omega) hg
    (show shift ≤ s.rOrder - (y.size - 1) by omega) (by rw [hneg]; exact nofun) hQ hQ₀
  obtain ⟨htsign, htlt, hcases⟩ := multiplyShift_clipped hts hy hy₁ hg
    (show y.size + shift = maxLimbs w by omega)
  obtain ⟨u, hu⟩ : ∃ u, u = s.result.map fun q => updateResult q s.t s.rNeg g shift := ⟨_, rfl⟩
  obtain ⟨t, ht⟩ : ∃ t, t = multiplyShift ((u.map (·.2)).getD s.t) y g shift := ⟨_, rfl⟩
  obtain ⟨T, hT⟩ : ∃ T, T = g.toNat * (y.mag * (2 ^ w) ^ shift) := ⟨_, rfl⟩
  rw [← hu] at hts hquot htsign htlt hcases
  rw [← ht, ← hT] at htlt hcases
  rw [← ht] at htsign
  rw [← hT] at hmul
  have hrem : 0 < compare s.r t ∧ t.mag < s.r.mag ∧
      (evalSubtract s.r .result (.object t)).Represents (s.r.mag - t.mag : ℕ) := by
    rcases hcases with ⟨ht₀, htm⟩ | ⟨hcarry, htr, htm, htsz⟩
    · exact remainder_of_size h.rTrimmed h.rSign ht₀ htsign (by omega) hsize.le
    · -- the leading limb of the remainder is two at least, and the carry is one
      have hne : s.r.limbs s.rOrder ≠ y.limbs (y.size - 1) := fun heq => by
        have := y.mag_lt
        rw [hT, hone heq, Nat.one_mul, hmax, show s.rOrder + 1 = y.size + shift by omega,
          pow_add] at hcarry
        exact absurd hcarry (Nat.not_le.mpr
          (Nat.mul_lt_mul_of_pos_right this (Nat.pow_pos (Nat.two_pow_pos w))))
      have hylt : (y.limbs (y.size - 1)).toNat < (s.r.limbs s.rOrder).toNat := by
        have h₁ : ¬ (s.r.limbs s.rOrder).toNat < (y.limbs (y.size - 1)).toNat := htop
        have h₂ : (s.r.limbs s.rOrder).toNat ≠ (y.limbs (y.size - 1)).toNat :=
          fun e => hne (BitVec.toNat_inj.mp e)
        omega
      have hytop : (y.limbs (y.size - 1)).toNat ≠ 0 :=
        fun e => hy.2.resolve_left (by omega) (toNat_eq_zero.mp e)
      have hr : s.r.mag = natOf s.r.limbs s.rOrder +
          (s.r.limbs s.rOrder).toNat * (2 ^ w) ^ s.rOrder := by rw [mag, h.order, natOf_succ]
      have hrlt := s.r.mag_lt
      rw [hsize] at hrlt
      have hdiv : T / (2 ^ w) ^ maxLimbs w < 2 := by
        refine Nat.div_lt_of_lt_mul ?_
        rw [hmax] at hrlt ⊢
        omega
      have h₁ : (T / (2 ^ w) ^ maxLimbs w + 1) * (2 ^ w) ^ (maxLimbs w - 1) ≤
          2 * (2 ^ w) ^ (maxLimbs w - 1) := Nat.mul_le_mul_right _ hdiv
      have h₂ : 2 * (2 ^ w) ^ s.rOrder ≤ (s.r.limbs s.rOrder).toNat * (2 ^ w) ^ s.rOrder :=
        Nat.mul_le_mul_right _ (by omega)
      rw [show maxLimbs w - 1 = s.rOrder by omega] at h₁ htm
      have hlt : t.mag < s.r.mag := by omega
      obtain ⟨hcmp, hrem⟩ := remainder_spec h.rTrimmed h.rSign htr htsign hsize.le htsz.le
      rw [if_pos hlt, if_pos hlt] at hrem
      exact ⟨hcmp.mpr hlt, hlt, hrem⟩
  obtain ⟨hcmp, hlt, hrem⟩ := hrem
  rw [divideStep_eq hg hguess (by omega) hu ht
    (show true = _ by rw [decide_eq_true hcmp]) rfl] at hstep
  simp only [if_true] at hstep
  split at hstep
  · rename_i hall
    have hs' := Option.some.inj hstep
    have hDX : X + (T - t.mag) = (Q + g.toNat * (2 ^ w) ^ shift) * y.mag + (s.r.mag - t.mag) := by
      have h₁ : X = Q * y.mag + s.r.mag := by exact_mod_cast hsp
      have h₂ : (Q + g.toNat * (2 ^ w) ^ shift) * y.mag = Q * y.mag + T := by
        rw [hT]
        ring
      omega
    have hrlt := s.r.mag_lt
    have hr' : s'.r.Represents (s.r.mag - t.mag : ℕ) := by
      rw [← hs']
      exact hrem
    refine ⟨by rw [← hs']; exact hneg, T - t.mag, _, by omega, hQ₀,
      (h.next hy₁ (show y.size - 1 + shift ≤ s.rOrder by omega) hQ hQ₀ hr' ?_
        (by subst hs'; rfl) (by rw [← hs']; exact htsign) ?_ ?_ (by omega) fun q hq => ?_).1⟩
    · rw [hsize, hmax, show s.rOrder + 1 = y.size + shift by omega] at hrlt
      omega
    · rw [← hs', Splits]
      simp only [hneg, Bool.false_eq_true, if_false]
      exact_mod_cast hDX
    · rw [hDX]
      exact (Nat.mul_le_mul_left _ hpow).trans (Nat.le_add_right _ _)
    · rw [← hs'] at hq ⊢
      obtain ⟨h₁, h₂, h₃, h₄, h₅⟩ := hquot hall q hq
      obtain ⟨p, hp⟩ := Option.isSome_iff_exists.mp h₄
      exact ⟨h₁, h₂, h₃, by simp [hu, hp], h₅⟩
  · cases hstep

/-- **The loop.**  With room for the carries and more fuel than the remainder is large it ends.  However
it ends, the remainder is below the divisor and the numbers add up to the dividend and what was lost
on the way, which is something exactly if there was no room at the start. -/
theorem divideLoop_spec (hy : y.Trimmed) (hy₁ : 1 < y.size) (hn : n ≤ maxLimbs w) :
    ∀ (fuel X : ℕ) (s : DivideState w) (Q : ℕ), s.Inv X n y Q →
      s.Room y ∨ n = maxLimbs w ∧ s.rNeg = false → y.mag ≤ s.r.mag →
      (s.Room y → X < (2 ^ w) ^ n → s.r.mag < fuel →
        (divideLoop y (y.size - 1) (1 + (n - 1) - (y.size - 1)) fuel s).isSome = true) ∧
      ∀ s', divideLoop y (y.size - 1) (1 + (n - 1) - (y.size - 1)) fuel s = some s' →
        ∃ D Q', (s.Room y → D = 0 ∧ s'.result.isSome = s.result.isSome) ∧ (¬ s.Room y → 0 < D) ∧
          0 < Q' ∧ s'.Inv (X + D) n y Q' ∧ s'.r.mag < y.mag
  | 0, _, _, _, _, _, _ => ⟨fun _ _ hf => absurd hf (Nat.not_lt_zero _), nofun⟩
  | fuel + 1, X, s, Q, h, hclip, hle => by
    have hroomy := fun hroom : s.Room y => divideStep_spec h hy hy₁ hn hroom hle
    rw [divideLoop]
    cases hstep : divideStep y (y.size - 1) (1 + (n - 1) - (y.size - 1)) s with
    | none =>
      refine ⟨fun hroom hX _ => ?_, nofun⟩
      have := (hroomy hroom).1 hX
      rw [hstep] at this
      cases this
    | some s₁ =>
      -- the pass, with room or without
      have hpass : ∃ D Q₁, (s.Room y → D = 0 ∧ s₁.Room y ∧ s₁.r.mag < s.r.mag ∧
          s₁.result.isSome = s.result.isSome) ∧ (¬ s.Room y → 0 < D) ∧
          (s₁.Room y ∨ n = maxLimbs w ∧ s₁.rNeg = false) ∧ 0 < Q₁ ∧ s₁.Inv (X + D) n y Q₁ := by
        by_cases hroom : s.Room y
        · obtain ⟨hlt, hsome, hroom₁, Q₁, hQ₁, h₁⟩ := (hroomy hroom).2 s₁ hstep
          exact ⟨0, Q₁, fun _ => ⟨rfl, hroom₁, hlt, hsome⟩, fun hne => absurd hroom hne,
            Or.inl hroom₁, hQ₁, h₁⟩
        · obtain ⟨hmax, hneg⟩ := hclip.resolve_left hroom
          obtain ⟨hneg₁, D, Q₁, hD, hQ₁, h₁⟩ :=
            divideStep_clipped h hy hy₁ hmax hroom hneg hle hstep
          exact ⟨D, Q₁, fun hr => absurd hr hroom, fun _ => hD, Or.inr ⟨hmax, hneg₁⟩, hQ₁, h₁⟩
      obtain ⟨D, Q₁, hroom₁, hD, hclip₁, hQ₁, h₁⟩ := hpass
      simp only [Option.bind_eq_bind, Option.bind_some]
      have hsz := h₁.order
      have hcmp := compareUnsigned_spec h₁.rTrimmed hy
      have hdone : s₁.r.mag < y.mag → ((some s₁ : Option (DivideState w)).isSome = true ∧
          ∀ s', some s₁ = some s' → ∃ D Q', (s.Room y → D = 0 ∧ s'.result.isSome = s.result.isSome) ∧
            (¬ s.Room y → 0 < D) ∧ 0 < Q' ∧ s'.Inv (X + D) n y Q' ∧ s'.r.mag < y.mag) :=
        fun hlt => ⟨rfl, fun s' hs' => by
          obtain rfl := Option.some.inj hs'
          exact ⟨D, Q₁, fun hr => ⟨(hroom₁ hr).1, (hroom₁ hr).2.2.2⟩, hD, hQ₁, h₁, hlt⟩⟩
      split
      · have := hdone (mag_lt_of_size hy h₁.rTrimmed (by omega))
        exact ⟨fun _ _ _ => this.1, this.2⟩
      split
      · rename_i hgo
        have hle' : y.mag ≤ s₁.r.mag := by
          rcases hgo with hgt | hge
          · exact (mag_lt_of_size h₁.rTrimmed hy (by omega)).le
          · rw [hcmp, Int.sign_nonneg_iff] at hge
            omega
        obtain ⟨hsome, hend⟩ := divideLoop_spec hy hy₁ hn fuel _ s₁ Q₁ h₁ hclip₁ hle'
        refine ⟨fun hroom hX hf => ?_, fun s' hs' => ?_⟩
        · obtain ⟨hD₀, hroom₂, hlt, -⟩ := hroom₁ hroom
          exact hsome hroom₂ (by rwa [hD₀]) (by omega)
        · obtain ⟨D', Q', h₂, h₃, hQ', h', hlt⟩ := hend s' hs'
          refine ⟨D + D', Q', fun hroom => ?_, fun hne => ?_, hQ', by rwa [← Nat.add_assoc], hlt⟩
          · obtain ⟨hD₀, hroom₂, -, hres⟩ := hroom₁ hroom
            exact ⟨by rw [hD₀, (h₂ hroom₂).1], (h₂ hroom₂).2.trans hres⟩
          · have := hD hne
            omega
      · rename_i hend
        have := hdone (by
          by_contra hge
          refine hend (Or.inr ?_)
          rw [hcmp, Int.sign_nonneg_iff]
          omega)
        exact ⟨fun _ _ _ => this.1, this.2⟩

theorem Trimmed.evalGetSign_ne_zero {x : CppInt w} (h : x.Trimmed) :
    (evalGetSign x != 0) = decide (x.mag ≠ 0) := by
  have hz := h.mag_eq_zero
  unfold evalGetSign evalIsZero
  by_cases h₀ : x.size = 1 ∧ x.limbs 0 = 0
  · have : x.mag = 0 := hz.mpr h₀
    simp [this, h₀.1, h₀.2]
  · have h₁ : x.mag ≠ 0 := fun e => h₀ (hz.mp e)
    have h₂ : (x.size == 1 && x.limbs 0 == 0) = false := by
      rw [Bool.and_eq_false_iff]
      by_cases h₃ : x.size = 1
      · exact Or.inr (beq_eq_false_iff_ne.mpr fun e => h₀ ⟨h₃, e⟩)
      · exact Or.inl (beq_eq_false_iff_ne.mpr h₃)
    rw [h₂]
    cases x.sign <;> simp [h₁]

/-- **The end**: one too many is taken off the quotient. -/
theorem divideFinish_spec (hw : w < 2 ^ 30) (h : s.Inv X n y Q) (hn : n ≤ maxLimbs w) (hQ : 0 < Q)
    (hlt : s.r.mag < y.mag) (hy : y.Canonical) (hys : y.sign = false) (hym : y.size ≤ maxLimbs w) :
    IsDivision (divideFinish y s) s.result X y.mag := by
  have hon := h.order_lt
  have hsize : s.r.size ≤ maxLimbs w := by
    rw [h.order]
    omega
  have hsp := h.splits
  have hY := hy.1.represents hys
  have hR := h.rTrimmed.represents h.rSign
  unfold divideFinish
  simp only [h.rTrimmed.evalGetSign_ne_zero, hys, Bool.false_eq_true, if_false]
  cases htm : (s.rNeg && decide (s.r.mag ≠ 0)) with
  | true =>
    obtain ⟨hn, hr₀⟩ := Bool.and_eq_true_iff.mp htm
    have hr₀ : s.r.mag ≠ 0 := of_decide_eq_true hr₀
    rw [Splits, hn, if_pos rfl] at hsp
    have hx : X = (Q - 1) * y.mag + (y.mag - s.r.mag) := by
      have : (X : ℤ) = ((Q - 1 : ℕ) : ℤ) * y.mag + ((y.mag - s.r.mag : ℕ) : ℤ) := by
        rw [Nat.cast_sub hlt.le, Nat.cast_sub (Nat.succ_le_of_lt hQ), hsp]
        push_cast
        ring
      exact_mod_cast this
    obtain ⟨hdiv, hmod⟩ := div_mod_of_eq hx (by omega)
    have hrem := subtractUnsigned_spec s.r (.object y) .result hy.1 h.rTrimmed hym hsize
    have e : evalSubtract s.r (.object y) .result = subtractUnsigned s.r (.object y) .result :=
      if_neg fun hne => hne (hys.trans h.rSign.symm)
    rw [show (Operand.object y).get s.r = y from rfl, show Operand.result.get s.r = s.r from rfl,
      hys, if_neg Bool.false_ne_true, ← Nat.cast_sub hlt.le, ← hmod, ← e] at hrem
    have hcmp : compareUnsigned (evalSubtract s.r (.object y) .result) y < 0 := by
      rw [compareUnsigned_spec hrem.canonical.1 hy.1, hrem.mag_eq, Int.natAbs_natCast, hmod,
        Int.sign_eq_neg_one_of_neg (by omega)]
      decide
    simp only [if_true]
    rw [if_pos hcmp]
    refine ⟨_, _, rfl, hrem, by simp, fun q hq => ?_⟩
    obtain ⟨p, hp, rfl⟩ := Option.map_eq_some_iff.mp hq
    obtain ⟨hps, hpm, hpn, -, hpt⟩ := h.quotient p hp
    have hP := (hpt hQ).2.represents hps
    rw [hpm] at hP
    have hfit := hP.fits (by omega)
    have := (evalDecrement_iff (width_pos_of_mag (by rw [hpm]; omega)) hw hP.canonical.1
      (show p.size ≤ maxLimbs w by omega)).mpr (by
        rw [hP.toInt_eq]
        rw [Fits] at hfit ⊢
        omega)
    rw [hP.toInt_eq] at this
    rw [hdiv, Nat.cast_sub (Nat.succ_le_of_lt hQ)]
    exact this
  | false =>
    have hx : X = Q * y.mag + s.r.mag := by
      rw [Splits] at hsp
      cases hn : s.rNeg with
      | false =>
        rw [hn, if_neg Bool.false_ne_true] at hsp
        exact_mod_cast hsp
      | true =>
        rw [hn, Bool.true_and] at htm
        have hr₀ : s.r.mag = 0 := by simpa using of_decide_eq_false htm
        rw [hr₀] at hsp ⊢
        simp only [Nat.cast_zero, neg_zero, ite_self, add_zero] at hsp
        rw [Nat.add_zero]
        exact_mod_cast hsp
    obtain ⟨hdiv, hmod⟩ := div_mod_of_eq hx hlt
    have hcmp : compareUnsigned s.r y < 0 := by
      rw [compareUnsigned_spec h.rTrimmed hy.1, Int.sign_eq_neg_one_of_neg (by omega)]
      decide
    simp only [Bool.false_eq_true, if_false]
    rw [if_pos hcmp]
    refine ⟨_, _, rfl, hmod ▸ hR, rfl, fun q hq => ?_⟩
    obtain ⟨hps, hpm, -, -, hpt⟩ := h.quotient q hq
    have hP := (hpt hQ).2.represents hps
    rwa [hpm, ← hdiv] at hP

/-! ### The routine -/

/-- The divisions that never need a limb more than the largest object has: of a dividend that is shorter,
or whose leading limb is below that of the divisor, and those that are done before the loop. -/
def DivisionFits (x y : CppInt w) : Prop :=
  x.size < maxLimbs w ∨ y.size = 1 ∨ x.limbs (x.size - 1) < y.limbs (y.size - 1) ∨ x.mag < y.mag

theorem setSign_assign {x : CppInt w} (r : CppInt w) (hxs : x.sign = false) :
    (r.assign x).setSign false = r.assign x := by
  rw [CppInt.setSign, assign, hxs]
  rfl

/-- What the routine comes to when it reaches the loop. -/
theorem divideUnsignedHelper_loop (result : Option (CppInt w)) {x y : CppInt w} (r : CppInt w)
    (hx : x.Canonical) (hxs : x.sign = false) (hxm : x.size ≤ maxLimbs w) (hy : y.Canonical)
    (hy₁ : 1 < y.size) (hx₂ : 2 < x.size) (hle : y.mag ≤ x.mag) :
    ∃ s : DivideState w, s.Inv x.mag x.size y 0 ∧ s.rNeg = false ∧ s.r.mag = x.mag ∧
      (s.Room y ↔ x.size < maxLimbs w ∨ x.limbs (x.size - 1) < y.limbs (y.size - 1)) ∧
      s.result.isSome = result.isSome ∧
      ∀ fuel, divideUnsignedHelper fuel result x y r =
        match divideLoop y (y.size - 1) (1 + (x.size - 1) - (y.size - 1)) fuel s with
        | none => .fails
        | some s => divideFinish y s := by
  have hX := hx.1.represents hxs
  have hA := assign_spec r hx
  rw [hX.toInt_eq] at hA
  have hAm : (r.assign x).mag = x.mag := by rw [hA.mag_eq, Int.natAbs_natCast]
  have hord : y.size ≤ x.size := by
    by_contra hgt
    have := mag_lt_of_size hy.1 hx.1 (by omega)
    omega
  have hlate : ¬ (x.size - 1 ≤ y.size - 1 ∧
      (x.size - 1 < y.size - 1 ∨ compareUnsigned (r.assign x) y < 0)) := by
    rw [compareUnsigned_spec hA.canonical.1 hy.1, hAm, Int.sign_neg_iff]
    omega
  refine ⟨⟨(result.map (·.assignLimb 0)).map fun q =>
      (q.resize (1 + (x.size - 1) - (y.size - 1))).setLimbs
        (zeroFill q.limbs 1 (1 + (x.size - 1) - (y.size - 1))),
    r.assign x, zero w, false, true, x.size - 1⟩, ?_, rfl, hAm, ?_, ?_, fun fuel => ?_⟩
  · refine ⟨hA.canonical.1, hxs, rfl, ?_, ?_, ?_, Nat.dvd_zero _, by simp, Or.inl ⟨rfl, rfl, rfl⟩, ?_⟩
    · show x.size = x.size - 1 + 1
      omega
    · show x.size - 1 < x.size
      omega
    · rw [Splits, hAm]
      simp
    · intro q hq
      obtain ⟨p, hp, rfl⟩ := Option.map_eq_some_iff.mp hq
      obtain ⟨p', -, rfl⟩ := Option.map_eq_some_iff.mp hp
      rw [resize_of_le (show 1 + (x.size - 1) - (y.size - 1) ≤ maxLimbs w by omega)]
      refine ⟨rfl, ?_, le_rfl, fun _ => ⟨rfl, rfl⟩, fun h => absurd h (Nat.lt_irrefl 0)⟩
      refine (natOf_congr (q := fun _ => 0) fun i hi => ?_).trans (by simp [natOf, value])
      rw [size_setLimbs, size_setSize] at hi
      show zeroFill (p'.assignLimb 0).limbs 1 _ i = 0
      rw [zeroFill]
      split
      · rfl
      · obtain rfl : i = 0 := by omega
        simp [assignLimb]
  · have htop : (r.assign x).limbs (x.size - 1) = x.limbs (x.size - 1) := if_pos (by omega)
    rw [DivideState.Room]
    simp only [htop]
    refine or_congr_left ?_
    omega
  · simp
  · unfold divideUnsignedHelper
    simp only [setSign_assign r hxs]
    rw [if_neg (show ¬ y.size - 1 = 0 by omega), if_neg (show ¬ (x.size - 1 = 0 ∧ _) by omega),
      if_neg hlate, if_neg (show ¬ x.size - 1 = 0 by omega), if_neg (show ¬ x.size - 1 = 1 by omega)]

/-- **The routine where every multiple fits.** -/
theorem divideUnsignedHelper_spec (hw : w < 2 ^ 30) {fuel : ℕ} (result : Option (CppInt w))
    {x y : CppInt w} (r : CppInt w) (hx : x.Canonical) (hxs : x.sign = false)
    (hxm : x.size ≤ maxLimbs w) (hy : y.Canonical) (hys : y.sign = false) (hym : y.size ≤ maxLimbs w)
    (hy₀ : y.mag ≠ 0) (hfits : DivisionFits x y) (hfuel : x.mag + 2 * x.size ≤ fuel) :
    IsDivision (divideUnsignedHelper fuel result x y r) result x.mag y.mag := by
  have hx₀ := hx.1.1
  have hyp := hy.1.1
  have hX := hx.1.represents hxs
  have hA := assign_spec r hx
  rw [hX.toInt_eq] at hA
  have hAm : (r.assign x).mag = x.mag := by rw [hA.mag_eq, Int.natAbs_natCast]
  by_cases hloop : 1 < y.size ∧ 2 < x.size ∧ y.mag ≤ x.mag
  · obtain ⟨hy₁, hx₂, hle⟩ := hloop
    obtain ⟨s, hinv, -, hrm, hroom, hsome, heq⟩ :=
      divideUnsignedHelper_loop result r hx hxs hxm hy hy₁ hx₂ hle
    have hroom := hroom.mpr (by
      rcases hfits with h | h | h | h
      · exact Or.inl h
      · omega
      · exact Or.inr h
      · omega)
    obtain ⟨hend, hout⟩ := divideLoop_spec hy.1 hy₁ hxm fuel _ s 0 hinv (Or.inl hroom) (by omega)
    obtain ⟨s', hs'⟩ := Option.isSome_iff_exists.mp (hend hroom x.mag_lt (by omega))
    obtain ⟨D, Q', hD, -, hQ', hinv', hlt⟩ := hout s' hs'
    obtain ⟨rfl, hres⟩ := hD hroom
    rw [heq, hs']
    obtain ⟨q', r', hout, hrem, hs, hquot⟩ := divideFinish_spec hw hinv' hxm hQ' hlt hy hys hym
    exact ⟨q', r', hout, hrem, hs.trans (hres.trans hsome), hquot⟩
  unfold divideUnsignedHelper
  simp only
  split
  · rename_i h₁
    have hsz : y.size = 1 := by omega
    have hym : y.mag = (y.limbs 0).toNat := by rw [mag, hsz, natOf_one]
    rw [h₁, hym]
    refine divideLimb_spec result r hx hxm hxs (fun e => hy₀ ?_) (by omega)
    rw [hym, e]
    exact toNat_eq_zero.mpr rfl
  have hzero : ∀ q : CppInt w, (q.assignLimb 0).Represents (0 : ℕ) := fun q => by
    have := assignLimb_spec q 0
    rwa [toNat_eq_zero.mpr rfl] at this
  split
  · rename_i hz
    have hxz : x.mag = 0 := hx.1.mag_eq_zero.mpr ⟨by omega, hz.2⟩
    refine isDivision_map ?_ fun q => ?_
    · rwa [Nat.mod_eq_of_lt (by omega)]
    · have := assign_spec q hx
      rwa [hX.toInt_eq, hxz, ← Nat.zero_div y.mag, ← hxz] at this
  rw [setSign_assign r hxs]
  have hcmp := compareUnsigned_spec hA.canonical.1 hy.1
  rw [hAm] at hcmp
  split
  · -- `x < y`
    rename_i hearly
    have hlt : x.mag < y.mag := by
      rcases hearly.2 with h | h
      · exact mag_lt_of_size hy.1 hx.1 (by omega)
      · rw [hcmp, Int.sign_neg_iff] at h
        omega
    refine isDivision_map ?_ fun q => ?_
    · rwa [Nat.mod_eq_of_lt hlt]
    · rw [Nat.div_eq_of_lt hlt]
      exact hzero q
  rename_i hlate
  have hle : y.mag ≤ x.mag := by
    by_contra hgt
    have hsz := hx.1.size_le_of_mag_lt hy.1 (by omega)
    refine hlate ⟨by omega, Or.inr ?_⟩
    rw [hcmp, Int.sign_neg_iff]
    omega
  have hsz : y.size ≤ x.size := by
    by_contra hgt
    exact hlate ⟨by omega, Or.inl (by omega)⟩
  -- two limbs by two
  have two : ∀ {z : CppInt w}, z.size = 2 → z.mag = twoLimbs (z.limbs 1) (z.limbs 0) := fun h => by
    rw [mag, h, natOf_succ, natOf_one, pow_one, twoLimbs, Nat.add_comm]
  have hxlt : x.mag < 2 ^ w * 2 ^ w := by
    have := x.mag_lt
    rwa [show x.size = 2 by omega, pow_two] at this
  rw [if_neg (show ¬ x.size - 1 = 0 by omega), if_pos (show x.size - 1 = 1 by omega),
    ← two (show x.size = 2 by omega), ← two (show y.size = 2 by omega), Option.map_map]
  exact isDivision_map (assignDouble_spec _ ((Nat.mod_le _ _).trans_lt hxlt))
    fun q => assignDouble_spec _ ((Nat.div_le_self _ _).trans_lt hxlt)

/-- **The routine where a multiple does not fit**: if it returns at all, its quotient and remainder are those
of a larger number. -/
theorem divideUnsignedHelper_clipped (hw : w < 2 ^ 30) (fuel : ℕ) (result : Option (CppInt w))
    {x y : CppInt w} (r : CppInt w) (hx : x.Canonical) (hxs : x.sign = false)
    (hxm : x.size ≤ maxLimbs w) (hy : y.Canonical) (hys : y.sign = false) (hym : y.size ≤ maxLimbs w)
    (hfits : ¬ DivisionFits x y) :
    divideUnsignedHelper fuel result x y r = .fails ∨
      ∃ D result', 0 < D ∧
        IsDivision (divideUnsignedHelper fuel result x y r) result' (x.mag + D) y.mag := by
  obtain ⟨hmax, hy₁, htop, hle⟩ : ¬ x.size < maxLimbs w ∧ y.size ≠ 1 ∧
      ¬ x.limbs (x.size - 1) < y.limbs (y.size - 1) ∧ ¬ x.mag < y.mag := by
    simpa only [DivisionFits, not_or] using hfits
  have hyp := hy.1.1
  have hw₀ := hy.1.width_pos hy₁
  have hfour := four_le_maxLimbs hw₀ hw
  obtain ⟨s, hinv, hneg, hrm, hroom, -, heq⟩ :=
    divideUnsignedHelper_loop result r hx hxs hxm hy (by omega) (by omega) (by omega)
  have hroom : ¬ s.Room y := fun h => (hroom.mp h).elim hmax htop
  rw [heq]
  cases hs' : divideLoop y (y.size - 1) (1 + (x.size - 1) - (y.size - 1)) fuel s with
  | none => exact Or.inl rfl
  | some s' =>
    obtain ⟨D, Q', -, hD, hQ', hinv', hlt⟩ := (divideLoop_spec hy.1 (by omega) hxm fuel _ s 0 hinv
      (Or.inr ⟨by omega, hneg⟩) (by omega)).2 s' hs'
    exact Or.inr ⟨D, s'.result, hD hroom, divideFinish_spec hw hinv' hxm hQ' hlt hy hys hym⟩

/-- **Long division**, for magnitudes `x` and `y` of at most `max_limbs` limbs.  If `y` is not zero, then the
call returns, with enough fuel, canonical `q` and `r` with `x = q · y + r` and `0 ≤ r < y`, and the call
with a null `result` the same remainder, exactly when no multiple of `y` that it makes needs a limb
more than the largest object has.  If `y` is zero either call throws, with the objects as they
were. -/
theorem divideUnsignedHelper_iff (hw : w < 2 ^ 30) (x y q₀ r₀ : CppInt w) (hx : x.Canonical)
    (hxs : x.sign = false) (hxm : x.size ≤ maxLimbs w) (hy : y.Canonical) (hys : y.sign = false)
    (hym : y.size ≤ maxLimbs w) :
    (y.toInt ≠ 0 → ((∃ N, ∀ fuel ≥ N, ∃ q r r' : CppInt w,
      divideUnsignedHelper fuel (some q₀) x y r₀ = .returns (some q) r ∧
      divideUnsignedHelper fuel none x y r₀ = .returns none r' ∧
      q.Canonical ∧ r.Canonical ∧ x.toInt = q.toInt * y.toInt + r.toInt ∧
      0 ≤ r.toInt ∧ r.toInt < y.toInt ∧ r'.Represents r.toInt) ↔ DivisionFits x y)) ∧
    (y.toInt = 0 → ∀ fuel result, divideUnsignedHelper fuel result x y r₀ =
      .throws "Integer Division by zero." result r₀) := by
  have hX := (hx.1.represents hxs).toInt_eq
  have hY := (hy.1.represents hys).toInt_eq
  constructor
  · intro hne
    have hy₀ : y.mag ≠ 0 := fun e => hne (by rw [hY, e]; rfl)
    constructor
    · rintro ⟨N, hN⟩
      by_contra hfits
      obtain ⟨q, r, -, hout, -, -, -, hsum, -⟩ := hN N le_rfl
      rcases divideUnsignedHelper_clipped hw N (some q₀) r₀ hx hxs hxm hy hys hym hfits with
        hf | ⟨D, res, hD, q', r', hout', hr', -, hq'⟩
      · rw [hf] at hout
        cases hout
      · -- quotient and remainder of `x + D`
        obtain ⟨hq, rfl⟩ : some q = q' ∧ r = r' := by
          rw [hout] at hout'
          injection hout' with h₁ h₂
          exact ⟨h₁, h₂⟩
        rw [hX, hY, (hq' q hq.symm).toInt_eq, hr'.toInt_eq] at hsum
        have h₁ := Nat.div_add_mod' (x.mag + D) y.mag
        have h₂ : x.mag = (x.mag + D) / y.mag * y.mag + (x.mag + D) % y.mag := by exact_mod_cast hsum
        omega
    · refine fun hfits => ⟨x.mag + 2 * x.size, fun fuel hfuel => ?_⟩
      obtain ⟨res, r, hout, hr, hsome, hq⟩ :=
        divideUnsignedHelper_spec hw (some q₀) r₀ hx hxs hxm hy hys hym hy₀ hfits hfuel
      obtain ⟨res', r', hout', hr', hnone, -⟩ :=
        divideUnsignedHelper_spec hw none r₀ hx hxs hxm hy hys hym hy₀ hfits hfuel
      obtain ⟨q, rfl⟩ := Option.isSome_iff_exists.mp hsome
      obtain rfl : res' = none := by simpa using hnone
      have hq := hq q rfl
      refine ⟨q, r, r', hout, hout', hq.canonical, hr.canonical, ?_, ?_, ?_, ?_⟩
      · rw [hX, hY, hq.toInt_eq, hr.toInt_eq]
        exact_mod_cast (Nat.div_add_mod' x.mag y.mag).symm
      · rw [hr.toInt_eq]
        exact Int.natCast_nonneg _
      · rw [hr.toInt_eq, hY]
        exact_mod_cast Nat.mod_lt _ (Nat.pos_of_ne_zero hy₀)
      · rwa [hr.toInt_eq]
  · intro hz fuel result
    have hm : y.mag = 0 := by
      rw [hY] at hz
      exact_mod_cast hz
    obtain ⟨h₁, h₀⟩ := hy.1.mag_eq_zero.mp hm
    unfold divideUnsignedHelper divideLimb
    simp only [h₁, Nat.sub_self, h₀, if_true]

/-- `0x563412 / 0x304` with limbs of eight bits, three by two, through the loop. -/
theorem divideUnsignedHelper_iff_three_limbs :
    ∃ N, ∀ fuel ≥ N, ∃ q r r' : CppInt 8,
      divideUnsignedHelper fuel (some (zero 8))
        ⟨fun i => if i = 0 then 0x12 else if i = 1 then 0x34 else 0x56, 3, false⟩
        ⟨fun i => if i = 0 then 4 else 3, 2, false⟩ (zero 8) = .returns (some q) r ∧
      divideUnsignedHelper fuel none
        ⟨fun i => if i = 0 then 0x12 else if i = 1 then 0x34 else 0x56, 3, false⟩
        ⟨fun i => if i = 0 then 4 else 3, 2, false⟩ (zero 8) = .returns none r' ∧
      q.Canonical ∧ r.Canonical ∧ 0x563412 = q.toInt * 0x304 + r.toInt ∧
      0 ≤ r.toInt ∧ r.toInt < 0x304 ∧ r'.Represents r.toInt :=
  ((divideUnsignedHelper_iff (w := 8) (by decide)
    ⟨fun i => if i = 0 then 0x12 else if i = 1 then 0x34 else 0x56, 3, false⟩
    ⟨fun i => if i = 0 then 4 else 3, 2, false⟩ (zero 8) (zero 8) (by decide) rfl (by decide)
    (by decide) rfl (by decide)).1 (by decide)).mpr (Or.inl (by decide))

theorem mag_le_largest (hw : 0 < w) {y : CppInt w} (h : y.size ≤ maxLimbs w) :
    y.mag ≤ (largest w).mag := by
  have h₁ := (largest_spec hw).2.2
  have h₂ := mag_lt_max h
  omega

/-- `2 ^ (2 ^ 32) - 1` of 64-bit limbs divided by `2 ^ 64`: the first multiple loses its only limb that is
not zero, and nothing is taken off the remainder. -/
theorem divideUnsignedHelper_clips :
    ¬ ∃ N, ∀ fuel ≥ N, ∃ q r r' : CppInt 64,
      divideUnsignedHelper fuel (some (zero 64)) (largest 64)
        ⟨fun i => if i = 0 then 0 else 1, 2, false⟩ (zero 64) = .returns (some q) r ∧
      divideUnsignedHelper fuel none (largest 64)
        ⟨fun i => if i = 0 then 0 else 1, 2, false⟩ (zero 64) = .returns none r' ∧
      q.Canonical ∧ r.Canonical ∧ (largest 64).toInt = q.toInt * 2 ^ 64 + r.toInt ∧
      0 ≤ r.toInt ∧ r.toInt < 2 ^ 64 ∧ r'.Represents r.toInt := by
  obtain ⟨hcan, hsize, -⟩ := largest_spec (w := 64) (by decide)
  have hym : 2 ≤ maxLimbs 64 := by decide
  have h := (divideUnsignedHelper_iff (w := 64) (by decide) (largest 64)
    ⟨fun i => if i = 0 then 0 else 1, 2, false⟩ (zero 64) (zero 64) hcan rfl hsize (by decide) rfl
    hym).1 (by decide)
  rw [show (⟨fun i => if i = 0 then 0 else 1, 2, false⟩ : CppInt 64).toInt = 2 ^ 64 by decide] at h
  refine fun hyes => ?_
  rcases h.mp hyes with h | h | h | h
  · exact absurd h (Nat.lt_irrefl _)
  · exact absurd h (by decide)
  · exact absurd h (show ¬ BitVec.allOnes 64 < 1 by decide)
  · exact absurd h (Nat.not_lt.mpr (mag_le_largest (by decide) hym))

end SourceLibs.CppInt
