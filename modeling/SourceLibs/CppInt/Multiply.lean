import SourceLibs.CppInt.Add

/-!
# CppInt — multiplication

`eval_multiply` of two objects is the schoolbook loop: row `i` adds `pa[i] · b` at position `i` and
stores the carry it ends with one position above, where the next row reads it.  A limb operand is a
single row, two double limbs are four partial products written out.

The assertions of the source are modelled, and so is the range of `double_limb_type`: an operation
answers `none` when an assertion fails **or** when an accumulation leaves that range (`checked`),
which in the source would wrap silently, and when a row stores its carry behind the buffer.  The
results below say `some`, so none of these happens.

* `evalMultiply_spec`, `evalMultiplyLimb_spec`, `evalMultiplyDouble_spec`: the exact product.
* `evalMultiplySigned_spec`: with signed double limbs the sign is set while the result still has
  four limbs, where `sign(true)` does not recognise zero; the product is exact, and canonical
  unless it is zero with exactly one negative operand.
-/

namespace SourceLibs.CppInt
open Function Radix

variable {w : ℕ}

/-- The value of a sum or product of double limbs, unless it does not fit. -/
def checked (w n : ℕ) : Option ℕ := if n < 2 ^ (2 * w) then some n else none

theorem checked_eq {n : ℕ} (h : n < 2 ^ w * 2 ^ w) : checked w n = some n := by
  rw [checked, two_mul, pow_add, if_pos h]

/-! ### By a limb -/

/-- One step of the loop of `eval_multiply(result, a, val)`. -/
def multiplyLimbs (pa : Operand w) (val : BitVec w) :
    ℕ → ℕ → (ℕ → BitVec w) × ℕ → Option ((ℕ → BitVec w) × ℕ)
  | 0, _, s => some s
  | k + 1, i, (p, carry) => do
    let carry ← checked w (carry + (pa.limb i (p i)).toNat * val.toNat)
    multiplyLimbs pa val k (i + 1) (update p i (BitVec.ofNat w carry), carry / 2 ^ w)

/-- `eval_multiply(result, a, val)` with a limb. -/
def evalMultiplyLimb (result : CppInt w) (a : Operand w) (val : BitVec w) : Option (CppInt w) :=
  if val = 0 then some (result.assignLimb 0)
  else do
    let result := result.resize (a.get result).size
    let s ← multiplyLimbs a val result.size 0 (result.limbs, 0)
    let result := appendCarry (result.setLimbs s.1) result.size s.2
    some (result.setSign (a.get result).sign)

/-! ### Two objects -/

/-- The inner loop: row `i`, from column `j` on, over the limbs of `b`. -/
def multiplyRow (pai : BitVec w) (pb : ℕ → BitVec w) (i size : ℕ) :
    ℕ → ℕ → (ℕ → BitVec w) × ℕ → Option ((ℕ → BitVec w) × ℕ)
  | 0, _, s => some s
  | k + 1, j, (pr, carry) => do
    guard (i + j < size)
    guard ((2 ^ w - 1) * (2 ^ w - 1) < 2 ^ (2 * w) - 1 - carry)
    let carry ← checked w (carry + pai.toNat * (pb j).toNat)
    guard ((pr (i + j)).toNat ≤ 2 ^ (2 * w) - 1 - carry)
    let carry ← checked w (carry + (pr (i + j)).toNat)
    let pr := update pr (i + j) (BitVec.ofNat w carry)
    let carry := carry / 2 ^ w
    guard (carry ≤ 2 ^ w - 1)
    multiplyRow pai pb i size k (j + 1) (pr, carry)

/-- The outer loop, from row `i` on.  Where `resize` was clipped a carry is stored outside of the
buffer. -/
def multiplyRows (pa pb : ℕ → BitVec w) (bs size : ℕ) :
    ℕ → ℕ → (ℕ → BitVec w) → Option (ℕ → BitVec w)
  | 0, _, pr => some pr
  | k + 1, i, pr => do
    let s ← multiplyRow (pa i) pb i size bs 0 (pr, 0)
    guard (i + bs < size)
    multiplyRows pa pb bs size k (i + 1) (update s.1 (i + bs) (BitVec.ofNat w s.2))

/-- `memset(p, 0, n * sizeof(limb_type))`. -/
def memset (p : ℕ → BitVec w) (n : ℕ) : ℕ → BitVec w := zeroFill p 0 n

theorem natOf_memset (p : ℕ → BitVec w) {m n : ℕ} (h : m ≤ n) : natOf (memset p n) m = 0 := by
  refine (natOf_congr (q := fun _ => 0) fun i hi =>
    if_pos ⟨Nat.zero_le i, hi.trans_le h⟩).trans ?_
  simp [natOf, value]

/-- `eval_multiply(result, a, b)`.  Past the single limbs an operand that is `result` is copied
first, so both are read as they were. -/
def evalMultiply (result : CppInt w) (a b : Operand w) : Option (CppInt w) :=
  let as := (a.get result).size
  let bs := (b.get result).size
  let s := (b.get result).sign != (a.get result).sign
  if as = 1 then do
    let r ←
      if bs = 1 then do
        let n ← checked w (((a.get result).limbs 0).toNat * ((b.get result).limbs 0).toNat)
        some (result.assignDouble n)
      else evalMultiplyLimb result b ((a.get result).limbs 0)
    some (r.setSign s)
  else if bs = 1 then do
    let r ← evalMultiplyLimb result a ((b.get result).limbs 0)
    some (r.setSign s)
  else do
    let ta := a.get result
    let tb := b.get result
    let result := result.resize (as + bs)
    let pr ← multiplyRows ta.limbs tb.limbs bs result.size as 0 (memset result.limbs result.size)
    some ((result.setLimbs pr).normalize.setSign (ta.sign != tb.sign))

/-! ### Two double limbs -/

/-- `eval_multiply(result, a, b)` with double limbs. -/
def evalMultiplyDouble (result : CppInt w) (a b : BitVec (2 * w)) : Option (CppInt w) := do
  let mask := BitVec.ofNat (2 * w) (2 ^ w - 1)
  let v := (a &&& mask).toNat
  let x := (a >>> w).toNat
  let y := (b &&& mask).toNat
  let z := (b >>> w).toNat
  let result := result.resize 4
  let carry ← checked w (v * y)
  let result := result.store 0 (BitVec.ofNat w carry)
  let carry ← checked w (carry / 2 ^ w + v * z)
  let result := result.store 1 (BitVec.ofNat w carry)
  let result := result.store 2 (BitVec.ofNat w (carry / 2 ^ w))
  let carry ← checked w (x * y + (result.limbs 1).toNat)
  let result := result.store 1 (BitVec.ofNat w carry)
  let carry ← checked w (carry / 2 ^ w + ((result.limbs 2).toNat + x * z))
  let result := result.store 2 (BitVec.ofNat w carry)
  let result := result.store 3 (BitVec.ofNat w (carry / 2 ^ w))
  some (result.setSign false).normalize

/-- `eval_multiply(result, a, b)` with signed double limbs. -/
def evalMultiplySigned (result : CppInt w) (a b : BitVec (2 * w)) : Option (CppInt w) := do
  let mask := BitVec.ofNat (2 * w) (2 ^ w - 1)
  let s := decide (a.toInt < 0)
  let a := if a.toInt < 0 then -a else a
  let s := if b.toInt < 0 then !s else s
  let b := if b.toInt < 0 then -b else b
  let v := (a &&& mask).toNat
  let x := (a.sshiftRight w).toNat
  let y := (b &&& mask).toNat
  let z := (b.sshiftRight w).toNat
  let result := result.resize 4
  let carry ← checked w (v * y)
  let result := result.store 0 (BitVec.ofNat w carry)
  let carry ← checked w (carry / 2 ^ w + (v * z + x * y))
  let result := result.store 1 (BitVec.ofNat w carry)
  let carry ← checked w (carry / 2 ^ w + x * z)
  let result := result.store 2 (BitVec.ofNat w carry)
  let result := result.store 3 (BitVec.ofNat w (carry / 2 ^ w))
  some (result.setSign s).normalize

/-! ### The products are exact -/

/-- A product of limbs and two more limbs fit a double limb. -/
theorem mul_add_add_lt {a b c d : ℕ} (ha : a < 2 ^ w) (hb : b < 2 ^ w) (hc : c < 2 ^ w)
    (hd : d < 2 ^ w) : c + a * b + d < 2 ^ w * 2 ^ w := by
  have hpos := Nat.two_pow_pos w
  obtain ⟨n, hn⟩ : ∃ n, 2 ^ w = n + 1 := ⟨2 ^ w - 1, by omega⟩
  rw [hn] at ha hb hc hd ⊢
  have : a * b ≤ n * n := Nat.mul_le_mul (by omega) (by omega)
  nlinarith

/-- One step of `multiplyLimbs` without the check. -/
def multiplyLimbStep (pa : Operand w) (val : BitVec w) (carry i : ℕ) (cell : BitVec w) :
    BitVec w × ℕ :=
  let carry := carry + (pa.limb i cell).toNat * val.toNat
  (BitVec.ofNat w carry, carry / 2 ^ w)

/-- One step of row `i` without the checks, at position `l = i + j`. -/
def multiplyStep (pai : BitVec w) (pb : ℕ → BitVec w) (i carry l : ℕ) (cell : BitVec w) :
    BitVec w × ℕ :=
  let carry := carry + pai.toNat * (pb (l - i)).toNat + cell.toNat
  (BitVec.ofNat w carry, carry / 2 ^ w)

theorem multiplyLimbs_eq_pass (pa : Operand w) (val : BitVec w) :
    ∀ (k i : ℕ) (p : ℕ → BitVec w) (c : ℕ), c < 2 ^ w →
      multiplyLimbs pa val k i (p, c) = some (pass (multiplyLimbStep pa val) k i (p, c))
  | 0, _, _, _, _ => rfl
  | k + 1, i, p, c, hc => by
    have hlt := mul_add_add_lt (pa.limb i (p i)).isLt val.isLt hc (Nat.two_pow_pos w)
    rw [multiplyLimbs, checked_eq (by omega)]
    exact multiplyLimbs_eq_pass pa val k (i + 1) _ _ (Nat.div_lt_of_lt_mul (by omega))

theorem multiplyRow_eq_pass (hw : 0 < w) (pai : BitVec w) (pb : ℕ → BitVec w) {i size : ℕ} :
    ∀ (k j : ℕ) (pr : ℕ → BitVec w) (c : ℕ), c < 2 ^ w → i + j + k ≤ size →
      multiplyRow pai pb i size k j (pr, c) =
        some (pass (multiplyStep pai pb i) k (i + j) (pr, c))
  | 0, _, _, _, _, _ => rfl
  | k + 1, j, pr, c, hc, hsize => by
    have hlt := mul_add_add_lt pai.isLt (pb j).isLt hc (pr (i + j)).isLt
    have hdiv : (c + pai.toNat * (pb j).toNat + (pr (i + j)).toNat) / 2 ^ w < 2 ^ w :=
      Nat.div_lt_of_lt_mul hlt
    -- the carry leaves room for any product of two limbs
    have hroom : (2 ^ w - 1) * (2 ^ w - 1) < 2 ^ w * 2 ^ w - 1 - c := by
      have h₂ : 2 ≤ 2 ^ w := Nat.pow_le_pow_right Nat.two_pos hw
      obtain ⟨n, hn⟩ : ∃ n, 2 ^ w = n + 2 := ⟨2 ^ w - 2, by omega⟩
      rw [hn] at hc ⊢
      have : (n + 2) * (n + 2) = (n + 2 - 1) * (n + 2 - 1) + (2 * n + 3) := by
        rw [show n + 2 - 1 = n + 1 by omega]
        ring
      omega
    have e : 2 ^ (2 * w) = 2 ^ w * 2 ^ w := by rw [two_mul, pow_add]
    rw [multiplyRow, e, checked_eq (by omega)]
    simp only [guard, if_pos (show i + j < size by omega), if_pos hroom, Option.bind_eq_bind,
      Option.pure_def, Option.bind_some]
    rw [if_pos (by omega), checked_eq (by omega)]
    simp only [Option.bind_some]
    rw [if_pos (by omega)]
    simp only [Option.bind_some]
    rw [multiplyRow_eq_pass hw pai pb k (j + 1) _ _ hdiv (by omega), ← Nat.add_assoc, pass_succ]
    simp only [multiplyStep, Nat.add_sub_cancel_left]

theorem signed_mul (x : CppInt w) (n : ℕ) :
    (if x.sign then -((x.mag * n : ℕ) : ℤ) else ((x.mag * n : ℕ) : ℤ)) = x.toInt * n := by
  rw [toInt]
  split
  · push_cast
    ring
  · push_cast
    ring

/-- No assertion fails in `eval_multiply` by a limb. -/
theorem evalMultiplyLimb_isSome (r : CppInt w) (a : Operand w) (val : BitVec w) :
    ∃ x, evalMultiplyLimb r a val = some x := by
  unfold evalMultiplyLimb
  split
  · exact ⟨_, rfl⟩
  · simp only
    rw [multiplyLimbs_eq_pass _ _ _ _ _ _ (Nat.two_pow_pos w)]
    exact ⟨_, rfl⟩

/-- **`eval_multiply` by a limb**, exact where the product fits. -/
theorem evalMultiplyLimb_spec (r : CppInt w) (a : Operand w) (val : BitVec w)
    (ha : (a.get r).Canonical) (ham : (a.get r).size ≤ maxLimbs w) :
    ∃ x, evalMultiplyLimb r a val = some x ∧ x.size ≤ maxLimbs w ∧
      (Fits w ((a.get r).toInt * val.toNat) → x.Represents ((a.get r).toInt * val.toNat)) := by
  unfold evalMultiplyLimb
  rw [resize_of_le ham]
  split
  · rename_i h₀
    refine ⟨_, rfl, Nat.min_le_right _ _, fun _ => ?_⟩
    have h := assignLimb_spec r 0
    rw [toNat_eq_zero.mpr rfl] at h
    rw [toNat_eq_zero.mpr h₀]
    simpa using h
  · rename_i h₀
    have hval : val.toNat ≠ 0 := fun e => h₀ (toNat_eq_zero.mp e)
    have hpos := ha.1.1
    simp only [size_setSize, limbs_setSize]
    rw [multiplyLimbs_eq_pass _ _ _ _ _ _ (Nat.two_pow_pos w)]
    refine ⟨_, rfl, size_appendCarry_le (p := (r.setSize (a.get r).size).setLimbs _) ham _ _,
      fun hfit => ?_⟩
    rw [Fits, Int.natAbs_mul, toInt_natAbs, Int.natAbs_natCast] at hfit
    set n := (a.get r).size with hn
    have h := pass_natOf (g := multiplyLimbStep a val) (P := fun c => c < 2 ^ w)
      (κ := fun c => (c : ℤ)) (k := n) (i := 0) (f := r.limbs) (c := 0)
      (ψ := fun j => (((a.get r).limbs j).toNat : ℤ) * val.toNat) (Nat.two_pow_pos w) ?_
    · obtain ⟨hc, hv⟩ := h
      set s := pass (multiplyLimbStep a val) n 0 (r.limbs, 0) with hs
      have hprod : natOf s.1 n + s.2 * (2 ^ w) ^ n = (a.get r).mag * val.toNat := by
        simp only [Nat.zero_add, natOf_zero, pow_zero, value_mul_right, ← cast_value] at hv
        have e : (natOf s.1 n : ℤ) + s.2 * ((2 ^ w : ℕ) : ℤ) ^ n = (a.get r).mag * val.toNat := by
          rw [hv, mag, natOf]
          push_cast
          ring
        exact_mod_cast e
      obtain ⟨hsz, hmag⟩ := appendCarry_spec (p := (r.setSize n).setLimbs s.1) hpos rfl hc
        (by rwa [limbs_setLimbs, hprod])
      rw [limbs_setLimbs, hprod] at hmag
      have ht : (appendCarry ((r.setSize n).setLimbs s.1) n s.2).Trimmed := by
        refine trimmed_of_pow_le hsz ?_
        rw [hmag]
        unfold appendCarry
        split
        · -- the carry is the top limb
          rename_i hc₀
          refine Or.inr ?_
          have : 1 * (2 ^ w) ^ n ≤ s.2 * (2 ^ w) ^ n := Nat.mul_le_mul_right _ (by omega)
          rw [resize_of_le (n := n + 1) (lt_max_of_carry hc₀ (hprod ▸ hfit)), ← hprod]
          simp only [size_store, size_setSize, Nat.add_sub_cancel]
          omega
        · -- as many limbs as `a` has, for a product that is no smaller
          refine (Nat.eq_or_lt_of_le hpos).imp (fun h => h.symm) fun h => ?_
          exact (ha.1.pow_le (by omega)).trans (Nat.le_mul_of_pos_right _ (by omega))
      have := ht.setSign_represents (a.get r).sign
      rw [hmag, signed_mul] at this
      rwa [sign_get_appendCarry (r := r) (p := (r.setSize n).setLimbs s.1) a n s.2 rfl]
    · intro c' j _ _ hc'
      rw [← Operand.limb_eq]
      have hlt := mul_add_add_lt (a.limb j (r.limbs j)).isLt val.isLt hc' (Nat.two_pow_pos w)
      simp only [multiplyLimbStep]
      refine ⟨Nat.div_lt_of_lt_mul (by omega), ?_⟩
      rw [lo_add_hi_int]
      push_cast
      ring

/-- **The rows.**  Before row `i` the limbs below `i + bs` hold the product of the low `i` limbs of
`a` with `b`; what is above has not been read. -/
theorem multiplyRows_spec (hw : 0 < w) (pa pb : ℕ → BitVec w) (bs size : ℕ) :
    ∀ (k i : ℕ) (pr : ℕ → BitVec w), i + k + bs ≤ size →
      natOf pr (i + bs) = natOf pa i * natOf pb bs →
      ∃ pr', multiplyRows pa pb bs size k i pr = some pr' ∧
        natOf pr' (i + k + bs) = natOf pa (i + k) * natOf pb bs
  | 0, i, pr, _, h => ⟨pr, rfl, h⟩
  | k + 1, i, pr, hsize, h => by
    rw [multiplyRows, multiplyRow_eq_pass hw _ _ _ _ _ _ (Nat.two_pow_pos w) (by omega)]
    simp only [guard, if_pos (show i + bs < size by omega), Option.bind_eq_bind, Option.bind_some,
      Option.pure_def]
    have hrow := pass_natOf (g := multiplyStep (pa i) pb i) (P := fun c => c < 2 ^ w)
      (κ := fun c => (c : ℤ)) (k := bs) (i := i) (f := pr) (c := 0)
      (ψ := fun l => ((pa i).toNat : ℤ) * (pb (l - i)).toNat + (pr l).toNat)
      (Nat.two_pow_pos w) ?_
    · obtain ⟨hc, hv⟩ := hrow
      rw [Nat.add_zero]
      set s := pass (multiplyStep (pa i) pb i) bs i (pr, 0) with hs
      simp only [Nat.add_sub_cancel_left, value_add, value_mul_left, ← cast_value] at hv
      have hnext : natOf (update s.1 (i + bs) (BitVec.ofNat w s.2)) (i + 1 + bs) =
          natOf pa (i + 1) * natOf pb bs := by
        rw [Nat.add_right_comm, natOf_succ, natOf_update le_rfl, update_self,
          BitVec.toNat_ofNat, Nat.mod_eq_of_lt hc]
        have e : (natOf s.1 (i + bs) : ℤ) + s.2 * ((2 ^ w : ℕ) : ℤ) ^ (i + bs) =
            natOf pa (i + 1) * natOf pb bs := by
          have h' : (natOf pr (i + bs) : ℤ) = natOf pa i * natOf pb bs := by exact_mod_cast h
          rw [natOf_split, ← cast_value] at h'
          rw [hv, natOf_succ]
          push_cast [natOf] at h' ⊢
          linear_combination h'
        exact_mod_cast e
      obtain ⟨pr', hpr, hm⟩ := multiplyRows_spec hw pa pb bs size k (i + 1) _ (by omega) hnext
      exact ⟨pr', hpr, by rwa [← Nat.add_assoc, Nat.add_right_comm i k 1]⟩
    · intro c' l h₁ h₂ hc'
      have hlt := mul_add_add_lt (pa i).isLt (pb (l - i)).isLt hc' (pr l).isLt
      simp only [multiplyStep]
      refine ⟨Nat.div_lt_of_lt_mul (by omega), ?_⟩
      rw [lo_add_hi_int]
      push_cast
      ring

/-- Rows that come to an end store inside of the buffer. -/
theorem multiplyRows_some {pa pb : ℕ → BitVec w} {bs size : ℕ} : ∀ {k i : ℕ} {pr pr' : ℕ → BitVec w},
    0 < k → multiplyRows pa pb bs size k i pr = some pr' → i + k + bs ≤ size
  | k + 1, i, pr, pr', _, h => by
    simp only [multiplyRows, guard, Option.bind_eq_bind, Option.bind_eq_some_iff] at h
    obtain ⟨s, -, u, hlt, h⟩ := h
    have hlt : i + bs < size := by
      by_contra hnot
      rw [if_neg hnot] at hlt
      cases hlt
    rcases Nat.eq_zero_or_pos k with rfl | hk
    · omega
    · have := multiplyRows_some hk h
      omega

theorem Trimmed.setSign_mul {x p q : CppInt w} (h : x.Trimmed) (hm : x.mag = p.mag * q.mag) :
    (x.setSign (q.sign != p.sign)).Represents (p.toInt * q.toInt) := by
  have hs := h.setSign_represents (q.sign != p.sign)
  rw [hm] at hs
  unfold toInt
  cases hp : p.sign <;> cases hq : q.sign <;> simpa [hp, hq] using hs

/-- What `eval_multiply` of two objects has room for: as many limbs as both have together, or the
product, where one of them is a single limb. -/
def ProductFits (a b : CppInt w) : Prop :=
  if a.size = 1 ∨ b.size = 1 then Fits w (a.toInt * b.toInt) else a.size + b.size ≤ maxLimbs w

/-- **`eval_multiply` of two objects**, whichever of them is `result`. -/
theorem evalMultiply_iff (hw : 0 < w) (hw' : w < 2 ^ 30) (r : CppInt w) (a b : Operand w)
    (ha : (a.get r).Canonical) (hb : (b.get r).Canonical) (ham : (a.get r).size ≤ maxLimbs w)
    (hbm : (b.get r).size ≤ maxLimbs w) :
    (∃ x, evalMultiply r a b = some x ∧ x.Represents ((a.get r).toInt * (b.get r).toInt)) ↔
      ProductFits (a.get r) (b.get r) := by
  have one : ∀ {x : CppInt w}, x.size = 1 → x.mag = (x.limbs 0).toNat := fun h => by
    rw [mag, h, natOf_one]
  -- what a product by a limb, and the sign after it, amount to
  have byLimb : ∀ (x y : CppInt w) {u : BitVec w} {p : CppInt w}, u.toNat = y.mag →
      p.size ≤ maxLimbs w → (Fits w (x.toInt * u.toNat) → p.Represents (x.toInt * u.toNat)) →
      ∀ s, s = (y.sign != x.sign) →
        ((p.setSign s).Represents (x.toInt * y.toInt) ↔ Fits w (x.toInt * y.toInt)) := by
    intro x y u p hu hsize hp s hs
    have hfits : Fits w (x.toInt * y.toInt) ↔ Fits w (x.toInt * u.toNat) := by
      simp only [Fits, Int.natAbs_mul, toInt_natAbs, Int.natAbs_natCast, hu]
    refine ⟨fun h => h.fits hsize, fun h => ?_⟩
    have hr := hp (hfits.mp h)
    rw [hs]
    refine hr.canonical.1.setSign_mul ?_
    rw [hr.mag_eq, Int.natAbs_mul, toInt_natAbs, Int.natAbs_natCast, hu]
  unfold evalMultiply ProductFits
  simp only
  split
  · rename_i has
    rw [if_pos (Or.inl has)]
    split
    · rename_i hbs
      have hlt := mul_add_add_lt ((a.get r).limbs 0).isLt ((b.get r).limbs 0).isLt
        (Nat.two_pow_pos w) (Nat.two_pow_pos w)
      rw [checked_eq (by omega)]
      have hd := assignDouble_spec r (i := ((a.get r).limbs 0).toNat * ((b.get r).limbs 0).toNat)
        (by omega)
      have hp := hd.canonical.1.setSign_mul (p := a.get r) (q := b.get r) (by
        rw [hd.mag_eq, Int.natAbs_natCast, one has, one hbs])
      refine iff_of_true ⟨_, rfl, hp⟩ (hp.fits ?_)
      have hmax := four_le_maxLimbs hw hw'
      show (if _ then 2 else 1) ≤ maxLimbs w
      split <;> omega
    · obtain ⟨x, hx, hsize, hr⟩ := evalMultiplyLimb_spec r b ((a.get r).limbs 0) hb hbm
      rw [hx]
      have h := byLimb (b.get r) (a.get r) (one has).symm hsize hr _ rfl
      rw [mul_comm, bne_comm] at h
      simpa only [Option.bind_eq_bind, Option.bind_some, Option.some.injEq, exists_eq_left'] using h
  split
  · rename_i hbs
    rw [if_pos (Or.inr hbs)]
    obtain ⟨x, hx, hsize, hr⟩ := evalMultiplyLimb_spec r a ((b.get r).limbs 0) ha ham
    rw [hx]
    have h := byLimb (a.get r) (b.get r) (one hbs).symm hsize hr _ rfl
    simpa only [Option.bind_eq_bind, Option.bind_some, Option.some.injEq, exists_eq_left'] using h
  · rename_i has hbs
    rw [if_neg (not_or.mpr ⟨has, hbs⟩)]
    have hpos := ha.1.1
    set as := (a.get r).size with hasz
    set bs := (b.get r).size with hbsz
    constructor
    · rintro ⟨x, hx, -⟩
      simp only [Option.bind_eq_bind, Option.bind_eq_some_iff] at hx
      obtain ⟨pr, hpr, -⟩ := hx
      have hle := multiplyRows_some hpos hpr
      rw [size_resize] at hle
      omega
    · intro hle
      rw [resize_of_le hle]
      obtain ⟨pr, hpr, hm⟩ := multiplyRows_spec hw (a.get r).limbs (b.get r).limbs bs (as + bs) as 0
        (memset r.limbs (as + bs)) (by omega)
        (by rw [natOf_zero, Nat.zero_mul, natOf_memset _ (by omega)])
      simp only [size_setSize, limbs_setSize]
      rw [hpr]
      refine ⟨_, rfl, ?_⟩
      rw [Nat.zero_add] at hm
      have hsz : 0 < ((r.setSize (as + bs)).setLimbs pr).size := Nat.add_pos_left hpos _
      obtain ⟨ht, hmag⟩ := normalize_spec hsz
      rw [bne_comm]
      exact ht.setSign_mul (hmag.trans hm)

theorem mag_four {x : CppInt w} (h : x.size = 4) :
    x.mag = (x.limbs 0).toNat + (x.limbs 1).toNat * 2 ^ w + (x.limbs 2).toNat * (2 ^ w) ^ 2 +
      (x.limbs 3).toNat * (2 ^ w) ^ 3 := by
  rw [mag, h, natOf_succ, natOf_succ, natOf_succ, natOf_one, pow_one]

theorem normalize_four {p : CppInt w} (h : p.size = 4) (s : Bool) :
    (p.setSign s).normalize.Trimmed ∧ (p.setSign s).normalize.mag = p.mag ∧
      (p.setSign s).normalize.sign = s := by
  obtain ⟨ht, hm⟩ := normalize_spec (x := p.setSign s) (by rw [size_setSign, h]; decide)
  refine ⟨ht, hm, ?_⟩
  simp [setSign, h]

theorem toNat_and_mask (a : BitVec (2 * w)) :
    (a &&& BitVec.ofNat (2 * w) (2 ^ w - 1)).toNat = a.toNat % 2 ^ w := by
  have hlt : 2 ^ w - 1 < 2 ^ (2 * w) := by
    have h₁ := Nat.two_pow_pos w
    have h₂ : 2 ^ w ≤ 2 ^ (2 * w) := Nat.pow_le_pow_right Nat.two_pos (by omega)
    omega
  rw [BitVec.toNat_and, BitVec.toNat_ofNat, Nat.mod_eq_of_lt hlt, Nat.and_two_pow_sub_one_eq_mod]

/-- **`eval_multiply` of two double limbs.** -/
theorem evalMultiplyDouble_spec (hmax : 4 ≤ maxLimbs w) (r : CppInt w) (a b : BitVec (2 * w)) :
    ∃ x, evalMultiplyDouble r a b = some x ∧ x.Represents (a.toNat * b.toNat) := by
  have hpos := Nat.two_pow_pos w
  have ha : a.toNat < 2 ^ w * 2 ^ w := by rw [← pow_add, ← two_mul]; exact a.isLt
  have hb : b.toNat < 2 ^ w * 2 ^ w := by rw [← pow_add, ← two_mul]; exact b.isLt
  have hv := Nat.mod_lt a.toNat hpos
  have hy := Nat.mod_lt b.toNat hpos
  have hx : a.toNat / 2 ^ w < 2 ^ w := Nat.div_lt_of_lt_mul ha
  have hz : b.toNat / 2 ^ w < 2 ^ w := Nat.div_lt_of_lt_mul hb
  unfold evalMultiplyDouble
  rw [resize_of_le hmax]
  simp only [toNat_and_mask, BitVec.toNat_ushiftRight, Nat.shiftRight_eq_div_pow]
  have ea := Nat.mod_add_div a.toNat (2 ^ w)
  have eb := Nat.mod_add_div b.toNat (2 ^ w)
  set v := a.toNat % 2 ^ w
  set x := a.toNat / 2 ^ w
  set y := b.toNat % 2 ^ w
  set z := b.toNat / 2 ^ w
  -- the four accumulations, each with its low limb and what is carried on
  have h₀ := mul_add_add_lt hv hy hpos hpos
  have hq₀ : v * y / 2 ^ w < 2 ^ w := Nat.div_lt_of_lt_mul (by omega)
  have e₀ := Nat.mod_add_div (v * y) (2 ^ w)
  have h₁ := mul_add_add_lt hv hz hq₀ hpos
  rw [checked_eq (by omega)]
  simp only [Option.bind_eq_bind, Option.bind_some]
  rw [checked_eq (by omega)]
  simp only [Option.bind_some, limbs_store, update_self, BitVec.toNat_ofNat, ne_eq,
    OfNat.one_ne_ofNat, OfNat.ofNat_ne_one, not_false_eq_true, update_of_ne]
  set c₁ := v * y / 2 ^ w + v * z
  have hm₁ := Nat.mod_lt c₁ hpos
  have hq₁ : c₁ / 2 ^ w < 2 ^ w := Nat.div_lt_of_lt_mul (by omega)
  have e₁ := Nat.mod_add_div c₁ (2 ^ w)
  have h₂ := mul_add_add_lt hx hy hpos hm₁
  rw [checked_eq (by omega)]
  simp only [Option.bind_some]
  set c₂ := x * y + c₁ % 2 ^ w
  have hq₂ : c₂ / 2 ^ w < 2 ^ w := Nat.div_lt_of_lt_mul (by omega)
  have e₂ := Nat.mod_add_div c₂ (2 ^ w)
  have h₃ := mul_add_add_lt hx hz hq₂ hq₁
  rw [Nat.mod_eq_of_lt hq₁, checked_eq (by omega)]
  simp only [Option.bind_some]
  set c₃ := c₂ / 2 ^ w + (c₁ / 2 ^ w + x * z)
  have hq₃ : c₃ / 2 ^ w < 2 ^ w := Nat.div_lt_of_lt_mul (by omega)
  have e₃ := Nat.mod_add_div c₃ (2 ^ w)
  refine ⟨_, rfl, ?_⟩
  set p := ((((((r.setSize 4).store 0 (BitVec.ofNat w (v * y))).store 1 (BitVec.ofNat w c₁)).store 2
    (BitVec.ofNat w (c₁ / 2 ^ w))).store 1 (BitVec.ofNat w c₂)).store 2 (BitVec.ofNat w c₃)).store 3
    (BitVec.ofNat w (c₃ / 2 ^ w)) with hp
  obtain ⟨ht, hmag, hsign⟩ := normalize_four (p := p) rfl false
  have hval : p.mag = a.toNat * b.toNat := by
    rw [mag_four (x := p) rfl, ← ea, ← eb]
    simp only [hp, limbs_store, update_self, ne_eq, update_of_ne,
      OfNat.one_ne_ofNat, OfNat.zero_ne_ofNat, Nat.reduceEqDiff,
      not_false_eq_true, zero_ne_one, BitVec.toNat_ofNat, Nat.mod_eq_of_lt hq₃]
    linear_combination e₀ + 2 ^ w * e₁ + 2 ^ w * e₂ + (2 ^ w) ^ 2 * e₃
  refine ⟨canonical_iff.mpr ⟨ht, fun _ => hsign⟩, ?_⟩
  rw [toInt_of_sign hsign, hmag, hval]
  push_cast
  rfl

/-- The absolute value `a < 0 ? -a : a` of a signed double limb, as an unsigned number. -/
theorem toNat_ite_neg {n : ℕ} (a : BitVec n) :
    (if a.toInt < 0 then -a else a).toNat = a.toInt.natAbs := by
  rw [← toNat_unsignedAbs, unsignedAbs, show 1 + -(a + 1) = -a by grind]

/-- Only the most negative signed double limb has an absolute value of half the range. -/
theorem two_mul_natAbs_lt {n : ℕ} {a : BitVec n} (h : a ≠ BitVec.intMin n) :
    2 * a.toInt.natAbs < 2 ^ n := by
  rcases n with _ | m
  · exact absurd (BitVec.eq_of_zero_length rfl) h
  · have hne : a.toNat ≠ 2 ^ m := fun e => h (BitVec.eq_of_toNat_eq (by
      rw [e, BitVec.toNat_intMin, Nat.add_sub_cancel]
      exact (Nat.mod_eq_of_lt (Nat.pow_lt_pow_right Nat.one_lt_two (Nat.lt_add_one m))).symm))
    have hlt := a.isLt
    rw [BitVec.toInt_eq_toNat_cond]
    rw [pow_succ] at *
    split <;> omega

theorem abs_limbs {a : BitVec (2 * w)} (h : a ≠ BitVec.intMin (2 * w)) :
    ((if a.toInt < 0 then -a else a) &&& BitVec.ofNat (2 * w) (2 ^ w - 1)).toNat =
        a.toInt.natAbs % 2 ^ w ∧
      ((if a.toInt < 0 then -a else a).sshiftRight w).toNat = a.toInt.natAbs / 2 ^ w := by
  have hmsb : (if a.toInt < 0 then -a else a).msb = false := by
    rw [BitVec.msb_eq_false_iff_two_mul_lt, toNat_ite_neg]
    exact two_mul_natAbs_lt h
  rw [toNat_and_mask, BitVec.sshiftRight_eq_of_msb_false hmsb, BitVec.toNat_ushiftRight,
    toNat_ite_neg, Nat.shiftRight_eq_div_pow]
  exact ⟨rfl, rfl⟩

/-- **`eval_multiply` of two signed double limbs.**  The value is right; the sign is not that of a
canonical zero when exactly one operand is negative and the other zero. -/
theorem evalMultiplySigned_spec (hmax : 4 ≤ maxLimbs w) (r : CppInt w) (a b : BitVec (2 * w))
    (ha : a ≠ BitVec.intMin (2 * w)) (hb : b ≠ BitVec.intMin (2 * w)) :
    ∃ x, evalMultiplySigned r a b = some x ∧ x.Trimmed ∧ x.toInt = a.toInt * b.toInt ∧
      (x.Canonical ↔ ¬ (a.toInt < 0 ∧ b.toInt = 0 ∨ a.toInt = 0 ∧ b.toInt < 0)) := by
  have hpos := Nat.two_pow_pos w
  have e : 2 ^ (2 * w) = 2 ^ w * 2 ^ w := by rw [two_mul, pow_add]
  have hA := two_mul_natAbs_lt ha
  have hB := two_mul_natAbs_lt hb
  rw [e] at hA hB
  unfold evalMultiplySigned
  rw [resize_of_le hmax]
  simp only [abs_limbs ha, abs_limbs hb]
  have hv := Nat.mod_lt a.toInt.natAbs hpos
  have hy := Nat.mod_lt b.toInt.natAbs hpos
  have ea := Nat.mod_add_div a.toInt.natAbs (2 ^ w)
  have eb := Nat.mod_add_div b.toInt.natAbs (2 ^ w)
  set v := a.toInt.natAbs % 2 ^ w
  set x := a.toInt.natAbs / 2 ^ w
  set y := b.toInt.natAbs % 2 ^ w
  set z := b.toInt.natAbs / 2 ^ w
  -- the upper limbs stay below half the range, so two partial products fit one double limb
  have hx : 2 * x < 2 ^ w := by
    refine Nat.lt_of_mul_lt_mul_left (a := 2 ^ w) ?_
    calc 2 ^ w * (2 * x) = 2 * (2 ^ w * x) := by ring
      _ ≤ 2 * a.toInt.natAbs := by omega
      _ < 2 ^ w * 2 ^ w := hA
  have hz : 2 * z < 2 ^ w := by
    refine Nat.lt_of_mul_lt_mul_left (a := 2 ^ w) ?_
    calc 2 ^ w * (2 * z) = 2 * (2 ^ w * z) := by ring
      _ ≤ 2 * b.toInt.natAbs := by omega
      _ < 2 ^ w * 2 ^ w := hB
  have hcross : v * z + x * y ≤ (2 ^ w - 1) * (x + z) := by
    have h₁ : v * z ≤ (2 ^ w - 1) * z := Nat.mul_le_mul_right _ (by omega)
    have h₂ : x * y ≤ x * (2 ^ w - 1) := Nat.mul_le_mul_left _ (by omega)
    calc v * z + x * y ≤ (2 ^ w - 1) * z + x * (2 ^ w - 1) := Nat.add_le_add h₁ h₂
      _ = (2 ^ w - 1) * (x + z) := by ring
  have hm : 2 ^ w - 1 < 2 ^ w := by omega
  have h₀ := mul_add_add_lt hv hy hpos hpos
  have hq₀ : v * y / 2 ^ w < 2 ^ w := Nat.div_lt_of_lt_mul (by omega)
  have e₀ := Nat.mod_add_div (v * y) (2 ^ w)
  have h₁ := mul_add_add_lt hm (show x + z < 2 ^ w by omega) hq₀ hpos
  rw [checked_eq (by omega)]
  simp only [Option.bind_eq_bind, Option.bind_some]
  rw [checked_eq (by omega)]
  simp only [Option.bind_some]
  set c₁ := v * y / 2 ^ w + (v * z + x * y)
  have hq₁ : c₁ / 2 ^ w < 2 ^ w := Nat.div_lt_of_lt_mul (by omega)
  have e₁ := Nat.mod_add_div c₁ (2 ^ w)
  have h₂ := mul_add_add_lt (show x < 2 ^ w by omega) (show z < 2 ^ w by omega) hq₁ hpos
  rw [checked_eq (by omega)]
  simp only [Option.bind_some]
  set c₂ := c₁ / 2 ^ w + x * z
  have hq₂ : c₂ / 2 ^ w < 2 ^ w := Nat.div_lt_of_lt_mul (by omega)
  have e₂ := Nat.mod_add_div c₂ (2 ^ w)
  set p := ((((r.setSize 4).store 0 (BitVec.ofNat w (v * y))).store 1 (BitVec.ofNat w c₁)).store 2
    (BitVec.ofNat w c₂)).store 3 (BitVec.ofNat w (c₂ / 2 ^ w)) with hp
  have hval : p.mag = a.toInt.natAbs * b.toInt.natAbs := by
    rw [mag_four (x := p) rfl, ← ea, ← eb]
    simp only [hp, limbs_store, update_self, ne_eq, update_of_ne,
      OfNat.one_ne_ofNat, OfNat.zero_ne_ofNat, Nat.reduceEqDiff,
      not_false_eq_true, zero_ne_one, BitVec.toNat_ofNat, Nat.mod_eq_of_lt hq₂]
    linear_combination e₀ + 2 ^ w * e₁ + (2 ^ w) ^ 2 * e₂
  refine ⟨_, rfl, ?_⟩
  obtain ⟨ht, hmag, hsign⟩ := normalize_four (p := p) rfl
    (if b.toInt < 0 then !decide (a.toInt < 0) else decide (a.toInt < 0))
  rw [hval] at hmag
  refine ⟨ht, ?_, ?_⟩
  · rw [toInt, hsign, hmag]
    push_cast [Int.natCast_natAbs]
    by_cases h₁ : a.toInt < 0 <;> by_cases h₂ : b.toInt < 0 <;>
      simp only [h₁, h₂, if_true, if_false, decide_true, decide_false, Bool.not_true,
        Bool.not_false, Bool.false_eq_true]
    · rw [abs_of_neg h₁, abs_of_neg h₂, neg_mul_neg]
    · rw [abs_of_neg h₁, abs_of_nonneg (by omega), neg_mul, neg_neg]
    · rw [abs_of_nonneg (by omega), abs_of_neg h₂, mul_neg, neg_neg]
    · rw [abs_of_nonneg (by omega), abs_of_nonneg (by omega)]
  · rw [canonical_iff, and_iff_right ht, hmag, hsign, Nat.mul_eq_zero, Int.natAbs_eq_zero,
      Int.natAbs_eq_zero]
    by_cases h₁ : a.toInt < 0 <;> by_cases h₂ : b.toInt < 0 <;> simp [h₁, h₂] <;> omega

/-- **When `eval_multiply` is exact.**  With objects where `max_limbs` limbs have room, with a limb where
the product fits, with double limbs always: no assertion fails, no accumulation overflows and nothing is
stored behind the buffer.  With signed double limbs other than the most negative: exactly when it is not
the case that one operand is negative and the other zero. -/
theorem evalMultiply_exact_iff (hw : 0 < w) (hw' : w < 2 ^ 30) (r : CppInt w) (a b : Operand w)
    (o : BitVec w) (p q u v : BitVec (2 * w)) (ha : (a.get r).Canonical) (hb : (b.get r).Canonical)
    (ham : (a.get r).size ≤ maxLimbs w) (hbm : (b.get r).size ≤ maxLimbs w)
    (hu : u ≠ BitVec.intMin (2 * w)) (hv : v ≠ BitVec.intMin (2 * w)) :
    ((∃ x, evalMultiply r a b = some x ∧ x.Represents ((a.get r).toInt * (b.get r).toInt)) ↔
      ProductFits (a.get r) (b.get r)) ∧
    ((∃ x, evalMultiplyLimb r a o = some x ∧ x.Represents ((a.get r).toInt * o.toNat)) ↔
      Fits w ((a.get r).toInt * o.toNat)) ∧
    (∃ x, evalMultiplyDouble r p q = some x ∧ x.Represents (p.toNat * q.toNat)) ∧
    ((∃ x, evalMultiplySigned r u v = some x ∧ x.Represents (u.toInt * v.toInt)) ↔
      ¬ (u.toInt < 0 ∧ v.toInt = 0 ∨ u.toInt = 0 ∧ v.toInt < 0)) := by
  have hmax := four_le_maxLimbs hw hw'
  refine ⟨evalMultiply_iff hw hw' r a b ha hb ham hbm, ?_, evalMultiplyDouble_spec hmax r p q, ?_⟩
  · obtain ⟨x, hx, hsize, hr⟩ := evalMultiplyLimb_spec r a o ha ham
    rw [hx]
    exact ⟨fun ⟨y, hy, hyr⟩ => (Option.some.inj hy ▸ hyr : x.Represents _).fits hsize,
      fun hf => ⟨x, rfl, hr hf⟩⟩
  obtain ⟨x, hx, -, hz, hc⟩ := evalMultiplySigned_spec hmax r u v hu hv
  rw [← hc]
  constructor
  · rintro ⟨x', hx', hr⟩
    rw [hx, Option.some.injEq] at hx'
    exact hx' ▸ hr.canonical
  · exact fun h => ⟨x, hx, h, hz⟩

/-- `3 · 255`, and `-1 · -1` with signed double limbs. -/
theorem evalMultiply_exact_iff_negatives :
    (∃ x, evalMultiply (w := 8) ⟨fun _ => 3, 1, false⟩ .result (.object ⟨fun _ => 255, 1, false⟩) =
      some x ∧ x.Represents 765) ∧
    ∃ x, evalMultiplySigned (w := 8) ⟨fun _ => 3, 1, false⟩ (-1) (-1) = some x ∧ x.Represents 1 := by
  have h := evalMultiply_exact_iff (w := 8) (by decide) (by decide) ⟨fun _ => 3, 1, false⟩ .result
    (.object ⟨fun _ => 255, 1, false⟩) 0 0 0 (-1) (-1) (by decide) (by decide) (by decide)
    (by decide) (by decide) (by decide)
  refine ⟨h.1.mpr ?_, h.2.2.2.mpr (by decide)⟩
  exact (show (765 : ℤ).natAbs < (2 ^ 8) ^ 2 by decide).trans_le
    (Nat.pow_le_pow_right (by decide) (show 2 ≤ maxLimbs 8 by decide))

/-- `-1 · 0` with signed double limbs: the zero that comes out is negative. -/
theorem evalMultiplySigned_negative_zero :
    ¬ ∃ x, evalMultiplySigned (w := 8) ⟨fun _ => 0, 1, false⟩ (-1) 0 = some x ∧
      x.Represents ((-1 : BitVec (2 * 8)).toInt * (0 : BitVec (2 * 8)).toInt) := by
  rintro ⟨x, hx, hr⟩
  obtain rfl := Option.some.inj hx
  exact absurd hr.canonical (by decide)

end SourceLibs.CppInt
