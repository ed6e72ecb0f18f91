import SourceLibs.CppInt.Add

/-!
# CppInt — division by a limb

`divide_unsigned_helper(result, x, y, r)` with a limb divisor: the remainder is reduced in place,
from the top limb down, two limbs by one limb at a time.  A remainder limb that becomes zero is
dropped at once, together with its quotient limb, so a pass moves down by one position or by two.

`result` is a pointer that may be null (`none`).  Operands that are `result` or `r` are copied by
the source before anything is written, so `x` is taken by value here; `result` and `r` are two
objects.

* `divideLimbStep_spec`: a pass keeps `x = q · y + r`, where `q` is read off the quotient limbs from
  `r_order` on, and gets closer to the end (`LimbState.measure`).
* `divideLimb_spec`: with enough fuel the routine returns quotient and remainder, by the null
  pointer too, and division by zero throws with nothing written.
-/

namespace SourceLibs.CppInt
open Nat Option Function BitVec Radix

variable {w : ℕ}

/-- How a call ends.  `fails` is a failed assertion, or a loop that ran out of fuel. -/
inductive DivideOutcome (w : ℕ) where
  | returns (result : Option (CppInt w)) (r : CppInt w)
  | throws (what : String) (result : Option (CppInt w)) (r : CppInt w)
  | fails

/-- `(static_cast<double_limb_type>(hi) << limb_bits) | lo`. -/
def twoLimbs (hi lo : BitVec w) : ℕ := hi.toNat * 2 ^ w + lo.toNat

/-- The default constructed object. -/
def zero (w : ℕ) : CppInt w := ⟨fun _ => 0, 1, false⟩

/-- The variables of the loop. -/
structure LimbState (w : ℕ) where
  result : Option (CppInt w)
  r : CppInt w
  rOrder : ℕ

/-- `if(r_order && pr[r_order] == 0)`: no remainder, the division was exact. -/
def divideLimbExact (s : LimbState w) : LimbState w :=
  if s.rOrder ≠ 0 ∧ s.r.limbs s.rOrder = 0 then
    { result := s.result.map (·.store (s.rOrder - 1) 0)
      r := s.r.resize (s.r.size - 1)
      rOrder := s.rOrder - 1 }
  else s

/-- The body of the loop. -/
def divideLimbStep (y : BitVec w) (s : LimbState w) : LimbState w :=
  let pr := s.r.limbs
  if pr s.rOrder < y ∧ s.rOrder ≠ 0 then
    let a := twoLimbs (pr s.rOrder) (pr (s.rOrder - 1))
    divideLimbExact
      { result := s.result.map (·.store (s.rOrder - 1) (BitVec.ofNat w (a / y.toNat)))
        r := (s.r.resize (s.r.size - 1)).store (s.rOrder - 1) (BitVec.ofNat w (a % y.toNat))
        rOrder := s.rOrder - 1 }
  else
    divideLimbExact
      { result := s.result.map (·.store s.rOrder (pr s.rOrder / y))
        r := s.r.store s.rOrder (pr s.rOrder % y)
        rOrder := s.rOrder }

/-- `do ... while(r_order || (pr[r_order] >= y));`. -/
def divideLimbLoop (y : BitVec w) : ℕ → LimbState w → Option (LimbState w)
  | 0, _ => none
  | fuel + 1, s =>
    let s := divideLimbStep y s
    if s.rOrder ≠ 0 ∨ y ≤ s.r.limbs s.rOrder then divideLimbLoop y fuel s else some s

/-- `divide_unsigned_helper(result, x, y, r)` with a limb `y`. -/
def divideLimb (fuel : ℕ) (result : Option (CppInt w)) (x : CppInt w) (y : BitVec w)
    (r : CppInt w) : DivideOutcome w :=
  if y = 0 then .throws "Integer Division by zero." result r
  else
    let rOrder := x.size - 1
    let r := (r.assign x).setSign false
    if rOrder = 0 ∧ r.limbs 0 < y then .returns (result.map (·.assignLimb 0)) r
    else if rOrder = 0 then
      .returns (result.map fun q => (q.assignLimb (r.limbs 0 / y)).setSign x.sign)
        ((r.store 0 (r.limbs 0 % y)).setSign x.sign)
    else if rOrder = 1 then
      let a := twoLimbs (r.limbs rOrder) (r.limbs 0)
      .returns (result.map fun q => (q.assignDouble (a / y.toNat)).setSign x.sign)
        ((r.assignDouble (a % y.toNat)).setSign x.sign)
    else
      let result := result.map fun q => (q.resize (rOrder + 1)).store rOrder 0
      match divideLimbLoop y fuel ⟨result, r, rOrder⟩ with
      | none => .fails
      | some s =>
        let result := s.result.map fun q => q.normalize.setSign x.sign
        let r := s.r.normalize.setSign x.sign
        if compare r ((zero w).assignLimb y) < 0 then .returns result r else .fails

/-! ### The loop -/

/-- What holds before a pass, for a dividend `X` of `n` limbs: the quotient found so far is `Q`, and
it is stored in the limbs of `result` from `r_order` on. -/
structure LimbState.Inv (X n : ℕ) (y : BitVec w) (s : LimbState w) (Q : ℕ) : Prop where
  size : s.r.size = s.rOrder + 1
  sign : s.r.sign = false
  bound : s.rOrder < n
  value : X = Q * y.toNat + s.r.mag
  quotient : ∀ q, s.result = some q → q.size = n ∧ natOf q.limbs n = natOf q.limbs s.rOrder + Q ∧
    (y ≤ s.r.limbs s.rOrder → q.limbs s.rOrder = 0)

/-- The number of positions left, and whether the top remainder limb is still to be reduced. -/
def LimbState.measure (y : BitVec w) (s : LimbState w) : ℕ :=
  2 * s.rOrder + if y ≤ s.r.limbs s.rOrder then 1 else 0

theorem divideLimbExact_spec {X n Q : ℕ} {y : BitVec w} {s : LimbState w} (hn : n ≤ maxLimbs w)
    (h : s.Inv X n y Q) (hlt : s.r.limbs s.rOrder < y) :
    (divideLimbExact s).Inv X n y Q ∧ (divideLimbExact s).measure y ≤ 2 * s.rOrder ∧
      (divideLimbExact s).result.isSome = s.result.isSome := by
  unfold divideLimbExact
  split
  · rename_i hex
    obtain ⟨h₀, hz⟩ := hex
    obtain ⟨m, hm⟩ : ∃ m, s.rOrder = m + 1 := ⟨s.rOrder - 1, by omega⟩
    have hbound := h.bound
    have hsz := h.size
    rw [resize_of_le (show s.r.size - 1 ≤ maxLimbs w by omega)]
    refine ⟨⟨?_, h.sign, ?_, ?_, ?_⟩, ?_, by simp⟩
    · simp only [size_setSize, h.size]
      omega
    · show s.rOrder - 1 < n
      omega
    · -- the limb dropped is zero
      rw [h.value, mag, mag, size_setSize, limbs_setSize, h.size, hm]
      have hz' : s.r.limbs (m + 1) = 0 := hm ▸ hz
      rw [Nat.add_sub_cancel, natOf_succ _ (m + 1), hz', toNat_eq_zero.mpr rfl, Nat.zero_mul,
        Nat.add_zero]
    · intro q hq
      obtain ⟨p, hp, rfl⟩ := map_eq_some_iff.mp hq
      obtain ⟨hsz, hv, -⟩ := h.quotient p hp
      refine ⟨hsz, ?_, fun _ => update_self ..⟩
      have e := natOf_update_of_lt p.limbs (show m < n by omega) 0
      rw [toNat_eq_zero.mpr rfl, Nat.zero_mul, Nat.add_zero, hv, hm, natOf_succ] at e
      simp only [limbs_store, hm, Nat.add_sub_cancel]
      rw [natOf_update le_rfl]
      omega
    · simp only [LimbState.measure]
      split <;> omega
  · refine ⟨h, ?_, rfl⟩
    rw [LimbState.measure, if_neg (BitVec.not_le.mpr hlt), Nat.add_zero]

/-- **A pass of the loop.** -/
theorem divideLimbStep_spec {X n Q : ℕ} {y : BitVec w} {s : LimbState w} (hn : n ≤ maxLimbs w)
    (hy : y ≠ 0) (h : s.Inv X n y Q)
    (hgo : s.rOrder ≠ 0 ∨ y ≤ s.r.limbs s.rOrder) :
    (∃ Q', (divideLimbStep y s).Inv X n y Q') ∧
      (divideLimbStep y s).measure y < s.measure y ∧
      (divideLimbStep y s).result.isSome = s.result.isSome := by
  have hy₀ : 0 < y.toNat := Nat.pos_of_ne_zero fun e => hy (toNat_eq_zero.mp e)
  have hyw := y.isLt
  have hbound := h.bound
  have hsz := h.size
  unfold divideLimbStep
  simp only
  split
  · -- two limbs by one
    rename_i hc
    obtain ⟨hlt, h₀⟩ := hc
    obtain ⟨m, hm⟩ : ∃ m, s.rOrder = m + 1 := ⟨s.rOrder - 1, by omega⟩
    rw [resize_of_le (show s.r.size - 1 ≤ maxLimbs w by omega)]
    simp only [hm, Nat.add_sub_cancel]
    set hi := s.r.limbs (m + 1) with hhi
    set lo := s.r.limbs m with hlo
    have hlt' : hi.toNat < y.toNat := by
      rw [hm] at hlt
      exact lt_def.mp hlt
    have ha : twoLimbs hi lo / y.toNat < 2 ^ w := by
      have := lo.isLt
      refine Nat.div_lt_of_lt_mul ?_
      calc twoLimbs hi lo < (hi.toNat + 1) * 2 ^ w := by rw [twoLimbs, Nat.add_mul]; omega
        _ ≤ y.toNat * 2 ^ w := Nat.mul_le_mul_right _ hlt'
    have hb := mod_lt (twoLimbs hi lo) hy₀
    have hdiv := div_add_mod (twoLimbs hi lo) y.toNat
    have hdig : (BitVec.ofNat w (twoLimbs hi lo / y.toNat)).toNat = twoLimbs hi lo / y.toNat := by
      rw [toNat_ofNat, mod_eq_of_lt ha]
    have hrem : (BitVec.ofNat w (twoLimbs hi lo % y.toNat)).toNat = twoLimbs hi lo % y.toNat := by
      rw [toNat_ofNat, mod_eq_of_lt (by omega)]
    have hinv : LimbState.Inv X n y
        { result := s.result.map (·.store m (BitVec.ofNat w (twoLimbs hi lo / y.toNat)))
          r := (s.r.setSize (s.r.size - 1)).store m (BitVec.ofNat w (twoLimbs hi lo % y.toNat))
          rOrder := m } (Q + twoLimbs hi lo / y.toNat * (2 ^ w) ^ m) := by
      refine ⟨by simp [h.size, hm], h.sign, by simp only; omega, ?_, ?_⟩
      · rw [h.value, mag, mag, size_store, size_setSize, limbs_store, limbs_setSize, h.size, hm,
          Nat.add_sub_cancel, natOf_succ, natOf_succ, natOf_succ, natOf_update le_rfl,
          update_self, hrem]
        have e : hi.toNat * 2 ^ w + lo.toNat =
          y.toNat * (twoLimbs hi lo / y.toNat) + twoLimbs hi lo % y.toNat := hdiv.symm
        linear_combination (2 ^ w) ^ m * e
      · intro q hq
        obtain ⟨p, hp, rfl⟩ := map_eq_some_iff.mp hq
        obtain ⟨hsz, hv, -⟩ := h.quotient p hp
        refine ⟨hsz, ?_, fun hle => ?_⟩
        · have e := natOf_update_of_lt p.limbs (show m < n by omega)
            (BitVec.ofNat w (twoLimbs hi lo / y.toNat))
          rw [hv, hm, natOf_succ, hdig] at e
          simp only [limbs_store]
          rw [natOf_update le_rfl]
          omega
        · simp only [limbs_store, update_self] at hle
          have := BitVec.le_def.mp hle
          omega
    obtain ⟨h₁, h₂, h₃⟩ := divideLimbExact_spec hn hinv (by
      simp only [limbs_store, update_self]
      exact lt_def.mpr (by omega))
    refine ⟨⟨_, h₁⟩, h₂.trans_lt ?_, by simpa using h₃⟩
    simp only [LimbState.measure]
    omega
  · -- one limb by one
    rename_i hc
    have hle : y ≤ s.r.limbs s.rOrder := by
      by_contra hgt
      exact hc ⟨BitVec.not_le.mp hgt, hgo.resolve_right hgt⟩
    set d := s.r.limbs s.rOrder with hd
    have hdiv := div_add_mod d.toNat y.toNat
    have hb := mod_lt d.toNat hy₀
    have hinv : LimbState.Inv X n y
        { result := s.result.map (·.store s.rOrder (d / y))
          r := s.r.store s.rOrder (d % y)
          rOrder := s.rOrder } (Q + d.toNat / y.toNat * (2 ^ w) ^ s.rOrder) := by
      refine ⟨h.size, h.sign, h.bound, ?_, ?_⟩
      · rw [h.value, mag, mag, size_store, limbs_store, h.size, natOf_succ, natOf_succ,
          natOf_update le_rfl, update_self, toNat_umod]
        have e : d.toNat = y.toNat * (d.toNat / y.toNat) + d.toNat % y.toNat := hdiv.symm
        linear_combination (2 ^ w) ^ s.rOrder * e
      · intro q hq
        obtain ⟨p, hp, rfl⟩ := map_eq_some_iff.mp hq
        obtain ⟨hsz, hv, hz⟩ := h.quotient p hp
        refine ⟨hsz, ?_, fun hle' => ?_⟩
        · have e := natOf_update_of_lt p.limbs h.bound (d / y)
          rw [hv, hz hle, toNat_eq_zero.mpr rfl, toNat_udiv] at e
          simp only [limbs_store]
          rw [natOf_update le_rfl]
          omega
        · simp only [limbs_store, update_self] at hle'
          have := BitVec.le_def.mp hle'
          rw [toNat_umod] at this
          omega
    obtain ⟨h₁, h₂, h₃⟩ := divideLimbExact_spec hn hinv (by
      simp only [limbs_store, update_self]
      rw [lt_def, toNat_umod]
      exact hb)
    refine ⟨⟨_, h₁⟩, h₂.trans_lt ?_, by simpa using h₃⟩
    simp only [LimbState.measure]
    rw [if_pos hle]
    omega

/-- **The loop**: with more fuel than the measure it ends, with a single remainder limb below the
divisor. -/
theorem divideLimbLoop_spec {X n : ℕ} {y : BitVec w} (hn : n ≤ maxLimbs w) (hy : y ≠ 0) :
    ∀ (fuel : ℕ) (s : LimbState w) (Q : ℕ), s.Inv X n y Q →
      (s.rOrder ≠ 0 ∨ y ≤ s.r.limbs s.rOrder) → s.measure y < fuel →
      ∃ s' Q', divideLimbLoop y fuel s = some s' ∧ s'.Inv X n y Q' ∧ s'.rOrder = 0 ∧
        s'.r.limbs 0 < y ∧ s'.result.isSome = s.result.isSome
  | 0, _, _, _, _, hf => absurd hf (Nat.not_lt_zero _)
  | fuel + 1, s, Q, h, hgo, hf => by
    obtain ⟨⟨Q₁, h₁⟩, hm, hs⟩ := divideLimbStep_spec hn hy h hgo
    rw [divideLimbLoop]
    split
    · rename_i hgo'
      obtain ⟨s', Q', hl, hi, h₀, hlt, hsome⟩ :=
        divideLimbLoop_spec hn hy fuel _ Q₁ h₁ hgo' (by omega)
      exact ⟨s', Q', hl, hi, h₀, hlt, hsome.trans hs⟩
    · rename_i hend
      have h₀ : (divideLimbStep y s).rOrder = 0 := by
        by_contra h₀
        exact hend (Or.inl h₀)
      refine ⟨_, Q₁, rfl, h₁, h₀, ?_, hs⟩
      rw [← h₀]
      exact BitVec.not_le.mp fun hle => hend (Or.inr hle)

/-! ### The routine -/

/-- The call returned with quotient and remainder of `X` by `Y`; a null `result` stayed null. -/
def IsDivision (out : DivideOutcome w) (result : Option (CppInt w)) (X Y : ℕ) : Prop :=
  ∃ result' r, out = .returns result' r ∧ r.Represents (X % Y : ℕ) ∧
    result'.isSome = result.isSome ∧ ∀ q, result' = some q → q.Represents (X / Y : ℕ)

theorem isDivision_map {result : Option (CppInt w)} {f : CppInt w → CppInt w} {r : CppInt w}
    {X Y : ℕ} (hr : r.Represents (X % Y : ℕ)) (hq : ∀ q, (f q).Represents (X / Y : ℕ)) :
    IsDivision (.returns (result.map f) r) result X Y := by
  refine ⟨_, r, rfl, hr, by simp, fun q h => ?_⟩
  obtain ⟨p, -, rfl⟩ := map_eq_some_iff.mp h
  exact hq p

/-- Quotient and remainder are the only numbers with this sum. -/
theorem div_mod_of_eq {X Y Q R : ℕ} (h : X = Q * Y + R) (hR : R < Y) : X / Y = Q ∧ X % Y = R := by
  rw [h, Nat.mul_comm, mul_add_div (by omega), mul_add_mod, div_eq_of_lt hR,
    mod_eq_of_lt hR, Nat.add_zero]
  exact ⟨rfl, rfl⟩

/-- **Division by a limb.** -/
theorem divideLimb_spec {fuel : ℕ} (result : Option (CppInt w)) {x : CppInt w} {y : BitVec w}
    (r : CppInt w) (hx : x.Canonical) (hxm : x.size ≤ maxLimbs w) (hs : x.sign = false) (hy : y ≠ 0)
    (hfuel : 2 * x.size ≤ fuel) :
    IsDivision (divideLimb fuel result x y r) result x.mag y.toNat := by
  have hx₀ := hx.1.1
  have hy₀ : 0 < y.toNat := Nat.pos_of_ne_zero fun e => hy (toNat_eq_zero.mp e)
  obtain ⟨hrc, hrz⟩ := assign_spec r hx
  have hr : (r.assign x).setSign false = r.assign x := by
    rw [CppInt.setSign, assign, hs]
    rfl
  have hlimbs : ∀ i < x.size, (r.assign x).limbs i = x.limbs i := fun i hi => if_pos hi
  unfold divideLimb
  rw [if_neg hy, hr, hs]
  simp only
  split
  · -- `x < y`
    rename_i hc
    obtain ⟨h₀, hlt⟩ := hc
    have h₁ : x.size = 1 := by omega
    have hm : x.mag = (x.limbs 0).toNat := by rw [mag, h₁, natOf_one]
    rw [hlimbs 0 hx₀, lt_def, ← hm] at hlt
    refine isDivision_map ⟨hrc, ?_⟩ fun q => ?_
    · rw [hrz, mod_eq_of_lt hlt, toInt_of_sign hs]
    · have := assignLimb_spec q 0
      rwa [toNat_eq_zero.mpr rfl, ← div_eq_of_lt hlt] at this
  split
  · rename_i h₀
    have h₁ : x.size = 1 := by omega
    have hm : x.mag = (x.limbs 0).toNat := by rw [mag, h₁, natOf_one]
    rw [hlimbs 0 hx₀]
    refine isDivision_map ?_ fun q => ?_
    · have ht : ((r.assign x).store 0 (x.limbs 0 % y)).Trimmed := ⟨hx₀, Or.inl h₁⟩
      have := ht.setSign_represents false
      have hmag : ((r.assign x).store 0 (x.limbs 0 % y)).mag = x.mag % y.toNat := by
        show natOf (update _ 0 _) x.size = _
        rw [h₁, natOf_one, update_self, toNat_umod, hm]
      rwa [hmag] at this
    · have hq := assignLimb_spec q (x.limbs 0 / y)
      have := hq.canonical.1.setSign_represents false
      rwa [hq.mag_eq, Int.natAbs_natCast, toNat_udiv, ← hm] at this
  split
  · rename_i h₀
    have h₁ : x.size = 2 := by omega
    have hm : x.mag = twoLimbs (x.limbs 1) (x.limbs 0) := by
      rw [mag, h₁, natOf_succ, natOf_one, pow_one, twoLimbs, Nat.add_comm]
    have hlt : x.mag < 2 ^ w * 2 ^ w := by
      have := x.mag_lt
      rwa [h₁, pow_two] at this
    rw [h₀, hlimbs 1 (by omega), hlimbs 0 hx₀, ← hm]
    refine isDivision_map ?_ fun q => ?_
    · have hd := assignDouble_spec (r.assign x) ((mod_le x.mag y.toNat).trans_lt hlt)
      have := hd.canonical.1.setSign_represents false
      rwa [hd.mag_eq, Int.natAbs_natCast] at this
    · have hd := assignDouble_spec q ((Nat.div_le_self x.mag y.toNat).trans_lt hlt)
      have := hd.canonical.1.setSign_represents false
      rwa [hd.mag_eq, Int.natAbs_natCast] at this
  · rename_i h₀ h₁
    set n := x.size with hn
    have hrmag : (r.assign x).mag = x.mag := natOf_congr fun i hi => if_pos hi
    have hinit : LimbState.Inv x.mag n y
        ⟨result.map fun q => (q.resize (n - 1 + 1)).store (n - 1) 0, r.assign x, n - 1⟩ 0 := by
      refine ⟨?_, hs, by simp only; omega, by rw [hrmag]; simp, ?_⟩
      · show n = n - 1 + 1
        omega
      · intro q hq
        obtain ⟨p, -, rfl⟩ := map_eq_some_iff.mp hq
        refine ⟨by simp only [size_store, size_resize]; omega, ?_, fun _ => by simp⟩
        simp only [limbs_store, limbs_resize, Nat.add_zero]
        have e := natOf_succ (update p.limbs (n - 1) 0) (n - 1)
        rwa [Nat.sub_add_cancel hx₀, update_self, toNat_eq_zero.mpr rfl, Nat.zero_mul,
          Nat.add_zero] at e
    obtain ⟨s', Q, hl, hinv, hz, hlt, hsome⟩ := divideLimbLoop_spec hxm hy fuel _ 0 hinit
      (Or.inl h₀) (by simp only [LimbState.measure]; split <;> omega)
    rw [hl]
    simp only
    have hsz : s'.r.size = 1 := by rw [hinv.size, hz]
    have hrm : s'.r.mag = (s'.r.limbs 0).toNat := by rw [mag, hsz, natOf_one]
    have hlt' : s'.r.mag < y.toNat := by rw [hrm]; exact lt_def.mp hlt
    obtain ⟨hQ, hR⟩ := div_mod_of_eq hinv.value hlt'
    have hrep := normalize_setSign (x := s'.r) (by omega) false
    rw [if_neg Bool.false_ne_true, ← hR] at hrep
    -- the assertion at the end
    have hcmp : compare (s'.r.normalize.setSign false) ((zero w).assignLimb y) < 0 := by
      have hlim := assignLimb_spec (zero w) y
      rw [compare_spec hrep.canonical hlim.canonical, hrep.toInt_eq, hlim.toInt_eq, hR]
      rw [Int.sign_eq_neg_one_of_neg (by omega)]
      decide
    rw [if_pos hcmp]
    refine ⟨_, _, rfl, hrep, by simpa using hsome, fun q hq => ?_⟩
    obtain ⟨p, hp, rfl⟩ := map_eq_some_iff.mp hq
    obtain ⟨hpn, hv, -⟩ := hinv.quotient p hp
    have := normalize_setSign (x := p) (by omega) false
    rw [hz, natOf_zero, Nat.zero_add] at hv
    rwa [if_neg Bool.false_ne_true, mag, hpn, hv, ← hQ] at this

end SourceLibs.CppInt
