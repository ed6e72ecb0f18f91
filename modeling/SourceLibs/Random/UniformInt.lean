import SourceLibs.Support.Codes
import SourceLibs.Support.MachineInt
import Mathlib.Tactic.Linarith
import Mathlib.Tactic.Ring

/-!
# Random — uniform integers

`generate_uniform_int` of `random/uniform_int_distribution.hpp`, and the sums and differences of
`random/detail/signed_unsigned_tools.hpp` it uses.  An engine with fewer values than the range gives
the digits of a number in its base, the upper digit by a call for a smaller range; an engine with more
values puts them into buckets.  What does not fit is rejected.

The outputs of the engine are a list.  An unsigned result that wraps stops the call, unless the code
tests for it.

* `subtract_spec`, `add_spec`: the differences and sums are exact.
* `limit_spec`, `bucketSize_spec`: so are the quotients of one more than a range.
* `digitLoop_spec`: the loop reads the digits that fit into the range.
-/

namespace SourceLibs.UniformInt
open List Int

open MachineInt

/-! ### The source -/

/-- Why a call gives no value: the outputs or the fuel are used up, a signed result does not fit, or an
unsigned one wraps. -/
inductive Stop
  | unfinished
  | overflow
  | wrapped
  deriving DecidableEq

/-- A value, or why there is none. -/
abbrev Checked := Except Stop

section Operations

variable (t : IntType)

/-- The result of an operation on operands of the type. -/
def operate (x : ℤ) : Checked ℤ :=
  match t.evaluate x with
  | none => .error .overflow
  | some y => if y = x then .ok y else .error .wrapped

/-- The result of an operation whose wrap is tested for. -/
def operateTested (x : ℤ) : Checked ℤ :=
  match t.evaluate x with
  | none => .error .overflow
  | some y => .ok y

/-- Conversion to an unsigned type. -/
def cast (x : ℤ) : Checked ℤ := if t.convert x = x then .ok x else .error .wrapped

end Operations

/-- `subtract<T>`. -/
def subtract (t : IntType) (x y : ℤ) : Checked ℤ :=
  if t.signed then
    if 0 ≤ y then do
      cast t.unsigned (← operate t.unsigned ((← cast t.unsigned x) - (← cast t.unsigned y)))
    else if 0 ≤ x then do
      let y' ← cast t.unsigned (← operate t (-(← operate t (y + 1))))
      let sum ← operate t.unsigned ((← cast t.unsigned x) + y')
      cast t.unsigned (← operate t.unsigned (sum + 1))
    else do
      cast t.unsigned (← operate t (x - y))
  else do
    cast t (← operate t (x - y))

/-- `add<T1, T2>`. -/
def add (t₁ t₂ : IntType) (x y : ℤ) : Checked ℤ :=
  if t₂.signed ∧ t₂.digits ≤ t₁.digits then
    if 0 ≤ y then do
      .ok (t₂.convert (← operate t₂ (t₂.convert x + y)))
    else do
      let y' ← cast t₁ (← operate t₂ (-(← operate t₂ (y + 1))))
      if y' < x then do
        .ok (t₂.convert (← operate t₁ ((← operate t₁ (x - y')) - 1)))
      else do
        .ok (t₂.convert (← operate t₂ (t₂.convert x + y)))
  else do
    .ok (t₂.convert (← operate t₂ (t₂.convert x + y)))

/-- An engine: its `result_type`, `(min)()` and `(max)()`. -/
structure Engine where
  type : IntType
  min : ℤ
  max : ℤ
  type_min_le : type.min ≤ min
  min_le_max : min ≤ max
  le_type_max : max ≤ type.max

/-- What the engine gives. -/
def Engine.Output (eng : Engine) : Type := {x : ℤ // eng.min ≤ x ∧ x ≤ eng.max}

/-- `subtract<base_result>()(eng(), bmin)`. -/
def Engine.draw (eng : Engine) : List eng.Output → Checked (ℤ × List eng.Output)
  | [] => .error .unfinished
  | output :: outputs => do .ok (← subtract eng.type output.val eng.min, outputs)

/-- What the loop over the digits leaves: the value to return at once, or `result` and `mult`. -/
inductive Digits
  | power (result : ℤ)
  | digits (result mult : ℤ)

section Source

/-- `limit`, in the unsigned type `r` of the range. -/
def limit (r : IntType) (range brange : ℤ) : Checked ℤ :=
  if range = r.max then do
    let base ← operate r ((← cast r brange) + 1)
    let limit ← cast r (range / base)
    if range % base = (← cast r brange) then do
      cast r (← operate r (limit + 1))
    else .ok limit
  else do
    cast r ((← operate r (range + 1)) / (← operate r ((← cast r brange) + 1)))

/-- `bucket_size`, where `base` is the unsigned type of the engine and `mixed` is
`mixed_range_type`. -/
def bucketSize (base mixed : IntType) (range brange : ℤ) : Checked ℤ :=
  if brange = base.max then do
    let buckets ← operate mixed ((← cast mixed range) + 1)
    let size ← cast mixed ((← cast mixed brange) / buckets)
    if (← cast mixed brange) % buckets = (← cast mixed range) then do
      cast mixed (← operate mixed (size + 1))
    else .ok size
  else do
    cast mixed ((← cast mixed (← operate base (brange + 1))) /
      (← operate mixed ((← cast mixed range) + 1)))

/-- `mixed_range_type`, for compilers with explicit conversion operators and without. -/
def mixedRangeType (explicit : Bool) (base r : IntType) : IntType :=
  if explicit then base else if base.digits ≤ r.digits then r else base

variable (explicit : Bool) (eng : Engine)

/-- `while(mult <= limit)`. -/
def digitLoop (r : IntType) (range brange limit : ℤ) :
    ℤ → ℤ → List eng.Output → Checked (Digits × List eng.Output)
  | result, mult, [] =>
    if mult ≤ limit then .error .unfinished else .ok (.digits result mult, [])
  | result, mult, output :: outputs =>
    if mult ≤ limit then do
      let digit ← cast r (← subtract eng.type output.val eng.min)
      let result ← cast r (← operate r (result + (← cast r (← operate r (digit * mult)))))
      if (← operate r (mult * (← cast r brange))) =
          (← operate r ((← operate r (range - mult)) + 1)) then
        .ok (.power result, outputs)
      else do
        let mult ← cast r (← operate r (mult * (← operate r ((← cast r brange) + 1))))
        digitLoop r range brange limit result mult outputs
    else .ok (.digits result mult, output :: outputs)

/-- The body of the loop where the range of the engine is smaller; `upper` gives the upper digit. -/
def concatenate (upper : ℤ → List eng.Output → Checked (ℤ × List eng.Output)) (t : IntType)
    (minValue range brange : ℤ) (outputs : List eng.Output) :
    Checked (Option ℤ × List eng.Output) := do
  let limit ← limit t.unsigned range brange
  match ← digitLoop eng t.unsigned range brange limit 0 1 outputs with
  | (.power result, outputs) => .ok (some (t.convert result), outputs)
  | (.digits result mult, outputs) => do
    let (increment, outputs) ← upper (← cast t.unsigned (range / mult)) outputs
    if t.unsigned.max / mult < increment then .ok (none, outputs)
    else do
      let increment ← cast t.unsigned (← operate t.unsigned (increment * mult))
      let result := t.unsigned.convert (← operateTested t.unsigned (result + increment))
      if result < increment then .ok (none, outputs)
      else if range < result then .ok (none, outputs)
      else do
        .ok (some (← add t.unsigned t result minValue), outputs)

/-- The body of the loop where the range of the engine is larger. -/
def bucket (mixed t : IntType) (minValue range size : ℤ) (outputs : List eng.Output) :
    Checked (Option ℤ × List eng.Output) := do
  let (result, outputs) ← eng.draw outputs
  let result ← cast mixed result
  let result ← cast mixed (result / size)
  if result ≤ (← cast mixed range) then do
    .ok (some (← add mixed t result minValue), outputs)
  else .ok (none, outputs)

/-- `generate_uniform_int`, the outputs of the engine and the fuel given. -/
def generateUniformInt : ℕ → IntType → ℤ → ℤ → List eng.Output → Checked (ℤ × List eng.Output)
  | 0, _, _, _, _ => .error .unfinished
  | fuel + 1, t, minValue, maxValue, outputs => do
    let range ← subtract t maxValue minValue
    let brange ← subtract eng.type eng.max eng.min
    if range = 0 then
      .ok (minValue, outputs)
    else if brange = range then do
      let (v, outputs) ← eng.draw outputs
      .ok (← add eng.type.unsigned t v minValue, outputs)
    else if brange < range then
      Codes.retry .unfinished
        (concatenate eng (generateUniformInt fuel t.unsigned 0) t minValue range brange) fuel outputs
    else do
      let mixed := mixedRangeType explicit eng.type.unsigned t.unsigned
      let size ← bucketSize eng.type.unsigned mixed range brange
      Codes.retry .unfinished (bucket eng mixed t minValue range size) fuel outputs

end Source

/-! ### Operations that fit -/

variable {t : IntType}

theorem operate_of_bounds {x : ℤ} (h₀ : t.min ≤ x) (hx : x ≤ t.max) : operate t x = .ok x := by
  rw [operate, IntType.evaluate_of_bounds h₀ hx]
  exact if_pos rfl

theorem operate_of_mem {x : ℤ} (h₀ : 0 ≤ x) (hx : x ≤ t.max) : operate t x = .ok x :=
  operate_of_bounds (t.min_le_zero.trans h₀) hx

theorem cast_of_mem {x : ℤ} (h₀ : 0 ≤ x) (hx : x ≤ t.max) : cast t x = .ok x :=
  if_pos (IntType.convert_of_mem h₀ hx)

theorem ok_bind {α β : Type} (a : α) (f : α → Checked β) : ((.ok a : Checked α) >>= f) = f a := rfl

theorem error_bind {α β : Type} (e : Stop) (f : α → Checked β) :
    ((.error e : Checked α) >>= f) = .error e := rfl

/-- **A difference** that is not negative is exact. -/
theorem subtract_spec {x y : ℤ} (hy : t.min ≤ y) (hyx : y ≤ x) (hx : x ≤ t.max) :
    subtract t x y = .ok (x - y) := by
  have hmax := t.unsigned_max
  rw [subtract]
  split_ifs with hsigned hy₀ hx₀
  · have hmin := t.min_le_zero
    rw [cast_of_mem (hy₀.trans hyx) (by omega), ok_bind, cast_of_mem hy₀ (by omega), ok_bind,
      operate_of_mem (by omega) (by omega), ok_bind, cast_of_mem (by omega) (by omega)]
  · have hcard := IntType.max_add_one_of_signed hsigned
    rw [operate_of_bounds (by omega) (by omega), ok_bind,
      operate_of_bounds (by omega) (by omega), ok_bind,
      cast_of_mem (by omega) (by omega), ok_bind, cast_of_mem hx₀ (by omega), ok_bind,
      operate_of_mem (by omega) (by omega), ok_bind, operate_of_mem (by omega) (by omega), ok_bind,
      cast_of_mem (by omega) (by omega)]
    exact congrArg _ (by ring)
  · have hcard := IntType.max_add_one_of_signed hsigned
    rw [operate_of_bounds (by omega) (by omega), ok_bind, cast_of_mem (by omega) (by omega)]
  · have hmin := IntType.min_of_unsigned (Bool.not_eq_true _ ▸ hsigned)
    rw [operate_of_mem (by omega) (by omega), ok_bind, cast_of_mem (by omega) (by omega)]

/-- **A sum** that fits is exact. -/
theorem add_spec {t₁ t₂ : IntType} {x y : ℤ} (hx₀ : 0 ≤ x) (hx : x ≤ t₁.max) (hy : t₂.min ≤ y)
    (hxy : x + y ≤ t₂.max) : add t₁ t₂ x y = .ok (x + y) := by
  have hmin := t₂.min_le_zero
  rw [add]
  have hsum (hx₂ : x ≤ t₂.max) :
      (do .ok (t₂.convert (← operate t₂ (t₂.convert x + y)))) = (.ok (x + y) : Checked ℤ) := by
    rw [IntType.convert_of_mem hx₀ hx₂, operate_of_bounds (by omega) hxy, ok_bind,
      IntType.convert_of_bounds (by omega) hxy]
  split_ifs with hsigned hy₀
  · exact hsum (by omega)
  · have hcard := IntType.max_add_one_of_signed hsigned.1
    have hle := IntType.max_le_max hsigned.2
    rw [operate_of_bounds (by omega) (by omega), ok_bind,
      operate_of_bounds (by omega) (by omega), ok_bind, cast_of_mem (by omega) (by omega), ok_bind]
    split_ifs with hbig
    · rw [operate_of_mem (by omega) (by omega), ok_bind, operate_of_mem (by omega) (by omega), ok_bind,
        IntType.convert_of_mem (by omega) (by omega)]
      exact congrArg _ (by ring)
    · exact hsum (by omega)
  · by_cases hsigned₂ : t₂.signed = true
    · have hdigits : t₁.digits ≤ t₂.digits := by
        by_contra hlt
        exact hsigned ⟨hsigned₂, by omega⟩
      exact hsum (hx.trans (IntType.max_le_max hdigits))
    · have hmin₂ := IntType.min_of_unsigned (Bool.not_eq_true _ ▸ hsigned₂)
      exact hsum (by omega)

/-! ### The quotients -/

theorem add_one_ediv {x n : ℤ} (hn : 0 < n) :
    (x + 1) / n = if x % n = n - 1 then x / n + 1 else x / n := by
  have hmod := emod_lt_of_pos x hn
  have hmod₀ := emod_nonneg x hn.ne'
  have hx := emod_add_mul_ediv x n
  split_ifs with hlast
  · refine (Int.ediv_emod_unique hn (r := 0)).mpr ⟨?_, le_rfl, hn⟩ |>.1
    linarith
  · refine (Int.ediv_emod_unique hn (r := x % n + 1)).mpr ⟨?_, by omega, by omega⟩ |>.1
    linarith

theorem add_one_ediv_le {x n : ℤ} (hx : 1 ≤ x) (hn : 2 ≤ n) : (x + 1) / n ≤ x := by
  refine Int.ediv_le_of_le_mul (by omega) ?_
  have h := mul_le_mul_of_nonneg_left hn (by omega : 0 ≤ x)
  omega

theorem quotient_spec {r : IntType} {x n : ℤ} (hx : 0 ≤ x) (hmax : x ≤ r.max) (hn : 0 ≤ n)
    (hle : (x + 1) / (n + 1) ≤ r.max) :
    (cast r (x / (n + 1)) >>= fun q =>
      if x % (n + 1) = n then operate r (q + 1) >>= fun q => cast r q else .ok q) =
      (.ok ((x + 1) / (n + 1)) : Checked ℤ) := by
  have hpos : 0 ≤ (x + 1) / (n + 1) := ediv_nonneg (by omega) (by omega)
  have hdiv : 0 ≤ x / (n + 1) := ediv_nonneg hx (by omega)
  have hdiv_le : x / (n + 1) ≤ x := ediv_le_self _ hx
  have hone := add_one_ediv (x := x) (n := n + 1) (by omega)
  rw [add_sub_cancel_right] at hone
  rw [cast_of_mem hdiv (by omega), ok_bind]
  split_ifs with hlast
  · rw [if_pos hlast] at hone
    rw [← hone, operate_of_mem hpos (by omega), ok_bind, cast_of_mem hpos (by omega)]
  · rw [if_neg hlast] at hone
    rw [hone]

/-- **The limit** is exact, unless the engine has one output and the range is that of the type. -/
theorem limit_spec {r : IntType} {range brange : ℤ} (hb₀ : 0 ≤ brange)
    (hb : 1 ≤ brange ∨ range ≠ r.max) (hrange : brange < range) (hmax : range ≤ r.max) :
    limit r range brange = .ok ((range + 1) / (brange + 1)) := by
  have hle : (range + 1) / (brange + 1) ≤ r.max := by
    rcases hb with hb | hne
    · exact (add_one_ediv_le (by omega) (by omega)).trans hmax
    · exact (ediv_le_self _ (by omega)).trans (by omega)
  have hpos : 0 ≤ (range + 1) / (brange + 1) := ediv_nonneg (by omega) (by omega)
  have hcast : cast r brange = .ok brange := cast_of_mem (by omega) (by omega)
  have hbase : operate r (brange + 1) = .ok (brange + 1) := operate_of_mem (by omega) (by omega)
  rw [limit, hcast, ok_bind, hbase, ok_bind]
  split_ifs with hfull
  · exact quotient_spec (by omega) hmax hb₀ hle
  · rw [operate_of_mem (by omega) (by omega), ok_bind, ok_bind, hbase, ok_bind,
      cast_of_mem hpos (by omega)]

/-- **The size of a bucket** is exact. -/
theorem bucketSize_spec {base mixed : IntType} {range brange : ℤ} (hrange : 1 ≤ range)
    (hb : range < brange) (hmax : brange ≤ base.max) (hmixed : base.max ≤ mixed.max) :
    bucketSize base mixed range brange = .ok ((brange + 1) / (range + 1)) := by
  have hle : (brange + 1) / (range + 1) ≤ brange := add_one_ediv_le (by omega) (by omega)
  have hpos : 0 ≤ (brange + 1) / (range + 1) := ediv_nonneg (by omega) (by omega)
  have hcast : cast mixed range = .ok range := cast_of_mem (by omega) (by omega)
  have hcast' : cast mixed brange = .ok brange := cast_of_mem (by omega) (by omega)
  have hbase : operate mixed (range + 1) = .ok (range + 1) := operate_of_mem (by omega) (by omega)
  rw [bucketSize, hcast, ok_bind, hbase, ok_bind, hcast', ok_bind]
  split_ifs with hfull
  · exact quotient_spec (by omega) (hmax.trans hmixed) (by omega) (by omega)
  · rw [operate_of_mem (by omega) (by omega), ok_bind, cast_of_mem (by omega) (by omega), ok_bind,
      ok_bind, hbase, ok_bind, cast_of_mem hpos (by omega)]

theorem mixedRangeType_max (explicit : Bool) (base r : IntType) :
    base.max ≤ (mixedRangeType explicit base r).max := by
  rw [mixedRangeType]
  split_ifs with hexplicit hdigits
  · exact le_rfl
  · exact IntType.max_le_max hdigits
  · exact le_rfl

/-! ### The digits -/

namespace Engine

variable (eng : Engine)

/-- One less than the number of outputs. -/
def brange : ℤ := eng.max - eng.min

variable {eng}

/-- An output, above the smallest one. -/
def Output.digit (o : eng.Output) : ℤ := o.val - eng.min

theorem Output.digit_nonneg (o : eng.Output) : 0 ≤ o.digit := by
  have := o.property.1
  rw [digit]
  omega

theorem Output.digit_le (o : eng.Output) : o.digit ≤ eng.brange := by
  have := o.property.2
  rw [digit, brange]
  omega

theorem Output.digit_injective : Function.Injective fun o : eng.Output => o.digit := by
  intro o o' h
  change o.digit = o'.digit at h
  rw [Output.digit, Output.digit] at h
  exact Subtype.ext (by omega)

theorem exists_digit {x : ℤ} (h₀ : 0 ≤ x) (hx : x ≤ eng.brange) : ∃ o : eng.Output, o.digit = x := by
  rw [brange] at hx
  exact ⟨⟨x + eng.min, by omega, by omega⟩, add_sub_cancel_right x eng.min⟩

theorem brange_nonneg : 0 ≤ eng.brange := by
  have := eng.min_le_max
  rw [brange]
  omega

theorem brange_le_max : eng.brange ≤ eng.type.unsigned.max := by
  have h₁ := eng.type_min_le
  have h₂ := eng.le_type_max
  rw [brange, eng.type.unsigned_max]
  omega

theorem subtract_range : subtract eng.type eng.max eng.min = .ok eng.brange :=
  subtract_spec eng.type_min_le eng.min_le_max eng.le_type_max

theorem subtract_output (o : eng.Output) : subtract eng.type o.val eng.min = .ok o.digit :=
  subtract_spec eng.type_min_le o.property.1 (o.property.2.trans eng.le_type_max)

theorem draw_cons (o : eng.Output) (outputs : List eng.Output) :
    eng.draw (o :: outputs) = .ok (o.digit, outputs) := by
  rw [draw, subtract_output, ok_bind]

/-- The number with the given digits, the lowest one first. -/
def value : List eng.Output → ℤ
  | [] => 0
  | o :: u => o.digit + (eng.brange + 1) * value u

theorem value_bounds : ∀ u : List eng.Output, 0 ≤ value u ∧ value u < (eng.brange + 1) ^ u.length
  | [] => by simp [value]
  | o :: u => by
    obtain ⟨h₀, hlt⟩ := value_bounds u
    have hb := eng.brange_nonneg
    have hdigit := o.digit_le
    have hmul := mul_le_mul_of_nonneg_left (Int.add_one_le_of_lt hlt) (by omega : 0 ≤ eng.brange + 1)
    rw [value, length_cons, pow_succ']
    refine ⟨add_nonneg o.digit_nonneg (mul_nonneg (by omega) h₀), ?_⟩
    rw [mul_add] at hmul
    omega

/-- **Every number below the power** has its digits. -/
theorem exists_value : ∀ (k : ℕ) {x : ℤ}, 0 ≤ x → x < (eng.brange + 1) ^ k →
    ∃ u : List eng.Output, u.length = k ∧ value u = x
  | 0, x, h₀, hx => by
    rw [pow_zero] at hx
    exact ⟨[], rfl, by rw [value]; omega⟩
  | k + 1, x, h₀, hx => by
    have hb := eng.brange_nonneg
    have hpos : 0 < eng.brange + 1 := by omega
    have hmod : x % (eng.brange + 1) ≤ eng.brange := Int.le_of_lt_add_one (emod_lt_of_pos x hpos)
    obtain ⟨o, ho⟩ := exists_digit (emod_nonneg x hpos.ne') hmod
    rw [pow_succ] at hx
    obtain ⟨u, hlen, hu⟩ := exists_value k (ediv_nonneg h₀ hpos.le) (Int.ediv_lt_of_lt_mul hpos hx)
    refine ⟨o :: u, by rw [length_cons, hlen], ?_⟩
    rw [value, ho, hu, emod_add_mul_ediv]

theorem value_injective : ∀ {u v : List eng.Output}, u.length = v.length → value u = value v → u = v
  | [], [], _, _ => rfl
  | o :: u, o' :: v, hlen, h => by
    have hpos : 0 < eng.brange + 1 := by
      have := eng.brange_nonneg
      omega
    have hdigit (o : eng.Output) (x : ℤ) : (o.digit + (eng.brange + 1) * x) / (eng.brange + 1) = x ∧
        (o.digit + (eng.brange + 1) * x) % (eng.brange + 1) = o.digit :=
      (Int.ediv_emod_unique hpos).mpr ⟨rfl, o.digit_nonneg, Int.lt_add_one_of_le o.digit_le⟩
    rw [value, value] at h
    have ho : o.digit = o'.digit := by
      rw [← (hdigit o (value u)).2, h, (hdigit o' (value v)).2]
    have huv : value u = value v := by
      rw [← (hdigit o (value u)).1, h, (hdigit o' (value v)).1]
    rw [Output.digit_injective ho, value_injective (Nat.succ.inj hlen) huv]

end Engine

section DigitLoop

variable {eng : Engine} {r : IntType} {range : ℤ}

/-- **A turn of the loop** adds a digit, and leaves if the range is a power. -/
theorem digitLoop_step (hrange : eng.brange < range) (hmax : range ≤ r.max) {result mult : ℤ}
    (hresult₀ : 0 ≤ result) (hresult : result < mult) (hmult : mult ≤ range)
    (hfit : mult * (eng.brange + 1) ≤ range + 1) (o : eng.Output) (outputs : List eng.Output) :
    digitLoop eng r range eng.brange ((range + 1) / (eng.brange + 1)) result mult (o :: outputs) =
      if mult * (eng.brange + 1) = range + 1 then .ok (.power (result + o.digit * mult), outputs)
      else digitLoop eng r range eng.brange ((range + 1) / (eng.brange + 1)) (result + o.digit * mult)
        (mult * (eng.brange + 1)) outputs := by
  have hb := eng.brange_nonneg
  have hmul : mult * (eng.brange + 1) = mult * eng.brange + mult := by ring
  have hdigit₀ := o.digit_nonneg
  have hdigit := o.digit_le
  have hterm₀ : 0 ≤ o.digit * mult := mul_nonneg hdigit₀ (by omega)
  have hterm : o.digit * mult ≤ mult * eng.brange := by
    rw [mul_comm]
    exact mul_le_mul_of_nonneg_left hdigit (by omega)
  have hle : mult ≤ (range + 1) / (eng.brange + 1) :=
    (Int.le_ediv_iff_mul_le (by omega)).mpr hfit
  rw [digitLoop, if_pos hle, Engine.subtract_output, ok_bind, cast_of_mem hdigit₀ (by omega), ok_bind,
    operate_of_mem hterm₀ (by omega), ok_bind, cast_of_mem hterm₀ (by omega), ok_bind,
    operate_of_mem (by omega) (by omega), ok_bind, cast_of_mem (by omega) (by omega), ok_bind,
    cast_of_mem hb (by omega), ok_bind, operate_of_mem (by omega) (by omega), ok_bind,
    operate_of_mem (by omega) (by omega), ok_bind, operate_of_mem (by omega) (by omega), ok_bind]
  by_cases hpower : mult * (eng.brange + 1) = range + 1
  · rw [if_pos hpower, if_pos (by omega)]
  · rw [if_neg hpower, if_neg (by omega), ok_bind, operate_of_mem (by omega) (by omega), ok_bind,
      operate_of_mem (by omega) (by omega), ok_bind, cast_of_mem (by omega) (by omega), ok_bind]

theorem digitLoop_stop {result mult : ℤ} (hfit : range + 1 < mult * (eng.brange + 1))
    (outputs : List eng.Output) :
    digitLoop eng r range eng.brange ((range + 1) / (eng.brange + 1)) result mult outputs =
      .ok (.digits result mult, outputs) := by
  have hb := eng.brange_nonneg
  have hlt : ¬ mult ≤ (range + 1) / (eng.brange + 1) := by
    rw [Int.le_ediv_iff_mul_le (by omega)]
    omega
  cases outputs <;> rw [digitLoop, if_neg hlt]

/-- The exit of the loop, after all the digits. -/
def exit (range power x : ℤ) : Digits := if power = range + 1 then .power x else .digits x power

/-- **The loop** reads as many digits as fit into the range, one power at a time. -/
theorem digitLoop_spec (hb : 1 ≤ eng.brange) (hrange : eng.brange < range) (hmax : range ≤ r.max)
    {k : ℕ} (hk : (eng.brange + 1) ^ k ≤ range + 1) (hk' : range + 1 < (eng.brange + 1) ^ (k + 1)) :
    ∀ (u : List eng.Output) {i : ℕ} {result : ℤ} (rest : List eng.Output), i + u.length = k →
      (i = k → (eng.brange + 1) ^ k ≠ range + 1) → 0 ≤ result → result < (eng.brange + 1) ^ i →
      digitLoop eng r range eng.brange ((range + 1) / (eng.brange + 1)) result ((eng.brange + 1) ^ i)
          (u ++ rest) =
        .ok (exit range ((eng.brange + 1) ^ k)
          (result + (eng.brange + 1) ^ i * Engine.value u), rest)
  | [], i, result, rest, hi, hne, h₀, hlt => by
    obtain rfl : i = k := hi
    rw [nil_append, digitLoop_stop (by rw [← pow_succ]; exact hk'), exit, if_neg (hne rfl),
      Engine.value, mul_zero, add_zero]
  | o :: u, i, result, rest, hi, hne, h₀, hlt => by
    rw [length_cons] at hi
    have hpow : (eng.brange + 1) ^ (i + 1) ≤ (eng.brange + 1) ^ k :=
      pow_le_pow_right₀ (by omega) (by omega)
    have hlt_pow : (eng.brange + 1) ^ i < (eng.brange + 1) ^ (i + 1) :=
      pow_lt_pow_right₀ (by omega) (Nat.lt_succ_self i)
    have hmult : (eng.brange + 1) ^ i ≤ range := by omega
    rw [pow_succ] at hpow
    have hvalue : result + (eng.brange + 1) ^ i * Engine.value (o :: u) =
        result + o.digit * (eng.brange + 1) ^ i + (eng.brange + 1) ^ (i + 1) * Engine.value u := by
      rw [Engine.value, pow_succ]
      ring
    rw [List.cons_append, digitLoop_step hrange hmax h₀ hlt hmult (hpow.trans hk), hvalue]
    split_ifs with hpower
    · -- the power is the last one: a further digit would pass the range
      have hik : i + 1 = k := by
        by_contra hlt'
        have := pow_lt_pow_right₀ (by omega : 1 < eng.brange + 1) (by omega : i + 1 < k)
        rw [pow_succ] at this
        omega
      have hu : u = [] := length_eq_zero_iff.mp (by omega)
      rw [← hik, pow_succ, exit, if_pos hpower, hu, Engine.value, mul_zero, add_zero, nil_append]
    · have hdigit := o.digit_le
      have hterm := mul_le_mul_of_nonneg_right hdigit (by omega : 0 ≤ (eng.brange + 1) ^ i)
      have hterm₀ := mul_nonneg o.digit_nonneg (by omega : 0 ≤ (eng.brange + 1) ^ i)
      rw [← pow_succ] at hpower ⊢
      refine digitLoop_spec hb hrange hmax hk hk' u rest (by omega) ?_ (by omega) ?_
      · rintro rfl
        exact hpower
      · rw [pow_succ, mul_add, mul_comm _ eng.brange]
        omega

theorem digitLoop_short (hb : 1 ≤ eng.brange) (hrange : eng.brange < range) (hmax : range ≤ r.max)
    {k : ℕ} (hk : (eng.brange + 1) ^ k ≤ range + 1) :
    ∀ (u : List eng.Output) {i : ℕ} {result : ℤ}, i + u.length < k → 0 ≤ result →
      result < (eng.brange + 1) ^ i →
      digitLoop eng r range eng.brange ((range + 1) / (eng.brange + 1)) result ((eng.brange + 1) ^ i) u =
        .error .unfinished
  | [], i, result, hi, h₀, hlt => by
    have hpow : (eng.brange + 1) ^ (i + 1) ≤ (eng.brange + 1) ^ k :=
      pow_le_pow_right₀ (by omega) hi
    rw [pow_succ] at hpow
    rw [digitLoop, if_pos ((Int.le_ediv_iff_mul_le (by omega)).mpr (hpow.trans hk))]
  | o :: u, i, result, hi, h₀, hlt => by
    rw [length_cons] at hi
    have hpow : (eng.brange + 1) ^ (i + 1) < (eng.brange + 1) ^ k :=
      pow_lt_pow_right₀ (by omega) (by omega)
    have hlt_pow : (eng.brange + 1) ^ i < (eng.brange + 1) ^ (i + 1) :=
      pow_lt_pow_right₀ (by omega) (Nat.lt_succ_self i)
    have hterm := mul_le_mul_of_nonneg_right o.digit_le (by omega : 0 ≤ (eng.brange + 1) ^ i)
    have hterm₀ := mul_nonneg o.digit_nonneg (by omega : 0 ≤ (eng.brange + 1) ^ i)
    rw [digitLoop_step hrange hmax h₀ hlt (by omega) (by rw [← pow_succ]; omega), ← pow_succ,
      if_neg (by omega)]
    refine digitLoop_short hb hrange hmax hk u (by omega) (by omega) ?_
    rw [pow_succ, mul_add, mul_comm _ eng.brange]
    omega

theorem digitLoop_constant (hb : eng.brange = 0) (hrange : 0 < range) (hmax : range ≤ r.max) :
    ∀ outputs : List eng.Output,
      digitLoop eng r range eng.brange ((range + 1) / (eng.brange + 1)) 0 1 outputs =
        .error .unfinished
  | [] => by
    rw [digitLoop, if_pos ((Int.le_ediv_iff_mul_le (by omega)).mpr (by omega))]
  | o :: outputs => by
    have h₀ := o.digit_nonneg
    have hdigit := o.digit_le
    rw [digitLoop_step (by omega) hmax le_rfl (by omega) (by omega) (by omega), if_neg (by omega)]
    have hresult : 0 + o.digit * 1 = 0 := by omega
    have hmult : 1 * (eng.brange + 1) = 1 := by omega
    rw [hresult, hmult, digitLoop_constant hb hrange hmax outputs]

end DigitLoop

theorem increment_wraps (t : IntType) :
    (do cast t.unsigned (← operate t.unsigned (t.unsigned.max + 1))) = .error .wrapped := by
  refine IntType.forall_types (P := fun t =>
    (do cast t.unsigned (← operate t.unsigned (t.unsigned.max + 1))) = .error .wrapped) t fun s => ?_
  refine ⟨?_, ?_, ?_, ?_⟩ <;>
    norm_num [operate, cast, IntType.evaluate, IntType.convert, IntType.unsigned, IntType.max,
      IntType.card, IntType.digits, ok_bind, error_bind]

/-- **An engine with one output** and the range of the type: the limit wraps. -/
theorem limit_wraps (t : IntType) : limit t.unsigned t.unsigned.max 0 = .error .wrapped := by
  have hcard := t.unsigned.card_bounds.1
  rw [IntType.card_eq_max_add_one] at hcard
  rw [limit, if_pos rfl, cast_of_mem le_rfl (by omega), ok_bind,
    operate_of_mem (by omega) (by omega), ok_bind, zero_add, ediv_one,
    cast_of_mem (by omega) le_rfl, ok_bind, ok_bind, emod_one, if_pos rfl]
  exact increment_wraps t

end SourceLibs.UniformInt
