import SourceLibs.Random.UniformInt
import Mathlib.Algebra.Order.Archimedean.Basic
import Mathlib.Data.Int.ConditionallyCompleteOrder
import Mathlib.Order.Interval.Set.Basic

/-!
# Random — every value of the range has the same chances

The code of a value is the set of the sequences of outputs for which `generate_uniform_int` returns it.
For each body of the rejection loops the code is given outright, and every value of the range has as
many words of each length as any other.

* `generate_small`: ranges up to the range of the engine.
* `generate_large`: larger ones, but for the powers, and
* `generate_power`: the powers, where `min_value` is not added.
* `uniform_iff`: when the values are in the range, evenly distributed, and nothing wraps.
-/

namespace SourceLibs.UniformInt
open List Int

open MachineInt Codes

variable {eng : Engine} {t : IntType} {minValue maxValue range : ℤ}

/-! ### The calls -/

/-- **A call**, when the bounds are bounds. -/
theorem generate_succ (explicit : Bool) (hmin : t.min ≤ minValue) (hle : minValue ≤ maxValue)
    (hmax : maxValue ≤ t.max)
    (n : ℕ) (outputs : List eng.Output) :
    generateUniformInt explicit eng (n + 1) t minValue maxValue outputs =
      if maxValue - minValue = 0 then .ok (minValue, outputs)
      else if eng.brange = maxValue - minValue then
        match outputs with
        | [] => .error .unfinished
        | output :: outputs => .ok (output.digit + minValue, outputs)
      else if eng.brange < maxValue - minValue then
        retry .unfinished (concatenate eng (generateUniformInt explicit eng n t.unsigned 0) t minValue
          (maxValue - minValue) eng.brange) n outputs
      else
        retry .unfinished (bucket eng (mixedRangeType explicit eng.type.unsigned t.unsigned) t minValue
          (maxValue - minValue) ((eng.brange + 1) / (maxValue - minValue + 1))) n outputs := by
  rw [generateUniformInt, subtract_spec hmin hle hmax, ok_bind, Engine.subtract_range, ok_bind]
  have hbrange := eng.brange_le_max
  split_ifs with hzero heq hlt
  · rfl
  · cases outputs with
    | nil => rfl
    | cons output outputs =>
      have h₀ := output.digit_nonneg
      have hdigit := output.digit_le
      rw [Engine.draw_cons, ok_bind]
      dsimp only
      rw [add_spec h₀ (by omega) hmin (by omega), ok_bind]
  · rfl
  · dsimp only
    rw [bucketSize_spec (by omega) (by omega) hbrange (mixedRangeType_max _ _ _), ok_bind]

/-! ### Buckets -/

/-- The value of an output, if it is in a bucket. -/
def bucketValue (minValue range size : ℤ) (o : eng.Output) : Option ℤ :=
  if o.digit / size ≤ range then some (o.digit / size + minValue) else none

/-- The code of the loop over buckets. -/
def buckets (eng : Engine) (minValue range size : ℤ) : Option ℤ → Set (List eng.Output) :=
  letters (bucketValue minValue range size)

theorem bucket_cons {mixed : IntType} {size : ℤ} (hmixed : eng.brange ≤ mixed.max)
    (hmin : t.min ≤ minValue) (hmax : minValue + range ≤ t.max) (hrange₀ : 0 ≤ range)
    (hrange : range ≤ eng.brange) (hsize : 1 ≤ size) (o : eng.Output) (outputs : List eng.Output) :
    bucket eng mixed t minValue range size (o :: outputs) =
      .ok (bucketValue minValue range size o, outputs) := by
  have h₀ := o.digit_nonneg
  have hdigit := o.digit_le
  have hq₀ : 0 ≤ o.digit / size := ediv_nonneg h₀ (by omega)
  have hq : o.digit / size ≤ o.digit := ediv_le_self _ h₀
  rw [bucketValue, bucket, Engine.draw_cons, ok_bind]
  dsimp only
  rw [cast_of_mem h₀ (by omega), ok_bind,
    cast_of_mem hq₀ (by omega), ok_bind, cast_of_mem hrange₀ (by omega), ok_bind]
  split_ifs with hin
  · rw [add_spec hq₀ (by omega) hmin (by omega), ok_bind]
  · rfl

theorem bucket_reads {mixed : IntType} {size : ℤ} (hmixed : eng.brange ≤ mixed.max)
    (hmin : t.min ≤ minValue) (hmax : minValue + range ≤ t.max) (hrange₀ : 0 ≤ range)
    (hrange : range ≤ eng.brange) (hsize : 1 ≤ size) :
    Reads .unfinished (fun _ => bucket eng mixed t minValue range size)
      (buckets eng minValue range size) :=
  Reads.letters (fun _ => rfl) fun _ => bucket_cons hmixed hmin hmax hrange₀ hrange hsize

theorem buckets_some (minValue : ℤ) {size x : ℤ} (hsize : 1 ≤ size) (h₀ : 0 ≤ x) (hx : x ≤ range)
    (hfit : size * (range + 1) ≤ eng.brange + 1) :
    ∃ f : {j : ℤ // 0 ≤ j ∧ j < size} → eng.Output, (∀ j, (f j).digit = j.val + size * x) ∧
      buckets eng minValue range size (some (x + minValue)) = Set.range fun j => [f j] := by
  have hmul := mul_le_mul_of_nonneg_left hx (by omega : 0 ≤ size)
  have hmul₀ := mul_nonneg (by omega : 0 ≤ size) h₀
  rw [mul_add, mul_one] at hfit
  have hexists (j : {j : ℤ // 0 ≤ j ∧ j < size}) : ∃ o : eng.Output, o.digit = j.val + size * x :=
    Engine.exists_digit (add_nonneg j.property.1 hmul₀) (by have := j.property.2; omega)
  choose f hf using hexists
  refine ⟨f, hf, Set.ext fun w => ⟨?_, ?_⟩⟩
  · rintro ⟨o, rfl, ho⟩
    rw [bucketValue] at ho
    split_ifs at ho with hin
    · have hq : x = o.digit / size := add_right_cancel (Option.some.inj ho)
      have hmod := emod_add_mul_ediv o.digit size
      refine ⟨⟨o.digit % size, emod_nonneg _ (by omega), emod_lt_of_pos _ (by omega)⟩, ?_⟩
      refine congrArg (fun o => [o]) (Engine.Output.digit_injective ?_)
      change (f _).digit = o.digit
      rw [hf, hq]
      exact hmod
  · rintro ⟨j, rfl⟩
    have hq : (f j).digit / size = x := by
      rw [hf]
      exact ((Int.ediv_emod_unique (by omega)).mpr ⟨rfl, j.property.1, j.property.2⟩).1
    exact ⟨f j, rfl, by rw [bucketValue, hq, if_pos hx]⟩

theorem buckets_fair {size : ℤ} (hsize : 1 ≤ size) (hfit : size * (range + 1) ≤ eng.brange + 1) :
    Fair (retries (buckets eng minValue range size)) (Set.Icc minValue (minValue + range)) := by
  refine Fair.retries (prefixFree_letters _) ?_ ?_
  · rintro v _ ⟨o, rfl, ho⟩
    rw [bucketValue] at ho
    split_ifs at ho with hin
    cases ho
    have hq₀ : 0 ≤ o.digit / size := ediv_nonneg o.digit_nonneg (by omega)
    exact ⟨by omega, by omega⟩
  · rintro v v' ⟨hv₀, hv⟩ ⟨hv₀', hv'⟩
    obtain ⟨f, hf, hrange⟩ := buckets_some minValue (x := v - minValue) hsize (by omega) (by omega) hfit
    obtain ⟨g, hg, hrange'⟩ := buckets_some minValue (x := v' - minValue) hsize (by omega) (by omega) hfit
    rw [sub_add_cancel] at hrange hrange'
    rw [hrange, hrange']
    refine SameLengths.of_range ?_ ?_ fun _ => rfl
    · intro i j hij
      have hdigit := hf i
      rw [(List.cons.inj hij).1, hf j] at hdigit
      exact Subtype.ext (by omega)
    · intro i j hij
      have hdigit := hg i
      rw [(List.cons.inj hij).1, hg j] at hdigit
      exact Subtype.ext (by omega)

/-! ### Digits -/

section Concatenate

variable {k : ℕ} {upper : ℤ → List eng.Output → Checked (ℤ × List eng.Output)}

/-- The code of the loop over digits, where `G` is the code of the upper digit. -/
def concatenations (eng : Engine) (k : ℕ) (minValue range : ℤ) (G : ℤ → Set (List eng.Output))
    (v : Option ℤ) : Set (List eng.Output) :=
  {w | ∃ d u h, d.length = k ∧ u ∈ G h ∧ w = d ++ u ∧
    v = if Engine.value d + (eng.brange + 1) ^ k * h ≤ range then
      some (Engine.value d + (eng.brange + 1) ^ k * h + minValue) else none}

/-- The range of the type, larger than that of the engine, and the digits that fit into it. -/
structure Large (eng : Engine) (t : IntType) (range : ℤ) (k : ℕ) : Prop where
  one_le : 1 ≤ eng.brange
  lt : eng.brange < range
  le_max : range ≤ t.unsigned.max
  pow_le : (eng.brange + 1) ^ k ≤ range + 1
  lt_pow : range + 1 < (eng.brange + 1) ^ (k + 1)

namespace Large

variable (h : Large eng t range k)

include h

theorem limit : UniformInt.limit t.unsigned range eng.brange =
    .ok ((range + 1) / (eng.brange + 1)) :=
  limit_spec eng.brange_nonneg (.inl h.one_le) h.lt h.le_max

theorem loop {d : List eng.Output} (hd : d.length = k) (rest : List eng.Output) :
    digitLoop eng t.unsigned range eng.brange ((range + 1) / (eng.brange + 1)) 0 1 (d ++ rest) =
      .ok (exit range ((eng.brange + 1) ^ k) (Engine.value d), rest) := by
  have hloop := digitLoop_spec h.one_le h.lt h.le_max h.pow_le h.lt_pow d (i := 0) rest
    ((Nat.zero_add _).trans hd) ?_ le_rfl (by norm_num)
  · rwa [pow_zero, one_mul, zero_add] at hloop
  · rintro rfl
    have := h.one_le
    have := h.lt
    rw [pow_zero]
    omega

theorem concatenate_short {w : List eng.Output} (hw : w.length < k) :
    concatenate eng upper t minValue range eng.brange w = .error .unfinished := by
  have hloop := digitLoop_short h.one_le h.lt h.le_max h.pow_le w (i := 0) (by rwa [Nat.zero_add])
    le_rfl (by norm_num)
  rw [pow_zero] at hloop
  rw [concatenate, h.limit, ok_bind, hloop, error_bind]

/-- **A power** of the range of the engine: the digits are the value. -/
theorem concatenate_power (hpower : (eng.brange + 1) ^ k = range + 1) {d : List eng.Output}
    (hd : d.length = k) (rest : List eng.Output) :
    concatenate eng upper t minValue range eng.brange (d ++ rest) =
      .ok (some (t.convert (Engine.value d)), rest) := by
  rw [concatenate, h.limit, ok_bind, h.loop hd, ok_bind, exit,
    if_pos hpower]

variable (hne : (eng.brange + 1) ^ k ≠ range + 1)

include hne

theorem upper_bounds : 0 < (eng.brange + 1) ^ k ∧ (eng.brange + 1) ^ k ≤ range ∧
    0 ≤ range / (eng.brange + 1) ^ k ∧ range / (eng.brange + 1) ^ k ≤ eng.brange := by
  have hb := h.one_le
  have hle := h.pow_le
  have hpos : 0 < (eng.brange + 1) ^ k := pow_pos (by omega) k
  have hlt := h.lt_pow
  rw [pow_succ'] at hlt
  refine ⟨hpos, by omega, ediv_nonneg (by omega) hpos.le, Int.le_of_lt_add_one ?_⟩
  exact Int.ediv_lt_of_lt_mul hpos (by omega)

theorem concatenate_error {d rest : List eng.Output} {e : Stop} (hd : d.length = k)
    (hupper : upper (range / (eng.brange + 1) ^ k) rest = .error e) :
    concatenate eng upper t minValue range eng.brange (d ++ rest) = .error e := by
  obtain ⟨hpos, hle, hq₀, hq⟩ := h.upper_bounds hne
  have hlt := h.lt
  have hmax := h.le_max
  rw [concatenate, h.limit, ok_bind, h.loop hd, ok_bind, exit, if_neg hne]
  dsimp only
  rw [cast_of_mem hq₀ (by omega), ok_bind, hupper, error_bind]

/-- **The digits and the upper digit**: the number, if it is in the range. -/
theorem concatenate_ok {d rest rest' : List eng.Output} {x : ℤ} (hmin : t.min ≤ minValue)
    (hmaxValue : minValue + range ≤ t.max) (hd : d.length = k)
    (hupper : upper (range / (eng.brange + 1) ^ k) rest = .ok (x, rest')) (hx₀ : 0 ≤ x)
    (hx : x ≤ range / (eng.brange + 1) ^ k) :
    concatenate eng upper t minValue range eng.brange (d ++ rest) =
      .ok (if Engine.value d + (eng.brange + 1) ^ k * x ≤ range then
        some (Engine.value d + (eng.brange + 1) ^ k * x + minValue) else none, rest') := by
  obtain ⟨hpos, hle, hq₀, hq⟩ := h.upper_bounds hne
  obtain ⟨hd₀, hdlt⟩ := Engine.value_bounds d
  rw [hd] at hdlt
  have hlt := h.lt
  have hmax := h.le_max
  have hcard : 0 < (2 : ℤ) ^ t.bits := by positivity
  have hinc₀ := mul_nonneg hx₀ hpos.le
  have hinc : x * (eng.brange + 1) ^ k ≤ range := (Int.le_ediv_iff_mul_le hpos).mp hx
  have hguard : ¬ t.unsigned.max / (eng.brange + 1) ^ k < x :=
    not_lt.mpr (hx.trans (Int.ediv_le_ediv hpos hmax))
  rw [concatenate, h.limit, ok_bind, h.loop hd, ok_bind, exit, if_neg hne]
  dsimp only
  rw [cast_of_mem hq₀ (by omega), ok_bind, hupper, ok_bind]
  dsimp only
  rw [if_neg hguard, operate_of_mem hinc₀ (by omega), ok_bind, cast_of_mem hinc₀ (by omega), ok_bind]
  obtain ⟨s, hs, hconvert⟩ := IntType.evaluate_add (t := t) hd₀ (by omega) hinc₀ (by omega)
  rw [operateTested, hs]
  dsimp only
  rw [ok_bind, hconvert, mul_comm _ x]
  by_cases hin : Engine.value d + x * (eng.brange + 1) ^ k ≤ range
  · have hfit : Engine.value d + x * (eng.brange + 1) ^ k ≤ t.unsigned.max := hin.trans hmax
    rw [if_pos hfit, if_neg (by omega), if_neg (by omega), if_pos hin,
      add_spec (by omega) hfit hmin (by omega), ok_bind]
  · rw [if_neg hin]
    -- a sum that wraps is below the upper digit, and one that does not is above the range
    split_ifs <;> first | rfl | omega

/-- **The body of the loop** reads the digits and the upper digit. -/
theorem concatenate_reads (hmin : t.min ≤ minValue) (hmaxValue : minValue + range ≤ t.max)
    {upper : ℕ → ℤ → List eng.Output → Checked (ℤ × List eng.Output)}
    {G : ℤ → Set (List eng.Output)}
    (hupper : Reads .unfinished (fun n => upper n (range / (eng.brange + 1) ^ k)) G)
    (hG : Fair G (Set.Icc 0 (range / (eng.brange + 1) ^ k))) :
    Reads .unfinished (fun n => concatenate eng (upper n) t minValue range eng.brange)
      (concatenations eng k minValue range G) where
  stops := by
    intro n w e he
    by_cases hw : w.length < k
    · rw [h.concatenate_short hw] at he
      cases he
      rfl
    · obtain ⟨d, rest, rfl, hd⟩ : ∃ d rest, w = d ++ rest ∧ d.length = k :=
        ⟨w.take k, w.drop k, (take_append_drop k w).symm, length_take_of_le (by omega)⟩
      cases hrest : upper n (range / (eng.brange + 1) ^ k) rest with
      | error e' =>
        rw [h.concatenate_error hne hd hrest] at he
        cases he
        exact hupper.stops hrest
      | ok r =>
        obtain ⟨x, rest'⟩ := r
        obtain ⟨u, hu, -⟩ := hupper.sound hrest
        obtain ⟨hx₀, hx⟩ := hG.mem hu
        rw [h.concatenate_ok hne hmin hmaxValue hd hrest hx₀ hx] at he
        cases he
  sound := by
    intro n w v out he
    by_cases hw : w.length < k
    · rw [h.concatenate_short hw] at he
      cases he
    · obtain ⟨d, rest, rfl, hd⟩ : ∃ d rest, w = d ++ rest ∧ d.length = k :=
        ⟨w.take k, w.drop k, (take_append_drop k w).symm, length_take_of_le (by omega)⟩
      cases hrest : upper n (range / (eng.brange + 1) ^ k) rest with
      | error e' =>
        rw [h.concatenate_error hne hd hrest] at he
        cases he
      | ok r =>
        obtain ⟨x, rest'⟩ := r
        obtain ⟨u, hu, rfl⟩ := hupper.sound hrest
        obtain ⟨hx₀, hx⟩ := hG.mem hu
        rw [h.concatenate_ok hne hmin hmaxValue hd hrest hx₀ hx] at he
        cases he
        exact ⟨d ++ u, ⟨d, u, x, hd, hu, rfl, rfl⟩, (List.append_assoc _ _ _).symm⟩
  complete := by
    rintro v _ ⟨d, u, x, hd, hu, rfl, rfl⟩
    obtain ⟨hx₀, hx⟩ := hG.mem hu
    obtain ⟨n, hn⟩ := hupper.complete hu
    refine ⟨n, fun m hm rest => ?_⟩
    rw [List.append_assoc]
    exact h.concatenate_ok hne hmin hmaxValue hd (hn m hm rest) hx₀ hx

end Large

theorem concatenations_prefixFree {G : ℤ → Set (List eng.Output)} (hG : PrefixFree G) :
    PrefixFree (concatenations eng k minValue range G) := by
  rintro _ _ _ _ y z ⟨d, u, x, hd, hu, rfl, rfl⟩ ⟨d', u', x', hd', hu', rfl, rfl⟩ heq
  rw [List.append_assoc, List.append_assoc] at heq
  obtain ⟨rfl, hrest⟩ := append_inj heq (hd.trans hd'.symm)
  obtain ⟨rfl, rfl⟩ := hG hu hu' hrest
  exact ⟨rfl, rfl⟩

/-- **The words of a value**: its digits, and the words of its upper digit. -/
theorem concatenations_some {G : ℤ → Set (List eng.Output)} {v : ℤ} (hv : v - minValue ≤ range)
    {d : List eng.Output} (hd : d.length = k)
    (hvalue : Engine.value d = (v - minValue) % (eng.brange + 1) ^ k) :
    concatenations eng k minValue range G (some v) =
      (d ++ ·) '' G ((v - minValue) / (eng.brange + 1) ^ k) := by
  have hsplit := emod_add_mul_ediv (v - minValue) ((eng.brange + 1) ^ k)
  ext w
  constructor
  · rintro ⟨d', u, x, hd', hu, rfl, hx⟩
    split_ifs at hx with hin
    have hval : v - minValue = Engine.value d' + (eng.brange + 1) ^ k * x := by
      have := Option.some.inj hx
      omega
    have hbounds := Engine.value_bounds d'
    rw [hd'] at hbounds
    have hparts := (Int.ediv_emod_unique (hbounds.1.trans_lt hbounds.2)).mpr ⟨hval.symm, hbounds⟩
    obtain rfl : d' = d :=
      Engine.value_injective (hd'.trans hd.symm) (hparts.2.symm.trans hvalue.symm)
    rw [← hparts.1] at hu
    exact ⟨u, hu, rfl⟩
  · rintro ⟨u, hu, rfl⟩
    refine ⟨d, u, _, hd, hu, rfl, ?_⟩
    rw [hvalue, hsplit, if_pos hv, sub_add_cancel]

/-- **Fair upper digits** give even numbers. -/
theorem concatenations_fair {G : ℤ → Set (List eng.Output)}
    (hpos : 0 < (eng.brange + 1) ^ k) (hG : Fair G (Set.Icc 0 (range / (eng.brange + 1) ^ k))) :
    Fair (retries (concatenations eng k minValue range G))
      (Set.Icc minValue (minValue + range)) := by
  refine Fair.retries (concatenations_prefixFree hG.prefixFree) ?_ ?_
  · rintro v _ ⟨d, u, x, hd, hu, rfl, hx⟩
    split_ifs at hx with hin
    cases hx
    have hvalue := (Engine.value_bounds d).1
    have hmul := mul_nonneg hpos.le (hG.mem hu).1
    exact ⟨by omega, by omega⟩
  · rintro v v' ⟨hv₀, hv⟩ ⟨hv₀', hv'⟩
    have hdigits (x : ℤ) : ∃ d : List eng.Output, d.length = k ∧
        Engine.value d = x % (eng.brange + 1) ^ k :=
      Engine.exists_value k (emod_nonneg x hpos.ne') (emod_lt_of_pos x hpos)
    have hupper {x : ℤ} (hx₀ : 0 ≤ x) (hx : x ≤ range) :
        x / (eng.brange + 1) ^ k ∈ Set.Icc 0 (range / (eng.brange + 1) ^ k) :=
      ⟨ediv_nonneg hx₀ hpos.le, Int.ediv_le_ediv hpos hx⟩
    obtain ⟨d, hd, hvalue⟩ := hdigits (v - minValue)
    obtain ⟨d', hd', hvalue'⟩ := hdigits (v' - minValue)
    rw [concatenations_some (by omega) hd hvalue, concatenations_some (by omega) hd' hvalue']
    exact SameLengths.prepend (hd.trans hd'.symm)
      (hG.same (hupper (by omega) (by omega)) (hupper (by omega) (by omega)))

end Concatenate

/-! ### The code of a call -/

/-- **Up to the range of the engine** every value has the same chances. -/
theorem generate_small (explicit : Bool) (eng : Engine) (hmin : t.min ≤ minValue) (hle : minValue ≤ maxValue)
    (hmax : maxValue ≤ t.max) (hsmall : maxValue - minValue ≤ eng.brange) :
    ∃ C, Reads .unfinished (fun n => generateUniformInt explicit eng n t minValue maxValue) C ∧
      Fair C (Set.Icc minValue maxValue) := by
  have hsucc (n : ℕ) (w : List eng.Output) := generate_succ explicit hmin hle hmax n w
  have hcall {C : ℤ → Set (List eng.Output)} (h : Reads .unfinished
      (fun n => generateUniformInt explicit eng (n + 1) t minValue maxValue) C) :=
    Reads.of_succ (r := fun n => generateUniformInt explicit eng n t minValue maxValue) h
      (fun _ => rfl) fun _ _ => rfl
  by_cases hzero : maxValue - minValue = 0
  · obtain rfl : minValue = maxValue := by omega
    rw [Set.Icc_self]
    exact ⟨_, hcall (Reads.constant fun n w => by rw [hsucc, if_pos hzero]), Fair.constant minValue⟩
  by_cases heq : eng.brange = maxValue - minValue
  · have hinj : Function.Injective fun o : eng.Output => o.digit + minValue := fun o o' h =>
      Engine.Output.digit_injective (add_right_cancel h)
    have hrange : Set.range (fun o : eng.Output => o.digit + minValue) =
        Set.Icc minValue maxValue := by
      ext v
      constructor
      · rintro ⟨o, rfl⟩
        have h₀ := o.digit_nonneg
        have hdigit := o.digit_le
        simp only [Set.mem_Icc]
        omega
      · rintro ⟨h₀, hv⟩
        obtain ⟨o, ho⟩ : ∃ o : eng.Output, o.digit = v - minValue :=
          Engine.exists_digit (by omega) (by omega)
        exact ⟨o, by simp only [ho, sub_add_cancel]⟩
    have hfair := Fair.letters hinj
    rw [hrange] at hfair
    refine ⟨_, hcall (Reads.letters (fun n => ?_) fun n o w => ?_), hfair⟩
    · rw [hsucc, if_neg hzero, if_pos heq]
    · rw [hsucc, if_neg hzero, if_pos heq]
  · have hsize : 1 ≤ (eng.brange + 1) / (maxValue - minValue + 1) :=
      (Int.le_ediv_iff_mul_le (by omega)).mpr (by omega)
    have hfit : (eng.brange + 1) / (maxValue - minValue + 1) * (maxValue - minValue + 1) ≤
        eng.brange + 1 := Int.ediv_mul_le _ (by omega)
    have hreads := Reads.retry (bucket_reads (t := t)
      (eng.brange_le_max.trans (mixedRangeType_max explicit eng.type.unsigned t.unsigned)) hmin
      (by omega) (by omega) hsmall hsize)
    have hfair : Fair (retries (buckets eng minValue (maxValue - minValue) _)) _ :=
      buckets_fair hsize hfit
    rw [add_sub_cancel] at hfair
    refine ⟨_, Reads.of_succ hreads (fun _ => rfl) fun n w => ?_, hfair⟩
    rw [hsucc, if_neg hzero, if_neg heq, if_neg (by omega)]

/-- The digits that fit into a range above that of the engine. -/
theorem exists_large (hmin : t.min ≤ minValue) (hmax : maxValue ≤ t.max) (hb : 1 ≤ eng.brange)
    (hlt : eng.brange < maxValue - minValue) : ∃ k, Large eng t (maxValue - minValue) k := by
  obtain ⟨k, hk, hk'⟩ := exists_nat_pow_near (by omega : 1 ≤ maxValue - minValue + 1)
    (by omega : 1 < eng.brange + 1)
  have hcard := t.unsigned_max
  exact ⟨k, hb, hlt, by omega, hk, hk'⟩

section Large

variable {k : ℕ}

/-- **Above the range of the engine**, but for its powers, every value has the same chances. -/
theorem generate_large (explicit : Bool) (hmin : t.min ≤ minValue) (hle : minValue ≤ maxValue)
    (hmax : maxValue ≤ t.max) (h : Large eng t (maxValue - minValue) k)
    (hne : (eng.brange + 1) ^ k ≠ maxValue - minValue + 1) :
    ∃ C, Reads .unfinished (fun n => generateUniformInt explicit eng n t minValue maxValue) C ∧
      Fair C (Set.Icc minValue maxValue) := by
  have hb := h.one_le
  have hlt := h.lt
  have hmax' := h.le_max
  obtain ⟨hpos, hpow, hq₀, hq⟩ := h.upper_bounds hne
  have hunsigned : t.unsigned.min = 0 := IntType.min_of_unsigned rfl
  obtain ⟨G, hreads, hfair⟩ := generate_small (t := t.unsigned) explicit eng (by rw [hunsigned]) hq₀
    ((ediv_le_self _ (by omega)).trans hmax') (by omega)
  have hloop := Reads.retry (h.concatenate_reads hne hmin (by omega) hreads hfair)
  have hcode : Fair (retries (concatenations eng k minValue (maxValue - minValue) G)) _ :=
    concatenations_fair hpos hfair
  rw [add_sub_cancel] at hcode
  refine ⟨_, Reads.of_succ hloop (fun _ => rfl) fun n w => ?_, hcode⟩
  rw [generate_succ explicit hmin hle hmax, if_neg (by omega), if_neg (by omega), if_pos hlt]

/-- The words of the digits. -/
def digitCode (eng : Engine) (k : ℕ) (f : ℤ → ℤ) (v : ℤ) : Set (List eng.Output) :=
  {w | w.length = k ∧ v = f (Engine.value w)}

/-- **A power** of the range of the engine: the digits are the value, and `min_value` is not added. -/
theorem generate_power (explicit : Bool) (hmin : t.min ≤ minValue) (hle : minValue ≤ maxValue)
    (hmax : maxValue ≤ t.max) (h : Large eng t (maxValue - minValue) k)
    (hpower : (eng.brange + 1) ^ k = maxValue - minValue + 1) :
    Reads .unfinished (fun n => generateUniformInt explicit eng n t minValue maxValue)
      (digitCode eng k t.convert) := by
  have hb := h.one_le
  have hlt := h.lt
  have hsucc (n : ℕ) (w : List eng.Output) :
      generateUniformInt explicit eng (n + 1) t minValue maxValue w =
        retry .unfinished (concatenate eng (generateUniformInt explicit eng n t.unsigned 0) t minValue
          (maxValue - minValue) eng.brange) n w := by
    rw [generate_succ explicit hmin hle hmax, if_neg (by omega), if_neg (by omega), if_pos hlt]
  have hloop {d : List eng.Output} (hd : d.length = k) (n : ℕ) (rest : List eng.Output) :
      generateUniformInt explicit eng (n + 2) t minValue maxValue (d ++ rest) =
        .ok (t.convert (Engine.value d), rest) := by
    rw [hsucc]
    exact retry_of_some (h.concatenate_power hpower hd rest) n
  have hshort {n : ℕ} {w : List eng.Output} (hw : n < 2 ∨ w.length < k) :
      generateUniformInt explicit eng n t minValue maxValue w = .error .unfinished := by
    match n, hw with
    | 0, _ => rfl
    | 1, _ => rw [hsucc, retry]
    | n + 2, hw =>
      rw [hsucc]
      exact retry_of_error (h.concatenate_short (by omega)) n
  have hcases (n : ℕ) (w : List eng.Output) : (n < 2 ∨ w.length < k) ∨
      ∃ m d rest, n = m + 2 ∧ w = d ++ rest ∧ d.length = k := by
    by_cases hw : n < 2 ∨ w.length < k
    · exact .inl hw
    · exact .inr ⟨n - 2, w.take k, w.drop k, by omega, (take_append_drop k w).symm,
        length_take_of_le (by omega)⟩
  refine ⟨fun n w e he => ?_, fun n w v out he => ?_, ?_⟩
  · rcases hcases n w with hw | ⟨m, d, rest, rfl, rfl, hd⟩
    · rw [hshort hw] at he
      cases he
      rfl
    · rw [hloop hd] at he
      cases he
  · rcases hcases n w with hw | ⟨m, d, rest, rfl, rfl, hd⟩
    · rw [hshort hw] at he
      cases he
    · rw [hloop hd] at he
      cases he
      exact ⟨d, ⟨hd, rfl⟩, rfl⟩
  · rintro _ d ⟨hd, rfl⟩
    refine ⟨2, fun m hm rest => ?_⟩
    obtain ⟨m, rfl⟩ := Nat.exists_eq_add_of_le' hm
    exact hloop hd m rest

theorem digitCode_fair {f : ℤ → ℤ} {S : Set ℤ}
    (hf : ∀ x y, 0 ≤ x → x < (eng.brange + 1) ^ k → 0 ≤ y → y < (eng.brange + 1) ^ k → f x = f y → x = y)
    (hS : ∀ v, v ∈ S ↔ ∃ x, 0 ≤ x ∧ x < (eng.brange + 1) ^ k ∧ v = f x) :
    Fair (digitCode eng k f) S where
  prefixFree := by
    rintro _ _ u v x y ⟨hu, rfl⟩ ⟨hv, rfl⟩ heq
    obtain ⟨rfl, -⟩ := append_inj heq (hu.trans hv.symm)
    exact ⟨rfl, rfl⟩
  mem := by
    rintro _ u ⟨hu, rfl⟩
    have hbounds := Engine.value_bounds u
    rw [hu] at hbounds
    exact (hS _).mpr ⟨_, hbounds.1, hbounds.2, rfl⟩
  same := by
    intro v v' hv hv'
    have hrange {v : ℤ} (hv : v ∈ S) : ∃ d : List eng.Output, d.length = k ∧
        Set.range (fun _ : Unit => d) = digitCode eng k f v := by
      obtain ⟨x, hx₀, hx, rfl⟩ := (hS v).mp hv
      obtain ⟨d, hd, hvalue⟩ := Engine.exists_value k hx₀ hx
      refine ⟨d, hd, Set.ext fun w => ⟨?_, ?_⟩⟩
      · rintro ⟨-, rfl⟩
        exact ⟨hd, by rw [hvalue]⟩
      · rintro ⟨hw, hwf⟩
        have hbounds := Engine.value_bounds w
        rw [hw] at hbounds
        have hxw := hf _ _ hx₀ hx hbounds.1 hbounds.2 hwf
        exact ⟨(), Engine.value_injective (hd.trans hw.symm) (hvalue.trans hxw)⟩
    obtain ⟨d, hd, hdv⟩ := hrange hv
    obtain ⟨d', hd', hdv'⟩ := hrange hv'
    rw [← hdv, ← hdv']
    exact SameLengths.of_range (fun _ _ _ => rfl) (fun _ _ _ => rfl) fun _ => hd.trans hd'.symm

end Large

/-! ### When the values are uniform -/

/-- The values are in the range, no unsigned result wraps untested, and the sequences of outputs of
each length that give a value are as many for every value of the range. -/
structure Uniform (explicit : Bool) (eng : Engine) (t : IntType) (minValue maxValue : ℤ) : Prop where
  in_range : ∀ fuel (outputs : List eng.Output) v rest,
    generateUniformInt explicit eng fuel t minValue maxValue outputs = .ok (v, rest) →
      minValue ≤ v ∧ v ≤ maxValue
  no_wrap : ∀ fuel (outputs : List eng.Output) e,
    generateUniformInt explicit eng fuel t minValue maxValue outputs = .error e → e = .unfinished
  same : ∀ v v' n, minValue ≤ v → v ≤ maxValue → minValue ≤ v' → v' ≤ maxValue →
    {outputs : List eng.Output | outputs.length = n ∧
      ∃ fuel, generateUniformInt explicit eng fuel t minValue maxValue outputs = .ok (v, [])}.ncard =
    {outputs : List eng.Output | outputs.length = n ∧
      ∃ fuel, generateUniformInt explicit eng fuel t minValue maxValue outputs = .ok (v', [])}.ncard

theorem uniform_of_fair {explicit : Bool} {C : ℤ → Set (List eng.Output)}
    (h : Reads .unfinished (fun n => generateUniformInt explicit eng n t minValue maxValue) C)
    (hC : Fair C (Set.Icc minValue maxValue)) : Uniform explicit eng t minValue maxValue where
  in_range := by
    intro fuel outputs v rest hv
    obtain ⟨u, hu, -⟩ := h.sound hv
    exact hC.mem hu
  no_wrap := fun _ _ _ he => h.stops he
  same := by
    intro v v' n h₀ hv h₀' hv'
    have hwords (v : ℤ) : {outputs : List eng.Output | outputs.length = n ∧
        ∃ fuel, generateUniformInt explicit eng fuel t minValue maxValue outputs = .ok (v, [])} =
        {w ∈ C v | w.length = n} := by
      rw [← h.words v]
      exact Set.ext fun w => and_comm
    rw [hwords, hwords]
    exact (hC.same ⟨h₀, hv⟩ ⟨h₀', hv'⟩).ncard_eq n

/-- An engine with one output: no number is found, -/
theorem generate_constant (explicit : Bool) (hmin : t.min ≤ minValue) (hle : minValue < maxValue)
    (hmax : maxValue ≤ t.max) (hb : eng.brange = 0) (hrange : maxValue - minValue ≠ t.unsigned.max) :
    Reads .unfinished (fun n => generateUniformInt explicit eng n t minValue maxValue) fun _ => ∅ := by
  have hcard := t.unsigned_max
  have hbody (upper : ℤ → List eng.Output → Checked (ℤ × List eng.Output)) (w : List eng.Output) :
      concatenate eng upper t minValue (maxValue - minValue) eng.brange w = .error .unfinished := by
    rw [concatenate, limit_spec eng.brange_nonneg (.inr hrange) (by omega) (by omega), ok_bind,
      digitLoop_constant hb (by omega) (by omega), error_bind]
  have hcall : ∀ n (w : List eng.Output),
      generateUniformInt explicit eng n t minValue maxValue w = .error .unfinished
    | 0, _ => rfl
    | n + 1, w => by
      rw [generate_succ explicit hmin hle.le hmax, if_neg (by omega), if_neg (by omega),
        if_pos (by omega)]
      cases n with
      | zero => rfl
      | succ n => exact retry_of_error (hbody _ w) n
  refine ⟨fun n w e he => ?_, fun n w v rest he => ?_, fun v u hu => hu.elim⟩
  · rw [hcall] at he
    cases he
    rfl
  · rw [hcall] at he
    cases he

theorem generate_wraps (explicit : Bool) (hmin : t.min ≤ minValue) (hle : minValue ≤ maxValue)
    (hmax : maxValue ≤ t.max) (hb : eng.brange = 0) (hrange : maxValue - minValue = t.unsigned.max) :
    generateUniformInt explicit eng 2 t minValue maxValue [] = .error .wrapped := by
  have hcard := t.unsigned.card_bounds.1
  rw [IntType.card_eq_max_add_one] at hcard
  rw [generate_succ explicit hmin hle hmax, if_neg (by omega), if_neg (by omega), if_pos (by omega)]
  refine retry_of_error ?_ 0
  rw [concatenate, hrange, hb, limit_wraps, error_bind]

theorem power_fair {k : ℕ} (hmin : t.min ≤ minValue) (hmax : maxValue ≤ t.max)
    (hpower : (eng.brange + 1) ^ k = maxValue - minValue + 1)
    (h : minValue = 0 ∨ maxValue - minValue = t.unsigned.max) :
    Fair (digitCode eng k t.convert) (Set.Icc minValue maxValue) := by
  have hcard := t.unsigned_max
  have hmin₀ := t.min_le_zero
  have hmax₀ := t.max_nonneg
  have hconvert {x : ℤ} (h₀ : 0 ≤ x) (hx : x < maxValue - minValue + 1) :
      t.convert x = if x ≤ t.max then x else x - t.unsigned.max - 1 :=
    IntType.convert_of_unsigned h₀ (by omega)
  refine digitCode_fair ?_ fun v => ⟨?_, ?_⟩
  · intro x y hx₀ hx hy₀ hy heq
    rw [hpower] at hx hy
    rw [hconvert hx₀ hx, hconvert hy₀ hy] at heq
    split_ifs at heq <;> omega
  · rintro ⟨hv₀, hv⟩
    rw [hpower]
    by_cases hneg : 0 ≤ v
    · refine ⟨v, hneg, by omega, ?_⟩
      rw [IntType.convert_of_mem hneg (by omega)]
    · refine ⟨v + t.unsigned.max + 1, by omega, by omega, ?_⟩
      rw [hconvert (by omega) (by omega), if_neg (by omega)]
      ring
  · rintro ⟨x, hx₀, hx, rfl⟩
    rw [hpower] at hx
    rw [hconvert hx₀ hx]
    split_ifs
    · exact ⟨by omega, by omega⟩
    · exact ⟨by omega, by omega⟩

/-- **`generate_uniform_int` is uniform** if and only if the engine has more outputs than one or the
range is not that of the type, and the range is no proper power of that of the engine, or it starts at
zero or is that of the type. -/
theorem uniform_iff (explicit : Bool) (eng : Engine) (t : IntType) (minValue maxValue : ℤ)
    (hmin : t.min ≤ minValue) (hle : minValue ≤ maxValue) (hmax : maxValue ≤ t.max) :
    Uniform explicit eng t minValue maxValue ↔
      (eng.max - eng.min = 0 → maxValue - minValue ≠ t.unsigned.max) ∧
      (eng.max - eng.min < maxValue - minValue →
        (∃ k : ℕ, (eng.max - eng.min + 1) ^ k = maxValue - minValue + 1) →
          minValue = 0 ∨ maxValue - minValue = t.unsigned.max) := by
  change _ ↔ (eng.brange = 0 → _) ∧ (eng.brange < _ → (∃ k : ℕ, (eng.brange + 1) ^ k = _) → _)
  have hb := eng.brange_nonneg
  have hcard := t.unsigned_max
  have hmax₀ := t.max_nonneg
  constructor
  · refine fun h => ⟨fun hzero hrange => ?_, fun hlt ⟨k, hpower⟩ => ?_⟩
    · have := h.no_wrap 2 [] _ (generate_wraps explicit hmin hle hmax hzero hrange)
      cases this
    · have hone : 1 ≤ eng.brange := by
        by_contra hzero
        obtain hzero : eng.brange = 0 := by omega
        rw [hzero, zero_add, one_pow] at hpower
        omega
      have hlarge : Large eng t (maxValue - minValue) k := by
        refine ⟨hone, hlt, by omega, hpower.le, ?_⟩
        rw [← hpower]
        exact pow_lt_pow_right₀ (by omega) (Nat.lt_succ_self k)
      have hreads := generate_power explicit hmin hle hmax hlarge hpower
      -- every number below the power is returned
      have hvalue {x : ℤ} (hx₀ : 0 ≤ x) (hx : x ≤ maxValue - minValue) :
          minValue ≤ t.convert x ∧ t.convert x ≤ maxValue := by
        obtain ⟨d, hd, rfl⟩ : ∃ d : List eng.Output, d.length = k ∧ Engine.value d = x :=
          Engine.exists_value k hx₀ (by omega)
        obtain ⟨n, hn⟩ := hreads.complete ⟨hd, rfl⟩
        exact h.in_range n (d ++ []) _ [] (hn n le_rfl [])
      have hconvert {x : ℤ} (hx₀ : 0 ≤ x) (hx : x ≤ maxValue - minValue) :
          t.convert x = if x ≤ t.max then x else x - t.unsigned.max - 1 :=
        IntType.convert_of_unsigned hx₀ (by omega)
      have hzero := hvalue le_rfl (by omega)
      rw [hconvert le_rfl (by omega), if_pos (by omega)] at hzero
      by_cases hfit : maxValue - minValue ≤ t.max
      · have hlast := hvalue (by omega) le_rfl
        rw [hconvert (by omega) le_rfl, if_pos hfit] at hlast
        omega
      · have hbig := hvalue (x := t.max) (by omega) (by omega)
        have hnext := hvalue (x := t.max + 1) (by omega) (by omega)
        rw [hconvert (by omega) (by omega), if_pos le_rfl] at hbig
        rw [hconvert (by omega) (by omega), if_neg (by omega)] at hnext
        omega
  · rintro ⟨hfull, hstart⟩
    by_cases hsmall : maxValue - minValue ≤ eng.brange
    · obtain ⟨C, hreads, hfair⟩ := generate_small explicit eng hmin hle hmax hsmall
      exact uniform_of_fair hreads hfair
    by_cases hzero : eng.brange = 0
    · have hreads := generate_constant explicit hmin (by omega) hmax hzero (hfull hzero)
      refine uniform_of_fair hreads ⟨fun _ _ _ _ _ _ hu => hu.elim, fun _ _ hu => hu.elim, ?_⟩
      exact fun _ _ _ _ => ⟨Equiv.refl _, fun _ => rfl⟩
    obtain ⟨k, hlarge⟩ := exists_large hmin hmax (by omega) (not_le.mp hsmall)
    by_cases hpower : (eng.brange + 1) ^ k = maxValue - minValue + 1
    · exact uniform_of_fair (generate_power explicit hmin hle hmax hlarge hpower)
        (power_fair hmin hmax hpower (hstart (not_le.mp hsmall) ⟨k, hpower⟩))
    · obtain ⟨C, hreads, hfair⟩ := generate_large explicit hmin hle hmax hlarge hpower
      exact uniform_of_fair hreads hfair

/-- A coin: an engine of the outputs 0 and 1. -/
def coin : Engine := ⟨⟨32, false, by decide⟩, 0, 1, by decide, by decide, by decide⟩

/-- Two tosses for the range from 0 to 3, and three for the range from 10 to 14. -/
theorem uniform_iff_coin :
    Uniform true coin ⟨32, true, by decide⟩ 0 3 ∧ Uniform true coin ⟨32, true, by decide⟩ 10 14 := by
  constructor
  · exact (uniform_iff true coin _ 0 3 (by decide) (by decide) (by decide)).mpr
      ⟨by decide, fun _ _ => .inl rfl⟩
  · refine (uniform_iff true coin _ 10 14 (by decide) (by decide) (by decide)).mpr
      ⟨by decide, fun _ ⟨k, hk⟩ => ?_⟩
    have hk : (2 : ℤ) ^ k = 5 := hk
    cases k with
    | zero => exact absurd hk (by decide)
    | succ k =>
      rw [pow_succ] at hk
      omega

/-- **The minimum is lost**: two tosses for the range from 10 to 13 give a number from 0 to 3. -/
theorem coin_loses_minimum : ¬ Uniform true coin ⟨32, true, by decide⟩ 10 13 := by
  intro h
  have hrun : generateUniformInt true coin 2 ⟨32, true, by decide⟩ 10 13
      [⟨0, by decide⟩, ⟨0, by decide⟩] = .ok (0, []) := by rfl
  have := (h.in_range _ _ _ _ hrun).1
  omega

end SourceLibs.UniformInt
