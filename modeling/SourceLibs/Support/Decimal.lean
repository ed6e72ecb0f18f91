import Mathlib.Data.Nat.Digits.Lemmas

/-!
# Support — decimal text

The decimal text of a natural number, in bytes, and the value of a text read from the left.

* `decimal_of_lt`, `decimal_of_le`: the last digit is the remainder by ten.
* `length_decimal_le_iff`: how long the text is.
* `valueFrom_decimal`, `decimal_valueFrom`: a text of digits without a leading zero is the text of its
  value, and of no other number.
-/

namespace SourceLibs.Decimal
open List

/-- The byte of a digit. -/
def digit (d : ℕ) : UInt8 := .ofNat (48 + d)

/-- `b` is the byte of a digit. -/
def IsDigit (b : UInt8) : Prop := 48 ≤ b.toNat ∧ b.toNat ≤ 57

instance (b : UInt8) : Decidable (IsDigit b) := inferInstanceAs (Decidable (_ ∧ _))

/-- The decimal text of `n`. -/
def decimal (n : ℕ) : List UInt8 :=
  if n = 0 then [digit 0] else (Nat.digits 10 n).reverse.map digit

/-- The value of a text, read on from `v`. -/
def valueFrom (v : ℕ) (s : List UInt8) : ℕ := s.foldl (fun v b => 10 * v + (b.toNat - 48)) v

variable {n d k v : ℕ} {s : List UInt8} {b : UInt8}

theorem toNat_digit (h : d < 10) : (digit d).toNat = 48 + d := by
  rw [digit, UInt8.toNat_ofNat', Nat.mod_eq_of_lt (by omega)]

theorem isDigit_digit (h : d < 10) : IsDigit (digit d) := by
  rw [IsDigit, toNat_digit h]
  omega

theorem IsDigit.eq_digit (h : IsDigit b) : b = digit (b.toNat - 48) := by
  have hb := h
  rw [IsDigit] at hb
  refine UInt8.toNat_inj.mp ?_
  rw [toNat_digit (by omega)]
  omega

theorem decimal_of_lt (h : n < 10) : decimal n = [digit n] := by
  by_cases hn : n = 0
  · rw [hn]
    rfl
  · rw [decimal, if_neg hn, Nat.digits_of_lt 10 n hn h]
    rfl

/-- **The last digit.** -/
theorem decimal_of_le (h : 10 ≤ n) : decimal n = decimal (n / 10) ++ [digit (n % 10)] := by
  have hdiv : n / 10 ≠ 0 := by omega
  rw [decimal, if_neg (by omega), Nat.digits_def' (by omega) (by omega), reverse_cons,
    map_append, decimal, if_neg hdiv]
  rfl

theorem decimal_ne_nil (n : ℕ) : decimal n ≠ [] := by
  by_cases h : n < 10
  · rw [decimal_of_lt h]
    exact cons_ne_nil _ _
  · rw [decimal_of_le (by omega)]
    simp

/-- **The length of the text.** -/
theorem length_decimal_le_iff (hk : 0 < k) : (decimal n).length ≤ k ↔ n < 10 ^ k := by
  rw [decimal]
  by_cases hn : n = 0
  · rw [if_pos hn, hn]
    exact ⟨fun _ => Nat.pow_pos (by omega), fun _ => hk⟩
  · rw [if_neg hn, length_map, length_reverse]
    exact Nat.digits_length_le_iff (by omega) n

theorem length_decimal_eq (hlo : 10 ^ k ≤ n) (hhi : n < 10 ^ (k + 1)) :
    (decimal n).length = k + 1 := by
  have hle := (length_decimal_le_iff (n := n) (k := k + 1) (by omega)).mpr hhi
  cases k with
  | zero =>
    have hne := length_pos_of_ne_nil (decimal_ne_nil n)
    omega
  | succ k =>
    have hlt : ¬ (decimal n).length ≤ k + 1 := fun h =>
      absurd ((length_decimal_le_iff (by omega)).mp h) (by omega)
    omega

/-- The text without its last `k` digits. -/
theorem length_decimal_div (h : 10 ^ k ≤ n) :
    (decimal n).length = k + (decimal (n / 10 ^ k)).length := by
  induction k with
  | zero => simp
  | succ k ih =>
    have hk : 10 ^ k ≤ n := (Nat.pow_le_pow_right (by omega) (by omega)).trans h
    have hten : 10 ≤ n / 10 ^ k := by
      rw [Nat.le_div_iff_mul_le (Nat.pow_pos (by omega)), mul_comm, ← pow_succ]
      exact h
    rw [ih hk, decimal_of_le hten, length_append, Nat.div_div_eq_div_mul, ← pow_succ,
      length_singleton]
    omega

theorem isDigit_of_mem : ∀ b ∈ decimal n, IsDigit b := by
  induction n using Nat.strong_induction_on with
  | _ n ih =>
    intro b hb
    by_cases h : n < 10
    · rw [decimal_of_lt h, mem_singleton] at hb
      exact hb ▸ isDigit_digit h
    · rw [decimal_of_le (by omega), mem_append, mem_singleton] at hb
      rcases hb with hb | rfl
      · exact ih (n / 10) (by omega) b hb
      · exact isDigit_digit (Nat.mod_lt n (by omega))

theorem head_decimal (h : 0 < n) : (decimal n).head? ≠ some (digit 0) := by
  induction n using Nat.strong_induction_on with
  | _ n ih =>
    by_cases hn : n < 10
    · rw [decimal_of_lt hn, head?_cons, ne_eq, Option.some_inj]
      intro he
      have hval := congrArg UInt8.toNat he
      rw [toNat_digit hn, toNat_digit (by omega)] at hval
      omega
    · rw [decimal_of_le (by omega), head?_append_of_ne_nil _ (decimal_ne_nil _)]
      exact ih (n / 10) (by omega) (by omega)

theorem valueFrom_append (v : ℕ) (s t : List UInt8) :
    valueFrom v (s ++ t) = valueFrom (valueFrom v s) t := foldl_append

theorem valueFrom_nil (v : ℕ) : valueFrom v [] = v := rfl

theorem valueFrom_cons (v : ℕ) (b : UInt8) (s : List UInt8) :
    valueFrom v (b :: s) = valueFrom (10 * v + (b.toNat - 48)) s := by
  rw [valueFrom, foldl_cons, valueFrom]

/-- **The text of `n` is read as `n`.** -/
theorem valueFrom_decimal (n : ℕ) : valueFrom 0 (decimal n) = n := by
  induction n using Nat.strong_induction_on with
  | _ n ih =>
    by_cases h : n < 10
    · rw [decimal_of_lt h, valueFrom_cons, valueFrom_nil, toNat_digit h]
      omega
    · have hmod := Nat.mod_lt n (show 0 < 10 by omega)
      rw [decimal_of_le (by omega), valueFrom_append, ih (n / 10) (by omega), valueFrom_cons,
        valueFrom_nil, toNat_digit hmod]
      omega

/-- A text is read as no less than it begins with. -/
theorem le_valueFrom (v : ℕ) (s : List UInt8) : v ≤ valueFrom v s := by
  induction s generalizing v with
  | nil => exact le_refl v
  | cons b s ih => exact le_trans (by omega) (ih (10 * v + (b.toNat - 48)))

/-- **A text of digits without a leading zero** is the text of its value. -/
theorem decimal_valueFrom (hne : s ≠ []) (hdig : ∀ b ∈ s, IsDigit b)
    (hlead : s.head? = some (digit 0) → s.length = 1) : decimal (valueFrom 0 s) = s := by
  induction s using reverseRecOn with
  | nil => exact absurd rfl hne
  | append_singleton s b ih =>
    have hb : IsDigit b := hdig b (by simp)
    have hb' := hb
    rw [IsDigit] at hb'
    rw [valueFrom_append, valueFrom_cons, valueFrom_nil]
    by_cases hs : s = []
    · subst hs
      rw [valueFrom_nil, mul_zero, zero_add, decimal_of_lt (by omega), ← hb.eq_digit,
        nil_append]
    · have hpos := length_pos_of_ne_nil hs
      have hhead : s.head? ≠ some (digit 0) := by
        intro h
        have hlen := hlead (by rw [head?_append_of_ne_nil _ hs, h])
        rw [length_append, length_singleton] at hlen
        omega
      have hrec := ih hs (fun c hc => hdig c (mem_append_left _ hc)) fun h => absurd h hhead
      have hval : 0 < valueFrom 0 s := by
        by_contra h
        rw [Nat.le_zero.mp (not_lt.mp h)] at hrec
        exact hhead (by rw [← hrec]; rfl)
      rw [decimal_of_le (by omega)]
      rw [show (10 * valueFrom 0 s + (b.toNat - 48)) / 10 = valueFrom 0 s by omega, hrec,
        show (10 * valueFrom 0 s + (b.toNat - 48)) % 10 = b.toNat - 48 by omega, ← hb.eq_digit]

end SourceLibs.Decimal
