import Mathlib.Data.Int.ModEq
import Mathlib.Data.Nat.Digits.Lemmas
import Mathlib.Tactic.LinearCombination

/-!
# Algorithm — hexadecimal text

`algorithm/hex.hpp`.  A code unit is an integer, of whatever width its type has; `hex_char_to_int`
casts it to `char` before it looks at it.  Numbers are read into a type of `size` bytes: its
arithmetic is that of `int` where the type is narrower than `int`, wraps where it is unsigned, and
is undefined where a signed result does not fit.

* `decodeLoop_spec`, `decodeOne_spec`: what a group of digits is read as.
* `encodeOne_spec`: the digits of a number written back.
* `unhex_exact_iff`: `unhex` takes hexadecimal text only, and gives what `hex` was given, except on
  code units that a cast to `char` makes digits of and on signed numbers that overflow.
-/

namespace SourceLibs.Hex
open List

/-- What ends `unhex` early.  `undefined` is signed overflow. -/
inductive Failure where
  | notEnoughInput
  | nonHexInput (badChar : ℤ)
  | undefined
  deriving DecidableEq

/-- The integer type that is written or read. -/
structure IntType where
  size : ℕ
  signed : Bool
  size_pos : 0 < size

/-- A character as a code unit. -/
def unit (c : Char) : ℤ := c.toNat

namespace IntType

variable (t : IntType)

/-- The number of values. -/
def modulus : ℕ := 2 ^ (8 * t.size)

/-- Conversion to the type. -/
def convert (x : ℤ) : ℤ := if t.signed then x.bmod t.modulus else x % t.modulus

/-- The result of an operation: in `int`, of four bytes, if the operand is narrower, and in the type
itself if not. -/
def evaluate (x : ℤ) : Except Failure ℤ :=
  if t.size < 4 then
    if -2 ^ 31 ≤ x ∧ x < 2 ^ 31 then .ok x else .error .undefined
  else if t.signed then
    if -2 ^ (8 * t.size - 1) ≤ x ∧ x < 2 ^ (8 * t.size - 1) then .ok x else .error .undefined
  else .ok (x % t.modulus)

end IntType

/-! ### The functions -/

/-- The loop of `encode_one`: `val & 0x0F` and `val >>= 4`, written from the back. -/
def encodeLoop (hexDigits : List ℤ) : ℕ → ℤ → List ℤ → List ℤ
  | 0, _, p => p
  | i + 1, val, p => encodeLoop hexDigits i (val / 16) (hexDigits.getD (val % 16).toNat 0 :: p)

/-- The digits of a number. -/
def encodeOne (t : IntType) (hexDigits : List ℤ) (val : ℤ) : List ℤ :=
  encodeLoop hexDigits (2 * t.size) val []

/-- The digits of `hex`. -/
def upperDigits : List ℤ := "0123456789ABCDEF".toList.map unit

/-- The digits of `hex_lower`. -/
def lowerDigits : List ℤ := "0123456789abcdef".toList.map unit

def hex (t : IntType) (input : List ℤ) : List ℤ := input.flatMap (encodeOne t upperDigits)

def hexLower (t : IntType) (input : List ℤ) : List ℤ := input.flatMap (encodeOne t lowerDigits)

/-- `static_cast<char>`. -/
def toChar (val : ℤ) : ℤ := val.bmod 256

/-- `hex_char_to_int`, behind the cast to `char`. -/
def hexCharToInt (val : ℤ) : Except Failure ℤ :=
  let c := toChar val
  if unit '0' ≤ c ∧ c ≤ unit '9' then .ok (c - unit '0')
  else if unit 'A' ≤ c ∧ c ≤ unit 'F' then .ok (c - unit 'A' + 10)
  else if unit 'a' ≤ c ∧ c ≤ unit 'f' then .ok (c - unit 'a' + 10)
  else .error (.nonHexInput c)

/-- The loop of `decode_one`, with `iter_end` for `pred`. -/
@[simp] def decodeLoop (t : IntType) : ℕ → ℤ → List ℤ → Except Failure (ℤ × List ℤ)
  | 0, res, first => .ok (res, first)
  | _ + 1, _, [] => .error .notEnoughInput
  | i + 1, res, c :: first => do
    let high ← t.evaluate (16 * res)
    let digit ← hexCharToInt c
    let sum ← t.evaluate (high + digit)
    decodeLoop t i (t.convert sum) first

/-- `decode_one`: the number, and where the input goes on. -/
def decodeOne (t : IntType) (first : List ℤ) : Except Failure (ℤ × List ℤ) :=
  decodeLoop t (2 * t.size) 0 first

/-- The loop of `unhex`; the length of the input bounds the rounds. -/
def unhexLoop (t : IntType) : ℕ → List ℤ → Except Failure (List ℤ)
  | _, [] => .ok []
  | 0, _ :: _ => .error .undefined
  | fuel + 1, c :: first => do
    let (res, first) ← decodeOne t (c :: first)
    let out ← unhexLoop t fuel first
    .ok (res :: out)

def unhex (t : IntType) (input : List ℤ) : Except Failure (List ℤ) :=
  unhexLoop t input.length input

/-! ### Digits -/

/-- `0-9`, `A-F`, `a-f`. -/
def IsHexDigit (c : ℤ) : Prop :=
  unit '0' ≤ c ∧ c ≤ unit '9' ∨ unit 'A' ≤ c ∧ c ≤ unit 'F' ∨ unit 'a' ≤ c ∧ c ≤ unit 'f'

instance (c : ℤ) : Decidable (IsHexDigit c) := inferInstanceAs (Decidable (_ ∨ _ ∨ _))

/-- The code units `us` are read as the digits `ds`. -/
def Reads (us : List ℤ) (ds : List ℕ) : Prop :=
  List.Forall₂ (fun c (d : ℕ) => hexCharToInt c = .ok d) us ds

/-- The exceptions of `unhex`. -/
def Failure.IsThrow : Failure → Prop
  | .notEnoughInput | .nonHexInput _ => True
  | .undefined => False

/-- The number the digits stand for, the first one the highest. -/
def value (ds : List ℕ) : ℕ := Nat.ofDigits 16 ds.reverse

theorem value_cons (d : ℕ) (ds : List ℕ) : value (d :: ds) = d * 16 ^ ds.length + value ds := by
  rw [value, value, reverse_cons, Nat.ofDigits_append, length_reverse, Nat.ofDigits_singleton]
  ring

theorem value_concat (ds : List ℕ) (d : ℕ) : value (ds ++ [d]) = 16 * value ds + d := by
  rw [value, value, List.reverse_append, reverse_singleton, singleton_append,
    Nat.ofDigits_cons]
  ring

variable {ds : List ℕ}

theorem value_lt (h : ∀ d ∈ ds, d < 16) : value ds < 16 ^ ds.length := by
  rw [value, ← length_reverse]
  exact Nat.ofDigits_lt_base_pow_length (by omega) fun d hd => h d (mem_reverse.mp hd)

theorem isHexDigit_iff {c : ℤ} :
    IsHexDigit c ↔ 48 ≤ c ∧ c ≤ 57 ∨ 65 ≤ c ∧ c ≤ 70 ∨ 97 ≤ c ∧ c ≤ 102 := Iff.rfl

theorem hexCharToInt_eq (c : ℤ) : hexCharToInt c =
    if 48 ≤ toChar c ∧ toChar c ≤ 57 then .ok (toChar c - 48)
    else if 65 ≤ toChar c ∧ toChar c ≤ 70 then .ok (toChar c - 65 + 10)
    else if 97 ≤ toChar c ∧ toChar c ≤ 102 then .ok (toChar c - 97 + 10)
    else .error (.nonHexInput (toChar c)) := rfl

theorem hexCharToInt_cases (c : ℤ) :
    (IsHexDigit (toChar c) ∧ ∃ d : ℕ, d < 16 ∧ hexCharToInt c = .ok d) ∨
      ¬ IsHexDigit (toChar c) ∧ hexCharToInt c = .error (.nonHexInput (toChar c)) := by
  have found : ∀ x : ℤ, 0 ≤ x ∧ x < 16 → ∃ d : ℕ, d < 16 ∧ (.ok x : Except Failure ℤ) = .ok d :=
    fun x hx => ⟨x.toNat, by omega, by rw [Int.toNat_of_nonneg hx.1]⟩
  rw [isHexDigit_iff, hexCharToInt_eq]
  split_ifs with h₀ h₁ h₂
  · exact Or.inl ⟨Or.inl h₀, found _ (by omega)⟩
  · exact Or.inl ⟨Or.inr (Or.inl h₁), found _ (by omega)⟩
  · exact Or.inl ⟨Or.inr (Or.inr h₂), found _ (by omega)⟩
  · exact Or.inr ⟨by tauto, rfl⟩

theorem toChar_of_isHexDigit {c : ℤ} (hc : IsHexDigit c) : toChar c = c := by
  rw [isHexDigit_iff] at hc
  rw [toChar, Int.bmod_eq_of_le] <;> omega

theorem hexCharToInt_lt {c : ℤ} {d : ℕ} (h : hexCharToInt c = .ok d) : d < 16 := by
  rcases hexCharToInt_cases c with ⟨-, d', hd, he⟩ | ⟨-, he⟩
  · rw [he] at h
    have : (d' : ℤ) = d := Except.ok.inj h
    omega
  · rw [he] at h
    cases h

theorem Reads.lt {us : List ℤ} (h : Reads us ds) : ∀ d ∈ ds, d < 16 := by
  induction h with
  | nil => simp
  | cons hc _ ih =>
    intro d hd
    rcases mem_cons.mp hd with rfl | hd
    · exact hexCharToInt_lt hc
    · exact ih d hd

theorem Reads.unique {us : List ℤ} {ds ds' : List ℕ} (h : Reads us ds) (h' : Reads us ds') :
    ds = ds' := by
  induction h generalizing ds' with
  | nil => exact (forall₂_nil_left_iff.mp h').symm
  | cons hc _ ih =>
    obtain ⟨d', ds'', hc', h'', rfl⟩ := forall₂_cons_left_iff.mp h'
    rw [hc] at hc'
    rw [Int.ofNat_inj.mp (Except.ok.inj hc'), ih h'']

theorem Reads.append {us us' : List ℤ} {ds ds' : List ℕ} (h : Reads us ds) (h' : Reads us' ds') :
    Reads (us ++ us') (ds ++ ds') := rel_append h h'

theorem exists_reads_iff {us : List ℤ} : (∃ ds, Reads us ds) ↔ ∀ c ∈ us, IsHexDigit (toChar c) := by
  induction us with
  | nil => simp [Reads]
  | cons c us ih =>
    rw [forall_mem_cons, ← ih]
    constructor
    · rintro ⟨ds, h⟩
      obtain ⟨d, ds, hc, htail, rfl⟩ := forall₂_cons_left_iff.mp h
      refine ⟨?_, ds, htail⟩
      rcases hexCharToInt_cases c with ⟨hd, -⟩ | ⟨-, he⟩
      · exact hd
      · rw [he] at hc
        cases hc
    · rintro ⟨hd, ds, h⟩
      rcases hexCharToInt_cases c with ⟨-, d, -, hc⟩ | ⟨hn, -⟩
      · exact ⟨d :: ds, .cons hc h⟩
      · exact absurd hd hn

/-! ### Reading a number -/

namespace IntType

variable {t : IntType}

theorem modulus_eq (t : IntType) : t.modulus = 16 ^ (2 * t.size) := by
  rw [modulus, show (16 : ℕ) = 2 ^ 4 from rfl, ← pow_mul]
  congr 1
  omega

theorem half_eq (t : IntType) : 2 ^ (8 * t.size - 1) = 8 * 16 ^ (2 * t.size - 1) := by
  have := t.size_pos
  rw [show (8 : ℕ) = 2 ^ 3 from rfl, show (16 : ℕ) = 2 ^ 4 from rfl, ← pow_mul, ← pow_add]
  congr 1
  omega

/-- A result that is undefined. -/
def Overflows (t : IntType) (x : ℕ) : Prop :=
  t.signed = true ∧ 4 ≤ t.size ∧ 2 ^ (8 * t.size - 1) ≤ x

theorem modulus_eq_half (t : IntType) : t.modulus = 2 * 2 ^ (8 * t.size - 1) := by
  have := t.size_pos
  rw [modulus, ← pow_succ']
  congr 1
  omega

theorem evaluate_of_overflows {x : ℕ} (h : t.Overflows x) : t.evaluate x = .error .undefined := by
  obtain ⟨hs, h4, hx⟩ := h
  rw [evaluate, if_neg (by omega), if_pos hs, if_neg]
  rintro ⟨-, hlt⟩
  have : (2 ^ (8 * t.size - 1) : ℕ) < (2 : ℤ) ^ (8 * t.size - 1) := by
    exact lt_of_le_of_lt (Int.ofNat_le.mpr hx) hlt
  rw [Nat.cast_pow] at this
  exact lt_irrefl _ this

theorem evaluate_of_not {x : ℕ} (hx : x < t.modulus) (h : ¬ t.Overflows x) :
    t.evaluate x = .ok x := by
  rw [evaluate]
  by_cases h4 : t.size < 4
  · have hle : t.modulus ≤ 2 ^ 31 := Nat.pow_le_pow_right Nat.two_pos (by omega)
    rw [if_pos h4, if_pos (by omega)]
  · rw [if_neg h4]
    by_cases hs : t.signed
    · have hlt : x < 2 ^ (8 * t.size - 1) := by
        by_contra hge
        exact h ⟨hs, by omega, by omega⟩
      have hlt' : (x : ℤ) < 2 ^ (8 * t.size - 1) := by exact_mod_cast hlt
      have hpos : (0 : ℤ) < 2 ^ (8 * t.size - 1) := by positivity
      rw [if_pos hs, if_pos ⟨by omega, hlt'⟩]
    · rw [if_neg hs, ← Int.natCast_mod, Nat.mod_eq_of_lt hx]

theorem convert_of_lt {x : ℕ} (hx : x < 2 ^ (8 * t.size - 1)) : t.convert x = x := by
  have hm := t.modulus_eq_half
  rw [convert]
  split_ifs
  · rw [Int.bmod_eq_of_le] <;> omega
  · rw [← Int.natCast_mod, Nat.mod_eq_of_lt (by omega)]

theorem convert_emod (t : IntType) (x : ℤ) : t.convert x % t.modulus = x % t.modulus := by
  rw [convert]
  split_ifs
  · exact Int.bmod_emod
  · exact Int.emod_emod_of_dvd _ (dvd_refl _)

end IntType

variable {t : IntType}

theorem decodeLoop_succ {i v : ℕ} {c : ℤ} {first : List ℤ} (hv : 16 * v + 15 < t.modulus)
    (h : ¬ t.Overflows (16 * v + 15)) : decodeLoop t (i + 1) v (c :: first) =
      (hexCharToInt c).bind fun d => decodeLoop t i (t.convert (16 * v + d)) first := by
  have hover : ∀ x ≤ 16 * v + 15, t.evaluate (x : ℕ) = .ok x := fun x hx =>
    IntType.evaluate_of_not (by omega) fun ho => h ⟨ho.1, ho.2.1, ho.2.2.trans hx⟩
  have hhigh := hover (16 * v) (by omega)
  push_cast at hhigh
  rw [decodeLoop, hhigh]
  rcases hexCharToInt_cases c with ⟨-, d, hd, hc⟩ | ⟨-, hc⟩
  · have hsum := hover (16 * v + d) (by omega)
    push_cast at hsum
    simp only [hc, hsum, bind, Except.bind]
  · simp only [hc, bind, Except.bind]

theorem decodeLoop_overflows {i v : ℕ} {c : ℤ} {first : List ℤ} (h : t.Overflows (16 * v)) :
    decodeLoop t (i + 1) v (c :: first) = .error .undefined := by
  have hhigh := IntType.evaluate_of_overflows h
  push_cast at hhigh
  simp only [decodeLoop, hhigh, bind, Except.bind]

/-- **All digits but the last**: they are read, or one is missing or bad. -/
theorem decodeLoop_spec : ∀ (i v : ℕ) (s : List ℤ), (v + 1) * 16 ^ i ≤ 16 ^ (2 * t.size - 1) →
    (∃ us ds rest, s = us ++ rest ∧ us.length = i ∧ Reads us ds ∧
      decodeLoop t (i + 1) v s = decodeLoop t 1 (v * 16 ^ i + value ds : ℕ) rest) ∨
    (¬ ∃ us ds rest, s = us ++ rest ∧ us.length = i ∧ Reads us ds) ∧
      ∃ e, decodeLoop t (i + 1) v s = .error e ∧ e.IsThrow
  | 0, v, s, _ => by
    refine Or.inl ⟨[], [], s, rfl, rfl, .nil, ?_⟩
    rw [show v * 16 ^ 0 + value [] = v by simp [value]]
  | i + 1, v, [], _ => by
    refine Or.inr ⟨?_, .notEnoughInput, rfl, trivial⟩
    rintro ⟨us, ds, rest, he, hlen, -⟩
    rw [(append_eq_nil_iff.mp he.symm).1] at hlen
    cases hlen
  | i + 1, v, c :: first, hv => by
    have hpow := Nat.one_le_pow i 16 (by omega)
    have hlt : 16 * (v + 1) ≤ 16 ^ (2 * t.size - 1) := by
      calc 16 * (v + 1) = (v + 1) * 16 ^ 1 := by ring
        _ ≤ (v + 1) * 16 ^ (i + 1) :=
            Nat.mul_le_mul_left _ (Nat.pow_le_pow_right (by omega) (by omega))
        _ ≤ _ := hv
    have hhalf := t.half_eq
    have hmod := t.modulus_eq_half
    rw [decodeLoop_succ (by omega) (fun ho => by have := ho.2.2; omega)]
    rcases hexCharToInt_cases c with ⟨-, d, hd, hc⟩ | ⟨-, hc⟩
    · have hconv := IntType.convert_of_lt (t := t) (x := 16 * v + d) (by omega)
      push_cast at hconv
      have hnext : decodeLoop t (i + 1) (t.convert (16 * v + d)) first =
          decodeLoop t (i + 1) (16 * v + d : ℕ) first := by
        rw [hconv]
        push_cast
        rfl
      simp only [hc, Except.bind]
      rw [hnext]
      have hstep : (16 * v + d + 1) * 16 ^ i ≤ 16 ^ (2 * t.size - 1) := by
        refine le_trans ?_ hv
        rw [pow_succ]
        nlinarith
      rcases decodeLoop_spec i (16 * v + d) first hstep with
        ⟨us, ds, rest, rfl, hlen, hr, he⟩ | ⟨hno, e, he, ht⟩
      · refine Or.inl ⟨c :: us, d :: ds, rest, rfl, by rw [length_cons, hlen], .cons hc hr, ?_⟩
        rw [he, value_cons, ← hr.length_eq, hlen,
          show v * 16 ^ (i + 1) + (d * 16 ^ i + value ds) = (16 * v + d) * 16 ^ i + value ds by ring]
      · refine Or.inr ⟨?_, e, he, ht⟩
        rintro ⟨us, ds, rest, hs, hlen, hr⟩
        cases us with
        | nil => cases hlen
        | cons u us =>
          obtain ⟨rfl, rfl⟩ := List.cons.inj hs
          obtain ⟨d', ds', -, hr', rfl⟩ := forall₂_cons_left_iff.mp hr
          exact hno ⟨us, ds', rest, rfl, Nat.succ.inj hlen, hr'⟩
    · refine Or.inr ⟨?_, .nonHexInput (toChar c), by simp only [hc, Except.bind], trivial⟩
      rintro ⟨us, ds, rest, hs, hlen, hr⟩
      cases us with
      | nil => cases hlen
      | cons u us =>
        obtain ⟨rfl, rfl⟩ := List.cons.inj hs
        obtain ⟨d', ds', hc', -, -⟩ := forall₂_cons_left_iff.mp hr
        rw [hc] at hc'
        cases hc'

/-- The input begins with a number that a signed type of `int`'s width or more does not hold: its
leading digit is 8 or more, all but the last of its units are digits, and there is a last one. -/
def TooLarge (t : IntType) (s : List ℤ) : Prop :=
  t.signed = true ∧ 4 ≤ t.size ∧ ∃ us d ds c rest, s = us ++ c :: rest ∧
    us.length = 2 * t.size - 1 ∧ Reads us (d :: ds) ∧ 8 ≤ d

theorem tooLarge_iff {us rest : List ℤ} {c : ℤ} (hlen : us.length = 2 * t.size - 1)
    (hr : Reads us ds) : TooLarge t (us ++ c :: rest) ↔ t.Overflows (16 * value ds) := by
  have hpos := t.size_pos
  have key : ∀ d ds', Reads us (d :: ds') →
      (2 ^ (8 * t.size - 1) ≤ 16 * value (d :: ds') ↔ 8 ≤ d) := by
    intro d ds' hr'
    have hlt := value_lt fun x hx => hr'.lt x (mem_cons_of_mem d hx)
    have hlen' := hr'.length_eq
    rw [hlen, length_cons] at hlen'
    rw [t.half_eq, hlen', pow_succ, value_cons]
    constructor
    · intro h
      by_contra hd
      have : d * 16 ^ ds'.length ≤ 7 * 16 ^ ds'.length := Nat.mul_le_mul_right _ (by omega)
      omega
    · intro hd
      have : 8 * 16 ^ ds'.length ≤ d * 16 ^ ds'.length := Nat.mul_le_mul_right _ hd
      omega
  constructor
  · rintro ⟨hs, h4, us', d, ds', c', rest', he, hlen', hr', hd⟩
    obtain ⟨rfl, -⟩ := append_inj he (hlen.trans hlen'.symm)
    rw [hr.unique hr']
    exact ⟨hs, h4, (key d ds' hr').mpr hd⟩
  · rintro ⟨hs, h4, hle⟩
    cases ds with
    | nil =>
      have := hr.length_eq
      rw [hlen, length_nil] at this
      omega
    | cons d ds' => exact ⟨hs, h4, us, d, ds', c, rest, rfl, hlen, hr, (key d ds' hr).mp hle⟩

/-- **A number**: it is read, it is too large for the type, or the input ends or has a bad unit. -/
theorem decodeOne_spec (t : IntType) (s : List ℤ) :
    (∃ us ds rest, s = us ++ rest ∧ us.length = 2 * t.size ∧ Reads us ds ∧ ¬ TooLarge t s ∧
      decodeOne t s = .ok (t.convert (value ds), rest)) ∨
    (TooLarge t s ∧ decodeOne t s = .error .undefined) ∨
    ¬ TooLarge t s ∧ (¬ ∃ us ds rest, s = us ++ rest ∧ us.length = 2 * t.size ∧ Reads us ds) ∧
      ∃ e, decodeOne t s = .error e ∧ e.IsThrow := by
  obtain ⟨n, hn⟩ : ∃ n, 2 * t.size = n + 1 := ⟨2 * t.size - 1, by have := t.size_pos; omega⟩
  have hn' : n = 2 * t.size - 1 := by omega
  rw [decodeOne, hn]
  rcases decodeLoop_spec (t := t) n 0 s (by rw [hn', Nat.zero_add, one_mul]) with
    ⟨us, ds, rest, rfl, hlen, hr, he⟩ | ⟨hno, e, he, ht⟩
  · rw [Nat.cast_zero, zero_mul, zero_add] at he
    rw [he]
    -- the last digit
    cases rest with
    | nil =>
      have hshort : ∀ us' : List ℤ, n < us'.length → ∀ rest', us ++ [] ≠ us' ++ rest' := by
        intro us' hlt rest' heq
        have := congrArg length heq
        simp only [length_append, length_nil] at this
        omega
      refine Or.inr (Or.inr ⟨?_, ?_, .notEnoughInput, rfl, trivial⟩)
      · rintro ⟨-, -, us', d, ds', c, rest', heq, hlen', -⟩
        refine hshort (us' ++ [c]) ?_ rest' (by rw [heq, List.append_assoc, singleton_append])
        rw [length_append, length_singleton]
        omega
      · rintro ⟨us', ds', rest', heq, hlen', -⟩
        exact hshort us' (by omega) rest' heq
    | cons c rest =>
      have hiff : TooLarge t (us ++ c :: rest) ↔ t.Overflows (16 * value ds) :=
        tooLarge_iff (hlen.trans hn') hr
      have hlt := value_lt hr.lt
      rw [← hr.length_eq, hlen, hn'] at hlt
      have hmod : t.modulus = 16 * 16 ^ (2 * t.size - 1) := by
        rw [t.modulus_eq, ← pow_succ', show 2 * t.size - 1 + 1 = 2 * t.size by omega]
      by_cases hover : t.Overflows (16 * value ds)
      · exact Or.inr (Or.inl ⟨hiff.mpr hover, decodeLoop_overflows hover⟩)
      · have hover' : ¬ t.Overflows (16 * value ds + 15) := by
          intro ho
          refine hover ⟨ho.1, ho.2.1, ?_⟩
          have hhalf := t.half_eq
          obtain ⟨m, hm⟩ : ∃ m, 2 * t.size - 1 = m + 1 := ⟨2 * t.size - 2, by omega⟩
          have hle := ho.2.2
          rw [hm, pow_succ] at hhalf
          omega
        rw [decodeLoop_succ (by omega) hover']
        rcases hexCharToInt_cases c with ⟨-, d, -, hc⟩ | ⟨hbad, hc⟩
        · refine Or.inl ⟨us ++ [c], ds ++ [d], rest, by simp, ?_, hr.append (.cons hc .nil),
            fun h => hover (hiff.mp h), ?_⟩
          · rw [length_append, hlen, length_singleton]
          · rw [hc, value_concat]
            simp [Except.bind, decodeLoop]
        · refine Or.inr (Or.inr ⟨fun h => hover (hiff.mp h), ?_, .nonHexInput (toChar c),
            by rw [hc]; rfl, trivial⟩)
          rintro ⟨us', ds', rest', heq, hlen', hr'⟩
          have hmem : c ∈ us' := by
            have hget : (us ++ c :: rest)[n]? = (us' ++ rest')[n]? := by rw [heq]
            rw [List.getElem?_append_right hlen.le, List.getElem?_append_left (by omega), hlen] at hget
            exact mem_of_getElem? (hget.symm.trans (by simp))
          exact hbad (exists_reads_iff.mp ⟨ds', hr'⟩ c hmem)
  · refine Or.inr (Or.inr ⟨?_, ?_, e, he, ht⟩)
    · rintro ⟨-, -, us, d, ds, c, rest, heq, hlen, hr, -⟩
      exact hno ⟨us, d :: ds, c :: rest, heq, by omega, hr⟩
    · rintro ⟨us, ds, rest, rfl, hlen, hr⟩
      refine hno ⟨us.take n, ds.take n, us.drop n ++ rest, ?_, by simp; omega, ?_⟩
      · rw [← List.append_assoc, take_append_drop]
      · exact forall₂_take n hr

/-! ### Writing a number -/

theorem encodeLoop_spec (hexDigits : List ℤ) : ∀ (ds : List ℕ) (val q : ℤ) (p : List ℤ),
    (∀ d ∈ ds, d < 16) → val = 16 ^ ds.length * q + value ds →
    encodeLoop hexDigits ds.length val p = ds.map (hexDigits.getD · 0) ++ p := by
  intro ds
  induction ds using reverseRecOn with
  | nil => intro val q p _ _; rfl
  | append_singleton ds d ih =>
    intro val q p hlt hval
    have hd : d < 16 := hlt d (by simp)
    rw [length_append, length_singleton, value_concat, pow_succ] at hval
    push_cast at hval
    have hmod : val % 16 = d := by
      rw [hval, show (16 : ℤ) ^ ds.length * 16 * q + (16 * value ds + d) =
        d + 16 * (16 ^ ds.length * q + value ds) by ring, Int.add_mul_emod_self_left]
      exact Int.emod_eq_of_lt (by omega) (by omega)
    have hdiv : val / 16 = 16 ^ ds.length * q + value ds := by
      have := Int.mul_ediv_add_emod val 16
      rw [hmod] at this
      linarith
    rw [length_append, length_singleton, encodeLoop, hmod, Int.toNat_natCast,
      ih _ q _ (fun x hx => hlt x (by simp [hx])) hdiv, map_append]
    simp

/-- **A number written back**: the digits it was read from. -/
theorem encodeOne_spec (hexDigits : List ℤ) (hlen : ds.length = 2 * t.size)
    (hlt : ∀ d ∈ ds, d < 16) {val : ℤ} (hval : val % t.modulus = value ds) :
    encodeOne t hexDigits val = ds.map (hexDigits.getD · 0) := by
  have hdiv := Int.mul_ediv_add_emod val t.modulus
  rw [hval, t.modulus_eq, ← hlen] at hdiv
  push_cast at hdiv
  rw [encodeOne, ← hlen, encodeLoop_spec hexDigits ds val _ [] hlt hdiv.symm, append_nil]

theorem exists_digits : ∀ (k x : ℕ), x < 16 ^ k →
    ∃ ds : List ℕ, ds.length = k ∧ (∀ d ∈ ds, d < 16) ∧ value ds = x
  | 0, x, hx => ⟨[], rfl, by simp, by rw [pow_zero, Nat.lt_one_iff] at hx; rw [hx]; rfl⟩
  | k + 1, x, hx => by
    obtain ⟨ds, hlen, hlt, hv⟩ := exists_digits k (x / 16) (by rw [pow_succ] at hx; omega)
    refine ⟨ds ++ [x % 16], by simp [hlen], fun d hd => ?_, ?_⟩
    · rcases mem_append.mp hd with hd | hd
      · exact hlt d hd
      · rw [mem_singleton.mp hd]
        exact Nat.mod_lt _ (by omega)
    · rw [value_concat, hv]
      omega

/-! ### Upper and lower case -/

/-- A letter digit in upper case. -/
def toUpper (c : ℤ) : ℤ := if unit 'a' ≤ c ∧ c ≤ unit 'f' then c - unit 'a' + unit 'A' else c

/-- A letter digit in lower case. -/
def toLower (c : ℤ) : ℤ := if unit 'A' ≤ c ∧ c ≤ unit 'F' then c - unit 'A' + unit 'a' else c

/-- `c` is read as `d` and stands for it in both alphabets. -/
def Stands (c : ℤ) (d : ℕ) : Prop :=
  hexCharToInt c = .ok d ∧ toUpper c = upperDigits.getD d 0 ∧ toLower c = lowerDigits.getD d 0

instance (c : ℤ) (d : ℕ) : Decidable (Stands c d) := inferInstanceAs (Decidable (_ ∧ _ ∧ _))

theorem exists_stands {c : ℤ} (hc : IsHexDigit c) : ∃ d : ℕ, Stands c d := by
  have digit : ∀ i < 10, Stands ((48 + i : ℕ) : ℤ) i := by decide
  have upper : ∀ i < 6, Stands ((65 + i : ℕ) : ℤ) (10 + i) := by decide
  have lower : ∀ i < 6, Stands ((97 + i : ℕ) : ℤ) (10 + i) := by decide
  rcases isHexDigit_iff.mp hc with h | h | h
  · obtain ⟨i, rfl⟩ : ∃ i : ℕ, c = (48 + i : ℕ) := ⟨(c - 48).toNat, by omega⟩
    exact ⟨i, digit i (by omega)⟩
  · obtain ⟨i, rfl⟩ : ∃ i : ℕ, c = (65 + i : ℕ) := ⟨(c - 65).toNat, by omega⟩
    exact ⟨10 + i, upper i (by omega)⟩
  · obtain ⟨i, rfl⟩ : ∃ i : ℕ, c = (97 + i : ℕ) := ⟨(c - 97).toNat, by omega⟩
    exact ⟨10 + i, lower i (by omega)⟩

theorem hexCharToInt_written : ∀ d < 16, hexCharToInt (upperDigits.getD d 0) = .ok (d : ℕ) ∧
    hexCharToInt (lowerDigits.getD d 0) = .ok (d : ℕ) := by decide

/-! ### The whole text -/

/-- Somewhere a number is too large, and all that comes before it is read. -/
def RunTooLarge (t : IntType) (s : List ℤ) : Prop :=
  ∃ done rest, s = done ++ rest ∧ 2 * t.size ∣ done.length ∧
    (∀ c ∈ done, IsHexDigit (toChar c)) ∧ TooLarge t rest

theorem runTooLarge_append {us rest : List ℤ} (hlen : us.length = 2 * t.size)
    (hr : ∀ c ∈ us, IsHexDigit (toChar c)) (hno : ¬ TooLarge t (us ++ rest)) :
    RunTooLarge t (us ++ rest) ↔ RunTooLarge t rest := by
  constructor
  · rintro ⟨done, rest', he, hdvd, hdone, hlarge⟩
    rcases Nat.eq_zero_or_pos done.length with h₀ | hpos
    · obtain rfl := length_eq_zero_iff.mp h₀
      exact absurd (he ▸ hlarge) hno
    · have hle := Nat.le_of_dvd hpos hdvd
      rw [← hlen] at hle
      obtain ⟨mid, rfl, rfl⟩ : ∃ mid, done = us ++ mid ∧ rest = mid ++ rest' := by
        rcases append_eq_append_iff.mp he with ⟨mid, h, h'⟩ | ⟨mid, h, h'⟩
        · exact ⟨mid, h, h'⟩
        · have hm : mid.length = 0 := by
            have := congrArg length h
            rw [length_append] at this
            omega
          obtain rfl := length_eq_zero_iff.mp hm
          exact ⟨[], by simpa using h.symm, by simpa using h'.symm⟩
      refine ⟨mid, rest', rfl, ?_, fun c hc => hdone c (mem_append_right us hc), hlarge⟩
      rw [length_append, hlen] at hdvd
      exact (Nat.dvd_add_right (dvd_refl _)).mp hdvd
  · rintro ⟨done, rest', rfl, hdvd, hdone, hlarge⟩
    refine ⟨us ++ done, rest', by rw [List.append_assoc], ?_, ?_, hlarge⟩
    · rw [length_append, hlen]
      exact Nat.dvd_add (dvd_refl _) hdvd
    · intro c hc
      rcases mem_append.mp hc with hc | hc
      · exact hr c hc
      · exact hdone c hc

/-- **The loop of `unhex`.** -/
theorem unhexLoop_spec (t : IntType) : ∀ (fuel : ℕ) (s : List ℤ), s.length ≤ fuel →
    (RunTooLarge t s ∧ unhexLoop t fuel s = .error .undefined) ∨
    ¬ RunTooLarge t s ∧
      ((∃ ds r, Reads s ds ∧ 2 * t.size ∣ s.length ∧ unhexLoop t fuel s = .ok r ∧
          ∀ hexDigits : List ℤ,
            r.flatMap (encodeOne t hexDigits) = ds.map (hexDigits.getD · 0)) ∨
        (¬ (2 * t.size ∣ s.length ∧ ∃ ds, Reads s ds)) ∧
          ∃ e, unhexLoop t fuel s = .error e ∧ e.IsThrow)
  | fuel, [], _ => by
    have he : unhexLoop t fuel [] = .ok [] := by cases fuel <;> rfl
    refine Or.inr ⟨?_, Or.inl ⟨[], [], .nil, dvd_zero _, he, fun _ => rfl⟩⟩
    rintro ⟨done, rest, hs, -, -, -, -, us, d, ds, c, rest', hrest, -⟩
    rw [hrest] at hs
    simp at hs
  | fuel + 1, c :: first, hfuel => by
    have hpos := t.size_pos
    rw [unhexLoop]
    rcases decodeOne_spec t (c :: first) with
      ⟨us, ds, rest, hs, hlen, hr, hno, he⟩ | ⟨hlarge, he⟩ | ⟨hno, hshort, e, he, ht⟩
    · -- a number is read
      have hrun := runTooLarge_append hlen (exists_reads_iff.mp ⟨ds, hr⟩) (hs ▸ hno)
      have hdvd : 2 * t.size ∣ (us ++ rest).length ↔ 2 * t.size ∣ rest.length := by
        rw [length_append, hlen]
        exact Nat.dvd_add_right (dvd_refl _)
      have hle : rest.length ≤ fuel := by
        have := congrArg length hs
        rw [length_append, length_cons] at this
        rw [length_cons] at hfuel
        omega
      rw [he]
      simp only [bind, Except.bind]
      rw [hs, hrun, hdvd]
      rcases unhexLoop_spec t fuel rest hle with ⟨hlarge, he'⟩ | ⟨hno', h⟩
      · exact Or.inl ⟨hlarge, by rw [he']⟩
      · refine Or.inr ⟨hno', ?_⟩
        rcases h with ⟨ds', r, hr', hd, he', hback⟩ | ⟨hbad, e, he', ht⟩
        · refine Or.inl ⟨ds ++ ds', _, hr.append hr', hd, by rw [he'], fun hexDigits => ?_⟩
          have hval : t.convert (value ds) % t.modulus = value ds := by
            have hlt := value_lt hr.lt
            rw [← hr.length_eq, hlen, ← t.modulus_eq] at hlt
            rw [t.convert_emod, ← Int.natCast_mod, Nat.mod_eq_of_lt hlt]
          rw [flatMap_cons, hback, map_append,
            encodeOne_spec hexDigits (hr.length_eq.symm.trans hlen) hr.lt hval]
        · refine Or.inr ⟨fun h => hbad ⟨h.1, ?_⟩, e, by rw [he'], ht⟩
          rw [exists_reads_iff] at h ⊢
          exact fun c hc => h.2 c (mem_append_right us hc)
    · exact Or.inl ⟨⟨[], _, rfl, dvd_zero _, by simp, hlarge⟩, by rw [he]; rfl⟩
    · -- the input stops here, also for what `RunTooLarge` asks
      have hfirst : ∀ done rest, c :: first = done ++ rest → 0 < done.length →
          2 * t.size ∣ done.length → ¬ ∀ c ∈ done, IsHexDigit (toChar c) := by
        intro done rest hs hlt hdvd hall
        have hle := Nat.le_of_dvd hlt hdvd
        obtain ⟨ds, hr⟩ := exists_reads_iff.mpr fun c hc =>
          hall c (mem_of_mem_take (i := 2 * t.size) hc)
        refine hshort ⟨_, ds, done.drop (2 * t.size) ++ rest, ?_, length_take_of_le hle, hr⟩
        rw [← List.append_assoc, take_append_drop, hs]
      refine Or.inr ⟨?_, Or.inr ⟨?_, e, by rw [he]; rfl, ht⟩⟩
      · rintro ⟨done, rest, hs, hdvd, hall, hlarge⟩
        rcases Nat.eq_zero_or_pos done.length with h₀ | hlt
        · obtain rfl := length_eq_zero_iff.mp h₀
          exact hno (hs ▸ hlarge)
        · exact hfirst done rest hs hlt hdvd hall
      · rintro ⟨hdvd, hr⟩
        exact hfirst _ [] (append_nil _).symm (by simp) hdvd (exists_reads_iff.mp hr)

/-- What `unhex` is to do with a text: take it if it is hexadecimal, so that it can be written back
up to the case of its letters, and throw if it is not. -/
structure Decodes (t : IntType) (s : List ℤ) : Prop where
  accepts : (∃ r, unhex t s = .ok r) ↔ 2 * t.size ∣ s.length ∧ ∀ c ∈ s, IsHexDigit c
  back : ∀ r, unhex t s = .ok r → hex t r = s.map toUpper ∧ hexLower t r = s.map toLower
  throws : ∀ e, unhex t s = .error e → e.IsThrow

theorem Reads.written {us : List ℤ} (h : Reads us ds) (hex : ∀ c ∈ us, IsHexDigit c) :
    ds.map (upperDigits.getD · 0) = us.map toUpper ∧
      ds.map (lowerDigits.getD · 0) = us.map toLower := by
  induction h with
  | nil => exact ⟨rfl, rfl⟩
  | @cons c d us ds hc _ ih =>
    obtain ⟨d', hd', hup, hlow⟩ := exists_stands (hex c mem_cons_self)
    rw [hc] at hd'
    obtain rfl : d = d' := Int.ofNat_inj.mp (Except.ok.inj hd')
    obtain ⟨ihup, ihlow⟩ := ih fun c hc => hex c (mem_cons_of_mem _ hc)
    rw [map_cons, map_cons, map_cons, map_cons, hup, hlow, ihup, ihlow]
    exact ⟨rfl, rfl⟩

theorem decodes_iff (t : IntType) (s : List ℤ) :
    Decodes t s ↔ ¬ RunTooLarge t s ∧
      (2 * t.size ∣ s.length → (∀ c ∈ s, IsHexDigit (toChar c)) → ∀ c ∈ s, IsHexDigit c) := by
  have hchar : (∀ c ∈ s, IsHexDigit c) → ∀ c ∈ s, IsHexDigit (toChar c) := fun h c hc => by
    rw [toChar_of_isHexDigit (h c hc)]
    exact h c hc
  rcases unhexLoop_spec t s.length s (Nat.le_refl _) with
    ⟨hlarge, he⟩ | ⟨hno, ⟨ds, r, hr, hdvd, he, hback⟩ | ⟨hbad, e, he, ht⟩⟩
  · exact iff_of_false (fun h => h.throws _ he) fun h => h.1 hlarge
  · -- the text is taken
    have hdigits := exists_reads_iff.mp ⟨ds, hr⟩
    refine ⟨fun h => ⟨hno, fun _ _ => (h.accepts.mp ⟨r, he⟩).2⟩, fun h => ?_⟩
    have hhex := h.2 hdvd hdigits
    refine ⟨iff_of_true ⟨r, he⟩ ⟨hdvd, hhex⟩, fun r' hr' => ?_, fun e' he' => ?_⟩
    · obtain rfl : r = r' := Except.ok.inj (he.symm.trans hr')
      rw [hex, hexLower, hback, hback]
      exact hr.written hhex
    · cases he.symm.trans he'
  · -- an exception
    have hbad' : ¬ (2 * t.size ∣ s.length ∧ ∀ c ∈ s, IsHexDigit (toChar c)) :=
      fun h => hbad ⟨h.1, exists_reads_iff.mpr h.2⟩
    refine iff_of_true ⟨iff_of_false ?_ fun h => hbad' ⟨h.1, hchar h.2⟩, fun r' hr' => ?_,
      fun e' he' => ?_⟩ ⟨hno, fun hdvd hall => absurd ⟨hdvd, hall⟩ hbad'⟩
    · rintro ⟨r', hr'⟩
      cases he.symm.trans hr'
    · cases he.symm.trans hr'
    · obtain rfl : e = e' := Except.error.inj (he.symm.trans he')
      exact ht

/-- Numbers of an unsigned type are read back from what is written, with either alphabet. -/
theorem unhexLoop_written {hexDigits : List ℤ} (hs : t.signed = false)
    (hdigits : ∀ d < 16, hexCharToInt (hexDigits.getD d 0) = .ok (d : ℕ)) : ∀ (fuel : ℕ) (xs : List ℤ),
    (∀ x ∈ xs, 0 ≤ x ∧ x < t.modulus) → xs.length ≤ fuel →
    unhexLoop t fuel (xs.flatMap (encodeOne t hexDigits)) = .ok xs
  | fuel, [], _, _ => by cases fuel <;> rfl
  | fuel + 1, x :: xs, hx, hfuel => by
    obtain ⟨h₀, hlt⟩ := hx x mem_cons_self
    have hpos := t.size_pos
    obtain ⟨ds, hlen, hds, hv⟩ := exists_digits (2 * t.size) x.toNat (by
      rw [← t.modulus_eq]
      omega)
    have hval : (value ds : ℤ) = x := by rw [hv, Int.toNat_of_nonneg h₀]
    have hcode : encodeOne t hexDigits x = ds.map (hexDigits.getD · 0) :=
      encodeOne_spec hexDigits hlen hds (by rw [hval, Int.emod_eq_of_lt h₀ hlt])
    have hreads : Reads (ds.map (hexDigits.getD · 0)) ds :=
      forall₂_map_left_iff.mpr (forall₂_same.mpr fun d hd => hdigits d (hds d hd))
    rw [flatMap_cons, hcode]
    obtain ⟨c, first, hcons⟩ : ∃ c first, ds.map (hexDigits.getD · 0) = c :: first :=
      exists_cons_of_length_pos (by rw [length_map]; omega)
    have hone : decodeOne t (ds.map (hexDigits.getD · 0) ++ xs.flatMap (encodeOne t hexDigits)) =
        .ok (x, xs.flatMap (encodeOne t hexDigits)) := by
      rcases decodeOne_spec t (ds.map (hexDigits.getD · 0) ++ xs.flatMap (encodeOne t hexDigits)) with
        ⟨us, ds', rest, he, hlen', hr, -, hd⟩ | ⟨⟨h, -⟩, -⟩ | ⟨-, h, -⟩
      · obtain ⟨rfl, rfl⟩ := append_inj he (by rw [length_map, hlen, hlen'])
        obtain rfl := hr.unique hreads
        rw [hd, hval, IntType.convert, if_neg (by rw [hs]; decide), Int.emod_eq_of_lt h₀ hlt]
      · rw [hs] at h
        cases h
      · exact absurd ⟨_, ds, _, rfl, by rw [length_map, hlen], hreads⟩ h
    rw [hcons] at hone ⊢
    rw [List.cons_append] at hone ⊢
    rw [unhexLoop, hone]
    simp only [bind, Except.bind]
    rw [unhexLoop_written hs hdigits fuel xs (fun y hy => hx y (mem_cons_of_mem _ hy))
      (Nat.le_of_succ_le_succ hfuel)]

theorem length_written (t : IntType) {hexDigits : List ℤ} : ∀ xs : List ℤ,
    xs.length ≤ (xs.flatMap (encodeOne t hexDigits)).length
  | [] => Nat.le_refl _
  | x :: xs => by
    have hpos := t.size_pos
    have hlen : ∀ k val p, (encodeLoop hexDigits k val p).length = k + p.length := by
      intro k
      induction k with
      | zero => intro val p; rw [encodeLoop, Nat.zero_add]
      | succ k ih => intro val p; rw [encodeLoop, ih, length_cons]; omega
    have hrest : xs.length ≤ (xs.flatMap (encodeOne t hexDigits)).length := length_written t xs
    rw [flatMap_cons, length_append, encodeOne, hlen, length_cons]
    omega

/-- **`unhex` takes hexadecimal text only**, gives what writes it back up to case, and throws on any
other, if and only if no number of the text is too large for a signed type of `int`'s width or more,
and the units of a text of full groups are digits if the cast to `char` makes digits of them all.
What `hex` and `hex_lower` write for unsigned numbers is always read back. -/
theorem unhex_exact_iff (t : IntType) :
    (∀ s, Decodes t s ↔ ¬ RunTooLarge t s ∧
      (2 * t.size ∣ s.length → (∀ c ∈ s, IsHexDigit (toChar c)) → ∀ c ∈ s, IsHexDigit c)) ∧
    (t.signed = false → ∀ xs : List ℤ, (∀ x ∈ xs, 0 ≤ x ∧ x < t.modulus) →
      unhex t (hex t xs) = .ok xs ∧ unhex t (hexLower t xs) = .ok xs) := by
  refine ⟨decodes_iff t, fun hs xs hxs => ⟨?_, ?_⟩⟩
  · exact unhexLoop_written hs (fun d hd => (hexCharToInt_written d hd).1) _ xs hxs
      (length_written t xs)
  · exact unhexLoop_written hs (fun d hd => (hexCharToInt_written d hd).2) _ xs hxs
      (length_written t xs)

/-- Three numbers of two bytes. -/
theorem unhex_exact_iff_words :
    unhex ⟨2, false, Nat.two_pos⟩ (hex ⟨2, false, Nat.two_pos⟩ [171, 48879, 0]) = .ok [171, 48879, 0] :=
  ((unhex_exact_iff ⟨2, false, Nat.two_pos⟩).2 rfl [171, 48879, 0] (by decide)).1

/-- The unit `304` is no digit, but its low byte is the character `0`. -/
theorem unhex_takes_wide : ¬ Decodes ⟨1, false, Nat.one_pos⟩ [304, 304] := by
  intro h
  have hall := (h.accepts.mp ⟨[0], by decide⟩).2 304 (by simp)
  exact absurd hall (by decide)

example : unhex ⟨4, true, by decide⟩ ("80000000".toList.map unit) = .error .undefined := by decide

end SourceLibs.Hex
