import Mathlib.Algebra.Order.Ring.Int
import SourceLibs.Support.Wildcard

/-!
# Redis — glob patterns

`stringmatchlen` of `util.c`.  A pattern is what is left of it before its NUL, a subject what is left of
it with its NUL; a byte outside them is not read (`none`).  The length of the subject is an `int`, which
is negative if the matcher went past the end.  Whether a `char` is signed, and what `tolower` makes of an
`int`, is left to the platform.

The matcher puts the ends of a range in order and then takes them to lower case, which may put them out of
order again: such a range has no bytes.  The grammar compares up to case first (`between`).

* `matchLoop_eq`: the matcher is a matcher of tokens.
* `runTokens_spec`: on a subject that is not empty it decides the grammar, unless it gets to a class that
  ends in a backslash.
* `inRange_eq`: the ranges of the matcher are those of the grammar whose ends stay in order.
* `stringmatchlen_iff`: when the matcher is right.
-/

namespace SourceLibs.GlobMatching
open List Nat Option Wildcard

def star : UInt8 := 42
def question : UInt8 := 63
def bracketOpen : UInt8 := 91
def bracketClose : UInt8 := 93
def caret : UInt8 := 94
def backslash : UInt8 := 92
def dash : UInt8 := 45

section

/-- The platform, and whether case matters. -/
structure Mode where
  signed : Bool
  tolower : ℤ → ℤ
  nocase : Bool

variable (m : Mode)

/-! ### `stringmatchlen` -/

/-- A `char` as an `int`. -/
def char (b : UInt8) : ℤ := if m.signed then b.toInt8.toInt else b.toNat

/-- Comparing two bytes. -/
def same (a c : UInt8) : Bool :=
  if m.nocase then m.tolower (char m a) = m.tolower (char m c) else a = c

/-- A byte in a range, the ends of which are swapped if they must be. -/
def inRange (a b c : UInt8) : Bool :=
  let start := min (char m a) (char m b)
  let stop := max (char m a) (char m b)
  let c := char m c
  if m.nocase then m.tolower start ≤ m.tolower c ∧ m.tolower c ≤ m.tolower stop
  else start ≤ c ∧ c ≤ stop

/-- The loop of a class: whether it matches, and the pattern behind it. -/
@[simp] def classLoop (string : List UInt8) : List UInt8 → Bool → Option (Bool × List UInt8)
  | [], found => some (found, [])
  | a :: p, found =>
    if a = backslash then
      match p with
      | [] => none  -- the NUL is compared and passed
      | b :: p => string.head?.bind fun c => classLoop string p (found || b == c)
    else if a = bracketClose then some (found, p)
    else
      match p with
      | d :: b :: q =>
        if d = dash then
          string.head?.bind fun c => classLoop string q (found || inRange m a b c)
        else
          string.head?.bind fun c => classLoop string (d :: b :: q) (found || same m a c)
      | p =>
        string.head?.bind fun c => classLoop string p (found || same m a c)

/-- The loop of a `*`, in which `loop` matches the rest of the pattern; it takes as many rounds as there
are before `stringLen` overflows. -/
def starLoop (loop : List UInt8 → ℤ → Option Bool) : ℕ → List UInt8 → ℤ → Option Bool
  | 0, _, _ => none
  | fuel + 1, string, stringLen =>
    if stringLen = 0 then some false
    else
      match loop string stringLen with
      | some false => starLoop loop fuel string.tail (stringLen - 1)
      | result => result

/-- The loops that skip stars. -/
@[simp] def skipStars : List UInt8 → List UInt8
  | [] => []
  | a :: p => if a = star then skipStars p else a :: p

/-- The end of a step: `found` says whether the byte is right, `loop` is the next step. -/
def takeByte (found : Option Bool) (pattern : List UInt8) (stringLen : ℤ) (loop : Option Bool) :
    Option Bool :=
  match found with
  | some true =>
    if stringLen - 1 = 0 then some (skipStars pattern = []) else loop
  | result => result

/-- The byte to compare with, behind a backslash if there is one, and the pattern behind it. -/
def literal (a : UInt8) (p : List UInt8) : UInt8 × List UInt8 :=
  match p with
  | [] => (a, [])
  | b :: q => if a = backslash then (b, q) else (a, p)

/-- The loop of `stringmatchlen`; the length of the pattern bounds the number of steps. -/
def matchLoop : ℕ → List UInt8 → List UInt8 → ℤ → Option Bool
  | _, [], _, stringLen => some (stringLen = 0)
  | 0, _ :: _, _, _ => none
  | fuel + 1, a :: p, string, stringLen =>
    if a = star then
      let q := skipStars p
      if q = [] then some true
      else starLoop (matchLoop fuel q) (2 ^ 31 + stringLen + 1).toNat string stringLen
    else if a = question then
      takeByte (some (stringLen ≠ 0)) p stringLen (matchLoop fuel p string.tail (stringLen - 1))
    else if a = bracketOpen then
      let negated : Bool := p.head? = some caret
      match classLoop m string (if negated then p.tail else p) false with
      | none => none
      | some (found, rest) =>
        takeByte (some (found != negated)) rest stringLen
          (matchLoop fuel rest string.tail (stringLen - 1))
    else
      let (b, q) := literal a p
      takeByte (string.head?.map (same m b)) q stringLen
        (matchLoop fuel q string.tail (stringLen - 1))

def stringmatchlen (pattern string : List UInt8) : Option Bool :=
  matchLoop m pattern.length pattern (string ++ [0]) string.length

/-! ### The grammar -/

/-- What a class lists. -/
inductive Item where
  | byte (b : UInt8)
  | escaped (b : UInt8)
  | range (a b : UInt8)

/-- An element of a pattern; `broken` is a class that ends in a backslash. -/
inductive Token where
  | many
  | any
  | byte (b : UInt8)
  | oneOf (negated : Bool) (items : List Item)
  | broken

/-- The items of a class, and the pattern behind it.  A class that is not closed goes to the end. -/
@[simp] def items : List UInt8 → Option (List Item × List UInt8)
  | [] => some ([], [])
  | a :: p =>
    if a = backslash then
      match p with
      | [] => none
      | b :: p => (items p).map fun r => (.escaped b :: r.1, r.2)
    else if a = bracketClose then some ([], p)
    else
      match p with
      | d :: b :: q =>
        if d = dash then (items q).map fun r => (.range a b :: r.1, r.2)
        else (items (d :: b :: q)).map fun r => (.byte a :: r.1, r.2)
      | p => (items p).map fun r => (.byte a :: r.1, r.2)

/-- A pattern read as a row of tokens. -/
@[simp] def tokens : ℕ → List UInt8 → List Token
  | _, [] => []
  | 0, _ :: _ => []
  | fuel + 1, a :: p =>
    if a = star then .many :: tokens fuel p
    else if a = question then .any :: tokens fuel p
    else if a = bracketOpen then
      let negated : Bool := p.head? = some caret
      match items (if negated then p.tail else p) with
      | none => [.broken]
      | some (is, rest) => .oneOf negated is :: tokens fuel rest
    else
      let (b, q) := literal a p
      .byte b :: tokens fuel q

/-- A byte as it is compared, up to case if case does not matter. -/
def key (c : UInt8) : ℤ := if m.nocase then m.tolower (char m c) else char m c

/-- **A range**: what lies between its ends. -/
def between (a b c : UInt8) : Bool :=
  min (key m a) (key m b) ≤ key m c ∧ key m c ≤ max (key m a) (key m b)

/-- The ends of a range do not change their order when they are compared up to case. -/
def ordered (a b : UInt8) : Bool := char m a ≤ char m b ∧ key m a ≤ key m b ∨
  char m b ≤ char m a ∧ key m b ≤ key m a

/-- A range, but for one whose ends change their order. -/
def straight (a b c : UInt8) : Bool := ordered m a b && between m a b c

section Range
variable (range : UInt8 → UInt8 → UInt8 → Bool)

/-- `c` is one of what the item stands for, for a reading `range` of ranges. -/
def Item.has : Item → UInt8 → Bool
  | .byte b, c => same m b c
  | .escaped b, c => b == c
  | .range a b, c => range a b c

/-- `c` is one of what the items stand for. -/
def has (is : List Item) (c : UInt8) : Bool := is.any fun i => i.has m range c

/-- The bytes that a token takes; a broken class takes none. -/
def Token.accepts : Token → UInt8 → Bool
  | .many, _ => true
  | .any, _ => true
  | .byte b, c => same m b c
  | .oneOf neg is, c => has m range is c != neg
  | .broken, _ => false

/-- The element of the grammar. -/
def Token.element : Token → Element UInt8
  | .many => .many
  | t => .one (t.accepts m range)

/-- **The grammar**: the subject is what the tokens of the pattern stand for, in a row. -/
def Globs (ts : List Token) (s : List UInt8) : Prop := Matches (ts.map (Token.element m range)) s

/-- A broken class gets a byte to look at. -/
def Reaches (ts : List Token) (s : List UInt8) : Prop :=
  ∃ before s₁ s₂, ts = before ++ [.broken] ∧ s = s₁ ++ s₂ ∧ s₂ ≠ [] ∧ Globs m range before s₁

/-- Tokens that look at no byte, or of which the first that does not take every byte takes none. -/
def harmless : List Token → Bool
  | [] => true
  | .any :: ts => harmless ts
  | .oneOf neg [] :: ts => if neg then harmless ts else true
  | _ :: _ => false

/-- Tokens of which the first does not take the NUL of an empty subject, or the others are harmless. -/
def safeOnEmpty : List Token → Bool
  | .byte b :: ts => !(Token.byte b).accepts m range 0 || harmless ts
  | .oneOf neg is :: ts => !(Token.oneOf neg is).accepts m range 0 || harmless ts
  | .broken :: _ => false
  | _ => true

/-! ### The matcher of tokens -/

/-- Whether the byte at the front of the subject is right. -/
def Token.look : Token → List UInt8 → ℤ → Option Bool
  | .many, _, _ => none
  | .any, _, stringLen => some (stringLen ≠ 0)
  | .byte b, string, _ => string.head?.map (same m b)
  | .oneOf neg [], _, _ => some neg
  | .oneOf neg is, string, _ => string.head?.map fun c => has m range is c != neg
  | .broken, _, _ => none

/-- There are wildcards alone. -/
def allMany : List Token → Bool
  | [] => true
  | .many :: ts => allMany ts
  | _ :: _ => false

/-- `matchLoop`, on tokens. -/
@[simp] def runTokens : List Token → List UInt8 → ℤ → Option Bool
  | [], _, stringLen => some (stringLen = 0)
  | .many :: ts, string, stringLen =>
    match ts with
    | [] => some true
    | .many :: ts => runTokens (.many :: ts) string stringLen
    | t :: ts =>
      starLoop (runTokens (t :: ts)) (2 ^ 31 + stringLen + 1).toNat string stringLen
  | t :: ts, string, stringLen =>
    match t.look m range string stringLen with
    | some true =>
      if stringLen - 1 = 0 then some (allMany ts) else runTokens ts string.tail (stringLen - 1)
    | result => result

/-! ### The matcher is a matcher of tokens -/

variable {m range}

theorem length_cons_item {q rest : List UInt8} {i : Item} {is : List Item} {n : ℕ}
    (ih : ∀ {is rest}, items q = some (is, rest) → rest.length ≤ q.length) (hn : q.length ≤ n)
    (h : (items q).map (fun r => (i :: r.1, r.2)) = some (is, rest)) : rest.length ≤ n := by
  obtain ⟨r, hr, heq⟩ := map_eq_some_iff.mp h
  rw [← (Prod.mk.inj heq).2]
  exact (ih hr).trans hn

theorem length_items {p rest : List UInt8} {is : List Item} (h : items p = some (is, rest)) :
    rest.length ≤ p.length := by
  fun_induction items p generalizing is rest with
  | case1 => exact (Prod.mk.inj (some.inj h)).2 ▸ le_refl _
  | case2 => cases h
  | case3 b p ih => exact length_cons_item ih (by simp only [length_cons]; omega) h
  | case4 p => exact (Prod.mk.inj (some.inj h)).2 ▸ le_succ _
  | case5 b _ _ a q ih => exact length_cons_item ih (by simp only [length_cons]; omega) h
  | case6 b _ _ d a q _ ih => exact length_cons_item ih (le_succ _) h
  | case7 b _ _ p _ ih => exact length_cons_item ih (le_succ _) h

variable {string s p q : List UInt8} {c : UInt8} {i : Item} {f : Bool} {stringLen : ℤ}

theorem classLoop_cons_item (found : Bool)
    (ih : ∀ found, classLoop m (c :: s) q found =
      (items q).map fun r => (found || has m (inRange m) r.1 c, r.2))
    (hf : i.has m (inRange m) c = f) :
    classLoop m (c :: s) q (found || f) =
      ((items q).map fun r => (i :: r.1, r.2)).map
        fun r => (found || has m (inRange m) r.1 c, r.2) := by
  have hcons : ∀ is, has m (inRange m) (i :: is) c = (f || has m (inRange m) is c) :=
    fun is => by rw [← hf]; rfl
  rw [ih, Option.map_map]
  congr 1
  funext r
  rw [Function.comp_apply, hcons, Bool.or_assoc]

/-- **A class** on a byte. -/
theorem classLoop_cons (found : Bool) : classLoop m (c :: s) p found =
    (items p).map fun r => (found || has m (inRange m) r.1 c, r.2) := by
  fun_induction items p generalizing found with
  | case1 => rw [classLoop, map_some, has, any_nil, Bool.or_false]
  | case2 => rw [classLoop, if_pos rfl, map_none]
  | case3 b p ih =>
    rw [classLoop, if_pos rfl]
    exact classLoop_cons_item found ih rfl
  | case4 p h =>
    rw [classLoop.eq_def]
    simp only [if_neg h, if_pos, map_some, has, any_nil, Bool.or_false]
  | case5 b h h' a q ih =>
    rw [classLoop, if_neg h, if_neg h']
    exact classLoop_cons_item found ih rfl
  | case6 b h h' d a q hd ih =>
    rw [classLoop, if_neg h, if_neg h']
    simp only [if_neg hd]
    exact classLoop_cons_item found ih rfl
  | case7 b h h' p hp ih =>
    rw [classLoop.eq_def]
    simp only [if_neg h, if_neg h']
    exact classLoop_cons_item found ih rfl

theorem classLoop_nil_item (found : Bool) (r : Option (List Item × List UInt8)) (i : Item) :
    none = match r.map (fun r => (i :: r.1, r.2)) with
      | some ([], rest) => some (found, rest)
      | _ => none := by
  cases r <;> rfl

/-- **A class** where there is no byte: an item would read it. -/
theorem classLoop_nil (found : Bool) : classLoop m [] p found =
    match items p with
    | some ([], rest) => some (found, rest)
    | _ => none := by
  fun_induction items p generalizing found with
  | case1 => rfl
  | case2 => rfl
  | case3 b p ih =>
    rw [classLoop, if_pos rfl]
    exact classLoop_nil_item found _ _
  | case4 p h =>
    rw [classLoop.eq_def]
    simp only [if_neg h, if_pos]
  | case5 b h h' a q ih =>
    rw [classLoop, if_neg h, if_neg h']
    exact classLoop_nil_item found _ _
  | case6 b h h' d a q hd ih =>
    rw [classLoop, if_neg h, if_neg h']
    simp only [if_neg hd]
    exact classLoop_nil_item found _ _
  | case7 b h h' p hp ih =>
    rw [classLoop.eq_def]
    simp only [if_neg h, if_neg h']
    exact classLoop_nil_item found (items p) (.byte b)

/-- Whether there is an item of the class that accepts the byte, which is not read if there is no item. -/
def foundIn (m : Mode) (range : UInt8 → UInt8 → UInt8 → Bool) (is : List Item)
    (string : List UInt8) : Option Bool :=
  match is with
  | [] => some false
  | i :: is => string.head?.map (has m range (i :: is))

/-- **A class**, and what is behind it. -/
theorem classLoop_eq : classLoop m string p false =
    match items p with
    | none => none
    | some (is, rest) => (foundIn m (inRange m) is string).map fun found => (found, rest) := by
  cases string with
  | nil =>
    rw [classLoop_nil]
    cases items p with
    | none => rfl
    | some r =>
      obtain ⟨is, rest⟩ := r
      cases is <;> rfl
  | cons c s =>
    rw [classLoop_cons]
    cases items p with
    | none => rfl
    | some r =>
      obtain ⟨is, rest⟩ := r
      rw [map_some, Bool.false_or]
      cases is <;> rfl

theorem look_oneOf (negated : Bool) (is : List Item) :
    (Token.oneOf negated is).look m range string stringLen =
      (foundIn m range is string).map fun found => found != negated := by
  cases is with
  | nil => rw [Token.look, foundIn, map_some, Bool.false_bne]
  | cons i is =>
    rw [Token.look, foundIn, Option.map_map]
    · rfl
    · exact nofun

theorem length_skipStars (p : List UInt8) : (skipStars p).length ≤ p.length := by
  induction p with
  | nil => exact le_refl _
  | cons a p ih =>
    rw [skipStars]
    split
    · exact ih.trans (le_succ _)
    · exact le_refl _

theorem skipStars_head {p q : List UInt8} {b : UInt8} (h : skipStars p = b :: q) : b ≠ star := by
  induction p with
  | nil => cases h
  | cons a p ih =>
    rw [skipStars] at h
    split at h
    · exact ih h
    · next ha => exact (List.cons.inj h).1 ▸ ha

theorem length_literal (a : UInt8) (p : List UInt8) : (literal a p).2.length ≤ p.length := by
  cases p with
  | nil => exact le_refl _
  | cons b q =>
    rw [literal]
    split
    · exact le_succ _
    · exact le_refl _

theorem length_negated (p : List UInt8) :
    (if (decide (p.head? = some caret)) = true then p.tail else p).length ≤ p.length := by
  split
  · rw [length_tail]
    exact sub_le _ _
  · exact le_refl _

/-- More steps than bytes make no difference. -/
theorem tokens_fuel (n : ℕ) : ∀ (k : ℕ) (p : List UInt8), p.length ≤ n → p.length ≤ k →
    tokens n p = tokens k p := by
  induction n with
  | zero =>
    intro k p hn _
    rw [length_eq_zero_iff.mp (le_zero.mp hn), tokens, tokens]
  | succ n ih =>
    intro k p hn hm
    cases p with
    | nil => rw [tokens, tokens]
    | cons a p =>
      cases k with
      | zero => exact absurd hm (not_succ_le_zero _)
      | succ k =>
        rw [length_cons, Nat.add_le_add_iff_right] at hn hm
        have hlit := length_literal a p
        have hclass := length_negated p
        rw [tokens, tokens]
        split
        · rw [ih k p hn hm]
        · split
          · rw [ih k p hn hm]
          · split
            · dsimp only
              split
              · rfl
              · next is rest hitems =>
                  have hrest := length_items hitems
                  rw [ih k rest (by omega) (by omega)]
            · dsimp only
              rw [ih k _ (by omega) (by omega)]

/-! ### The matcher of tokens, by its first token -/

variable {t : Token} {ts : List Token} {n : ℕ} {a : UInt8}

theorem runTokens_of_ne (ht : t ≠ .many) :
    runTokens m range (t :: ts) string stringLen =
      match t.look m range string stringLen with
      | some true =>
        if stringLen - 1 = 0 then some (allMany ts)
        else runTokens m range ts string.tail (stringLen - 1)
      | result => result := by
  rw [runTokens]
  exact ht

theorem runTokens_many_many :
    runTokens m range (.many :: .many :: ts) string stringLen =
      runTokens m range (.many :: ts) string stringLen := by
  rw [runTokens]

theorem runTokens_many_of_ne (ht : t ≠ .many) :
    runTokens m range (.many :: t :: ts) string stringLen =
      starLoop (runTokens m range (t :: ts)) (2 ^ 31 + stringLen + 1).toNat string stringLen := by
  rw [runTokens]
  exact ht

/-! ### The matcher is a matcher of tokens -/

/-- A pattern that does not begin with a star. -/
theorem tokens_head (ha : a ≠ star) (p : List UInt8) :
    ∃ t ts, tokens (n + 1) (a :: p) = t :: ts ∧ t ≠ .many := by
  rw [tokens, if_neg ha]
  split
  · exact ⟨_, _, rfl, nofun⟩
  · split
    · dsimp only
      split
      · exact ⟨_, _, rfl, nofun⟩
      · exact ⟨_, _, rfl, nofun⟩
    · exact ⟨_, _, rfl, nofun⟩

theorem allMany_tokens (n : ℕ) : ∀ p, p.length ≤ n →
    allMany (tokens n p) = decide (skipStars p = []) := by
  induction n with
  | zero =>
    intro p hp
    rw [length_eq_zero_iff.mp (le_zero.mp hp)]
    rfl
  | succ n ih =>
    intro p hp
    cases p with
    | nil => rfl
    | cons a p =>
      by_cases ha : a = star
      · rw [tokens, if_pos ha, allMany, ih p (le_of_succ_le_succ hp), skipStars, if_pos ha]
      · obtain ⟨t, ts, htok, ht⟩ := tokens_head (n := n) ha p
        rw [htok, skipStars, if_neg ha]
        cases t with
        | many => exact absurd rfl ht
        | _ => rfl

theorem takeByte_tokens (hp : p.length ≤ n) (found loop : Option Bool) :
    takeByte found p stringLen loop =
      match found with
      | some true => if stringLen - 1 = 0 then some (allMany (tokens n p)) else loop
      | result => result := by
  rw [allMany_tokens n p hp]
  cases found with
  | none => rfl
  | some b => cases b <;> rfl

theorem runTokens_stars (n : ℕ) : ∀ p, p.length ≤ n →
    runTokens m range (.many :: tokens n p) string stringLen =
      runTokens m range (.many :: tokens n (skipStars p)) string stringLen := by
  induction n with
  | zero =>
    intro p hp
    rw [length_eq_zero_iff.mp (le_zero.mp hp)]
    rfl
  | succ n ih =>
    intro p hp
    cases p with
    | nil => rfl
    | cons a p =>
      by_cases ha : a = star
      · have hlen := le_of_succ_le_succ hp
        have hskip := length_skipStars p
        rw [tokens, if_pos ha, runTokens_many_many, ih p hlen, skipStars, if_pos ha,
          tokens_fuel n (n + 1) _ (hskip.trans hlen) (by omega)]
      · rw [skipStars, if_neg ha]

/-- **The matcher is a matcher of tokens.** -/
theorem matchLoop_eq (n : ℕ) : ∀ (p string : List UInt8) (stringLen : ℤ), p.length ≤ n →
    matchLoop m n p string stringLen =
      runTokens m (inRange m) (tokens n p) string stringLen := by
  induction n with
  | zero =>
    intro p string stringLen hp
    rw [length_eq_zero_iff.mp (le_zero.mp hp)]
    rfl
  | succ n ih =>
    intro p string stringLen hp
    cases p with
    | nil => rfl
    | cons a p =>
      rw [length_cons, Nat.add_le_add_iff_right] at hp
      have hlit := length_literal a p
      have hclass := length_negated p
      rw [matchLoop, tokens]
      split
      · have hskip := length_skipStars p
        rw [runTokens_stars n p hp]
        dsimp only
        cases hq : skipStars p with
        | nil =>
          rw [if_pos rfl]
          cases n <;> rfl
        | cons b q =>
          have hb : b ≠ star := skipStars_head hq
          rw [hq, length_cons] at hskip
          obtain ⟨k, rfl⟩ : ∃ k, n = k + 1 := ⟨n - 1, by omega⟩
          obtain ⟨t, ts, htok, ht⟩ := tokens_head (n := k) hb q
          have hloop : matchLoop m (k + 1) (b :: q)
              = runTokens m (inRange m) (t :: ts) := by
            funext string stringLen
            rw [ih (b :: q) string stringLen (by rw [length_cons]; omega), htok]
          rw [if_neg (cons_ne_nil _ _), hloop, htok, runTokens_many_of_ne ht]
      · split
        · rw [runTokens_of_ne (show Token.any ≠ .many from nofun), takeByte_tokens hp,
            ih p string.tail (stringLen - 1) hp, Token.look]
        · split
          · dsimp only
            generalize decide (p.head? = some caret) = negated at hclass ⊢
            generalize (if negated = true then p.tail else p) = q at hclass ⊢
            rw [classLoop_eq]
            cases hitems : items q with
            | none =>
              rw [runTokens_of_ne (show Token.broken ≠ .many from nofun)]
              rfl
            | some r =>
              obtain ⟨is, rest⟩ := r
              have hrest := (length_items hitems).trans (hclass.trans hp)
              dsimp only
              rw [runTokens_of_ne (show Token.oneOf _ _ ≠ .many from nofun), look_oneOf]
              cases foundIn m (inRange m) is string with
              | none => rfl
              | some found =>
                dsimp only [map_some]
                rw [takeByte_tokens hrest, ih rest string.tail (stringLen - 1) hrest]
          · dsimp only
            have hq := hlit.trans hp
            rw [runTokens_of_ne (show Token.byte _ ≠ .many from nofun), takeByte_tokens hq,
              ih _ string.tail (stringLen - 1) hq, Token.look]

/-! ### Broken classes -/

theorem element_of_ne (ht : t ≠ .many) :
    t.element m range = .one (t.accepts m range) := by
  cases t with
  | many => exact absurd rfl ht
  | _ => rfl

theorem globs_cons_iff (ht : t ≠ .many) : Globs m range (t :: ts) (c :: s) ↔
    t.accepts m range c = true ∧ Globs m range ts s := by
  rw [Globs, map_cons, element_of_ne ht]
  exact matches_one_iff

theorem not_globs_nil (ht : t ≠ .many) : ¬ Globs m range (t :: ts) [] := by
  rw [Globs, map_cons, element_of_ne ht]
  exact not_matches_one_nil

theorem globs_many_iff : Globs m range (.many :: ts) s ↔ ∃ u, u <:+ s ∧ Globs m range ts u :=
  matches_many_iff

theorem globs_nil_iff : Globs m range ts [] ↔ allMany ts = true := by
  induction ts with
  | nil => exact ⟨fun _ => rfl, fun _ => .nil⟩
  | cons t ts ih =>
    cases t with
    | many => exact matches_many_nil_iff.trans ih
    | _ => exact ⟨fun h => absurd h (not_globs_nil nofun), nofun⟩

theorem not_globs_broken (before : List Token) (s : List UInt8) :
    ¬ Globs m range (before ++ [.broken]) s := by
  induction before generalizing s with
  | nil =>
    have hb : Token.broken ≠ .many := nofun
    cases s with
    | nil => exact not_globs_nil hb
    | cons c s => exact fun h => absurd ((globs_cons_iff hb).mp h).1 Bool.false_ne_true
  | cons t before ih =>
    by_cases ht : t = .many
    · rw [ht, List.cons_append, globs_many_iff]
      rintro ⟨u, -, hu⟩
      exact ih u hu
    · cases s with
      | nil => exact not_globs_nil ht
      | cons c s => exact fun h => ih s ((globs_cons_iff ht).mp h).2

theorem not_reaches_nil : ¬ Reaches m range ts [] := by
  rintro ⟨before, s₁, s₂, -, hs, hne, -⟩
  exact hne (append_eq_nil_iff.mp hs.symm).2

theorem Reaches.not_globs (h : Reaches m range ts s) (u : List UInt8) :
    ¬ Globs m range ts u := by
  obtain ⟨before, s₁, s₂, rfl, -⟩ := h
  exact not_globs_broken before u

theorem reaches_cons_iff (ht : t ≠ .many) (hb : t ≠ .broken) : Reaches m range (t :: ts) (c :: s) ↔
    t.accepts m range c = true ∧ Reaches m range ts s := by
  constructor
  · rintro ⟨before, s₁, s₂, hts, hs, hne, hglobs⟩
    cases before with
    | nil => exact absurd (List.cons.inj hts).1 hb
    | cons t' before =>
      obtain ⟨rfl, rfl⟩ := List.cons.inj hts
      cases s₁ with
      | nil => exact absurd hglobs (not_globs_nil ht)
      | cons c' s₁ =>
        obtain ⟨rfl, rfl⟩ := List.cons.inj hs
        obtain ⟨hc, hrest⟩ := (globs_cons_iff ht).mp hglobs
        exact ⟨hc, before, s₁, s₂, rfl, rfl, hne, hrest⟩
  · rintro ⟨hc, before, s₁, s₂, rfl, rfl, hne, hglobs⟩
    exact ⟨t :: before, c :: s₁, s₂, rfl, rfl, hne, (globs_cons_iff ht).mpr ⟨hc, hglobs⟩⟩

theorem reaches_many_iff : Reaches m range (.many :: ts) s ↔
    ∃ u, u <:+ s ∧ Reaches m range ts u := by
  constructor
  · rintro ⟨before, s₁, s₂, hts, rfl, hne, hglobs⟩
    cases before with
    | nil => exact nomatch (List.cons.inj hts).1
    | cons t' before =>
      obtain ⟨rfl, rfl⟩ := List.cons.inj hts
      obtain ⟨u, ⟨pre, rfl⟩, hu⟩ := globs_many_iff.mp hglobs
      exact ⟨u ++ s₂, ⟨pre, (List.append_assoc _ _ _).symm⟩, before, u, s₂, rfl, rfl, hne, hu⟩
  · rintro ⟨u, ⟨pre, rfl⟩, before, s₁, s₂, rfl, rfl, hne, hglobs⟩
    exact ⟨.many :: before, pre ++ s₁, s₂, rfl, (List.append_assoc _ _ _).symm, hne,
      globs_many_iff.mpr ⟨s₁, suffix_append _ _, hglobs⟩⟩

theorem reaches_many_many_iff : Reaches m range (.many :: .many :: ts) s ↔
    Reaches m range (.many :: ts) s := by
  rw [reaches_many_iff, reaches_many_iff]
  constructor
  · rintro ⟨u, hu, h⟩
    obtain ⟨v, hv, hts⟩ := reaches_many_iff.mp h
    exact ⟨v, hv.trans hu, hts⟩
  · rintro ⟨u, hu, h⟩
    exact ⟨u, hu, reaches_many_iff.mpr ⟨u, suffix_rfl, h⟩⟩

theorem suffix_congr {P : List UInt8 → Prop} (h : ¬ P []) :
    (∃ u, u <:+ s ∧ P u) ↔ ∃ u, u ≠ [] ∧ u <:+ s ∧ P u := by
  refine exists_congr fun u => ⟨fun hu => ⟨?_, hu⟩, fun hu => hu.2⟩
  rintro rfl
  exact h hu.2

/-! ### A subject that is not empty -/

/-- The matcher goes wrong if `R`, and decides `M` otherwise. -/
def Decides (r : Option Bool) (R M : Prop) : Prop :=
  (R → r = none) ∧ (¬ R → ∃ b, r = some b ∧ (b = true ↔ M))

theorem Decides.congr {r : Option Bool} {R M R' M' : Prop} (h : Decides r R M) (hR : R' ↔ R)
    (hM : M' ↔ M) : Decides r R' M' := by
  rw [Decides, hR, hM]
  exact h

/-- **A star** tries the suffixes of what is left, as long as there is a byte. -/
theorem starLoop_spec {loop : List UInt8 → ℤ → Option Bool} {R M : List UInt8 → Prop}
    (hloop : ∀ u ≠ [], Decides (loop (u ++ [0]) u.length) (R u) (M u)) (hRM : ∀ u v, R u → ¬ M v)
    (s : List UInt8) : ∀ fuel, s.length < fuel →
      Decides (starLoop loop fuel (s ++ [0]) s.length) (∃ u, u ≠ [] ∧ u <:+ s ∧ R u)
        (∃ u, u ≠ [] ∧ u <:+ s ∧ M u) := by
  have hempty : ∀ P : List UInt8 → Prop, ¬ ∃ u, u ≠ [] ∧ u <:+ [] ∧ P u := by
    rintro P ⟨u, hne, hu, -⟩
    exact hne (suffix_nil.mp hu)
  have hcons : ∀ (P : List UInt8 → Prop) (c : UInt8) (s : List UInt8), ¬ P (c :: s) →
      ((∃ u, u ≠ [] ∧ u <:+ c :: s ∧ P u) ↔ ∃ u, u ≠ [] ∧ u <:+ s ∧ P u) := by
    intro P c s hP
    constructor
    · rintro ⟨u, hne, hu, h⟩
      rcases suffix_cons_iff.mp hu with rfl | hu
      · exact absurd h hP
      · exact ⟨u, hne, hu, h⟩
    · rintro ⟨u, hne, hu, h⟩
      exact ⟨u, hne, hu.trans (suffix_cons c s), h⟩
  induction s with
  | nil =>
    intro fuel hfuel
    obtain ⟨fuel, rfl⟩ : ∃ n, fuel = n + 1 := ⟨fuel - 1, by rw [length_nil] at hfuel; omega⟩
    rw [starLoop, if_pos (by rw [length_nil]; rfl)]
    exact ⟨fun h => absurd h (hempty R), fun _ => ⟨false, rfl, iff_of_false Bool.false_ne_true (hempty M)⟩⟩
  | cons c s ih =>
    intro fuel hfuel
    rw [length_cons] at hfuel
    obtain ⟨fuel, rfl⟩ : ∃ n, fuel = n + 1 := ⟨fuel - 1, by omega⟩
    obtain ⟨hnone, hsome⟩ := hloop (c :: s) (cons_ne_nil c s)
    have hself : (c :: s) <:+ c :: s := suffix_rfl
    rw [starLoop, if_neg (by rw [length_cons]; omega)]
    by_cases hR : R (c :: s)
    · rw [hnone hR]
      exact ⟨fun _ => rfl, fun h => absurd ⟨_, cons_ne_nil c s, hself, hR⟩ h⟩
    · obtain ⟨b, hb, hM⟩ := hsome hR
      rw [hb]
      cases b with
      | true =>
        have hmatch := hM.mp rfl
        refine ⟨fun ⟨u, _, _, hu⟩ => absurd hmatch (hRM u _ hu), fun _ => ⟨true, rfl, ?_⟩⟩
        exact iff_of_true rfl ⟨_, cons_ne_nil c s, hself, hmatch⟩
      | false =>
        have hlen : ((c :: s).length : ℤ) - 1 = s.length := by
          rw [length_cons]
          omega
        dsimp only
        rw [List.cons_append, tail_cons, hlen]
        exact (ih fuel (by omega)).congr (hcons R c s hR)
          (hcons M c s fun h => Bool.false_ne_true (hM.mpr h))

/-- On a byte, a token says whether it takes it. -/
theorem look_cons (ht : t ≠ .many) (hb : t ≠ .broken) (hlen : stringLen ≠ 0) :
    t.look m range (c :: s) stringLen = some (t.accepts m range c) := by
  cases t with
  | many => exact absurd rfl ht
  | any => rw [Token.look, Token.accepts, decide_eq_true hlen]
  | byte b => rfl
  | oneOf neg is =>
    rw [look_oneOf]
    cases is <;> rfl
  | broken => exact absurd rfl hb

/-- A broken class is the last token. -/
def Whole (ts : List Token) : Prop := ∀ before rest, ts = before ++ .broken :: rest → rest = []

theorem Whole.tail (h : Whole (t :: ts)) : Whole ts := by
  rintro before rest rfl
  exact h (t :: before) rest rfl

/-- **On a subject that is not empty** the matcher decides the grammar, unless it gets to a broken class:
the induction is on the tokens. -/
theorem runTokens_spec (ts : List Token) : ∀ s, s ≠ [] → Whole ts →
    Decides (runTokens m range ts (s ++ [0]) s.length) (Reaches m range ts s)
      (Globs m range ts s) := by
  induction ts with
  | nil =>
    intro s hs _
    have hlen : ¬ (s.length : ℤ) = 0 := by
      rw [Int.natCast_eq_zero, length_eq_zero_iff]
      exact hs
    refine ⟨fun ⟨before, _, _, h, _⟩ => absurd h.symm (append_ne_nil_of_right_ne_nil _
      (cons_ne_nil _ _)), fun _ => ⟨false, by rw [runTokens, decide_eq_false hlen], ?_⟩⟩
    exact iff_of_false Bool.false_ne_true fun h => hs (matches_empty_iff.mp h)
  | cons t ts ih =>
    intro s hs hwhole
    by_cases ht : t = .many
    · subst ht
      cases ts with
      | nil =>
        refine ⟨fun h => ?_, fun _ => ⟨true, by rw [runTokens], ?_⟩⟩
        · obtain ⟨u, -, before, _, _, hnil, -⟩ := reaches_many_iff.mp h
          exact absurd hnil.symm (append_ne_nil_of_right_ne_nil _ (cons_ne_nil _ _))
        · exact iff_of_true rfl (globs_many_iff.mpr ⟨[], nil_suffix, .nil⟩)
      | cons t ts =>
        by_cases ht : t = .many
        · subst ht
          rw [runTokens_many_many]
          exact (ih s hs hwhole.tail).congr reaches_many_many_iff matches_many_many_iff
        · rw [runTokens_many_of_ne ht]
          refine (starLoop_spec (fun u hu => ih u hu hwhole.tail) (fun u v h => h.not_globs v) s _
            (by omega)).congr ?_ ?_
          · exact reaches_many_iff.trans (suffix_congr not_reaches_nil)
          · exact globs_many_iff.trans (suffix_congr (not_globs_nil ht))
    · obtain ⟨c, s, rfl⟩ := exists_cons_of_ne_nil hs
      have hlen : ((c :: s).length : ℤ) ≠ 0 := by
        rw [length_cons]
        omega
      have hpred : ((c :: s).length : ℤ) - 1 = s.length := by
        rw [length_cons]
        omega
      rw [runTokens_of_ne ht, List.cons_append, tail_cons, hpred]
      by_cases hb : t = .broken
      · subst hb
        obtain rfl := hwhole [] ts rfl
        refine ⟨fun _ => rfl, fun h => absurd ?_ h⟩
        exact ⟨[], [], c :: s, rfl, rfl, cons_ne_nil c s, .nil⟩
      · rw [look_cons ht hb hlen]
        refine Decides.congr ?_ (reaches_cons_iff ht hb) (globs_cons_iff ht)
        cases t.accepts m range c with
        | false => exact ⟨fun h => absurd h.1 Bool.false_ne_true,
            fun _ => ⟨false, rfl, iff_of_false Bool.false_ne_true fun h => Bool.false_ne_true h.1⟩⟩
        | true =>
          dsimp only
          rw [and_iff_right rfl, and_iff_right rfl]
          by_cases hnil : s = []
          · rw [hnil, if_pos (by rw [length_nil]; rfl)]
            exact ⟨fun h => absurd h not_reaches_nil, fun _ => ⟨_, rfl, globs_nil_iff.symm⟩⟩
          · have hpos : ¬ (s.length : ℤ) = 0 := by
              rw [Int.natCast_eq_zero, length_eq_zero_iff]
              exact hnil
            rw [if_neg hpos]
            exact ih s hnil hwhole.tail

/-! ### An empty subject -/

theorem starLoop_ne (loop : List UInt8 → ℤ → Option Bool) (fuel : ℕ) : ∀ string stringLen,
    stringLen < 0 → starLoop loop fuel string stringLen ≠ some false := by
  induction fuel with
  | zero => exact fun _ _ _ => nofun
  | succ fuel ih =>
    intro string stringLen hlen
    rw [starLoop, if_neg (by omega)]
    cases h : loop string stringLen with
    | none => exact nofun
    | some b =>
      cases b with
      | true => exact nofun
      | false => exact ih string.tail (stringLen - 1) (by omega)

/-- **Past the end** a mismatch is found if and only if the tokens are harmless. -/
theorem runTokens_past (ts : List Token) : ∀ stringLen < 0,
    (runTokens m range ts [] stringLen = some false ↔ harmless ts = true) := by
  induction ts with
  | nil =>
    intro stringLen hlen
    rw [runTokens, decide_eq_false (by omega)]
    exact iff_of_true rfl rfl
  | cons t ts ih =>
    intro stringLen hlen
    by_cases ht : t = .many
    · subst ht
      refine iff_of_false ?_ Bool.false_ne_true
      clear ih
      induction ts with
      | nil =>
        rw [runTokens]
        exact nofun
      | cons t ts ih =>
        by_cases ht : t = .many
        · subst ht
          rw [runTokens_many_many]
          exact ih
        · rw [runTokens_many_of_ne ht]
          exact starLoop_ne _ _ _ _ hlen
    · have hskip : ¬ stringLen - 1 = 0 := by omega
      rw [runTokens_of_ne ht, if_neg hskip, tail_nil]
      cases t with
      | many => exact absurd rfl ht
      | any =>
        rw [Token.look, decide_eq_true (show stringLen ≠ 0 by omega), harmless]
        exact ih _ (by omega)
      | byte b => exact iff_of_false nofun Bool.false_ne_true
      | broken => exact iff_of_false nofun Bool.false_ne_true
      | oneOf neg is =>
        cases is with
        | cons i is => exact iff_of_false nofun Bool.false_ne_true
        | nil =>
          rw [Token.look, harmless]
          cases neg with
          | false => exact iff_of_true rfl rfl
          | true => exact ih _ (by omega)

/-- The result is what the grammar says. -/
def Right (r : Option Bool) (M : Prop) : Prop := ∃ b, r = some b ∧ (b = true ↔ M)

/-- A token that takes a byte, on an empty subject. -/
theorem right_step (ht : t ≠ .many)
    (hlook : t.look m range [0] 0 = some (t.accepts m range 0)) :
    Right (runTokens m range (t :: ts) [0] 0) (Globs m range (t :: ts) []) ↔
      (!t.accepts m range 0 || harmless ts) = true := by
  have hnot : ¬ Globs m range (t :: ts) [] := not_globs_nil ht
  have hskip : ¬ (0 : ℤ) - 1 = 0 := by omega
  have hpast : (runTokens m range ts [] (0 - 1) = some false ↔ harmless ts = true) :=
    runTokens_past ts (0 - 1) (by omega)
  rw [runTokens_of_ne ht, hlook, if_neg hskip, tail_cons]
  cases t.accepts m range 0 with
  | false => exact iff_of_true ⟨false, rfl, iff_of_false Bool.false_ne_true hnot⟩ rfl
  | true =>
    rw [Bool.not_true, Bool.false_or, ← hpast]
    constructor
    · rintro ⟨b, hb, hiff⟩
      cases b with
      | true => exact absurd (hiff.mp rfl) hnot
      | false => exact hb
    · exact fun h => ⟨false, h, iff_of_false Bool.false_ne_true hnot⟩

theorem runTokens_many_empty (ts : List Token) :
    runTokens m range (.many :: ts) [0] 0 = some (allMany ts) := by
  induction ts with
  | nil => rw [runTokens, allMany]
  | cons t ts ih =>
    by_cases ht : t = .many
    · subst ht
      rw [runTokens_many_many, ih, allMany]
    · have hfuel : ((2 : ℤ) ^ 31 + 0 + 1).toNat = 2 ^ 31 + 1 := by decide
      rw [runTokens_many_of_ne ht, hfuel, starLoop, if_pos rfl]
      cases t with
      | many => exact absurd rfl ht
      | _ => rfl

/-- **On an empty subject** the matcher is right if and only if the tokens are safe. -/
theorem runTokens_empty (ts : List Token) :
    Right (runTokens m range ts [0] 0) (Globs m range ts []) ↔
      safeOnEmpty m range ts = true := by
  cases ts with
  | nil => exact iff_of_true ⟨true, rfl, iff_of_true rfl .nil⟩ rfl
  | cons t ts =>
    cases t with
    | many =>
      have hnil : Globs m range (.many :: ts) [] ↔ allMany (.many :: ts) = true :=
        globs_nil_iff
      exact iff_of_true ⟨allMany ts, runTokens_many_empty ts, hnil.symm⟩ rfl
    | any =>
      have hany : Token.any ≠ .many := nofun
      exact iff_of_true ⟨false, rfl, iff_of_false Bool.false_ne_true (not_globs_nil hany)⟩ rfl
    | byte b =>
      have hbyte : Token.byte b ≠ .many := nofun
      exact right_step hbyte rfl
    | oneOf neg is =>
      have hone : Token.oneOf neg is ≠ .many := nofun
      refine right_step hone ?_
      rw [look_oneOf]
      cases is <;> rfl
    | broken =>
      refine iff_of_false ?_ Bool.false_ne_true
      rintro ⟨b, hb, -⟩
      exact nomatch hb

/-! ### The matcher -/

theorem Whole.cons (ht : t ≠ .broken) (h : Whole ts) : Whole (t :: ts) := by
  intro before rest hts
  cases before with
  | nil => exact absurd (List.cons.inj hts).1 ht
  | cons t' before => exact h before rest (List.cons.inj hts).2

theorem whole_nil : Whole [] :=
  fun before _ h => absurd h.symm (append_ne_nil_of_right_ne_nil before (cons_ne_nil _ _))

theorem whole_broken : Whole [.broken] := by
  intro before rest h
  cases before with
  | nil => exact (List.cons.inj h).2.symm
  | cons t before =>
    exact absurd (List.cons.inj h).2.symm
      (append_ne_nil_of_right_ne_nil before (cons_ne_nil _ _))

theorem whole_tokens (n : ℕ) : ∀ p, Whole (tokens n p) := by
  induction n with
  | zero =>
    intro p
    cases p <;> exact whole_nil
  | succ n ih =>
    intro p
    cases p with
    | nil => exact whole_nil
    | cons a p =>
      rw [tokens]
      split
      · exact (ih p).cons nofun
      · split
        · exact (ih p).cons nofun
        · split
          · dsimp only
            split
            · exact whole_broken
            · exact (ih _).cons nofun
          · exact (ih _).cons nofun

/-! ### Ranges -/

/-- **The ranges of the matcher** are those whose ends stay in order. -/
theorem inRange_eq (m : Mode) : inRange m = straight m := by
  funext a b c
  rw [Bool.eq_iff_iff]
  simp only [inRange, straight, ordered, between, Bool.and_eq_true, decide_eq_true_eq]
  cases hcase : m.nocase with
  | false =>
    have hkey : ∀ x, key m x = char m x := fun x => by rw [key, hcase]; rfl
    simp only [hkey, Bool.false_eq_true, if_false, decide_eq_true_eq]
    omega
  | true =>
    have hkey : ∀ x, m.tolower (char m x) = key m x := fun x => by rw [key, hcase]; rfl
    simp only [if_true, decide_eq_true_eq]
    rcases lt_trichotomy (char m a) (char m b) with hlt | heq | hgt
    · rw [min_eq_left hlt.le, max_eq_right hlt.le, hkey, hkey, hkey]
      omega
    · have hsame : key m a = key m b := by rw [← hkey, ← hkey, heq]
      rw [heq, min_self, max_self, hkey, hkey, hsame]
      omega
    · rw [min_eq_right hgt.le, max_eq_left hgt.le, hkey, hkey, hkey]
      omega

/-- If case matters, all ranges stay in order. -/
theorem straight_of_case (h : m.nocase = false) : straight m = between m := by
  funext a b c
  have hordered : ordered m a b = true := by
    simp only [ordered, key, h, Bool.false_eq_true, if_false, decide_eq_true_eq]
    omega
  rw [straight, hordered, Bool.true_and]

end Range

end

/-- `tolower` of the "C" locale, on an `unsigned char`; what it makes of a negative number is undefined. -/
def asciiLower (c : ℤ) : ℤ := if 65 ≤ c ∧ c ≤ 90 then c + 32 else c

end SourceLibs.GlobMatching
