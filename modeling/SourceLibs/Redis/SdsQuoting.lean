import Mathlib.Data.List.Basic
import Mathlib.Data.UInt
import Mathlib.Tactic.Common

/-!
# Redis — quoting of sds strings

`sdscatrepr` writes a string in quotes with escapes, and `sdssplitargs` splits a line into arguments,
plain or in quotes of two kinds.  A line is the list of its bytes; past its end a 0 is read, and a 0 in
it ends it.

* `Splits`, `Faulty`: the arguments of a line, and a line with a quote that is not closed, or closed
  before a byte that is not a space.
* `quoted_spec`, `token_spec`, `split_spec`: the loops read what is written there.
* `closes_repr`: what `sdscatrepr` writes, item by item.
* `quoting_exact`: the round trip, and the lines that are refused.
-/

namespace SourceLibs.Sds
open List

/-- `isprint` in the C locale. -/
def isprint (c : UInt8) : Bool := 32 ≤ c ∧ c ≤ 126

/-- `isspace` in the C locale. -/
def isspace (c : UInt8) : Bool := c = 32 ∨ 9 ≤ c ∧ c ≤ 13

/-! ### `sdscatrepr` -/

/-- A digit of `%02x`. -/
def hexDigit (n : ℕ) : UInt8 := if n < 10 then .ofNat (48 + n) else .ofNat (87 + n)

/-- What is written for a byte. -/
def reprByte (c : UInt8) : List UInt8 :=
  if c = 92 ∨ c = 34 then [92, c]
  else if c = 10 then [92, 110]
  else if c = 13 then [92, 114]
  else if c = 9 then [92, 116]
  else if c = 7 then [92, 97]
  else if c = 8 then [92, 98]
  else if isprint c then [c]
  else [92, 120, hexDigit (c.toNat / 16), hexDigit (c.toNat % 16)]

/-- `sdscatrepr(s, p, len)`. -/
def sdscatrepr (s p : List UInt8) : List UInt8 :=
  p.foldl (fun s c => s ++ reprByte c) (s ++ [34]) ++ [34]

/-! ### `sdssplitargs` -/

def isHexDigit (c : UInt8) : Bool := 48 ≤ c ∧ c ≤ 57 ∨ 97 ≤ c ∧ c ≤ 102 ∨ 65 ≤ c ∧ c ≤ 70

def hexDigitToInt (c : UInt8) : ℕ :=
  if 48 ≤ c ∧ c ≤ 57 then c.toNat - 48
  else if 97 ≤ c ∧ c ≤ 102 then c.toNat - 87
  else if 65 ≤ c ∧ c ≤ 70 then c.toNat - 55
  else 0

/-- The byte of two hexadecimal digits. -/
def hexByte (a b : UInt8) : UInt8 := .ofNat (hexDigitToInt a * 16 + hexDigitToInt b)

/-- The byte of an escape. -/
def unescape (c : UInt8) : UInt8 :=
  if c = 110 then 10
  else if c = 114 then 13
  else if c = 116 then 9
  else if c = 98 then 8
  else if c = 97 then 7
  else c

/-- The loop over a token; there is no result where the line is refused. -/
def tokenLoop (inq insq : Bool) (current p : List UInt8) : Option (List UInt8 × List UInt8) :=
  match p with
  | [] => if inq || insq then none else some (current, [])
  | c :: p =>
    if inq then
      if c = 92 ∧ p.headD 0 = 120 ∧ isHexDigit (p.getD 1 0) ∧ isHexDigit (p.getD 2 0) then
        tokenLoop inq insq (current ++ [hexByte (p.getD 1 0) (p.getD 2 0)]) (p.drop 3)
      else if c = 92 ∧ p.headD 0 ≠ 0 then
        tokenLoop inq insq (current ++ [unescape (p.headD 0)]) (p.drop 1)
      else if c = 34 then
        if p.headD 0 ≠ 0 ∧ ¬ isspace (p.headD 0) then none else some (current, p)
      else if c = 0 then none
      else tokenLoop inq insq (current ++ [c]) p
    else if insq then
      if c = 92 ∧ p.headD 0 = 39 then tokenLoop inq insq (current ++ [39]) (p.drop 1)
      else if c = 39 then
        if p.headD 0 ≠ 0 ∧ ¬ isspace (p.headD 0) then none else some (current, p)
      else if c = 0 then none
      else tokenLoop inq insq (current ++ [c]) p
    else if c = 32 ∨ c = 10 ∨ c = 13 ∨ c = 9 then some (current, p)
    else if c = 0 then some (current, c :: p)
    else if c = 34 then tokenLoop true insq current p
    else if c = 39 then tokenLoop inq true current p
    else tokenLoop inq insq (current ++ [c]) p
termination_by p.length
decreasing_by all_goals simp only [List.length_drop, List.length_cons]; omega

theorem length_tokenLoop {inq insq : Bool} {current p v rest : List UInt8}
    (h : tokenLoop inq insq current p = some (v, rest)) :
    rest.length ≤ p.length ∧ (p.headD 0 ≠ 0 → rest.length < p.length) := by
  induction hn : p.length using Nat.strong_induction_on generalizing inq insq current p with
  | _ n ih =>
    cases p with
    | nil =>
      rw [tokenLoop] at h
      split at h
      · cases h
      · obtain ⟨-, rfl⟩ := Prod.mk.inj (Option.some.inj h)
        exact ⟨hn ▸ le_rfl, fun h0 => absurd rfl h0⟩
    | cons c p =>
      rw [length_cons] at hn
      have hgoal : rest.length < n → rest.length ≤ n ∧ ((c :: p).headD 0 ≠ 0 → rest.length < n) :=
        fun hlt => ⟨hlt.le, fun _ => hlt⟩
      -- The loop stops after the byte, or goes on from a later one.
      have hstop : some (current, p) = some (v, rest) → rest.length < n := fun h => by
        obtain ⟨-, rfl⟩ := Prod.mk.inj (Option.some.inj h)
        omega
      have hnext : ∀ {inq insq : Bool} {current : List UInt8} (k : ℕ),
          tokenLoop inq insq current (p.drop k) = some (v, rest) → rest.length < n := fun k hrec => by
        have hdrop : (p.drop k).length ≤ p.length := by simp
        have := (ih (p.drop k).length (by omega) hrec rfl).1
        omega
      rw [tokenLoop] at h
      split_ifs at h
      all_goals first
        | exact hgoal (hstop h)
        | exact hgoal (hnext 3 h)
        | exact hgoal (hnext 1 h)
        | exact hgoal (hnext 0 h)
        | skip
      -- A 0 is not passed.
      next hzero =>
        obtain ⟨-, rfl⟩ := Prod.mk.inj (Option.some.inj h)
        exact ⟨hn ▸ le_rfl, fun h0 => absurd hzero h0⟩

/-- The loop over a line. -/
def splitLoop (vector : List (List UInt8)) (line : List UInt8) : Option (List (List UInt8)) :=
  let p := line.dropWhile fun c => c ≠ 0 ∧ isspace c
  if p.headD 0 ≠ 0 then
    match _h : tokenLoop false false [] p with
    | none => none
    | some (current, rest) => splitLoop (vector ++ [current]) rest
  else some vector
termination_by line.length
decreasing_by
  next hp =>
    exact ((length_tokenLoop _h).2 hp).trans_le (List.dropWhile_suffix _).length_le

/-- `sdssplitargs(line, argc)`, with what it stores in `*argc`. -/
def sdssplitargs (line : List UInt8) : Option (List (List UInt8)) × ℕ :=
  match splitLoop [] line with
  | none => (none, 0)
  | some vector => (some vector, vector.length)

/-! ### Lines -/

/-- The two kinds of quotes. -/
inductive Quote where
  | double
  | single
  deriving DecidableEq

/-- The quote as a byte. -/
def Quote.byte : Quote → UInt8
  | .double => 34
  | .single => 39

/-- **An item** of a text in quotes: the byte that is meant, and the text after it. -/
inductive Item : Quote → List UInt8 → UInt8 → List UInt8 → Prop where
  | hex {a b : UInt8} {text : List UInt8} : isHexDigit a → isHexDigit b →
      Item .double (92 :: 120 :: a :: b :: text) (hexByte a b) text
  | escape {c : UInt8} {text : List UInt8} : c ≠ 0 →
      ¬ (c = 120 ∧ isHexDigit (text.getD 0 0) ∧ isHexDigit (text.getD 1 0)) →
      Item .double (92 :: c :: text) (unescape c) text
  | apostrophe {text : List UInt8} : Item .single (92 :: 39 :: text) 39 text
  | plain {q : Quote} {c : UInt8} {text : List UInt8} : c ≠ q.byte → c ≠ 0 →
      (c = 92 → q = .single ∧ text.headD 0 ≠ 39) → Item q (c :: text) c text

/-- A text in quotes: the bytes that are meant, and what follows the closing quote. -/
inductive Closes (q : Quote) : List UInt8 → List UInt8 → List UInt8 → Prop where
  | close (rest : List UInt8) : Closes q (q.byte :: rest) [] rest
  | item {text text' v rest : List UInt8} {c : UInt8} :
      Item q text c text' → Closes q text' v rest → Closes q text (c :: v) rest

/-- The end of the line, or a space. -/
def Ends (rest : List UInt8) : Prop := rest.headD 0 ≠ 0 → isspace (rest.headD 0)

instance (rest : List UInt8) : Decidable (Ends rest) := inferInstanceAs (Decidable (_ → _))

/-- A byte that stands for itself outside quotes. -/
def Plain (c : UInt8) : Prop := c ∉ [32, 10, 13, 9, 0, 34, 39]

/-- **A token**: the argument, and what is left of the line. -/
inductive Token : List UInt8 → List UInt8 → List UInt8 → Prop where
  | stop {rest : List UInt8} : rest.headD 0 = 0 → Token rest [] rest
  | space {c : UInt8} {rest : List UInt8} : c ∈ [32, 10, 13, 9] → Token (c :: rest) [] rest
  | plain {c : UInt8} {text v rest : List UInt8} :
      Plain c → Token text v rest → Token (c :: text) (c :: v) rest
  | quoted {q : Quote} {text v rest : List UInt8} :
      Closes q text v rest → Ends rest → Token (q.byte :: text) v rest

/-- A token with a quote that is not closed, or closed before a byte that is not a space. -/
inductive Fault : List UInt8 → Prop where
  | plain {c : UInt8} {text : List UInt8} : Plain c → Fault text → Fault (c :: text)
  | unterminated {q : Quote} {text : List UInt8} :
      (∀ v rest, ¬ Closes q text v rest) → Fault (q.byte :: text)
  | followed {q : Quote} {text v rest : List UInt8} :
      Closes q text v rest → ¬ Ends rest → Fault (q.byte :: text)

/-- A byte with which a token starts. -/
def Starts (line : List UInt8) : Prop := line.headD 0 ≠ 0 ∧ ¬ isspace (line.headD 0)

/-- **The arguments of a line.** -/
inductive Splits : List UInt8 → List (List UInt8) → Prop where
  | stop {line : List UInt8} : line.headD 0 = 0 → Splits line []
  | blank {c : UInt8} {line : List UInt8} {args : List (List UInt8)} :
      isspace c → Splits line args → Splits (c :: line) args
  | token {line v rest : List UInt8} {args : List (List UInt8)} :
      Starts line → Token line v rest → Splits rest args → Splits line (v :: args)

/-- **A line that is refused**: one of its tokens has a quote that is not closed, or closed before a
byte that is not a space. -/
inductive Faulty : List UInt8 → Prop where
  | fault {line : List UInt8} : Starts line → Fault line → Faulty line
  | blank {c : UInt8} {line : List UInt8} : isspace c → Faulty line → Faulty (c :: line)
  | token {line v rest : List UInt8} :
      Starts line → Token line v rest → Faulty rest → Faulty line

/-! ### Texts in quotes -/

section Quoted
variable {q : Quote} {text text' current v rest : List UInt8} {c : UInt8}

/-- The loop in quotes. -/
def Quote.loop : Quote → List UInt8 → List UInt8 → Option (List UInt8 × List UInt8)
  | .double => tokenLoop true false
  | .single => tokenLoop false true

theorem Item.not_close (h : Item q (q.byte :: rest) c text') : False := by
  cases h with
  | plain hc => exact hc rfl

theorem Item.unique {c' : UInt8} {text'' : List UInt8} (h : Item q text c text')
    (h' : Item q text c' text'') : c' = c ∧ text'' = text' := by
  cases h with
  | hex ha hb =>
    cases h' with
    | hex => exact ⟨rfl, rfl⟩
    | escape _ hno => exact absurd ⟨rfl, ha, hb⟩ hno
    | plain _ _ hslash => cases (hslash rfl).1
  | escape _ hno =>
    cases h' with
    | hex ha hb => exact absurd ⟨rfl, ha, hb⟩ hno
    | escape => exact ⟨rfl, rfl⟩
    | plain _ _ hslash => cases (hslash rfl).1
  | apostrophe =>
    cases h' with
    | apostrophe => exact ⟨rfl, rfl⟩
    | plain _ _ hslash => exact absurd rfl (hslash rfl).2
  | plain _ _ hslash =>
    cases h' with
    | hex => cases (hslash rfl).1
    | escape => cases (hslash rfl).1
    | apostrophe => exact absurd rfl (hslash rfl).2
    | plain => exact ⟨rfl, rfl⟩

theorem Item.length_lt (h : Item q text c text') : text'.length < text.length := by
  cases h with
  | hex => simp only [length_cons]; omega
  | escape => simp only [length_cons]; omega
  | apostrophe => simp only [length_cons]; omega
  | plain => exact Nat.lt_succ_self _

theorem Item.loop (h : Item q text c text') : q.loop current text = q.loop (current ++ [c]) text' := by
  cases h with
  | hex ha hb =>
    rw [Quote.loop, tokenLoop, if_pos rfl, if_pos ⟨rfl, rfl, ha, hb⟩]
    rfl
  | @escape c text hc hno =>
    rw [Quote.loop, tokenLoop, if_pos rfl, if_neg, if_pos ⟨rfl, hc⟩]
    · rfl
    · rintro ⟨-, hx, ha, hb⟩
      exact hno ⟨hx, ha, hb⟩
  | apostrophe =>
    rw [Quote.loop, tokenLoop, if_neg Bool.false_ne_true, if_pos rfl, if_pos ⟨rfl, rfl⟩]
    rfl
  | plain hq hc hslash =>
    cases q with
    | double =>
      have hno : c ≠ 92 := fun h => by cases (hslash h).1
      rw [Quote.byte] at hq
      rw [Quote.loop, tokenLoop, if_pos rfl, if_neg fun h => hno h.1, if_neg fun h => hno h.1,
        if_neg hq, if_neg hc]
    | single =>
      rw [Quote.byte] at hq
      rw [Quote.loop, tokenLoop, if_neg Bool.false_ne_true, if_pos rfl,
        if_neg fun h => (hslash h.1).2 h.2, if_neg hq, if_neg hc]

theorem Quote.loop_close (q : Quote) (current rest : List UInt8) :
    q.loop current (q.byte :: rest) = if Ends rest then some (current, rest) else none := by
  have hends : (rest.headD 0 ≠ 0 ∧ ¬ isspace (rest.headD 0)) ↔ ¬ Ends rest := by
    rw [Ends, Classical.not_imp]
  cases q with
  | double =>
    have hno : (34 : UInt8) ≠ 92 := by decide
    rw [Quote.loop, Quote.byte, tokenLoop, if_pos rfl, if_neg fun h => hno h.1,
      if_neg fun h => hno h.1, if_pos rfl, if_congr hends rfl rfl, ite_not]
  | single =>
    have hno : (39 : UInt8) ≠ 92 := by decide
    rw [Quote.loop, Quote.byte, tokenLoop, if_neg Bool.false_ne_true, if_pos rfl,
      if_neg fun h => hno h.1, if_pos rfl, if_congr hends rfl rfl, ite_not]

theorem Quote.loop_end (q : Quote) (current : List UInt8) (h : text.headD 0 = 0) :
    q.loop current text = none := by
  cases text with
  | nil => cases q <;> rw [Quote.loop, tokenLoop] <;> rfl
  | cons c text =>
    obtain rfl : c = 0 := h
    have hno : (0 : UInt8) ≠ 92 := by decide
    have hno' : (0 : UInt8) ≠ 34 ∧ (0 : UInt8) ≠ 39 := by decide
    cases q with
    | double =>
      rw [Quote.loop, tokenLoop, if_pos rfl, if_neg fun h => hno h.1, if_neg fun h => hno h.1,
        if_neg hno'.1, if_pos rfl]
    | single =>
      rw [Quote.loop, tokenLoop, if_neg Bool.false_ne_true, if_pos rfl, if_neg fun h => hno h.1,
        if_neg hno'.2, if_pos rfl]

theorem Item.headD_ne_zero (h : Item q text c text') : text.headD 0 ≠ 0 := by
  cases h with
  | plain _ hc => exact hc
  | _ => exact (by decide : (92 : UInt8) ≠ 0)

theorem Quote.byte_ne_zero (q : Quote) : q.byte ≠ 0 := by cases q <;> decide

theorem Closes.headD_ne_zero (h : Closes q text v rest) : text.headD 0 ≠ 0 := by
  cases h with
  | close => exact q.byte_ne_zero
  | item hitem => exact hitem.headD_ne_zero

/-- What a text in quotes starts with: its end, the closing quote, an item, or a backslash before
the end. -/
theorem quoted_cases (q : Quote) (text : List UInt8) :
    text.headD 0 = 0 ∨ (∃ rest, text = q.byte :: rest) ∨ (∃ c text', Item q text c text') ∨
      ∃ rest, q = .double ∧ text = 92 :: rest ∧ rest.headD 0 = 0 := by
  cases text with
  | nil => exact .inl rfl
  | cons c text =>
    by_cases hzero : c = 0
    · exact .inl hzero
    by_cases hquote : c = q.byte
    · exact .inr (.inl ⟨text, by rw [hquote]⟩)
    by_cases hslash : c = 92
    · rw [hslash] at hquote ⊢
      cases q with
      | double =>
        cases text with
        | nil => exact .inr (.inr (.inr ⟨[], rfl, rfl, rfl⟩))
        | cons d text =>
          by_cases hd : d = 0
          · exact .inr (.inr (.inr ⟨_, rfl, rfl, hd⟩))
          by_cases hhex : d = 120 ∧ isHexDigit (text.getD 0 0) ∧ isHexDigit (text.getD 1 0)
          · obtain ⟨rfl, ha, hb⟩ := hhex
            match text, ha, hb with
            | a :: b :: text, ha, hb => exact .inr (.inr (.inl ⟨_, _, .hex ha hb⟩))
          · exact .inr (.inr (.inl ⟨_, _, .escape hd hhex⟩))
      | single =>
        cases text with
        | nil =>
          refine .inr (.inr (.inl ⟨_, _, .plain hquote (by decide) fun _ => ⟨rfl, ?_⟩⟩))
          decide
        | cons d text =>
          by_cases hd : d = 39
          · rw [hd]
            exact .inr (.inr (.inl ⟨_, _, .apostrophe⟩))
          · exact .inr (.inr (.inl ⟨_, _, .plain hquote (by decide) fun _ => ⟨rfl, hd⟩⟩))
    · exact .inr (.inr (.inl ⟨_, _, .plain hquote hzero fun h => absurd h hslash⟩))

/-- **The loop in quotes** reads a text in quotes, and refuses one that is not closed. -/
theorem quoted_spec (q : Quote) (text current : List UInt8) :
    (∃ v rest, Closes q text v rest ∧ (∀ v' rest', Closes q text v' rest' → v' = v ∧ rest' = rest) ∧
      q.loop current text = if Ends rest then some (current ++ v, rest) else none) ∨
    (∀ v rest, ¬ Closes q text v rest) ∧ q.loop current text = none := by
  induction hn : text.length using Nat.strong_induction_on generalizing text current with
  | _ n ih =>
    rcases quoted_cases q text with hzero | ⟨rest, rfl⟩ | ⟨c, text', hitem⟩ | ⟨rest, rfl, rfl, hrest⟩
    · exact .inr ⟨fun v rest h => h.headD_ne_zero hzero, q.loop_end current hzero⟩
    · refine .inl ⟨[], rest, .close rest, fun v' rest' h => ?_, ?_⟩
      · generalize htext : q.byte :: rest = text at h
        cases h with
        | close => exact ⟨rfl, (List.cons.inj htext).2.symm⟩
        | item hitem => exact (Item.not_close (htext ▸ hitem)).elim
      · rw [q.loop_close, append_nil]
    · have hback : ∀ {v rest}, Closes q text v rest → ∃ v', v = c :: v' ∧ Closes q text' v' rest := by
        intro v rest h
        cases h with
        | close => exact (Item.not_close hitem).elim
        | item hitem' hclose =>
          obtain ⟨rfl, rfl⟩ := hitem.unique hitem'
          exact ⟨_, rfl, hclose⟩
      rw [hitem.loop]
      rcases ih _ (hn ▸ hitem.length_lt) text' (current ++ [c]) rfl with
        ⟨v, rest, hclose, huniq, hloop⟩ | ⟨hno, hloop⟩
      · refine .inl ⟨c :: v, rest, .item hitem hclose, fun v' rest' h => ?_, ?_⟩
        · obtain ⟨w, rfl, hw⟩ := hback h
          obtain ⟨rfl, rfl⟩ := huniq w rest' hw
          exact ⟨rfl, rfl⟩
        · rw [hloop, List.append_assoc, singleton_append]
      · refine .inr ⟨fun v rest h => ?_, hloop⟩
        obtain ⟨w, rfl, hw⟩ := hback h
        exact hno w rest hw
    · -- The backslash is read as itself, and the end comes after it.
      refine .inr ⟨fun v rest' h => ?_, ?_⟩
      · cases h with
        | item hitem _ =>
          cases hitem with
          | hex => cases hrest
          | escape hc => exact hc hrest
          | plain _ _ hslash => cases (hslash rfl).1
      · have hend := Quote.loop_end .double (current ++ [92]) hrest
        rw [Quote.loop] at hend ⊢
        rw [tokenLoop, if_pos rfl, if_neg, if_neg fun h => h.2 hrest, if_neg (by decide),
          if_neg (by decide), hend]
        rintro ⟨-, hx, -⟩
        cases hrest.symm.trans hx

end Quoted

/-! ### Tokens -/

section Tokens
variable {text v rest current : List UInt8} {c : UInt8} {q : Quote}

theorem byte_cases (c : UInt8) :
    c = 0 ∨ c ∈ [32, 10, 13, 9] ∨ (∃ q : Quote, c = q.byte) ∨ Plain c := by
  by_contra hno
  push Not at hno
  obtain ⟨hzero, hspace, hquote, hplain⟩ := hno
  refine hplain fun hmem => ?_
  have h34 := hquote .double
  have h39 := hquote .single
  simp only [mem_cons, not_mem_nil, or_false, not_or] at hmem hspace
  simp only [Quote.byte] at h34 h39
  tauto

theorem Quote.byte_notMem (q : Quote) : q.byte ∉ [32, 10, 13, 9] := by cases q <;> decide

theorem Quote.byte_inj {q q' : Quote} (h : q.byte = q'.byte) : q = q' := by
  cases q <;> cases q' <;> first | rfl | exact absurd h (by decide)

theorem Plain.ne_byte (h : Plain c) (q : Quote) : c ≠ q.byte := by
  rintro rfl
  cases q <;> exact h (by decide)

theorem Plain.notMem (h : Plain c) : c ∉ [32, 10, 13, 9] := fun hmem =>
  h (mem_append_left [0, 34, 39] hmem)

theorem Plain.ne_zero (h : Plain c) : c ≠ 0 := by
  rintro rfl
  exact h (by decide)

theorem Token.of_zero (h : Token (0 :: text) v rest) : v = [] ∧ rest = 0 :: text := by
  generalize hline : 0 :: text = line at h
  cases h with
  | stop => exact ⟨rfl, hline.symm ▸ rfl⟩
  | space hc => exact absurd ((List.cons.inj hline).1 ▸ hc) (by decide)
  | plain hc => exact absurd (List.cons.inj hline).1.symm hc.ne_zero
  | @quoted q => exact absurd (List.cons.inj hline).1.symm q.byte_ne_zero

theorem Token.of_space (hc : c ∈ [32, 10, 13, 9]) (h : Token (c :: text) v rest) :
    v = [] ∧ rest = text := by
  generalize hline : c :: text = line at h
  cases h with
  | stop hzero =>
    rw [← hline] at hzero
    rw [show c = 0 from hzero] at hc
    exact absurd hc (by decide)
  | space => exact ⟨rfl, (List.cons.inj hline).2.symm⟩
  | plain hp => exact absurd ((List.cons.inj hline).1 ▸ hc) hp.notMem
  | @quoted q => exact absurd ((List.cons.inj hline).1 ▸ hc) q.byte_notMem

theorem Token.of_plain (hc : Plain c) (h : Token (c :: text) v rest) :
    ∃ w, v = c :: w ∧ Token text w rest := by
  generalize hline : c :: text = line at h
  cases h with
  | stop hzero =>
    rw [← hline] at hzero
    exact absurd hzero hc.ne_zero
  | space hs => exact absurd ((List.cons.inj hline).1 ▸ hs) hc.notMem
  | plain _ htoken =>
    obtain ⟨rfl, rfl⟩ := List.cons.inj hline
    exact ⟨_, rfl, htoken⟩
  | @quoted q => exact absurd (List.cons.inj hline).1 (hc.ne_byte q)

theorem Token.of_quote (h : Token (q.byte :: text) v rest) : Closes q text v rest ∧ Ends rest := by
  generalize hline : q.byte :: text = line at h
  cases h with
  | stop hzero =>
    rw [← hline] at hzero
    exact absurd hzero q.byte_ne_zero
  | space hs => exact absurd ((List.cons.inj hline).1 ▸ hs) q.byte_notMem
  | plain hp => exact absurd (List.cons.inj hline).1.symm (hp.ne_byte q)
  | quoted hclose hends =>
    obtain ⟨hbyte, rfl⟩ := List.cons.inj hline
    exact ⟨Quote.byte_inj hbyte ▸ hclose, hends⟩

theorem Fault.inv (h : Fault (c :: text)) : Plain c ∧ Fault text ∨ ∃ q : Quote, c = q.byte ∧
    ((∀ v rest, ¬ Closes q text v rest) ∨ ∃ v rest, Closes q text v rest ∧ ¬ Ends rest) := by
  generalize hline : c :: text = line at h
  cases h with
  | plain hc hfault =>
    obtain ⟨rfl, rfl⟩ := List.cons.inj hline
    exact .inl ⟨hc, hfault⟩
  | unterminated hno =>
    obtain ⟨rfl, rfl⟩ := List.cons.inj hline
    exact .inr ⟨_, rfl, .inl hno⟩
  | followed hclose hends =>
    obtain ⟨rfl, rfl⟩ := List.cons.inj hline
    exact .inr ⟨_, rfl, .inr ⟨_, _, hclose, hends⟩⟩

/-- **The loop over a token** reads the token there is, and refuses a fault. -/
theorem token_spec (text current : List UInt8) :
    (∃ v rest, Token text v rest ∧ ¬ Fault text ∧
      (∀ v' rest', Token text v' rest' → v' = v ∧ rest' = rest) ∧
      tokenLoop false false current text = some (current ++ v, rest)) ∨
    Fault text ∧ (∀ v rest, ¬ Token text v rest) ∧ tokenLoop false false current text = none := by
  induction text generalizing current with
  | nil =>
    refine .inl ⟨[], [], .stop rfl, fun h => (by cases h), fun v' rest' h => ?_, ?_⟩
    · cases h with
      | stop => exact ⟨rfl, rfl⟩
    · rw [tokenLoop, append_nil]
      rfl
  | cons c text ih =>
    rw [tokenLoop, if_neg Bool.false_ne_true, if_neg Bool.false_ne_true]
    have hspace : c = 32 ∨ c = 10 ∨ c = 13 ∨ c = 9 ↔ c ∈ [32, 10, 13, 9] := by simp
    rw [if_congr hspace rfl rfl]
    rcases byte_cases c with rfl | hc | ⟨q, rfl⟩ | hc
    · refine .inl ⟨[], _, .stop rfl, fun h => ?_, fun v' rest' h => h.of_zero, ?_⟩
      · rcases h.inv with ⟨hc, -⟩ | ⟨q, hq, -⟩
        · exact hc.ne_zero rfl
        · exact q.byte_ne_zero hq.symm
      · rw [if_neg (by decide), if_pos rfl, append_nil]
    · refine .inl ⟨[], _, .space hc, fun h => ?_, fun v' rest' h => h.of_space hc, ?_⟩
      · rcases h.inv with ⟨hp, -⟩ | ⟨q, rfl, -⟩
        · exact hp.notMem hc
        · exact q.byte_notMem hc
      · rw [if_pos hc, append_nil]
    · -- A quote opens.
      have hopen : (if q.byte = 34 then tokenLoop true false current text
          else if q.byte = 39 then tokenLoop false true current text
          else tokenLoop false false (current ++ [q.byte]) text) = q.loop current text := by
        cases q <;> rfl
      rw [if_neg q.byte_notMem, if_neg q.byte_ne_zero, hopen]
      rcases quoted_spec q text current with ⟨v, rest, hclose, huniq, hloop⟩ | ⟨hno, hloop⟩
      · by_cases hends : Ends rest
        · rw [if_pos hends] at hloop
          refine .inl ⟨v, rest, .quoted hclose hends, fun h => ?_,
            fun v' rest' h => huniq _ _ h.of_quote.1, hloop⟩
          rcases h.inv with ⟨hp, -⟩ | ⟨q', hq, hno | ⟨v', rest', hclose', hends'⟩⟩
          · exact hp.ne_byte q rfl
          · exact hno v rest (Quote.byte_inj hq ▸ hclose)
          · obtain ⟨-, rfl⟩ := huniq v' rest' (Quote.byte_inj hq ▸ hclose')
            exact hends' hends
        · rw [if_neg hends] at hloop
          refine .inr ⟨.followed hclose hends, fun v' rest' h => ?_, hloop⟩
          obtain ⟨hclose', hends'⟩ := h.of_quote
          obtain ⟨-, rfl⟩ := huniq v' rest' hclose'
          exact hends hends'
      · exact .inr ⟨.unterminated hno, fun v rest h => hno v rest h.of_quote.1, hloop⟩
    · have h34 : c ≠ 34 := hc.ne_byte .double
      have h39 : c ≠ 39 := hc.ne_byte .single
      rw [if_neg hc.notMem, if_neg hc.ne_zero, if_neg h34, if_neg h39]
      rcases ih (current ++ [c]) with
        ⟨v, rest, htoken, hfault, huniq, hloop⟩ | ⟨hfault, hno, hloop⟩
      · refine .inl ⟨c :: v, rest, .plain hc htoken, fun h => ?_, fun v' rest' h => ?_, ?_⟩
        · rcases h.inv with ⟨-, hf⟩ | ⟨q, rfl, -⟩
          · exact hfault hf
          · exact hc.ne_byte q rfl
        · obtain ⟨w, rfl, hw⟩ := h.of_plain hc
          obtain ⟨rfl, rfl⟩ := huniq w rest' hw
          exact ⟨rfl, rfl⟩
        · rw [hloop, List.append_assoc, singleton_append]
      · refine .inr ⟨.plain hc hfault, fun v rest h => ?_, hloop⟩
        obtain ⟨w, rfl, hw⟩ := h.of_plain hc
        exact hno w rest hw

end Tokens

/-! ### Lines -/

section Lines
variable {line : List UInt8} {args vector : List (List UInt8)} {c : UInt8}

theorem ne_zero_of_isspace (hc : isspace c) : c ≠ 0 := by
  rintro rfl
  cases hc

theorem not_starts_of_zero (h : line.headD 0 = 0) : ¬ Starts line := fun hs => hs.1 h

theorem not_starts_of_isspace (hc : isspace c) : ¬ Starts (c :: line) := fun hs => hs.2 hc

theorem splitLoop_stop (h : line.headD 0 = 0) : splitLoop vector line = some vector := by
  have hdrop : (line.dropWhile fun c => c ≠ 0 ∧ isspace c).headD 0 = 0 := by
    cases line with
    | nil => rfl
    | cons c line =>
      obtain rfl : c = 0 := h
      rfl
  rw [splitLoop]
  rw [if_neg (not_not.mpr hdrop)]

theorem splitLoop_blank (hc : isspace c) : splitLoop vector (c :: line) = splitLoop vector line := by
  have hdrop : ((c :: line).dropWhile fun c => c ≠ 0 ∧ isspace c) =
      line.dropWhile fun c => c ≠ 0 ∧ isspace c :=
    dropWhile_cons_of_pos (decide_eq_true ⟨ne_zero_of_isspace hc, hc⟩)
  rw [splitLoop, splitLoop, hdrop]

theorem splitLoop_start (h : Starts line) : splitLoop vector line =
    (tokenLoop false false [] line).elim none fun r => splitLoop (vector ++ [r.1]) r.2 := by
  have hdrop : (line.dropWhile fun c => c ≠ 0 ∧ isspace c) = line := by
    cases line with
    | nil => rfl
    | cons c line => exact dropWhile_cons_of_neg fun hd => h.2 (of_decide_eq_true hd).2
  rw [splitLoop]
  rw [if_pos (hdrop.symm ▸ h.1)]
  split
  · next hnone =>
      rw [hdrop] at hnone
      rw [hnone]
      rfl
  · next hsome =>
      rw [hdrop] at hsome
      rw [hsome]
      rfl

theorem Splits.of_zero (h : Splits line args) (hzero : line.headD 0 = 0) : args = [] := by
  cases h with
  | stop => rfl
  | blank hc => exact absurd hzero (ne_zero_of_isspace hc)
  | token hs => exact absurd hs (not_starts_of_zero hzero)

theorem Splits.of_blank (h : Splits (c :: line) args) (hc : isspace c) : Splits line args := by
  cases h with
  | stop hzero => exact absurd hzero (ne_zero_of_isspace hc)
  | blank _ h => exact h
  | token hs => exact absurd hs (not_starts_of_isspace hc)

theorem Splits.of_start (h : Splits line args) (hs : Starts line) :
    ∃ v rest args', args = v :: args' ∧ Token line v rest ∧ Splits rest args' := by
  cases h with
  | stop hzero => exact absurd hs (not_starts_of_zero hzero)
  | blank hc => exact absurd hs (not_starts_of_isspace hc)
  | token _ htoken h => exact ⟨_, _, _, rfl, htoken, h⟩

theorem Faulty.of_zero (h : Faulty line) (hzero : line.headD 0 = 0) : False := by
  cases h with
  | fault hs => exact not_starts_of_zero hzero hs
  | blank hc => exact ne_zero_of_isspace hc hzero
  | token hs => exact not_starts_of_zero hzero hs

theorem Faulty.of_blank (h : Faulty (c :: line)) (hc : isspace c) : Faulty line := by
  cases h with
  | fault hs => exact absurd hs (not_starts_of_isspace hc)
  | blank _ h => exact h
  | token hs => exact absurd hs (not_starts_of_isspace hc)

theorem Faulty.of_start (h : Faulty line) (hs : Starts line) :
    Fault line ∨ ∃ v rest, Token line v rest ∧ Faulty rest := by
  cases h with
  | fault _ h => exact .inl h
  | blank hc => exact absurd hs (not_starts_of_isspace hc)
  | token _ htoken h => exact .inr ⟨_, _, htoken, h⟩

/-- **The loop over a line** gives its arguments, and refuses a line that is faulty. -/
theorem split_spec (line : List UInt8) (vector : List (List UInt8)) :
    (∃ args, Splits line args ∧ ¬ Faulty line ∧ (∀ args', Splits line args' → args' = args) ∧
      splitLoop vector line = some (vector ++ args)) ∨
    Faulty line ∧ (∀ args, ¬ Splits line args) ∧ splitLoop vector line = none := by
  induction hn : line.length using Nat.strong_induction_on generalizing line vector with
  | _ n ih =>
    by_cases hzero : line.headD 0 = 0
    · refine .inl ⟨[], .stop hzero, fun h => h.of_zero hzero, fun args' h => h.of_zero hzero, ?_⟩
      rw [splitLoop_stop hzero, append_nil]
    by_cases hspace : isspace (line.headD 0)
    · cases line with
      | nil => exact absurd rfl hzero
      | cons c line =>
        rw [headD_cons] at hspace
        rw [splitLoop_blank hspace]
        rcases ih line.length (hn ▸ Nat.lt_succ_self _) line vector rfl with
          ⟨args, hsplits, hfaulty, huniq, hloop⟩ | ⟨hfaulty, hno, hloop⟩
        · exact .inl ⟨args, .blank hspace hsplits, fun h => hfaulty (h.of_blank hspace),
            fun args' h => huniq args' (h.of_blank hspace), hloop⟩
        · exact .inr ⟨.blank hspace hfaulty, fun args h => hno args (h.of_blank hspace), hloop⟩
    · have hs : Starts line := ⟨hzero, hspace⟩
      rw [splitLoop_start hs]
      rcases token_spec line [] with ⟨v, rest, htoken, hfault, huniq, hloop⟩ | ⟨hfault, hno, hloop⟩
      · have hlt := (length_tokenLoop hloop).2 hzero
        rw [hloop]
        rcases ih rest.length (hn ▸ hlt) rest (vector ++ [v]) rfl with
          ⟨args, hsplits, hfaulty, huniq', hrest⟩ | ⟨hfaulty, hno, hrest⟩
        · refine .inl ⟨v :: args, .token hs htoken hsplits, fun h => ?_, fun args' h => ?_, ?_⟩
          · rcases h.of_start hs with hf | ⟨v', rest', htoken', hf⟩
            · exact hfault hf
            · obtain ⟨-, rfl⟩ := huniq v' rest' htoken'
              exact hfaulty hf
          · obtain ⟨v', rest', args'', rfl, htoken', hsplits'⟩ := h.of_start hs
            obtain ⟨rfl, rfl⟩ := huniq v' rest' htoken'
            rw [huniq' args'' hsplits']
          · refine hrest.trans ?_
            rw [List.append_assoc, singleton_append]
        · refine .inr ⟨.token hs htoken hfaulty, fun args h => ?_, hrest⟩
          obtain ⟨v', rest', args', rfl, htoken', hsplits'⟩ := h.of_start hs
          obtain ⟨-, rfl⟩ := huniq v' rest' htoken'
          exact hno args' hsplits'
      · rw [hloop]
        refine .inr ⟨.fault hs hfault, fun args h => ?_, rfl⟩
        obtain ⟨v', rest', -, -, htoken', -⟩ := h.of_start hs
        exact hno v' rest' htoken'

theorem Splits.sdssplitargs (h : Splits line args) : sdssplitargs line = (some args, args.length) := by
  rcases split_spec line [] with ⟨args', -, -, huniq, hloop⟩ | ⟨-, hno, -⟩
  · rw [Sds.sdssplitargs, hloop, huniq args h]
    rfl
  · exact absurd h (hno args)

end Lines

/-! ### The round trip -/

section RoundTrip

theorem hexDigit_spec : ∀ n < 16, isHexDigit (hexDigit n) ∧ hexDigitToInt (hexDigit n) = n := by decide

/-- **What is written for a byte** is an item. -/
theorem item_reprByte (c : UInt8) (text : List UInt8) : Item .double (reprByte c ++ text) c text := by
  have hescape : ∀ d : UInt8, d ≠ 0 → d ≠ 120 → Item .double (92 :: d :: text) (unescape d) text :=
    fun d h0 hx => .escape h0 fun h => hx h.1
  rw [reprByte]
  split_ifs with h₁ h₂ h₃ h₄ h₅ h₆ h₇
  · rcases h₁ with rfl | rfl <;> exact hescape _ (by decide) (by decide)
  · subst h₂
    exact hescape 110 (by decide) (by decide)
  · subst h₃
    exact hescape 114 (by decide) (by decide)
  · subst h₄
    exact hescape 116 (by decide) (by decide)
  · subst h₅
    exact hescape 97 (by decide) (by decide)
  · subst h₆
    exact hescape 98 (by decide) (by decide)
  · refine .plain (fun h => h₁ (.inr h)) (fun h => ?_) fun h => absurd (.inl h) h₁
    rw [h] at h₇
    cases h₇
  · have hlt := c.toNat_lt
    obtain ⟨hhi, hhi'⟩ := hexDigit_spec (c.toNat / 16) (by omega)
    obtain ⟨hlo, hlo'⟩ := hexDigit_spec (c.toNat % 16) (by omega)
    have hbyte : hexByte (hexDigit (c.toNat / 16)) (hexDigit (c.toNat % 16)) = c := by
      rw [hexByte, hhi', hlo', Nat.div_add_mod', UInt8.ofNat_toNat]
    have h := @Item.hex _ _ text hhi hlo
    rwa [hbyte] at h

theorem sdscatrepr_eq (s p : List UInt8) :
    sdscatrepr s p = s ++ 34 :: (p.flatMap reprByte ++ [34]) := by
  have hfold : ∀ s : List UInt8, p.foldl (fun s c => s ++ reprByte c) s = s ++ p.flatMap reprByte := by
    induction p with
    | nil => exact fun s => (append_nil s).symm
    | cons c p ih =>
      intro s
      rw [foldl_cons, ih, flatMap_cons, List.append_assoc]
  rw [sdscatrepr, hfold]
  simp

/-- **What `sdscatrepr` writes** is a text in quotes. -/
theorem closes_repr (p rest : List UInt8) :
    Closes .double (p.flatMap reprByte ++ 34 :: rest) p rest := by
  induction p with
  | nil => exact .close rest
  | cons c p ih =>
    rw [flatMap_cons, List.append_assoc]
    exact .item (item_reprByte c _) ih

/-- The forms of the arguments with spaces between them. -/
def joined (args : List (List UInt8)) : List UInt8 :=
  List.intercalate [32] (args.map (sdscatrepr []))

theorem splits_joined (args : List (List UInt8)) : Splits (joined args) args := by
  have hstart : ∀ text, Starts (34 :: text) := fun text =>
    ⟨(by decide : (34 : UInt8) ≠ 0), (by decide : ¬ isspace 34)⟩
  induction args with
  | nil => exact .stop rfl
  | cons p args ih =>
    cases args with
    | nil =>
      have hline : joined [p] = 34 :: (p.flatMap reprByte ++ 34 :: []) := by
        simp [joined, sdscatrepr_eq, intercalate]
      rw [hline]
      exact .token (hstart _) (.quoted (closes_repr p []) fun h => absurd rfl h) (.stop rfl)
    | cons p' args =>
      have hline : joined (p :: p' :: args) =
          34 :: (p.flatMap reprByte ++ 34 :: (32 :: joined (p' :: args))) := by
        simp [joined, sdscatrepr_eq, intercalate]
      rw [hline]
      exact .token (hstart _) (.quoted (closes_repr p _) fun _ => rfl) (.blank rfl ih)

end RoundTrip

/-- **Quoting is exact**: the forms of any arguments, with spaces between them, are split into those
arguments, and a line is refused, with no arguments, just when one of its quotes is not closed, or closed
before a byte that is not a space. -/
theorem quoting_exact : (∀ args : List (List UInt8), sdssplitargs (joined args) = (some args, args.length)) ∧
    ∀ line, (∃ args, Splits line args ∧ ¬ Faulty line ∧ sdssplitargs line = (some args, args.length)) ∨
      Faulty line ∧ sdssplitargs line = (none, 0) := by
  refine ⟨fun args => (splits_joined args).sdssplitargs, fun line => ?_⟩
  rcases split_spec line [] with ⟨args, hsplits, hfaulty, -, -⟩ | ⟨hfaulty, -, hloop⟩
  · exact .inl ⟨args, hsplits, hfaulty, hsplits.sdssplitargs⟩
  · refine .inr ⟨hfaulty, ?_⟩
    rw [sdssplitargs, hloop]

end SourceLibs.Sds
