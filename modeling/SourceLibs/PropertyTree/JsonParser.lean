import SourceLibs.PropertyTree.JsonStrings

/-!
# Property tree — the parser reads the grammar

A value is read with the calls `run` for it, whatever the callbacks are.  The parsers for an array and for an
object are taken apart from the recursion: they are given a parser for the values inside, and what that does
on shorter texts.

* `parseValue_ensures`: what is read is a value of the grammar.
* `parseValue_reads`: every value of the grammar is read.
* `readRange_ok_iff`, `readRange_not_stuck`: the same for a whole input.
-/

namespace SourceLibs.PropertyTree
open List

open Encoding JsonGrammar

section
variable {σ : Type} (cb : Callbacks σ) (category : Category)

/-! ### The calls for a value -/

mutual

/-- The calls for a value. -/
def run : Json → σ → σ
  | .null, c => cb.onNull c
  | .bool b, c => cb.onBoolean b c
  | .number ds, c => runNumber cb category ds c
  | .string s, c => runString cb s c
  | .array vs, c => cb.onEndArray (runItems vs (cb.onBeginArray c))
  | .object ms, c => cb.onEndObject (runMembers ms (cb.onBeginObject c))

/-- What the callbacks make of items. -/
def runItems : List Json → σ → σ
  | [], c => c
  | v :: vs, c => runItems vs (run v c)

/-- What the callbacks make of members. -/
def runMembers : List (Str × Json) → σ → σ
  | [], c => c
  | (k, v) :: ms, c => runMembers ms (run v (runString cb k c))

end

variable {cb category} {a b r : Str} {c : σ} {v : Json} {value : Parser σ Unit} {n : ℕ}

/-! ### What is read is in the grammar -/

/-- What a parser for values ensures. -/
def Value (cb : Callbacks σ) (category : Category) (a : Str) (c : σ) (r : Str) (c' : σ) : Prop :=
  ∃ v b, Spaces a b ∧ Spells IsShape (.value v) b r ∧ c' = run cb category v c

/-- What a parser for values of one kind tries. -/
def OfKind (cb : Callbacks σ) (category : Category) (b r : Str) (c c' : σ) : Prop :=
  ∃ v, Spells IsShape (.value v) b r ∧ c' = run cb category v c

theorem Value.length_lt {c' : σ} (h : Value cb category a c r c') : r.length < a.length := by
  obtain ⟨v, b, hspaces, hv, -⟩ := h
  exact (hv.length_lt fun _ h => h.ne_nil).trans_le hspaces.length_le

/-- `value` parses values of fewer than `n` bytes. -/
def Below (cb : Callbacks σ) (category : Category) (value : Parser σ Unit) (n : ℕ) : Prop :=
  ∀ a c, a.length < n → Ensures value a c fun _ r c' => Value cb category a c r c'

theorem itemLoop_ensures (hvalue : Below cb category value n) : ∀ (fuel : ℕ) {a : Str} {c : σ},
    a.length < fuel →
    a.length < n → Ensures (itemLoop value fuel) a c fun _ r c' =>
      ∃ vs, Spells IsShape (.items vs) a r ∧ c' = runItems cb category vs c
  | 0, _, _, hfuel, _ => absurd hfuel (Nat.not_lt_zero _)
  | fuel + 1, a, c, hfuel, hn => by
    refine (hvalue a c hn).bind fun _ b c₁ hq => ?_
    have hlt := hq.length_lt
    obtain ⟨v, b₀, hspaces, hv, rfl⟩ := hq
    refine .skipWs fun b₁ hspaces' _ => .have (fun u r hb₁ hu => ?_) fun _ => ?_
    · rw [isComma, beq_iff_eq] at hu
      subst hu hb₁
      have hle := hspaces'.length_le
      rw [length_cons] at hle
      refine (itemLoop_ensures hvalue fuel (by omega) (by omega)).mono fun _ r' c' hq => ?_
      obtain ⟨vs, hvs, rfl⟩ := hq
      exact ⟨v :: vs, .items hspaces hv hspaces' hvs, by rw [runItems]⟩
    · exact .pure ⟨[v], .item hspaces hv hspaces', by rw [runItems, runItems]⟩

theorem parseArray_ensures (hvalue : Below cb category value n) (ha : a.length ≤ n) :
    Ensures (parseArray cb value) a c (Tries (OfKind cb category) a c) := by
  refine .skipWs fun b hspaces hb => .have (fun u t hbt hu => ?_) fun _ =>
    .pure (.inr ⟨rfl, hspaces, hb, rfl⟩)
  rw [isOpenBracket, beq_iff_eq] at hu
  subst hu hbt
  have hle := hspaces.length_le
  rw [length_cons] at hle
  refine .after (reads_call _ t c) (.skipWs fun b₁ hspaces₁ _ => .have (fun u r hb₁ hu => ?_) fun _ => ?_)
  · rw [isCloseBracket, beq_iff_eq] at hu
    subst hu hb₁
    refine .after (reads_call _ r _) (.pure (.inl ⟨rfl, _, hspaces, .array [], .emptyArray hspaces₁, ?_⟩))
    rw [run, runItems]
  · have hle₁ := hspaces₁.length_le
    refine .after (reads_rawCur b₁ _) ?_
    refine (itemLoop_ensures hvalue _ (Nat.lt_succ_self _) (by omega)).bind fun _ b₂ c₂ hq => ?_
    obtain ⟨vs, hvs, rfl⟩ := hq
    refine .expect fun u r hb₂ hu => ?_
    rw [isCloseBracket, beq_iff_eq] at hu
    subst hu hb₂
    refine .after (reads_call _ r _) (.pure (.inl ⟨rfl, _, hspaces, .array vs, ?_, ?_⟩))
    · exact .array (hvs.after_spaces hspaces₁ fun _ h => nomatch h)
    · rw [run]

theorem memberLoop_ensures (hcb : OneByOne cb) (hvalue : Below cb category value n) :
    ∀ (fuel : ℕ) {a : Str} {c : σ}, a.length < fuel → a.length < n →
      Ensures (memberLoop cb category value fuel) a c fun _ r c' =>
        ∃ ms, Spells IsShape (.members ms) a r ∧ c' = runMembers cb category ms c
  | 0, _, _, hfuel, _ => absurd hfuel (Nat.not_lt_zero _)
  | fuel + 1, a, c, hfuel, hn => by
    refine (parseString_ensures hcb a c).bind fun x b c₁ hq => ?_
    rcases hq with ⟨rfl, _, hspaces, k, t, rfl, hk, rfl⟩ | ⟨rfl, -⟩
    · have hle := hspaces.length_le
      have hlt := hk.length_lt fun _ h => h.ne_nil
      rw [length_cons] at hle
      refine .skipWs fun b₁ hspaces₁ _ => .expect fun u d hb₁ hu => ?_
      rw [isColon, beq_iff_eq] at hu
      subst hu hb₁
      have hle₁ := hspaces₁.length_le
      rw [length_cons] at hle₁
      refine (hvalue d _ (by omega)).bind fun _ f c₂ hq => ?_
      have hlt₂ := hq.length_lt
      obtain ⟨v, e, hspaces₂, hv, rfl⟩ := hq
      refine .skipWs fun b₃ hspaces₃ _ => .have (fun u g hb₃ hu => ?_) fun _ => ?_
      · rw [isComma, beq_iff_eq] at hu
        subst hu hb₃
        have hle₃ := hspaces₃.length_le
        rw [length_cons] at hle₃
        refine (memberLoop_ensures hcb hvalue fuel (by omega) (by omega)).mono fun _ r c' hq => ?_
        obtain ⟨ms, hms, rfl⟩ := hq
        exact ⟨(k, v) :: ms, .members hspaces hk hspaces₁ hspaces₂ hv hspaces₃ hms, by rw [runMembers]⟩
      · exact .pure ⟨[(k, v)], .member hspaces hk hspaces₁ hspaces₂ hv hspaces₃, by
          rw [runMembers, runMembers]⟩
    · exact .parseError _

theorem parseObject_ensures (hcb : OneByOne cb) (hvalue : Below cb category value n) (ha : a.length ≤ n) :
    Ensures (parseObject cb category value) a c (Tries (OfKind cb category) a c) := by
  refine .skipWs fun b hspaces hb => .have (fun u t hbt hu => ?_) fun _ =>
    .pure (.inr ⟨rfl, hspaces, hb, rfl⟩)
  rw [isOpenBrace, beq_iff_eq] at hu
  subst hu hbt
  have hle := hspaces.length_le
  rw [length_cons] at hle
  refine .after (reads_call _ t c) (.skipWs fun b₁ hspaces₁ _ => .have (fun u r hb₁ hu => ?_) fun _ => ?_)
  · rw [isCloseBrace, beq_iff_eq] at hu
    subst hu hb₁
    refine .after (reads_call _ r _) (.pure (.inl ⟨rfl, _, hspaces, .object [], .emptyObject hspaces₁, ?_⟩))
    rw [run, runMembers]
  · have hle₁ := hspaces₁.length_le
    refine .after (reads_rawCur b₁ _) ?_
    refine (memberLoop_ensures hcb hvalue _ (Nat.lt_succ_self _) (by omega)).bind fun _ b₂ c₂ hq => ?_
    obtain ⟨ms, hms, rfl⟩ := hq
    refine .expect fun u r hb₂ hu => ?_
    rw [isCloseBrace, beq_iff_eq] at hu
    subst hu hb₂
    refine .after (reads_call _ r _) (.pure (.inl ⟨rfl, _, hspaces, .object ms, ?_, ?_⟩))
    · exact .object (hms.after_spaces hspaces₁ fun _ h => nomatch h)
    · rw [run]

theorem parseNull_ensures : Ensures (parseNull cb) a c (Tries (OfKind cb category) a c) := by
  refine .skipWs fun b hspaces hb => .have (fun u₁ t₁ h₁ hu₁ => ?_) fun _ =>
    .pure (.inr ⟨rfl, hspaces, hb, rfl⟩)
  refine .expect fun u₂ t₂ h₂ hu₂ => .expect fun u₃ t₃ h₃ hu₃ => .expect fun u₄ t₄ h₄ hu₄ => ?_
  rw [isN, beq_iff_eq] at hu₁
  rw [isU, beq_iff_eq] at hu₂
  rw [isL, beq_iff_eq] at hu₃ hu₄
  subst hu₁ hu₂ hu₃ hu₄ h₄ h₃ h₂ h₁
  exact .after (reads_call _ t₄ c) (.pure (.inl ⟨rfl, _, hspaces, .null, .null t₄, by rw [run]⟩))

theorem parseBoolean_ensures : Ensures (parseBoolean cb) a c (Tries (OfKind cb category) a c) := by
  refine .skipWs fun b hspaces hb => .have (fun u₁ t₁ h₁ hu₁ => ?_) fun _ =>
    .have (fun u₁ t₁ h₁ hu₁ => ?_) fun _ => .pure (.inr ⟨rfl, hspaces, hb, rfl⟩)
  · refine .expect fun u₂ t₂ h₂ hu₂ => .expect fun u₃ t₃ h₃ hu₃ => .expect fun u₄ t₄ h₄ hu₄ => ?_
    rw [isT, beq_iff_eq] at hu₁
    rw [isR, beq_iff_eq] at hu₂
    rw [isU, beq_iff_eq] at hu₃
    rw [isE, beq_iff_eq] at hu₄
    subst hu₁ hu₂ hu₃ hu₄ h₄ h₃ h₂ h₁
    exact .after (reads_call _ t₄ c) (.pure (.inl ⟨rfl, _, hspaces, .bool true, .true t₄, by rw [run]⟩))
  · refine .expect fun u₂ t₂ h₂ hu₂ => .expect fun u₃ t₃ h₃ hu₃ => .expect fun u₄ t₄ h₄ hu₄ => ?_
    refine .expect fun u₅ t₅ h₅ hu₅ => ?_
    rw [isF, beq_iff_eq] at hu₁
    rw [isA, beq_iff_eq] at hu₂
    rw [isL, beq_iff_eq] at hu₃
    rw [isS, beq_iff_eq] at hu₄
    rw [isE, beq_iff_eq] at hu₅
    subst hu₁ hu₂ hu₃ hu₄ hu₅ h₅ h₄ h₃ h₂ h₁
    exact .after (reads_call _ t₅ c) (.pure (.inl ⟨rfl, _, hspaces, .bool false, .false t₅, by rw [run]⟩))

theorem parseNumber_kind : Ensures (parseNumber cb category) a c (Tries (OfKind cb category) a c) := by
  refine (parseNumber_ensures a c).mono fun x r c' hq => ?_
  rcases hq with ⟨hx, b, hspaces, ds, rfl, hds, rfl⟩ | hq
  · exact .inl ⟨hx, ds ++ r, hspaces, .number ds, .number r hds, by rw [run]⟩
  · exact .inr hq

theorem parseString_kind (hcb : OneByOne cb) :
    Ensures (parseString cb category) a c (Tries (OfKind cb category) a c) := by
  refine (parseString_ensures hcb a c).mono fun x r c' hq => ?_
  rcases hq with ⟨hx, b, hspaces, s, t, rfl, hs, rfl⟩ | hq
  · exact .inl ⟨hx, 0x22 :: t, hspaces, .string s, .string hs, by rw [run]⟩
  · exact .inr hq

/-- One kind of value is tried, and then the others. -/
theorem Ensures.orElse {p : Parser σ Bool} {q : Parser σ Unit}
    (hp : Ensures p a c (Tries (OfKind cb category) a c))
    (hq : ∀ b, Spaces a b → Ensures q b c fun _ r c' => Value cb category b c r c') :
    Ensures (p >>= fun found => if found then Pure.pure () else q) a c fun _ r c' =>
      Value cb category a c r c' := by
  refine hp.bind fun x r c' h => ?_
  rcases h with ⟨rfl, b, hspaces, v, hv, rfl⟩ | ⟨rfl, hspaces, -, rfl⟩
  · exact .pure ⟨v, b, hspaces, hv, rfl⟩
  · refine (hq r hspaces).mono fun _ r' c' h => ?_
    obtain ⟨v, b, hspaces', hv, hc'⟩ := h
    exact ⟨v, b, hspaces.trans hspaces', hv, hc'⟩

/-- **What `parse_value` reads is a value.** -/
theorem parseValue_ensures (hcb : OneByOne cb) : ∀ depth,
    Below cb category (parseValue cb category depth) depth
  | 0, _, _, h => absurd h (Nat.not_lt_zero _)
  | depth + 1, a, c, h => by
    have hvalue := parseValue_ensures hcb depth
    refine .orElse (parseObject_ensures hcb hvalue (Nat.le_of_lt_succ h)) fun b hspaces => ?_
    refine .orElse (parseArray_ensures hvalue (hspaces.length_le.trans (Nat.le_of_lt_succ h))) fun _ _ => ?_
    refine .orElse (parseString_kind hcb) fun _ _ => .orElse parseBoolean_ensures fun _ _ => ?_
    exact .orElse parseNull_ensures fun _ _ => .orElse parseNumber_kind fun _ _ => .parseError _

/-! ### What is in the grammar is read -/

theorem spaces_linear {a b b' : Str} (h : Spaces a b) (h' : Spaces a b') (hb' : Unspaced b') :
    Spaces b b' := by
  induction h with
  | none r => exact h'
  | more hu h ih =>
    cases h' with
    | none => exact absurd ((isWs_iff _).mpr hu) (by rw [hb' _ _ rfl]; decide)
    | more _ h' => exact ih h'

theorem endsNumber_cons {u : UInt8} (r : Str) (h : isDigit u = false ∧ isDot u = false ∧ isEE u = false) :
    EndsNumber (u :: r) :=
  ⟨stops_cons r h.1, stops_cons r h.2.1, stops_cons r h.2.2⟩

theorem EndsNumber.spaces (h : Spaces a r) (hr : EndsNumber r) : EndsNumber a := by
  cases h with
  | none => exact hr
  | more hu h =>
    refine endsNumber_cons _ ?_
    rcases hu with rfl | rfl | rfl | rfl <;> exact ⟨rfl, rfl, rfl⟩

theorem isNumber_start (u : UInt8) (h : u = 0x2D ∨ IsDigit u) :
    isWs u = false ∧ isOpenBrace u = false ∧ isOpenBracket u = false ∧ isQuote u = false ∧ isT u = false ∧
      isF u = false ∧ isN u = false ∧ isCloseBracket u = false := by
  have hall : ∀ u : UInt8, u = 0x2D ∨ IsDigit u → isWs u = false ∧ isOpenBrace u = false ∧
      isOpenBracket u = false ∧ isQuote u = false ∧ isT u = false ∧ isF u = false ∧ isN u = false ∧
      isCloseBracket u = false := forall_byte (by decide +kernel)
  exact hall u h

theorem head_of_value {raw : List UInt8 → Prop} (h : Spells raw (.value v) a r) :
    ∃ u t, a = u :: t ∧ isWs u = false ∧ isCloseBracket u = false ∧ u.toNat < 0x80 := by
  cases h with
  | number r h =>
    obtain ⟨u, t, rfl, hu⟩ := head_of_isNumber h
    obtain ⟨hws, -, -, -, -, -, -, hclose⟩ := isNumber_start u hu
    exact ⟨u, _, rfl, hws, hclose, h.ascii u mem_cons_self⟩
  | _ => exact ⟨_, _, rfl, rfl, rfl, by decide⟩

theorem Unspaced.of_value {raw : List UInt8 → Prop} (h : Spells raw (.value v) a r) : Unspaced a := by
  obtain ⟨u, t, rfl, hu, -⟩ := head_of_value h
  exact stops_cons t hu

section
variable {u : UInt8} {t : Str} (hs : Spaces a (u :: t)) (hws : isWs u = false)
include hs hws

theorem reads_noObject (hu : isOpenBrace u = false) (c : σ) :
    Reads (parseObject cb category value) a c false (u :: t) c :=
  .skipWs hs (stops_cons t hws) (.haveNot (stops_cons t hu) (.pure false _ c))

theorem reads_noArray (hu : isOpenBracket u = false) (c : σ) :
    Reads (parseArray cb value) a c false (u :: t) c :=
  .skipWs hs (stops_cons t hws) (.haveNot (stops_cons t hu) (.pure false _ c))

theorem reads_noString (hu : isQuote u = false) (c : σ) :
    Reads (parseString cb category) a c false (u :: t) c :=
  .skipWs hs (stops_cons t hws) (.haveNot (stops_cons t hu) (.pure false _ c))

theorem reads_noBoolean (hu : isT u = false) (hu' : isF u = false) (c : σ) :
    Reads (parseBoolean cb) a c false (u :: t) c :=
  .skipWs hs (stops_cons t hws) (.haveNot (stops_cons t hu) (.haveNot (stops_cons t hu') (.pure false _ c)))

theorem reads_noNull (hu : isN u = false) (c : σ) : Reads (parseNull cb) a c false (u :: t) c :=
  .skipWs hs (stops_cons t hws) (.haveNot (stops_cons t hu) (.pure false _ c))

end

/-- What it means that a phrase is read. -/
def Complete (cb : Callbacks σ) (category : Category) : Phrase → Str → Str → Prop
  | .value v, a, r => ∀ (a₀ : Str) (depth : ℕ) (c : σ), Spaces a₀ a → a₀.length ≤ depth → EndsNumber r →
      Reads (parseValue cb category (depth + 1)) a₀ c () r (run cb category v c)
  | .items vs, a, r => ∀ (b : Str) (depth fuel : ℕ) (c : σ), Spaces a b → b.length < depth → b.length < fuel →
      (∃ t, r = 0x5D :: t) →
      Reads (itemLoop (parseValue cb category depth) fuel) b c () r (runItems cb category vs c)
  | .members ms, a, r => ∀ (b : Str) (depth fuel : ℕ) (c : σ), Spaces a b → b.length < depth →
      b.length < fuel →
      (∃ t, r = 0x7D :: t) →
      Reads (memberLoop cb category (parseValue cb category depth) fuel) b c () r
        (runMembers cb category ms c)

section
variable {a₀ : Str} {depth : ℕ}

theorem value_array {t : Str} {c' : σ} (hs : Spaces a₀ (0x5B :: t))
    (h : Reads (parseArray cb (parseValue cb category depth)) (0x5B :: t) c true r c') :
    Reads (parseValue cb category (depth + 1)) a₀ c () r c' :=
  (reads_noObject hs rfl rfl c).bind (h.bind (.pure () r c'))

theorem value_string (hcb : OneByOne cb) {t s : Str} (hs : Spaces a₀ (0x22 :: t))
    (h : Characters IsShape t s r)
    (c : σ) : Reads (parseValue cb category (depth + 1)) a₀ c () r (runString cb s c) :=
  (reads_noObject hs rfl rfl c).bind ((reads_noArray (.none _) rfl rfl c).bind
    ((parseString_reads hcb (.none _) h c).bind (.pure () r _)))

theorem value_true (hs : Spaces a₀ (0x74 :: 0x72 :: 0x75 :: 0x65 :: r)) (c : σ) :
    Reads (parseValue cb category (depth + 1)) a₀ c () r (cb.onBoolean true c) := by
  have hread : Reads (parseBoolean cb) (0x74 :: 0x72 :: 0x75 :: 0x65 :: r) c true r
    (cb.onBoolean true c) := by
    refine .skipWs (.none _) (stops_cons _ rfl) (.have rfl (.expect rfl (.expect rfl (.expect rfl ?_))))
    exact (reads_call _ r c).bind (.pure true r _)
  refine (reads_noObject hs rfl rfl c).bind ((reads_noArray (.none _) rfl rfl c).bind ?_)
  exact (reads_noString (.none _) rfl rfl c).bind (hread.bind (.pure () r _))

theorem value_false (hs : Spaces a₀ (0x66 :: 0x61 :: 0x6C :: 0x73 :: 0x65 :: r)) (c : σ) :
    Reads (parseValue cb category (depth + 1)) a₀ c () r (cb.onBoolean false c) := by
  have hread : Reads (parseBoolean cb) (0x66 :: 0x61 :: 0x6C :: 0x73 :: 0x65 :: r) c true r
      (cb.onBoolean false c) := by
    refine .skipWs (.none _) (stops_cons _ rfl) (.haveNot (stops_cons _ rfl) (.have rfl ?_))
    refine .expect rfl (.expect rfl (.expect rfl (.expect rfl ?_)))
    exact (reads_call _ r c).bind (.pure true r _)
  refine (reads_noObject hs rfl rfl c).bind ((reads_noArray (.none _) rfl rfl c).bind ?_)
  exact (reads_noString (.none _) rfl rfl c).bind (hread.bind (.pure () r _))

theorem value_null (hs : Spaces a₀ (0x6E :: 0x75 :: 0x6C :: 0x6C :: r)) (c : σ) :
    Reads (parseValue cb category (depth + 1)) a₀ c () r (cb.onNull c) := by
  have hread : Reads (parseNull cb) (0x6E :: 0x75 :: 0x6C :: 0x6C :: r) c true r (cb.onNull c) := by
    refine .skipWs (.none _) (stops_cons _ rfl) (.have rfl (.expect rfl (.expect rfl (.expect rfl ?_))))
    exact (reads_call _ r c).bind (.pure true r _)
  refine (reads_noObject hs rfl rfl c).bind ((reads_noArray (.none _) rfl rfl c).bind ?_)
  refine (reads_noString (.none _) rfl rfl c).bind ((reads_noBoolean (.none _) rfl rfl rfl c).bind ?_)
  exact hread.bind (.pure () r _)

theorem value_number {ds : Str} (h : IsNumber ds) (hr : EndsNumber r) (hs : Spaces a₀ (ds ++ r)) (c : σ) :
    Reads (parseValue cb category (depth + 1)) a₀ c () r (runNumber cb category ds c) := by
  have hnumber : Reads (parseNumber cb category) (ds ++ r) c true r (runNumber cb category ds c) :=
    parseNumber_reads h hr (.none _) c
  obtain ⟨u, t, rfl, hu⟩ := head_of_isNumber h
  obtain ⟨hws, hbrace, hbracket, hquote, hT, hF, hN, -⟩ := isNumber_start u hu
  refine (reads_noObject hs hws hbrace c).bind ((reads_noArray (.none _) hws hbracket c).bind ?_)
  refine (reads_noString (.none _) hws hquote c).bind ((reads_noBoolean (.none _) hws hT hF c).bind ?_)
  exact (reads_noNull (.none _) hws hN c).bind (hnumber.bind (.pure () r _))

theorem array_empty {t : Str} (h : Spaces t (0x5D :: r)) (c : σ) :
    Reads (parseArray cb value) (0x5B :: t) c true r (cb.onEndArray (cb.onBeginArray c)) := by
  refine .skipWs (.none _) (stops_cons _ rfl) (.have rfl ((reads_call _ t c).bind ?_))
  exact .skipWs h (stops_cons _ rfl) (.have rfl ((reads_call _ r _).bind (.pure true r _)))

theorem object_empty {t : Str} (hs : Spaces a₀ (0x7B :: t)) (h : Spaces t (0x7D :: r)) (c : σ) :
    Reads (parseObject cb category value) a₀ c true r (cb.onEndObject (cb.onBeginObject c)) := by
  refine .skipWs hs (stops_cons _ rfl) (.have rfl ((reads_call _ t c).bind ?_))
  exact .skipWs h (stops_cons _ rfl) (.have rfl ((reads_call _ r _).bind (.pure true r _)))

theorem items_start {raw : List UInt8 → Prop} {vs : List Json} (h : Spells raw (.items vs) a r)
    (hs : Spaces a b) (hb : Unspaced b) : Stops isCloseBracket b := by
  have hvalue : ∀ {v b' r'}, Spaces a b' → Spells raw (.value v) b' r' → Stops isCloseBracket b := by
    intro v b' r' hs' hv
    obtain ⟨u, t, rfl, hu, hclose, -⟩ := head_of_value hv
    cases spaces_linear hs hs' (stops_cons t hu) with
    | none => exact stops_cons t hclose
    | more hw _ => exact absurd ((isWs_iff _).mpr hw) (by rw [hb _ _ rfl]; decide)
  cases h with
  | item h hv h' => exact hvalue h hv
  | items h hv h' hvs => exact hvalue h hv

theorem members_start {raw : List UInt8 → Prop} {ms : List (Str × Json)} (h : Spells raw (.members ms) a r)
    (hs : Spaces a b) (hb : Unspaced b) : Stops isCloseBrace b := by
  have hkey : ∀ {t}, Spaces a (0x22 :: t) → Stops isCloseBrace b := by
    intro t hs'
    cases spaces_linear hs hs' (stops_cons t rfl) with
    | none => exact stops_cons t rfl
    | more hw _ => exact absurd ((isWs_iff _).mpr hw) (by rw [hb _ _ rfl]; decide)
  cases h with
  | member h hk hc hd hv hf => exact hkey h
  | members h hk hc hd hv hf hms => exact hkey h

theorem array_items {vs : List Json} {t : Str} (h : Spells IsShape (.items vs) t (0x5D :: r))
    (ih : Complete cb category (.items vs) t (0x5D :: r)) (ht : t.length < depth) (c : σ) :
    Reads (parseArray cb (parseValue cb category depth)) (0x5B :: t) c true r
      (run cb category (.array vs) c) := by
  obtain ⟨b, hs, hb⟩ := exists_unspaced t
  refine .skipWs (.none _) (stops_cons _ rfl) (.have rfl ((reads_call _ t c).bind ?_))
  refine .skipWs hs hb (.haveNot (items_start h hs hb) ((reads_rawCur b _).bind ?_))
  have hloop := ih b depth (b.length + 1) (cb.onBeginArray c) hs (hs.length_le.trans_lt ht)
    (Nat.lt_succ_self _)
    ⟨r, rfl⟩
  rw [run]
  exact hloop.bind (.expect rfl ((reads_call _ r _).bind (.pure true r _)))

theorem object_members {ms : List (Str × Json)} {t : Str} (hs₀ : Spaces a₀ (0x7B :: t))
    (h : Spells IsShape (.members ms) t (0x7D :: r))
    (ih : Complete cb category (.members ms) t (0x7D :: r)) (ht : t.length < depth) (c : σ) :
    Reads (parseObject cb category (parseValue cb category depth)) a₀ c true r
      (run cb category (.object ms) c) := by
  obtain ⟨b, hs, hb⟩ := exists_unspaced t
  refine .skipWs hs₀ (stops_cons _ rfl) (.have rfl ((reads_call _ t c).bind ?_))
  refine .skipWs hs hb (.haveNot (members_start h hs hb) ((reads_rawCur b _).bind ?_))
  have hloop := ih b depth (b.length + 1) (cb.onBeginObject c) hs (hs.length_le.trans_lt ht)
    (Nat.lt_succ_self _)
    ⟨r, rfl⟩
  rw [run]
  exact hloop.bind (.expect rfl ((reads_call _ r _).bind (.pure true r _)))

end

/-- **Every phrase of the grammar is read.** -/
theorem complete (hcb : OneByOne cb) {p : Phrase} (h : Spells IsShape p a r) :
    Complete cb category p a r := by
  induction h with
  | null r => exact fun a₀ depth c hs _ _ => by rw [run]; exact value_null hs c
  | true r => exact fun a₀ depth c hs _ _ => by rw [run]; exact value_true hs c
  | false r => exact fun a₀ depth c hs _ _ => by rw [run]; exact value_false hs c
  | number r h => exact fun a₀ depth c hs _ hr => by rw [run]; exact value_number h hr hs c
  | string h => exact fun a₀ depth c hs _ _ => by rw [run]; exact value_string hcb hs h c
  | emptyArray h =>
    intro a₀ depth c hs _ _
    rw [run, runItems]
    exact value_array hs (array_empty h c)
  | array h ih =>
    intro a₀ depth c hs hdepth _
    have hle := hs.length_le
    rw [length_cons] at hle
    exact value_array hs (array_items h ih (by omega) c)
  | emptyObject h =>
    intro a₀ depth c hs _ _
    rw [run, runMembers]
    exact (object_empty hs h c).bind (.pure () _ _)
  | object h ih =>
    intro a₀ depth c hs hdepth _
    have hle := hs.length_le
    rw [length_cons] at hle
    exact (object_members hs h ih (by omega) c).bind (.pure () _ _)
  | @item v a b e r h hv h' ih =>
    rintro b₀ depth fuel c hs hdepth hfuel ⟨t, rfl⟩
    obtain ⟨depth, rfl⟩ : ∃ m, depth = m + 1 := ⟨depth - 1, by omega⟩
    obtain ⟨fuel, rfl⟩ : ∃ m, fuel = m + 1 := ⟨fuel - 1, by omega⟩
    have hends : EndsNumber (0x5D :: t) := endsNumber_cons t ⟨rfl, rfl, rfl⟩
    rw [runItems, runItems]
    refine (ih b₀ depth c (spaces_linear hs h (.of_value hv)) (Nat.le_of_lt_succ hdepth)
      (hends.spaces h')).bind ?_
    exact .skipWs h' (stops_cons t rfl) (.haveNot (stops_cons t rfl) (.pure () _ _))
  | @items v vs a b e d r h hv h' hvs ih ih' =>
    intro b₀ depth fuel c hs hdepth hfuel hr
    obtain ⟨depth, rfl⟩ : ∃ m, depth = m + 1 := ⟨depth - 1, by omega⟩
    obtain ⟨fuel, rfl⟩ : ∃ m, fuel = m + 1 := ⟨fuel - 1, by omega⟩
    have hends : EndsNumber (0x2C :: d) := endsNumber_cons d ⟨rfl, rfl, rfl⟩
    have hs' := spaces_linear hs h (.of_value hv)
    have hle := hs'.length_le
    have hlt := hv.length_lt fun _ h => h.ne_nil
    have hle' := h'.length_le
    rw [length_cons] at hle'
    rw [runItems]
    refine (ih b₀ depth c hs' (Nat.le_of_lt_succ hdepth) (hends.spaces h')).bind ?_
    exact .skipWs h' (stops_cons d rfl) (.have rfl (ih' d _ fuel _ (.none d) (by omega) (by omega) hr))
  | @member k v a b e d g f r h hk hc hd hv hf ih =>
    rintro b₀ depth fuel c hs hdepth hfuel ⟨t, rfl⟩
    obtain ⟨depth, rfl⟩ : ∃ m, depth = m + 1 := ⟨depth - 1, by omega⟩
    obtain ⟨fuel, rfl⟩ : ∃ m, fuel = m + 1 := ⟨fuel - 1, by omega⟩
    have hends : EndsNumber (0x7D :: t) := endsNumber_cons t ⟨rfl, rfl, rfl⟩
    have hs' := spaces_linear hs h (stops_cons b rfl)
    have hle := hs'.length_le
    have hlt := hk.length_lt fun _ h => h.ne_nil
    have hle' := hc.length_le
    rw [length_cons] at hle hle'
    rw [runMembers, runMembers]
    refine (parseString_reads hcb hs' hk c).bind (.skipWs hc (stops_cons d rfl) (.expect rfl ?_))
    refine (ih d depth _ hd (by omega) (hends.spaces hf)).bind ?_
    exact .skipWs hf (stops_cons t rfl) (.haveNot (stops_cons t rfl) (.pure () _ _))
  | @members k v ms a b e d g f g' r h hk hc hd hv hf hms ih ih' =>
    intro b₀ depth fuel c hs hdepth hfuel hr
    obtain ⟨depth, rfl⟩ : ∃ m, depth = m + 1 := ⟨depth - 1, by omega⟩
    obtain ⟨fuel, rfl⟩ : ∃ m, fuel = m + 1 := ⟨fuel - 1, by omega⟩
    have hends : EndsNumber (0x2C :: g') := endsNumber_cons g' ⟨rfl, rfl, rfl⟩
    have hs' := spaces_linear hs h (stops_cons b rfl)
    have hle := hs'.length_le
    have hlt := hk.length_lt fun _ h => h.ne_nil
    have hle' := hc.length_le
    have hle₂ := hd.length_le
    have hlt₂ := hv.length_lt fun _ h => h.ne_nil
    have hle₃ := hf.length_le
    rw [length_cons] at hle hle' hle₃
    rw [runMembers]
    refine (parseString_reads hcb hs' hk c).bind (.skipWs hc (stops_cons d rfl) (.expect rfl ?_))
    refine (ih d depth _ hd (by omega) (hends.spaces hf)).bind ?_
    exact .skipWs hf (stops_cons g' rfl) (.have rfl (ih' g' _ fuel _ (.none g') (by omega) (by omega) hr))

/-! ### A whole input -/

theorem finish_ensures : Ensures finish a c fun _ _ c' => Spaces a [] ∧ c' = c := by
  refine .skipWs fun b hspaces _ => .after (reads_rawCur b c) ?_
  cases b with
  | nil => exact .pure ⟨hspaces, rfl⟩
  | cons u b => exact .parseError _

theorem finish_reads (h : Spaces a []) (c : σ) : Reads finish a c () [] c :=
  .skipWs h (stops_nil isWs) ((reads_rawCur [] c).bind (.pure () [] c))

theorem length_skipIntroduction (r : Str) : (skipIntroduction r).length ≤ r.length := by
  cases r with
  | nil => exact Nat.le_refl _
  | cons u r =>
    rw [skipIntroduction]
    split
    · rw [length_drop, length_cons]
      omega
    · exact Nat.le_refl _

theorem parse_ensures (category : Category) (hcb : OneByOne cb) {depth : ℕ} (ha : a.length ≤ depth) :
    Ensures (do parseValue cb category (depth + 1); finish) a c fun _ _ c' =>
      ∃ v, IsText IsShape v a ∧ c' = run cb category v c := by
  refine (parseValue_ensures hcb (depth + 1) a c (Nat.lt_succ_of_le ha)).bind fun _ b c₁ hq => ?_
  obtain ⟨v, b', hspaces, hv, rfl⟩ := hq
  refine finish_ensures.mono fun _ _ c' hq => ?_
  exact ⟨v, ⟨b', b, hspaces, hv, hq.1⟩, hq.2⟩

theorem parse_reads (category : Category) (hcb : OneByOne cb) {depth : ℕ} (ha : a.length ≤ depth)
    (h : IsText IsShape v a) (c : σ) :
    Reads (do parseValue cb category (depth + 1); finish) a c () [] (run cb category v c) := by
  obtain ⟨b, r, hspaces, hv, hr⟩ := h
  have hends : EndsNumber r :=
    EndsNumber.spaces hr ⟨stops_nil isDigit, stops_nil isDot, stops_nil isEE⟩
  exact (complete hcb hv a depth c hspaces ha hends).bind (finish_reads hr _)

/-- **What is read are the texts of the grammar**, behind the introduction. -/
theorem readRange_ok_iff (hcb : OneByOne cb) (c c' : σ) (filename : String) :
    readRange cb category r c filename = .ok c' ↔
      ∃ v, IsText IsShape v (skipIntroduction r) ∧ c' = run cb category v c := by
  have hlen := length_skipIntroduction r
  constructor
  · intro h
    rcases parse_ensures category hcb hlen ⟨setInput filename r, c⟩ rfl rfl with
      ⟨_, s, hp, hq⟩ | ⟨msg, file, line, hp⟩
    · rw [readRange, hp] at h
      exact Except.ok.inj h ▸ hq
    · rw [readRange, hp] at h
      exact nomatch h
  · rintro ⟨v, hv, rfl⟩
    obtain ⟨s, hp, -, hs⟩ := parse_reads category hcb hlen hv c ⟨setInput filename r, c⟩ rfl rfl
    rw [readRange, hp]
    exact congrArg Except.ok hs

/-- **The parser stops**, and within the input. -/
theorem readRange_not_stuck (hcb : OneByOne cb) (c : σ) (filename : String) :
    readRange cb category r c filename ≠ .error .stuck := by
  intro h
  rcases parse_ensures category hcb (length_skipIntroduction r)
    ⟨setInput filename r, c⟩ rfl rfl with ⟨_, s, hp, hq⟩ | ⟨msg, file, line, hp⟩
  · rw [readRange, hp] at h
    exact nomatch h
  · rw [readRange, hp] at h
    exact nomatch h

end

end SourceLibs.PropertyTree
