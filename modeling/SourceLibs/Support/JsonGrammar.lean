import SourceLibs.Support.Utf8

/-!
# Support — the grammar of JSON

The grammar relates a text to what is left of it after a phrase: `Spells raw p a r` says that `a` begins with
the phrase `p` and goes on with `r`.  `raw` are the rows of bytes beyond ASCII that may stand for themselves
inside a string, so that one grammar serves those who want characters there and those who look only at their
shape.

* `Spells.length_lt`: a phrase takes at least one byte.
* `Spells.mono`: more bytes may stand for themselves, more is spelled.
* `Spells.characters`, `Spells.wellFormed`: with well-formed bytes the shapes are characters, and with
  characters the bytes are well-formed.
-/

namespace SourceLibs.JsonGrammar
open List Nat

open Utf8 (WellFormed)

/-- A JSON value; numbers are kept as they are written. -/
inductive Json
  | null
  | bool (b : Bool)
  | number (digits : List UInt8)
  | string (s : List UInt8)
  | array (items : List Json)
  | object (members : List (List UInt8 × Json))

/-- What the grammar is about: a value, the items of an array, the members of an object. -/
inductive Phrase
  | value (v : Json)
  | items (vs : List Json)
  | members (ms : List (List UInt8 × Json))

/-! ### The grammar -/

/-- Blank, tab, line feed or carriage return. -/
def IsSpace (b : UInt8) : Prop := b = 0x20 ∨ b = 0x09 ∨ b = 0x0A ∨ b = 0x0D

instance (b : UInt8) : Decidable (IsSpace b) := inferInstanceAs (Decidable (_ ∨ _))

/-- White space, as much as there is of it or less. -/
inductive Spaces : List UInt8 → List UInt8 → Prop
  | none (r : List UInt8) : Spaces r r
  | more {b : UInt8} {a r : List UInt8} (hb : IsSpace b) (h : Spaces a r) : Spaces (b :: a) r

/-- A decimal digit. -/
def IsDigit (b : UInt8) : Prop := 0x30 ≤ b.toNat ∧ b.toNat ≤ 0x39

instance (b : UInt8) : Decidable (IsDigit b) := inferInstanceAs (Decidable (_ ∧ _))

/-- The integer part: no leading zero. -/
def IsInt (ds : List UInt8) : Prop :=
  ds = [0x30] ∨ ∃ d es, ds = d :: es ∧ IsDigit d ∧ d ≠ 0x30 ∧ ∀ e ∈ es, IsDigit e

/-- The fraction, which may be missing. -/
def IsFrac (ds : List UInt8) : Prop :=
  ds = [] ∨ ∃ d es, ds = 0x2E :: d :: es ∧ IsDigit d ∧ ∀ e ∈ es, IsDigit e

/-- The exponent, which may be missing, as may its sign. -/
def IsExp (ds : List UInt8) : Prop :=
  ds = [] ∨ ∃ x sign d es, ds = x :: (sign ++ d :: es) ∧ (x = 0x65 ∨ x = 0x45) ∧
    (sign = [] ∨ sign = [0x2B] ∨ sign = [0x2D]) ∧ IsDigit d ∧ ∀ e ∈ es, IsDigit e

/-- A number. -/
def IsNumber (ds : List UInt8) : Prop :=
  ∃ minus int frac exp, ds = minus ++ (int ++ (frac ++ exp)) ∧ (minus = [] ∨ minus = [0x2D]) ∧
    IsInt int ∧ IsFrac frac ∧ IsExp exp

/-- The value of a hexadecimal digit. -/
def hexValue (b : UInt8) : Option ℕ :=
  if 0x30 ≤ b.toNat ∧ b.toNat ≤ 0x39 then some (b.toNat - 0x30)
  else if 0x41 ≤ b.toNat ∧ b.toNat ≤ 0x46 then some (b.toNat - 0x41 + 10)
  else if 0x61 ≤ b.toNat ∧ b.toNat ≤ 0x66 then some (b.toNat - 0x61 + 10)
  else none

/-- Four hexadecimal digits. -/
inductive Hex4 : List UInt8 → ℕ → List UInt8 → Prop
  | mk {a b c d : UInt8} {x y z w : ℕ} (r : List UInt8) (ha : hexValue a = some x) (hb : hexValue b = some y)
      (hc : hexValue c = some z) (hd : hexValue d = some w) :
      Hex4 (a :: b :: c :: d :: r) (((x * 16 + y) * 16 + z) * 16 + w) r

/-- What stands after a backslash, and for which byte. -/
def escaped (b : UInt8) : Option UInt8 :=
  if b = 0x22 then some 0x22
  else if b = 0x5C then some 0x5C
  else if b = 0x2F then some 0x2F
  else if b = 0x62 then some 0x08
  else if b = 0x66 then some 0x0C
  else if b = 0x6E then some 0x0A
  else if b = 0x72 then some 0x0D
  else if b = 0x74 then some 0x09
  else none

/-- The first half of a surrogate pair. -/
def IsHigh (n : ℕ) : Prop := 0xD800 ≤ n ∧ n < 0xDC00

/-- The second half. -/
def IsLow (n : ℕ) : Prop := 0xDC00 ≤ n ∧ n < 0xE000

/-- The encoding of a code point. -/
def encode (n : ℕ) : List UInt8 := String.utf8EncodeChar (Char.ofNat n)

section
variable (raw : List UInt8 → Prop)

/-- One character of a string, with the bytes it stands for. -/
inductive Character : List UInt8 → List UInt8 → List UInt8 → Prop
  | plain {b : UInt8} (r : List UInt8) (hlow : 0x20 ≤ b.toNat) (hhigh : b.toNat < 0x80) (hquote : b ≠ 0x22)
      (hback : b ≠ 0x5C) : Character (b :: r) [b] r
  | raw {w : List UInt8} (r : List UInt8) (hw : raw w) : Character (w ++ r) w r
  | escape {b c : UInt8} (r : List UInt8) (h : escaped b = some c) : Character (0x5C :: b :: r) [c] r
  | unicode {n : ℕ} {a r : List UInt8} (h : Hex4 a n r) (hhigh : ¬ IsHigh n) (hlow : ¬ IsLow n) :
      Character (0x5C :: 0x75 :: a) (encode n) r
  | pair {hi lo : ℕ} {a b r : List UInt8} (h : Hex4 a hi (0x5C :: 0x75 :: b)) (hhigh : IsHigh hi)
      (h' : Hex4 b lo r) (hlow : IsLow lo) :
      Character (0x5C :: 0x75 :: a) (encode (0x10000 + (hi - 0xD800) * 0x400 + (lo - 0xDC00))) r

/-- The characters up to the closing quote. -/
inductive Characters : List UInt8 → List UInt8 → List UInt8 → Prop
  | done (r : List UInt8) : Characters (0x22 :: r) [] r
  | more {a b r w s : List UInt8} (h : Character raw a w b) (hs : Characters b s r) : Characters a (w ++ s) r

/-- **What spells a value.** -/
inductive Spells : Phrase → List UInt8 → List UInt8 → Prop
  | null (r : List UInt8) : Spells (.value .null) (0x6E :: 0x75 :: 0x6C :: 0x6C :: r) r
  | true (r : List UInt8) : Spells (.value (.bool true)) (0x74 :: 0x72 :: 0x75 :: 0x65 :: r) r
  | false (r : List UInt8) : Spells (.value (.bool false)) (0x66 :: 0x61 :: 0x6C :: 0x73 :: 0x65 :: r) r
  | number {ds : List UInt8} (r : List UInt8) (h : IsNumber ds) : Spells (.value (.number ds)) (ds ++ r) r
  | string {a s r : List UInt8} (h : Characters raw a s r) : Spells (.value (.string s)) (0x22 :: a) r
  | emptyArray {a r : List UInt8} (h : Spaces a (0x5D :: r)) : Spells (.value (.array [])) (0x5B :: a) r
  | array {vs : List Json} {a r : List UInt8} (h : Spells (.items vs) a (0x5D :: r)) :
      Spells (.value (.array vs)) (0x5B :: a) r
  | emptyObject {a r : List UInt8} (h : Spaces a (0x7D :: r)) : Spells (.value (.object [])) (0x7B :: a) r
  | object {ms : List (List UInt8 × Json)} {a r : List UInt8} (h : Spells (.members ms) a (0x7D :: r)) :
      Spells (.value (.object ms)) (0x7B :: a) r
  | item {v : Json} {a b c r : List UInt8} (h : Spaces a b) (hv : Spells (.value v) b c) (h' : Spaces c r) :
      Spells (.items [v]) a r
  | items {v : Json} {vs : List Json} {a b c d r : List UInt8} (h : Spaces a b) (hv : Spells (.value v) b c)
      (h' : Spaces c (0x2C :: d)) (hvs : Spells (.items vs) d r) : Spells (.items (v :: vs)) a r
  | member {k : List UInt8} {v : Json} {a b c d e f r : List UInt8} (h : Spaces a (0x22 :: b))
      (hk : Characters raw b k c) (hc : Spaces c (0x3A :: d)) (hd : Spaces d e) (hv : Spells (.value v) e f)
      (hf : Spaces f r) : Spells (.members [(k, v)]) a r
  | members {k : List UInt8} {v : Json} {ms : List (List UInt8 × Json)} {a b c d e f g r : List UInt8}
      (h : Spaces a (0x22 :: b)) (hk : Characters raw b k c) (hc : Spaces c (0x3A :: d)) (hd : Spaces d e)
      (hv : Spells (.value v) e f) (hf : Spaces f (0x2C :: g)) (hms : Spells (.members ms) g r) :
      Spells (.members ((k, v) :: ms)) a r

/-- `text` is one value, with white space around it. -/
def IsText (v : Json) (text : List UInt8) : Prop :=
  ∃ a r, Spaces text a ∧ Spells raw (.value v) a r ∧ Spaces r []

end

/-! ### How much a phrase takes -/

section
variable {raw raw' : List UInt8 → Prop} {a b r s w : List UInt8} {p : Phrase} {v : Json}

theorem Spaces.length_le (h : Spaces a r) : r.length ≤ a.length := by
  induction h with
  | none r => exact Nat.le_refl _
  | more hb h ih => exact le_succ_of_le ih

theorem hexValue_lt {u : UInt8} {n : ℕ} (h : hexValue u = some n) : n < 16 := by
  rw [hexValue] at h
  split at h
  · rw [← Option.some.inj h]
    omega
  · split at h
    · rw [← Option.some.inj h]
      omega
    · split at h
      · rw [← Option.some.inj h]
        omega
      · exact nomatch h

theorem Hex4.lt {n : ℕ} (h : Hex4 a n r) : n < 0x10000 := by
  obtain ⟨r, ha, hb, hc, hd⟩ := h
  have := hexValue_lt ha
  have := hexValue_lt hb
  have := hexValue_lt hc
  have := hexValue_lt hd
  omega

theorem Hex4.length_lt {n : ℕ} (h : Hex4 a n r) : r.length < a.length := by
  cases h with
  | mk r ha hb hc hd =>
    simp only [length_cons]
    omega

theorem Character.length_lt (hraw : ∀ w, raw w → w ≠ []) (h : Character raw a w r) :
    r.length < a.length := by
  cases h with
  | plain r hlow hhigh hquote hback => exact Nat.lt_succ_self _
  | raw r hw =>
    have := length_pos_iff.mpr (hraw w hw)
    rw [length_append]
    omega
  | escape r h => exact lt_succ_of_le (le_succ _)
  | unicode h hhigh hlow => exact h.length_lt.trans_le (le_succ_of_le (le_succ _))
  | pair h hhigh h' hlow =>
    have := h.length_lt
    have := h'.length_lt
    simp only [length_cons] at *
    omega

theorem Characters.length_lt (hraw : ∀ w, raw w → w ≠ []) (h : Characters raw a s r) :
    r.length < a.length := by
  induction h with
  | done r => exact Nat.lt_succ_self _
  | more h hs ih => exact ih.trans (h.length_lt hraw)

theorem IsInt.ne_nil {ds : List UInt8} (h : IsInt ds) : ds ≠ [] := by
  rcases h with rfl | ⟨d, es, rfl, -⟩
  · exact cons_ne_nil _ _
  · exact cons_ne_nil _ _

theorem IsNumber.ne_nil {ds : List UInt8} (h : IsNumber ds) : ds ≠ [] := by
  obtain ⟨minus, int, frac, exp, rfl, -, hint, -, -⟩ := h
  exact append_ne_nil_of_right_ne_nil _ (append_ne_nil_of_left_ne_nil hint.ne_nil _)

/-- **A phrase takes at least one byte.** -/
theorem Spells.length_lt (hraw : ∀ w, raw w → w ≠ []) (h : Spells raw p a r) : r.length < a.length := by
  induction h with
  | null r => simp only [length_cons]; omega
  | true r => simp only [length_cons]; omega
  | false r => simp only [length_cons]; omega
  | number r h =>
    have := length_pos_iff.mpr h.ne_nil
    rw [length_append]
    omega
  | string h => exact (h.length_lt hraw).trans (Nat.lt_succ_self _)
  | emptyArray h => exact lt_succ_of_lt (lt_of_succ_le h.length_le)
  | array h ih => exact lt_succ_of_lt ((Nat.lt_succ_self _).trans ih)
  | emptyObject h => exact lt_succ_of_lt (lt_of_succ_le h.length_le)
  | object h ih => exact lt_succ_of_lt ((Nat.lt_succ_self _).trans ih)
  | item h hv h' ih => exact (h'.length_le.trans_lt ih).trans_le h.length_le
  | items h hv h' hvs ih ih' =>
    exact (ih'.trans (lt_of_succ_le h'.length_le)).trans (ih.trans_le h.length_le)
  | member h hk hc hd hv hf ih =>
    have hk := hk.length_lt hraw
    have := h.length_le
    have := hc.length_le
    have := hd.length_le
    have := hf.length_le
    simp only [length_cons] at *
    omega
  | members h hk hc hd hv hf hms ih ih' =>
    have hk := hk.length_lt hraw
    have := h.length_le
    have := hc.length_le
    have := hd.length_le
    have := hf.length_le
    simp only [length_cons] at *
    omega

/-! ### More white space -/

theorem Spaces.trans (h : Spaces a b) (h' : Spaces b r) : Spaces a r := by
  induction h with
  | none r => exact h'
  | more hb h ih => exact .more hb (ih h')

theorem Spells.after_spaces (h : Spaces a b) (hp : Spells raw p b r) (hnot : ∀ v, p ≠ .value v) :
    Spells raw p a r := by
  cases hp with
  | item h₁ hv h' => exact .item (h.trans h₁) hv h'
  | items h₁ hv h' hvs => exact .items (h.trans h₁) hv h' hvs
  | member h₁ hk hc hd hv hf => exact .member (h.trans h₁) hk hc hd hv hf
  | members h₁ hk hc hd hv hf hms => exact .members (h.trans h₁) hk hc hd hv hf hms
  | _ => exact absurd rfl (hnot _)

/-! ### What may stand for itself -/

theorem Character.mono (hraw : ∀ w, raw w → raw' w) (h : Character raw a w r) : Character raw' a w r := by
  cases h with
  | plain r hlow hhigh hquote hback => exact .plain r hlow hhigh hquote hback
  | raw r hw => exact .raw r (hraw _ hw)
  | escape r h => exact .escape r h
  | unicode h hhigh hlow => exact .unicode h hhigh hlow
  | pair h hhigh h' hlow => exact .pair h hhigh h' hlow

theorem Characters.mono (hraw : ∀ w, raw w → raw' w) (h : Characters raw a s r) :
    Characters raw' a s r := by
  induction h with
  | done r => exact .done r
  | more h hs ih => exact .more (h.mono hraw) ih

/-- **More bytes may stand for themselves, more is spelled.** -/
theorem Spells.mono (hraw : ∀ w, raw w → raw' w) (h : Spells raw p a r) : Spells raw' p a r := by
  induction h with
  | null r => exact .null r
  | true r => exact .true r
  | false r => exact .false r
  | number r h => exact .number r h
  | string h => exact .string (h.mono hraw)
  | emptyArray h => exact .emptyArray h
  | array h ih => exact .array ih
  | emptyObject h => exact .emptyObject h
  | object h ih => exact .object ih
  | item h hv h' ih => exact .item h ih h'
  | items h hv h' hvs ih ih' => exact .items h ih h' ih'
  | member h hk hc hd hv hf ih => exact .member h (hk.mono hraw) hc hd ih hf
  | members h hk hc hd hv hf hms ih ih' => exact .members h (hk.mono hraw) hc hd ih hf ih'

/-! ### Characters and their shapes -/

/-- A character beyond ASCII. -/
def IsCharacter (w : List UInt8) : Prop := ∃ c : Char, 0x80 ≤ c.val.toNat ∧ w = String.utf8EncodeChar c

/-- The shape of one: a lead byte beyond ASCII with its trailing bytes. -/
def IsShape (w : List UInt8) : Prop := Utf8.Sequence w ∧ ∃ b ts, w = b :: ts ∧ 0x80 ≤ b.toNat

theorem IsShape.ne_nil (h : IsShape w) : w ≠ [] := by
  obtain ⟨-, b, ts, rfl, -⟩ := h
  exact cons_ne_nil _ _

theorem encode_high {c : Char} (h : 0x80 ≤ c.val.toNat) :
    ∃ b ts, String.utf8EncodeChar c = b :: ts ∧ 0x80 ≤ b.toNat := by
  rcases Nat.lt_or_ge 0x7ff c.val.toNat with h₁ | h₁
  · rcases Nat.lt_or_ge 0xffff c.val.toNat with h₂ | h₂
    · refine ⟨_, _, Utf8.encode_four h₂, ?_⟩
      rw [Utf8.toNat_ofNat (by omega)]
      omega
    · refine ⟨_, _, Utf8.encode_three h₁ h₂, ?_⟩
      rw [Utf8.toNat_ofNat (by omega)]
      omega
  · refine ⟨_, _, Utf8.encode_two h h₁, ?_⟩
    rw [Utf8.toNat_ofNat (by omega)]
    omega

theorem IsCharacter.shape (h : IsCharacter w) : IsShape w := by
  obtain ⟨c, hc, rfl⟩ := h
  exact ⟨Utf8.sequence_encode c, encode_high hc⟩

theorem IsShape.character (h : IsShape w) (hc : ∃ c, w = String.utf8EncodeChar c) : IsCharacter w := by
  obtain ⟨-, b, ts, rfl, hb⟩ := h
  obtain ⟨c, hc⟩ := hc
  refine ⟨c, ?_, hc⟩
  by_contra hlow
  rw [Utf8.encode_one (by omega)] at hc
  rw [(List.cons.inj hc).1, Utf8.toNat_ofNat (by omega)] at hb
  omega

/-! ### Well-formed texts -/

theorem IsSpace.ascii {b : UInt8} (h : IsSpace b) : b.toNat < 0x80 := by
  rcases h with rfl | rfl | rfl | rfl <;> decide

theorem Spaces.wellFormed_iff (h : Spaces a r) : WellFormed a ↔ WellFormed r := by
  induction h with
  | none r => exact Iff.rfl
  | more hb h ih => exact ⟨fun ha => ih.mp (ha.of_ascii hb.ascii), fun hr => (ih.mpr hr).ascii hb.ascii⟩

theorem wellFormed_append_iff (h : ∀ b ∈ w, b.toNat < 0x80) : WellFormed (w ++ r) ↔ WellFormed r := by
  induction w with
  | nil => exact Iff.rfl
  | cons b w ih =>
    have hb := h b mem_cons_self
    have hw := ih fun c hc => h c (mem_cons_of_mem _ hc)
    exact ⟨fun ha => hw.mp (ha.of_ascii hb), fun hr => (hw.mpr hr).ascii hb⟩

theorem wellFormed_cons_iff {b : UInt8} (hb : b.toNat < 0x80) : WellFormed (b :: r) ↔ WellFormed r :=
  ⟨fun h => h.of_ascii hb, fun h => h.ascii hb⟩

theorem IsDigit.ascii {b : UInt8} (h : IsDigit b) : b.toNat < 0x80 := by
  rw [IsDigit] at h
  omega

theorem IsNumber.ascii {ds : List UInt8} (h : IsNumber ds) : ∀ b ∈ ds, b.toNat < 0x80 := by
  obtain ⟨minus, int, frac, exp, rfl, hminus, hint, hfrac, hexp⟩ := h
  have hdigits : ∀ {es : List UInt8}, (∀ e ∈ es, IsDigit e) → ∀ b ∈ es, b.toNat < 0x80 :=
    fun h b hb => (h b hb).ascii
  simp only [forall_mem_append]
  refine ⟨?_, ?_, ?_, ?_⟩
  · rcases hminus with rfl | rfl
    · simp
    · simp
  · rcases hint with rfl | ⟨d, es, rfl, hd, -, hes⟩
    · simp
    · exact forall_mem_cons.mpr ⟨hd.ascii, hdigits hes⟩
  · rcases hfrac with rfl | ⟨d, es, rfl, hd, hes⟩
    · simp
    · exact forall_mem_cons.mpr ⟨by decide, forall_mem_cons.mpr ⟨hd.ascii, hdigits hes⟩⟩
  · rcases hexp with rfl | ⟨x, sign, d, es, rfl, hx, hsign, hd, hes⟩
    · simp
    · refine forall_mem_cons.mpr ⟨by rcases hx with rfl | rfl <;> decide,
        forall_mem_append.mpr ⟨?_, forall_mem_cons.mpr ⟨hd.ascii, hdigits hes⟩⟩⟩
      rcases hsign with rfl | rfl | rfl <;> simp

theorem hexValue_ascii {b : UInt8} {n : ℕ} (h : hexValue b = some n) : b.toNat < 0x80 := by
  by_contra hb
  rw [hexValue, if_neg (by omega), if_neg (by omega), if_neg (by omega)] at h
  exact nomatch h

theorem Hex4.wellFormed_iff {n : ℕ} (h : Hex4 a n r) : WellFormed a ↔ WellFormed r := by
  cases h with
  | mk r ha hb hc hd =>
    rw [wellFormed_cons_iff (hexValue_ascii ha), wellFormed_cons_iff (hexValue_ascii hb),
      wellFormed_cons_iff (hexValue_ascii hc), wellFormed_cons_iff (hexValue_ascii hd)]

theorem escaped_ascii {b c : UInt8} (h : escaped b = some c) : b.toNat < 0x80 := by
  by_contra hb
  have hne : ∀ d : UInt8, d.toNat < 0x80 → b ≠ d := by
    rintro d hd rfl
    exact hb hd
  rw [escaped, if_neg (hne _ (by decide)), if_neg (hne _ (by decide)), if_neg (hne _ (by decide)),
    if_neg (hne _ (by decide)), if_neg (hne _ (by decide)), if_neg (hne _ (by decide)),
    if_neg (hne _ (by decide)), if_neg (hne _ (by decide))] at h
  exact nomatch h

theorem Character.characters (h : Character IsShape a w r) (ha : WellFormed a) :
    Character IsCharacter a w r ∧ WellFormed r := by
  cases h with
  | plain r hlow hhigh hquote hback => exact ⟨.plain r hlow hhigh hquote hback, ha.of_ascii hhigh⟩
  | raw r hw =>
    obtain ⟨hc, hr⟩ := WellFormed.of_sequence hw.1 ha
    exact ⟨.raw r (hw.character hc), hr⟩
  | escape r h => exact ⟨.escape r h, (ha.of_ascii (by decide)).of_ascii (escaped_ascii h)⟩
  | unicode h hhigh hlow =>
    exact ⟨.unicode h hhigh hlow, h.wellFormed_iff.mp ((ha.of_ascii (by decide)).of_ascii (by decide))⟩
  | pair h hhigh h' hlow =>
    have hb := h.wellFormed_iff.mp ((ha.of_ascii (by decide)).of_ascii (by decide))
    exact ⟨.pair h hhigh h' hlow, h'.wellFormed_iff.mp ((hb.of_ascii (by decide)).of_ascii (by decide))⟩

theorem Character.wellFormed (h : Character IsCharacter a w r) (hr : WellFormed r) : WellFormed a := by
  cases h with
  | plain r hlow hhigh hquote hback => exact hr.ascii hhigh
  | raw r hw =>
    obtain ⟨c, -, rfl⟩ := hw
    exact .cons c hr
  | escape r h => exact (hr.ascii (escaped_ascii h)).ascii (by decide)
  | unicode h hhigh hlow => exact ((h.wellFormed_iff.mpr hr).ascii (by decide)).ascii (by decide)
  | pair h hhigh h' hlow =>
    have hb := ((h'.wellFormed_iff.mpr hr).ascii (by decide : (0x75 : UInt8).toNat < 0x80)).ascii
      (by decide : (0x5C : UInt8).toNat < 0x80)
    exact ((h.wellFormed_iff.mpr hb).ascii (by decide)).ascii (by decide)

theorem Characters.characters (h : Characters IsShape a s r) (ha : WellFormed a) :
    Characters IsCharacter a s r ∧ WellFormed r := by
  induction h with
  | done r => exact ⟨.done r, ha.of_ascii (by decide)⟩
  | more h hs ih =>
    obtain ⟨hc, hb⟩ := h.characters ha
    obtain ⟨hcs, hr⟩ := ih hb
    exact ⟨.more hc hcs, hr⟩

theorem Characters.wellFormed (h : Characters IsCharacter a s r) (hr : WellFormed r) : WellFormed a := by
  induction h with
  | done r => exact hr.ascii (by decide)
  | more h hs ih => exact h.wellFormed (ih hr)

/-- **In well-formed bytes the shapes are characters.** -/
theorem Spells.characters (h : Spells IsShape p a r) (ha : WellFormed a) :
    Spells IsCharacter p a r ∧ WellFormed r := by
  induction h with
  | null r => exact ⟨.null r, (wellFormed_append_iff (w := [_, _, _, _]) (by simp)).mp ha⟩
  | true r => exact ⟨.true r, (wellFormed_append_iff (w := [_, _, _, _]) (by simp)).mp ha⟩
  | false r => exact ⟨.false r, (wellFormed_append_iff (w := [_, _, _, _, _]) (by simp)).mp ha⟩
  | number r h => exact ⟨.number r h, (wellFormed_append_iff h.ascii).mp ha⟩
  | string h =>
    obtain ⟨hc, hr⟩ := h.characters (ha.of_ascii (by decide))
    exact ⟨.string hc, hr⟩
  | emptyArray h =>
    exact ⟨.emptyArray h, (h.wellFormed_iff.mp (ha.of_ascii (by decide))).of_ascii (by decide)⟩
  | array h ih =>
    obtain ⟨hs, hr⟩ := ih (ha.of_ascii (by decide))
    exact ⟨.array hs, hr.of_ascii (by decide)⟩
  | emptyObject h =>
    exact ⟨.emptyObject h, (h.wellFormed_iff.mp (ha.of_ascii (by decide))).of_ascii (by decide)⟩
  | object h ih =>
    obtain ⟨hs, hr⟩ := ih (ha.of_ascii (by decide))
    exact ⟨.object hs, hr.of_ascii (by decide)⟩
  | item h hv h' ih =>
    obtain ⟨hs, hc⟩ := ih (h.wellFormed_iff.mp ha)
    exact ⟨.item h hs h', h'.wellFormed_iff.mp hc⟩
  | items h hv h' hvs ih ih' =>
    obtain ⟨hs, hc⟩ := ih (h.wellFormed_iff.mp ha)
    obtain ⟨hvs, hr⟩ := ih' ((h'.wellFormed_iff.mp hc).of_ascii (by decide))
    exact ⟨.items h hs h' hvs, hr⟩
  | member h hk hc hd hv hf ih =>
    obtain ⟨hk, hwc⟩ := hk.characters ((h.wellFormed_iff.mp ha).of_ascii (by decide))
    obtain ⟨hs, hwf⟩ := ih (hd.wellFormed_iff.mp ((hc.wellFormed_iff.mp hwc).of_ascii (by decide)))
    exact ⟨.member h hk hc hd hs hf, hf.wellFormed_iff.mp hwf⟩
  | members h hk hc hd hv hf hms ih ih' =>
    obtain ⟨hk, hwc⟩ := hk.characters ((h.wellFormed_iff.mp ha).of_ascii (by decide))
    obtain ⟨hs, hwf⟩ := ih (hd.wellFormed_iff.mp ((hc.wellFormed_iff.mp hwc).of_ascii (by decide)))
    obtain ⟨hms, hr⟩ := ih' ((hf.wellFormed_iff.mp hwf).of_ascii (by decide))
    exact ⟨.members h hk hc hd hs hf hms, hr⟩

/-- **With characters the bytes are well-formed.** -/
theorem Spells.wellFormed (h : Spells IsCharacter p a r) (hr : WellFormed r) : WellFormed a := by
  induction h with
  | null r => exact (wellFormed_append_iff (w := [_, _, _, _]) (by simp)).mpr hr
  | true r => exact (wellFormed_append_iff (w := [_, _, _, _]) (by simp)).mpr hr
  | false r => exact (wellFormed_append_iff (w := [_, _, _, _, _]) (by simp)).mpr hr
  | number r h => exact (wellFormed_append_iff h.ascii).mpr hr
  | string h => exact (h.wellFormed hr).ascii (by decide)
  | emptyArray h => exact (h.wellFormed_iff.mpr (hr.ascii (by decide))).ascii (by decide)
  | array h ih => exact (ih (hr.ascii (by decide))).ascii (by decide)
  | emptyObject h => exact (h.wellFormed_iff.mpr (hr.ascii (by decide))).ascii (by decide)
  | object h ih => exact (ih (hr.ascii (by decide))).ascii (by decide)
  | item h hv h' ih => exact h.wellFormed_iff.mpr (ih (h'.wellFormed_iff.mpr hr))
  | items h hv h' hvs ih ih' =>
    exact h.wellFormed_iff.mpr (ih (h'.wellFormed_iff.mpr ((ih' hr).ascii (by decide))))
  | member h hk hc hd hv hf ih =>
    have he := hd.wellFormed_iff.mpr (ih (hf.wellFormed_iff.mpr hr))
    exact h.wellFormed_iff.mpr ((hk.wellFormed (hc.wellFormed_iff.mpr (he.ascii (by decide)))).ascii
      (by decide))
  | members h hk hc hd hv hf hms ih ih' =>
    have he := hd.wellFormed_iff.mpr (ih (hf.wellFormed_iff.mpr ((ih' hr).ascii (by decide))))
    exact h.wellFormed_iff.mpr ((hk.wellFormed (hc.wellFormed_iff.mpr (he.ascii (by decide)))).ascii
      (by decide))

/-- **A text of shapes is one of characters exactly when its bytes are well-formed.** -/
theorem IsText.characters {text : List UInt8} (h : IsText IsShape v text) :
    IsText IsCharacter v text ↔ WellFormed text := by
  constructor
  · rintro ⟨a, r, ha, hv, hr⟩
    exact ha.wellFormed_iff.mpr (hv.wellFormed (hr.wellFormed_iff.mpr .nil))
  · intro hw
    obtain ⟨a, r, ha, hv, hr⟩ := h
    exact ⟨a, r, ha, (hv.characters (ha.wellFormed_iff.mp hw)).1, hr⟩

end

end SourceLibs.JsonGrammar
