import Mathlib.Data.List.Basic
import Mathlib.Algebra.Order.Ring.Nat

/-!
# Support — UTF-8

What is well-formed UTF-8 is a row of encoded characters, a `Char` being a scalar value and
`String.utf8EncodeChar` its encoding.  A decoder sees only shapes: a lead byte says how many trailing bytes
follow.  Every character has the shape, but not everything of that shape is a character.

* `sequence_encode`: a character has the shape of a sequence.
* `Sequence.eq_of_append`: where a sequence ends is read off its lead byte.
* `WellFormed.of_sequence`: so a sequence at the front of well-formed bytes is a character.
-/

namespace SourceLibs.Utf8

/-- Rows of encoded characters. -/
inductive WellFormed : List UInt8 → Prop
  | nil : WellFormed []
  | cons (c : Char) {s : List UInt8} (h : WellFormed s) : WellFormed (String.utf8EncodeChar c ++ s)

/-- How many trailing bytes follow a lead byte. -/
def trailing (b : UInt8) : Option ℕ :=
  if b.toNat < 0x80 then some 0
  else if b.toNat < 0xC0 then none
  else if b.toNat < 0xE0 then some 1
  else if b.toNat < 0xF0 then some 2
  else if b.toNat < 0xF8 then some 3
  else none

/-- `b` is a trailing byte. -/
def IsTrail (b : UInt8) : Prop := 0x80 ≤ b.toNat ∧ b.toNat < 0xC0

/-- A lead byte with the trailing bytes it announces. -/
inductive Sequence : List UInt8 → Prop
  | mk (b : UInt8) (ts : List UInt8) (hlead : trailing b = some ts.length) (htrail : ∀ t ∈ ts, IsTrail t) :
      Sequence (b :: ts)

/-! ### The shape of a character -/

theorem toNat_ofNat {n : ℕ} (h : n < 256) : (UInt8.ofNat n).toNat = n := by
  rw [UInt8.toNat_ofNat']
  exact Nat.mod_eq_of_lt h

theorem isTrail_ofNat (n : ℕ) : IsTrail (UInt8.ofNat (n % 0x40 + 0x80)) := by
  have := Nat.mod_lt n (show 0 < 0x40 by decide)
  rw [IsTrail, toNat_ofNat (by omega)]
  omega

theorem encode_one {c : Char} (h : c.val.toNat ≤ 0x7f) :
    String.utf8EncodeChar c = [UInt8.ofNat c.val.toNat] :=
  if_pos h

theorem encode_two {c : Char} (h : 0x7f < c.val.toNat) (h₁ : c.val.toNat ≤ 0x7ff) :
    String.utf8EncodeChar c =
      [UInt8.ofNat (c.val.toNat / 64 % 0x20 + 0xc0), UInt8.ofNat (c.val.toNat % 0x40 + 0x80)] :=
  (if_neg (by omega)).trans (if_pos h₁)

theorem encode_three {c : Char} (h : 0x7ff < c.val.toNat) (h₁ : c.val.toNat ≤ 0xffff) :
    String.utf8EncodeChar c =
      [UInt8.ofNat (c.val.toNat / 4096 % 0x10 + 0xe0), UInt8.ofNat (c.val.toNat / 64 % 0x40 + 0x80),
        UInt8.ofNat (c.val.toNat % 0x40 + 0x80)] :=
  (if_neg (by omega)).trans ((if_neg (by omega)).trans (if_pos h₁))

theorem encode_four {c : Char} (h : 0xffff < c.val.toNat) :
    String.utf8EncodeChar c =
      [UInt8.ofNat (c.val.toNat / 262144 % 0x08 + 0xf0), UInt8.ofNat (c.val.toNat / 4096 % 0x40 + 0x80),
        UInt8.ofNat (c.val.toNat / 64 % 0x40 + 0x80), UInt8.ofNat (c.val.toNat % 0x40 + 0x80)] :=
  (if_neg (by omega)).trans ((if_neg (by omega)).trans (if_neg (by omega)))

theorem trailing_two (n : ℕ) : trailing (UInt8.ofNat (n % 0x20 + 0xc0)) = some 1 := by
  have := Nat.mod_lt n (show 0 < 0x20 by decide)
  rw [trailing, toNat_ofNat (by omega), if_neg (by omega), if_neg (by omega), if_pos (by omega)]

theorem trailing_three (n : ℕ) : trailing (UInt8.ofNat (n % 0x10 + 0xe0)) = some 2 := by
  have := Nat.mod_lt n (show 0 < 0x10 by decide)
  rw [trailing, toNat_ofNat (by omega), if_neg (by omega), if_neg (by omega), if_neg (by omega),
    if_pos (by omega)]

theorem trailing_four (n : ℕ) : trailing (UInt8.ofNat (n % 0x08 + 0xf0)) = some 3 := by
  have := Nat.mod_lt n (show 0 < 0x08 by decide)
  rw [trailing, toNat_ofNat (by omega), if_neg (by omega), if_neg (by omega), if_neg (by omega),
    if_neg (by omega), if_pos (by omega)]

/-- **A character has the shape of a sequence.** -/
theorem sequence_encode (c : Char) : Sequence (String.utf8EncodeChar c) := by
  have hnil : ∀ t ∈ ([] : List UInt8), IsTrail t := fun _ h => absurd h List.not_mem_nil
  have htrail : ∀ n ts, (∀ t ∈ ts, IsTrail t) → ∀ t ∈ UInt8.ofNat (n % 0x40 + 0x80) :: ts, IsTrail t :=
    fun n ts h => List.forall_mem_cons.mpr ⟨isTrail_ofNat n, h⟩
  rcases Nat.lt_or_ge 0x7f c.val.toNat with h | h
  · rcases Nat.lt_or_ge 0x7ff c.val.toNat with h₁ | h₁
    · rcases Nat.lt_or_ge 0xffff c.val.toNat with h₂ | h₂
      · rw [encode_four h₂]
        exact .mk _ _ (trailing_four _) (htrail _ _ (htrail _ _ (htrail _ _ hnil)))
      · rw [encode_three h₁ h₂]
        exact .mk _ _ (trailing_three _) (htrail _ _ (htrail _ _ hnil))
    · rw [encode_two h h₁]
      exact .mk _ _ (trailing_two _) (htrail _ _ hnil)
  · rw [encode_one h]
    refine .mk _ _ ?_ hnil
    rw [trailing, toNat_ofNat (by omega), if_pos (by omega)]
    rfl

/-- **Where a sequence ends is read off its lead byte.** -/
theorem Sequence.eq_of_append {w w' r r' : List UInt8} (h : Sequence w) (h' : Sequence w')
    (heq : w ++ r = w' ++ r') : w = w' ∧ r = r' := by
  obtain ⟨b, ts, hlead, -⟩ := h
  obtain ⟨b', ts', hlead', -⟩ := h'
  obtain ⟨rfl, htail⟩ := List.cons.inj heq
  have hlen : ts.length = ts'.length := Option.some.inj (hlead.symm.trans hlead')
  obtain ⟨rfl, rfl⟩ := List.append_inj htail hlen
  exact ⟨rfl, rfl⟩

/-! ### Well-formed bytes -/

theorem exists_encode_ascii {b : UInt8} (h : b.toNat < 0x80) : ∃ c, String.utf8EncodeChar c = [b] := by
  have hvalid : b.toNat.isValidChar := .inl (by omega)
  refine ⟨Char.ofNatAux b.toNat hvalid, ?_⟩
  have hval : (Char.ofNatAux b.toNat hvalid).val.toNat = b.toNat := rfl
  rw [encode_one (by omega), hval, UInt8.ofNat_toNat]

/-- **A sequence at the front of well-formed bytes is a character.** -/
theorem WellFormed.of_sequence {w r : List UInt8} (hw : Sequence w) (h : WellFormed (w ++ r)) :
    (∃ c, w = String.utf8EncodeChar c) ∧ WellFormed r := by
  generalize hs : w ++ r = s at h
  cases h with
  | nil =>
    obtain ⟨b, ts, -, -⟩ := hw
    exact nomatch hs
  | cons c h =>
    obtain ⟨hc, hr⟩ := hw.eq_of_append (sequence_encode c) hs
    exact ⟨⟨c, hc⟩, hr ▸ h⟩

theorem WellFormed.ascii {b : UInt8} {s : List UInt8} (hb : b.toNat < 0x80) (h : WellFormed s) :
    WellFormed (b :: s) := by
  obtain ⟨c, hc⟩ := exists_encode_ascii hb
  have := WellFormed.cons c h
  rwa [hc] at this

theorem sequence_ascii {b : UInt8} (hb : b.toNat < 0x80) : Sequence [b] :=
  .mk b [] (if_pos hb) (by simp)

theorem WellFormed.of_ascii {b : UInt8} {s : List UInt8} (hb : b.toNat < 0x80) (h : WellFormed (b :: s)) :
    WellFormed s :=
  (WellFormed.of_sequence (sequence_ascii hb) h).2

end SourceLibs.Utf8
