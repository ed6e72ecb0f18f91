import SourceLibs.PropertyTree.JsonReading

/-!
# Property tree — strings of the parser

The encoding looks at the shape of a sequence only, and feeds the code points of escapes as they are encoded.
The two adapters differ in what they have delivered: `pending` is what the callbacks will have got when the
run ends, and with it both loops read the same characters.

* `feedCodepoint_eq`: the code units of a code point are its encoding.
* `parseString_ensures`, `parseString_reads`: a string is read to its closing quote.
-/

namespace SourceLibs.PropertyTree
open Nat

open Encoding JsonGrammar

/-! ### Bytes -/

theorem forall_byte {P : UInt8 → Prop} (h : ∀ n < 256, P (UInt8.ofNat n)) (b : UInt8) : P b := by
  have := h b.toNat b.toNat_lt
  rwa [UInt8.ofNat_toNat] at this

theorem decodeHexdigit_eq (b : UInt8) :
    decodeHexdigit b = match hexValue b with
      | some n => (n : ℤ)
      | none => -1 := by
  revert b
  exact forall_byte (by decide +kernel)

theorem isTrail_iff (b : UInt8) : isTrail b = true ↔ Utf8.IsTrail b := by
  have heq : ∀ b, isTrail b = decide (0x80 ≤ b.toNat ∧ b.toNat < 0xC0) := forall_byte (by decide +kernel)
  rw [heq, decide_eq_true_eq]
  exact Iff.rfl

theorem trailTable_eq {b : UInt8} (hb : 0x80 ≤ b.toNat) :
    trailTable b = match Utf8.trailing b with
      | some n => (n : ℤ)
      | none => -1 := by
  have heq : ∀ b : UInt8, 0x80 ≤ b.toNat → trailTable b = match Utf8.trailing b with
      | some n => (n : ℤ)
      | none => -1 := forall_byte (by decide +kernel)
  exact heq b hb

/-! ### Code points -/

theorem trail_eq (n : ℕ) : trail n = UInt8.ofNat (n % 0x40 + 0x80) := by
  rw [trail, show (0x3F : ℕ) = 2 ^ 6 - 1 from rfl, and_two_pow_sub_one_eq_mod,
    show (0x80 : ℕ) = 2 ^ 6 * 2 from rfl, ← two_pow_add_eq_or_of_lt (mod_lt _ (by decide)), Nat.add_comm]

theorem val_ofNat {n : ℕ} (h : n.isValidChar) : (Char.ofNat n).val.toNat = n := by
  rw [Char.ofNat, dif_pos h]
  rfl

/-- **The code units of a code point are its encoding.** -/
theorem feedCodepoint_eq {n : ℕ} (h : n.isValidChar) : feedCodepoint n = encode n := by
  have hval := val_ofNat h
  have hlead : ∀ i a b : ℕ, b < 2 ^ i → 2 ^ i * a ||| b = b + 2 ^ i * a := fun i a b hb => by
    rw [← two_pow_add_eq_or_of_lt hb, Nat.add_comm]
  have hshift : ∀ i, n >>> i = n / 2 ^ i := fun i => Nat.shiftRight_eq_div_pow n i
  rw [feedCodepoint, encode]
  simp only [trail_eq, hshift]
  rcases Nat.lt_or_ge 0x7F n with h₁ | h₁
  · rcases Nat.lt_or_ge 0x7FF n with h₂ | h₂
    · rcases Nat.lt_or_ge 0xFFFF n with h₃ | h₃
      · have hn : n < 0x110000 := by
          rcases h with h | h
          · omega
          · exact h.2
        rw [if_neg (by omega), if_neg (by omega), if_neg (by omega), if_pos (by omega),
          Utf8.encode_four (by omega), hval, show (0xF0 : ℕ) = 2 ^ 3 * 30 from rfl, hlead 3 30 _ (by omega),
          mod_eq_of_lt (show n / 262144 < 0x08 by omega)]
        rfl
      · rw [if_neg (by omega), if_neg (by omega), if_pos h₃, Utf8.encode_three (by omega) (by omega), hval,
          show (0xE0 : ℕ) = 2 ^ 4 * 14 from rfl, hlead 4 14 _ (by omega),
          mod_eq_of_lt (show n / 4096 < 0x10 by omega)]
        rfl
    · rw [if_neg (by omega), if_pos h₂, Utf8.encode_two (by omega) (by omega), hval,
        show (0xC0 : ℕ) = 2 ^ 5 * 6 from rfl, hlead 5 6 _ (by omega),
        mod_eq_of_lt (show n / 64 < 0x20 by omega)]
      rfl
  · rw [if_pos h₁, Utf8.encode_one (by omega), hval]

theorem and_high {n : ℕ} (h : n < 0x10000) : n &&& 0xFC00 = n / 0x400 * 0x400 := by
  have hmask : (0xFC00 : ℕ) = (2 ^ 6 - 1) <<< 10 := rfl
  rw [hmask, show (0x400 : ℕ) = 2 ^ 10 from rfl, ← Nat.shiftRight_eq_div_pow, ← Nat.shiftLeft_eq]
  refine eq_of_testBit_eq fun i => ?_
  rw [testBit_and, testBit_shiftLeft, testBit_shiftLeft, testBit_shiftRight,
    testBit_two_pow_sub_one]
  rcases Nat.lt_or_ge i 10 with hi | hi
  · simp [Nat.not_le.mpr hi]
  · rw [Nat.add_sub_cancel' hi]
    rcases Nat.lt_or_ge i 16 with hi' | hi'
    · simp [hi, show i - 10 < 6 by omega]
    · have : n.testBit i = false :=
        testBit_lt_two_pow (h.trans_le (Nat.pow_le_pow_right (show 0 < 2 by decide) hi'))
      simp [this]

theorem isSurrogateHigh_iff {n : ℕ} (h : n < 0x10000) : isSurrogateHigh n = true ↔ IsHigh n := by
  rw [isSurrogateHigh, beq_iff_eq, and_high h, IsHigh]
  omega

theorem isSurrogateLow_iff {n : ℕ} (h : n < 0x10000) : isSurrogateLow n = true ↔ IsLow n := by
  rw [isSurrogateLow, beq_iff_eq, and_high h, IsLow]
  omega

theorem combineSurrogates_eq {hi lo : ℕ} (hhi : IsHigh hi) (hlo : IsLow lo) :
    combineSurrogates hi lo = 0x10000 + (hi - 0xD800) * 0x400 + (lo - 0xDC00) := by
  rw [IsHigh] at hhi
  rw [IsLow] at hlo
  rw [combineSurrogates, show (0x3FF : ℕ) = 2 ^ 10 - 1 from rfl, and_two_pow_sub_one_eq_mod,
    and_two_pow_sub_one_eq_mod, ← shiftLeft_add_eq_or_of_lt (mod_lt lo (show 0 < 2 ^ 10 by decide)),
    Nat.shiftLeft_eq]
  omega

theorem isValidChar_pair {hi lo : ℕ} (hhi : IsHigh hi) (hlo : IsLow lo) :
    (0x10000 + (hi - 0xD800) * 0x400 + (lo - 0xDC00)).isValidChar := by
  rw [IsHigh] at hhi
  rw [IsLow] at hlo
  exact .inr (by omega)

theorem isValidChar_of_not {n : ℕ} (h : n < 0x10000) (hhi : ¬ IsHigh n) (hlo : ¬ IsLow n) :
    n.isValidChar := by
  rw [IsHigh] at hhi
  rw [IsLow] at hlo
  rw [Nat.isValidChar]
  omega

section
variable {σ : Type} {cb : Callbacks σ} {category : Category} {a b r w : Str} {c : σ} {n : ℕ} {msg : String}

/-- Hand `w` on. -/
def deliver (cb : Callbacks σ) (w : Str) (c : σ) : σ := w.foldl (fun c u => cb.onCodeUnit u c) c

theorem deliver_append (w v : Str) (c : σ) : deliver cb (w ++ v) c = deliver cb v (deliver cb w c) :=
  List.foldl_append

theorem reads_feed (h : n.isValidChar) (a : Str) (c : σ) :
    Reads (feed cb n) a c () a (deliver cb (encode n) c) := by
  rw [← feedCodepoint_eq h]
  exact reads_call _ a c

/-! ### Escapes -/

theorem reads_hexDigit {u : UInt8} {x m k : ℕ} (h : hexValue u = some x)
    (hrest : Reads (hexLoop m (k * 16 + x)) r c n b c) :
    Reads (hexLoop (m + 1) k : Parser σ ℕ) (u :: r) c n b c := by
  have hdigit : decodeHexdigit u = x := by rw [decodeHexdigit_eq, h]
  refine reads_needCur.bind ?_
  rw [hdigit, if_neg (by omega), Int.toNat_natCast]
  exact (reads_next u r c).bind hrest

theorem hexLoop_ensures {m k : ℕ} {R : ℕ → Str → σ → Prop}
    (h : ∀ u r x, a = u :: r → hexValue u = some x → Ensures (hexLoop m (k * 16 + x)) r c R) :
    Ensures (hexLoop (m + 1) k) a c R := by
  refine .needCur fun u r ha => ?_
  cases hu : hexValue u with
  | none =>
    rw [decodeHexdigit_eq, hu, if_pos (by decide)]
    exact .parseError _
  | some x =>
    rw [decodeHexdigit_eq, hu]
    rw [if_neg (by simp), Int.toNat_natCast]
    exact .after (reads_next u r c) (h u r x ha hu)

theorem reads_parseHexQuad (h : Hex4 a n r) (c : σ) : Reads parseHexQuad a c n r c := by
  obtain ⟨r, ha, hb, hc, hd⟩ := h
  refine reads_hexDigit ha (reads_hexDigit hb (reads_hexDigit hc (reads_hexDigit hd ?_)))
  rw [Nat.zero_mul, Nat.zero_add]
  exact .pure _ r c

theorem parseHexQuad_ensures (a : Str) (c : σ) :
    Ensures parseHexQuad a c fun n r c' => Hex4 a n r ∧ c' = c := by
  refine hexLoop_ensures fun u₁ r₁ x₁ ha h₁ => hexLoop_ensures fun u₂ r₂ x₂ hr₁ h₂ => ?_
  refine hexLoop_ensures fun u₃ r₃ x₃ hr₂ h₃ => hexLoop_ensures fun u₄ r₄ x₄ hr₃ h₄ => ?_
  subst hr₃ hr₂ hr₁ ha
  rw [Nat.zero_mul, Nat.zero_add]
  exact .pure ⟨.mk r₄ h₁ h₂ h₃ h₄, rfl⟩

theorem parseCodepointRef_ensures (a : Str) (c : σ) :
    Ensures (parseCodepointRef cb) a c fun _ r c' =>
      ∃ w, Character IsShape (0x5C :: 0x75 :: a) w r ∧ c' = deliver cb w c := by
  refine (parseHexQuad_ensures a c).bind fun hi b c₁ hq => ?_
  obtain ⟨hhi, rfl⟩ := hq
  by_cases hlow : isSurrogateLow hi = true
  · rw [if_pos hlow]
    exact .parseError _
  rw [if_neg hlow]
  rw [isSurrogateLow_iff hhi.lt] at hlow
  by_cases hhigh : isSurrogateHigh hi = true
  · rw [if_pos hhigh]
    rw [isSurrogateHigh_iff hhi.lt] at hhigh
    refine .expect fun u₁ r₁ hb h₁ => .expect fun u₂ r₂ hr₁ h₂ => ?_
    rw [isBackslash, beq_iff_eq] at h₁
    rw [isU, beq_iff_eq] at h₂
    subst h₁ h₂ hr₁ hb
    refine (parseHexQuad_ensures r₂ c₁).bind fun lo b₂ c₂ hq => ?_
    obtain ⟨hlo, rfl⟩ := hq
    by_cases hlow' : isSurrogateLow lo = true
    · rw [if_pos hlow']
      rw [isSurrogateLow_iff hlo.lt] at hlow'
      rw [combineSurrogates_eq hhigh hlow']
      exact (reads_feed (isValidChar_pair hhigh hlow') b₂ c₂).ensures ⟨_, .pair hhi hhigh hlo hlow', rfl⟩
    · rw [if_neg hlow']
      exact .parseError _
  · rw [if_neg hhigh]
    rw [isSurrogateHigh_iff hhi.lt] at hhigh
    exact (reads_feed (isValidChar_of_not hhi.lt hhigh hlow) b c₁).ensures ⟨_, .unicode hhi hhigh hlow, rfl⟩

theorem reads_unicode (h : Hex4 a n r) (hhigh : ¬ IsHigh n) (hlow : ¬ IsLow n) (c : σ) :
    Reads (parseCodepointRef cb) a c () r (deliver cb (encode n) c) := by
  refine (reads_parseHexQuad h c).bind ?_
  rw [if_neg (mt (isSurrogateLow_iff h.lt).mp hlow), if_neg (mt (isSurrogateHigh_iff h.lt).mp hhigh)]
  exact reads_feed (isValidChar_of_not h.lt hhigh hlow) r c

theorem reads_pair {hi lo : ℕ} (h : Hex4 a hi (0x5C :: 0x75 :: b)) (hhigh : IsHigh hi) (h' : Hex4 b lo r)
    (hlow : IsLow lo) (c : σ) :
    Reads (parseCodepointRef cb) a c () r
      (deliver cb (encode (0x10000 + (hi - 0xD800) * 0x400 + (lo - 0xDC00))) c) := by
  have hnot : ¬ IsLow hi := fun hlow => by
    rw [IsHigh] at hhigh
    rw [IsLow] at hlow
    omega
  refine (reads_parseHexQuad h c).bind ?_
  rw [if_neg (mt (isSurrogateLow_iff h.lt).mp hnot), if_pos ((isSurrogateHigh_iff h.lt).mpr hhigh)]
  refine .expect rfl (.expect rfl ((reads_parseHexQuad h' c).bind ?_))
  rw [if_pos ((isSurrogateLow_iff h'.lt).mpr hlow), combineSurrogates_eq hhigh hlow]
  exact reads_feed (isValidChar_pair hhigh hlow) r c

theorem reads_feed_byte (u : UInt8) (hu : u.toNat < 0x80) (a : Str) (c : σ) :
    Reads (feed cb u.toNat) a c () a (deliver cb [u] c) := by
  have : feedCodepoint u.toNat = [u] := by
    rw [feedCodepoint, if_pos (by omega), UInt8.ofNat_toNat]
  rw [← this]
  exact reads_call _ a c

theorem parseEscape_ensures (a : Str) (c : σ) :
    Ensures (parseEscape cb) a c fun _ r c' =>
      ∃ w, Character IsShape (0x5C :: a) w r ∧ c' = deliver cb w c := by
  have hbyte : ∀ (e v : UInt8) (p : UInt8 → Bool), (∀ u, p u = true ↔ u = e) → escaped e = some v →
      v.toNat < 0x80 → ∀ u r, a = u :: r → p u = true →
      Ensures (feed cb v.toNat) r c fun _ r c' =>
        ∃ w, Character IsShape (0x5C :: a) w r ∧ c' = deliver cb w c := by
    rintro e v p hp hv hlt u r rfl hu
    rw [(hp u).mp hu]
    exact (reads_feed_byte v hlt r c).ensures ⟨[v], .escape r hv, rfl⟩
  refine .have (hbyte 0x22 0x22 _ (fun _ => beq_iff_eq) rfl (by decide)) fun _ => ?_
  refine .have (hbyte 0x5C 0x5C _ (fun _ => beq_iff_eq) rfl (by decide)) fun _ => ?_
  refine .have (hbyte 0x2F 0x2F _ (fun _ => beq_iff_eq) rfl (by decide)) fun _ => ?_
  refine .have (hbyte 0x62 0x08 _ (fun _ => beq_iff_eq) rfl (by decide)) fun _ => ?_
  refine .have (hbyte 0x66 0x0C _ (fun _ => beq_iff_eq) rfl (by decide)) fun _ => ?_
  refine .have (hbyte 0x6E 0x0A _ (fun _ => beq_iff_eq) rfl (by decide)) fun _ => ?_
  refine .have (hbyte 0x72 0x0D _ (fun _ => beq_iff_eq) rfl (by decide)) fun _ => ?_
  refine .have (hbyte 0x74 0x09 _ (fun _ => beq_iff_eq) rfl (by decide)) fun _ => ?_
  refine .have (fun u r ha hu => ?_) fun _ => .parseError _
  rw [isU, beq_iff_eq] at hu
  subst hu ha
  exact parseCodepointRef_ensures r c

theorem reads_escape {u v : UInt8} (h : escaped u = some v) (r : Str) (c : σ) :
    Reads (parseEscape cb) (u :: r) c () r (deliver cb [v] c) := by
  rw [escaped] at h
  split_ifs at h with h₁ h₂ h₃ h₄ h₅ h₆ h₇ h₈
  all_goals
    obtain rfl := Option.some.inj h
    subst u
  · exact Reads.have rfl (reads_feed_byte 0x22 (by decide) r c)
  · refine Reads.haveNot (stops_cons r rfl) ?_
    exact Reads.have rfl (reads_feed_byte 0x5C (by decide) r c)
  · iterate 2 refine Reads.haveNot (stops_cons r rfl) ?_
    exact Reads.have rfl (reads_feed_byte 0x2F (by decide) r c)
  · iterate 3 refine Reads.haveNot (stops_cons r rfl) ?_
    exact Reads.have rfl (reads_feed_byte 0x08 (by decide) r c)
  · iterate 4 refine Reads.haveNot (stops_cons r rfl) ?_
    exact Reads.have rfl (reads_feed_byte 0x0C (by decide) r c)
  · iterate 5 refine Reads.haveNot (stops_cons r rfl) ?_
    exact Reads.have rfl (reads_feed_byte 0x0A (by decide) r c)
  · iterate 6 refine Reads.haveNot (stops_cons r rfl) ?_
    exact Reads.have rfl (reads_feed_byte 0x0D (by decide) r c)
  · iterate 7 refine Reads.haveNot (stops_cons r rfl) ?_
    exact Reads.have rfl (reads_feed_byte 0x09 (by decide) r c)

theorem reads_codepointRef {c' : σ} (h : Reads (parseCodepointRef cb) a c () r c') :
    Reads (parseEscape cb) (0x75 :: a) c () r c' := by
  iterate 8 refine Reads.haveNot (stops_cons a rfl) ?_
  exact Reads.have rfl h

/-- **An escape is read.** -/
theorem parseEscape_reads (h : Character IsShape (0x5C :: a) w r) (c : σ) :
    Reads (parseEscape cb) a c () r (deliver cb w c) := by
  generalize hs : 0x5C :: a = s at h
  cases h with
  | plain r hlow hhigh hquote hback => exact absurd (List.cons.inj hs).1.symm hback
  | raw r hw =>
    obtain ⟨-, u, ts, rfl, hu⟩ := hw
    rw [← (List.cons.inj hs).1] at hu
    exact absurd hu (by decide)
  | escape r h =>
    rw [(List.cons.inj hs).2]
    exact reads_escape h r c
  | unicode h hhigh hlow =>
    rw [(List.cons.inj hs).2]
    exact reads_codepointRef (reads_unicode h hhigh hlow c)
  | pair h hhigh h' hlow =>
    rw [(List.cons.inj hs).2]
    exact reads_codepointRef (reads_pair h hhigh h' hlow c)

/-! ### Code points in the text -/

/-- The bytes of one code point, as far as the encoding looks at them. -/
def IsUnit (w : Str) : Prop := (∃ u, w = [u] ∧ 0x20 ≤ u.toNat ∧ u.toNat < 0x80) ∨ IsShape w

variable {f : UInt8 → Parser σ Unit} {g : UInt8 → σ → σ}

theorem reads_transcodeTrail (hf : ∀ u a c, Reads (f u) a c () a (g u c)) {ts : Str}
    (hts : ∀ t ∈ ts, Utf8.IsTrail t)
    (r : Str) (c : σ) :
    Reads (transcodeTrail f ts.length) (ts ++ r) c () r (ts.foldl (fun c u => g u c) c) := by
  induction ts generalizing c with
  | nil => exact .pure () r c
  | cons t ts ih =>
    have ht : isTrail t = true := (isTrail_iff t).mpr (hts t List.mem_cons_self)
    refine (reads_rawCur (t :: (ts ++ r)) c).bind ?_
    show Reads (if isTrail t = true then _ else _) _ _ _ _ _
    rw [if_pos ht]
    refine (hf t _ c).bind ((reads_rawNext t _ _).bind ?_)
    exact ih (fun u hu => hts u (List.mem_cons_of_mem _ hu)) (g t c)

theorem transcodeTrail_ensures (hf : ∀ u a c, Reads (f u) a c () a (g u c)) (n : ℕ) (a : Str) (c : σ) :
    Ensures (transcodeTrail f n) a c fun _ r c' => ∃ ts, a = ts ++ r ∧ ts.length = n ∧
      (∀ t ∈ ts, Utf8.IsTrail t) ∧ c' = ts.foldl (fun c u => g u c) c := by
  induction n generalizing a c with
  | zero => exact .pure ⟨[], rfl, rfl, fun _ h => absurd h List.not_mem_nil, rfl⟩
  | succ n ih =>
    refine .after (reads_rawCur a c) ?_
    cases a with
    | nil => exact .parseError _
    | cons t a =>
      show Ensures (if isTrail t = true then _ else _) _ _ _
      by_cases ht : isTrail t = true
      · rw [if_pos ht]
        refine .after (hf t _ c) (.after (reads_rawNext t a _) ((ih a (g t c)).mono fun _ r c' hq => ?_))
        obtain ⟨ts, rfl, rfl, hts, rfl⟩ := hq
        exact ⟨t :: ts, rfl, rfl, List.forall_mem_cons.mpr ⟨(isTrail_iff t).mp ht, hts⟩, rfl⟩
      · rw [if_neg ht]
        exact .parseError _

theorem trailing_lead {u : UInt8} (hu : 0x80 ≤ u.toNat) {m : ℕ} (h : Utf8.trailing u = some m) :
    ¬ u ≤ 0x7F ∧ trailTable u ≠ -1 ∧ (trailTable u).toNat = m := by
  rw [trailTable_eq hu, h, UInt8.le_iff_toNat_le]
  refine ⟨?_, by simp, rfl⟩
  show ¬ u.toNat ≤ 127
  omega

theorem reads_transcodeCodepoint (hf : ∀ u a c, Reads (f u) a c () a (g u c)) (hw : IsUnit w)
    (r : Str) (c : σ) :
    Reads (transcodeCodepoint f) (w ++ r) c () r (w.foldl (fun c u => g u c) c) := by
  rcases hw with ⟨u, rfl, hlow, hhigh⟩ | ⟨⟨u, ts, hlead, hts⟩, v, _, heq, hv⟩
  · refine (reads_rawNext u r c).bind ?_
    have h₁ : u ≤ 0x7F := UInt8.le_iff_toNat_le.mpr (le_of_lt_succ hhigh)
    have h₂ : ¬ u < 0x20 := fun h => absurd (UInt8.lt_iff_toNat_lt.mp h) (Nat.not_lt.mpr hlow)
    rw [if_pos h₁, if_neg h₂]
    exact hf u r c
  · obtain ⟨rfl, -⟩ := List.cons.inj heq
    obtain ⟨h₁, h₂, h₃⟩ := trailing_lead hv hlead
    refine (reads_rawNext u (ts ++ r) c).bind ?_
    rw [if_neg h₁, if_neg h₂, h₃]
    exact (hf u _ c).bind (reads_transcodeTrail hf hts r _)

theorem transcodeCodepoint_ensures (hf : ∀ u a c, Reads (f u) a c () a (g u c)) (u : UInt8)
    (a : Str) (c : σ) :
    Ensures (transcodeCodepoint f) (u :: a) c fun _ r c' =>
      ∃ w, u :: a = w ++ r ∧ IsUnit w ∧ c' = w.foldl (fun c u => g u c) c := by
  refine .after (reads_rawNext u a c) ?_
  by_cases h₁ : u ≤ 0x7F
  · rw [if_pos h₁]
    by_cases h₂ : u < 0x20
    · rw [if_pos h₂]
      exact .parseError _
    · rw [if_neg h₂]
      have hlow : 0x20 ≤ u.toNat := Nat.not_lt.mp fun h => h₂ (UInt8.lt_iff_toNat_lt.mpr h)
      have hhigh : u.toNat < 0x80 := lt_succ_of_le (UInt8.le_iff_toNat_le.mp h₁)
      exact (hf u a c).ensures ⟨[u], rfl, .inl ⟨u, rfl, hlow, hhigh⟩, rfl⟩
  · have hu : 0x80 ≤ u.toNat := Nat.not_le.mp fun h => h₁ (UInt8.le_iff_toNat_le.mpr h)
    rw [if_neg h₁]
    cases hlead : Utf8.trailing u with
    | none =>
      rw [trailTable_eq hu, hlead, if_pos rfl]
      exact .parseError _
    | some m =>
      obtain ⟨-, h₂, h₃⟩ := trailing_lead hu hlead
      rw [if_neg h₂, h₃]
      refine .after (hf u a c) ((transcodeTrail_ensures hf m a _).mono fun _ r c' hq => ?_)
      obtain ⟨ts, rfl, rfl, hts, rfl⟩ := hq
      exact ⟨u :: ts, rfl, .inr ⟨.mk u ts hlead hts, u, ts, rfl, hu⟩, rfl⟩

theorem IsUnit.character {u : UInt8} (h : IsUnit w) (ha : u :: a = w ++ r) (hquote : u ≠ 0x22)
    (hback : u ≠ 0x5C) :
    Character IsShape (u :: a) w r := by
  rcases h with ⟨v, rfl, hlow, hhigh⟩ | h
  · obtain ⟨rfl, rfl⟩ := List.cons.inj ha
    exact .plain _ hlow hhigh hquote hback
  · rw [ha]
    exact .raw r h

/-- A character is an escape, or a unit that begins with neither a quote nor a backslash. -/
theorem character_cases (h : Character IsShape a w r) :
    (∃ b, a = 0x5C :: b) ∨
      ∃ u t, w = u :: t ∧ ¬ isQuote u = true ∧ ¬ isBackslash u = true ∧ IsUnit w ∧ a = w ++ r := by
  cases h with
  | @plain u r hlow hhigh hquote hback =>
    exact .inr ⟨u, [], rfl, mt beq_iff_eq.mp hquote, mt beq_iff_eq.mp hback, .inl ⟨u, rfl, hlow, hhigh⟩, rfl⟩
  | raw r hw =>
    obtain ⟨hseq, u, t, rfl, hu⟩ := hw
    refine .inr ⟨u, t, rfl, fun h => ?_, fun h => ?_, .inr ⟨hseq, u, t, rfl, hu⟩, rfl⟩
    · rw [isQuote, beq_iff_eq] at h
      rw [h] at hu
      exact absurd hu (by decide)
    · rw [isBackslash, beq_iff_eq] at h
      rw [h] at hu
      exact absurd hu (by decide)
  | escape r h => exact .inl ⟨_, rfl⟩
  | unicode h hhigh hlow => exact .inl ⟨_, rfl⟩
  | pair h hhigh h' hlow => exact .inl ⟨_, rfl⟩

/-! ### The adapters -/

/-- What the callbacks will have got when the run ends at `a`. -/
def pending (cb : Callbacks σ) (adapter : StringAdapter) (a : Str) (c : σ) : σ :=
  match adapter with
  | .forward runBegin => deliver cb (range runBegin a) c
  | .input => c

/-- The run began before `a`. -/
def Fits (adapter : StringAdapter) (a : Str) : Prop :=
  match adapter with
  | .forward runBegin => ∃ w, runBegin = w ++ a
  | .input => True

theorem pending_new (cb : Callbacks σ) (category : Category) (a : Str) (c : σ) :
    pending cb (.new category a) a c = c ∧ Fits (.new category a) a := by
  cases category with
  | forward =>
    refine ⟨?_, [], rfl⟩
    show deliver cb (range a a) c = c
    rw [range, Nat.sub_self, List.take_zero]
    rfl
  | input => exact ⟨rfl, trivial⟩

theorem pending_forward {runBegin : Str} (h : Fits (.forward runBegin) (w ++ r)) (c : σ) :
    Fits (.forward runBegin) r ∧
      pending cb (.forward runBegin) r c = deliver cb w (pending cb (.forward runBegin) (w ++ r) c) := by
  obtain ⟨v, rfl⟩ := h
  refine ⟨⟨v ++ w, (List.append_assoc v w r).symm⟩, ?_⟩
  rw [pending, pending, range_append, ← List.append_assoc, range_append, deliver_append]

theorem foldl_const (w : Str) (c : σ) : w.foldl (fun c _ => c) c = c := by
  induction w with
  | nil => rfl
  | cons u w ih => exact ih

theorem processCodepoint_ensures {adapter : StringAdapter} {u : UInt8} (h : Fits adapter (u :: a)) :
    Ensures (adapter.processCodepoint cb) (u :: a) c fun _ r c' => ∃ w, u :: a = w ++ r ∧ IsUnit w ∧
      Fits adapter r ∧ pending cb adapter r c' = deliver cb w (pending cb adapter (u :: a) c) := by
  cases adapter with
  | forward runBegin =>
    refine (transcodeCodepoint_ensures (g := fun _ c => c) (fun _ a c => .pure () a c) u a c).mono
      fun _ r c' hq => ?_
    obtain ⟨w, ha, hw, hc'⟩ := hq
    rw [foldl_const] at hc'
    rw [ha] at h
    rw [ha, hc']
    exact ⟨w, rfl, hw, pending_forward h c⟩
  | input =>
    refine (transcodeCodepoint_ensures (fun u a c => reads_call (cb.onCodeUnit u) a c) u a c).mono
      fun _ r c' hq => ?_
    obtain ⟨w, ha, hw, hc'⟩ := hq
    exact ⟨w, ha, hw, trivial, hc'⟩

theorem reads_processCodepoint (cb : Callbacks σ) {adapter : StringAdapter}
    (h : Fits adapter (w ++ r)) (hw : IsUnit w) (c : σ) :
    ∃ c', Reads (adapter.processCodepoint cb) (w ++ r) c () r c' ∧ Fits adapter r ∧
      pending cb adapter r c' = deliver cb w (pending cb adapter (w ++ r) c) := by
  cases adapter with
  | forward runBegin =>
    have hread := reads_transcodeCodepoint (g := fun _ c => c) (fun _ a c => .pure () a c) hw r c
    rw [foldl_const] at hread
    exact ⟨c, hread, pending_forward h c⟩
  | input => exact ⟨_, reads_transcodeCodepoint
      (fun u a c => reads_call (cb.onCodeUnit u) a c) hw r c, trivial, rfl⟩

/-- `on_code_units` is `on_code_unit` for each. -/
def OneByOne (cb : Callbacks σ) : Prop := ∀ w c, cb.onCodeUnits w c = deliver cb w c

theorem reads_finishRun (hcb : OneByOne cb) (adapter : StringAdapter) (a : Str) (c : σ) :
    Reads (adapter.finishRun cb) a c () a (pending cb adapter a c) := by
  cases adapter with
  | forward runBegin =>
    refine (reads_rawCur a c).bind ?_
    rw [pending, ← hcb]
    exact reads_call _ a c
  | input => exact .pure () a c

theorem reads_startRun (cb : Callbacks σ) (adapter : StringAdapter) (a : Str) (c : σ) :
    ∃ adapter', Reads adapter.startRun a c adapter' a c ∧ Fits adapter' a ∧ pending cb adapter' a c = c := by
  cases adapter with
  | forward runBegin =>
    obtain ⟨hpending, hfits⟩ := pending_new cb .forward a c
    exact ⟨.forward a, (reads_rawCur a c).bind (.pure _ a c), hfits, hpending⟩
  | input => exact ⟨.input, .pure _ a c, trivial, rfl⟩

/-- **The loop ensures the characters up to the quote.** -/
theorem stringLoop_ensures (hcb : OneByOne cb) : ∀ (fuel : ℕ) {a : Str} {c : σ}
    {adapter : StringAdapter}, a.length < fuel →
    Fits adapter a → Ensures (stringLoop cb fuel adapter) a c fun adapter' r c' =>
      ∃ s b, r = 0x22 :: b ∧ Characters IsShape a s b ∧
        pending cb adapter' r c' = deliver cb s (pending cb adapter a c)
  | 0, _, _, _, hfuel, _ => absurd hfuel (Nat.not_lt_zero _)
  | fuel + 1, a, c, adapter, hfuel, hfits => by
    refine .needCur fun u b ha => ?_
    by_cases hquote : isQuote u = true
    · rw [if_pos hquote]
      rw [isQuote, beq_iff_eq] at hquote
      subst hquote ha
      exact .pure ⟨[], b, rfl, .done b, rfl⟩
    rw [if_neg hquote]
    rw [isQuote, beq_iff_eq] at hquote
    by_cases hback : isBackslash u = true
    · rw [if_pos hback]
      rw [isBackslash, beq_iff_eq] at hback
      subst hback ha
      refine .after (reads_finishRun hcb adapter _ c) (.after (reads_next _ b _) ?_)
      refine (parseEscape_ensures b _).bind fun _ r c₁ hq => ?_
      obtain ⟨w, hw, rfl⟩ := hq
      obtain ⟨adapter', hstart, hfits', hpending⟩ := reads_startRun cb adapter r
        (deliver cb w (pending cb adapter (0x5C :: b) c))
      have hlt := hw.length_lt fun _ h => h.ne_nil
      refine .after hstart ((stringLoop_ensures hcb fuel (by omega) hfits').mono fun adapter'' r' c' hq => ?_)
      obtain ⟨s, b', rfl, hs, hpending'⟩ := hq
      exact ⟨w ++ s, b', rfl, .more hw hs, by rw [hpending', hpending, deliver_append]⟩
    · rw [if_neg hback]
      rw [isBackslash, beq_iff_eq] at hback
      subst ha
      refine (processCodepoint_ensures hfits).bind fun _ r c₁ hq => ?_
      obtain ⟨w, ha, hw, hfits', hpending⟩ := hq
      have hchar := hw.character ha hquote hback
      have hlt := hchar.length_lt fun _ h => h.ne_nil
      refine (stringLoop_ensures hcb fuel (by omega) hfits').mono fun adapter'' r' c' hq => ?_
      obtain ⟨s, b', rfl, hs, hpending'⟩ := hq
      exact ⟨w ++ s, b', rfl, .more hchar hs, by rw [hpending', hpending, deliver_append]⟩

theorem stringLoop_reads (hcb : OneByOne cb) {s : Str} (h : Characters IsShape a s r) :
    ∀ (fuel : ℕ) (c : σ) {adapter : StringAdapter}, a.length < fuel → Fits adapter a →
      ∃ adapter' c', Reads (stringLoop cb fuel adapter) a c adapter' (0x22 :: r) c' ∧
        pending cb adapter' (0x22 :: r) c' = deliver cb s (pending cb adapter a c) := by
  induction h with
  | done r =>
    intro fuel c adapter hfuel _
    obtain ⟨fuel, rfl⟩ : ∃ m, fuel = m + 1 := ⟨fuel - 1, by omega⟩
    exact ⟨adapter, c, reads_needCur.bind (.pure adapter _ c), rfl⟩
  | @more a b r w s h hs ih =>
    intro fuel c adapter hfuel hfits
    obtain ⟨fuel, rfl⟩ : ∃ m, fuel = m + 1 := ⟨fuel - 1, by omega⟩
    have hlt := h.length_lt fun _ h => h.ne_nil
    rcases character_cases h with ⟨a, rfl⟩ | ⟨u, t, rfl, hquote, hback, hw, rfl⟩
    · obtain ⟨adapter', hstart, hfits', hpending⟩ := reads_startRun cb adapter b
        (deliver cb w (pending cb adapter (0x5C :: a) c))
      obtain ⟨adapter'', c', hread, hpending'⟩ := ih fuel (deliver cb w (pending cb adapter (0x5C :: a) c))
        (by omega) hfits'
      refine ⟨adapter'', c', reads_needCur.bind ?_, by rw [hpending', hpending, deliver_append]⟩
      rw [if_neg (by decide), if_pos (by decide)]
      refine (reads_finishRun hcb adapter _ c).bind ((reads_next _ a _).bind ?_)
      exact (parseEscape_reads h _).bind (hstart.bind hread)
    · obtain ⟨c₁, hprocess, hfits', hpending⟩ := reads_processCodepoint cb hfits hw c
      obtain ⟨adapter', c', hread, hpending'⟩ := ih fuel c₁ (by omega) hfits'
      refine ⟨adapter', c', reads_needCur.bind ?_, by rw [hpending', hpending, deliver_append]⟩
      rw [if_neg hquote, if_neg hback]
      exact hprocess.bind hread

/-! ### Strings -/

/-- The calls for a string. -/
def runString (cb : Callbacks σ) (s : Str) (c : σ) : σ := cb.onEndString (deliver cb s (cb.onBeginString c))

/-- **A string is read, or nothing.** -/
theorem parseString_ensures (hcb : OneByOne cb) (a : Str) (c : σ) :
    Ensures (parseString cb category) a c
      (Tries (fun b r c c' => ∃ s t, b = 0x22 :: t ∧ Characters IsShape t s r ∧
        c' = runString cb s c) a c) := by
  refine .skipWs fun b hspaces hb => .have (fun u t ha hu => ?_) fun _ => .pure (.inr ⟨rfl, hspaces, hb, rfl⟩)
  rw [isQuote, beq_iff_eq] at hu
  subst hu ha
  obtain ⟨hpending, hfits⟩ := pending_new cb category t (cb.onBeginString c)
  refine .after (reads_call _ t c) (.after (reads_rawCur t _) ?_)
  refine (stringLoop_ensures hcb _ (Nat.lt_succ_self _) hfits).bind fun adapter r c₁ hq => ?_
  obtain ⟨s, r, rfl, hs, hpending'⟩ := hq
  refine .after (reads_finishRun hcb adapter _ c₁) (.after (reads_call _ _ _) (.after (reads_next _ r _) ?_))
  exact .pure (.inl ⟨rfl, 0x22 :: t, hspaces, s, t, rfl, hs, by rw [hpending', hpending, runString]⟩)

theorem parseString_reads (hcb : OneByOne cb) {s : Str} (hs : Spaces a (0x22 :: b))
    (h : Characters IsShape b s r)
    (c : σ) : Reads (parseString cb category) a c true r (runString cb s c) := by
  obtain ⟨hpending, hfits⟩ := pending_new cb category b (cb.onBeginString c)
  obtain ⟨adapter, c', hread, hpending'⟩ :=
    stringLoop_reads hcb h (b.length + 1) (cb.onBeginString c) (Nat.lt_succ_self _) hfits
  refine .skipWs hs (stops_cons b rfl) (.have rfl ?_)
  refine (reads_call _ b c).bind ((reads_rawCur b _).bind (hread.bind ?_))
  rw [runString, ← hpending, ← hpending']
  exact (reads_finishRun hcb adapter _ c').bind
    ((reads_call _ _ _).bind ((reads_next _ r _).bind (.pure true r _)))

end

end SourceLibs.PropertyTree
