import SourceLibs.Redis.IntegerText

/-!
# Redis — strings in an RDB file

`rdbSaveRawString` writes a string as an integer, compressed or as it is, behind a length or a tag in
the same bits, and `rdbGenericLoadStringObject` reads it.  The file is the list of its bytes, writes
succeed, and a read fails past its end.  What a writer returns is a number: the `int` of `rdbWriteRaw`
wraps around.

* `exists_saveLen`: a length, written and read.
* `encodeInteger_reads`, `saveLzf_reads`, `saveVerbatim_reads`: the three forms.
* `saveRawString_returns`: what is returned where the `int` wraps around.
* `rdbStrings_exact_iff`: the strings that are written and read back.
-/

namespace SourceLibs.Rdb
open List Nat Decimal IntegerText Memory

/-! ### Writing -/

/-- `lzf_compress`, which reports 0 by no bytes, and `lzf_decompress`, with the size of the result. -/
structure Lzf where
  compress : List UInt8 → ℕ → List UInt8
  decompress : List UInt8 → ℕ → Option (List UInt8)

/-- `rdbWriteRaw`; the length is returned as an `int`. -/
def rdbWriteRaw (rdb p : List UInt8) : List UInt8 × ℤ := (rdb ++ p, (p.length : ℤ).bmod (2 ^ 32))

/-- What is done after a write that did not return -1. -/
def onWritten (r : List UInt8 × ℤ) (next : List UInt8 → ℤ → List UInt8 × ℤ) : List UInt8 × ℤ :=
  if r.2 = -1 then (r.1, -1) else next r.1 r.2

/-- `rdbSaveLen`; the length is a `uint32_t`. -/
def rdbSaveLen (rdb : List UInt8) (len : ℕ) : List UInt8 × ℤ :=
  let len := len % 2 ^ 32
  if len < 2 ^ 6 then
    onWritten (rdbWriteRaw rdb [.ofNat ((len &&& 0xFF) ||| 0 <<< 6)]) fun rdb _ => (rdb, 1)
  else if len < 2 ^ 14 then
    onWritten (rdbWriteRaw rdb [.ofNat ((len >>> 8 &&& 0xFF) ||| 1 <<< 6), .ofNat (len &&& 0xFF)])
      fun rdb _ => (rdb, 2)
  else
    onWritten (rdbWriteRaw rdb [.ofNat (2 <<< 6)]) fun rdb _ =>
      onWritten (rdbWriteRaw rdb (bytesOfInt 4 len).reverse) fun rdb _ => (rdb, 1 + 4)

/-- The tag of an encoding. -/
def encByte (enc : ℕ) : UInt8 := .ofNat (3 <<< 6 ||| enc)

/-- `rdbEncodeInteger`; nothing where it returns 0. -/
def rdbEncodeInteger (value : ℤ) : List UInt8 :=
  if -2 ^ 7 ≤ value ∧ value ≤ 2 ^ 7 - 1 then encByte 0 :: bytesOfInt 1 value
  else if -2 ^ 15 ≤ value ∧ value ≤ 2 ^ 15 - 1 then encByte 1 :: bytesOfInt 2 value
  else if -2 ^ 31 ≤ value ∧ value ≤ 2 ^ 31 - 1 then encByte 2 :: bytesOfInt 4 value
  else []

/-- The sign of a number and what follows it. -/
def signed : List UInt8 → Bool × List UInt8
  | 45 :: p => (true, p)
  | 43 :: p => (false, p)
  | p => (false, p)

/-- `strtoll(s, &endptr, 10)`: the number, in range, and what `endptr` points to. -/
def strtoll (s : List UInt8) : ℤ × List UInt8 :=
  let p := s.dropWhile fun c => c = 32 ∨ 9 ≤ c ∧ c ≤ 13
  let (negative, p) := signed p
  let digits := p.takeWhile fun c => 48 ≤ c ∧ c ≤ 57
  if digits = [] then (0, s)
  else
    let value : ℤ := valueFrom 0 digits
    (max (-2 ^ 63) (min (2 ^ 63 - 1) (if negative then -value else value)), p.drop digits.length)

/-- `rdbTryIntegerEncoding` of a string with `after` behind it in memory. -/
def rdbTryIntegerEncoding (s after : List UInt8) : List UInt8 :=
  let (value, endptr) := strtoll (s ++ after)
  if endptr.headD 0 ≠ 0 then []
  else
    match ll2string (List.replicate 32 0) value with
    | none => []
    | some (_, buf) =>
      if (buf.takeWhile (· ≠ 0)).length ≠ s.length ∨ buf.take s.length ≠ s then []
      else rdbEncodeInteger value

def rdbSaveLzfBlob (rdb data : List UInt8) (originalLen : ℕ) : List UInt8 × ℤ :=
  onWritten (rdbWriteRaw rdb [encByte 3]) fun rdb n₁ =>
    onWritten (rdbSaveLen rdb data.length) fun rdb n₂ =>
      onWritten (rdbSaveLen rdb originalLen) fun rdb n₃ =>
        onWritten (rdbWriteRaw rdb data) fun rdb n₄ => (rdb, n₁ + n₂ + n₃ + n₄)

/-- `rdbSaveLzfStringObject`; 0 if it does not pay. -/
def rdbSaveLzfStringObject (lzf : Lzf) (rdb s : List UInt8) : List UInt8 × ℤ :=
  if s.length ≤ 4 then (rdb, 0)
  else
    let out := lzf.compress s (s.length - 4)
    if out.length = 0 then (rdb, 0) else rdbSaveLzfBlob rdb out s.length

/-- The end of `rdbSaveRawString`: the string is stored verbatim. -/
def saveVerbatim (rdb s : List UInt8) : List UInt8 × ℤ :=
  onWritten (rdbSaveLen rdb s.length) fun rdb n =>
    if s.length > 0 then onWritten (rdbWriteRaw rdb s) fun rdb _ => (rdb, n + s.length) else (rdb, n)

/-- `rdbSaveRawString` of a string with `after` behind it in memory. -/
def rdbSaveRawString (lzf : Lzf) (compression : Bool) (rdb s after : List UInt8) : List UInt8 × ℤ :=
  let enc := if s.length ≤ 11 then rdbTryIntegerEncoding s after else []
  if enc.length > 0 then onWritten (rdbWriteRaw rdb enc) fun rdb _ => (rdb, enc.length)
  else if compression ∧ s.length > 20 then
    onWritten (rdbSaveLzfStringObject lzf rdb s) fun rdb n =>
      if n > 0 then (rdb, n) else saveVerbatim rdb s
  else saveVerbatim rdb s

def rdbSaveLongLongAsStringObject (rdb : List UInt8) (value : ℤ) : List UInt8 × ℤ :=
  let enc := rdbEncodeInteger value
  if enc.length > 0 then rdbWriteRaw rdb enc
  else
    let buf := (ll2string (List.replicate 32 0) value).elim [] fun r => r.2.take r.1
    onWritten (rdbSaveLen rdb buf.length) fun rdb n₁ =>
      onWritten (rdbWriteRaw rdb buf) fun rdb n₂ => (rdb, n₁ + n₂)

/-! ### Reading -/

/-- What is loaded: a buffer, a string object with its bytes, or one with an integer. -/
inductive Loaded where
  | plain (buf : List UInt8)
  | string (ptr : List UInt8)
  | int (value : ℤ)

/-- The string that is loaded. -/
def Loaded.bytes : Loaded → List UInt8
  | .plain buf => buf
  | .string ptr => ptr
  | .int value => text value

/-- A loader returns `NULL`, or reports a corrupt file and exits. -/
inductive LoadError where
  | null
  | corrupt

def rioRead (rdb : List UInt8) (n : ℕ) : Option (List UInt8 × List UInt8) :=
  if n ≤ rdb.length then some (rdb.take n, rdb.drop n) else none

/-- What a length that cannot be read is. -/
def rdbLenErr : ℕ := 2 ^ 32 - 1

/-- `rdbLoadLen`: the length, whether it is an encoding, and what is left. -/
def rdbLoadLen (rdb : List UInt8) : ℕ × Bool × List UInt8 :=
  match rioRead rdb 1 with
  | none => (rdbLenErr, false, rdb)
  | some (buf, rdb) =>
    let b := buf.headD 0
    let type := (b &&& 0xC0) >>> 6
    if type = 3 then ((b &&& 0x3F).toNat, true, rdb)
    else if type = 0 then ((b &&& 0x3F).toNat, false, rdb)
    else if type = 1 then
      match rioRead rdb 1 with
      | none => (rdbLenErr, false, rdb)
      | some (buf, rdb) => ((b &&& 0x3F).toNat <<< 8 ||| (buf.headD 0).toNat, false, rdb)
    -- The type is of two bits, so that this is 2, and none is unknown.
    else
      match rioRead rdb 4 with
      | none => (rdbLenErr, false, rdb)
      | some (buf, rdb) => (natOfBytes buf.reverse, false, rdb)

/-- The loop of `sdsll2str`, which writes the digits from the last one on. -/
def digitsReversed (v : ℕ) : List UInt8 :=
  if v < 10 then [.ofNat (48 + v % 10)] else .ofNat (48 + v % 10) :: digitsReversed (v / 10)
termination_by v
decreasing_by omega

def sdsfromlonglong (value : ℤ) : List UInt8 :=
  (digitsReversed value.natAbs ++ if value < 0 then [45] else []).reverse

/-- The end of `rdbLoadIntegerObject`. -/
def loadedInteger (plain encode : Bool) (value : ℤ) : Loaded :=
  if plain then .plain ((ll2string (List.replicate 21 0) value).elim [] fun r => r.2.take r.1)
  else if encode then .int value
  else .string (sdsfromlonglong value)

def rdbLoadIntegerObject (plain encode : Bool) (enctype : ℕ) (rdb : List UInt8) :
    Except LoadError (Loaded × List UInt8) :=
  let load n := match rioRead rdb n with
    | none => .error .null
    | some (enc, rdb) => .ok (loadedInteger plain encode (intOfBytes enc), rdb)
  if enctype = 0 then load 1
  else if enctype = 1 then load 2
  else if enctype = 2 then load 4
  else .error .corrupt

def rdbLoadLzfStringObject (lzf : Lzf) (plain : Bool) (rdb : List UInt8) :
    Except LoadError (Loaded × List UInt8) :=
  let (clen, _, rdb) := rdbLoadLen rdb
  if clen = rdbLenErr then .error .null
  else
    let (len, _, rdb) := rdbLoadLen rdb
    if len = rdbLenErr then .error .null
    else
      match rioRead rdb clen with
      | none => .error .null
      | some (c, rdb) =>
        match lzf.decompress c len with
        | none => .error .null
        | some val => .ok (if plain then .plain val else .string val, rdb)

def rdbGenericLoadStringObject (lzf : Lzf) (plain encode : Bool) (rdb : List UInt8) :
    Except LoadError (Loaded × List UInt8) :=
  let (len, isencoded, rdb) := rdbLoadLen rdb
  if isencoded then
    if len = 0 ∨ len = 1 ∨ len = 2 then rdbLoadIntegerObject plain encode len rdb
    else if len = 3 then rdbLoadLzfStringObject lzf plain rdb
    else .error .corrupt
  else if len = rdbLenErr then .error .null
  else if len = 0 then .ok (if plain then .plain [] else .string [], rdb)
  else
    match rioRead rdb len with
    | none => .error .null
    | some (buf, rdb) => .ok (if plain then .plain buf else .string buf, rdb)

/-! ### What is written and read -/

section Forms
variable {lzf : Lzf} {rdb w s p : List UInt8} {v : ℤ} {len : ℕ}

/-- The bytes `w` are read as the string `s`, whatever stands behind them. -/
def Reads (lzf : Lzf) (w s : List UInt8) : Prop :=
  ∀ (plain encode : Bool) (rest : List UInt8), ∃ o,
    rdbGenericLoadStringObject lzf plain encode (w ++ rest) = .ok (o, rest) ∧ o.bytes = s

/-- **A writer is exact**: what it wrote is read as the string, and it returned how much it wrote. -/
def Exact (lzf : Lzf) (rdb : List UInt8) (r : List UInt8 × ℤ) (s : List UInt8) : Prop :=
  ∃ w, r = (rdb ++ w, (w.length : ℤ)) ∧ Reads lzf w s

theorem rioRead_append (w rest : List UInt8) : rioRead (w ++ rest) w.length = some (w, rest) := by
  rw [rioRead, if_pos (by rw [length_append]; omega), take_left, drop_left]

theorem rioRead_cons (c : UInt8) (rest : List UInt8) : rioRead (c :: rest) 1 = some ([c], rest) :=
  rioRead_append [c] rest

theorem bmod_of_lt (h : len < 2 ^ 31) : (len : ℤ).bmod (2 ^ 32) = len :=
  Int.bmod_eq_of_le_mul_two (by omega) (by omega)

theorem onWritten_writeRaw (h : p.length < 2 ^ 31) (next : List UInt8 → ℤ → List UInt8 × ℤ) :
    onWritten (rdbWriteRaw rdb p) next = next (rdb ++ p) p.length := by
  rw [rdbWriteRaw, bmod_of_lt h]
  exact if_neg (by omega)

/-- **A length** is written in one byte, two or five, and read. -/
theorem exists_saveLen (h : len < 2 ^ 32) : ∃ w : List UInt8,
    (∀ rdb, rdbSaveLen rdb len = (rdb ++ w, (w.length : ℤ))) ∧ (2 ^ 14 ≤ len → w.length = 5) ∧
      ∀ rest, rdbLoadLen (w ++ rest) = (len, false, rest) := by
  have hsix : ∀ n < 2 ^ 6, ((UInt8.ofNat ((n &&& 0xFF) ||| 0 <<< 6)) &&& 0xC0) >>> 6 = 0 ∧
      (UInt8.ofNat ((n &&& 0xFF) ||| 0 <<< 6) &&& 0x3F).toNat = n := by decide
  have hfourteen : ∀ n < 2 ^ 6, ((UInt8.ofNat ((n &&& 0xFF) ||| 1 <<< 6)) &&& 0xC0) >>> 6 = 1 ∧
      (UInt8.ofNat ((n &&& 0xFF) ||| 1 <<< 6) &&& 0x3F).toNat = n := by decide
  by_cases h₆ : len < 2 ^ 6
  · refine ⟨[.ofNat ((len &&& 0xFF) ||| 0 <<< 6)], fun rdb => ?_, fun hle => by omega, fun rest => ?_⟩
    · rw [rdbSaveLen, mod_eq_of_lt h, if_pos h₆,
        onWritten_writeRaw (by simp)]
      rfl
    · rw [singleton_append, rdbLoadLen, rioRead_cons]
      dsimp only
      rw [headD_cons, (hsix len h₆).1, (hsix len h₆).2, if_neg (by decide), if_pos rfl]
  by_cases h₁₄ : len < 2 ^ 14
  · refine ⟨[.ofNat ((len >>> 8 &&& 0xFF) ||| 1 <<< 6), .ofNat (len &&& 0xFF)], fun rdb => ?_,
      fun hle => by omega, fun rest => ?_⟩
    · rw [rdbSaveLen, mod_eq_of_lt h, if_neg h₆, if_pos h₁₄,
        onWritten_writeRaw (by simp)]
      rfl
    · have hhigh : len >>> 8 < 2 ^ 6 := by rw [Nat.shiftRight_eq_div_pow]; omega
      have hlow : (UInt8.ofNat (len &&& 0xFF)).toNat = len % 2 ^ 8 := by
        rw [UInt8.toNat_ofNat', show 0xFF = 2 ^ 8 - 1 from rfl, and_two_pow_sub_one_eq_mod,
          mod_mod]
      have hvalue : len >>> 8 <<< 8 ||| len % 2 ^ 8 = len := by
        rw [← shiftLeft_add_eq_or_of_lt (mod_lt _ (by decide)), Nat.shiftRight_eq_div_pow,
          Nat.shiftLeft_eq, Nat.mul_comm, div_add_mod]
      rw [List.cons_append, singleton_append, rdbLoadLen, rioRead_cons]
      dsimp only
      rw [headD_cons, (hfourteen _ hhigh).1, (hfourteen _ hhigh).2, if_neg (by decide),
        if_neg (by decide), if_pos rfl, rioRead_cons]
      dsimp only
      rw [headD_cons, hlow, hvalue]
  · have hlen : (bytesOfInt 4 (len : ℤ)).reverse.length = 4 := by
      rw [length_reverse, length_bytesOfInt]
    refine ⟨.ofNat (2 <<< 6) :: (bytesOfInt 4 (len : ℤ)).reverse, fun rdb => ?_, fun _ => ?_,
      fun rest => ?_⟩
    · rw [rdbSaveLen, mod_eq_of_lt h, if_neg h₆, if_neg h₁₄,
        onWritten_writeRaw (by simp), onWritten_writeRaw (by rw [hlen]; decide), List.append_assoc,
          length_cons, hlen]
      rfl
    · rw [length_cons, hlen]
    · have hrest := rioRead_append (bytesOfInt 4 (len : ℤ)).reverse rest
      rw [hlen] at hrest
      rw [List.cons_append, rdbLoadLen, rioRead_cons]
      dsimp only
      rw [if_neg (by decide), if_neg (by decide), if_neg (by decide), hrest]
      dsimp only
      rw [reverse_reverse, natOfBytes_bytesOfNat h]

theorem loadLen_encByte {enc : ℕ} (h : enc < 4) (rest : List UInt8) :
    rdbLoadLen (encByte enc :: rest) = (enc, true, rest) := by
  have htag : ∀ enc < 4, (encByte enc &&& 0xC0) >>> 6 = 3 ∧ (encByte enc &&& 0x3F).toNat = enc := by
    decide
  rw [rdbLoadLen, rioRead_cons]
  dsimp only
  rw [headD_cons, (htag enc h).1, (htag enc h).2, if_pos rfl]

/-! ### Integers -/

theorem sdigits10_le (hlo : -2 ^ 63 ≤ v) (hhi : v < 2 ^ 63) : sdigits10 v ≤ 20 := by
  have hshort : (decimal v.natAbs).length ≤ 19 := (length_decimal_le_iff (by omega)).mpr (by omega)
  rw [← length_text, text]
  split
  · exact succ_le_succ hshort
  · omega

theorem ll2string_replicate {k : ℕ} (hlo : -2 ^ 63 ≤ v) (hhi : v < 2 ^ 63) (hk : 20 < k) :
    ll2string (List.replicate k 0) v =
      some ((text v).length, text v ++ List.replicate (k - (text v).length) 0) := by
  have hle := sdigits10_le hlo hhi
  rw [ll2string_spec hlo hhi (by rw [length_replicate]; omega), ← length_text]
  rw [← length_text] at hle
  have hdrop : List.replicate (k - (text v).length) (0 : UInt8) =
      0 :: List.replicate (k - ((text v).length + 1)) 0 := by
    rw [← List.replicate_succ]
    congr 1
    omega
  rw [hdrop, overwrite, take_zero, nil_append, Nat.zero_add, length_append,
    length_singleton, drop_replicate, List.append_assoc, singleton_append]

theorem sdsfromlonglong_eq (v : ℤ) : sdsfromlonglong v = text v := by
  have hdigits : ∀ n, (digitsReversed n).reverse = decimal n := by
    intro n
    induction n using digitsReversed.induct with
    | case1 n h =>
      rw [digitsReversed, if_pos h, decimal_of_lt h, mod_eq_of_lt h]
      rfl
    | case2 n h ih =>
      rw [digitsReversed, if_neg h, reverse_cons, ih, decimal_of_le (Nat.le_of_not_lt h)]
      rfl
  rw [sdsfromlonglong, text, List.reverse_append, hdigits]
  split <;> rfl

theorem bytes_loadedInteger (plain encode : Bool) (hlo : -2 ^ 63 ≤ v) (hhi : v < 2 ^ 63) :
    (loadedInteger plain encode v).bytes = text v := by
  rw [loadedInteger]
  split
  · rw [ll2string_replicate hlo hhi (by decide)]
    exact take_left
  · split
    · rfl
    · exact sdsfromlonglong_eq v

/-- **An integer** is read as its text. -/
theorem encodeInteger_reads (h : rdbEncodeInteger v ≠ []) :
    Reads lzf (rdbEncodeInteger v) (text v) := by
  -- Each of the three forms is a tag and a number of bytes in which the value fits.
  obtain ⟨enc, k, henc, hform, hk, hlo, hhi, hload⟩ : ∃ enc k, enc < 3 ∧
      rdbEncodeInteger v = encByte enc :: bytesOfInt k v ∧ 0 < k ∧ -(2 ^ (8 * k - 1)) ≤ v ∧
      v < 2 ^ (8 * k - 1) ∧ ∀ plain encode rdb, rdbLoadIntegerObject plain encode enc rdb =
        match rioRead rdb k with
        | none => .error .null
        | some (enc, rdb) => .ok (loadedInteger plain encode (intOfBytes enc), rdb) := by
    rw [rdbEncodeInteger] at h ⊢
    split_ifs at h ⊢ with h₈ h₁₆ h₃₂
    · exact ⟨0, 1, by decide, rfl, by decide, h₈.1, by omega, fun _ _ _ => rfl⟩
    · exact ⟨1, 2, by decide, rfl, by decide, h₁₆.1, by omega, fun _ _ _ => rfl⟩
    · exact ⟨2, 4, by decide, rfl, by decide, h₃₂.1, by omega, fun _ _ _ => rfl⟩
    · exact absurd rfl h
  intro plain encode rest
  have hread := rioRead_append (bytesOfInt k v) rest
  rw [length_bytesOfInt] at hread
  have hcases : enc = 0 ∨ enc = 1 ∨ enc = 2 := by omega
  refine ⟨loadedInteger plain encode v, ?_, bytes_loadedInteger plain encode ?_ ?_⟩
  · rw [hform, List.cons_append, rdbGenericLoadStringObject, loadLen_encByte (by omega)]
    dsimp only
    rw [if_pos rfl, if_pos hcases, hload, hread]
    dsimp only
    rw [intOfBytes_bytesOfInt hk hlo hhi]
  · rw [rdbEncodeInteger] at h
    split_ifs at h <;> first | omega | exact absurd rfl h
  · rw [rdbEncodeInteger] at h
    split_ifs at h <;> first | omega | exact absurd rfl h

theorem strtoll_range (s : List UInt8) : -2 ^ 63 ≤ (strtoll s).1 ∧ (strtoll s).1 < 2 ^ 63 := by
  rw [strtoll]
  dsimp only
  split
  · exact ⟨(by decide : (-2 : ℤ) ^ 63 ≤ 0), (by decide : (0 : ℤ) < 2 ^ 63)⟩
  · dsimp only
    omega

theorem tryIntegerEncoding_spec {after : List UInt8} (h : rdbTryIntegerEncoding s after ≠ []) :
    ∃ v, rdbTryIntegerEncoding s after = rdbEncodeInteger v ∧ s = text v := by
  obtain ⟨hlo, hhi⟩ := strtoll_range (s ++ after)
  rw [rdbTryIntegerEncoding] at h ⊢
  generalize strtoll (s ++ after) = r at *
  dsimp only at h ⊢
  split at h
  · exact absurd rfl h
  · next hend =>
      rw [if_neg hend]
      rw [ll2string_replicate hlo hhi (by decide)] at h ⊢
      dsimp only at h ⊢
      split at h
      · exact absurd rfl h
      · next hsame =>
          rw [if_neg hsame]
          push Not at hsame
          obtain ⟨hlen, htake⟩ := hsame
          have hnonzero : ∀ c ∈ text r.1, decide (c ≠ 0) = true := by
            intro c hc
            have hdigits : ∀ c ∈ decimal r.1.natAbs, c ≠ 0 := fun c hc h0 => by
              have := isDigit_of_mem c hc
              rw [h0] at this
              exact absurd this (by decide)
            rw [text] at hc
            refine decide_eq_true ?_
            split at hc
            · rcases mem_cons.mp hc with rfl | hc
              · decide
              · exact hdigits c hc
            · exact hdigits c hc
          have hwhile : (text r.1 ++ List.replicate (32 - (text r.1).length) 0).takeWhile
              (fun c => decide (c ≠ 0)) = text r.1 := by
            rw [takeWhile_append_of_pos hnonzero]
            cases 32 - (text r.1).length with
            | zero => exact append_nil _
            | succ n => exact append_nil _
          rw [hwhile] at hlen
          rw [← hlen, take_left] at htake
          exact ⟨r.1, rfl, htake.symm⟩

/-! ### Strings -/

theorem onWritten_of_ne {r : List UInt8 × ℤ} {next : List UInt8 → ℤ → List UInt8 × ℤ}
    (h : r.2 ≠ -1) : onWritten r next = next r.1 r.2 := if_neg h

theorem onWritten_of_nonneg {r : List UInt8 × ℤ} {next : List UInt8 → ℤ → List UInt8 × ℤ}
    (h : 0 ≤ r.2) : onWritten r next = next r.1 r.2 := onWritten_of_ne (by omega)

/-- The length of a large block, as an `int`. -/
theorem bmod_of_ge (hlo : 2 ^ 31 ≤ len) (hhi : len < 2 ^ 32) :
    (len : ℤ).bmod (2 ^ 32) = len - 2 ^ 32 := by
  rw [Int.bmod_def]
  omega

/-- **A string that is stored verbatim** is read. -/
theorem saveVerbatim_exact (h : s.length < 2 ^ 32 - 1) :
    Exact lzf rdb (saveVerbatim rdb s) s := by
  obtain ⟨w, hw, -, hload⟩ := exists_saveLen (by omega : s.length < 2 ^ 32)
  have hraw : (s.length : ℤ).bmod (2 ^ 32) ≠ -1 := by
    rcases Nat.lt_or_ge s.length (2 ^ 31) with hlt | hge
    · rw [bmod_of_lt hlt]
      omega
    · rw [bmod_of_ge hge (by omega)]
      omega
  refine ⟨w ++ s, ?_, fun plain encode rest => ?_⟩
  · rw [saveVerbatim, hw, onWritten_of_nonneg (Int.natCast_nonneg _), length_append]
    split
    · rw [rdbWriteRaw]
      generalize (s.length : ℤ).bmod (2 ^ 32) = m at hraw
      rw [onWritten_of_ne hraw, List.append_assoc, Int.natCast_add]
    · next hempty =>
        obtain rfl : s = [] := length_eq_zero_iff.mp (by omega)
        rw [append_nil]
        rfl
  · refine ⟨if plain then .plain s else .string s, ?_, by cases plain <;> rfl⟩
    have hlen : s.length ≠ rdbLenErr := by
      rw [rdbLenErr]
      omega
    rw [rdbGenericLoadStringObject, List.append_assoc, hload]
    dsimp only
    rw [if_neg Bool.false_ne_true, if_neg hlen]
    split
    · next hempty =>
        obtain rfl : s = [] := length_eq_zero_iff.mp hempty
        rfl
    · rw [rioRead_append]

/-- **A string that is stored compressed** is read; what is returned adds the `int` of its length. -/
theorem saveLzf_reads {out : List UInt8} (hdecompress : lzf.decompress out s.length = some s)
    (hout : out.length < 2 ^ 32 - 1) (hs : s.length < 2 ^ 32 - 1) : ∃ w : List UInt8,
      Reads lzf (w ++ out) s ∧ 0 < w.length ∧
      (2 ^ 14 ≤ out.length → 2 ^ 14 ≤ s.length → w.length = 11) ∧
      ∀ rdb, rdbSaveLzfBlob rdb out s.length = onWritten (rdbWriteRaw (rdb ++ w) out) fun rdb n =>
        (rdb, (w.length : ℤ) + n) := by
  obtain ⟨w₁, hw₁, hlen₁, hload₁⟩ := exists_saveLen (by omega : out.length < 2 ^ 32)
  obtain ⟨w₂, hw₂, hlen₂, hload₂⟩ := exists_saveLen (by omega : s.length < 2 ^ 32)
  have hlength : (encByte 3 :: (w₁ ++ w₂)).length = 1 + w₁.length + w₂.length := by
    rw [length_cons, length_append]
    omega
  refine ⟨encByte 3 :: (w₁ ++ w₂), fun plain encode rest => ?_, succ_pos _, fun h₁ h₂ => ?_,
    fun rdb => ?_⟩
  · refine ⟨if plain then .plain s else .string s, ?_, by cases plain <;> rfl⟩
    have hne₁ : out.length ≠ rdbLenErr := by
      rw [rdbLenErr]
      omega
    have hne₂ : s.length ≠ rdbLenErr := by
      rw [rdbLenErr]
      omega
    rw [List.cons_append, List.cons_append, List.append_assoc, List.append_assoc,
      rdbGenericLoadStringObject, loadLen_encByte (by decide)]
    dsimp only
    rw [if_pos rfl, if_neg (by decide), if_pos rfl, rdbLoadLzfStringObject, hload₁]
    dsimp only
    rw [if_neg hne₁, hload₂]
    dsimp only
    rw [if_neg hne₂, rioRead_append]
    dsimp only
    rw [hdecompress]
  · rw [hlength, hlen₁ h₁, hlen₂ h₂]
  · rw [rdbSaveLzfBlob, onWritten_writeRaw (by simp), hw₁, onWritten_of_nonneg (Int.natCast_nonneg _),
      hw₂, onWritten_of_nonneg (Int.natCast_nonneg _), hlength]
    have happend : rdb ++ [encByte 3] ++ w₁ ++ w₂ = rdb ++ encByte 3 :: (w₁ ++ w₂) := by
      rw [List.append_assoc, List.append_assoc, singleton_append]
    dsimp only
    rw [happend, length_singleton]
    push_cast
    rfl

theorem length_encodeInteger_le (v : ℤ) : (rdbEncodeInteger v).length ≤ 5 := by
  rw [rdbEncodeInteger]
  split_ifs <;> simp

/-- The codec inverts itself, and reports 0 when the result is too long. -/
structure Lzf.RoundTrips (lzf : Lzf) : Prop where
  length_le : ∀ s n, (lzf.compress s n).length ≤ n
  decompress : ∀ s n, lzf.compress s n ≠ [] → lzf.decompress (lzf.compress s n) s.length = some s

/-- **Where the `int` wraps around**, what is returned is not what was written. -/
theorem saveRawString_returns (hlzf : lzf.RoundTrips) (hs : s.length < 2 ^ 32 - 1)
    (hlong : 20 < s.length) (hlarge : 2 ^ 31 ≤ (lzf.compress s (s.length - 4)).length)
    (after : List UInt8) : ¬ Exact lzf rdb (rdbSaveRawString lzf true rdb s after) s := by
  have hle := hlzf.length_le s (s.length - 4)
  have hdec := hlzf.decompress s (s.length - 4)
  have henc : (if s.length ≤ 11 then rdbTryIntegerEncoding s after else []) = [] := if_neg (by omega)
  rw [rdbSaveRawString, henc, length_nil, if_neg (by decide), if_pos ⟨rfl, hlong⟩,
    rdbSaveLzfStringObject, if_neg (by omega)]
  generalize lzf.compress s (s.length - 4) = out at *
  have hne : out ≠ [] := length_pos_iff.mp (by omega)
  obtain ⟨w, -, hpos, hw, hblob⟩ := saveLzf_reads (hdec hne) (by omega) hs
  have hbmod := bmod_of_ge hlarge (by omega)
  have heleven := hw (by omega) (by omega)
  dsimp only
  rw [if_neg (by omega), hblob, rdbWriteRaw, hbmod]
  have hwritten : onWritten (rdb ++ w ++ out, (out.length : ℤ) - 2 ^ 32)
      (fun rdb n => (rdb, (w.length : ℤ) + n)) =
        (rdb ++ (w ++ out), (w.length : ℤ) + (out.length - 2 ^ 32)) := by
    rw [onWritten, if_neg (by omega), List.append_assoc]
  rw [hwritten, onWritten]
  rintro ⟨w', hr, -⟩
  split at hr
  · have := (Prod.mk.inj hr).2
    omega
  · dsimp only at hr
    split at hr
    · obtain ⟨hbytes, hn⟩ := Prod.mk.inj hr
      have hlen := congrArg length (append_cancel_left hbytes)
      rw [length_append] at hlen
      omega
    · -- The string is written once more, and only the second time is counted.
      obtain ⟨w₃, hverbatim, -⟩ : Exact lzf (rdb ++ (w ++ out)) (saveVerbatim _ s) s :=
        saveVerbatim_exact hs
      rw [hverbatim, List.append_assoc rdb] at hr
      obtain ⟨hbytes, hn⟩ := Prod.mk.inj hr
      have hlen := congrArg length (append_cancel_left hbytes)
      rw [length_append, length_append] at hlen
      omega

theorem saveRawString_exact (hlzf : lzf.RoundTrips) (hs : s.length < 2 ^ 32 - 1) {compression : Bool}
    (hsmall : compression = true → 20 < s.length → (lzf.compress s (s.length - 4)).length < 2 ^ 31)
    (after : List UInt8) : Exact lzf rdb (rdbSaveRawString lzf compression rdb s after) s := by
  rw [rdbSaveRawString]
  by_cases henc : (if s.length ≤ 11 then rdbTryIntegerEncoding s after else []).length > 0
  · have hshort : s.length ≤ 11 := by
      by_contra hno
      rw [if_neg hno] at henc
      exact absurd henc (by decide)
    rw [if_pos henc]
    rw [if_pos hshort] at henc ⊢
    obtain ⟨v, hv, rfl⟩ := tryIntegerEncoding_spec (length_pos_iff.mp henc)
    have hle := length_encodeInteger_le v
    rw [hv] at henc ⊢
    rw [onWritten_writeRaw (by omega)]
    exact ⟨_, rfl, encodeInteger_reads (length_pos_iff.mp henc)⟩
  · rw [if_neg henc]
    split
    · next hcompress =>
        obtain ⟨hon, hlong⟩ := hcompress
        have hlt := hsmall hon hlong
        have hdec := hlzf.decompress s (s.length - 4)
        rw [rdbSaveLzfStringObject, if_neg (by omega)]
        generalize lzf.compress s (s.length - 4) = out at *
        dsimp only
        split
        · exact saveVerbatim_exact hs
        · next hout =>
            have hne : out ≠ [] := fun h => hout (congrArg length h)
            obtain ⟨w, hreads, hpos, -, hblob⟩ := saveLzf_reads (hdec hne) (by omega) hs
            rw [hblob, onWritten_writeRaw hlt, onWritten_of_nonneg (by dsimp only; omega)]
            dsimp only
            rw [if_pos (by omega), List.append_assoc]
            refine ⟨w ++ out, ?_, hreads⟩
            rw [length_append]
            push_cast
            rfl
    · exact saveVerbatim_exact hs

theorem saveLongLong_exact (hlo : -2 ^ 63 ≤ v) (hhi : v < 2 ^ 63) :
    Exact lzf rdb (rdbSaveLongLongAsStringObject rdb v) (text v) := by
  rw [rdbSaveLongLongAsStringObject]
  dsimp only
  split
  · next henc =>
      have hle := length_encodeInteger_le v
      rw [rdbWriteRaw, bmod_of_lt (by omega)]
      exact ⟨_, rfl, encodeInteger_reads (length_pos_iff.mp henc)⟩
  · have hle := sdigits10_le hlo hhi
    rw [← length_text] at hle
    rw [ll2string_replicate hlo hhi (by decide), Option.elim_some, take_left]
    -- The text is not empty, so that these are the steps of a string stored verbatim.
    have hverbatim : Exact lzf rdb (saveVerbatim rdb (text v)) (text v) := saveVerbatim_exact (by omega)
    obtain ⟨w, hw, -⟩ := exists_saveLen (by omega : (text v).length < 2 ^ 32)
    rw [saveVerbatim, hw, onWritten_of_nonneg (Int.natCast_nonneg _),
      if_pos (length_pos_iff.mpr (text_ne_nil v)), onWritten_writeRaw (by omega)] at hverbatim
    rw [hw, onWritten_of_nonneg (Int.natCast_nonneg _), onWritten_writeRaw (by omega)]
    exact hverbatim

end Forms

/-- **Strings are written and read back**, with what was returned as their size, just when no
compressed string has 2^31 bytes or more; and numbers always are. -/
theorem rdbStrings_exact_iff {lzf : Lzf} (hlzf : lzf.RoundTrips) {s : List UInt8}
    (hs : s.length < 2 ^ 32 - 1) (compression : Bool) (rdb after : List UInt8) :
    (Exact lzf rdb (rdbSaveRawString lzf compression rdb s after) s ↔
      ¬ (compression = true ∧ 20 < s.length ∧
        2 ^ 31 ≤ (lzf.compress s (s.length - 4)).length)) ∧
    ∀ v : Int64, Exact lzf rdb (rdbSaveLongLongAsStringObject rdb v.toInt) (text v.toInt) := by
  refine ⟨⟨fun h hlarge => ?_, fun h => saveRawString_exact hlzf hs (fun hon hlong => ?_) after⟩,
    fun v => saveLongLong_exact v.le_toInt v.toInt_lt⟩
  · obtain ⟨rfl, hlong, hlarge⟩ := hlarge
    exact saveRawString_returns hlzf hs hlong hlarge after h
  · exact Nat.lt_of_not_le fun hlarge => h ⟨hon, hlong, hlarge⟩

/-- The codec at thirty times the letter a: two of them, a reference to 26 bytes one byte back, and two
more. -/
def runLzf : Lzf where
  compress s n := if s = List.replicate 30 97 ∧ 9 ≤ n then [1, 97, 97, 0xE0, 17, 0, 1, 97, 97] else []
  decompress c n :=
    if c = [1, 97, 97, 0xE0, 17, 0, 1, 97, 97] ∧ n = 30 then some (List.replicate 30 97) else none

theorem runLzf_roundTrips : runLzf.RoundTrips := by
  constructor
  · intro s n
    rw [runLzf]
    dsimp only
    split
    · next h => exact h.2
    · exact Nat.zero_le n
  · intro s n hne
    rw [runLzf] at hne ⊢
    dsimp only at hne ⊢
    split at hne
    · next h =>
        rw [if_pos h, h.1]
        exact if_pos ⟨rfl, length_replicate⟩
    · exact absurd rfl hne

/-- Thirty times the letter a, compressed to nine bytes. -/
theorem rdbStrings_exact_iff_run :
    Exact runLzf [] (rdbSaveRawString runLzf true [] (List.replicate 30 97) [])
      (List.replicate 30 97) ∧
    Exact runLzf [] (rdbSaveLongLongAsStringObject [] (-129)) (text (-129)) := by
  have h := rdbStrings_exact_iff runLzf_roundTrips (s := List.replicate 30 97)
    (by rw [length_replicate]; decide) true [] []
  refine ⟨h.1.mpr fun hlarge => absurd hlarge.2.2 (by decide), h.2 (-129)⟩

/-! ### A compressed string of 2^31 bytes -/

/-- A codec that leaves out four zeros at the end. -/
def zerosLzf : Lzf where
  compress s n := if s.drop (s.length - 4) = [0, 0, 0, 0] ∧ s.length - 4 ≤ n
    then s.take (s.length - 4) else []
  decompress c n := if c.length + 4 = n then some (c ++ [0, 0, 0, 0]) else none

theorem zerosLzf_roundTrips : zerosLzf.RoundTrips := by
  constructor
  · intro s n
    rw [zerosLzf]
    dsimp only
    split
    · next h => exact (length_take_le _ _).trans h.2
    · exact Nat.zero_le n
  · intro s n hne
    rw [zerosLzf] at hne ⊢
    dsimp only at hne ⊢
    split at hne
    · next h =>
        have hlen := congrArg length h.1
        rw [length_drop] at hlen
        have hsum : (s.take (s.length - 4)).length + 4 = s.length := by
          rw [length_take_of_le (sub_le ..)]
          change s.length - (s.length - 4) = 4 at hlen
          omega
        rw [if_pos h, if_pos hsum, ← h.1, take_append_drop]
    · exact absurd rfl hne

/-- A string whose compressed form has 2^31 bytes is written twice, and counted once. -/
theorem exists_saveRawString_inexact : ∃ (lzf : Lzf) (s : List UInt8), lzf.RoundTrips ∧
    s.length < 2 ^ 32 - 1 ∧ ¬ Exact lzf [] (rdbSaveRawString lzf true [] s []) s := by
  have hlen : ∀ n, (List.replicate n (1 : UInt8) ++ [0, 0, 0, 0]).length = n + 4 := fun n => by
    rw [length_append, length_replicate]
    rfl
  have hout : ∀ n, zerosLzf.compress (List.replicate n 1 ++ [0, 0, 0, 0])
      ((List.replicate n (1 : UInt8) ++ [0, 0, 0, 0]).length - 4) = List.replicate n 1 := fun n => by
    rw [zerosLzf]
    dsimp only
    rw [hlen, Nat.add_sub_cancel, drop_left' length_replicate,
      take_left' length_replicate, if_pos ⟨rfl, le_rfl⟩]
  refine ⟨zerosLzf, List.replicate (2 ^ 31) 1 ++ [0, 0, 0, 0], zerosLzf_roundTrips, ?_, ?_⟩
  · rw [hlen]
    decide
  · refine saveRawString_returns zerosLzf_roundTrips ?_ ?_ ?_ []
    · rw [hlen]
      decide
    · rw [hlen]
      decide
    · rw [hout, length_replicate]

end SourceLibs.Rdb
