import SourceLibs.Support.BackReference
import SourceLibs.Redis.RdbStrings

/-!
# Redis — LZF compression

`lzf_compress` writes runs of literal bytes and references to bytes that came before; where to look for
them is read from a table that is not initialised, so the table is arbitrary.  `lzf_decompress` reads
bytes that may be anything.

* `step_spec`, `compressLoop_spec`: what was written decodes to what was read.
* `lzf_exact`: the round trip, and the sizes.
* `rdbStrings_lzf_iff`: strings in an RDB file with this compression.
-/

namespace SourceLibs.Lzf
open List Nat Option BackReference

def maxLit : ℕ := 1 <<< 5
def maxOff : ℕ := 1 <<< 13
def maxRef : ℕ := (1 <<< 8) + (1 <<< 3)

/-! ### `lzf_compress` -/

/-- A byte of the input; only `frst` may look behind it, and only at what is hashed. -/
def byteAt (s : List UInt8) (i : ℕ) : ℕ := (s.getD i 0).toNat

/-- `FRST`. -/
def frst (s : List UInt8) (ip : ℕ) : ℕ := byteAt s ip <<< 8 ||| byteAt s (ip + 1)

/-- `NEXT`, of an `unsigned int`. -/
def next (s : List UInt8) (v ip : ℕ) : ℕ := (v <<< 8) % 2 ^ 32 ||| byteAt s (ip + 2)

/-- `IDX`, for `VERY_FAST` and an `HLOG` of 16. -/
def idx (h : ℕ) : ℕ := (h >>> (3 * 8 - 16) + (2 ^ 32 - h * 5 % 2 ^ 32)) % 2 ^ 16

/-- The comparisons that are written out: how far they go, and whether a difference ends them. -/
def compareSome (s : List UInt8) (ref ip : ℕ) : ℕ → ℕ → ℕ × Bool
  | 0, len     => (len, false)
  | n + 1, len =>
    if s[ref + (len + 1)]? ≠ s[ip + (len + 1)]? then (len + 1, true) else compareSome s ref ip n (len + 1)

/-- The loop of the comparison. -/
def compareLoop (s : List UInt8) (ref ip maxlen len : ℕ) : ℕ :=
  if len + 1 < maxlen ∧ s[ref + (len + 1)]? = s[ip + (len + 1)]? then
    compareLoop s ref ip maxlen (len + 1)
  else len + 1
termination_by maxlen - len

/-- How many bytes are the same. -/
def matchLen (s : List UInt8) (ref ip : ℕ) : ℕ :=
  let maxlen := min (s.length - ip - 2) maxRef
  if maxlen > 16 then
    match compareSome s ref ip 16 2 with
    | (len, true)  => len
    | (len, false) => compareLoop s ref ip maxlen len
  else compareLoop s ref ip maxlen 2

/-- The bytes of a reference. -/
def backRef (off len : ℕ) : List UInt8 :=
  if len < 7 then [.ofNat ((off >>> 8) + (len <<< 5)), .ofNat off]
  else [.ofNat ((off >>> 8) + (7 <<< 5)), .ofNat (len - 7), .ofNat off]

/-- What is written in front of the current run, and the run; `op` is behind it. -/
structure Output where
  done : List UInt8
  lit : List UInt8

/-- Where the next byte goes. -/
def Output.op (o : Output) : ℕ := o.done.length + 1 + o.lit.length

/-- The run is stopped, or undone if its length is zero. -/
def Output.stopRun (o : Output) : List UInt8 :=
  if o.lit = [] then o.done else o.done ++ .ofNat (o.lit.length - 1) :: o.lit

/-- One more literal byte. -/
def Output.literal (o : Output) (b : UInt8) : Output :=
  let o : Output := ⟨o.done, o.lit ++ [b]⟩
  if o.lit.length = maxLit then ⟨o.stopRun, []⟩ else o

/-- There is no room for a reference: a fast test, then the exact one. -/
def Output.Full (o : Output) (outLen : ℕ) : Prop :=
  o.op + 3 + 1 ≥ outLen ∧ o.op - (if o.lit = [] then 1 else 0) + 3 + 1 ≥ outLen

instance (o : Output) (outLen : ℕ) : Decidable (o.Full outLen) := inferInstanceAs (Decidable (_ ∧ _))

/-- The state of the loop. -/
structure State where
  out : Output
  ip : ℕ
  hval : ℕ
  htab : ℕ → ℕ

/-- What is hashed behind a reference. -/
def State.rehash (s : List UInt8) (st : State) : State :=
  if st.ip ≥ s.length - 2 then st
  else
    let h₁ := next s (frst s (st.ip - 2)) (st.ip - 2)
    let h₂ := next s h₁ (st.ip - 1)
    { st with
      hval := h₂
      htab := Function.update (Function.update st.htab (idx h₁) (st.ip - 2)) (idx h₂) (st.ip - 1) }

/-- A turn of the loop; nothing when the output is too small. -/
def step (s : List UInt8) (outLen : ℕ) (st : State) : Option State :=
  let ip := st.ip
  let hval := next s st.hval ip
  let ref := st.htab (idx hval)
  let htab := Function.update st.htab (idx hval) ip
  let off := ip - ref - 1
  if ref < ip ∧ off < maxOff ∧ ref > 0 ∧ s[ref + 2]? = s[ip + 2]? ∧ s[ref]? = s[ip]? ∧
      s[ref + 1]? = s[ip + 1]? then
    if st.out.Full outLen then none
    else
      let len := matchLen s ref ip - 2
      some (State.rehash s ⟨⟨st.out.stopRun ++ backRef off len, []⟩, ip + 1 + (len + 1), hval, htab⟩)
  else if st.out.op ≥ outLen then none
  else some ⟨st.out.literal (s.getD ip 0), ip + 1, hval, htab⟩

section
variable {s : List UInt8} {outLen : ℕ} {st st' : State}

theorem State.rehash_eq :
    (st.rehash s).ip = st.ip ∧ (st.rehash s).out = st.out := by
  rw [rehash]
  split <;> exact ⟨rfl, rfl⟩

theorem step_cases (h : step s outLen st = some st') :
    (∃ ref, ref < st.ip ∧ st.ip - ref - 1 < maxOff ∧ (∀ k ≤ 2, s[ref + k]? = s[st.ip + k]?) ∧
      st'.ip = st.ip + 1 + (matchLen s ref st.ip - 2 + 1) ∧
      st'.out = ⟨st.out.stopRun ++ backRef (st.ip - ref - 1) (matchLen s ref st.ip - 2), []⟩) ∨
    st'.ip = st.ip + 1 ∧ st'.out = st.out.literal (s.getD st.ip 0) := by
  simp only [step] at h
  split at h
  · next hmatch =>
    obtain ⟨hlt, hoff, -, h₂, h₀, h₁⟩ := hmatch
    split at h
    · cases h
    obtain rfl := some.inj h
    refine .inl ⟨_, hlt, hoff, fun k hk => ?_, State.rehash_eq⟩
    interval_cases k
    · exact h₀
    · exact h₁
    · exact h₂
  · split at h
    · cases h
    · obtain rfl := some.inj h
      exact .inr ⟨rfl, rfl⟩

theorem step_ip (h : step s outLen st = some st') : st.ip < st'.ip := by
  rcases step_cases h with ⟨ref, -, -, -, hip, -⟩ | ⟨hip, -⟩ <;> omega

end

/-- The loop of `lzf_compress`. -/
def compressLoop (s : List UInt8) (outLen : ℕ) (st : State) : Option State :=
  if st.ip < s.length - 2 then
    match _h : step s outLen st with
    | none     => none
    | some st' => compressLoop s outLen st'
  else some st
termination_by s.length - st.ip
decreasing_by
  have hlt := step_ip _h
  omega

/-- `lzf_compress`, with what is in the table at first; no bytes where it returns 0. -/
def lzfCompress (htab : ℕ → ℕ) (s : List UInt8) (outLen : ℕ) : List UInt8 :=
  if s.length = 0 ∨ outLen = 0 then []
  else
    match compressLoop s outLen ⟨⟨[], []⟩, 0, frst s 0, htab⟩ with
    | none    => []
    | some st =>
      if st.out.op + 3 > outLen then [] else ((s.drop st.ip).foldl Output.literal st.out).stopRun

/-! ### `lzf_decompress` -/

/-- What a reference adds to the output. -/
def takeRef (outLen : ℕ) (out : List UInt8) (ctrl len low : ℕ) : Option (List UInt8) :=
  let d := ((ctrl &&& 0x1F) <<< 8) + 1 + low
  if out.length + len + 2 > outLen then none
  else if out.length < d then none
  else some (copyBack d (len + 2) out)

/-- The loop of `lzf_decompress`, up to the end of the input. -/
def decompressLoop (outLen : ℕ) (out : List UInt8) : List UInt8 → Option (List UInt8)
  | []     => some out
  | c :: p =>
    let ctrl := c.toNat
    if ctrl < 1 <<< 5 then
      if out.length + (ctrl + 1) > outLen then none
      else if p.length < ctrl + 1 then none
      else decompressLoop outLen (out ++ p.take (ctrl + 1)) (p.drop (ctrl + 1))
    else
      match p with
      | []     => none
      | b :: p =>
        if ctrl >>> 5 = 7 then
          match p with
          | []     => none
          | o :: p => (takeRef outLen out ctrl (7 + b.toNat) o.toNat).bind (decompressLoop outLen · p)
        else (takeRef outLen out ctrl (ctrl >>> 5) b.toNat).bind (decompressLoop outLen · p)
termination_by p => p.length
decreasing_by all_goals simp <;> omega

/-- `lzf_decompress`; nothing where it returns 0.  The first byte is read without a check. -/
def lzfDecompress (p : List UInt8) (outLen : ℕ) : Option (List UInt8) :=
  if p = [] then none else decompressLoop outLen [] p

/-! ### Decoding -/

/-- Bytes that are decoded to `out`, whatever is behind them. -/
def Decodes (n : ℕ) (w out : List UInt8) : Prop :=
  ∀ rest, decompressLoop n [] (w ++ rest) = decompressLoop n out rest

section Decoding
variable {n : ℕ} {w out : List UInt8}

theorem Decodes.run (h : Decodes n w out) {lit : List UInt8} (hne : lit ≠ []) (hlit : lit.length ≤ 32)
    (hn : (out ++ lit).length ≤ n) : Decodes n (w ++ .ofNat (lit.length - 1) :: lit) (out ++ lit) := by
  intro rest
  have hpos := length_pos_iff.mpr hne
  have hctrl : (UInt8.ofNat (lit.length - 1)).toNat = lit.length - 1 :=
    UInt8.toNat_ofNat_of_lt' (by rw [UInt8.size]; omega)
  rw [length_append] at hn
  rw [append_assoc, h, cons_append, decompressLoop.eq_def]
  simp only [hctrl, Nat.sub_add_cancel hpos]
  rw [if_pos (show lit.length - 1 < 1 <<< 5 by simp; omega), if_neg (by omega),
    if_neg (by rw [length_append]; omega), take_left, drop_left]

theorem takeRef_eq {off len ctrl : ℕ} (hctrl : ctrl % 32 = off / 256) (hout : off + 1 ≤ out.length)
    (hn : out.length + len + 2 ≤ n) :
    takeRef n out ctrl len (UInt8.ofNat off).toNat = some (copyBack (off + 1) (len + 2) out) := by
  have hd : ((ctrl &&& 0x1F) <<< 8) + 1 + (UInt8.ofNat off).toNat = off + 1 := by
    rw [show ctrl &&& 0x1F = ctrl % 32 from and_two_pow_sub_one_eq_mod ctrl 5, Nat.shiftLeft_eq,
      UInt8.toNat_ofNat', hctrl]
    omega
  rw [takeRef]
  simp only [hd]
  rw [if_neg (by omega), if_neg (by omega)]

theorem Decodes.ref (h : Decodes n w out) {off len : ℕ} (hoff : off < maxOff) (hlen : 1 ≤ len)
    (hlen' : len ≤ 262) (hout : off + 1 ≤ out.length) (hn : out.length + len + 2 ≤ n) :
    Decodes n (w ++ backRef off len) (copyBack (off + 1) (len + 2) out) := by
  have hoff : off < 8192 := hoff
  have hctrl : ∀ m ≤ 7, (UInt8.ofNat ((off >>> 8) + (m <<< 5))).toNat = off / 256 + m * 32 ∧
      (off / 256 + m * 32) >>> 5 = m := fun m hm => by
    rw [UInt8.toNat_ofNat', shiftRight_eq_div_pow, shiftRight_eq_div_pow, Nat.shiftLeft_eq]
    omega
  intro rest
  rw [append_assoc, h, backRef]
  by_cases hshort : len < 7
  · obtain ⟨hc, hshift⟩ := hctrl len hshort.le
    rw [if_pos hshort, cons_append, cons_append, nil_append, decompressLoop.eq_def]
    simp only [hc, hshift]
    rw [if_neg (by simp; omega), if_neg (by omega), takeRef_eq (by omega) hout hn, bind_some]
  · obtain ⟨hc, hshift⟩ := hctrl 7 le_rfl
    have hmore : 7 + (UInt8.ofNat (len - 7)).toNat = len := by
      rw [UInt8.toNat_ofNat']
      omega
    rw [if_neg hshort, cons_append, cons_append, cons_append, nil_append, decompressLoop.eq_def]
    simp only [hc, hshift, hmore]
    rw [if_neg (by simp), if_pos trivial, takeRef_eq (by omega) hout hn, bind_some]

end Decoding

/-! ### How much is the same -/

section Match
variable {s : List UInt8} {ref ip : ℕ}

theorem compareLoop_spec (maxlen len : ℕ) : (∀ k ≤ len, s[ref + k]? = s[ip + k]?) →
    len < compareLoop s ref ip maxlen len ∧ compareLoop s ref ip maxlen len ≤ max maxlen (len + 1) ∧
      ∀ k < compareLoop s ref ip maxlen len, s[ref + k]? = s[ip + k]? := by
  induction len using compareLoop.induct s ref ip maxlen with
  | case1 len hgo ih =>
    intro h
    obtain ⟨hlt, hle, hall⟩ := ih fun k hk => by
      rcases Nat.le_succ_iff.mp hk with hk | rfl
      · exact h k hk
      · exact hgo.2
    rw [compareLoop, if_pos hgo]
    exact ⟨by omega, by omega, hall⟩
  | case2 len hgo =>
    intro h
    rw [compareLoop, if_neg hgo]
    exact ⟨Nat.lt_succ_self len, le_max_right .., fun k hk => h k (Nat.le_of_lt_succ hk)⟩

theorem compareSome_spec (n : ℕ) : ∀ {len r : ℕ} {found : Bool}, compareSome s ref ip n len = (r, found) →
    (∀ k ≤ len, s[ref + k]? = s[ip + k]?) →
    r ≤ len + n ∧ (found = true → len < r ∧ ∀ k < r, s[ref + k]? = s[ip + k]?) ∧
      (found = false → r = len + n ∧ ∀ k ≤ r, s[ref + k]? = s[ip + k]?) := by
  induction n with
  | zero =>
    rintro len r found hr h
    cases hr
    exact ⟨le_rfl, fun hf => (by cases hf), fun _ => ⟨rfl, h⟩⟩
  | succ n ih =>
    intro len r found hr h
    rw [compareSome] at hr
    split at hr
    · cases hr
      exact ⟨by omega, fun _ => ⟨Nat.lt_succ_self len, fun k hk => h k (Nat.le_of_lt_succ hk)⟩,
        fun hf => (by cases hf)⟩
    · next heq =>
      obtain ⟨hle, hdiff, hsame⟩ := ih hr fun k hk => by
        rcases Nat.le_succ_iff.mp hk with hk | rfl
        · exact h k hk
        · exact not_not.mp heq
      refine ⟨by omega, fun hf => ⟨by have := (hdiff hf).1; omega, (hdiff hf).2⟩, fun hf => ?_⟩
      obtain ⟨rfl, hall⟩ := hsame hf
      exact ⟨by omega, hall⟩

/-- **The comparison** stays inside the input. -/
theorem matchLen_spec (hip : ip + 2 < s.length) (h : ∀ k ≤ 2, s[ref + k]? = s[ip + k]?) :
    3 ≤ matchLen s ref ip ∧ matchLen s ref ip ≤ 264 ∧ ip + matchLen s ref ip ≤ s.length ∧
      ∀ k < matchLen s ref ip, s[ref + k]? = s[ip + k]? := by
  have href : maxRef = 264 := rfl
  rw [matchLen, href]
  generalize hmax : min (s.length - ip - 2) 264 = maxlen
  by_cases hlong : maxlen > 16
  · rw [if_pos hlong]
    rcases hr : compareSome s ref ip 16 2 with ⟨r, found⟩
    obtain ⟨hle, hdiff, hsame⟩ := compareSome_spec 16 hr h
    cases found with
    | true =>
      obtain ⟨hlt, hall⟩ := hdiff rfl
      dsimp only
      exact ⟨by omega, by omega, by omega, hall⟩
    | false =>
      obtain ⟨rfl, hall⟩ := hsame rfl
      obtain ⟨hlt, hle', hall'⟩ := compareLoop_spec maxlen _ hall
      dsimp only
      exact ⟨by omega, by omega, by omega, hall'⟩
  · rw [if_neg hlong]
    obtain ⟨hlt, hle, hall⟩ := compareLoop_spec maxlen 2 h
    exact ⟨by omega, by omega, by omega, hall⟩

end Match

/-! ### What was written -/

/-- What is written for the bytes in front of `ip`. -/
structure Written (n : ℕ) (s : List UInt8) (ip : ℕ) (o : Output) : Prop where
  ip_le : ip ≤ s.length
  lit_lt : o.lit.length < maxLit
  decodes : ∃ p, s.take ip = p ++ o.lit ∧ Decodes n o.done p

section Written
variable {n outLen ip : ℕ} {s : List UInt8} {o : Output} {st st' : State}

theorem decodes_stopRun {p : List UInt8} (hlit : o.lit.length ≤ 32) (h : Decodes n o.done p)
    (hn : (p ++ o.lit).length ≤ n) : Decodes n o.stopRun (p ++ o.lit) := by
  rw [Output.stopRun]
  split
  · next hnil => rwa [hnil, append_nil]
  · next hne => exact h.run hne hlit hn

theorem Written.stopRun (h : Written n s ip o) (hn : s.length ≤ n) : Decodes n o.stopRun (s.take ip) := by
  obtain ⟨p, hp, hdone⟩ := h.decodes
  have hlen := (length_take_le' ip s).trans hn
  rw [hp] at hlen ⊢
  exact decodes_stopRun h.lit_lt.le hdone hlen

/-- **One more literal byte.** -/
theorem Written.literal (h : Written n s ip o) (hn : s.length ≤ n) (hip : ip < s.length) :
    Written n s (ip + 1) (o.literal (s.getD ip 0)) := by
  obtain ⟨p, hp, hdone⟩ := h.decodes
  have hlt := h.lit_lt
  have hnext : s.take (ip + 1) = p ++ (o.lit ++ [s.getD ip 0]) := by
    rw [take_add_one, hp, append_assoc, getD_eq_getElem?_getD, getElem?_eq_getElem hip]
    rfl
  have hlen := (length_take_le' (ip + 1) s).trans hn
  rw [Output.literal]
  dsimp only
  split
  · next hfull =>
    refine ⟨hip, Nat.zero_lt_succ _, s.take (ip + 1), (append_nil _).symm, ?_⟩
    rw [hnext] at hlen ⊢
    exact decodes_stopRun (o := ⟨o.done, _⟩) hfull.le hdone hlen
  · next hfull =>
    refine ⟨hip, ?_, p, hnext, hdone⟩
    dsimp only at hfull ⊢
    rw [length_append, length_singleton] at hfull ⊢
    omega

theorem Written.rest (hn : s.length ≤ n) (xs : List UInt8) : ∀ {ip : ℕ} {o : Output}, Written n s ip o →
    s.drop ip = xs → Written n s s.length (xs.foldl Output.literal o) := by
  induction xs with
  | nil =>
    intro ip o h hxs
    have hip := le_antisymm h.ip_le (drop_eq_nil_iff.mp hxs)
    exact hip ▸ h
  | cons x xs ih =>
    intro ip o h hxs
    have hip : ip < s.length := by
      by_contra hle
      rw [drop_eq_nil_of_le (not_lt.mp hle)] at hxs
      cases hxs
    rw [drop_eq_getElem_cons hip, cons.injEq] at hxs
    have hx : s.getD ip 0 = x := by
      rw [getD_eq_getElem?_getD, getElem?_eq_getElem hip, hxs.1]
      rfl
    exact ih (hx ▸ h.literal hn hip) hxs.2

/-- **A turn of the loop.** -/
theorem step_spec (hn : s.length ≤ n) (h : Written n s st.ip st.out) (hip : st.ip < s.length - 2)
    (hstep : step s outLen st = some st') : Written n s st'.ip st'.out := by
  rcases step_cases hstep with ⟨ref, hlt, hoff, hthree, hip', hout⟩ | ⟨hip', hout⟩
  · obtain ⟨hlow, hhigh, hend, hall⟩ := matchLen_spec (by omega) hthree
    rw [hip', hout]
    generalize matchLen s ref st.ip = m at *
    have htake : (s.take st.ip).length = st.ip := length_take_of_le (by omega)
    have hlen : 1 ≤ m - 2 ∧ m - 2 ≤ 262 := by omega
    have hdec := (h.stopRun hn).ref hoff hlen.1 hlen.2 (by omega) (by omega)
    have hcopy : copyBack (st.ip - ref - 1 + 1) (m - 2 + 2) (s.take st.ip) = s.take (st.ip + m) := by
      rw [Nat.sub_add_cancel (by omega : 2 ≤ m)]
      refine copyBack_take (by omega) m st.ip (by omega) hend fun k hk => ?_
      rw [show st.ip - (st.ip - ref - 1 + 1) + k = ref + k by omega]
      exact hall k hk
    rw [show st.ip + 1 + (m - 2 + 1) = st.ip + m by omega]
    exact ⟨hend, Nat.zero_lt_succ _, _, (append_nil _).symm, hcopy ▸ hdec⟩
  · rw [hip', hout]
    exact h.literal hn (by omega)

/-- **The loop of `lzf_compress`** stops near the end. -/
theorem compressLoop_spec (hn : s.length ≤ n) (st : State) : Written n s st.ip st.out →
    compressLoop s outLen st = some st' → s.length ≤ st'.ip + 2 ∧ Written n s st'.ip st'.out := by
  induction st using compressLoop.induct s outLen with
  | case1 st hip hstep =>
    intro _ hloop
    rw [compressLoop, if_pos hip] at hloop
    split at hloop
    · cases hloop
    · next hstep' => rw [hstep] at hstep'; cases hstep'
  | case2 st hip st₁ hstep ih =>
    intro h hloop
    rw [compressLoop, if_pos hip] at hloop
    split at hloop
    · cases hloop
    · next hstep' =>
      rw [hstep] at hstep'
      obtain rfl := some.inj hstep'
      exact ih (step_spec hn h hip hstep) hloop
  | case3 st hip =>
    intro h hloop
    rw [compressLoop, if_neg hip] at hloop
    obtain rfl := some.inj hloop
    exact ⟨by omega, h⟩

end Written

/-! ### Sizes -/

theorem length_stopRun_le (o : Output) : o.stopRun.length ≤ o.op := by
  rw [Output.stopRun, Output.op]
  split
  · omega
  · rw [length_append, length_cons]
    omega

theorem literal_sizes (o : Output) (b : UInt8) :
    (o.literal b).stopRun.length ≤ o.op + 1 ∧ (o.literal b).op ≤ o.op + 2 := by
  rw [Output.literal, Output.op]
  dsimp only
  have hrun := length_stopRun_le ⟨o.done, o.lit ++ [b]⟩
  have hop : Output.op ⟨o.done, o.lit ++ [b]⟩ = o.done.length + 1 + o.lit.length + 1 :=
    congrArg (o.done.length + 1 + ·) (length_append ..)
  split
  · have hstop : Output.stopRun ⟨Output.stopRun ⟨o.done, o.lit ++ [b]⟩, []⟩ =
        Output.stopRun ⟨o.done, o.lit ++ [b]⟩ := if_pos rfl
    rw [hstop, Output.op]
    exact ⟨by omega, by simp only [length_nil]; omega⟩
  · exact ⟨by omega, by omega⟩

theorem length_rest_le (o : Output) {xs : List UInt8} (hxs : xs.length ≤ 2) :
    (xs.foldl Output.literal o).stopRun.length ≤ o.op + 3 := by
  match xs, hxs with
  | [], _     => exact (length_stopRun_le o).trans (Nat.le_add_right ..)
  | [a], _    => exact (literal_sizes o a).1.trans (by omega)
  | [a, b], _ =>
    have h₁ := (literal_sizes o a).2
    exact (literal_sizes (o.literal a) b).1.trans (by omega)

theorem takeRef_le {n ctrl len low : ℕ} {out r : List UInt8} (h : takeRef n out ctrl len low = some r) :
    r.length ≤ n := by
  simp only [takeRef] at h
  split at h
  · cases h
  split at h
  · cases h
  obtain rfl := some.inj h
  exact (length_copyBack_le ..).trans (by omega)

/-- **What is decompressed** fits, whatever the input is. -/
theorem decompressLoop_le {n : ℕ} {out p r : List UInt8} (hout : out.length ≤ n)
    (h : decompressLoop n out p = some r) : r.length ≤ n := by
  fun_induction decompressLoop n out p with
  | case1 => exact some.inj h ▸ hout
  | case4 out c p ctrl hrun hroom hlen ih =>
    refine ih ?_ h
    rw [length_append, length_take]
    omega
  | case7 =>
    rename_i ih
    obtain ⟨out', htake, h⟩ := bind_eq_some_iff.mp h
    exact ih _ (takeRef_le htake) h
  | case8 =>
    rename_i ih
    obtain ⟨out', htake, h⟩ := bind_eq_some_iff.mp h
    exact ih _ (takeRef_le htake) h
  | _ => cases h

/-! ### The codec -/

theorem lzfCompress_spec (htab : ℕ → ℕ) {s : List UInt8} {outLen n : ℕ} (hn : s.length ≤ n)
    (hne : lzfCompress htab s outLen ≠ []) :
    (lzfCompress htab s outLen).length ≤ outLen ∧ lzfDecompress (lzfCompress htab s outLen) n = some s := by
  rw [lzfCompress] at hne ⊢
  split at hne
  · exact absurd rfl hne
  · next hzero =>
    rw [if_neg hzero]
    cases hloop : compressLoop s outLen ⟨⟨[], []⟩, 0, frst s 0, htab⟩ with
    | none =>
      rw [hloop] at hne
      exact absurd rfl hne
    | some st =>
      simp only [hloop] at hne ⊢
      split at hne
      · exact absurd rfl hne
      · next hroom =>
        rw [if_neg hroom]
        have hstart : Written n s 0 ⟨[], []⟩ := ⟨Nat.zero_le _, Nat.zero_lt_succ 31, [], rfl, fun _ => rfl⟩
        obtain ⟨hend, hwritten⟩ := compressLoop_spec hn _ hstart hloop
        have hdrop : (s.drop st.ip).length ≤ 2 := by
          rw [length_drop]
          omega
        have hsize := length_rest_le st.out hdrop
        have hall := (hwritten.rest hn _ rfl).stopRun hn []
        rw [append_nil, take_length] at hall
        refine ⟨by omega, ?_⟩
        rw [lzfDecompress, if_neg hne, hall, decompressLoop]

/-- The codec of RDB files. -/
def codec (htab : ℕ → ℕ) : Rdb.Lzf := ⟨lzfCompress htab, lzfDecompress⟩

theorem codec_roundTrips (htab : ℕ → ℕ) : (codec htab).RoundTrips where
  length_le s outLen := by
    by_cases hne : lzfCompress htab s outLen = []
    · exact (congrArg length hne).trans_le (Nat.zero_le _)
    · exact (lzfCompress_spec htab le_rfl hne).1
  decompress _ _ hne := (lzfCompress_spec htab le_rfl hne).2

/-- **LZF**: what `lzf_compress` writes fits and is decompressed to its input, whatever was in its table;
and what is decompressed from any bytes fits.  These are sizes of results; what a call that gives up wrote
before is not looked at. -/
theorem lzf_exact (n : ℕ) :
    (∀ (htab : ℕ → ℕ) (s : List UInt8) (outLen : ℕ), (lzfCompress htab s outLen).length ≤ outLen ∧
      (lzfCompress htab s outLen ≠ [] → s.length ≤ n →
        lzfDecompress (lzfCompress htab s outLen) n = some s)) ∧
    ∀ p out : List UInt8, lzfDecompress p n = some out → out.length ≤ n := by
  refine ⟨fun htab s outLen => ⟨(codec_roundTrips htab).length_le s outLen,
    fun hne hn => (lzfCompress_spec htab hn hne).2⟩, fun p out h => ?_⟩
  rw [lzfDecompress] at h
  split at h
  · cases h
  · exact decompressLoop_le (show [].length ≤ n from Nat.zero_le n) h

/-- **A string in an RDB file**, compressed by LZF. -/
theorem rdbStrings_lzf_iff (htab : ℕ → ℕ) {s : List UInt8} (hs : s.length < 2 ^ 32 - 1) (compression : Bool)
    (rdb after : List UInt8) :
    Rdb.Exact (codec htab) rdb (Rdb.rdbSaveRawString (codec htab) compression rdb s after) s ↔
      ¬ (compression = true ∧ 20 < s.length ∧ 2 ^ 31 ≤ (lzfCompress htab s (s.length - 4)).length) := by
  refine ⟨fun h hlarge => ?_, fun h => Rdb.saveRawString_exact (codec_roundTrips htab) hs
    (fun hon hlong => not_le.mp fun hlarge => h ⟨hon, hlong, hlarge⟩) after⟩
  obtain ⟨rfl, hlong, hlarge⟩ := hlarge
  exact Rdb.saveRawString_returns (codec_roundTrips htab) hs hlong hlarge after h

theorem rdbStrings_lzf_iff_run :
    Rdb.Exact (codec fun _ => 0) [] (Rdb.rdbSaveRawString (codec fun _ => 0) true [] (replicate 30 97) [])
      (replicate 30 97) :=
  (rdbStrings_lzf_iff (fun _ => 0) (by decide) true [] []).mpr fun ⟨_, _, hlarge⟩ => by
    have hle := (codec_roundTrips fun _ => 0).length_le (replicate 30 97) 26
    exact absurd (Nat.le_trans hlarge hle) (by decide)

end SourceLibs.Lzf
