import SourceLibs.Support.Memory

/-!
# Redis — ziplists

`ziplist.c`.  A list of byte strings and integers in one block of memory: a header with the bytes of
the block, the offset of the last entry and the count of the entries, the entries, and an end byte.
Each entry starts with the length of the entry before it, in one byte or in five; then come its
encoding and its contents, which are its body.  Where an entry grows past 253 bytes the next entry has
to grow as well.

An access outside the block is `none`.  `fresh` is what `zrealloc` finds in new memory.

* `zipEntry_spec`: an entry is read back.
* `grow_spec`: an entry grows by four bytes, and nothing else changes.
* `cascadeLoop_spec`: the cascade leaves every entry with the length of the one before it.
-/

namespace SourceLibs.Ziplist
open List Option Memory

/-! ### The header -/

/-- `ZIPLIST_HEADER_SIZE`. -/
def headerSize : ℕ := 10

def ziplistBytes (zl : List UInt8) : ℕ := natOfBytes (slice zl 0 4)

def ziplistTailOffset (zl : List UInt8) : ℕ := natOfBytes (slice zl 4 4)

def ziplistLength (zl : List UInt8) : ℕ := natOfBytes (slice zl 8 2)

/-- An assignment to `ZIPLIST_BYTES`. -/
def setBytes (zl : List UInt8) (n : ℕ) : List UInt8 := overwrite zl 0 (bytesOfInt 4 n)

/-- An assignment to `ZIPLIST_TAIL_OFFSET`. -/
def setTailOffset (zl : List UInt8) (n : ℕ) : List UInt8 := overwrite zl 4 (bytesOfInt 4 n)

/-- An assignment to `ZIPLIST_LENGTH`. -/
def setLength (zl : List UInt8) (n : ℕ) : List UInt8 := overwrite zl 8 (bytesOfInt 2 n)

section

variable (fresh : ℕ → UInt8)

/-- `zrealloc`: what is new is arbitrary. -/
def zrealloc (zl : List UInt8) (len : ℕ) : List UInt8 :=
  zl.take len ++ (List.range (len - zl.length)).map fresh

/-- `ziplistResize`, whose length is an `unsigned int`. -/
def ziplistResize (zl : List UInt8) (len : ℕ) : List UInt8 :=
  let len := len % 2 ^ 32
  let zl := setBytes (zrealloc fresh zl len) len
  overwrite zl (len - 1) [255]

/-! ### Entries -/

def zipIntSize (encoding : UInt8) : ℕ :=
  if encoding = 0xfe then 1
  else if encoding = 0xc0 then 2
  else if encoding = 0xf0 then 3
  else if encoding = 0xd0 then 4
  else if encoding = 0xe0 then 8
  else 0

/-- `ZIP_DECODE_LENGTH`: `encoding`, `lensize` and `len`. -/
def zipDecodeLength : List UInt8 → Option (UInt8 × ℕ × ℕ)
  | [] => none
  | b :: bs =>
    if b < 0xc0 then
      let encoding := b &&& 0xc0
      if encoding = 0x00 then some (encoding, 1, (b &&& 0x3f).toNat)
      else if encoding = 0x40 then
        match bs with
        | c :: _ => some (encoding, 2, (b &&& 0x3f).toNat * 2 ^ 8 + c.toNat)
        | _ => none
      else
        match bs with
        | c₁ :: c₂ :: c₃ :: c₄ :: _ =>
          some (encoding, 5, c₁.toNat * 2 ^ 24 + c₂.toNat * 2 ^ 16 + c₃.toNat * 2 ^ 8 + c₄.toNat)
        | _ => none
    else some (b, 1, zipIntSize b)

structure Zlentry where
  prevrawlensize : ℕ
  prevrawlen : ℕ
  lensize : ℕ
  len : ℕ
  headersize : ℕ
  encoding : UInt8

/-- `ZIP_DECODE_PREVLEN`: `prevlensize` and `prevlen`. -/
def zipDecodePrevlen : List UInt8 → Option (ℕ × ℕ)
  | [] => none
  | b :: bs =>
    if b < 254 then some (1, b.toNat)
    else if bs.length < 4 then none
    else some (5, natOfBytes (bs.take 4))

def zipEntry (zl : List UInt8) (p : ℕ) : Option Zlentry := do
  let (prevrawlensize, prevrawlen) ← zipDecodePrevlen (zl.drop p)
  let (encoding, lensize, len) ← zipDecodeLength (zl.drop (p + prevrawlensize))
  return ⟨prevrawlensize, prevrawlen, lensize, len, prevrawlensize + lensize, encoding⟩

/-- `zipPrevEncodeLength` without a pointer: the bytes that a length needs. -/
def zipPrevEncodeSize (len : ℕ) : ℕ := if len < 254 then 1 else 5

def zipPrevEncodeLength (zl : List UInt8) (p len : ℕ) : List UInt8 :=
  if len < 254 then overwrite zl p [UInt8.ofNat len]
  else overwrite zl p (254 :: bytesOfInt 4 len)

def zipPrevEncodeLengthForceLarge (zl : List UInt8) (p len : ℕ) : List UInt8 :=
  overwrite zl p (254 :: bytesOfInt 4 len)

/-- `memmove` in the block. -/
def memmove (zl : List UInt8) (dst src n : ℕ) : List UInt8 := overwrite zl dst (slice zl src n)

/-- The loop of `__ziplistCascadeUpdate`. -/
def cascadeLoop : ℕ → List UInt8 → ℕ → ℕ → Option (List UInt8)
  | 0, _, _, _ => none
  | fuel + 1, zl, p, curlen => do
    if (← zl[p]?) = 255 then return zl
    else
      let cur ← zipEntry zl p
      let rawlen := (cur.headersize + cur.len) % 2 ^ 32
      let rawlensize := zipPrevEncodeSize rawlen
      if (← zl[p + rawlen]?) = 255 then return zl
      else
        let next ← zipEntry zl (p + rawlen)
        if next.prevrawlen = rawlen then return zl
        else if next.prevrawlensize < rawlensize then
          let extra := rawlensize - next.prevrawlensize
          let zl := ziplistResize fresh zl (curlen + extra)
          let noffset := p + rawlen
          let zl :=
            if ziplistTailOffset zl ≠ noffset then setTailOffset zl (ziplistTailOffset zl + extra)
            else zl
          let zl := memmove zl (noffset + rawlensize) (noffset + next.prevrawlensize)
            (curlen - noffset - next.prevrawlensize - 1)
          let zl := zipPrevEncodeLength zl noffset rawlen
          cascadeLoop fuel zl (p + rawlen) (curlen + extra)
        else if next.prevrawlensize > rawlensize then
          return zipPrevEncodeLengthForceLarge zl (p + rawlen) rawlen
        else return zipPrevEncodeLength zl (p + rawlen) rawlen

def ziplistCascadeUpdate (zl : List UInt8) (p : ℕ) : Option (List UInt8) :=
  cascadeLoop fresh (zl.length + 1) zl p (ziplistBytes zl)

end

/-! ### The layout -/

/-- An entry: whether its length of the entry before takes five bytes, and its body. -/
structure Item where
  large : Bool
  body : List UInt8

/-- The bytes of the length of the entry before. -/
def prevBytes (large : Bool) (prev : ℕ) : List UInt8 :=
  if large then 254 :: bytesOfInt 4 prev else [UInt8.ofNat prev]

namespace Item

/-- The bytes that the length of the entry before takes. -/
def prevSize (i : Item) : ℕ := if i.large then 5 else 1

/-- The bytes of the entry. -/
def rawlen (i : Item) : ℕ := i.prevSize + i.body.length

end Item

/-- The bytes of entries, after an entry of `prev` bytes. -/
def encode : ℕ → List Item → List UInt8
  | _, [] => []
  | prev, i :: rest => prevBytes i.large prev ++ (i.body ++ encode i.rawlen rest)

/-- A length takes one byte only where it is below 254. -/
def Chain : ℕ → List Item → Prop
  | _, [] => True
  | prev, i :: rest => (i.large = false → prev < 254) ∧ Chain i.rawlen rest

/-- The bytes of entries. -/
def size (items : List Item) : ℕ := (items.map Item.rawlen).sum

/-- The encoding at the front of a body gives its length. -/
def IsBody (body : List UInt8) : Prop :=
  ∃ encoding lensize len, zipDecodeLength body = some (encoding, lensize, len) ∧
    lensize + len = body.length

/-- What a block holds: its header and what follows it. -/
structure Holds (zl : List UInt8) (bytes tail length : ℕ) (contents : List UInt8) : Prop where
  long : headerSize ≤ zl.length
  bytes : ziplistBytes zl = bytes
  tail : ziplistTailOffset zl = tail
  length : ziplistLength zl = length
  contents : zl.drop headerSize = contents

/-- **A well-formed ziplist** with the given bodies. -/
def WellFormed (zl : List UInt8) (bodies : List (List UInt8)) : Prop :=
  ∃ items : List Item, items.map Item.body = bodies ∧ (∀ body ∈ bodies, IsBody body) ∧
    Chain 0 items ∧
    Holds zl zl.length (headerSize + size items.dropLast) (min bodies.length (2 ^ 16 - 1))
      (encode 0 items ++ [255])

/-! ### Assignments -/

section

variable {zl c before part after src : List UInt8} {b t l v i : ℕ}

theorem length_setBytes (h : headerSize ≤ zl.length) : (setBytes zl v).length = zl.length :=
  length_overwrite (by rw [length_bytesOfInt]; rw [headerSize] at h; omega)

theorem length_setTailOffset (h : headerSize ≤ zl.length) :
    (setTailOffset zl v).length = zl.length :=
  length_overwrite (by rw [length_bytesOfInt]; rw [headerSize] at h; omega)

theorem length_setLength (h : headerSize ≤ zl.length) : (setLength zl v).length = zl.length :=
  length_overwrite (by rw [length_bytesOfInt]; rw [headerSize] at h; omega)

/-- What is behind the bytes that are written stays. -/
theorem drop_overwrite_of_ge {n : ℕ} (h : i + src.length ≤ n) (hn : n ≤ zl.length) :
    (overwrite zl i src).drop n = zl.drop n := by
  rw [overwrite, drop_append, drop_eq_nil_of_le, nil_append, drop_drop]
  · congr 1
    rw [length_append, length_take]
    omega
  · rw [length_append, length_take]
    omega

/-- A number that is written is read back. -/
theorem natOfBytes_overwrite {n : ℕ} (hfit : i + n ≤ zl.length) (hv : v < 256 ^ n) :
    natOfBytes (slice (overwrite zl i (bytesOfInt n v)) i n) = v := by
  have hlen : (bytesOfInt n v).length = n := length_bytesOfInt n v
  have hself : slice (overwrite zl i (bytesOfInt n v)) i (bytesOfInt n v).length =
      bytesOfInt n v := slice_overwrite_self (by rw [hlen]; exact hfit)
  rw [hlen] at hself
  rw [hself, natOfBytes_bytesOfNat hv]

theorem Holds.setBytes (h : Holds zl b t l c) (hv : v < 2 ^ 32) : Holds (setBytes zl v) v t l c := by
  have hlen : (bytesOfInt 4 v).length = 4 := length_bytesOfInt 4 v
  have hlong := h.long
  rw [headerSize] at hlong
  have hfit : 0 + (bytesOfInt 4 v).length ≤ zl.length := by omega
  refine ⟨by rw [length_setBytes h.long]; exact h.long, ?_, ?_, ?_, ?_⟩
  · exact natOfBytes_overwrite (by omega) (by omega)
  · rw [← h.tail, ziplistTailOffset, Ziplist.setBytes, slice_overwrite_of_ge hfit (by omega)]
    rfl
  · rw [← h.length, ziplistLength, Ziplist.setBytes, slice_overwrite_of_ge hfit (by omega)]
    rfl
  · rw [Ziplist.setBytes, drop_overwrite_of_ge (by rw [hlen, headerSize]; omega) h.long, h.contents]

theorem Holds.setTailOffset (h : Holds zl b t l c) (hv : v < 2 ^ 32) :
    Holds (setTailOffset zl v) b v l c := by
  have hlen : (bytesOfInt 4 v).length = 4 := length_bytesOfInt 4 v
  have hlong := h.long
  rw [headerSize] at hlong
  have hfit : 4 + (bytesOfInt 4 v).length ≤ zl.length := by omega
  refine ⟨by rw [length_setTailOffset h.long]; exact h.long, ?_, ?_, ?_, ?_⟩
  · rw [← h.bytes, ziplistBytes, Ziplist.setTailOffset, slice_overwrite_of_le hfit (by omega)]
    rfl
  · exact natOfBytes_overwrite (by omega) (by omega)
  · rw [← h.length, ziplistLength, Ziplist.setTailOffset, slice_overwrite_of_ge hfit (by omega)]
    rfl
  · rw [Ziplist.setTailOffset, drop_overwrite_of_ge (by rw [hlen, headerSize]; omega) h.long,
      h.contents]

theorem Holds.setLength (h : Holds zl b t l c) (hv : v < 2 ^ 16) :
    Holds (setLength zl v) b t v c := by
  have hlen : (bytesOfInt 2 v).length = 2 := length_bytesOfInt 2 v
  have hlong := h.long
  rw [headerSize] at hlong
  have hfit : 8 + (bytesOfInt 2 v).length ≤ zl.length := by omega
  refine ⟨by rw [length_setLength h.long]; exact h.long, ?_, ?_, ?_, ?_⟩
  · rw [← h.bytes, ziplistBytes, Ziplist.setLength, slice_overwrite_of_le hfit (by omega)]
    rfl
  · rw [← h.tail, ziplistTailOffset, Ziplist.setLength, slice_overwrite_of_le hfit (by omega)]
    rfl
  · exact natOfBytes_overwrite (by omega) (by omega)
  · rw [Ziplist.setLength, drop_overwrite_of_ge (by rw [hlen, headerSize]) h.long, h.contents]

/-- **A part of the contents** is written. -/
theorem Holds.overwrite (h : Holds zl b t l (before ++ (part ++ after)))
    (hi : i = headerSize + before.length) (hsrc : src.length = part.length) :
    Holds (overwrite zl i src) b t l (before ++ (src ++ after)) := by
  have hlong := h.long
  have hlen := congrArg List.length h.contents
  rw [List.length_drop, List.length_append, List.length_append] at hlen
  have hfit : i + src.length ≤ zl.length := by omega
  have hhead : headerSize = 10 := rfl
  refine ⟨by rw [length_overwrite hfit]; exact hlong, ?_, ?_, ?_, ?_⟩
  · rw [← h.bytes, ziplistBytes, ziplistBytes, slice_overwrite_of_le hfit (by omega)]
  · rw [← h.tail, ziplistTailOffset, ziplistTailOffset, slice_overwrite_of_le hfit (by omega)]
  · rw [← h.length, ziplistLength, ziplistLength, slice_overwrite_of_le hfit (by omega)]
  · rw [drop_overwrite (by omega) (by omega), h.contents, hi, Nat.add_sub_cancel_left,
      overwrite_append before after hsrc]

/-- **A part of the contents** is read. -/
theorem Holds.slice (h : Holds zl b t l (before ++ (part ++ after)))
    (hi : i = headerSize + before.length) : slice zl i part.length = part := by
  rw [hi, ← slice_drop, h.contents, slice_append]

theorem Holds.drop (h : Holds zl b t l (before ++ after)) (hi : i = headerSize + before.length) :
    zl.drop i = after := by
  rw [hi, ← drop_drop, h.contents, drop_left]

theorem Holds.length_eq (h : Holds zl b t l c) : zl.length = headerSize + c.length := by
  have hlong := h.long
  rw [← h.contents, length_drop]
  omega

theorem Holds.append (h : Holds zl b t l c) (f : List UInt8) : Holds (zl ++ f) b t l (c ++ f) := by
  have hlong := h.long
  have hhead : headerSize = 10 := rfl
  refine ⟨by rw [length_append]; omega, ?_, ?_, ?_, ?_⟩
  · rw [← h.bytes, ziplistBytes, ziplistBytes, slice_append_of_le _ (by omega)]
  · rw [← h.tail, ziplistTailOffset, ziplistTailOffset, slice_append_of_le _ (by omega)]
  · rw [← h.length, ziplistLength, ziplistLength, slice_append_of_le _ (by omega)]
  · rw [drop_append_of_le_length hlong, h.contents]

variable (fresh : ℕ → UInt8)

theorem zrealloc_grow (zl : List UInt8) (n : ℕ) : ∃ f : List UInt8, f.length = n ∧
    zrealloc fresh zl (zl.length + n) = zl ++ f := by
  refine ⟨(List.range n).map fresh, by simp, ?_⟩
  rw [zrealloc, take_of_length_le (by omega), Nat.add_sub_cancel_left]

/-- **A block that grows** keeps its contents, and ends with an end byte. -/
theorem Holds.ziplistResize {extra : ℕ} (h : Holds zl b t l c) (hpos : 0 < extra)
    (hv : zl.length + extra < 2 ^ 32) : ∃ new : List UInt8, new.length + 1 = extra ∧
      Holds (ziplistResize fresh zl (zl.length + extra)) (zl.length + extra) t l
        (c ++ (new ++ [255])) := by
  obtain ⟨f, hf, hgrown⟩ := zrealloc_grow fresh zl extra
  obtain ⟨new, x, rfl⟩ : ∃ new x, f = new ++ [x] :=
    (eq_nil_or_concat' f).resolve_left fun hnil => by rw [hnil, length_nil] at hf; omega
  have hnew : new.length + 1 = extra := by rwa [length_append] at hf
  have hholds := h.append (new ++ [x])
  refine ⟨new, hnew, ?_⟩
  rw [Ziplist.ziplistResize, Nat.mod_eq_of_lt hv, hgrown]
  have hset := hholds.setBytes hv
  have hlen := h.length_eq
  have hset' : Holds (Ziplist.setBytes (zl ++ (new ++ [x])) (zl.length + extra)) (zl.length + extra)
      t l (c ++ new ++ ([x] ++ [])) := by rwa [append_nil, List.append_assoc]
  have hend : Holds (Memory.overwrite (Ziplist.setBytes (zl ++ (new ++ [x])) (zl.length + extra))
      (zl.length + extra - 1) [255]) (zl.length + extra) t l (c ++ new ++ ([255] ++ [])) :=
    hset'.overwrite (by rw [length_append]; omega) rfl
  rwa [append_nil, List.append_assoc] at hend

end

/-! ### Reading an entry -/

theorem length_prevBytes (large : Bool) (prev : ℕ) :
    (prevBytes large prev).length = if large then 5 else 1 := by
  cases large with
  | false => rfl
  | true => exact congrArg (· + 1) (length_bytesOfInt 4 prev)

@[simp] theorem size_nil : size [] = 0 := rfl

@[simp] theorem size_cons (i : Item) (items : List Item) : size (i :: items) = i.rawlen + size items :=
  rfl

theorem length_encode (items : List Item) : ∀ prev, (encode prev items).length = size items := by
  induction items with
  | nil => exact fun _ => rfl
  | cons i items ih =>
    intro prev
    rw [encode, length_append, length_append, ih, length_prevBytes, size_cons, Item.rawlen,
      Item.prevSize, Nat.add_assoc]

theorem zipDecodePrevlen_spec {large : Bool} {prev : ℕ} (hsmall : large = false → prev < 254)
    (hprev : prev < 2 ^ 32) (rest : List UInt8) :
    zipDecodePrevlen (prevBytes large prev ++ rest) = some (if large then 5 else 1, prev) := by
  cases large with
  | false =>
    have hlt := hsmall rfl
    have hnat : (UInt8.ofNat prev).toNat = prev := by
      rw [UInt8.toNat_ofNat', Nat.mod_eq_of_lt (by omega)]
    have hbyte : UInt8.ofNat prev < 254 := by
      rw [UInt8.lt_iff_toNat_lt, hnat]
      exact hlt
    simp [prevBytes, zipDecodePrevlen, hbyte, hnat]
  | true =>
    have htake : ((bytesOfInt 4 prev ++ rest).take 4) = bytesOfInt 4 prev :=
      take_left' (length_bytesOfInt 4 prev)
    have hlen : ¬ (bytesOfInt 4 (prev : ℤ) ++ rest).length < 4 := by
      rw [length_append, length_bytesOfInt]
      omega
    have hval : natOfBytes (bytesOfInt 4 prev) = prev := natOfBytes_bytesOfNat (by omega)
    simp only [prevBytes, if_true, List.cons_append, zipDecodePrevlen, htake, hval, if_neg hlen]
    rfl

theorem zipDecodeLength_append {body : List UInt8} {r : UInt8 × ℕ × ℕ}
    (h : zipDecodeLength body = some r) (rest : List UInt8) :
    zipDecodeLength (body ++ rest) = some r := by
  cases body with
  | nil => cases h
  | cons b bs =>
    simp only [List.cons_append, zipDecodeLength] at h ⊢
    split_ifs at h ⊢
    · exact h
    · cases bs with
      | nil => cases h
      | cons c bs => exact h
    · rcases bs with - | ⟨c₁, - | ⟨c₂, - | ⟨c₃, - | ⟨c₄, bs⟩⟩⟩⟩
      · cases h
      · cases h
      · cases h
      · cases h
      · exact h
    · exact h

theorem prevBytes_ne_end {large : Bool} {prev : ℕ} (hsmall : large = false → prev < 254)
    (rest : List UInt8) : ∃ x, (prevBytes large prev ++ rest)[0]? = some x ∧ x ≠ 255 := by
  cases large with
  | false =>
    refine ⟨_, rfl, fun heq => ?_⟩
    have hlt := hsmall rfl
    have hnat := congrArg UInt8.toNat heq
    rw [UInt8.toNat_ofNat', Nat.mod_eq_of_lt (by omega)] at hnat
    change prev = 255 at hnat
    omega
  | true => exact ⟨254, rfl, by decide⟩

section

variable {zl before after : List UInt8} {b t l p prev : ℕ} {i : Item}

theorem Holds.getElem? (h : Holds zl b t l (before ++ after)) (hp : p = headerSize + before.length) :
    zl[p]? = after[0]? := by
  have hdrop := congrArg (·[0]?) (h.drop hp)
  simpa only [List.getElem?_drop, Nat.add_zero] using hdrop

/-- **An entry** is read. -/
theorem zipEntry_spec (h : Holds zl b t l (before ++ (prevBytes i.large prev ++ (i.body ++ after))))
    (hp : p = headerSize + before.length) (hsmall : i.large = false → prev < 254)
    (hprev : prev < 2 ^ 32) (hbody : IsBody i.body) :
    ∃ e, zipEntry zl p = some e ∧ e.prevrawlensize = i.prevSize ∧ e.prevrawlen = prev ∧
      e.headersize + e.len = i.rawlen := by
  obtain ⟨encoding, lensize, len, hdecode, hlen⟩ := hbody
  have hprevlen := zipDecodePrevlen_spec hsmall hprev (i.body ++ after)
  rw [← h.drop hp] at hprevlen
  have hbehind : zl.drop (p + if i.large then 5 else 1) = i.body ++ after := by
    have hsplit : Holds zl b t l ((before ++ prevBytes i.large prev) ++ (i.body ++ after)) := by
      rwa [List.append_assoc]
    refine hsplit.drop ?_
    rw [hp, length_append, length_prevBytes, Nat.add_assoc]
  have hlength := zipDecodeLength_append hdecode after
  rw [← hbehind] at hlength
  refine ⟨_, by simp only [zipEntry, hprevlen, hlength, bind_eq_bind, bind_some]; rfl,
    rfl, rfl, ?_⟩
  rw [Item.rawlen, Item.prevSize, ← hlen, Nat.add_assoc]

end

/-! ### The cascade -/

theorem zipPrevEncodeSize_eq (len : ℕ) : zipPrevEncodeSize len = if len < 254 then 1 else 5 := rfl

theorem zipPrevEncodeLength_eq (zl : List UInt8) (p len : ℕ) :
    zipPrevEncodeLength zl p len = overwrite zl p (prevBytes (decide (254 ≤ len)) len) := by
  rw [zipPrevEncodeLength]
  by_cases hlen : len < 254
  · rw [if_pos hlen, decide_eq_false (by omega)]
    rfl
  · rw [if_neg hlen, decide_eq_true (by omega)]
    rfl

theorem size_dropLast_cons (i j : Item) (items : List Item) :
    size (i :: j :: items).dropLast = i.rawlen + size (j :: items).dropLast := rfl

theorem size_dropLast_le (items : List Item) : size items.dropLast ≤ size items := by
  induction items with
  | nil => exact Nat.le_refl _
  | cons i items ih =>
    cases items with
    | nil => exact Nat.zero_le _
    | cons j items =>
      rw [size_dropLast_cons, size_cons]
      omega

section

variable {zl before body new : List UInt8} {b t l p q len : ℕ}

/-- **An entry grows**: what is behind the length moves by four bytes, and the length takes five. -/
theorem grow_spec (h : Holds zl b t l (before ++ (prevBytes false q ++ (body ++ [255])) ++ (new ++ [255])))
    (hnew : new.length + 1 = 4) (hp : p = headerSize + before.length) (hlarge : 254 ≤ len) :
    Holds (zipPrevEncodeLength (memmove zl (p + 5) (p + 1) body.length) p len) b t l
      (before ++ (prevBytes true len ++ (body ++ [255]))) := by
  have hone : (prevBytes false q).length = 1 := rfl
  -- the source of the move
  have hsrc : Holds zl b t l ((before ++ prevBytes false q) ++ (body ++ ([255] ++ (new ++ [255])))) := by
    simpa only [List.append_assoc] using h
  have hslice := hsrc.slice (i := p + 1) (by rw [length_append, hone, hp, Nat.add_assoc])
  -- its target: five bytes behind the entry before, up to the new end byte
  obtain ⟨front, back, hfront, hback, hsplit⟩ : ∃ front back : List UInt8, front.length = 5 ∧
      back.length = body.length ∧ prevBytes false q ++ (body ++ ([255] ++ new)) = front ++ back := by
    refine ⟨_, _, ?_, ?_, (take_append_drop 5 _).symm⟩
    · rw [length_take, length_append, length_append, length_append, hone]
      change min 5 (1 + (body.length + (1 + new.length))) = 5
      omega
    · rw [length_drop, length_append, length_append, length_append, hone]
      change 1 + (body.length + (1 + new.length)) - 5 = body.length
      omega
  have hdst : Holds zl b t l ((before ++ front) ++ (back ++ [255])) := by
    have hcontents : (before ++ front) ++ (back ++ [255]) =
        before ++ (prevBytes false q ++ (body ++ [255])) ++ (new ++ [255]) := by
      have hcat := congrArg (fun x => before ++ (x ++ [255])) hsplit
      simp only [List.append_assoc] at hcat ⊢
      exact hcat.symm
    rwa [hcontents]
  have hmoved := hdst.overwrite (i := p + 5) (by rw [length_append, hfront, hp, Nat.add_assoc])
    hback.symm
  rw [List.append_assoc] at hmoved
  have hwritten := hmoved.overwrite hp ((length_prevBytes true len).trans hfront.symm)
  rw [memmove, hslice, zipPrevEncodeLength_eq, decide_eq_true hlarge]
  exact hwritten

end

/-- A length that its bytes have room for is written over the one before. -/
theorem keep_eq (zl : List UInt8) (p : ℕ) {next : Item} {rawlen : ℕ}
    (h : ¬ next.prevSize < zipPrevEncodeSize rawlen) :
    (if next.prevSize > zipPrevEncodeSize rawlen then
        pure (zipPrevEncodeLengthForceLarge zl p rawlen)
      else pure (zipPrevEncodeLength zl p rawlen) : Option (List UInt8)) =
        some (overwrite zl p (prevBytes next.large rawlen)) ∧
      (next.large = false → rawlen < 254) := by
  rw [Item.prevSize, zipPrevEncodeSize_eq] at h ⊢
  cases hl : next.large with
  | false =>
    have hlt : rawlen < 254 := by
      by_contra hge
      rw [hl, if_neg hge] at h
      exact h (by decide)
    rw [if_pos hlt, if_neg (by decide), zipPrevEncodeLength_eq, decide_eq_false (by omega)]
    exact ⟨rfl, fun _ => hlt⟩
  | true =>
    refine ⟨?_, nofun⟩
    by_cases hlt : rawlen < 254
    · rw [if_pos hlt, if_pos (by decide)]
      rfl
    · rw [if_neg hlt, if_neg (by decide), zipPrevEncodeLength_eq, decide_eq_true (by omega)]
      rfl

/-- What a block holds while the entry after `cur` may have the length `q` of another. -/
def Seam (zl : List UInt8) (l : ℕ) (before : List UInt8) (prev : ℕ) (cur : Item) (q : ℕ)
    (rest : List Item) : Prop :=
  Holds zl zl.length (headerSize + before.length + size (cur :: rest).dropLast) l
    (before ++ (prevBytes cur.large prev ++ (cur.body ++ (encode q rest ++ [255]))))

section

variable {zl before : List UInt8} {l prev q fuel : ℕ} {cur next : Item} {rest : List Item}

theorem Seam.length_eq (h : Seam zl l before prev cur q rest) :
    zl.length = headerSize + before.length + cur.rawlen + size rest + 1 := by
  have hlen := Holds.length_eq h
  rw [length_append, length_append, length_append, length_append, length_encode,
    length_prevBytes, length_singleton] at hlen
  rw [hlen, Item.rawlen, Item.prevSize]
  omega

/-- The entry before the seam, and where the next one starts. -/
theorem cur_spec {after : List UInt8} {b t : ℕ}
    (h : Holds zl b t l (before ++ (prevBytes cur.large prev ++ (cur.body ++ after))))
    (hsmall : cur.large = false → prev < 254) (hprev : prev < 2 ^ 32) (hbody : IsBody cur.body)
    (hlen : zl.length < 2 ^ 32) :
    (∃ x, zl[headerSize + before.length]? = some x ∧ x ≠ 255) ∧
      (∃ e, zipEntry zl (headerSize + before.length) = some e ∧
        (e.headersize + e.len) % 2 ^ 32 = cur.rawlen) ∧
      Holds zl b t l ((before ++ prevBytes cur.large prev ++ cur.body) ++ after) ∧
      headerSize + before.length + cur.rawlen =
        headerSize + (before ++ prevBytes cur.large prev ++ cur.body).length := by
  obtain ⟨x, hx, hne⟩ := prevBytes_ne_end hsmall (cur.body ++ after)
  obtain ⟨e, he, -, -, hraw⟩ := zipEntry_spec h rfl hsmall hprev hbody
  have hall := h.length_eq
  simp only [length_append, length_prevBytes] at hall
  have hrawlen : cur.rawlen = (if cur.large then 5 else 1) + cur.body.length := rfl
  refine ⟨⟨x, by rw [h.getElem? rfl, hx], hne⟩, ⟨e, he, ?_⟩, ?_, ?_⟩
  · rw [hraw, Nat.mod_eq_of_lt (by omega)]
  · simpa only [List.append_assoc] using h
  · rw [length_append, length_append, length_prevBytes, hrawlen]
    omega

theorem cascadeLoop_last (fresh : ℕ → UInt8) {b t curlen : ℕ}
    (h : Holds zl b t l (before ++ (prevBytes cur.large prev ++ (cur.body ++ [255]))))
    (hsmall : cur.large = false → prev < 254) (hprev : prev < 2 ^ 32) (hbody : IsBody cur.body)
    (hlen : zl.length < 2 ^ 32) :
    cascadeLoop fresh (fuel + 1) zl (headerSize + before.length) curlen = some zl := by
  obtain ⟨⟨x, hx, hne⟩, ⟨e, he, hraw⟩, hafter, hp⟩ := cur_spec h hsmall hprev hbody hlen
  have hend := hafter.getElem? hp
  simp only [cascadeLoop, hx, he, hraw, hend, bind_eq_bind, bind_some, if_neg hne,
    List.getElem?_cons_zero]
  rfl

/-- The offset of the last entry moves unless the entry that grows is the last. -/
theorem tail_spec {c : List UInt8} {b t n : ℕ} (h : Holds zl b t l c) (ht : t + 4 < 2 ^ 32) :
    Holds (if ziplistTailOffset zl ≠ n then setTailOffset zl (ziplistTailOffset zl + 4) else zl) b
      (if t ≠ n then t + 4 else t) l c := by
  rw [h.tail]
  by_cases hn : t ≠ n
  · rw [if_pos hn, if_pos hn]
    exact h.setTailOffset ht
  · rw [if_neg hn, if_neg hn]
    exact h

theorem tail_grown {p : ℕ} (hlarge : next.large = false) (hp : p + cur.rawlen = q) :
    (if p + size (cur :: next :: rest).dropLast ≠ q then p + size (cur :: next :: rest).dropLast + 4
      else p + size (cur :: next :: rest).dropLast) =
      q + size ((⟨true, next.body⟩ : Item) :: rest).dropLast := by
  rw [size_dropLast_cons]
  cases rest with
  | nil =>
    rw [if_neg]
    · change p + (cur.rawlen + 0) = q + 0
      omega
    · change ¬ p + (cur.rawlen + 0) ≠ q
      omega
  | cons i rest =>
    have hold : next.rawlen = 1 + next.body.length := by rw [Item.rawlen, Item.prevSize, hlarge]; rfl
    have hnew : (⟨true, next.body⟩ : Item).rawlen = 5 + next.body.length := rfl
    rw [size_dropLast_cons, size_dropLast_cons, hold, hnew, if_pos (by omega)]
    omega

/-- A length that needs more space is large, and the one before it is not. -/
theorem large_of_grows {rawlen : ℕ} (hgrow : next.prevSize < zipPrevEncodeSize rawlen) :
    next.large = false ∧ 254 ≤ rawlen := by
  rw [Item.prevSize, zipPrevEncodeSize_eq] at hgrow
  cases hl : next.large with
  | true =>
    rw [if_pos hl] at hgrow
    split_ifs at hgrow <;> omega
  | false =>
    rw [if_neg (by rw [hl]; decide)] at hgrow
    refine ⟨rfl, ?_⟩
    split_ifs at hgrow <;> omega

/-- **The cascade** leaves the entries with the lengths of the ones before them. -/
theorem cascadeLoop_spec (fresh : ℕ → UInt8) (rest : List Item) :
    ∀ (before : List UInt8) (cur : Item) (prev q fuel : ℕ) (zl : List UInt8),
      Seam zl l before prev cur q rest → (cur.large = false → prev < 254) → prev < 2 ^ 32 →
      q < 2 ^ 32 → Chain q rest → (∀ i ∈ cur :: rest, IsBody i.body) → rest.length < fuel →
      zl.length < 2 ^ 32 → (254 ≤ cur.rawlen → zl.length + 4 + size rest / 50 < 2 ^ 32) →
      ∃ zl' rest', cascadeLoop fresh fuel zl (headerSize + before.length) zl.length = some zl' ∧
        rest'.map Item.body = rest.map Item.body ∧ Chain cur.rawlen rest' ∧
        Seam zl' l before prev cur cur.rawlen rest' := by
  induction rest with
  | nil =>
    intro before cur prev q fuel zl h hsmall hprev _ _ hbody hfuel hlen _
    obtain ⟨fuel, rfl⟩ : ∃ n, fuel = n + 1 := ⟨fuel - 1, by omega⟩
    exact ⟨zl, [], cascadeLoop_last fresh h hsmall hprev (hbody cur mem_cons_self) hlen, rfl,
      trivial, h⟩
  | cons next rest ih =>
    intro before cur prev q fuel zl h hsmall hprev hq hchain hbody hfuel hlen hroom
    obtain ⟨⟨x, hx, hne⟩, ⟨e, he, hraw⟩, hafter, hp⟩ :=
      cur_spec h hsmall hprev (hbody cur mem_cons_self) hlen
    obtain ⟨fuel, rfl⟩ : ∃ n, fuel = n + 1 := ⟨fuel - 1, by omega⟩
    obtain ⟨hnext, hchain⟩ := hchain
    have hall := h.length_eq
    rw [size_cons] at hall
    -- the next entry
    set pre := before ++ prevBytes cur.large prev ++ cur.body with hpre
    set rawlen := cur.rawlen with hrawlen
    clear_value pre rawlen
    have hafter' : Holds zl zl.length (headerSize + before.length + size (cur :: next :: rest).dropLast)
        l (pre ++ (prevBytes next.large q ++ (next.body ++ (encode next.rawlen rest ++ [255])))) := by
      simpa only [encode, List.append_assoc] using hafter
    have hnextbody := hbody next (mem_cons_of_mem _ mem_cons_self)
    obtain ⟨x', hx', hne'⟩ := prevBytes_ne_end hnext (next.body ++ (encode next.rawlen rest ++ [255]))
    rw [← hafter'.getElem? hp] at hx'
    obtain ⟨e', he', hsize', hprev', -⟩ := zipEntry_spec hafter' hp hnext hq hnextbody
    simp only [cascadeLoop, hx, he, hraw, hx', he', hsize', hprev', bind_eq_bind,
      bind_some, if_neg hne, if_neg hne']
    by_cases hsame : q = rawlen
    · rw [if_pos hsame]
      exact ⟨zl, next :: rest, rfl, rfl, ⟨hsame ▸ hnext, hchain⟩, hsame ▸ h⟩
    rw [if_neg hsame]
    have hraw5 := zipPrevEncodeSize_eq rawlen
    by_cases hgrow : next.prevSize < zipPrevEncodeSize rawlen
    · -- the next entry grows, and may be the one before another that has to
      obtain ⟨hnl, hlarge⟩ := large_of_grows hgrow
      have hone : next.prevSize = 1 := by rw [Item.prevSize, hnl]; rfl
      have hfive : zipPrevEncodeSize rawlen = 5 := by rw [hraw5, if_neg (by omega)]
      have hroom' := hroom hlarge
      rw [size_cons] at hroom'
      obtain ⟨new, hnew, hresized⟩ := hafter'.ziplistResize fresh (by decide : 0 < 4) (by omega)
      have hbound := size_dropLast_le (next :: rest)
      rw [size_cons] at hbound
      have htail := tail_spec hresized (n := headerSize + before.length + rawlen)
        (by rw [size_dropLast_cons]; omega)
      rw [tail_grown hnl (congrArg (headerSize + before.length + ·) hrawlen.symm)] at htail
      rw [if_pos hgrow, hfive, hone, Nat.add_sub_cancel_left 1 4]
      generalize (if ziplistTailOffset (ziplistResize fresh zl (zl.length + 4)) ≠
        headerSize + before.length + rawlen then _ else _) = moved at htail ⊢
      rw [hp] at htail ⊢
      have hcount : zl.length - (headerSize + pre.length) - 1 - 1 =
          (next.body ++ encode next.rawlen rest).length := by
        rw [length_append, length_encode, hall, ← hp, Item.rawlen, hone]
        omega
      have hgrown : Holds (zipPrevEncodeLength (memmove moved (headerSize + pre.length + 5)
          (headerSize + pre.length + 1) (next.body ++ encode next.rawlen rest).length)
          (headerSize + pre.length) rawlen) (zl.length + 4)
          (headerSize + pre.length + size ((⟨true, next.body⟩ : Item) :: rest).dropLast) l
          (pre ++ (prevBytes true rawlen ++ (next.body ++ encode next.rawlen rest ++ [255]))) :=
        grow_spec (by simpa only [hnl, List.append_assoc] using htail) hnew rfl hlarge
      rw [hcount]
      generalize zipPrevEncodeLength _ _ _ = grown at hgrown ⊢
      have hglen : grown.length = zl.length + 4 := by
        rw [hgrown.length_eq]
        simp only [length_append, length_prevBytes, length_encode, if_true, length_singleton]
        rw [Item.rawlen, hone] at hall
        omega
      have hseam : Seam grown l pre rawlen ⟨true, next.body⟩ next.rawlen rest := by
        rw [Seam, hglen]
        simpa only [List.append_assoc] using hgrown
      obtain ⟨zl', rest', hloop, hbodies, hchain', hseam'⟩ := ih pre ⟨true, next.body⟩ rawlen
        next.rawlen fuel grown hseam nofun (by omega) (by omega) hchain
        (fun i hi => (mem_cons.mp hi).elim (fun h => h ▸ hnextbody)
          fun h => hbody i (mem_cons_of_mem _ (mem_cons_of_mem _ h)))
        (Nat.lt_of_succ_lt_succ hfuel) (by omega) (fun hlarge' => by
          rw [Item.rawlen, Item.prevSize, if_pos rfl] at hlarge'
          rw [Item.rawlen, hone] at hroom'
          simp only at hlarge'
          omega)
      rw [hglen] at hloop
      refine ⟨zl', ⟨true, next.body⟩ :: rest', hloop, congrArg (next.body :: ·) hbodies,
        ⟨Bool.noConfusion, hchain'⟩, ?_⟩
      rw [Seam, ← hp] at hseam'
      rw [Seam, size_dropLast_cons, ← hrawlen, ← Nat.add_assoc]
      simpa only [encode, hpre, List.append_assoc] using hseam'
    · -- the next entry keeps its size
      rw [if_neg hgrow]
      obtain ⟨hkeep, hfits⟩ := keep_eq zl (headerSize + before.length + rawlen) hgrow
      have hwritten := hafter'.overwrite hp
        ((length_prevBytes next.large rawlen).trans (length_prevBytes next.large q).symm)
      have hlen' : (overwrite zl (headerSize + before.length + rawlen)
          (prevBytes next.large rawlen)).length = zl.length := by
        refine length_overwrite ?_
        rw [length_prevBytes, ← Item.prevSize]
        rw [Item.rawlen] at hall
        omega
      refine ⟨_, next :: rest, hkeep, rfl, ⟨hfits, hchain⟩, ?_⟩
      rw [Seam, hlen']
      simpa only [encode, List.append_assoc, hpre] using hwritten

end

end SourceLibs.Ziplist
