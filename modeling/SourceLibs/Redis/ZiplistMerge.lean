import SourceLibs.Redis.Ziplist

/-!
# Redis — merging ziplists

`ziplistMerge` of `ziplist.c`.  The list with more entries is extended, in place, by the entries of the
other, behind or in front; the offset of the last entry is computed from the old headers, and the
length at the seam is repaired by `__ziplistCascadeUpdate`.

* `joined_spec`: whichever list is extended, the block holds both lists of entries.
* `ziplistMerge_iff`: the result is well formed unless the second list alone is empty.
-/

namespace SourceLibs.Ziplist
open List Option Memory

/-! ### The source -/

/-- What `ziplistMerge` leaves in its arguments, and what it returns. -/
structure Merged where
  first : Option (List UInt8)
  second : Option (List UInt8)
  target : Option (List UInt8)

section

variable (fresh : ℕ → UInt8)

/-- The extended target, with the contents of both. -/
def joined (append : Bool) (first second : List UInt8) : List UInt8 :=
  let firstBytes := ziplistBytes first
  let secondBytes := ziplistBytes second
  let zlbytes := firstBytes + secondBytes - headerSize - 1
  if append then
    let target := zrealloc fresh first zlbytes
    overwrite target (firstBytes - 1) (slice second headerSize (secondBytes - headerSize))
  else
    let target := zrealloc fresh second zlbytes
    let target := memmove target (firstBytes - 1) headerSize (secondBytes - headerSize)
    overwrite target 0 (slice first 0 (firstBytes - 1))

/-- `ziplistMerge`; a null pointer is `none`, and `same` says that both pointers are one. -/
def ziplistMerge (first second : Option (List UInt8)) (same : Bool) : Option Merged :=
  match first, second with
  | some x, some y =>
    if same then some ⟨first, second, none⟩
    else do
      let firstBytes := ziplistBytes x
      let firstLen := ziplistLength x
      let secondBytes := ziplistBytes y
      let secondLen := ziplistLength y
      let append := decide (firstLen ≥ secondLen)
      let zlbytes := firstBytes + secondBytes - headerSize - 1
      let zllength := firstLen + secondLen
      let zllength := if zllength < 2 ^ 16 - 1 then zllength else 2 ^ 16 - 1
      let firstOffset := ziplistTailOffset x
      let secondOffset := ziplistTailOffset y
      let target := joined fresh append x y
      let target := setBytes target zlbytes
      let target := setLength target zllength
      let target := setTailOffset target (firstBytes - 1 + (secondOffset - headerSize))
      let target ← ziplistCascadeUpdate fresh target firstOffset
      return if append then ⟨some target, none, some target⟩ else ⟨none, some target, some target⟩
  | _, _ => some ⟨first, second, none⟩

end

/-! ### Two lists of entries -/

/-- The bytes of the last of entries, after an entry of `prev` bytes. -/
def lastRawlen : ℕ → List Item → ℕ
  | prev, [] => prev
  | _, i :: rest => lastRawlen i.rawlen rest

theorem encode_append (items rest : List Item) : ∀ prev,
    encode prev (items ++ rest) = encode prev items ++ encode (lastRawlen prev items) rest := by
  induction items with
  | nil => exact fun _ => rfl
  | cons i items ih =>
    intro prev
    rw [List.cons_append, encode, encode, ih, lastRawlen, List.append_assoc, List.append_assoc]

theorem chain_append (items rest : List Item) : ∀ prev,
    Chain prev (items ++ rest) ↔ Chain prev items ∧ Chain (lastRawlen prev items) rest := by
  induction items with
  | nil => exact fun _ => ⟨fun h => ⟨trivial, h⟩, fun h => h.2⟩
  | cons i items ih =>
    intro prev
    rw [List.cons_append, Chain, Chain, ih, lastRawlen, and_assoc]

theorem size_append (items rest : List Item) : size (items ++ rest) = size items + size rest := by
  rw [size, map_append, List.sum_append, size, size]

theorem length_le_size (items : List Item) : items.length ≤ size items := by
  induction items with
  | nil => exact Nat.le_refl _
  | cons i items ih =>
    rw [length_cons, size_cons, Item.rawlen, Item.prevSize]
    split_ifs
    · omega
    · omega

theorem lastRawlen_le (items : List Item) : ∀ prev, lastRawlen prev items ≤ prev + size items := by
  induction items with
  | nil => exact fun _ => Nat.le_refl _
  | cons i items ih =>
    intro prev
    have h := ih i.rawlen
    rw [lastRawlen, size_cons]
    omega

/-- A well-formed block that holds no entry of its own where its header says the last one is. -/
theorem not_wellFormed_of_tail {zl : List UInt8} {bodies : List (List UInt8)} (hne : bodies ≠ [])
    (htail : ziplistTailOffset zl + 1 = zl.length) : ¬ WellFormed zl bodies := by
  rintro ⟨items, hbodies, -, -, h⟩
  have hlen := h.length_eq
  rw [length_append, length_encode, length_singleton] at hlen
  rw [h.tail] at htail
  rcases eq_nil_or_concat' items with rfl | ⟨init, last, rfl⟩
  · exact hne hbodies.symm
  · rw [dropLast_concat, size_append, size_cons, size_nil] at *
    have hpos := length_le_size [last]
    rw [length_singleton, size_cons, size_nil] at hpos
    omega

/-! ### The joined block -/

section

variable (fresh : ℕ → UInt8) {x y a b : List UInt8} {bx tx lx ty ly : ℕ}

/-- **Whichever list is extended**, the block holds the entries of both. -/
theorem joined_spec (append : Bool) (hx : Holds x x.length tx lx (a ++ [255]))
    (hy : Holds y y.length ty ly (b ++ [255])) :
    ∃ bytes tail length, Holds (joined fresh append x y) bytes tail length (a ++ (b ++ [255])) := by
  have hhead : headerSize = 10 := rfl
  have hxlen := hx.length_eq
  have hylen := hy.length_eq
  rw [length_append, length_singleton] at hxlen hylen
  simp only [joined, hx.bytes, hy.bytes]
  cases append with
  | true =>
    obtain ⟨f, hf, hgrown⟩ := zrealloc_grow fresh x b.length
    have hpart : Holds (x ++ f) x.length tx lx (a ++ (([255] ++ f) ++ [])) := by
      simpa only [List.append_assoc, append_nil] using hx.append f
    have hsrc : slice y headerSize (y.length - headerSize) = b ++ [255] := by
      rw [slice, hy.contents, take_of_length_le]
      rw [length_append, length_singleton]
      omega
    have hwritten := hpart.overwrite (i := x.length - 1) (by omega)
      (show (b ++ [255]).length = ([255] ++ f).length by
        rw [length_append, length_append, hf, Nat.add_comm])
    rw [if_pos rfl, show x.length + y.length - headerSize - 1 = x.length + b.length by omega, hgrown,
      hsrc]
    exact ⟨_, _, _, by rwa [append_nil] at hwritten⟩
  | false =>
    obtain ⟨f, hf, hgrown⟩ := zrealloc_grow fresh y a.length
    have hholds := hy.append f
    have hsrc : slice (y ++ f) headerSize (y.length - headerSize) = b ++ [255] := by
      rw [slice, hholds.contents, take_left']
      rw [length_append, length_singleton]
      omega
    -- the target of the move is what is behind the space for the first list
    obtain ⟨front, back, hfront, hback, hsplit⟩ : ∃ front back : List UInt8,
        front.length = a.length ∧ back.length = b.length + 1 ∧ b ++ [255] ++ f = front ++ back := by
      refine ⟨_, _, ?_, ?_, (take_append_drop a.length _).symm⟩
      · rw [length_take, length_append, length_append, length_singleton]
        omega
      · rw [length_drop, length_append, length_append, length_singleton]
        omega
    have hdst : Holds (y ++ f) y.length ty ly (front ++ (back ++ [])) := by
      rw [append_nil, ← hsplit]
      exact hholds
    have hmoved := hdst.overwrite (i := x.length - 1) (by omega)
      (show (b ++ [255]).length = back.length by rw [hback, length_append]; rfl)
    rw [append_nil] at hmoved
    -- the header and the entries of the first list go in front
    have hcopied : (slice x 0 (x.length - 1)).length = headerSize + a.length := by
      rw [length_slice (by omega)]
      omega
    have hbehind := hmoved.drop (i := headerSize + a.length) (by rw [hfront])
    rw [if_neg (by decide), show x.length + y.length - headerSize - 1 = y.length + a.length by omega,
      hgrown, memmove, hsrc]
    generalize overwrite (y ++ f) (x.length - 1) (b ++ [255]) = moved at hbehind hmoved ⊢
    have hcontents : (overwrite moved 0 (slice x 0 (x.length - 1))).drop headerSize =
        a ++ (b ++ [255]) := by
      rw [overwrite, take_zero, nil_append, Nat.zero_add, hcopied, hbehind,
        drop_append_of_le_length (by omega), slice, drop_zero, drop_take, hx.contents,
        take_left' (by omega)]
    refine ⟨_, _, _, ⟨?_, rfl, rfl, rfl, hcontents⟩⟩
    have hlen := congrArg length hcontents
    rw [length_drop, length_append, length_append, length_singleton] at hlen
    omega

end

/-! ### The merge -/

section

variable (fresh : ℕ → UInt8) {x y : List UInt8} {es fs : List (List UInt8)}

/-- **`ziplistMerge` concatenates**: it returns a well-formed list of the entries of both, in the place
of one of its arguments. -/
def Concatenates (x y : List UInt8) (es fs : List (List UInt8)) : Prop :=
  ∃ z, WellFormed z (es ++ fs) ∧
    (ziplistMerge fresh (some x) (some y) false = some ⟨some z, none, some z⟩ ∨
      ziplistMerge fresh (some x) (some y) false = some ⟨none, some z, some z⟩)

/-- What is returned is the only list that can be the concatenation. -/
theorem concatenates_iff {P : Prop} [Decidable P] {z : List UInt8}
    (hmerge : ziplistMerge fresh (some x) (some y) false =
      some (if P then ⟨some z, none, some z⟩ else ⟨none, some z, some z⟩)) :
    Concatenates fresh x y es fs ↔ WellFormed z (es ++ fs) := by
  rw [Concatenates, hmerge]
  constructor
  · rintro ⟨w, hw, heq | heq⟩
    · split_ifs at heq
      · exact (some_inj.mp (Merged.mk.inj (some_inj.mp heq)).2.2) ▸ hw
      · exact absurd (Merged.mk.inj (some_inj.mp heq)).1 nofun
    · split_ifs at heq
      · exact absurd (Merged.mk.inj (some_inj.mp heq)).1 nofun
      · exact (some_inj.mp (Merged.mk.inj (some_inj.mp heq)).2.2) ▸ hw
  · intro hw
    refine ⟨z, hw, ?_⟩
    split_ifs
    · exact Or.inl rfl
    · exact Or.inr rfl

/-- The block before the seam is repaired. -/
theorem unrepaired_spec {tx ty lx ly : ℕ} {a b : List UInt8} (hx : Holds x x.length tx lx (a ++ [255]))
    (hy : Holds y y.length ty ly (b ++ [255])) (hsize : x.length + y.length < 2 ^ 31)
    (hty : headerSize ≤ ty) (hty' : ty < y.length) :
    ∃ z, z.length + headerSize + 1 = x.length + y.length ∧
      Holds z z.length (x.length - 1 + (ty - headerSize)) (min (lx + ly) (2 ^ 16 - 1))
        (a ++ (b ++ [255])) ∧
      ziplistMerge fresh (some x) (some y) false = (ziplistCascadeUpdate fresh z tx).map fun target =>
        if lx ≥ ly then ⟨some target, none, some target⟩ else ⟨none, some target, some target⟩ := by
  have hhead : headerSize = 10 := rfl
  have hxlen := hx.length_eq
  have hylen := hy.length_eq
  rw [length_append, length_singleton] at hxlen hylen
  obtain ⟨b₀, t₀, l₀, hjoined⟩ := joined_spec fresh (decide (lx ≥ ly)) hx hy
  have hz := ((hjoined.setBytes (v := x.length + y.length - headerSize - 1) (by omega)).setLength
    (v := if lx + ly < 2 ^ 16 - 1 then lx + ly else 2 ^ 16 - 1) (by split_ifs <;> omega)).setTailOffset
    (v := x.length - 1 + (ty - headerSize)) (by omega)
  have hlen := hz.length_eq
  rw [length_append, length_append, length_singleton] at hlen
  have hmin : (if lx + ly < 2 ^ 16 - 1 then lx + ly else 2 ^ 16 - 1) = min (lx + ly) (2 ^ 16 - 1) := by
    rw [Nat.min_def]
    split_ifs <;> omega
  obtain ⟨z, hdef⟩ : ∃ z, z = setTailOffset
      (setLength (setBytes (joined fresh (decide (lx ≥ ly)) x y) (x.length + y.length - headerSize - 1))
        (if lx + ly < 2 ^ 16 - 1 then lx + ly else 2 ^ 16 - 1))
      (x.length - 1 + (ty - headerSize)) := ⟨_, rfl⟩
  rw [← hdef] at hz hlen
  have hbytes : x.length + y.length - headerSize - 1 = z.length := by omega
  rw [hbytes, hmin] at hz
  refine ⟨z, by omega, hz, ?_⟩
  simp only [ziplistMerge, Bool.false_eq_true, if_false, hx.bytes, hx.length, hx.tail, hy.bytes,
    hy.length, hy.tail, bind_eq_bind, decide_eq_true_eq, ← hdef]
  rw [map_eq_bind]
  rfl

/-- **The seam is repaired**: the cascade leaves a well-formed list. -/
theorem repaired_spec {z : List UInt8} {init rest : List Item} {cur : Item} {q n : ℕ}
    (h : Seam z (min n (2 ^ 16 - 1)) (encode 0 init) (lastRawlen 0 init) cur q rest)
    (hn : n = (init ++ cur :: rest).length) (hchain : Chain 0 (init ++ [cur])) (hq : q < 2 ^ 32)
    (hrest : Chain q rest) (hbody : ∀ i ∈ init ++ cur :: rest, IsBody i.body)
    (hz : z.length < 2 ^ 31) :
    ∃ z', ziplistCascadeUpdate fresh z (headerSize + size init) = some z' ∧
      WellFormed z' ((init ++ cur :: rest).map Item.body) := by
  obtain ⟨hchain, hcur, -⟩ := (chain_append init [cur] 0).mp hchain
  have hlen := h.length_eq
  rw [length_encode] at hlen
  have hprev := lastRawlen_le init 0
  have hcount := length_le_size rest
  have hholds : Holds z z.length _ _ _ := h
  obtain ⟨z', rest', hloop, hbodies, hchain', hseam⟩ := cascadeLoop_spec fresh rest (encode 0 init) cur
    (lastRawlen 0 init) q (z.length + 1) z h hcur (by omega) hq hrest
    (fun i hi => hbody i (mem_append_right _ hi)) (by omega) (by omega) (fun _ => by omega)
  rw [length_encode] at hloop
  have hitems : (init ++ cur :: rest').map Item.body = (init ++ cur :: rest).map Item.body := by
    rw [map_append, map_append, map_cons, map_cons, hbodies]
  refine ⟨z', by rw [ziplistCascadeUpdate, hholds.bytes, hloop], init ++ cur :: rest', hitems, ?_, ?_, ?_⟩
  · intro body hmem
    obtain ⟨i, hi, rfl⟩ := List.mem_map.mp hmem
    exact hbody i hi
  · rw [chain_append]
    exact ⟨hchain, hcur, hchain'⟩
  · have hcontents : encode 0 (init ++ cur :: rest') ++ [255] = encode 0 init ++
        (prevBytes cur.large (lastRawlen 0 init) ++ (cur.body ++ (encode cur.rawlen rest' ++ [255]))) := by
      rw [encode_append, encode]
      simp only [List.append_assoc]
    rw [dropLast_append_of_ne_nil (cons_ne_nil _ _), size_append, hcontents, ← Nat.add_assoc,
      length_map, ← hn]
    rwa [Seam, length_encode] at hseam

/-- **`ziplistMerge`** concatenates unless the second list alone is empty. -/
theorem ziplistMerge_iff (hx : WellFormed x es) (hy : WellFormed y fs)
    (hsize : x.length + y.length < 2 ^ 31) : Concatenates fresh x y es fs ↔ es = [] ∨ fs ≠ [] := by
  obtain ⟨items, hes, hesbody, heschain, hxholds⟩ := hx
  obtain ⟨rest, hfs, hfsbody, hfschain, hyholds⟩ := hy
  have hylen := hyholds.length_eq
  rw [length_append, length_encode, length_singleton] at hylen
  have hxlen := hxholds.length_eq
  rw [length_append, length_encode, length_singleton] at hxlen
  have hdrop := size_dropLast_le rest
  obtain ⟨z, hzlen, hz, hmerge⟩ := unrepaired_spec fresh hxholds hyholds hsize (Nat.le_add_right _ _)
    (by omega)
  have hmin : min (min es.length (2 ^ 16 - 1) + min fs.length (2 ^ 16 - 1)) (2 ^ 16 - 1) =
      min (es ++ fs).length (2 ^ 16 - 1) := by
    rw [length_append]
    omega
  have htail : x.length - 1 + (headerSize + size rest.dropLast - headerSize) =
      headerSize + size items + size rest.dropLast := by omega
  rw [hmin, htail] at hz
  have hbody : ∀ i ∈ items ++ rest, IsBody i.body := by
    intro i hi
    rcases mem_append.mp hi with h | h
    · exact hesbody _ (hes ▸ List.mem_map_of_mem h)
    · exact hfsbody _ (hfs ▸ List.mem_map_of_mem h)
  have hdone : ∀ z', ziplistCascadeUpdate fresh z (headerSize + size items.dropLast) = some z' →
      (Concatenates fresh x y es fs ↔ WellFormed z' (es ++ fs)) := by
    exact fun z' hz' => concatenates_iff fresh (by rw [hmerge, hz', map_some])
  have hall : es ++ fs = (items ++ rest).map Item.body := by rw [map_append, hes, hfs]
  have hlength : (es ++ fs).length = (items ++ rest).length := by rw [hall, length_map]
  rcases eq_nil_or_concat' items with rfl | ⟨init, last, rfl⟩
  · -- the first list is empty: there is no seam
    refine iff_of_true ?_ (Or.inl hes.symm)
    cases rest with
    | nil =>
      have hempty : Holds z z.length _ _ ([] ++ [255]) := hz
      have hend : z[headerSize]? = some 255 := hempty.getElem? rfl
      have hcascade : ziplistCascadeUpdate fresh z (headerSize + size ([] : List Item).dropLast) =
          some z := by
        simp [ziplistCascadeUpdate, cascadeLoop, hend]
      refine (hdone z hcascade).mpr ⟨[], hall.symm, ?_, trivial, hz⟩
      rw [hall]
      exact fun body h => absurd h not_mem_nil
    | cons j rest =>
      have hseam : Seam z (min (es ++ fs).length (2 ^ 16 - 1)) (encode 0 [])
          (lastRawlen 0 []) j j.rawlen rest := by
        rw [Seam]
        simpa only [encode, lastRawlen, nil_append, List.append_assoc, length_nil, size_nil,
          Nat.add_zero] using hz
      rw [size_cons] at hylen
      obtain ⟨z', hz', hwf⟩ := repaired_spec fresh hseam hlength ⟨hfschain.1, trivial⟩ (by omega)
        hfschain.2 hbody (by omega)
      exact (hdone z' hz').mpr (hall ▸ hwf)
  · have hne : es ≠ [] := by
      rw [← hes]
      simp
    cases rest with
    | nil =>
      -- the tail offset points to the end byte
      have hlast : Holds z z.length
          (headerSize + size (init ++ [last]) + size ([] : List Item).dropLast)
          (min (es ++ fs).length (2 ^ 16 - 1)) (encode 0 init ++
            (prevBytes last.large (lastRawlen 0 init) ++ (last.body ++ [255]))) := by
        simpa only [encode_append, encode, nil_append, append_nil, List.append_assoc] using hz
      obtain ⟨-, hcur, -⟩ := (chain_append init [last] 0).mp heschain
      have hprev := lastRawlen_le init 0
      rw [size_append, size_cons, size_nil] at hxlen
      have hcascade : ziplistCascadeUpdate fresh z (headerSize + size (init ++ [last]).dropLast) =
          some z := by
        rw [dropLast_concat, ← length_encode init 0]
        exact cascadeLoop_last fresh hlast hcur (by omega) (hbody last (by simp)) (by omega)
      refine iff_of_false (mt (hdone z hcascade).mp (not_wellFormed_of_tail ?_ ?_)) ?_
      · simpa using fun h => absurd h hne
      · rw [hz.tail, size_append, size_cons, size_nil]
        simp only [dropLast_nil, size_nil] at hylen ⊢
        omega
      · rintro (h | h)
        · exact hne h
        · exact h hfs.symm
    | cons j rest =>
      refine iff_of_true ?_ (Or.inr (by rw [← hfs]; simp))
      have hseam : Seam z (min (es ++ fs).length (2 ^ 16 - 1)) (encode 0 init) (lastRawlen 0 init) last
          0 (j :: rest) := by
        have htail' : headerSize + (encode 0 init).length + size (last :: j :: rest).dropLast =
            headerSize + size (init ++ [last]) + size (j :: rest).dropLast := by
          rw [length_encode, size_dropLast_cons, size_append, size_cons, size_nil]
          omega
        rw [Seam, htail']
        simpa only [encode_append, encode, nil_append, append_nil, List.append_assoc] using hz
      have hlength' : (es ++ fs).length = (init ++ last :: j :: rest).length := by
        rw [hlength, List.append_assoc]
        rfl
      have hbody' : ∀ i ∈ init ++ last :: j :: rest, IsBody i.body := by
        simpa only [List.append_assoc, singleton_append] using hbody
      obtain ⟨z', hz', hwf⟩ := repaired_spec fresh hseam hlength' heschain (by decide) hfschain hbody'
        (by omega)
      refine (hdone z' (by rwa [dropLast_concat])).mpr ?_
      rw [hall, List.append_assoc]
      exact hwf

end

/-- The list of the string `a`. -/
def single : List UInt8 := [14, 0, 0, 0, 10, 0, 0, 0, 1, 0, 0, 1, 97, 255]

def ziplistNew : List UInt8 := [11, 0, 0, 0, 10, 0, 0, 0, 0, 0, 255]

theorem single_wellFormed : WellFormed single [[1, 97]] :=
  ⟨[⟨false, [1, 97]⟩], rfl, fun _ h => mem_singleton.mp h ▸ ⟨0, 1, 1, rfl, rfl⟩,
    ⟨fun _ => by decide, trivial⟩, ⟨by decide, rfl, rfl, rfl, rfl⟩⟩

theorem ziplistNew_wellFormed : WellFormed ziplistNew [] :=
  ⟨[], rfl, fun _ h => absurd h not_mem_nil, trivial, ⟨by decide, rfl, rfl, rfl, rfl⟩⟩

theorem ziplistMerge_iff_single :
    Concatenates (fun _ => 0) single single [[1, 97]] [[1, 97]] :=
  (ziplistMerge_iff _ single_wellFormed single_wellFormed (by decide)).mpr (Or.inr (by decide))

/-- Behind `a`, an empty list: the offset of the last entry, 13, is that of the end byte. -/
theorem ziplistMerge_loses_tail :
    WellFormed single [[1, 97]] ∧ WellFormed ziplistNew [] ∧
      ¬ Concatenates (fun _ => 0) single ziplistNew [[1, 97]] [] := by
  refine ⟨single_wellFormed, ziplistNew_wellFormed, ?_⟩
  have hmerge : ziplistMerge (fun _ => 0) (some single) (some ziplistNew) false =
      some ⟨some [14, 0, 0, 0, 13, 0, 0, 0, 1, 0, 0, 1, 97, 255], none,
        some [14, 0, 0, 0, 13, 0, 0, 0, 1, 0, 0, 1, 97, 255]⟩ := by rfl
  rintro ⟨z, hz, h | h⟩
  · have htarget := (Merged.mk.inj (some_inj.mp (hmerge.symm.trans h))).2.2
    rw [← some_inj.mp htarget] at hz
    exact not_wellFormed_of_tail (by decide) rfl hz
  · exact absurd (Merged.mk.inj (some_inj.mp (hmerge.symm.trans h))).1 nofun

end SourceLibs.Ziplist
