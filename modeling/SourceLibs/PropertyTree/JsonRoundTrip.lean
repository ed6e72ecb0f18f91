import SourceLibs.PropertyTree.JsonTree

/-!
# Property tree — what is written is read back

What `write_json_helper` writes is a text of the grammar, for a value whose tree is the one that is written: a
node without children as a string, one with empty keys only as an array, any other as an object, and the root as
an object in any case.  `verify_json` keeps data and children apart.

* `characters_createEscapes`: escaped, a string spells itself.
* `spells_writeJsonHelper`: what is written spells a value for the tree.
* `writeJson_reads_back`: so it is read back.
-/

namespace SourceLibs.PropertyTree
open List

open Encoding JsonGrammar

/-! ### Strings -/

/-- How a byte of ASCII is escaped: not at all, with one character, or with its code. -/
theorem createEscape_ascii {b : UInt8} (hb : b.toNat < 0x80) :
    (createEscape b = [b] ∧ 0x20 ≤ b.toNat ∧ b ≠ 0x22 ∧ b ≠ 0x5C) ∨
      (∃ e, createEscape b = [0x5C, e] ∧ escaped e = some b) ∨
      ∃ x y, createEscape b = [0x5C, 0x75, 0x30, 0x30, x, y] ∧ hexValue x = some (b.toNat / 16) ∧
        hexValue y = some (b.toNat % 16) := by
  have hall : ∀ b : UInt8, b.toNat < 0x80 →
      (createEscape b = [b] ∧ 0x20 ≤ b.toNat ∧ b ≠ 0x22 ∧ b ≠ 0x5C) ∨
      (createEscape b = [0x5C, (createEscape b).getD 1 0] ∧ escaped ((createEscape b).getD 1 0) = some b) ∨
      (createEscape b = [0x5C, 0x75, 0x30, 0x30, (createEscape b).getD 4 0, (createEscape b).getD 5 0] ∧
        hexValue ((createEscape b).getD 4 0) = some (b.toNat / 16) ∧
        hexValue ((createEscape b).getD 5 0) = some (b.toNat % 16)) := forall_byte (by decide +kernel)
  rcases hall b hb with h | h | h
  · exact .inl h
  · exact .inr (.inl ⟨_, h⟩)
  · exact .inr (.inr ⟨_, _, h⟩)

theorem createEscape_high {b : UInt8} (hb : 0x80 ≤ b.toNat) : createEscape b = [b] := by
  have hall : ∀ b : UInt8, 0x80 ≤ b.toNat → createEscape b = [b] := forall_byte (by decide +kernel)
  exact hall b hb

theorem character_ascii {b : UInt8} (hb : b.toNat < 0x80) (r : Str) :
    Character IsShape (createEscape b ++ r) [b] r := by
  rcases createEscape_ascii hb with ⟨h, hlow, hquote, hback⟩ | ⟨e, h, he⟩ | ⟨x, y, h, hx, hy⟩
  · rw [h]
    exact .plain r hlow hb hquote hback
  · rw [h]
    exact .escape r he
  · rw [h]
    have hhex : Hex4 (0x30 :: 0x30 :: x :: y :: r) b.toNat r := by
      have hzero : hexValue 0x30 = some 0 := rfl
      have := Hex4.mk r hzero hzero hx hy
      rwa [show ((0 * 16 + 0) * 16 + b.toNat / 16) * 16 + b.toNat % 16 = b.toNat by omega] at this
    have hencode : encode b.toNat = [b] := by
      rw [← feedCodepoint_eq (.inl (by omega)), feedCodepoint, if_pos (by omega), UInt8.ofNat_toNat]
    rw [← hencode]
    exact .unicode hhex (fun h => by rw [IsHigh] at h; omega) fun h => by rw [IsLow] at h; omega

theorem createEscapes_high {w : Str} (hw : ∀ b ∈ w, 0x80 ≤ b.toNat) : createEscapes w = w := by
  induction w with
  | nil => rfl
  | cons b w ih =>
    have hw' := ih fun c hc => hw c (mem_cons_of_mem _ hc)
    rw [createEscapes] at hw' ⊢
    rw [flatMap_cons, createEscape_high (hw b mem_cons_self), hw']
    rfl

theorem createEscapes_append (s t : Str) : createEscapes (s ++ t) = createEscapes s ++ createEscapes t :=
  flatMap_append

theorem encode_bytes {c : Char} (hc : 0x80 ≤ c.val.toNat) :
    ∀ b ∈ String.utf8EncodeChar c, 0x80 ≤ b.toNat := by
  obtain ⟨hseq, u, ts, heq, hu⟩ := IsCharacter.shape ⟨c, hc, rfl⟩
  rw [heq] at hseq ⊢
  cases hseq with
  | mk _ _ hlead htrail => exact forall_mem_cons.mpr ⟨hu, fun t ht => (htrail t ht).1⟩

/-- **Escaped, a string spells itself.** -/
theorem characters_createEscapes {s : Str} (h : Utf8.WellFormed s) (r : Str) :
    Characters IsShape (createEscapes s ++ 0x22 :: r) s r := by
  induction h with
  | nil => exact .done r
  | cons c h ih =>
    rw [createEscapes_append, List.append_assoc]
    refine .more ?_ ih
    rcases Nat.lt_or_ge c.val.toNat 0x80 with hc | hc
    · rw [Utf8.encode_one (by omega), createEscapes, flatMap_singleton]
      exact character_ascii (by rw [Utf8.toNat_ofNat (by omega)]; exact hc) _
    · have hshape : IsCharacter (String.utf8EncodeChar c) := ⟨c, hc, rfl⟩
      rw [createEscapes_high (encode_bytes hc)]
      exact .raw _ hshape.shape

/-! ### White space -/

theorem spaces_append {w : Str} (hw : ∀ b ∈ w, IsSpace b) (r : Str) : Spaces (w ++ r) r := by
  induction w with
  | nil => exact .none r
  | cons b w ih => exact .more (hw b mem_cons_self) (ih fun c hc => hw c (mem_cons_of_mem _ hc))

theorem spaces_pretty {w : Str} (hw : ∀ b ∈ w, IsSpace b) (pretty : Bool) (r : Str) :
    Spaces (whenPretty pretty w ++ r) r := by
  cases pretty with
  | false => exact .none r
  | true => exact spaces_append hw r

theorem isSpace_blanks (n : ℕ) : ∀ b ∈ blanks n, IsSpace b := fun _ hb => .inl (eq_of_mem_replicate hb)

theorem isSpace_newline : ∀ b ∈ ([0x0A] : Str), IsSpace b := by
  intro b hb
  rw [mem_singleton.mp hb]
  decide

/-! ### Trees -/

mutual

/-- Every key and all data in the tree have `P`. -/
def AllStrings (P : Str → Prop) : Ptree → Prop
  | .node data children => P data ∧ AllChildren P children

/-- `P` holds of the data and the keys of all children. -/
def AllChildren (P : Str → Prop) : List (Str × Ptree) → Prop
  | [] => True
  | (key, pt) :: next => P key ∧ AllStrings P pt ∧ AllChildren P next

end

theorem verifyJson_node {depth : ℕ} {data : Str} {children : List (Str × Ptree)}
    (h : verifyJson depth (.node data children) = true) :
    (depth = 0 → data = []) ∧ (children ≠ [] → data = []) ∧ verifyChildren depth children = true := by
  rw [verifyJson] at h
  cases data with
  | nil =>
    refine ⟨fun _ => rfl, fun _ => rfl, ?_⟩
    simpa using h
  | cons u data =>
    cases children with
    | nil => simpa [verifyChildren] using h
    | cons child children => simp at h

theorem verifyChildren_cons {depth : ℕ} {key : Str} {pt : Ptree} {next : List (Str × Ptree)}
    (h : verifyChildren depth ((key, pt) :: next) = true) :
    verifyJson (depth + 1) pt = true ∧ verifyChildren depth next = true := by
  rw [verifyChildren] at h
  cases hpt : verifyJson (depth + 1) pt with
  | true => exact ⟨rfl, by rwa [hpt, if_pos rfl] at h⟩
  | false =>
    rw [hpt] at h
    exact nomatch h

theorem separator_cons {next : List (Str × Ptree)} (h : next ≠ []) : separator next = [0x2C] :=
  if_neg (by simpa using h)

mutual

/-- **What is written spells a value for the tree.** -/
theorem spells_writeJsonHelper (pretty : Bool) : (pt : Ptree) → (indent : ℕ) → verifyJson indent pt = true →
    AllStrings Utf8.WellFormed pt →
    ∃ v, tree v = pt ∧ ∀ r, Spells IsShape (.value v) (writeJsonHelper pretty indent pt ++ r) r
  | .node data children, indent, hverify, hwf => by
    obtain ⟨hroot, hdata, hchildren⟩ := verifyJson_node hverify
    rw [AllStrings] at hwf
    by_cases hstring : 0 < indent ∧ children = []
    · obtain ⟨hindent, rfl⟩ := hstring
      refine ⟨.string data, by rw [tree], fun r => ?_⟩
      have hwrite : writeJsonHelper pretty indent (.node data []) ++ r =
          0x22 :: (createEscapes data ++ 0x22 :: r) := by
        rw [writeJsonHelper, if_pos (by simpa using hindent), List.cons_append, List.append_assoc]
        rfl
      rw [hwrite]
      exact .string (characters_createEscapes hwf.1 r)
    have hnil : data = [] := by
      rcases Nat.eq_zero_or_pos indent with h | h
      · exact hroot h
      · exact hdata fun hc => hstring ⟨h, hc⟩
    subst hnil
    have hwhite : ∀ r, Spaces (whenPretty pretty [0x0A] ++ r) r := spaces_pretty isSpace_newline pretty
    have hblanks : ∀ r, Spaces (whenPretty pretty (blanks (4 * indent)) ++ r) r :=
      spaces_pretty (isSpace_blanks _) pretty
    have hnot : ¬ (0 < indent && children.isEmpty) = true := by
      rw [Bool.and_eq_true, decide_eq_true_eq, List.isEmpty_iff]
      exact hstring
    by_cases harray : (0 < indent && children.countP (fun child => child.1 == []) == children.length) = true
    · have hne : children ≠ [] := fun h => by
        rw [h] at hnot harray
        exact hnot (by simpa using harray)
      have hkeys : ∀ child ∈ children, child.1 = [] := by
        rw [Bool.and_eq_true, beq_iff_eq, countP_eq_length] at harray
        exact fun child hc => beq_iff_eq.mp (harray.2 child hc)
      obtain ⟨vs, hvs, hspells⟩ := spells_writeItems pretty children indent hne hkeys hchildren hwf.2
      refine ⟨.array vs, by rw [tree, hvs], fun r => ?_⟩
      rw [writeJsonHelper, if_neg hnot, if_pos harray]
      simp only [List.cons_append, List.append_assoc]
      refine .array (Spells.after_spaces (hwhite _) (hspells _ _ (hblanks _)) fun _ h => nomatch h)
    · by_cases hne : children = []
      · subst hne
        refine ⟨.object [], by rw [tree, memberTrees], fun r => ?_⟩
        rw [writeJsonHelper, if_neg hnot, if_neg harray, writeMembers]
        simp only [List.cons_append, List.append_assoc]
        exact .emptyObject ((hwhite _).trans (hblanks _))
      · obtain ⟨ms, hms, hspells⟩ := spells_writeMembers pretty children indent hne hchildren hwf.2
        refine ⟨.object ms, by rw [tree, hms], fun r => ?_⟩
        rw [writeJsonHelper, if_neg hnot, if_neg harray]
        simp only [List.cons_append, List.append_assoc]
        exact .object (Spells.after_spaces (hwhite _) (hspells _ _ (hblanks _)) fun _ h => nomatch h)

theorem spells_writeItems (pretty : Bool) : (children : List (Str × Ptree)) → (indent : ℕ) → children ≠ [] →
    (∀ child ∈ children, child.1 = []) → verifyChildren indent children = true →
    AllChildren Utf8.WellFormed children →
    ∃ vs, itemTrees vs = children ∧ ∀ r r', Spaces r r' →
      Spells IsShape (.items vs) (writeItems pretty indent children ++ r) r'
  | [], _, hne, _, _, _ => absurd rfl hne
  | (key, pt) :: next, indent, _, hkeys, hverify, hwf => by
    obtain ⟨hpt, hnext⟩ := verifyChildren_cons hverify
    rw [AllChildren] at hwf
    obtain ⟨v, hv, hspells⟩ := spells_writeJsonHelper pretty pt (indent + 1) hpt hwf.2.1
    have hkey : key = [] := hkeys (key, pt) mem_cons_self
    have hwhite : ∀ r, Spaces (whenPretty pretty [0x0A] ++ r) r := spaces_pretty isSpace_newline pretty
    have hblanks : ∀ r, Spaces (whenPretty pretty (blanks (4 * (indent + 1))) ++ r) r :=
      spaces_pretty (isSpace_blanks _) pretty
    by_cases hlast : next = []
    · subst hlast
      refine ⟨[v], by rw [itemTrees, itemTrees, hv, hkey], fun r r' hr => ?_⟩
      rw [writeItems, writeItems]
      simp only [List.append_assoc]
      exact .item (hblanks _) (hspells _) ((hwhite _).trans hr)
    · obtain ⟨vs, hvs, hspells'⟩ := spells_writeItems pretty next indent hlast
        (fun child hc => hkeys child (mem_cons_of_mem _ hc)) hnext hwf.2.2
      refine ⟨v :: vs, by rw [itemTrees, hv, hvs, hkey], fun r r' hr => ?_⟩
      rw [writeItems, separator_cons hlast]
      simp only [List.append_assoc]
      exact .items (hblanks _) (hspells _) (.none _)
        ((hspells' r r' hr).after_spaces (hwhite _) fun _ h => nomatch h)

theorem spells_writeMembers (pretty : Bool) : (children : List (Str × Ptree)) → (indent : ℕ) → children ≠ [] →
    verifyChildren indent children = true → AllChildren Utf8.WellFormed children →
    ∃ ms, memberTrees ms = children ∧ ∀ r r', Spaces r r' →
      Spells IsShape (.members ms) (writeMembers pretty indent children ++ r) r'
  | [], _, hne, _, _ => absurd rfl hne
  | (key, pt) :: next, indent, _, hverify, hwf => by
    obtain ⟨hpt, hnext⟩ := verifyChildren_cons hverify
    rw [AllChildren] at hwf
    obtain ⟨v, hv, hspells⟩ := spells_writeJsonHelper pretty pt (indent + 1) hpt hwf.2.1
    have hwhite : ∀ r, Spaces (whenPretty pretty [0x0A] ++ r) r := spaces_pretty isSpace_newline pretty
    have hblank : ∀ r, Spaces (whenPretty pretty [0x20] ++ r) r := spaces_pretty (isSpace_blanks 1) pretty
    have hblanks : ∀ r, Spaces (whenPretty pretty (blanks (4 * (indent + 1))) ++ r) r :=
      spaces_pretty (isSpace_blanks _) pretty
    have hkey : ∀ r, Characters IsShape (createEscapes key ++ 0x22 :: r) key r :=
      characters_createEscapes hwf.1
    by_cases hlast : next = []
    · subst hlast
      refine ⟨[(key, v)], by rw [memberTrees, memberTrees, hv], fun r r' hr => ?_⟩
      rw [writeMembers, writeMembers]
      simp only [List.append_assoc, List.cons_append]
      exact .member (hblanks _) (hkey _) (.none _) (hblank _) (hspells _) ((hwhite _).trans hr)
    · obtain ⟨ms, hms, hspells'⟩ := spells_writeMembers pretty next indent hlast hnext hwf.2.2
      refine ⟨(key, v) :: ms, by rw [memberTrees, hv, hms], fun r r' hr => ?_⟩
      rw [writeMembers, separator_cons hlast]
      simp only [List.append_assoc, List.cons_append]
      exact .members (hblanks _) (hkey _) (.none _) (hblank _) (hspells _) (.none _)
        ((hspells' r r' hr).after_spaces (hwhite _) fun _ h => nomatch h)

end

/-! ### Reading back -/

/-- **What is written is read back**: from what `write_json_helper` writes, pretty or not, `parse_value` and
`finish` build the tree that was written, through either kind of iterators. -/
theorem writeJson_reads_back (category : Category) (pretty : Bool) (filename : String) {pt : Ptree}
    (hverify : verifyJson 0 pt = true) (hwf : AllStrings Utf8.WellFormed pt) :
    ∃ callbacks, readRange standardCallbacks category (writeJsonHelper pretty 0 pt) .new filename =
      .ok callbacks ∧
      callbacks.root = pt := by
  obtain ⟨v, hv, hspells⟩ := spells_writeJsonHelper pretty pt 0 hverify hwf
  have hvalue := hspells []
  rw [append_nil] at hvalue
  have htext : IsText IsShape v (writeJsonHelper pretty 0 pt) := ⟨_, [], .none _, hvalue, .none []⟩
  have hskip : skipIntroduction (writeJsonHelper pretty 0 pt) = writeJsonHelper pretty 0 pt :=
    skipIntroduction_of_ne fun r hr => isText_head (hr ▸ htext)
  refine ⟨run standardCallbacks category v .new, ?_, (run_new category v).trans hv⟩
  exact (readRange_ok_iff oneByOne_standard _ _ filename).mpr ⟨v, by rwa [hskip], rfl⟩

/-- An object with an array, an escaped string, an empty key and an empty node. -/
theorem writeJson_reads_back_one :
    verifyJson 0 (.node [] [([0x61], .node [] [([], .node [0x2F, 0x01, 0xC3, 0xA9] [])]),
      ([], .empty)]) = true ∧
      ∃ callbacks, readRange standardCallbacks .forward
        (writeJsonHelper true 0 (.node [] [([0x61], .node [] [([], .node [0x2F, 0x01, 0xC3, 0xA9] [])]),
          ([], .empty)])) .new "a.json" = .ok callbacks ∧
        callbacks.root = .node [] [([0x61], .node [] [([], .node [0x2F, 0x01, 0xC3, 0xA9] [])]),
          ([], .empty)] := by
  have hascii : Utf8.WellFormed [0x61] := .ascii (by decide) .nil
  have hdata : Utf8.WellFormed [0x2F, 0x01, 0xC3, 0xA9] :=
    .ascii (by decide) (.ascii (by decide) (.cons (Char.ofNat 0xE9) .nil))
  exact ⟨rfl, writeJson_reads_back .forward true "a.json" rfl
    ⟨.nil, hascii, ⟨.nil, .nil, ⟨hdata, trivial⟩, trivial⟩, .nil, ⟨.nil, trivial⟩, trivial⟩⟩

end SourceLibs.PropertyTree
