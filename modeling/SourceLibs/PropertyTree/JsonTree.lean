import SourceLibs.PropertyTree.JsonParser

/-!
# Property tree — the tree of a text

`tree` is what a value is as a property tree.  The standard callbacks hang an empty node under the innermost
open layer and fill it: `run_fills` says that the calls for a value fill the node with the tree of the value,
and leave the layers below it as they were.

* `run_fills`: the calls for a value build its tree.
* `readJsonInternal_ok_iff`: reading gives the tree of the text, whichever adapters are used.
* `meets_iff`: the inputs for which the reader accepts exactly JSON.
-/

namespace SourceLibs.PropertyTree
open List

open Encoding JsonGrammar StandardCallbacks

/-! ### The tree of a value -/

mutual

/-- **The property tree of a value.** -/
def tree : Json → Ptree
  | .null => .node nullValue []
  | .bool b => .node (if b then trueValue else falseValue) []
  | .number ds => .node ds []
  | .string s => .node s []
  | .array vs => .node [] (itemTrees vs)
  | .object ms => .node [] (memberTrees ms)

/-- The children that items become. -/
def itemTrees : List Json → List (Str × Ptree)
  | [] => []
  | v :: vs => ([], tree v) :: itemTrees vs

/-- The children that members become. -/
def memberTrees : List (Str × Json) → List (Str × Ptree)
  | [] => []
  | (k, v) :: ms => (k, tree v) :: memberTrees ms

end

/-! ### Pointers into a tree -/

namespace Ptree

variable {f g : Ptree → Ptree} {pt t u : Ptree} {p q : List ℕ} {key : Str}

theorem get?_cons (i : ℕ) (p : List ℕ) (pt : Ptree) :
    pt.get? (i :: p) = (pt.children[i]?).bind fun child => get? p child.2 := by
  rw [get?]

theorem modify_cons (f : Ptree → Ptree) (i : ℕ) (p : List ℕ) (pt : Ptree) :
    modify f (i :: p) pt =
      node pt.data (pt.children.modify i fun child => (child.1, modify f p child.2)) := by
  rw [modify]

/-- Only the node that is there is changed. -/
theorem modify_congr (h : pt.get? p = some t) (hfg : f t = g t) : modify f p pt = modify g p pt := by
  induction p generalizing pt with
  | nil =>
    rw [get?] at h
    rw [modify, modify, Option.some.inj h, hfg]
  | cons i p ih =>
    rw [get?_cons, Option.bind_eq_some_iff] at h
    obtain ⟨child, hchild, ht⟩ := h
    rw [modify_cons, modify_cons]
    refine congrArg (node pt.data) (ext_getElem? fun j => ?_)
    by_cases hij : i = j
    · subst hij
      rw [List.getElem?_modify_eq, List.getElem?_modify_eq, hchild]
      show some (child.1, modify f p child.2) = some (child.1, modify g p child.2)
      rw [ih ht]
    · rw [List.getElem?_modify_ne _ _ hij, List.getElem?_modify_ne _ _ hij]

theorem modify_id (p : List ℕ) (pt : Ptree) : modify (fun t => t) p pt = pt := by
  induction p generalizing pt with
  | nil => rfl
  | cons i p ih =>
    rw [modify_cons]
    simp only [ih]
    rw [show (fun child : Str × Ptree => (child.1, child.2)) = id from rfl, List.modify_id]
    cases pt
    rfl

theorem modify_modify (f g : Ptree → Ptree) (p : List ℕ) (pt : Ptree) :
    modify g p (modify f p pt) = modify (fun t => g (f t)) p pt := by
  induction p generalizing pt with
  | nil => rfl
  | cons i p ih =>
    rw [modify_cons, modify_cons, modify_cons]
    show node pt.data ((pt.children.modify i _).modify i _) = _
    rw [modify_modify_eq]
    refine congrArg (fun F => node pt.data (pt.children.modify i F)) (funext fun child => ?_)
    exact congrArg (Prod.mk child.1) (ih child.2)

theorem get?_modify (h : pt.get? p = some t) (q : List ℕ) : (modify f p pt).get? (p ++ q) = (f t).get? q := by
  induction p generalizing pt with
  | nil =>
    rw [get?] at h
    rw [modify, Option.some.inj h]
    rfl
  | cons i p ih =>
    rw [get?_cons, Option.bind_eq_some_iff] at h
    obtain ⟨child, hchild, ht⟩ := h
    rw [modify_cons, List.cons_append, get?_cons]
    show (List.modify _ i _)[i]?.bind _ = _
    rw [List.getElem?_modify_eq, hchild]
    exact ih ht

theorem modify_append (f : Ptree → Ptree) (p q : List ℕ) (pt : Ptree) :
    modify f (p ++ q) pt = modify (modify f q) p pt := by
  induction p generalizing pt with
  | nil => rfl
  | cons i p ih =>
    rw [List.cons_append, modify_cons, modify_cons]
    simp only [ih]

theorem get?_pushBack (pt : Ptree) (key : Str) (u : Ptree) :
    (pt.pushBack (key, u)).get? [pt.children.length] = some u := by
  rw [get?_cons]
  show (pt.children ++ [(key, u)])[pt.children.length]?.bind _ = _
  rw [List.getElem?_concat_length]
  rfl

theorem modify_concat {α : Type} (f : α → α) (l : List α) (a : α) :
    (l ++ [a]).modify l.length f = l ++ [f a] := by
  induction l with
  | nil => rfl
  | cons b l ih => exact congrArg (b :: ·) ih

theorem modify_pushBack (f : Ptree → Ptree) (pt : Ptree) (key : Str) (u : Ptree) :
    modify f [pt.children.length] (pt.pushBack (key, u)) = pt.pushBack (key, f u) := by
  rw [modify_cons]
  show node pt.data ((pt.children ++ [(key, u)]).modify _ _) = node pt.data (pt.children ++ [(key, f u)])
  rw [modify_concat]
  rfl

end Ptree

/-! ### The callbacks -/

variable {category : Category} {s : StandardCallbacks} {root : Ptree} {buffer k : Str} {q : List ℕ}
  {l : Layer} {stack below : List Layer} {cs : List (Str × Ptree)}

/-- `stack` is `l` over `below`, and there may be a leaf on it. -/
def Over (l : Layer) (below stack : List Layer) : Prop :=
  stack = l :: below ∨ ∃ r, stack = ⟨.leaf, r⟩ :: l :: below

theorem currentValue_currentValue (f g : Str → Str) (s : StandardCallbacks) :
    (s.currentValue f).currentValue g = s.currentValue fun d => g (f d) := by
  obtain ⟨root, buffer, stack⟩ := s
  cases stack with
  | nil => rfl
  | cons l stack =>
    obtain ⟨k, q⟩ := l
    have hmodify : (root.modify (.setData f) q).modify (.setData g) q =
      root.modify (.setData fun d => g (f d)) q :=
      Ptree.modify_modify _ _ q root
    cases k with
    | key => rfl
    | _ => exact congrArg (fun pt => StandardCallbacks.mk pt buffer _) hmodify

/-- Code units are added at the end of the current value. -/
theorem deliver_standard (w : Str) (s : StandardCallbacks) :
    deliver standardCallbacks w s = s.currentValue fun d => d ++ w := by
  induction w generalizing s with
  | nil =>
    obtain ⟨root, buffer, stack⟩ := s
    simp only [append_nil]
    cases stack with
    | nil => rfl
    | cons l stack =>
      obtain ⟨k, q⟩ := l
      have hmodify : root.modify (.setData fun d => d) q = root := by
        rw [show (Ptree.setData fun d => d) = fun t => t from funext fun t => by cases t; rfl]
        exact Ptree.modify_id q root
      cases k with
      | key => rfl
      | _ => exact congrArg (fun pt => StandardCallbacks.mk pt buffer _) hmodify.symm
  | cons u w ih =>
    have hunit : standardCallbacks.onCodeUnit u s = s.currentValue fun d => d ++ [u] := rfl
    show deliver standardCallbacks w (standardCallbacks.onCodeUnit u s) = _
    rw [ih, hunit, currentValue_currentValue]
    simp only [List.append_assoc, singleton_append]

theorem oneByOne_standard : OneByOne standardCallbacks := fun w s => (deliver_standard w s).symm

/-- An empty node at `q`, which is the topmost layer. -/
def Opens (s : StandardCallbacks) (root : Ptree) (buffer : Str) (q : List ℕ) (below : List Layer) : Prop :=
  s.newTree = ⟨root, buffer, ⟨.leaf, q⟩ :: below⟩ ∧ s.newValue = s.newTree ∧ root.get? q = some .empty

theorem Opens.setData (h : Opens s root buffer q below) (f : Str → Str) :
    s.newValue.currentValue f = ⟨root.modify (fun _ => .node (f []) []) q, buffer, ⟨.leaf, q⟩ :: below⟩ := by
  obtain ⟨htree, hvalue, hq⟩ := h
  rw [hvalue, htree]
  refine congrArg (fun pt => StandardCallbacks.mk pt buffer _) ?_
  exact Ptree.modify_congr hq rfl

theorem Opens.number (h : Opens s root buffer q below) (ds : Str) :
    runNumber standardCallbacks category ds s =
      ⟨root.modify (fun _ => .node ds []) q, buffer, ⟨.leaf, q⟩ :: below⟩ := by
  cases category with
  | forward => exact h.setData fun _ => ds
  | input =>
    refine (deliver_standard ds s.newValue).trans ?_
    exact h.setData fun d => d ++ ds

theorem Opens.string (h : Opens s root buffer q below) (ds : Str) :
    runString standardCallbacks ds s =
      ⟨root.modify (fun _ => .node ds []) q, buffer, ⟨.leaf, q⟩ :: below⟩ := by
  refine (deliver_standard ds s.newValue).trans ?_
  exact h.setData fun d => d ++ ds

theorem pushChild_eq (hq : root.get? q = some (.node [] cs)) (key : Str) :
    pushChild key q below ⟨root, buffer, stack⟩ =
      ⟨root.modify (.pushBack (key, .empty)) q, buffer, ⟨.leaf, q ++ [cs.length]⟩ :: below⟩ := by
  have hget := Ptree.get?_modify (f := .pushBack (key, .empty)) hq []
  rw [append_nil] at hget
  have hsize : (((root.modify (.pushBack (key, .empty)) q).get? q).getD .empty).children.length - 1 =
      cs.length := by
    rw [hget]
    show (cs ++ [(key, Ptree.empty)]).length - 1 = cs.length
    rw [length_append]
    rfl
  rw [pushChild, hsize]

theorem get?_pushChild (hq : root.get? q = some (.node [] cs)) (key : Str) :
    (root.modify (.pushBack (key, .empty)) q).get? (q ++ [cs.length]) = some .empty := by
  rw [Ptree.get?_modify hq]
  exact Ptree.get?_pushBack (.node [] cs) key .empty

theorem opens_array (buffer : Str) (hstack : Over ⟨.array, q⟩ below stack)
    (hq : root.get? q = some (.node [] cs)) :
    Opens ⟨root, buffer, stack⟩ (root.modify (.pushBack ([], .empty)) q) buffer (q ++ [cs.length])
      (⟨.array, q⟩ :: below) := by
  refine ⟨?_, ?_, get?_pushChild hq []⟩
  · rcases hstack with rfl | ⟨r, rfl⟩
    · exact pushChild_eq hq []
    · exact pushChild_eq hq []
  · rcases hstack with rfl | ⟨r, rfl⟩
    · rfl
    · rfl

theorem opens_key (k : Str) (below : List Layer) (hq : root.get? q = some (.node [] cs)) :
    Opens ⟨root, k, ⟨.key, q⟩ :: below⟩ (root.modify (.pushBack (k, .empty)) q) k (q ++ [cs.length])
      (⟨.object, q⟩ :: below) :=
  ⟨pushChild_eq hq k, rfl, get?_pushChild hq k⟩

theorem fill_child (hq : root.get? q = some (.node [] cs)) (key : Str) (u : Ptree) :
    (root.modify (.pushBack (key, .empty)) q).modify (fun _ => u) (q ++ [cs.length]) =
      root.modify (fun _ => .node [] (cs ++ [(key, u)])) q := by
  rw [Ptree.modify_append, Ptree.modify_modify]
  refine Ptree.modify_congr hq ?_
  exact Ptree.modify_pushBack (fun _ => u) (.node [] cs) key .empty

theorem runString_key (hstack : Over ⟨.object, q⟩ below stack) (k : Str) :
    runString standardCallbacks k ⟨root, buffer, stack⟩ = ⟨root, k, ⟨.key, q⟩ :: below⟩ := by
  refine (deliver_standard k _).trans ?_
  rcases hstack with rfl | ⟨r, rfl⟩
  · rfl
  · rfl

/-! ### What the calls build -/

/-- What filling the node at `q` leaves. -/
def Fills (s s' : StandardCallbacks) (u : Ptree) : Prop :=
  ∀ ⦃root buffer q below⦄, Opens s root buffer q below → ∃ buffer' stack',
    s' = ⟨root.modify (fun _ => u) q, buffer', stack'⟩ ∧ (stack' = ⟨.leaf, q⟩ :: below ∨ stack' = below)

theorem Over.of_fill {stack' : List Layer} (h : stack' = ⟨.leaf, q⟩ :: l :: below ∨ stack' = l :: below) :
    Over l below stack' := by
  rcases h with h | h
  · exact .inr ⟨q, h⟩
  · exact .inl h

theorem endContainer_over (h : Over l below stack) (hl : l.k ≠ .leaf) :
    endContainer ⟨root, buffer, stack⟩ = ⟨root, buffer, below⟩ := by
  rcases h with rfl | ⟨r, rfl⟩
  · exact if_neg hl
  · rfl

mutual

/-- **The calls for a value fill the new node with its tree.** -/
theorem run_fills (category : Category) : (v : Json) → (s : StandardCallbacks) →
    Fills s (run standardCallbacks category v s) (tree v)
  | .null, s => fun _ _ _ _ h => by
    rw [run, tree]
    exact ⟨_, _, h.setData fun _ => nullValue, .inl rfl⟩
  | .bool b, s => fun _ _ _ _ h => by
    rw [run, tree]
    exact ⟨_, _, h.setData fun _ => if b then trueValue else falseValue, .inl rfl⟩
  | .number ds, s => fun _ _ _ _ h => by
    rw [run, tree]
    exact ⟨_, _, h.number ds, .inl rfl⟩
  | .string ds, s => fun _ _ _ _ h => by
    rw [run, tree]
    exact ⟨_, _, h.string ds, .inl rfl⟩
  | .array vs, s => fun root buffer q below h => by
    rw [run, tree]
    have hbegin : standardCallbacks.onBeginArray s = ⟨root, buffer, ⟨.array, q⟩ :: below⟩ := by
      show s.newTree.setKind .array = _
      rw [h.1]
      rfl
    obtain ⟨buffer', stack', hitems, hstack⟩ := runItems_fills category vs buffer (.inl rfl) h.2.2
    rw [hbegin, hitems]
    exact ⟨_, _, endContainer_over hstack (fun h => nomatch h), .inr rfl⟩
  | .object ms, s => fun root buffer q below h => by
    rw [run, tree]
    have hbegin : standardCallbacks.onBeginObject s = ⟨root, buffer, ⟨.object, q⟩ :: below⟩ := by
      show s.newTree.setKind .object = _
      rw [h.1]
      rfl
    obtain ⟨buffer', stack', hitems, hstack⟩ := runMembers_fills category ms buffer (.inl rfl) h.2.2
    rw [hbegin, hitems]
    exact ⟨_, _, endContainer_over hstack (fun h => nomatch h), .inr rfl⟩

theorem runItems_fills (category : Category) : (vs : List Json) →
    ∀ (buffer : Str) {root q below stack cs}, Over ⟨.array, q⟩ below stack →
      root.get? q = some (.node [] cs) →
      ∃ buffer' stack', runItems standardCallbacks category vs ⟨root, buffer, stack⟩ =
        ⟨root.modify (fun _ => .node [] (cs ++ itemTrees vs)) q, buffer', stack'⟩ ∧
          Over ⟨.array, q⟩ below stack'
  | [], buffer, root, q, below, stack, cs, hstack, hq => by
    refine ⟨buffer, stack, ?_, hstack⟩
    rw [runItems, itemTrees, append_nil, Ptree.modify_congr hq (g := fun t => t) rfl, Ptree.modify_id]
  | v :: vs, buffer, root, q, below, stack, cs, hstack, hq => by
    obtain ⟨buffer₁, stack₁, hv, hstack₁⟩ := run_fills category v _ (opens_array buffer hstack hq)
    rw [fill_child hq] at hv
    have hq₁ := Ptree.get?_modify (f := fun _ => .node [] (cs ++ [([], tree v)])) hq []
    rw [append_nil] at hq₁
    obtain ⟨buffer₂, stack₂, hvs, hstack₂⟩ := runItems_fills category vs buffer₁ (Over.of_fill hstack₁) hq₁
    refine ⟨buffer₂, stack₂, ?_, hstack₂⟩
    rw [runItems, hv, hvs, Ptree.modify_modify, itemTrees, List.append_assoc]
    rfl

theorem runMembers_fills (category : Category) : (ms : List (Str × Json)) →
    ∀ (buffer : Str) {root q below stack cs}, Over ⟨.object, q⟩ below stack →
      root.get? q = some (.node [] cs) →
      ∃ buffer' stack', runMembers standardCallbacks category ms ⟨root, buffer, stack⟩ =
        ⟨root.modify (fun _ => .node [] (cs ++ memberTrees ms)) q, buffer', stack'⟩ ∧
          Over ⟨.object, q⟩ below stack'
  | [], buffer, root, q, below, stack, cs, hstack, hq => by
    refine ⟨buffer, stack, ?_, hstack⟩
    rw [runMembers, memberTrees, append_nil, Ptree.modify_congr hq (g := fun t => t) rfl, Ptree.modify_id]
  | (k, v) :: ms, buffer, root, q, below, stack, cs, hstack, hq => by
    obtain ⟨buffer₁, stack₁, hv, hstack₁⟩ := run_fills category v _ (opens_key k below hq)
    rw [fill_child hq] at hv
    have hq₁ := Ptree.get?_modify (f := fun _ => .node [] (cs ++ [(k, tree v)])) hq []
    rw [append_nil] at hq₁
    obtain ⟨buffer₂, stack₂, hms, hstack₂⟩ :=
      runMembers_fills category ms buffer₁ (Over.of_fill hstack₁) hq₁
    refine ⟨buffer₂, stack₂, ?_, hstack₂⟩
    rw [runMembers, runString_key hstack, hv, hms, Ptree.modify_modify, memberTrees, List.append_assoc]
    rfl

end

/-- **From new callbacks, the root is the tree.** -/
theorem run_new (category : Category) (v : Json) :
    (run standardCallbacks category v .new).root = tree v := by
  have hopens : Opens .new .empty [] [] [] := ⟨rfl, rfl, rfl⟩
  obtain ⟨buffer, stack, hrun, -⟩ := run_fills category v .new hopens
  rw [hrun]
  rfl

/-! ### What the reader accepts -/

variable {category : Category} {v : Json} {pt pt' : Ptree} {bytes : Str} {filename : String}

/-- **Reading gives the tree of the text**, whichever adapters are used. -/
theorem readJsonInternal_ok_iff :
    readJsonInternal category bytes pt filename = (.ok (), pt') ↔
      ∃ v, IsText IsShape v (skipIntroduction bytes) ∧ pt' = tree v := by
  constructor
  · intro h
    rw [readJsonInternal] at h
    cases hread : readRange standardCallbacks category bytes .new filename with
    | error e =>
      rw [hread] at h
      exact nomatch (Prod.mk.inj h).1
    | ok c =>
      rw [hread] at h
      obtain ⟨v, hv, rfl⟩ := (readRange_ok_iff oneByOne_standard _ _ _).mp hread
      exact ⟨v, hv, (Prod.mk.inj h).2.symm.trans (run_new category v)⟩
  · rintro ⟨v, hv, rfl⟩
    have hread : readRange standardCallbacks category bytes .new filename =
        .ok (run standardCallbacks category v .new) :=
      (readRange_ok_iff oneByOne_standard .new _ filename).mpr ⟨v, hv, rfl⟩
    rw [readJsonInternal, hread]
    exact congrArg (Prod.mk (Except.ok ())) (run_new category v)

theorem readJsonInternal_not_stuck : (readJsonInternal category bytes pt filename).1 ≠ .error .stuck := by
  rw [readJsonInternal]
  cases hread : readRange standardCallbacks category bytes .new filename with
  | ok c => exact fun h => nomatch h
  | error e =>
    rintro h
    cases h
    exact readRange_not_stuck oneByOne_standard _ _ hread

/-- **What throws leaves the tree as it was.** -/
theorem readJsonInternal_error {e : Failure}
    (h : (readJsonInternal category bytes pt filename).1 = .error e) :
    (readJsonInternal category bytes pt filename).2 = pt := by
  rw [readJsonInternal] at h ⊢
  cases hread : readRange standardCallbacks category bytes .new filename with
  | ok c =>
    rw [hread] at h
    exact nomatch h
  | error e => rfl

/-! ### Exactly JSON -/

/-- A JSON text, behind a byte order mark or without. -/
def JsonText (v : Json) (bytes : Str) : Prop :=
  IsText IsCharacter v bytes ∨ ∃ r, bytes = 0xEF :: 0xBB :: 0xBF :: r ∧ IsText IsCharacter v r

/-- **The reader accepts `bytes` exactly if they are JSON**, with the tree of the text, and otherwise throws and
leaves the tree as it was. -/
structure Meets (bytes : Str) : Prop where
  stops : ∀ category pt filename, (readJsonInternal category bytes pt filename).1 ≠ .error .stuck
  reads : ∀ category pt filename pt', readJsonInternal category bytes pt filename = (.ok (), pt') ↔
    ∃ v, JsonText v bytes ∧ pt' = tree v
  throws : ∀ category pt filename e, (readJsonInternal category bytes pt filename).1 = .error e →
    (readJsonInternal category bytes pt filename).2 = pt

/-- A first byte `EF` begins a byte order mark. -/
def MarkOnly (bytes : Str) : Prop := ∀ r, bytes = 0xEF :: r → ∃ r', r = 0xBB :: 0xBF :: r'

theorem isText_head {raw : List UInt8 → Prop} {r : Str} (h : IsText raw v (0xEF :: r)) : False := by
  obtain ⟨a, r', hspaces, hv, -⟩ := h
  cases hspaces with
  | none =>
    obtain ⟨u, t, heq, -, -, hu⟩ := head_of_value hv
    rw [← (List.cons.inj heq).1] at hu
    exact absurd hu (by decide)
  | more hu _ => exact absurd hu (by decide)

theorem skipIntroduction_of_ne (h : ∀ r, bytes ≠ 0xEF :: r) : skipIntroduction bytes = bytes := by
  cases bytes with
  | nil => rfl
  | cons u r => exact if_neg fun hu => h r (by rw [hu])

theorem encode_mark : String.utf8EncodeChar (Char.ofNat 0xFEFF) = [0xEF, 0xBB, 0xBF] := by
  decide

theorem IsText.shape (h : IsText IsCharacter v bytes) : IsText IsShape v bytes := by
  obtain ⟨a, r, ha, hv, hr⟩ := h
  exact ⟨a, r, ha, hv.mono fun _ => IsCharacter.shape, hr⟩

theorem JsonText.shape (h : JsonText v bytes) :
    IsText IsShape v (skipIntroduction bytes) ∧ Utf8.WellFormed bytes ∧ MarkOnly bytes := by
  rcases h with h | ⟨r, rfl, h⟩
  · have hne : ∀ r, bytes ≠ 0xEF :: r := by
      rintro r rfl
      exact isText_head h
    rw [skipIntroduction_of_ne hne]
    have hshape := IsText.shape h
    exact ⟨hshape, hshape.characters.mp h, fun r hr => absurd hr (hne r)⟩
  · have hshape := IsText.shape h
    refine ⟨hshape, ?_, fun r' hr => ⟨r, (List.cons.inj hr).2.symm⟩⟩
    have := Utf8.WellFormed.cons (Char.ofNat 0xFEFF) (hshape.characters.mp h)
    rwa [encode_mark] at this

/-- What looks like a text is one, if the bytes are well-formed and nothing but a mark is skipped. -/
theorem JsonText.of_shape (h : IsText IsShape v (skipIntroduction bytes)) (hwf : Utf8.WellFormed bytes)
    (hmark : MarkOnly bytes) : JsonText v bytes := by
  by_cases hbytes : ∃ r, bytes = 0xEF :: r
  · obtain ⟨r, rfl⟩ := hbytes
    obtain ⟨r, rfl⟩ := hmark r rfl
    have hseq : Utf8.Sequence [0xEF, 0xBB, 0xBF] := encode_mark ▸ Utf8.sequence_encode _
    exact .inr ⟨r, rfl, h.characters.mpr (Utf8.WellFormed.of_sequence hseq hwf).2⟩
  · have hne : ∀ r, bytes ≠ 0xEF :: r := fun r hr => hbytes ⟨r, hr⟩
    rw [skipIntroduction_of_ne hne] at h
    exact .inl (h.characters.mpr hwf)

/-- **The inputs for which the reader accepts exactly JSON**: those that do not look like a text to it, and those
that are well-formed UTF-8 and do not begin with `EF` unless with the byte order mark. -/
theorem meets_iff (bytes : Str) :
    Meets bytes ↔
      ((∃ v, IsText IsShape v (skipIntroduction bytes)) → Utf8.WellFormed bytes ∧ MarkOnly bytes) := by
  constructor
  · rintro hmeets ⟨v, hv⟩
    obtain ⟨v', hv', -⟩ := (hmeets.reads .input .empty "" (tree v)).mp
      (readJsonInternal_ok_iff.mpr ⟨v, hv, rfl⟩)
    exact hv'.shape.2
  · intro h
    refine ⟨fun _ _ _ => readJsonInternal_not_stuck, fun category pt filename pt' => ?_,
      fun _ _ _ _ => readJsonInternal_error⟩
    rw [readJsonInternal_ok_iff]
    constructor
    · rintro ⟨v, hv, rfl⟩
      obtain ⟨hwf, hmark⟩ := h ⟨v, hv⟩
      exact ⟨v, .of_shape hv hwf hmark, rfl⟩
    · rintro ⟨v, hv, rfl⟩
      exact ⟨v, hv.shape.1, rfl⟩

theorem not_wellFormed_overlong (r : Str) : ¬ Utf8.WellFormed (0xC0 :: 0x80 :: r) := by
  intro h
  have hseq : Utf8.Sequence [0xC0, 0x80] := .mk 0xC0 [0x80] rfl fun t ht => by
    rw [mem_singleton.mp ht, Utf8.IsTrail]
    decide
  obtain ⟨⟨c, hc⟩, -⟩ := Utf8.WellFormed.of_sequence (r := r) hseq h
  have hsize : c.utf8Size = 2 := by rw [← String.length_utf8EncodeChar, ← hc]; rfl
  rw [Char.utf8Size_eq_two_iff, UInt32.lt_iff_toNat_lt, UInt32.le_iff_toNat_le] at hsize
  obtain ⟨hlow, hhigh⟩ : 127 < c.val.toNat ∧ c.val.toNat ≤ 0x7FF := hsize
  rw [Utf8.encode_two hlow hhigh] at hc
  have hlead := congrArg UInt8.toNat (List.cons.inj hc).1
  rw [Utf8.toNat_ofNat (by omega), show (0xC0 : UInt8).toNat = 192 from rfl] at hlead
  omega

/-- An overlong form and three bytes that are no mark are accepted. -/
theorem not_meets : ¬ Meets [0x22, 0xC0, 0x80, 0x22] ∧ ¬ Meets [0xEF, 0x41, 0x42, 0x7B, 0x7D] := by
  constructor
  · intro h
    have hread : readJsonInternal .input [0x22, 0xC0, 0x80, 0x22] .empty "" =
      (.ok (), .node [0xC0, 0x80] []) := rfl
    obtain ⟨v, hv, -⟩ := (h.reads _ _ _ _).mp hread
    exact not_wellFormed_overlong _ (hv.shape.2.1.of_ascii (by decide))
  · intro h
    have hread : readJsonInternal .input [0xEF, 0x41, 0x42, 0x7B, 0x7D] .empty "" = (.ok (), .empty) := rfl
    obtain ⟨v, hv, -⟩ := (h.reads _ _ _ _).mp hread
    obtain ⟨r, hr⟩ := hv.shape.2.2 _ rfl
    exact absurd (List.cons.inj hr).1 (by decide)

end SourceLibs.PropertyTree
