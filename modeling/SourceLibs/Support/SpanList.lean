import Mathlib.Data.List.DropRight
import Mathlib.Data.List.Nodup

/-!
# Support — a sublist with spans

One level of a skip list.  Of the elements of a list some are tall; the head and each tall element have
a link to the next tall one, with the number of steps that takes in the whole list, or that it takes to
the end if there is none.

* `Column.insert`, `Column.erase`: an element comes or goes, tall or not.
* `Column.follows`: the links go through the tall elements.
-/

namespace SourceLibs.SpanList
open List Option

/-- A link. -/
structure Link (β : Type*) where
  forward : Option β
  span : ℕ

variable {β : Type*}

/-- The number of steps to the next tall element, or to the end. -/
def gap (tall : β → Bool) : List β → ℕ
  | []     => 0
  | x :: l => if tall x then 1 else gap tall l + 1

/-- The link to the next tall element. -/
def link (tall : β → Bool) (l : List β) : Link β := ⟨l.find? tall, gap tall l⟩

/-- The elements up to the last tall one. -/
def front (tall : β → Bool) (l : List β) : List β := l.rdropWhile fun x => !tall x

/-- A place in the list with a link: the head, or a tall element. -/
def Stops (tall : β → Bool) (l : List β) : Prop := ∀ x, l.getLast? = some x → tall x = true

/-- The links of the head and of the tall elements of a list. -/
def Column (tall : β → Bool) (links : Option β → Link β) (l : List β) : Prop :=
  ∀ pre suf, l = pre ++ suf → Stops tall pre → links pre.getLast? = link tall suf

/-- The links from a place on go through a list. -/
def Follows (links : Option β → Link β) : Option β → List β → Prop
  | r, []     => (links r).forward = none
  | r, x :: l => (links r).forward = some x ∧ Follows links (some x) l

/-! ### Links and fronts -/

section Links
variable {tall : β → Bool} {l m pre suf : List β} {x : β}

theorem link_low (h : ∀ y ∈ m, tall y = false) (suf : List β) :
    link tall (m ++ suf) = ⟨suf.find? tall, m.length + gap tall suf⟩ := by
  induction m with
  | nil => rw [nil_append, link, length_nil, Nat.zero_add]
  | cons y m ih =>
    have hy := h y mem_cons_self
    have ih' := ih fun z hz => h z (mem_cons_of_mem _ hz)
    rw [link, Link.mk.injEq] at ih' ⊢
    rw [List.cons_append, find?_cons_of_neg (by simp [hy]), gap, if_neg (by simp [hy]),
      length_cons]
    exact ⟨ih'.1, by omega⟩

theorem link_cons_tall (hx : tall x = true) (l : List β) : link tall (x :: l) = ⟨some x, 1⟩ := by
  rw [link, find?_cons_of_pos hx, gap, if_pos hx]

theorem link_append_of_tall (h : ∃ y ∈ m, tall y = true) (suf : List β) :
    link tall (m ++ suf) = link tall m := by
  induction m with
  | nil =>
    obtain ⟨y, hy, -⟩ := h
    exact absurd hy not_mem_nil
  | cons z m ih =>
    cases hz : tall z with
    | true => rw [List.cons_append, link_cons_tall hz, link_cons_tall hz]
    | false =>
      obtain ⟨y, hy, hty⟩ := h
      have hym : y ∈ m := by
        rcases mem_cons.mp hy with rfl | hy
        · rw [hz] at hty
          exact nomatch hty
        · exact hy
      have ih' := ih ⟨y, hym, hty⟩
      have hlow : ∀ y ∈ [z], tall y = false := fun y hy => mem_singleton.mp hy ▸ hz
      rw [link, link, Link.mk.injEq] at ih'
      change link tall ([z] ++ (m ++ suf)) = link tall ([z] ++ m)
      rw [link_low hlow, link_low hlow, ih'.1, ih'.2]

theorem stops_nil : Stops tall [] := fun _ h => nomatch h

theorem stops_concat (hx : tall x = true) : Stops tall (l ++ [x]) := by
  intro y hy
  rw [getLast?_concat] at hy
  exact some.inj hy ▸ hx

/-- **The front**: after it there is nothing tall. -/
theorem exists_front (tall : β → Bool) (l : List β) :
    ∃ m, l = front tall l ++ m ∧ (∀ y ∈ m, tall y = false) ∧ Stops tall (front tall l) := by
  refine ⟨l.rtakeWhile fun x => !tall x, rdropWhile_append_rtakeWhile.symm, fun y hy => ?_,
    fun x hx => ?_⟩
  · simpa using mem_rtakeWhile_imp hy
  · have hne : l.rdropWhile (fun x => !tall x) ≠ [] := by
      intro h0
      rw [front, h0] at hx
      exact nomatch hx
    have := rdropWhile_last_not (fun x => !tall x) l hne
    rw [front, getLast?_eq_some_getLast hne] at hx
    rw [← some.inj hx]
    simpa using this

theorem front_append_low (hm : ∀ y ∈ m, tall y = false) : front tall (l ++ m) = front tall l := by
  induction m using reverseRecOn with
  | nil => rw [append_nil]
  | append_singleton m y ih =>
    have hy : tall y = false := hm y (mem_append_right _ (mem_singleton.mpr rfl))
    rw [front, ← List.append_assoc, rdropWhile_concat_pos _ _ _ (by simp [hy])]
    exact ih fun z hz => hm z (mem_append_left _ hz)

theorem Stops.front_eq (h : Stops tall l) : front tall l = l := by
  rw [front, rdropWhile_eq_self_iff]
  intro hne
  have := h _ (getLast?_eq_some_getLast hne)
  simp [this]

theorem front_congr {tall' : β → Bool} (h : ∀ y ∈ l, tall' y = tall y) :
    front tall' l = front tall l := by
  induction l using reverseRecOn with
  | nil => rfl
  | append_singleton l x ih =>
    rw [front, front, rdropWhile_concat, rdropWhile_concat, h x (by simp)]
    split
    · exact ih fun y hy => h y (mem_append_left _ hy)
    · rfl

theorem isPrefix_front (tall : β → Bool) (l : List β) : front tall l <+: l :=
  rdropWhile_prefix _ l

theorem mem_of_mem_front (hx : x ∈ front tall l) : x ∈ l := (isPrefix_front tall l).subset hx

end Links

/-! ### Places -/

section Places
variable {tall : β → Bool} {l m pre suf P S : List β} {x : β}

theorem length_sub_of_append (h : l = P ++ m) : l.length - P.length = m.length := by
  rw [h, length_append, Nat.add_sub_cancel_left]

theorem eq_of_getLast? (hd : l.Nodup) {P' S' : List β} (h : l = P ++ S) (h' : l = P' ++ S')
    (hlast : P.getLast? = P'.getLast?) : P = P' := by
  rcases eq_nil_or_concat' P with rfl | ⟨A, x, rfl⟩
  · exact (getLast?_eq_none_iff.mp hlast.symm).symm
  · rcases eq_nil_or_concat' P' with rfl | ⟨A', x', rfl⟩
    · rw [getLast?_concat] at hlast
      exact nomatch hlast
    · rw [getLast?_concat, getLast?_concat] at hlast
      obtain rfl := some.inj hlast
      have hsplit : A ++ x :: S = A' ++ x :: S' := by
        rw [append_cons, append_cons A', ← h, ← h']
      have hx : x ∉ A ∧ x ∉ S := by
        rw [h, List.append_assoc, singleton_append] at hd
        have hmid := nodup_middle.mp hd
        rw [nodup_cons, mem_append, not_or] at hmid
        exact hmid.1
      rw [((append_cons_inj_of_notMem hx.1 hx.2).mp hsplit).1]

theorem notMem_of_nodup (hd : (pre ++ x :: suf).Nodup) :
    x ∉ pre ∧ x ∉ suf ∧ ∀ y ∈ pre, y ∉ suf := by
  have hmid := nodup_middle.mp hd
  rw [nodup_cons, mem_append, not_or] at hmid
  exact ⟨hmid.1.1, hmid.1.2, fun y hy hys =>
    (nodup_append.mp hmid.2).2.2 y hy y hys rfl⟩

/-- A place in a list with an element in the middle: before it, at it, or after it. -/
theorem split_cases (h : pre ++ x :: suf = P ++ S) :
    (∃ m, pre = P ++ m ∧ S = m ++ x :: suf) ∨ (P = pre ++ [x] ∧ S = suf) ∨
      ∃ m, m ≠ [] ∧ suf = m ++ S ∧ P = pre ++ x :: m := by
  rcases append_eq_append_iff.mp h with ⟨m, rfl, hm⟩ | ⟨m, rfl, hm⟩
  · cases m with
    | nil => exact .inl ⟨[], (append_nil _).symm ▸ (append_nil _).symm, hm.symm⟩
    | cons y m =>
      obtain ⟨rfl, rfl⟩ := List.cons.inj hm
      cases m with
      | nil => exact .inr (.inl ⟨rfl, rfl⟩)
      | cons z m => exact .inr (.inr ⟨z :: m, by simp, rfl, rfl⟩)
  · exact .inl ⟨m, rfl, hm⟩

/-- A place is the front of what comes before another one, or there is something tall between. -/
theorem Stops.front_cases (hP : Stops tall P) (hd : pre.Nodup) (hm : pre = P ++ m) :
    ((∀ y ∈ m, tall y = false) ∧ front tall pre = P) ∨
      (∃ y ∈ m, tall y = true) ∧ P.getLast? ≠ (front tall pre).getLast? := by
  by_cases hlow : ∀ y ∈ m, tall y = false
  · exact .inl ⟨hlow, by rw [hm, front_append_low hlow, hP.front_eq]⟩
  · obtain ⟨m', hm', hlow', -⟩ := exists_front tall pre
    have hne : P.getLast? ≠ (front tall pre).getLast? := by
      intro heq
      have hfront := eq_of_getLast? hd hm hm' heq
      rw [← hfront] at hm'
      exact hlow (append_cancel_left (hm.symm.trans hm') ▸ hlow')
    push Not at hlow
    obtain ⟨y, hy, hty⟩ := hlow
    exact .inr ⟨⟨y, hy, by simpa using hty⟩, hne⟩

/-- A place behind another one is told without what is before that. -/
theorem exists_getLast?_append (hm : m ≠ []) : ∃ y ∈ m, ∀ l : List β, (l ++ m).getLast? = some y := by
  obtain ⟨y, hy⟩ := ne_none_iff_exists'.mp fun h0 => hm (getLast?_eq_none_iff.mp h0)
  refine ⟨y, mem_of_getLast? hy, fun l => ?_⟩
  rw [getLast?_append, hy]
  rfl

end Places

/-! ### Columns -/

section Columns
variable {tall : β → Bool} {links links' : Option β → Link β} {l pre suf : List β} {x : β}

/-- **The link over a place**: from the front of what is before it. -/
theorem Column.front (h : Column tall links (pre ++ suf)) : links (front tall pre).getLast? =
    ⟨suf.find? tall, pre.length - (front tall pre).length + gap tall suf⟩ := by
  obtain ⟨m, hm, hlow, hstops⟩ := exists_front tall pre
  have hsplit : pre ++ suf = SpanList.front tall pre ++ (m ++ suf) := by
    rw [← List.append_assoc, ← hm]
  rw [length_sub_of_append hm, ← link_low hlow]
  exact h _ _ hsplit hstops

/-- **Another element comes in**: it gets the rest of the link over its place. -/
theorem Column.insert (h : Column tall links (pre ++ suf)) (hd : (pre ++ x :: suf).Nodup)
    (hself : tall x = true → links' (some x) = link tall suf)
    (hfront : links' (SpanList.front tall pre).getLast? =
      if tall x then ⟨some x, pre.length - (SpanList.front tall pre).length + 1⟩
      else ⟨(links (SpanList.front tall pre).getLast?).forward,
        (links (SpanList.front tall pre).getLast?).span + 1⟩)
    (hother : ∀ r, r ≠ some x → r ≠ (SpanList.front tall pre).getLast? → links' r = links r) :
    Column tall links' (pre ++ x :: suf) := by
  have hold := h.front
  obtain ⟨hxpre, hxsuf, hdisj⟩ := notMem_of_nodup hd
  intro P S hPS hP
  rcases split_cases hPS with ⟨q, hq, rfl⟩ | ⟨rfl, rfl⟩ | ⟨q, hq, hsuf, rfl⟩
  · rcases hP.front_cases (hd.sublist (sublist_append_left _ _)) hq with
      ⟨hlow, hfrontP⟩ | ⟨htall, hne⟩
    · -- The front.
      rw [hfrontP, length_sub_of_append hq] at hfront hold
      rw [hfront, link_low hlow]
      cases hx : tall x with
      | true => rw [if_pos rfl, find?_cons_of_pos hx, gap, if_pos hx]
      | false =>
        rw [if_neg Bool.false_ne_true, hold, find?_cons_of_neg (by simp [hx]), gap,
          if_neg (by simp [hx]), Nat.add_assoc]
    · -- A place before it.
      have hnx : P.getLast? ≠ some x := fun hlast =>
        hxpre (hq ▸ mem_append_left _ (mem_of_getLast? hlast))
      rw [hother _ hnx hne, link_append_of_tall htall, ← link_append_of_tall htall suf]
      exact h _ _ (by rw [hq, List.append_assoc]) hP
  · -- The element.
    rw [getLast?_concat]
    exact hself (hP x (getLast?_concat))
  · -- A place after it.
    obtain ⟨y, hyq, hlast⟩ := exists_getLast?_append hq
    have hys : y ∈ suf := hsuf ▸ mem_append_left _ hyq
    have hne : some y ≠ (SpanList.front tall pre).getLast? := fun heq =>
      hdisj y (mem_of_mem_front (mem_of_getLast? heq.symm)) hys
    have hnx : some y ≠ some x := fun heq => hxsuf (some.inj heq ▸ hys)
    rw [append_cons] at hP ⊢
    rw [hlast, hother _ hnx hne, ← hlast pre]
    refine h _ _ (by rw [hsuf, List.append_assoc]) fun z hz => hP z ?_
    rw [hlast, ← hlast pre, hz]

theorem Column.front_eq_iff (h : Column tall links (pre ++ x :: suf)) :
    (links (SpanList.front tall pre).getLast?).forward = some x ↔ tall x = true := by
  rw [h.front]
  constructor
  · exact fun hfind => find?_some hfind
  · exact fun hx => find?_cons_of_pos hx

/-- **An element goes**, and leaves its link to the place before it. -/
theorem Column.erase (h : Column tall links (pre ++ x :: suf)) (hd : (pre ++ x :: suf).Nodup)
    (hfront : links' (SpanList.front tall pre).getLast? =
      if tall x then
        ⟨(links (some x)).forward,
          (links (SpanList.front tall pre).getLast?).span + (links (some x)).span - 1⟩
      else ⟨(links (SpanList.front tall pre).getLast?).forward,
        (links (SpanList.front tall pre).getLast?).span - 1⟩)
    (hother : ∀ r, r ≠ some x → r ≠ (SpanList.front tall pre).getLast? → links' r = links r) :
    Column tall links' (pre ++ suf) := by
  have hold := h.front
  obtain ⟨hxpre, hxsuf, hdisj⟩ := notMem_of_nodup hd
  have hself : tall x = true → links (some x) = link tall suf := fun hx => by
    have := h (pre ++ [x]) suf (append_cons _ _ _) (stops_concat hx)
    rwa [getLast?_concat] at this
  intro P S hPS hP
  -- A place before the element.
  have hbefore : ∀ q, pre = P ++ q → S = q ++ suf → links' P.getLast? = link tall S := by
    rintro q hq rfl
    rcases hP.front_cases (hd.sublist (sublist_append_left _ _)) hq with
      ⟨hlow, hfrontP⟩ | ⟨htall, hne⟩
    · -- The front.
      rw [hfrontP] at hfront hold
      rw [length_sub_of_append hq] at hold
      rw [hfront, link_low hlow, hold]
      cases hx : tall x with
      | true =>
        rw [if_pos rfl, hself hx, gap, if_pos hx, Nat.add_right_comm, Nat.add_sub_cancel]
        rfl
      | false =>
        rw [if_neg Bool.false_ne_true, find?_cons_of_neg (by simp [hx]), gap,
          if_neg (by simp [hx]), ← Nat.add_assoc, Nat.add_sub_cancel]
    · have hnx : P.getLast? ≠ some x := fun hlast =>
        hxpre (hq ▸ mem_append_left _ (mem_of_getLast? hlast))
      rw [hother _ hnx hne, link_append_of_tall htall, ← link_append_of_tall htall (x :: suf)]
      exact h _ _ (by rw [hq, List.append_assoc]) hP
  rcases append_eq_append_iff.mp hPS with ⟨q, rfl, hsuf⟩ | ⟨q, hq, rfl⟩
  · by_cases hq : q = []
    · subst hq
      exact hbefore [] (by simp) (by simpa using hsuf.symm)
    · -- A place after it.
      obtain ⟨y, hyq, hlast⟩ := exists_getLast?_append hq
      have hys : y ∈ suf := hsuf ▸ mem_append_left _ hyq
      have hne : some y ≠ (SpanList.front tall pre).getLast? := fun heq =>
        hdisj y (mem_of_mem_front (mem_of_getLast? heq.symm)) hys
      have hnx : some y ≠ some x := fun heq => hxsuf (some.inj heq ▸ hys)
      rw [hlast, hother _ hnx hne, ← hlast (pre ++ [x])]
      refine h _ _ (by rw [hsuf]; simp) fun z hz => hP z ?_
      rw [hlast, ← hlast (pre ++ [x]), hz]
  · exact hbefore q hq rfl

/-- **The links go through the tall elements.** -/
theorem Column.follows_from (suf : List β) : ∀ pre : List β, Column tall links (pre ++ suf) →
    Stops tall pre → Follows links pre.getLast? (suf.filter tall) := by
  intro pre h hpre
  generalize hn : suf.length = n
  induction n using Nat.strongRecOn generalizing pre suf with
  | ind n ih =>
    have hlink := h pre suf rfl hpre
    cases hfind : suf.find? tall with
    | none =>
      have hnil : suf.filter tall = [] := by
        rw [filter_eq_nil_iff]
        exact fun y hy => find?_eq_none.mp hfind y hy
      rw [hnil, Follows, hlink, link, hfind]
    | some y =>
      obtain ⟨hy, m, rest, rfl, hlow⟩ := find?_eq_some_iff_append.mp hfind
      have hfilter : (m ++ y :: rest).filter tall = y :: rest.filter tall := by
        rw [filter_append, filter_cons_of_pos hy,
          filter_eq_nil_iff.mpr fun z hz => by simpa using hlow z hz, nil_append]
      rw [hfilter, Follows, hlink, link, hfind]
      refine ⟨rfl, ?_⟩
      have hrest := ih rest.length (by rw [← hn, length_append, length_cons]; omega)
        rest (pre ++ m ++ [y]) (by simpa using h) (stops_concat hy) rfl
      rwa [getLast?_concat] at hrest

theorem Column.follows (h : Column tall links l) : Follows links none (l.filter tall) :=
  Column.follows_from l [] h stops_nil

/-- A span counts the steps in the whole list. -/
theorem gap_eq [DecidableEq β] (tall : β → Bool) (l : List β) : gap tall l =
    match l.find? tall with
    | none   => l.length
    | some y => l.idxOf y + 1 := by
  induction l with
  | nil => rfl
  | cons z l ih =>
    cases hz : tall z with
    | true =>
      rw [gap, if_pos hz, find?_cons_of_pos hz]
      dsimp only
      rw [idxOf_cons_self]
    | false =>
      have hneg : ¬ tall z = true := by simp [hz]
      rw [gap, if_neg hneg, find?_cons_of_neg hneg, ih]
      cases hfind : l.find? tall with
      | none => rfl
      | some y =>
        have hne : z ≠ y := by
          rintro rfl
          rw [find?_some hfind] at hz
          exact nomatch hz
        dsimp only
        rw [idxOf_cons_ne _ hne]

/-- Only what is tall in the list matters. -/
theorem Column.congr {tall' : β → Bool} (h : Column tall links l)
    (htall : ∀ y ∈ l, tall' y = tall y) : Column tall' links l := by
  intro P S hPS hP
  have hlink : ∀ m, (∀ y ∈ m, tall' y = tall y) → link tall' m = link tall m := by
    intro m
    induction m with
    | nil => exact fun _ => rfl
    | cons z m ih =>
      intro hm
      have hz := hm z mem_cons_self
      have ih' := ih fun y hy => hm y (mem_cons_of_mem _ hy)
      rw [link, link, Link.mk.injEq] at ih' ⊢
      rw [find?_cons, find?_cons, gap, gap, hz, ih'.1, ih'.2]
      exact ⟨rfl, rfl⟩
  rw [hlink S fun y hy => htall y (hPS ▸ mem_append_right _ hy)]
  refine h P S hPS fun y hy => ?_
  rw [← htall y (hPS ▸ mem_append_left _ (mem_of_getLast? hy))]
  exact hP y hy

end Columns

end SourceLibs.SpanList
