import SourceLibs.Support.SpanList

/-!
# Support — a doubly linked list

The cells of a list are linked to the next and to the previous one; what is not in the list has no links.

* `Chain.mem_iff`: how a cell tells that it is in the list.
* `Chain.pushFront`, `Chain.remove`: another cell comes, or one goes.
-/

namespace SourceLibs.DoublyLinked
open List SpanList

variable {β : Type*}

/-- The links of a list. -/
structure Chain (next prev : β → Option β) (head : Option β) (l : List β) : Prop where
  nodup : l.Nodup
  first : head = l.head?
  after : ∀ pre x suf, l = pre ++ x :: suf → next x = suf.head?
  before : ∀ pre x suf, l = pre ++ x :: suf → prev x = pre.getLast?
  outside : ∀ x, x ∉ l → next x = none ∧ prev x = none

section
variable {next prev next' prev' : β → Option β} {head head' : Option β} {l pre suf : List β} {x : β}

theorem chain_nil : Chain (fun _ : β => none) (fun _ => none) none [] :=
  ⟨nodup_nil, rfl, fun pre _ _ h => absurd h.symm (by simp), fun pre _ _ h => absurd h.symm (by simp),
    fun _ _ => ⟨rfl, rfl⟩⟩

variable [DecidableEq β]

/-- **Being in the list.** -/
theorem Chain.mem_iff (h : Chain next prev head l) (x : β) :
    x ∈ l ↔ ¬ (prev x = none ∧ head ≠ some x) := by
  constructor
  · rintro hx ⟨hprev, hhead⟩
    obtain ⟨pre, suf, rfl⟩ := append_of_mem hx
    rw [h.before pre x suf rfl, getLast?_eq_none_iff] at hprev
    rw [h.first, hprev] at hhead
    exact hhead rfl
  · intro hnot
    by_contra hx
    refine hnot ⟨(h.outside x hx).2, fun hhead => hx ?_⟩
    rw [h.first] at hhead
    exact mem_of_head? hhead

/-- **Another cell in front.** -/
theorem Chain.pushFront (h : Chain next prev head l) (hx : x ∉ l)
    (hnext : ∀ y, next' y = if y = x then head else next y)
    (hprev : ∀ y, prev' y = if head = some y then some x else if y = x then none else prev y) :
    Chain next' prev' (some x) (x :: l) := by
  have hhead : ∀ y, head = some y → y ∈ l := fun y hy => mem_of_head? (h.first ▸ hy)
  refine ⟨nodup_cons.mpr ⟨hx, h.nodup⟩, rfl, fun P y S hPS => ?_, fun P y S hPS => ?_, fun y hy => ?_⟩
  · rw [hnext]
    cases P with
    | nil =>
      obtain ⟨rfl, rfl⟩ := List.cons.inj hPS
      rw [if_pos rfl, h.first]
    | cons z P =>
      have hl : l = P ++ y :: S := (List.cons.inj hPS).2
      have hne : y ≠ x := by
        rintro rfl
        exact hx (by simp [hl])
      rw [if_neg hne]
      exact h.after P y S hl
  · rw [hprev]
    cases P with
    | nil =>
      obtain ⟨rfl, rfl⟩ := List.cons.inj hPS
      rw [if_neg fun h0 => hx (hhead x h0), if_pos rfl]
      rfl
    | cons z P =>
      obtain ⟨hzx, hl⟩ : x = z ∧ l = P ++ y :: S := List.cons.inj hPS
      have hne : y ≠ x := by
        rintro rfl
        exact hx (by simp [hl])
      rw [if_neg hne, h.first, h.before P y S hl, hl, ← hzx]
      cases P with
      | nil =>
        rw [nil_append, head?_cons, if_pos rfl]
        rfl
      | cons w P =>
        have hwy : (w :: P ++ y :: S).head? ≠ some y := by
          intro h0
          obtain rfl := Option.some.inj h0
          have hnodup := h.nodup
          rw [hl] at hnodup
          exact (notMem_of_nodup hnodup).1 mem_cons_self
        rw [if_neg hwy, getLast?_cons_cons]
  · have hyx : y ≠ x := fun h0 => hy (h0 ▸ mem_cons_self)
    have hyl : y ∉ l := fun h0 => hy (mem_cons_of_mem _ h0)
    rw [hnext, hprev, if_neg hyx, if_neg fun h0 => hyl (hhead y h0), if_neg hyx]
    exact h.outside y hyl

/-- **A cell goes.** -/
theorem Chain.remove (h : Chain next prev head (pre ++ x :: suf))
    (hhead : head' = if head = some x then next x else head)
    (hnext : ∀ y, next' y = if y = x then none else if prev x = some y then next x else next y)
    (hprev : ∀ y, prev' y = if y = x then none else if next x = some y then prev x else prev y) :
    Chain next' prev' head' (pre ++ suf) := by
  obtain ⟨hxpre, hxsuf, hdisj⟩ := notMem_of_nodup h.nodup
  have hd : (pre ++ suf).Nodup := (nodup_cons.mp (nodup_middle.mp h.nodup)).2
  have hx := h.after pre x suf rfl
  have hx' := h.before pre x suf rfl
  have hne : ∀ y ∈ pre ++ suf, y ≠ x := by
    rintro y hy rfl
    exact (mem_append.mp hy).elim hxpre hxsuf
  rw [hx] at hhead hprev
  rw [hx, hx'] at hnext
  rw [hx'] at hprev
  refine ⟨hd, ?_, fun P y S hPS => ?_, fun P y S hPS => ?_, fun y hy => ?_⟩
  · rw [hhead, h.first]
    cases pre with
    | nil => rw [nil_append, head?_cons, if_pos rfl]; rfl
    | cons z pre =>
      have hzx : (z :: pre ++ x :: suf).head? ≠ some x := fun h0 =>
        hxpre (Option.some.inj h0 ▸ mem_cons_self)
      rw [if_neg hzx]
      rfl
  · have hyx := hne y (by rw [hPS]; simp)
    rw [hnext, if_neg hyx]
    rcases append_eq_append_iff.mp hPS with ⟨m, rfl, hsuf⟩ | ⟨m, hm, hS⟩
    · -- The cell is after the one that goes.
      have hlast : pre.getLast? ≠ some y := fun h0 =>
        hdisj y (mem_of_getLast? h0) (by rw [hsuf]; simp)
      rw [if_neg hlast]
      exact h.after (pre ++ x :: m) y S (by rw [hsuf]; simp)
    · cases m with
      | nil =>
        rw [append_nil] at hm
        rw [nil_append] at hS
        have hlast : pre.getLast? ≠ some y := fun h0 =>
          hdisj y (mem_of_getLast? h0) (by rw [← hS]; simp)
        rw [if_neg hlast]
        exact h.after (pre ++ [x]) y S (by rw [← hS]; simp)
      | cons z m =>
        obtain ⟨rfl, rfl⟩ := List.cons.inj hS
        rw [h.after P y (m ++ x :: suf) (by rw [hm]; simp), hm]
        cases m with
        | nil =>
          rw [getLast?_concat, if_pos rfl]
          rfl
        | cons w m =>
          have hlast : (P ++ y :: w :: m).getLast? ≠ some y := by
            intro h0
            have hmem : y ∈ w :: m := by
              rw [getLast?_append, getLast?_cons_cons] at h0
              refine mem_of_getLast? ?_
              rw [getLast?_cons] at h0 ⊢
              exact h0
            rw [hm, List.append_assoc] at hd
            exact (notMem_of_nodup hd).2.1 (mem_append_left _ hmem)
          rw [if_neg hlast]
          rfl
  · have hyx := hne y (by rw [hPS]; simp)
    rw [hprev, if_neg hyx]
    rcases append_eq_append_iff.mp hPS with ⟨m, rfl, hsuf⟩ | ⟨m, hm, hS⟩
    · rw [h.before (pre ++ x :: m) y S (by rw [hsuf]; simp), hsuf]
      cases m with
      | nil =>
        rw [nil_append, head?_cons, if_pos rfl, append_nil]
      | cons w m =>
        have hhead' : (w :: m ++ y :: S).head? ≠ some y := by
          intro h0
          obtain rfl := Option.some.inj h0
          rw [hsuf] at hd
          have := (nodup_append.mp hd).2.1
          simp at this
        rw [if_neg hhead', getLast?_append_of_ne_nil _ (by simp),
          getLast?_append_of_ne_nil _ (by simp), getLast?_cons_cons]
    · cases m with
      | nil =>
        rw [append_nil] at hm
        rw [nil_append] at hS
        rw [← hS, head?_cons, if_pos rfl, hm]
      | cons z m =>
        obtain ⟨rfl, rfl⟩ := List.cons.inj hS
        have hhead' : suf.head? ≠ some y := fun h0 =>
          hdisj y (by rw [hm]; simp) (mem_of_head? h0)
        rw [if_neg hhead', h.before P y (m ++ x :: suf) (by rw [hm]; simp)]
  · rw [hnext, hprev]
    by_cases hyx : y = x
    · rw [if_pos hyx, if_pos hyx]
      exact ⟨rfl, rfl⟩
    · have hypre : y ∉ pre := fun h0 => hy (mem_append_left _ h0)
      have hysuf : y ∉ suf := fun h0 => hy (mem_append_right _ h0)
      rw [if_neg hyx, if_neg hyx, if_neg fun h0 => hypre (mem_of_getLast? h0),
        if_neg fun h0 => hysuf (mem_of_head? h0)]
      exact h.outside y (by simp [hyx, hypre, hysuf])

end

end SourceLibs.DoublyLinked
