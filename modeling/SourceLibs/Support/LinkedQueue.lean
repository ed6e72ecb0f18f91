import Mathlib.Data.List.Nodup
import Mathlib.Logic.Function.Basic

/-!
# Support — a queue of linked nodes

The nodes are linked through a `next` pointer of their own; the queue has the first and the last of
them.  A node that is not in the queue points nowhere.

* `Lists.push`, `Lists.pop`: the queue is first in, first out.
-/

namespace SourceLibs
open List Function

/-- The ends of the queue, and the pointer of every node. -/
structure LinkedQueue (β : Type*) where
  head : Option β
  tail : Option β
  next : β → Option β

namespace LinkedQueue

variable {β : Type*} [DecidableEq β]

/-- Append a node; it must point nowhere. -/
def push (q : LinkedQueue β) (x : β) : Option (LinkedQueue β) :=
  if q.next x = none then
    match q.tail with
    | some t => some { q with next := update q.next t (some x), tail := some x }
    | none   => some { q with head := some x, tail := some x }
  else none

/-- Take the first node; a node with none behind it must be the last. -/
def pop (q : LinkedQueue β) : Option (LinkedQueue β × Option β) :=
  match q.head with
  | none   => some (q, none)
  | some x =>
    match q.next x with
    | some y => some (⟨some y, q.tail, update q.next x none⟩, some x)
    | none   =>
      if q.tail = some x then
        some (⟨none, none, update q.next x none⟩, some x)
      else none

/-- The queue without nodes. -/
def empty : LinkedQueue β := ⟨none, none, fun _ => none⟩

/-- The nodes from `head` to `tail` are `l`. -/
structure Lists (q : LinkedQueue β) (l : List β) : Prop where
  nodup : l.Nodup
  head : q.head = l.head?
  tail : q.tail = l.getLast?
  next : ∀ a x b, l = a ++ x :: b → q.next x = b.head?
  off : ∀ x, x ∉ l → q.next x = none

omit [DecidableEq β] in
theorem lists_empty : Lists (empty : LinkedQueue β) [] :=
  ⟨nodup_nil, rfl, rfl, fun _ _ _ h => absurd h (by simp), fun _ _ => rfl⟩

/-- **Appending** a node that is not in the queue. -/
theorem Lists.push {q : LinkedQueue β} {l : List β} (h : q.Lists l) {x : β} (hx : x ∉ l) :
    ∃ q', q.push x = some q' ∧ q'.Lists (l ++ [x]) := by
  have hnodup : (l ++ [x]).Nodup :=
    nodup_append.mpr ⟨h.nodup, nodup_singleton x, fun y hy z hz => by
      rintro rfl
      exact hx (mem_singleton.mp hz ▸ hy)⟩
  rcases eq_nil_or_concat l with rfl | ⟨l, t, rfl⟩
  · refine ⟨{ q with head := some x, tail := some x }, ?_, hnodup, rfl, rfl, ?_, ?_⟩
    · rw [LinkedQueue.push, if_pos (h.off x hx), h.tail]
      rfl
    · rintro a y b hab
      have hb : b = [] := by
        cases a <;> simp_all
      rw [hb]
      exact h.off y not_mem_nil
    · intro y _
      exact h.off y not_mem_nil
  · simp only [concat_eq_append] at *
    have htail : q.tail = some t := by rw [h.tail, getLast?_concat]
    have hxt : x ≠ t := by
      rintro rfl
      exact hx (mem_append_right l (mem_singleton_self x))
    refine ⟨{ q with next := update q.next t (some x), tail := some x }, ?_, hnodup, ?_,
      ?_, ?_, ?_⟩
    · rw [LinkedQueue.push, if_pos (h.off x hx), htail]
    · rw [h.head]
      simp
    · rw [getLast?_concat]
    · intro a y b hab
      change update q.next t (some x) y = b.head?
      rcases eq_nil_or_concat b with rfl | ⟨b, z, rfl⟩
      · -- The new node.
        obtain ⟨-, hy⟩ := append_inj' hab rfl
        obtain rfl : x = y := singleton_injective hy
        rw [update_of_ne hxt]
        exact h.off x hx
      · rw [concat_eq_append, ← List.cons_append, ← List.append_assoc] at hab
        obtain ⟨hl, hz⟩ := append_inj' hab rfl
        obtain rfl : x = z := singleton_injective hz
        rcases eq_nil_or_concat b with rfl | ⟨b, u, rfl⟩
        · -- The node that was last.
          obtain ⟨-, hy⟩ := append_inj' hl rfl
          obtain rfl : t = y := singleton_injective hy
          rw [update_self]
          rfl
        · have hyt : y ≠ t := by
            rintro rfl
            rw [concat_eq_append, ← List.cons_append, ← List.append_assoc] at hl
            obtain ⟨hl', -⟩ := append_inj' hl rfl
            exact (nodup_append.mp h.nodup).2.2 y (by rw [hl']; simp) y
              (mem_singleton_self y) rfl
          rw [update_of_ne hyt, h.next a y _ hl]
          simp
    · intro y hy
      have hyt : y ≠ t := by
        rintro rfl
        exact hy (by simp)
      change update q.next t (some x) y = none
      rw [update_of_ne hyt]
      exact h.off y fun hmem => hy (mem_append_left _ hmem)

/-- **Taking** the first node. -/
theorem Lists.pop {q : LinkedQueue β} {l : List β} (h : q.Lists l) :
    ∃ q', q.pop = some (q', l.head?) ∧ q'.Lists l.tail := by
  rcases l with _ | ⟨x, l⟩
  · exact ⟨q, by rw [LinkedQueue.pop, h.head]; rfl, h⟩
  · have hx : x ∉ l := (nodup_cons.mp h.nodup).1
    have hnext : q.next x = l.head? := h.next [] x l rfl
    have hnext' : ∀ a y b, l = a ++ y :: b → update q.next x none y = b.head? := by
      intro a y b hab
      have hyx : y ≠ x := by
        rintro rfl
        exact hx (hab ▸ by simp)
      rw [update_of_ne hyx]
      exact h.next (x :: a) y b (by rw [hab, List.cons_append])
    have hoff : ∀ y, y ∉ l → update q.next x none y = none := by
      intro y hy
      by_cases hyx : y = x
      · rw [hyx, update_self]
      · rw [update_of_ne hyx]
        exact h.off y fun hmem => (mem_cons.mp hmem).elim hyx hy
    rcases l with _ | ⟨z, l⟩
    · refine ⟨⟨none, none, update q.next x none⟩, ?_, nodup_nil, rfl, rfl, hnext',
        hoff⟩
      have htail : q.tail = some x := h.tail
      simp only [LinkedQueue.pop, h.head, head?_cons, hnext, head?_nil, htail, if_true]
    · refine ⟨⟨some z, q.tail, update q.next x none⟩, ?_, (nodup_cons.mp h.nodup).2,
        rfl, ?_, hnext', hoff⟩
      · simp only [LinkedQueue.pop, h.head, head?_cons, hnext]
      · rw [h.tail]
        rfl

end LinkedQueue

end SourceLibs
