import Mathlib.Data.Set.Insert
import Mathlib.Data.List.Perm.Basic
import Mathlib.Data.List.Nodup

/-!
# Support — traversals

A collection that changes while it is traversed.  What is still to be visited is a list of elements of the
collection; a new element may join it, and an element may leave the collection when it is not in this list.
An element that left does not come back: what is inserted was never in the collection.

* `Sound.visit`, `Sound.insert`, `Sound.remove`: what happens keeps the invariant.
* `Sound.once`: no element is visited twice, or after it left.
* `Once.count_returned`: what was visited was visited once.
-/

namespace SourceLibs.Traversal
open List

/-- What happens to an element. -/
inductive Event (α : Type*) where
  | returned (x : α)
  | removed (x : α)
  deriving DecidableEq

/-- The collection, what was ever in it, what is to be visited, and what happened. -/
structure State (α : Type*) where
  live : Set α
  known : Set α
  pending : List α
  trace : List (Event α)

variable {α : Type*}

/-- An element is not visited when it was visited before, or has left. -/
def Once (trace : List (Event α)) : Prop :=
  trace.Pairwise fun a b => ∀ x, b = .returned x → a ≠ .returned x ∧ a ≠ .removed x

/-- What holds all along, from the elements that were there at the start. -/
structure Sound (start : Set α) (s : State α) : Prop where
  known : s.live ⊆ s.known
  live : ∀ x ∈ s.pending, x ∈ s.live
  nodup : s.pending.Nodup
  returned : ∀ x, .returned x ∈ s.trace → x ∈ s.known ∧ x ∉ s.pending
  removed : ∀ x, .removed x ∈ s.trace → x ∈ s.known ∧ x ∉ s.live
  once : Once s.trace
  reached : ∀ x ∈ start, x ∈ s.pending ∨ .returned x ∈ s.trace

theorem Once.append {trace : List (Event α)} (h : Once trace) {e : Event α}
    (hnew : ∀ x, e = .returned x → .returned x ∉ trace ∧ .removed x ∉ trace) :
    Once (trace ++ [e]) := by
  refine pairwise_append.mpr ⟨h, pairwise_singleton _ _, fun a ha b hb x hx => ?_⟩
  obtain rfl := mem_singleton.mp hb
  obtain ⟨h1, h2⟩ := hnew x hx
  constructor
  · rintro rfl
    exact h1 ha
  · rintro rfl
    exact h2 ha

theorem sound_start {live known : Set α} {pending : List α} (hk : live ⊆ known)
    (hp : ∀ x, x ∈ pending ↔ x ∈ live) (hn : pending.Nodup) :
    Sound live ⟨live, known, pending, []⟩ :=
  ⟨hk, fun x hx => (hp x).mp hx, hn, fun _ hx => absurd hx not_mem_nil,
    fun _ hx => absurd hx not_mem_nil, List.Pairwise.nil, fun x hx => .inl ((hp x).mpr hx)⟩

section Sound
variable {start : Set α} {s s' : State α}

theorem Sound.visit (h : Sound start s) {x : α} {rest : List α} (hp : s.pending = x :: rest) :
    Sound start { s with pending := rest, trace := s.trace ++ [.returned x] } := by
  have hx : x ∈ s.pending := hp ▸ mem_cons_self
  have hrest : ∀ y ∈ rest, y ∈ s.pending := fun y hy => hp ▸ mem_cons_of_mem _ hy
  have hnodup : x ∉ rest ∧ rest.Nodup := nodup_cons.mp (hp ▸ h.nodup)
  refine ⟨h.known, fun y hy => h.live y (hrest y hy), hnodup.2, fun y hy => ?_, fun y hy => ?_,
    h.once.append ?_, fun y hy => ?_⟩
  · rcases mem_append.mp hy with hy | hy
    · obtain ⟨hknown, hnot⟩ := h.returned y hy
      exact ⟨hknown, fun hr => hnot (hrest y hr)⟩
    · obtain rfl := Event.returned.inj (mem_singleton.mp hy)
      exact ⟨h.known (h.live _ hx), hnodup.1⟩
  · rcases mem_append.mp hy with hy | hy
    · exact h.removed y hy
    · cases mem_singleton.mp hy
  · intro y hy
    obtain rfl := Event.returned.inj hy
    exact ⟨fun hr => (h.returned _ hr).2 hx, fun hr => (h.removed _ hr).2 (h.live _ hx)⟩
  · rcases h.reached y hy with hpend | hret
    · rcases mem_cons.mp (hp ▸ hpend) with rfl | hy
      · exact .inr (mem_append_right _ mem_cons_self)
      · exact .inl hy
    · exact .inr (mem_append_left _ hret)

theorem Sound.insert (h : Sound start s) {x : α} {pending : List α} (hx : x ∉ s.known)
    (hp : pending = s.pending ∨ pending.Perm (x :: s.pending)) :
    Sound start ⟨insert x s.live, insert x s.known, pending, s.trace⟩ := by
  have hnot : x ∉ s.pending := fun hmem => hx (h.known (h.live x hmem))
  have hmem : ∀ y ∈ pending, y = x ∨ y ∈ s.pending := by
    intro y hy
    rcases hp with rfl | hp
    · exact .inr hy
    · exact mem_cons.mp (hp.mem_iff.mp hy)
  refine ⟨Set.insert_subset_insert h.known, fun y hy => ?_, ?_, fun y hy => ?_, fun y hy => ?_,
    h.once, fun y hy => ?_⟩
  · exact (hmem y hy).imp id (h.live y)
  · rcases hp with rfl | hp
    · exact h.nodup
    · exact hp.nodup_iff.mpr (nodup_cons.mpr ⟨hnot, h.nodup⟩)
  · obtain ⟨hknown, hpend⟩ := h.returned y hy
    refine ⟨.inr hknown, fun hy' => ?_⟩
    rcases hmem y hy' with rfl | hy'
    · exact hx hknown
    · exact hpend hy'
  · obtain ⟨hknown, hlive⟩ := h.removed y hy
    refine ⟨.inr hknown, fun hy' => ?_⟩
    rcases hy' with rfl | hy'
    · exact hx hknown
    · exact hlive hy'
  · refine (h.reached y hy).imp (fun hpend => ?_) id
    rcases hp with rfl | hp
    · exact hpend
    · exact hp.mem_iff.mpr (mem_cons_of_mem _ hpend)

theorem Sound.remove (h : Sound start s) {x : α} (hx : x ∈ s.live) (hp : x ∉ s.pending) :
    Sound start { s with live := s.live \ {x}, trace := s.trace ++ [.removed x] } := by
  refine ⟨fun y hy => h.known hy.1, fun y hy => ⟨h.live y hy, ?_⟩, h.nodup, fun y hy => ?_,
    fun y hy => ?_, h.once.append ?_, fun y hy => ?_⟩
  · rintro rfl
    exact hp hy
  · rcases mem_append.mp hy with hy | hy
    · exact h.returned y hy
    · cases mem_singleton.mp hy
  · rcases mem_append.mp hy with hy | hy
    · obtain ⟨hknown, hlive⟩ := h.removed y hy
      exact ⟨hknown, fun hy' => hlive hy'.1⟩
    · obtain rfl := Event.removed.inj (mem_singleton.mp hy)
      exact ⟨h.known hx, fun hy' => hy'.2 rfl⟩
  · intro y hy
    cases hy
  · exact (h.reached y hy).imp id (mem_append_left _)

theorem Once.count_returned [DecidableEq α] {trace : List (Event α)} (h : Once trace) {x : α}
    (hx : .returned x ∈ trace) : trace.count (.returned x) = 1 := by
  induction trace with
  | nil => exact absurd hx not_mem_nil
  | cons e trace ih =>
    obtain ⟨hhead, htail⟩ := pairwise_cons.mp h
    by_cases he : e = .returned x
    · -- What comes later is not `x` again.
      have hnot : Event.returned x ∉ trace := fun hmem => (hhead _ hmem x rfl).1 he
      rw [he, count_cons_self, count_eq_zero.mpr hnot]
    · have hmem : .returned x ∈ trace := (mem_cons.mp hx).resolve_left (Ne.symm he)
      rw [count_cons_of_ne he, ih htail hmem]

end Sound

end SourceLibs.Traversal
