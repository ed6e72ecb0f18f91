import Mathlib.Data.List.Basic
import Mathlib.Data.List.Nodup

/-!
# Support — the nodes of a linked list

A doubly linked list is seen as its nodes in their order, each with its address.  A link is read from the
order; of a node that is not in the list there is nothing to read.

* `get_mid`, `next_mid`, `prev_mid`: what is read of a node.
* `set_mid`, `erase_mid`: what becomes of the list.
-/

namespace SourceLibs.NodeList
open List

variable {β : Type*}

/-- The addresses. -/
def addrs (l : List (ℕ × β)) : List ℕ := l.map Prod.fst

/-- The node at an address. -/
def get : List (ℕ × β) → ℕ → Option β
  | [], _          => none
  | (a, b) :: l, x => if a = x then some b else get l x

/-- The link of a node to the next one. -/
def next : List (ℕ × β) → ℕ → Option (Option ℕ)
  | [], _          => none
  | (a, _) :: l, x => if a = x then some (l.head?.map Prod.fst) else next l x

/-- The link of a node to the previous one. -/
def prev (l : List (ℕ × β)) (x : ℕ) : Option (Option ℕ) := next l.reverse x

/-- Write a node. -/
def set (l : List (ℕ × β)) (x : ℕ) (b : β) : List (ℕ × β) :=
  l.map fun n => if n.1 = x then (x, b) else n

/-- Unlink a node. -/
def erase (l : List (ℕ × β)) (x : ℕ) : List (ℕ × β) := l.filter fun n => n.1 ≠ x

section
variable {l pre post : List (ℕ × β)} {x : ℕ} {b c : β}

@[simp] theorem addrs_nil : addrs ([] : List (ℕ × β)) = [] := rfl

@[simp] theorem addrs_cons (n : ℕ × β) (l : List (ℕ × β)) : addrs (n :: l) = n.1 :: addrs l := rfl

@[simp] theorem addrs_append (l m : List (ℕ × β)) : addrs (l ++ m) = addrs l ++ addrs m :=
  map_append

@[simp] theorem addrs_reverse (l : List (ℕ × β)) : addrs l.reverse = (addrs l).reverse :=
  map_reverse

theorem mem_addrs_of_mem {n : ℕ × β} (h : n ∈ l) : n.1 ∈ addrs l := List.mem_map_of_mem h

theorem notMem_of_nodup (hd : (addrs (pre ++ (x, b) :: post)).Nodup) :
    x ∉ addrs pre ∧ x ∉ addrs post := by
  rw [addrs_append, addrs_cons] at hd
  have hmid := nodup_middle.mp hd
  rw [nodup_cons, mem_append, not_or] at hmid
  exact hmid.1

theorem get_mid (hpre : x ∉ addrs pre) : get (pre ++ (x, b) :: post) x = some b := by
  induction pre with
  | nil => exact if_pos rfl
  | cons n pre ih =>
    rw [addrs_cons, mem_cons, not_or] at hpre
    rw [List.cons_append, get, if_neg (Ne.symm hpre.1), ih hpre.2]

theorem next_mid (hpre : x ∉ addrs pre) :
    next (pre ++ (x, b) :: post) x = some (post.head?.map Prod.fst) := by
  induction pre with
  | nil => exact if_pos rfl
  | cons n pre ih =>
    rw [addrs_cons, mem_cons, not_or] at hpre
    rw [List.cons_append, next, if_neg (Ne.symm hpre.1), ih hpre.2]

theorem prev_mid (hpost : x ∉ addrs post) :
    prev (pre ++ (x, b) :: post) x = some (pre.getLast?.map Prod.fst) := by
  have hrev : x ∉ addrs post.reverse := by rwa [addrs_reverse, mem_reverse]
  rw [prev, List.reverse_append, reverse_cons, List.append_assoc, singleton_append,
    next_mid hrev, head?_reverse]

theorem set_of_notMem (h : x ∉ addrs l) : set l x c = l := by
  have hkeep : ∀ n ∈ l, (if n.1 = x then (x, c) else n) = n := by
    intro n hn
    exact if_neg fun heq : n.1 = x => h (heq ▸ mem_addrs_of_mem hn)
  rw [set, map_congr_left hkeep, List.map_id']

theorem set_mid (hpre : x ∉ addrs pre) (hpost : x ∉ addrs post) :
    set (pre ++ (x, b) :: post) x c = pre ++ (x, c) :: post := by
  have hpre' := set_of_notMem (c := c) hpre
  have hpost' := set_of_notMem (c := c) hpost
  rw [set] at hpre' hpost' ⊢
  rw [map_append, map_cons, hpre', hpost', if_pos rfl]

theorem erase_mid (hpre : x ∉ addrs pre) (hpost : x ∉ addrs post) :
    erase (pre ++ (x, b) :: post) x = pre ++ post := by
  have hkeep : ∀ {m : List (ℕ × β)}, x ∉ addrs m → (m.filter fun n => n.1 ≠ x) = m := by
    intro m hm
    refine filter_eq_self.mpr fun n hn => decide_eq_true fun heq => hm ?_
    exact heq ▸ mem_addrs_of_mem hn
  rw [erase, filter_append, filter_cons_of_neg (by simp), hkeep hpre, hkeep hpost]

end

end SourceLibs.NodeList
