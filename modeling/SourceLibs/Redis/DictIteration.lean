import SourceLibs.Redis.DictIterator
import SourceLibs.Support.Traversal
import Mathlib.Data.List.Pairwise

/-!
# Redis — a program between the calls of a safe iterator

While a safe iterator is open no bucket is moved, so an entry stays in the table and the bucket it was found
in; a new one is put in front of its bucket, and a table that is allocated is empty.  A program that adds
keys, looks keys up and deletes the entry just returned is thus a traversal of the entries.

The index of a new entry is an `int`: in a table of more than `2 ^ 31` buckets it may be negative, and the
entry is written in front of the table (`Iteration.Fits`).

* `Pending.push`, `Pending.unlink`, `Pending.allocate`: what a change of the dict does to what is pending.
* `dictAdd_held`, `dictDelete_held`: which changes there are.
* `Iterating.next`, `Iterating.add`, `Iterating.find`, `Iterating.delete`: the steps of a program.
* `safeIterator_once`: every entry is returned exactly once, and none after it was deleted.
-/

namespace SourceLibs.RedisDict
open List Option Buckets Traversal

variable {K V : Type*}

/-! ### Programs -/

/-- What a program does with a safe iterator open; the entry just returned is deleted by its key. -/
inductive Action (K V : Type*) where
  | next
  | add (key : K) (val : V)
  | find (key : K)
  | delete

/-- A call of `dictNext`. -/
def Action.isNext : Action K V → Bool
  | .next => true
  | _ => false

/-- A call of `dictAdd`. -/
def Action.isAdd : Action K V → Bool
  | .add _ _ => true
  | _ => false

/-- A dict and its iterator, the number of the next allocation, the key of the entry just returned,
whether `dictNext` has returned `NULL`, and what was returned and deleted. -/
structure Iteration (K V : Type*) where
  dict : Dict K (Allocated V)
  iter : DictIterator
  fresh : ℕ
  last : Option K
  ended : Bool
  trace : List (Event ℕ)

/-- The entries that are not there any more. -/
def gone (d d' : Dict K (Allocated V)) : List ℕ :=
  ((entries d).map fun e => e.2.num).filter fun p => p ∉ (entries d').map fun e => e.2.num

section Hash
variable (hash : K → ℕ) (eq : K → K → Bool)

/-- One action; a number is used when an entry is allocated. -/
def Iteration.step (s : Iteration K V) : Action K V → Option (Iteration K V)
  | .next =>
    match dictNext s.dict s.iter with
    | none => none
    | some (d, it, none) => some { s with dict := d, iter := it, last := none, ended := true }
    | some (d, it, some p) =>
      match chainFrom d p with
      | [] => none
      | e :: _ => some { s with
          dict := d, iter := it, last := some e.1, trace := s.trace ++ [.returned p] }
  | .add key val =>
    match dictAdd hash eq s.dict key ⟨s.fresh, val⟩ with
    | none => none
    | some (d, added) => some { s with dict := d, fresh := if added then s.fresh + 1 else s.fresh }
  | .find key =>
    match dictFind hash eq s.dict key with
    | none => none
    | some (d, _) => some { s with dict := d }
  | .delete =>
    match s.last with
    | none => some s
    | some key =>
      match dictDelete hash eq s.dict key with
      | none => none
      | some (d, _) => some { s with
          dict := d, last := none, trace := s.trace ++ (gone s.dict d).map .removed }

/-- One action after another. -/
def Iteration.run (s : Iteration K V) : List (Action K V) → Option (Iteration K V)
  | [] => some s
  | a :: acts =>
    match s.step hash eq a with
    | none => none
    | some s => s.run acts

end Hash

/-- A program that opens an iterator. -/
def Iteration.begin (d : Dict K (Allocated V)) (fresh : ℕ) : Iteration K V :=
  ⟨d, dictGetSafeIterator, fresh, none, false, []⟩

/-! ### What a change of the dict does -/

/-- One bucket is written. -/
structure Writes (d d' : Dict K V) (second : Bool) (idx : ℕ) (b c : List (K × V)) : Prop where
  old : (d.ht second).table[idx]? = some b
  new : (d'.ht second).table = (d.ht second).table.set idx c
  other : d'.ht (!second) = d.ht (!second)
  iterators : d'.iterators = d.iterators

/-- A table that had no buckets gets empty ones. -/
structure Allocates (d d' : Dict K V) (second : Bool) (n : ℕ) : Prop where
  old : (d.ht second).table = []
  new : (d'.ht second).table = List.replicate n []
  other : d'.ht (!second) = d.ht (!second)
  iterators : d'.iterators = d.iterators

theorem Writes.bucket {d d' : Dict K V} {second s : Bool} {idx i : ℕ} {b c b' : List (K × V)}
    (h : Writes d d' second idx b c) (hb : (d.ht s).table[i]? = some b') :
    (d'.ht s).table[i]? = some b' ∨ (b' = b ∧ (d'.ht s).table[i]? = some c) := by
  by_cases hs : s = second
  · subst hs
    rw [h.new]
    by_cases hidx : idx = i
    · subst hidx
      have hlt := (List.getElem?_eq_some_iff.mp h.old).1
      refine .inr ⟨?_, List.getElem?_set_self hlt⟩
      rw [h.old] at hb
      exact (some.inj hb).symm
    · rw [List.getElem?_set_ne hidx]
      exact .inl hb
  · obtain rfl : s = !second := by
      cases s <;> cases second <;> first | rfl | exact absurd rfl hs
    rw [h.other]
    exact .inl hb

section Changes
variable {d d' : Dict K (Allocated V)} {it : DictIterator} {second : Bool} {idx n : ℕ}
  {b c rest : List (K × Allocated V)} {e : K × Allocated V}

theorem ahead_writes (h : Writes d d' second idx b c) (it : DictIterator) :
    ahead d' it = ahead d it ∨
      ∃ j : ℕ, (ahead d it)[j]? = some b ∧ ahead d' it = (ahead d it).set j c := by
  have hlt := (List.getElem?_eq_some_iff.mp h.old).1
  by_cases hs : second = it.second
  · subst hs
    have hrest : (if it.second then [] else d'.ht1.table) =
        if it.second then [] else d.ht1.table := by
      have hother := h.other
      cases hs : it.second with
      | true => rfl
      | false =>
        rw [hs] at hother
        exact congrArg Dictht.table hother
    rw [ahead, ahead, hrest, h.new, drop_set]
    split
    · exact .inl rfl
    · next hge =>
        have hlen : idx - (it.index + 1).toNat <
            ((d.ht it.second).table.drop (it.index + 1).toNat).length := by
          rw [length_drop]
          omega
        refine .inr ⟨idx - (it.index + 1).toNat, ?_, (set_append_left _ _ hlen).symm⟩
        rw [List.getElem?_append_left hlen, List.getElem?_drop, Nat.add_sub_of_le (by omega), h.old]
  · rw [ahead, ahead]
    cases hit : it.second with
    | true =>
      obtain rfl : second = false := by simpa [hit] using hs
      have hother : d'.ht true = d.ht true := h.other
      rw [hother]
      exact .inl rfl
    | false =>
      obtain rfl : second = true := by simpa [hit] using hs
      have hother : d'.ht false = d.ht false := h.other
      have hnew : d'.ht1.table = d.ht1.table.set idx c := h.new
      have hold : d.ht1.table[idx]? = some b := h.old
      rw [hother, if_neg (by decide), if_neg (by decide), hnew]
      refine .inr ⟨((d.ht false).table.drop (it.index + 1).toNat).length + idx, ?_, ?_⟩
      · rw [List.getElem?_append_right (Nat.le_add_right _ _), Nat.add_sub_cancel_left, hold]
      · rw [set_append_right _ _ (Nat.le_add_right _ _), Nat.add_sub_cancel_left]

/-- **A new entry** in front of a bucket may be pending too. -/
theorem Pending.push (hp : Pending d it rest) (h : Writes d d' second idx b (e :: b)) :
    ∃ rest', Pending d' it rest' ∧ (rest' = rest ∨ rest'.Perm (e :: rest)) := by
  have hahead : (ahead d' it).flatten = (ahead d it).flatten ∨
      (ahead d' it).flatten.Perm (e :: (ahead d it).flatten) := by
    rcases ahead_writes h it with heq | ⟨j, hj, heq⟩
    · exact .inl (by rw [heq])
    · obtain ⟨others, hold, hnew⟩ := exists_perm_set hj
      rw [heq]
      exact .inr ((hnew (e :: b)).trans (hold.symm.cons e))
  cases hp with
  | between hi he => exact ⟨_, .between hi he, hahead⟩
  | @inside i p pre suf hi he hb hn =>
    obtain ⟨pre', hb'⟩ : ∃ pre', (d'.ht it.second).table[i]? = some (pre' ++ suf) := by
      rcases h.bucket hb with hb' | ⟨rfl, hb'⟩
      · exact ⟨pre, hb'⟩
      · exact ⟨e :: pre, hb'⟩
    refine ⟨_, .inside hi he hb' hn, hahead.imp (fun heq => by rw [heq]) fun hperm => ?_⟩
    exact (hperm.append_left suf).trans perm_middle

/-- **An entry that is not pending** is unlinked. -/
theorem Pending.unlink (hp : Pending d it rest) {pos : ℕ}
    (h : Writes d d' second idx b (b.eraseIdx pos)) (he : b[pos]? = some e) (hnot : e ∉ rest) :
    Pending d' it rest := by
  have hahead : e ∉ (ahead d it).flatten → ahead d' it = ahead d it := by
    intro hnot
    rcases ahead_writes h it with heq | ⟨j, hj, -⟩
    · exact heq
    · exact absurd (mem_flatten.mpr ⟨b, mem_of_getElem? hj, mem_of_getElem? he⟩) hnot
  cases hp with
  | between hi hentry =>
    rw [← hahead hnot]
    exact .between hi hentry
  | @inside i p pre suf hi hentry hb hn =>
    rw [mem_append, not_or] at hnot
    rw [← hahead hnot.2]
    rcases h.bucket hb with hb' | ⟨rfl, hb'⟩
    · exact .inside hi hentry hb' hn
    · -- The entry is in the part of the bucket that was returned.
      have hpos : pos < pre.length := by
        by_contra hge
        rw [List.getElem?_append_right (Nat.not_lt.mp hge)] at he
        exact hnot.1 (mem_of_getElem? he)
      rw [eraseIdx_append_of_lt_length hpos] at hb'
      exact .inside hi hentry hb' hn

/-- **A table is allocated.** -/
theorem Pending.allocate (hp : Pending d it rest) (h : Allocates d d' second n) :
    Pending d' it rest := by
  have hdrop : ∀ (s : Bool) (m : ℕ),
      ((d'.ht s).table.drop m).flatten = ((d.ht s).table.drop m).flatten := by
    intro s m
    by_cases hs : s = second
    · rw [hs, h.old, h.new]
      simp
    · obtain rfl : s = !second := by
        cases s <;> cases second <;> first | rfl | exact absurd rfl hs
      rw [h.other]
  have hahead : (ahead d' it).flatten = (ahead d it).flatten := by
    rw [ahead, ahead, flatten_append, flatten_append, hdrop]
    cases it.second with
    | true => rfl
    | false => exact congrArg _ (hdrop true 0)
  cases hp with
  | between hi he =>
    rw [← hahead]
    exact .between hi he
  | @inside i p pre suf hi he hb hn =>
    rw [← hahead]
    have hs : it.second = !second := by
      by_contra hne
      obtain heq : it.second = second := by
        cases hit : it.second <;> cases second <;> simp_all
      rw [heq, h.old] at hb
      cases hb
    have hb' : (d'.ht it.second).table[i]? = some (pre ++ suf) := by
      rw [hs, h.other, ← hs]
      exact hb
    exact .inside hi he hb' hn

end Changes

/-! ### Calls while an iterator is open -/

section Held
variable {hash : K → ℕ} {eq : K → K → Bool} {d d' : Dict K V} {key : K}

/-- **No bucket is moved.** -/
theorem dictRehashStep_held (hi : d.iterators ≠ 0) : dictRehashStep hash d = some d := by
  rw [dictRehashStep, if_neg hi, ite_self]

theorem dictFind_held (hi : d.iterators ≠ 0) {r : Option EntryPtr}
    (h : dictFind hash eq d key = some (d', r)) : d' = d := by
  rw [dictFind] at h
  simp only [dictRehashStep_held hi] at h
  split at h
  · exact (Prod.mk.inj (some.inj h)).1.symm
  · split at h
    · cases h
    · exact (Prod.mk.inj (some.inj h)).1.symm
    · split at h
      · split at h
        · cases h
        · exact (Prod.mk.inj (some.inj h)).1.symm
        · exact (Prod.mk.inj (some.inj h)).1.symm
      · exact (Prod.mk.inj (some.inj h)).1.symm

theorem searchTable_found {t : Dictht K V} {idx pos : ℕ}
    (h : searchTable hash eq t key = some (idx, some pos)) :
    ∃ b e, t.table[idx]? = some b ∧ b[pos]? = some e ∧ eq key e.1 = true := by
  rw [searchTable] at h
  split at h
  · cases h
  · next b hb =>
      obtain ⟨rfl, hpos⟩ := Prod.mk.inj (some.inj h)
      obtain ⟨hlt, heq, -⟩ := findIdx?_eq_some_iff_getElem.mp hpos
      exact ⟨b, b[pos], hb, List.getElem?_eq_getElem hlt, heq⟩

theorem dictExpand_held (h : Phase hash d) (size : ℕ) :
    (dictExpand d size).1 = d ∨ ∃ second n, Allocates d (dictExpand d size).1 second n := by
  rw [dictExpand]
  split
  · exact .inl rfl
  · next hnot =>
      push Not at hnot
      split
      · exact .inl rfl
      · split
        · next hempty =>
            exact .inr ⟨false, _, List.isEmpty_iff.mp hempty, rfl, rfl, rfl⟩
        · have hold : d.ht1.table = [] := by
            cases h with
            | empty h0 h1 hr => rw [h1]; rfl
            | settled h0 h1 hr => rw [h1]; rfl
            | rehashing hre => exact absurd hre.isRehashing (by simpa using hnot.1)
          exact .inr ⟨true, _, hold, rfl, rfl, rfl⟩

theorem dictExpandIfNeeded_held (h : Phase hash d) :
    entries (dictExpandIfNeeded d).1 = entries d ∧ ((dictExpandIfNeeded d).1 = d ∨
      ∃ second n, Allocates d (dictExpandIfNeeded d).1 second n) := by
  rw [dictExpandIfNeeded]
  split
  · exact ⟨rfl, .inl rfl⟩
  · split
    · exact ⟨(dictExpand_spec h _).2, dictExpand_held h _⟩
    · split
      · exact ⟨(dictExpand_spec h _).2, dictExpand_held h _⟩
      · exact ⟨rfl, .inl rfl⟩

theorem dictKeyIndex_fst {d₁ : Dict K V} {r : ℤ}
    (h : dictKeyIndex hash eq d key = some (d₁, r)) : d₁ = (dictExpandIfNeeded d).1 := by
  rw [dictKeyIndex] at h
  split at h
  · next hexpand =>
      rw [hexpand]
      exact (Prod.mk.inj (some.inj h)).1.symm
  · next hexpand =>
      rw [hexpand]
      split at h
      · cases h
      · exact (Prod.mk.inj (some.inj h)).1.symm
      · split at h
        · split at h
          · cases h
          · exact (Prod.mk.inj (some.inj h)).1.symm
          · exact (Prod.mk.inj (some.inj h)).1.symm
        · exact (Prod.mk.inj (some.inj h)).1.symm

theorem push_eq_some {t t' : Dictht K V} {index : ℤ} {e : K × V} (h : t.push index e = some t') :
    ∃ b, t.table[index.toNat]? = some b ∧ t'.table = t.table.set index.toNat (e :: b) := by
  rw [Dictht.push] at h
  split at h
  · cases h
  · split at h
    · cases h
    · next b hb => exact ⟨b, hb, (some.inj h) ▸ rfl⟩

/-- **An addition** puts the entry in front of a bucket, maybe after an expansion. -/
theorem dictAdd_held (hi : d.iterators ≠ 0) {val : V} {r : Bool}
    (h : dictAdd hash eq d key val = some (d', r)) :
    (r = false ∧ d' = (dictExpandIfNeeded d).1) ∨
      (r = true ∧ ∃ second idx b,
        Writes (dictExpandIfNeeded d).1 d' second idx b ((key, val) :: b)) := by
  rw [dictAdd, dictRehashStep_held hi] at h
  dsimp only at h
  split at h
  · cases h
  · next d₁ index hindex =>
      obtain rfl := dictKeyIndex_fst hindex
      split at h
      · obtain ⟨rfl, rfl⟩ := Prod.mk.inj (some.inj h)
        exact .inl ⟨rfl, rfl⟩
      · refine .inr ?_
        split at h
        · split at h
          · cases h
          · next t hpush =>
              obtain ⟨rfl, rfl⟩ := Prod.mk.inj (some.inj h)
              obtain ⟨b, hb, ht⟩ := push_eq_some hpush
              exact ⟨rfl, true, index.toNat, b, hb, ht, rfl, rfl⟩
        · split at h
          · cases h
          · next t hpush =>
              obtain ⟨rfl, rfl⟩ := Prod.mk.inj (some.inj h)
              obtain ⟨b, hb, ht⟩ := push_eq_some hpush
              exact ⟨rfl, false, index.toNat, b, hb, ht, rfl, rfl⟩

theorem unlink_eq_some {t t' : Dictht K V} {idx pos : ℕ} {b : List (K × V)}
    (hb : t.table[idx]? = some b) (h : t.unlink idx pos = some t') :
    t'.table = t.table.set idx (b.eraseIdx pos) := by
  rw [Dictht.unlink, hb] at h
  exact (some.inj h) ▸ rfl

/-- **A deletion** unlinks the entry of the key from a bucket. -/
theorem dictDelete_held (hi : d.iterators ≠ 0) {r : Bool}
    (h : dictDelete hash eq d key = some (d', r)) :
    (r = false ∧ d' = d) ∨ (r = true ∧ ∃ second idx pos b e,
      Writes d d' second idx b (b.eraseIdx pos) ∧ b[pos]? = some e ∧ eq key e.1 = true) := by
  rw [dictDelete] at h
  simp only [dictRehashStep_held hi] at h
  split at h
  · obtain ⟨rfl, rfl⟩ := Prod.mk.inj (some.inj h)
    exact .inl ⟨rfl, rfl⟩
  · split at h
    · cases h
    · next idx pos hsearch =>
        obtain ⟨b, e, hb, he, heq⟩ := searchTable_found hsearch
        split at h
        · cases h
        · next t hunlink =>
            obtain ⟨rfl, rfl⟩ := Prod.mk.inj (some.inj h)
            exact .inr ⟨rfl, false, idx, pos, b, e, ⟨hb, unlink_eq_some hb hunlink, rfl, rfl⟩,
              he, heq⟩
    · split at h
      · split at h
        · cases h
        · next idx pos hsearch =>
            obtain ⟨b, e, hb, he, heq⟩ := searchTable_found hsearch
            split at h
            · cases h
            · next t hunlink =>
                obtain ⟨rfl, rfl⟩ := Prod.mk.inj (some.inj h)
                exact .inr ⟨rfl, true, idx, pos, b, e, ⟨hb, unlink_eq_some hb hunlink, rfl, rfl⟩,
                  he, heq⟩
        · obtain ⟨rfl, rfl⟩ := Prod.mk.inj (some.inj h)
          exact .inl ⟨rfl, rfl⟩
      · obtain ⟨rfl, rfl⟩ := Prod.mk.inj (some.inj h)
        exact .inl ⟨rfl, rfl⟩

end Held

/-! ### Runs -/

/-- A state of a dict whose entries were allocated before `fresh`. -/
structure Valid (hash : K → ℕ) (eq : K → K → Bool) (d : Dict K (Allocated V)) (fresh : ℕ) : Prop where
  phase : Phase hash d
  distinct : Distinct eq (entries d)
  numbered : Numbered d
  below : ∀ e ∈ entries d, e.2.num < fresh

/-- Every addition finds tables of at most `2 ^ 31` buckets, also when it has just allocated one. -/
def Iteration.Fits (hash : K → ℕ) (eq : K → K → Bool) (s : Iteration K V) : List (Action K V) → Prop
  | [] => True
  | a :: acts => (a.isAdd = true → Indexable (grown hash s.dict)) ∧
      match s.step hash eq a with
      | none => True
      | some s => s.Fits hash eq acts

/-- The numbers of the entries. -/
def numbers (d : Dict K (Allocated V)) : Set ℕ := {p | ∃ e ∈ entries d, e.2.num = p}

/-- The traversal of the numbers. -/
def Iteration.view (s : Iteration K V) (rest : List (K × Allocated V)) : State ℕ :=
  ⟨numbers s.dict, {p | p < s.fresh}, rest.map fun e => e.2.num, s.trace⟩

/-- What holds while a program runs: `rest` is pending, and `n` iterators were open before. -/
structure Iterating (hash : K → ℕ) (eq : K → K → Bool) (n : ℕ) (start : Set ℕ) (s : Iteration K V)
    (rest : List (K × Allocated V)) : Prop where
  valid : Valid hash eq s.dict s.fresh
  pending : Pending s.dict s.iter rest
  count : s.dict.iterators = if s.iter.started then n + 1 else n
  last : ∀ key, s.last = some key → ∃ e ∈ entries s.dict, e.1 = key ∧ e ∉ rest
  sound : Sound start (s.view rest)
  ended : s.ended = true → ∀ p ∈ start, .returned p ∈ s.trace

section Runs
variable {hash : K → ℕ} {eq : K → K → Bool} {d d' : Dict K (Allocated V)} {fresh n : ℕ}
  {start : Set ℕ} {s : Iteration K V} {rest : List (K × Allocated V)} {e x : K × Allocated V}

theorem Iteration.Fits.cons {a : Action K V} {acts : List (Action K V)} {s' : Iteration K V}
    (h : s.Fits hash eq (a :: acts)) (hstep : s.step hash eq a = some s') :
    (a.isAdd = true → Indexable (grown hash s.dict)) ∧ s'.Fits hash eq acts := by
  rw [Iteration.Fits, hstep] at h
  exact h

theorem numbers_perm (h : (entries d').Perm (e :: entries d)) :
    numbers d' = insert e.2.num (numbers d) := by
  ext p
  constructor
  · rintro ⟨x, hx, rfl⟩
    rcases mem_cons.mp (h.mem_iff.mp hx) with rfl | hx
    · exact .inl rfl
    · exact .inr ⟨x, hx, rfl⟩
  · rintro (rfl | ⟨x, hx, rfl⟩)
    · exact ⟨e, h.mem_iff.mpr mem_cons_self, rfl⟩
    · exact ⟨x, h.mem_iff.mpr (mem_cons_of_mem _ hx), rfl⟩

theorem numbers_eq (h : entries d' = entries d) : numbers d' = numbers d := by
  rw [numbers, h, numbers]

theorem entries_hold (it : DictIterator) : entries (it.hold d) = entries d := by
  rw [DictIterator.hold]
  split <;> rfl

theorem Valid.congr (h : Valid hash eq d fresh) (h' : Phase hash d') (he : entries d' = entries d) :
    Valid hash eq d' fresh :=
  ⟨h', by rw [he]; exact h.distinct, by rw [Numbered, he]; exact h.numbered,
    by rw [he]; exact h.below⟩

/-- The entry of a number, and that of a key, is unique. -/
theorem Valid.nodup (h : Valid hash eq d fresh) : (entries d).Nodup := Nodup.of_map _ h.numbered

theorem Valid.eq_of_key (h : Valid hash eq d fresh) (hk : KeyEq hash eq) (he : e ∈ entries d)
    (hx : x ∈ entries d) (heq : eq e.1 x.1 = true) : e = x := by
  by_contra hne
  have hsymm : Std.Symm fun a b : K × Allocated V => eq a.1 b.1 = false := by
    refine ⟨fun a b hab => ?_⟩
    by_contra hba
    rw [hk.symm (by simpa using hba)] at hab
    cases hab
  have := h.distinct.forall he hx hne
  rw [heq] at this
  cases this

theorem Valid.chainFrom (h : Valid hash eq d fresh) (he : e ∈ entries d) :
    ∃ es, chainFrom d e.2.num = e :: es := by
  have hbucket : ∃ (second : Bool) (b : _), b ∈ (d.ht second).table ∧ e ∈ b := by
    rcases mem_append.mp he with he | he
    · exact ⟨false, mem_flatten.mp he⟩
    · exact ⟨true, mem_flatten.mp he⟩
  obtain ⟨second, b, hb, heb⟩ := hbucket
  obtain ⟨i, hi⟩ := mem_iff_getElem?.mp hb
  obtain ⟨pre, suf, rfl⟩ := append_of_mem heb
  exact ⟨suf, chainFrom_eq h.numbered hi⟩

theorem iterators_hold (it : DictIterator) :
    (it.hold d).iterators = if it.started then d.iterators else d.iterators + 1 := by
  rw [DictIterator.hold]
  split <;> rfl

/-- **A call of `dictNext`.** -/
theorem Iterating.next (h : Iterating hash eq n start s rest) :
    ∃ s' rest', s.step hash eq .next = some s' ∧ Iterating hash eq n start s' rest' ∧
      s'.iter.started = true ∧
      (s'.ended = true ∨ s'.ended = s.ended ∧ rest'.length + 1 = rest.length) := by
  obtain ⟨it', hnext, hstarted, hpending⟩ := dictNext_spec h.valid.phase h.valid.numbered h.pending
  have hvalid : Valid hash eq (s.iter.hold s.dict) s.fresh :=
    h.valid.congr (h.valid.phase.hold _) (entries_hold _)
  have hcount : (s.iter.hold s.dict).iterators = if it'.started then n + 1 else n := by
    rw [hstarted, if_pos rfl, iterators_hold, h.count]
    split <;> rfl
  have hnumbers : numbers (s.iter.hold s.dict) = numbers s.dict := numbers_eq (entries_hold _)
  cases rest with
  | nil =>
    have hnext' : dictNext s.dict s.iter = some (s.iter.hold s.dict, it', none) := hnext
    have hstep : s.step hash eq .next = some { s with
        dict := s.iter.hold s.dict, iter := it', last := none, ended := true } := by
      simp only [Iteration.step, hnext']
    refine ⟨_, [], hstep, ⟨hvalid, hpending, hcount, fun key hkey => absurd hkey (by simp), ?_,
      fun _ p hp => ?_⟩, hstarted, .inl rfl⟩
    · rw [Iteration.view, hnumbers]
      exact h.sound
    · exact (h.sound.reached p hp).resolve_left not_mem_nil
  | cons e rest =>
    have hmem : e ∈ entries s.dict := h.pending.sublist.mem mem_cons_self
    have hmem' : e ∈ entries (s.iter.hold s.dict) := by rw [entries_hold]; exact hmem
    obtain ⟨es, hchain⟩ := hvalid.chainFrom hmem'
    have hnext' : dictNext s.dict s.iter = some (s.iter.hold s.dict, it', some e.2.num) := hnext
    have hstep : s.step hash eq .next = some { s with
        dict := s.iter.hold s.dict, iter := it', last := some e.1
        trace := s.trace ++ [.returned e.2.num] } := by
      simp only [Iteration.step, hnext', hchain]
    refine ⟨_, rest, hstep, ⟨hvalid, hpending, hcount,
      fun key hkey => ⟨e, hmem', some.inj hkey, ?_⟩, ?_, fun hended p hp => ?_⟩, hstarted,
      .inr ⟨rfl, rfl⟩⟩
    · exact (nodup_cons.mp (h.pending.sublist.nodup h.valid.nodup)).1
    · have hpend : (s.view (e :: rest)).pending = e.2.num :: rest.map fun e => e.2.num := rfl
      rw [Iteration.view, hnumbers]
      exact h.sound.visit hpend
    · exact mem_append_left _ (h.ended hended p hp)

theorem Iterating.held (h : Iterating hash eq n start s rest) (hs : s.iter.started = true) :
    s.dict.iterators ≠ 0 := by
  rw [h.count, hs, if_pos rfl]
  exact Nat.succ_ne_zero n

/-- **A lookup** changes nothing. -/
theorem Iterating.find (hk : KeyEq hash eq) (h : Iterating hash eq n start s rest)
    (hs : s.iter.started = true) (key : K) : s.step hash eq (.find key) = some s := by
  have hi := h.held hs
  obtain ⟨d', r, hfind, -⟩ := dictFind_spec hk h.valid.phase key
  obtain rfl := dictFind_held hi hfind
  simp only [Iteration.step, hfind]

theorem Iterating.expand (h : Iterating hash eq n start s rest) :
    entries (dictExpandIfNeeded s.dict).1 = entries s.dict ∧
      (dictExpandIfNeeded s.dict).1.iterators = s.dict.iterators ∧
      Pending (dictExpandIfNeeded s.dict).1 s.iter rest := by
  obtain ⟨hentries, heq | ⟨second, m, halloc⟩⟩ := dictExpandIfNeeded_held h.valid.phase
  · rw [heq]
    exact ⟨rfl, rfl, h.pending⟩
  · exact ⟨hentries, halloc.iterators, h.pending.allocate halloc⟩

theorem Valid.push (h : Valid hash eq d fresh) {key : K} {val : V} (h' : Phase hash d')
    (hnot : ∀ e ∈ entries d, eq key e.1 = false) (hk : KeyEq hash eq)
    (hp : (entries d').Perm ((key, ⟨fresh, val⟩) :: entries d)) : Valid hash eq d' (fresh + 1) := by
  refine ⟨h', ?_, ?_, fun e he => ?_⟩
  · have hcons : Distinct eq ((key, ⟨fresh, val⟩) :: entries d) :=
      pairwise_cons.mpr ⟨hnot, h.distinct⟩
    exact hcons.perm hk hp
  · refine (hp.map _).nodup_iff.mpr (nodup_cons.mpr ⟨fun hmem => ?_, h.numbered⟩)
    obtain ⟨e, he, hnum⟩ := List.mem_map.mp hmem
    exact absurd hnum (h.below e he).ne
  · rcases mem_cons.mp (hp.mem_iff.mp he) with rfl | he
    · exact Nat.lt_succ_self fresh
    · exact Nat.lt_succ_of_lt (h.below e he)

/-- **An addition.** -/
theorem Iterating.add (hk : KeyEq hash eq) (h : Iterating hash eq n start s rest)
    (hs : s.iter.started = true) (hfit : Indexable (grown hash s.dict)) (key : K) (val : V) :
    ∃ s' rest', s.step hash eq (.add key val) = some s' ∧ Iterating hash eq n start s' rest' ∧
      s'.iter.started = true ∧ s'.ended = s.ended ∧ rest'.length ≤ rest.length + 1 := by
  have hi := h.held hs
  obtain ⟨hentries, hiterators, hpending⟩ := h.expand
  obtain ⟨d', r, hadd, hphase, hspec⟩ :=
    dictAdd_spec hk h.valid.phase hfit key (⟨s.fresh, val⟩ : Allocated V)
  have hstep : s.step hash eq (.add key val) =
      some { s with dict := d', fresh := if r then s.fresh + 1 else s.fresh } := by
    simp only [Iteration.step, hadd]
  rcases dictAdd_held hi hadd with ⟨rfl, rfl⟩ | ⟨rfl, second, idx, b, hwrites⟩
  · refine ⟨_, rest, hstep, ⟨h.valid.congr hphase hentries, hpending, hiterators.trans h.count,
      fun k hkey => ?_, ?_, h.ended⟩, hs, rfl, Nat.le_succ _⟩
    · change ∃ e ∈ entries (dictExpandIfNeeded s.dict).1, e.1 = k ∧ e ∉ rest
      rw [hentries]
      exact h.last k hkey
    · change Sound start ⟨numbers (dictExpandIfNeeded s.dict).1, _, _, _⟩
      rw [numbers_eq hentries]
      exact h.sound
  · obtain ⟨rest', hpending', hrest'⟩ := hpending.push hwrites
    obtain ⟨hnot, hperm⟩ : (∀ e ∈ entries s.dict, eq key e.1 = false) ∧
        (entries d').Perm ((key, ⟨s.fresh, val⟩) :: entries s.dict) := by
      rcases hspec with ⟨-, hnot, hperm⟩ | ⟨hr, -⟩ | ⟨hr, -⟩
      · exact ⟨hnot, hperm⟩
      · cases hr
      · cases hr
    refine ⟨_, rest', hstep, ⟨h.valid.push hphase hnot hk hperm, hpending',
      (hwrites.iterators.trans hiterators).trans h.count, fun k hkey => ?_, ?_, h.ended⟩, hs, rfl, ?_⟩
    · obtain ⟨e, he, hke, hnotin⟩ := h.last k hkey
      refine ⟨e, hperm.mem_iff.mpr (mem_cons_of_mem _ he), hke, fun hmem => ?_⟩
      rcases hrest' with rfl | hrest'
      · exact hnotin hmem
      · -- The new entry has a number of its own.
        rcases mem_cons.mp (hrest'.mem_iff.mp hmem) with rfl | hmem
        · exact absurd (h.valid.below _ he) (lt_irrefl _)
        · exact hnotin hmem
    · have hknown : {p | p < s.fresh + 1} = insert s.fresh {p | p < s.fresh} := by
        ext p
        simp only [Set.mem_ofPred_eq, Set.mem_insert_iff]
        omega
      have hpend : (rest'.map fun e => e.2.num) = (s.view rest).pending ∨
          (rest'.map fun e => e.2.num).Perm (s.fresh :: (s.view rest).pending) :=
        hrest'.imp (fun heq => by rw [heq]; rfl) fun hp => hp.map _
      change Sound start ⟨numbers d', {p | p < s.fresh + 1}, _, _⟩
      rw [numbers_perm hperm, hknown]
      exact h.sound.insert (lt_irrefl s.fresh) hpend
    · rcases hrest' with rfl | hrest'
      · exact Nat.le_succ _
      · exact hrest'.length_eq.le

theorem gone_self (d : Dict K (Allocated V)) : gone d d = [] := by
  rw [gone, filter_eq_nil_iff]
  intro p hp
  simpa using hp

theorem Valid.pop (h : Valid hash eq d fresh) (hk : KeyEq hash eq) (h' : Phase hash d')
    (hp : (entries d).Perm (e :: entries d')) :
    Valid hash eq d' fresh ∧ e.2.num ∉ (entries d').map fun e => e.2.num := by
  have hdistinct : Distinct eq (e :: entries d') := h.distinct.perm hk hp.symm
  have hnumbered : ((e :: entries d').map fun e => e.2.num).Nodup :=
    (hp.map _).nodup_iff.mp h.numbered
  obtain ⟨hnot, hnodup⟩ := nodup_cons.mp hnumbered
  exact ⟨⟨h', (pairwise_cons.mp hdistinct).2, hnodup,
    fun x hx => h.below x (hp.mem_iff.mpr (mem_cons_of_mem _ hx))⟩, hnot⟩

theorem gone_eq (hp : (entries d).Perm (e :: entries d'))
    (hnot : e.2.num ∉ (entries d').map fun e => e.2.num) : gone d d' = [e.2.num] := by
  have hperm := (hp.map fun e => e.2.num).filter fun p => p ∉ (entries d').map fun e => e.2.num
  rw [map_cons, filter_cons_of_pos (by simpa using hnot)] at hperm
  have hself := gone_self d'
  rw [gone] at hself
  rw [hself] at hperm
  exact perm_singleton.mp hperm

theorem numbers_pop (hp : (entries d).Perm (e :: entries d'))
    (hnot : e.2.num ∉ (entries d').map fun e => e.2.num) :
    numbers d' = numbers d \ {e.2.num} := by
  rw [numbers_perm hp, Set.insert_sdiff_of_mem _ (Set.mem_singleton _), Set.sdiff_singleton_eq_self]
  rintro ⟨x, hx, hnum⟩
  exact hnot (hnum ▸ List.mem_map_of_mem hx)

/-- **A deletion** of the entry just returned. -/
theorem Iterating.delete (hk : KeyEq hash eq) (h : Iterating hash eq n start s rest)
    (hs : s.iter.started = true) :
    ∃ s', s.step hash eq .delete = some s' ∧ Iterating hash eq n start s' rest ∧
      s'.iter.started = true ∧ s'.ended = s.ended := by
  have hi := h.held hs
  cases hlast : s.last with
  | none => exact ⟨s, by simp only [Iteration.step, hlast], h, hs, rfl⟩
  | some key =>
    obtain ⟨e, he, rfl, hnot⟩ := h.last key hlast
    obtain ⟨d', r, hdelete, hphase, hspec⟩ := dictDelete_spec hk h.valid.phase e.1
    have hstep : s.step hash eq .delete = some { s with
        dict := d', last := none, trace := s.trace ++ (gone s.dict d').map .removed } := by
      simp only [Iteration.step, hlast, hdelete]
    rcases dictDelete_held hi hdelete with ⟨rfl, rfl⟩ |
      ⟨rfl, second, idx, pos, b, x, hwrites, hx, hkey⟩
    · -- The entry is there, so this does not happen.
      rcases hspec with ⟨hr, -⟩ | ⟨-, hall, -⟩
      · cases hr
      · have := hall e he
        rw [hk.refl] at this
        cases this
    · obtain ⟨y, heq, hperm⟩ : ∃ y, eq e.1 y.1 = true ∧
          (entries s.dict).Perm (y :: entries d') := by
        rcases hspec with ⟨-, hspec⟩ | ⟨hr, -⟩
        · exact hspec
        · cases hr
      have hxmem : x ∈ entries s.dict := by
        have hmem : x ∈ (s.dict.ht second).table.flatten :=
          mem_flatten.mpr ⟨b, mem_of_getElem? hwrites.old, mem_of_getElem? hx⟩
        cases second with
        | false => exact mem_append_left _ hmem
        | true => exact mem_append_right _ hmem
      obtain rfl : e = x := h.valid.eq_of_key hk he hxmem hkey
      obtain rfl : e = y :=
        h.valid.eq_of_key hk he (hperm.mem_iff.mpr mem_cons_self) heq
      obtain ⟨hvalid, hnum⟩ := h.valid.pop hk hphase hperm
      have hpend : e.2.num ∉ (s.view rest).pending := by
        intro hmem
        obtain ⟨y, hy, hyn⟩ := List.mem_map.mp hmem
        have := inj_on_of_nodup_map h.valid.numbered (h.pending.sublist.mem hy) he hyn
        exact hnot (this ▸ hy)
      refine ⟨_, hstep, ⟨hvalid, h.pending.unlink hwrites hx hnot,
        hwrites.iterators.trans h.count, fun k hkey => absurd hkey (by simp), ?_, fun hended p hp => ?_⟩,
        hs, rfl⟩
      · change Sound start ⟨numbers d', _, _, s.trace ++ (gone s.dict d').map .removed⟩
        rw [gone_eq hperm hnum, numbers_pop hperm hnum]
        exact h.sound.remove ⟨e, he, rfl⟩ hpend
      · exact mem_append_left _ (h.ended hended p hp)

/-- **A program**: each call of `dictNext` takes one of what is pending, until nothing is, and each
addition puts in one at most. -/
theorem Iterating.run (hk : KeyEq hash eq) (acts : List (Action K V)) :
    ∀ {s : Iteration K V} {rest : List (K × Allocated V)}, Iterating hash eq n start s rest →
      s.iter.started = true → s.Fits hash eq acts → ∃ s' rest', s.run hash eq acts = some s' ∧
        Iterating hash eq n start s' rest' ∧ s'.iter.started = true ∧
        (s.ended = true → s'.ended = true) ∧
        (s'.ended = true ∨
          rest'.length + acts.countP Action.isNext ≤ rest.length + acts.countP Action.isAdd) := by
  induction acts with
  | nil => exact fun {s rest} h hs _ => ⟨s, rest, rfl, h, hs, id, .inr le_rfl⟩
  | cons a acts ih =>
    intro s rest h hs hfit
    obtain ⟨s₁, rest₁, hstep, h₁, hs₁, hended₁, hlen₁⟩ :
        ∃ s₁ rest₁, s.step hash eq a = some s₁ ∧ Iterating hash eq n start s₁ rest₁ ∧
          s₁.iter.started = true ∧ (s.ended = true → s₁.ended = true) ∧
          (s₁.ended = true ∨ rest₁.length + [a].countP Action.isNext ≤
            rest.length + [a].countP Action.isAdd) := by
      cases a with
      | next =>
        obtain ⟨s₁, rest₁, hstep, h₁, hs₁, hended | ⟨hended, hlen⟩⟩ := h.next
        · exact ⟨s₁, rest₁, hstep, h₁, hs₁, fun _ => hended, .inl hended⟩
        · exact ⟨s₁, rest₁, hstep, h₁, hs₁, fun he => hended.trans he, .inr hlen.le⟩
      | add key val =>
        obtain ⟨s₁, rest₁, hstep, h₁, hs₁, hended, hlen⟩ := h.add hk hs (hfit.1 rfl) key val
        exact ⟨s₁, rest₁, hstep, h₁, hs₁, fun he => hended.trans he, .inr hlen⟩
      | find key => exact ⟨s, rest, h.find hk hs key, h, hs, id, .inr le_rfl⟩
      | delete =>
        obtain ⟨s₁, hstep, h₁, hs₁, hended⟩ := h.delete hk hs
        exact ⟨s₁, rest, hstep, h₁, hs₁, fun he => hended.trans he, .inr le_rfl⟩
    obtain ⟨s', rest', hrun, h', hs', hended', hlen'⟩ := ih h₁ hs₁ (hfit.cons hstep).2
    refine ⟨s', rest', by rw [Iteration.run, hstep]; exact hrun, h', hs',
      fun he => hended' (hended₁ he), ?_⟩
    rcases hlen₁ with he | hlen₁
    · exact .inl (hended' he)
    · refine hlen'.imp id fun hlen' => ?_
      rw [← singleton_append, countP_append, countP_append]
      omega

theorem iterating_begin (h : Valid hash eq d fresh) :
    Iterating hash eq d.iterators (numbers d) (Iteration.begin d fresh) (entries d) := by
  refine ⟨h, pending_start d, rfl, fun key hkey => (by cases hkey), ?_,
    fun he => absurd he Bool.false_ne_true⟩
  refine sound_start ?_ (fun p => ?_) h.numbered
  · rintro p ⟨e, he, rfl⟩
    exact h.below e he
  · exact List.mem_map

theorem Iterating.release (h : Iterating hash eq n start s rest) :
    (dictReleaseIterator s.dict s.iter).iterators = n := by
  have hcount := h.count
  rw [dictReleaseIterator]
  split
  · next hs =>
      rw [if_pos hs] at hcount
      change s.dict.iterators - 1 = n
      omega
  · next hs => rwa [if_neg hs] at hcount

/-- **A safe iterator sees each entry once**, whatever a program adds, looks up or deletes between the
calls of `dictNext`, while the tables have at most `2 ^ 31` buckets: nothing is returned twice or after it
was deleted, and when `dictNext` has returned `NULL`, as it has after enough calls, every entry of the
start was returned.  No pointer to an entry that was freed is followed, and no table is left. -/
theorem safeIterator_once (hk : KeyEq hash eq) (h : Valid hash eq d fresh) :
    (dictReleaseIterator d dictGetSafeIterator).iterators = d.iterators ∧
    ∀ acts : List (Action K V), (Iteration.begin d fresh).Fits hash eq (.next :: acts) →
      ∃ s : Iteration K V, (Iteration.begin d fresh).run hash eq (.next :: acts) = some s ∧
      Once s.trace ∧
      (s.ended = true → ∀ e ∈ entries d, s.trace.count (.returned e.2.num) = 1) ∧
      ((entries d).length + acts.countP Action.isAdd ≤ acts.countP Action.isNext → s.ended = true) ∧
      (dictReleaseIterator s.dict s.iter).iterators = d.iterators := by
  have hbegin := iterating_begin h
  refine ⟨hbegin.release, fun acts hfit => ?_⟩
  obtain ⟨s₁, rest₁, hstep, h₁, hs₁, hlen₁⟩ := hbegin.next
  obtain ⟨s, rest, hrun, hs, hstarted, hended, hlen⟩ := h₁.run hk acts hs₁ (hfit.cons hstep).2
  refine ⟨s, by rw [Iteration.run, hstep]; exact hrun, hs.sound.once, fun he e hmem => ?_,
    fun hcalls => ?_, hs.release⟩
  · exact hs.sound.once.count_returned (hs.ended he _ ⟨e, hmem, rfl⟩)
  · rcases hlen₁ with he | ⟨-, hlen₁⟩
    · exact hended he
    · refine hlen.resolve_right fun hle => ?_
      omega

instance Indexable.decidable (d : Dict K V) : Decidable (Indexable d) :=
  inferInstanceAs (Decidable (d.ht0.size ≤ 2 ^ 31 ∧ d.ht1.size ≤ 2 ^ 31))

instance Iteration.Fits.decidable (hash : K → ℕ) (eq : K → K → Bool) :
    (s : Iteration K V) → (acts : List (Action K V)) → Decidable (s.Fits hash eq acts)
  | _, [] => .isTrue trivial
  | s, a :: acts =>
    have : Decidable (match s.step hash eq a with
        | none => True
        | some s => s.Fits hash eq acts) :=
      match s.step hash eq a with
      | none => .isTrue trivial
      | some s => Iteration.Fits.decidable hash eq s acts
    inferInstanceAs (Decidable ((a.isAdd = true → Indexable (grown hash s.dict)) ∧ _))

/-- A table that is full, so that an addition begins an expansion. -/
def fullDict : Dict ℕ (Allocated Unit) :=
  ⟨⟨[[(4, ⟨0, ()⟩), (8, ⟨1, ()⟩)], [(1, ⟨2, ()⟩)], [], [(3, ⟨3, ()⟩)]], 4, 3, 4⟩, dictReset, -1, 0,
    true⟩

/-- A program with every action. -/
def fullProgram : List (Action ℕ Unit) :=
  [.add 9 (), .delete, .next, .add 5 (), .find 3, .next, .delete, .next, .next, .next, .next, .next]

/-- An expansion and two deletions during the iteration. -/
theorem safeIterator_once_fullDict :
    ∃ s, (Iteration.begin fullDict 4).run (fun k => k) (fun a b => a == b) (.next :: fullProgram) =
        some s ∧
      Once s.trace ∧ s.ended = true ∧ dictIsRehashing s.dict = true ∧
      (∀ e ∈ entries fullDict, s.trace.count (.returned e.2.num) = 1) ∧
      (dictReleaseIterator s.dict s.iter).iterators = 0 := by
  have hfiled : ∀ i < 4, ∀ b ∈ fullDict.ht0.table[i]?, ∀ e ∈ b, e.1 &&& 3 = i := by decide
  have htable : Table (fun k : ℕ => k) fullDict.ht0 := by
    refine ⟨.inl ⟨2, by decide, rfl⟩, rfl, rfl, rfl, fun i b hb => ?_⟩
    exact hfiled i (List.getElem?_eq_some_iff.mp hb).1 b hb
  have hvalid : Valid (fun k : ℕ => k) (fun a b => a == b) fullDict 4 :=
    ⟨.settled htable rfl rfl, by rw [Distinct]; decide, by rw [Numbered]; decide, by decide⟩
  obtain ⟨s, hrun, honce, hall, -, hrelease⟩ := (safeIterator_once (keyEq_beq _) hvalid).2 fullProgram
    (by decide +kernel)
  have hended : ∀ s ∈ (Iteration.begin fullDict 4).run (fun k => k) (fun a b => a == b)
      (.next :: fullProgram), s.ended = true ∧ dictIsRehashing s.dict = true := by
    decide +kernel
  obtain ⟨he, hr⟩ := hended s hrun
  exact ⟨s, hrun, honce, he, hr, hall he, hrelease⟩

/-- A table of `n + 1` buckets with an entry in the first one. -/
def sparseDict (n : ℕ) : Dict ℕ (Allocated Unit) :=
  ⟨⟨[(0, ⟨0, ()⟩)] :: replicate n [], n + 1, n, 1⟩, dictReset, -1, 0, true⟩

theorem entries_sparseDict (n : ℕ) : entries (sparseDict n) = [(0, ⟨0, ()⟩)] := by
  simp [entries, sparseDict, dictReset]

theorem sparseDict_valid {n k : ℕ} (hk : k ≤ 63) (hn : n + 1 = 2 ^ k) :
    Valid (fun k : ℕ => k) (fun a b => a == b) (sparseDict n) 1 := by
  have htable : Table (fun k : ℕ => k) (sparseDict n).ht0 := by
    refine ⟨.inl ⟨k, hk, hn⟩, rfl, ?_, ?_, fun i b hb e he => ?_⟩
    · simp [sparseDict]
    · simp [sparseDict]
    · cases i with
      | zero =>
        obtain rfl := some.inj hb
        obtain rfl := mem_singleton.mp he
        exact Nat.zero_and _
      | succ i =>
        obtain rfl := eq_of_mem_replicate (mem_of_getElem? (show (replicate n [])[i]? = some b from hb))
        exact absurd he not_mem_nil
  exact ⟨.settled htable rfl rfl, by rw [Distinct, entries_sparseDict]; exact pairwise_singleton _ _,
    by rw [Numbered, entries_sparseDict]; decide, by rw [entries_sparseDict]; decide⟩

/-- **An index that is negative**: in a table of more than `2 ^ 31` buckets, the entry of a key whose hash
is `2 ^ 31` is written in front of the table. -/
theorem dictAdd_sparseDict {d : Dict ℕ (Allocated Unit)} {n k : ℕ} (hn : n + 1 = 2 ^ k) (hk : 32 ≤ k)
    (h0 : d.ht0 = (sparseDict n).ht0) (hr : d.rehashidx = -1) (v : Allocated Unit) :
    dictAdd (fun k => k) (fun a b => a == b) d (2 ^ 31) v = none := by
  have hmask : 2 ^ 31 &&& n = 2 ^ 31 := by
    obtain rfl : n = 2 ^ k - 1 := by omega
    rw [Nat.and_two_pow_sub_one_eq_mod, Nat.mod_eq_of_lt (Nat.pow_lt_pow_right (by decide) (by omega))]
  have hle : 2 ^ 32 ≤ n + 1 := hn ▸ Nat.pow_le_pow_right (by decide) hk
  have hre : dictIsRehashing d = false := by simp [dictIsRehashing, hr]
  have hstep : dictRehashStep (fun k => k) d = some d := by simp [dictRehashStep, hre]
  have hexpand : dictExpandIfNeeded d = (d, true) := by
    have hnot : ¬ n + 1 ≤ 1 := by omega
    simp [dictExpandIfNeeded, hre, h0, sparseDict, hnot]
  have hbucket : (sparseDict n).ht0.table[2 ^ 31]? = some [] := by
    have hlt : 2 ^ 31 - 1 < n := by omega
    exact getElem?_replicate_of_lt hlt
  have hsearch : searchTable (fun k => k) (fun a b => a == b) d.ht0 (2 ^ 31) = some (2 ^ 31, none) := by
    have hidx : 2 ^ 31 &&& (sparseDict n).ht0.sizemask = 2 ^ 31 := hmask
    simp only [searchTable, h0, hidx, hbucket, findIdx?_nil]
  have hneg : d.ht0.push (intOfUnsigned (2 ^ 31)) ((2 ^ 31, v) : ℕ × Allocated Unit) = none :=
    if_pos (intOfUnsigned_neg (lt_irrefl _))
  have hne : ¬ intOfUnsigned (2 ^ 31) = -1 := by decide
  simp only [dictAdd, hstep, dictKeyIndex, hexpand, hsearch, hre, hneg, hne, Bool.false_eq_true,
    if_false]

/-- In a table of `2 ^ 32` buckets, as `dictExpand` allocates it for as many keys. -/
theorem safeIterator_leaves_table :
    Valid (fun k : ℕ => k) (fun a b => a == b) (sparseDict (2 ^ 32 - 1)) 1 ∧
      (Iteration.begin (sparseDict (2 ^ 32 - 1)) 1).run (fun k => k) (fun a b => a == b)
        [.next, .add (2 ^ 31) ()] = none := by
  obtain ⟨n, hn⟩ : ∃ n, 2 ^ 32 - 1 = n := ⟨_, rfl⟩
  have hpow : n + 1 = 2 ^ 32 := by omega
  rw [hn]
  have hvalid := sparseDict_valid (by decide) hpow
  refine ⟨hvalid, ?_⟩
  obtain ⟨it, hnext, -⟩ := dictNext_spec hvalid.phase hvalid.numbered (pending_start _)
  rw [entries_sparseDict] at hnext
  obtain ⟨es, hchain⟩ := (hvalid.congr (hvalid.phase.hold dictGetSafeIterator)
    (entries_hold _)).chainFrom (e := (0, ⟨0, ()⟩)) (by
      rw [entries_hold, entries_sparseDict]
      exact mem_singleton_self _)
  have hadd := dictAdd_sparseDict (d := dictGetSafeIterator.hold (sparseDict n)) hpow le_rfl rfl rfl
    ⟨1, ()⟩
  have hnext' : dictNext (sparseDict n) dictGetSafeIterator =
      some (dictGetSafeIterator.hold (sparseDict n), it, some 0) := hnext
  have hchain' : chainFrom (dictGetSafeIterator.hold (sparseDict n)) 0 = (0, ⟨0, ()⟩) :: es := hchain
  simp only [Iteration.run, Iteration.step, Iteration.begin, hnext', hchain', hadd]

end Runs

end SourceLibs.RedisDict
