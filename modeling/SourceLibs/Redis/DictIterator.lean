import SourceLibs.Redis.DictMap
import Mathlib.Data.List.Flatten
import Mathlib.Data.List.Nodup
import Mathlib.Data.List.TakeWhile

/-!
# Redis — the safe iterator of a dict

`dictNext`.  What the iterator has not returned is behind `nextEntry` in the bucket it is in, in the buckets
after that, and in `ht[1]`, if it is not there already (`Pending`).  The fingerprint of an iterator that is
not safe is left out.

A pointer to an entry is the number of its allocation; numbers are not used again.  To read an entry that
was freed, or past a table, gives nothing.

* `chainFrom_eq`: what a pointer points to.
* `nextRound_spec`: a round of the loop goes to the next bucket.
* `dictNext_spec`: the first of the entries that are pending is returned.
-/

namespace SourceLibs.RedisDict
open List
variable {K V : Type*}

/-- What an entry has besides its key. -/
structure Allocated (V : Type*) where
  num : ℕ
  val : V

/-- `dictIterator`, of a safe iterator; `second` is `table`. -/
structure DictIterator where
  second : Bool
  index : ℤ
  entry : Option ℕ
  nextEntry : Option ℕ

def dictGetSafeIterator : DictIterator := ⟨false, -1, none, none⟩

/-- `ht[0]` or `ht[1]`. -/
def Dict.ht (d : Dict K V) (second : Bool) : Dictht K V := if second then d.ht1 else d.ht0

/-- The chain of a bucket from an entry on; nothing, if the entry was freed. -/
def chainFrom (d : Dict K (Allocated V)) (p : ℕ) : List (K × Allocated V) :=
  (d.ht0.table ++ d.ht1.table).flatMap fun b => b.dropWhile fun e => e.2.num != p

/-- The pointer to the first entry of a chain. -/
def headPtr (b : List (K × Allocated V)) : Option ℕ := b.head?.map fun e => e.2.num

/-- `!(iter->index == -1 && iter->table == 0)`. -/
def DictIterator.started (it : DictIterator) : Bool := !(it.index == -1 && !it.second)

/-- `iter->entry = ht->table[iter->index]`. -/
def enterBucket (d : Dict K (Allocated V)) (it : DictIterator) : Option DictIterator :=
  match (d.ht it.second).table[it.index.toNat]? with
  | none => none
  | some b => some { it with entry := headPtr b }

/-- A round of the loop of `dictNext` up to `if (iter->entry)`, and whether it is the last. -/
def nextRound (d : Dict K (Allocated V)) (it : DictIterator) :
    Option (Dict K (Allocated V) × DictIterator × Bool) :=
  match it.entry with
  | some _ => some (d, { it with entry := it.nextEntry }, false)
  | none =>
    let d := if it.started then d else { d with iterators := d.iterators + 1 }
    let it : DictIterator := { it with index := it.index + 1 }
    if it.index ≥ ((d.ht it.second).size : ℤ) then
      if dictIsRehashing d && !it.second then
        match enterBucket d { it with second := true, index := 0 } with
        | none => none
        | some it => some (d, it, false)
      else some (d, it, true)
    else
      match enterBucket d it with
      | none => none
      | some it => some (d, it, false)

/-- The loop of `dictNext`. -/
def nextLoop : ℕ → Dict K (Allocated V) → DictIterator →
    Option (Dict K (Allocated V) × DictIterator × Option ℕ)
  | 0, _, _ => none
  | fuel + 1, d, it =>
    match nextRound d it with
    | none => none
    | some (d, it, true) => some (d, it, none)
    | some (d, it, false) =>
      match it.entry with
      | none => nextLoop fuel d it
      | some p =>
        match chainFrom d p with
        | [] => none
        | _ :: es => some (d, { it with nextEntry := headPtr es }, some p)

/-- `dictNext`; a round enters a bucket, but for the first and the last. -/
def dictNext (d : Dict K (Allocated V)) (it : DictIterator) :
    Option (Dict K (Allocated V) × DictIterator × Option ℕ) :=
  nextLoop (d.ht0.size + d.ht1.size + 2) d it

def dictReleaseIterator (d : Dict K (Allocated V)) (it : DictIterator) : Dict K (Allocated V) :=
  if it.started then { d with iterators := d.iterators - 1 } else d

/-! ### What is pending -/

/-- The buckets that the iterator has not entered. -/
def ahead (d : Dict K (Allocated V)) (it : DictIterator) : List (List (K × Allocated V)) :=
  (d.ht it.second).table.drop (it.index + 1).toNat ++ if it.second then [] else d.ht1.table

/-- The entries to be returned: the iterator is between two buckets, or inside one. -/
inductive Pending (d : Dict K (Allocated V)) (it : DictIterator) : List (K × Allocated V) → Prop where
  | between (hi : -1 ≤ it.index) (he : it.entry = none) : Pending d it (ahead d it).flatten
  | inside {i p : ℕ} {pre suf : List (K × Allocated V)} (hi : it.index = i) (he : it.entry = some p)
      (hb : (d.ht it.second).table[i]? = some (pre ++ suf)) (hn : it.nextEntry = headPtr suf) :
      Pending d it (suf ++ (ahead d it).flatten)

theorem pending_start (d : Dict K (Allocated V)) : Pending d dictGetSafeIterator (entries d) := by
  have h : Pending d dictGetSafeIterator (ahead d dictGetSafeIterator).flatten := .between le_rfl rfl
  rwa [ahead, flatten_append] at h

theorem Pending.sublist {d : Dict K (Allocated V)} {it : DictIterator}
    {rest : List (K × Allocated V)} (h : Pending d it rest) : rest.Sublist (entries d) := by
  have hahead : ∀ {l : List (K × Allocated V)}, l.Sublist (d.ht it.second).table.flatten →
      (l ++ (if it.second then [] else d.ht1.table).flatten).Sublist (entries d) := by
    intro l hl
    rw [Dict.ht] at hl
    cases hsecond : it.second with
    | false =>
      rw [hsecond] at hl
      exact hl.append (Sublist.refl _)
    | true =>
      rw [hsecond] at hl
      rw [if_pos rfl, flatten_nil, append_nil]
      exact hl.trans (sublist_append_right _ _)
  cases h with
  | between hi he =>
    rw [ahead, flatten_append]
    exact hahead (drop_sublist _ _).flatten
  | @inside i p pre suf hi he hb hn =>
    rw [ahead, flatten_append, ← List.append_assoc]
    refine hahead ?_
    obtain ⟨hlt, hget⟩ := List.getElem?_eq_some_iff.mp hb
    have hdrop : (d.ht it.second).table.drop i =
        (pre ++ suf) :: (d.ht it.second).table.drop (it.index + 1).toNat := by
      rw [drop_eq_getElem_cons hlt, hget, hi]
      rfl
    have hsub := (drop_sublist i (d.ht it.second).table).flatten
    rw [hdrop, flatten_cons] at hsub
    exact ((sublist_append_right pre suf).append (Sublist.refl _)).trans hsub

/-! ### Pointers -/

/-- No two entries have the same number. -/
def Numbered (d : Dict K (Allocated V)) : Prop := ((entries d).map fun e => e.2.num).Nodup

/-- **What a pointer points to** is found. -/
theorem chainFrom_eq {d : Dict K (Allocated V)} (h : Numbered d) {second : Bool} {i : ℕ}
    {pre suf : List (K × Allocated V)} {e : K × Allocated V}
    (hb : (d.ht second).table[i]? = some (pre ++ e :: suf)) :
    chainFrom d e.2.num = e :: suf := by
  have hmem : pre ++ e :: suf ∈ d.ht0.table ++ d.ht1.table := by
    have hmem := mem_of_getElem? hb
    rw [Dict.ht] at hmem
    split at hmem
    · exact mem_append_right _ hmem
    · exact mem_append_left _ hmem
  obtain ⟨l, r, hsplit⟩ := append_of_mem hmem
  have hentries : entries d = (l.flatten ++ pre) ++ e :: (suf ++ r.flatten) := by
    rw [entries, ← flatten_append, hsplit]
    simp
  rw [Numbered, hentries, map_append, map_cons, nodup_middle] at h
  obtain ⟨hnot, -⟩ := nodup_cons.mp h
  -- Every other entry has another number.
  have hother : ∀ x ∈ (l.flatten ++ pre) ++ (suf ++ r.flatten), (x.2.num != e.2.num) = true := by
    intro x hx
    rw [bne_iff_ne]
    intro heq
    rw [← map_append] at hnot
    exact hnot (heq ▸ List.mem_map_of_mem hx)
  have hnil : ∀ l' : List (List (K × Allocated V)),
      (∀ x ∈ l'.flatten, (x.2.num != e.2.num) = true) →
      l'.flatMap (fun b => b.dropWhile fun x => x.2.num != e.2.num) = [] := by
    intro l' hl'
    rw [flatMap_eq_nil_iff]
    intro b hbl
    exact dropWhile_eq_nil_iff.mpr fun x hx => hl' x (mem_flatten.mpr ⟨b, hbl, hx⟩)
  rw [chainFrom, hsplit, flatMap_append, flatMap_cons,
    hnil l fun x hx => hother x (by simp [hx]), hnil r fun x hx => hother x (by simp [hx]),
    dropWhile_append_of_pos fun x hx => hother x (by simp [hx]),
    dropWhile_cons_of_neg (by simp)]
  simp

/-! ### `dictNext` -/

/-- The count of iterators from the first call of `dictNext` on. -/
def DictIterator.hold (it : DictIterator) (d : Dict K (Allocated V)) : Dict K (Allocated V) :=
  if it.started then d else { d with iterators := d.iterators + 1 }

theorem Phase.length_table {hash : K → ℕ} {d : Dict K V} (h : Phase hash d) (second : Bool) :
    (d.ht second).table.length = (d.ht second).size := by
  rw [Dict.ht]
  cases h with
  | empty h0 h1 hr => rw [h0, h1, ite_self]; rfl
  | settled h0 h1 hr =>
    split
    · rw [h1]; rfl
    · exact h0.length
  | rehashing hre =>
    split
    · exact hre.second.length
    · exact hre.first.length

section Next
variable {hash : K → ℕ} {d : Dict K (Allocated V)} {it : DictIterator}

theorem ht_hold (it : DictIterator) (second : Bool) : (it.hold d).ht second = d.ht second := by
  rw [DictIterator.hold]
  split <;> rfl

theorem isRehashing_hold (it : DictIterator) : dictIsRehashing (it.hold d) = dictIsRehashing d := by
  rw [DictIterator.hold]
  split <;> rfl

theorem started_of_le (h : 0 ≤ it.index) : it.started = true := by
  rw [DictIterator.started]
  have : it.index ≠ -1 := by omega
  simp [this]

theorem hold_of_started (h : it.started = true) : it.hold d = d := if_pos h

theorem enterBucket_eq {b : List (K × Allocated V)} {i : ℕ} (hi : it.index = i)
    (hb : (d.ht it.second).table[i]? = some b) :
    enterBucket d it = some { it with entry := headPtr b } := by
  rw [enterBucket, hi, Int.toNat_natCast, hb]

/-- **A round** goes to the next bucket, be it in `ht[1]`, or ends the loop. -/
theorem nextRound_spec (h : Phase hash d) (hi : -1 ≤ it.index) (he : it.entry = none) :
    (ahead d it = [] ∧
      nextRound d it = some (it.hold d, { it with index := it.index + 1 }, true)) ∨
    ∃ b rest it' i, ahead d it = b :: rest ∧ nextRound d it = some (it.hold d, it', false) ∧
      it'.index = (i : ℕ) ∧ it'.entry = headPtr b ∧ (d.ht it'.second).table[i]? = some b ∧
      ahead d it' = rest := by
  obtain ⟨n, hn⟩ : ∃ n : ℕ, it.index + 1 = n := ⟨(it.index + 1).toNat, by omega⟩
  have hround : nextRound d it =
      if (n : ℤ) ≥ ((d.ht it.second).size : ℤ) then
        if dictIsRehashing d && !it.second then
          match enterBucket (it.hold d) { it with second := true, index := 0 } with
          | none => none
          | some it' => some (it.hold d, it', false)
        else some (it.hold d, { it with index := it.index + 1 }, true)
      else
        match enterBucket (it.hold d) { it with index := it.index + 1 } with
        | none => none
        | some it' => some (it.hold d, it', false) := by
    rw [← ht_hold it it.second, ← isRehashing_hold it, ← hn, nextRound, he]
    rfl
  have hlen := h.length_table it.second
  by_cases hlast : (n : ℤ) ≥ ((d.ht it.second).size : ℤ)
  · have hdrop : (d.ht it.second).table.drop (it.index + 1).toNat = [] := by
      rw [drop_eq_nil_iff, hn]
      omega
    rw [hround, if_pos hlast, ahead, hdrop, nil_append]
    cases hsecond : it.second with
    | true =>
      rw [Bool.not_true, Bool.and_false]
      exact .inl ⟨rfl, rfl⟩
    | false =>
      rw [Bool.not_false, Bool.and_true]
      cases h with
      | empty h0 h1 hr =>
        have hr' : dictIsRehashing d = false := by simp [dictIsRehashing, hr]
        rw [hr', h1]
        exact .inl ⟨rfl, rfl⟩
      | settled h0 h1 hr =>
        have hr' : dictIsRehashing d = false := by simp [dictIsRehashing, hr]
        rw [hr', h1]
        exact .inl ⟨rfl, rfl⟩
      | rehashing hre =>
        -- The bucket 0 of `ht[1]`.
        have hpos : 0 < d.ht1.table.length := hre.second.length ▸ hre.second.pos
        have hget : d.ht1.table[0]? = some (d.ht1.table[0]) := List.getElem?_eq_getElem hpos
        refine .inr ⟨d.ht1.table[0], d.ht1.table.drop 1,
          ⟨true, 0, headPtr d.ht1.table[0], it.nextEntry⟩, 0, ?_, ?_, rfl, rfl, hget, ?_⟩
        · exact drop_eq_getElem_cons hpos
        · rw [hre.isRehashing, if_pos rfl,
            enterBucket_eq (i := 0) rfl (by rw [ht_hold]; exact hget)]
        · exact append_nil _
  · have hlt : n < (d.ht it.second).table.length := by omega
    have hget : (d.ht it.second).table[n]? = some ((d.ht it.second).table[n]) :=
      List.getElem?_eq_getElem hlt
    refine .inr ⟨_, _, { it with index := n, entry := headPtr (d.ht it.second).table[n] }, n, ?_, ?_,
      rfl, rfl, hget, rfl⟩
    · rw [ahead, hn, Int.toNat_natCast, drop_eq_getElem_cons hlt, List.cons_append, ahead]
      have hnext : ((n : ℤ) + 1).toNat = n + 1 := by omega
      rw [hnext]
    · rw [hround, if_neg hlast, enterBucket_eq (i := n) hn (by rw [ht_hold]; exact hget)]
      rw [hn]

theorem ahead_congr {d' : Dict K (Allocated V)} (h : ∀ second, d'.ht second = d.ht second) :
    ahead d' it = ahead d it := by
  have h1 : d'.ht1 = d.ht1 := h true
  rw [ahead, ahead, h it.second, h1]

theorem Phase.hold (h : Phase hash d) (it : DictIterator) : Phase hash (it.hold d) := by
  rw [DictIterator.hold]
  split
  · exact h
  · exact h.congr rfl rfl rfl

theorem Numbered.hold (h : Numbered d) (it : DictIterator) : Numbered (it.hold d) := by
  rw [DictIterator.hold]
  split
  · exact h
  · exact h

theorem ahead_succ (h : ahead d it = []) :
    ahead d { it with index := it.index + 1 } = [] := by
  rw [ahead, append_eq_nil_iff, drop_eq_nil_iff] at h
  rw [ahead, append_eq_nil_iff, drop_eq_nil_iff]
  exact ⟨by dsimp only; omega, h.2⟩

/-- **Inside a bucket**: the next entry is saved. -/
theorem nextLoop_inside (hn : Numbered d) (it : DictIterator) {i : ℕ}
    {pre suf : List (K × Allocated V)} {e : K × Allocated V} (hi : it.index = i)
    (he : it.entry = some e.2.num) (hb : (d.ht it.second).table[i]? = some (pre ++ e :: suf)) :
    chainFrom d e.2.num = e :: suf ∧
      Pending d { it with nextEntry := headPtr suf } (suf ++ (ahead d it).flatten) := by
  have hb' : (d.ht it.second).table[i]? = some ((pre ++ [e]) ++ suf) := by
    rw [List.append_assoc]
    exact hb
  exact ⟨chainFrom_eq hn hb, .inside hi he hb' rfl⟩

/-- **Between two buckets**, the loop finds the next entry. -/
theorem nextLoop_spec (bs : List (List (K × Allocated V))) :
    ∀ (fuel : ℕ) (d : Dict K (Allocated V)) (it : DictIterator), Phase hash d → Numbered d →
      -1 ≤ it.index → it.entry = none → ahead d it = bs → bs.length < fuel →
      ∃ it', nextLoop fuel d it = some (it.hold d, it', headPtr bs.flatten) ∧ it'.started = true ∧
        Pending (it.hold d) it' bs.flatten.tail := by
  induction bs with
  | nil =>
    intro fuel d it h hn hi he ha hlen
    obtain ⟨fuel, rfl⟩ : ∃ f, fuel = f + 1 := ⟨fuel - 1, by rw [length_nil] at hlen; omega⟩
    rcases nextRound_spec h hi he with ⟨-, hround⟩ | ⟨b, rest, -, -, ha', -⟩
    · refine ⟨{ it with index := it.index + 1 }, by rw [nextLoop, hround]; rfl,
        started_of_le (by dsimp only; omega), ?_⟩
      have hp : Pending (it.hold d) { it with index := it.index + 1 } _ :=
        .between (by dsimp only; omega) he
      rwa [ahead_congr (ht_hold it), ahead_succ ha] at hp
    · rw [ha] at ha'
      cases ha'
  | cons b bs ih =>
    intro fuel d it h hn hi he ha hlen
    obtain ⟨fuel, rfl⟩ : ∃ f, fuel = f + 1 := ⟨fuel - 1, by rw [length_cons] at hlen; omega⟩
    rw [length_cons] at hlen
    rcases nextRound_spec h hi he with ⟨ha', -⟩ |
      ⟨b', rest, it', i, ha', hround, hi', he', hb, hrest⟩
    · rw [ha] at ha'
      cases ha'
    · obtain ⟨rfl, rfl⟩ := List.cons.inj (ha.symm.trans ha')
      have hstarted : it'.started = true := started_of_le (by omega)
      have hahead : ahead (it.hold d) it' = bs := by rw [ahead_congr (ht_hold it), hrest]
      rw [nextLoop, hround]
      cases b with
      | nil =>
        have hnone : it'.entry = none := he'
        obtain ⟨it'', hloop, hs, hp⟩ := ih fuel (it.hold d) it' (h.hold it) (hn.hold it)
          (by omega) hnone hahead (by omega)
        rw [hold_of_started hstarted] at hloop hp
        simp only [hnone, hloop]
        exact ⟨it'', rfl, hs, hp⟩
      | cons e es =>
        have hsome : it'.entry = some e.2.num := he'
        have hb' : ((it.hold d).ht it'.second).table[i]? = some ([] ++ e :: es) := by
          rw [ht_hold]
          exact hb
        obtain ⟨hchain, hp⟩ := nextLoop_inside (hn.hold it) it' hi' hsome hb'
        rw [hahead, hsome] at hp
        simp only [hsome, hchain]
        have hstarted' : ({ it' with nextEntry := headPtr es } : DictIterator).started = true :=
          hstarted
        exact ⟨_, rfl, hstarted', hp⟩

theorem length_ahead (h : Phase hash d) (it : DictIterator) :
    (ahead d it).length < d.ht0.size + d.ht1.size + 1 := by
  have h0 : d.ht0.table.length = d.ht0.size := h.length_table false
  have h1 : d.ht1.table.length = d.ht1.size := h.length_table true
  rw [ahead, Dict.ht, length_append, length_drop]
  cases it.second with
  | false => simp only [Bool.false_eq_true, if_false]; omega
  | true => simp only [if_true, length_nil]; omega

/-- **`dictNext`** returns the first of the entries that are pending. -/
theorem dictNext_spec {rest : List (K × Allocated V)} (h : Phase hash d) (hn : Numbered d)
    (hp : Pending d it rest) :
    ∃ it', dictNext d it = some (it.hold d, it', headPtr rest) ∧ it'.started = true ∧
      Pending (it.hold d) it' rest.tail := by
  rw [dictNext]
  cases hp with
  | between hi he => exact nextLoop_spec _ _ d it h hn hi he rfl (Nat.lt_succ_of_lt (length_ahead h it))
  | @inside i p pre suf hi he hb hnext =>
    have hstarted : it.started = true := started_of_le (by omega)
    -- The saved entry is the next one, if there is one.
    obtain ⟨it₁, hit₁⟩ : ∃ it₁ : DictIterator, it₁ = { it with entry := it.nextEntry } := ⟨_, rfl⟩
    have hstarted₁ : it₁.started = true := by rw [hit₁]; exact hstarted
    have hahead : ahead d it₁ = ahead d it := by rw [hit₁]; rfl
    have hentry : it₁.entry = headPtr suf := by rw [hit₁]; exact hnext
    have hi₁ : it₁.index = i := by rw [hit₁]; exact hi
    have hround : nextRound d it = some (d, it₁, false) := by rw [nextRound, he, hit₁]
    rw [nextLoop, hround, hold_of_started hstarted, ← hahead]
    cases suf with
    | nil =>
      have hnone : it₁.entry = none := hentry
      obtain ⟨it', hloop, hs, hp⟩ := nextLoop_spec _ _ d it₁ h hn (by omega) hnone rfl
        (length_ahead h it₁)
      rw [hold_of_started hstarted₁] at hloop hp
      simp only [hnone, hloop]
      exact ⟨it', rfl, hs, hp⟩
    | cons e es =>
      have hsome : it₁.entry = some e.2.num := hentry
      have hb₁ : (d.ht it₁.second).table[i]? = some (pre ++ e :: es) := by rw [hit₁]; exact hb
      obtain ⟨hchain, hp⟩ := nextLoop_inside hn it₁ hi₁ hsome hb₁
      have hstarted' : ({ it₁ with nextEntry := headPtr es } : DictIterator).started = true :=
        hstarted₁
      rw [hsome] at hp
      simp only [hsome, hchain]
      exact ⟨_, rfl, hstarted', hp⟩

end Next

end SourceLibs.RedisDict
