import SourceLibs.CircularBuffer.Discipline

/-!
# CircularBuffer — a write that throws

`insert_n` at `end()` and `rinsert_n` at `begin()` write new elements one after the other, and each
of the writes may throw.  The catch blocks then move `m_last` over as many cells as were
constructed.  Those of `insert_n` are the cells after `m_last`.  Those of `rinsert_n` end before
`m_first`, and follow `m_last` only where nothing stays free between.

* `fillUntil`, `insertNEndThrowing`, `rinsertNBeginThrowing`: the code with its catch blocks.
* `fillUntil_spec`: which cells hold an element when a loop is left.
* `Disciplined.insertNEndThrowing`, `Disciplined.rinsertNBeginThrowing`: what the catch blocks leave.
* `errorPath_iff`: when they leave a buffer, along every run.
-/

namespace SourceLibs.CircularBuffer

open RingCells

variable {α : Type}

section Operations
variable (T : ValueType α)

/-- The variables of a loop that writes, and whether a write threw. -/
structure Filling (α : Type) where
  buff : List (Option α)
  p : ℕ
  ii : ℕ
  threw : Bool

/-- A write that throws.  A cell that was to be constructed stays raw; an assignment may leave any
value. -/
def throwingWrite (cons : Bool) (s : List (Option α)) (p : ℕ) (torn : α) :
    Except Fault (List (Option α)) := do
  let s' ← constructOrReplace T cons s p torn
  .ok (if cons then s else s')

/-- `fill`, where the write of number `thrown` throws. -/
def fillUntil (thrown : ℕ) (torn : α) (cons : Bool) (wrapper : ℕ → α) :
    ℕ → Filling α → Except Fault (Filling α)
  | 0, st => .ok st
  | k + 1, st =>
    if st.threw then .ok st
    else if st.ii = thrown then do
      let s ← throwingWrite T cons st.buff st.p torn
      .ok { st with buff := s, threw := true }
    else do
      let s ← constructOrReplace T cons st.buff st.p (wrapper st.ii)
      fillUntil thrown torn cons wrapper k
        { st with buff := s, p := increment s.length st.p, ii := st.ii + 1 }

/-- `m_last = add(m_last, constructed); m_size += constructed;`, as both catch blocks have it. -/
def caught (cb : CircularBuffer α) (buff : List (Option α)) (constructed : ℕ) : CircularBuffer α :=
  { cb with
    buff := buff
    last := add cb.capacity cb.last constructed
    size := cb.size + constructed }

/-- `insert_n(end(), n, wrapper)`, with its catch block. -/
def insertNEndThrowing (cb : CircularBuffer α) (n : ℕ) (wrapper : ℕ → α) (thrown : ℕ) (torn : α) :
    Except Fault (CircularBuffer α) := do
  let cons := cb.constructCount n
  let st ← fillUntil T thrown torn true wrapper cons ⟨cb.buff, cb.last, 0, false⟩
  let st ← fillUntil T thrown torn false wrapper (n - cons) st
  if st.threw then .ok (cb.caught st.buff (min st.ii cons))
  else
    .ok { buff := st.buff, last := add cb.capacity cb.last n,
          first := add cb.capacity cb.first (n - cons), size := cb.size + cons }

/-- `insert(end(), n, item)`. -/
def insertEndThrowing (cb : CircularBuffer α) (n : ℕ) (wrapper : ℕ → α) (thrown : ℕ) (torn : α) :
    Except Fault (CircularBuffer α) :=
  if n = 0 then .ok cb
  else
    let copy := ((cb.capacity : ℤ) - cb.diff none none).toNat
    if copy = 0 then .ok cb
    else insertNEndThrowing T cb (if copy < n then copy else n) wrapper thrown torn

/-- `rinsert_n(begin(), n, wrapper)`, with its catch block; the source counts `ii` down from `n`. -/
def rinsertNBeginThrowing (cb : CircularBuffer α) (n : ℕ) (wrapper : ℕ → α) (thrown : ℕ)
    (torn : α) : Except Fault (CircularBuffer α) :=
  if n = 0 then .ok cb
  else
    let copy := ((cb.capacity : ℤ) - cb.diff cb.begin cb.begin).toNat
    if copy = 0 then .ok cb
    else do
      let n := if copy < n then copy else n
      let cons := cb.constructCount n
      let st ← fillUntil T thrown torn false wrapper (n - cons)
        ⟨cb.buff, sub cb.capacity cb.first n, 0, false⟩
      let st ← fillUntil T thrown torn true wrapper cons st
      if st.threw then
        let ii := n - st.ii
        .ok (cb.caught st.buff (if ii < cons then cons - ii else 0))
      else
        .ok { buff := st.buff, first := sub cb.capacity cb.first n,
              last := sub cb.capacity cb.last (n - cons), size := cb.size + cons }

end Operations

/-! ### The loops -/

section Loops
variable {T : ValueType α} {b n t m : ℕ}

/-- A loop that no write has left yet. -/
structure Filling.At (st : Filling α) (n b t : ℕ) : Prop where
  length_eq : st.buff.length = n
  p_eq : st.p = slot n b t
  threw_eq : st.threw = false

/-- **A loop that writes**, up to its end or to the write that throws.  Where it constructs, the
cells written until then hold an element. -/
theorem fillUntil_spec (thrown : ℕ) (torn : α) (cons : Bool) (wrapper : ℕ → α) {st : Filling α}
    (h : st.At n b t) (hm : m ≤ n) (hii : st.ii ≤ thrown)
    (hc : ∀ i, t ≤ i → i < t + m → cons = (view st.buff b i).isNone) :
    ∃ st', fillUntil T thrown torn cons wrapper m st = .ok st' ∧
      st'.ii = st.ii + min m (thrown - st.ii) ∧
      (thrown < st.ii + m → st'.threw = true) ∧
      (st.ii + m ≤ thrown → st'.At n b (t + m)) ∧ st'.buff.length = n ∧
      ∀ i, t ≤ i → i < t + n → ((view st'.buff b i).isSome ↔
        i < t + min m (thrown - st.ii) ∨ (view st.buff b i).isSome) := by
  induction m generalizing st t with
  | zero =>
    refine ⟨st, rfl, by simp, fun hlt => by omega, fun _ => h, h.length_eq, fun i h₁ h₂ => ?_⟩
    simp
    omega
  | succ m ih =>
    have hpos : 0 < n := by omega
    rw [fillUntil, if_neg (by simp [h.threw_eq])]
    by_cases hthrow : st.ii = thrown
    · have hw := constructOrReplace_slot (T := T) (v := torn) (b := b) (i := t) h.length_eq hpos
        (.inr (hc t le_rfl (by omega)))
      rw [← h.p_eq] at hw
      rw [if_pos hthrow, throwingWrite, hw, ok_bind, ok_bind]
      refine ⟨_, rfl, by simp [hthrow], fun _ => rfl, fun hge => by omega, ?_, fun i h₁ h₂ => ?_⟩
      · show (if cons then st.buff else _).length = n
        split <;> simp [h.length_eq]
      · show (view (if cons then st.buff else _) b i).isSome ↔ _
        rw [hthrow, Nat.sub_self, Nat.min_zero, Nat.add_zero, or_iff_right (by omega)]
        have hlive := hc t le_rfl (by omega)
        cases cons with
        | true => rw [if_pos rfl]
        | false =>
          rw [if_neg (by simp), h.p_eq, view_set h.length_eq _ b (by omega) (by omega)]
          split
          · rename_i he
            rw [he]
            exact iff_of_true rfl (Option.isNone_eq_false_iff.mp hlive.symm)
          · rfl
    · have hw := constructOrReplace_slot (T := T) (v := wrapper st.ii) (b := b) (i := t)
        h.length_eq hpos (.inr (hc t le_rfl (by omega)))
      have hview := fun i (hi : t ≤ i ∧ i < t + n) =>
        view_set (i := i) (j := t) h.length_eq (some (wrapper st.ii)) b (by omega) (by omega)
      rw [← h.p_eq] at hw hview
      rw [if_neg hthrow, hw, ok_bind]
      have hnext : Filling.At { st with
          buff := st.buff.set st.p (some (wrapper st.ii))
          p := increment (st.buff.set st.p (some (wrapper st.ii))).length st.p
          ii := st.ii + 1 } n b (t + 1) := by
        refine ⟨by simpa using h.length_eq, ?_, h.threw_eq⟩
        simp only [List.length_set, h.length_eq, h.p_eq, increment_slot hpos]
      obtain ⟨st', hst', hii', hthrew, hend, hlen, hlive⟩ := ih hnext (by omega)
        (by simp only; omega)
        (fun i h₁ h₂ => by
          rw [hc i (by omega) (by omega), hview i (by omega), if_neg (by omega)])
      simp only at hii' hthrew hend hlive
      refine ⟨st', hst', by omega, fun hlt => hthrew (by omega), fun hle => ?_, hlen,
        fun i h₁ h₂ => ?_⟩
      · rw [show t + (m + 1) = t + 1 + m by omega]
        exact hend (by omega)
      · rcases Nat.eq_or_lt_of_le h₁ with rfl | hlt
        · have hturn := hlive (t + n) (by omega) (by omega)
          rw [view_add_length hlen, view_add_length (by simpa using h.length_eq),
            hview t (by omega), if_pos rfl] at hturn
          exact iff_of_true (hturn.mpr (.inr rfl)) (.inl (by omega))
        · rw [hlive i hlt (by omega), hview i (by omega), if_neg (by omega)]
          exact or_congr_left (by omega)

theorem fillUntil_of_threw (thrown : ℕ) (torn : α) (cons : Bool) (wrapper : ℕ → α)
    {st : Filling α} (h : st.threw = true) :
    fillUntil T thrown torn cons wrapper m st = .ok st := by
  cases m with
  | zero => rfl
  | succ m => rw [fillUntil, if_pos h]

end Loops

/-! ### The catch blocks -/

section Catch
variable {T : ValueType α} {cb : CircularBuffer α}

/-- What a loop from `t` on leaves, for the cells of the first turn. -/
theorem live_of_window {s s' : List (Option α)} {n b t k : ℕ} (hs : s.length = n)
    (hs' : s'.length = n) (ht : t ≤ n)
    (h : ∀ i, t ≤ i → i < t + n → ((view s' b i).isSome ↔ i < t + k ∨ (view s b i).isSome))
    (hk : ∀ i < t, i + n < t + k → (view s b i).isSome) {i : ℕ} (hi : i < n) :
    (view s' b i).isSome ↔ (t ≤ i ∧ i < t + k) ∨ (view s b i).isSome := by
  rcases Nat.lt_or_ge i t with hlt | hge
  · have hturn := h (i + n) (by omega) (by omega)
    rw [view_add_length hs, view_add_length hs'] at hturn
    rw [hturn]
    constructor
    · rintro (hlt' | hsome)
      · exact .inr (hk i hlt (by omega))
      · exact .inr hsome
    · rintro (hc | hsome)
      · omega
      · exact .inr hsome
  · rw [h i hge (by omega)]
    exact or_congr_left (by omega)

theorem Disciplined.caught_iff (h : cb.Disciplined) {buff : List (Option α)} {k : ℕ}
    (hlen : buff.length = cb.capacity) (hk : cb.size + k ≤ cb.capacity) :
    (cb.caught buff k).Disciplined ↔
      ∀ i < cb.capacity, (view buff cb.first i).isSome ↔ i < cb.size + k := by
  have hcap : (cb.caught buff k).capacity = cb.capacity := hlen
  constructor
  · intro hd i hi
    exact hd.live_iff i (hcap ▸ hi)
  · intro hlive
    refine ⟨⟨by rwa [hcap], by rw [hcap]; exact h.first_lt, ?_⟩, fun i hi => hlive i (hcap ▸ hi)⟩
    show add cb.capacity cb.last k = slot (cb.caught buff k).capacity cb.first (cb.size + k)
    rw [hcap]
    rcases h.first_lt with hf | ⟨h0, hf⟩
    · rw [h.last_eq, add_slot (by omega) (by omega)]
    · obtain ⟨rfl, hs⟩ : k = 0 ∧ cb.size = 0 := by omega
      rw [h.last_eq, hf, hs, h0]
      rfl

/-- **The catch block of `insert_n`** at the end leaves a buffer. -/
theorem Disciplined.insertNEndThrowing (h : cb.Disciplined) {n : ℕ} (hn : n ≤ cb.capacity)
    (wrapper : ℕ → α) {thrown : ℕ} (hk : thrown < n) (torn : α) :
    ∃ cb', cb.insertNEndThrowing T n wrapper thrown torn = .ok cb' ∧ cb'.Disciplined := by
  have hle := h.size_le
  have hpos : 0 < cb.capacity := by omega
  have hcons := cb.constructCount_eq n
  have hcn : cb.constructCount n ≤ n := by omega
  have hcs : cb.constructCount n + cb.size ≤ cb.capacity := by omega
  have hmin : cb.constructCount n = n ∨ cb.constructCount n + cb.size = cb.capacity := by omega
  clear hcons
  have hat : Filling.At (⟨cb.buff, cb.last, 0, false⟩ : Filling α) cb.capacity cb.first cb.size :=
    ⟨cb.length_buff, h.last_eq, rfl⟩
  obtain ⟨st₁, hst₁, hii₁, hthrew₁, hend₁, hlen₁, hlive₁⟩ := fillUntil_spec (T := T)
    (m := cb.constructCount n) thrown torn true wrapper hat (by omega) (Nat.zero_le _)
    (fun i h₁ h₂ => by
      have hraw := mt (h.live_iff i (by omega)).mp (by omega)
      simpa using hraw)
  simp only [Nat.zero_add, Nat.sub_zero] at hii₁ hthrew₁ hend₁ hlive₁
  have hlive : ∀ i < cb.capacity, (view st₁.buff cb.first i).isSome ↔
      i < cb.size + min (cb.constructCount n) thrown := fun i hi => by
    rw [live_of_window cb.length_buff hlen₁ hle hlive₁ (fun i hi' hik => by omega) hi,
      h.live_iff i hi]
    omega
  unfold CircularBuffer.insertNEndThrowing
  simp only
  rw [hst₁, ok_bind]
  rcases Nat.lt_or_ge thrown (cb.constructCount n) with hlt | hge
  · have hthrew := hthrew₁ hlt
    rw [fillUntil_of_threw _ _ _ _ hthrew, ok_bind, if_pos hthrew, hii₁, Nat.min_right_comm,
      Nat.min_self]
    exact ⟨_, rfl, (h.caught_iff hlen₁ (by omega)).mpr hlive⟩
  · -- the cells assigned after that start over at `m_first`
    rw [Nat.min_eq_left hge] at hii₁ hlive
    have hback : ∀ i, cb.size + cb.constructCount n ≤ i →
        i < cb.size + cb.constructCount n + (n - cb.constructCount n) →
        false = (view st₁.buff cb.first i).isNone := fun i h₁ h₂ => by
      rw [show i = i - cb.capacity + cb.capacity by omega, view_add_length hlen₁]
      have hlv := (hlive (i - cb.capacity) (by omega)).mpr (by omega)
      exact (Option.isNone_eq_false_iff.mpr hlv).symm
    obtain ⟨st₂, hst₂, hii₂, hthrew₂, -, hlen₂, hlive₂⟩ := fillUntil_spec (T := T)
      (m := n - cb.constructCount n) thrown torn false wrapper (hend₁ hge) (by omega) (by omega)
      hback
    have hthrew := hthrew₂ (by omega)
    rw [hst₂, ok_bind, if_pos hthrew, show min st₂.ii (cb.constructCount n) = cb.constructCount n by
      omega]
    refine ⟨_, rfl, (h.caught_iff hlen₂ (by omega)).mpr fun i hi => ?_⟩
    rw [live_of_window hlen₁ hlen₂ (by omega) hlive₂ (fun i hi' hik => ?_) hi, hlive i hi]
    · omega
    · exact (hlive i (by omega)).mpr (by omega)

/-- **`insert(end(), n, item)`** leaves a buffer wherever it throws. -/
theorem Disciplined.insertEndThrowing (h : cb.Disciplined) {n : ℕ} (wrapper : ℕ → α) {thrown : ℕ}
    (hk : thrown < min n cb.capacity) (torn : α) :
    ∃ cb', cb.insertEndThrowing T n wrapper thrown torn = .ok cb' ∧ cb'.Disciplined := by
  have hcopy : ((cb.capacity : ℤ) - cb.diff none none).toNat = cb.capacity := by simp [diff]
  unfold CircularBuffer.insertEndThrowing
  simp only [hcopy]
  rw [if_neg (by omega), if_neg (by omega)]
  exact h.insertNEndThrowing (by split <;> omega) wrapper (by split <;> omega) torn

/-- The cells that hold an object, when some of the room before the elements was constructed, are as
many from the first one on unless some of that room was left. -/
theorem counted_iff {size capacity m cons thrown : ℕ} (hcons : cons = min m (capacity - size))
    (hge : m - cons ≤ thrown) :
    (∀ i < capacity, ((capacity - cons ≤ i ∧ i < capacity - cons + (thrown - (m - cons))) ∨ i < size ↔
        i < size + (thrown - (m - cons)))) ↔
      ¬ (0 < thrown ∧ m < capacity - size) := by
  have hle : cons ≤ m := by omega
  have hroom : cons = m ∨ capacity - size ≤ cons := by omega
  have hcap : cons ≤ capacity - size := by omega
  clear hcons
  constructor
  · -- the first free cell is counted, and is raw
    intro hall hc
    have hfree := hall size (by omega)
    omega
  · intro hc i hi
    omega

/-- **The catch block of `rinsert_n`** at the start is right unless a cell was constructed with
others left free before it. -/
theorem Disciplined.rinsertNBeginThrowing (h : cb.Disciplined) {n : ℕ} (wrapper : ℕ → α)
    {thrown : ℕ} (hk : thrown < min n cb.capacity) (torn : α) :
    ∃ cb', cb.rinsertNBeginThrowing T n wrapper thrown torn = .ok cb' ∧
      (cb'.Disciplined ↔ ¬ (0 < thrown ∧ n < cb.reserve)) := by
  have hle := h.size_le
  have hpos : 0 < cb.capacity := by omega
  have hcopy : ((cb.capacity : ℤ) - cb.diff cb.begin cb.begin).toNat = cb.capacity := by
    simp [diff]
  have hreserve : cb.reserve = cb.capacity - cb.size := rfl
  unfold CircularBuffer.rinsertNBeginThrowing
  simp only [hcopy]
  rw [if_neg (by omega), if_neg (by omega), hreserve]
  have hroom : n < cb.capacity - cb.size ↔
      (if cb.capacity < n then cb.capacity else n) < cb.capacity - cb.size := by
    split <;> omega
  rw [hroom]
  generalize hm : (if cb.capacity < n then cb.capacity else n) = m
  have hmc : m ≤ cb.capacity := by split at hm <;> omega
  have hkm : thrown < m := by split at hm <;> omega
  have hcons := cb.constructCount_eq m
  generalize cb.constructCount m = cons at *
  have hcounted : m - cons ≤ thrown → _ := counted_iff hcons
  have hcm : cons ≤ m := by omega
  have hcs : cons + cb.size ≤ cb.capacity := by omega
  have hms : cons = m ∨ cons + cb.size = cb.capacity := by omega
  clear hm hroom hcons hcopy hreserve hk
  have hat : Filling.At (⟨cb.buff, sub cb.capacity cb.first m, 0, false⟩ : Filling α) cb.capacity
      cb.first (cb.capacity - m) :=
    ⟨cb.length_buff, sub_eq_slot (h.first_lt_of_pos hpos) hmc, rfl⟩
  obtain ⟨st₁, hst₁, hii₁, hthrew₁, hend₁, hlen₁, hlive₁⟩ := fillUntil_spec (T := T)
    (m := m - cons) thrown torn false wrapper hat (by omega) (Nat.zero_le _)
    (fun i h₁ h₂ => by
      have hlv := (h.live_iff i (by omega)).mpr (by omega)
      exact (Option.isNone_eq_false_iff.mpr hlv).symm)
  simp only [Nat.zero_add, Nat.sub_zero] at hii₁ hthrew₁ hend₁ hlive₁
  have hkept : ∀ i < cb.capacity, (view st₁.buff cb.first i).isSome ↔ i < cb.size :=
    fun i hi => by
      rw [live_of_window cb.length_buff hlen₁ (by omega) hlive₁ (fun i hi' hik => by omega) hi,
        h.live_iff i hi]
      omega
  rw [hst₁, ok_bind]
  rcases Nat.lt_or_ge thrown (m - cons) with hlt | hge
  · -- an assignment threw
    have hthrew := hthrew₁ hlt
    rw [fillUntil_of_threw _ _ _ _ hthrew, ok_bind, if_pos hthrew, if_neg (by omega)]
    refine ⟨_, rfl, iff_of_true ((h.caught_iff hlen₁ (by omega)).mpr hkept) (by omega)⟩
  · rw [Nat.min_eq_left hge] at hii₁
    have hat : st₁.At cb.capacity cb.first (cb.capacity - cons) := by
      have := hend₁ hge
      rwa [show cb.capacity - m + (m - cons) = cb.capacity - cons by omega] at this
    obtain ⟨st₂, hst₂, hii₂, hthrew₂, -, hlen₂, hlive₂⟩ := fillUntil_spec (T := T) (m := cons)
      thrown torn true wrapper hat (by omega) (by omega) (fun i h₁ h₂ => by
        have hraw := mt (hkept i (by omega)).mp (by omega)
        simpa using hraw)
    have hthrew := hthrew₂ (by omega)
    have hlive : ∀ i < cb.capacity, (view st₂.buff cb.first i).isSome ↔
        (cb.capacity - cons ≤ i ∧ i < cb.capacity - cons + (thrown - (m - cons))) ∨
          i < cb.size := fun i hi => by
      rw [live_of_window hlen₁ hlen₂ (by omega) hlive₂ (fun i hi' hik => by omega) hi, hkept i hi,
        show min cons (thrown - st₁.ii) = thrown - (m - cons) by omega]
    have hconstructed : (if m - st₂.ii < cons then cons - (m - st₂.ii) else 0) =
        thrown - (m - cons) := by
      split <;> omega
    rw [hst₂, ok_bind, if_pos hthrew, hconstructed]
    refine ⟨_, rfl, (h.caught_iff hlen₂ (by omega)).trans (Iff.trans ?_ (hcounted hge))⟩
    exact forall₂_congr fun i hi => iff_congr (hlive i hi) Iff.rfl

theorem Disciplined.destroys (h : cb.Disciplined) (hT : T.scalar = false) :
    ∃ d, cb.destroyContentItems T = .ok d ∧ d.buff = List.replicate cb.capacity none := by
  obtain ⟨l, hl⟩ := h.repr T
  obtain ⟨d, hd, hcap, -, -, -, hr⟩ := hl.destroyContentItems
  refine ⟨d, hd, List.eq_replicate_iff.mpr ⟨hcap, fun c hc => ?_⟩⟩
  obtain ⟨p, hp, rfl⟩ := List.mem_iff_getElem.mp hc
  have hf := hr.first_lt_of_pos (show 0 < d.capacity by rw [← d.length_buff]; omega)
  obtain ⟨i, hi, rfl⟩ := exists_slot hf hp
  have hcell : view d.buff d.first i = none := hr.cells i hi (by simp [hT])
  exact (List.getD_eq_getElem d.buff none hp).symm.trans hcell

end Catch

/-! ### Runs -/

section Runs
variable {T : ValueType α} {cb : CircularBuffer α}

/-- The two insertions at an end of the buffer. -/
inductive Edge where
  | insertEnd
  | rinsertBegin
  deriving DecidableEq

/-- The insertion at `e`, of which the write of number `thrown` throws. -/
def Edge.throwing (T : ValueType α) (cb : CircularBuffer α) (n : ℕ) (wrapper : ℕ → α)
    (thrown : ℕ) (torn : α) : Edge → Except Fault (CircularBuffer α)
  | insertEnd => cb.insertEndThrowing T n wrapper thrown torn
  | rinsertBegin => cb.rinsertNBeginThrowing T n wrapper thrown torn

/-- The catch block finds what was constructed: nothing was, or nothing stays free, or the insertion
is at the end. -/
def CatchRight (cb : CircularBuffer α) (e : Edge) (n thrown : ℕ) : Prop :=
  ¬ (e = .rinsertBegin ∧ 0 < thrown ∧ n < cb.reserve)

/-- A call that returns, or one that throws and is caught. -/
inductive Call (α : Type) where
  | returns (step : Step α)
  | throws (e : Edge) (n : ℕ) (wrapper : ℕ → α) (thrown : ℕ) (torn : α)

/-- The code of a call. -/
def Call.apply (T : ValueType α) (cb : CircularBuffer α) : Call α → Except Fault (CircularBuffer α)
  | returns step => step.apply T cb
  | throws e n wrapper thrown torn => e.throwing T cb n wrapper thrown torn

/-- What a call asks of the buffer it finds. -/
def Call.Meets (cb : CircularBuffer α) : Call α → Prop
  | returns step => step.Meets cb
  | throws e n _ thrown _ => thrown < min n cb.capacity ∧ cb.CatchRight e n thrown

/-- A run. -/
def runCalls (T : ValueType α) (cb : CircularBuffer α) (calls : List (Call α)) :
    Except Fault (CircularBuffer α) :=
  calls.foldlM (Call.apply T) cb

/-- Every call of a run meets what it asks in the state before it. -/
def MeetsCalls (T : ValueType α) : CircularBuffer α → List (Call α) → Prop
  | _, [] => True
  | cb, call :: rest =>
    call.Meets cb ∧ ∀ cb', call.apply T cb = .ok cb' → MeetsCalls T cb' rest

theorem Disciplined.throwing_iff (h : cb.Disciplined) (e : Edge) {n : ℕ} (wrapper : ℕ → α)
    {thrown : ℕ} (hk : thrown < min n cb.capacity) (torn : α) :
    ∃ cb', e.throwing T cb n wrapper thrown torn = .ok cb' ∧
      (cb'.Disciplined ↔ cb.CatchRight e n thrown) := by
  cases e with
  | insertEnd =>
    obtain ⟨cb', hcb', hd⟩ := h.insertEndThrowing (T := T) wrapper hk torn
    exact ⟨cb', hcb', iff_of_true hd fun hc => nomatch hc.1⟩
  | rinsertBegin =>
    obtain ⟨cb', hcb', hd⟩ := h.rinsertNBeginThrowing (T := T) wrapper hk torn
    exact ⟨cb', hcb', hd.trans (not_congr ⟨fun hc => ⟨rfl, hc⟩, fun hc => hc.2⟩)⟩

theorem Disciplined.call (h : cb.Disciplined) (hT : T.scalar = false) (call : Call α)
    (hm : call.Meets cb) : ∃ cb', call.apply T cb = .ok cb' ∧ cb'.Disciplined := by
  cases call with
  | returns step => exact h.step hT step hm
  | throws e n wrapper thrown torn =>
    obtain ⟨hk, hright⟩ := hm
    obtain ⟨cb', hcb', hd⟩ := h.throwing_iff (T := T) e wrapper hk torn
    exact ⟨cb', hcb', hd.mpr hright⟩

theorem Disciplined.calls (h : cb.Disciplined) (hT : T.scalar = false) (calls : List (Call α))
    (hm : MeetsCalls T cb calls) : ∃ cb', cb.runCalls T calls = .ok cb' ∧ cb'.Disciplined := by
  have hrun := Runs.foldlM_keeps (f := Call.apply T)
    (I := fun cb calls => cb.Disciplined ∧ MeetsCalls T cb calls) ?_ ⟨h, hm⟩
  · obtain ⟨cb', hcb', hd, -⟩ := hrun
    exact ⟨cb', hcb', hd⟩
  · rintro cb call rest ⟨h, hfirst, hrest⟩
    obtain ⟨cb', hcb', hd⟩ := h.call hT call hfirst
    exact ⟨cb', hcb', hd, hrest cb' hcb'⟩

/-- **The error path.**  After a run whose calls meet their conditions, an insertion at an end that
throws at any of its writes leaves a buffer, whose destructor then destroys every constructed cell
once, exactly where the catch block finds what was constructed. -/
theorem errorPath_iff (hT : T.scalar = false) (bufferCapacity : ℕ) (calls : List (Call α))
    (hm : MeetsCalls T (ofCapacity bufferCapacity) calls) :
    ∃ cb, (ofCapacity bufferCapacity).runCalls T calls = .ok cb ∧ cb.Disciplined ∧
      ∀ e n wrapper thrown torn, thrown < min n cb.capacity →
        ∃ cb', Edge.throwing T cb n wrapper thrown torn e = .ok cb' ∧
          ((cb'.Disciplined ∧ ∃ d, cb'.destroyContentItems T = .ok d ∧
            d.buff = List.replicate cb'.capacity none) ↔ cb.CatchRight e n thrown) := by
  obtain ⟨cb, hcb, h⟩ := ((repr_ofCapacity T bufferCapacity).disciplined hT).calls hT calls hm
  refine ⟨cb, hcb, h, fun e n wrapper thrown torn hk => ?_⟩
  obtain ⟨cb', hcb', hd⟩ := h.throwing_iff (T := T) e wrapper hk torn
  exact ⟨cb', hcb', (and_iff_left_of_imp fun hd' => hd'.destroys hT).trans hd⟩

/-- One element, and two more of which the second throws at its construction. -/
theorem errorPath_iff_caught :
    ∃ cb, (ofCapacity 3 : CircularBuffer ℕ).runCalls ⟨false, id⟩
      [.returns (.op (.pushBack 1)), .throws .rinsertBegin 2 (fun _ => 9) 1 0] = .ok cb ∧
      cb.Disciplined := by
  obtain ⟨cb, hcb, hd, -⟩ := errorPath_iff (T := (⟨false, id⟩ : ValueType ℕ)) rfl 3
    [.returns (.op (.pushBack 1)), .throws .rinsertBegin 2 (fun _ => 9) 1 0] (by
      refine ⟨⟨[], _, rfl, rfl⟩, fun cb h => ?_⟩
      obtain rfl : ⟨[some 1, none, none], 0, 1, 1⟩ = cb := Except.ok.inj h
      exact ⟨⟨by decide, fun h => absurd h.2.2 (by decide)⟩, fun _ _ => trivial⟩)
  exact ⟨cb, hcb, hd⟩

/-- Two elements into three free cells, and the second throws: the cell before `m_first` holds one,
and `m_last` has moved over a raw cell, which the destructor then destroys. -/
theorem errorPath_counts_raw :
    Edge.throwing ⟨false, id⟩ (ofCapacity 3 : CircularBuffer ℕ) 2 (fun _ => 9) 1 0 .rinsertBegin =
        .ok ⟨[none, some 9, none], 0, 1, 1⟩ ∧
      ¬ (⟨[none, some 9, none], 0, 1, 1⟩ : CircularBuffer ℕ).Disciplined ∧
      (⟨[none, some 9, none], 0, 1, 1⟩ : CircularBuffer ℕ).destroyContentItems ⟨false, id⟩ =
        .error .destroyRaw :=
  ⟨by decide, fun h => absurd ((h.live_iff 0 (by decide)).mpr (by decide)) (by decide), by decide⟩

end Runs

end SourceLibs.CircularBuffer
