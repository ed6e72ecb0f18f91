import Mathlib.Data.Set.Card
import Mathlib.Data.List.Basic
import Mathlib.Tactic.Linarith

/-!
# Support — values read off a source of letters

A reader takes letters from the front of a word and gives a value, until its fuel or the word is
used up.  The words that give a value are the *code* of the value.  An attempt may give no value;
`retry` makes attempts until one does.

* `SameLengths.ncard_eq`: two languages with a bijection that keeps lengths have as many words of each
  length.
* `PrefixFree.retries`, `Fair.retries`: retries of a code are a code, and give every value the same
  chances if an attempt does.
* `Reads.retry`: the words a loop reads are the retries of the code of its attempt.
-/

namespace SourceLibs.Codes
open List

variable {ι α ε : Type*}

/-! ### Languages -/

/-- A bijection that keeps lengths. -/
def SameLengths (A B : Set (List ι)) : Prop :=
  ∃ e : A ≃ B, ∀ w : A, (e w).val.length = w.val.length

namespace SameLengths

variable {A B D : Set (List ι)}

/-- **Two families of words** over the same indices, with the same lengths. -/
theorem of_range {κ : Type*} {f g : κ → List ι} (hf : Function.Injective f)
    (hg : Function.Injective g) (hlen : ∀ i, (f i).length = (g i).length) :
    SameLengths (Set.range f) (Set.range g) := by
  refine ⟨(Equiv.ofInjective f hf).symm.trans (Equiv.ofInjective g hg), ?_⟩
  rintro ⟨_, i, rfl⟩
  have hi : (Equiv.ofInjective f hf).symm ⟨f i, i, rfl⟩ = i :=
    (Equiv.ofInjective f hf).symm_apply_apply i
  rw [Equiv.trans_apply, hi]
  exact (hlen i).symm

/-- The same number of letters in front. -/
theorem prepend {d d' : List ι} (hlen : d.length = d'.length) (h : SameLengths A B) :
    SameLengths ((d ++ ·) '' A) ((d' ++ ·) '' B) := by
  obtain ⟨e, he⟩ := h
  have hf : Function.Injective fun w : A => d ++ w.val := fun _ _ h =>
    Subtype.ext (append_cancel_left h)
  have hg : Function.Injective fun w : A => d' ++ (e w).val := fun _ _ h =>
    e.injective (Subtype.ext (append_cancel_left h))
  have hrange := of_range hf hg fun w => by
    rw [length_append, length_append, he, hlen]
  have hA : Set.range (fun w : A => d ++ w.val) = (d ++ ·) '' A := by
    ext w
    simp
  have hB : Set.range (fun w : A => d' ++ (e w).val) = (d' ++ ·) '' B := by
    ext w
    simp only [Set.mem_range, Set.mem_image]
    constructor
    · rintro ⟨u, rfl⟩
      exact ⟨(e u).val, (e u).property, rfl⟩
    · rintro ⟨u, hu, rfl⟩
      exact ⟨e.symm ⟨u, hu⟩, by rw [e.apply_symm_apply]⟩
  rwa [hA, hB] at hrange

/-- **As many words of each length.** -/
theorem ncard_eq (h : SameLengths A B) (n : ℕ) :
    {w ∈ A | w.length = n}.ncard = {w ∈ B | w.length = n}.ncard := by
  obtain ⟨e, he⟩ := h
  refine Set.ncard_congr (fun w hw => (e ⟨w, hw.1⟩).val) ?_ ?_ ?_
  · exact fun w hw => ⟨(e ⟨w, hw.1⟩).property, (he ⟨w, hw.1⟩).trans hw.2⟩
  · intro u w hu hw huw
    have := e.injective (Subtype.ext huw)
    exact congrArg Subtype.val this
  · intro w hw
    refine ⟨(e.symm ⟨w, hw.1⟩).val, ⟨(e.symm ⟨w, hw.1⟩).property, ?_⟩, ?_⟩
    · rw [← he, e.apply_symm_apply]
      exact hw.2
    · rw [Subtype.coe_eta, e.apply_symm_apply]

end SameLengths

/-! ### Codes -/

/-- No word of the code starts another word of it. -/
def PrefixFree (C : α → Set (List ι)) : Prop :=
  ∀ ⦃a b u v x y⦄, u ∈ C a → v ∈ C b → u ++ x = v ++ y → a = b ∧ u = v

/-- A prefix-free code of the values `S`, with as many words of each length for each of them. -/
structure Fair (C : α → Set (List ι)) (S : Set α) : Prop where
  prefixFree : PrefixFree C
  mem : ∀ ⦃a u⦄, u ∈ C a → a ∈ S
  same : ∀ ⦃a b⦄, a ∈ S → b ∈ S → SameLengths (C a) (C b)

/-- The code of a value that needs no letters. -/
def constant (a b : α) : Set (List ι) := {w | b = a ∧ w = []}

/-- The code of a value that depends on a letter. -/
def letters (f : ι → α) (a : α) : Set (List ι) := {w | ∃ i, w = [i] ∧ a = f i}

theorem Fair.constant (a : α) : Fair (constant a : α → Set (List ι)) {a} where
  prefixFree := by
    rintro _ _ _ _ x y ⟨rfl, rfl⟩ ⟨rfl, rfl⟩ h
    exact ⟨rfl, rfl⟩
  mem := fun _ _ h => h.1
  same := by
    rintro _ _ rfl rfl
    exact ⟨Equiv.refl _, fun _ => rfl⟩

theorem prefixFree_letters (f : ι → α) : PrefixFree (letters f) := by
  rintro _ _ _ _ x y ⟨i, rfl, rfl⟩ ⟨j, rfl, rfl⟩ h
  obtain rfl : i = j := (List.cons.inj h).1
  exact ⟨rfl, rfl⟩

theorem Fair.letters {f : ι → α} (hf : Function.Injective f) : Fair (letters f) (Set.range f) where
  prefixFree := prefixFree_letters f
  mem := by
    rintro _ _ ⟨i, rfl, rfl⟩
    exact ⟨i, rfl⟩
  same := by
    rintro _ _ ⟨i, rfl⟩ ⟨j, rfl⟩
    have hrange (i : ι) : Set.range (fun _ : Unit => [i]) = Codes.letters f (f i) := by
      ext w
      constructor
      · rintro ⟨-, rfl⟩
        exact ⟨i, rfl, rfl⟩
      · rintro ⟨i', rfl, h⟩
        exact ⟨(), by rw [hf h]⟩
    rw [← hrange, ← hrange]
    exact SameLengths.of_range (fun _ _ _ => rfl) (fun _ _ _ => rfl) fun _ => rfl

/-- The words of some attempts that give no value, and one that does. -/
def retries (C : Option α → Set (List ι)) (a : α) : Set (List ι) :=
  {w | ∃ (rs : List (List ι)) (u : List ι),
    (∀ r ∈ rs, r ∈ C none) ∧ u ∈ C (some a) ∧ w = rs.flatten ++ u}

variable {C : Option α → Set (List ι)}

/-- **Rejected attempts and a value** are read off a word in one way. -/
theorem PrefixFree.retries_unique (hC : PrefixFree C) {a b : α} {u v x y : List ι}
    (hu : u ∈ C (some a)) (hv : v ∈ C (some b)) :
    ∀ {rs ss : List (List ι)}, (∀ r ∈ rs, r ∈ C none) → (∀ s ∈ ss, s ∈ C none) →
      rs.flatten ++ (u ++ x) = ss.flatten ++ (v ++ y) → rs = ss ∧ a = b ∧ u = v
  | [],      [],      _,   _,   h => by
    obtain ⟨hab, huv⟩ := hC hu hv h
    exact ⟨rfl, Option.some.inj hab, huv⟩
  | [],      s :: ss, _,   hss, h => by
    rw [flatten_nil, nil_append, flatten_cons, List.append_assoc] at h
    exact nomatch (hC hu (hss s mem_cons_self) h).1
  | r :: rs, [],      hrs, _,   h => by
    rw [flatten_nil, nil_append, flatten_cons, List.append_assoc] at h
    exact nomatch (hC (hrs r mem_cons_self) hv h).1
  | r :: rs, s :: ss, hrs, hss, h => by
    rw [flatten_cons, flatten_cons, List.append_assoc, List.append_assoc] at h
    obtain ⟨_, rfl⟩ := hC (hrs r mem_cons_self) (hss s mem_cons_self) h
    obtain ⟨rfl, hrest⟩ := hC.retries_unique hu hv
      (fun r hr => hrs r (mem_cons_of_mem _ hr))
      (fun s hs => hss s (mem_cons_of_mem _ hs)) (append_cancel_left h)
    exact ⟨rfl, hrest⟩

theorem PrefixFree.retries (hC : PrefixFree C) : PrefixFree (retries C) := by
  rintro a b _ _ x y ⟨rs, u, hrs, hu, rfl⟩ ⟨ss, v, hss, hv, rfl⟩ h
  rw [List.append_assoc, List.append_assoc] at h
  obtain ⟨rfl, rfl, rfl⟩ := hC.retries_unique hu hv hrs hss h
  exact ⟨rfl, rfl⟩

/-- The rejected attempts, and the words of the value. -/
theorem PrefixFree.retries_same (hC : PrefixFree C) {a b : α}
    (h : SameLengths (C (some a)) (C (some b))) :
    SameLengths (Codes.retries C a) (Codes.retries C b) := by
  obtain ⟨e, he⟩ := h
  let Rejected := {rs : List (List ι) // ∀ r ∈ rs, r ∈ C none}
  have hf : Function.Injective fun p : Rejected × C (some a) => p.1.val.flatten ++ p.2.val := by
    rintro ⟨rs, u⟩ ⟨ss, v⟩ huv
    have huv' : rs.val.flatten ++ (u.val ++ []) = ss.val.flatten ++ (v.val ++ []) := by
      simpa using huv
    obtain ⟨hrs, -, hu⟩ := hC.retries_unique u.property v.property rs.property ss.property huv'
    exact Prod.ext (Subtype.ext hrs) (Subtype.ext hu)
  have hg : Function.Injective fun p : Rejected × C (some a) => p.1.val.flatten ++ (e p.2).val := by
    rintro ⟨rs, u⟩ ⟨ss, v⟩ huv
    have huv' : rs.val.flatten ++ ((e u).val ++ []) = ss.val.flatten ++ ((e v).val ++ []) := by
      simpa using huv
    obtain ⟨hrs, -, hu⟩ :=
      hC.retries_unique (e u).property (e v).property rs.property ss.property huv'
    exact Prod.ext (Subtype.ext hrs) (e.injective (Subtype.ext hu))
  have hrange := SameLengths.of_range hf hg fun p => by
    rw [length_append, length_append, he]
  have ha : Set.range (fun p : Rejected × C (some a) => p.1.val.flatten ++ p.2.val) =
      Codes.retries C a := by
    ext w
    constructor
    · rintro ⟨⟨rs, u⟩, rfl⟩
      exact ⟨rs.val, u.val, rs.property, u.property, rfl⟩
    · rintro ⟨rs, u, hrs, hu, rfl⟩
      exact ⟨⟨⟨rs, hrs⟩, ⟨u, hu⟩⟩, rfl⟩
  have hb : Set.range (fun p : Rejected × C (some a) => p.1.val.flatten ++ (e p.2).val) =
      Codes.retries C b := by
    ext w
    constructor
    · rintro ⟨⟨rs, u⟩, rfl⟩
      exact ⟨rs.val, (e u).val, rs.property, (e u).property, rfl⟩
    · rintro ⟨rs, u, hrs, hu, rfl⟩
      refine ⟨⟨⟨rs, hrs⟩, e.symm ⟨u, hu⟩⟩, ?_⟩
      simp only [e.apply_symm_apply]
  rwa [ha, hb] at hrange

/-- **Retries of a fair attempt** are fair. -/
theorem Fair.retries {S : Set α} (hC : PrefixFree C) (hmem : ∀ ⦃a u⦄, u ∈ C (some a) → a ∈ S)
    (hsame : ∀ ⦃a b⦄, a ∈ S → b ∈ S → SameLengths (C (some a)) (C (some b))) :
    Fair (Codes.retries C) S where
  prefixFree := hC.retries
  mem := by
    rintro a _ ⟨rs, u, hrs, hu, rfl⟩
    exact hmem hu
  same := fun _ _ ha hb => hC.retries_same (hsame ha hb)

/-! ### Readers -/

/-- A reader, by its fuel, reads the code: it stops with `stop` only, what it reads is a word of the
code, and it reads every word of the code when it has the fuel. -/
structure Reads (stop : ε) (s : ℕ → List ι → Except ε (α × List ι)) (C : α → Set (List ι)) :
    Prop where
  stops : ∀ ⦃n w e⦄, s n w = .error e → e = stop
  sound : ∀ ⦃n w a rest⦄, s n w = .ok (a, rest) → ∃ u ∈ C a, w = u ++ rest
  complete : ∀ ⦃a u⦄, u ∈ C a → ∃ n, ∀ m, n ≤ m → ∀ rest, s m (u ++ rest) = .ok (a, rest)

/-- Attempts until one gives a value. -/
@[simp] def retry (stop : ε) (attempt : List ι → Except ε (Option α × List ι)) :
    ℕ → List ι → Except ε (α × List ι)
  | 0,        _ => .error stop
  | fuel + 1, w => do
    match ← attempt w with
    | (some a, rest) => .ok (a, rest)
    | (none, rest) => retry stop attempt fuel rest

section Retry

variable {stop : ε} {attempt : List ι → Except ε (Option α × List ι)}

theorem retry_of_error {w : List ι} {e : ε} (h : attempt w = .error e) (fuel : ℕ) :
    retry stop attempt (fuel + 1) w = .error e := by
  rw [retry, h]
  rfl

theorem retry_of_some {w rest : List ι} {a : α} (h : attempt w = .ok (some a, rest)) (fuel : ℕ) :
    retry stop attempt (fuel + 1) w = .ok (a, rest) := by
  rw [retry, h]
  rfl

theorem retry_of_none {w rest : List ι} (h : attempt w = .ok (none, rest)) (fuel : ℕ) :
    retry stop attempt (fuel + 1) w = retry stop attempt fuel rest := by
  rw [retry, h]
  rfl

end Retry

namespace Reads

variable {stop : ε} {s : ℕ → List ι → Except ε (α × List ι)} {C : α → Set (List ι)}

/-- **The words read to the end** are the code. -/
theorem words (h : Reads stop s C) (a : α) :
    {w | ∃ n, s n w = .ok (a, [])} = C a := by
  ext w
  constructor
  · rintro ⟨n, hn⟩
    obtain ⟨u, hu, rfl⟩ := h.sound hn
    rwa [append_nil]
  · intro hw
    obtain ⟨n, hn⟩ := h.complete hw
    have := hn n le_rfl []
    rw [append_nil] at this
    exact ⟨n, this⟩

theorem constant {s : ℕ → List ι → Except ε (α × List ι)} {a : α}
    (hs : ∀ n w, s n w = .ok (a, w)) : Reads stop s (constant a) where
  stops := by
    intro n w e he
    rw [hs] at he
    cases he
  sound := by
    intro n w b rest he
    rw [hs] at he
    cases he
    exact ⟨[], ⟨rfl, rfl⟩, rfl⟩
  complete := by
    rintro _ _ ⟨rfl, rfl⟩
    exact ⟨0, fun _ _ rest => hs _ rest⟩

theorem letters {s : ℕ → List ι → Except ε (α × List ι)} {f : ι → α}
    (hnil : ∀ n, s n [] = .error stop) (hcons : ∀ n i w, s n (i :: w) = .ok (f i, w)) :
    Reads stop s (letters f) where
  stops := by
    rintro n (_ | ⟨i, w⟩) e he
    · rw [hnil] at he
      cases he
      rfl
    · rw [hcons] at he
      cases he
  sound := by
    rintro n (_ | ⟨i, w⟩) a rest he
    · rw [hnil] at he
      cases he
    · rw [hcons] at he
      cases he
      exact ⟨[i], ⟨i, rfl, rfl⟩, rfl⟩
  complete := by
    rintro _ _ ⟨i, rfl, rfl⟩
    exact ⟨0, fun _ _ rest => hcons _ i rest⟩

/-- **A loop** over attempts. -/
theorem retry {attempt : ℕ → List ι → Except ε (Option α × List ι)}
    {C : Option α → Set (List ι)} (h : Reads stop attempt C) :
    Reads stop (fun n => Codes.retry stop (attempt n) n) (retries C) where
  stops := by
    intro n w e
    have hloop : ∀ fuel w, Codes.retry stop (attempt n) fuel w = .error e → e = stop := by
      intro fuel
      induction fuel with
      | zero =>
        intro w he
        cases he
        rfl
      | succ fuel ih =>
        intro w he
        cases hw : attempt n w with
        | error e' =>
          rw [retry_of_error hw] at he
          cases he
          exact h.stops hw
        | ok r =>
          obtain ⟨_ | a, rest⟩ := r
          · rw [retry_of_none hw] at he
            exact ih rest he
          · rw [retry_of_some hw] at he
            cases he
    exact hloop n w
  sound := by
    intro n w a rest
    have hloop : ∀ fuel w, Codes.retry stop (attempt n) fuel w = .ok (a, rest) →
        ∃ u ∈ retries C a, w = u ++ rest := by
      intro fuel
      induction fuel with
      | zero =>
        intro w he
        cases he
      | succ fuel ih =>
        intro w he
        cases hw : attempt n w with
        | error e' =>
          rw [retry_of_error hw] at he
          cases he
        | ok r =>
          obtain ⟨_ | a, rest'⟩ := r
          · rw [retry_of_none hw] at he
            obtain ⟨r, hr, rfl⟩ := h.sound hw
            obtain ⟨_, ⟨rs, u, hrs, hu, rfl⟩, rfl⟩ := ih rest' he
            refine ⟨r ++ (rs.flatten ++ u), ⟨r :: rs, u, ?_, hu, ?_⟩, ?_⟩
            · exact forall_mem_cons.mpr ⟨hr, hrs⟩
            · rw [flatten_cons, List.append_assoc]
            · simp only [List.append_assoc]
          · rw [retry_of_some hw] at he
            cases he
            obtain ⟨u, hu, rfl⟩ := h.sound hw
            exact ⟨u, ⟨[], u, fun _ hr => (not_mem_nil hr).elim, hu, rfl⟩, rfl⟩
    exact hloop n w
  complete := by
    rintro a _ ⟨rs, u, hrs, hu, rfl⟩
    have hloop : ∃ n, ∀ m, n ≤ m → ∀ fuel, rs.length < fuel → ∀ rest,
        Codes.retry stop (attempt m) fuel (rs.flatten ++ (u ++ rest)) = .ok (a, rest) := by
      induction rs with
      | nil =>
        obtain ⟨n, hn⟩ := h.complete hu
        refine ⟨n, fun m hm fuel hfuel rest => ?_⟩
        obtain ⟨fuel, rfl⟩ := Nat.exists_eq_succ_of_ne_zero hfuel.ne_bot
        exact retry_of_some (hn m hm rest) fuel
      | cons r rs ih =>
        obtain ⟨hr, hrs⟩ := forall_mem_cons.mp hrs
        obtain ⟨n₁, hn₁⟩ := h.complete hr
        obtain ⟨n₂, hn₂⟩ := ih hrs
        refine ⟨max n₁ n₂, fun m hm fuel hfuel rest => ?_⟩
        obtain ⟨fuel, rfl⟩ := Nat.exists_eq_succ_of_ne_zero (Nat.ne_zero_of_lt hfuel)
        rw [flatten_cons, List.append_assoc,
          retry_of_none (hn₁ m (le_trans (le_max_left _ _) hm) _)]
        exact hn₂ m (le_trans (le_max_right _ _) hm) fuel (Nat.lt_of_succ_lt_succ hfuel) rest
    obtain ⟨n, hn⟩ := hloop
    refine ⟨max n (rs.length + 1), fun m hm rest => ?_⟩
    rw [List.append_assoc]
    exact hn m (le_trans (le_max_left _ _) hm) m (le_trans (le_max_right _ _) hm) rest

theorem of_succ {r : ℕ → List ι → Except ε (α × List ι)} (h : Reads stop s C)
    (hzero : ∀ w, r 0 w = .error stop) (hsucc : ∀ n w, r (n + 1) w = s n w) :
    Reads stop r C where
  stops := by
    intro n w e he
    cases n with
    | zero =>
      rw [hzero] at he
      cases he
      rfl
    | succ n =>
      rw [hsucc] at he
      exact h.stops he
  sound := by
    intro n w a rest hn
    cases n with
    | zero =>
      rw [hzero] at hn
      cases hn
    | succ n =>
      rw [hsucc] at hn
      exact h.sound hn
  complete := by
    intro a u hu
    obtain ⟨n, hn⟩ := h.complete hu
    refine ⟨n + 1, fun m hm rest => ?_⟩
    obtain ⟨m, rfl⟩ := Nat.exists_eq_succ_of_ne_zero (Nat.ne_zero_of_lt hm)
    rw [hsucc]
    exact hn m (Nat.le_of_succ_le_succ hm) rest

end Reads

end SourceLibs.Codes
